import Msicp.Mem.FMallocRealloc
import Mathlib.Logic.Relation

/-!
# The blocks that a call is not about

A live block keeps its place, its size and its bytes through every run of calls
in which it is not passed in itself.
-/

namespace Msicp.Mem

open Msicp.Support Option

variable {lo hi : ℕ} {qm qm' qm'' : FmBlock} {taken live : Finset ℕ} {fs : List ℕ}
  {lists : ℕ → List ℕ} {f g size len : ℕ}

/-- The block behind `f` is as it was, and no header was stored into it. -/
structure FmBlock.Kept (qm qm' : FmBlock) (f : ℕ) : Prop where
  size : (qm'.frag f).size = (qm.frag f).size
  carries : qm.Carries qm' f f (qm.frag f).size

theorem FmBlock.Kept.refl : qm.Kept qm f :=
  ⟨rfl, .inPlace rfl (Spares.of_eq rfl)⟩

theorem FmBlock.Kept.trans (h : qm.Kept qm' f) (h' : qm'.Kept qm'' f) : qm.Kept qm'' f := by
  obtain ⟨hsize, hcarry⟩ := h
  obtain ⟨hsize', hcarry'⟩ := h'
  rw [hsize] at hcarry' hsize'
  have hspares := hcarry.source.trans hcarry'.source
  exact ⟨hsize', fun i hi => (hcarry'.bytes i hi).trans (hcarry.bytes i hi), hspares, hspares⟩

/-- Stores into headers of fragments keep a block whose size they keep. -/
theorem PoolInv.kept (h : PoolInv lo hi qm taken fs lists) (hf : f ∈ fs)
    (hsize : (qm'.frag f).size = (qm.frag f).size) (hpayload : qm'.payload = qm.payload)
    (hout : ∀ x, x ∉ fs → qm'.frag x = qm.frag x) : qm.Kept qm' f :=
  ⟨hsize, .inPlace hpayload (h.spares hf le_rfl hout)⟩

/-! ## The operations -/

section

variable (h : qm.WellFormed lo hi live) (hf : f ∈ live) (hg : g ∈ live)
include h hf hg

theorem fmFree_kept (hrun : fmFree qm (some (g + fragOverhead)) = some qm') : qm.Kept qm' f := by
  have hsub : usub 64 (g + fragOverhead) fragOverhead = g := by
    rw [usub_of_le (by omega) (h.frag_bounds hg), Nat.add_sub_cancel]
  rw [fmFree, hsub] at hrun
  obtain ⟨fs, lists, hinv, -⟩ := h
  obtain ⟨hshape, hout, -⟩ := fmInsertFree_stores hinv hg hrun
  exact hinv.kept (hinv.taken_mem f hf) (hshape.size f) hshape.payload hout

variable (hfg : f ≠ g)
include hfg

theorem fmSplitFrag_kept (hsize : size ≤ (qm.frag g).size)
    (hrun : fmSplitFrag qm g size = some qm') : qm.Kept qm' f := by
  obtain ⟨fs, lists, hinv, -⟩ := h
  obtain ⟨fs', lists', hinv', hpayload, -, hkeep, hout⟩ := fmSplitFrag_stores hinv hg hsize hrun
  have hfsize := hkeep f hf hfg
  have hspares := hinv'.spares (hinv'.taken_mem f hf) hfsize.ge fun x hx => (hout x hx).symm
  exact ⟨hfsize, .inPlace hpayload hspares.symm⟩

theorem fmReallocJoin_kept (hlast : qm.fragNext g < qm.lastFrag)
    (hfree : (qm.frag (qm.fragNext g)).nxtFree.isSome)
    (hrun : fmReallocJoin qm g (qm.fragNext g) = some qm') : qm.Kept qm' f := by
  obtain ⟨fs, lists, hinv, hnull⟩ := h
  have hgs := hinv.taken_mem g hg
  obtain ⟨m₁, m₃, hm⟩ := hinv.fragNext_mem hgs hlast
  have hns : qm.fragNext g ∈ fs := by
    rw [hm]
    simp
  have hnlive : qm.fragNext g ∉ live := by
    intro hmem
    simp [hnull _ hmem] at hfree
  obtain ⟨l₁, l₂, hl, heq⟩ := fmReallocJoin_eq hinv hgs hns hnlive (fragNext_eq hinv hgs) rfl
  rw [heq] at hrun
  obtain rfl := some.inj hrun
  refine hinv.kept (hinv.taken_mem f hf) ?_ (qm.sameShape_setSlot _ _ _).payload ?_
  · exact (FmBlock.size_setSize_of_ne _ hfg _).trans ((qm.sameShape_setSlot _ _ _).size f)
  · intro x hx
    have hxg : x ≠ g := fun hEq => hx (hEq ▸ hgs)
    exact (FmBlock.frag_setSize_of_ne hxg _).trans
      (hinv.frag_setSlot (hinv.getHash_lt hns) hl _ hx)

theorem memcpy_kept (src : ℕ) (hlen : len ≤ (qm.frag g).size) :
    qm.Kept (qm.memcpy (g + fragOverhead) src len) f := by
  obtain ⟨fs, lists, hinv, -⟩ := h
  have hdisj := hinv.tiles.disjoint (hinv.taken_mem f hf) (hinv.taken_mem g hg) hfg
  simp only [FmBlock.extent] at hdisj
  refine ⟨rfl, fun i hi => if_neg ?_, .of_eq rfl, .of_eq rfl⟩
  omega

end

theorem fmMalloc_kept (h : qm.WellFormed lo hi live) (hf : f ∈ live) {r : Option ℕ}
    (hrun : fmMalloc qm size = some (qm', r)) : qm.Kept qm' f := by
  rcases fmMalloc_cases h size with
    ⟨hnone, -⟩ | ⟨qm₁, g, hsome, -, -, -, hpayload, -, -, hkeep⟩
  · obtain ⟨rfl, -⟩ := Prod.mk.inj (some.inj (hnone.symm.trans hrun))
    exact .refl
  · obtain ⟨rfl, -⟩ := Prod.mk.inj (some.inj (hsome.symm.trans hrun))
    obtain ⟨hsize, hspares⟩ := hkeep f hf
    exact ⟨hsize, .inPlace hpayload hspares⟩

theorem fmRealloc_kept (h : qm.WellFormed lo hi live) (hf : f ∈ live) (hg : g ∈ live) (hfg : f ≠ g)
    {r : Option ℕ} (hrun : fmRealloc qm (some (g + fragOverhead)) size = some (qm', r)) :
    qm.Kept qm' f := by
  have hsub : usub 64 (g + fragOverhead) fragOverhead = g := by
    rw [usub_of_le (by omega) (h.frag_bounds hg), Nat.add_sub_cancel]
  simp only [fmRealloc, hsub] at hrun
  split at hrun
  · obtain ⟨q, hfree, hq⟩ := bind_eq_some_iff.mp hrun
    obtain ⟨rfl, -⟩ := Prod.mk.inj (some.inj hq)
    exact fmFree_kept h hf hg hfree
  split at hrun
  · rename_i hshrink
    obtain ⟨q, hsplit, hq⟩ := bind_eq_some_iff.mp hrun
    obtain ⟨rfl, -⟩ := Prod.mk.inj (some.inj hq)
    exact fmSplitFrag_kept h hf hg hfg hshrink.le hsplit
  split at hrun
  · split at hrun
    · rename_i hjoin
      obtain ⟨q, hrun₁, hq⟩ := bind_eq_some_iff.mp hrun
      obtain ⟨_, heq, hwf, -⟩ := fmReallocJoin_spec h hg hjoin.1 hjoin.2.1
      obtain rfl := some.inj (heq.symm.trans hrun₁)
      have hkept := fmReallocJoin_kept h hf hg hfg hjoin.1 hjoin.2.1 hrun₁
      split at hq
      · rename_i hrest
        obtain ⟨q', hsplit, hq'⟩ := bind_eq_some_iff.mp hq
        obtain ⟨rfl, -⟩ := Prod.mk.inj (some.inj hq')
        exact hkept.trans (fmSplitFrag_kept hwf hf hg hfg hrest.le hsplit)
      · obtain ⟨rfl, -⟩ := Prod.mk.inj (some.inj hq)
        exact hkept
    · rename_i hgrow _
      obtain ⟨⟨q, ptr⟩, hmalloc, hq⟩ := bind_eq_some_iff.mp hrun
      obtain ⟨q', hfree, hq'⟩ := bind_eq_some_iff.mp hq
      obtain ⟨rfl, -⟩ := Prod.mk.inj (some.inj hq')
      have hkept := fmMalloc_kept h hf hmalloc
      rcases fmMalloc_cases h (roundUp size) with
        ⟨hnone, -⟩ | ⟨q, k, hsome, -, hk, hwf, -, hbig, -⟩
      · obtain ⟨rfl, rfl⟩ := Prod.mk.inj (some.inj (hnone.symm.trans hmalloc))
        exact fmFree_kept h hf hg hfree
      · obtain ⟨rfl, rfl⟩ := Prod.mk.inj (some.inj (hsome.symm.trans hmalloc))
        have hfk : f ≠ k := fun hEq => hk (hEq ▸ hf)
        have hf' := Finset.mem_insert_of_mem (b := k) hf
        rw [roundUp_roundUp] at hbig
        exact (hkept.trans (memcpy_kept hwf hf' (Finset.mem_insert_self k live) hfk _
          (hgrow.le.trans hbig))).trans
            (fmFree_kept (hwf.memcpy _ _ _) hf' (Finset.mem_insert_of_mem hg) hfree)
  · obtain ⟨rfl, -⟩ := Prod.mk.inj (some.inj hrun)
    exact .refl

/-! ## Runs -/

/-- The pointer that is passed in. -/
def FmOp.passed : FmOp → Option ℕ
  | .malloc _ => none
  | .free p => p
  | .realloc p _ => p

/-- A call in which the block behind `f` is not passed in. -/
def Bystands (f : ℕ) (s s' : FmState) : Prop :=
  ∃ op : FmOp, op.Admissible s ∧ f ∉ fragsOf op.passed ∧ s.step op = some s'

theorem Bystands.kept {s s' : FmState} (h : s.qm.WellFormed lo hi s.live) (hf : f ∈ s.live)
    (hstep : Bystands f s s') : f ∈ s'.live ∧ s.qm.Kept s'.qm f := by
  obtain ⟨op, hop, hpassed, hrun⟩ := hstep
  cases op with
  | malloc size =>
    obtain ⟨⟨q, r⟩, hmalloc, hq⟩ := bind_eq_some_iff.mp hrun
    obtain rfl := some.inj hq
    exact ⟨Finset.mem_union_left _ hf, fmMalloc_kept h hf hmalloc⟩
  | free p =>
    obtain ⟨q, hfree, hq⟩ := bind_eq_some_iff.mp hrun
    obtain rfl := some.inj hq
    refine ⟨Finset.mem_sdiff.mpr ⟨hf, hpassed⟩, ?_⟩
    cases p with
    | none =>
      obtain rfl := some.inj hfree
      exact .refl
    | some p =>
      obtain ⟨g, hg, rfl⟩ := hop p rfl
      exact fmFree_kept h hf hg hfree
  | realloc p size =>
    obtain ⟨⟨q, r⟩, hrealloc, hq⟩ := bind_eq_some_iff.mp hrun
    obtain rfl := some.inj hq
    refine ⟨Finset.mem_union_left _ (Finset.mem_sdiff.mpr ⟨hf, hpassed⟩), ?_⟩
    cases p with
    | none =>
      simp only [fmRealloc, fmFree] at hrealloc
      split at hrealloc
      · obtain ⟨rfl, -⟩ := Prod.mk.inj (some.inj hrealloc)
        exact .refl
      · exact fmMalloc_kept h hf hrealloc
    | some p =>
      obtain ⟨g, hg, rfl⟩ := hop.1 p rfl
      refine fmRealloc_kept h hf hg (fun hEq => hpassed ?_) hrealloc
      rw [hEq, FmOp.passed, fragsOf_some]
      exact Finset.mem_singleton_self g

/-- Whatever is called on a pool: a live block stays live, in its place, with
its size and its bytes, until it is passed in itself. -/
theorem fm_bystander_kept (frag : ℕ → FmFrag) (payload : ℕ → UInt8) (address size : ℕ)
    (haddr : address + size < 2 ^ 64) (qm : FmBlock)
    (hinit : fmMallocInit frag payload address size = some qm) (s s' : FmState)
    (hreach : FmReach qm s) (f : ℕ) (hf : f ∈ s.live)
    (hrun : Relation.ReflTransGen (Bystands f) s s') : f ∈ s'.live ∧ s.qm.Kept s'.qm f := by
  have hinv : FmReach qm s' ∧ f ∈ s'.live ∧ s.qm.Kept s'.qm f := by
    induction hrun with
    | refl => exact ⟨hreach, hf, .refl⟩
    | tail _ hstep ih =>
      obtain ⟨hreach', hlive, hkept⟩ := ih
      have hwf := hreach'.wellFormed (fmMallocInit_wellFormed haddr hinit)
      obtain ⟨hlive', hkept'⟩ := hstep.kept hwf hlive
      obtain ⟨op, hop, -, hop'⟩ := hstep
      exact ⟨hreach'.step hop hop', hlive', hkept.trans hkept'⟩
  exact hinv.2

set_option maxRecDepth 4096 in
/-- A block of a pool of 40000 bytes while another one is taken. -/
theorem fm_bystander_kept_6000 : ∃ (qm : FmBlock) (s s' : FmState),
    fmMallocInit (fun _ => ⟨0, none⟩) (fun _ => 0) 4096 40000 = some qm ∧
      FmReach qm s ∧ s.live = {37704} ∧ 37704 ∈ s'.live ∧ s.qm.Kept s'.qm 37704 := by
  have hrun : ((fmMallocInit (fun _ => ⟨0, none⟩) (fun _ => 0) 4096 40000).bind fun qm =>
      (FmState.step ⟨qm, ∅⟩ (.malloc 6000)).bind fun s =>
        (s.step (.malloc 100)).map fun _ => s.live) = some {37704} := by decide
  obtain ⟨qm, hqm, hcall⟩ := bind_eq_some_iff.mp hrun
  obtain ⟨s, hs, hcall'⟩ := bind_eq_some_iff.mp hcall
  obtain ⟨s', hs', hlive⟩ := map_eq_some_iff.mp hcall'
  have hlt : 6000 < 2 ^ 64 ∧ 100 < 2 ^ 64 := by decide
  have hreach : FmReach qm s := @FmReach.step qm _ _ (.malloc 6000) .init hlt.1 hs
  obtain ⟨hlive', hkept⟩ := fm_bystander_kept (fun _ => ⟨0, none⟩) (fun _ => 0) 4096 40000
    (by decide) qm hqm s s' hreach 37704 (by rw [hlive]; decide)
    (.single ⟨.malloc 100, hlt.2, by simp [FmOp.passed, fragsOf], hs'⟩)
  exact ⟨qm, s, s', hqm, hreach, hlive, hlive', hkept⟩

end Msicp.Mem
