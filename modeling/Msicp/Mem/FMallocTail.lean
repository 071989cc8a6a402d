import Msicp.Mem.FMallocHistory

/-!
# The end of an `f_malloc` pool

`fm_malloc_init` makes the first fragment one header too long.  The way along
the fragments misses the last one, whose header lies in a payload; only a pool
without any room to hand out is free of that.
-/

namespace Msicp.Mem

open Msicp.Support Option

variable {lo hi : ℕ} {qm : FmBlock} {live : Finset ℕ} {f : ℕ} {fs : List ℕ}

/-- Following `FRAG_NEXT` from `f` passes the fragments `fs` and reaches `e`. -/
def FmBlock.Follows (qm : FmBlock) : ℕ → List ℕ → ℕ → Prop
  | f, [], e => f = e
  | f, g :: fs, e => f = g ∧ qm.Follows (qm.fragNext g) fs e

/-- The fragment lies in the pool behind `fm_block`. -/
def FmBlock.Inside (qm : FmBlock) (f : ℕ) : Prop :=
  qm.addr + sizeofBlock ≤ f ∧ f + qm.extent f ≤ qm.addr + qm.size

/-- No byte of the header of `g` is in the payload of `f`. -/
def FmBlock.Apart (qm : FmBlock) (f g : ℕ) : Prop :=
  ∀ a, f + fragOverhead ≤ a → a < f + qm.extent f → ¬(g ≤ a ∧ a < g + fragOverhead)

/-- The fragments lead from the first one to the last, in the pool, and the
payloads, of live blocks in particular, contain no header. -/
structure FmState.Sealed (s : FmState) (fs : List ℕ) : Prop where
  follows : s.qm.Follows s.qm.firstFrag fs s.qm.lastFrag
  inside : ∀ f ∈ fs, s.qm.Inside f
  last : s.qm.Inside s.qm.lastFrag
  live : ∀ f ∈ s.live, f = s.qm.lastFrag ∨ f ∈ fs
  apart : ∀ f, f = s.qm.lastFrag ∨ f ∈ fs → ∀ g, g = s.qm.lastFrag ∨ g ∈ fs →
    s.qm.Apart f g

/-! ## The frame of a pool -/

/-- Where the pool lies, with its first and last fragment. -/
def FmBlock.frame (qm : FmBlock) : ℕ × ℕ × ℕ × ℕ :=
  (qm.addr, qm.size, qm.firstFrag, qm.lastFrag)

@[simp] theorem frame_setSlot (hash : ℕ) (slot v : Option ℕ) :
    (qm.setSlot hash slot v).frame = qm.frame := by
  cases slot <;> rfl

variable {qm' : FmBlock} {size : ℕ} {s : FmState}

theorem fmInsertFree_frame (h : fmInsertFree qm f = some qm') : qm'.frame = qm.frame := by
  unfold fmInsertFree at h
  simp only at h
  split at h
  · obtain ⟨⟨slot, link⟩, -, hrest⟩ := bind_eq_some_iff.mp h
    cases hrest
    exact frame_setSlot _ _ _
  · cases h
    exact frame_setSlot _ _ _

theorem fmSplitFrag_frame (h : fmSplitFrag qm f size = some qm') : qm'.frame = qm.frame := by
  unfold fmSplitFrag at h
  simp only at h
  split at h
  · exact (fmInsertFree_frame h).trans rfl
  · cases h
    rfl

theorem fmMalloc_frame {r : Option ℕ}
    (h : fmMalloc qm size = some (qm', r)) : qm'.frame = qm.frame := by
  obtain ⟨found, -, hrest⟩ := bind_eq_some_iff.mp h
  cases found with
  | none =>
    cases hrest
    rfl
  | some x =>
    obtain ⟨hash, slot, frag⟩ := x
    obtain ⟨qm₁, hsplit, hret⟩ := bind_eq_some_iff.mp hrest
    cases hret
    exact (fmSplitFrag_frame hsplit).trans (frame_setSlot _ _ _)

theorem fmFree_frame {p : Option ℕ} (h : fmFree qm p = some qm') : qm'.frame = qm.frame := by
  cases p with
  | none =>
    cases h
    rfl
  | some p => exact fmInsertFree_frame h

theorem fmReallocJoin_frame {n : ℕ}
    (h : fmReallocJoin qm f n = some qm') : qm'.frame = qm.frame := by
  obtain ⟨⟨slot, found⟩, -, hrest⟩ := bind_eq_some_iff.mp h
  cases found with
  | none => cases hrest
  | some g =>
    cases hrest
    exact frame_setSlot _ _ _

theorem fmRealloc_frame {p r : Option ℕ}
    (h : fmRealloc qm p size = some (qm', r)) : qm'.frame = qm.frame := by
  unfold fmRealloc at h
  split at h
  · obtain ⟨qm₁, hfree, hret⟩ := bind_eq_some_iff.mp h
    cases hret
    exact fmFree_frame hfree
  cases p with
  | none => exact fmMalloc_frame h
  | some p =>
    simp only at h
    split at h
    · obtain ⟨qm₁, hsplit, hret⟩ := bind_eq_some_iff.mp h
      cases hret
      exact fmSplitFrag_frame hsplit
    split at h
    · split at h
      · obtain ⟨qm₁, hjoin, hrest⟩ := bind_eq_some_iff.mp h
        split at hrest
        · obtain ⟨qm₂, hsplit, hret⟩ := bind_eq_some_iff.mp hrest
          cases hret
          exact (fmSplitFrag_frame hsplit).trans (fmReallocJoin_frame hjoin)
        · cases hrest
          exact fmReallocJoin_frame hjoin
      · obtain ⟨⟨qm₁, ptr⟩, hmalloc, hrest⟩ := bind_eq_some_iff.mp h
        obtain ⟨qm₂, hfree, hret⟩ := bind_eq_some_iff.mp hrest
        cases hret
        have hmove := fmFree_frame hfree
        cases ptr with
        | none => exact hmove.trans (fmMalloc_frame hmalloc)
        | some ptr =>
          have hcopy : qm'.frame = qm₁.frame := hmove
          exact hcopy.trans (fmMalloc_frame hmalloc)
    · cases h
      rfl

theorem FmState.step_frame {s' : FmState} {op : FmOp}
    (h : s.step op = some s') : s'.qm.frame = s.qm.frame := by
  cases op with
  | malloc size =>
    obtain ⟨⟨qm₁, r⟩, hrun, hret⟩ := bind_eq_some_iff.mp h
    cases hret
    exact fmMalloc_frame hrun
  | free p =>
    obtain ⟨qm₁, hrun, hret⟩ := bind_eq_some_iff.mp h
    cases hret
    exact fmFree_frame hrun
  | realloc p size =>
    obtain ⟨⟨qm₁, r⟩, hrun, hret⟩ := bind_eq_some_iff.mp h
    cases hret
    exact fmRealloc_frame hrun

theorem FmReach.frame (h : FmReach qm s) : s.qm.frame = qm.frame := by
  induction h with
  | init => rfl
  | step _ _ hstep ih => exact (FmState.step_frame hstep).trans ih

/-! ## The last fragment -/

theorem fmMallocInit_frame {frag : ℕ → FmFrag} {payload : ℕ → UInt8}
    {address start size' : ℕ} (haddr : address + size < 2 ^ 64)
    (hstart : start = roundUp address)
    (hsize : size' = roundDown (size - (start - address)))
    (h : fmMallocInit frag payload address size = some qm) :
    initOverhead ≤ size' ∧ qm.frame = (start, size', start + sizeofBlock,
        start + size' - fragOverhead) := by
  obtain ⟨-, hend, hinit, hins⟩ := fmMallocInit_eq haddr hstart hsize h
  have hblock : roundUp sizeofBlock = sizeofBlock := by decide
  have hover : initOverhead = sizeofBlock + fragOverhead := by decide
  have hfirst : uadd 64 start (roundUp sizeofBlock) = start + sizeofBlock := by
    rw [hblock]
    exact uadd_of_lt (by omega)
  have hlast : usub 64 (uadd 64 start size') fragOverhead = start + size' - fragOverhead := by
    rw [uadd_of_lt (by omega), usub_of_le (by omega) (by omega)]
  refine ⟨hinit, (fmInsertFree_frame hins).trans ?_⟩
  rw [← hfirst, ← hlast]
  rfl

theorem not_sealed_of_overlap (a : ℕ) (hne : s.qm.firstFrag ≠ s.qm.lastFrag)
    (hpayload : s.qm.firstFrag + fragOverhead ≤ a ∧ a < s.qm.firstFrag + s.qm.extent s.qm.firstFrag)
    (hheader : s.qm.lastFrag ≤ a ∧ a < s.qm.lastFrag + fragOverhead) :
    ¬s.Sealed fs := by
  intro hsealed
  have hfollows := hsealed.follows
  cases fs with
  | nil => exact hne hfollows
  | cons g gs =>
    obtain ⟨rfl, -⟩ := hfollows
    exact hsealed.apart s.qm.firstFrag (.inr List.mem_cons_self)
      s.qm.lastFrag (.inl rfl) a hpayload.1 hpayload.2 hheader

/-- With room to hand out, the first fragment reaches over the last one. -/
theorem not_sealed {taken : Finset ℕ} {lists : ℕ → List ℕ}
    (hinv : PoolInv lo hi qm taken [qm.firstFrag] lists)
    (hroom : 0 < (qm.frag qm.firstFrag).size) :
    ¬FmState.Sealed ⟨qm, live⟩ fs := by
  have hlast := hinv.last
  have hpos : 0 < fragOverhead := by decide
  have hend : qm.firstFrag + qm.extent qm.firstFrag = qm.addr + qm.size :=
    tiles_nil.mp (tiles_cons.mp hinv.tiles).2
  have hextent : qm.extent qm.firstFrag = fragOverhead + (qm.frag qm.firstFrag).size := rfl
  have hne : qm.firstFrag ≠ qm.lastFrag := by omega
  have hpayload : qm.firstFrag + fragOverhead ≤ qm.addr + qm.size - 1 ∧
      qm.addr + qm.size - 1 < qm.firstFrag + qm.extent qm.firstFrag := by
    omega
  have hheader : qm.lastFrag ≤ qm.addr + qm.size - 1 ∧
      qm.addr + qm.size - 1 < qm.lastFrag + fragOverhead := by
    omega
  exact not_sealed_of_overlap (qm.addr + qm.size - 1) hne hpayload hheader

/-- A pool of headers only has one fragment, which is its last one. -/
theorem sealed_of_size {lists : ℕ → List ℕ} (hinv : PoolInv lo hi s.qm s.live fs lists)
    (hfirst : s.qm.firstFrag = s.qm.addr + sizeofBlock)
    (hsize : s.qm.size = initOverhead) : s.Sealed [] := by
  have hover : initOverhead = sizeofBlock + fragOverhead := by decide
  have hpos : 0 < fragOverhead := by decide
  have hlast := hinv.last
  have hsame : s.qm.firstFrag = s.qm.lastFrag := by omega
  have hone : ∀ f ∈ fs, f = s.qm.lastFrag := by
    intro f hf
    obtain ⟨hlow, hhigh⟩ := hinv.frag_end_le hf
    omega
  have hmem : s.qm.lastFrag ∈ fs := by
    cases fs with
    | nil =>
      have hnil := tiles_nil.mp hinv.tiles
      omega
    | cons f fs =>
      rw [← hone f List.mem_cons_self]
      exact List.mem_cons_self
  have hempty : (s.qm.frag s.qm.lastFrag).size = 0 := by
    obtain ⟨hlow, hhigh⟩ := hinv.frag_end_le hmem
    omega
  have hextent : s.qm.extent s.qm.lastFrag = fragOverhead := by
    rw [FmBlock.extent, hempty, Nat.add_zero]
  refine ⟨hsame, by simp, ?_, ?_, ?_⟩
  · rw [FmBlock.Inside, hextent]
    omega
  · exact fun f hf => .inl (hone f (hinv.taken_mem f hf))
  · rintro f (rfl | hf) g - a hlow hhigh
    · rw [hextent] at hhigh
      omega
    · cases hf

/-- The fragments of a pool lead to the last one, and stay apart from its
header, in the pools without room only. -/
theorem pool_sealed_iff (frag : ℕ → FmFrag) (payload : ℕ → UInt8)
    (address size : ℕ) (haddr : address + size < 2 ^ 64) (qm : FmBlock)
    (hinit : fmMallocInit frag payload address size = some qm) :
    (∀ s, FmReach qm s → ∃ fs, s.Sealed fs) ↔
      roundDown (size - (roundUp address - address)) = initOverhead := by
  obtain ⟨hstart, hend, hroom, hins⟩ := fmMallocInit_eq haddr rfl rfl hinit
  have hframe := (fmMallocInit_frame haddr rfl rfl hinit).2
  have hover : initOverhead = sizeofBlock + fragOverhead := by decide
  constructor
  · intro hall
    obtain ⟨fs, hsealed⟩ := hall ⟨qm, ∅⟩ FmReach.init
    obtain ⟨qm', lists, hins', hinv, -⟩ :=
      fmInsertFree_spec (fmInitBlock_poolInv frag payload hstart hend haddr
        hroom) (Finset.mem_singleton_self _)
    rw [hins] at hins'
    cases hins'
    have hsame : qm.firstFrag = (fmInitBlock frag payload (roundUp address)
        (roundDown (size - (roundUp address - address)))).firstFrag :=
      congrArg (fun x => x.2.2.1) (fmInsertFree_frame hins)
    rw [← hsame] at hinv
    have hnone : ¬0 < (qm.frag qm.firstFrag).size :=
      fun hpos => not_sealed hinv hpos hsealed
    have hreach : qm.firstFrag + qm.extent qm.firstFrag = qm.addr + qm.size :=
      tiles_nil.mp (tiles_cons.mp hinv.tiles).2
    simp only [FmBlock.frame, Prod.mk.injEq] at hframe
    rw [FmBlock.extent] at hreach
    omega
  · intro hsize s hs
    obtain ⟨fs, lists, hinv, -⟩ :=
      hs.wellFormed (fmMallocInit_wellFormed haddr hinit)
    have hkeep := hs.frame.trans hframe
    simp only [FmBlock.frame, Prod.mk.injEq] at hkeep
    obtain ⟨hsaddr, hssize, hsfirst, -⟩ := hkeep
    exact ⟨[], sealed_of_size hinv (by rw [hsfirst, hsaddr]) (hssize.trans hsize)⟩

/-- A pool of headers only. -/
theorem pool_sealed_iff_full :
    ∃ qm, fmMallocInit (fun _ => ⟨0, none⟩) (fun _ => 0) 4096 initOverhead = some qm ∧
      ∀ s, FmReach qm s → ∃ fs, s.Sealed fs := by
  have hsome : fmMallocInit (fun _ => ⟨0, none⟩) (fun _ => 0) 4096
      initOverhead = some _ := (some_get (by decide)).symm
  exact ⟨_, hsome, (pool_sealed_iff _ _ _ _ (by decide) _ hsome).mpr (by decide)⟩

/-- In a pool of 40000 bytes the block that takes all of it contains the header
of the last fragment. -/
theorem last_frag_overwritten :
    ∃ qm s, fmMallocInit (fun _ => ⟨0, none⟩) (fun _ => 0) 4096 40000 = some qm ∧
      FmReach qm s ∧ s.live = {s.qm.firstFrag} ∧
      s.qm.firstFrag + fragOverhead ≤ s.qm.lastFrag ∧
      s.qm.lastFrag + fragOverhead ≤ s.qm.firstFrag + s.qm.extent s.qm.firstFrag ∧
      ∀ fs, ¬s.Sealed fs := by
  have hrun : ((fmMallocInit (fun _ => ⟨0, none⟩) (fun _ => 0) 4096 40000).bind fun qm =>
        (FmState.step ⟨qm, ∅⟩ (.malloc 6376)).map fun s =>
          (s.live, s.qm.firstFrag, s.qm.lastFrag, s.qm.extent s.qm.firstFrag)) =
      some ({37704}, 37704, 44080, 6392) := by decide
  obtain ⟨qm, hqm, hcall⟩ := bind_eq_some_iff.mp hrun
  obtain ⟨s, hs, hshape⟩ := map_eq_some_iff.mp hcall
  simp only [Prod.mk.injEq] at hshape
  obtain ⟨hlive, hfirst, hlast, hextent⟩ := hshape
  have hsize : FmOp.Admissible ⟨qm, ∅⟩ (.malloc 6376) := by
    change 6376 < 2 ^ 64
    decide
  have hover : fragOverhead = 16 := rfl
  refine ⟨qm, s, hqm, FmReach.step FmReach.init hsize hs,
    by rw [hlive, hfirst], by omega, by omega, fun fs => ?_⟩
  exact not_sealed_of_overlap 44080 (by omega) (by omega) (by omega)

end Msicp.Mem
