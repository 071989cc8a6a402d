import Msicp.Mem.FMallocHistory

/-!
# When `fm_realloc` keeps its promise

A caller of `fm_realloc` expects a block that is big enough and holds what the
old one held, or null and an untouched pool.  Each of the operations that
`fm_realloc` is made of stores into headers only, and all headers lie outside
the bytes of live blocks; so what is left to settle is where the block ends up
and when no new one is found.
-/

namespace Msicp.Mem

open Msicp.Support FmBlock
open Option hiding min_eq_left min_le_left min_le_right

variable {lo hi : ℕ} {qm qm' qm'' : FmBlock} {taken live : Finset ℕ}
  {fs : List ℕ} {lists : ℕ → List ℕ}

/-! ## Stores that miss a range of bytes -/

namespace FmBlock

/-- No header that differs between the two pools has a byte among the `len`
bytes at `a`. -/
def Spares (qm qm' : FmBlock) (a len : ℕ) : Prop :=
  ∀ g, qm'.frag g ≠ qm.frag g → g + fragOverhead ≤ a ∨ a + len ≤ g

variable {a len len' : ℕ}

theorem Spares.of_eq (h : qm'.frag = qm.frag) : qm.Spares qm' a len := by
  intro g hg
  exact absurd (congrFun h g) hg

theorem Spares.symm (h : qm.Spares qm' a len) : qm'.Spares qm a len :=
  fun g hg => h g hg.symm

theorem Spares.trans (h : qm.Spares qm' a len) (h' : qm'.Spares qm'' a len) :
    qm.Spares qm'' a len := by
  intro g hg
  by_cases hsame : qm'.frag g = qm.frag g
  · rw [← hsame] at hg
    exact h' g hg
  · exact h g hsame

theorem Spares.mono (h : qm.Spares qm' a len) (hle : len' ≤ len) :
    qm.Spares qm' a len' := by
  intro g hg
  have hlen := h g hg
  omega

/-- Some fragment on a free list has `size` bytes. -/
def HasFree (qm : FmBlock) (size : ℕ) : Prop :=
  ∃ hash < hashSize, ∃ l, (qm.bucket hash).Holds l ∧ ∃ f ∈ l, size ≤ (qm.frag f).size

/-- The test of `fm_realloc` for growing into the next fragment. -/
def Joinable (qm : FmBlock) (f size : ℕ) : Prop :=
  qm.fragNext f < qm.lastFrag ∧ (qm.frag (qm.fragNext f)).nxtFree.isSome ∧
    usub 64 size (qm.frag f).size ≤ uadd 64 (qm.frag (qm.fragNext f)).size fragOverhead

theorem frag_setNxt_of_ne {f g : ℕ} (hg : g ≠ f) (v : Option ℕ) :
    (qm.setNxt f v).frag g = qm.frag g :=
  Function.update_of_ne hg _ _

theorem frag_setSize_of_ne {f g : ℕ} (hg : g ≠ f) (n : ℕ) : (qm.setSize f n).frag g = qm.frag g :=
  Function.update_of_ne hg _ _

end FmBlock

variable {f size : ℕ}

section

variable (h : PoolInv lo hi qm taken fs lists)
include h

theorem PoolInv.spares {len : ℕ} (hf : f ∈ fs) (hlen : len ≤ (qm.frag f).size)
    (hout : ∀ g, g ∉ fs → qm'.frag g = qm.frag g) :
    qm.Spares qm' (f + fragOverhead) len := by
  intro g hg
  have hgfs : g ∈ fs := by
    by_contra hgfs
    exact hg (hout g hgfs)
  by_cases hgf : g = f
  · exact Or.inl (by omega)
  · have hdisj := h.tiles.disjoint hf hgfs (Ne.symm hgf)
    simp only [extent] at hdisj
    omega

theorem PoolInv.frag_setSlot {hash : ℕ}
    (hlt : hash < hashSize) {l₁ l₂ : List ℕ} (hl : lists hash = l₁ ++ l₂)
    (v : Option ℕ) {g : ℕ} (hg : g ∉ fs) :
    (qm.setSlot hash l₁.getLast? v).frag g = qm.frag g := by
  cases hlast : l₁.getLast? with
  | none => rfl
  | some c =>
    have hc : c ∈ lists hash := by
      rw [hl]
      exact List.mem_append_left _ (List.mem_of_getLast? hlast)
    have hgc : g ≠ c := by
      rintro rfl
      exact hg (h.listed hash hlt g hc).1
    exact FmBlock.frag_setNxt_of_ne hgc v

/-! ## What the operations store -/

theorem fmInsertFree_stores (hf : f ∈ taken) (hrun : fmInsertFree qm f = some qm') :
    qm.SameShape qm' ∧ (∀ g, g ∉ fs → qm'.frag g = qm.frag g) ∧ qm' ≠ qm := by
  have hfs := h.taken_mem f hf
  have hlt := h.getHash_lt hfs
  obtain ⟨l₁, l₂, hl, -, heq⟩ := fmInsertFree_eq h hf rfl
  set hash := getHash (qm.frag f).size
  rw [heq] at hrun
  obtain rfl := some.inj hrun
  refine ⟨?_, ?_, ?_⟩
  · exact ((qm.sameShape_setNxt f _).trans (sameShape_setSlot _ hash _ _)).trans
      (sameShape_setNo _ hash _)
  · intro g hg
    have hgf : g ≠ f := fun hEq => hg (hEq ▸ hfs)
    exact ((h.setNxt hf _).frag_setSlot hlt hl (some f) hg).trans (FmBlock.frag_setNxt_of_ne hgf _)
  · -- the counter of the list tells the pools apart
    intro hsame
    have hno := congrArg (fun qm => (qm.freeHash hash).no) hsame
    have hcount := h.count hash hlt
    have hlen := h.length_lt hlt
    have hbound := h.bound
    have hhigh := h.high
    simp only [setNo, Function.update_self] at hno
    rw [uadd_of_lt (by omega)] at hno
    omega

/-- `fm_split_frag` stores into headers of the fragments it leaves. -/
theorem fmSplitFrag_stores (hf : f ∈ taken) (hsize : size ≤ (qm.frag f).size)
    (hrun : fmSplitFrag qm f size = some qm') :
    ∃ fs' lists', PoolInv lo hi qm' taken fs' lists' ∧
      qm'.payload = qm.payload ∧ size ≤ (qm'.frag f).size ∧
      (∀ g ∈ taken, g ≠ f → (qm'.frag g).size = (qm.frag g).size) ∧
      ∀ g, g ∉ fs' → qm'.frag g = qm.frag g := by
  have hfs := h.taken_mem f hf
  rcases fmSplitFrag_cases h hf hsize with hkeep | ⟨hroom, hcut⟩
  · rw [hkeep] at hrun
    obtain rfl := some.inj hrun
    exact ⟨fs, lists, h, rfl, hsize, fun _ _ _ => rfl, fun _ _ => rfl⟩
  · set n := f + fragOverhead + size with hn
    obtain ⟨hnfs, fs', hfs', hinv⟩ := h.cut hf hroom hn
    have hnt : n ∉ taken := fun hmem => hnfs (h.taken_mem n hmem)
    have hfn : f ≠ n := fun hEq => hnfs (hEq ▸ hfs)
    rw [hcut] at hrun
    obtain ⟨qm₁, lists', hins, hinv', -⟩ :=
      fmInsertFree_spec hinv (Finset.mem_insert_self n taken)
    rw [hrun] at hins
    obtain rfl := some.inj hins
    rw [Finset.erase_insert hnt] at hinv'
    obtain ⟨hshape, hout, -⟩ :=
      fmInsertFree_stores hinv (Finset.mem_insert_self n taken) hrun
    refine ⟨fs', lists', hinv', hshape.payload, ?_, ?_, ?_⟩
    · rw [hshape.size, size_setSize_of_ne _ hfn, size_setSize_self]
    · intro g hg hgf
      have hgn : g ≠ n := fun hEq => hnt (hEq ▸ hg)
      rw [hshape.size, size_setSize_of_ne _ hgn, size_setSize_of_ne _ hgf]
    · intro g hg
      have hgn : g ≠ n := fun hEq => hg ((hfs' g).mpr (Or.inl hEq))
      have hgf : g ≠ f := by
        rintro rfl
        exact hg ((hfs' g).mpr (Or.inr hfs))
      exact (hout g hg).trans ((FmBlock.frag_setSize_of_ne hgn _).trans
        (FmBlock.frag_setSize_of_ne hgf _))

end

theorem FmBlock.WellFormed.splitFrag_stores (h : qm.WellFormed lo hi live)
    (hf : f ∈ live) (hsize : size ≤ (qm.frag f).size) :
    ∃ qm', fmSplitFrag qm f size = some qm' ∧ qm'.WellFormed lo hi live ∧
      qm'.payload = qm.payload ∧ size ≤ (qm'.frag f).size ∧
      qm.Spares qm' (f + fragOverhead) size := by
  obtain ⟨qm', hrun, hwf⟩ := h.splitFrag hf hsize
  obtain ⟨fs, lists, hinv, -⟩ := h
  obtain ⟨fs', lists', hinv', hpayload, hbig, -, hout⟩ :=
    fmSplitFrag_stores hinv hf hsize hrun
  have hspares : qm'.Spares qm (f + fragOverhead) size :=
    hinv'.spares (hinv'.taken_mem f hf) hbig (fun g hg => (hout g hg).symm)
  exact ⟨qm', hrun, hwf, hpayload, hbig, hspares.symm⟩

/-- The join of `fm_realloc` keeps the bytes of the block that grows. -/
theorem fmReallocJoin_stores (h : qm.WellFormed lo hi live)
    (hf : f ∈ live) (hlast : qm.fragNext f < qm.lastFrag)
    (hfree : (qm.frag (qm.fragNext f)).nxtFree.isSome)
    (hrun : fmReallocJoin qm f (qm.fragNext f) = some qm') :
    qm'.payload = qm.payload ∧ qm.Spares qm' (f + fragOverhead) (qm.frag f).size := by
  obtain ⟨fs, lists, hinv, hnull⟩ := h
  have hfs := hinv.taken_mem f hf
  have hnext := fragNext_eq hinv hfs
  obtain ⟨m₁, m₃, hm⟩ := hinv.fragNext_mem hfs hlast
  have hnfs : qm.fragNext f ∈ fs := by
    rw [hm]
    simp
  have hnlive : qm.fragNext f ∉ live := by
    intro hmem
    simp [hnull _ hmem] at hfree
  obtain ⟨l₁, l₂, hl, heq⟩ := fmReallocJoin_eq hinv hfs hnfs hnlive hnext rfl
  rw [heq] at hrun
  obtain rfl := some.inj hrun
  refine ⟨?_, hinv.spares hfs le_rfl ?_⟩
  · exact (qm.sameShape_setSlot _ _ _).payload
  · intro g hg
    have hgf : g ≠ f := fun hEq => hg (hEq ▸ hfs)
    exact (FmBlock.frag_setSize_of_ne hgf _).trans
      (hinv.frag_setSlot (hinv.getHash_lt hnfs) hl _ hg)

/-! ## The search for a new block -/

theorem getHash_mono {s t : ℕ} (hst : s ≤ t) (ht : t < 2 ^ 64) : getHash s ≤ getHash t := by
  by_cases hbig : t ≤ optimize
  · rw [getHash_of_le hbig, getHash_of_le (hst.trans hbig)]
    exact Nat.div_le_div_right hst
  · rw [not_le] at hbig
    rw [getHash_of_lt hbig ht]
    by_cases hs : s ≤ optimize
    · rw [getHash_of_le hs]
      have hdiv : s / roundTo ≤ optimize / roundTo := Nat.div_le_div_right hs
      omega
    · rw [not_le] at hs
      rw [getHash_of_lt hs (by omega)]
      have hlog : Nat.log2 s ≤ Nat.log2 t := by
        apply (Nat.le_log2 (by omega)).mpr
        exact (Nat.log2_self_le (by omega)).trans hst
      omega

/-- A search that finds nothing has passed over small fragments only. -/
theorem fmMallocSearch_none (h : PoolInv lo hi qm taken fs lists)
    {count hash : ℕ} (hcount : hash + count ≤ hashSize)
    (hrun : fmMallocSearch qm size count hash = some none) {hash' : ℕ}
    (hlow : hash ≤ hash') (hhigh : hash' < hash + count)
    (hf : f ∈ lists hash') : (qm.frag f).size < size := by
  induction count generalizing hash with
  | zero => omega
  | succ count ih =>
    have hlt : hash < hashSize := by omega
    obtain ⟨l₁, l₂, hl, h₁, -, hwalk⟩ :=
      h.walkBucket_eq hlt (fun f => decide (size ≤ (qm.frag f).size))
    cases l₂ with
    | cons g l₂ =>
      simp only [fmMallocSearch, hwalk, List.head?_cons, some.injEq, reduceCtorEq] at hrun
    | nil =>
      simp only [fmMallocSearch, hwalk, List.head?_nil] at hrun
      by_cases hsame : hash' = hash
      · rw [hsame, hl, List.append_nil] at hf
        simpa using h₁ f hf
      · exact ih (by omega) hrun (by omega) (by omega)

/-- `fm_malloc` either leaves the pool alone, and then no free fragment is big
enough, or takes a free fragment and keeps the bytes of all blocks. -/
theorem fmMalloc_cases (h : qm.WellFormed lo hi live) (size : ℕ) :
    fmMalloc qm size = some (qm, none) ∧ ¬qm.HasFree (roundUp size) ∨
      ∃ qm' g, fmMalloc qm size = some (qm', some (g + fragOverhead)) ∧
        qm.HasFree (roundUp size) ∧ g ∉ live ∧
        qm'.WellFormed lo hi (insert g live) ∧ qm'.payload = qm.payload ∧
        roundUp size ≤ (qm'.frag g).size ∧
        qm.Spares qm' (g + fragOverhead) (roundUp size) ∧
        ∀ f ∈ live, (qm'.frag f).size = (qm.frag f).size ∧
          qm.Spares qm' (f + fragOverhead) (qm.frag f).size := by
  have hspec := fmMalloc_spec h size
  obtain ⟨fs, lists, hinv, -⟩ := h
  have hlt : getHash (roundUp size) < hashSize := getHash_lt (roundUp_lt size)
  have hcount : getHash (roundUp size) + (hashSize - getHash (roundUp size)) ≤ hashSize := by omega
  rcases fmMallocSearch_spec hinv (roundUp size) hcount with
    hnone | ⟨hash, l₁, g, l₂, hhash, hl, hsize, hsearch⟩
  · refine Or.inl ⟨by simp [fmMalloc, hnone], ?_⟩
    rintro ⟨hash, hhash, l, hholds, f, hf, hbig⟩
    obtain rfl : l = lists hash := LinkSeg.unique hholds (hinv.holds hash hhash)
    obtain ⟨hfs, -, hfh⟩ := hinv.listed hash hhash f hf
    have hmono := getHash_mono hbig (hinv.size_lt hfs)
    have hsmall := fmMallocSearch_none hinv hcount hnone (hfh ▸ hmono) (by omega) hf
    omega
  · refine Or.inr ?_
    obtain ⟨hgfs, hgl, -⟩ := hinv.listed hash hhash g (by rw [hl]; simp)
    have hhas : qm.HasFree (roundUp size) :=
      ⟨hash, hhash, _, hinv.holds hash hhash, g, by rw [hl]; simp, hsize⟩
    set qm₁ := ((qm.setSlot hash l₁.getLast? (qm.frag g).nxtFree).setNo hash
      (usub 64 (qm.freeHash hash).no 1)).setNxt g none with hqm₁
    have hinv₁ : PoolInv lo hi qm₁ (insert g live) fs _ :=
      (hinv.unlink hhash hl).setNxt (Finset.mem_insert_self g live) none
    have hshape : qm.SameShape qm₁ :=
      ((qm.sameShape_setSlot hash _ _).trans (sameShape_setNo _ hash _)).trans
        (sameShape_setNxt _ g none)
    have hout₁ : ∀ x, x ∉ fs → qm₁.frag x = qm.frag x := by
      intro x hx
      have hxg : x ≠ g := fun hEq => hx (hEq ▸ hgfs)
      exact (FmBlock.frag_setNxt_of_ne hxg none).trans (hinv.frag_setSlot hhash hl _ hx)
    obtain ⟨qm', r, hrun, hwf, -⟩ := hspec
    have hfound := fmMalloc_of_found hsearch
    rw [hrun] at hfound
    obtain ⟨qm₂, hsplit, hpair⟩ := map_eq_some_iff.mp hfound.symm
    obtain ⟨rfl, rfl⟩ := Prod.mk.inj hpair
    rw [← setNxt_setNo, ← hqm₁] at hsplit
    obtain ⟨fs', lists', hinv', hpayload, hbig, hkeep, hout⟩ :=
      fmSplitFrag_stores hinv₁ (Finset.mem_insert_self g live)
        (hsize.trans (hshape.size g).ge) hsplit
    have hadd : uadd 64 g fragOverhead = g + fragOverhead := by
      have hend := (hinv.frag_end_le hgfs).2
      have hbound := hinv.bound
      have hhigh := hinv.high
      exact uadd_of_lt (by omega)
    rw [hadd] at hrun hwf
    rw [fragsOf_some, Finset.union_comm] at hwf
    -- the bytes are spared by the detachment and by the split
    have hspares : ∀ f ∈ insert g live, ∀ len, len ≤ (qm.frag f).size → len ≤ (qm₂.frag f).size →
          qm.Spares qm₂ (f + fragOverhead) len := by
      intro f hf len hlen hlen'
      have hback : qm₂.Spares qm₁ (f + fragOverhead) len :=
        hinv'.spares (hinv'.taken_mem f hf) hlen' (fun x hx => (hout x hx).symm)
      exact (hinv.spares (hinv₁.taken_mem f hf) hlen hout₁).trans hback.symm
    refine ⟨qm₂, g, hrun, hhas, hgl, hwf, hpayload.trans hshape.payload, hbig,
      hspares g (Finset.mem_insert_self g live) _ hsize hbig, ?_⟩
    intro f hf
    have hfg : f ≠ g := fun hEq => hgl (hEq ▸ hf)
    have hfsize : (qm₂.frag f).size = (qm.frag f).size :=
      (hkeep f (Finset.mem_insert_of_mem hf) hfg).trans (hshape.size f)
    exact ⟨hfsize, hspares f (Finset.mem_insert_of_mem hf) _ le_rfl hfsize.ge⟩

/-! ## The outcomes of a call -/

/-- The block behind the header `g` holds the first `len` bytes of the block
behind `f`, and no header was stored into either. -/
structure FmBlock.Carries (qm qm' : FmBlock) (f g len : ℕ) : Prop where
  bytes : ∀ i < len, qm'.payload (g + fragOverhead + i) =
    qm.payload (f + fragOverhead + i)
  source : qm.Spares qm' (f + fragOverhead) len
  target : qm.Spares qm' (g + fragOverhead) len

namespace FmBlock

variable {f g len len' size : ℕ}

theorem Carries.mono (h : qm.Carries qm' f g len) (hle : len' ≤ len) : qm.Carries qm' f g len' where
  bytes i hi := h.bytes i (lt_of_lt_of_le hi hle)
  source := h.source.mono hle
  target := h.target.mono hle

theorem Carries.inPlace (hpayload : qm'.payload = qm.payload)
    (h : qm.Spares qm' (f + fragOverhead) len) : qm.Carries qm' f f len where
  bytes _ _ := congrFun hpayload _
  source := h
  target := h

/-- A grown block: the part behind `size` may be cut off again. -/
theorem WellFormed.trim (h : qm.WellFormed lo hi live) (hf : f ∈ live)
    (hsize : size ≤ (qm.frag f).size) :
    ∃ qm', (if size < (qm.frag f).size then
        (fmSplitFrag qm f size).bind fun qm =>
          some (qm, some (f + fragOverhead))
      else some (qm, some (f + fragOverhead))) = some (qm', some (f + fragOverhead)) ∧
      qm'.WellFormed lo hi live ∧ size ≤ (qm'.frag f).size ∧
      qm.Carries qm' f f size := by
  by_cases hcut : size < (qm.frag f).size
  · obtain ⟨qm', hrun, hwf, hpayload, hbig, hspares⟩ :=
      h.splitFrag_stores hf hsize
    refine ⟨qm', ?_, hwf, hbig, Carries.inPlace hpayload hspares⟩
    rw [if_pos hcut, hrun, bind_some]
  · refine ⟨qm, if_neg hcut, h, hsize, ?_⟩
    exact Carries.inPlace rfl (Spares.of_eq rfl)

/-- `memcpy` to the new block and `fm_free` of the old one. -/
theorem WellFormed.copyFree (h : qm.WellFormed lo hi live) (hf : f ∈ live)
    (hg : g ∈ live) (hlen : len = (qm.frag f).size)
    (hle : len ≤ (qm.frag g).size) :
    ∃ qm', fmFree (qm.memcpy (g + fragOverhead) (f + fragOverhead) len)
        (some (f + fragOverhead)) = some qm' ∧
      qm'.WellFormed lo hi (live.erase f) ∧
      (qm'.frag g).size = (qm.frag g).size ∧ qm.Carries qm' f g len := by
  set qm₁ := qm.memcpy (g + fragOverhead) (f + fragOverhead) len
  have hwf₁ : qm₁.WellFormed lo hi live := h.memcpy _ _ _
  obtain ⟨qm', hfree, hwf⟩ := fmFree_spec hwf₁ (p := some (f + fragOverhead)) (by
      rintro q ⟨⟩
      exact ⟨f, hf, rfl⟩)
  have hsub : usub 64 (f + fragOverhead) fragOverhead = f := by
    rw [usub_of_le (by omega) (h.frag_bounds hf), Nat.add_sub_cancel]
  have hins : fmInsertFree qm₁ f = some qm' := by
    rw [← hfree, fmFree, hsub]
  obtain ⟨fs, lists, hinv, -⟩ := hwf₁
  obtain ⟨hshape, hout, -⟩ := fmInsertFree_stores hinv hf hins
  rw [fragsOf_some, Finset.sdiff_singleton_eq_erase] at hwf
  have hcopied : qm.Spares qm₁ (f + fragOverhead) len ∧ qm.Spares qm₁ (g + fragOverhead) len :=
    ⟨Spares.of_eq rfl, Spares.of_eq rfl⟩
  refine ⟨qm', hfree, hwf, hshape.size g, ?_, ?_, ?_⟩
  · intro i hi
    rw [hshape.payload]
    have hin : g + fragOverhead ≤ g + fragOverhead + i ∧
        g + fragOverhead + i < g + fragOverhead + len := by omega
    have hsrc : g + fragOverhead + i - (g + fragOverhead) +
        (f + fragOverhead) = f + fragOverhead + i := by omega
    refine (if_pos hin).trans ?_
    rw [hsrc]
  · exact hcopied.1.trans (hinv.spares (hinv.taken_mem f hf) hlen.le hout)
  · exact hcopied.2.trans (hinv.spares (hinv.taken_mem g hg) hle hout)

end FmBlock

theorem roundUp_roundUp (s : ℕ) : roundUp (roundUp s) = roundUp s := by
  have hlt := uadd_lt 64 s (roundTo - 1)
  have hadd : uadd 64 (roundUp s) (roundTo - 1) = roundUp s + (roundTo - 1) := by
    apply uadd_of_lt
    simp only [roundUp, roundDown, roundTo] at *
    omega
  rw [roundUp, hadd]
  simp only [roundUp, roundDown, roundTo]
  omega

/-- There is room for `size` bytes: in the block itself, together with the
fragment behind it, or in some free fragment. -/
def FmBlock.HasRoom (qm : FmBlock) (f size : ℕ) : Prop :=
  size ≤ (qm.frag f).size ∨ qm.Joinable f size ∨ qm.HasFree size

/-- A call of `fm_realloc` on a live block.  It returns a block only when there
is room, and that block carries on the old one; when it returns null the pool
has changed, since the old block is free. -/
theorem fmRealloc_cases (h : qm.WellFormed lo hi live) (hf : f ∈ live) (size : ℕ) :
    (∃ qm', fmRealloc qm (some (f + fragOverhead)) size = some (qm', none) ∧
      qm' ≠ qm ∧ (size = 0 ∨ ¬qm.HasRoom f (roundUp size))) ∨
    ∃ qm' g, fmRealloc qm (some (f + fragOverhead)) size = some (qm', some (g + fragOverhead)) ∧
      size ≠ 0 ∧ qm.HasRoom f (roundUp size) ∧
      qm'.WellFormed lo hi (insert g (live.erase f)) ∧
      roundUp size ≤ (qm'.frag g).size ∧
      qm.Carries qm' f g (min (qm.frag f).size (roundUp size)) := by
  have hsub : usub 64 (f + fragOverhead) fragOverhead = f := by
    rw [usub_of_le (by omega) (h.frag_bounds hf), Nat.add_sub_cancel]
  have hfreed : ∃ qm', fmFree qm (some (f + fragOverhead)) = some qm' ∧ qm' ≠ qm := by
    obtain ⟨fs, lists, hinv, -⟩ := h
    obtain ⟨qm', lists', hins, -, -⟩ := fmInsertFree_spec hinv hf
    exact ⟨qm', by rw [fmFree, hsub, hins], (fmInsertFree_stores hinv hf hins).2.2⟩
  have hback : insert f (live.erase f) = live := Finset.insert_erase hf
  by_cases hzero : size = 0
  · obtain ⟨qm', hfree, hne⟩ := hfreed
    refine Or.inl ⟨qm', ?_, hne, Or.inl hzero⟩
    unfold fmRealloc
    rw [if_pos hzero, hfree]
    rfl
  rw [fmRealloc, if_neg hzero]
  simp only [hsub]
  by_cases hshrink : roundUp size < (qm.frag f).size
  · rw [if_pos hshrink]
    obtain ⟨qm', hrun, hwf, hpayload, hbig, hspares⟩ :=
      h.splitFrag_stores hf hshrink.le
    refine Or.inr ⟨qm', f, ?_, hzero, Or.inl hshrink.le, by rwa [hback], hbig,
      (FmBlock.Carries.inPlace hpayload hspares).mono (min_le_right _ _)⟩
    rw [hrun]
    rfl
  rw [if_neg hshrink]
  by_cases hgrow : (qm.frag f).size < roundUp size
  · rw [if_pos hgrow]
    by_cases hjoin : qm.Joinable f (roundUp size) <;> unfold FmBlock.Joinable at hjoin
    · rw [if_pos hjoin]
      obtain ⟨qm₁, hrun₁, hwf₁, hsize₁⟩ :=
        fmReallocJoin_spec h hf hjoin.1 hjoin.2.1
      obtain ⟨hpayload₁, hspares₁⟩ :=
        fmReallocJoin_stores h hf hjoin.1 hjoin.2.1 hrun₁
      have hfits : roundUp size ≤ (qm₁.frag f).size := by
        have hdiff := hjoin.2.2
        obtain ⟨fs, lists, hinv, -⟩ := h
        obtain ⟨m₁, m₃, hm⟩ :=
          hinv.fragNext_mem (hinv.taken_mem f hf) hjoin.1
        have hend := (hinv.frag_end_le (f := qm.fragNext f) (by rw [hm]; simp)).2
        have hbound := hinv.bound
        have hhigh := hinv.high
        rw [usub_of_le hgrow.le (roundUp_lt size), uadd_of_lt (by omega)] at hdiff
        omega
      obtain ⟨qm', hrun', hwf', hbig, hcarry⟩ := hwf₁.trim hf hfits
      refine Or.inr ⟨qm', f, ?_, hzero, Or.inr (Or.inl hjoin), by rwa [hback], hbig, ?_⟩
      · exact (bind_of_eq_some hrun₁ _).trans hrun'
      · have hmin : min (qm.frag f).size (roundUp size) ≤ roundUp size :=
          min_le_right _ _
        have hspares := (hspares₁.mono (min_le_left _ (roundUp size))).trans
          (hcarry.source.mono hmin)
        refine ⟨?_, hspares, hspares⟩
        intro i hi
        rw [hcarry.bytes i (lt_of_lt_of_le hi hmin), hpayload₁]
    · rw [if_neg hjoin]
      rcases fmMalloc_cases h (roundUp size) with ⟨hnone, hfull⟩ |
        ⟨qm₁, g, hrun₁, hhas, hgl, hwf₁, hpayload₁, hbig₁, hspares₁, hkeep⟩
      · obtain ⟨qm', hfree, hne⟩ := hfreed
        rw [roundUp_roundUp] at hfull
        refine Or.inl ⟨qm', ?_, hne, Or.inr ?_⟩
        · refine (bind_of_eq_some hnone _).trans ?_
          exact (bind_of_eq_some hfree _).trans rfl
        · rintro (hsmall | hroom | hroom)
          · omega
          · exact hjoin hroom
          · exact hfull hroom
      · rw [roundUp_roundUp] at hhas hbig₁ hspares₁
        obtain ⟨hfsize, hspares⟩ := hkeep f hf
        obtain ⟨qm', hrun', hwf', hsize', hcarry⟩ := hwf₁.copyFree
          (Finset.mem_insert_of_mem hf) (Finset.mem_insert_self g live)
          hfsize.symm (hgrow.le.trans hbig₁)
        have hgf : g ≠ f := fun hEq => hgl (hEq ▸ hf)
        rw [Finset.erase_insert_of_ne hgf] at hwf'
        refine Or.inr ⟨qm', g, ?_, hzero, Or.inr (Or.inr hhas), hwf', hbig₁.trans hsize'.ge, ?_⟩
        · refine (bind_of_eq_some hrun₁ _).trans ?_
          exact (bind_of_eq_some hrun' _).trans rfl
        · rw [min_eq_left hgrow.le]
          refine ⟨?_, hspares.trans hcarry.source, (hspares₁.mono hgrow.le).trans hcarry.target⟩
          intro i hi
          rw [hcarry.bytes i hi, hpayload₁]
  · rw [if_neg hgrow]
    refine Or.inr ⟨qm, f, rfl, hzero, Or.inl (not_lt.mp hgrow), by rwa [hback], not_lt.mp hgrow, ?_⟩
    exact FmBlock.Carries.inPlace rfl (FmBlock.Spares.of_eq rfl)

/-! ## The contract -/

/-- What `fm_realloc` owes a caller that hands it the live fragment `f`: a live
block that is big enough and carries on the old one, or null with nothing
changed. -/
def FmState.ReallocKeeps (lo hi : ℕ) (s : FmState) (f size : ℕ) : Prop :=
  ∃ qm r, fmRealloc s.qm (some (f + fragOverhead)) size = some (qm, r) ∧ (r = none → qm = s.qm) ∧
    ∀ q ∈ r, ∃ g, q = g + fragOverhead ∧ qm.WellFormed lo hi (insert g (s.live.erase f)) ∧
      size ≤ (qm.frag g).size ∧
      s.qm.Carries qm f g (min (s.qm.frag f).size size)

/-- `fm_realloc` keeps the contract exactly when it finds room; for size 0, for
a size that wraps around when it is rounded up, and when the pool is full it
does not. -/
theorem fm_realloc_keeps_iff (frag : ℕ → FmFrag) (payload : ℕ → UInt8)
    (address poolSize : ℕ) (haddr : address + poolSize < 2 ^ 64) (qm : FmBlock)
    (hinit : fmMallocInit frag payload address poolSize = some qm)
    (s : FmState) (hreach : FmReach qm s) (f : ℕ) (hf : f ∈ s.live)
    (size : ℕ) :
    s.ReallocKeeps address (address + poolSize) f size ↔
      size ≠ 0 ∧ size + roundTo ≤ 2 ^ 64 ∧ s.qm.HasRoom f (roundUp size) := by
  have hwf := hreach.wellFormed (fmMallocInit_wellFormed haddr hinit)
  constructor
  · rintro ⟨qm', r, hrun, hnull, hblock⟩
    rcases fmRealloc_cases hwf hf size with ⟨qm'', hnone, hne, -⟩ |
      ⟨qm'', g, hsome, hzero, hroom, -, -, -⟩
    · rw [hnone] at hrun
      obtain ⟨rfl, rfl⟩ := Prod.mk.inj (some.inj hrun)
      exact absurd (hnull rfl) hne
    · rw [hsome] at hrun
      obtain ⟨rfl, rfl⟩ := Prod.mk.inj (some.inj hrun)
      obtain ⟨g', -, hwf', hbig, -⟩ := hblock _ rfl
      refine ⟨hzero, ?_, hroom⟩
      -- no block of the pool comes near the end of the address space
      obtain ⟨fs, lists, hinv, -⟩ := hwf'
      have hend := hinv.frag_end_le (hinv.taken_mem g' (Finset.mem_insert_self g' _))
      have hhigh := hinv.high
      have hover : roundTo ≤ fragOverhead := by decide
      omega
  · rintro ⟨hzero, hwrap, hroom⟩
    rcases fmRealloc_cases hwf hf size with ⟨qm', -, -, hwhy⟩ |
      ⟨qm', g, hsome, -, -, hwf', hbig, hcarry⟩
    · exact absurd hroom (hwhy.resolve_left hzero)
    · have hround := (roundUp_bounds hwrap).1
      refine ⟨qm', _, hsome, by simp, ?_⟩
      rintro q ⟨⟩
      exact ⟨g, rfl, hwf', hround.trans hbig, hcarry.mono (min_le_min le_rfl hround)⟩

/-- Shrinking the only block of a pool of 40000 bytes. -/
theorem fm_realloc_keeps_shrink : ∃ (qm : FmBlock) (s : FmState),
      fmMallocInit (fun _ => ⟨0, none⟩) (fun _ => 0) 4096 40000 = some qm ∧
      FmReach qm s ∧ s.live = {37704} ∧
      s.ReallocKeeps 4096 (4096 + 40000) 37704 3000 := by
  have hrun : ((fmMallocInit (fun _ => ⟨0, none⟩) (fun _ => 0) 4096
      40000).bind fun qm => (FmState.step ⟨qm, ∅⟩ (.malloc 6000)).map
        fun s => (s.live, (s.qm.frag 37704).size)) = some ({37704}, 6376) := by decide
  obtain ⟨qm, hqm, hcall⟩ := bind_eq_some_iff.mp hrun
  obtain ⟨s, hs, hpair⟩ := map_eq_some_iff.mp hcall
  obtain ⟨hlive, hold⟩ := Prod.mk.inj hpair
  have hop : FmOp.Admissible ⟨qm, ∅⟩ (.malloc 6000) := by
    change 6000 < 2 ^ 64
    decide
  have hreach : FmReach qm s := FmReach.step FmReach.init hop hs
  have hroom : s.qm.HasRoom 37704 (roundUp 3000) := by
    refine Or.inl ?_
    rw [hold]
    decide
  exact ⟨qm, s, hqm, hreach, hlive,
    (fm_realloc_keeps_iff (fun _ => ⟨0, none⟩) (fun _ => 0) 4096 40000
      (by decide) qm hqm s hreach 37704 (by rw [hlive]; decide) 3000).mpr
        ⟨by decide, by decide, hroom⟩⟩

/-- Growing that block beyond the pool: null comes back, and the block has gone
to a free list. -/
theorem fm_realloc_full : ∃ (qm : FmBlock) (s : FmState),
      fmMallocInit (fun _ => ⟨0, none⟩) (fun _ => 0) 4096 40000 = some qm ∧
      FmReach qm s ∧ 37704 ∈ s.live ∧
      (fmRealloc s.qm (some (37704 + fragOverhead)) 50000).map
        (fun r => (r.2, (r.1.freeHash (getHash 6376)).first)) = some (none, some 37704) ∧
      ¬s.ReallocKeeps 4096 (4096 + 40000) 37704 50000 := by
  have hrun : ((fmMallocInit (fun _ => ⟨0, none⟩) (fun _ => 0) 4096
      40000).bind fun qm => (FmState.step ⟨qm, ∅⟩ (.malloc 6000)).map
        fun s => (s.live, (s.qm.freeHash (getHash 6376)).first,
          (fmRealloc s.qm (some (37704 + fragOverhead)) 50000).map
            (fun r => (r.2, (r.1.freeHash (getHash 6376)).first)))) =
          some ({37704}, none, some (none, some 37704)) := by decide
  obtain ⟨qm, hqm, hcall⟩ := bind_eq_some_iff.mp hrun
  obtain ⟨s, hs, hpair⟩ := map_eq_some_iff.mp hcall
  obtain ⟨hlive, hpair⟩ := Prod.mk.inj hpair
  obtain ⟨hfirst, hcallee⟩ := Prod.mk.inj hpair
  have hop : FmOp.Admissible ⟨qm, ∅⟩ (.malloc 6000) := by
    change 6000 < 2 ^ 64
    decide
  refine ⟨qm, s, hqm, FmReach.step FmReach.init hop hs, by rw [hlive]; decide, hcallee, ?_⟩
  rintro ⟨qm', r, hcall', hnull, -⟩
  rw [hcall'] at hcallee
  obtain ⟨hr, hlist⟩ := Prod.mk.inj (some.inj hcallee)
  have hsame := hnull hr
  simp only [hsame, hfirst, reduceCtorEq] at hlist

end Msicp.Mem

/-!
## What `fm_malloc` finds

The search starts at the bucket of the rounded size.  As `GET_HASH` is
monotone, across the border between small and big buckets as well, every
fragment that fits is in that bucket or in a later one.
-/

namespace Msicp.Mem

open Msicp.Support

/-- What `fm_malloc` owes its caller: rounding up reaches the size that was
asked for, a block that is returned has room for it, and null is returned only
when no free fragment has room for the rounded size. -/
def FmState.MallocServes (lo hi : ℕ) (s : FmState) (size : ℕ) : Prop :=
  (size ≤ roundUp size ∧ roundUp size < size + roundTo) ∧
    ∃ qm r, fmMalloc s.qm size = some (qm, r) ∧ (r = none ↔ ¬s.qm.HasFree (roundUp size)) ∧
      (r = none → qm = s.qm) ∧
      ∀ q ∈ r, ∃ g, q = g + fragOverhead ∧ g ∉ s.live ∧
        qm.WellFormed lo hi (insert g s.live) ∧ size ≤ (qm.frag g).size

theorem roundUp_of_wrap {size : ℕ} (hsize : size < 2 ^ 64)
    (hwrap : 2 ^ 64 < size + roundTo) : roundUp size = 0 := by
  have hadd : uadd 64 size (roundTo - 1) = size + (roundTo - 1) - 2 ^ 64 := by
    simp only [uadd, roundTo] at *
    omega
  rw [roundUp, hadd]
  simp only [roundDown, roundTo] at *
  omega

/-- `fm_malloc` serves every size whose rounding does not wrap around, and no
other. -/
theorem fmMalloc_serves_iff (frag : ℕ → FmFrag) (payload : ℕ → UInt8)
    (address poolSize : ℕ) (haddr : address + poolSize < 2 ^ 64) (qm : FmBlock)
    (hinit : fmMallocInit frag payload address poolSize = some qm)
    (s : FmState) (hreach : FmReach qm s) (size : ℕ) (hsize : size < 2 ^ 64) :
    s.MallocServes address (address + poolSize) size ↔ size + roundTo ≤ 2 ^ 64 := by
  have hwf := hreach.wellFormed (fmMallocInit_wellFormed haddr hinit)
  constructor
  · rintro ⟨⟨hround, -⟩, -⟩
    by_contra hwrap
    rw [not_le] at hwrap
    rw [roundUp_of_wrap hsize hwrap] at hround
    simp only [roundTo] at hwrap
    omega
  · intro hwrap
    have hround := roundUp_bounds hwrap
    refine ⟨hround, ?_⟩
    rcases fmMalloc_cases hwf size with ⟨hrun, hfull⟩ |
      ⟨qm', g, hrun, hfree, hg, hwf', -, hbig, -⟩
    · exact ⟨_, none, hrun, by simpa using hfull, fun _ => rfl, by simp⟩
    · refine ⟨qm', some (g + fragOverhead), hrun, by simpa using hfree, by simp, ?_⟩
      rintro q ⟨⟩
      exact ⟨g, rfl, hg, hwf', hround.1.trans hbig⟩

/-- The pool of 40000 bytes, asked for 6000. -/
theorem fmMalloc_serves_6000 :
    ∃ qm, fmMallocInit (fun _ => ⟨0, none⟩) (fun _ => 0) 4096 40000 = some qm ∧
      FmState.MallocServes 4096 (4096 + 40000) ⟨qm, ∅⟩ 6000 := by
  have hrun : (fmMallocInit (fun _ => ⟨0, none⟩) (fun _ => 0) 4096
      40000).isSome = true := by decide
  obtain ⟨qm, hqm⟩ := Option.isSome_iff_exists.mp hrun
  exact ⟨qm, hqm, (fmMalloc_serves_iff (fun _ => ⟨0, none⟩) (fun _ => 0) 4096
    40000 (by decide) qm hqm ⟨qm, ∅⟩ FmReach.init 6000 (by decide)).mpr (by decide)⟩

set_option maxRecDepth 1024 in
/-- Asked for 2⁶⁴ - 1 bytes, it hands out a block of none. -/
theorem fmMalloc_wraps : ∃ qm, fmMallocInit (fun _ => ⟨0, none⟩) (fun _ => 0) 4096 40000 = some qm ∧
      (fmMalloc qm (2 ^ 64 - 1)).map (fun r =>
        (r.2, (r.1.frag 37704).size)) = some (some 37720, 0) ∧
      ¬FmState.MallocServes 4096 (4096 + 40000) ⟨qm, ∅⟩ (2 ^ 64 - 1) := by
  have hrun : (fmMallocInit (fun _ => ⟨0, none⟩) (fun _ => 0) 4096
      40000).bind (fun qm => (fmMalloc qm (2 ^ 64 - 1)).map fun r =>
        (r.2, (r.1.frag 37704).size)) = some (some 37720, 0) := by
    decide
  obtain ⟨qm, hqm, hcall⟩ := Option.bind_eq_some_iff.mp hrun
  refine ⟨qm, hqm, hcall, ?_⟩
  rintro ⟨⟨hround, -⟩, -⟩
  exact absurd hround (by decide)

end Msicp.Mem
