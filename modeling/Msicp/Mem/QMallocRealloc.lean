import Msicp.Mem.QMallocCalls

/-!
# `qm_realloc`

A block shrinks where it is, it grows into the free fragment behind it, or it moves.
-/

namespace Msicp.Mem

open Msicp.Support QmBlock
open Option hiding min_eq_left min_eq_right

namespace QmBlock

variable (qm : QmBlock)

/-- Some fragment of the pool that is marked free has `size` bytes. -/
def HasFree (size : ℕ) : Prop :=
  ∃ fs, Tiles qm.extent qm.firstFrag fs (qm.addr + qm.size) ∧
    ∃ f ∈ fs, qm.next f ≠ 0 ∧ size ≤ (qm.frag f).size

/-- `qm_malloc` finds room for the rounded size: the counters leave some, and there is a
free fragment. -/
def Serves (size : ℕ) : Prop :=
  size ≤ usub 64 qm.size qm.realUsed ∧ qm.HasFree size

/-- The test of `qm_realloc` for growing into the next fragment. -/
def Joinable (f size : ℕ) : Prop :=
  qm.fragNext f < qm.lastFragEnd ∧ qm.next (qm.fragNext f) ≠ 0 ∧
    usub 64 size (qm.frag f).size ≤ uadd 64 (qm.frag (qm.fragNext f)).size qmOverhead

/-- There is room for `size` bytes: in the block, together with the fragment behind it, or
elsewhere. -/
def HasRoom (f size : ℕ) : Prop :=
  size ≤ (qm.frag f).size ∨ qm.Joinable f size ∨ qm.Serves size

end QmBlock

/-- The block behind the head `g` holds the first `len` bytes of the block behind `f`, and
no head or tail was stored into either. -/
structure QmBlock.Carries (qm qm' : QmBlock) (f g len : ℕ) : Prop where
  bytes : ∀ i < len, qm'.payload (g + qmFragSize + i) = qm.payload (f + qmFragSize + i)
  source : QmInv.Spares qm qm' (f + qmFragSize) len
  target : QmInv.Spares qm qm' (g + qmFragSize) len

namespace QmInv

variable {qm qm' : QmBlock} {taken : Finset ℕ} {fs fs' : List ℕ} {lists : ℕ → List ℕ}
  {f g n size len : ℕ}

theorem hasFree_iff (h : QmInv qm taken fs lists) (hnull : ∀ g ∈ taken, qm.next g = 0) :
    qm.HasFree size ↔ ∃ f ∈ fs, f ∉ taken ∧ size ≤ (qm.frag f).size := by
  constructor
  · rintro ⟨fs', htiles, f, hf, hfree, hsize⟩
    have hsame : fs' = fs := htiles.unique h.tiles fun g => by
      simp only [extent, qmOverhead, qmFragSize]
      omega
    subst hsame
    exact ⟨f, hf, fun hin => hfree (hnull f hin), hsize⟩
  · rintro ⟨f, hf, hfree, hsize⟩
    exact ⟨fs, h.tiles, f, hf, h.next_ne_zero hf hfree, hsize⟩

theorem carries_self (hpool : QmBlock.SamePool qm qm')
    (hspares : Spares qm qm' (f + qmFragSize) len) : qm.Carries qm' f f len :=
  ⟨fun _ _ => congrFun hpool.payload _, hspares, hspares⟩

/-! ## Shrinking -/

section

variable (h : QmInv qm taken fs lists)
include h

theorem qmShrink_spec (hf : f ∈ taken) (hle : size ≤ (qm.frag f).size) :
    ∃ qm' fs' lists', qmShrink qm f size = some qm' ∧ QmInv qm' taken fs' lists' ∧
      Frames qm qm' (taken.erase f) ∧ qm'.next f = qm.next f ∧
      Spares qm qm' (f + qmFragSize) size ∧ size ≤ (qm'.frag f).size := by
  obtain ⟨qm₁, split, fs', lists', hrun, hinv, hframes, hnext, hspares, ⟨hlow, -⟩, -⟩ :=
    h.splitFrag_spec hf hle
  cases split with
  | true =>
    refine ⟨qm₁, fs', lists', ?_, hinv, hframes, hnext, hspares, hlow⟩
    rw [qmShrink, hrun]
    rfl
  | false =>
    obtain ⟨v, hv⟩ : ∃ v, v = usub 64 (usub 64 (qm.frag f).size (qm₁.frag f).size) qmOverhead :=
      ⟨_, rfl⟩
    obtain ⟨w, hw⟩ : ∃ w, w = usub 64 (qm.frag f).size (qm₁.frag f).size := ⟨_, rfl⟩
    obtain ⟨qm', hqm'⟩ : ∃ qm', qm' = (qm₁.subReal v).subUsed w := ⟨_, rfl⟩
    have hfrag : qm'.frag = qm₁.frag := by
      rw [hqm', frag_subUsed, frag_subReal]
    have hend : qm'.fragEnd = qm₁.fragEnd := by
      rw [hqm', fragEnd_subUsed, fragEnd_subReal]
    have hpool : SamePool qm₁ qm' := by
      rw [hqm']
      exact (QmBlock.SamePool.subReal qm₁ v).trans (QmBlock.SamePool.subUsed _ w)
    refine ⟨qm', fs', lists', ?_, hinv.of_frames hpool hfrag hend,
      hframes.trans (Frames.of_eq hpool hfrag hend), ?_, ?_, ?_⟩
    · rw [qmShrink, hrun, hqm', hv, hw]
      simp only [bind_eq_bind, bind_some, Bool.false_eq_true, if_false, frag_subReal]
      rfl
    · rw [next, hfrag, ← next, hnext]
    · exact hspares.trans (Spares.of_eq hfrag hend)
    · rw [hfrag]
      exact hlow

/-- The test behind `split_frag` is the wrong way round: whether or not the fragment has
been split, the counters no longer fit. -/
theorem qmShrink_drifts {lists' : ℕ → List ℕ} (hf : f ∈ taken)
    (hlt : size < (qm.frag f).size) (hcounts : qm.Counts taken 0 fs)
    (hrun : qmShrink qm f size = some qm') (hinv' : QmInv qm' taken fs' lists') :
    ¬qm'.Counts taken 0 fs' := by
  intro hcounts'
  obtain ⟨qm₁, split, fs₁, lists₁, hsplit, hinv₁, hframes, -, -, -, ⟨hused₁, hcut, hsame⟩, -⟩ :=
    h.splitFrag_spec hf hlt.le
  rw [qmShrink, hsplit] at hrun
  cases split with
  | true =>
    obtain rfl : qm₁ = qm' := some.inj hrun
    have hsum := Finset.sum_erase_add taken (fun g => (qm.frag g).size) hf
    have hsum' := Finset.sum_erase_add taken (fun g => (qm₁.frag g).size) hf
    have hrest : ∑ g ∈ taken.erase f, (qm₁.frag g).size = ∑ g ∈ taken.erase f, (qm.frag g).size :=
      Finset.sum_congr rfl fun g hg => hframes.size g hg
    have hused := hcounts.used
    have hused' := hcounts'.used
    have hsizef := hcut rfl
    omega
  | false =>
    obtain rfl := hsame rfl
    obtain ⟨w, hw⟩ : ∃ w, w = usub 64 (qm₁.frag f).size (qm₁.frag f).size := ⟨_, rfl⟩
    obtain ⟨v, hv⟩ : ∃ v, v = usub 64 w qmOverhead := ⟨_, rfl⟩
    have hqm' : (qm₁.subReal v).subUsed w = qm' := by
      simp only [bind_eq_bind, bind_some, Bool.false_eq_true, if_false,
        frag_subReal, ← hw, ← hv] at hrun
      exact some.inj hrun
    have hfrag : qm'.frag = qm₁.frag := by
      rw [← hqm', frag_subUsed, frag_subReal]
    have hpool : SamePool qm₁ qm' := by
      rw [← hqm']
      exact (QmBlock.SamePool.subReal qm₁ v).trans (QmBlock.SamePool.subUsed _ w)
    have htiles' : Tiles qm₁.extent qm₁.firstFrag fs' (qm₁.addr + qm₁.size) := by
      have htiles := hinv'.tiles
      rw [hpool.firstFrag, hpool.addr, hpool.poolSize] at htiles
      refine htiles.congr fun g _ => ?_
      rw [extent, extent, hfrag]
    have hfs : fs' = fs := htiles'.unique h.tiles fun g => by
      simp only [extent, qmOverhead, qmFragSize]
      omega
    have hbooks' : qm'.books = (usub 64 qm₁.books.1 w, usub 64 qm₁.books.2 v) := by
      rw [← hqm', books_subUsed, books_subReal]
    have hsizelt := h.size_lt (h.taken_mem f hf)
    have hw0 : w = 0 := by
      rw [hw, usub_of_le le_rfl hsizelt, Nat.sub_self]
    have hv0 : v = 2 ^ 64 - 96 := by
      rw [hv, hw0]
      rfl
    have hused := hcounts.used
    have hreal := hcounts.realUsed
    have hreal' := hcounts'.realUsed
    rw [hbooks', hfs] at hreal'
    simp only [hw0, hv0, usub] at hreal'
    omega

/-! ## Growing -/

/-- The block grows into the free fragment behind it; what is too much is split off. -/
theorem qmGrow_spec (hf : f ∈ taken)
    (hnull : ∀ g ∈ taken, qm.next g = 0) (hgrow : (qm.frag f).size < size)
    (hsize64 : size < 2 ^ 64) (hjoin : qm.Joinable f size) :
    ∃ qm' fs' lists', qmGrow qm f (qm.fragNext f) size = some qm' ∧
      QmInv qm' taken fs' lists' ∧ Frames qm qm' (taken.erase f) ∧ qm'.next f = 0 ∧
      Spares qm qm' (f + qmFragSize) (qm.frag f).size ∧ size ≤ (qm'.frag f).size ∧
      (qm.Counts taken 0 fs → qm'.Counts taken 0 fs') := by
  have hffs := h.taken_mem f hf
  have hbound := h.bound
  have hover : qmOverhead = 96 := rfl
  obtain ⟨l₁, l₂, hfs⟩ := List.append_of_mem hffs
  subst hfs
  obtain ⟨l₃, rfl, -⟩ : ∃ l₃, l₂ = qm.fragNext f :: l₃ ∧ qm.fragNext f < qm.lastFragEnd := by
    rcases h.fragNext_cases with ⟨-, hend⟩ | hnext
    · exact absurd hjoin.1 hend
    · exact hnext
  have hnext : qm.fragNext f = f + qm.extent f := fragNext_eq qm f
  obtain ⟨-, hfree, hdiff⟩ := hjoin
  obtain ⟨n, hn⟩ : ∃ n, n = qm.fragNext f := ⟨_, rfl⟩
  rw [← hn] at h hffs hfree hdiff hnext ⊢
  have hnfs : n ∈ l₁ ++ f :: n :: l₃ := by simp
  have hnt : n ∉ taken := fun hin => hfree (hnull n hin)
  have hnbounds := (h.frag_bounds hnfs).2
  have hextent : qm.extent f = qmOverhead + (qm.frag f).size := rfl
  have hadd : uadd 64 (qm.frag n).size qmOverhead = (qm.frag n).size + qmOverhead :=
    uadd_of_lt (by omega)
  obtain ⟨total, htotal⟩ : ∃ total,
      total = (qm.frag f).size + ((qm.frag n).size + qmOverhead) := ⟨_, rfl⟩
  have haddf : uadd 64 (qm.frag f).size ((qm.frag n).size + qmOverhead) = total := by
    rw [htotal]
    exact uadd_of_lt (by omega)
  have hfits : size ≤ total := by
    rw [usub_of_le hgrow.le hsize64, hadd] at hdiff
    omega
  -- the free fragment is taken off its list
  obtain ⟨lists₁, hinv₁, hframes₁, hshape₁, hspares₁⟩ := h.detach_spec hnfs hnt
  obtain ⟨qm₁, hqm₁⟩ : ∃ qm₁, qm₁ = qmDetachFree qm n := ⟨_, rfl⟩
  rw [← hqm₁] at hinv₁ hframes₁ hshape₁ hspares₁
  obtain ⟨qm₂, hqm₂⟩ : ∃ qm₂, qm₂ = qm₁.setNo (getHash (qm.frag n).size)
      (usub 64 (qm₁.no (getHash (qm.frag n).size)) 1) := ⟨_, rfl⟩
  have hfrag₂ : qm₂.frag = qm₁.frag := by rw [hqm₂, frag_setNo]
  have hend₂ : qm₂.fragEnd = qm₁.fragEnd := by rw [hqm₂, fragEnd_setNo]
  have hpool₂ : SamePool qm₁ qm₂ := hqm₂ ▸ QmBlock.SamePool.setNo qm₁ _ _
  have hinv₂ := hinv₁.of_frames hpool₂ hfrag₂ hend₂
  have hframes₂ : Frames qm qm₂ taken := hframes₁.trans (Frames.of_eq hpool₂ hfrag₂ hend₂)
  have hspares₂ : Spares qm qm₂ (f + qmFragSize) (qm.frag f).size :=
    (hspares₁ f hffs).trans (Spares.of_eq hfrag₂ hend₂)
  have hsize₂ : ∀ g, (qm₂.frag g).size = (qm.frag g).size := by
    intro g
    rw [hfrag₂, hshape₁.size]
  have hbooks₂ : qm₂.books = qm.books := by
    rw [hqm₂, books_setNo, hshape₁.books]
  -- the two become one
  have hold : Tiles qm₂.extent f [f, n] (f + qmOverhead + total) := by
    refine tiles_cons.mpr ⟨rfl, tiles_cons.mpr ⟨?_, tiles_nil.mpr ?_⟩⟩
    · rw [extent, hsize₂]
      omega
    · rw [extent, hsize₂]
      omega
  have hnf : n ≠ f := by omega
  obtain ⟨hinv₃, hat⟩ := @QmInv.merge _ _ _ f _ l₁ l₃ [n] taken _
    hinv₂ (by
      intro g hg
      rcases List.mem_cons.mp hg with rfl | hg
      · exact Finset.mem_insert_of_mem hf
      · rw [List.mem_singleton.mp hg]
        exact Finset.mem_insert_self n taken) hold rfl (by
      intro g
      simp only [Finset.mem_insert, List.mem_cons, List.not_mem_nil, or_false, not_or]
      constructor
      · intro hg
        by_cases hgf : g = f
        · exact Or.inr hgf
        · exact Or.inl ⟨Or.inr hg, hgf, fun heq => hnt (heq ▸ hg)⟩
      · rintro (⟨rfl | hg, -, hgn⟩ | rfl)
        · exact absurd rfl hgn
        · exact hg
        · exact hf)
  obtain ⟨qm₃, hqm₃⟩ : ∃ qm₃, qm₃ = (mergeStores qm₂ f total).subReal qmOverhead := ⟨_, rfl⟩
  have hsize₃ : ∀ g, (qm₃.frag g).size = if g = f then total else (qm.frag g).size := by
    intro g
    rw [hqm₃, frag_subReal, mergeStores, frag_setEndSize, size_setSize,
      hsize₂]
  have hnext₃ : ∀ g, qm₃.next g = qm₂.next g := by
    intro g
    rw [hqm₃, next, frag_subReal, ← next, mergeStores,
      next_setEndSize, next_setSize]
  have hpool₃ : SamePool (mergeStores qm₂ f total) qm₃ :=
    hqm₃ ▸ QmBlock.SamePool.subReal _ qmOverhead
  have hfrag₃ : qm₃.frag = (mergeStores qm₂ f total).frag := by
    rw [hqm₃, frag_subReal]
  have hend₃ : qm₃.fragEnd = (mergeStores qm₂ f total).fragEnd := by
    rw [hqm₃, fragEnd_subReal]
  replace hinv₃ := hinv₃.of_frames hpool₃ hfrag₃ hend₃
  have hframes₃ : Frames qm qm₃ (taken.erase f) := by
    refine (hframes₂.mono (Finset.erase_subset f taken)).trans
      ⟨(samePool_mergeStores qm₂ f total).trans hpool₃, fun g hg => ?_, fun g _ => hnext₃ g,
        fun g hg => ?_⟩
    · rw [hsize₃, if_neg (Finset.ne_of_mem_erase hg), hsize₂]
    · exact (hat.spares hinv₂ (h.taken_mem g (Finset.mem_of_mem_erase hg))).trans
        (Spares.of_eq hfrag₃ hend₃)
  have hspares₃ : Spares qm qm₃ (f + qmFragSize) (qm.frag f).size := by
    have hmerge := hat.spares hinv₂ hffs
    rw [hsize₂] at hmerge
    exact (hspares₂.trans hmerge).trans (Spares.of_eq hfrag₃ hend₃)
  have hnextf : qm₃.next f = 0 := by
    rw [hnext₃, hframes₂.next f hf, hnull f hf]
  have hcounts₃ : qm.Counts taken 0 (l₁ ++ f :: n :: l₃) →
      qm₃.Counts (taken.erase f) (qm.frag f).size (l₁ ++ f :: l₃) := by
    rintro ⟨hused, hreal⟩
    have hsum := Finset.sum_erase_add taken (fun g => (qm.frag g).size) hf
    have hrest : ∑ g ∈ taken.erase f, (qm₃.frag g).size = ∑ g ∈ taken.erase f, (qm.frag g).size :=
      Finset.sum_congr rfl fun g hg => hframes₃.size g hg
    have hroom := @QmInv.counted_le_all _ _ taken _ _ h h.taken_mem
    have hpool := h.size_lt_pow
    have hbooks : qm₃.books = (qm.books.1, usub 64 qm.books.2 qmOverhead) := by
      rw [hqm₃, books_subReal, mergeStores, books_setEndSize,
        books_setSize, hbooks₂]
    have hlength : (l₁ ++ f :: n :: l₃).length = (l₁ ++ f :: l₃).length + 1 := by
      simp only [List.length_append, List.length_cons]
      omega
    rw [hlength, Nat.mul_succ] at hreal hroom
    have hsub : usub 64 qm.books.2 qmOverhead = qm.books.2 - qmOverhead :=
      usub_of_le (by omega) (by omega)
    constructor
    · rw [hbooks]
      omega
    · rw [hbooks, hsub]
      omega
  -- and what is too much is cut off
  obtain ⟨qm₄, split, fs₄, lists₄, hsplit, hinv₄, hframes₄, hnext₄, hspares₄, hlow₄, hcounts₄⟩ :
      ∃ qm₄ split fs₄ lists₄,
        (if size < (qm₃.frag f).size then splitFrag qm₃ f size else some (qm₃, false)) =
          some (qm₄, split) ∧ QmInv qm₄ taken fs₄ lists₄ ∧ Frames qm₃ qm₄ (taken.erase f) ∧
        qm₄.next f = qm₃.next f ∧ Spares qm₃ qm₄ (f + qmFragSize) size ∧
        size ≤ (qm₄.frag f).size ∧
        (qm₃.Counts (taken.erase f) (qm.frag f).size (l₁ ++ f :: l₃) →
          qm₄.Counts (taken.erase f) (qm.frag f).size fs₄) := by
    have hsizef : (qm₃.frag f).size = total := by rw [hsize₃, if_pos rfl]
    by_cases hcut : size < (qm₃.frag f).size
    · obtain ⟨qm₄, split, fs₄, lists₄, hsplit, hinv₄, hframes₄, hnext₄, hspares₄, ⟨hlow₄, -⟩, -,
        hcounts₄⟩ := hinv₃.splitFrag_spec hf hcut.le
      exact ⟨qm₄, split, fs₄, lists₄, (if_pos hcut).trans hsplit, hinv₄, hframes₄, hnext₄,
        hspares₄, hlow₄, hcounts₄ _ _ (fun g hg => Finset.mem_of_mem_erase hg)
          (Finset.notMem_erase f taken) hgrow.le⟩
    · exact ⟨qm₃, false, _, _, if_neg hcut, hinv₃,
        Frames.of_eq (QmBlock.SameShape.refl qm₃).samePool rfl rfl, rfl, Spares.of_eq rfl rfl,
        by omega, fun hcounts => hcounts⟩
  obtain ⟨d, hd⟩ : ∃ d, d = usub 64 (qm₄.frag f).size (qm.frag f).size := ⟨_, rfl⟩
  obtain ⟨qm', hqm'⟩ : ∃ qm', qm' = (qm₄.addReal d).addUsed d := ⟨_, rfl⟩
  have hfrag' : qm'.frag = qm₄.frag := by rw [hqm', frag_addUsed, frag_addReal]
  have hend' : qm'.fragEnd = qm₄.fragEnd := by
    rw [hqm', fragEnd_addUsed, fragEnd_addReal]
  have hpool' : SamePool qm₄ qm' := by
    rw [hqm']
    exact (QmBlock.SamePool.addReal qm₄ d).trans (QmBlock.SamePool.addUsed _ d)
  refine ⟨qm', fs₄, lists₄, ?_, hinv₄.of_frames hpool' hfrag' hend',
    (hframes₃.trans hframes₄).trans (Frames.of_eq hpool' hfrag' hend'), ?_, ?_, ?_, ?_⟩
  · have hstore : ((qm₂.setSize f total).subReal qmOverhead).setEndSize
        (f + qmFragSize + total) total = qm₃ := by
      rw [hqm₃]
      rfl
    have hof : ((qm₂.setSize f total).subReal qmOverhead).fragEndOf f = f + qmFragSize + total := by
      rw [fragEndOf, frag_subReal, size_setSize, if_pos rfl]
    have hsizef : (((qm₂.setSize f total).subReal qmOverhead).frag f).size = total := by
      rw [frag_subReal, size_setSize, if_pos rfl]
    rw [qmGrow]
    simp only [← hqm₁, hshape₁.size, ← hqm₂, hsize₂, hadd, haddf, hof, hsizef, hstore]
    by_cases hcut : size < (qm₃.frag f).size
    · rw [if_pos hcut] at hsplit
      rw [if_pos hcut, hsplit, hqm', hd]
      rfl
    · rw [if_neg hcut] at hsplit
      obtain ⟨rfl, rfl⟩ := Prod.mk.inj (some.inj hsplit)
      rw [if_neg hcut, hqm', hd]
      rfl
  · rw [next, hfrag', ← next, hnext₄, hnextf]
  · exact (hspares₃.trans (hspares₄.mono hgrow.le)).trans (Spares.of_eq hfrag' hend')
  · rw [hfrag']
    exact hlow₄
  · intro hcounts
    have hsub : d = (qm₄.frag f).size - (qm.frag f).size := by
      rw [hd]
      exact usub_of_le (by omega) (hinv₄.size_lt (hinv₄.taken_mem f hf))
    have hfinal := @QmInv.counts_add _ qm' _ (taken.erase f) _ _ _ _ _ hinv₄
      (fun g hg => hinv₄.taken_mem g (Finset.mem_of_mem_erase hg)) (hinv₄.taken_mem f hf)
      (Finset.notMem_erase f taken) (by omega) (hcounts₄ (hcounts₃ hcounts)) hsub hfrag' (by
        rw [hqm', books_addUsed, books_addReal])
    rwa [Finset.insert_erase hf] at hfinal

/-! ## Moving -/

theorem serves_iff (hnull : ∀ g ∈ taken, qm.next g = 0) :
    qm.Serves size ↔ ¬(usub 64 qm.size qm.realUsed < size ∨
      ∀ f ∈ fs, f ∉ taken → (qm.frag f).size < size) := by
  rw [QmBlock.Serves, h.hasFree_iff hnull, not_or, not_lt]
  push Not
  rfl

/-- The block moves to a new place, or it is lost: it is freed without there being one. -/
theorem qmMove_spec (hf : f ∈ taken)
    (hnull : ∀ g ∈ taken, qm.next g = 0) (join : Bool) (hgrow : (qm.frag f).size < size)
    (hround : roundUp size = size) :
    (∃ qm' fs' lists', qmMove join qm (f + qmFragSize) (qm.frag f).size size = some (qm', 0) ∧
      ¬qm.Serves size ∧ QmInv qm' (taken.erase f) fs' lists' ∧
      (∀ g ∈ taken.erase f, qm'.next g = 0) ∧
      (qm.Counts taken 0 fs → qm'.Counts (taken.erase f) 0 fs')) ∨
    ∃ qm' g fs' lists', qmMove join qm (f + qmFragSize) (qm.frag f).size size =
        some (qm', g + qmFragSize) ∧
      qm.Serves size ∧ g ∉ taken ∧ QmInv qm' (insert g (taken.erase f)) fs' lists' ∧
      (∀ x ∈ insert g (taken.erase f), qm'.next x = 0) ∧ size ≤ (qm'.frag g).size ∧
      qm.Carries qm' f g (qm.frag f).size ∧
      (qm.Counts taken 0 fs → qm'.Counts (insert g (taken.erase f)) 0 fs') := by
  have hserves := @QmInv.serves_iff _ _ _ _ size h hnull
  rcases h.qmMalloc_spec size with ⟨hnone, hwhy⟩ |
    ⟨qm₁, g, fs₁, lists₁, hmalloc, hfound, hinv₁, hframes₁, hnext₁, hspares₁, hbig₁, hcounts₁⟩
  · rw [hround] at hwhy
    obtain ⟨qm', fs', lists', hfree, hinv', hframes', -, hcounts'⟩ := h.qmFree_spec hf hnull join
    refine Or.inl ⟨qm', fs', lists', ?_, fun hs => hserves.mp hs hwhy, hinv', ?_, hcounts'⟩
    · rw [qmMove, hnone]
      simp only [bind_eq_bind, bind_some, ne_eq, not_true_eq_false, if_false, hfree]
      rfl
    · intro x hx
      rw [hframes'.next x hx, hnull x (Finset.mem_of_mem_erase hx)]
  · rw [hround] at hfound hspares₁ hbig₁
    obtain ⟨hroom, hgfs, hgt, hle⟩ := hfound
    have hgf : g ≠ f := fun heq => hgt (heq ▸ hf)
    have hfins : f ∈ insert g taken := Finset.mem_insert_of_mem hf
    obtain ⟨qm₂, hqm₂⟩ : ∃ qm₂, qm₂ =
        qm₁.memcpy (g + qmFragSize) (f + qmFragSize) (qm.frag f).size := ⟨_, rfl⟩
    have hfrag₂ : qm₂.frag = qm₁.frag := by
      rw [hqm₂]
      rfl
    have hend₂ : qm₂.fragEnd = qm₁.fragEnd := by
      rw [hqm₂]
      rfl
    have hbooks₂ : qm₂.books = qm₁.books := by
      rw [hqm₂]
      rfl
    have hinv₂ : QmInv qm₂ (insert g taken) fs₁ lists₁ := by
      refine hinv₁.of_eq ?_ ?_ ?_ ?_ hfrag₂ hend₂
      all_goals
        rw [hqm₂]
        rfl
    have hnull₂ : ∀ x ∈ insert g taken, qm₂.next x = 0 := by
      intro x hx
      rw [next, hfrag₂]
      rcases Finset.mem_insert.mp hx with rfl | hx
      · exact hnext₁
      · rw [← next, hframes₁.next x hx, hnull x hx]
    obtain ⟨qm', fs', lists', hfree, hinv', hframes', hspares', hcounts'⟩ :=
      hinv₂.qmFree_spec hfins hnull₂ join
    rw [Finset.erase_insert_of_ne hgf] at hinv' hframes' hcounts'
    have hgins : g ∈ insert g (taken.erase f) := Finset.mem_insert_self g _
    refine Or.inr ⟨qm', g, fs', lists', ?_, hserves.mpr ?_, hgt, hinv', ?_, ?_, ?_, ?_⟩
    · have hpos : g + qmFragSize ≠ 0 := (h.goodPointer hgfs).2.1
      rw [qmMove, hmalloc]
      simp only [bind_eq_bind, bind_some, ne_eq, hpos, not_false_eq_true, if_true, ← hqm₂, hfree]
      rfl
    · rintro (hfull | hsmall)
      · omega
      · exact absurd (hsmall g hgfs hgt) (not_lt.mpr hle)
    · intro x hx
      rw [hframes'.next x hx]
      refine hnull₂ x ?_
      rcases Finset.mem_insert.mp hx with rfl | hx
      · exact Finset.mem_insert_self x taken
      · exact Finset.mem_insert_of_mem (Finset.mem_of_mem_erase hx)
    · rw [hframes'.size g hgins, hfrag₂]
      exact hbig₁
    · refine ⟨fun i hi => ?_, ?_, ?_⟩
      · rw [hframes'.pool.payload, hqm₂]
        have hin : g + qmFragSize ≤ g + qmFragSize + i ∧
            g + qmFragSize + i < g + qmFragSize + (qm.frag f).size := by omega
        have hsrc : g + qmFragSize + i - (g + qmFragSize) + (f + qmFragSize) =
            f + qmFragSize + i := by omega
        refine (if_pos hin).trans ?_
        rw [hsrc, hframes₁.pool.payload]
      · rw [hfrag₂, hframes₁.size f hf] at hspares'
        exact ((hframes₁.spares f hf).trans (Spares.of_eq hfrag₂ hend₂)).trans hspares'
      · have hkept := hframes'.spares g hgins
        rw [hfrag₂] at hkept
        exact ((hspares₁.mono hgrow.le).trans (Spares.of_eq hfrag₂ hend₂)).trans
          (hkept.mono (hgrow.le.trans hbig₁))
    · intro hcounts
      refine hcounts' ((hcounts₁ hcounts).congr hbooks₂ fun x _ => ?_)
      rw [hfrag₂]

/-! ## The outcomes of a call -/

theorem qmRealloc_of_shrink (hf : f ∈ taken)
    (hnull : ∀ g ∈ taken, qm.next g = 0) (join : Bool) (hzero : size ≠ 0)
    (hshrink : roundUp size < (qm.frag f).size) :
    qmRealloc join qm (f + qmFragSize) size =
      (qmShrink qm f (roundUp size)).map fun qm => (qm, f + qmFragSize) := by
  have hffs := h.taken_mem f hf
  obtain ⟨hgood, hpos, hback⟩ := h.goodPointer hffs
  have hdebug := h.debugFrag_eq hffs
  rw [qmRealloc, if_neg fun hbad => hbad.2 hgood, if_neg hzero, if_neg hpos, qmResize]
  simp only [hback, hdebug, Bool.not_true, Bool.false_eq_true, if_false, hnull f hf, ne_eq,
    not_true_eq_false, if_pos hshrink]

/-- `qm_realloc` on a fragment that is handed out.  It returns a block exactly when there is
room, and that block carries on the old one; otherwise the old one is free. -/
theorem qmRealloc_cases (hf : f ∈ taken)
    (hnull : ∀ g ∈ taken, qm.next g = 0) (join : Bool) (hzero : size ≠ 0) :
    (∃ qm' fs' lists', qmRealloc join qm (f + qmFragSize) size = some (qm', 0) ∧
      ¬qm.HasRoom f (roundUp size) ∧ QmInv qm' (taken.erase f) fs' lists' ∧
      (∀ g ∈ taken.erase f, qm'.next g = 0) ∧
      (qm.Counts taken 0 fs → qm'.Counts (taken.erase f) 0 fs')) ∨
    ∃ qm' g fs' lists', qmRealloc join qm (f + qmFragSize) size = some (qm', g + qmFragSize) ∧
      qm.HasRoom f (roundUp size) ∧ QmInv qm' (insert g (taken.erase f)) fs' lists' ∧
      (∀ x ∈ insert g (taken.erase f), qm'.next x = 0) ∧ roundUp size ≤ (qm'.frag g).size ∧
      qm.Carries qm' f g (min (qm.frag f).size (roundUp size)) ∧
      ((qm.frag f).size ≤ roundUp size → qm.Counts taken 0 fs →
        qm'.Counts (insert g (taken.erase f)) 0 fs') := by
  have hffs := h.taken_mem f hf
  obtain ⟨hgood, hpos, hback⟩ := h.goodPointer hffs
  have hdebug := h.debugFrag_eq hffs
  have hins : insert f (taken.erase f) = taken := Finset.insert_erase hf
  have hkeep : ∀ qm', Frames qm qm' (taken.erase f) → qm'.next f = 0 →
      ∀ x ∈ taken, qm'.next x = 0 := by
    intro qm' hframes hnext x hx
    by_cases hxf : x = f
    · rw [hxf, hnext]
    · rw [hframes.next x (Finset.mem_erase.mpr ⟨hxf, hx⟩), hnull x hx]
  have hstart : qmRealloc join qm (f + qmFragSize) size =
      qmResize join qm (f + qmFragSize) size := by
    rw [qmRealloc, if_neg fun hbad => hbad.2 hgood, if_neg hzero, if_neg hpos]
  rw [hstart, qmResize]
  simp only [hback, hdebug, Bool.not_true, Bool.false_eq_true, if_false, hnull f hf, ne_eq,
    not_true_eq_false]
  by_cases hshrink : roundUp size < (qm.frag f).size
  · obtain ⟨qm', fs', lists', hrun, hinv', hframes', hnext', hspares', hbig'⟩ :=
      h.qmShrink_spec hf hshrink.le
    refine Or.inr ⟨qm', f, fs', lists', ?_, Or.inl hshrink.le, hins.symm ▸ hinv', ?_, hbig', ?_,
      fun hle => absurd hle (not_le.mpr hshrink)⟩
    · rw [if_pos hshrink, hrun]
      rfl
    · rw [hins]
      exact hkeep qm' hframes' (hnext'.trans (hnull f hf))
    · rw [min_eq_right hshrink.le]
      exact carries_self hframes'.pool hspares'
  rw [if_neg hshrink]
  by_cases hgrow : (qm.frag f).size < roundUp size
  swap
  · have hsame : (qm.frag f).size = roundUp size := by omega
    refine Or.inr ⟨qm, f, fs, lists, if_neg hgrow, Or.inl hsame.ge, hins.symm ▸ h, ?_, hsame.ge,
      carries_self (QmBlock.SameShape.refl qm).samePool (Spares.of_eq rfl rfl), ?_⟩
    · rw [hins]
      exact hnull
    · rw [hins]
      exact fun _ hcounts => hcounts
  rw [if_pos hgrow, min_eq_left hgrow.le]
  by_cases hjoin : qm.Joinable f (roundUp size)
  · obtain ⟨qm', fs', lists', hrun, hinv', hframes', hnext', hspares', hbig', hcounts'⟩ :=
      h.qmGrow_spec hf hnull hgrow (roundUp_lt size) hjoin
    refine Or.inr ⟨qm', f, fs', lists', ?_, Or.inr (Or.inl hjoin), hins.symm ▸ hinv', ?_, hbig',
      carries_self hframes'.pool hspares', ?_⟩
    · rw [QmBlock.Joinable] at hjoin
      rw [if_pos hjoin, hrun]
      rfl
    · rw [hins]
      exact hkeep qm' hframes' hnext'
    · rw [hins]
      exact fun _ hcounts => hcounts' hcounts
  · have hmove := h.qmMove_spec hf hnull join hgrow (roundUp_roundUp size)
    have hroom : qm.HasRoom f (roundUp size) ↔ qm.Serves (roundUp size) := by
      constructor
      · rintro (hbad | hbad | hserves)
        · omega
        · exact absurd hbad hjoin
        · exact hserves
      · exact fun hserves => Or.inr (Or.inr hserves)
    rw [hroom]
    rw [QmBlock.Joinable] at hjoin
    rw [if_neg hjoin]
    rcases hmove with ⟨qm', fs', lists', hrun, hnot, hinv', hnull', hcounts'⟩ |
      ⟨qm', g, fs', lists', hrun, hserves, -, hinv', hnull', hbig', hcarry', hcounts'⟩
    · exact Or.inl ⟨qm', fs', lists', hrun, hnot, hinv', hnull', hcounts'⟩
    · exact Or.inr ⟨qm', g, fs', lists', hrun, hserves, hinv', hnull', hbig', hcarry',
        fun _ => hcounts'⟩

end

end QmInv

end Msicp.Mem
