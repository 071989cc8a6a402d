import Msicp.Mem.QMalloc

/-!
# The invariant of a `q_malloc` pool

Between calls, and with the fragments in the hands of the running call counted as taken,
the fragments tile the pool with matching heads and tails, and the free lists hold
exactly the fragments that are not taken.
-/

namespace Msicp.Mem

open Msicp.Support List Function

namespace QmBlock

variable (qm : QmBlock)

/-- The bytes of a fragment: head, payload and tail. -/
def extent (f : ℕ) : ℕ := qmOverhead + (qm.frag f).size

/-! ## What the stores change -/

variable (f g v e n e' : ℕ)

@[simp] theorem frag_setPrev : (qm.setPrev f v).frag = qm.frag := rfl

@[simp] theorem fragEnd_setNxt : (qm.setNxt f v).fragEnd = qm.fragEnd := rfl

@[simp] theorem frag_setNo (hash n : ℕ) : (qm.setNo hash n).frag = qm.frag := rfl

@[simp] theorem fragEnd_setNo (hash n : ℕ) : (qm.setNo hash n).fragEnd = qm.fragEnd := rfl

@[simp] theorem size_setNxt : ((qm.setNxt f v).frag g).size = (qm.frag g).size := by
  by_cases hg : g = f
  · subst hg
    simp [setNxt]
  · simp [setNxt, update_of_ne hg]

@[simp] theorem check_setNxt : ((qm.setNxt f v).frag g).check = (qm.frag g).check := by
  by_cases hg : g = f
  · subst hg
    simp [setNxt]
  · simp [setNxt, update_of_ne hg]

theorem frag_setNxt_of_ne {f g : ℕ} (hg : g ≠ f) (v : ℕ) : (qm.setNxt f v).frag g = qm.frag g :=
  update_of_ne hg _ _

theorem fragEnd_setPrev_of_ne {f e : ℕ} (he : e ≠ qm.fragEndOf f) (v : ℕ) :
    (qm.setPrev f v).fragEnd e = qm.fragEnd e :=
  update_of_ne he _ _

theorem next_setNxt : (qm.setNxt f v).next = Function.update qm.next f v := by
  funext g
  by_cases hg : g = f
  · subst hg
    simp [next, setNxt]
  · simp [next, setNxt, update_of_ne hg]

theorem next_setPrev : (qm.setPrev f v).next = qm.next := rfl

@[simp] theorem fragEndOf_setNxt : (qm.setNxt f v).fragEndOf g = qm.fragEndOf g := by
  simp only [fragEndOf, size_setNxt]

theorem prev_setNxt : (qm.setNxt f v).prev = qm.prev := by
  funext g
  simp only [prev, fragEndOf_setNxt, fragEnd_setNxt]

@[simp] theorem size_setPrev : ((qm.setPrev f v).fragEnd e).size = (qm.fragEnd e).size := by
  by_cases he : e = qm.fragEndOf f
  · subst he
    simp [setPrev]
  · simp [setPrev, update_of_ne he]

@[simp] theorem endChecked_setPrev : (qm.setPrev f v).endChecked e = qm.endChecked e := by
  by_cases he : e = qm.fragEndOf f
  · subst he
    simp [endChecked, setPrev]
  · simp [endChecked, setPrev, update_of_ne he]

theorem prev_setPrev (g : ℕ) : (qm.setPrev f v).prev g =
      if qm.fragEndOf g = qm.fragEndOf f then v else qm.prev g := by
  have hend : (qm.setPrev f v).fragEndOf g = qm.fragEndOf g := rfl
  rw [prev, hend]
  split_ifs with h
  · rw [h]
    simp [setPrev]
  · simp [setPrev, prev, update_of_ne h]

@[simp] theorem size_setSize :
    ((qm.setSize f n).frag g).size = if g = f then n else (qm.frag g).size := by
  unfold setSize
  dsimp only
  rw [update_apply]
  split_ifs
  · rfl
  · rfl

@[simp] theorem check_setSize : ((qm.setSize f n).frag g).check = (qm.frag g).check := by
  unfold setSize
  dsimp only
  rw [update_apply]
  split_ifs with h
  · rw [h]
  · rfl

@[simp] theorem next_setSize : (qm.setSize f n).next g = qm.next g := by
  unfold next setSize
  dsimp only
  rw [update_apply]
  split_ifs with h
  · rw [h]
  · rfl

@[simp] theorem size_setEndSize (n : ℕ) :
    ((qm.setEndSize e n).fragEnd e').size = if e' = e then n else (qm.fragEnd e').size := by
  unfold setEndSize
  dsimp only
  rw [update_apply]
  split_ifs
  · rfl
  · rfl

@[simp] theorem endChecked_setEndSize (n : ℕ) :
    (qm.setEndSize e n).endChecked e' = qm.endChecked e' := by
  by_cases he : e' = e
  · subst he
    simp [endChecked, setEndSize]
  · simp [endChecked, setEndSize, update_of_ne he]

@[simp] theorem size_setEndCheck : ((qm.setEndCheck e).fragEnd e').size = (qm.fragEnd e').size := by
  unfold setEndCheck
  dsimp only
  rw [update_apply]
  split_ifs with h
  · rw [h]
  · rfl

@[simp] theorem endChecked_setEndCheck :
    (qm.setEndCheck e).endChecked e' = (decide (e' = e) || qm.endChecked e') := by
  by_cases he : e' = e
  · subst he
    simp [endChecked, setEndCheck]
  · simp [endChecked, setEndCheck, he]

@[simp] theorem size_setCheck : ((qm.setCheck f).frag g).size = (qm.frag g).size := by
  unfold setCheck
  dsimp only
  rw [update_apply]
  split_ifs with h
  · rw [h]
  · rfl

@[simp] theorem next_setCheck : (qm.setCheck f).next g = qm.next g := by
  unfold next setCheck
  dsimp only
  rw [update_apply]
  split_ifs with h
  · rw [h]
  · rfl

@[simp] theorem check_setCheck :
    ((qm.setCheck f).frag g).check = if g = f then stCheckPattern else (qm.frag g).check := by
  unfold setCheck
  dsimp only
  rw [update_apply]
  split_ifs
  · rfl
  · rfl

theorem setCheck_eq_self {f : ℕ} (h : (qm.frag f).check = stCheckPattern) : qm.setCheck f = qm := by
  have hsame : Function.update qm.frag f { qm.frag f with check := stCheckPattern } =
      qm.frag := by
    rw [← h]
    exact update_eq_self f qm.frag
  rw [setCheck, hsame]

@[simp] theorem frag_setEndSize : (qm.setEndSize e n).frag = qm.frag := rfl

@[simp] theorem frag_setEndCheck : (qm.setEndCheck e).frag = qm.frag := rfl

@[simp] theorem fragEnd_setSize : (qm.setSize f n).fragEnd = qm.fragEnd := rfl

@[simp] theorem fragEnd_setCheck : (qm.setCheck f).fragEnd = qm.fragEnd := rfl

/-- Two pools with the same layout and books: they differ in links and counters of the
free lists only. -/
structure SameShape (qm qm' : QmBlock) : Prop where
  addr : qm'.addr = qm.addr
  poolSize : qm'.size = qm.size
  used : qm'.used = qm.used
  realUsed : qm'.realUsed = qm.realUsed
  firstFrag : qm'.firstFrag = qm.firstFrag
  lastFragEnd : qm'.lastFragEnd = qm.lastFragEnd
  size : ∀ f, (qm'.frag f).size = (qm.frag f).size
  check : ∀ f, (qm'.frag f).check = (qm.frag f).check
  endSize : ∀ e, (qm'.fragEnd e).size = (qm.fragEnd e).size
  endCheck : ∀ e, qm'.endChecked e = qm.endChecked e
  payload : qm'.payload = qm.payload

variable {qm} {qm' qm'' : QmBlock}

theorem SameShape.refl (qm : QmBlock) : SameShape qm qm :=
  ⟨rfl, rfl, rfl, rfl, rfl, rfl, fun _ => rfl, fun _ => rfl, fun _ => rfl, fun _ => rfl, rfl⟩

theorem SameShape.trans (h : SameShape qm qm') (h' : SameShape qm' qm'') : SameShape qm qm'' where
  addr := h'.addr.trans h.addr
  poolSize := h'.poolSize.trans h.poolSize
  used := h'.used.trans h.used
  realUsed := h'.realUsed.trans h.realUsed
  firstFrag := h'.firstFrag.trans h.firstFrag
  lastFragEnd := h'.lastFragEnd.trans h.lastFragEnd
  size f := (h'.size f).trans (h.size f)
  check f := (h'.check f).trans (h.check f)
  endSize e := (h'.endSize e).trans (h.endSize e)
  endCheck e := (h'.endCheck e).trans (h.endCheck e)
  payload := h'.payload.trans h.payload

theorem sameShape_setNxt (qm : QmBlock) (f v : ℕ) : SameShape qm (qm.setNxt f v) :=
  ⟨rfl, rfl, rfl, rfl, rfl, rfl, fun g => size_setNxt qm f g v, fun g => check_setNxt qm f g v,
    fun _ => rfl, fun _ => rfl, rfl⟩

theorem sameShape_setPrev (qm : QmBlock) (f v : ℕ) : SameShape qm (qm.setPrev f v) :=
  ⟨rfl, rfl, rfl, rfl, rfl, rfl, fun _ => rfl, fun _ => rfl, fun e => size_setPrev qm f v e,
    fun e => endChecked_setPrev qm f v e, rfl⟩

theorem sameShape_setNo (qm : QmBlock) (hash n : ℕ) : SameShape qm (qm.setNo hash n) :=
  ⟨rfl, rfl, rfl, rfl, rfl, rfl, fun _ => rfl, fun _ => rfl, fun _ => rfl, fun _ => rfl, rfl⟩

theorem SameShape.head (h : SameShape qm qm') (hash : ℕ) : qm'.head hash = qm.head hash := by
  simp only [QmBlock.head, h.addr]

theorem SameShape.fragEndOf (h : SameShape qm qm') (f : ℕ) : qm'.fragEndOf f = qm.fragEndOf f := by
  simp only [QmBlock.fragEndOf, h.size]

theorem SameShape.extent (h : SameShape qm qm') (f : ℕ) : qm'.extent f = qm.extent f := by
  simp only [QmBlock.extent, h.size]

theorem detach_sameShape (qm : QmBlock) (f : ℕ) : SameShape qm (qmDetachFree qm f) :=
  (sameShape_setNxt qm _ _).trans (sameShape_setPrev _ _ _)

end QmBlock

/-! ## The invariant -/

/-- `fs` are the fragments of the pool in address order, `lists` the free lists; the
fragments in `taken` are on none of them. -/
structure QmInv (qm : QmBlock) (taken : Finset ℕ) (fs : List ℕ) (lists : ℕ → List ℕ) :
    Prop where
  bound : qm.addr + qm.size < 2 ^ 64
  first : qm.firstFrag = qm.addr + roundUp sizeofQmBlock
  last : qm.lastFragEnd + qmEndSize = qm.addr + qm.size
  tiles : Tiles qm.extent qm.firstFrag fs (qm.addr + qm.size)
  ends : ∀ f ∈ fs, (qm.fragEnd (qm.fragEndOf f)).size = (qm.frag f).size
  heads : ∀ hash < hashSize, (qm.frag (qm.head hash)).size = 0
  checked : ∀ f ∈ fs, (qm.frag f).check = stCheckPattern ∧
    qm.endChecked (qm.fragEndOf f) = true
  taken_mem : ∀ f ∈ taken, f ∈ fs
  holds : ∀ hash < hashSize,
    DSeg qm.next qm.prev (qm.head hash) (lists hash) (qm.head hash)
  nodup : ∀ hash < hashSize, (lists hash).Nodup
  listed : ∀ hash < hashSize, ∀ f ∈ lists hash,
    f ∈ fs ∧ f ∉ taken ∧ getHash (qm.frag f).size = hash
  free_listed : ∀ f ∈ fs, f ∉ taken → f ∈ lists (getHash (qm.frag f).size)

namespace QmInv

variable {qm qm' : QmBlock} {taken taken' : Finset ℕ} {fs fs' : List ℕ}
  {lists lists' : ℕ → List ℕ} {f g hash : ℕ}

/-- A place of the free lists: a fragment or the head of a bucket. -/
def Place (qm : QmBlock) (fs : List ℕ) (x : ℕ) : Prop :=
  x ∈ fs ∨ ∃ hash < hashSize, x = qm.head hash

/-- The stores that make `qm'` of `qm` go to heads and tails of places only. -/
structure AtPlaces (qm qm' : QmBlock) (fs : List ℕ) : Prop where
  frag : ∀ g, ¬Place qm fs g → qm'.frag g = qm.frag g
  fragEnd : ∀ e, (∀ x, Place qm fs x → e ≠ qm.fragEndOf x) → qm'.fragEnd e = qm.fragEnd e

theorem sizeofQmBlock_le : sizeofQmBlock ≤ roundUp sizeofQmBlock :=
  (roundUp_bounds (by decide)).1

section

variable (h : QmInv qm taken fs lists)
include h

theorem head_lt (hhash : hash < hashSize) :
    qm.addr < qm.head hash ∧ qm.head hash + qmLnkSize ≤ qm.firstFrag := by
  have hsize := sizeofQmBlock_le
  have hfirst := h.first
  have hmul : (hash + 1) * qmLnkSize ≤ hashSize * qmLnkSize :=
    Nat.mul_le_mul_right qmLnkSize hhash
  rw [Nat.succ_mul] at hmul
  simp only [QmBlock.head, sizeofQmBlock, freeHashOffset] at *
  omega

theorem frag_bounds (hf : f ∈ fs) :
    qm.firstFrag ≤ f ∧ f + qmOverhead + (qm.frag f).size ≤ qm.addr + qm.size := by
  obtain ⟨hlow, hhigh⟩ := h.tiles.mem_bounds hf
  simp only [QmBlock.extent] at hhigh
  omega

theorem size_lt (hf : f ∈ fs) : (qm.frag f).size < 2 ^ 64 := by
  have hbound := h.bound
  have hend := (h.frag_bounds hf).2
  omega

theorem getHash_lt (hf : f ∈ fs) :
    getHash (qm.frag f).size < hashSize := Mem.getHash_lt (h.size_lt hf)

theorem fs_nodup : fs.Nodup := by
  refine h.tiles.nodup ?_
  intro f _
  simp only [QmBlock.extent, qmOverhead, qmFragSize]
  omega

theorem head_notMem (hhash : hash < hashSize) : qm.head hash ∉ fs := by
  intro hmem
  have hlow := (h.frag_bounds hmem).1
  have hhead := (h.head_lt hhash).2
  simp only [qmLnkSize] at hhead
  omega

end

variable {hash' x : ℕ} {l₁ l₂ : List ℕ}

theorem head_inj (heq : qm.head hash = qm.head hash') : hash = hash' := by
  simp only [QmBlock.head, qmLnkSize] at heq
  omega

section

variable (h : QmInv qm taken fs lists)
include h

theorem fragEndOf_head (hhash : hash < hashSize) :
    qm.fragEndOf (qm.head hash) = qm.head hash + qmFragSize := by
  rw [QmBlock.fragEndOf, h.heads hash hhash, Nat.add_zero]

theorem fragEndOf_inj {y : ℕ} (hx : Place qm fs x)
    (hy : Place qm fs y) (heq : qm.fragEndOf x = qm.fragEndOf y) : x = y := by
  have hfront : ∀ f ∈ fs, ∀ hash < hashSize, qm.fragEndOf f ≠ qm.fragEndOf (qm.head hash) := by
    intro f hf hash hhash heq
    rw [h.fragEndOf_head hhash] at heq
    have hlow := (h.frag_bounds hf).1
    have hhead := (h.head_lt hhash).2
    simp only [QmBlock.fragEndOf, qmFragSize, qmLnkSize] at *
    omega
  rcases hx with hx | ⟨hash, hhash, rfl⟩
  · rcases hy with hy | ⟨hash', hhash', rfl⟩
    · by_contra hne
      have hdisj := h.tiles.disjoint hx hy hne
      simp only [QmBlock.fragEndOf, QmBlock.extent, qmOverhead, qmEndSize] at *
      omega
    · exact absurd heq (hfront x hx hash' hhash')
  · rcases hy with hy | ⟨hash', hhash', rfl⟩
    · exact absurd heq.symm (hfront y hy hash hhash)
    · rw [h.fragEndOf_head hhash, h.fragEndOf_head hhash'] at heq
      exact Nat.add_right_cancel heq

/-- A free list is shorter than the pool, so the walks around it end. -/
theorem length_lt (hhash : hash < hashSize) : (lists hash).length < qm.size := by
  have hsub : (lists hash).length ≤ fs.length := by
    apply (subperm_of_subset (h.nodup hash hhash) ?_).length_le
    intro f hf
    exact (h.listed hash hhash f hf).1
  have hfs : qm.firstFrag + qmOverhead * fs.length ≤ qm.addr + qm.size :=
    h.tiles.mul_length_le fun f _ => by simp [QmBlock.extent]
  have hfirst := h.first
  have hsize := sizeofQmBlock_le
  simp only [qmOverhead, qmFragSize, qmEndSize, sizeofQmBlock, freeHashOffset] at *
  omega

theorem place_of_list (hhash : hash < hashSize)
    (hf : f ∈ lists hash) : Place qm fs f := Or.inl (h.listed hash hhash f hf).1

theorem lists_disjoint (hhash : hash < hashSize)
    (hhash' : hash' < hashSize) (hne : hash' ≠ hash) (hf : f ∈ lists hash) :
    f ∉ lists hash' := by
  intro hf'
  have h₁ := (h.listed hash hhash f hf).2.2
  have h₂ := (h.listed hash' hhash' f hf').2.2
  exact hne (h₂.symm.trans h₁)

end

/-! ## Links -/

/-- The places around which the list of a bucket goes. -/
def Around (qm : QmBlock) (lists : ℕ → List ℕ) (hash x : ℕ) : Prop :=
  x ∈ lists hash ∨ x = qm.head hash

section

variable (h : QmInv qm taken fs lists)
include h

theorem Around.place (hhash : hash < hashSize) (hx : Around qm lists hash x) : Place qm fs x := by
  rcases hx with hx | rfl
  · exact h.place_of_list hhash hx
  · exact Or.inr ⟨hash, hhash, rfl⟩

theorem Around.ne {y : ℕ} (hhash : hash < hashSize)
    (hhash' : hash' < hashSize) (hne : hash' ≠ hash) (hx : Around qm lists hash x)
    (hy : Around qm lists hash' y) : y ≠ x := by
  rintro rfl
  rcases hx with hx | hx
  · rcases hy with hy | hy
    · exact h.lists_disjoint hhash hhash' hne hx hy
    · rw [hy] at hx
      exact h.head_notMem hhash' (h.listed hash hhash _ hx).1
  · rcases hy with hy | hy
    · rw [hx] at hy
      exact h.head_notMem hhash (h.listed hash' hhash' _ hy).1
    · exact hne (head_inj (hy.symm.trans hx))

theorem Around.ne_taken (hhash : hash < hashSize)
    (hx : Around qm lists hash x) (hg : g ∈ taken) : g ≠ x := by
  rintro rfl
  rcases hx with hx | hx
  · exact (h.listed hash hhash _ hx).2.1 hg
  · rw [hx] at hg
    exact h.head_notMem hhash (h.taken_mem _ hg)

end

theorem around_last (hl : lists hash = l₁ ++ l₂) :
    Around qm lists hash (lastOf (qm.head hash) l₁) := by
  rcases lastOf_mem (qm.head hash) l₁ with hmem | heq
  · exact Or.inl (by rw [hl]; exact mem_append_left _ hmem)
  · exact Or.inr heq

theorem around_first (hl : lists hash = l₁ ++ l₂) :
    Around qm lists hash (firstOf l₂ (qm.head hash)) := by
  rcases firstOf_mem l₂ (qm.head hash) with hmem | heq
  · exact Or.inl (by rw [hl]; exact mem_append_right _ hmem)
  · exact Or.inr heq

section

variable (h : QmInv qm taken fs lists)
include h

theorem place_pos (hx : Place qm fs x) : x ≠ 0 := by
  rcases hx with hx | ⟨hash, hhash, rfl⟩
  · have hlow := (h.frag_bounds hx).1
    have hhead := @QmInv.head_lt _ _ _ _ 0 h (by decide)
    omega
  · have hhead := (h.head_lt hhash).1
    omega

/-- A free fragment is marked as one by its link. -/
theorem next_ne_zero (hf : f ∈ fs) (hfree : f ∉ taken) : qm.next f ≠ 0 := by
  have hhash := h.getHash_lt hf
  obtain ⟨l₁, l₂, hl⟩ := append_of_mem (h.free_listed f hf hfree)
  have hseg := h.holds _ hhash
  rw [hl] at hseg
  rw [(DSeg.append.1 hseg).2.next_first]
  have hl' : lists (getHash (qm.frag f).size) = (l₁ ++ [f]) ++ l₂ := by
    rw [hl, append_assoc]
    rfl
  exact h.place_pos ((around_first hl').place h hhash)

/-- The list of one bucket is replaced by `l`: only that bucket's part of the invariant
is at stake. -/
theorem relist {l : List ℕ} (hshape : QmBlock.SameShape qm qm')
    (hholds : DSeg qm'.next qm'.prev (qm.head hash) l (qm.head hash))
    (hother : ∀ hash' < hashSize, hash' ≠ hash →
      DSeg qm'.next qm'.prev (qm.head hash') (lists hash') (qm.head hash'))
    (hnodup : l.Nodup) (htaken : ∀ f ∈ taken', f ∈ fs)
    (htaken_other : ∀ f ∈ fs, getHash (qm.frag f).size ≠ hash → (f ∈ taken' ↔ f ∈ taken))
    (hlisted : ∀ f ∈ l, f ∈ fs ∧ f ∉ taken' ∧ getHash (qm.frag f).size = hash)
    (hfree : ∀ f ∈ fs, f ∉ taken' → getHash (qm.frag f).size = hash → f ∈ l) :
    QmInv qm' taken' fs (Function.update lists hash l) := by
  refine
    { bound := by rw [hshape.addr, hshape.poolSize]; exact h.bound
      first := by rw [hshape.addr, hshape.firstFrag]; exact h.first
      last := by rw [hshape.lastFragEnd, hshape.addr, hshape.poolSize]; exact h.last
      tiles := ?_
      ends := ?_
      heads := ?_
      checked := ?_
      taken_mem := htaken
      holds := ?_
      nodup := ?_
      listed := ?_
      free_listed := ?_ }
  · rw [hshape.firstFrag, hshape.addr, hshape.poolSize]
    exact h.tiles.congr fun g _ => hshape.extent g
  · intro f hf
    rw [hshape.fragEndOf, hshape.endSize, hshape.size]
    exact h.ends f hf
  · intro hash' hhash'
    rw [hshape.head, hshape.size]
    exact h.heads hash' hhash'
  · intro f hf
    rw [hshape.check, hshape.fragEndOf, hshape.endCheck]
    exact h.checked f hf
  · intro hash' hhash'
    rw [hshape.head]
    by_cases hne : hash' = hash
    · subst hne
      rw [update_self]
      exact hholds
    · rw [update_of_ne hne]
      exact hother hash' hhash' hne
  · intro hash' hhash'
    by_cases hne : hash' = hash
    · subst hne
      rw [update_self]
      exact hnodup
    · rw [update_of_ne hne]
      exact h.nodup hash' hhash'
  · intro hash' hhash' f hf
    rw [hshape.size]
    by_cases hne : hash' = hash
    · subst hne
      rw [update_self] at hf
      exact hlisted f hf
    · rw [update_of_ne hne] at hf
      obtain ⟨hffs, hft, hfh⟩ := h.listed hash' hhash' f hf
      have hiff := htaken_other f hffs (by rwa [hfh])
      exact ⟨hffs, fun hmem => hft (hiff.mp hmem), hfh⟩
  · intro f hffs hft
    rw [hshape.size]
    by_cases hne : getHash (qm.frag f).size = hash
    · rw [hne, update_self]
      exact hfree f hffs hft hne
    · rw [update_of_ne hne]
      have hiff := htaken_other f hffs hne
      exact h.free_listed f hffs fun hmem => hft (hiff.mpr hmem)

theorem detach (hhash : hash < hashSize) (hl : lists hash = l₁ ++ f :: l₂) :
    QmInv (qmDetachFree qm f) (insert f taken) fs (Function.update lists hash (l₁ ++ l₂)) ∧
      AtPlaces qm (qmDetachFree qm f) fs ∧
      ∀ g ∈ taken, (qmDetachFree qm f).next g = qm.next g := by
  have hmem : f ∈ lists hash := by simp [hl]
  obtain ⟨hffs, hft, hfh⟩ := h.listed hash hhash f hmem
  have hseg := h.holds hash hhash
  have hnodup := h.nodup hash hhash
  have hhead : qm.head hash ∉ l₁ ++ f :: l₂ := by
    intro hin
    rw [← hl] at hin
    exact h.head_notMem hhash (h.listed hash hhash _ hin).1
  rw [hl] at hseg hnodup
  have hnext : qm.next f = firstOf l₂ (qm.head hash) := (DSeg.append.1 hseg).2.next_first
  have hprev : qm.prev f = lastOf (qm.head hash) l₁ := (DSeg.append.1 hseg).1.prev_last
  have hl' : lists hash = (l₁ ++ [f]) ++ l₂ := by
    rw [hl, append_assoc]
    rfl
  have hu : Around qm lists hash (qm.prev f) := by
    rw [hprev]
    exact around_last hl
  have hv : Around qm lists hash (qm.next f) := by
    rw [hnext]
    exact around_first hl'
  have hnext' : (qmDetachFree qm f).next = Function.update qm.next (qm.prev f) (qm.next f) := by
    rw [qmDetachFree, QmBlock.next_setPrev, QmBlock.next_setNxt]
  have hprev' : ∀ y, Place qm fs y → (qmDetachFree qm f).prev y =
      Function.update qm.prev (qm.next f) (qm.prev f) y := by
    intro y hy
    rw [qmDetachFree, QmBlock.prev_setPrev, QmBlock.fragEndOf_setNxt,
      QmBlock.fragEndOf_setNxt, QmBlock.prev_setNxt]
    by_cases heq : y = qm.next f
    · rw [heq, if_pos rfl, update_self]
    · rw [if_neg fun hend => heq (h.fragEndOf_inj hy (hv.place h hhash) hend), update_of_ne heq]
  refine ⟨h.relist (qm.detach_sameShape f) ?_ ?_ ?_ ?_ ?_ ?_ ?_, ⟨?_, ?_⟩, ?_⟩
  · refine (DSeg.remove hseg hnodup hhead hhead).congr ?_ ?_
    · intro y _
      rw [hnext']
    · intro y hy
      refine hprev' y ?_
      refine Around.place h hhash ?_
      rcases hy with hy | rfl
      · left
        rw [hl]
        rcases mem_append.mp hy with hy | hy
        · exact mem_append_left _ hy
        · exact mem_append_right _ (mem_cons_of_mem f hy)
      · exact Or.inr rfl
  · intro hash' hhash' hne
    refine (h.holds hash' hhash').congr ?_ ?_
    · intro y hy
      have hy' : Around qm lists hash' y := hy.symm
      rw [hnext', update_of_ne (hu.ne h hhash hhash' hne hy')]
    · intro y hy
      rw [hprev' y (Around.place h hhash' hy), update_of_ne (hv.ne h hhash hhash' hne hy)]
  · exact (nodup_cons.mp (nodup_middle.mp hnodup)).2
  · intro g hg
    rcases Finset.mem_insert.mp hg with rfl | hg
    · exact hffs
    · exact h.taken_mem g hg
  · intro g hg hgh
    have hgf : g ≠ f := by
      rintro rfl
      exact hgh hfh
    simp [hgf]
  · intro g hg
    have hgl : g ∈ lists hash := by
      rw [hl]
      rcases mem_append.mp hg with hg | hg
      · exact mem_append_left _ hg
      · exact mem_append_right _ (mem_cons_of_mem f hg)
    have hgf : g ≠ f := by
      rintro rfl
      exact (nodup_cons.mp (nodup_middle.mp hnodup)).1 hg
    obtain ⟨hgfs, hgt, hgh⟩ := h.listed hash hhash g hgl
    exact ⟨hgfs, by simp [hgf, hgt], hgh⟩
  · intro g hg hgt hgh
    rw [Finset.mem_insert, not_or] at hgt
    have hgl := h.free_listed g hg hgt.2
    rw [hgh, hl] at hgl
    rcases mem_append.mp hgl with hgl | hgl
    · exact mem_append_left _ hgl
    · exact mem_append_right _ ((mem_cons.mp hgl).resolve_left hgt.1)
  · intro g hg
    refine qm.frag_setNxt_of_ne ?_ _
    rintro rfl
    exact hg (hu.place h hhash)
  · intro e he
    refine QmBlock.fragEnd_setPrev_of_ne _ ?_ _
    rw [QmBlock.fragEndOf_setNxt]
    exact he _ (hv.place h hhash)
  · intro g hg
    rw [hnext', update_of_ne (hu.ne_taken h hhash hg)]

/-- A taken fragment is put on the free list of its size. -/
theorem insertFree (hf : f ∈ taken) :
    ∃ qm' lists', qmInsertFree qm f = some qm' ∧ QmInv qm' (taken.erase f) fs lists' ∧
      QmBlock.SameShape qm qm' ∧ AtPlaces qm qm' fs ∧
      ∀ g ∈ taken, g ≠ f → qm'.next g = qm.next g := by
  have hffs := h.taken_mem f hf
  have hhash := h.getHash_lt hffs
  obtain ⟨hash, hdef⟩ : ∃ hash, hash = getHash (qm.frag f).size := ⟨_, rfl⟩
  rw [← hdef] at hhash
  have hhead : qm.head hash ∉ lists hash := fun hin =>
    h.head_notMem hhash (h.listed hash hhash _ hin).1
  obtain ⟨l₁, l₂, hl, -, -, hwalk⟩ := @walkRound_eq _ _ _ _ _ _
      (fun g => decide ((qm.frag f).size ≤ (qm.frag g).size)) _ _ (h.holds hash hhash) hhead
    (h.length_lt hhash)
  have hseg := h.holds hash hhash
  have hnodup := h.nodup hash hhash
  have hfl : f ∉ lists hash := fun hin => (h.listed hash hhash f hin).2.1 hf
  rw [hl] at hseg hnodup hhead hfl
  obtain ⟨v, hv⟩ : ∃ v, v = firstOf l₂ (qm.head hash) := ⟨_, rfl⟩
  obtain ⟨u, hu⟩ : ∃ u, u = lastOf (qm.head hash) l₁ := ⟨_, rfl⟩
  have hprev : qm.prev v = u := by
    rw [hv, hu]
    exact hseg.prev_cut
  have hu' : Around qm lists hash u := hu ▸ around_last hl
  have hv' : Around qm lists hash v := hv ▸ around_first hl
  have hfu : f ≠ u := hu'.ne_taken h hhash hf
  have hfv : f ≠ v := hv'.ne_taken h hhash hf
  have hfhead : f ≠ qm.head hash := fun heq => h.head_notMem hhash (heq ▸ hffs)
  obtain ⟨qm', hqm'⟩ : ∃ qm' : QmBlock, qm' =
      ((((qm.setNxt u f).setPrev f u).setNxt f v).setPrev v f).setNo hash
        (uadd 64 (qm.no hash) 1) := ⟨_, rfl⟩
  have hrun : qmInsertFree qm f = some qm' := by
    rw [qmInsertFree, ← hdef, hwalk, ← hv, hqm', ← hprev]
    rfl
  have hshape : QmBlock.SameShape qm qm' := by
    rw [hqm']
    exact ((((qm.sameShape_setNxt u f).trans (QmBlock.sameShape_setPrev _ f u)).trans
      (QmBlock.sameShape_setNxt _ f v)).trans (QmBlock.sameShape_setPrev _ v f)).trans
      (QmBlock.sameShape_setNo _ hash _)
  have hnext' : qm'.next = Function.update (Function.update qm.next f v) u f := by
    have hstores : qm'.next = Function.update (Function.update qm.next u f) f v := by
      rw [hqm']
      change ((((qm.setNxt u f).setPrev f u).setNxt f v).setPrev v f).next = _
      rw [QmBlock.next_setPrev, QmBlock.next_setNxt, QmBlock.next_setPrev, QmBlock.next_setNxt]
    rw [hstores, update_comm hfu]
  have hprev' : ∀ y, Place qm fs y →
      qm'.prev y = Function.update (Function.update qm.prev f u) v f y := by
    intro y hy
    have hstores : qm'.prev y =
        if qm.fragEndOf y = qm.fragEndOf v then f
        else if qm.fragEndOf y = qm.fragEndOf f then u else qm.prev y := by
      rw [hqm']
      change ((((qm.setNxt u f).setPrev f u).setNxt f v).setPrev v f).prev y = _
      rw [QmBlock.prev_setPrev, QmBlock.prev_setNxt, QmBlock.prev_setPrev, QmBlock.prev_setNxt]
      simp only [QmBlock.fragEndOf_setNxt]
      have hsame : ∀ x, ((qm.setNxt u f).setPrev f u).fragEndOf x = qm.fragEndOf x :=
        fun x => QmBlock.fragEndOf_setNxt qm u x f
      simp only [hsame]
    rw [hstores]
    by_cases hyv : y = v
    · rw [hyv, if_pos rfl, update_self]
    · rw [if_neg fun hend => hyv (h.fragEndOf_inj hy (hv'.place h hhash) hend), update_of_ne hyv]
      by_cases hyf : y = f
      · rw [hyf, if_pos rfl, update_self]
      · rw [if_neg fun hend => hyf (h.fragEndOf_inj hy (Or.inl hffs) hend), update_of_ne hyf]
  refine ⟨qm', _, hrun, @relist _ qm' _ _ _ _ hash h (l₁ ++ f :: l₂) hshape ?_ ?_ ?_ ?_ ?_ ?_ ?_,
    hshape, ⟨?_, ?_⟩, ?_⟩
  · have hins := hseg.insert hnodup hhead hhead hfl hfhead hfhead
    rw [← hu, ← hv] at hins
    refine hins.congr ?_ ?_
    · intro y _
      rw [hnext']
    · intro y hy
      refine hprev' y ?_
      rcases hy with hy | rfl
      · rcases mem_append.mp hy with hy | hy
        · exact h.place_of_list hhash (by rw [hl]; exact mem_append_left _ hy)
        · rcases mem_cons.mp hy with rfl | hy
          · exact Or.inl hffs
          · exact h.place_of_list hhash (by rw [hl]; exact mem_append_right _ hy)
      · exact Or.inr ⟨hash, hhash, rfl⟩
  · intro hash' hhash' hne
    refine (h.holds hash' hhash').congr ?_ ?_
    · intro y hy
      have hy' : Around qm lists hash' y := hy.symm
      rw [hnext', update_of_ne (hu'.ne h hhash hhash' hne hy'),
        update_of_ne (hy'.ne_taken h hhash' hf).symm]
    · intro y hy
      rw [hprev' y (Around.place h hhash' hy), update_of_ne (hv'.ne h hhash hhash' hne hy),
        update_of_ne (Around.ne_taken h hhash' hy hf).symm]
  · exact nodup_middle.mpr (nodup_cons.mpr ⟨hfl, hnodup⟩)
  · intro g hg
    exact h.taken_mem g (Finset.mem_of_mem_erase hg)
  · intro g hg hgh
    have hgf : g ≠ f := by
      rintro rfl
      exact hgh hdef.symm
    rw [Finset.mem_erase]
    exact ⟨fun hmem => hmem.2, fun hmem => ⟨hgf, hmem⟩⟩
  · intro g hg
    by_cases hgf : g = f
    · rw [hgf]
      exact ⟨hffs, Finset.notMem_erase f taken, hdef.symm⟩
    · have hgl : g ∈ lists hash := by
        rw [hl]
        rcases mem_append.mp hg with hg | hg
        · exact mem_append_left _ hg
        · exact mem_append_right _ ((mem_cons.mp hg).resolve_left hgf)
      obtain ⟨hgfs, hgt, hgh⟩ := h.listed hash hhash g hgl
      exact ⟨hgfs, fun hmem => hgt (Finset.mem_of_mem_erase hmem), hgh⟩
  · intro g hg hgt hgh
    by_cases hgf : g = f
    · rw [hgf]
      exact mem_append_right _ mem_cons_self
    · have hgl := h.free_listed g hg fun hmem => hgt (Finset.mem_erase.mpr ⟨hgf, hmem⟩)
      rw [hgh, hl] at hgl
      rcases mem_append.mp hgl with hgl | hgl
      · exact mem_append_left _ hgl
      · exact mem_append_right _ (mem_cons_of_mem f hgl)
  · intro g hg
    have hgu : g ≠ u := by
      rintro rfl
      exact hg (hu'.place h hhash)
    have hgf : g ≠ f := by
      rintro rfl
      exact hg (Or.inl hffs)
    rw [hqm']
    exact (QmBlock.frag_setNxt_of_ne ((qm.setNxt u f).setPrev f u) hgf v).trans
      (qm.frag_setNxt_of_ne hgu f)
  · intro e he
    have hev : e ≠ (((qm.setNxt u f).setPrev f u).setNxt f v).fragEndOf v := by
      rw [QmBlock.fragEndOf_setNxt]
      exact ((he v (hv'.place h hhash)).trans_eq (QmBlock.fragEndOf_setNxt qm u v f).symm)
    have hef : e ≠ (qm.setNxt u f).fragEndOf f := by
      rw [QmBlock.fragEndOf_setNxt]
      exact he f (Or.inl hffs)
    rw [hqm']
    exact (QmBlock.fragEnd_setPrev_of_ne _ hev f).trans
      (QmBlock.fragEnd_setPrev_of_ne (qm.setNxt u f) hef u)
  · intro g hg hgf
    rw [hnext', update_of_ne (hu'.ne_taken h hhash hg), update_of_ne hgf]

/-! ## Changes of taken fragments -/

/-- The free places are left alone, while the taken fragments change. -/
theorem reshape (haddr : qm'.addr = qm.addr)
    (hsize : qm'.size = qm.size) (hfirst : qm'.firstFrag = qm.firstFrag)
    (hlast : qm'.lastFragEnd = qm.lastFragEnd)
    (htiles : Tiles qm'.extent qm.firstFrag fs' (qm.addr + qm.size))
    (hends : ∀ f ∈ fs', (qm'.fragEnd (qm'.fragEndOf f)).size = (qm'.frag f).size)
    (hchecked : ∀ f ∈ fs', (qm'.frag f).check = stCheckPattern ∧
      qm'.endChecked (qm'.fragEndOf f) = true)
    (htaken : ∀ f ∈ taken', f ∈ fs')
    (hfree : ∀ g, g ∈ fs' ∧ g ∉ taken' ↔ g ∈ fs ∧ g ∉ taken)
    (hsame : ∀ x, Place qm fs x → x ∉ taken → (qm'.frag x).size = (qm.frag x).size ∧
      qm'.next x = qm.next x ∧ qm'.prev x = qm.prev x) :
    QmInv qm' taken' fs' lists := by
  have hhead : ∀ hash, qm'.head hash = qm.head hash := by
    intro hash
    simp only [QmBlock.head, haddr]
  have hheads : ∀ hash < hashSize, Place qm fs (qm.head hash) ∧ qm.head hash ∉ taken :=
    fun hash hhash => ⟨Or.inr ⟨hash, hhash, rfl⟩, fun hmem =>
      h.head_notMem hhash (h.taken_mem _ hmem)⟩
  have hlists : ∀ hash < hashSize, ∀ y ∈ lists hash, Place qm fs y ∧ y ∉ taken :=
    fun hash hhash y hy => ⟨h.place_of_list hhash hy, (h.listed hash hhash y hy).2.1⟩
  refine
    { bound := by rw [haddr, hsize]; exact h.bound
      first := by rw [haddr, hfirst]; exact h.first
      last := by rw [haddr, hlast, hsize]; exact h.last
      tiles := by rw [haddr, hfirst, hsize]; exact htiles
      ends := hends
      heads := ?_
      checked := hchecked
      taken_mem := htaken
      holds := ?_
      nodup := h.nodup
      listed := ?_
      free_listed := ?_ }
  · intro hash hhash
    obtain ⟨hplace, hnot⟩ := hheads hash hhash
    rw [hhead, (hsame _ hplace hnot).1]
    exact h.heads hash hhash
  · intro hash hhash
    rw [hhead]
    refine (h.holds hash hhash).congr ?_ ?_
    · rintro y (rfl | hy)
      · exact (hsame _ (hheads hash hhash).1 (hheads hash hhash).2).2.1
      · exact (hsame _ (hlists hash hhash y hy).1 (hlists hash hhash y hy).2).2.1
    · rintro y (hy | rfl)
      · exact (hsame _ (hlists hash hhash y hy).1 (hlists hash hhash y hy).2).2.2
      · exact (hsame _ (hheads hash hhash).1 (hheads hash hhash).2).2.2
  · intro hash hhash g hg
    obtain ⟨hgfs, hgt, hgh⟩ := h.listed hash hhash g hg
    obtain ⟨hgfs', hgt'⟩ := (hfree g).mpr ⟨hgfs, hgt⟩
    rw [(hsame g (Or.inl hgfs) hgt).1]
    exact ⟨hgfs', hgt', hgh⟩
  · intro g hgfs' hgt'
    obtain ⟨hgfs, hgt⟩ := (hfree g).mp ⟨hgfs', hgt'⟩
    rw [(hsame g (Or.inl hgfs) hgt).1]
    exact h.free_listed g hgfs hgt

/-- Only heads, tails and the place of the pool matter. -/
theorem of_eq (haddr : qm'.addr = qm.addr)
    (hsize : qm'.size = qm.size) (hfirst : qm'.firstFrag = qm.firstFrag)
    (hlast : qm'.lastFragEnd = qm.lastFragEnd) (hfrag : qm'.frag = qm.frag)
    (hend : qm'.fragEnd = qm.fragEnd) : QmInv qm' taken fs lists := by
  have hof : ∀ f, qm'.fragEndOf f = qm.fragEndOf f := by
    intro f
    simp only [QmBlock.fragEndOf, hfrag]
  refine h.reshape haddr hsize hfirst hlast (h.tiles.congr fun g _ => ?_) ?_ ?_ h.taken_mem
    (fun g => Iff.rfl) ?_
  · simp only [QmBlock.extent, hfrag]
  · intro f hf
    rw [hof, hend, hfrag]
    exact h.ends f hf
  · intro f hf
    have hcheck := h.checked f hf
    simp only [QmBlock.endChecked, hof, hend, hfrag] at hcheck ⊢
    exact hcheck
  · intro x _ _
    simp only [QmBlock.next, QmBlock.prev, hof, hend, hfrag]
    exact ⟨trivial, trivial, trivial⟩

theorem setNxt (hf : f ∈ taken) (v : ℕ) : QmInv (qm.setNxt f v) taken fs lists := by
  refine h.reshape rfl rfl rfl rfl (h.tiles.congr fun g _ => ?_) ?_ ?_ h.taken_mem
    (fun g => Iff.rfl) ?_
  · simp only [QmBlock.extent, QmBlock.size_setNxt]
  · intro g hg
    simp only [QmBlock.fragEndOf_setNxt, QmBlock.fragEnd_setNxt, QmBlock.size_setNxt]
    exact h.ends g hg
  · intro g hg
    simp only [QmBlock.fragEndOf_setNxt, QmBlock.check_setNxt]
    exact h.checked g hg
  · intro x _ hx
    have hne : x ≠ f := ne_of_mem_of_not_mem hf hx |>.symm
    rw [QmBlock.size_setNxt, QmBlock.next_setNxt, QmBlock.prev_setNxt, update_of_ne hne]
    exact ⟨rfl, rfl, rfl⟩

end

end QmInv

end Msicp.Mem
