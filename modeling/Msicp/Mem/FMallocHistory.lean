import Msicp.Mem.FMallocInvariant
import Mathlib.Data.Finset.BooleanAlgebra

/-!
# Every history keeps an `f_malloc` pool well formed

One lemma for each operation says that it ends and what it leaves behind; a
history is then an induction over its calls.
-/

namespace Msicp.Mem

open Msicp.Support List FmBlock

variable {lo hi : ℕ} {qm : FmBlock} {taken live : Finset ℕ} {fs : List ℕ}
  {lists : ℕ → List ℕ}

variable {f hash size n address : ℕ}

/-- Where `fm_insert_free` links a taken fragment in: at the head of a small
list, in a big one in front of the first fragment that is not smaller. -/
theorem fmInsertFree_eq (h : PoolInv lo hi qm taken fs lists)
    (hf : f ∈ taken) (hhash : hash = getHash (qm.frag f).size) :
    ∃ l₁ l₂, lists hash = l₁ ++ l₂ ∧ (optimize / roundTo ≤ hash →
        (∀ g ∈ l₁, (qm.frag g).size ≤ (qm.frag f).size) ∧
        ∀ g ∈ l₂, (qm.frag f).size ≤ (qm.frag g).size) ∧
      fmInsertFree qm f = some (((qm.setNxt f l₂.head?).setSlot hash l₁.getLast? (some f)).setNo
          hash (uadd 64 (qm.freeHash hash).no 1)) := by
  have hlt : hash < hashSize := hhash ▸ h.getHash_lt (h.taken_mem f hf)
  by_cases hbig : optimize < (qm.frag f).size
  · obtain ⟨l₁, l₂, hl, h₁, h₂, hwalk⟩ := h.walkBucket_eq hlt
      (fun g => decide ((qm.frag f).size ≤ (qm.frag g).size))
    refine ⟨l₁, l₂, hl, ?_, ?_⟩
    · intro hthr
      have hsorted := hl ▸ h.sorted hash hlt hthr
      refine ⟨?_, ?_⟩
      · intro g hg
        have hg' := h₁ g hg
        simp only [decide_eq_false_iff_not, not_le] at hg'
        exact hg'.le
      · intro g hg
        cases l₂ with
        | nil => simp at hg
        | cons y l₂ =>
          have hy : (qm.frag f).size ≤ (qm.frag y).size := by
            simpa using h₂ y rfl
          rcases mem_cons.mp hg with rfl | hg
          · exact hy
          · have htail := (pairwise_append.mp hsorted).2.1
            exact hy.trans ((pairwise_cons.mp htail).1 g hg)
    · simp [fmInsertFree, ← hhash, hbig, hwalk, no_setSlot, setNxt]
  · have hl : lists hash = [] ++ lists hash := rfl
    have hfirst : (qm.freeHash hash).first = (lists hash).head? :=
      @Links.get_getLast? ℕ _ [] _ (h.holds hash hlt)
    refine ⟨[], lists hash, hl, ?_, ?_⟩
    · intro hthr
      refine ⟨by simp, ?_⟩
      intro g hg
      have hf' := eq_optimize_of_le_getHash (not_lt.mp hbig) (hhash ▸ hthr)
      obtain ⟨-, -, hgh⟩ := h.listed hash hlt g hg
      by_cases hgbig : (qm.frag g).size ≤ optimize
      · have hg' := eq_optimize_of_le_getHash hgbig (hgh ▸ hthr)
        omega
      · omega
    · simp [fmInsertFree, ← hhash, hbig, hfirst, no_setSlot, setNxt]

theorem fmInsertFree_spec (h : PoolInv lo hi qm taken fs lists) (hf : f ∈ taken) :
    ∃ qm' lists', fmInsertFree qm f = some qm' ∧ PoolInv lo hi qm' (taken.erase f) fs lists' ∧
      ∀ g ∈ taken.erase f, (qm'.frag g).nxtFree = (qm.frag g).nxtFree := by
  have hlt := h.getHash_lt (h.taken_mem f hf)
  obtain ⟨l₁, l₂, hl, hsorted, hrun⟩ := fmInsertFree_eq h hf rfl
  refine ⟨_, _, hrun, h.link hf rfl hl hsorted, ?_⟩
  intro g hg
  obtain ⟨hgf, hgt⟩ := Finset.mem_erase.mp hg
  have hslot := (h.setNxt hf l₂.head?).nxtFree_setSlot hlt hl (some f) hgt
  exact hslot.trans (qm.nxtFree_setNxt_of_ne hgf _)

theorem mem_append_cons_cons {α : Type*} {l₁ l₂ : List α} {f n g : α} :
    g ∈ l₁ ++ f :: n :: l₂ ↔ g = n ∨ g ∈ l₁ ++ f :: l₂ := by
  simp only [mem_append, mem_cons]
  tauto

section

variable (h : PoolInv lo hi qm taken fs lists)
include h

/-- Cutting a taken fragment in two: both parts are taken. -/
theorem PoolInv.cut (hf : f ∈ taken) (hroom : fragOverhead ≤ (qm.frag f).size - size)
    (hn : n = f + fragOverhead + size) :
    n ∉ fs ∧ ∃ fs', (∀ g, g ∈ fs' ↔ g = n ∨ g ∈ fs) ∧ PoolInv lo hi ((qm.setSize f size).setSize n
        ((qm.frag f).size - size - fragOverhead)) (insert n taken) fs'
          lists := by
  have hfs := h.taken_mem f hf
  have hover0 : 0 < fragOverhead := by decide
  have hnf : n ≠ f := by omega
  have hnfs : n ∉ fs := by
    intro hmem
    have hdisj := h.tiles.disjoint hfs hmem hnf.symm
    simp only [extent] at hdisj
    omega
  set qm' := (qm.setSize f size).setSize n ((qm.frag f).size - size - fragOverhead) with hqm'
  have hfsize : (qm'.frag f).size = size := by
    rw [hqm', size_setSize_of_ne _ hnf.symm, size_setSize_self]
  have hnsize : (qm'.frag n).size = (qm.frag f).size - size - fragOverhead := by
    rw [hqm', size_setSize_self]
  have hother : ∀ g, g ≠ f → g ≠ n → (qm'.frag g).size = (qm.frag g).size := by
    intro g hgf hgn
    rw [hqm', size_setSize_of_ne _ hgn, size_setSize_of_ne _ hgf]
  obtain ⟨l₁, l₂, rfl⟩ := append_of_mem hfs
  have hnodup : (f :: (l₁ ++ l₂)).Nodup :=
    perm_middle.nodup_iff.mp h.fs_nodup
  refine ⟨hnfs, l₁ ++ f :: n :: l₂, fun g => mem_append_cons_cons, ?_⟩
  apply h.reshape
  · rfl
  · rfl
  · rfl
  · rfl
  · rfl
  · intro g
    rw [hqm', nxtFree_setSize, nxtFree_setSize]
  · apply h.tiles.split
    · simp only [extent, hfsize, hn]
      omega
    · simp only [extent, hfsize, hnsize]
      omega
    · intro g hg
      have hgf : g ≠ f := by
        rintro rfl
        exact (nodup_cons.mp hnodup).1 hg
      have hgn : g ≠ n := by
        rintro rfl
        apply hnfs
        exact perm_middle.mem_iff.mpr (mem_cons_of_mem f hg)
      simp only [extent, hother g hgf hgn]
  · intro g hg
    rcases Finset.mem_insert.mp hg with rfl | hg
    · exact mem_append_cons_cons.mpr (Or.inl rfl)
    · exact mem_append_cons_cons.mpr (Or.inr (h.taken_mem g hg))
  · intro g
    rw [mem_append_cons_cons, Finset.mem_insert]
    by_cases hgn : g = n
    · subst hgn
      simp [hnfs]
    · simp only [hgn, false_or]
  · intro g hgfs hgt
    apply hother
    · rintro rfl
      exact hgt hf
    · rintro rfl
      exact hnfs hgfs

/-- `fm_split_frag` on a taken fragment leaves it alone or inserts what it
cuts off. -/
theorem fmSplitFrag_cases (hf : f ∈ taken) (hsize : size ≤ (qm.frag f).size) :
    fmSplitFrag qm f size = some qm ∨ fragOverhead ≤ (qm.frag f).size - size ∧
        fmSplitFrag qm f size = fmInsertFree ((qm.setSize f size).setSize (f + fragOverhead + size)
            ((qm.frag f).size - size - fragOverhead)) (f + fragOverhead + size) := by
  have hend := (h.frag_end_le (h.taken_mem f hf)).2
  have hbound := h.bound
  have hhigh := h.high
  have hrest : usub 64 (qm.frag f).size size = (qm.frag f).size - size :=
    usub_of_le hsize (h.size_lt (h.taken_mem f hf))
  have hover : uadd 64 fragOverhead size = fragOverhead + size :=
    uadd_of_lt (by omega)
  have hoverBig : uadd 64 fragOverhead optimize = fragOverhead + optimize :=
    uadd_of_lt (by decide)
  by_cases hcut : fragOverhead + optimize < (qm.frag f).size - size ∨
      fragOverhead + size ≤ (qm.frag f).size - size
  · have hroom : fragOverhead ≤ (qm.frag f).size - size := by omega
    have hnext : (qm.setSize f size).fragNext f = f + fragOverhead + size := by
      rw [fragNext, size_setSize_self,
        uadd_of_lt (a := f) (by omega), uadd_of_lt (by omega)]
    have hrest' : usub 64 ((qm.frag f).size - size) fragOverhead =
        (qm.frag f).size - size - fragOverhead :=
      usub_of_le hroom (by omega)
    refine Or.inr ⟨hroom, ?_⟩
    rw [fmSplitFrag]
    simp only [hrest, hover, hoverBig, hnext, hrest', if_pos hcut]
  · refine Or.inl ?_
    rw [fmSplitFrag]
    simp only [hrest, hover, hoverBig, if_neg hcut]

theorem fmSplitFrag_spec (hf : f ∈ taken) (hsize : size ≤ (qm.frag f).size) :
    ∃ qm' fs' lists', fmSplitFrag qm f size = some qm' ∧ PoolInv lo hi qm' taken fs' lists' ∧
      ∀ g ∈ taken, (qm'.frag g).nxtFree = (qm.frag g).nxtFree := by
  rcases fmSplitFrag_cases h hf hsize with hkeep | ⟨hroom, hcut⟩
  · exact ⟨qm, fs, lists, hkeep, h, fun _ _ => rfl⟩
  · obtain ⟨hnfs, fs', -, h'⟩ := h.cut hf hroom rfl
    have hnt : f + fragOverhead + size ∉ taken :=
      fun hmem => hnfs (h.taken_mem _ hmem)
    obtain ⟨qm', lists', hins, hinv, hnull⟩ :=
      fmInsertFree_spec h' (Finset.mem_insert_self _ taken)
    rw [Finset.erase_insert hnt] at hinv hnull
    refine ⟨qm', fs', lists', hcut.trans hins, hinv, ?_⟩
    intro g hg
    rw [hnull g hg, nxtFree_setSize, nxtFree_setSize]

/-- The search of `fm_malloc` finds a free fragment that is big enough, or
none. -/
theorem fmMallocSearch_spec (size : ℕ) {count : ℕ} (hcount : hash + count ≤ hashSize) :
    fmMallocSearch qm size count hash = some none ∨
      ∃ hash' l₁ f l₂, hash' < hashSize ∧ lists hash' = l₁ ++ f :: l₂ ∧ size ≤ (qm.frag f).size ∧
        fmMallocSearch qm size count hash = some (some (hash', l₁.getLast?, f)) := by
  induction count generalizing hash with
  | zero => exact Or.inl rfl
  | succ count ih =>
    have hlt : hash < hashSize := by omega
    obtain ⟨l₁, l₂, hl, -, h₂, hwalk⟩ :=
      h.walkBucket_eq hlt (fun f => decide (size ≤ (qm.frag f).size))
    cases l₂ with
    | nil =>
      have hrec : fmMallocSearch qm size (count + 1) hash =
          fmMallocSearch qm size count (hash + 1) := by
        simp only [fmMallocSearch, hwalk, head?_nil]
      rw [hrec]
      exact ih (by omega)
    | cons f l₂ =>
      refine Or.inr ⟨hash, l₁, f, l₂, hlt, hl, by simpa using h₂ f rfl, ?_⟩
      simp only [fmMallocSearch, hwalk, head?_cons]

end

/-! ## The entry points -/

/-- Between calls: the invariant, and no live fragment looks free. -/
def FmBlock.WellFormed (lo hi : ℕ) (qm : FmBlock) (live : Finset ℕ) : Prop :=
  ∃ fs lists, PoolInv lo hi qm live fs lists ∧ ∀ f ∈ live, (qm.frag f).nxtFree = none

theorem FmBlock.WellFormed.frag_bounds (h : qm.WellFormed lo hi live)
    (hf : f ∈ live) : f + fragOverhead < 2 ^ 64 := by
  obtain ⟨fs, lists, hinv, -⟩ := h
  have hend := (hinv.frag_end_le (hinv.taken_mem f hf)).2
  have hhigh := hinv.high
  have hbound := hinv.bound
  omega

theorem roundUp_lt (s : ℕ) : roundUp s < 2 ^ 64 := by
  have hlt := uadd_lt 64 s (roundTo - 1)
  simp only [roundUp, roundDown]
  omega

@[simp] theorem fragsOf_some (f : ℕ) : fragsOf (some (f + fragOverhead)) = {f} := by
  simp [fragsOf]

theorem bind_of_eq_some {α β : Type*} {x : Option α} {a : α} (h : x = some a)
    (g : α → Option β) : (x.bind g) = g a := by
  rw [h, Option.bind_some]

theorem fmMalloc_of_found {qm : FmBlock} {slot : Option ℕ} (h : fmMallocSearch qm (roundUp size)
      (hashSize - getHash (roundUp size)) (getHash (roundUp size)) = some (some (hash, slot, f))) :
    fmMalloc qm size = (fmSplitFrag
        (((qm.setSlot hash slot (qm.frag f).nxtFree).setNxt f none).setNo hash
          (usub 64 (qm.freeHash hash).no 1)) f (roundUp size)).map
        (fun qm => (qm, some (uadd 64 f fragOverhead))) := by
  rw [fmMalloc]
  refine (bind_of_eq_some h _).trans ?_
  simp only [no_setNxt, no_setSlot]
  generalize fmSplitFrag _ f (roundUp size) = x
  cases x with
  | none => rfl
  | some x => rfl

section

variable (h : qm.WellFormed lo hi live)
include h

theorem fmMalloc_spec (size : ℕ) : ∃ qm' r, fmMalloc qm size = some (qm', r) ∧
      qm'.WellFormed lo hi (live ∪ fragsOf r) ∧ Disjoint live (fragsOf r) := by
  obtain ⟨fs, lists, hinv, hnull⟩ := h
  have hlt : getHash (roundUp size) < hashSize := getHash_lt (roundUp_lt size)
  have hcount : getHash (roundUp size) + (hashSize - getHash (roundUp size)) ≤ hashSize := by omega
  rcases fmMallocSearch_spec hinv (roundUp size) hcount with
    hnone | ⟨hash, l₁, f, l₂, hhash, hl, hsize, hsearch⟩
  · refine ⟨qm, none, by simp [fmMalloc, hnone], ?_, by simp [fragsOf]⟩
    have hempty : live ∪ fragsOf none = live := by simp [fragsOf]
    rw [hempty]
    exact ⟨fs, lists, hinv, hnull⟩
  · obtain ⟨hfs, hft, -⟩ := hinv.listed hash hhash f (by rw [hl]; simp)
    set qm₁ := ((qm.setSlot hash l₁.getLast? (qm.frag f).nxtFree).setNo hash
      (usub 64 (qm.freeHash hash).no 1)).setNxt f none with hqm₁
    have hinv₁ : PoolInv lo hi qm₁ (insert f live) fs _ :=
      (hinv.unlink hhash hl).setNxt (Finset.mem_insert_self f live) none
    have hnull₁ : ∀ g ∈ insert f live, (qm₁.frag g).nxtFree = none := by
      intro g hg
      by_cases hgf : g = f
      · rw [hgf, hqm₁, nxtFree_setNxt_self]
      · have hgl := Finset.mem_of_mem_insert_of_ne hg hgf
        rw [hqm₁, nxtFree_setNxt_of_ne _ hgf]
        exact (hinv.nxtFree_setSlot hhash hl _ hgl).trans (hnull g hgl)
    have hsize₁ : (qm₁.frag f).size = (qm.frag f).size := by
      rw [hqm₁, size_setNxt]
      exact size_setSlot _ _ _ _ _
    obtain ⟨qm', fs', lists', hsplit, hinv', hnull'⟩ :=
      fmSplitFrag_spec hinv₁ (Finset.mem_insert_self f live) (hsize.trans hsize₁.ge)
    have hwf : qm'.WellFormed lo hi (insert f live) :=
      ⟨fs', lists', hinv', fun g hg => (hnull' g hg).trans (hnull₁ g hg)⟩
    have hadd : uadd 64 f fragOverhead = f + fragOverhead :=
      uadd_of_lt (hwf.frag_bounds (Finset.mem_insert_self f live))
    refine ⟨qm', some (f + fragOverhead), ?_, ?_, ?_⟩
    · rw [hqm₁, setNxt_setNo] at hsplit
      rw [fmMalloc_of_found hsearch, hsplit, hadd]
      rfl
    · rw [fragsOf_some, Finset.union_comm]
      exact hwf
    · rw [fragsOf_some]
      exact Finset.disjoint_singleton_right.mpr hft

theorem fmFree_spec {p : Option ℕ} (hp : ∀ q ∈ p, ∃ f ∈ live, q = f + fragOverhead) :
    ∃ qm', fmFree qm p = some qm' ∧ qm'.WellFormed lo hi (live \ fragsOf p) := by
  cases p with
  | none =>
    have hempty : live \ fragsOf none = live := by simp [fragsOf]
    rw [hempty]
    exact ⟨qm, rfl, h⟩
  | some q =>
    obtain ⟨f, hf, rfl⟩ := hp q rfl
    have hsub : usub 64 (f + fragOverhead) fragOverhead = f := by
      rw [usub_of_le (by omega) (h.frag_bounds hf), Nat.add_sub_cancel]
    obtain ⟨fs, lists, hinv, hnull⟩ := h
    obtain ⟨qm', lists', hins, hinv', hnull'⟩ := fmInsertFree_spec hinv hf
    refine ⟨qm', ?_, ?_⟩
    · rw [fmFree, hsub, hins]
    · rw [fragsOf_some, Finset.sdiff_singleton_eq_erase]
      refine ⟨fs, lists', hinv', ?_⟩
      intro g hg
      exact (hnull' g hg).trans (hnull g (Finset.mem_of_mem_erase hg))

theorem FmBlock.WellFormed.splitFrag (hf : f ∈ live) (hsize : size ≤ (qm.frag f).size) :
    ∃ qm', fmSplitFrag qm f size = some qm' ∧ qm'.WellFormed lo hi live := by
  obtain ⟨fs, lists, hinv, hnull⟩ := h
  obtain ⟨qm', fs', lists', hsplit, hinv', hnull'⟩ :=
    fmSplitFrag_spec hinv hf hsize
  exact ⟨qm', hsplit, fs', lists', hinv', fun g hg => (hnull' g hg).trans (hnull g hg)⟩

end

theorem fragNext_eq (h : PoolInv lo hi qm taken fs lists)
    (hf : f ∈ fs) : qm.fragNext f = f + qm.extent f := by
  have hend := (h.frag_end_le hf).2
  have hhigh := h.high
  have hbound := h.bound
  rw [fragNext, uadd_of_lt (a := f) (by omega), uadd_of_lt (by omega)]
  simp only [extent]
  omega

theorem fmReallocJoin_of_found {qm : FmBlock} {g : ℕ} {slot : Option ℕ} (f : ℕ)
    (h : qm.walkBucket (getHash (qm.frag n).size) (fun g => g == n) = some (slot, some g)) :
    fmReallocJoin qm f n = some (((qm.setSlot (getHash (qm.frag n).size) slot
        (qm.frag n).nxtFree).setNo (getHash (qm.frag n).size)
          (usub 64 (qm.freeHash (getHash (qm.frag n).size)).no 1)).setSize f
            (uadd 64 (qm.frag f).size (uadd 64 (qm.frag n).size fragOverhead))) := by
  have hsize : ∀ slot v g, ((qm.setSlot (getHash (qm.frag n).size) slot v).frag g).size =
        (qm.frag g).size :=
    fun slot v g => size_setSlot qm _ g slot v
  rw [fmReallocJoin]
  refine (bind_of_eq_some h _).trans ?_
  simp only [no_setSlot, frag_setNo, hsize]
  rfl

theorem PoolInv.fragNext_mem (h : PoolInv lo hi qm taken fs lists)
    (hf : f ∈ fs) (hlast : qm.fragNext f < qm.lastFrag) :
    ∃ m₁ m₃, fs = m₁ ++ f :: qm.fragNext f :: m₃ := by
  have hlastFrag := h.last
  obtain ⟨m₁, m₂, rfl⟩ := append_of_mem hf
  have hnext := fragNext_eq h hf
  rcases h.tiles.next_eq with ⟨-, hend⟩ | ⟨m₃, rfl⟩
  · omega
  · exact ⟨m₁, m₃, by rw [hnext]⟩

theorem fmReallocJoin_eq (h : PoolInv lo hi qm taken fs lists)
    (hf : f ∈ fs) (hn : n ∈ fs) (hnt : n ∉ taken) (hnext : n = f + qm.extent f)
    (hhash : hash = getHash (qm.frag n).size) :
    ∃ l₁ l₂, lists hash = l₁ ++ n :: l₂ ∧ fmReallocJoin qm f n =
        some (((qm.setSlot hash l₁.getLast? (qm.frag n).nxtFree).setNo hash
          (usub 64 (qm.freeHash hash).no 1)).setSize f
            ((qm.frag f).size + ((qm.frag n).size + fragOverhead))) := by
  subst hhash
  have hbound := h.bound
  have hhigh := h.high
  have hnend := (h.frag_end_le hn).2
  obtain ⟨l₁, l₂, hl, h₁, h₂, hwalk⟩ :=
    h.walkBucket_eq (h.getHash_lt hn) (fun g => g == n)
  have hnl₁ : n ∉ l₁ := by
    intro hmem₁
    simpa using h₁ n hmem₁
  have hmem := h.free_listed n hn hnt
  obtain ⟨l₃, rfl⟩ : ∃ l₃, l₂ = n :: l₃ := by
    rw [hl] at hmem
    have hnl₂ := (mem_append.mp hmem).resolve_left hnl₁
    cases l₂ with
    | nil => simp at hnl₂
    | cons y l₃ =>
      have hy : y = n := by simpa using h₂ y rfl
      exact ⟨l₃, by rw [hy]⟩
  have hadd : uadd 64 (qm.frag n).size fragOverhead =
      (qm.frag n).size + fragOverhead := uadd_of_lt (by omega)
  have hadd' : uadd 64 (qm.frag f).size ((qm.frag n).size + fragOverhead) =
        (qm.frag f).size + ((qm.frag n).size + fragOverhead) := by
    apply uadd_of_lt
    simp only [extent] at hnext
    omega
  refine ⟨l₁, l₃, hl, ?_⟩
  rw [fmReallocJoin_of_found f hwalk, hadd, hadd']

section

variable (h : qm.WellFormed lo hi live)
include h

/-- `fm_realloc` absorbs the next fragment only when that one looks free, and
then it is. -/
theorem fmReallocJoin_spec (hf : f ∈ live) (hlast : qm.fragNext f < qm.lastFrag)
    (hfree : (qm.frag (qm.fragNext f)).nxtFree.isSome) :
    ∃ qm', fmReallocJoin qm f (qm.fragNext f) = some qm' ∧ qm'.WellFormed lo hi live ∧
      (qm'.frag f).size = (qm.frag f).size + ((qm.frag (qm.fragNext f)).size + fragOverhead) := by
  obtain ⟨fs, lists, hinv, hnull⟩ := h
  have hfs := hinv.taken_mem f hf
  have hnext := fragNext_eq hinv hfs
  obtain ⟨m₁, m₃, rfl⟩ := hinv.fragNext_mem hfs hlast
  set n := qm.fragNext f with hn
  have hnfs : n ∈ m₁ ++ f :: n :: m₃ := by simp
  have hnlive : n ∉ live := by
    intro hmem
    simp [hnull n hmem] at hfree
  have hnf : n ≠ f := fun hEq => hnlive (hEq ▸ hf)
  have hnodup : (n :: f :: (m₁ ++ m₃)).Nodup := by
    have hperm : (m₁ ++ f :: n :: m₃).Perm (n :: f :: (m₁ ++ m₃)) :=
      perm_middle.trans ((perm_middle.cons f).trans (List.Perm.swap n f _))
    exact hperm.nodup_iff.mp hinv.fs_nodup
  have hhash := hinv.getHash_lt hnfs
  obtain ⟨l₁, l₃, hl, hrun⟩ :=
    fmReallocJoin_eq hinv hfs hnfs hnlive hnext rfl
  set hash := getHash (qm.frag n).size with hhashn
  set qm₁ := (qm.setSlot hash l₁.getLast? (qm.frag n).nxtFree).setNo hash
    (usub 64 (qm.freeHash hash).no 1) with hqm₁
  have hinv₁ : PoolInv lo hi qm₁ (insert n live) _ _ := hinv.unlink hhash hl
  have hsize₁ : ∀ g, (qm₁.frag g).size = (qm.frag g).size :=
    fun g => size_setSlot qm hash g _ _
  have hnull₁ : ∀ g ∈ live, (qm₁.frag g).nxtFree = none := by
    intro g hg
    exact (hinv.nxtFree_setSlot hhash hl _ hg).trans (hnull g hg)
  refine ⟨_, hrun, ⟨m₁ ++ f :: m₃, Function.update lists hash (l₁ ++ l₃), ?_, ?_⟩, ?_⟩
  · apply hinv₁.reshape
    · rfl
    · rfl
    · rfl
    · rfl
    · rfl
    · intro g
      exact nxtFree_setSize _ f g _
    · apply hinv₁.tiles.join
      · simp only [extent, size_setSize_self, hsize₁]
        omega
      · intro g hg
        have hgf : g ≠ f := by
          rintro rfl
          exact (nodup_cons.mp (nodup_cons.mp hnodup).2).1 hg
        simp only [extent, size_setSize_of_ne _ hgf]
    · intro g hg
      have hgn : g ≠ n := fun hEq => hnlive (hEq ▸ hg)
      have hgfs := hinv.taken_mem g hg
      simpa [hgn] using hgfs
    · intro g
      have hnot : n ∉ m₁ ++ f :: m₃ := by
        intro hmem'
        apply (nodup_cons.mp hnodup).1
        simpa [or_left_comm] using hmem'
      by_cases hgn : g = n
      · rw [hgn]
        simp [hnot]
      · simp [hgn]
    · intro g _ hg
      have hgf : g ≠ f := by
        rintro rfl
        exact hg (Finset.mem_insert_of_mem hf)
      rw [size_setSize_of_ne _ hgf]
  · intro g hg
    rw [nxtFree_setSize]
    exact hnull₁ g hg
  · rw [size_setSize_self]

theorem FmBlock.WellFormed.memcpy
    (dst src len : ℕ) : (qm.memcpy dst src len).WellFormed lo hi live := by
  obtain ⟨fs, lists, hinv, hnull⟩ := h
  refine ⟨fs, lists, ?_, hnull⟩
  exact hinv.reshape rfl rfl rfl rfl rfl (fun _ => rfl) hinv.tiles
    hinv.taken_mem (fun _ => Iff.rfl) (fun _ _ _ => rfl)

/-- The part of `fm_realloc` that moves a block to a new place. -/
theorem fmReallocMove_spec (hf : f ∈ live) (size origSize : ℕ) :
    ∃ qm₁ r qm', fmMalloc qm size = some (qm₁, r) ∧ fmFree (match r with
        | some ptr => qm₁.memcpy ptr (f + fragOverhead) origSize
        | none => qm₁) (some (f + fragOverhead)) = some qm' ∧
      qm'.WellFormed lo hi (live \ {f} ∪ fragsOf r) := by
  obtain ⟨qm₁, r, hmalloc, hwf, hdisj⟩ := fmMalloc_spec h size
  have hwf₂ : (match r with
      | some ptr => qm₁.memcpy ptr (f + fragOverhead) origSize
      | none => qm₁).WellFormed lo hi (live ∪ fragsOf r) := by
    cases r with
    | none => exact hwf
    | some ptr => exact hwf.memcpy _ _ _
  obtain ⟨qm', hfree, hwf'⟩ := fmFree_spec hwf₂ (p := some (f + fragOverhead)) (by
      rintro q ⟨⟩
      exact ⟨f, Finset.mem_union_left _ hf, rfl⟩)
  refine ⟨qm₁, r, qm', hmalloc, hfree, ?_⟩
  have hfr : f ∉ fragsOf r := Finset.disjoint_left.mp hdisj hf
  have hset : (live ∪ fragsOf r) \ fragsOf (some (f + fragOverhead)) = live \ {f} ∪ fragsOf r := by
    rw [fragsOf_some, Finset.union_sdiff_distrib, Finset.sdiff_singleton_eq_erase f (fragsOf r),
      Finset.erase_eq_of_notMem hfr]
  rwa [hset] at hwf'

theorem fmRealloc_spec {p : Option ℕ} (hp : ∀ q ∈ p, ∃ f ∈ live, q = f + fragOverhead) (size : ℕ) :
    ∃ qm' r, fmRealloc qm p size = some (qm', r) ∧
      qm'.WellFormed lo hi (live \ fragsOf p ∪ fragsOf r) := by
  by_cases hzero : size = 0
  · obtain ⟨qm', hfree, hwf⟩ := fmFree_spec h hp
    refine ⟨qm', none, ?_, ?_⟩
    · unfold fmRealloc
      rw [if_pos hzero, hfree]
      rfl
    · simpa [fragsOf] using hwf
  cases p with
  | none =>
    obtain ⟨qm', r, hmalloc, hwf, -⟩ := fmMalloc_spec h size
    refine ⟨qm', r, ?_, ?_⟩
    · rw [fmRealloc, if_neg hzero]
      exact hmalloc
    · simpa [fragsOf] using hwf
  | some q =>
    obtain ⟨f, hf, rfl⟩ := hp q rfl
    have hsub : usub 64 (f + fragOverhead) fragOverhead = f := by
      rw [usub_of_le (by omega) (h.frag_bounds hf), Nat.add_sub_cancel]
    have hsame : live \ fragsOf (some (f + fragOverhead)) ∪
        fragsOf (some (f + fragOverhead)) = live := by
      rw [fragsOf_some]
      exact Finset.sdiff_union_of_subset (by simpa using hf)
    rw [fmRealloc, if_neg hzero]
    simp only [hsub]
    by_cases hshrink : roundUp size < (qm.frag f).size
    · obtain ⟨qm', hsplit, hwf⟩ := h.splitFrag hf hshrink.le
      refine ⟨qm', some (f + fragOverhead), ?_, ?_⟩
      · rw [if_pos hshrink, hsplit]
        rfl
      · rwa [hsame]
    · rw [if_neg hshrink]
      by_cases hgrow : (qm.frag f).size < roundUp size
      · rw [if_pos hgrow]
        by_cases hjoin : qm.fragNext f < qm.lastFrag ∧ (qm.frag (qm.fragNext f)).nxtFree.isSome ∧
            usub 64 (roundUp size) (qm.frag f).size ≤
              uadd 64 (qm.frag (qm.fragNext f)).size fragOverhead
        · rw [if_pos hjoin]
          obtain ⟨qm₁, hrun, hwf₁, -⟩ :=
            fmReallocJoin_spec h hf hjoin.1 hjoin.2.1
          rw [hrun]
          by_cases hrest : roundUp size < (qm₁.frag f).size
          · obtain ⟨qm', hsplit, hwf⟩ := hwf₁.splitFrag hf hrest.le
            refine ⟨qm', some (f + fragOverhead), ?_, ?_⟩
            · refine (bind_of_eq_some rfl _).trans ?_
              rw [if_pos hrest, hsplit]
              rfl
            · rwa [hsame]
          · refine ⟨qm₁, some (f + fragOverhead), ?_, ?_⟩
            · refine (bind_of_eq_some rfl _).trans ?_
              rw [if_neg hrest]
              rfl
            · rwa [hsame]
        · rw [if_neg hjoin]
          obtain ⟨qm₁, r, qm', hmalloc, hfree, hwf⟩ :=
            fmReallocMove_spec h hf (roundUp size) (qm.frag f).size
          refine ⟨qm', r, ?_, ?_⟩
          · refine (bind_of_eq_some hmalloc _).trans ?_
            exact (bind_of_eq_some hfree _).trans rfl
          · rwa [fragsOf_some]
      · rw [if_neg hgrow]
        exact ⟨qm, some (f + fragOverhead), rfl, by rwa [hsame]⟩

end

/-! ## Histories -/

theorem roundUp_bounds {s : ℕ} (h : s + roundTo ≤ 2 ^ 64) :
    s ≤ roundUp s ∧ roundUp s < s + roundTo := by
  have hadd : uadd 64 s (roundTo - 1) = s + (roundTo - 1) := by
    apply uadd_of_lt
    simp only [roundTo] at *
    omega
  rw [roundUp, hadd]
  simp only [roundDown, roundTo]
  omega

/-- The block written at the start holds one taken fragment. -/
theorem fmInitBlock_poolInv (frag : ℕ → FmFrag) (payload : ℕ → UInt8)
    {start : ℕ} (hlo : lo ≤ start) (hhi : start + size ≤ hi)
    (hbound : hi < 2 ^ 64) (hsize : initOverhead ≤ size) :
    PoolInv lo hi (fmInitBlock frag payload start size)
      {(fmInitBlock frag payload start size).firstFrag}
      [(fmInitBlock frag payload start size).firstFrag] (fun _ => []) := by
  have hover : initOverhead = roundUp sizeofBlock + fragOverhead := rfl
  have hblock : sizeofBlock ≤ roundUp sizeofBlock :=
    (roundUp_bounds (by decide)).1
  have hfirst : (fmInitBlock frag payload start size).firstFrag =
      start + roundUp sizeofBlock := uadd_of_lt (by omega)
  have hlast : (fmInitBlock frag payload start size).lastFrag = start + size - fragOverhead := by
    have hend : uadd 64 start size = start + size := uadd_of_lt (by omega)
    have hsub : usub 64 (start + size) fragOverhead =
        start + size - fragOverhead := usub_of_le (by omega) (by omega)
    rw [← hsub, ← hend]
    rfl
  have hfsize : ((fmInitBlock frag payload start size).frag
      (fmInitBlock frag payload start size).firstFrag).size = size - initOverhead := by
    have hsub : usub 64 size initOverhead = size - initOverhead :=
      usub_of_le hsize (by omega)
    by_cases hsame : (fmInitBlock frag payload start size).lastFrag =
        (fmInitBlock frag payload start size).firstFrag
    · have hzero : size - initOverhead = 0 := by omega
      rw [← hsame, hzero]
      exact size_setSize_self _ _ _
    · rw [← hsub]
      exact (size_setSize_of_ne _ (Ne.symm hsame) 0).trans (size_setSize_self _ _ _)
  refine
    { low := hlo
      high := hhi
      bound := hbound
      block := ?_
      last := ?_
      tiles := ?_
      taken_mem := by simp
      holds := fun _ _ => rfl
      count := fun _ _ => rfl
      listed := by simp
      free_listed := by simp
      sorted := fun _ _ _ => List.Pairwise.nil }
  · rw [hfirst]
    exact Nat.add_le_add_left hblock start
  · rw [hlast]
    exact Nat.sub_add_cancel (by omega)
  · refine tiles_cons.mpr ⟨rfl, tiles_nil.mpr ?_⟩
    have hend : start + roundUp sizeofBlock + (fragOverhead +
        (size - initOverhead)) = start + size := by omega
    rw [extent, hfsize, hfirst, hend]
    rfl

section

variable (haddr : address + size < 2 ^ 64)
include haddr

theorem roundUp_of_room (hroom : ¬size < usub 64 (roundUp address) address) :
    address ≤ roundUp address ∧ roundUp address < address + roundTo := by
  by_cases hwrap : address + roundTo ≤ 2 ^ 64
  · exact roundUp_bounds hwrap
  · exfalso
    apply hroom
    simp only [roundTo] at hwrap
    have hadd : uadd 64 address (roundTo - 1) = address + 7 - 2 ^ 64 := by
      simp only [uadd, roundTo]
      omega
    have hzero : roundUp address = 0 := by
      rw [roundUp, hadd]
      simp only [roundDown, roundTo]
      omega
    rw [hzero]
    simp only [usub]
    omega

theorem fmMallocInit_eq {frag : ℕ → FmFrag} {payload : ℕ → UInt8}
    {start size' : ℕ}
    (hstart : start = roundUp address)
    (hsize : size' = roundDown (size - (start - address)))
    (h : fmMallocInit frag payload address size = some qm) :
    address ≤ start ∧ start + size' ≤ address + size ∧ initOverhead ≤ size' ∧
      fmInsertFree (fmInitBlock frag payload start size')
        (fmInitBlock frag payload start size').firstFrag = some qm := by
  unfold fmMallocInit at h
  simp only at h
  by_cases hroom : size < usub 64 (roundUp address) address
  · simp [hroom] at h
  rw [if_neg hroom] at h
  have hround := roundUp_of_room haddr hroom
  rw [← hstart] at h hroom hround
  have hlt : start < 2 ^ 64 := hstart ▸ roundUp_lt address
  have hpad : usub 64 start address = start - address :=
    usub_of_le hround.1 hlt
  rw [hpad] at h hroom
  have hsub : usub 64 size (start - address) = size - (start - address) :=
    usub_of_le (by omega) (by omega)
  rw [hsub, ← hsize] at h
  by_cases hfrag : size - (start - address) < roundTo + fragOverhead
  · simp [hfrag] at h
  rw [if_neg hfrag] at h
  by_cases hinit : size' < initOverhead
  · simp [hinit] at h
  rw [if_neg hinit] at h
  have hdown : roundDown (size - (start - address)) ≤ size - (start - address) := Nat.sub_le _ _
  exact ⟨hround.1, by omega, not_lt.mp hinit, h⟩

theorem fmMallocInit_wellFormed {frag : ℕ → FmFrag} {payload : ℕ → UInt8}
    (h : fmMallocInit frag payload address size = some qm) :
    qm.WellFormed address (address + size) ∅ := by
  obtain ⟨hstart, hend, hinit, hins⟩ := fmMallocInit_eq haddr rfl rfl h
  have hinv : PoolInv address (address + size) _ _ _ _ :=
    fmInitBlock_poolInv frag payload hstart hend haddr hinit
  obtain ⟨qm', lists', hins', hinv', -⟩ :=
    fmInsertFree_spec hinv (Finset.mem_singleton_self _)
  rw [hins] at hins'
  cases hins'
  rw [Finset.erase_singleton] at hinv'
  exact ⟨_, lists', hinv', by simp⟩

end

theorem FmState.step_spec {s : FmState} (h : s.qm.WellFormed lo hi s.live)
    {op : FmOp} (hop : op.Admissible s) :
    ∃ s', s.step op = some s' ∧ s'.qm.WellFormed lo hi s'.live := by
  cases op with
  | malloc size =>
    obtain ⟨qm', r, hrun, hwf, -⟩ := fmMalloc_spec h size
    exact ⟨⟨qm', _⟩, (bind_of_eq_some hrun _).trans rfl, hwf⟩
  | free p =>
    obtain ⟨qm', hrun, hwf⟩ := fmFree_spec h hop
    exact ⟨⟨qm', _⟩, (bind_of_eq_some hrun _).trans rfl, hwf⟩
  | realloc p size =>
    obtain ⟨qm', r, hrun, hwf⟩ := fmRealloc_spec h hop.1 size
    exact ⟨⟨qm', _⟩, (bind_of_eq_some hrun _).trans rfl, hwf⟩

theorem FmReach.wellFormed (hqm : qm.WellFormed lo hi ∅) {s : FmState}
    (h : FmReach qm s) : s.qm.WellFormed lo hi s.live := by
  induction h with
  | init => exact hqm
  | step _ hop hstep ih =>
    obtain ⟨s', hrun, hwf⟩ := FmState.step_spec ih hop
    rw [hrun] at hstep
    cases hstep
    exact hwf

end Msicp.Mem
