import Msicp.Mem.QMallocStores
import Mathlib.Algebra.BigOperators.Group.Finset.Basic
import Mathlib.Algebra.Order.BigOperators.Group.Finset

/-!
# The calls of a `q_malloc` pool

What the calls do to the fragments, to the payloads and to the counters.
-/

namespace Msicp.Mem

open Msicp.Support List

/-! ## Counters -/

/-- The counters are those of the `fs` fragments, of which `counted` are handed out, with
`extra` bytes more. -/
structure QmBlock.Counts (qm : QmBlock) (counted : Finset ℕ) (extra : ℕ) (fs : List ℕ) :
    Prop where
  used : qm.books.1 = ∑ g ∈ counted, (qm.frag g).size + extra
  realUsed : qm.books.2 = roundUp sizeofQmBlock + qmOverhead * fs.length + qm.books.1

namespace QmBlock.Counts

variable {qm qm' : QmBlock} {counted : Finset ℕ} {extra f n : ℕ} {fs fs' : List ℕ}

theorem congr (h : qm.Counts counted extra fs) (hbooks : qm'.books = qm.books)
    (hsize : ∀ g ∈ counted, (qm'.frag g).size = (qm.frag g).size) :
    qm'.Counts counted extra fs where
  used := by
    rw [hbooks, h.used, Finset.sum_congr rfl hsize]
  realUsed := by
    rw [hbooks, h.realUsed]

end QmBlock.Counts

namespace QmInv

variable {qm qm' qm'' : QmBlock} {taken counted : Finset ℕ} {fs fs' : List ℕ}
  {lists : ℕ → List ℕ} {f g n size extra newSize total : ℕ} {l₁ l₂ m : List ℕ}

section

variable (h : QmInv qm taken fs lists)
include h

theorem size_eq : qm.size = roundUp sizeofQmBlock + qmOverhead * fs.length +
      ∑ g ∈ fs.toFinset, (qm.frag g).size := by
  have hend := h.tiles.end_eq
  have hfirst := h.first
  have hsum : (fs.map qm.extent).sum =
      qmOverhead * fs.length + ∑ g ∈ fs.toFinset, (qm.frag g).size := by
    rw [sum_toFinset _ h.fs_nodup]
    clear hend h
    induction fs with
    | nil => rfl
    | cons g fs ih =>
      rw [map_cons, sum_cons, ih, map_cons, sum_cons, length_cons, QmBlock.extent, Nat.mul_succ]
      omega
  omega

theorem counted_le (hcounted : ∀ g ∈ counted, g ∈ fs) (hf : f ∈ fs) (hfc : f ∉ counted) :
    roundUp sizeofQmBlock + qmOverhead * fs.length +
      (∑ g ∈ counted, (qm.frag g).size + (qm.frag f).size) ≤ qm.size := by
  have hsum : ∑ g ∈ insert f counted, (qm.frag g).size ≤ ∑ g ∈ fs.toFinset, (qm.frag g).size := by
    apply Finset.sum_le_sum_of_subset
    intro g hg
    rw [List.mem_toFinset]
    rcases Finset.mem_insert.mp hg with rfl | hg
    · exact hf
    · exact hcounted g hg
  rw [Finset.sum_insert hfc] at hsum
  rw [h.size_eq]
  omega

theorem counted_le_all (hcounted : ∀ g ∈ counted, g ∈ fs) :
    roundUp sizeofQmBlock + qmOverhead * fs.length + ∑ g ∈ counted, (qm.frag g).size ≤
      qm.size := by
  have hsum : ∑ g ∈ counted, (qm.frag g).size ≤ ∑ g ∈ fs.toFinset, (qm.frag g).size := by
    apply Finset.sum_le_sum_of_subset
    intro g hg
    exact List.mem_toFinset.mpr (hcounted g hg)
  rw [h.size_eq]
  omega

theorem size_lt_pow : qm.size < 2 ^ 64 := by
  have hbound := h.bound
  omega

end

/-! ## What a call leaves alone -/

/-- The pool and the fragments of `kept` are as they were. -/
structure Frames (qm qm' : QmBlock) (kept : Finset ℕ) : Prop where
  pool : QmBlock.SamePool qm qm'
  size : ∀ g ∈ kept, (qm'.frag g).size = (qm.frag g).size
  next : ∀ g ∈ kept, qm'.next g = qm.next g
  spares : ∀ g ∈ kept, Spares qm qm' (g + qmFragSize) (qm.frag g).size

variable {kept kept' : Finset ℕ}

theorem Frames.mono (h : Frames qm qm' kept) (hsub : kept' ⊆ kept) : Frames qm qm' kept' where
  pool := h.pool
  size g hg := h.size g (hsub hg)
  next g hg := h.next g (hsub hg)
  spares g hg := h.spares g (hsub hg)

theorem Frames.trans (h : Frames qm qm' kept) (h' : Frames qm' qm'' kept) :
    Frames qm qm'' kept where
  pool := h.pool.trans h'.pool
  size g hg := (h'.size g hg).trans (h.size g hg)
  next g hg := (h'.next g hg).trans (h.next g hg)
  spares g hg := by
    have hspares := h'.spares g hg
    rw [h.size g hg] at hspares
    exact (h.spares g hg).trans hspares

theorem Frames.of_eq (hpool : QmBlock.SamePool qm qm') (hfrag : qm'.frag = qm.frag)
    (hend : qm'.fragEnd = qm.fragEnd) : Frames qm qm' kept where
  pool := hpool
  size g _ := by rw [hfrag]
  next g _ := by rw [QmBlock.next, hfrag, QmBlock.next]
  spares g _ := Spares.of_eq hfrag hend

section

variable (h : QmInv qm taken fs lists)
include h

theorem of_frames (hpool : QmBlock.SamePool qm qm')
    (hfrag : qm'.frag = qm.frag) (hend : qm'.fragEnd = qm.fragEnd) :
    QmInv qm' taken fs lists :=
  h.of_eq hpool.addr hpool.poolSize hpool.firstFrag hpool.lastFragEnd hfrag hend

theorem insertFree_spec (hf : f ∈ taken) :
    ∃ qm' lists', qmInsertFree qm f = some qm' ∧ QmInv qm' (taken.erase f) fs lists' ∧
      Frames qm qm' (taken.erase f) ∧ QmBlock.SameShape qm qm' ∧
      ∀ g ∈ fs, Spares qm qm' (g + qmFragSize) (qm.frag g).size := by
  obtain ⟨qm', lists', hrun, hinv, hshape, hat, hnext⟩ := h.insertFree hf
  refine ⟨qm', lists', hrun, hinv, ?_, hshape, fun g hg => hat.spares h hg⟩
  refine ⟨hshape.samePool, fun g _ => hshape.size g, fun g hg => ?_, fun g hg => ?_⟩
  · exact hnext g (Finset.mem_of_mem_erase hg) (Finset.ne_of_mem_erase hg)
  · exact hat.spares h (h.taken_mem g (Finset.mem_of_mem_erase hg))

theorem detach_spec (hf : f ∈ fs) (hfree : f ∉ taken) :
    ∃ lists', QmInv (qmDetachFree qm f) (insert f taken) fs lists' ∧
      Frames qm (qmDetachFree qm f) taken ∧ QmBlock.SameShape qm (qmDetachFree qm f) ∧
      ∀ g ∈ fs, Spares qm (qmDetachFree qm f) (g + qmFragSize) (qm.frag g).size := by
  have hhash := h.getHash_lt hf
  obtain ⟨l₁, l₂, hl⟩ := append_of_mem (h.free_listed f hf hfree)
  obtain ⟨hinv, hat, hnext⟩ := h.detach hhash hl
  have hshape := qm.detach_sameShape f
  refine ⟨_, hinv, ?_, hshape, fun g hg => hat.spares h hg⟩
  exact ⟨hshape.samePool, fun g _ => hshape.size g, hnext,
    fun g hg => hat.spares h (h.taken_mem g hg)⟩

end

/-! ## `split_frag` -/

theorem splitFrag_eq {rest e n : ℕ}
    (hcond : uadd 64 qmOverhead optimize < usub 64 (qm.frag f).size newSize ∨
      uadd 64 qmOverhead newSize ≤ usub 64 (qm.frag f).size newSize)
    (hrest : usub 64 (usub 64 (qm.frag f).size newSize) qmOverhead = rest)
    (he : e = f + qmFragSize + newSize) (hn : n = f + qmOverhead + newSize)
    (hfit : newSize + qmOverhead + rest = (qm.frag f).size) :
    splitFrag qm f newSize = (qmInsertFree (cutStores qm f newSize rest e n (qm.fragEndOf f)) n).map
        fun qm => (qm, true) := by
  have hover : qmOverhead = qmFragSize + qmEndSize := rfl
  have hend : (qm.setSize f newSize).fragEndOf f = e := by
    rw [QmBlock.fragEndOf, QmBlock.size_setSize, if_pos rfl, he]
  have hnext : e + qmEndSize = n := by omega
  have hsize : ((((qm.setSize f newSize).setEndSize e newSize).setSize n rest).frag n).size =
      rest := by
    rw [QmBlock.size_setSize, if_pos rfl]
  have htail : (((qm.setSize f newSize).setEndSize e newSize).setSize n rest).fragEndOf n =
      qm.fragEndOf f := by
    rw [QmBlock.fragEndOf, hsize, QmBlock.fragEndOf]
    omega
  rw [splitFrag, if_pos hcond]
  simp only [hrest, hend, hnext, htail, hsize]
  rw [cutStores]
  generalize qmInsertFree _ n = r
  cases r with
  | none => rfl
  | some r => rfl

section

variable (h : QmInv qm taken fs lists)
include h

/-- `split_frag` on a taken fragment.  It may be cut to `newSize` bytes; what lies behind
them becomes a free fragment. -/
theorem splitFrag_spec (hf : f ∈ taken) (hle : newSize ≤ (qm.frag f).size) :
    ∃ qm' split fs' lists', splitFrag qm f newSize = some (qm', split) ∧
      QmInv qm' taken fs' lists' ∧ Frames qm qm' (taken.erase f) ∧ qm'.next f = qm.next f ∧
      Spares qm qm' (f + qmFragSize) newSize ∧
      (newSize ≤ (qm'.frag f).size ∧ (qm'.frag f).size ≤ (qm.frag f).size) ∧
      (qm'.books.1 = qm.books.1 ∧ (split = true → (qm'.frag f).size = newSize) ∧
        (split = false → qm' = qm)) ∧
      ∀ counted extra, (∀ g ∈ counted, g ∈ taken) → f ∉ counted → extra ≤ newSize →
        qm.Counts counted extra fs → qm'.Counts counted extra fs' := by
  have hffs := h.taken_mem f hf
  have hlt := h.size_lt hffs
  have hbounds := (h.frag_bounds hffs).2
  have hbound := h.bound
  have hover : qmOverhead = 96 := rfl
  have hrest : usub 64 (qm.frag f).size newSize = (qm.frag f).size - newSize :=
    usub_of_le hle hlt
  by_cases hcond : uadd 64 qmOverhead optimize < usub 64 (qm.frag f).size newSize ∨
      uadd 64 qmOverhead newSize ≤ usub 64 (qm.frag f).size newSize
  · have hbig : newSize + qmOverhead ≤ (qm.frag f).size := by
      have hopt : uadd 64 qmOverhead optimize = 16480 := by decide
      have hadd : uadd 64 qmOverhead newSize = qmOverhead + newSize := uadd_of_lt (by omega)
      rw [hrest, hopt, hadd] at hcond
      omega
    obtain ⟨rest, hdef⟩ : ∃ rest, rest = (qm.frag f).size - newSize - qmOverhead := ⟨_, rfl⟩
    have hfit : newSize + qmOverhead + rest = (qm.frag f).size := by omega
    have hrest' : usub 64 (usub 64 (qm.frag f).size newSize) qmOverhead = rest := by
      rw [hrest, usub_of_le (by omega) (by omega), hdef]
    obtain ⟨n, hn⟩ : ∃ n, n = f + qmOverhead + newSize := ⟨_, rfl⟩
    obtain ⟨qm₁, hqm₁⟩ : ∃ qm₁, qm₁ = cutStores qm f newSize rest
        (f + qmFragSize + newSize) n (qm.fragEndOf f) := ⟨_, rfl⟩
    have hrun := splitFrag_eq hcond hrest' rfl hn hfit
    rw [← hqm₁] at hrun
    obtain ⟨l₁, l₂, rfl⟩ := append_of_mem hffs
    have hinv₁ := h.cut hf hn rfl hfit hqm₁
    have hspares₁ := fun g hg => h.cut_spares (g := g) hn rfl hfit hqm₁ hg
    have hnf : n ≠ f := by omega
    have hnt : n ∉ taken := by
      intro hmem
      have hdisj := h.disjoint (h.taken_mem n hmem) hffs hnf
      omega
    have hsize₁ : ∀ x, (qm₁.frag x).size =
        if x = n then rest else if x = f then newSize else (qm.frag x).size := by
      rw [hqm₁]
      exact size_cutStores qm f newSize rest _ n (qm.fragEndOf f)
    have hnext₁ : ∀ x, qm₁.next x = qm.next x := by
      rw [hqm₁]
      exact next_cutStores qm f newSize rest _ n (qm.fragEndOf f)
    have hsizeg : ∀ g ∈ taken, g ≠ f → (qm₁.frag g).size = (qm.frag g).size := by
      intro g hg hgf
      rw [hsize₁, if_neg (ne_of_mem_of_not_mem hg hnt), if_neg hgf]
    obtain ⟨qm', lists', hins, hinv', hframes', hshape', hspares'⟩ :=
      hinv₁.insertFree_spec (Finset.mem_insert_self n taken)
    rw [Finset.erase_insert hnt] at hinv' hframes'
    have hsizef : (qm'.frag f).size = newSize := by
      rw [hshape'.size, hsize₁, if_neg hnf.symm, if_pos rfl]
    have hbooks₁ : qm₁.books = (qm.books.1, uadd 64 qm.books.2 qmOverhead) := by
      rw [hqm₁]
      exact books_cutStores qm f newSize rest _ n (qm.fragEndOf f)
    refine ⟨qm', true, _, lists', ?_, hinv', ?_, ?_, ?_, ⟨hsizef.ge, ?_⟩,
      ⟨?_, fun _ => hsizef, fun hbad => absurd hbad.symm Bool.false_ne_true⟩, ?_⟩
    · rw [hrun, hins]
      rfl
    · refine @Frames.trans _ qm₁ _ _ ⟨?_, ?_, ?_, ?_⟩
        (hframes'.mono (Finset.erase_subset f taken))
      · rw [hqm₁]
        exact samePool_cutStores qm f newSize rest _ n (qm.fragEndOf f)
      · intro g hg
        exact hsizeg g (Finset.mem_of_mem_erase hg) (Finset.ne_of_mem_erase hg)
      · intro g _
        exact hnext₁ g
      · intro g hg
        have hspares := hspares₁ g (h.taken_mem g (Finset.mem_of_mem_erase hg))
        rwa [if_neg (Finset.ne_of_mem_erase hg)] at hspares
    · rw [hframes'.next f hf, hnext₁]
    · have hcut := hspares₁ f hffs
      have hput := hspares' f (by simp)
      rw [if_pos rfl] at hcut
      rw [hsize₁, if_neg hnf.symm, if_pos rfl] at hput
      exact hcut.trans hput
    · rw [hsizef]
      exact hle
    · rw [hshape'.books, hbooks₁]
    · intro counted extra hcounted hfc hextra hcounts
      refine QmBlock.Counts.congr ?_ hshape'.books fun g _ => hshape'.size g
      have hsum : ∑ g ∈ counted, (qm₁.frag g).size = ∑ g ∈ counted, (qm.frag g).size :=
        Finset.sum_congr rfl fun g hg =>
          hsizeg g (hcounted g hg) (ne_of_mem_of_not_mem hg hfc)
      have hroom := @QmInv.counted_le _ _ counted _ _ f hinv₁
        (fun g hg => hinv₁.taken_mem g (Finset.mem_insert_of_mem (hcounted g hg)))
        (by simp) hfc
      have hpool : qm₁.size < 2 ^ 64 := hinv₁.size_lt_pow
      have hlength : (l₁ ++ f :: n :: l₂).length = (l₁ ++ f :: l₂).length + 1 := by
        simp only [List.length_append, length_cons]
        omega
      have hused := hcounts.used
      have hreal := hcounts.realUsed
      rw [hsize₁ f, if_neg hnf.symm, if_pos rfl, hlength, Nat.mul_succ, hsum] at hroom
      have hadd : uadd 64 qm.books.2 qmOverhead = qm.books.2 + qmOverhead :=
        uadd_of_lt (by omega)
      constructor
      · rw [hbooks₁, hsum]
        exact hused
      · rw [hbooks₁, hadd, hreal, hlength, Nat.mul_succ]
        omega
  · refine ⟨qm, false, fs, lists, if_neg hcond, h, Frames.of_eq ?_ rfl rfl, rfl,
      Spares.of_eq rfl rfl, ⟨hle, le_rfl⟩, ⟨rfl, fun hbad => absurd hbad Bool.false_ne_true,
        fun _ => rfl⟩,
      fun counted extra _ _ _ hcounts => hcounts⟩
    exact (QmBlock.SameShape.refl qm).samePool

/-! ## `qm_malloc` -/

/-- The search passes lists without a big enough fragment. -/
theorem qmFindFree_spec (size : ℕ) {count hash : ℕ} (hcount : hash + count ≤ hashSize) :
    (qmFindFree qm size count hash = some none ∧
      ∀ hash', hash ≤ hash' → hash' < hash + count → ∀ f ∈ lists hash', (qm.frag f).size < size) ∨
    ∃ hash' f, hash' < hashSize ∧ f ∈ lists hash' ∧ size ≤ (qm.frag f).size ∧
      qmFindFree qm size count hash = some (some (hash', f)) := by
  induction count generalizing hash with
  | zero => exact Or.inl ⟨rfl, fun hash' hlow hhigh => by omega⟩
  | succ count ih =>
    have hhash : hash < hashSize := by omega
    have hhead : qm.head hash ∉ lists hash := fun hin =>
      h.head_notMem hhash (h.listed hash hhash _ hin).1
    obtain ⟨l₁, l₂, hl, hpass, hstop, hwalk⟩ := @walkRound_eq _ _ _ _ _ _
        (fun f => decide (size ≤ (qm.frag f).size)) _ _ (h.holds hash hhash) hhead
      (h.length_lt hhash)
    rw [qmFindFree, hwalk]
    cases l₂ with
    | nil =>
      have hnext : qmFindFree qm size count (hash + 1) = (do
          let f ← some (firstOf [] (qm.head hash))
          if f = qm.head hash then qmFindFree qm size count (hash + 1)
          else some (some (hash, f))) := (if_pos rfl).symm
      rcases @ih (hash + 1) (by omega) with ⟨hnone, hsmall⟩ | ⟨hash', f, hfound⟩
      · refine Or.inl ⟨hnext.symm.trans hnone, ?_⟩
        intro hash' hlow hhigh f hf
        by_cases hsame : hash' = hash
        · rw [hsame, hl, append_nil] at hf
          exact not_le.mp (of_decide_eq_false (hpass f hf))
        · exact hsmall hash' (by omega) (by omega) f hf
      · exact Or.inr ⟨hash', f, hfound.1, hfound.2.1, hfound.2.2.1, hnext.symm.trans hfound.2.2.2⟩
    | cons f l₂ =>
      have hf : f ∈ lists hash := by
        rw [hl]
        exact mem_append_right l₁ mem_cons_self
      have hne : f ≠ qm.head hash := fun heq => hhead (heq ▸ hf)
      exact Or.inr ⟨hash, f, hhash, hf, of_decide_eq_true (hstop f rfl), if_neg hne⟩

theorem frames_setNxt (hf : f ∈ taken) (v : ℕ) : Frames qm (qm.setNxt f v) (taken.erase f) ∧
      Spares qm (qm.setNxt f v) (f + qmFragSize) (qm.frag f).size := by
  have hat : AtPlaces qm (qm.setNxt f v) fs := by
    refine ⟨fun g hg => qm.frag_setNxt_of_ne ?_ v, fun e _ => rfl⟩
    rintro rfl
    exact hg (Or.inl (h.taken_mem g hf))
  refine ⟨⟨QmBlock.SamePool.setNxt qm f v, fun g _ => qm.size_setNxt f g v, ?_, ?_⟩,
    hat.spares h (h.taken_mem f hf)⟩
  · intro g hg
    rw [QmBlock.next_setNxt, Function.update_of_ne (Finset.ne_of_mem_erase hg)]
  · intro g hg
    exact hat.spares h (h.taken_mem g (Finset.mem_of_mem_erase hg))

theorem counts_add (hcounted : ∀ g ∈ counted, g ∈ fs)
    (hf : f ∈ fs) (hfc : f ∉ counted) (hextra : extra ≤ (qm.frag f).size)
    (hcounts : qm.Counts counted extra fs)
    (hn : n = (qm.frag f).size - extra) (hfrag : qm'.frag = qm.frag)
    (hbooks : qm'.books = (uadd 64 qm.books.1 n, uadd 64 qm.books.2 n)) :
    qm'.Counts (insert f counted) 0 fs := by
  have hroom := h.counted_le hcounted hf hfc
  have hpool := h.size_lt_pow
  have hused := hcounts.used
  have hreal := hcounts.realUsed
  have hadd₁ : uadd 64 qm.books.1 n = qm.books.1 + n := uadd_of_lt (by omega)
  have hadd₂ : uadd 64 qm.books.2 n = qm.books.2 + n := uadd_of_lt (by omega)
  constructor
  · rw [hbooks, hadd₁, hfrag, Finset.sum_insert hfc]
    omega
  · rw [hbooks, hadd₁, hadd₂]
    omega

/-- What `qm_malloc` does to the fragment that it has found. -/
theorem qmMallocFound_spec {hash : ℕ} (hffs : f ∈ fs)
    (hfree : f ∉ taken) (hle : size ≤ (qm.frag f).size) :
    ∃ qm' fs' lists', qmMallocFound qm size hash f = some (qm', f + qmFragSize) ∧
      QmInv qm' (insert f taken) fs' lists' ∧ Frames qm qm' taken ∧ qm'.next f = 0 ∧
      Spares qm qm' (f + qmFragSize) size ∧ size ≤ (qm'.frag f).size ∧
      (qm.Counts taken 0 fs → qm'.Counts (insert f taken) 0 fs') := by
  have hfins : f ∈ insert f taken := Finset.mem_insert_self f taken
  have herase : (insert f taken).erase f = taken := Finset.erase_insert hfree
  obtain ⟨lists₁, hinv₁, hframes₁, hshape₁, hspares₁⟩ := h.detach_spec hffs hfree
  obtain ⟨qm₁, hqm₁⟩ : ∃ qm₁, qm₁ = qmDetachFree qm f := ⟨_, rfl⟩
  rw [← hqm₁] at hinv₁ hframes₁ hshape₁ hspares₁
  obtain ⟨hframes₂, hspares₂⟩ := hinv₁.frames_setNxt hfins 0
  have hinv₂ := hinv₁.setNxt hfins 0
  rw [herase] at hframes₂
  obtain ⟨qm₂, hqm₂⟩ : ∃ qm₂, qm₂ = qm₁.setNxt f 0 := ⟨_, rfl⟩
  rw [← hqm₂] at hframes₂ hspares₂ hinv₂
  obtain ⟨qm₃, hqm₃⟩ : ∃ qm₃, qm₃ = qm₂.setNo hash (usub 64 (qm₂.no hash) 1) := ⟨_, rfl⟩
  have hpool₃ : QmBlock.SamePool qm₂ qm₃ := hqm₃ ▸ QmBlock.SamePool.setNo qm₂ hash _
  have hfrag₃ : qm₃.frag = qm₂.frag := by rw [hqm₃, QmBlock.frag_setNo]
  have hend₃ : qm₃.fragEnd = qm₂.fragEnd := by rw [hqm₃, QmBlock.fragEnd_setNo]
  have hinv₃ := hinv₂.of_frames hpool₃ hfrag₃ hend₃
  have hframes₃ : Frames qm qm₃ taken :=
    (hframes₁.trans hframes₂).trans (Frames.of_eq hpool₃ hfrag₃ hend₃)
  have hsize₂ : ∀ g, (qm₂.frag g).size = (qm.frag g).size := by
    intro g
    rw [hqm₂, QmBlock.size_setNxt, hshape₁.size]
  have hsize₃ : ∀ g, (qm₃.frag g).size = (qm.frag g).size := by
    intro g
    rw [hfrag₃, hsize₂]
  have hbooks₃ : qm₃.books = qm.books := by
    rw [hqm₃, QmBlock.books_setNo, hqm₂, QmBlock.books_setNxt, hshape₁.books]
  have hspares₃ : Spares qm qm₃ (f + qmFragSize) (qm.frag f).size := by
    have hmid := hspares₁ f hffs
    rw [hshape₁.size] at hspares₂
    exact (hmid.trans hspares₂).trans (Spares.of_eq hfrag₃ hend₃)
  have hnext₃ : qm₃.next f = 0 := by
    rw [QmBlock.next, hfrag₃, ← QmBlock.next, hqm₂, QmBlock.next_setNxt, Function.update_self]
  obtain ⟨qm₄, split, fs', lists', hsplit, hinv₄, hframes₄, hnext₄, hspares₄, ⟨hlow, -⟩,
    -, hcounts₄⟩ := hinv₃.splitFrag_spec hfins (hle.trans (hsize₃ f).ge)
  rw [herase] at hframes₄
  obtain ⟨n, hn⟩ : ∃ n, n = (qm₄.frag f).size := ⟨_, rfl⟩
  obtain ⟨qm₅, hqm₅⟩ : ∃ qm₅, qm₅ = (qm₄.addReal n).addUsed n := ⟨_, rfl⟩
  obtain ⟨qm', hqm'⟩ : ∃ qm', qm' = qm₅.setMaxReal (max qm₅.maxRealUsed qm₅.realUsed) :=
    ⟨_, rfl⟩
  have hfrag₅ : qm₅.frag = qm₄.frag := by
    rw [hqm₅, QmBlock.frag_addUsed, QmBlock.frag_addReal]
  have hend₅ : qm₅.fragEnd = qm₄.fragEnd := by
    rw [hqm₅, QmBlock.fragEnd_addUsed, QmBlock.fragEnd_addReal]
  have hpool₅ : QmBlock.SamePool qm₄ qm₅ := by
    rw [hqm₅]
    exact (QmBlock.SamePool.addReal qm₄ n).trans (QmBlock.SamePool.addUsed _ n)
  have hfrag' : qm'.frag = qm₄.frag := by rw [hqm', QmBlock.frag_setMaxReal, hfrag₅]
  have hend' : qm'.fragEnd = qm₄.fragEnd := by rw [hqm', QmBlock.fragEnd_setMaxReal, hend₅]
  have hpool' : QmBlock.SamePool qm₄ qm' := by
    rw [hqm']
    exact hpool₅.trans (QmBlock.SamePool.setMaxReal qm₅ _)
  have hinv' := hinv₄.of_frames hpool' hfrag' hend'
  have hffs' := hinv'.taken_mem f hfins
  have hcheck : qm'.setCheck f = qm' := qm'.setCheck_eq_self (hinv'.checked f hffs').1
  refine ⟨qm', fs', lists', ?_, hinv',
    (hframes₃.trans hframes₄).trans (Frames.of_eq hpool' hfrag' hend'), ?_, ?_, ?_, ?_⟩
  · have hdebug := h.debugFrag_eq hffs
    have hno : ((qmDetachFree qm f).setNxt f 0).setNo hash
        (usub 64 (((qmDetachFree qm f).setNxt f 0).no hash) 1) = qm₃ := by
      rw [hqm₃, hqm₂, hqm₁]
    rw [qmMallocFound, hdebug]
    simp only [Bool.not_true, Bool.false_eq_true, if_false, hno, hsplit]
    change some ((((qm₄.addReal (qm₄.frag f).size).addUsed (qm₄.frag f).size).setMaxReal
      _).setCheck f, f + qmFragSize) = _
    rw [← hn, ← hqm₅, ← hqm', hcheck]
  · rw [QmBlock.next, hfrag', ← QmBlock.next, hnext₄, hnext₃]
  · exact ((hspares₃.mono hle).trans hspares₄).trans (Spares.of_eq hfrag' hend')
  · rw [hfrag']
    exact hlow
  · intro hcounts
    have hcounts₃ : qm₃.Counts taken 0 fs := hcounts.congr hbooks₃ fun g _ => hsize₃ g
    refine hinv₄.counts_add (fun g hg => hinv₄.taken_mem g (Finset.mem_insert_of_mem hg))
      (hinv₄.taken_mem f hfins) hfree (Nat.zero_le _)
      (hcounts₄ taken 0 (fun g hg => Finset.mem_insert_of_mem hg) hfree (Nat.zero_le _) hcounts₃)
      hn hfrag' ?_
    rw [hqm', QmBlock.books_setMaxReal, hqm₅, QmBlock.books_addUsed, QmBlock.books_addReal]

/-- `qm_malloc` hands out a fragment with room for the rounded size, or it returns null:
the counters leave no room, or no free fragment has any. -/
theorem qmMalloc_spec (size : ℕ) : (qmMalloc qm size = some (qm, 0) ∧
      (usub 64 qm.size qm.realUsed < roundUp size ∨
        ∀ f ∈ fs, f ∉ taken → (qm.frag f).size < roundUp size)) ∨
    ∃ qm' f fs' lists', qmMalloc qm size = some (qm', f + qmFragSize) ∧
      (roundUp size ≤ usub 64 qm.size qm.realUsed ∧ f ∈ fs ∧ f ∉ taken ∧
        roundUp size ≤ (qm.frag f).size) ∧
      QmInv qm' (insert f taken) fs' lists' ∧ Frames qm qm' taken ∧ qm'.next f = 0 ∧
      Spares qm qm' (f + qmFragSize) (roundUp size) ∧ roundUp size ≤ (qm'.frag f).size ∧
      (qm.Counts taken 0 fs → qm'.Counts (insert f taken) 0 fs') := by
  rw [qmMalloc]
  by_cases hfull : usub 64 qm.size qm.realUsed < roundUp size
  · exact Or.inl ⟨if_pos hfull, Or.inl hfull⟩
  simp only [if_neg hfull]
  have hlt : getHash (roundUp size) < hashSize := Mem.getHash_lt (roundUp_lt size)
  rcases @qmFindFree_spec _ _ _ _ h (roundUp size) (hashSize - getHash (roundUp size))
      (getHash (roundUp size)) (by omega) with
    ⟨hnone, hsmall⟩ | ⟨hash, f, hhash, hf, hle, hfound⟩
  · rw [hnone]
    refine Or.inl ⟨rfl, Or.inr ?_⟩
    intro f hffs hfree
    by_contra hbig
    rw [not_lt] at hbig
    have hmono := getHash_mono hbig (h.size_lt hffs)
    have hfhash := h.getHash_lt hffs
    have hsize := hsmall (getHash (qm.frag f).size) hmono (by omega) f (h.free_listed f hffs hfree)
    omega
  · rw [hfound]
    obtain ⟨hffs, hfree, -⟩ := h.listed hash hhash f hf
    obtain ⟨qm', fs', lists', hrun, hspec⟩ := @qmMallocFound_spec _ _ _ _ _ _ h hash hffs hfree hle
    exact Or.inr ⟨qm', f, fs', lists', hrun, ⟨not_lt.mp hfull, hffs, hfree, hle⟩, hspec⟩

end

/-! ## `qm_free` -/

/-- While fragments are being joined: `b` and those of `m` behind it are in the hands of
the call, and together they have `total` bytes of payload; `others` are the fragments that
stay handed out. -/
structure Joining (qm₀ qm : QmBlock) (others : Finset ℕ) (fs : List ℕ) (b : ℕ) (m : List ℕ)
    (total : ℕ) : Prop where
  inv : ∃ taken' lists', QmInv qm taken' fs lists' ∧
    ∀ g, g ∈ taken' ↔ g ∈ others ∨ g ∈ b :: m
  place : ∃ l₁ l₂, fs = l₁ ++ (b :: m ++ l₂) ∧
    Tiles qm.extent b (b :: m) (b + qmOverhead + total)
  apart : ∀ g ∈ b :: m, g ∉ others
  frames : Frames qm₀ qm others
  size : ∀ g, (qm.frag g).size = (qm₀.frag g).size
  spares : ∀ g ∈ fs, Spares qm₀ qm (g + qmFragSize) (qm₀.frag g).size
  used : qm.books.1 = qm₀.books.1
  realUsed : qmOverhead * fs.length ≤ qm₀.books.2 → qm₀.books.2 < 2 ^ 64 →
    qm.books.2 + qmOverhead * m.length = qm₀.books.2

namespace Joining

variable {qm₀ : QmBlock} {others : Finset ℕ} {b x : ℕ}

theorem self (h : QmInv qm taken fs lists) (hf : f ∈ taken) :
    Joining qm qm (taken.erase f) fs f [] (qm.frag f).size := by
  obtain ⟨l₁, l₂, hfs⟩ := append_of_mem (h.taken_mem f hf)
  refine ⟨⟨taken, lists, h, fun g => ?_⟩, ⟨l₁, l₂, hfs, ?_⟩, ?_,
    Frames.of_eq (QmBlock.SameShape.refl qm).samePool rfl rfl, fun _ => rfl,
    fun _ _ => Spares.of_eq rfl rfl, rfl, fun _ _ => rfl⟩
  · rw [mem_singleton, Finset.mem_erase]
    constructor
    · intro hg
      by_cases hgf : g = f
      · exact Or.inr hgf
      · exact Or.inl ⟨hgf, hg⟩
    · rintro (hg | rfl)
      · exact hg.2
      · exact hf
  · refine tiles_cons.mpr ⟨rfl, tiles_nil.mpr ?_⟩
    rw [QmBlock.extent, Nat.add_assoc]
  · intro g hg
    rw [mem_singleton.mp hg]
    exact Finset.notMem_erase f taken

theorem total_le (h : Joining qm₀ qm others fs b m total) :
    b + qmOverhead + total ≤ qm.addr + qm.size := by
  obtain ⟨taken', lists', hinv, -⟩ := h.inv
  obtain ⟨l₁, l₂, hfs, htiles⟩ := h.place
  obtain ⟨g, hg, hend⟩ := htiles.exists_last
  have hbounds := (hinv.frag_bounds (f := g) (by
    rw [hfs]
    exact mem_append_right l₁ (mem_append_left l₂ hg))).2
  rw [QmBlock.extent] at hend
  omega

/-- One more free fragment, `x`, is taken off its list, and the overhead of one fragment
is given up. -/
theorem step {b' hash total' v : ℕ} {m' : List ℕ} (h : Joining qm₀ qm others fs b m total)
    (hx : x ∈ fs) (hxm : x ∉ b :: m) (hfree : qm.next x ≠ 0)
    (hnull : ∀ g ∈ others, qm₀.next g = 0)
    (hmem : ∀ g, g ∈ b' :: m' ↔ g = x ∨ g ∈ b :: m) (hlength : m'.length = m.length + 1)
    (hplace : ∃ l₁ l₂, fs = l₁ ++ (b' :: m' ++ l₂) ∧
      Tiles qm.extent b' (b' :: m') (b' + qmOverhead + total'))
    (hqm' : qm' = ((qmDetachFree qm x).subReal qmOverhead).setNo hash v) :
    Joining qm₀ qm' others fs b' m' total' := by
  obtain ⟨taken₁, lists₁, hinv, htaken₁⟩ := h.inv
  have hxo : x ∉ others := by
    intro hin
    rw [h.frames.next x hin] at hfree
    exact hfree (hnull x hin)
  have hx₁ : x ∉ taken₁ := fun hin => ((htaken₁ x).mp hin).elim hxo hxm
  obtain ⟨lists', hinv', hframes', hshape', hspares'⟩ := hinv.detach_spec hx hx₁
  have hfrag : qm'.frag = (qmDetachFree qm x).frag := by
    rw [hqm', QmBlock.frag_setNo, QmBlock.frag_subReal]
  have hend : qm'.fragEnd = (qmDetachFree qm x).fragEnd := by
    rw [hqm', QmBlock.fragEnd_setNo, QmBlock.fragEnd_subReal]
  have hpool : QmBlock.SamePool (qmDetachFree qm x) qm' := by
    rw [hqm']
    exact (QmBlock.SamePool.subReal _ qmOverhead).trans (QmBlock.SamePool.setNo _ hash v)
  have hsize : ∀ g, (qm'.frag g).size = (qm.frag g).size := by
    intro g
    rw [hfrag, hshape'.size]
  have hbooks : qm'.books = (qm.books.1, usub 64 qm.books.2 qmOverhead) := by
    rw [hqm', QmBlock.books_setNo, QmBlock.books_subReal, hshape'.books]
  refine ⟨⟨_, lists', hinv'.of_frames hpool hfrag hend, fun g => ?_⟩, ?_, ?_, ?_, ?_, ?_, ?_, ?_⟩
  · rw [Finset.mem_insert, htaken₁, hmem]
    tauto
  · obtain ⟨l₁, l₂, hfs, htiles⟩ := hplace
    refine ⟨l₁, l₂, hfs, htiles.congr fun g _ => ?_⟩
    rw [QmBlock.extent, hsize, QmBlock.extent]
  · intro g hg
    rcases (hmem g).mp hg with rfl | hg
    · exact hxo
    · exact h.apart g hg
  · have hsub : others ⊆ taken₁ := fun g hg => (htaken₁ g).mpr (Or.inl hg)
    exact (h.frames.trans (hframes'.mono hsub)).trans (Frames.of_eq hpool hfrag hend)
  · intro g
    rw [hsize, h.size]
  · intro g hg
    have hstep := hspares' g hg
    rw [h.size] at hstep
    exact ((h.spares g hg).trans hstep).trans (Spares.of_eq hfrag hend)
  · rw [hbooks]
    exact h.used
  · intro hmany hlt
    have hreal := h.realUsed hmany hlt
    obtain ⟨l₁, l₂, hfs, -⟩ := hplace
    have hlen : fs.length = l₁.length + (m'.length + 1 + l₂.length) := by
      rw [hfs]
      simp only [List.length_append, length_cons, cons_append]
      omega
    have hmul : qmOverhead * m'.length = qmOverhead * m.length + qmOverhead := by
      rw [hlength, Nat.mul_succ]
    have hover : qmOverhead * m'.length ≤ qmOverhead * fs.length :=
      Nat.mul_le_mul_left qmOverhead (by omega)
    have hsub : usub 64 qm.books.2 qmOverhead = qm.books.2 - qmOverhead :=
      usub_of_le (by omega) (by omega)
    rw [hbooks, hsub]
    omega

/-- The fragment behind is joined, if it is free. -/
theorem joinNext (h : Joining qm₀ qm others fs b [] total) (hnull : ∀ g ∈ others, qm₀.next g = 0) :
    ∃ qm' m' total', Mem.joinNext qm b total = some (qm', total') ∧
      Joining qm₀ qm' others fs b m' total' := by
  obtain ⟨taken₁, lists₁, hinv, htaken₁⟩ := h.inv
  obtain ⟨l₁, l₂, hfs, htiles⟩ := h.place
  rw [cons_append, nil_append] at hfs
  have hb : b + qm.extent b = b + qmOverhead + total :=
    tiles_nil.mp (tiles_cons.mp htiles).2
  have hle := h.total_le
  have hbound := hinv.bound
  rw [Mem.joinNext]
  by_cases hcond : qm.fragNext b < qm.lastFragEnd ∧ qm.next (qm.fragNext b) ≠ 0
  · rw [hfs] at hinv
    obtain ⟨l₃, rfl, -⟩ : ∃ l₃, l₂ = qm.fragNext b :: l₃ ∧ qm.fragNext b < qm.lastFragEnd := by
      rcases hinv.fragNext_cases with ⟨-, hend⟩ | hnext
      · exact absurd hcond.1 hend
      · exact hnext
    have hnext : qm.fragNext b = b + qm.extent b := fragNext_eq qm b
    obtain ⟨n, hn⟩ : ∃ n, n = qm.fragNext b := ⟨_, rfl⟩
    rw [← hn] at hinv hcond hfs hnext ⊢
    have hnfs : n ∈ l₁ ++ b :: n :: l₃ := by simp
    have hndebug := hinv.debugFrag_eq hnfs
    have hnbounds := (hinv.frag_bounds hnfs).2
    have hnode := hinv.fs_nodup
    have hbn : n ≠ b := by
      rintro rfl
      exact (nodup_cons.mp (List.nodup_append.mp hnode).2.1).1 mem_cons_self
    have hshape := qm.detach_sameShape n
    have hsize : (((qmDetachFree qm n).subReal qmOverhead).frag n).size = (qm.frag n).size := by
      rw [QmBlock.frag_subReal, hshape.size]
    have hover : qmOverhead = 96 := rfl
    have hadd : uadd 64 total (uadd 64 (qm.frag n).size qmOverhead) =
        total + ((qm.frag n).size + qmOverhead) := by
      have hin : uadd 64 (qm.frag n).size qmOverhead = (qm.frag n).size + qmOverhead :=
        uadd_of_lt (by omega)
      rw [hin]
      exact uadd_of_lt (by omega)
    obtain ⟨v, hv⟩ : ∃ v, v = usub 64 (((qmDetachFree qm n).subReal qmOverhead).no
        (getHash (qm.frag n).size)) 1 := ⟨_, rfl⟩
    refine ⟨((qmDetachFree qm n).subReal qmOverhead).setNo (getHash (qm.frag n).size) v, [n],
      total + ((qm.frag n).size + qmOverhead), ?_,
      @QmInv.Joining.step _ _ _ _ _ _ _ _ n _ (getHash (qm.frag n).size) _ _ _ h
        (by rw [hfs]; exact hnfs)
        (fun hin => hbn (mem_singleton.mp hin)) hcond.2 hnull ?_ rfl
        ⟨l₁, l₃, by rw [hfs]; rfl, ?_⟩ rfl⟩
    · simp only [if_pos hcond, hndebug, Bool.not_true, Bool.false_eq_true, if_false, hsize,
        hshape.size, hadd, hv]
    · intro g
      simp only [mem_cons, not_mem_nil, or_false]
      exact or_comm
    · refine tiles_cons.mpr ⟨rfl, tiles_cons.mpr ⟨hnext.symm, tiles_nil.mpr ?_⟩⟩
      rw [QmBlock.extent]
      omega
  · exact ⟨qm, [], total, if_neg hcond, h⟩

/-- The fragment in front is joined, if it is free. -/
theorem joinPrev (h : Joining qm₀ qm others fs b m total) (hnull : ∀ g ∈ others, qm₀.next g = 0) :
    ∃ qm' b' m' total', Mem.joinPrev qm b total = some (qm', b', total') ∧
      Joining qm₀ qm' others fs b' m' total' ∧ ∀ g ∈ b :: m, g ∈ b' :: m' := by
  obtain ⟨taken₁, lists₁, hinv, htaken₁⟩ := h.inv
  obtain ⟨l₁, l₂, hfs, htiles⟩ := h.place
  have hle := h.total_le
  have hbound := hinv.bound
  rw [Mem.joinPrev]
  by_cases hfirst : qm.firstFrag < b
  swap
  · exact ⟨qm, b, m, total, if_neg hfirst, h, fun g hg => hg⟩
  obtain ⟨l₀, hl₁, hend⟩ := @QmInv.fragPrev_cases _ _ _ _ _ (m ++ l₂) (hfs ▸ hinv) hfirst
  obtain ⟨x, hx⟩ : ∃ x, x = qm.fragPrev b := ⟨_, rfl⟩
  rw [← hx] at hl₁ hend ⊢
  subst hl₁
  have hxfs : x ∈ fs := by
    rw [hfs]
    simp
  have hdebug := hinv.debugFrag_eq hxfs
  by_cases hfree : qm.next x ≠ 0
  swap
  · refine ⟨qm, b, m, total, ?_, h, fun g hg => hg⟩
    simp only [if_pos hfirst, hdebug, Bool.not_true, Bool.false_eq_true, if_false, if_neg hfree]
  have hxm : x ∉ b :: m := by
    intro hin
    have hnode := hinv.fs_nodup
    rw [hfs] at hnode
    exact (List.nodup_append.mp hnode).2.2 x (by simp) x (mem_append_left l₂ hin) rfl
  have hshape := qm.detach_sameShape x
  have hsize : (((qmDetachFree qm x).subReal qmOverhead).frag x).size = (qm.frag x).size := by
    rw [QmBlock.frag_subReal, hshape.size]
  have hover : qmOverhead = 96 := rfl
  have hextent : qm.extent x = qmOverhead + (qm.frag x).size := rfl
  have hadd : uadd 64 total (uadd 64 (qm.frag x).size qmOverhead) =
      total + ((qm.frag x).size + qmOverhead) := by
    have hin : uadd 64 (qm.frag x).size qmOverhead = (qm.frag x).size + qmOverhead :=
      uadd_of_lt (by omega)
    rw [hin]
    exact uadd_of_lt (by omega)
  obtain ⟨v, hv⟩ : ∃ v, v = usub 64 (((qmDetachFree qm x).subReal qmOverhead).no
      (getHash (qm.frag x).size)) 1 := ⟨_, rfl⟩
  refine ⟨((qmDetachFree qm x).subReal qmOverhead).setNo (getHash (qm.frag x).size) v, x,
    b :: m, total + ((qm.frag x).size + qmOverhead), ?_,
    @QmInv.Joining.step _ _ _ _ _ _ _ _ x _ (getHash (qm.frag x).size) _ _ _ h hxfs hxm hfree hnull
      (fun g => mem_cons) rfl ⟨l₀, l₂, ?_, ?_⟩ rfl, fun g hg => mem_cons_of_mem x hg⟩
  · simp only [if_pos hfirst, hdebug, Bool.not_true, Bool.false_eq_true, if_false, if_pos hfree,
      hsize, hshape.size, hadd, hv]
  · rw [hfs]
    simp
  · refine tiles_cons.mpr ⟨rfl, ?_⟩
    rw [hend]
    have hsame : x + qmOverhead + (total + ((qm.frag x).size + qmOverhead)) =
        b + qmOverhead + total := by omega
    rw [hsame]
    exact htiles

end Joining

/-- The joined fragments are made one and put on the free list. -/
theorem Joining.finish {qm₀ : QmBlock} {others : Finset ℕ} {b : ℕ}
    (h : Joining qm₀ qm others fs b m total) (hf : f ∈ b :: m) :
    ∃ qm' fs' lists', qmInsertFree (mergeStores qm b total) b = some qm' ∧
      QmInv qm' others fs' lists' ∧ Frames qm₀ qm' others ∧
      Spares qm₀ qm' (f + qmFragSize) (qm₀.frag f).size ∧ qm'.books = qm.books ∧
      fs.length = fs'.length + m.length := by
  obtain ⟨taken₁, lists₁, hinv, htaken₁⟩ := h.inv
  obtain ⟨l₁, l₂, hfs, htiles⟩ := h.place
  have hffs : f ∈ fs := by
    rw [hfs]
    exact mem_append_right l₁ (mem_append_left l₂ hf)
  have hbo : b ∉ others := h.apart b mem_cons_self
  have hmerged := @QmInv.merge _ _ _ _ _ _ _ _ (insert b others) _ (hfs ▸ hinv)
    (fun g hg => (htaken₁ g).mpr (Or.inr hg)) htiles rfl (by
      intro g
      rw [Finset.mem_insert, htaken₁]
      constructor
      · rintro (rfl | hg)
        · exact Or.inr rfl
        · exact Or.inl ⟨Or.inl hg, fun hin => h.apart g hin hg⟩
      · rintro (⟨hg, hnot⟩ | rfl)
        · exact Or.inr (hg.resolve_right hnot)
        · exact Or.inl rfl)
  obtain ⟨hinv₂, hat⟩ := hmerged
  rw [← hfs] at hat
  obtain ⟨qm', lists', hrun, hinv', hframes', hshape', hspares'⟩ :=
    hinv₂.insertFree_spec (Finset.mem_insert_self b others)
  rw [Finset.erase_insert hbo] at hinv' hframes'
  have hsize : ∀ g, g ≠ b → ((mergeStores qm b total).frag g).size = (qm.frag g).size := by
    intro g hg
    rw [mergeStores, QmBlock.frag_setEndSize, QmBlock.size_setSize, if_neg hg]
  have hsizeb : ((mergeStores qm b total).frag b).size = total := by
    rw [mergeStores, QmBlock.frag_setEndSize, QmBlock.size_setSize, if_pos rfl]
  have hmid : Frames qm (mergeStores qm b total) others := by
    refine ⟨samePool_mergeStores qm b total, fun g hg => hsize g ?_, fun g _ => ?_, fun g hg => ?_⟩
    · rintro rfl
      exact hbo hg
    · rw [mergeStores, QmBlock.next_setEndSize, QmBlock.next_setSize]
    · exact hat.spares hinv (hinv.taken_mem g ((htaken₁ g).mpr (Or.inl hg)))
  refine ⟨qm', l₁ ++ b :: l₂, lists', hrun, hinv', (h.frames.trans hmid).trans hframes', ?_, ?_, ?_⟩
  · have hbefore := h.spares f hffs
    have hjoin := hat.spares hinv hffs
    have hput := hspares' b (by simp)
    have hfb := htiles.mem_bounds hf
    rw [h.size] at hjoin
    rw [hsizeb] at hput
    refine (hbefore.trans hjoin).trans (hput.sub ?_ ?_)
    · omega
    · rw [← h.size]
      simp only [QmBlock.extent, qmOverhead] at hfb
      omega
  · rw [hshape'.books, mergeStores, QmBlock.books_setEndSize, QmBlock.books_setSize]
  · rw [hfs]
    simp only [List.length_append, length_cons, cons_append]
    omega

section

variable (h : QmInv qm taken fs lists)
include h

theorem counts_sub (hf : f ∈ taken) (hcounts : qm.Counts taken 0 fs) (hfrag : qm'.frag = qm.frag)
    (hbooks : qm'.books = (usub 64 qm.books.1 (qm.frag f).size,
      usub 64 qm.books.2 (qm.frag f).size)) :
    qm'.Counts (taken.erase f) 0 fs := by
  have hroom := @QmInv.counted_le_all _ _ taken _ _ h h.taken_mem
  have hpool := h.size_lt_pow
  have hused := hcounts.used
  have hreal := hcounts.realUsed
  have hsum := Finset.sum_erase_add taken (fun g => (qm.frag g).size) hf
  have hsub₁ : usub 64 qm.books.1 (qm.frag f).size = qm.books.1 - (qm.frag f).size :=
    usub_of_le (by omega) (by omega)
  have hsub₂ : usub 64 qm.books.2 (qm.frag f).size = qm.books.2 - (qm.frag f).size :=
    usub_of_le (by omega) (by omega)
  constructor
  · rw [hbooks, hsub₁, hfrag]
    omega
  · rw [hbooks, hsub₁, hsub₂]
    omega

theorem goodPointer (hf : f ∈ fs) :
    qm.goodPointer (f + qmFragSize) ∧ f + qmFragSize ≠ 0 ∧ f + qmFragSize - qmFragSize = f := by
  have hbounds := h.frag_bounds hf
  have hlast := h.last
  have hover : qmOverhead = qmFragSize + qmEndSize := rfl
  have hsize : qmFragSize = 48 := rfl
  refine ⟨⟨?_, ?_⟩, ?_, ?_⟩ <;> omega

/-- `qm_free` of a fragment that is handed out, whether or not it joins. -/
theorem qmFree_spec (hf : f ∈ taken) (hnull : ∀ g ∈ taken, qm.next g = 0) (join : Bool) :
    ∃ qm' fs' lists', qmFree join qm (f + qmFragSize) = some qm' ∧
      QmInv qm' (taken.erase f) fs' lists' ∧ Frames qm qm' (taken.erase f) ∧
      Spares qm qm' (f + qmFragSize) (qm.frag f).size ∧
      (qm.Counts taken 0 fs → qm'.Counts (taken.erase f) 0 fs') := by
  have hffs := h.taken_mem f hf
  obtain ⟨hgood, hzero, hback⟩ := h.goodPointer hffs
  have hdebug := h.debugFrag_eq hffs
  obtain ⟨qm₁, hqm₁⟩ : ∃ qm₁, qm₁ = (qm.subUsed (qm.frag f).size).subReal (qm.frag f).size :=
    ⟨_, rfl⟩
  have hfrag₁ : qm₁.frag = qm.frag := by rw [hqm₁, QmBlock.frag_subReal, QmBlock.frag_subUsed]
  have hend₁ : qm₁.fragEnd = qm.fragEnd := by
    rw [hqm₁, QmBlock.fragEnd_subReal, QmBlock.fragEnd_subUsed]
  have hpool₁ : QmBlock.SamePool qm qm₁ := by
    rw [hqm₁]
    exact (QmBlock.SamePool.subUsed qm _).trans (QmBlock.SamePool.subReal _ _)
  have hinv₁ := h.of_frames hpool₁ hfrag₁ hend₁
  have hframes₁ : ∀ kept, Frames qm qm₁ kept := fun kept => Frames.of_eq hpool₁ hfrag₁ hend₁
  have hspares₁ : Spares qm qm₁ (f + qmFragSize) (qm.frag f).size :=
    Spares.of_eq hfrag₁ hend₁
  have hcounts₁ : qm.Counts taken 0 fs → qm₁.Counts (taken.erase f) 0 fs := by
    intro hcounts
    refine h.counts_sub hf hcounts hfrag₁ ?_
    rw [hqm₁, QmBlock.books_subReal, QmBlock.books_subUsed]
  have hstart : qmFree join qm (f + qmFragSize) =
      (if join then joinFree qm₁ f (qm.frag f).size else some (qm₁, f)).bind
        fun r => qmInsertFree r.1 r.2 := by
    rw [qmFree, if_neg (not_not.mpr hgood), if_neg hzero]
    simp only [hback, hdebug, Bool.not_true, Bool.false_eq_true, if_false, hnull f hf, ne_eq,
      not_true_eq_false, ← hqm₁]
    cases join with
    | false => rfl
    | true => rfl
  cases join with
  | false =>
    obtain ⟨qm', lists', hrun, hinv', hframes', hshape', hspares'⟩ := hinv₁.insertFree_spec hf
    refine ⟨qm', fs, lists', ?_, hinv', (hframes₁ _).trans hframes', ?_, ?_⟩
    · rw [hstart]
      exact hrun
    · have hput := hspares' f hffs
      rw [hfrag₁] at hput
      exact hspares₁.trans hput
    · intro hcounts
      exact (hcounts₁ hcounts).congr hshape'.books fun g _ => hshape'.size g
  | true =>
    have hnull₁ : ∀ g ∈ taken.erase f, qm₁.next g = 0 := by
      intro g hg
      rw [QmBlock.next, hfrag₁]
      exact hnull g (Finset.mem_of_mem_erase hg)
    have hsize₁ : (qm₁.frag f).size = (qm.frag f).size := by rw [hfrag₁]
    have hself := Joining.self hinv₁ hf
    rw [hsize₁] at hself
    obtain ⟨qm₂, m₂, total₂, hnext, hjoin₂⟩ := hself.joinNext hnull₁
    obtain ⟨qm₃, b, m, total, hprev, hjoin₃, hmem⟩ := hjoin₂.joinPrev hnull₁
    obtain ⟨qm', fs', lists', hput, hinv', hframes', hspares', hbooks', hlength⟩ :=
      hjoin₃.finish (hmem f mem_cons_self)
    have hof : (qm₃.setSize b total).fragEndOf b = b + qmFragSize + total := by
      rw [QmBlock.fragEndOf, QmBlock.size_setSize, if_pos rfl]
    have hsize : ((qm₃.setSize b total).frag b).size = total := by
      rw [QmBlock.size_setSize, if_pos rfl]
    refine ⟨qm', fs', lists', ?_, hinv', (hframes₁ _).trans hframes', ?_, ?_⟩
    · rw [hstart, if_pos rfl, joinFree, hnext]
      simp only [Option.bind_eq_bind, Option.bind_some, hprev, hof, hsize]
      exact hput
    · rw [hsize₁] at hspares'
      exact hspares₁.trans hspares'
    · intro hcounts
      obtain ⟨hused, hreal⟩ := hcounts₁ hcounts
      have hroom := @QmInv.counted_le_all _ _ (taken.erase f) _ _ hinv₁
        fun g hg => hinv₁.taken_mem g (Finset.mem_of_mem_erase hg)
      have hpool := hinv₁.size_lt_pow
      have hreal₃ := hjoin₃.realUsed (by omega) (by omega)
      have hused₃ := hjoin₃.used
      rw [hlength, Nat.mul_add] at hreal
      constructor
      · rw [hbooks', hused₃, hused]
        congr 1
        exact (Finset.sum_congr rfl fun g hg => hframes'.size g hg).symm
      · rw [hbooks']
        omega

end

end QmInv

end Msicp.Mem
