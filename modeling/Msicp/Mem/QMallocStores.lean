import Msicp.Mem.QMallocInvariant

/-!
# Splitting and joining in a `q_malloc` pool

Whatever a call does to the fragments in its hands, it replaces neighbouring fragments by
others that fill the same bytes.  Its stores go to heads and tails, so that no payload of
another fragment is touched.
-/

namespace Msicp.Mem

open Msicp.Support List Function

namespace QmBlock

variable (qm : QmBlock)

variable (n v f e : ℕ)

@[simp] theorem frag_setReal : (qm.setReal v).frag = qm.frag := rfl

@[simp] theorem fragEnd_setReal : (qm.setReal v).fragEnd = qm.fragEnd := rfl

@[simp] theorem frag_setUsed : (qm.setUsed v).frag = qm.frag := rfl

@[simp] theorem fragEnd_setUsed : (qm.setUsed v).fragEnd = qm.fragEnd := rfl

@[simp] theorem frag_addReal : (qm.addReal n).frag = qm.frag := frag_setReal qm _

@[simp] theorem fragEnd_addReal : (qm.addReal n).fragEnd = qm.fragEnd :=
  fragEnd_setReal qm _

@[simp] theorem frag_subReal : (qm.subReal n).frag = qm.frag := frag_setReal qm _

@[simp] theorem fragEnd_subReal : (qm.subReal n).fragEnd = qm.fragEnd :=
  fragEnd_setReal qm _

@[simp] theorem frag_addUsed : (qm.addUsed n).frag = qm.frag := frag_setUsed qm _

@[simp] theorem fragEnd_addUsed : (qm.addUsed n).fragEnd = qm.fragEnd :=
  fragEnd_setUsed qm _

@[simp] theorem frag_subUsed : (qm.subUsed n).frag = qm.frag := frag_setUsed qm _

@[simp] theorem fragEnd_subUsed : (qm.subUsed n).fragEnd = qm.fragEnd :=
  fragEnd_setUsed qm _

@[simp] theorem frag_setMaxReal : (qm.setMaxReal v).frag = qm.frag := rfl

@[simp] theorem fragEnd_setMaxReal : (qm.setMaxReal v).fragEnd = qm.fragEnd := rfl

@[simp] theorem endChecked_addReal : (qm.addReal n).endChecked e = qm.endChecked e := by
  simp only [endChecked, fragEnd_addReal]

@[simp] theorem next_addReal : (qm.addReal n).next f = qm.next f := by
  simp only [next, frag_addReal]

@[simp] theorem next_setEndSize (n f : ℕ) : (qm.setEndSize e n).next f = qm.next f := rfl

@[simp] theorem next_setEndCheck (f : ℕ) : (qm.setEndCheck e).next f = qm.next f := rfl

@[simp] theorem endChecked_setSize (n e : ℕ) :
    (qm.setSize f n).endChecked e = qm.endChecked e := rfl

@[simp] theorem endChecked_setCheck : (qm.setCheck f).endChecked e = qm.endChecked e := rfl

theorem frag_setSize_of_ne {f g : ℕ} (hg : g ≠ f) (n : ℕ) : (qm.setSize f n).frag g = qm.frag g :=
  update_of_ne hg _ _

theorem frag_setCheck_of_ne {f g : ℕ} (hg : g ≠ f) : (qm.setCheck f).frag g = qm.frag g :=
  update_of_ne hg _ _

theorem fragEnd_setEndSize_of_ne {e e' : ℕ} (he : e' ≠ e) (n : ℕ) :
    (qm.setEndSize e n).fragEnd e' = qm.fragEnd e' :=
  update_of_ne he _ _

theorem fragEnd_setEndCheck_of_ne {e e' : ℕ} (he : e' ≠ e) :
    (qm.setEndCheck e).fragEnd e' = qm.fragEnd e' :=
  update_of_ne he _ _

/-- The counters of the pool. -/
def books : ℕ × ℕ := (qm.used, qm.realUsed)

@[simp] theorem books_setSize (n : ℕ) : (qm.setSize f n).books = qm.books := rfl

@[simp] theorem books_setNxt (v : ℕ) : (qm.setNxt f v).books = qm.books := rfl

@[simp] theorem books_setNo (hash n : ℕ) : (qm.setNo hash n).books = qm.books := rfl

@[simp] theorem books_setCheck : (qm.setCheck f).books = qm.books := rfl

@[simp] theorem books_setEndSize (n : ℕ) : (qm.setEndSize e n).books = qm.books := rfl

@[simp] theorem books_setEndCheck : (qm.setEndCheck e).books = qm.books := rfl

@[simp] theorem books_setMaxReal : (qm.setMaxReal v).books = qm.books := rfl

@[simp] theorem books_setReal : (qm.setReal v).books = (qm.books.1, v) := rfl

@[simp] theorem books_setUsed : (qm.setUsed v).books = (v, qm.books.2) := rfl

@[simp] theorem books_addReal :
    (qm.addReal n).books = (qm.books.1, uadd 64 qm.books.2 n) := books_setReal qm _

@[simp] theorem books_subReal :
    (qm.subReal n).books = (qm.books.1, usub 64 qm.books.2 n) := books_setReal qm _

@[simp] theorem books_addUsed :
    (qm.addUsed n).books = (uadd 64 qm.books.1 n, qm.books.2) := books_setUsed qm _

@[simp] theorem books_subUsed :
    (qm.subUsed n).books = (usub 64 qm.books.1 n, qm.books.2) := books_setUsed qm _

/-- What every store leaves alone. -/
structure SamePool (qm qm' : QmBlock) : Prop where
  addr : qm'.addr = qm.addr
  poolSize : qm'.size = qm.size
  firstFrag : qm'.firstFrag = qm.firstFrag
  lastFragEnd : qm'.lastFragEnd = qm.lastFragEnd
  payload : qm'.payload = qm.payload

namespace SamePool

theorem setSize (f n : ℕ) : SamePool qm (qm.setSize f n) := ⟨rfl, rfl, rfl, rfl, rfl⟩

theorem setNxt (f v : ℕ) : SamePool qm (qm.setNxt f v) := ⟨rfl, rfl, rfl, rfl, rfl⟩

theorem setNo (hash n : ℕ) : SamePool qm (qm.setNo hash n) := ⟨rfl, rfl, rfl, rfl, rfl⟩

theorem setCheck (f : ℕ) : SamePool qm (qm.setCheck f) := ⟨rfl, rfl, rfl, rfl, rfl⟩

theorem setEndSize (e n : ℕ) : SamePool qm (qm.setEndSize e n) := ⟨rfl, rfl, rfl, rfl, rfl⟩

theorem setEndCheck (e : ℕ) : SamePool qm (qm.setEndCheck e) := ⟨rfl, rfl, rfl, rfl, rfl⟩

theorem setReal (v : ℕ) : SamePool qm (qm.setReal v) := ⟨rfl, rfl, rfl, rfl, rfl⟩

theorem setUsed (v : ℕ) : SamePool qm (qm.setUsed v) := ⟨rfl, rfl, rfl, rfl, rfl⟩

theorem setMaxReal (v : ℕ) : SamePool qm (qm.setMaxReal v) := ⟨rfl, rfl, rfl, rfl, rfl⟩

theorem addReal (n : ℕ) : SamePool qm (qm.addReal n) := setReal qm _

theorem subReal (n : ℕ) : SamePool qm (qm.subReal n) := setReal qm _

theorem addUsed (n : ℕ) : SamePool qm (qm.addUsed n) := setUsed qm _

theorem subUsed (n : ℕ) : SamePool qm (qm.subUsed n) := setUsed qm _

end SamePool

variable {qm} {qm' qm'' : QmBlock}

theorem SamePool.trans (h : SamePool qm qm') (h' : SamePool qm' qm'') : SamePool qm qm'' :=
  ⟨h'.addr.trans h.addr, h'.poolSize.trans h.poolSize, h'.firstFrag.trans h.firstFrag,
    h'.lastFragEnd.trans h.lastFragEnd, h'.payload.trans h.payload⟩

theorem SameShape.samePool (h : SameShape qm qm') : SamePool qm qm' :=
  ⟨h.addr, h.poolSize, h.firstFrag, h.lastFragEnd, h.payload⟩

theorem SameShape.books (h : SameShape qm qm') : qm'.books = qm.books := by
  rw [QmBlock.books, h.used, h.realUsed, QmBlock.books]

end QmBlock

namespace QmInv

variable {qm qm' qm'' : QmBlock} {taken : Finset ℕ} {fs : List ℕ} {lists : ℕ → List ℕ}
  {f g n newSize total : ℕ} {l₁ l₂ m : List ℕ}

/-! ## Neighbours -/

theorem disjoint (h : QmInv qm taken fs lists) (hf : f ∈ fs) (hg : g ∈ fs) (hne : f ≠ g) :
    f + qmOverhead + (qm.frag f).size ≤ g ∨ g + qmOverhead + (qm.frag g).size ≤ f := by
  have hdisj := h.tiles.disjoint hf hg hne
  simp only [QmBlock.extent] at hdisj
  omega

theorem fragNext_eq (qm : QmBlock) (f : ℕ) : qm.fragNext f = f + qm.extent f := by
  simp only [QmBlock.fragNext, QmBlock.fragEndOf, QmBlock.extent, qmOverhead]
  omega

theorem fragNext_cases (h : QmInv qm taken (l₁ ++ f :: l₂) lists) :
    (l₂ = [] ∧ ¬qm.fragNext f < qm.lastFragEnd) ∨
      ∃ l₃, l₂ = qm.fragNext f :: l₃ ∧ qm.fragNext f < qm.lastFragEnd := by
  have hlast := h.last
  rcases h.tiles.next_eq with ⟨hnil, hend⟩ | ⟨l₃, hl₃⟩
  · refine Or.inl ⟨hnil, ?_⟩
    rw [fragNext_eq]
    omega
  · rw [← fragNext_eq] at hl₃
    refine Or.inr ⟨l₃, hl₃, ?_⟩
    have hmem : qm.fragNext f ∈ l₁ ++ f :: l₂ := by simp [hl₃]
    have hbounds := (h.frag_bounds hmem).2
    simp only [qmOverhead, qmFragSize] at hbounds
    omega

theorem fragPrev_cases (h : QmInv qm taken (l₁ ++ f :: l₂) lists) (hf : qm.firstFrag < f) :
    ∃ l₀, l₁ = l₀ ++ [qm.fragPrev f] ∧ qm.fragPrev f + qm.extent (qm.fragPrev f) = f := by
  obtain ⟨l₀, g, rfl, hend⟩ := h.tiles.prev_eq hf
  have hmem : g ∈ l₀ ++ [g] ++ f :: l₂ := by simp
  have htail : QmBlock.prevFragEnd f = qm.fragEndOf g := by
    rw [← hend]
    simp only [QmBlock.prevFragEnd, QmBlock.fragEndOf, QmBlock.extent, qmOverhead]
    omega
  have hprev : qm.fragPrev f = g := by
    rw [QmBlock.fragPrev, htail, h.ends g hmem]
    simp only [QmBlock.fragEndOf]
    omega
  rw [hprev]
  exact ⟨l₀, rfl, hend⟩

/-- The patterns of a fragment, and of the tail in front of it, are there. -/
theorem debugFrag_eq (h : QmInv qm taken fs lists) (hf : f ∈ fs) : qm.debugFrag f = true := by
  obtain ⟨hcheck, hend⟩ := h.checked f hf
  have hprev : (decide (f ≤ qm.firstFrag) || qm.endChecked (QmBlock.prevFragEnd f)) = true := by
    rw [Bool.or_eq_true, decide_eq_true_eq]
    by_cases hfirst : f ≤ qm.firstFrag
    · exact Or.inl hfirst
    · obtain ⟨l₁, l₂, rfl⟩ := append_of_mem hf
      obtain ⟨l₀, hl₀, hnext⟩ := h.fragPrev_cases (not_le.mp hfirst)
      have hmem : qm.fragPrev f ∈ l₁ ++ f :: l₂ := by
        rw [hl₀]
        simp
      have htail : QmBlock.prevFragEnd f = qm.fragEndOf (qm.fragPrev f) := by
        conv_lhs => rw [← hnext]
        simp only [QmBlock.prevFragEnd, QmBlock.fragEndOf, QmBlock.extent, qmOverhead]
        omega
      rw [htail]
      exact Or.inr (h.checked _ hmem).2
  unfold QmBlock.debugFrag
  rw [hprev, hend, decide_eq_true hcheck]
  rfl

/-! ## Stores and payloads -/

/-- No head and no tail that differs between the two pools has a byte among the `len`
bytes at `a`. -/
structure Spares (qm qm' : QmBlock) (a len : ℕ) : Prop where
  frag : ∀ g, qm'.frag g ≠ qm.frag g → g + qmFragSize ≤ a ∨ a + len ≤ g
  fragEnd : ∀ e, qm'.fragEnd e ≠ qm.fragEnd e → e + qmEndSize ≤ a ∨ a + len ≤ e

namespace Spares

variable {a len len' : ℕ}

theorem of_eq (hfrag : qm'.frag = qm.frag) (hend : qm'.fragEnd = qm.fragEnd) :
    Spares qm qm' a len where
  frag g hg := absurd (congrFun hfrag g) hg
  fragEnd e he := absurd (congrFun hend e) he

theorem trans (h : Spares qm qm' a len) (h' : Spares qm' qm'' a len) : Spares qm qm'' a len where
  frag g hg := by
    by_cases hsame : qm'.frag g = qm.frag g
    · rw [← hsame] at hg
      exact h'.frag g hg
    · exact h.frag g hsame
  fragEnd e he := by
    by_cases hsame : qm'.fragEnd e = qm.fragEnd e
    · rw [← hsame] at he
      exact h'.fragEnd e he
    · exact h.fragEnd e hsame

theorem sub {a' : ℕ} (h : Spares qm qm' a len) (hlow : a ≤ a') (hhigh : a' + len' ≤ a + len) :
    Spares qm qm' a' len' where
  frag g hg := by
    have hlen := h.frag g hg
    omega
  fragEnd e he := by
    have hlen := h.fragEnd e he
    omega

theorem mono (h : Spares qm qm' a len) (hle : len' ≤ len) : Spares qm qm' a len' :=
  h.sub le_rfl (Nat.add_le_add_left hle a)

end Spares

/-- Heads and tails of places lie outside of the payloads. -/
theorem AtPlaces.spares (h : QmInv qm taken fs lists) (hat : AtPlaces qm qm' fs)
    (hg : g ∈ fs) : Spares qm qm' (g + qmFragSize) (qm.frag g).size := by
  have hlow := (h.frag_bounds hg).1
  constructor
  · intro x hx
    obtain hplace : Place qm fs x := by
      by_contra hnot
      exact hx (hat.frag x hnot)
    rcases hplace with hxfs | ⟨hash, hhash, rfl⟩
    · by_cases hxg : x = g
      · exact Or.inl (by rw [hxg])
      · have hdisj := h.disjoint hxfs hg hxg
        simp only [qmOverhead, qmEndSize] at hdisj
        omega
    · have hhead := (h.head_lt hhash).2
      simp only [qmLnkSize, qmFragSize] at hhead ⊢
      omega
  · intro e he
    obtain ⟨x, hplace, rfl⟩ : ∃ x, Place qm fs x ∧ e = qm.fragEndOf x := by
      by_contra hnot
      simp only [not_exists, not_and] at hnot
      exact he (hat.fragEnd e hnot)
    rcases hplace with hxfs | ⟨hash, hhash, rfl⟩
    · by_cases hxg : x = g
      · exact Or.inr (by rw [hxg, QmBlock.fragEndOf])
      · have hdisj := h.disjoint hxfs hg hxg
        simp only [qmOverhead, QmBlock.fragEndOf] at hdisj ⊢
        omega
    · have hhead := (h.head_lt hhash).2
      rw [h.fragEndOf_head hhash]
      simp only [qmLnkSize, qmFragSize, qmEndSize] at hhead ⊢
      omega

/-! ## Splitting and joining -/

/-- Nothing outside of the interval from `b` to `c` differs between the two pools. -/
structure Outside (qm qm' : QmBlock) (b c : ℕ) : Prop where
  pool : QmBlock.SamePool qm qm'
  frag : ∀ g, g < b ∨ c ≤ g → qm'.frag g = qm.frag g
  fragEnd : ∀ e, e < b ∨ c ≤ e → qm'.fragEnd e = qm.fragEnd e

/-- A place that does not lie in the interval is as it was. -/
theorem Outside.same {b c x : ℕ} (ho : Outside qm qm' b c) (hx : x + qm.extent x ≤ b ∨ c ≤ x) :
    qm'.frag x = qm.frag x ∧ qm'.fragEndOf x = qm.fragEndOf x ∧
      qm'.fragEnd (qm.fragEndOf x) = qm.fragEnd (qm.fragEndOf x) := by
  have hover : 0 < qmFragSize := by decide
  simp only [QmBlock.extent, qmOverhead] at hx
  have hfrag : qm'.frag x = qm.frag x := ho.frag x (by omega)
  refine ⟨hfrag, by rw [QmBlock.fragEndOf, hfrag, QmBlock.fragEndOf], ho.fragEnd _ ?_⟩
  have hend : 0 < qmEndSize := by decide
  rw [QmBlock.fragEndOf]
  omega

/-- The fragment `f` and those of `m` behind it, all of them taken, give way to `f` and
those of `m'`, which fill the same interval. -/
theorem retile {m' : List ℕ} {taken' : Finset ℕ} {c : ℕ}
    (h : QmInv qm taken (l₁ ++ (f :: m ++ l₂)) lists) (ho : Outside qm qm' f c)
    (hold : Tiles qm.extent f (f :: m) c) (hnew : Tiles qm'.extent f (f :: m') c)
    (hm : ∀ g ∈ f :: m, g ∈ taken)
    (hm' : ∀ g ∈ f :: m', (qm'.fragEnd (qm'.fragEndOf g)).size = (qm'.frag g).size ∧
      (qm'.frag g).check = stCheckPattern ∧ qm'.endChecked (qm'.fragEndOf g) = true)
    (htaken' : ∀ g, g ∈ taken' ↔ (g ∈ taken ∧ g ∉ f :: m) ∨ g ∈ f :: m') :
    QmInv qm' taken' (l₁ ++ (f :: m' ++ l₂)) lists := by
  obtain ⟨b, htiles₁, htiles⟩ := tiles_append.mp h.tiles
  obtain ⟨c', htilesm, htiles₂⟩ := tiles_append.mp htiles
  obtain rfl : b = f := (tiles_cons.mp htilesm).1
  obtain rfl : c' = c := htilesm.end_eq.trans hold.end_eq.symm
  have hout : ∀ x ∈ l₁ ++ l₂, x + qm.extent x ≤ b ∨ c' ≤ x := by
    intro x hx
    rcases mem_append.mp hx with hx | hx
    · exact Or.inl (htiles₁.mem_bounds hx).2
    · exact Or.inr (htiles₂.mem_bounds hx).1
  have hin : ∀ x ∈ b :: m', b ≤ x ∧ x < c' := by
    intro x hx
    have hbounds := hnew.mem_bounds hx
    simp only [QmBlock.extent, qmOverhead, qmFragSize] at hbounds
    omega
  have hinm : ∀ x ∈ b :: m, b ≤ x ∧ x < c' := by
    intro x hx
    have hbounds := hold.mem_bounds hx
    simp only [QmBlock.extent, qmOverhead, qmFragSize] at hbounds
    omega
  have hnotin : ∀ x ∈ l₁ ++ l₂, ¬(b ≤ x ∧ x < c') := by
    intro x hx hbad
    have hside := hout x hx
    simp only [QmBlock.extent, qmOverhead, qmFragSize] at hside
    omega
  have hsplit : ∀ (l : List ℕ) x, x ∈ l₁ ++ (l ++ l₂) ↔ x ∈ l ∨ x ∈ l₁ ++ l₂ := by
    intro l x
    simp only [mem_append]
    tauto
  refine h.reshape ho.pool.addr ho.pool.poolSize ho.pool.firstFrag ho.pool.lastFragEnd
    ?_ ?_ ?_ ?_ ?_ ?_
  · refine tiles_append.mpr ⟨b, htiles₁.congr fun g hg => ?_,
      tiles_append.mpr ⟨c', hnew, htiles₂.congr fun g hg => ?_⟩⟩
    · rw [QmBlock.extent, (ho.same (hout g (mem_append_left _ hg))).1, QmBlock.extent]
    · rw [QmBlock.extent, (ho.same (hout g (mem_append_right _ hg))).1, QmBlock.extent]
  · intro g hg
    rcases (hsplit _ g).mp hg with hg | hg
    · exact (hm' g hg).1
    · obtain ⟨hfrag, hof, hend⟩ := ho.same (hout g hg)
      rw [hof, hend, hfrag]
      exact h.ends g ((hsplit _ g).mpr (Or.inr hg))
  · intro g hg
    rcases (hsplit _ g).mp hg with hg | hg
    · exact (hm' g hg).2
    · obtain ⟨hfrag, hof, hend⟩ := ho.same (hout g hg)
      have hchecked := h.checked g ((hsplit _ g).mpr (Or.inr hg))
      rw [QmBlock.endChecked] at hchecked ⊢
      rw [hof, hend, hfrag]
      exact hchecked
  · intro g hg
    rw [hsplit]
    rcases (htaken' g).mp hg with ⟨hg, hgm⟩ | hg
    · exact Or.inr (((hsplit _ g).mp (h.taken_mem g hg)).resolve_left hgm)
    · exact Or.inl hg
  · intro g
    rw [hsplit, hsplit, htaken']
    constructor
    · rintro ⟨hg, hnot⟩
      have hg := hg.resolve_left fun hin => hnot (Or.inr hin)
      refine ⟨Or.inr hg, fun ht => hnot (Or.inl ⟨ht, fun hgm => ?_⟩)⟩
      exact hnotin g hg (hinm g hgm)
    · rintro ⟨hg, hnot⟩
      have hg := hg.resolve_left fun hgm => hnot (hm g hgm)
      refine ⟨Or.inr hg, ?_⟩
      rintro (⟨ht, -⟩ | hgm')
      · exact hnot ht
      · exact hnotin g hg (hin g hgm')
  · intro x hx hxt
    have hside : x + qm.extent x ≤ b ∨ c' ≤ x := by
      rcases hx with hx | ⟨hash, hhash, rfl⟩
      · exact hout x (((hsplit _ x).mp hx).resolve_left fun hgm => hxt (hm x hgm))
      · have hhead := (h.head_lt hhash).2
        have hlow := htiles₁.le
        rw [QmBlock.extent, h.heads hash hhash]
        simp only [qmLnkSize, qmOverhead, qmFragSize, qmEndSize] at hhead ⊢
        omega
    obtain ⟨hfrag, hof, hend⟩ := ho.same hside
    rw [QmBlock.next, QmBlock.prev, hfrag, hof, hend]
    exact ⟨rfl, rfl, rfl⟩

/-- The stores of `split_frag`: `e` is the new tail of `f`, `n` the new fragment and `t`
its tail. -/
def cutStores (qm : QmBlock) (f newSize rest e n t : ℕ) : QmBlock :=
  ((((((qm.setSize f newSize).setEndSize e newSize).setSize n rest).setEndSize t
    rest).addReal qmOverhead).setEndCheck e).setCheck n

section Stores

variable (qm : QmBlock) (f newSize rest e n t x : ℕ)

theorem samePool_cutStores : QmBlock.SamePool qm (cutStores qm f newSize rest e n t) :=
  ((((((QmBlock.SamePool.setSize qm f newSize).trans
    (QmBlock.SamePool.setEndSize _ e newSize)).trans
    (QmBlock.SamePool.setSize _ n rest)).trans
    (QmBlock.SamePool.setEndSize _ t rest)).trans
    (QmBlock.SamePool.addReal _ qmOverhead)).trans
    (QmBlock.SamePool.setEndCheck _ e)).trans (QmBlock.SamePool.setCheck _ n)

theorem size_cutStores : ((cutStores qm f newSize rest e n t).frag x).size =
    if x = n then rest else if x = f then newSize else (qm.frag x).size := by
  simp [cutStores]

theorem next_cutStores : (cutStores qm f newSize rest e n t).next x = qm.next x := by
  simp [cutStores]

theorem check_cutStores : ((cutStores qm f newSize rest e n t).frag x).check =
    if x = n then stCheckPattern else (qm.frag x).check := by
  simp [cutStores]

theorem endSize_cutStores : ((cutStores qm f newSize rest e n t).fragEnd x).size =
    if x = t then rest else if x = e then newSize else (qm.fragEnd x).size := by
  simp [cutStores]

theorem endChecked_cutStores : (cutStores qm f newSize rest e n t).endChecked x =
    (decide (x = e) || qm.endChecked x) := by
  simp [cutStores]

theorem books_cutStores : (cutStores qm f newSize rest e n t).books =
    (qm.books.1, uadd 64 qm.books.2 qmOverhead) := by
  simp only [cutStores, QmBlock.books_setCheck, QmBlock.books_setEndCheck,
    QmBlock.books_addReal, QmBlock.books_setEndSize, QmBlock.books_setSize]

variable {qm f newSize rest e n t x}

theorem frag_cutStores_of_ne (hf : x ≠ f) (hn : x ≠ n) :
    (cutStores qm f newSize rest e n t).frag x = qm.frag x := by
  simp only [cutStores, QmBlock.frag_setCheck_of_ne _ hn, QmBlock.frag_setEndCheck,
    QmBlock.frag_addReal, QmBlock.frag_setEndSize, QmBlock.frag_setSize_of_ne _ hn,
    QmBlock.frag_setSize_of_ne _ hf]

theorem fragEnd_cutStores_of_ne (he : x ≠ e) (ht : x ≠ t) :
    (cutStores qm f newSize rest e n t).fragEnd x = qm.fragEnd x := by
  simp only [cutStores, QmBlock.fragEnd_setCheck, QmBlock.fragEnd_setEndCheck_of_ne _ he,
    QmBlock.fragEnd_addReal, QmBlock.fragEnd_setEndSize_of_ne _ ht,
    QmBlock.fragEnd_setEndSize_of_ne _ he, QmBlock.fragEnd_setSize]

end Stores

theorem cut {rest e n : ℕ} (h : QmInv qm taken (l₁ ++ f :: l₂) lists) (hf : f ∈ taken)
    (hn : n = f + qmOverhead + newSize) (he : e = f + qmFragSize + newSize)
    (hfit : newSize + qmOverhead + rest = (qm.frag f).size)
    (hqm' : qm' = cutStores qm f newSize rest e n (qm.fragEndOf f)) :
    QmInv qm' (insert n taken) (l₁ ++ f :: n :: l₂) lists := by
  have hover : qmOverhead = 96 := rfl
  have hfrag : qmFragSize = 48 := rfl
  have hffs : f ∈ l₁ ++ f :: l₂ := by simp
  have hof : qm.fragEndOf f = f + qmFragSize + (qm.frag f).size := rfl
  have hnf : n ≠ f := by omega
  have hee : e ≠ qm.fragEndOf f := by omega
  obtain ⟨c, hc⟩ : ∃ c, c = f + qm.extent f := ⟨_, rfl⟩
  have hsize : ∀ x, (qm'.frag x).size =
      if x = n then rest else if x = f then newSize else (qm.frag x).size := by
    rw [hqm']
    exact size_cutStores qm f newSize rest e n (qm.fragEndOf f)
  have hofn : qm'.fragEndOf n = qm.fragEndOf f := by
    rw [QmBlock.fragEndOf, hsize, if_pos rfl]
    omega
  have hoff : qm'.fragEndOf f = e := by
    rw [QmBlock.fragEndOf, hsize, if_neg hnf.symm, if_pos rfl, he]
  have hextent : qm.extent f = qmOverhead + (qm.frag f).size := rfl
  have hout : Outside qm qm' f c := by
    rw [hqm']
    refine ⟨samePool_cutStores qm f newSize rest e n _, fun g hg => ?_, fun x hx => ?_⟩
    · exact frag_cutStores_of_ne (by omega) (by omega)
    · exact fragEnd_cutStores_of_ne (by omega) (by omega)
  have hnew : Tiles qm'.extent f [f, n] c := by
    have hextentf : qm'.extent f = qmOverhead + newSize := by
      rw [QmBlock.extent, hsize, if_neg hnf.symm, if_pos rfl]
    have hextentn : qm'.extent n = qmOverhead + rest := by
      rw [QmBlock.extent, hsize, if_pos rfl]
    refine tiles_cons.mpr ⟨rfl, tiles_cons.mpr ⟨?_, tiles_nil.mpr ?_⟩⟩
    · omega
    · omega
  have hold : Tiles qm.extent f [f] c := tiles_cons.mpr ⟨rfl, tiles_nil.mpr hc.symm⟩
  refine h.retile hout hold hnew ?_ ?_ ?_
  · intro g hg
    rw [mem_singleton.mp hg]
    exact hf
  · intro g hg
    rcases mem_cons.mp hg with rfl | hg
    · rw [hoff, hsize, if_neg hnf.symm, if_pos rfl, hqm', endSize_cutStores, if_neg hee,
        if_pos rfl, check_cutStores, if_neg hnf.symm, endChecked_cutStores, decide_eq_true rfl]
      exact ⟨rfl, (h.checked g hffs).1, rfl⟩
    · obtain rfl := mem_singleton.mp hg
      rw [hofn, hsize, if_pos rfl, hqm', endSize_cutStores, if_pos rfl, check_cutStores,
        if_pos rfl, endChecked_cutStores, (h.checked f hffs).2, Bool.or_true]
      exact ⟨rfl, rfl, rfl⟩
  · intro g
    simp only [Finset.mem_insert, mem_cons, not_mem_nil, or_false]
    by_cases hgf : g = f
    · simp [hgf, hf]
    · simp [hgf, or_comm]

/-- What the cut leaves alone: all other payloads, and the part of its own that is kept. -/
theorem cut_spares {rest e n : ℕ} (h : QmInv qm taken (l₁ ++ f :: l₂) lists)
    (hn : n = f + qmOverhead + newSize) (he : e = f + qmFragSize + newSize)
    (hfit : newSize + qmOverhead + rest = (qm.frag f).size)
    (hqm' : qm' = cutStores qm f newSize rest e n (qm.fragEndOf f))
    (hg : g ∈ l₁ ++ f :: l₂) :
    Spares qm qm' (g + qmFragSize) (if g = f then newSize else (qm.frag g).size) := by
  have hover : qmOverhead = 96 := rfl
  have hfrag : qmFragSize = 48 := rfl
  have hend : qmEndSize = 48 := rfl
  have hof : qm.fragEndOf f = f + qmFragSize + (qm.frag f).size := rfl
  have hffs : f ∈ l₁ ++ f :: l₂ := by simp
  have hapart : g = f ∨ g + qmOverhead + (qm.frag g).size ≤ f ∨
      f + qmOverhead + (qm.frag f).size ≤ g := by
    by_cases hgf : g = f
    · exact Or.inl hgf
    · exact Or.inr (h.disjoint hg hffs hgf)
  constructor
  · intro x hx
    have hcases : x = f ∨ x = n := by
      by_contra hnot
      rw [not_or] at hnot
      rw [hqm'] at hx
      exact hx (frag_cutStores_of_ne hnot.1 hnot.2)
    split_ifs
    · omega
    · omega
  · intro x hx
    have hcases : x = e ∨ x = qm.fragEndOf f := by
      by_contra hnot
      rw [not_or] at hnot
      rw [hqm'] at hx
      exact hx (fragEnd_cutStores_of_ne hnot.1 hnot.2)
    split_ifs
    · omega
    · omega

/-- The stores that make one fragment of `f` and the taken ones of `m` behind it. -/
def mergeStores (qm : QmBlock) (f total : ℕ) : QmBlock :=
  (qm.setSize f total).setEndSize (f + qmFragSize + total) total

theorem samePool_mergeStores (qm : QmBlock) (f total : ℕ) :
    QmBlock.SamePool qm (mergeStores qm f total) :=
  (QmBlock.SamePool.setSize qm f total).trans (QmBlock.SamePool.setEndSize _ _ total)

/-- Taken fragments that lie behind one another become one. -/
theorem merge {taken' : Finset ℕ} {c : ℕ} (h : QmInv qm taken (l₁ ++ (f :: m ++ l₂)) lists)
    (hm : ∀ g ∈ f :: m, g ∈ taken) (hold : Tiles qm.extent f (f :: m) c)
    (htotal : f + qmOverhead + total = c)
    (htaken' : ∀ g, g ∈ taken' ↔ (g ∈ taken ∧ g ∉ f :: m) ∨ g = f) :
    QmInv (mergeStores qm f total) taken' (l₁ ++ f :: l₂) lists ∧
      AtPlaces qm (mergeStores qm f total) (l₁ ++ (f :: m ++ l₂)) := by
  have hover : qmOverhead = qmFragSize + qmEndSize := rfl
  have hfrag : qmFragSize = 48 := rfl
  have hend : qmEndSize = 48 := rfl
  have hfs : ∀ g ∈ f :: m, g ∈ l₁ ++ (f :: m ++ l₂) := fun g hg =>
    mem_append_right l₁ (mem_append_left l₂ hg)
  obtain ⟨last, hlast, hlastend⟩ := hold.exists_last
  have htail : qm.fragEndOf last = f + qmFragSize + total := by
    rw [QmBlock.extent] at hlastend
    rw [QmBlock.fragEndOf]
    omega
  have hsize : ((mergeStores qm f total).frag f).size = total := by simp [mergeStores]
  have hof : (mergeStores qm f total).fragEndOf f = f + qmFragSize + total := by
    rw [QmBlock.fragEndOf, hsize]
  have hout : Outside qm (mergeStores qm f total) f c := by
    refine ⟨samePool_mergeStores qm f total, fun g hg => ?_, fun e he => ?_⟩
    · exact qm.frag_setSize_of_ne (by omega) total
    · exact QmBlock.fragEnd_setEndSize_of_ne _ (by omega) total
  have hnew : Tiles (mergeStores qm f total).extent f [f] c := by
    refine tiles_cons.mpr ⟨rfl, tiles_nil.mpr ?_⟩
    rw [QmBlock.extent, hsize]
    omega
  constructor
  · refine h.retile hout hold hnew hm ?_ ?_
    · intro g hg
      obtain rfl := mem_singleton.mp hg
      rw [hof, hsize]
      refine ⟨by simp [mergeStores], ?_, ?_⟩
      · rw [mergeStores, QmBlock.frag_setEndSize, QmBlock.check_setSize]
        exact (h.checked g (hfs g mem_cons_self)).1
      · rw [mergeStores, QmBlock.endChecked_setEndSize, QmBlock.endChecked_setSize, ← htail]
        exact (h.checked last (hfs last hlast)).2
    · intro g
      rw [htaken', mem_singleton]
  · constructor
    · intro g hg
      refine qm.frag_setSize_of_ne ?_ total
      rintro rfl
      exact hg (Or.inl (hfs g mem_cons_self))
    · intro e he
      refine QmBlock.fragEnd_setEndSize_of_ne _ ?_ total
      rw [← htail]
      exact he last (Or.inl (hfs last hlast))

end QmInv

end Msicp.Mem
