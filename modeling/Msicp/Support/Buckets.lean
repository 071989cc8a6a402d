import Msicp.Support.LinkChain
import Msicp.Support.CountedList

/-!
# Chains of a hash table, linked both ways

A table of heads, and cells that carry a `next` and a `prev` link.  A cell is
put in front of the chain of its key, and taken out wherever it is, without a
walk along the chain.
-/

namespace Msicp.Support

open List Function

variable {κ α : Type*}

/-- The links back along a list, in front of which is `p`. -/
def BackSeg (prev : α → Option α) : Option α → List α → Prop
  | _, [] => True
  | p, x :: l => prev x = p ∧ BackSeg prev (some x) l

theorem backSeg_append {prev : α → Option α} {p : Option α}
    {l₁ l₂ : List α} :
    BackSeg prev p (l₁ ++ l₂) ↔ BackSeg prev p l₁ ∧ BackSeg prev (l₁.getLast?.or p) l₂ := by
  induction l₁ generalizing p with
  | nil => simp [BackSeg]
  | cons x l ih =>
    have hlast : (x :: l).getLast?.or p = l.getLast?.or (some x) := by
      cases l with
      | nil => rfl
      | cons y l => simp [getLast?_cons]
    simp only [cons_append, BackSeg, ih, hlast, and_assoc]

theorem BackSeg.congr {prev prev' : α → Option α} {p : Option α} {l : List α}
    (h : BackSeg prev p l) (hsame : ∀ x ∈ l, prev' x = prev x) :
    BackSeg prev' p l := by
  induction l generalizing p with
  | nil => trivial
  | cons x l ih =>
    exact ⟨(hsame x mem_cons_self).trans h.1, ih h.2 fun y hy => hsame y (mem_cons_of_mem x hy)⟩

/-- The heads of the chains, and the links of the cells. -/
structure Buckets (κ α : Type*) where
  head : κ → Option α
  next : α → Option α
  prev : α → Option α

namespace Buckets

/-- Every chain has its cells, linked both ways, and no two chains share one. -/
structure Holds (s : Buckets κ α) (chain : κ → List α) : Prop where
  links : ∀ k, LinkChain s.next (s.head k) (chain k)
  backs : ∀ k, BackSeg s.prev none (chain k)
  disjoint : ∀ k k' x, x ∈ chain k → x ∈ chain k' → k = k'

variable {s : Buckets κ α} {chain : κ → List α}

theorem Holds.nodup (h : s.Holds chain) (k : κ) : (chain k).Nodup :=
  (h.links k).nodup

theorem Holds.head_eq (h : s.Holds chain) (k : κ) : s.head k = (chain k).head? := by
  have hlinks := h.links k
  cases hk : chain k with
  | nil =>
    rw [hk] at hlinks
    exact hlinks
  | cons x l =>
    rw [hk] at hlinks
    exact hlinks.1

variable {k : κ} {x : α} {l₁ l₂ : List α}

theorem Holds.cut (h : s.Holds chain) (hk : chain k = l₁ ++ x :: l₂) :
    s.next x = l₂.head? ∧ s.prev x = l₁.getLast? := by
  have hlinks := h.links k
  have hbacks := h.backs k
  rw [hk] at hlinks hbacks
  obtain ⟨b, -, hb, hrest⟩ := linkSeg_append.mp hlinks
  constructor
  · cases l₂ with
    | nil => exact hrest
    | cons y l => exact hrest.1
  · have hback := (backSeg_append.mp hbacks).2.1
    simpa using hback

theorem mem_push [DecidableEq κ] {k' : κ} {y : α} : y ∈ Function.update chain k (x :: chain k) k' ↔
      y = x ∧ k' = k ∨ y ∈ chain k' := by
  by_cases hk : k' = k
  · subst hk
    simp
  · simp [hk]

theorem Holds.mem_erase [DecidableEq α] (h : s.Holds chain) {y : α} :
    y ∈ (chain k).erase x ↔ y ≠ x ∧ y ∈ chain k :=
  (h.nodup k).mem_erase_iff

variable [DecidableEq κ] [DecidableEq α]

open CountedList (setLink setLink_of_ne)

/-- A cell is put in front of a chain. -/
def add (s : Buckets κ α) (k : κ) (x : α) : Buckets κ α where
  next := Function.update s.next x (s.head k)
  prev := setLink (Function.update s.prev x none) (s.head k) (some x)
  head := Function.update s.head k (some x)

/-- A cell is taken out of a chain. -/
def remove (s : Buckets κ α) (k : κ) (x : α) : Buckets κ α where
  head := if s.head k = some x then Function.update s.head k (s.next x)
    else s.head
  prev := setLink s.prev (s.next x) (s.prev x)
  next := setLink s.next (setLink s.prev (s.next x) (s.prev x) x) (s.next x)

theorem Holds.add {k : κ} {x : α} (h : s.Holds chain) (hx : ∀ k', x ∉ chain k') :
    (s.add k x).Holds (Function.update chain k (x :: chain k)) := by
  have hnext : ∀ k', ∀ y ∈ chain k', (s.add k x).next y = s.next y := by
    intro k' y hy
    have hyx : y ≠ x := fun heq => hx k' (heq ▸ hy)
    exact update_of_ne hyx _ _
  have hprev : ∀ k', ∀ y ∈ chain k', s.head k ≠ some y → (s.add k x).prev y = s.prev y := by
    intro k' y hy hne
    have hyx : y ≠ x := fun heq => hx k' (heq ▸ hy)
    exact (setLink_of_ne hne).trans (update_of_ne hyx _ _)
  refine ⟨fun k' => ?_, fun k' => ?_, fun k₁ k₂ y h₁ h₂ => ?_⟩
  · by_cases hk : k' = k
    · subst hk
      rw [update_self]
      refine ⟨update_self .., ?_⟩
      have hself : (s.add k' x).next x = s.head k' := update_self ..
      rw [hself]
      exact (h.links k').congr (hnext k')
    · rw [update_of_ne hk]
      have hhead : (s.add k x).head k' = s.head k' :=
        update_of_ne hk _ _
      rw [hhead]
      exact (h.links k').congr (hnext k')
  · by_cases hk : k' = k
    · subst hk
      rw [update_self]
      have hhead := h.head_eq k'
      have hbacks := h.backs k'
      have hnodup := h.nodup k'
      have hprev' := hprev k'
      have hx' := hx k'
      cases hc : chain k' with
      | nil =>
        rw [hc] at hhead
        refine ⟨?_, trivial⟩
        simp [Buckets.add, hhead, setLink]
      | cons y l =>
        rw [hc] at hhead hbacks hnodup hprev' hx'
        have hhead' : s.head k' = some y := hhead
        have hxy : x ≠ y := fun heq => hx' (heq ▸ mem_cons_self)
        refine ⟨?_, ?_, ?_⟩
        · have hne : s.head k' ≠ some x := by simpa [hhead'] using hxy.symm
          exact (setLink_of_ne hne).trans (update_self ..)
        · simp [Buckets.add, hhead', setLink]
        · refine hbacks.2.congr fun z hz => ?_
          refine hprev' z (mem_cons_of_mem y hz) ?_
          rw [hhead']
          intro heq
          obtain rfl := Option.some.inj heq
          exact (nodup_cons.mp hnodup).1 hz
    · rw [update_of_ne hk]
      refine (h.backs k').congr fun y hy => hprev k' y hy fun hhead => ?_
      have hmem : y ∈ chain k := by
        rw [h.head_eq k] at hhead
        exact mem_of_head? hhead
      exact hk (h.disjoint k' k y hy hmem)
  · by_cases hk₁ : k₁ = k
    · by_cases hk₂ : k₂ = k
      · rw [hk₁, hk₂]
      · subst hk₁
        rw [update_self] at h₁
        rw [update_of_ne hk₂] at h₂
        rcases mem_cons.mp h₁ with rfl | h₁
        · exact absurd h₂ (hx k₂)
        · exact h.disjoint _ _ y h₁ h₂
    · rw [update_of_ne hk₁] at h₁
      by_cases hk₂ : k₂ = k
      · subst hk₂
        rw [update_self] at h₂
        rcases mem_cons.mp h₂ with rfl | h₂
        · exact absurd h₁ (hx k₁)
        · exact h.disjoint _ _ y h₁ h₂
      · rw [update_of_ne hk₂] at h₂
        exact h.disjoint _ _ y h₁ h₂

section

variable (h : s.Holds chain)
include h

theorem Holds.remove_links (hk : chain k = l₁ ++ x :: l₂)
    (hself : setLink s.prev (s.next x) (s.prev x) x = s.prev x) :
    LinkChain (s.remove k x).next ((s.remove k x).head k) (l₁ ++ l₂) := by
  have hnodup := h.nodup k
  have hlinks := h.links k
  obtain ⟨hnext, hprev⟩ := h.cut hk
  have hnew : (s.remove k x).next = setLink s.next l₁.getLast? (s.next x) := by
    rw [Buckets.remove, hself, hprev]
  rw [hk] at hlinks hnodup
  rcases eq_nil_or_concat' l₁ with rfl | ⟨m, w, rfl⟩
  · -- the head of the chain goes
    have hhead : s.head k = some x := hlinks.1
    have hhead' : (s.remove k x).head k = s.next x := by
      unfold Buckets.remove
      dsimp only
      rw [if_pos hhead, update_self]
    rw [hhead', hnew]
    exact hlinks.2
  · -- the cell in front of it is linked to the one behind it
    have hdisj := disjoint_of_nodup_append hnodup
    have hne : s.head k ≠ some x := by
      rw [h.head_eq k, hk, head?_append_of_ne_nil _ (by simp)]
      intro hhead
      exact hdisj (mem_of_head? hhead) mem_cons_self
    have hhead' : (s.remove k x).head k = s.head k := by
      unfold Buckets.remove
      dsimp only
      rw [if_neg hne]
    rw [append_assoc, singleton_append] at hlinks
    obtain ⟨b, hm, rfl, hx, hl⟩ := linkSeg_append.mp hlinks
    have hwm := (List.nodup_append.mp (List.nodup_append.mp hnodup).1).2.2
    rw [hhead', hnew, getLast?_concat, append_assoc, singleton_append]
    refine linkSeg_append.mpr ⟨some w, hm.congr fun y hy => ?_, rfl, ?_⟩
    · refine setLink_of_ne fun heq => ?_
      obtain rfl := Option.some.inj heq
      exact hwm w hy w (mem_singleton_self w) rfl
    · have hnextw : setLink s.next (some w) (s.next x) w = s.next x :=
        update_self ..
      rw [hnextw]
      refine hl.congr fun y hy => setLink_of_ne fun heq => ?_
      obtain rfl := Option.some.inj heq
      exact hdisj (mem_append_right _ (mem_singleton_self w)) (mem_cons_of_mem x hy)

theorem Holds.remove_backs (hk : chain k = l₁ ++ x :: l₂) :
    BackSeg (s.remove k x).prev none (l₁ ++ l₂) := by
  have hnodup := h.nodup k
  have hbacks := h.backs k
  obtain ⟨hnext, hprev⟩ := h.cut hk
  have hnew : (s.remove k x).prev = setLink s.prev l₂.head? (s.prev x) := by
    rw [Buckets.remove, hnext]
  rw [hk] at hbacks hnodup
  obtain ⟨hl₁, -, hl₂⟩ := backSeg_append.mp hbacks
  rw [hnew]
  refine backSeg_append.mpr ⟨?_, ?_⟩
  · refine hl₁.congr fun y hy => setLink_of_ne fun hhead => ?_
    have hmem := mem_of_head? hhead
    exact disjoint_of_nodup_append hnodup hy (mem_cons_of_mem x hmem)
  · cases l₂ with
    | nil => trivial
    | cons y l =>
      have hyl := (nodup_cons.mp (nodup_cons.mp (List.nodup_append.mp hnodup).2.1).2).1
      refine ⟨?_, hl₂.2.congr fun z hz => setLink_of_ne ?_⟩
      · rw [hprev]
        simp [setLink]
      · rintro heq
        obtain rfl := Option.some.inj heq
        exact hyl hz

theorem Holds.remove (hk : chain k = l₁ ++ x :: l₂) :
    (s.remove k x).Holds (Function.update chain k (l₁ ++ l₂)) := by
  have hnodup := h.nodup k
  have hlinks := h.links k
  have hbacks := h.backs k
  obtain ⟨hnext, hprev⟩ := h.cut hk
  have hsub : ∀ y ∈ l₁ ++ l₂, y ∈ chain k := by
    intro y hy
    rw [hk]
    simp only [mem_append, mem_cons] at hy ⊢
    tauto
  have hx : x ∈ chain k := by simp [hk]
  -- the link back of `x` is read after that of its successor is written
  have hself : setLink s.prev (s.next x) (s.prev x) x = s.prev x := by
    refine setLink_of_ne ?_
    rw [hnext]
    intro hhead
    rw [hk] at hnodup
    have hmem := mem_of_head? hhead
    exact (nodup_cons.mp (List.nodup_append.mp hnodup).2.1).1 hmem
  refine ⟨fun k' => ?_, fun k' => ?_, fun k₁ k₂ y h₁ h₂ => ?_⟩
  · by_cases hk' : k' = k
    · subst hk'
      rw [update_self]
      exact h.remove_links hk hself
    · rw [update_of_ne hk']
      have hhead : (s.remove k x).head k' = s.head k' := by
        unfold Buckets.remove
        dsimp only
        split
        · exact update_of_ne hk' _ _
        · rfl
      rw [hhead]
      refine (h.links k').congr fun y hy => setLink_of_ne ?_
      rw [hself, hprev]
      intro hlast
      have hmem := hsub y (mem_append_left _ (mem_of_getLast? hlast))
      exact hk' (h.disjoint _ _ y hy hmem)
  · by_cases hk' : k' = k
    · subst hk'
      rw [update_self]
      exact h.remove_backs hk
    · rw [update_of_ne hk']
      refine (h.backs k').congr fun y hy => setLink_of_ne ?_
      rw [hnext]
      intro hhead
      have hmem := hsub y (mem_append_right _ (mem_of_head? hhead))
      exact hk' (h.disjoint _ _ y hy hmem)
  · have hold : ∀ k', y ∈ Function.update chain k (l₁ ++ l₂) k' → y ∈ chain k' := by
      intro k' hy
      by_cases hk' : k' = k
      · subst hk'
        rw [update_self] at hy
        exact hsub y hy
      · rwa [update_of_ne hk'] at hy
    exact h.disjoint _ _ y (hold k₁ h₁) (hold k₂ h₂)

/-- A cell that is taken out is in no chain any more. -/
theorem Holds.erase (hx : x ∈ chain k) : (s.remove k x).Holds fun k' => (chain k').erase x := by
  obtain ⟨l₁, l₂, hk⟩ := append_of_mem hx
  have hnodup := h.nodup k
  rw [hk] at hnodup
  have hl₁ : x ∉ l₁ := fun hmem =>
    disjoint_of_nodup_append hnodup hmem mem_cons_self
  have hchain : Function.update chain k (l₁ ++ l₂) = fun k' => (chain k').erase x := by
    funext k'
    by_cases hk' : k' = k
    · subst hk'
      rw [update_self, hk, erase_append_right _ hl₁, erase_cons_head]
    · rw [update_of_ne hk', erase_of_not_mem]
      exact fun hmem => hk' (h.disjoint k' k x hmem hx)
  exact hchain ▸ h.remove hk

end

end Buckets

end Msicp.Support
