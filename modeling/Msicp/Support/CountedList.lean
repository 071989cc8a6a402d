import Msicp.Support.DLink

/-!
# Counted lists

A doubly linked list with null ends whose head, tail and length are kept apart
from the links.  Several lists may share their links as long as their places
are different.
-/

namespace Msicp.Support

open List

open Function (update update_of_ne update_eq_self_iff)

variable {α : Type*}

/-- Head, tail and length of a list. -/
structure CountedList (α : Type*) where
  first : Option α
  last : Option α
  n : ℕ

/-- The links of the places. -/
structure DLinks (α : Type*) where
  next : α → Option α
  prev : α → Option α

namespace CountedList

/-- The list without places. -/
def empty : CountedList α where
  first := none
  last := none
  n := 0

/-- The first of at most `n` places from `ptr` on that satisfies a test. -/
def find (next : α → Option α) (test : α → Bool) : ℕ → Option α → Option α
  | 0, _ => none
  | _ + 1, none => none
  | n + 1, some x => if test x then some x else find next test n (next x)

/-- The places of a list are those of `l`, each of them once, and they are
counted. -/
structure IsList (c : CountedList α) (k : DLinks α) (l : List α) : Prop where
  seg : DSeg (withNull c.first k.next) (withNull c.last k.prev) none
    (l.map some) none
  nodup : l.Nodup
  length : c.n = l.length

variable {c : CountedList α} {k : DLinks α} {l l₁ l₂ : List α} {x y : α}

theorem isList_empty (k : DLinks α) : (empty : CountedList α).IsList k [] where
  seg := ⟨rfl, rfl⟩
  nodup := nodup_nil
  length := rfl

namespace IsList

theorem congr {k' : DLinks α} (h : c.IsList k l) (hnext : ∀ y ∈ l, k'.next y = k.next y)
    (hprev : ∀ y ∈ l, k'.prev y = k.prev y) : c.IsList k' l := by
  refine ⟨?_, h.nodup, h.length⟩
  refine h.seg.congr ?_ ?_
  · rintro y (rfl | hy)
    · rfl
    · obtain ⟨z, hz, rfl⟩ := List.mem_map.mp hy
      exact hnext z hz
  · rintro y (hy | rfl)
    · obtain ⟨z, hz, rfl⟩ := List.mem_map.mp hy
      exact hprev z hz
    · rfl

theorem first_eq (h : c.IsList k l) : c.first = l.head? := by
  have hfirst := h.seg.next_first
  rwa [firstOf_map_some] at hfirst

theorem last_eq (h : c.IsList k l) : c.last = l.getLast? := by
  have hlast := h.seg.prev_last
  rwa [lastOf_map_some] at hlast

theorem next_cut (h : c.IsList k (l₁ ++ x :: l₂)) : k.next x = l₂.head? := by
  have hseg := h.seg
  rw [map_append, map_cons] at hseg
  have hnext := (DSeg.append.1 hseg).2.next_first
  rwa [firstOf_map_some] at hnext

theorem prev_cut (h : c.IsList k (l₁ ++ x :: l₂)) : k.prev x = l₁.getLast? := by
  have hseg := h.seg
  rw [map_append, map_cons] at hseg
  have hprev := (DSeg.append.1 hseg).1.prev_last
  rwa [lastOf_map_some] at hprev

theorem find_tail {test : α → Bool} (h : c.IsList k (l₁ ++ l₂)) :
    find k.next test l₂.length l₂.head? = l₂.find? test := by
  induction l₂ generalizing l₁ with
  | nil => rfl
  | cons x l₂ ih =>
    have hrest : c.IsList k ((l₁ ++ [x]) ++ l₂) := by
      rw [append_assoc]
      exact h
    rw [head?_cons, length_cons, find, h.next_cut, find?_cons]
    cases test x with
    | true => rfl
    | false => exact ih hrest

theorem find_eq {test : α → Bool} (h : c.IsList k l) :
    find k.next test c.n c.first = l.find? test := by
  have hall : c.IsList k ([] ++ l) := h
  rw [h.length, h.first_eq]
  exact hall.find_tail

end IsList

variable [DecidableEq α]

/-- The links of a new place. -/
def clear (k : DLinks α) (x : α) : DLinks α where
  next := update k.next x none
  prev := update k.prev x none

/-- `if (ptr) ptr->link = v` -/
def setLink (link : α → Option α) (ptr v : Option α) : α → Option α :=
  match ptr with
  | some x => update link x v
  | none => link

theorem setLink_of_ne {link : α → Option α} {ptr v : Option α} {y : α}
    (hy : ptr ≠ some y) : setLink link ptr v y = link y := by
  cases ptr with
  | none => rfl
  | some x =>
    apply update_of_ne
    rintro rfl
    exact hy rfl

/-- A place put behind the last one. -/
def add (c : CountedList α) (k : DLinks α) (x : α) : CountedList α × DLinks α :=
  if c.n = 0 then
    ({ first := some x, last := some x, n := c.n + 1 }, k)
  else
    ({ c with last := some x, n := c.n + 1 },
      { next := setLink k.next c.last (some x)
        prev := update k.prev x c.last })

/-- A place taken out. -/
def remove (c : CountedList α) (k : DLinks α) (x : α) : CountedList α × DLinks α :=
  let next := setLink k.next (k.prev x) (k.next x)
  let prev := setLink k.prev (next x) (k.prev x)
  ({ first := if k.prev x = none then k.next x else c.first
     last := if next x = none then k.prev x else c.last
     n := c.n - 1 },
    { next := update next x none
      prev := update prev x none })

namespace IsList

theorem clear (h : c.IsList k l) (hx : x ∉ l) : c.IsList (clear k x) l := by
  have hne : ∀ y ∈ l, y ≠ x := fun y hy heq => hx (heq ▸ hy)
  refine h.congr ?_ ?_
  · intro y hy
    exact update_of_ne (hne y hy) ..
  · intro y hy
    exact update_of_ne (hne y hy) ..

theorem add (h : c.IsList k l) (hx : x ∉ l) (hnext : k.next x = none) (hprev : k.prev x = none) :
    (c.add k x).1.IsList (c.add k x).2 (l ++ [x]) := by
  unfold CountedList.add
  by_cases hn : c.n = 0
  · have hl : l = [] := length_eq_zero_iff.mp (h.length ▸ hn)
    subst hl
    rw [if_pos hn]
    refine ⟨⟨rfl, hprev, hnext, rfl⟩, nodup_singleton x, ?_⟩
    simp [hn]
  · rw [if_neg hn]
    have hlast : ∃ y, c.last = some y := by
      rw [h.last_eq]
      have hne : l ≠ [] := fun heq => hn (by rw [h.length, heq]; rfl)
      exact ⟨l.getLast hne, getLast?_eq_some_getLast hne⟩
    obtain ⟨y, hy⟩ := hlast
    refine ⟨?_, ?_, ?_⟩
    · have hseg : DSeg (withNull c.first k.next) (withNull c.last k.prev) none
          (l.map some ++ []) none := by
        rw [append_nil]
        exact h.seg
      have hmap : (l.map some ++ []).Nodup := by
        rw [append_nil]
        exact nodup_map_some h.nodup
      have hins := hseg.insert (x := some x) hmap (by simp) (by simp)
        (by simpa using hx) (by simp) (by simp)
      rw [firstOf_nil, lastOf_map_some, ← h.last_eq, hy] at hins
      rw [map_append]
      refine hins.congr ?_ ?_
      · intro z _
        have hsame : update (withNull c.first k.next) (some x) none =
            withNull c.first k.next := update_eq_self_iff.mpr hnext.symm
        rw [hsame, hy, setLink, withNull_update]
      · intro z _
        rw [withNull_end (some y), hy, withNull_update]
    · rw [List.nodup_append]
      refine ⟨h.nodup, nodup_singleton x, ?_⟩
      rintro a ha b hb rfl
      exact hx (mem_singleton.mp hb ▸ ha)
    · rw [List.length_append, ← h.length]
      rfl

theorem remove (h : c.IsList k (l₁ ++ x :: l₂)) :
    (c.remove k x).1.IsList (c.remove k x).2 (l₁ ++ l₂) := by
  obtain ⟨hx, hnodup⟩ := nodup_cons.mp (nodup_middle.mp h.nodup)
  have hseg := h.seg
  have hmap := nodup_map_some h.nodup
  have hnone := none_notMem (l₁ ++ x :: l₂)
  rw [map_append, map_cons] at hseg hmap hnone
  have hrem := hseg.remove hmap hnone hnone
  rw [← map_append] at hrem
  have hx' : some x ∉ (l₁ ++ l₂).map some := by simpa using hx
  have hprevx : k.prev x ≠ some x := by
    rw [h.prev_cut]
    exact fun heq => hx (mem_append_left _ (mem_of_getLast? heq))
  have hself : setLink k.next (k.prev x) (k.next x) x = k.next x :=
    setLink_of_ne hprevx
  have hnext : withNull (if k.prev x = none then k.next x else c.first)
        (setLink k.next (k.prev x) (k.next x)) =
      update (withNull c.first k.next) (k.prev x) (k.next x) := by
    cases hp : k.prev x with
    | none => exact withNull_end ..
    | some y => exact withNull_update ..
  have hprev : withNull (if k.next x = none then k.prev x else c.last)
        (setLink k.prev (k.next x) (k.prev x)) =
      update (withNull c.last k.prev) (k.next x) (k.prev x) := by
    cases hp : k.next x with
    | none => exact withNull_end ..
    | some y => exact withNull_update ..
  refine ⟨?_, hnodup, ?_⟩
  · simp only [CountedList.remove, hself]
    rw [withNull_update, withNull_update, hnext, hprev]
    exact (hrem.update_next (by simp) hx').update_prev (by simp) hx'
  · have hlen := h.length
    simp only [List.length_append, length_cons] at hlen ⊢
    show c.n - 1 = _
    omega

theorem add_other {c' : CountedList α} {l' : List α} (h : c.IsList k l)
    (h' : c'.IsList k l') (hx : x ∉ l') (hdisj : ∀ y ∈ l', y ∉ l) :
    c'.IsList (c.add k x).2 l' := by
  unfold CountedList.add
  split
  · exact h'
  · refine h'.congr ?_ ?_
    · intro y hy
      apply setLink_of_ne
      rw [h.last_eq]
      exact fun heq => hdisj y hy (mem_of_getLast? heq)
    · intro y hy
      apply update_of_ne
      exact fun heq => hx (heq ▸ hy)

theorem remove_other {c' : CountedList α} {l' : List α}
    (h : c.IsList k (l₁ ++ x :: l₂)) (h' : c'.IsList k l')
    (hdisj : ∀ y ∈ l', y ∉ l₁ ++ x :: l₂) :
    c'.IsList (c.remove k x).2 l' := by
  have hne : ∀ y ∈ l', y ≠ x := by
    intro y hy heq
    exact hdisj y hy (by simp [heq])
  have hprevx : ∀ y ∈ l', k.prev x ≠ some y := by
    intro y hy heq
    rw [h.prev_cut] at heq
    exact hdisj y hy (mem_append_left _ (mem_of_getLast? heq))
  have hnextx : ∀ y ∈ l', k.next x ≠ some y := by
    intro y hy heq
    rw [h.next_cut] at heq
    exact hdisj y hy (mem_append_right _ (mem_cons_of_mem _ (mem_of_head? heq)))
  have hself : setLink k.next (k.prev x) (k.next x) x = k.next x := by
    apply setLink_of_ne
    rw [h.prev_cut]
    intro heq
    have hx := (nodup_cons.mp (nodup_middle.mp h.nodup)).1
    exact hx (mem_append_left _ (mem_of_getLast? heq))
  refine h'.congr ?_ ?_
  · intro y hy
    simp only [CountedList.remove]
    rw [update_of_ne (hne y hy)]
    exact setLink_of_ne (hprevx y hy)
  · intro y hy
    simp only [CountedList.remove, hself]
    rw [update_of_ne (hne y hy)]
    exact setLink_of_ne (hnextx y hy)

end IsList

end CountedList

end Msicp.Support
