import Mathlib.Data.List.Nodup
import Mathlib.Logic.Function.Basic

/-!
# Doubly linked lists

A heap of linked places is read through `next` and `prev`.  A segment runs
from a place `a` to a place `b`, both outside of it: the sentinels of a list,
or the null link on both ends of a list whose head and tail pointers are read
as the links of the null place.
-/

namespace Msicp.Support

open List

variable {α : Type*}

/-- Going forward from `a` one passes exactly the places of `l` and arrives at
`b`, and every link is matched by a link back. -/
def DSeg (next prev : α → α) : α → List α → α → Prop
  | a, [], b => next a = b ∧ prev b = a
  | a, x :: l, b => next a = x ∧ prev x = a ∧ DSeg next prev x l b

/-- The place behind those of `l`. -/
def firstOf (l : List α) (b : α) : α :=
  l.head?.getD b

/-- The place before the end of `l`. -/
def lastOf (a : α) (l : List α) : α :=
  l.getLast?.getD a

@[simp] theorem firstOf_nil (b : α) : firstOf [] b = b := rfl

@[simp] theorem firstOf_cons (x : α) (l : List α) (b : α) : firstOf (x :: l) b = x := rfl

@[simp] theorem lastOf_nil (a : α) : lastOf a [] = a := rfl

@[simp] theorem lastOf_cons (a x : α) (l : List α) : lastOf a (x :: l) = lastOf x l := by
  cases l with
  | nil => rfl
  | cons y l => simp [lastOf, getLast?_cons]

theorem firstOf_mem (l : List α) (b : α) : firstOf l b ∈ l ∨ firstOf l b = b := by
  cases l with
  | nil => exact .inr rfl
  | cons x l => exact .inl mem_cons_self

theorem lastOf_mem (a : α) (l : List α) : lastOf a l ∈ l ∨ lastOf a l = a := by
  induction l generalizing a with
  | nil => exact .inr rfl
  | cons x l ih =>
    left
    rw [lastOf_cons]
    rcases ih x with hmem | heq
    · exact mem_cons_of_mem _ hmem
    · rw [heq]
      exact mem_cons_self

namespace DSeg

variable {next prev next' prev' : α → α} {a b x : α} {l l₁ l₂ : List α}

theorem append : DSeg next prev a (l₁ ++ x :: l₂) b ↔
      DSeg next prev a l₁ x ∧ DSeg next prev x l₂ b := by
  induction l₁ generalizing a with
  | nil => simp [DSeg, and_assoc]
  | cons y l₁ ih => simp [DSeg, ih, and_assoc]

section

variable (h : DSeg next prev a l b)
include h

theorem next_first : next a = firstOf l b := by
  cases l with
  | nil => exact h.1
  | cons x l => exact h.1

theorem prev_first : prev (firstOf l b) = a := by
  cases l with
  | nil => exact h.2
  | cons x l => exact h.2.1

theorem next_last : next (lastOf a l) = b := by
  induction l generalizing a with
  | nil => exact h.1
  | cons x l ih =>
    rw [lastOf_cons]
    exact ih h.2.2

theorem prev_last : prev b = lastOf a l := by
  induction l generalizing a with
  | nil => exact h.2
  | cons x l ih =>
    rw [lastOf_cons]
    exact ih h.2.2

end

section

variable (h : DSeg next prev a (l₁ ++ l₂) b)
include h

theorem next_cut : next (lastOf a l₁) = firstOf l₂ b := by
  cases l₂ with
  | nil =>
    rw [append_nil] at h
    exact h.next_last
  | cons x l₂ => exact (append.1 h).1.next_last

theorem prev_cut : prev (firstOf l₂ b) = lastOf a l₁ := by
  cases l₂ with
  | nil =>
    rw [append_nil] at h
    exact h.prev_last
  | cons x l₂ => exact (append.1 h).1.prev_last

/-- The part in front of a cut, as a segment of its own. -/
theorem left : DSeg next prev a l₁ (firstOf l₂ b) := by
  cases l₂ with
  | nil =>
    rw [append_nil] at h
    exact h
  | cons x l₂ => exact (append.1 h).1

/-- The part behind a cut, as a segment of its own. -/
theorem right : DSeg next prev (lastOf a l₁) l₂ b := by
  induction l₁ generalizing a with
  | nil => exact h
  | cons x l₁ ih =>
    rw [lastOf_cons]
    exact ih h.2.2

end

theorem join (h₁ : DSeg next prev a l₁ (firstOf l₂ b)) (h₂ : DSeg next prev (lastOf a l₁) l₂ b) :
    DSeg next prev a (l₁ ++ l₂) b := by
  induction l₁ generalizing a with
  | nil => exact h₂
  | cons x l₁ ih =>
    rw [lastOf_cons] at h₂
    exact ⟨h₁.1, h₁.2.1, ih h₁.2.2 h₂⟩

theorem congr (h : DSeg next prev a l b) (hnext : ∀ y, y = a ∨ y ∈ l → next' y = next y)
    (hprev : ∀ y, y ∈ l ∨ y = b → prev' y = prev y) :
    DSeg next' prev' a l b := by
  induction l generalizing a with
  | nil =>
    refine ⟨?_, ?_⟩
    · rw [hnext a (.inl rfl)]
      exact h.1
    · rw [hprev b (.inr rfl)]
      exact h.2
  | cons x l ih =>
    obtain ⟨hax, hxa, hrest⟩ := h
    refine ⟨?_, ?_, ih hrest ?_ ?_⟩
    · rw [hnext a (.inl rfl)]
      exact hax
    · rw [hprev x (.inl mem_cons_self)]
      exact hxa
    · intro y hy
      apply hnext y
      right
      rcases hy with rfl | hy
      · exact mem_cons_self
      · exact mem_cons_of_mem _ hy
    · intro y hy
      apply hprev y
      rcases hy with hy | rfl
      · exact .inl (mem_cons_of_mem _ hy)
      · exact .inr rfl

section Update

variable [DecidableEq α]

open Function

theorem update_next {c v : α} (h : DSeg next prev a l b) (hca : c ≠ a)
    (hcl : c ∉ l) : DSeg (update next c v) prev a l b := by
  refine h.congr ?_ fun _ _ => rfl
  intro y hy
  apply update_of_ne
  rcases hy with rfl | hy
  · exact hca.symm
  · exact fun heq => hcl (heq ▸ hy)

theorem update_prev {c v : α} (h : DSeg next prev a l b) (hcb : c ≠ b)
    (hcl : c ∉ l) : DSeg next (update prev c v) a l b := by
  refine h.congr (fun _ _ => rfl) ?_
  intro y hy
  apply update_of_ne
  rcases hy with hy | rfl
  · exact fun heq => hcl (heq ▸ hy)
  · exact hcb.symm

theorem set_end {b' : α} (h : DSeg next prev a l b) (hl : l.Nodup) (hal : a ∉ l) (hbl : b' ∉ l) :
    DSeg (update next (lastOf a l) b') (update prev b' (lastOf a l))
      a l b' := by
  induction l generalizing a with
  | nil => exact ⟨update_self .., update_self ..⟩
  | cons x l ih =>
    obtain ⟨hax, hxa, hrest⟩ := h
    rw [lastOf_cons]
    obtain ⟨hxl, hl⟩ := nodup_cons.mp hl
    have hlast : a ≠ lastOf x l := by
      intro heq
      rcases lastOf_mem x l with hmem | hself
      · exact hal (heq ▸ mem_cons_of_mem _ hmem)
      · exact hal (heq.trans hself ▸ mem_cons_self)
    have hxb : x ≠ b' := fun heq => hbl (heq ▸ mem_cons_self)
    refine ⟨?_, ?_, ih hrest hl hxl fun hm => hbl (mem_cons_of_mem _ hm)⟩
    · rw [update_of_ne hlast]
      exact hax
    · rw [update_of_ne hxb]
      exact hxa

theorem insert (h : DSeg next prev a (l₁ ++ l₂) b)
    (hl : (l₁ ++ l₂).Nodup) (ha : a ∉ l₁ ++ l₂) (hb : b ∉ l₁ ++ l₂)
    (hx : x ∉ l₁ ++ l₂) (hxa : x ≠ a) (hxb : x ≠ b) :
    DSeg (update (update next x (firstOf l₂ b)) (lastOf a l₁) x)
      (update (update prev x (lastOf a l₁)) (firstOf l₂ b) x)
      a (l₁ ++ x :: l₂) b := by
  simp only [mem_append, not_or] at ha hb hx
  obtain ⟨hl₁, hl₂, hdisj⟩ := List.nodup_append.mp hl
  have hxu : lastOf a l₁ ≠ x := by
    rcases lastOf_mem a l₁ with hmem | heq
    · exact fun h => hx.1 (h ▸ hmem)
    · rw [heq]
      exact hxa.symm
  have hxv : firstOf l₂ b ≠ x := by
    rcases firstOf_mem l₂ b with hmem | heq
    · exact fun h => hx.2 (h ▸ hmem)
    · rw [heq]
      exact hxb.symm
  refine append.2 ⟨?_, ?_⟩
  · have hleft : DSeg (update next (lastOf a l₁) x)
        (update prev x (lastOf a l₁)) a l₁ x := h.left.set_end hl₁ ha.1 hx.1
    refine hleft.congr ?_ ?_
    · intro y hy
      by_cases hyu : y = lastOf a l₁
      · rw [hyu, update_self, update_self]
      · have hyx : y ≠ x := by
          rcases hy with rfl | hy
          · exact hxa.symm
          · exact fun heq => hx.1 (heq ▸ hy)
        rw [update_of_ne hyu, update_of_ne hyu, update_of_ne hyx]
    · intro y hy
      by_cases hyx : y = x
      · rw [hyx, update_self, update_of_ne hxv.symm, update_self]
      · have hyv : y ≠ firstOf l₂ b := by
          have hyl : y ∈ l₁ := hy.resolve_right hyx
          rcases firstOf_mem l₂ b with hmem | heq
          · exact fun h => hdisj y hyl _ hmem h
          · rw [heq]
            exact fun h => hb.1 (h ▸ hyl)
        rw [update_of_ne hyv, update_of_ne hyx]
  · cases l₂ with
    | nil => exact ⟨by rw [update_of_ne hxu.symm, update_self]; rfl, update_self ..⟩
    | cons y l₂ =>
      have hright : DSeg next prev y l₂ b := (append.1 h).2
      obtain ⟨hyl, hl₂⟩ := nodup_cons.mp hl₂
      refine ⟨by rw [update_of_ne hxu.symm, update_self]; rfl, update_self .., ?_⟩
      refine hright.congr ?_ ?_
      · intro z hz
        have hzmem : z ∈ y :: l₂ := by
          rcases hz with rfl | hz
          · exact mem_cons_self
          · exact mem_cons_of_mem _ hz
        have hzu : z ≠ lastOf a l₁ := by
          rcases lastOf_mem a l₁ with hmem | heq
          · exact fun h => hdisj _ hmem z hzmem h.symm
          · rw [heq]
            exact fun h => ha.2 (h ▸ hzmem)
        have hzx : z ≠ x := fun heq => hx.2 (heq ▸ hzmem)
        rw [update_of_ne hzu, update_of_ne hzx]
      · intro z hz
        have hzy : z ≠ y := by
          rcases hz with hz | rfl
          · exact fun heq => hyl (heq ▸ hz)
          · exact fun heq => hb.2 (heq ▸ mem_cons_self)
        have hzx : z ≠ x := by
          rcases hz with hz | rfl
          · exact fun heq => hx.2 (heq ▸ mem_cons_of_mem _ hz)
          · exact hxb.symm
        rw [firstOf_cons, update_of_ne hzy, update_of_ne hzx]

/-- The links around a part redirected past it. -/
theorem bypass {m : List α} (h : DSeg next prev a (l₁ ++ (m ++ l₂)) b)
    (hl : (l₁ ++ (m ++ l₂)).Nodup) (ha : a ∉ l₁ ++ (m ++ l₂))
    (hb : b ∉ l₁ ++ (m ++ l₂)) :
    DSeg (update next (lastOf a l₁) (firstOf l₂ b))
      (update prev (firstOf l₂ b) (lastOf a l₁)) a (l₁ ++ l₂) b := by
  simp only [mem_append, not_or] at ha hb
  obtain ⟨hl₁, hml₂, hdisj⟩ := List.nodup_append.mp hl
  obtain ⟨-, hl₂, -⟩ := List.nodup_append.mp hml₂
  have hv₁ : firstOf l₂ b ∉ l₁ := by
    rcases firstOf_mem l₂ b with hmem | heq
    · exact fun h => hdisj _ h _ (mem_append_right _ hmem) rfl
    · rw [heq]
      exact hb.1
  have hu₂ : lastOf a l₁ ∉ l₂ := by
    rcases lastOf_mem a l₁ with hmem | heq
    · exact fun h => hdisj _ hmem _ (mem_append_right _ h) rfl
    · rw [heq]
      exact ha.2.2
  refine join (h.left.set_end hl₁ ha.1 hv₁) ?_
  have hright := h.right.right
  cases l₂ with
  | nil => exact ⟨update_self .., update_self ..⟩
  | cons y l₂ =>
    obtain ⟨hyl, -⟩ := nodup_cons.mp hl₂
    refine ⟨update_self .., update_self .., ?_⟩
    refine (hright.2.2.update_next ?_ ?_).update_prev ?_ hyl
    · exact fun heq => hu₂ (heq ▸ mem_cons_self)
    · exact fun hm => hu₂ (mem_cons_of_mem _ hm)
    · exact fun heq => hb.2.2 (heq ▸ mem_cons_self)

theorem remove (h : DSeg next prev a (l₁ ++ x :: l₂) b)
    (hl : (l₁ ++ x :: l₂).Nodup) (ha : a ∉ l₁ ++ x :: l₂)
    (hb : b ∉ l₁ ++ x :: l₂) :
    DSeg (update next (prev x) (next x)) (update prev (next x) (prev x)) a (l₁ ++ l₂) b := by
  have hnext : next x = firstOf l₂ b := (append.1 h).2.next_first
  have hprev : prev x = lastOf a l₁ := (append.1 h).1.prev_last
  rw [hnext, hprev]
  exact bypass (m := [x]) h hl ha hb

end Update

end DSeg

section Null

open Function

/-- The links of a list with null ends as links of places: the null place in
front of the list and behind it is linked to `e`. -/
def withNull (e : Option α) (link : α → Option α) : Option α → Option α
  | none => e
  | some x => link x

variable (e : Option α) (link : α → Option α) (l : List α)

@[simp] theorem withNull_none : withNull e link none = e := rfl

@[simp] theorem withNull_some (x : α) : withNull e link (some x) = link x := rfl

theorem none_notMem : none ∉ l.map some := by
  simp

theorem nodup_map_some {l : List α} (h : l.Nodup) : (l.map some).Nodup :=
  h.map fun _ _ heq => Option.some.inj heq

theorem lastOf_map_some : lastOf none (l.map some) = l.getLast? := by
  rw [lastOf, getLast?_map]
  cases l.getLast? with
  | none => rfl
  | some p => rfl

theorem firstOf_map_some : firstOf (l.map some) none = l.head? := by
  rw [firstOf, head?_map]
  cases l.head? with
  | none => rfl
  | some p => rfl

variable [DecidableEq α]

theorem withNull_update (x : α) (v : Option α) :
    withNull e (update link x v) = update (withNull e link) (some x) v := by
  funext y
  cases y with
  | none => rw [update_of_ne (by simp)]; rfl
  | some y =>
    by_cases hyx : y = x
    · subst hyx
      simp
    · rw [update_of_ne (by simpa using hyx), withNull_some, withNull_some, update_of_ne hyx]

theorem withNull_end (e' : Option α) (link : α → Option α) :
    withNull e' link = update (withNull e link) none e' := by
  funext y
  cases y with
  | none => simp
  | some y => simp

end Null

end Msicp.Support

/-!
## Walks around a list with a sentinel
-/

namespace Msicp.Support

variable {α : Type*} [DecidableEq α]

/-- The loop `for (; f != head; f = f->next) if (stop) break;`, with at most `fuel`
steps. -/
def walkRound (next : α → α) (head : α) (stop : α → Bool) : ℕ → α → Option α
  | 0, _ => none
  | fuel + 1, f =>
    if f = head then some f
    else if stop f then some f
    else walkRound next head stop fuel (next f)

/-- The walk stops at the first place that satisfies the test, or at the sentinel. -/
theorem walkRound_eq {next prev : α → α} {head a : α} {stop : α → Bool} {l : List α}
    {fuel : ℕ} (h : DSeg next prev a l head) (hhead : head ∉ l) (hfuel : l.length < fuel) :
    ∃ l₁ l₂, l = l₁ ++ l₂ ∧ (∀ x ∈ l₁, stop x = false) ∧ (∀ x ∈ l₂.head?, stop x = true) ∧
      walkRound next head stop fuel (next a) = some (firstOf l₂ head) := by
  induction l generalizing a fuel with
  | nil =>
    obtain ⟨fuel, rfl⟩ := Nat.exists_eq_succ_of_ne_zero (Nat.ne_of_gt hfuel)
    refine ⟨[], [], rfl, fun x hx => ?_, fun x hx => ?_, ?_⟩
    · cases hx
    · cases hx
    · rw [h.next_first, walkRound]
      exact if_pos rfl
  | cons y l ih =>
    obtain ⟨fuel, rfl⟩ := Nat.exists_eq_succ_of_ne_zero (Nat.ne_of_gt (Nat.zero_lt_of_lt hfuel))
    obtain ⟨hya, -, hrest⟩ := h
    have hy : y ≠ head := by
      rintro rfl
      exact hhead List.mem_cons_self
    rw [hya, walkRound, if_neg hy]
    cases hstop : stop y with
    | true =>
      refine ⟨[], y :: l, rfl, fun x hx => ?_, fun x hx => ?_, rfl⟩
      · cases hx
      · obtain rfl : y = x := Option.some.inj hx
        exact hstop
    | false =>
      obtain ⟨l₁, l₂, rfl, hpass, hend, hwalk⟩ := ih hrest
        (fun hmem => hhead (List.mem_cons_of_mem y hmem)) (Nat.lt_of_succ_lt_succ hfuel)
      refine ⟨y :: l₁, l₂, rfl, ?_, hend, ?_⟩
      · intro x hx
        rcases List.mem_cons.mp hx with rfl | hx
        · exact hstop
        · exact hpass x hx
      · rw [if_neg Bool.false_ne_true]
        exact hwalk

end Msicp.Support
