import Mathlib.Data.List.Basic
import Mathlib.Data.List.Count
import Mathlib.Tactic.Ring
import Mathlib.Tactic.Linarith

/-!
# Texts with holes

A template is a text in pieces; a piece that is `none` is a hole.  All holes
are filled with one and the same text.
-/

namespace Msicp.Support

open List Option

variable {α : Type*}

/-- The text with `v` in every hole. -/
def fill (v : List α) (ts : List (Option (List α))) : List α :=
  ts.flatMap (fun t => t.getD v)

@[simp] theorem fill_nil (v : List α) : fill v [] = [] := rfl

@[simp] theorem fill_cons (v : List α) (t : Option (List α)) (ts : List (Option (List α))) :
    fill v (t :: ts) = t.getD v ++ fill v ts := by
  simp [fill]

@[simp] theorem fill_append (v : List α) (ts ts' : List (Option (List α))) :
    fill v (ts ++ ts') = fill v ts ++ fill v ts' := by
  simp [fill]

variable {v w : List α} {ts : List (Option (List α))}

theorem fill_eq_of_no_hole (h : none ∉ ts) : fill v ts = fill w ts := by
  induction ts with
  | nil => rfl
  | cons t ts ih =>
    simp only [mem_cons, not_or] at h
    obtain ⟨s, rfl⟩ := ne_none_iff_exists'.mp (Ne.symm h.1)
    simp [ih h.2]

theorem length_fill_add (v w : List α) (ts : List (Option (List α))) :
    (fill v ts).length + ts.countP Option.isNone * w.length =
      (fill w ts).length + ts.countP Option.isNone * v.length := by
  induction ts with
  | nil => simp
  | cons t ts ih =>
    cases t with
    | none =>
      simp only [fill_cons, getD_none, List.length_append, countP_cons, isNone_none, if_true]
      ring_nf at ih ⊢
      linarith
    | some s =>
      simp only [fill_cons, getD_some, List.length_append,
        countP_cons, isNone_some, Bool.false_eq_true, if_false]
      ring_nf at ih ⊢
      linarith

/-- If a template with a hole gives the same text for two fillings, the
fillings are the same. -/
theorem eq_of_fill_eq (hole : none ∈ ts) (h : fill v ts = fill w ts) : v = w := by
  have hpos : 0 < ts.countP isNone :=
    countP_pos_iff.mpr ⟨none, hole, rfl⟩
  have hlen : v.length = w.length := by
    have hsum := length_fill_add v w ts
    rw [h] at hsum
    exact (Nat.eq_of_mul_eq_mul_left hpos (by omega)).symm
  induction ts with
  | nil => simp at hole
  | cons t ts ih =>
    cases t with
    | none =>
      simp only [fill_cons, getD_none] at h
      exact (append_inj h hlen).1
    | some s =>
      simp only [fill_cons, getD_some, append_cancel_left_eq] at h
      have hole' : none ∈ ts := by simpa using hole
      exact ih hole' h (countP_pos_iff.mpr ⟨none, hole', rfl⟩)

theorem fill_eq_fill_iff : fill v ts = fill w ts ↔ none ∉ ts ∨ v = w := by
  constructor
  · intro h
    by_cases hole : none ∈ ts
    · exact Or.inr (eq_of_fill_eq hole h)
    · exact Or.inl hole
  · rintro (h | rfl)
    · exact fill_eq_of_no_hole h
    · rfl

end Msicp.Support
