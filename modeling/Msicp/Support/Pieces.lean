import Mathlib.Data.Nat.Notation

/-!
# The pieces of a text

A text is cut at every separator into pieces.  A reader that goes over the text
from left to right knows the pieces behind it and the one it is in.
-/

namespace Msicp.Support

open List

variable {α : Type}

/-- Texts with their places, the first at `n` and a separator between them. -/
def places (n : ℕ) : List (List α) → List (ℕ × List α)
  | [] => []
  | w :: ws => (n, w) :: places (n + w.length + 1) ws

/-- The pieces of a text at `n`, each with its place. -/
def pieces [BEq α] (sep : α) (n : ℕ) (text : List α) : List (ℕ × List α) :=
  places n (text.splitOn sep)

/-- The place behind `ws` and their separators. -/
def placeAfter (n : ℕ) : List (List α) → ℕ
  | [] => n
  | w :: ws => placeAfter (n + w.length + 1) ws

theorem placeAfter_concat (n : ℕ) (ws : List (List α)) (w : List α) :
    placeAfter n (ws ++ [w]) = placeAfter n ws + w.length + 1 := by
  induction ws generalizing n with
  | nil => rfl
  | cons v ws ih => exact ih _

theorem places_concat (n : ℕ) (ws : List (List α)) (w : List α) :
    places n (ws ++ [w]) = places n ws ++ [(placeAfter n ws, w)] := by
  induction ws generalizing n with
  | nil => rfl
  | cons v ws ih => simp [places, placeAfter, ih]

theorem mem_places {n : ℕ} {ws : List (List α)} {w : List α} :
    (∃ q, (q, w) ∈ places n ws) ↔ w ∈ ws := by
  induction ws generalizing n with
  | nil => simp [places]
  | cons v ws ih => simp [places, ← ih (n := n + v.length + 1), exists_or]

variable [BEq α] {sep x : α} {n q : ℕ}
variable {text w : List α} {ws : List (List α)} {ps : List (ℕ × List α)}

/-- A text at `n` that ends in the piece `w` at `q`, behind the pieces `ps`. -/
structure EndsIn (sep : α) (n : ℕ) (text : List α) (ps : List (ℕ × List α))
    (q : ℕ) (w : List α) : Prop where
  exists_split : ∃ ws, text.splitOn sep = ws ++ [w] ∧ places n ws = ps ∧
    placeAfter n ws = q
  stop : q + w.length = n + text.length

variable (sep n) in
theorem EndsIn.nil : EndsIn sep n [] [] n [] :=
  ⟨⟨[], rfl, rfl, rfl⟩, rfl⟩

theorem EndsIn.pieces_eq (h : EndsIn sep n text ps q w) : pieces sep n text = ps ++ [(q, w)] := by
  obtain ⟨ws, hsplit, rfl, rfl⟩ := h.exists_split
  rw [pieces, hsplit, places_concat]

variable [LawfulBEq α]

theorem splitOn_concat_sep (h : text.splitOn sep = ws ++ [w]) :
    (text ++ [sep]).splitOn sep = (ws ++ [w]) ++ [[]] := by
  rw [splitOn_append_cons_self, h, splitOn_nil]

theorem splitOn_concat (hx : x ≠ sep) (h : text.splitOn sep = ws ++ [w]) :
    (text ++ [x]).splitOn sep = ws ++ [w ++ [x]] := by
  induction text generalizing ws w with
  | nil =>
    have hnil : ws = [] ∧ w = [] := by
      cases ws with
      | nil => simpa using h.symm
      | cons v ws => simp at h
    simp [hnil.1, hnil.2, splitOn_cons_eq_if_modifyHead, hx]
  | cons y text ih =>
    rw [splitOn_cons_eq_if_modifyHead] at h
    rw [cons_append, splitOn_cons_eq_if_modifyHead]
    by_cases hy : (y == sep) = true
    · rw [if_pos hy] at h ⊢
      cases ws with
      | nil =>
        have hnil := (List.cons.inj h).2
        exact absurd hnil (splitOn_ne_nil _ _)
      | cons v ws =>
        obtain ⟨hv, hrest⟩ := List.cons.inj h
        rw [ih hrest, ← hv]
        rfl
    · rw [if_neg hy] at h ⊢
      obtain ⟨us, u, hsplit⟩ : ∃ us u, text.splitOn sep = us ++ [u] :=
        ⟨_, _, (dropLast_concat_getLast (splitOn_ne_nil sep text)).symm⟩
      rw [ih hsplit]
      rw [hsplit] at h
      cases us with
      | nil =>
        have hcase : ws = [] ∧ w = y :: u := by
          cases ws with
          | nil => simpa using h.symm
          | cons v ws => simp at h
        simp [hcase.1, hcase.2]
      | cons v us =>
        have heq : ((y :: v) :: us) ++ [u] = ws ++ [w] := by simpa using h
        obtain ⟨rfl, hu⟩ := append_inj' heq rfl
        obtain rfl := singleton_inj.mp hu
        rfl

theorem EndsIn.concat (h : EndsIn sep n text ps q w) (hx : x ≠ sep) :
    EndsIn sep n (text ++ [x]) ps q (w ++ [x]) := by
  obtain ⟨ws, hsplit, hps, hq⟩ := h.exists_split
  refine ⟨⟨ws, splitOn_concat hx hsplit, hps, hq⟩, ?_⟩
  have hstop := h.stop
  simp only [List.length_append, length_singleton]
  omega

theorem EndsIn.concat_sep (h : EndsIn sep n text ps q w) :
    EndsIn sep n (text ++ [sep]) (ps ++ [(q, w)]) (n + text.length + 1) [] := by
  obtain ⟨ws, hsplit, rfl, rfl⟩ := h.exists_split
  have hstop := h.stop
  refine ⟨⟨ws ++ [w], splitOn_concat_sep hsplit, places_concat n ws w, ?_⟩, ?_⟩
  · rw [placeAfter_concat, hstop]
  · simp only [List.length_append, length_singleton, length_nil]
    omega

end Msicp.Support
