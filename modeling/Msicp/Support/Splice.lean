import Mathlib.Data.List.Basic
import Mathlib.Data.Int.Basic

/-!
# Edits of a text

An edit takes some items out of a text and puts others in their place.  Edits
that are in order and do not overlap are made in one pass, which copies what
lies between them.
-/

namespace Msicp.Support

open List

variable {α : Type*}

/-- At `offset`, `size` items are replaced. -/
structure Edit (α : Type*) where
  offset : ℕ
  size : ℕ
  text : List α

/-- The edits lie between `p` and `n`, each behind the one before it. -/
def Ordered : ℕ → List (Edit α) → ℕ → Prop
  | p, [], n => p ≤ n
  | p, e :: es, n => p ≤ e.offset ∧ Ordered (e.offset + e.size) es n

/-- What the edits make of the text from `p` on. -/
def splice (t : List α) : ℕ → List (Edit α) → List α
  | p, [] => t.drop p
  | p, e :: es =>
    (t.drop p).take (e.offset - p) ++ (e.text ++ splice t (e.offset + e.size) es)

/-- By how much the edits make a text longer. -/
def growth (es : List (Edit α)) : ℤ :=
  es.foldl (fun n e => n + (e.text.length - e.size)) 0

/-- A text that starts at `p`, and what the edits make of it: what lies between
them is kept. -/
inductive Spliced : ℕ → List α → List (Edit α) → List α → Prop
  | done (p : ℕ) (rest : List α) : Spliced p rest [] rest
  | edit {p : ℕ} {rest out : List α} {es : List (Edit α)} {e : Edit α}
      (kept old : List α) (hoffset : e.offset = p + kept.length)
      (hsize : e.size = old.length)
      (hrest : Spliced (p + kept.length + old.length) rest es out) :
      Spliced p (kept ++ (old ++ rest)) (e :: es) (kept ++ (e.text ++ out))

variable {p n : ℕ} {t : List α} {e : Edit α} {es es' : List (Edit α)}

theorem Ordered.le (h : Ordered p es n) : p ≤ n := by
  induction es generalizing p with
  | nil => exact h
  | cons e es ih =>
    obtain ⟨hle, hes⟩ := h
    have hlast := ih hes
    omega

theorem Ordered.append {m : ℕ} (h : Ordered p es m) (h' : Ordered m es' n) :
    Ordered p (es ++ es') n := by
  induction es generalizing p with
  | nil =>
    cases es' with
    | nil => exact le_trans (show p ≤ m from h) h'
    | cons e es' => exact ⟨le_trans (show p ≤ m from h) h'.1, h'.2⟩
  | cons e es ih => exact ⟨h.1, ih h.2⟩

theorem Ordered.mono {m : ℕ} (h : Ordered p es m) (hle : m ≤ n) :
    Ordered p es n := by
  simpa using h.append (show Ordered m [] n from hle)

private theorem foldl_growth (es : List (Edit α)) (k : ℤ) :
    es.foldl (fun n e => n + ((e.text.length : ℤ) - e.size)) k = k + growth es := by
  induction es generalizing k with
  | nil => simp [growth]
  | cons e es ih =>
    have hgrowth : growth (e :: es) = 0 + ((e.text.length : ℤ) - e.size) + growth es := ih _
    rw [foldl_cons, ih, hgrowth]
    omega

theorem growth_cons (e : Edit α) (es : List (Edit α)) :
    growth (e :: es) = e.text.length - e.size + growth es := by
  rw [growth, foldl_cons, foldl_growth]
  omega

theorem spliced_splice (h : Ordered p es t.length) : Spliced p (t.drop p) es (splice t p es) := by
  induction es generalizing p with
  | nil => exact Spliced.done p _
  | cons e es ih =>
    obtain ⟨hle, hes⟩ := h
    have hlast := hes.le
    have hsplit : t.drop p = (t.drop p).take (e.offset - p) ++
        ((t.drop e.offset).take e.size ++ t.drop (e.offset + e.size)) := by
      have hback : (t.drop p).drop (e.offset - p) = t.drop e.offset := by
        rw [drop_drop]
        congr 1
        omega
      rw [← drop_drop, take_append_drop, ← hback, take_append_drop]
    have hkept : ((t.drop p).take (e.offset - p)).length = e.offset - p := by
      rw [length_take, length_drop]
      omega
    have hold : ((t.drop e.offset).take e.size).length = e.size := by
      rw [length_take, length_drop]
      omega
    rw [hsplit, splice]
    refine Spliced.edit _ _ (by omega) hold.symm ?_
    rw [hkept, hold, show p + (e.offset - p) + e.size = e.offset + e.size by omega]
    exact ih hes

theorem length_splice (h : Ordered p es t.length) :
    ((splice t p es).length : ℤ) = t.length - p + growth es := by
  induction es generalizing p with
  | nil =>
    have hle : p ≤ t.length := h
    rw [splice, length_drop, growth, foldl_nil]
    omega
  | cons e es ih =>
    obtain ⟨hle, hes⟩ := h
    have hlast := hes.le
    have hkept : ((t.drop p).take (e.offset - p)).length = e.offset - p := by
      rw [length_take, length_drop]
      omega
    rw [splice, List.length_append, List.length_append, hkept, growth_cons]
    push_cast
    rw [ih hes]
    push_cast
    omega

end Msicp.Support
