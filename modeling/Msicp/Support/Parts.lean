import Mathlib.Data.List.Basic

/-!
# Texts in parts

A text is cut at a separator.  The parts do not have the separator in them, and
the text has no other parts.
-/

namespace Msicp.Support

open List

variable {α : Type*} {sep : α} {ps qs : List (List α)}

theorem exists_parts [DecidableEq α] (sep : α) (text : List α) :
    ∃ p ps, text = [sep].intercalate (p :: ps) ∧ ∀ q ∈ p :: ps, sep ∉ q := by
  induction text with
  | nil => exact ⟨[], [], rfl, by simp⟩
  | cons c text ih =>
    obtain ⟨p, ps, rfl, hps⟩ := ih
    by_cases hc : c = sep
    · refine ⟨[], p :: ps, ?_, ?_⟩
      · rw [intercalate_cons_cons, hc]
        rfl
      · intro q hq
        rcases mem_cons.mp hq with rfl | hq
        · exact not_mem_nil
        · exact hps q hq
    · refine ⟨c :: p, ps, intercalate_cons_cons_left.symm, ?_⟩
      intro q hq
      rcases mem_cons.mp hq with rfl | hq
      · intro hmem
        rcases mem_cons.mp hmem with rfl | hmem
        · exact hc rfl
        · exact hps p mem_cons_self hmem
      · exact hps q (mem_cons_of_mem p hq)

theorem parts_inj [DecidableEq α] (hps : ∀ p ∈ ps, sep ∉ p) (hqs : ∀ q ∈ qs, sep ∉ q)
    (hpne : ps ≠ []) (hqne : qs ≠ [])
    (h : [sep].intercalate ps = [sep].intercalate qs) : ps = qs := by
  rw [← splitOn_intercalate sep hps hpne, h, splitOn_intercalate sep hqs hqne]

theorem intercalate_concat (ps : List (List α)) (p : List α) :
    [sep].intercalate (ps ++ [p]) = (ps.flatMap fun q => q ++ [sep]) ++ p := by
  induction ps with
  | nil => simp
  | cons q ps ih =>
    rw [cons_append, intercalate_cons_of_ne_nil (by simp), ih]
    simp

theorem exists_lines [DecidableEq α] (sep : α) (text : List α) :
    ∃ (ls : List (List α)) (last : List α), text = (ls.flatMap fun l => l ++ [sep]) ++ last ∧
      (∀ l ∈ ls, sep ∉ l) ∧ sep ∉ last := by
  obtain ⟨p, ps, rfl, hsep⟩ := exists_parts sep text
  obtain ⟨ls, last, hparts⟩ :=
    (eq_nil_or_concat' (p :: ps)).resolve_left (cons_ne_nil p ps)
  rw [hparts] at hsep ⊢
  exact ⟨ls, last, intercalate_concat ls last, fun l hl => hsep l (mem_append_left _ hl),
    hsep last (mem_append_right _ mem_cons_self)⟩

theorem lines_inj [DecidableEq α] {ls ms : List (List α)} {l m : List α}
    (hls : ∀ x ∈ ls, sep ∉ x) (hl : sep ∉ l) (hms : ∀ x ∈ ms, sep ∉ x) (hm : sep ∉ m)
    (h : (ls.flatMap fun x => x ++ [sep]) ++ l = (ms.flatMap fun x => x ++ [sep]) ++ m) :
    ls = ms ∧ l = m := by
  rw [← intercalate_concat, ← intercalate_concat] at h
  have heq := @parts_inj _ _ (ls ++ [l]) (ms ++ [m]) _ ?_ ?_ (by simp) (by simp) h
  · have hcut := append_inj' heq rfl
    exact ⟨hcut.1, head_eq_of_cons_eq hcut.2⟩
  · intro x hx
    rcases mem_append.mp hx with hx | hx
    · exact hls x hx
    · rw [mem_singleton.mp hx]
      exact hl
  · intro x hx
    rcases mem_append.mp hx with hx | hx
    · exact hms x hx
    · rw [mem_singleton.mp hx]
      exact hm

/-- The first item that has a property, which may depend on the items before it. -/
theorem exists_first {β : Type*} (P : List β → β → Prop) (xs : List β) :
    (∀ pre x post, xs = pre ++ x :: post → ¬ P pre x) ∨
      ∃ pre x post, xs = pre ++ x :: post ∧ P pre x ∧
        ∀ pre' x' post', pre = pre' ++ x' :: post' → ¬ P pre' x' := by
  induction xs generalizing P with
  | nil => exact Or.inl fun pre x post h => absurd h (by simp)
  | cons y ys ih =>
    by_cases hy : P [] y
    · exact Or.inr ⟨[], y, ys, rfl, hy, fun pre' x' post' h => absurd h (by simp)⟩
    · have hstep : ∀ {Q : List β → β → Prop} {zs : List β}, ¬ Q [] y →
          (∀ pre x post, zs = pre ++ x :: post → ¬ Q (y :: pre) x) →
          ∀ pre x post, y :: zs = pre ++ x :: post → ¬ Q pre x := by
        intro Q zs hQ hzs pre x post h
        cases pre with
        | nil =>
          rw [nil_append, List.cons.injEq] at h
          rw [← h.1]
          exact hQ
        | cons z pre =>
          rw [cons_append, List.cons.injEq] at h
          rw [← h.1]
          exact hzs pre x post h.2
      rcases ih fun pre x => P (y :: pre) x with hnone | ⟨pre, x, post, rfl, hx, hfirst⟩
      · exact Or.inl (hstep hy hnone)
      · exact Or.inr ⟨y :: pre, x, post, rfl, hx, hstep hy hfirst⟩

end Msicp.Support
