import Mathlib.Algebra.Order.Ring.Int
import Mathlib.Data.List.Nodup
import Mathlib.Data.List.Pairwise
import Mathlib.Tactic.Linarith

/-!
# Spans of integers

A span is given by its first and its last integer.  Cutting a span into pieces
of one length, the last of which may be shorter, loses no integer and repeats
none.
-/

namespace Msicp.Support

open List

/-- The integers from `start` to `stop`. -/
structure Span where
  start : ℤ
  stop : ℤ
  deriving DecidableEq, Repr

namespace Span

/-- How many integers a span has, if it is not empty. -/
def size (r : Span) : ℤ := r.stop - r.start + 1

/-- The integers of a span in order. -/
def members (r : Span) : List ℤ :=
  (List.range r.size.toNat).map fun i : ℕ => r.start + (i : ℤ)

theorem mem_members {r : Span} {i : ℤ} : i ∈ r.members ↔ r.start ≤ i ∧ i ≤ r.stop := by
  simp only [members, size, List.mem_map, mem_range]
  constructor
  · rintro ⟨k, hk, rfl⟩
    omega
  · intro h
    exact ⟨(i - r.start).toNat, by omega, by omega⟩

theorem members_of_lt {r : Span} (h : r.stop < r.start) : r.members = [] := by
  simp only [members, size]
  rw [show (r.stop - r.start + 1).toNat = 0 by omega]
  rfl

theorem members_nodup (r : Span) : r.members.Nodup := by
  refine nodup_range.map ?_
  intro a b h
  have h : r.start + (a : ℤ) = r.start + b := h
  omega

theorem members_append {a b c : ℤ} (hab : a ≤ b + 1) (hbc : b ≤ c) :
    (⟨a, b⟩ : Span).members ++ (⟨b + 1, c⟩ : Span).members = (⟨a, c⟩ : Span).members := by
  obtain ⟨k, hk⟩ : ∃ k : ℕ, b + 1 = a + k := ⟨(b + 1 - a).toNat, by omega⟩
  obtain ⟨l, hl⟩ : ∃ l : ℕ, c = b + l := ⟨(c - b).toNat, by omega⟩
  simp only [members, size]
  rw [show (b - a + 1).toNat = k by omega,
    show (c - (b + 1) + 1).toNat = l by omega,
    show (c - a + 1).toNat = k + l by omega, range_add, map_append,
    List.map_map]
  congr 1
  refine map_congr_left fun i _ => ?_
  simp only [Function.comp_apply, Nat.cast_add]
  omega

/-- Spans without an integer in common are different, and each is there
once. -/
theorem of_flatMap_nodup {l : List Span} (hl : ∀ r ∈ l, r.start ≤ r.stop)
    (h : (l.flatMap members).Nodup) :
    l.Nodup ∧ ∀ a ∈ l, ∀ b ∈ l, ∀ i, a.start ≤ i → i ≤ a.stop →
      b.start ≤ i → i ≤ b.stop → a = b := by
  have hdisj := (nodup_flatMap.mp h).2
  constructor
  · refine hdisj.imp_of_mem fun {a b} ha _ hab => ?_
    rintro rfl
    have hmem : a.start ∈ a.members := mem_members.mpr ⟨le_rfl, hl a ha⟩
    exact hab hmem hmem
  · intro a ha b hb i h1 h2 h3 h4
    have hsymm : Std.Symm (fun a b : Span => List.Disjoint a.members b.members) :=
      ⟨fun _ _ h => disjoint_symm h⟩
    by_contra hne
    exact List.Pairwise.forall hdisj ha hb hne (mem_members.mpr ⟨h1, h2⟩) (mem_members.mpr ⟨h3, h4⟩)

end Span

/-- At most `k` pieces of `chunk` integers from `a` to `e`. -/
def cut (chunk e : ℤ) : ℕ → ℤ → List Span
  | 0, _ => []
  | k + 1, a =>
    if a ≤ e then
      ⟨a, min (a + chunk - 1) e⟩ :: cut chunk e k (min (a + chunk - 1) e + 1)
    else []

section Cut

variable {chunk e a : ℤ} {k : ℕ} {r : Span}

/-- The pieces lie in the span and are not empty. -/
theorem bounds_of_mem_cut (hchunk : 0 < chunk) (hr : r ∈ cut chunk e k a) :
    a ≤ r.start ∧ r.start ≤ r.stop ∧ r.stop ≤ e ∧ r.size ≤ chunk := by
  induction k generalizing a with
  | zero => simp [cut] at hr
  | succ k ih =>
    unfold cut at hr
    split at hr
    · rename_i hle
      rcases mem_cons.mp hr with rfl | hr
      · simp only [Span.size]
        omega
      · obtain ⟨h1, h2, h3, h4⟩ := ih hr
        exact ⟨by omega, h2, h3, h4⟩
    · simp at hr

/-- Only the last piece may be short: it has what is left over. -/
theorem size_of_mem_cut (hchunk : 0 < chunk) (hr : r ∈ cut chunk e k a) : r.size = chunk ∨
      (r.stop = e ∧ e - a + 1 - ((k : ℤ) - 1) * chunk ≤ r.size) := by
  induction k generalizing a with
  | zero => simp [cut] at hr
  | succ k ih =>
    unfold cut at hr
    split at hr
    · rename_i hle
      rcases Int.lt_or_le e (a + chunk - 1) with hshort | hlong
      · have hmin : min (a + chunk - 1) e = e := by omega
        rw [hmin] at hr
        rcases mem_cons.mp hr with rfl | hr
        · refine .inr ⟨rfl, ?_⟩
          have hk : 0 ≤ (k : ℤ) * chunk := by positivity
          simp only [Span.size]
          push_cast
          linarith
        · have hbounds := bounds_of_mem_cut hchunk hr
          omega
      · have hmin : min (a + chunk - 1) e = a + chunk - 1 := by omega
        rw [hmin] at hr
        rcases mem_cons.mp hr with rfl | hr
        · exact .inl (by simp only [Span.size]; omega)
        · refine (ih hr).imp_right fun hlast => ⟨hlast.1, ?_⟩
          push_cast
          linarith
    · simp at hr

/-- Enough pieces have all the integers of the span. -/
theorem flatMap_cut (hchunk : 0 < chunk) (hae : a ≤ e + 1) (hk : e - a + 1 ≤ k * chunk) :
    (cut chunk e k a).flatMap Span.members = (⟨a, e⟩ : Span).members := by
  induction k generalizing a with
  | zero =>
    have hlt : e < a := by
      push_cast at hk
      omega
    rw [cut, Span.members_of_lt hlt]
    rfl
  | succ k ih =>
    unfold cut
    split
    · rename_i hle
      rw [flatMap_cons, ih (by omega), Span.members_append (by omega) (by omega)]
      rcases Int.lt_or_le e (a + chunk - 1) with hshort | hlong
      · have hk0 : 0 ≤ (k : ℤ) * chunk := by positivity
        rw [show min (a + chunk - 1) e = e by omega]
        linarith
      · rw [show min (a + chunk - 1) e = a + chunk - 1 by omega]
        push_cast at hk
        linarith
    · rename_i hgt
      rw [Span.members_of_lt (show e < a by omega)]
      rfl

theorem exists_cut_eq_append (hae : a ≤ e) (hk : e - a + 1 ≤ k * chunk) :
    ∃ l r, cut chunk e k a = l ++ [r] ∧ r.stop = e := by
  induction k generalizing a with
  | zero =>
    push_cast at hk
    omega
  | succ k ih =>
    unfold cut
    rw [if_pos hae]
    rcases Int.lt_or_le (a + chunk - 1) e with hlong | hshort
    · have hmin : min (a + chunk - 1) e = a + chunk - 1 := by omega
      rw [hmin]
      obtain ⟨l, r, hl, hr⟩ := ih (a := a + chunk - 1 + 1) (by omega) (by
        push_cast at hk
        linarith)
      exact ⟨⟨a, a + chunk - 1⟩ :: l, r, by rw [hl]; rfl, hr⟩
    · have hmin : min (a + chunk - 1) e = e := by omega
      rw [hmin]
      refine ⟨[], ⟨a, e⟩, ?_, rfl⟩
      cases k with
      | zero => rfl
      | succ k =>
        unfold cut
        rw [if_neg (by omega)]
        rfl

end Cut

end Msicp.Support
