import Msicp.Support.LinkChain
import Mathlib.Tactic.Ring

/-!
# Regions that tile an interval

Regions are named by their first address `f` and occupy `extent f` addresses.
A list of regions tiles `[a, e)` when each one starts where the one before it
ends: following "the address behind me" is a linked list, so the facts about
`LinkSeg` apply.
-/

namespace Msicp.Support

open List

/-- The regions `fs` fill the interval from `a` to `e`, in address order. -/
def Tiles (extent : ℕ → ℕ) (a : ℕ) (fs : List ℕ) (e : ℕ) : Prop :=
  LinkSeg (fun f => some (f + extent f)) (some a) fs (some e)

variable {extent extent' : ℕ → ℕ} {a e f n : ℕ} {fs l₁ l₂ : List ℕ}

@[simp] theorem tiles_nil : Tiles extent a [] e ↔ a = e := by
  simp [Tiles]

@[simp] theorem tiles_cons :
    Tiles extent a (f :: fs) e ↔ a = f ∧ Tiles extent (f + extent f) fs e := by
  simp [Tiles]

theorem tiles_append : Tiles extent a (l₁ ++ l₂) e ↔
      ∃ b, Tiles extent a l₁ b ∧ Tiles extent b l₂ e := by
  induction l₁ generalizing a with
  | nil => simp
  | cons f l₁ ih =>
    simp only [cons_append, tiles_cons, ih]
    constructor
    · rintro ⟨ha, b, h₁, h₂⟩
      exact ⟨b, ⟨ha, h₁⟩, h₂⟩
    · rintro ⟨b, ⟨ha, h₁⟩, h₂⟩
      exact ⟨ha, b, h₁, h₂⟩

namespace Tiles

section

variable (h : Tiles extent a fs e)
include h

theorem congr (hsame : ∀ f ∈ fs, extent' f = extent f) : Tiles extent' a fs e := by
  apply LinkSeg.congr h
  intro f hf
  rw [hsame f hf]

theorem le : a ≤ e := by
  induction fs generalizing a with
  | nil => exact (tiles_nil.mp h).le
  | cons f fs ih =>
    obtain ⟨rfl, hrest⟩ := tiles_cons.mp h
    exact le_trans (Nat.le_add_right a _) (ih hrest)

theorem mem_bounds (hf : f ∈ fs) : a ≤ f ∧ f + extent f ≤ e := by
  induction fs generalizing a with
  | nil => simp at hf
  | cons g fs ih =>
    obtain ⟨rfl, hrest⟩ := tiles_cons.mp h
    rcases mem_cons.mp hf with rfl | hf
    · exact ⟨le_rfl, hrest.le⟩
    · obtain ⟨hlow, hhigh⟩ := ih hrest hf
      exact ⟨by omega, hhigh⟩

/-- Regions do not overlap: each ends before the later ones start. -/
theorem pairwise : fs.Pairwise (fun f g => f + extent f ≤ g) := by
  induction fs generalizing a with
  | nil => exact List.Pairwise.nil
  | cons f fs ih =>
    obtain ⟨rfl, hrest⟩ := tiles_cons.mp h
    refine pairwise_cons.mpr ⟨?_, ih hrest⟩
    intro g hg
    exact (hrest.mem_bounds hg).1

theorem disjoint {f g : ℕ} (hf : f ∈ fs) (hg : g ∈ fs) (hne : f ≠ g) :
    f + extent f ≤ g ∨ g + extent g ≤ f := by
  obtain ⟨l₁, l₂, rfl⟩ := append_of_mem hf
  obtain ⟨-, hfl, hbefore⟩ := pairwise_append.mp h.pairwise
  rcases mem_append.mp hg with hg | hg
  · exact Or.inr (hbefore g hg f (by simp))
  · rcases mem_cons.mp hg with rfl | hg
    · exact absurd rfl hne
    · exact Or.inl ((pairwise_cons.mp hfl).1 g hg)

theorem nodup (hpos : ∀ f ∈ fs, 0 < extent f) :
    fs.Nodup := by
  have hlt : fs.Pairwise (fun f g => f ∈ fs ∧ f + extent f ≤ g) :=
    (pairwise_iff_forall_sublist).mpr fun {x y} hsub =>
      ⟨hsub.subset (by simp), (pairwise_iff_forall_sublist.mp h.pairwise) hsub⟩
  refine hlt.imp ?_
  rintro x y ⟨hx, hxy⟩ rfl
  have := hpos x hx
  omega

theorem mul_length_le {o : ℕ} (ho : ∀ f ∈ fs, o ≤ extent f) : a + o * fs.length ≤ e := by
  induction fs generalizing a with
  | nil => simp [tiles_nil.mp h]
  | cons f fs ih =>
    obtain ⟨rfl, hrest⟩ := tiles_cons.mp h
    have hf := ho a (by simp)
    have hlen := ih hrest (fun g hg => ho g (by simp [hg]))
    simp only [length_cons]
    have hmul : o * (fs.length + 1) = o * fs.length + o := by ring
    omega

end

theorem next_eq (h : Tiles extent a (l₁ ++ f :: l₂) e) : (l₂ = [] ∧ f + extent f = e) ∨
      ∃ l₃, l₂ = (f + extent f) :: l₃ := by
  obtain ⟨b, -, hb⟩ := tiles_append.mp h
  obtain ⟨rfl, hrest⟩ := tiles_cons.mp hb
  cases l₂ with
  | nil => exact Or.inl ⟨rfl, tiles_nil.mp hrest⟩
  | cons g l₂ =>
    obtain ⟨rfl, -⟩ := tiles_cons.mp hrest
    exact Or.inr ⟨l₂, rfl⟩

theorem split (h : Tiles extent a (l₁ ++ f :: l₂) e)
    (hn : n = f + extent' f) (hsum : extent' f + extent' n = extent f)
    (hsame : ∀ g ∈ l₁ ++ l₂, extent' g = extent g) :
    Tiles extent' a (l₁ ++ f :: n :: l₂) e := by
  obtain ⟨b, h₁, hb⟩ := tiles_append.mp h
  obtain ⟨rfl, h₂⟩ := tiles_cons.mp hb
  refine tiles_append.mpr ⟨b, ?_, ?_⟩
  · exact h₁.congr (fun g hg => hsame g (by simp [hg]))
  · refine tiles_cons.mpr ⟨rfl, tiles_cons.mpr ⟨hn.symm, ?_⟩⟩
    have hend : n + extent' n = b + extent b := by omega
    rw [hend]
    exact h₂.congr (fun g hg => hsame g (by simp [hg]))

theorem join (h : Tiles extent a (l₁ ++ f :: n :: l₂) e) (hsum : extent' f = extent f + extent n)
    (hsame : ∀ g ∈ l₁ ++ l₂, extent' g = extent g) :
    Tiles extent' a (l₁ ++ f :: l₂) e := by
  obtain ⟨b, h₁, hb⟩ := tiles_append.mp h
  obtain ⟨rfl, hn⟩ := tiles_cons.mp hb
  obtain ⟨hn, h₂⟩ := tiles_cons.mp hn
  refine tiles_append.mpr ⟨b, ?_, ?_⟩
  · exact h₁.congr (fun g hg => hsame g (by simp [hg]))
  · refine tiles_cons.mpr ⟨rfl, ?_⟩
    have hend : b + extent' b = n + extent n := by omega
    rw [hend]
    exact h₂.congr (fun g hg => hsame g (by simp [hg]))

theorem end_eq (h : Tiles extent a fs e) : e = a + (fs.map extent).sum := by
  induction fs generalizing a with
  | nil => exact (tiles_nil.mp h).symm
  | cons f fs ih =>
    obtain ⟨rfl, hrest⟩ := tiles_cons.mp h
    rw [ih hrest, map_cons, sum_cons, Nat.add_assoc]

theorem exists_last (h : Tiles extent a (f :: fs) e) : ∃ g ∈ f :: fs, g + extent g = e := by
  induction fs generalizing a f with
  | nil => exact ⟨f, mem_singleton_self f, tiles_nil.mp (tiles_cons.mp h).2⟩
  | cons g fs ih =>
    obtain ⟨x, hx, hend⟩ := ih (tiles_cons.mp h).2
    exact ⟨x, mem_cons_of_mem f hx, hend⟩

/-- The region in front of another one that is not the first. -/
theorem prev_eq (h : Tiles extent a (l₁ ++ f :: l₂) e) (hf : a < f) :
    ∃ l₀ g, l₁ = l₀ ++ [g] ∧ g + extent g = f := by
  obtain ⟨b, h₁, hb⟩ := tiles_append.mp h
  obtain ⟨rfl, -⟩ := tiles_cons.mp hb
  rcases eq_nil_or_concat' l₁ with rfl | ⟨l₀, g, rfl⟩
  · have hab := tiles_nil.mp h₁
    omega
  · obtain ⟨c, -, hg⟩ := tiles_append.mp h₁
    obtain ⟨rfl, hend⟩ := tiles_cons.mp hg
    exact ⟨l₀, c, rfl, tiles_nil.mp hend⟩

/-- The regions are determined by their extents. -/
theorem unique {fs' : List ℕ} (h : Tiles extent a fs e) (h' : Tiles extent a fs' e)
    (hpos : ∀ f, 0 < extent f) : fs = fs' := by
  induction fs generalizing a fs' with
  | nil =>
    obtain rfl := tiles_nil.mp h
    cases fs' with
    | nil => rfl
    | cons f fs' =>
      obtain ⟨rfl, hrest⟩ := tiles_cons.mp h'
      have hle := hrest.le
      have hf := hpos a
      omega
  | cons f fs ih =>
    obtain ⟨rfl, hrest⟩ := tiles_cons.mp h
    cases fs' with
    | nil =>
      obtain rfl := tiles_nil.mp h'
      have hle := hrest.le
      have hf := hpos a
      omega
    | cons g fs' =>
      obtain ⟨rfl, hrest'⟩ := tiles_cons.mp h'
      rw [ih hrest hrest']

end Tiles

end Msicp.Support
