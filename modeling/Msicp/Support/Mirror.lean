import Mathlib.Data.List.Perm.Basic
import Mathlib.Data.List.Nodup

/-!
# Tables that mirror a list

A table is a list of rows in no particular order.  It mirrors a list of
entries when it holds exactly the rows of these entries.
-/

namespace Msicp.Support

open List

variable {ι ρ κ : Type*}

/-- The rows are those of the entries of `l`, `row` giving the row of an
entry. -/
def Mirrors (rows : List ρ) (l : List ι) (row : ι → ρ) : Prop :=
  rows.Perm (l.map row)

namespace Mirrors

variable {rows : List ρ} {l l₁ l₂ : List ι} {row row' : ι → ρ} {x : ι}

theorem congr (h : Mirrors rows l row) (hrow : ∀ y ∈ l, row' y = row y) :
    Mirrors rows l row' := by
  have heq : l.map row' = l.map row := map_congr_left hrow
  rw [Mirrors, heq]
  exact h

theorem of_perm {l' : List ι} (h : Mirrors rows l row) (hl : l.Perm l') :
    Mirrors rows l' row :=
  h.trans (hl.map row)

theorem insert (h : Mirrors rows (l₁ ++ l₂) row) (hx : x ∉ l₁ ++ l₂)
    (hrow : ∀ y, y ≠ x → row' y = row y) :
    Mirrors (rows ++ [row' x]) (l₁ ++ x :: l₂) row' := by
  have hkeep : Mirrors rows (l₁ ++ l₂) row' :=
    h.congr fun y hy => hrow y fun heq => hx (heq ▸ hy)
  have hnew : (rows ++ [row' x]).Perm (row' x :: (l₁ ++ l₂).map row') :=
    perm_append_singleton .. |>.trans (hkeep.cons _)
  exact hnew.trans (perm_middle.symm.map row')

theorem update (h : Mirrors rows l row) {set : ρ → ρ} (hset : ∀ y ∈ l, set (row y) = row' y) :
    Mirrors (rows.map set) l row' := by
  have hmap := h.map set
  rw [List.map_map] at hmap
  have heq : l.map (set ∘ row) = l.map row' := map_congr_left hset
  rwa [heq] at hmap

theorem filter (h : Mirrors rows l row) (keep : ρ → Bool) :
    Mirrors (rows.filter keep) (l.filter fun y => keep (row y)) row := by
  have hfilter := List.Perm.filter keep h
  rwa [List.filter_map] at hfilter

theorem remove (h : Mirrors rows (l₁ ++ x :: l₂) row) {keep : ρ → Bool}
    (hx : keep (row x) = false) (hkeep : ∀ y ∈ l₁ ++ l₂, keep (row y) = true) :
    Mirrors (rows.filter keep) (l₁ ++ l₂) row := by
  have hfilter := h.filter keep
  have hrest : (l₁ ++ x :: l₂).filter (fun y => keep (row y)) = l₁ ++ l₂ := by
    rw [filter_append, filter_cons_of_neg (by simp [hx]), ← filter_append]
    exact filter_eq_self.mpr hkeep
  rwa [hrest] at hfilter

/-- Where entries have different keys, the rows with the key of an entry are
its row alone. -/
theorem filter_key [DecidableEq κ] {key : ρ → κ} (h : Mirrors rows l row)
    (hl : (l.map fun y => key (row y)).Nodup) (hx : x ∈ l) :
    rows.filter (fun r => key r = key (row x)) = [row x] := by
  obtain ⟨l₁, l₂, rfl⟩ := append_of_mem hx
  have hother : ∀ y ∈ l₁ ++ l₂, key (row y) ≠ key (row x) := by
    intro y hy heq
    have hnodup := (perm_middle.map _).nodup_iff.mp hl
    exact (nodup_cons.mp hnodup).1 (List.mem_map.mpr ⟨y, hy, heq⟩)
  have hfilter := List.Perm.filter (fun r => decide (key r = key (row x))) h
  have hone : ((l₁ ++ x :: l₂).map row).filter
      (fun r => decide (key r = key (row x))) = [row x] := by
    rw [map_append, map_cons, filter_append, filter_cons_of_pos (by simp)]
    have hnil : ∀ m : List ι, (∀ y ∈ m, y ∈ l₁ ++ l₂) →
        (m.map row).filter (fun r => decide (key r = key (row x))) = [] := by
      intro m hm
      apply filter_eq_nil_iff.mpr
      intro r hr
      obtain ⟨y, hy, rfl⟩ := List.mem_map.mp hr
      simpa using hother y (hm y hy)
    rw [hnil l₁ fun y hy => mem_append_left _ hy,
      hnil l₂ fun y hy => mem_append_right _ hy, nil_append]
  rw [hone] at hfilter
  exact perm_singleton.mp hfilter

end Mirrors

end Msicp.Support
