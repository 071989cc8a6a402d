import Mathlib.Algebra.BigOperators.Group.Finset.Piecewise
import Mathlib.Data.List.Count
import Mathlib.Algebra.BigOperators.Ring.Finset
import Mathlib.Algebra.Order.BigOperators.Group.Finset
import Mathlib.Algebra.BigOperators.Fin
import Mathlib.Algebra.Group.Int.Defs
import Mathlib.Algebra.Order.Group.Int

/-!
# Lists by key

A list whose elements have a key falls into one list for each key, its slots.
What an operation does to a list is told by what it does to the slots, when
the order between different keys does not matter.
-/

namespace Msicp.Support

open List

variable {α κ : Type*} [DecidableEq κ] (key : α → κ)

/-- The elements with the key `k`, in their order. -/
def slot (k : κ) (l : List α) : List α :=
  l.filter fun x => key x = k

variable {key} {k : κ} {l l₁ l₂ : List α} {x : α}

@[simp] theorem slot_nil : slot key k [] = [] := rfl

@[simp] theorem slot_append : slot key k (l₁ ++ l₂) = slot key k l₁ ++ slot key k l₂ :=
  filter_append ..

theorem slot_cons_of_eq (h : key x = k) : slot key k (x :: l) = x :: slot key k l :=
  filter_cons_of_pos (by simpa using h)

theorem slot_cons_of_ne (h : key x ≠ k) : slot key k (x :: l) = slot key k l :=
  filter_cons_of_neg (by simpa using h)

theorem slot_eq_nil : slot key k l = [] ↔ ∀ x ∈ l, key x ≠ k := by
  simp [slot, filter_eq_nil_iff]

theorem mem_slot : x ∈ slot key k l ↔ x ∈ l ∧ key x = k := by
  simp [slot]

theorem nodup_keys_iff : (l.map key).Nodup ↔ ∀ k, (slot key k l).length ≤ 1 := by
  rw [nodup_iff_count_le_one]
  refine forall_congr' fun k => ?_
  have hcount : (l.map key).count k = (slot key k l).length := by
    rw [List.count, countP_map, countP_eq_length_filter, slot]
    congr 2
  rw [hcount]

theorem countP_eq_sum_slot (p : α → Bool) {keys : Finset κ} (h : ∀ x ∈ l, key x ∈ keys) :
    l.countP p = ∑ k ∈ keys, (slot key k l).countP p := by
  induction l with
  | nil => simp
  | cons x l ih =>
    have hx : key x ∈ keys := h x (by simp)
    have hl := ih fun y hy => h y (mem_cons_of_mem x hy)
    have hslot : ∀ k, (slot key k (x :: l)).countP p = (slot key k l).countP p +
          if key x = k then (if p x then 1 else 0) else 0 := by
      intro k
      by_cases hk : key x = k
      · rw [slot_cons_of_eq hk, countP_cons, if_pos hk]
      · rw [slot_cons_of_ne hk, if_neg hk, Nat.add_zero]
    rw [countP_cons, hl, Finset.sum_congr rfl fun k _ => hslot k,
      Finset.sum_add_distrib, Finset.sum_ite_eq, if_pos hx]

end Msicp.Support

/-!
## Sums over parties

What is counted over all parties, where one party at a time changes.
-/

namespace Msicp.Support

open Function

variable {ι X : Type*} [Fintype ι]

theorem sum_update [DecidableEq ι] (w : X → ℤ) (f : ι → X) (i : ι) (x : X) :
    ∑ j, w (update f i x j) = ∑ j, w (f j) + (w x - w (f i)) := by
  have hnew := Finset.add_sum_erase Finset.univ (fun j => w (update f i x j)) (Finset.mem_univ i)
  have hold := Finset.add_sum_erase Finset.univ (fun j => w (f j)) (Finset.mem_univ i)
  have hrest : ∑ j ∈ Finset.univ.erase i, w (update f i x j) =
      ∑ j ∈ Finset.univ.erase i, w (f j) := by
    refine Finset.sum_congr rfl fun j hj => ?_
    rw [update_of_ne (Finset.ne_of_mem_erase hj)]
  rw [update_self] at hnew
  omega

theorem le_sum {w : X → ℤ} (hw : ∀ x, 0 ≤ w x) (f : ι → X) (i : ι) : w (f i) ≤ ∑ j, w (f j) :=
  Finset.single_le_sum (f := fun j => w (f j)) (fun j _ => hw (f j)) (Finset.mem_univ i)

theorem sum_nonneg {w : X → ℤ} (hw : ∀ x, 0 ≤ w x) (f : ι → X) : 0 ≤ ∑ j, w (f j) :=
  Finset.sum_nonneg fun j _ => hw (f j)

end Msicp.Support
