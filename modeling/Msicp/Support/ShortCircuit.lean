import Mathlib.Data.List.Basic

/-!
# Short-circuit evaluation

Formulas over operands that are evaluated from left to right.  Evaluating an
operand may change a state; it gives a truth value, or it stops the evaluation
with a code.  An operand may depend on how deep in the formula it stands.
-/

namespace Msicp.Support

open List

/-- A formula over operands. -/
inductive Formula (E : Type*)
  | atom (e : E)
  | and (φ ψ : Formula E)
  | or (φ ψ : Formula E)
  | not (φ : Formula E)

/-- The nesting above the deepest operand. -/
def Formula.depth {E : Type*} : Formula E → ℕ
  | .atom _ => 0
  | .and φ ψ => max φ.depth ψ.depth + 1
  | .or φ ψ => max φ.depth ψ.depth + 1
  | .not φ => φ.depth + 1

/-- A truth value, or the code that stops the evaluation. -/
inductive Outcome (X : Type*)
  | val (b : Bool)
  | stop (x : X)
  deriving DecidableEq

/-- An operand that was evaluated: where, in which state and with what
outcome. -/
structure Visit (E S X : Type*) where
  depth : ℕ
  operand : E
  state : S
  outcome : Outcome X

section Evaluation

variable {E S X : Type*}

/-- `Yields leaf d φ s visits out s'`: from the state `s` the formula `φ`, which
stands at depth `d`, has the outcome `out` and leaves the state `s'`, and
`visits` are the operands evaluated on the way. -/
inductive Yields (leaf : ℕ → E → S → Outcome X × S) :
    ℕ → Formula E → S → List (Visit E S X) → Outcome X → S → Prop
  | atom {d : ℕ} {e : E} {s s' : S} {out : Outcome X}
      (h : leaf d e s = (out, s')) :
      Yields leaf d (.atom e) s [⟨d, e, s, out⟩] out s'
  | andStop {d : ℕ} {φ ψ : Formula E} {s s' : S} {tr : List (Visit E S X)}
      {x : X} (h : Yields leaf (d + 1) φ s tr (.stop x) s') :
      Yields leaf d (.and φ ψ) s tr (.stop x) s'
  | andFalse {d : ℕ} {φ ψ : Formula E} {s s' : S} {tr : List (Visit E S X)}
      (h : Yields leaf (d + 1) φ s tr (.val false) s') :
      Yields leaf d (.and φ ψ) s tr (.val false) s'
  | andTrue {d : ℕ} {φ ψ : Formula E} {s s' s'' : S}
      {tr tr' : List (Visit E S X)} {out : Outcome X}
      (h : Yields leaf (d + 1) φ s tr (.val true) s')
      (h' : Yields leaf (d + 1) ψ s' tr' out s'') :
      Yields leaf d (.and φ ψ) s (tr ++ tr') out s''
  | orStop {d : ℕ} {φ ψ : Formula E} {s s' : S} {tr : List (Visit E S X)}
      {x : X} (h : Yields leaf (d + 1) φ s tr (.stop x) s') :
      Yields leaf d (.or φ ψ) s tr (.stop x) s'
  | orTrue {d : ℕ} {φ ψ : Formula E} {s s' : S} {tr : List (Visit E S X)}
      (h : Yields leaf (d + 1) φ s tr (.val true) s') :
      Yields leaf d (.or φ ψ) s tr (.val true) s'
  | orFalse {d : ℕ} {φ ψ : Formula E} {s s' s'' : S}
      {tr tr' : List (Visit E S X)} {out : Outcome X}
      (h : Yields leaf (d + 1) φ s tr (.val false) s')
      (h' : Yields leaf (d + 1) ψ s' tr' out s'') :
      Yields leaf d (.or φ ψ) s (tr ++ tr') out s''
  | notStop {d : ℕ} {φ : Formula E} {s s' : S} {tr : List (Visit E S X)}
      {x : X} (h : Yields leaf (d + 1) φ s tr (.stop x) s') :
      Yields leaf d (.not φ) s tr (.stop x) s'
  | notVal {d : ℕ} {φ : Formula E} {s s' : S} {tr : List (Visit E S X)}
      {b : Bool} (h : Yields leaf (d + 1) φ s tr (.val b) s') :
      Yields leaf d (.not φ) s tr (.val !b) s'

variable {leaf leaf' : ℕ → E → S → Outcome X × S} {d : ℕ} {φ ψ : Formula E}
  {s s' s'' : S} {tr tr' : List (Visit E S X)} {out out' : Outcome X}

theorem exists_yields (leaf : ℕ → E → S → Outcome X × S) (φ : Formula E)
    (d : ℕ) (s : S) : ∃ tr out s', Yields leaf d φ s tr out s' := by
  induction φ generalizing d s with
  | atom e => exact ⟨_, _, _, .atom rfl⟩
  | and φ ψ ihφ ihψ =>
    obtain ⟨tr, out, s', h⟩ := ihφ (d + 1) s
    obtain ⟨tr', out', s'', h'⟩ := ihψ (d + 1) s'
    rcases out with ⟨_ | _⟩ | x
    · exact ⟨_, _, _, .andFalse h⟩
    · exact ⟨_, _, _, .andTrue h h'⟩
    · exact ⟨_, _, _, .andStop h⟩
  | or φ ψ ihφ ihψ =>
    obtain ⟨tr, out, s', h⟩ := ihφ (d + 1) s
    obtain ⟨tr', out', s'', h'⟩ := ihψ (d + 1) s'
    rcases out with ⟨_ | _⟩ | x
    · exact ⟨_, _, _, .orFalse h h'⟩
    · exact ⟨_, _, _, .orTrue h⟩
    · exact ⟨_, _, _, .orStop h⟩
  | not φ ih =>
    obtain ⟨tr, out, s', h⟩ := ih (d + 1) s
    rcases out with b | x
    · exact ⟨_, _, _, .notVal h⟩
    · exact ⟨_, _, _, .notStop h⟩

section

variable (h : Yields leaf d φ s tr out s')
include h

/-- A formula has one outcome, by one sequence of visits. -/
theorem Yields.det (h' : Yields leaf d φ s tr' out' s'') : tr = tr' ∧ out = out' ∧ s' = s'' := by
  induction h generalizing tr' out' s'' with
  | atom h =>
    cases h' with
    | atom h' =>
      obtain ⟨rfl, rfl⟩ := Prod.mk.injEq _ _ _ _ ▸ h.symm.trans h'
      exact ⟨rfl, rfl, rfl⟩
  | andStop h ih =>
    cases h' with
    | andStop g => exact ih g
    | andFalse g => cases (ih g).2.1
    | andTrue g g' => cases (ih g).2.1
  | andFalse h ih =>
    cases h' with
    | andStop g => cases (ih g).2.1
    | andFalse g => exact ih g
    | andTrue g g' => cases (ih g).2.1
  | andTrue h h' ih ih' =>
    cases h' with
    | andStop g => cases (ih g).2.1
    | andFalse g => cases (ih g).2.1
    | andTrue g g' =>
      obtain ⟨rfl, -, rfl⟩ := ih g
      obtain ⟨rfl, rfl, rfl⟩ := ih' g'
      exact ⟨rfl, rfl, rfl⟩
  | orStop h ih =>
    cases h' with
    | orStop g => exact ih g
    | orTrue g => cases (ih g).2.1
    | orFalse g g' => cases (ih g).2.1
  | orTrue h ih =>
    cases h' with
    | orStop g => cases (ih g).2.1
    | orTrue g => exact ih g
    | orFalse g g' => cases (ih g).2.1
  | orFalse h h' ih ih' =>
    cases h' with
    | orStop g => cases (ih g).2.1
    | orTrue g => cases (ih g).2.1
    | orFalse g g' =>
      obtain ⟨rfl, -, rfl⟩ := ih g
      obtain ⟨rfl, rfl, rfl⟩ := ih' g'
      exact ⟨rfl, rfl, rfl⟩
  | notStop h ih =>
    cases h' with
    | notStop g => exact ih g
    | notVal g => cases (ih g).2.1
  | notVal h ih =>
    cases h' with
    | notStop g => cases (ih g).2.1
    | notVal g =>
      obtain ⟨rfl, hval, rfl⟩ := ih g
      cases hval
      exact ⟨rfl, rfl, rfl⟩

theorem Yields.visit {v : Visit E S X}
    (hv : v ∈ tr) : v.outcome = (leaf v.depth v.operand v.state).1 := by
  induction h with
  | atom h =>
    obtain rfl := mem_singleton.mp hv
    simp [h]
  | andTrue h h' ih ih' => exact (mem_append.mp hv).elim ih ih'
  | orFalse h h' ih ih' => exact (mem_append.mp hv).elim ih ih'
  | andStop h ih | andFalse h ih | orStop h ih | orTrue h ih | notStop h ih
  | notVal h ih => exact ih hv

theorem Yields.congr (hleaf : ∀ v ∈ tr,
      leaf' v.depth v.operand v.state = leaf v.depth v.operand v.state) :
    Yields leaf' d φ s tr out s' := by
  induction h with
  | atom h => exact .atom ((hleaf _ (mem_singleton.mpr rfl)).trans h)
  | andStop h ih => exact .andStop (ih hleaf)
  | andFalse h ih => exact .andFalse (ih hleaf)
  | andTrue h h' ih ih' =>
    exact .andTrue (ih fun v hv => hleaf v (mem_append_left _ hv))
      (ih' fun v hv => hleaf v (mem_append_right _ hv))
  | orStop h ih => exact .orStop (ih hleaf)
  | orTrue h ih => exact .orTrue (ih hleaf)
  | orFalse h h' ih ih' =>
    exact .orFalse (ih fun v hv => hleaf v (mem_append_left _ hv))
      (ih' fun v hv => hleaf v (mem_append_right _ hv))
  | notStop h ih => exact .notStop (ih hleaf)
  | notVal h ih => exact .notVal (ih hleaf)

end

end Evaluation

end Msicp.Support
