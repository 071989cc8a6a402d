import Mathlib.Logic.Relation

/-!
# Runs of a machine

A machine takes one labelled step at a time; a label that is not enabled has
no successor.  Reachability is taken relative to a condition on the steps, so
that a property can be stated for the runs whose steps all meet it.
-/

namespace Msicp.Support

/-- Initial states and a partial step function. -/
structure Machine (σ ℓ : Type*) where
  init : σ → Prop
  step : ℓ → σ → Option σ

namespace Machine

variable {σ ℓ : Type*} (M : Machine σ ℓ)

/-- The states reached by steps that all meet `ok`, a condition on the label
and on the state before the step. -/
inductive ReachWhen (ok : ℓ → σ → Prop) : σ → Prop
  | init {s : σ} (h : M.init s) : ReachWhen ok s
  | step {s s' : σ} {l : ℓ} (h : ReachWhen ok s) (hok : ok l s)
      (hs : M.step l s = some s') : ReachWhen ok s'

/-- The states of all runs. -/
abbrev Reach (s : σ) : Prop :=
  M.ReachWhen (fun _ _ => True) s

/-- The state after a list of steps. -/
def run (s : σ) : List ℓ → Option σ
  | [] => some s
  | l :: ls => (M.step l s).bind fun s' => run s' ls

/-- Every step of a list meets the condition. -/
def Admits (ok : ℓ → σ → Prop) : σ → List ℓ → Prop
  | _, [] => True
  | s, l :: ls => ok l s ∧ ∀ s', M.step l s = some s' → Admits ok s' ls

variable {M}

theorem Admits.cons {ok : ℓ → σ → Prop} {s s' : σ} {l : ℓ} {ls : List ℓ} (hok : ok l s)
    (hs : M.step l s = some s') (h : M.Admits ok s' ls) : M.Admits ok s (l :: ls) :=
  ⟨hok, fun _ hs' => Option.some.inj (hs.symm.trans hs') ▸ h⟩

/-- What holds at the start and is kept by every admitted step holds
throughout. -/
theorem ReachWhen.invariant {ok : ℓ → σ → Prop} {s : σ}
    (h : M.ReachWhen ok s) (inv : σ → Prop) (h0 : ∀ s, M.init s → inv s)
    (hstep : ∀ l s s', inv s → ok l s → M.step l s = some s' → inv s') :
    inv s := by
  induction h with
  | init h => exact h0 _ h
  | step _ hok hs ih => exact hstep _ _ _ ih hok hs

theorem ReachWhen.run {ok : ℓ → σ → Prop} {s s' : σ} (h : M.ReachWhen ok s)
    {ls : List ℓ} (hok : M.Admits ok s ls) (hrun : M.run s ls = some s') :
    M.ReachWhen ok s' := by
  induction ls generalizing s with
  | nil =>
    have hs : s = s' := by simpa [Machine.run] using hrun
    exact hs ▸ h
  | cons l ls ih =>
    obtain ⟨u, hu, hrest⟩ := Option.bind_eq_some_iff.mp hrun
    exact ih (.step h hok.1 hu) (hok.2 u hu) hrest

theorem Reach.run {s s' : σ} (h : M.Reach s) (ls : List ℓ)
    (hrun : M.run s ls = some s') : M.Reach s' := by
  refine ReachWhen.run h ?_ hrun
  clear hrun h
  induction ls generalizing s with
  | nil => trivial
  | cons l ls ih => exact ⟨trivial, fun u _ => ih⟩

end Machine

end Msicp.Support
