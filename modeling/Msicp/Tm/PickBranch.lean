import Msicp.Tm.ReplyRun

/-!
# The branch a negative answer is taken from

`t_pick_branch` looks for the lowest code among the branches that carry a
request.  The reply that goes upstream is then the one at hand or the one
`store_reply` has kept, so a final answer on record has to come with its reply
as long as the transaction is open.
-/

namespace Msicp.Tm

open Msicp.Support Tm.Trans

/-! ## Picking -/

/-- A final reply on record, for the branch picked among `us`. -/
def PickedFrom (incBranch incCode : ℕ) (us : List Uac) (b : ℕ) (p : ℤ) (s : ℕ) : Prop :=
  ∃ i u, us[i]? = some u ∧ p = (b + i : ℕ) ∧ ((b + i = incBranch ∧ s = incCode) ∨
      (b + i ≠ incBranch ∧ u.request = true ∧ 200 ≤ u.lastReceived ∧ s = u.lastReceived))

/-- What is known of the branches that the loop has passed. -/
def Passed (incBranch incCode : ℕ) (us : List Uac) (b s : ℕ) : Prop :=
  ∀ i u, us[i]? = some u → (b + i = incBranch → s ≤ incCode) ∧
      (b + i ≠ incBranch → u.request = true → 200 ≤ u.lastReceived ∧ s ≤ u.lastReceived)

theorem PickedFrom.cons {incBranch incCode b s : ℕ} {p : ℤ} {u : Uac}
    {us : List Uac} (h : PickedFrom incBranch incCode us (b + 1) p s) :
    PickedFrom incBranch incCode (u :: us) b p s := by
  obtain ⟨i, v, hv, hp, hs⟩ := h
  refine ⟨i + 1, v, hv, ?_, ?_⟩
  · rw [hp]
    congr 1
    omega
  · rwa [show b + (i + 1) = b + 1 + i by omega]

theorem Passed.cons {incBranch incCode b s : ℕ} {u : Uac} {us : List Uac}
    (h : Passed incBranch incCode us (b + 1) s)
    (hinc : b = incBranch → s ≤ incCode)
    (hu : b ≠ incBranch → u.request = true → 200 ≤ u.lastReceived ∧ s ≤ u.lastReceived) :
    Passed incBranch incCode (u :: us) b s := by
  intro i v hv
  cases i with
  | zero =>
    obtain rfl : u = v := by simpa using hv
    exact ⟨hinc, hu⟩
  | succ i =>
    rw [show b + (i + 1) = b + 1 + i by omega]
    exact h i v hv

/-- The loop ends at an open branch, or it has the lowest code. -/
theorem tPickBranchLoop_spec (incBranch incCode : ℕ) (us : List Uac)
    (b : ℕ) (lowestB : ℤ) (lowestS : ℕ) :
    (tPickBranchLoop incBranch incCode us b lowestB lowestS).1 = -2 ∨
      (Passed incBranch incCode us b (tPickBranchLoop incBranch incCode us b lowestB lowestS).2 ∧
        (tPickBranchLoop incBranch incCode us b lowestB lowestS = (lowestB, lowestS) ∨
          (tPickBranchLoop incBranch incCode us b lowestB lowestS).2 < lowestS ∧
            PickedFrom incBranch incCode us b
              (tPickBranchLoop incBranch incCode us b lowestB lowestS).1
              (tPickBranchLoop incBranch incCode us b lowestB lowestS).2)) := by
  -- a branch that lowers the code becomes the pick, one that does not is
  -- passed
  have hlower : ∀ {u us b} {r : ℤ × ℕ} {s s' : ℕ}, s < s' → ((b = incBranch ∧ s = incCode) ∨
        (b ≠ incBranch ∧ u.request = true ∧ 200 ≤ u.lastReceived ∧ s = u.lastReceived)) →
      (r = (↑b, s) ∨ r.2 < s ∧ PickedFrom incBranch incCode us (b + 1) r.1 r.2) →
      r.2 < s' ∧ PickedFrom incBranch incCode (u :: us) b r.1 r.2 := by
    intro u us b r s s' hlt hself hpick
    rcases hpick with rfl | ⟨hle, hrest⟩
    · exact ⟨hlt, 0, u, rfl, rfl, hself⟩
    · exact ⟨hle.trans hlt, hrest.cons⟩
  have hle : ∀ {us b} {r : ℤ × ℕ} {p : ℤ} {s : ℕ},
      (r = (p, s) ∨ r.2 < s ∧ PickedFrom incBranch incCode us b r.1 r.2) →
      r.2 ≤ s := by
    intro us b r p s hpick
    rcases hpick with rfl | hlt
    · exact Nat.le_refl _
    · exact hlt.1.le
  induction us generalizing b lowestB lowestS with
  | nil => exact .inr ⟨by simp [Passed], .inl rfl⟩
  | cons u us ih =>
    simp only [tPickBranchLoop]
    by_cases hinc : b = incBranch
    · rw [if_pos hinc]
      by_cases hlow : incCode < lowestS
      · rw [if_pos hlow]
        rcases ih (b + 1) b incCode with hopen | ⟨hpassed, hpick⟩
        · exact .inl hopen
        · exact .inr ⟨hpassed.cons (fun _ => hle hpick) (fun hne => absurd hinc hne),
            .inr (hlower hlow (.inl ⟨hinc, rfl⟩) hpick)⟩
      · rw [if_neg hlow]
        rcases ih (b + 1) lowestB lowestS with hopen | ⟨hpassed, hpick⟩
        · exact .inl hopen
        · refine .inr ⟨hpassed.cons (fun _ => (hle hpick).trans (Nat.le_of_not_lt hlow))
            (fun hne => absurd hinc hne), ?_⟩
          exact hpick.imp_right (And.imp_right PickedFrom.cons)
    · rw [if_neg hinc]
      by_cases hreq : u.request = false
      · rw [if_pos hreq]
        rcases ih (b + 1) lowestB lowestS with hopen | ⟨hpassed, hpick⟩
        · exact .inl hopen
        · refine .inr ⟨hpassed.cons (fun h => absurd h hinc) ?_, ?_⟩
          · intro _ hcarries
            simp [hreq] at hcarries
          · exact hpick.imp_right (And.imp_right PickedFrom.cons)
      · have hcarries : u.request = true := by simpa using hreq
        rw [if_neg hreq]
        by_cases hfin : u.lastReceived < 200
        · rw [if_pos hfin]
          exact .inl rfl
        · have hfinal : 200 ≤ u.lastReceived := Nat.le_of_not_lt hfin
          rw [if_neg hfin]
          by_cases hlow : u.lastReceived < lowestS
          · rw [if_pos hlow]
            rcases ih (b + 1) b u.lastReceived with hopen | ⟨hpassed, hpick⟩
            · exact .inl hopen
            · exact .inr ⟨hpassed.cons (fun h => absurd h hinc) (fun _ _ => ⟨hfinal, hle hpick⟩),
                .inr (hlower hlow (.inr ⟨hinc, hcarries, hfinal, rfl⟩) hpick)⟩
          · rw [if_neg hlow]
            rcases ih (b + 1) lowestB lowestS with hopen | ⟨hpassed, hpick⟩
            · exact .inl hopen
            · refine .inr ⟨hpassed.cons (fun h => absurd h hinc) (fun _ _ => ⟨hfinal,
                  (hle hpick).trans (Nat.le_of_not_lt hlow)⟩), ?_⟩
              exact hpick.imp_right (And.imp_right PickedFrom.cons)

theorem Trans.getElem?_uac {t : Trans} {b : ℕ} (hb : b < t.nrOfOutgoings) :
    t.uac[b]? = some (t.branch b) := by
  have hlt : b < t.uac.length := hb
  simp [branch, List.getD_eq_getElem?_getD, hlt]

theorem Trans.lt_of_getElem? {t : Trans} {b : ℕ} {u : Uac}
    (h : t.uac[b]? = some u) : b < t.nrOfOutgoings ∧ u = t.branch b := by
  obtain ⟨hlt, hu⟩ := List.getElem?_eq_some_iff.mp h
  refine ⟨hlt, ?_⟩
  simp [branch, List.getD_eq_getElem?_getD, h]

theorem tPickBranch_picked {t : Trans} {incBranch incCode : ℕ}
    (hopen : (tPickBranch incBranch incCode t).1 ≠ -2)
    (hnone : (tPickBranch incBranch incCode t).1 ≠ -1)
    (hinc : incBranch < t.nrOfOutgoings) :
    ∃ p s : ℕ, (tPickBranch incBranch incCode t).1 = p ∧
      p < t.nrOfOutgoings ∧ s < 999 ∧ s ≤ incCode ∧
      ((p = incBranch ∧ s = incCode) ∨ (p ≠ incBranch ∧ (t.branch p).request = true ∧
          200 ≤ (t.branch p).lastReceived ∧
          s = (t.branch p).lastReceived)) ∧
      ∀ b, b ≠ incBranch → (t.branch b).request = true →
        200 ≤ (t.branch b).lastReceived ∧ s ≤ (t.branch b).lastReceived := by
  rcases tPickBranchLoop_spec incBranch incCode t.uac 0 (-1) 999 with
    hleft | ⟨hpassed, hpick⟩
  · exact absurd hleft hopen
  · rcases hpick with hself | ⟨hlt, i, u, hu, hp, hs⟩
    · exact absurd (congrArg Prod.fst hself) hnone
    · obtain ⟨hi, rfl⟩ := lt_of_getElem? hu
      rw [Nat.zero_add] at hp hs
      refine ⟨i, _, hp, hi, hlt, ?_, hs, ?_⟩
      · exact (hpassed incBranch _ (getElem?_uac hinc)).1 (Nat.zero_add _)
      · intro b hb hcarries
        by_cases hrange : b < t.nrOfOutgoings
        · exact (hpassed b _ (getElem?_uac hrange)).2 (by rwa [Nat.zero_add]) hcarries
        · rw [branch_of_le t (Nat.le_of_not_lt hrange)] at hcarries
          cases hcarries

theorem tPickBranch_none {t : Trans} {incBranch incCode : ℕ}
    (hnone : (tPickBranch incBranch incCode t).1 = -1)
    (hinc : incBranch < t.nrOfOutgoings) : 999 ≤ incCode := by
  rcases tPickBranchLoop_spec incBranch incCode t.uac 0 (-1) 999 with
    hopen | ⟨hpassed, hpick⟩
  · exact absurd (hopen.symm.trans hnone) (by decide)
  · rcases hpick with hself | ⟨hlt, i, u, hu, hp, hs⟩
    · have hcode := (hpassed incBranch _ (getElem?_uac hinc)).1 (Nat.zero_add _)
      rw [hself] at hcode
      exact hcode
    · have hcontra : (-1 : ℤ) = (0 + i : ℕ) := hnone.symm.trans hp
      omega

end Msicp.Tm
