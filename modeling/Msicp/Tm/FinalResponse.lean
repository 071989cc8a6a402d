import Msicp.Tm.StoredReply

/-!
# When the final response timer fires

`final_response_handler` answers the branch with a 408, or drops the
transaction silently by putting it on WAIT.  The flag of a transaction that is
sure to be replied (`T_NOISY_CTIMER_FLAG`) is tested the wrong way around: the
silent choice is made for these transactions, and for no others.
-/

namespace Msicp.Tm

/-- What `final_response_handler` does: it stops a retransmission, it calls
`put_on_wait`, or it calls `fake_reply`. -/
inductive FinalResponse
  | stopped (t : Trans)
  | onWait (t : Trans)
  | faked (code : ℕ) (r : Except Trans Trans)

/-- The transaction behind it. -/
def FinalResponse.run : FinalResponse → Except Trans Trans
  | .stopped t => .ok t
  | .onWait t => .ok t
  | .faked _ r => r

/-- `final_response_handler`, with the calls it makes. -/
def finalResponse (prm : Params) (e : RelayEnv) (activType : ActivType)
    (branch : ℕ) (t : Trans) : FinalResponse :=
  match activType with
  | .localCancel => .stopped t
  | .reply => .onWait t
  | .request =>
    let t := t.lockOp .lock
    if silent prm branch t then .onWait (t.lockOp .unlock)
    else .faked 408 (fakeReply prm e branch 408 t)

/-! ## The faked reply -/

/-- The transaction of a section, also when the section crashes. -/
def outcome : Except Trans Trans → Trans
  | .ok t => t
  | .error t => t

/-- The branch has the code on record. -/
def Trans.HasCode (t : Trans) (branch code : ℕ) : Prop :=
  branch < t.nrOfOutgoings ∧ (t.branch branch).lastReceived = code

variable {t : Trans} {branch code : ℕ} {pMsg : Rpl} {prm : Params} {e : RelayEnv}

theorem Trans.HasCode.quiet {t' : Trans} (h : t.HasCode branch code) (hq : Quiet t t') :
    t'.HasCode branch code := by
  refine ⟨h.1.trans_le hq.count, ?_⟩
  have hrec := congrArg Prod.fst (hq.old branch h.1)
  exact hrec.trans h.2

theorem Trans.HasCode.setReply (h : t.HasCode branch code) (reply : Option Rpl) :
    (t.setBranch branch fun u => { u with reply := reply }).HasCode branch
      code := by
  refine ⟨by simpa using h.1, ?_⟩
  rw [Trans.branch_setBranch, if_pos ⟨rfl, h.1⟩]
  exact h.2

/-- A negative reply on an open branch of an open transaction goes on
record. -/
theorem tShouldRelayResponse_hasCode (prm : Params) (e : RelayEnv)
    (bm : Bitmap) (hcode : 302 < code)
    (hb : branch < t.nrOfOutgoings) (huas : t.uasStatus < 200)
    (hopen : (t.branch branch).lastReceived < 200) :
    (tShouldRelayResponse prm e t code branch bm).t.HasCode branch code := by
  have hreceived : (t.setLastReceived branch code).HasCode branch code := by
    refine ⟨by simpa [Trans.setLastReceived] using hb, ?_⟩
    simp [Trans.setLastReceived, Trans.branch_setBranch, hb]
  have hran : ∀ t', (t' = t.setLastReceived branch code ∨
      t' = runFailureHandlers prm e.handlers e.onNegative
        (t.setLastReceived branch code)) → t'.HasCode branch code := by
    rintro t' (rfl | rfl)
    · exact hreceived
    · exact hreceived.quiet (.runFailureHandlers prm _ _ _)
  have hnegative : tShouldRelayResponse prm e t code branch bm =
      negativeResponse prm e t code branch bm := by
    simp only [tShouldRelayResponse]
    rw [if_neg (Nat.not_le.mpr huas), if_neg (by omega), if_pos hcode]
  rw [hnegative]
  apply negativeResponse_cases (P := fun d => d.t.HasCode branch code)
  · exact fun _ => hreceived
  · exact hran
  · exact fun t' ht' _ => hran t' ht'
  · exact fun t' ht' _ _ _ _ => hran t' ht'

theorem storeReply_hasCode {stored : Bool}
    {d : Decision} (h : d.t.HasCode branch code)
    (hst : (if d.shouldStore then storeReply stored branch pMsg d.t
      else some d.t) = some t) : t.HasCode branch code := by
  simp only [storeReply] at hst
  split at hst
  · split at hst
    · cases hst
      exact h.setReply (some pMsg)
    · cases hst
  · cases hst
    exact h

theorem relayReply_hasCode
     {bm : Bitmap} (hcode : 302 < code)
    (hb : branch < t.nrOfOutgoings) (huas : t.uasStatus < 200)
    (hopen : (t.branch branch).lastReceived < 200) :
    (outcome ((relayReply prm e t pMsg branch code bm).map
      fun r => r.2.2)).HasCode branch code := by
  have hd := tShouldRelayResponse_hasCode prm e bm (t := t.lockOp .enter) hcode hb huas hopen
  simp only [relayReply]
  generalize tShouldRelayResponse prm e (t.lockOp .enter) code branch bm = d at hd ⊢
  cases hst : (if d.shouldStore then storeReply e.stored branch pMsg d.t
      else some d.t) with
  | none => exact hd.quiet (.relayError prm e _ _)
  | some u =>
    have hu := storeReply_hasCode hd hst
    simp only
    split
    · split
      · exact hu
      · split
        · refine Trans.HasCode.quiet ?_ (.relayError prm e _ _)
          split
          · exact hu.setReply none
          · exact hu
        · exact hu
    · exact hu

theorem localReply_hasCode (hcode : 302 < code)
    (hb : branch < t.nrOfOutgoings) (huas : t.uasStatus < 200)
    (hopen : (t.branch branch).lastReceived < 200) :
    (outcome ((localReply prm e t pMsg branch code).map fun r => r.2.2)).HasCode branch code := by
  have hd := tShouldRelayResponse_hasCode prm e ∅ (t := t.lockOp .enter) hcode hb huas hopen
  simp only [localReply]
  generalize tShouldRelayResponse prm e (t.lockOp .enter) code branch ∅ = d at hd ⊢
  cases hst : (if d.shouldStore then storeReply e.stored branch pMsg d.t
      else some d.t) with
  | none =>
    have hmark := (hd.quiet (.whichCancel prm d.cancelBitmap d.t)).quiet (.lockOpIf true .unlock _)
    simp only [Except.map, outcome]
    split
    · exact hmark.quiet (.cancelUacs _ _)
    · exact hmark
  | some u =>
    have hu := storeReply_hasCode hd hst
    simp only
    split
    · split
      · exact hu
      · exact hu
    · exact hu

theorem outcome_map {α : Type*} {x : Except Trans α} {f g : α → Trans}
    {P : Trans → Prop} (h : P (outcome (x.map f)))
    (hfg : ∀ a, P (f a) → P (g a)) : P (outcome (x.map g)) := by
  cases x with
  | error t => exact h
  | ok a => exact hfg a h

/-- `fake_reply` puts its code on record for the branch. -/
theorem fakeReply_hasCode (hcode : 302 < code)
    (hb : branch < t.nrOfOutgoings) (huas : t.uasStatus < 200)
    (hopen : (t.branch branch).lastReceived < 200) :
    (outcome (fakeReply prm e branch code t)).HasCode branch code := by
  have hrelay : ∀ (u : Trans) (docancel : Bool), branch < u.nrOfOutgoings → u.uasStatus < 200 →
      (u.branch branch).lastReceived < 200 →
      (outcome (fakeReplyRelay prm e docancel branch code u)).HasCode branch
        code := by
    intro u docancel hub huu huo
    have hcancel : ∀ r : Rps × Bitmap × Trans, r.2.2.HasCode branch code →
        (if docancel then { r.2.2 with cancels := r.2.2.cancels ++ [branch] }
          else r.2.2).HasCode branch code := by
      intro r hr
      split
      · exact hr.quiet (.of_uac rfl id)
      · exact hr
    simp only [fakeReplyRelay]
    by_cases hloc : u.isLocal
    · rw [if_pos hloc]
      exact outcome_map (P := fun v => v.HasCode branch code)
        (localReply_hasCode hcode hub huu huo) hcancel
    · rw [if_neg hloc]
      exact outcome_map (P := fun v => v.HasCode branch code)
        (relayReply_hasCode hcode hub huu huo) hcancel
  simp only [fakeReply]
  split
  · have hq := Quiet.shouldCancelBranch prm t branch
    have hstatus : (shouldCancelBranch prm t branch).2.uasStatus =
        t.uasStatus := by
      simp only [shouldCancelBranch]
      split <;> rfl
    refine hrelay _ _ (hb.trans_le hq.count) (hstatus ▸ huas) ?_
    have hrec := congrArg Prod.fst (hq.old branch hb)
    exact hrec.trans_lt hopen
  · exact hrelay t false hb huas hopen

/-! ## The choice -/

/-- The transaction may be dropped: silent dropping is enabled, it is a
proxied INVITE with one branch, no failure handler is installed, and it is not
one that is sure to be replied. -/
structure Trans.MayDrop (prm : Params) (t : Trans) : Prop where
  enabled : prm.noisyCtimer = false
  proxied : t.isLocal = false
  invite : t.isInvite = true
  single : t.nrOfOutgoings = 1
  noHandler : t.onFailure = false
  notNoisy : t.noisyCtimer = false

/-- The branch is answered by a 408 through `fake_reply`, which goes on record
unless the transaction has its final answer already, or the transaction is put
on WAIT as it may be dropped. -/
def Settles (prm : Params) (branch : ℕ) (t : Trans) : FinalResponse → Prop
  | .stopped _ => False
  | .faked code r => code = 408 ∧ (t.uasStatus < 200 → (outcome r).HasCode branch 408)
  | .onWait u => t.MayDrop prm ∧ u.uac = t.uac

theorem silent_eq_false_iff (prm : Params) (hinv : t.isInvite = true) (branch : ℕ) :
    silent prm branch t = false ↔
      (t.noisyCtimer = false ∨ prm.noisyCtimer = true ∨ t.isLocal = true ∨
        t.nrOfOutgoings ≠ 1 ∨ t.onFailure = true ∨
        (t.branch branch).lastReceived = 0) := by
  cases hl : t.isLocal <;> cases hf : t.onFailure <;>
    cases hp : prm.noisyCtimer <;> cases hn : t.noisyCtimer <;>
    simp [silent, hl, hf, hp, hn, hinv, imp_iff_not_or]

/-- A proxied INVITE with one branch that rings. -/
def ringing : Trans :=
  { isInvite := true, isLocal := false, uac := [{ lastReceived := 180 }] }

end Msicp.Tm
