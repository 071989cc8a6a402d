import Msicp.Tm.PickBranch

/-!
# The replies kept for a later answer

A reply that finds other branches open is stored with its branch.  While the
transaction has no final answer, a final code on record comes with the reply
it was taken from, unless that reply was lost together with the 500 that was to
replace it.  So the branch picked in the end has a reply to relay.
-/

namespace Msicp.Tm

open Msicp.Support Tm.Trans Engine

/-! ## Steps that leave the records alone -/

/-- What the engine has on record of a branch. -/
def Uac.record (u : Uac) : ℕ × Bool × Option Rpl :=
  (u.lastReceived, u.request, u.reply)

/-- The branches keep their records, branches may be added, and a final answer
is not taken back. -/
structure Quiet (t t' : Trans) : Prop where
  status : 200 ≤ t.uasStatus → 200 ≤ t'.uasStatus
  count : t.nrOfOutgoings ≤ t'.nrOfOutgoings
  old : ∀ b < t.nrOfOutgoings, (t'.branch b).record = (t.branch b).record
  new : ∀ b, t.nrOfOutgoings ≤ b → (t'.branch b).lastReceived = 0

namespace Quiet

theorem of_uac {t t' : Trans} (hu : t'.uac = t.uac)
    (hs : 200 ≤ t.uasStatus → 200 ≤ t'.uasStatus) : Quiet t t' := by
  have hcount : t'.nrOfOutgoings = t.nrOfOutgoings := congrArg List.length hu
  have hbranch : ∀ b, t'.branch b = t.branch b := by
    intro b
    simp only [Trans.branch, hu]
  refine ⟨hs, hcount.ge, ?_, ?_⟩
  · intro b _
    rw [hbranch]
  · intro b hb
    rw [hbranch, branch_of_le t hb]

theorem refl (t : Trans) : Quiet t t :=
  of_uac rfl id

theorem trans {t u v : Trans} (h : Quiet t u) (h' : Quiet u v) :
    Quiet t v := by
  refine ⟨fun hs => h'.status (h.status hs), h.count.trans h'.count, ?_, ?_⟩
  · intro b hb
    rw [h'.old b (hb.trans_le h.count), h.old b hb]
  · intro b hb
    by_cases hold : b < u.nrOfOutgoings
    · have hzero := h.new b hb
      have hrec := congrArg Prod.fst (h'.old b hold)
      exact hrec.trans hzero
    · exact h'.new b (Nat.le_of_not_lt hold)

theorem setBranch {f : Uac → Uac} (hf : ∀ u, (f u).record = u.record)
    (t : Trans) (b : ℕ) : Quiet t (t.setBranch b f) := by
  refine ⟨id, (nrOfOutgoings_setBranch t b f).ge, ?_, ?_⟩
  · intro c _
    rw [branch_setBranch]
    split
    · rename_i hc
      rw [hf, hc.1]
    · rfl
  · intro c hc
    rw [branch_setBranch]
    split
    · rename_i h
      omega
    · rw [branch_of_le t hc]

theorem addUac (request : Bool) (t : Trans) : Quiet t (Msicp.Tm.addUac request t) := by
  refine ⟨id, ?_, ?_, ?_⟩
  · simp
  · intro b hb
    rw [branch_addUac, if_neg (Nat.ne_of_lt hb)]
  · intro b hb
    rw [branch_addUac]
    split
    · rfl
    · rw [branch_of_le t hb]

theorem lockOpIf (lock : Bool) (op : LockOp) (t : Trans) : Quiet t (t.lockOpIf lock op) := by
  cases lock <;> exact of_uac rfl id

theorem shouldCancelBranch (prm : Params) (t : Trans) (b : ℕ) :
    Quiet t (Msicp.Tm.shouldCancelBranch prm t b).2 := by
  simp only [Msicp.Tm.shouldCancelBranch]
  split
  · exact setBranch (f := Uac.mark) (fun _ => rfl) t b
  · exact refl t

theorem whichCancel (prm : Params) (bm : Bitmap) (t : Trans) :
    Quiet t (Msicp.Tm.whichCancel prm bm t).2 := by
  suffices hfold : ∀ (l : List ℕ) (acc : Bitmap × Trans), Quiet t acc.2 →
      Quiet t (l.foldl (whichCancelStep prm) acc).2 from
    hfold _ (bm, t) (refl t)
  intro l
  induction l with
  | nil => exact fun acc h => h
  | cons i l ih =>
    intro acc h
    apply ih
    simp only [whichCancelStep]
    split
    · exact h.trans (shouldCancelBranch prm acc.2 i)
    · exact h

theorem cancelUacs (bm : Bitmap) (t : Trans) : Quiet t (Msicp.Tm.cancelUacs bm t) :=
  of_uac rfl id

theorem replyLight (prm : Params) (e : LightEnv) (code : ℕ) (lock : Bool)
    (t : Trans) : Quiet t (Msicp.Tm.replyLight prm e code lock t) := by
  simp only [Msicp.Tm.replyLight]
  by_cases hb : e.built = false
  · rw [if_pos hb]
    split
    · exact (lockOpIf lock .lock t).trans ((whichCancel prm e.garbage _).trans
        ((lockOpIf lock .unlock _).trans (cancelUacs _ _)))
    · exact refl t
  · rw [if_neg hb]
    have hmark : Quiet t (if (t.lockOpIf lock .lock).isInvite = true then
        Msicp.Tm.whichCancel prm ∅ (t.lockOpIf lock .lock)
        else (∅, t.lockOpIf lock .lock)).2 := by
      split
      · exact (lockOpIf lock .lock t).trans (whichCancel prm ∅ _)
      · exact lockOpIf lock .lock t
    generalize (if (t.lockOpIf lock .lock).isInvite = true then
        Msicp.Tm.whichCancel prm ∅ (t.lockOpIf lock .lock)
        else (∅, t.lockOpIf lock .lock)) = w at hmark ⊢
    by_cases hs : 200 ≤ w.2.uasStatus
    · rw [if_pos hs]
      exact hmark.trans ((lockOpIf lock .unlock _).trans (cancelUacs _ _))
    · rw [if_neg hs]
      split
      · refine hmark.trans (Quiet.trans ?_ ((lockOpIf lock .unlock _).trans (cancelUacs _ _)))
        exact of_uac rfl fun h => absurd h hs
      · have hset : Quiet w.2 { w.2 with
            uasStatus := code
            relaiedReplyBranch := -2
            upstream := w.2.upstream ++ (if e.resolved then [code] else []) } :=
          of_uac rfl fun h => absurd h hs
        split
        · exact hmark.trans (hset.trans ((lockOpIf lock .unlock _).trans (cancelUacs _ _)))
        · exact hmark.trans (hset.trans (lockOpIf lock .unlock _))

theorem runFailureHandlers (prm : Params) (actions : List HandlerAction)
    (onNegative : Bool) (t : Trans) :
    Quiet t (Msicp.Tm.runFailureHandlers prm actions onNegative t) := by
  suffices hfold : ∀ (l : List HandlerAction) (u : Trans), Quiet t u →
      Quiet t (l.foldl (handlerAction prm) u) from
    hfold _ _ (of_uac rfl id)
  intro l
  induction l with
  | nil => exact fun u h => h
  | cons a l ih =>
    intro u h
    apply ih
    cases a with
    | tReply code e => exact h.trans (replyLight prm e code false u)
    | addUac request => exact h.trans (addUac request u)

theorem relayError (prm : Params) (e : RelayEnv) (bm : Bitmap) (t : Trans) :
    Quiet t (Msicp.Tm.relayError prm e bm t) := by
  have hreply : Quiet t ((tReplyUnsafe prm e.error 500 t).lockOp .unlock) :=
    (replyLight prm e.error 500 false t).trans (of_uac rfl id)
  simp only [Msicp.Tm.relayError]
  split
  · exact hreply.trans (cancelUacs bm _)
  · exact hreply

end Quiet

/-! ## Final codes with their replies -/

/-- The reply with the branch is the one its code was taken from. -/
def Uac.Stored (u : Uac) : Prop :=
  u.reply = some .faked ∨ u.reply = some (.msg u.lastReceived)

/-- A final code that may be picked is above 302 and has its reply. -/
def Uac.Recorded (u : Uac) : Prop :=
  200 ≤ u.lastReceived → u.lastReceived < 999 → 302 < u.lastReceived ∧ u.Stored

/-- The branches other than `branch` have the replies to their final codes as
long as the transaction is open. -/
def Trans.RecordedBut (t : Trans) (branch : ℕ) : Prop :=
  t.uasStatus < 200 → ∀ b, b ≠ branch → (t.branch b).Recorded

/-- All of them have. -/
def Trans.Recorded (t : Trans) : Prop :=
  t.uasStatus < 200 → ∀ b, (t.branch b).Recorded

theorem Uac.Recorded.of_open {u : Uac} (h : u.lastReceived < 200) :
    u.Recorded :=
  fun hfin => absurd h (Nat.not_lt.mpr hfin)

theorem Uac.Recorded.congr {u v : Uac} (h : u.Recorded)
    (heq : v.record = u.record) : v.Recorded := by
  have hcode : v.lastReceived = u.lastReceived := congrArg Prod.fst heq
  have hreply : v.reply = u.reply := congrArg (fun r => r.2.2) heq
  simpa only [Uac.Recorded, Uac.Stored, hcode, hreply] using h

variable {t t' : Trans} {branch newCode code : ℕ} {e : RelayEnv} {pMsg : Rpl} {d : Decision}
  {prm : Params}

theorem Trans.Recorded.but (h : t.Recorded) (branch : ℕ) :
    t.RecordedBut branch :=
  fun hopen b _ => h hopen b

theorem Trans.Recorded.of_final (h : 200 ≤ t.uasStatus) :
    t.Recorded :=
  fun hopen => absurd hopen (Nat.not_lt.mpr h)

theorem Trans.RecordedBut.quiet
    (h : t.RecordedBut branch) (hq : Quiet t t') : t'.RecordedBut branch := by
  intro hopen b hb
  have hopen' : t.uasStatus < 200 := by
    by_contra hfin
    exact Nat.not_lt.mpr (hq.status (Nat.le_of_not_lt hfin)) hopen
  by_cases hold : b < t.nrOfOutgoings
  · exact (h hopen' b hb).congr (hq.old b hold)
  · exact .of_open (by rw [hq.new b (Nat.le_of_not_lt hold)]; decide)

theorem Trans.RecordedBut.recorded (h : t.RecordedBut branch) (hb : (t.branch branch).Recorded) :
    t.Recorded := by
  intro hopen b
  by_cases heq : b = branch
  · exact heq ▸ hb
  · exact h hopen b heq

theorem Trans.Recorded.quiet (h : t.Recorded) (hq : Quiet t t') : t'.Recorded := by
  intro hopen b
  exact ((h.but (b + 1)).quiet hq) hopen b (Nat.ne_of_lt (Nat.lt_succ_self b))

theorem Trans.Recorded.lockOp (h : t.Recorded) (op : LockOp) : (t.lockOp op).Recorded :=
  h.quiet (.of_uac rfl id)

theorem Trans.Recorded.setBranch (h : t.Recorded) (branch : ℕ)
    (f : Uac → Uac) : (t.setBranch branch f).RecordedBut branch := by
  intro hopen b hb
  rw [branch_setBranch, if_neg fun hc => hb hc.1]
  exact h hopen b

/-! ## The decision -/

/-- What the decision on a reply with `newCode` means for the records. -/
inductive Decision.Records (d : Decision) (branch newCode : ℕ) : Prop
  | store (hstore : d.shouldStore = true) (hrelay : d.shouldRelay = -1)
      (hcode : 302 < newCode) (h : d.t.RecordedBut branch)
      (hlast : branch < d.t.nrOfOutgoings →
        (d.t.branch branch).lastReceived = newCode)
  | drop (hstore : d.shouldStore = false) (hrelay : d.shouldRelay = -1)
      (h : d.t.Recorded)
  | provisional (hstore : d.shouldStore = false)
      (hrelay : d.shouldRelay = branch) (hcode : newCode < 200)
      (h : ∀ b, (d.t.branch b).Recorded)
  | own (hstore : d.shouldStore = false) (hrelay : d.shouldRelay = branch)
      (hcode : 200 ≤ newCode)
  | other (p : ℕ) (hstore : d.shouldStore = false)
      (hrelay : d.shouldRelay = p) (hne : p ≠ branch)
      (hcode : 200 ≤ newCode) (hfinal : 200 ≤ (d.t.branch p).lastReceived)
      (h : (d.t.branch p).Stored)

/-- The branch chosen for relaying, with the reply at hand on `branch`. -/
structure Trans.Relays (t : Trans) (branch p : ℕ) : Prop where
  carries : p = branch ∨ (t.branch p).request = true
  final : 200 ≤ (t.branch p).lastReceived
  lowest : ∀ b, (t.branch b).request = true →
    200 ≤ (t.branch b).lastReceived ∧
      (t.branch p).lastReceived ≤ (t.branch b).lastReceived
  stored : p = branch ∨ (t.branch p).Stored

/-- The branch picked for a negative reply, in the transaction as the failure
handlers leave it. -/
theorem Trans.Recorded.picked (h : t.Recorded) (hopen : t.uasStatus < 200) (hcode : 302 < newCode)
    (hb : branch < t.nrOfOutgoings)
    (hq : Quiet (t.setLastReceived branch newCode) t')
    (hcount : t'.nrOfOutgoings ≤ t.nrOfOutgoings)
    (h2 : (tPickBranch branch newCode (t.setLastReceived branch newCode)).1 ≠ -2)
    (h1 : (tPickBranch branch newCode (t.setLastReceived branch newCode)).1 ≠ -1) :
    ∃ p < t'.nrOfOutgoings, (tPickBranch branch newCode (t.setLastReceived branch newCode)).1 = p ∧
      (p = branch → (t'.branch p).lastReceived = newCode) ∧
      t'.Relays branch p := by
  have hcount' : t'.nrOfOutgoings = t.nrOfOutgoings := by
    refine Nat.le_antisymm hcount ?_
    simpa [setLastReceived] using hq.count
  have hself : ((t.setLastReceived branch newCode).branch branch).lastReceived = newCode := by
    simp [setLastReceived, branch_setBranch, hb]
  have hrec : ∀ b < t.nrOfOutgoings, (t'.branch b).record =
      ((t.setLastReceived branch newCode).branch b).record := by
    intro b hlt
    exact hq.old b (by simpa [setLastReceived] using hlt)
  have hlast : ∀ b < t.nrOfOutgoings, (t'.branch b).lastReceived =
      ((t.setLastReceived branch newCode).branch b).lastReceived :=
    fun b hlt => congrArg Prod.fst (hrec b hlt)
  have hreq : ∀ b < t.nrOfOutgoings, (t'.branch b).request =
      ((t.setLastReceived branch newCode).branch b).request :=
    fun b hlt => congrArg (fun r => r.2.1) (hrec b hlt)
  obtain ⟨p, s, hp, hlt, hs, hle, hcase, hlowest⟩ :=
    tPickBranch_picked h2 h1 (by simpa [setLastReceived] using hb)
  have hltp : p < t.nrOfOutgoings := by
    simpa [setLastReceived] using hlt
  have hcode' : (t'.branch p).lastReceived = s := by
    rw [hlast p hltp]
    rcases hcase with ⟨rfl, rfl⟩ | ⟨hne, hcarries, hfinal, rfl⟩
    · exact hself
    · rfl
  refine ⟨p, hcount' ▸ hltp, hp, ?_, ?_, ?_, ?_, ?_⟩
  · rintro rfl
    rw [hlast p hltp, hself]
  · rcases hcase with ⟨rfl, rfl⟩ | ⟨hne, hcarries, hfinal, rfl⟩
    · exact .inl rfl
    · exact .inr (hreq p hltp ▸ hcarries)
  · rw [hcode']
    rcases hcase with ⟨rfl, rfl⟩ | ⟨hne, hcarries, hfinal, rfl⟩
    · omega
    · exact hfinal
  · intro b hcarries
    have hltb : b < t.nrOfOutgoings := by
      by_contra hge
      rw [branch_of_le t' (hcount' ▸ Nat.le_of_not_lt hge)] at hcarries
      cases hcarries
    rw [hcode', hlast b hltb]
    by_cases heq : b = branch
    · subst heq
      rw [hself]
      exact ⟨by omega, hle⟩
    · exact hlowest b heq (hreq b hltb ▸ hcarries)
  · rcases hcase with ⟨rfl, rfl⟩ | ⟨hne, hcarries, hfinal, rfl⟩
    · exact .inl rfl
    · right
      have hother : (t.setLastReceived branch newCode).branch p =
          t.branch p := by
        rw [setLastReceived, branch_setBranch, if_neg fun hc => hne hc.1]
      rw [hother] at hfinal hs
      have hkept := (((h hopen p).congr (u := t.branch p) (v := t'.branch p)
        ((hrec p hltp).trans (congrArg Uac.record hother))))
      rw [← hother, ← hlast p hltp] at hfinal hs
      exact (hkept hfinal hs).2

theorem tShouldRelayResponse_records (prm : Params) (e : RelayEnv)
     (newCode : ℕ) (bm : Bitmap) (h : t.Recorded)
    (hb : branch < t.nrOfOutgoings) :
    (tShouldRelayResponse prm e t newCode branch bm).Records branch
      newCode := by
  have hreceived : (t.setLastReceived branch newCode).RecordedBut branch :=
    h.setBranch branch _
  have hself : ((t.setLastReceived branch newCode).branch branch).lastReceived = newCode := by
    simp [setLastReceived, branch_setBranch, hb]
  apply tShouldRelayResponse_cases (P := fun d => d.Records branch newCode)
  · exact .drop rfl rfl h
  · intro hfinal hthru
    have hcode : 200 ≤ newCode := by
      simp only [invThrough, Bool.and_eq_true, decide_eq_true_eq] at hthru
      exact hthru.1.1
    exact .own rfl rfl hcode
  · intro hopen hneg
    have hran : ∀ t', (t' = t.setLastReceived branch newCode ∨
        t' = runFailureHandlers prm e.handlers e.onNegative (t.setLastReceived branch newCode)) →
        Quiet (t.setLastReceived branch newCode) t' := by
      rintro t' (rfl | rfl)
      · exact .refl _
      · exact Quiet.runFailureHandlers prm e.handlers e.onNegative _
    apply negativeResponse_cases (P := fun d => d.Records branch newCode)
    · intro hnone
      refine .drop rfl rfl (hreceived.recorded ?_)
      intro _ hlow
      rw [hself] at hlow
      have := tPickBranch_none hnone (by simpa [setLastReceived] using hb)
      omega
    · intro t' ht'
      refine .store rfl rfl hneg (hreceived.quiet (hran t' ht')) ?_
      intro _
      have hrec := (hran t' ht').old branch (by simpa [setLastReceived] using hb)
      exact (congrArg Prod.fst hrec).trans hself
    · intro t' ht' hfinal
      exact .drop rfl rfl (.of_final hfinal)
    · intro t' ht' hopen' hcount h2 h1
      obtain ⟨p, hp, hpick, hown, hrelays⟩ :=
        h.picked hopen hneg hb (hran t' ht') hcount h2 h1
      by_cases heq : p = branch
      · exact .own rfl (hpick.trans (congrArg _ heq)) (by omega)
      · exact .other p rfl hpick heq (by omega) hrelays.final (hrelays.stored.resolve_left heq)
  · intro hopen hlow hhigh
    exact .own rfl rfl hlow
  · intro hopen hprov
    have hrec : (t.setLastReceived branch newCode).Recorded :=
      hreceived.recorded (.of_open (hself.trans_lt hprov))
    by_cases h100 : newCode = 100
    · exact .drop rfl (if_pos h100) hrec
    · exact .provisional rfl (if_neg h100) hprov (hrec hopen)

/-! ## Carrying the decision out -/

/-- The reply at hand is stored or relayed, or a 500 is built in its place. -/
def RelayEnv.Keeps (e : RelayEnv) (pMsg : Rpl) : Prop :=
  ((pMsg = .faked ∨ e.stored = true) ∧ e.Sends) ∨ e.error.built = true

theorem replyLight_final (prm : Params) {e : LightEnv}
    (hbuilt : e.built = true) (hcode : 200 ≤ code) (lock : Bool)
    (t : Trans) : 200 ≤ (replyLight prm e code lock t).uasStatus := by
  have hb : ¬ e.built = false := by simp [hbuilt]
  simp only [replyLight, if_neg hb, if_pos hcode]
  generalize (if (t.lockOpIf lock .lock).isInvite = true then
      whichCancel prm ∅ (t.lockOpIf lock .lock)
    else (∅, t.lockOpIf lock .lock)) = w
  by_cases hs : 200 ≤ w.2.uasStatus
  · rw [if_pos hs]
    cases lock <;> exact hs
  · rw [if_neg hs]
    split <;> cases lock <;> exact hcode

theorem relayError_final (prm : Params) (hbuilt : e.error.built = true) (bm : Bitmap) (t : Trans) :
    200 ≤ (relayError prm e bm t).uasStatus := by
  have hfinal := replyLight_final prm hbuilt (by decide : 200 ≤ 500) false t
  simp only [relayError]
  split <;> exact hfinal

theorem Trans.RecordedBut.stored {t : Trans} {branch newCode : ℕ}
    {pMsg : Rpl} (h : t.RecordedBut branch) (hcode : 302 < newCode)
    (hlast : branch < t.nrOfOutgoings → (t.branch branch).lastReceived = newCode)
    (hmsg : pMsg = .faked ∨ pMsg = .msg newCode) :
    (t.setBranch branch fun u => { u with reply := some pMsg }).Recorded := by
  have hbut : (t.setBranch branch fun u =>
      { u with reply := some pMsg }).RecordedBut branch := by
    intro hopen b hb
    rw [branch_setBranch, if_neg fun hc => hb hc.1]
    exact h hopen b hb
  apply hbut.recorded
  by_cases hb : branch < t.nrOfOutgoings
  · rw [branch_setBranch, if_pos ⟨rfl, hb⟩]
    intro _ _
    refine ⟨(hlast hb).symm ▸ hcode, ?_⟩
    rcases hmsg with rfl | rfl
    · exact .inl rfl
    · exact .inr (by simp [hlast hb])
  · rw [branch_setBranch, if_neg fun hc => hb hc.2,
      branch_of_le t (Nat.le_of_not_lt hb)]
    exact .of_open (by decide)

theorem relayedCode_other {m : Rpl}
    {p msgStatus : ℕ} (hne : p ≠ branch)
    (hstored : (t.branch p).Stored)
    (hm : relayedMsg pMsg t branch p = some m) :
    relayedCode m t branch msgStatus p = (t.branch p).lastReceived := by
  have hne' : ¬ ((branch : ℤ) = (p : ℕ)) := by omega
  rw [relayedMsg, if_neg hne', Int.toNat_natCast] at hm
  rcases hstored with hr | hr
  · obtain rfl : Rpl.faked = m := Option.some.inj (hr.symm.trans hm)
    rw [relayedCode, if_neg hne', Int.toNat_natCast]
  · obtain rfl : Rpl.msg _ = m := Option.some.inj (hr.symm.trans hm)
    rfl

/-- What goes upstream leaves the records complete. -/
theorem Decision.Records.relayed
    {m : Rpl} (h : d.Records branch newCode)
    (hmsg : pMsg = .faked ∨ pMsg = .msg newCode)
    (hrelay : 0 ≤ d.shouldRelay)
    (hm : relayedMsg pMsg d.t branch d.shouldRelay = some m)
    (huac : t'.uac = d.t.uac)
    (hstatus : t'.uasStatus = relayedCode m d.t branch newCode d.shouldRelay) : t'.Recorded := by
  cases h with
  | store hstore hr hcode h hlast => exact absurd hrelay (hr ▸ unset_relay)
  | drop hstore hr h => exact absurd hrelay (hr ▸ unset_relay)
  | provisional hstore hr hcode h =>
    intro _ b
    simpa only [Trans.branch, huac] using h b
  | own hstore hr hcode =>
    rw [hr] at hm hstatus
    exact .of_final (by
      rw [hstatus, relayedCode_self hmsg hm]
      exact hcode)
  | other p hstore hr hne hcode hfinal h =>
    rw [hr] at hm hstatus
    exact .of_final (by
      rw [hstatus, relayedCode_other hne h hm]
      exact hfinal)

/-- A reply that could not be relayed is replaced by a 500, or it was
provisional. -/
theorem Decision.Records.failed (bm : Bitmap)
    (h : d.Records branch newCode) (hrelay : 0 ≤ d.shouldRelay)
    (hkeeps : newCode < 200 ∨ e.error.built = true) :
    (relayError prm e bm d.t).Recorded := by
  rcases hkeeps with hprov | hbuilt
  · have hrec : d.t.Recorded := by
      cases h with
      | store hstore hr hcode h hlast =>
        exact absurd hrelay (hr ▸ unset_relay)
      | drop hstore hr h => exact h
      | provisional hstore hr hcode h => exact fun _ => h
      | own hstore hr hcode => omega
      | other p hstore hr hne hcode hfinal h => omega
    exact hrec.quiet (.relayError prm e bm d.t)
  · exact .of_final (relayError_final prm hbuilt bm d.t)

theorem Decision.Records.stored {d : Decision} {branch newCode : ℕ}
    {stored : Bool} {pMsg : Rpl} {t : Trans} (h : d.Records branch newCode)
    (hmsg : pMsg = .faked ∨ pMsg = .msg newCode)
    (hrelay : ¬ 0 ≤ d.shouldRelay)
    (hst : (if d.shouldStore then storeReply stored branch pMsg d.t
      else some d.t) = some t) : t.Recorded := by
  cases h with
  | store hstore hr hcode h hlast =>
    rw [hstore, if_pos rfl, storeReply] at hst
    split at hst
    · obtain rfl := Option.some.inj hst
      exact h.stored hcode hlast hmsg
    · cases hst
  | drop hstore hr h =>
    rw [hstore] at hst
    obtain rfl := Option.some.inj hst
    exact h
  | provisional hstore hr hcode h =>
    exact absurd (hr ▸ Int.natCast_nonneg branch) hrelay
  | own hstore hr hcode =>
    exact absurd (hr ▸ Int.natCast_nonneg branch) hrelay
  | other p hstore hr hne hcode hfinal h =>
    exact absurd (hr ▸ Int.natCast_nonneg p) hrelay

/-- Only a message that cannot be cloned is not stored. -/
theorem Decision.Records.lost
    {stored : Bool} (h : d.Records branch newCode)
    (hst : (if d.shouldStore then storeReply stored branch pMsg d.t
      else some d.t) = none) :
    200 ≤ newCode ∧ ¬ (pMsg = .faked ∨ stored = true) := by
  cases h with
  | store hstore hr hcode h hlast =>
    rw [hstore, if_pos rfl, storeReply] at hst
    split at hst
    · cases hst
    · rename_i hlost
      exact ⟨by omega, hlost⟩
  | drop hstore | provisional hstore | own hstore | other _ hstore =>
    rw [hstore] at hst
    cases hst

theorem Decision.Records.store_of_relay (h : d.Records branch newCode)
    (hrelay : 0 ≤ d.shouldRelay) : d.shouldStore = false := by
  cases h with
  | store hstore hr => exact absurd hrelay (hr ▸ unset_relay)
  | drop hstore | provisional hstore | own hstore | other _ hstore =>
    exact hstore

theorem relayReply_recorded
     {bm bm' : Bitmap} {st : Rps}
    (h : t.Recorded) (hb : branch < t.nrOfOutgoings)
    (hmsg : pMsg = .faked ∨ pMsg = .msg code)
    (hkeeps : 200 ≤ code → e.Keeps pMsg)
    (hr : relayReply prm e t pMsg branch code bm = .ok (st, bm', t')) :
    t'.Recorded := by
  have hrecords := tShouldRelayResponse_records prm e code bm (h.lockOp .enter) hb
  revert hr
  simp only [relayReply]
  generalize tShouldRelayResponse prm e (t.lockOp .enter) code branch bm = d at hrecords ⊢
  intro hr
  cases hst : (if d.shouldStore then storeReply e.stored branch pMsg d.t
      else some d.t) with
  | none =>
    rw [hst] at hr
    cases hr
    obtain ⟨hcode, hlost⟩ := hrecords.lost hst
    rcases hkeeps hcode with hkept | hbuilt
    · exact absurd hkept.1 hlost
    · exact .of_final (relayError_final prm hbuilt _ _)
  | some u =>
    rw [hst] at hr
    by_cases hrelay : 0 ≤ d.shouldRelay
    · have hstore := hrecords.store_of_relay hrelay
      obtain rfl : u = d.t := storeReply_relay hstore hst
      simp only [if_pos hrelay, hstore, Bool.false_eq_true, if_false] at hr
      cases hm : relayedMsg pMsg d.t branch d.shouldRelay with
      | none =>
        rw [hm] at hr
        cases hr
      | some m =>
        rw [hm] at hr
        by_cases hsends : e.built = false ∨ e.resized = false
        · simp only [if_pos hsends] at hr
          cases hr
          refine hrecords.failed _ hrelay ?_
          by_cases hcode : code < 200
          · exact .inl hcode
          · rcases hkeeps (Nat.le_of_not_lt hcode) with hkept | hbuilt
            · have hsent := hkept.2
              simp [hsent.1, hsent.2] at hsends
            · exact .inr hbuilt
        · simp only [if_neg hsends] at hr
          cases hr
          exact hrecords.relayed hmsg hrelay hm rfl rfl
    · simp only [if_neg hrelay] at hr
      cases hr
      exact (hrecords.stored hmsg hrelay hst).quiet (.of_uac rfl id)

/-- A reply to a local transaction is stored or becomes its final answer. -/
theorem localReply_recorded
     {bm' : Bitmap} {st : Rps}
    (h : t.Recorded) (hb : branch < t.nrOfOutgoings)
    (hmsg : pMsg = .faked ∨ pMsg = .msg code)
    (hkeeps : 200 ≤ code → pMsg = .faked ∨ e.stored = true)
    (hr : localReply prm e t pMsg branch code = .ok (st, bm', t')) :
    t'.Recorded := by
  have hrecords := tShouldRelayResponse_records prm e code ∅ (h.lockOp .enter) hb
  revert hr
  simp only [localReply]
  generalize tShouldRelayResponse prm e (t.lockOp .enter) code branch ∅ = d at hrecords ⊢
  intro hr
  cases hst : (if d.shouldStore then storeReply e.stored branch pMsg d.t
      else some d.t) with
  | none =>
    obtain ⟨hcode, hlost⟩ := hrecords.lost hst
    exact absurd (hkeeps hcode) hlost
  | some u =>
    rw [hst] at hr
    by_cases hrelay : 0 ≤ d.shouldRelay
    · have hstore := hrecords.store_of_relay hrelay
      obtain rfl : u = d.t := storeReply_relay hstore hst
      simp only [if_pos hrelay] at hr
      cases hm : relayedMsg pMsg d.t branch d.shouldRelay with
      | none =>
        rw [hm] at hr
        cases hr
      | some m =>
        rw [hm] at hr
        cases hr
        exact hrecords.relayed hmsg hrelay hm rfl rfl
    · simp only [if_neg hrelay] at hr
      cases hr
      exact (hrecords.stored hmsg hrelay hst).quiet (.of_uac rfl id)

/-! ## Runs -/

theorem replyReceived_recorded
    {cseqCancel : Bool} (h : t.Recorded)
    (hb : branch < t.nrOfOutgoings)
    (hkeeps : 200 ≤ code → if t.isLocal then e.stored = true
      else e.Keeps (.msg code))
    (hr : replyReceived prm e cseqCancel branch code t = .ok t') :
    t'.Recorded := by
  simp only [replyReceived] at hr
  split at hr
  · cases hr
    exact h
  · obtain ⟨⟨st, bm, u⟩, hu, rfl⟩ := exceptMap_ok hr
    have hrec : u.Recorded := by
      by_cases hloc : t.isLocal
      · rw [if_pos hloc] at hu
        refine localReply_recorded (h.lockOp .lock) hb (.inr rfl) ?_ hu
        intro hcode
        simpa [hloc] using hkeeps hcode
      · rw [if_neg hloc] at hu
        refine relayReply_recorded (h.lockOp .lock) hb (.inr rfl) ?_ hu
        intro hcode
        simpa [hloc] using hkeeps hcode
    simp only
    split
    · exact hrec.quiet (.cancelUacs bm u)
    · exact hrec

theorem fakeReplyRelay_recorded
    {doCancelBranch : Bool}
    (h : t.Recorded) (hb : branch < t.nrOfOutgoings)
    (hkeeps : t.isLocal = true ∨ e.Keeps .faked)
    (hr : fakeReplyRelay prm e doCancelBranch branch code t = .ok t') :
    t'.Recorded := by
  obtain ⟨⟨st, bm, u⟩, hu, rfl⟩ := exceptMap_ok hr
  have hrec : u.Recorded := by
    by_cases hloc : t.isLocal
    · rw [if_pos hloc] at hu
      exact localReply_recorded h hb (.inl rfl) (fun _ => .inl rfl) hu
    · rw [if_neg hloc] at hu
      exact relayReply_recorded h hb (.inl rfl) (fun _ => hkeeps.resolve_left hloc) hu
  simp only
  split
  · exact hrec.quiet (.of_uac rfl id)
  · exact hrec

theorem shouldCancelBranch_isLocal (prm : Params) (t : Trans) (b : ℕ) :
    (shouldCancelBranch prm t b).2.isLocal = t.isLocal := by
  simp only [shouldCancelBranch]
  split <;> rfl

theorem finalResponseHandler_recorded
    {activType : ActivType}
    (h : t.Recorded) (hb : branch < t.nrOfOutgoings)
    (hkeeps : t.isLocal = true ∨ e.Keeps .faked)
    (hr : finalResponseHandler prm e activType branch t = .ok t') :
    t'.Recorded := by
  have hlock : (t.lockOp .lock).Recorded := h.lockOp .lock
  cases activType with
  | localCancel | reply =>
    cases hr
    exact h
  | request =>
    simp only [finalResponseHandler] at hr
    split at hr
    · cases hr
      exact hlock.quiet (.of_uac rfl id)
    · simp only [fakeReply] at hr
      split at hr
      · have hq := Quiet.shouldCancelBranch prm (t.lockOp .lock) branch
        refine fakeReplyRelay_recorded (hlock.quiet hq) (hb.trans_le hq.count) ?_ hr
        rw [shouldCancelBranch_isLocal]
        exact hkeeps
      · exact fakeReplyRelay_recorded hlock hb hkeeps hr

theorem e2eCancelRound_recorded
    {tmpBm : Bitmap} {failed : Bool}
    (h : t.Recorded) (hb : branch < t.nrOfOutgoings)
    (hkeeps : e.Keeps .faked)
    (hr : e2eCancelRound prm e tmpBm branch t = .ok (failed, t')) :
    t'.Recorded := by
  simp only [e2eCancelRound] at hr
  split at hr
  · obtain ⟨⟨st, bm, u⟩, hu, heq⟩ := exceptMap_ok hr
    obtain rfl : u = t' := congrArg Prod.snd heq
    exact relayReply_recorded (h.lockOp .lock) hb (.inl rfl) (fun _ => hkeeps) hu
  · cases hr
    exact h

/-- No final reply is lost in the step: it is stored or relayed, or a 500 is
built in its place. -/
def keepsReplies (ev : Event) (s : Engine) : Prop :=
  match ev with
  | .reply _ code _ e =>
    200 ≤ code → if s.t.isLocal then e.stored = true else e.Keeps (.msg code)
  | .finalResponse _ _ e | .retrRelay _ _ e =>
    s.t.isLocal = true ∨ e.Keeps .faked
  | .e2eRound _ _ e => e.Keeps .faked
  | _ => True

theorem Engine.step_recorded {ev : Event} {s s' : Engine}
    (h : s.t.Recorded) (hev : keepsReplies ev s)
    (hstep : s.step prm ev = some s') : s'.t.Recorded := by
  cases ev with
  | reply branch code cseqCancel e =>
    simp only [step] at hstep
    split at hstep
    · rename_i hb
      obtain ⟨t, hr, rfl⟩ := section_some hstep
      exact replyReceived_recorded h hb hev hr
    · cases hstep
  | finalResponse branch activType e =>
    simp only [step] at hstep
    split at hstep
    · rename_i hb
      obtain ⟨t, hr, rfl⟩ := section_some hstep
      exact finalResponseHandler_recorded h hb hev hr
    · cases hstep
  | answer code e =>
    cases hstep
    exact h.quiet (.replyLight prm e code true s.t)
  | addUac request =>
    cases hstep
    exact h.quiet (.addUac request s.t)
  | onFailure installed =>
    cases hstep
    exact h.quiet (.of_uac rfl id)
  | test who branch =>
    simp only [step] at hstep
    split at hstep
    · cases hstep
      exact h
    · cases hstep
  | mark who branch =>
    simp only [step] at hstep
    split at hstep
    · cases hstep
      cases who <;>
        exact h.quiet (.setBranch (f := Uac.mark) (fun _ => rfl) s.t branch)
    · cases hstep
  | e2eCancelBranch branch printed =>
    simp only [step] at hstep
    split at hstep
    · cases hstep
      exact h
    · cases hstep
  | e2eRound branch tmpBm e =>
    simp only [step] at hstep
    split at hstep
    · rename_i hb
      obtain ⟨t, hr, rfl⟩ := section_some hstep
      obtain ⟨⟨failed, u⟩, hround, rfl⟩ := exceptMap_ok hr
      exact e2eCancelRound_recorded h hb hev hround
    · cases hstep
  | retrRelay doCancelBranch branch e =>
    simp only [step] at hstep
    split at hstep
    · rename_i hb
      obtain ⟨t, hr, rfl⟩ := section_some hstep
      exact fakeReplyRelay_recorded h hb.1 hev hr
    · cases hstep
  | cancelTest branch =>
    simp only [step] at hstep
    split at hstep
    · cases hstep
      exact h.quiet (.of_uac rfl id)
    · cases hstep
  | cancelBuild branch built =>
    simp only [step] at hstep
    split at hstep
    · cases hstep
      cases built
      · exact h
      · exact h.quiet (.setBranch (f := Uac.install) (fun _ => rfl) s.t branch)
    · cases hstep
  | fifoCancel =>
    cases hstep
    exact h.quiet (.cancelUacs _ s.t)

theorem engine_recorded {s : Engine}
    (h : (engine prm).ReachWhen keepsReplies s) : s.t.Recorded := by
  apply h.invariant fun s => s.t.Recorded
  · intro s hs _ b
    rw [branch_of_le s.t (by simp [nrOfOutgoings, hs.uac])]
    exact .of_open (by decide)
  · intro ev s s' hs hev hstep
    exact step_recorded hs hev hstep

/-- The transaction as it is handed to `t_should_relay_response` for a branch:
`fake_reply` may have marked the branch before. -/
def Engine.Enters (prm : Params) (s : Engine) (branch : ℕ) (t : Trans) :
    Prop :=
  ∃ ops, t = { s.t with locks := ops } ∨
    t = { (shouldCancelBranch prm s.t branch).2 with locks := ops }

theorem Trans.Relays.message {p : ℕ} (h : t.Relays branch p) (hown : p = branch →
      (t.branch p).lastReceived = code)
    (hmsg : pMsg = .faked ∨ pMsg = .msg code) :
    ∃ m, relayedMsg pMsg t branch p = some m ∧
      relayedCode m t branch code p = (t.branch p).lastReceived := by
  by_cases hne : p = branch
  · subst hne
    have hm : relayedMsg pMsg t p p = some pMsg := by simp [relayedMsg]
    exact ⟨pMsg, hm, (relayedCode_self hmsg hm).trans (hown rfl).symm⟩
  · have hstored := h.stored.resolve_left hne
    have hother : relayedMsg pMsg t branch p = (t.branch p).reply := by
      rw [relayedMsg, if_neg (by omega), Int.toNat_natCast]
    have hreply : ∃ m, (t.branch p).reply = some m := by
      rcases hstored with hr | hr <;> exact ⟨_, hr⟩
    obtain ⟨m, hm⟩ := hreply
    exact ⟨m, hother.trans hm, relayedCode_other hne hstored (hother.trans hm)⟩

theorem Trans.Recorded.completed (h : t.Recorded) (hcode : 302 < code)
    (hb : branch < t.nrOfOutgoings) {bm : Bitmap}
    (hd : d = tShouldRelayResponse prm e t code branch bm)
    (hdone : d.status = .completed) :
    (200 ≤ d.t.uasStatus ∧ d.shouldRelay = -1) ∨ ∃ p < d.t.nrOfOutgoings, d.shouldRelay = p ∧
        (p = branch → (d.t.branch p).lastReceived = code) ∧
        d.t.Relays branch p := by
  revert hdone
  rw [hd]
  apply tShouldRelayResponse_cases (P := fun d => d.status = .completed →
    (200 ≤ d.t.uasStatus ∧ d.shouldRelay = -1) ∨ ∃ p < d.t.nrOfOutgoings, d.shouldRelay = p ∧
        (p = branch → (d.t.branch p).lastReceived = code) ∧
        d.t.Relays branch p)
  · exact fun hdone => Rps.noConfusion hdone
  · exact fun _ _ hdone => Rps.noConfusion hdone
  · intro hopen hneg
    have hran : ∀ t', (t' = t.setLastReceived branch code ∨
        t' = runFailureHandlers prm e.handlers e.onNegative (t.setLastReceived branch code)) →
        Quiet (t.setLastReceived branch code) t' := by
      rintro t' (rfl | rfl)
      · exact .refl _
      · exact Quiet.runFailureHandlers prm e.handlers e.onNegative _
    apply negativeResponse_cases (P := fun d => d.status = .completed →
      (200 ≤ d.t.uasStatus ∧ d.shouldRelay = -1) ∨ ∃ p < d.t.nrOfOutgoings, d.shouldRelay = p ∧
          (p = branch → (d.t.branch p).lastReceived = code) ∧
          d.t.Relays branch p)
    · exact fun _ hdone => Rps.noConfusion hdone
    · exact fun _ _ hdone => Rps.noConfusion hdone
    · exact fun t' _ hfinal _ => .inl ⟨hfinal, rfl⟩
    · exact fun t' ht' _ hcount h2 h1 _ =>
        .inr (h.picked hopen hneg hb (hran t' ht') hcount h2 h1)
  · intro _ _ hhigh
    omega
  · exact fun _ _ hdone => Rps.noConfusion hdone

/-- In a run that loses no final reply, a reply above 302 completes the
transaction only when a failure handler has answered it, or with the branch
that has the lowest code, all branches with a request being final; the reply
of that branch is at hand or stored, and its code is the one on record. -/
theorem completed_relays_lowest (prm : Params) {s : Engine}
    (h : (engine prm).ReachWhen keepsReplies s) (e : RelayEnv)
    {code branch : ℕ} (hcode : 302 < code)
    (hb : branch < s.t.nrOfOutgoings) (bm : Bitmap) {t : Trans}
    (ht : s.Enters prm branch t) {d : Decision}
    (hd : d = tShouldRelayResponse prm e t code branch bm)
    (hdone : d.status = .completed) :
    (200 ≤ d.t.uasStatus ∧ d.shouldRelay = -1) ∨
      ∃ p < d.t.nrOfOutgoings, d.shouldRelay = p ∧ d.t.Relays branch p ∧
        ∀ pMsg, (pMsg = .faked ∨ pMsg = .msg code) →
          ∃ m, relayedMsg pMsg d.t branch d.shouldRelay = some m ∧
            relayedCode m d.t branch code d.shouldRelay = (d.t.branch p).lastReceived := by
  have hquiet : Quiet s.t t := by
    obtain ⟨ops, rfl | rfl⟩ := ht
    · exact .of_uac rfl id
    · exact (Quiet.shouldCancelBranch prm s.t branch).trans (.of_uac rfl id)
  have hrec : t.Recorded := (engine_recorded h).quiet hquiet
  rcases hrec.completed hcode (hb.trans_le hquiet.count) hd hdone with
    hans | ⟨p, hp, hrelay, hown, hrelays⟩
  · exact .inl hans
  · refine .inr ⟨p, hp, hrelay, hrelays, ?_⟩
    intro pMsg hmsg
    rw [hrelay]
    exact hrelays.message hown hmsg

/-- One of two branches is rejected by a 480, the other one rings. -/
def rejectedRun : List Event :=
  [.addUac true, .addUac true, .reply 0 480 false {}, .reply 1 180 false {}]

theorem completed_relays_lowest_rejected :
    ∃ s, (engine {}).run (newEngine true false) rejectedRun = some s ∧
      ∃ p : ℕ, (tShouldRelayResponse {} {} s.t 486 1 ∅).shouldRelay = p ∧
        (tShouldRelayResponse {} {} s.t 486 1 ∅).t.Relays 1 p := by
  have hadmits : (engine {}).Admits keepsReplies (newEngine true false)
      rejectedRun := by
    exact .cons trivial rfl <| .cons trivial rfl <| .cons (fun _ => .inr rfl) rfl <|
      ⟨fun _ => .inr rfl, fun _ _ => trivial⟩
  have hstart : (engine {}).ReachWhen keepsReplies (newEngine true false) :=
    .init (newEngine_fresh true false)
  have hmain : ∀ s, (engine {}).ReachWhen keepsReplies s → 1 < s.t.nrOfOutgoings →
      (tShouldRelayResponse {} {} s.t 486 1 ∅).status = .completed → _ :=
    fun s hs hb hdone => completed_relays_lowest {} hs {}
      (by decide : 302 < 486) hb ∅ ⟨s.t.locks, .inl rfl⟩ rfl hdone
  refine ⟨_, rfl, ?_⟩
  have hcases := hmain _ (hstart.run hadmits rfl) (by decide) rfl
  obtain ⟨p, hp, hrelay, hrelays, hmsg⟩ := hcases.resolve_left (by decide)
  exact ⟨p, hrelay, hrelays⟩

/-- A 301 on one branch completes the transaction while the other one, with a
request, is open. -/
theorem redirect_completes_open :
    ∃ s, (engine {}).run (newEngine true false) [.addUac true, .addUac true] = some s ∧
      (tShouldRelayResponse {} {} s.t 301 1 ∅).status = .completed ∧
      (tShouldRelayResponse {} {} s.t 301 1 ∅).shouldRelay = 1 ∧
      s.t.upstream = [] ∧
      ((tShouldRelayResponse {} {} s.t 301 1 ∅).t.branch 0).request = true ∧
      ((tShouldRelayResponse {} {} s.t 301 1 ∅).t.branch 0).lastReceived <
        200 := by
  refine ⟨_, rfl, rfl, rfl, rfl, rfl, ?_⟩
  decide

end Msicp.Tm
