import Msicp.Tm.ReplyMoves
import Mathlib.Data.Finset.SDiff

/-!
# The reply lock

`relay_reply` and `local_reply` expect the reply lock from their callers and
release it themselves.  The operations on the lock along every path of the
callers are run through a small automaton; a path that leaves the automaton
breaks the discipline.
-/

namespace Msicp.Tm

/-! ## The discipline -/

/-- Where a process is with respect to the reply lock of a transaction: without
it, holding it, or holding it inside `relay_reply` or `local_reply`. -/
inductive LockState
  | free
  | held
  | inside
  deriving DecidableEq, Repr

def LockState.next : LockState → LockOp → Option LockState
  | .free, .lock => some .held
  | .held, .enter => some .inside
  | .held, .unlock => some .free
  | .inside, .unlock => some .free
  | _, _ => none

/-- The state behind a list of operations; none when the lock is released or
`relay_reply` entered without it, or taken twice. -/
def LockState.run (s : LockState) (ops : List LockOp) : Option LockState :=
  ops.foldlM LockState.next s

theorem LockState.run_append (s : LockState) (ops ops' : List LockOp) :
    s.run (ops ++ ops') = (s.run ops).bind fun u => u.run ops' := by
  simp only [LockState.run, List.foldlM_append]
  rfl

/-- The operations of a call that came back leave the lock free; those of a
call that crashed break no rule. -/
def keepsDiscipline (r : Except Trans Trans) : Prop :=
  match r with
  | .ok t => LockState.free.run t.locks = some .free
  | .error t => (LockState.free.run t.locks).isSome

/-! ## What the functions do to the lock -/

variable (prm : Params) (e : RelayEnv)

@[simp] theorem whichCancel_locks (bm : Bitmap) (t : Trans) :
    (whichCancel prm bm t).2.locks = t.locks := by
  rw [whichCancel_uac]

theorem tReplyUnsafe_locks (e : LightEnv) (code : ℕ)
    (t : Trans) : (tReplyUnsafe prm e code t).locks = t.locks := by
  simp only [tReplyUnsafe, replyLight, cancelUacs]
  repeat' split
  all_goals simp [Trans.lockOpIf]

theorem tReply_locks (e : LightEnv) (code : ℕ) (t : Trans) :
    (tReply prm e code t).locks = t.locks ++ [.lock, .unlock] ∨
      (tReply prm e code t).locks = t.locks := by
  simp only [tReply, replyLight, cancelUacs]
  repeat' split
  all_goals simp [Trans.lockOpIf, Trans.lockOp]

@[simp] theorem runFailureHandlers_locks
    (actions : List HandlerAction) (onNegative : Bool) (t : Trans) :
    (runFailureHandlers prm actions onNegative t).locks = t.locks := by
  suffices hfold : ∀ (l : List HandlerAction) (t : Trans),
      (l.foldl (handlerAction prm) t).locks = t.locks by
    exact hfold _ _
  intro l
  induction l with
  | nil =>
    intro t
    rfl
  | cons a l ih =>
    intro t
    rw [List.foldl_cons, ih]
    cases a with
    | tReply code e => exact tReplyUnsafe_locks prm e code t
    | addUac request => rfl

/-- The decision is taken without touching the lock. -/
@[simp] theorem tShouldRelayResponse_locks (t : Trans) (newCode branch : ℕ) (bm : Bitmap) :
    (tShouldRelayResponse prm e t newCode branch bm).t.locks = t.locks := by
  have hrun : ∀ t', (t' = t.setLastReceived branch newCode ∨
      t' = runFailureHandlers prm e.handlers e.onNegative
        (t.setLastReceived branch newCode)) → t'.locks = t.locks := by
    rintro t' (rfl | rfl)
    · rfl
    · rw [runFailureHandlers_locks]
      rfl
  apply tShouldRelayResponse_rule (P := fun d => d.t.locks = t.locks)
  · rfl
  · intro hfinal hthru
    rfl
  · intro hneg
    apply negativeResponse_rule (P := fun d => d.t.locks = t.locks)
    · rfl
    · intro t' ht'
      exact hrun t' ht'
    · intro t' relay ht' hopen
      exact hrun t' ht'
  · intro hopen relay
    rw [whichCancel_locks]
    rfl
  · intro hopen relay
    rfl

theorem relayError_locks (bm : Bitmap)
    (t : Trans) : (relayError prm e bm t).locks = t.locks ++ [.unlock] := by
  simp only [relayError, cancelUacs]
  split <;> simp [Trans.lockOp, tReplyUnsafe_locks]

variable {t : Trans}

theorem storeReply_locks {stored : Bool} {branch : ℕ} {pMsg : Rpl}
    {d : Decision}
    (h : (if d.shouldStore then storeReply stored branch pMsg d.t
      else some d.t) = some t) : t.locks = d.t.locks := by
  simp only [storeReply] at h
  split at h
  · split at h
    · cases h
      rfl
    · cases h
  · cases h
    rfl

/-- The operations of one of the two: it is entered, and releases the lock
unless it crashes. -/
def releases (t : Trans) : Except Trans (Rps × Bitmap × Trans) → Prop
  | .ok r => r.2.2.locks = t.locks ++ [.enter, .unlock]
  | .error u => u.locks = t.locks ++ [.enter]

theorem relayReply_releases (t : Trans) (pMsg : Rpl) (branch msgStatus : ℕ) (bm : Bitmap) :
    releases t (relayReply prm e t pMsg branch msgStatus bm) := by
  have hdec := tShouldRelayResponse_locks prm e (t.lockOp .enter) msgStatus branch bm
  simp only [relayReply]
  generalize tShouldRelayResponse prm e (t.lockOp .enter) msgStatus branch bm = d at hdec ⊢
  have henter : d.t.locks = t.locks ++ [LockOp.enter] := hdec
  split
  · simp [releases, relayError_locks, henter]
  · rename_i u hstore
    have hu : u.locks = t.locks ++ [LockOp.enter] :=
      (storeReply_locks hstore).trans henter
    split
    · split
      · exact hu
      · split
        · simp only [releases, relayError_locks]
          split <;> simp [Trans.setBranch, hu]
        · simp [releases, hu]
    · simp [releases, Trans.lockOp, hu]

theorem localReply_releases (t : Trans) (pMsg : Rpl) (branch msgStatus : ℕ) :
    releases t (localReply prm e t pMsg branch msgStatus) := by
  have hdec := tShouldRelayResponse_locks prm e (t.lockOp .enter) msgStatus branch ∅
  simp only [localReply]
  generalize tShouldRelayResponse prm e (t.lockOp .enter) msgStatus branch ∅ = d at hdec ⊢
  have henter : d.t.locks = t.locks ++ [LockOp.enter] := hdec
  split
  · simp only [releases, cancelUacs]
    split <;> simp [Trans.lockOp, henter]
  · rename_i u hstore
    have hu : u.locks = t.locks ++ [LockOp.enter] :=
      (storeReply_locks hstore).trans henter
    split
    · split
      · exact hu
      · simp [releases, hu]
    · simp [releases, Trans.lockOp, hu]

/-! ## The callers -/

/-- One round of the loop of `e2e_cancel` over the branches of the INVITE, with
the state in which it finds the transaction. -/
structure Round where
  branch : ℕ
  tmpBm : Bitmap
  env : RelayEnv
  found : Trans

/-- How the calls of `e2e_cancel` go; `unprinted` are the branches for which
`e2e_cancel_branch` failed. -/
structure E2eEnv where
  unprinted : Bitmap
  rounds : List Round
  answer : LightEnv

/-- The rounds of `e2e_cancel`; says whether one of them failed. -/
def e2eCancelRounds (prm : Params) (cancelBm : Bitmap) :
    List Round → Trans → Except Trans (Bool × Trans)
  | [], tInvite => .ok (false, tInvite)
  | r :: rounds, tInvite =>
    if r.branch ∈ cancelBm then e2eCancelRounds prm cancelBm rounds tInvite
    else
      match e2eCancelRound prm r.env r.tmpBm r.branch
          { r.found with locks := tInvite.locks } with
      | .error t => .error t
      | .ok x =>
        (e2eCancelRounds prm cancelBm rounds x.2).map fun y =>
          (x.1 || y.1, y.2)

/-- `e2e_cancel`, on the transaction of the INVITE and that of the CANCEL. -/
def e2eCancel (prm : Params) (e : E2eEnv) (tCancel tInvite : Trans) :
    Except Trans (Trans × Trans) :=
  let w := whichCancel prm ∅ tInvite
  let failed := decide (w.1 ∩ e.unprinted ≠ ∅)
  (e2eCancelRounds prm (w.1 \ e.unprinted) e.rounds w.2).map fun x =>
    (x.2, tReply prm e.answer (if failed || x.1 then 500 else 200) tCancel)

/-- The calls into the reply engine. -/
inductive Call
  | replyReceived (e : RelayEnv) (cseqCancel : Bool) (branch msgStatus : ℕ)
  | e2eCancel (e : E2eEnv) (tCancel : Trans)
  | tReply (e : LightEnv) (code : ℕ)
  | finalResponse (e : RelayEnv) (activType : ActivType) (branch : ℕ)
  | retransmission (e : RelayEnv) (activType : ActivType) (sent : Bool)
      (branch : ℕ)

/-- A process without the lock makes the call. -/
def Trans.unlocked (t : Trans) : Trans :=
  { t with locks := [] }

/-- The call keeps the lock discipline on the transactions it works on. -/
def Call.Disciplined (prm : Params) (t : Trans) : Call → Prop
  | .replyReceived e cseqCancel branch msgStatus =>
    keepsDiscipline (Msicp.Tm.replyReceived prm e cseqCancel branch msgStatus t.unlocked)
  | .e2eCancel e tCancel =>
    match Msicp.Tm.e2eCancel prm e tCancel.unlocked t.unlocked with
    | .ok x => keepsDiscipline (.ok x.1) ∧ keepsDiscipline (.ok x.2)
    | .error u => keepsDiscipline (.error u)
  | .tReply e code =>
    keepsDiscipline (.ok (Msicp.Tm.tReply prm e code t.unlocked))
  | .finalResponse e activType branch =>
    keepsDiscipline (finalResponseHandler prm e activType branch t.unlocked)
  | .retransmission e activType sent branch =>
    keepsDiscipline (retransmissionHandler prm e activType sent branch t.unlocked)

/-- A request or a local CANCEL could not be sent again. -/
def Call.FailedRetransmission : Call → Prop
  | .retransmission _ activType sent _ =>
    activType ≠ .reply ∧ sent = false
  | _ => False

theorem releases_held {r : Except Trans (Rps × Bitmap × Trans)}
    (hr : releases t r) (ht : LockState.free.run t.locks = some .held)
    {f : Rps × Bitmap × Trans → Trans} (hf : ∀ x, (f x).locks = x.2.2.locks) :
    keepsDiscipline (r.map f) := by
  cases r with
  | ok x =>
    have hx : x.2.2.locks = t.locks ++ [LockOp.enter, .unlock] := hr
    show LockState.free.run (f x).locks = some .free
    rw [hf, hx, LockState.run_append, ht]
    rfl
  | error u =>
    have hu : u.locks = t.locks ++ [LockOp.enter] := hr
    show (LockState.free.run u.locks).isSome
    rw [hu, LockState.run_append, ht]
    rfl

theorem releases_free {r : Except Trans (Rps × Bitmap × Trans)}
    (hr : releases t r) (ht : LockState.free.run t.locks = some .free)
    {f : Rps × Bitmap × Trans → Trans} (hf : ∀ x, (f x).locks = x.2.2.locks) :
    ¬ keepsDiscipline (r.map f) := by
  cases r with
  | ok x =>
    have hx : x.2.2.locks = t.locks ++ [LockOp.enter, .unlock] := hr
    show ¬ LockState.free.run (f x).locks = some .free
    rw [hf, hx, LockState.run_append, ht]
    decide
  | error u =>
    have hu : u.locks = t.locks ++ [LockOp.enter] := hr
    show ¬ (LockState.free.run u.locks).isSome
    rw [hu, LockState.run_append, ht]
    decide

theorem run_lock (ht : LockState.free.run t.locks = some .free) :
    LockState.free.run (t.lockOp .lock).locks = some .held := by
  simp only [Trans.lockOp]
  rw [LockState.run_append, ht]
  rfl

theorem replyReceived_disciplined (cseqCancel : Bool) (branch msgStatus : ℕ)
    (ht : LockState.free.run t.locks = some .free) :
    keepsDiscipline (replyReceived prm e cseqCancel branch msgStatus t) := by
  simp only [replyReceived]
  split
  · exact ht
  · have hf : ∀ x : Rps × Bitmap × Trans,
        (if x.1 = .completed ∧ x.2.2.isInvite then cancelUacs x.2.1 x.2.2
          else x.2.2).locks = x.2.2.locks := by
      intro x
      split <;> rfl
    split
    · exact releases_held (localReply_releases _ _ _ _ _ _) (run_lock ht) hf
    · exact releases_held (relayReply_releases _ _ _ _ _ _ _) (run_lock ht) hf

theorem fakeReply_releases (branch code : ℕ)
    (t : Trans) : ∃ (u : Trans) (r : Except Trans (Rps × Bitmap × Trans))
      (f : Rps × Bitmap × Trans → Trans), u.locks = t.locks ∧
      releases u r ∧ (∀ x, (f x).locks = x.2.2.locks) ∧
      fakeReply prm e branch code t = r.map f := by
  have hrelay : ∀ (doCancelBranch : Bool) (v : Trans), v.locks = t.locks →
      ∃ (u : Trans) (r : Except Trans (Rps × Bitmap × Trans))
        (f : Rps × Bitmap × Trans → Trans), u.locks = t.locks ∧
        releases u r ∧ (∀ x, (f x).locks = x.2.2.locks) ∧
        fakeReplyRelay prm e doCancelBranch branch code v = r.map f := by
    intro doCancelBranch v hv
    refine ⟨v, _, _, hv, ?_, ?_, rfl⟩
    · split
      · exact localReply_releases _ _ _ _ _ _
      · exact relayReply_releases _ _ _ _ _ _ _
    · intro x
      split <;> rfl
  simp only [fakeReply]
  split
  · apply hrelay
    simp only [shouldCancelBranch]
    split <;> rfl
  · exact hrelay false t rfl

theorem finalResponseHandler_disciplined (activType : ActivType) (branch : ℕ)
    (ht : LockState.free.run t.locks = some .free) :
    keepsDiscipline (finalResponseHandler prm e activType branch t) := by
  cases activType with
  | localCancel => exact ht
  | reply => exact ht
  | request =>
    simp only [finalResponseHandler]
    split
    · show LockState.free.run ((t.lockOp .lock).locks ++ [LockOp.unlock]) = _
      rw [LockState.run_append, run_lock ht]
      rfl
    · obtain ⟨u, r, f, hu, hr, hf, heq⟩ :=
        fakeReply_releases prm e branch 408 (t.lockOp .lock)
      rw [heq]
      exact releases_held hr (hu ▸ run_lock ht) hf

theorem tReply_disciplined (e : LightEnv) (code : ℕ)
    (ht : LockState.free.run t.locks = some .free) :
    keepsDiscipline (.ok (tReply prm e code t)) := by
  show LockState.free.run (tReply prm e code t).locks = some .free
  rcases tReply_locks prm e code t with hlock | hsame
  · rw [hlock, LockState.run_append, ht]
    rfl
  · rw [hsame]
    exact ht

/-- The rounds of `e2e_cancel` take the lock anew each time. -/
theorem e2eCancelRounds_disciplined (cancelBm : Bitmap) (rounds : List Round)
    (ht : LockState.free.run t.locks = some .free) :
    keepsDiscipline ((e2eCancelRounds prm cancelBm rounds t).map Prod.snd) := by
  induction rounds generalizing t with
  | nil => exact ht
  | cons r rounds ih =>
    simp only [e2eCancelRounds]
    split
    · exact ih ht
    · have hround : keepsDiscipline ((e2eCancelRound prm r.env r.tmpBm
          r.branch { r.found with locks := t.locks }).map Prod.snd) := by
        simp only [e2eCancelRound]
        split
        · have hrel := relayReply_releases prm r.env
            (({ r.found with locks := t.locks } : Trans).lockOp .lock) .faked
            r.branch 487 r.tmpBm
          have hkeep := releases_held hrel (run_lock ht) (f := fun x => x.2.2) fun _ => rfl
          generalize relayReply prm r.env _ .faked r.branch 487 r.tmpBm = y at hkeep ⊢
          cases y with
          | ok y => exact hkeep
          | error u => exact hkeep
        · exact ht
      split
      · rename_i u heq
        rw [heq] at hround
        exact hround
      · rename_i x heq
        rw [heq] at hround
        have hrest := ih (t := x.2) hround
        generalize e2eCancelRounds prm cancelBm rounds x.2 = y at hrest ⊢
        cases y with
        | ok y => exact hrest
        | error u => exact hrest

/-- The lock is taken before, and released once by, `relay_reply` and
`local_reply` on every path but that of a failed retransmission. -/
theorem call_disciplined_iff (prm : Params) (t : Trans) (call : Call) :
    call.Disciplined prm t ↔ ¬ call.FailedRetransmission := by
  have hfree : ∀ u : Trans, LockState.free.run u.unlocked.locks = some .free := fun _ => rfl
  cases call with
  | replyReceived e cseqCancel branch msgStatus =>
    simp only [Call.FailedRetransmission, not_false_eq_true, iff_true]
    exact replyReceived_disciplined prm e cseqCancel branch msgStatus (hfree t)
  | tReply e code =>
    simp only [Call.FailedRetransmission, not_false_eq_true, iff_true]
    exact tReply_disciplined prm e code (hfree t)
  | finalResponse e activType branch =>
    simp only [Call.FailedRetransmission, not_false_eq_true, iff_true]
    exact finalResponseHandler_disciplined prm e activType branch (hfree t)
  | e2eCancel e tCancel =>
    simp only [Call.FailedRetransmission, not_false_eq_true, iff_true, Call.Disciplined, e2eCancel]
    have hstart : LockState.free.run (whichCancel prm ∅ t.unlocked).2.locks = some .free := by
      rw [whichCancel_locks]
      exact hfree t
    have hrounds := e2eCancelRounds_disciplined prm
      ((whichCancel prm ∅ t.unlocked).1 \ e.unprinted) e.rounds hstart
    generalize e2eCancelRounds prm ((whichCancel prm ∅ t.unlocked).1 \ e.unprinted) e.rounds
      (whichCancel prm ∅ t.unlocked).2 = y at hrounds ⊢
    cases y with
    | ok y =>
      exact ⟨hrounds, tReply_disciplined prm e.answer _ (hfree tCancel)⟩
    | error u => exact hrounds
  | retransmission e activType sent branch =>
    simp only [Call.FailedRetransmission, Call.Disciplined]
    cases activType with
    | reply =>
      simp only [ne_eq, not_true_eq_false, false_and, not_false_eq_true,
        iff_true, retransmissionHandler, tRetransmitReply]
      split <;> rfl
    | request | localCancel =>
      cases sent with
      | true =>
        simp only [Bool.true_eq_false, and_false, not_false_eq_true, iff_true,
          retransmissionHandler, if_true]
        exact hfree t
      | false =>
        obtain ⟨u, r, f, hu, hr, hf, heq⟩ :=
          fakeReply_releases prm e branch 503 t.unlocked
        have hbreak := releases_free hr (hu ▸ hfree t) hf
        rw [← heq] at hbreak
        simp only [retransmissionHandler, Bool.false_eq_true, if_false]
        exact iff_of_false hbreak (by simp)

/-- The only branch of an INVITE, not answered, cannot be sent again: the
process releases a lock it does not hold. -/
theorem failed_retransmission_unlocks : ¬ (Call.retransmission {} .request false 0).Disciplined {}
      { isInvite := true, isLocal := false, uac := [{}] } := by
  intro h
  have hkeep : (LockState.free.run [.enter, .unlock]) = some .free := h
  exact absurd hkeep (by decide)

end Msicp.Tm
