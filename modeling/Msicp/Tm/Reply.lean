import Mathlib.Data.Finset.Range
import Mathlib.Data.Finset.Insert

/-!
# The reply engine of a transaction (`t_reply.c`, `t_cancel.c`)

`t_should_relay_response` decides what becomes of a reply, `relay_reply` and
`local_reply` carry the decision out, and `_reply_light` answers a
transaction locally.  The functions work on one transaction; beside its fields
it keeps what they have done outside of it: the replies handed to the
transport, the calls of `cancel_branch` scheduled by `cancel_uacs`, and the
operations on the reply lock.

A call out of the engine (memory, message building, the failure handlers) is
an argument that says how it went.
-/

namespace Msicp.Tm

/-- `branch_bm_t`, the set of branches whose bit is up. -/
abbrev Bitmap := Finset ℕ

/-- `local_cancel.buffer`: null, `BUSY_BUFFER`, or a CANCEL. -/
inductive CancelBuffer
  | null
  | busy
  | cancel
  deriving DecidableEq, Repr

/-- A reply as the engine holds it: `FAKED_REPLY`, or a message. -/
inductive Rpl
  | faked
  | msg (replyStatus : ℕ)
  deriving DecidableEq, Repr

/-- `struct ua_client`.  `markedAt` records `last_received` when
`should_cancel_branch` chose the branch. -/
structure Uac where
  lastReceived : ℕ := 0
  request : Bool := true
  reply : Option Rpl := none
  localCancel : CancelBuffer := .null
  markedAt : Option ℕ := none
  deriving DecidableEq, Repr, Inhabited

/-- What happens to the reply lock: it is taken, `relay_reply` or
`local_reply` is entered, it is released. -/
inductive LockOp
  | lock
  | enter
  | unlock
  deriving DecidableEq, Repr

/-- `struct cell`, with what was done outside of it. -/
structure Trans where
  isInvite : Bool
  isLocal : Bool
  onFailure : Bool := false
  noisyCtimer : Bool := false
  uasStatus : ℕ := 0
  relaiedReplyBranch : ℤ := -1
  uac : List Uac := []
  upstream : List ℕ := []
  cancels : List ℕ := []
  locks : List LockOp := []
  deriving DecidableEq, Repr

/-- The module parameters that the engine reads. -/
structure Params where
  cancelRetransmission : Bool := false
  noisyCtimer : Bool := false

/-- `enum rps` -/
inductive Rps
  | error
  | pushedAfterCompletion
  | discarded
  | store
  | completed
  | provisional
  deriving DecidableEq, Repr

namespace Trans

def nrOfOutgoings (t : Trans) : ℕ :=
  t.uac.length

def branch (t : Trans) (b : ℕ) : Uac :=
  t.uac.getD b { request := false }

def setBranch (t : Trans) (b : ℕ) (f : Uac → Uac) : Trans :=
  { t with uac := t.uac.modify b f }

def setLastReceived (t : Trans) (b code : ℕ) : Trans :=
  t.setBranch b fun u => { u with lastReceived := code }

def lockOp (t : Trans) (op : LockOp) : Trans :=
  { t with locks := t.locks ++ [op] }

def lockOpIf (t : Trans) (lock : Bool) (op : LockOp) : Trans :=
  if lock then t.lockOp op else t

end Trans

/-! ## Choosing the branches to cancel -/

/-- The test of `should_cancel_branch`. -/
def cancellable (prm : Params) (u : Uac) : Bool :=
  (if prm.cancelRetransmission then decide (u.lastReceived < 200)
    else decide (100 ≤ u.lastReceived) && decide (u.lastReceived < 200)) &&
  decide (u.localCancel = .null)

/-- The branch is labelled so that no one else cancels it. -/
def Uac.mark (u : Uac) : Uac :=
  { u with localCancel := .busy, markedAt := some u.lastReceived }

def shouldCancelBranch (prm : Params) (t : Trans) (b : ℕ) : Bool × Trans :=
  if cancellable prm (t.branch b) then (true, t.setBranch b Uac.mark)
  else (false, t)

/-- One round of the loop of `which_cancel`. -/
def whichCancelStep (prm : Params) (acc : Bitmap × Trans) (i : ℕ) : Bitmap × Trans :=
  if (shouldCancelBranch prm acc.2 i).1 then
    (insert i acc.1, (shouldCancelBranch prm acc.2 i).2)
  else acc

def whichCancel (prm : Params) (cancelBm : Bitmap) (t : Trans) : Bitmap × Trans :=
  (List.range t.nrOfOutgoings).foldl (whichCancelStep prm) (cancelBm, t)

/-- `cancel_uacs`: one call of `cancel_branch` for each branch of the map. -/
def cancelUacs (cancelBm : Bitmap) (t : Trans) : Trans :=
  { t with
    cancels := t.cancels ++ (List.range t.nrOfOutgoings).filter fun i => decide (i ∈ cancelBm) }

/-! ## Local answers -/

/-- How the calls of one `_reply_light` go: the reply was built, the shared
buffer could be resized, and the destination is resolved.  `garbage` is what
the uninitialised `cancel_bitmap` holds when building fails. -/
structure LightEnv where
  built : Bool := true
  resized : Bool := true
  resolved : Bool := true
  garbage : Bitmap := ∅

def replyLight (prm : Params) (e : LightEnv) (code : ℕ) (lock : Bool) (t : Trans) : Trans :=
  if e.built = false then
    if t.isInvite then
      let w := whichCancel prm e.garbage (t.lockOpIf lock .lock)
      cancelUacs w.1 (w.2.lockOpIf lock .unlock)
    else t
  else
    let t := t.lockOpIf lock .lock
    let w := if t.isInvite then whichCancel prm ∅ t else (∅, t)
    if 200 ≤ w.2.uasStatus then
      cancelUacs w.1 (w.2.lockOpIf lock .unlock)
    else if e.resized = false then
      cancelUacs w.1 ({ w.2 with uasStatus := code }.lockOpIf lock .unlock)
    else
      let t := { w.2 with
        uasStatus := code
        relaiedReplyBranch := -2
        upstream := w.2.upstream ++ (if e.resolved then [code] else []) }
      let t := t.lockOpIf lock .unlock
      if 200 ≤ code then cancelUacs w.1 t else t

def tReply (prm : Params) (e : LightEnv) (code : ℕ) (t : Trans) : Trans :=
  replyLight prm e code true t

def tReplyUnsafe (prm : Params) (e : LightEnv) (code : ℕ) (t : Trans) :
    Trans :=
  replyLight prm e code false t

/-! ## Failure handlers -/

/-- What a failure handler may do to the transaction: answer it, or add a
branch (`add_uac`, `add_blind_uac`). -/
inductive HandlerAction
  | tReply (code : ℕ) (e : LightEnv)
  | addUac (request : Bool)

/-- `add_uac`, `add_blind_uac`; a branch without a request is sure to be
replied. -/
def addUac (request : Bool) (t : Trans) : Trans :=
  { t with
    uac := t.uac ++ [{ request := request }]
    noisyCtimer := t.noisyCtimer || !request }

def handlerAction (prm : Params) (t : Trans) : HandlerAction → Trans
  | .tReply code e => tReplyUnsafe prm e code t
  | .addUac request => addUac request t

/-- `run_failure_handlers`; `onNegative` says whether a handler is installed
when it returns. -/
def runFailureHandlers (prm : Params) (actions : List HandlerAction)
    (onNegative : Bool) (t : Trans) : Trans :=
  actions.foldl (handlerAction prm) { t with onFailure := onNegative }

/-! ## The decision -/

/-- The loop of `t_pick_branch`, from branch `b` on. -/
def tPickBranchLoop (incBranch incCode : ℕ) : List Uac → ℕ → ℤ → ℕ → ℤ × ℕ
  | [], _, lowestB, lowestS => (lowestB, lowestS)
  | u :: us, b, lowestB, lowestS =>
    if b = incBranch then
      if incCode < lowestS then
        tPickBranchLoop incBranch incCode us (b + 1) b incCode
      else tPickBranchLoop incBranch incCode us (b + 1) lowestB lowestS
    else if u.request = false then
      tPickBranchLoop incBranch incCode us (b + 1) lowestB lowestS
    else if u.lastReceived < 200 then (-2, lowestS)
    else if u.lastReceived < lowestS then
      tPickBranchLoop incBranch incCode us (b + 1) b u.lastReceived
    else tPickBranchLoop incBranch incCode us (b + 1) lowestB lowestS

/-- `t_pick_branch`: a branch, `-1` for none, `-2` when a branch is open. -/
def tPickBranch (incBranch incCode : ℕ) (t : Trans) : ℤ × ℕ :=
  tPickBranchLoop incBranch incCode t.uac 0 (-1) 999

/-- How the calls out of `relay_reply` and `local_reply` go. -/
structure RelayEnv where
  stored : Bool := true
  built : Bool := true
  resized : Bool := true
  handlers : List HandlerAction := []
  onNegative : Bool := false
  error : LightEnv := {}

/-- What `t_should_relay_response` hands back. -/
structure Decision where
  status : Rps
  shouldStore : Bool
  shouldRelay : ℤ
  cancelBitmap : Bitmap
  t : Trans

def discard (bm : Bitmap) (t : Trans) : Decision :=
  { status := .discarded, shouldStore := false, shouldRelay := -1,
    cancelBitmap := bm, t := t }

/-- The replies that go through to the caller of an INVITE. -/
def invThrough (t : Trans) (newCode : ℕ) : Bool :=
  decide (200 ≤ newCode) && decide (newCode ≤ 302) && t.isInvite

/-- A negative reply, subject to fork picking, on a transaction without a
final answer. -/
def negativeResponse (prm : Params) (e : RelayEnv) (t : Trans)
    (newCode branch : ℕ) (bm : Bitmap) : Decision :=
  let t := t.setLastReceived branch newCode
  let pickedBranch := (tPickBranch branch newCode t).1
  if pickedBranch = -2 then
    { status := .store, shouldStore := true, shouldRelay := -1,
      cancelBitmap := bm, t := t }
  else if pickedBranch = -1 then discard bm t
  else
    let branchCnt := t.nrOfOutgoings
    let t := if t.onFailure then
        runFailureHandlers prm e.handlers e.onNegative t
      else t
    if 200 ≤ t.uasStatus then
      { status := .completed, shouldStore := false, shouldRelay := -1,
        cancelBitmap := bm, t := t }
    else if branchCnt < t.nrOfOutgoings then
      { status := .store, shouldStore := true, shouldRelay := -1,
        cancelBitmap := bm, t := t }
    else
      { status := .completed, shouldStore := false,
        shouldRelay := pickedBranch, cancelBitmap := bm, t := t }

def tShouldRelayResponse (prm : Params) (e : RelayEnv) (t : Trans)
    (newCode branch : ℕ) (bm : Bitmap) : Decision :=
  if 200 ≤ t.uasStatus then
    if invThrough t newCode then
      { status := .pushedAfterCompletion, shouldStore := false,
        shouldRelay := branch, cancelBitmap := bm,
        t := t.setLastReceived branch newCode }
    else discard bm t
  else if 200 ≤ (t.branch branch).lastReceived ∧
      ¬ (invThrough t newCode ∧ (t.branch branch).lastReceived ≤ 302) then
    discard bm t
  else if 302 < newCode then negativeResponse prm e t newCode branch bm
  else if 100 ≤ newCode then
    let t := t.setLastReceived branch newCode
    let relay : ℤ := if newCode = 100 then -1 else branch
    if 200 ≤ newCode then
      let w := whichCancel prm bm t
      { status := .completed, shouldStore := false, shouldRelay := relay,
        cancelBitmap := w.1, t := w.2 }
    else
      { status := .provisional, shouldStore := false, shouldRelay := relay,
        cancelBitmap := bm, t := t }
  else discard bm t

/-! ## Carrying the decision out -/

/-- `store_reply`; the clone of a message may fail. -/
def storeReply (stored : Bool) (branch : ℕ) (pMsg : Rpl) (t : Trans) :
    Option Trans :=
  if pMsg = .faked ∨ stored then
    some (t.setBranch branch fun u => { u with reply := some pMsg })
  else none

/-- The status code that goes upstream. -/
def relayedCode (relayedMsg : Rpl) (t : Trans) (branch msgStatus : ℕ) (relay : ℤ) : ℕ :=
  match relayedMsg with
  | .msg replyStatus => replyStatus
  | .faked =>
    if branch = relay then msgStatus else (t.branch relay.toNat).lastReceived

/-- The message to relay: the one at hand, or the one stored with another
branch. -/
def relayedMsg (pMsg : Rpl) (t : Trans) (branch : ℕ) (relay : ℤ) :
    Option Rpl :=
  if branch = relay then some pMsg else (t.branch relay.toNat).reply

/-- The tail of `relay_reply` behind `error01`. -/
def relayError (prm : Params) (e : RelayEnv) (bm : Bitmap) (t : Trans) :
    Trans :=
  let t := (tReplyUnsafe prm e.error 500 t).lockOp .unlock
  if t.isInvite then cancelUacs bm t else t

/-- `relay_reply`, entered with the reply lock held.  The error is a null
message dereferenced; it carries the state of the transaction. -/
def relayReply (prm : Params) (e : RelayEnv) (t : Trans) (pMsg : Rpl)
    (branch msgStatus : ℕ) (bm : Bitmap) :
    Except Trans (Rps × Bitmap × Trans) :=
  let d := tShouldRelayResponse prm e (t.lockOp .enter) msgStatus branch bm
  match (if d.shouldStore then storeReply e.stored branch pMsg d.t
      else some d.t) with
  | none => .ok (.error, d.cancelBitmap, relayError prm e d.cancelBitmap d.t)
  | some t =>
    if 0 ≤ d.shouldRelay then
      match relayedMsg pMsg t branch d.shouldRelay with
      | none => .error t
      | some m =>
        if e.built = false ∨ e.resized = false then
          let t := if d.shouldStore then
              t.setBranch branch fun u => { u with reply := none }
            else t
          .ok (.error, d.cancelBitmap, relayError prm e d.cancelBitmap t)
        else
          let code := relayedCode m t branch msgStatus d.shouldRelay
          .ok (d.status, d.cancelBitmap, { t with
            uasStatus := code
            relaiedReplyBranch := d.shouldRelay
            upstream := t.upstream ++ [code]
            locks := t.locks ++ [.unlock] })
    else .ok (d.status, d.cancelBitmap, t.lockOp .unlock)

/-- `local_reply`, entered with the reply lock held. -/
def localReply (prm : Params) (e : RelayEnv) (t : Trans) (pMsg : Rpl)
    (branch msgStatus : ℕ) : Except Trans (Rps × Bitmap × Trans) :=
  let d := tShouldRelayResponse prm e (t.lockOp .enter) msgStatus branch ∅
  match (if d.shouldStore then storeReply e.stored branch pMsg d.t
      else some d.t) with
  | none =>
    let w := whichCancel prm d.cancelBitmap d.t
    let t := w.2.lockOp .unlock
    .ok (.error, w.1, if t.isInvite then cancelUacs w.1 t else t)
  | some t =>
    if 0 ≤ d.shouldRelay then
      match relayedMsg pMsg t branch d.shouldRelay with
      | none => .error t
      | some m =>
        .ok (d.status, d.cancelBitmap,
          { t with
            uasStatus := relayedCode m t branch msgStatus d.shouldRelay
            locks := t.locks ++ [.unlock] })
    else .ok (d.status, d.cancelBitmap, t.lockOp .unlock)

/-! ## The entry points -/

/-- What `reply_received` does under the reply lock and after it, for a reply
whose CSeq method is CANCEL or not. -/
def replyReceived (prm : Params) (e : RelayEnv) (cseqCancel : Bool)
    (branch msgStatus : ℕ) (t : Trans) : Except Trans Trans :=
  if cseqCancel ∧ t.isInvite then .ok t
  else
    (if t.isLocal then
      localReply prm e (t.lockOp .lock) (.msg msgStatus) branch msgStatus
    else
      relayReply prm e (t.lockOp .lock) (.msg msgStatus) branch msgStatus ∅).map fun r =>
      if r.1 = .completed ∧ r.2.2.isInvite then cancelUacs r.2.1 r.2.2
      else r.2.2

/-- `fake_reply` behind its `should_cancel_branch`, which said
`doCancelBranch`. -/
def fakeReplyRelay (prm : Params) (e : RelayEnv) (doCancelBranch : Bool)
    (branch code : ℕ) (t : Trans) : Except Trans Trans :=
  (if t.isLocal then localReply prm e t .faked branch code
    else relayReply prm e t .faked branch code
      (if doCancelBranch then {branch} else ∅)).map fun r =>
    if doCancelBranch then
      { r.2.2 with cancels := r.2.2.cancels ++ [branch] }
    else r.2.2

def fakeReply (prm : Params) (e : RelayEnv) (branch code : ℕ) (t : Trans) :
    Except Trans Trans :=
  if t.isInvite then
    fakeReplyRelay prm e (shouldCancelBranch prm t branch).1 branch code
      (shouldCancelBranch prm t branch).2
  else fakeReplyRelay prm e false branch code t

/-- What kind of buffer a timer belongs to (`activ_type`). -/
inductive ActivType
  | request
  | localCancel
  | reply

/-- The test for discarding the transaction silently. -/
def silent (prm : Params) (branch : ℕ) (t : Trans) : Bool :=
  !t.isLocal && t.isInvite && t.nrOfOutgoings == 1 && !t.onFailure &&
    decide (0 < (t.branch branch).lastReceived) && !prm.noisyCtimer &&
    t.noisyCtimer

def finalResponseHandler (prm : Params) (e : RelayEnv) (activType : ActivType)
    (branch : ℕ) (t : Trans) : Except Trans Trans :=
  match activType with
  | .localCancel => .ok t
  | .reply => .ok t
  | .request =>
    let t := t.lockOp .lock
    if silent prm branch t then .ok (t.lockOp .unlock)
    else fakeReply prm e branch 408 t

def tRetransmitReply (resolved : Bool) (t : Trans) : Trans :=
  if resolved then (t.lockOp .lock).lockOp .unlock else t

/-- `retransmission_handler`; `sent` says that `SEND_BUFFER` succeeded, or, for
a reply, that its destination is resolved. -/
def retransmissionHandler (prm : Params) (e : RelayEnv)
    (activType : ActivType) (sent : Bool) (branch : ℕ) (t : Trans) :
    Except Trans Trans :=
  match activType with
  | .reply => .ok (tRetransmitReply sent t)
  | .localCancel | .request =>
    if sent then .ok t else fakeReply prm e branch 503 t

/-- The round of `e2e_cancel` for a branch of the INVITE that is not in its
`cancel_bm`; `tmpBm` is the uninitialised `tmp_bm`.  Says whether
`relay_reply` failed. -/
def e2eCancelRound (prm : Params) (e : RelayEnv) (tmpBm : Bitmap)
    (branch : ℕ) (t : Trans) : Except Trans (Bool × Trans) :=
  if (t.branch branch).lastReceived < 100 then
    (relayReply prm e (t.lockOp .lock) .faked branch 487 tmpBm).map fun r =>
      (decide (r.1 = .error), r.2.2)
  else .ok (false, t)

end Msicp.Tm
