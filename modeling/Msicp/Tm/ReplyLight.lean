import Msicp.Support.Bytes
import Msicp.Tm.ReplyMoves
import Msicp.Tm.TimerList
import Mathlib.Data.Finset.Filter
import Mathlib.Data.Finset.Lattice.Basic

/-!
# A local answer that fails

`_reply_light` puts a reply built in private memory into the response buffer
of the transaction.  It can fail before it has looked at the transaction,
because a final answer has been sent, or because the buffer cannot be resized;
in each case the timers of the branches are reset, the branches are cancelled
and the transaction is put on WAIT.  The resize comes behind the update of the
status and frees the old buffer first.
-/

namespace Msicp.Tm.ReplyLight

open Msicp.Support List Option

/-! ## Timers -/

/-- `struct timer_link`, as far as it says when the timer fires. -/
structure TimerLink where
  timeOut : ℕ := 0
  timerList : Home := .null
  deriving DecidableEq, Repr

namespace TimerLink

variable (l : TimerLink)

def setTimer (id : Lists) (ticks timeout : ℕ) : TimerLink :=
  if l.timerList = .detached then l
  else { timeOut := TimerTable.timeOutAt ticks timeout, timerList := .list id }

def set1timer (id : Lists) (ticks timeout : ℕ) : TimerLink :=
  if ¬ timerDeleted < l.timeOut then
    { timeOut := TimerTable.timeOutAt ticks timeout, timerList := .list id }
  else l

def resetTimer : TimerLink :=
  { l with timeOut := timerDeleted }

end TimerLink

/-! ## The transaction -/

/-- The timers of a `struct retr_buf`. -/
@[ext]
structure RetrTimers where
  retr : TimerLink := {}
  fr : TimerLink := {}
  deriving DecidableEq, Repr

/-- Both timers are reset. -/
def RetrTimers.reset (rb : RetrTimers) : RetrTimers where
  retr := rb.retr.resetTimer
  fr := rb.fr.resetTimer

/-- `struct ua_client`, with the timers of its request and of its CANCEL;
`udp` is the protocol of its destination. -/
structure Client where
  lastReceived : ℕ := 0
  localCancel : CancelBuffer := .null
  udp : Bool := true
  request : RetrTimers := {}
  cancel : RetrTimers := {}
  deriving DecidableEq, Repr

/-- A block of shared memory. -/
structure Block where
  addr : ℕ
  size : ℕ
  content : Bytes
  deriving DecidableEq, Repr

/-- `struct cell`.  The local To-tag is an address and a length; `udp` is the
protocol of the response. -/
structure Cell where
  isInvite : Bool
  isLocal : Bool
  isCancel : Bool := false
  status : ℕ := 0
  activType : ℕ := 0
  buffer : Option Block := none
  bufferLen : ℕ := 0
  localTotag : Option (ℕ × ℕ) := none
  relaiedReplyBranch : ℤ := -1
  udp : Bool := true
  response : RetrTimers := {}
  uac : List Client := []
  wait : TimerLink := {}
  deriving DecidableEq, Repr

/-- The reply to send: its text, unless building failed, and where the To-tag
stands in it (`bm->to_tag_val`). -/
structure Answer where
  code : ℕ
  buf : Option Bytes
  toTag : Option (ℕ × ℕ) := none

/-- What the calls find.  The ticks are read at every timer that is set, first
for the retransmission timer, then for the final response timer; `frTimer` is
the value of `fr_avp2timer`, `garbage` the uninitialised `cancel_bitmap`,
`alloc` the address that `shm_malloc` returns. -/
structure Env where
  timeouts : Lists → ℕ
  frTimer : Option ℕ := none
  cancelTicks : ℕ → ℕ × ℕ
  responseTicks : ℕ × ℕ
  waitTicks : ℕ
  garbage : Bitmap := ∅
  cancelBuilt : ℕ → Bool := fun _ => true
  alloc : Option ℕ

def setFrRetr (env : Env) (ticks : ℕ × ℕ) (retr : Bool) (rb : RetrTimers) : RetrTimers where
  retr :=
    if retr then rb.retr.setTimer .rtT1To1 ticks.1 (env.timeouts .rtT1To1)
    else rb.retr
  fr := rb.fr.setTimer .fr ticks.2 (env.frTimer.getD (env.timeouts .fr))

/-- The test of `should_cancel_branch`. -/
def shouldCancel (prm : Params) (u : Client) : Bool :=
  cancellable prm
    { lastReceived := u.lastReceived, localCancel := u.localCancel }

/-- The label that a branch to be cancelled gets. -/
def mark (prm : Params) (u : Client) : Client :=
  if shouldCancel prm u then { u with localCancel := .busy } else u

/-- `which_cancel` marks the branches and adds their bits. -/
def whichCancel (prm : Params) (bm : Bitmap) (c : Cell) : Bitmap × Cell :=
  (bm ∪ (Finset.range c.uac.length).filter fun i =>
      (c.uac[i]?).any (shouldCancel prm),
    { c with uac := c.uac.map (mark prm) })

def cleanupUacTimers (c : Cell) : Cell :=
  { c with uac := c.uac.map fun u => { u with request := u.request.reset } }

def cancelBranch (env : Env) (i : ℕ) (u : Client) : Client :=
  if u.lastReceived < 100 then u
  else if env.cancelBuilt i = false then u
  else { u with
    localCancel := .cancel
    cancel := setFrRetr env (env.cancelTicks i) u.udp u.cancel }

def cancelUacs (env : Env) (bm : Bitmap) (c : Cell) : Cell :=
  { c with uac := c.uac.mapIdx fun i u =>
      if i ∈ bm then cancelBranch env i u else u }

def putOnWait (env : Env) (c : Cell) : Cell :=
  { c with wait := c.wait.set1timer .wt env.waitTicks (env.timeouts .wt) }

def setFinalTimer (env : Env) (c : Cell) : Cell :=
  if !c.isLocal && c.isInvite && decide (300 ≤ c.status) then
    { c with response := setFrRetr env env.responseTicks c.udp c.response }
  else if !c.isLocal && c.isInvite && decide (c.relaiedReplyBranch = -2) &&
      decide (200 ≤ c.status) then
    { c with response := setFrRetr env env.responseTicks true c.response }
  else putOnWait env c

/-- `_shm_resize`: the old block is freed, whatever becomes of the new one.
The content of the new one is what `memcpy` puts there next. -/
def shmResize (_old : Option Block) (alloc : Option ℕ) (size : ℕ)
    (content : Bytes) : Option Block :=
  alloc.map fun addr => { addr := addr, size := size, content := content }

def updateLocalTags (toTag : Option (ℕ × ℕ)) (dst : ℕ) (c : Cell) : Cell :=
  match toTag with
  | none => c
  | some tag => { c with localTotag := some (dst + tag.1, tag.2) }

/-- What follows the label `error`. -/
def fail (env : Env) (bm : Bitmap) (c : Cell) : ℤ × Cell :=
  let c := cleanupUacTimers c
  (-1, putOnWait env (if c.isInvite then cancelUacs env bm c else c))

/-- The space that a provisional reply leaves to the next one. -/
def replyOverbufferLen : ℕ := 160

/-- The clean-up behind a final answer. -/
def complete (prm : Params) (env : Env) (bm : Bitmap) (c : Cell) : Cell :=
  let c := if c.isCancel && prm.cancelRetransmission then c
    else cleanupUacTimers c
  setFinalTimer env (if c.isInvite then cancelUacs env bm c else c)

/-- `_reply_light`: the value it returns and the transaction it leaves.  What
becomes of the reply on the wire is not looked at. -/
def replyLight (prm : Params) (env : Env) (a : Answer) (c : Cell) : ℤ × Cell :=
  match a.buf with
  | none =>
    let w := if c.isInvite then whichCancel prm env.garbage c
      else (env.garbage, c)
    fail env w.1 w.2
  | some buf =>
    let w := if c.isInvite then whichCancel prm ∅ c else (∅, c)
    if 200 ≤ w.2.status then fail env w.1 w.2
    else
      let c := { w.2 with activType := a.code, status := a.code }
      let bufLen := if c.buffer.isSome then buf.length
        else buf.length + replyOverbufferLen
      match shmResize c.buffer env.alloc bufLen buf with
      | none => fail env w.1 { c with buffer := none }
      | some block =>
        let c := updateLocalTags a.toTag block.addr { c with
          buffer := some block
          bufferLen := buf.length
          relaiedReplyBranch := -2 }
        (1, if 200 ≤ a.code then complete prm env w.1 c else c)

/-! ## What a failure leaves alone -/

/-- The text of the local To-tag, where it points into the response buffer. -/
def Cell.totagText (c : Cell) : Option Bytes :=
  match c.localTotag, c.buffer with
  | some tag, some block =>
    if block.addr ≤ tag.1 ∧
        tag.1 + tag.2 ≤ block.addr + block.content.length then
      some ((block.content.drop (tag.1 - block.addr)).take tag.2)
    else none
  | _, _ => none

/-- The transaction has the answer it had before. -/
structure SameAnswer (c c' : Cell) : Prop where
  status : c'.status = c.status
  buffer : c'.buffer = c.buffer
  bufferLen : c'.bufferLen = c.bufferLen
  localTotag : c'.localTotag = c.localTotag
  totagText : c'.totagText = c.totagText

/-- The timers of a branch. -/
def Client.timers (u : Client) : RetrTimers × RetrTimers :=
  (u.request, u.cancel)

/-- All timers of the transaction are as they were before. -/
structure SameTimers (c c' : Cell) : Prop where
  wait : c'.wait = c.wait
  response : c'.response = c.response
  uac : c'.uac.map Client.timers = c.uac.map Client.timers

/-- A failed call leaves the answer alone, and a call behind a final answer
fails and leaves the timers alone as well. -/
def LeavesAlone (prm : Params) (env : Env) (a : Answer) (c : Cell) : Prop :=
  ((replyLight prm env a c).1 = -1 → SameAnswer c (replyLight prm env a c).2) ∧
    (200 ≤ c.status → (replyLight prm env a c).1 = -1 ∧ SameAnswer c (replyLight prm env a c).2 ∧
      SameTimers c (replyLight prm env a c).2)

/-! ## Behind the failure -/

/-- `set_timer` would not change the timer: it is being fired, or stands on
the list with the same deadline. -/
def TimerLink.StandsAt (l : TimerLink) (id : Lists) (ticks timeout : ℕ) :
    Prop :=
  l.timerList = .detached ∨
    l = { timeOut := TimerTable.timeOutAt ticks timeout,
          timerList := .list id }

variable (prm : Params) (env : Env) (bm : Bitmap) (c : Cell) (l : TimerLink)

theorem TimerLink.setTimer_eq_self (id : Lists) (ticks timeout : ℕ) :
    l.setTimer id ticks timeout = l ↔ l.StandsAt id ticks timeout := by
  simp only [TimerLink.setTimer, TimerLink.StandsAt]
  split
  · rename_i hdet
    exact ⟨fun _ => .inl hdet, fun _ => rfl⟩
  · rename_i hdet
    exact ⟨fun h => .inr h.symm, fun h => (h.resolve_left hdet).symm⟩

theorem TimerLink.set1timer_eq_self (id : Lists) (ticks timeout : ℕ) :
    l.set1timer id ticks timeout = l ↔ timerDeleted < l.timeOut ∨
        l = { timeOut := TimerTable.timeOutAt ticks timeout,
              timerList := .list id } := by
  simp only [TimerLink.set1timer]
  split
  · rename_i hout
    exact ⟨fun h => .inr h.symm, fun h => (h.resolve_left hout).symm⟩
  · rename_i hout
    exact ⟨fun _ => .inl (Classical.not_not.mp hout), fun _ => rfl⟩

theorem TimerLink.resetTimer_eq_self : l.resetTimer = l ↔ l.timeOut = timerDeleted := by
  constructor
  · intro h
    exact (congrArg TimerLink.timeOut h).symm
  · intro h
    rw [TimerLink.resetTimer, ← h]

/-- `_set_fr_retr` would not change the timers. -/
def RetrTimers.Stand (rb : RetrTimers) (env : Env) (ticks : ℕ × ℕ) (retr : Bool) : Prop :=
  (retr = true → rb.retr.StandsAt .rtT1To1 ticks.1 (env.timeouts .rtT1To1)) ∧
    rb.fr.StandsAt .fr ticks.2 (env.frTimer.getD (env.timeouts .fr))

theorem setFrRetr_eq_self (ticks : ℕ × ℕ) (retr : Bool) (rb : RetrTimers) :
    setFrRetr env ticks retr rb = rb ↔ rb.Stand env ticks retr := by
  have hsplit : setFrRetr env ticks retr rb = rb ↔ (setFrRetr env ticks retr rb).retr = rb.retr ∧
        (setFrRetr env ticks retr rb).fr = rb.fr := by
    constructor
    · intro h
      exact ⟨congrArg RetrTimers.retr h, congrArg RetrTimers.fr h⟩
    · rintro ⟨hretr, hfr⟩
      cases rb
      simp only [setFrRetr] at hretr hfr ⊢
      rw [hretr, hfr]
  rw [hsplit, RetrTimers.Stand, ← TimerLink.setTimer_eq_self, ← TimerLink.setTimer_eq_self]
  cases retr <;> simp [setFrRetr]

/-- The timers of a branch behind a failure. -/
def failTimers (env : Env) (invite : Bool) (bm : Bitmap) (i : ℕ)
    (u : Client) : RetrTimers × RetrTimers :=
  (u.request.reset,
    if invite = true ∧ i ∈ bm ∧ 100 ≤ u.lastReceived ∧
        env.cancelBuilt i = true then
      setFrRetr env (env.cancelTicks i) u.udp u.cancel
    else u.cancel)

theorem fail_uac : (fail env bm c).2.uac.map Client.timers =
      c.uac.mapIdx (failTimers env c.isInvite bm) := by
  have hinvite : (cleanupUacTimers c).isInvite = c.isInvite := rfl
  apply ext_getElem?
  intro i
  simp only [fail, putOnWait, hinvite]
  cases c.isInvite with
  | true =>
    simp only [if_true, cancelUacs, cleanupUacTimers, getElem?_map, getElem?_mapIdx, Option.map_map]
    congr 1
    funext u
    simp only [Function.comp_apply, failTimers, true_and]
    by_cases hi : i ∈ bm
    · simp only [hi, true_and, if_true, cancelBranch]
      by_cases hlast : u.lastReceived < 100
      · simp [Client.timers, hlast, Nat.not_le.mpr hlast]
      · rw [if_neg hlast]
        cases hb : env.cancelBuilt i with
        | false => simp [Client.timers]
        | true => simp [Client.timers, Nat.le_of_not_lt hlast]
    · simp [Client.timers, hi]
  | false =>
    simp only [Bool.false_eq_true, if_false, cleanupUacTimers,
      getElem?_map, getElem?_mapIdx, Option.map_map]
    congr 1

theorem fail_sameAnswer : SameAnswer c (fail env bm c).2 := by
  have hinvite : (cleanupUacTimers c).isInvite = c.isInvite := rfl
  simp only [fail, putOnWait, hinvite]
  cases c.isInvite <;> exact ⟨rfl, rfl, rfl, rfl, rfl⟩

/-- Where a failure leaves the timers alone. -/
structure Quiescent (env : Env) (bm : Bitmap) (c : Cell) : Prop where
  wait : timerDeleted < c.wait.timeOut ∨
    c.wait = { timeOut := TimerTable.timeOutAt env.waitTicks (env.timeouts .wt),
               timerList := .list .wt }
  requests : ∀ u ∈ c.uac, u.request.retr.timeOut = timerDeleted ∧
    u.request.fr.timeOut = timerDeleted
  cancels : c.isInvite = true → ∀ i u, c.uac[i]? = some u → i ∈ bm →
    100 ≤ u.lastReceived → env.cancelBuilt i = true →
    u.cancel.Stand env (env.cancelTicks i) u.udp

theorem failTimers_eq (invite : Bool) (bm : Bitmap) (i : ℕ) (u : Client) :
    failTimers env invite bm i u = u.timers ↔ (u.request.retr.timeOut = timerDeleted ∧
        u.request.fr.timeOut = timerDeleted) ∧
      (invite = true → i ∈ bm → 100 ≤ u.lastReceived → env.cancelBuilt i = true →
        u.cancel.Stand env (env.cancelTicks i) u.udp) := by
  have hrequest : u.request.reset = u.request ↔ u.request.retr.timeOut = timerDeleted ∧
        u.request.fr.timeOut = timerDeleted := by
    rw [← TimerLink.resetTimer_eq_self, ← TimerLink.resetTimer_eq_self, RetrTimers.ext_iff]
    rfl
  simp only [failTimers, Client.timers, Prod.mk.injEq, hrequest, ← setFrRetr_eq_self]
  refine and_congr_right fun _ => ?_
  split
  · rename_i h
    exact ⟨fun heq _ _ _ _ => heq, fun heq => heq h.1 h.2.1 h.2.2.1 h.2.2.2⟩
  · rename_i h
    refine ⟨fun _ h1 h2 h3 h4 => absurd ⟨h1, h2, h3, h4⟩ h, fun _ => rfl⟩

theorem fail_sameTimers_iff : SameTimers c (fail env bm c).2 ↔ Quiescent env bm c := by
  have hinvite : (cleanupUacTimers c).isInvite = c.isInvite := rfl
  have hresponse : (fail env bm c).2.response = c.response := by
    simp only [fail, putOnWait, hinvite]
    cases c.isInvite <;> rfl
  have hwait : (fail env bm c).2.wait = c.wait.set1timer .wt env.waitTicks (env.timeouts .wt) := by
    simp only [fail, putOnWait, hinvite]
    cases c.isInvite <;> rfl
  have huac : (fail env bm c).2.uac.map Client.timers = c.uac.map Client.timers ↔
      ∀ i u, c.uac[i]? = some u → failTimers env c.isInvite bm i u = u.timers := by
    rw [fail_uac, mapIdx_eq_iff]
    refine forall_congr' fun i => ?_
    rw [getElem?_map]
    cases c.uac[i]? with
    | none => simp
    | some u => simp [eq_comm]
  constructor
  · intro h
    have htimers := fun i u hu =>
      (failTimers_eq env c.isInvite bm i u).mp (huac.mp h.uac i u hu)
    refine ⟨?_, ?_, ?_⟩
    · rw [← TimerLink.set1timer_eq_self, ← hwait]
      exact h.wait
    · intro u hu
      obtain ⟨i, hi⟩ := getElem?_of_mem hu
      exact (htimers i u hi).1
    · intro hinv i u hu hbm
      exact (htimers i u hu).2 hinv hbm
  · intro h
    refine ⟨?_, hresponse, huac.mpr ?_⟩
    · rw [hwait, TimerLink.set1timer_eq_self]
      exact h.wait
    · intro i u hu
      exact (failTimers_eq env c.isInvite bm i u).mpr ⟨h.requests u (mem_of_getElem? hu),
          fun hinv hbm => h.cancels hinv i u hu hbm⟩

/-! ## Before the failure -/

theorem whichCancel_sameAnswer : SameAnswer c (whichCancel prm bm c).2 :=
  ⟨rfl, rfl, rfl, rfl, rfl⟩

theorem SameAnswer.refl : SameAnswer c c :=
  ⟨rfl, rfl, rfl, rfl, rfl⟩

theorem SameAnswer.trans {c c' c'' : Cell} (h : SameAnswer c c')
    (h' : SameAnswer c' c'') : SameAnswer c c'' :=
  ⟨h'.status.trans h.status, h'.buffer.trans h.buffer,
    h'.bufferLen.trans h.bufferLen, h'.localTotag.trans h.localTotag,
    h'.totagText.trans h.totagText⟩

/-- The branches that are cancelled: those marked now, and, when building has
failed, those whose bits happen to be up. -/
def toCancel (prm : Params) (env : Env) (a : Answer) (i : ℕ) (u : Client) :
    Prop :=
  shouldCancel prm u = true ∨ (a.buf = none ∧ i ∈ env.garbage)

/-- Nothing is left to stop, to cancel or to put on WAIT. -/
structure Idle (prm : Params) (env : Env) (a : Answer) (c : Cell) : Prop where
  wait : timerDeleted < c.wait.timeOut ∨
    c.wait = { timeOut := TimerTable.timeOutAt env.waitTicks (env.timeouts .wt),
               timerList := .list .wt }
  requests : ∀ u ∈ c.uac, u.request.retr.timeOut = timerDeleted ∧
    u.request.fr.timeOut = timerDeleted
  cancels : c.isInvite = true → ∀ i u, c.uac[i]? = some u →
    toCancel prm env a i u → 100 ≤ u.lastReceived →
    env.cancelBuilt i = true →
    u.cancel.Stand env (env.cancelTicks i) u.udp

theorem mem_whichCancel {prm : Params} {bm : Bitmap} {c : Cell} {i : ℕ}
    {u : Client} (hu : c.uac[i]? = some u) :
    i ∈ (whichCancel prm bm c).1 ↔ i ∈ bm ∨ shouldCancel prm u = true := by
  obtain ⟨hi, -⟩ := List.getElem?_eq_some_iff.mp hu
  simp only [whichCancel, Finset.mem_union, Finset.mem_filter,
    Finset.mem_range, hi, true_and, hu, any_some]

theorem mark_eq (u : Client) : (mark prm u).lastReceived = u.lastReceived ∧
      (mark prm u).udp = u.udp ∧ (mark prm u).timers = u.timers := by
  simp only [mark]
  split <;> exact ⟨rfl, rfl, rfl⟩

theorem mark_timers (u : Client) :
    (mark prm u).request = u.request ∧ (mark prm u).cancel = u.cancel :=
  ⟨congrArg Prod.fst (mark_eq prm u).2.2, congrArg Prod.snd (mark_eq prm u).2.2⟩

theorem sameTimers_whichCancel (c' : Cell) :
    SameTimers (whichCancel prm bm c).2 c' ↔ SameTimers c c' := by
  have huac : (whichCancel prm bm c).2.uac.map Client.timers = c.uac.map Client.timers := by
    simp only [whichCancel, List.map_map]
    apply map_congr_left
    exact fun u _ => (mark_eq prm u).2.2
  exact ⟨fun h => ⟨h.wait, h.response, h.uac.trans huac⟩,
    fun h => ⟨h.wait, h.response, h.uac.trans huac.symm⟩⟩

theorem quiescent_whichCancel (bm' : Bitmap) (c : Cell) :
    Quiescent env bm (whichCancel prm bm' c).2 ↔ Quiescent env bm c := by
  constructor
  · intro h
    refine ⟨h.wait, ?_, ?_⟩
    · intro u hu
      rw [← (mark_timers prm u).1]
      exact h.requests _ (List.mem_map_of_mem hu)
    · intro hinv i u hu hbm hlast hbuilt
      have hmark : (whichCancel prm bm' c).2.uac[i]? = some (mark prm u) := by
        simp [whichCancel, hu]
      rw [← (mark_timers prm u).2, ← (mark_eq prm u).2.1]
      exact h.cancels hinv i _ hmark hbm ((mark_eq prm u).1.symm ▸ hlast) hbuilt
  · intro h
    refine ⟨h.wait, ?_, ?_⟩
    · intro v hv
      obtain ⟨u, hu, rfl⟩ := List.mem_map.mp hv
      rw [(mark_timers prm u).1]
      exact h.requests u hu
    · intro hinv i v hv hbm hlast hbuilt
      simp only [whichCancel, getElem?_map, map_eq_some_iff] at hv
      obtain ⟨u, hu, rfl⟩ := hv
      rw [(mark_timers prm u).2, (mark_eq prm u).2.1]
      exact h.cancels hinv i u hu hbm ((mark_eq prm u).1 ▸ hlast) hbuilt

/-! ## The calls that fail -/

/-- The state that the failure starts from when the buffer has not been
touched. -/
def beforeFail (prm : Params) (env : Env) (a : Answer) (c : Cell) : Bitmap × Cell :=
  let bm := if a.buf = none then env.garbage else ∅
  if c.isInvite then whichCancel prm bm c else (bm, c)

theorem beforeFail_sameAnswer (a : Answer)
    (c : Cell) : SameAnswer c (beforeFail prm env a c).2 := by
  simp only [beforeFail]
  split
  · exact whichCancel_sameAnswer prm _ c
  · exact .refl c

theorem beforeFail_sameTimers_iff (a : Answer) (c : Cell) :
    SameTimers c (fail env (beforeFail prm env a c).1
        (beforeFail prm env a c).2).2 ↔ Idle prm env a c := by
  have hgarbage : ∀ i, i ∈ (if a.buf = none then env.garbage else ∅) ↔
      a.buf = none ∧ i ∈ env.garbage := by
    intro i
    by_cases hb : a.buf = none <;> simp [hb]
  simp only [beforeFail]
  generalize (if a.buf = none then env.garbage else ∅) = bm at hgarbage ⊢
  cases hinv : c.isInvite with
  | false =>
    simp only [Bool.false_eq_true, if_false]
    rw [fail_sameTimers_iff]
    refine ⟨fun h => ⟨h.wait, h.requests, ?_⟩, fun h => ⟨h.wait, h.requests, ?_⟩⟩ <;>
    · intro htrue
      rw [hinv] at htrue
      cases htrue
  | true =>
    simp only [if_true]
    rw [← sameTimers_whichCancel prm bm, fail_sameTimers_iff, quiescent_whichCancel]
    have hcancel : ∀ i u, c.uac[i]? = some u →
        (i ∈ (whichCancel prm bm c).1 ↔ toCancel prm env a i u) := by
      intro i u hu
      rw [mem_whichCancel hu, hgarbage, toCancel, or_comm]
    constructor
    · intro h
      refine ⟨h.wait, h.requests, fun hi i u hu hc => ?_⟩
      exact h.cancels hi i u hu ((hcancel i u hu).mpr hc)
    · intro h
      refine ⟨h.wait, h.requests, fun hi i u hu hc => ?_⟩
      exact h.cancels hi i u hu ((hcancel i u hu).mp hc)

theorem replyLight_early {a : Answer} {c : Cell} (h : a.buf = none ∨ 200 ≤ c.status) :
    replyLight prm env a c = fail env (beforeFail prm env a c).1 (beforeFail prm env a c).2 := by
  have hstatus := (beforeFail_sameAnswer prm env a c).status
  simp only [replyLight, beforeFail] at hstatus ⊢
  cases hb : a.buf with
  | none => simp only [if_true]
  | some buf =>
    have hfinal := h.resolve_left (by simp [hb])
    simp only [hb, reduceCtorEq, if_false] at hstatus ⊢
    rw [hstatus, if_pos hfinal]

/-- A reply that is built while the transaction is open fails when the buffer
cannot be resized, and only then. -/
theorem replyLight_late {a : Answer} {c : Cell}
    {buf : Bytes} (hb : a.buf = some buf) (hopen : c.status < 200) :
    (env.alloc = none → replyLight prm env a c = fail env (beforeFail prm env a c).1
        { (beforeFail prm env a c).2 with
          activType := a.code
          status := a.code
          buffer := none }) ∧
      (env.alloc ≠ none → (replyLight prm env a c).1 = 1) := by
  have hstatus := (beforeFail_sameAnswer prm env a c).status
  simp only [replyLight, beforeFail, hb, reduceCtorEq, if_false] at hstatus ⊢
  rw [hstatus, if_neg (Nat.not_le.mpr hopen)]
  cases hal : env.alloc with
  | none =>
    refine ⟨fun _ => ?_, fun h => absurd rfl h⟩
    simp only [shmResize, map_none]
  | some addr =>
    refine ⟨fun h => (by cases h), fun _ => ?_⟩
    simp only [shmResize, map_some]

/-- A failed call leaves the answer alone exactly when it has not lost the
response buffer, and one behind a final answer leaves the timers alone exactly
when there is nothing left to stop, to cancel or to put on WAIT. -/
theorem leavesAlone_iff (prm : Params) (env : Env) (a : Answer) (c : Cell) :
    LeavesAlone prm env a c ↔
      (a.buf ≠ none → c.status < 200 → env.alloc = none → c.status = a.code ∧ c.buffer = none) ∧
        (200 ≤ c.status → Idle prm env a c) := by
  by_cases hearly : a.buf = none ∨ 200 ≤ c.status
  · have hrun := replyLight_early prm env hearly
    have hsame := (beforeFail_sameAnswer prm env a c).trans
      (fail_sameAnswer env (beforeFail prm env a c).1 _)
    have hlost : a.buf ≠ none → c.status < 200 → env.alloc = none →
        c.status = a.code ∧ c.buffer = none := by
      intro hbuf hopen
      rcases hearly with hnone | hfinal
      · exact absurd hnone hbuf
      · omega
    rw [LeavesAlone, hrun, beforeFail_sameTimers_iff]
    exact ⟨fun h => ⟨hlost, fun hfinal => (h.2 hfinal).2.2⟩,
      fun h => ⟨fun _ => hsame, fun hfinal => ⟨rfl, hsame, h.2 hfinal⟩⟩⟩
  · obtain ⟨hbuf, hopen⟩ := not_or.mp hearly
    obtain ⟨buf, hb⟩ := ne_none_iff_exists'.mp hbuf
    have hopen' : c.status < 200 := Nat.lt_of_not_le hopen
    obtain ⟨hlost, hsent⟩ := replyLight_late prm env hb hopen'
    by_cases hal : env.alloc = none
    · have hiff : SameAnswer c (replyLight prm env a c).2 ↔
          c.status = a.code ∧ c.buffer = none := by
        rw [hlost hal]
        have hfail := fail_sameAnswer env (beforeFail prm env a c).1
          { (beforeFail prm env a c).2 with
            activType := a.code
            status := a.code
            buffer := none }
        constructor
        · intro h
          exact ⟨h.status.symm.trans hfail.status, h.buffer.symm.trans hfail.buffer⟩
        · rintro ⟨hstatus, hbuffer⟩
          have hbefore := beforeFail_sameAnswer prm env a c
          refine SameAnswer.trans ?_ hfail
          refine ⟨hstatus.symm, hbuffer.symm, hbefore.bufferLen, hbefore.localTotag, ?_⟩
          rw [Cell.totagText, Cell.totagText, hbuffer]
          cases c.localTotag <;>
            cases (beforeFail prm env a c).2.localTotag <;> rfl
      have hret : (replyLight prm env a c).1 = -1 := by rw [hlost hal]; rfl
      rw [LeavesAlone, hiff]
      exact ⟨fun h => ⟨fun _ _ _ => h.1 hret, fun hfinal =>
          absurd hfinal hopen⟩,
        fun h => ⟨fun _ => h.1 hbuf hopen' hal, fun hfinal =>
          absurd hfinal hopen⟩⟩
    · have hret : (replyLight prm env a c).1 ≠ -1 := by
        rw [hsent hal]
        decide
      exact ⟨fun _ => ⟨fun _ _ hnone => absurd hnone hal, fun hfinal =>
          absurd hfinal hopen⟩,
        fun _ => ⟨fun hfail => absurd hfail hret, fun hfinal =>
          absurd hfinal hopen⟩⟩

/-! ## The status of the reply engine -/

/-- A proxied INVITE that rings, with a To-tag in its 180. -/
def ringing : Cell where
  isInvite := true
  isLocal := false
  status := 180
  buffer := some { addr := 4096, size := 200, content := [97, 98, 99, 100] }
  bufferLen := 4
  localTotag := some (4097, 2)

/-- There is no shared memory left. -/
def exhausted : Env where
  timeouts := fun _ => 5
  cancelTicks := fun _ => (7, 7)
  responseTicks := (7, 7)
  waitTicks := 7
  alloc := none

/-- The 486 that finds no memory has taken the 180 with it, and its status
stands for a reply that has never been there. -/
theorem resize_fails :
    (replyLight {} exhausted { code := 486, buf := some [97] } ringing).1 =
        -1 ∧
      (replyLight {} exhausted { code := 486, buf := some [97] }
        ringing).2.status = 486 ∧
      ¬ LeavesAlone {} exhausted { code := 486, buf := some [97] }
        ringing := by
  refine ⟨rfl, rfl, ?_⟩
  intro h
  have hstatus := (h.1 rfl).status
  exact absurd hstatus (by decide)

end Msicp.Tm.ReplyLight
