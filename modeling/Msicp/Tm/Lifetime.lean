import Msicp.Tm.TimerList

/-!
# The lifetime of a transaction cell

A cell is linked in the hash table when it is built.  `put_on_wait` sets its
WAIT timer; `wait_handler` takes it out of the table and, once no process
refers to it, `delete_cell` frees it, at once or from the DELETE list.  The
timer process does this step by step while other processes go on using the
cell.
-/

namespace Msicp.Tm.Lifetime

open Msicp.Support Function Option

/-! ## Timer links -/

/-- The fields of a timer link that decide where it is linked. -/
structure Link where
  timerList : Home := .null
  timeOut : ℕ := 0

namespace Link

/-- `is_in_timer_list2` -/
def linked (l : Link) : Bool :=
  match l.timerList with
  | .list _ => true
  | _ => false

def setTimer (l : Link) (id : Lists) (timeOut : ℕ) : Link :=
  if l.timerList = .detached then l else ⟨.list id, timeOut⟩

def set1timer (l : Link) (id : Lists) (timeOut : ℕ) : Link :=
  if ¬ timerDeleted < l.timeOut then ⟨.list id, timeOut⟩ else l

def resetTimer (l : Link) : Link :=
  { l with timeOut := timerDeleted }

/-- `remove_timer_unsafe` -/
def remove (l : Link) : Link :=
  if l.linked then { l with timerList := .null } else l

/-- The mark of `check_and_split_time_list`. -/
def detach (l : Link) : Link :=
  { l with timerList := .detached }

theorem linked_iff (l : Link) : l.linked = true ↔ ∃ id, l.timerList = .list id := by
  cases h : l.timerList <;> simp [linked, h]

end Link

section LinkOf

variable {h h' : TimerTable} {x : ℕ}

end LinkOf

/-! ## Cells and the timer process -/

/-- The buffers of a cell, each with two timers. -/
inductive Buf
  | response
  | request (branch : ℕ)
  | localCancel (branch : ℕ)
  deriving DecidableEq

inductive TimerKind
  | fr
  | retr
  deriving DecidableEq

/-- The timers of a cell. -/
inductive CellTimer
  | wait
  | dele
  | buf (k : TimerKind) (b : Buf)
  deriving DecidableEq

/-- The lists that a timer is put on. -/
def CellTimer.fits : CellTimer → Lists → Bool
  | .wait, .wt => true
  | .dele, .delete => true
  | .buf .fr _, .fr => true
  | .buf .fr _, .frInv => true
  | .buf .retr _, .rtT1To1 => true
  | .buf .retr _, .rtT1To2 => true
  | .buf .retr _, .rtT1To3 => true
  | .buf .retr _, .rtT2 => true
  | _, _ => false

/-- How far `t_uac`, which holds no reference, has come with its cell. -/
inductive UacStage
  | done
  | building
  | failed
  | sending
  deriving DecidableEq

/-- `struct cell`, with the number of times `wait_handler` was called for it. -/
structure Cell where
  hashIndex : ℕ
  isLocal : Bool
  isInvite : Bool
  refCount : ℕ
  inTable : Bool := true
  nrOfOutgoings : ℕ := 0
  link : CellTimer → Link := fun _ => {}
  uac : UacStage := .done
  waits : ℕ := 0

/-- What `unlink_timers` goes over. -/
def Cell.buffers (t : Cell) : List Buf :=
  .response :: (List.range t.nrOfOutgoings).flatMap fun i =>
    [.request i, .localCancel i]

/-- A link of the cell changed. -/
def Cell.setLink (t : Cell) (tm : CellTimer) (l : Link) : Cell :=
  { t with link := update t.link tm l }

/-- The first look of `unlink_timers`. -/
def Cell.anyLinked (t : Cell) (k : TimerKind) : Bool :=
  t.buffers.any fun b => (t.link (.buf k b)).linked

/-- The removals of `unlink_timers` under one lock. -/
def Cell.unlink (t : Cell) (k : TimerKind) : Cell :=
  { t with link := fun tm => match tm with
      | .buf k' b =>
        if k' = k ∧ b ∈ t.buffers then (t.link tm).remove else t.link tm
      | _ => t.link tm }

def Cell.cleanupLocalcancelTimers (t : Cell) : Cell :=
  { t with link := fun tm => match tm with
      | .buf _ (.localCancel i) =>
        if i < t.nrOfOutgoings then (t.link tm).resetTimer else t.link tm
      | _ => t.link tm }

/-- The places in `delete_cell`. -/
inductive DelStage
  | look
  | retr (removeFr removeRetr : Bool)
  | fr (removeFr : Bool)
  | check
  | rearm
  | free

/-- What the timer process does to a cell: it runs the handler of one of its
buffers, or `wait_handler`, or `delete_cell` with the argument `unlock`. -/
inductive Task
  | handler (k : TimerKind) (b : Buf)
  | wait
  | del (unlock : Bool) (st : DelStage)

/-- The cells, the detached timers and the list they came from, the handler
that runs, and the cells as they were passed to `free_cell`. -/
structure State where
  cells : ℕ → Option Cell := fun _ => none
  list : Lists := .fr
  chain : List (ℕ × CellTimer) := []
  running : Option (ℕ × Task) := none
  freed : List (ℕ × Cell) := []

/-! ## Steps -/

/-- Who uses a cell: a process that holds a reference, `t_uac`, or the timer
process in a handler. -/
inductive Actor
  | worker
  | uac
  | timer

/-- What processes do with a cell: add branches, set and reset the timers of
its buffers, and put it on wait. -/
inductive Act
  | grow (nrOfOutgoings : ℕ)
  | setTimer (k : TimerKind) (b : Buf) (id : Lists) (timeOut : ℕ)
  | resetTimer (k : TimerKind) (b : Buf)
  | putOnWait (timeOut : ℕ)

/-- `t_lookup_request`, `t_reply_matching` and `t_lookup_ident`. -/
inductive Lookup
  | request
  | reply (branch : ℕ)
  | ident

inductive Event
  | newT (c hashIndex : ℕ) (isInvite : Bool)
  | tUac (c hashIndex : ℕ) (isInvite : Bool)
  | uacBuilt (c : ℕ)
  | uacDone (c : ℕ)
  | uacRemove (c : ℕ)
  | uacFree (c : ℕ)
  | lookup (how : Lookup) (c : ℕ)
  | unref (c : ℕ)
  | act (who : Actor) (c : ℕ) (a : Act)
  | split (id : Lists) (time : ℕ) (chain : List (ℕ × CellTimer))
  | fire
  | clearRetr
  | handlerDone
  | waitRemove
  | delete (timeOut : ℕ)

/-- `delete_cell` holds the bucket's lock until it has seen the reference
count, when `wait_handler` calls it. -/
def Task.holdsLock : Task → Bool
  | .del true .rearm => false
  | .del true .free => false
  | .del true _ => true
  | _ => false

/-- The bucket is locked by the timer process. -/
def State.locked (s : State) (hashIndex : ℕ) : Bool :=
  match s.running with
  | some (c, task) =>
    task.holdsLock && (s.cells c).any fun t => t.hashIndex == hashIndex
  | none => false

/-- The cells that a lookup can return. -/
def Lookup.finds : Lookup → Cell → Bool
  | .request, t => !t.isLocal
  | .reply branch, t => decide (branch < t.nrOfOutgoings)
  | .ident, _ => true

def Cell.act (t : Cell) : Act → Option Cell
  | .grow n => if t.nrOfOutgoings ≤ n then some { t with nrOfOutgoings := n }
    else none
  | .setTimer k b id timeOut =>
    if b ∈ t.buffers ∧ (CellTimer.buf k b).fits id then
      some (t.setLink (.buf k b) ((t.link (.buf k b)).setTimer id timeOut))
    else none
  | .resetTimer k b =>
    some (t.setLink (.buf k b) (t.link (.buf k b)).resetTimer)
  | .putOnWait timeOut =>
    some (t.setLink .wait ((t.link .wait).set1timer .wt timeOut))

/-- A worker holds a reference; `t_uac` only starts the timers of its
request; the timer process uses the cell whose handler runs. -/
def Actor.mayUse (s : State) (c : ℕ) (t : Cell) : Actor → Act → Bool
  | .worker, _ => decide (0 < t.refCount)
  | .uac, .setTimer _ (.request 0) _ _ => decide (t.uac = .sending)
  | .uac, _ => false
  | .timer, _ =>
    match s.running with
    | some (d, .handler _ _) => decide (d = c)
    | _ => false

/-- A cell rewritten. -/
def State.put (s : State) (c : ℕ) (t : Cell) : State :=
  { s with cells := update s.cells c (some t) }

/-- The cells after a split: the timers of the chain are marked. -/
def State.detached (s : State) (chain : List (ℕ × CellTimer)) (c : ℕ) :
    Option Cell :=
  (s.cells c).map fun t =>
    { t with link := fun tm =>
        if (c, tm) ∈ chain then (t.link tm).detach else t.link tm }

/-- A timer of the chain is on the list and due. -/
def State.due (s : State) (id : Lists) (time : ℕ) (p : ℕ × CellTimer) : Bool :=
  (s.cells p.1).any fun t =>
    (t.link p.2).timerList = .list id ∧ (t.link p.2).timeOut ≤ time

/-- The handler that `timer_routine` calls for a timer of a list. -/
def handlerTask (id : Lists) (tm : CellTimer) : Task :=
  match id, tm with
  | .wt, _ => .wait
  | .delete, _ => .del false .look
  | _, .buf k b => .handler k b
  | _, _ => .handler .fr .response

/-- One round of `run_handler_for_each`. -/
def State.fire (s : State) (c : ℕ) (tm : CellTimer)
    (rest : List (ℕ × CellTimer)) (t : Cell) : State :=
  if timerDeleted < (t.link tm).timeOut then
    { s.put c { t with waits :=
        if s.list = .wt then t.waits + 1 else t.waits } with
      chain := rest
      running := some (c, handlerTask s.list tm) }
  else { s with chain := rest }

/-- `delete_cell`, place by place. -/
def State.deleteCell (s : State) (c : ℕ) (t : Cell) (unlock : Bool) (timeOut : ℕ) : DelStage → State
  | .look => { s with
      running := some (c, .del unlock (.retr (t.anyLinked .fr) (t.anyLinked .retr))) }
  | .retr removeFr removeRetr =>
    { s.put c (if removeRetr then t.unlink .retr else t) with
      running := some (c, .del unlock (.fr removeFr)) }
  | .fr removeFr =>
    { s.put c (if removeFr then t.unlink .fr else t) with
      running := some (c, .del unlock .check) }
  | .check => { s with
      running := some (c, .del unlock (if t.refCount ≠ 0 then .rearm else .free)) }
  | .rearm =>
    { s.put c (t.setLink .dele ((t.link .dele).setTimer .delete timeOut)) with
      running := none }
  | .free => { s with running := none, freed := s.freed ++ [(c, t)] }

def State.step (ev : Event) (s : State) : Option State :=
  match ev with
  | .newT c hashIndex isInvite =>
    if s.cells c = none ∧ s.locked hashIndex = false then
      some (s.put c {
        hashIndex
        isInvite
        isLocal := false
        refCount := 1 })
    else none
  | .tUac c hashIndex isInvite =>
    if s.cells c = none ∧ s.locked hashIndex = false then
      some (s.put c {
        hashIndex
        isInvite
        isLocal := true
        refCount := 0
        uac := .building })
    else none
  | .uacBuilt c => (s.cells c).bind fun t =>
    if t.uac = .building then
      some (s.put c { t with
        uac := .sending, nrOfOutgoings := t.nrOfOutgoings + 1 })
    else none
  | .uacDone c => (s.cells c).bind fun t =>
    if t.uac = .sending then some (s.put c { t with uac := .done }) else none
  | .uacRemove c => (s.cells c).bind fun t =>
    if t.uac = .building ∧ s.locked t.hashIndex = false then
      some (s.put c { t with uac := .failed, inTable := false })
    else none
  | .uacFree c => (s.cells c).bind fun t =>
    if t.uac = .failed then
      some { s.put c { t with uac := .done } with
        freed := s.freed ++ [(c, t)] }
    else none
  | .lookup how c => (s.cells c).bind fun t =>
    if t.inTable ∧ how.finds t ∧ s.locked t.hashIndex = false then
      some (s.put c { t with refCount := t.refCount + 1 })
    else none
  | .unref c => (s.cells c).bind fun t =>
    if 0 < t.refCount ∧ s.locked t.hashIndex = false then
      some (s.put c { t with refCount := t.refCount - 1 })
    else none
  | .act who c a => (s.cells c).bind fun t =>
    if who.mayUse s c t a then (t.act a).map (s.put c) else none
  | .split id time chain =>
    if s.running = none ∧ s.chain = [] ∧ chain.Nodup ∧
        chain.all (s.due id time) then
      some { s with cells := s.detached chain, list := id, chain := chain }
    else none
  | .fire =>
    match s.running, s.chain with
    | none, (c, tm) :: rest => (s.cells c).map (s.fire c tm rest)
    | _, _ => none
  | .clearRetr =>
    match s.running with
    | some (c, .handler .retr b) => (s.cells c).map fun t =>
      s.put c (t.setLink (.buf .retr b)
        { t.link (.buf .retr b) with timerList := .null })
    | _ => none
  | .handlerDone =>
    match s.running with
    | some (_, .handler _ _) => some { s with running := none }
    | _ => none
  | .waitRemove =>
    match s.running with
    | some (c, .wait) => (s.cells c).map fun t =>
      let t := if t.isInvite then t.cleanupLocalcancelTimers else t
      { s.put c { t with inTable := false } with
        running := some (c, .del true .look) }
    | _ => none
  | .delete timeOut =>
    match s.running with
    | some (c, .del unlock st) => (s.cells c).map fun t =>
      s.deleteCell c t unlock timeOut st
    | _ => none

/-- The transaction module from its start. -/
def lifetimes : Machine State Event where
  init := fun s => s = {}
  step := State.step

/-! ## What a step does to one cell -/

/-- What the timer process does to a cell. -/
def taskOf (running : Option (ℕ × Task)) (c : ℕ) : Option Task :=
  match running with
  | some (d, task) => if d = c then some task else none
  | none => none

@[simp] theorem taskOf_none (c : ℕ) : taskOf none c = none := rfl

@[simp] theorem taskOf_self (c : ℕ) (task : Task) : taskOf (some (c, task)) c = some task := by
  simp [taskOf]

theorem taskOf_of_ne {c d : ℕ} (hne : c ≠ d) (task : Task) : taskOf (some (d, task)) c = none := by
  simp [taskOf, hne.symm]

/-- The part of the state around a cell that concerns it. -/
@[ext] structure View where
  task : Option Task
  list : Lists
  queued : CellTimer → Prop
  freed : Prop

def State.view (s : State) (c : ℕ) : View where
  task := taskOf s.running c
  list := s.list
  queued tm := (c, tm) ∈ s.chain
  freed := ∃ t, (c, t) ∈ s.freed

/-- No process and no list knows the cell. -/
def View.Blank (v : View) : Prop :=
  v.task = none ∧ (∀ tm, ¬ v.queued tm) ∧ ¬ v.freed

/-- A cell as `t_newtran` and `t_uac` insert it. -/
inductive Born (c : ℕ) : Event → Cell → Prop
  | newT (hashIndex : ℕ) (isInvite : Bool) : Born c
      (.newT c hashIndex isInvite)
      { hashIndex, isInvite, isLocal := false, refCount := 1 }
  | tUac (hashIndex : ℕ) (isInvite : Bool) : Born c
      (.tUac c hashIndex isInvite)
      { hashIndex, isInvite, isLocal := true, refCount := 0, uac := .building }

/-- The steps as they appear to one cell `c` in the state `s`. -/
inductive CellStep (s : State) (c : ℕ) : Event → Cell → View → Cell → Prop
  | other (ev : Event) (t : Cell) : CellStep s c ev t (s.view c) t
  | uacBuilt (t : Cell) (h : t.uac = .building) :
      CellStep s c (.uacBuilt c) t (s.view c)
        { t with uac := .sending, nrOfOutgoings := t.nrOfOutgoings + 1 }
  | uacDone (t : Cell) (h : t.uac = .sending) :
      CellStep s c (.uacDone c) t (s.view c) { t with uac := .done }
  | uacRemove (t : Cell) (h : t.uac = .building) :
      CellStep s c (.uacRemove c) t (s.view c)
        { t with uac := .failed, inTable := false }
  | uacFree (t : Cell) (h : t.uac = .failed) :
      CellStep s c (.uacFree c) t { s.view c with freed := True }
        { t with uac := .done }
  | lookup (how : Lookup) (t : Cell) (h : t.inTable = true)
      (hfinds : how.finds t = true) :
      CellStep s c (.lookup how c) t (s.view c)
        { t with refCount := t.refCount + 1 }
  | unref (t : Cell) (h : 0 < t.refCount)
      (hfree : ∀ task, (s.view c).task = some task → task.holdsLock = false) :
      CellStep s c (.unref c) t (s.view c)
        { t with refCount := t.refCount - 1 }
  | act (who : Actor) (a : Act) (t t' : Cell)
      (hmay : who.mayUse s c t a = true) (h : t.act a = some t') :
      CellStep s c (.act who c a) t (s.view c) t'
  | split (id : Lists) (time : ℕ) (chain : List (ℕ × CellTimer)) (t : Cell)
      (hidle : (s.view c).task = none) (hempty : ∀ tm, ¬ (s.view c).queued tm)
      (h : ∀ tm, (c, tm) ∈ chain → (t.link tm).timerList = .list id) :
      CellStep s c (.split id time chain) t
        { s.view c with list := id, queued := fun tm => (c, tm) ∈ chain }
        { t with link := fun tm =>
            if (c, tm) ∈ chain then (t.link tm).detach else t.link tm }
  | fire (tm : CellTimer) (t : Cell) (hidle : (s.view c).task = none)
      (h : (s.view c).queued tm) (hlive : timerDeleted < (t.link tm).timeOut) :
      CellStep s c .fire t
        { s.view c with
          queued := fun tm' => (s.view c).queued tm' ∧ tm' ≠ tm
          task := some (handlerTask s.list tm) }
        { t with waits := if s.list = .wt then t.waits + 1 else t.waits }
  | skip (tm : CellTimer) (t : Cell)
      (h : (s.view c).queued tm) (hdead : ¬ timerDeleted < (t.link tm).timeOut) :
      CellStep s c .fire t
        { s.view c with
          queued := fun tm' => (s.view c).queued tm' ∧ tm' ≠ tm } t
  | clearRetr (b : Buf) (t : Cell)
      (h : (s.view c).task = some (.handler .retr b)) :
      CellStep s c .clearRetr t (s.view c)
        (t.setLink (.buf .retr b)
          { t.link (.buf .retr b) with timerList := .null })
  | handlerDone (k : TimerKind) (b : Buf) (t : Cell)
      (h : (s.view c).task = some (.handler k b)) :
      CellStep s c .handlerDone t { s.view c with task := none } t
  | waitRemove (t : Cell) (h : (s.view c).task = some .wait) :
      CellStep s c .waitRemove t
        { s.view c with task := some (.del true .look) }
        { (if t.isInvite then t.cleanupLocalcancelTimers else t) with
          inTable := false }
  | look (unlock : Bool) (time : ℕ) (t : Cell)
      (h : (s.view c).task = some (.del unlock .look)) :
      CellStep s c (.delete time) t
        { s.view c with task := some (.del unlock
            (.retr (t.anyLinked .fr) (t.anyLinked .retr))) } t
  | removeRetr (unlock removeFr removeRetr : Bool) (time : ℕ) (t : Cell)
      (h : (s.view c).task = some (.del unlock (.retr removeFr removeRetr))) :
      CellStep s c (.delete time) t
        { s.view c with task := some (.del unlock (.fr removeFr)) }
        (if removeRetr then t.unlink .retr else t)
  | removeFr (unlock removeFr : Bool) (time : ℕ) (t : Cell)
      (h : (s.view c).task = some (.del unlock (.fr removeFr))) :
      CellStep s c (.delete time) t
        { s.view c with task := some (.del unlock .check) }
        (if removeFr then t.unlink .fr else t)
  | check (unlock : Bool) (time : ℕ) (t : Cell)
      (h : (s.view c).task = some (.del unlock .check)) :
      CellStep s c (.delete time) t
        { s.view c with task := some (.del unlock
            (if t.refCount ≠ 0 then .rearm else .free)) } t
  | rearm (unlock : Bool) (time : ℕ) (t : Cell)
      (h : (s.view c).task = some (.del unlock .rearm)) :
      CellStep s c (.delete time) t { s.view c with task := none }
        (t.setLink .dele ((t.link .dele).setTimer .delete time))
  | free (unlock : Bool) (time : ℕ) (t : Cell)
      (h : (s.view c).task = some (.del unlock .free)) :
      CellStep s c (.delete time) t
        { s.view c with task := none, freed := True } t

section StepCell

variable {s s' : State} {c d : ℕ} {t t' : Cell} {ev : Event}

theorem put_cells (h : (s.put d t).cells c = some t') :
    (c = d ∧ t' = t) ∨ (c ≠ d ∧ s.cells c = some t') := by
  by_cases hcd : c = d
  · subst hcd
    simp only [State.put, update_self, some.injEq] at h
    exact .inl ⟨rfl, h.symm⟩
  · simp only [State.put, update_of_ne hcd] at h
    exact .inr ⟨hcd, h⟩

theorem view_running (s : State) (cells : ℕ → Option Cell) (c : ℕ) (running : Option (ℕ × Task)) :
    State.view { s with cells := cells, running := running } c =
      { s.view c with task := taskOf running c } := rfl

variable {running : Option (ℕ × Task)}

theorem view_running_ne {task : Task} (hrun : s.running = some (d, task))
    (hne : c ≠ d) (cells : ℕ → Option Cell)
    (hr : taskOf running c = none) :
    State.view { s with cells := cells, running := running } c =
      s.view c := by
  rw [view_running, hr]
  have htask : (s.view c).task = none := by
    simp only [State.view, hrun, taskOf_of_ne hne]
  rw [← htask]

theorem view_task_self {task : Task} (hrun : s.running = some (c, task)) :
    (s.view c).task = some task := by
  simp only [State.view, hrun, taskOf_self]

theorem running_of_task {task : Task}
    (h : (s.view c).task = some task) : s.running = some (c, task) := by
  simp only [State.view, taskOf] at h
  split at h
  · rename_i d task' hrun
    split at h
    · rename_i hd
      rw [hrun, hd, some.inj h]
    · cases h
  · cases h

/-- A cell after a step was there before, and the step did to it what one of
the cases says, or the step built it. -/
def Changes (s : State) (ev : Event) (s' : State) : Prop :=
  ∀ c t', s'.cells c = some t' → (s.cells c = none ∧ Born c ev t' ∧ s'.view c = s.view c) ∨
      ∃ t, s.cells c = some t ∧ CellStep s c ev t (s'.view c) t'

theorem Changes.put (ht : s.cells d = some t) (hstep : CellStep s d ev t (s.view d) t') :
    Changes s ev (s.put d t') := by
  intro c u hc
  rcases put_cells hc with ⟨rfl, rfl⟩ | ⟨-, hc⟩
  · exact .inr ⟨t, ht, hstep⟩
  · exact .inr ⟨u, hc, .other ev u⟩

theorem Changes.born (hd : s.cells d = none) (hborn : Born d ev t) : Changes s ev (s.put d t) := by
  intro c u hc
  rcases put_cells hc with ⟨rfl, rfl⟩ | ⟨-, hc⟩
  · exact .inl ⟨hd, hborn, rfl⟩
  · exact .inr ⟨u, hc, .other ev u⟩

theorem Changes.task {task : Task} (hrun : s.running = some (d, task)) (ht : s.cells d = some t)
    (hother : ∀ c ≠ d, taskOf running c = none)
    (hstep : CellStep s d ev t { s.view d with task := taskOf running d } t') :
    Changes s ev { s.put d t' with running := running } := by
  intro c u hc
  rcases put_cells hc with ⟨rfl, rfl⟩ | ⟨hne, hc⟩
  · exact .inr ⟨t, ht, hstep⟩
  · refine .inr ⟨u, hc, ?_⟩
    have hview := view_running_ne hrun hne (s.put d t').cells (hother c hne)
    show CellStep s c ev u (State.view
      { s with cells := (s.put d t').cells, running := running } c) u
    rw [hview]
    exact .other ev u

theorem Changes.task_same {task : Task} (hrun : s.running = some (d, task))
    (hother : ∀ c ≠ d, taskOf running c = none)
    (hstep : ∀ t, s.cells d = some t →
      CellStep s d ev t { s.view d with task := taskOf running d } t) :
    Changes s ev { s with running := running } := by
  intro c u hc
  by_cases hne : c = d
  · subst hne
    exact .inr ⟨u, hc, hstep u hc⟩
  · refine .inr ⟨u, hc, ?_⟩
    have hview := view_running_ne hrun hne s.cells (hother c hne)
    show CellStep s c ev u (State.view
      { s with cells := s.cells, running := running } c) u
    rw [hview]
    exact .other ev u

theorem locked_false {task : Task} (hview : (s.view c).task = some task)
    (ht : s.cells c = some t) (h : s.locked t.hashIndex = false) :
    task.holdsLock = false := by
  cases hrun : s.running with
  | none => simp [State.view, hrun] at hview
  | some p =>
    obtain ⟨e, task'⟩ := p
    by_cases he : e = c
    · subst he
      have htask : task' = task := by simpa [State.view, hrun] using hview
      subst htask
      simpa [State.locked, hrun, ht] using h
    · simp [State.view, hrun, taskOf, he] at hview

/-- The round of `run_handler_for_each` for the first timer of the chain. -/
theorem Changes.fire {tm : CellTimer} {rest : List (ℕ × CellTimer)}
    (hrun : s.running = none) (hchain : s.chain = (d, tm) :: rest)
    (hnodup : s.chain.Nodup) (ht : s.cells d = some t) :
    Changes s .fire (s.fire d tm rest t) := by
  rw [hchain] at hnodup
  have hnotin := (List.nodup_cons.mp hnodup).1
  have htask : ∀ c, (s.view c).task = none := by
    intro c
    simp only [State.view, hrun, taskOf_none]
  have hself : (fun tm' => (d, tm') ∈ rest) = fun tm' => (s.view d).queued tm' ∧ tm' ≠ tm := by
    funext tm'
    apply propext
    simp only [State.view, hchain, List.mem_cons, Prod.mk.injEq, true_and]
    constructor
    · intro hmem
      refine ⟨.inr hmem, ?_⟩
      rintro rfl
      exact hnotin hmem
    · rintro ⟨rfl | hmem, hne⟩
      · exact absurd rfl hne
      · exact hmem
  have hrest : ∀ c ≠ d, (fun tm' => (c, tm') ∈ rest) = (s.view c).queued := by
    intro c hne
    funext tm'
    simp [State.view, hchain, hne]
  have hqueued : (s.view d).queued tm := by
    simp only [State.view, hchain]
    exact List.mem_cons_self
  by_cases hlive : timerDeleted < (t.link tm).timeOut
  · rw [State.fire, if_pos hlive]
    intro c u hc
    rcases put_cells hc with ⟨rfl, rfl⟩ | ⟨hne, hc⟩
    · refine .inr ⟨t, ht, ?_⟩
      have hstep := CellStep.fire tm t (htask c) hqueued hlive
      rw [← hself] at hstep
      simp only [State.view, State.put, taskOf_self] at hstep ⊢
      exact hstep
    · refine .inr ⟨u, hc, ?_⟩
      have hview : State.view { s.put d { t with waits :=
            if s.list = .wt then t.waits + 1 else t.waits } with
          chain := rest
          running := some (d, handlerTask s.list tm) } c = s.view c := by
        apply View.ext
        · simp only [State.view, hrun, taskOf_none, taskOf_of_ne hne]
        · rfl
        · exact hrest c hne
        · rfl
      rw [hview]
      exact .other _ u
  · rw [State.fire, if_neg hlive]
    intro c u hc
    by_cases hne : c = d
    · subst hne
      have hut : u = t := some.inj (hc.symm.trans ht)
      subst hut
      refine .inr ⟨u, ht, ?_⟩
      have hstep := CellStep.skip tm u hqueued hlive
      rw [← hself] at hstep
      exact hstep
    · refine .inr ⟨u, hc, ?_⟩
      have hview : State.view { s with chain := rest } c = s.view c := by
        apply View.ext
        · rfl
        · rfl
        · exact hrest c hne
        · rfl
      rw [hview]
      exact .other _ u

theorem view_freed_self (s : State) (cells : ℕ → Option Cell) (c : ℕ)
    (t : Cell) (running : Option (ℕ × Task)) :
    State.view { s with
      cells := cells, running := running, freed := s.freed ++ [(c, t)] } c =
      { s.view c with task := taskOf running c, freed := True } := by
  apply View.ext
  · rfl
  · rfl
  · rfl
  · simp only [State.view, eq_iff_iff, iff_true]
    exact ⟨t, List.mem_append_right _ List.mem_cons_self⟩

theorem view_freed_ne (hne : c ≠ d) (s : State) (cells : ℕ → Option Cell)
    (t : Cell) (running : Option (ℕ × Task))
    (hr : taskOf running c = (s.view c).task) :
    State.view { s with
      cells := cells, running := running, freed := s.freed ++ [(d, t)] } c =
      s.view c := by
  apply View.ext
  · exact hr
  · rfl
  · rfl
  · simp [State.view, hne]

/-- One step of the module, seen from its cells. -/
theorem step_changes (hnodup : s.chain.Nodup) (hs : s.step ev = some s') :
    Changes s ev s' := by
  cases ev with
  | newT c hashIndex isInvite =>
    simp only [State.step] at hs
    obtain ⟨h, ⟨⟩⟩ := ite_none_right_eq_some.mp hs
    exact Changes.born h.1 (.newT hashIndex isInvite)
  | tUac c hashIndex isInvite =>
    simp only [State.step] at hs
    obtain ⟨h, ⟨⟩⟩ := ite_none_right_eq_some.mp hs
    exact Changes.born h.1 (.tUac hashIndex isInvite)
  | uacBuilt c =>
    obtain ⟨t, ht, hif⟩ := bind_eq_some_iff.mp hs
    obtain ⟨h, ⟨⟩⟩ := ite_none_right_eq_some.mp hif
    exact Changes.put ht (.uacBuilt t h)
  | uacDone c =>
    obtain ⟨t, ht, hif⟩ := bind_eq_some_iff.mp hs
    obtain ⟨h, ⟨⟩⟩ := ite_none_right_eq_some.mp hif
    exact Changes.put ht (.uacDone t h)
  | uacRemove c =>
    obtain ⟨t, ht, hif⟩ := bind_eq_some_iff.mp hs
    obtain ⟨h, ⟨⟩⟩ := ite_none_right_eq_some.mp hif
    exact Changes.put ht (.uacRemove t h.1)
  | uacFree c =>
    obtain ⟨t, ht, hif⟩ := bind_eq_some_iff.mp hs
    obtain ⟨h, ⟨⟩⟩ := ite_none_right_eq_some.mp hif
    intro d u hd
    rcases put_cells hd with ⟨rfl, rfl⟩ | ⟨hne, hd⟩
    · refine .inr ⟨t, ht, ?_⟩
      have hview := view_freed_self s (s.put d { t with uac := .done }).cells
        d t s.running
      have hstep := CellStep.uacFree (s := s) (c := d) t h
      exact hview ▸ hstep
    · refine .inr ⟨u, hd, ?_⟩
      have hview := view_freed_ne hne s (s.put c { t with uac := .done }).cells
        t s.running rfl
      have hstep := CellStep.other (s := s) (c := d) (.uacFree c) u
      exact hview ▸ hstep
  | lookup how c =>
    obtain ⟨t, ht, hif⟩ := bind_eq_some_iff.mp hs
    obtain ⟨h, ⟨⟩⟩ := ite_none_right_eq_some.mp hif
    exact Changes.put ht (.lookup how t h.1 h.2.1)
  | unref c =>
    obtain ⟨t, ht, hif⟩ := bind_eq_some_iff.mp hs
    obtain ⟨h, ⟨⟩⟩ := ite_none_right_eq_some.mp hif
    exact Changes.put ht (.unref t h.1 fun task htask => locked_false htask ht h.2)
  | act who c a =>
    obtain ⟨t, ht, hif⟩ := bind_eq_some_iff.mp hs
    obtain ⟨h, hif⟩ := ite_none_right_eq_some.mp hif
    obtain ⟨t', ht', heq⟩ := map_eq_some_iff.mp hif
    subst heq
    exact Changes.put ht (.act who a t t' h ht')
  | split id time chain =>
    simp only [State.step] at hs
    obtain ⟨h, hs⟩ := ite_none_right_eq_some.mp hs
    obtain ⟨hrun, hchain, -, hdue⟩ := h
    cases hs
    intro d u hd
    obtain ⟨t, ht, heq⟩ := map_eq_some_iff.mp hd
    subst heq
    refine .inr ⟨t, ht, ?_⟩
    apply CellStep.split
    · simp only [State.view, hrun, taskOf_none]
    · intro tm hq
      simp only [State.view, hchain] at hq
      cases hq
    · intro tm hmem
      have hp := List.all_eq_true.mp hdue (d, tm) hmem
      have hboth : (t.link tm).timerList = .list id ∧ (t.link tm).timeOut ≤ time := by
        simpa [State.due, ht] using hp
      exact hboth.1
  | fire =>
    simp only [State.step] at hs
    split at hs
    case h_2 => cases hs
    case h_1 c tm rest hrun hchain =>
      obtain ⟨t, ht, heq⟩ := map_eq_some_iff.mp hs
      subst heq
      exact Changes.fire hrun hchain hnodup ht
  | clearRetr =>
    simp only [State.step] at hs
    split at hs
    case h_2 => cases hs
    case h_1 c b hrun =>
      obtain ⟨t, ht, heq⟩ := map_eq_some_iff.mp hs
      subst heq
      exact Changes.put ht (.clearRetr b t (view_task_self hrun))
  | handlerDone =>
    simp only [State.step] at hs
    split at hs
    case h_2 => cases hs
    case h_1 c k b hrun =>
      cases hs
      apply Changes.task_same hrun (fun _ _ => rfl)
      exact fun t _ => .handlerDone k b t (view_task_self hrun)
  | waitRemove =>
    simp only [State.step] at hs
    split at hs
    case h_2 => cases hs
    case h_1 c hrun =>
      obtain ⟨t, ht, heq⟩ := map_eq_some_iff.mp hs
      subst heq
      apply Changes.task hrun ht fun d hne => taskOf_of_ne hne _
      rw [taskOf_self]
      exact .waitRemove t (view_task_self hrun)
  | delete time =>
    simp only [State.step] at hs
    split at hs
    case h_2 => cases hs
    case h_1 c unlock st hrun =>
      have htask := view_task_self hrun
      obtain ⟨t, ht, heq⟩ := map_eq_some_iff.mp hs
      subst heq
      cases st with
      | look =>
        apply Changes.task_same hrun fun d hne => taskOf_of_ne hne _
        intro t' ht'
        have htt' : t' = t := some.inj (ht'.symm.trans ht)
        subst htt'
        rw [taskOf_self]
        exact .look unlock time t' htask
      | retr removeFr removeRetr =>
        apply Changes.task hrun ht fun d hne => taskOf_of_ne hne _
        rw [taskOf_self]
        exact .removeRetr unlock removeFr removeRetr time t htask
      | fr removeFr =>
        apply Changes.task hrun ht fun d hne => taskOf_of_ne hne _
        rw [taskOf_self]
        exact .removeFr unlock removeFr time t htask
      | check =>
        apply Changes.task_same hrun fun d hne => taskOf_of_ne hne _
        intro t' ht'
        have htt' : t' = t := some.inj (ht'.symm.trans ht)
        subst htt'
        rw [taskOf_self]
        exact .check unlock time t' htask
      | rearm =>
        apply Changes.task hrun ht fun _ _ => rfl
        exact .rearm unlock time t htask
      | free =>
        intro d u hd
        by_cases hne : d = c
        · subst hne
          have hut : u = t := some.inj (hd.symm.trans ht)
          subst hut
          refine .inr ⟨u, hd, ?_⟩
          have hview := view_freed_self s s.cells d u none
          have hstep := CellStep.free unlock time u htask
          exact hview ▸ hstep
        · refine .inr ⟨u, hd, ?_⟩
          have hold : (s.view d).task = none := by
            simp only [State.view, hrun, taskOf_of_ne hne]
          have hview := view_freed_ne hne s s.cells t none hold.symm
          have hstep := CellStep.other (s := s) (c := d) (.delete time) u
          exact hview ▸ hstep

end StepCell

end Msicp.Tm.Lifetime
