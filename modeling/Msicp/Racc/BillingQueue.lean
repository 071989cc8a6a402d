import Msicp.Support.Machine
import Mathlib.Data.Int.Notation
import Mathlib.Data.List.Nodup

/-!
# The queue of billing records (`racc_mod.c`)

A SIP process puts records at the head of a doubly linked list, and a thread of
its own takes them from the other end and writes them to the FIFO.  What is done
under the mutex is one step, every access outside of it a step of its own.  The
queue of the STIR records has the same two functions.
-/

namespace Msicp.Racc

open Msicp.Support

variable {α ρ : Type*} [DecidableEq α]

/-- `struct racc_call_details`: its fields that are set so far, and the links. -/
structure CallDetails (α ρ : Type*) where
  data : List ρ
  next : Option α
  prev : Option α

/-- Where the process is: outside of `insert_billing_session`, before the
`memset`, copying the fields (`done` are copied), and before the `sem_post`. -/
inductive Producer (α ρ : Type*)
  | idle
  | zeroing (billingData : α) (s : List ρ)
  | filling (billingData : α) (done rest : List ρ)
  | posting

def Producer.isIdle : Producer α ρ → Bool
  | .idle => true
  | _ => false

/-- Where `billing_thread` is: what it does next, with what it has read. -/
inductive Consumer (α : Type*)
  | waiting
  | locking
  | testPrev (temp : α)
  | readPrev (temp : α)
  | readHead (temp : α) (prev : Option α)
  | readPrevNext (temp : α)
  | cutNext (temp : α) (prev : Option α)
  | cutLocked (temp : α)
  | readPrevLeaf (temp : α)
  | setLeaf (temp : α) (prev : Option α)
  | writing (temp : α)
  | freeing (temp : α)
  deriving DecidableEq

/-- The memory of both, `billing_data_head`, `billing_data_leaf` and
`billing_semid`; the records that were inserted, and those written to the FIFO.
`fault` is set by an access to memory that is not allocated. -/
structure State (α ρ : Type*) where
  heap : α → Option (CallDetails α ρ)
  head : Option α
  leaf : Option α
  sem : ℕ
  producer : Producer α ρ
  consumer : Consumer α
  inserted : List (List ρ)
  fifo : List (List ρ)
  fault : Bool

namespace State

variable (s : State α ρ)

def crash : State α ρ := { s with fault := true }

/-- A read of a node. -/
def load (a : α) (k : CallDetails α ρ → State α ρ) : State α ρ :=
  match s.heap a with
  | some n => k n
  | none => s.crash

/-- A write to a node. -/
def store (a : α) (f : CallDetails α ρ → CallDetails α ρ) : State α ρ :=
  s.load a fun n => { s with heap := Function.update s.heap a (some (f n)) }

/-- `link->next = NULL` -/
def clearNext (link : Option α) : State α ρ :=
  match link with
  | some p => s.store p fun n => { n with next := none }
  | none => s.crash

/-! ## `insert_billing_session` -/

/-- What it does under the mutex. -/
def insert (billingData : α) : State α ρ :=
  let s := s.store billingData fun n => { n with next := none, prev := none }
  match s.head with
  | none => { s with head := some billingData, leaf := some billingData }
  | some head =>
    let s := s.store billingData fun n => { n with next := some head }
    let s := s.store head fun n => { n with prev := some billingData }
    { s with head := some billingData }

/-- The process goes on in `insert_billing_session`. -/
def produce : Option (State α ρ) :=
  match s.producer with
  | .idle => none
  | .zeroing a fields =>
    some { s.store a (fun _ => ⟨[], none, none⟩) with
      producer := .filling a [] fields }
  | .filling a done (field :: rest) =>
    some { s.store a (fun n => { n with data := n.data ++ [field] }) with
      producer := .filling a (done ++ [field]) rest }
  | .filling a done [] =>
    some { s.insert a with
      producer := .posting, inserted := s.inserted ++ [done] }
  | .posting => some { s with sem := s.sem + 1, producer := .idle }

/-! ## `billing_thread` -/

/-- `print_queue_details`: `none` when it leaves the memory or goes through more
nodes than there are. -/
def printQueueDetails (heap : α → Option (CallDetails α ρ)) : ℕ → Option α → Option ℕ
  | _, none => some 0
  | 0, some _ => none
  | fuel + 1, some a =>
    match heap a with
    | none => none
    | some n => (printQueueDetails heap fuel n.next).map (· + 1)

/-- The log entry, which counts the queue. -/
def logEntry : State α ρ :=
  match s.leaf with
  | none => s
  | some temp =>
    s.load temp fun _ =>
      match printQueueDetails s.heap s.inserted.length s.head with
      | some _ => s
      | none => s.crash

/-- What the thread does under the mutex. -/
def takeLeaf (logs : Bool) : State α ρ :=
  let s := if logs then s.logEntry else s
  if s.leaf = s.head then
    { s with
      head := none
      consumer := match s.leaf with
        | some temp => .writing temp
        | none => .waiting }
  else
    { s with
      consumer := match s.leaf with
        | some temp => .testPrev temp
        | none => .waiting }

/-- `billing_thread` goes on; it is blocked at a semaphore that is zero. -/
def consume (logs : Bool) : Option (State α ρ) :=
  match s.consumer with
  | .waiting =>
    if s.sem = 0 then none
    else some { s with sem := s.sem - 1, consumer := .locking }
  | .locking => some (s.takeLeaf logs)
  | .testPrev temp =>
    some (s.load temp fun n =>
      { s with
        consumer := if n.prev.isSome then .readPrev temp else .writing temp })
  | .readPrev temp =>
    some (s.load temp fun n => { s with consumer := .readHead temp n.prev })
  | .readHead temp prev =>
    some { s with
      consumer := if prev ≠ s.head then .readPrevNext temp
        else .cutLocked temp }
  | .readPrevNext temp =>
    some (s.load temp fun n => { s with consumer := .cutNext temp n.prev })
  | .cutNext temp prev =>
    some { s.clearNext prev with consumer := .readPrevLeaf temp }
  | .cutLocked temp =>
    some (s.load temp fun n =>
      { s.clearNext n.prev with consumer := .readPrevLeaf temp })
  | .readPrevLeaf temp =>
    some (s.load temp fun n => { s with consumer := .setLeaf temp n.prev })
  | .setLeaf temp prev =>
    some { s with leaf := prev, consumer := .writing temp }
  | .writing temp =>
    some (s.load temp fun n =>
      { s with fifo := s.fifo ++ [n.data], consumer := .freeing temp })
  | .freeing temp =>
    some (s.load temp fun _ =>
      { s with
        heap := Function.update s.heap temp none
        consumer := .waiting })

end State

/-! ## Runs -/

/-- The steps: a call for which `malloc` has returned a node with any contents,
or nothing, and what follows in one of the two. -/
inductive Label (α ρ : Type*)
  | call (fields : List ρ) (billingData : α) (contents : CallDetails α ρ)
  | callFailed
  | produce
  | consume

def step (logs : Bool) (l : Label α ρ) (s : State α ρ) : Option (State α ρ) :=
  match l with
  | .call fields a contents =>
    if s.producer.isIdle ∧ (s.heap a).isNone then
      some { s with
        heap := Function.update s.heap a (some contents)
        producer := .zeroing a fields }
    else none
  | .callFailed => if s.producer.isIdle then some s else none
  | .produce => s.produce
  | .consume => s.consume logs

/-- After `sem_init` and `pthread_create`. -/
def State.start : State α ρ :=
  ⟨fun _ => none, none, none, 0, .idle, .waiting, [], [], false⟩

/-- A process and its thread. -/
def queueMachine (α ρ : Type*) [DecidableEq α] (logs : Bool) : Machine (State α ρ) (Label α ρ) where
  init s := s = .start
  step := step logs

/-- `insert_billing_session` and `billing_thread` -/
def billing (α ρ : Type*) [DecidableEq α] (nEnableLogs : ℤ) : Machine (State α ρ) (Label α ρ) :=
  queueMachine α ρ (nEnableLogs = 1)

/-- `insert_stir_session` and `stir_billing_thread`, which has no log entry -/
def stirBilling (α ρ : Type*) [DecidableEq α] : Machine (State α ρ) (Label α ρ) :=
  queueMachine α ρ false

end Msicp.Racc

/-!
## The invariant of the queue of billing records
-/

namespace Msicp.Racc

variable {α ρ : Type*}

/-! ## The queue in memory -/

/-- The node of the oldest record. -/
def oldest (q : List (α × List ρ)) : Option α := q.head?.map Prod.fst

/-- The node of the newest record. -/
def newest (q : List (α × List ρ)) : Option α := q.getLast?.map Prod.fst

/-- The nodes of `q` hold its records, the oldest first.  They are linked both
ways; the `next` of the oldest node is `back`, the `prev` of the newest null. -/
def Queued (heap : α → Option (CallDetails α ρ)) : Option α → List (α × List ρ) → Prop
  | _, [] => True
  | back, x :: q =>
    heap x.1 = some ⟨x.2, back, oldest q⟩ ∧ Queued heap (some x.1) q

section Queue

variable {heap heap' : α → Option (CallDetails α ρ)} {back : Option α}
  {q : List (α × List ρ)}

section

variable (h : Queued heap back q)
include h

theorem Queued.congr (hsame : ∀ x ∈ q, heap' x.1 = heap x.1) : Queued heap' back q := by
  induction q generalizing back with
  | nil => trivial
  | cons x q ih =>
    refine ⟨(hsame x List.mem_cons_self).trans h.1, ih h.2 ?_⟩
    exact fun y hy => hsame y (List.mem_cons_of_mem x hy)

theorem Queued.update [DecidableEq α] {a : α}
    (ha : a ∉ q.map Prod.fst) (n : Option (CallDetails α ρ)) :
    Queued (Function.update heap a n) back q := by
  refine h.congr fun x hx => ?_
  have hxa : x.1 ≠ a := fun hsame => ha (hsame ▸ List.mem_map_of_mem hx)
  rw [Function.update_of_ne hxa]

theorem Queued.allocated : ∀ a ∈ q.map Prod.fst, heap a ≠ none := by
  induction q generalizing back with
  | nil => simp
  | cons x q ih =>
    intro a ha
    rcases List.mem_cons.mp ha with rfl | ha
    · simp [h.1]
    · exact ih h.2 a ha

theorem Queued.newest_eq {l : α}
    (hl : newest q = some l) : ∃ n, heap l = some n ∧ n.prev = none := by
  induction q generalizing back with
  | nil => simp [newest] at hl
  | cons x q ih =>
    cases q with
    | nil =>
      simp only [newest, List.getLast?_singleton, Option.map_some, Option.some.injEq] at hl
      subst hl
      exact ⟨_, h.1, rfl⟩
    | cons y q =>
      refine ih h.2 ?_
      simpa [newest] using hl

end

theorem newest_mem {l : α} (h : newest q = some l) : l ∈ q.map Prod.fst := by
  obtain ⟨x, hx, rfl⟩ := Option.map_eq_some_iff.mp h
  exact List.mem_map_of_mem (List.mem_of_getLast? hx)

/-- A node is put behind the newest one: its `next` is that node, whose `prev`
it becomes. -/
theorem Queued.snoc [DecidableEq α] {l a : α} {n : CallDetails α ρ}
    {record : List ρ} (h : Queued heap back q)
    (hnodup : (q.map Prod.fst).Nodup) (ha : a ∉ q.map Prod.fst)
    (hl : newest q = some l) (hn : heap l = some n) :
    Queued (Function.update (Function.update heap a (some ⟨record, some l, none⟩)) l
        (some { n with prev := some a })) back (q ++ [(a, record)]) := by
  have hal : a ≠ l := fun h => ha (h ▸ newest_mem hl)
  induction q generalizing back with
  | nil => simp [newest] at hl
  | cons x q ih =>
    rw [List.map_cons, List.nodup_cons] at hnodup
    rw [List.map_cons, List.mem_cons, not_or] at ha
    cases q with
    | nil =>
      simp only [newest, List.getLast?_singleton, Option.map_some, Option.some.injEq] at hl
      subst hl
      rw [h.1, Option.some.injEq] at hn
      subst hn
      refine ⟨?_, ?_, trivial⟩
      · simp [oldest]
      · simp [Function.update_of_ne hal, oldest]
    | cons y q =>
      have hlast : newest (y :: q) = some l := by
        simpa [newest] using hl
      have hxl : x.1 ≠ l := fun hsame =>
        hnodup.1 (hsame ▸ newest_mem hlast)
      refine ⟨?_, ih h.2 hnodup.2 ha.2 hlast⟩
      rw [Function.update_of_ne hxl, Function.update_of_ne (Ne.symm ha.1), h.1]
      rfl

theorem Queued.print (h : Queued heap back q) (k : ℕ)
    (hback : (State.printQueueDetails heap k back).isSome) :
    (State.printQueueDetails heap (k + q.length) ((newest q).or back)).isSome := by
  induction q generalizing back k with
  | nil => simpa [newest] using hback
  | cons x q ih =>
    have hnext : (State.printQueueDetails heap (k + 1) (some x.1)).isSome := by
      simpa [State.printQueueDetails, h.1] using hback
    have hrest := ih h.2 (k + 1) hnext
    have hnewest : (newest (x :: q)).or back = (newest q).or (some x.1) := by
      cases q with
      | nil => rfl
      | cons y q => simp [newest, List.getLast?_cons]
    rw [hnewest, List.length_cons, Nat.add_comm q.length, ← Nat.add_assoc]
    exact hrest

theorem isSome_newest (hq : q ≠ []) : ∃ l, newest q = some l := by
  cases hlast : q.getLast? with
  | none => exact absurd (List.getLast?_eq_none_iff.mp hlast) hq
  | some x => exact ⟨x.1, by simp [newest, hlast]⟩

theorem oldest_append (hq : q ≠ []) (x : α × List ρ) : oldest (q ++ [x]) = oldest q := by
  rw [oldest, List.head?_append_of_ne_nil q hq, oldest]

theorem eq_nil_of_newest {x : α × List ρ} (hnodup : ((x :: q).map Prod.fst).Nodup)
    (h : newest (x :: q) = some x.1) : q = [] := by
  cases q with
  | nil => rfl
  | cons y q =>
    have hlast : newest (y :: q) = some x.1 := by
      simpa [newest] using h
    rw [List.map_cons, List.nodup_cons] at hnodup
    exact absurd (newest_mem hlast) hnodup.1

end Queue

/-! ## The two threads -/

/-- The node that the process is filling. -/
def Producer.building : Producer α ρ → Option α
  | .zeroing a _ => some a
  | .filling a _ _ => some a
  | _ => none

/-- A record is in the queue that has not been posted. -/
def Producer.pending : Producer α ρ → ℕ
  | .posting => 1
  | _ => 0

namespace Consumer

/-- The node that the thread has taken. -/
def temp : Consumer α → Option α
  | .waiting | .locking => none
  | .testPrev t | .readPrev t | .readHead t _ | .readPrevNext t
  | .cutNext t _ | .cutLocked t | .readPrevLeaf t | .setLeaf t _ | .writing t
  | .freeing t => some t

/-- The node whose record is still to be written. -/
def unwritten : Consumer α → Option α
  | .freeing _ => none
  | c => c.temp

/-- The thread has taken a node in front of others and has not yet made the next
one the leaf. -/
def cutting : Consumer α → Bool
  | .testPrev _ | .readPrev _ | .readHead _ _ | .readPrevNext _ | .cutNext _ _
  | .cutLocked _ | .readPrevLeaf _ | .setLeaf _ _ => true
  | _ => false

/-- What the `next` of the oldest node is: the node that was taken, until it is
cut off. -/
def back : Consumer α → Option α
  | .testPrev t | .readPrev t | .readHead t _ | .readPrevNext t | .cutNext t _
  | .cutLocked t => some t
  | _ => none

/-- The thread has been let in for a node that it has not taken. -/
def taken : Consumer α → ℕ
  | .locking => 1
  | _ => 0

/-- The `prev` that has been read. -/
def link : Consumer α → Option (Option α)
  | .readHead _ p | .cutNext _ p | .setLeaf _ p => some p
  | _ => none

theorem back_of_cutting {c : Consumer α} (h : c.cutting = false) : c.back = none := by
  cases c <;> first | rfl | cases h

theorem cutting_of_link {c : Consumer α} {p : Option α} (h : c.link = some p) :
    c.cutting = true := by
  cases c <;> first | rfl | cases h

theorem temp_of_unwritten {c : Consumer α} {t : α} (h : c.unwritten = some t) :
    c.temp = some t := by
  cases c <;> first | exact h | cases h

end Consumer

/-- The record that is taken and not written. -/
def State.held (s : State α ρ) : List (List ρ) :=
  match s.consumer.unwritten.bind s.heap with
  | some n => [n.data]
  | none => []

/-- `q` is the queue, from the leaf to the head. -/
structure Inv (s : State α ρ) (q : List (α × List ρ)) : Prop where
  fault : s.fault = false
  nodup : (q.map Prod.fst).Nodup
  queued : Queued s.heap s.consumer.back q
  head : s.head = newest q
  sem : s.sem + s.producer.pending + s.consumer.taken = q.length
  records : s.inserted = s.fifo ++ s.held ++ q.map Prod.snd
  temp : ∀ t, s.consumer.temp = some t → t ∉ q.map Prod.fst ∧
    ∃ n, s.heap t = some n ∧ (s.consumer.cutting = true → n.prev = oldest q)
  leaf : s.consumer.cutting = false → q ≠ [] → s.leaf = oldest q
  cutting : s.consumer.cutting = true → q ≠ []
  link : ∀ p, s.consumer.link = some p → p = oldest q
  building : ∀ a, s.producer.building = some a →
    a ∉ q.map Prod.fst ∧ s.consumer.temp ≠ some a ∧ s.heap a ≠ none
  data : ∀ a done rest, s.producer = .filling a done rest →
    ∃ n, s.heap a = some n ∧ n.data = done

theorem held_eq {s s' : State α ρ} (hc : s'.consumer = s.consumer)
    (hsame : ∀ t, s.consumer.temp = some t → s'.heap t = s.heap t) :
    s'.held = s.held := by
  unfold State.held
  rw [hc]
  cases hun : s.consumer.unwritten with
  | none => rfl
  | some t =>
    rw [Option.bind_some, Option.bind_some, hsame t (Consumer.temp_of_unwritten hun)]

section Access

variable [DecidableEq α] {s : State α ρ} {a : α} {n : CallDetails α ρ}

omit [DecidableEq α] in
theorem State.load_eq (hn : s.heap a = some n)
    (k : CallDetails α ρ → State α ρ) : s.load a k = k n := by
  rw [State.load, hn]

theorem State.store_eq (hn : s.heap a = some n) (f : CallDetails α ρ → CallDetails α ρ) :
    s.store a f = { s with heap := Function.update s.heap a (some (f n)) } :=
  State.load_eq hn _

theorem State.store_rest (s : State α ρ) (a : α) (f : CallDetails α ρ → CallDetails α ρ) :
    (s.store a f).fifo = s.fifo ∧ (s.store a f).consumer = s.consumer ∧
      (s.store a f).head = s.head := by
  unfold State.store State.load
  cases s.heap a <;> exact ⟨rfl, rfl, rfl⟩

theorem State.clearNext_fifo (s : State α ρ) (link : Option α) :
    (s.clearNext link).fifo = s.fifo := by
  cases link with
  | none => rfl
  | some p => exact (s.store_rest p _).1

theorem State.insert_rest (s : State α ρ) (a : α) :
    (s.insert a).fifo = s.fifo ∧ (s.insert a).consumer = s.consumer := by
  unfold State.insert
  dsimp only
  split
  · exact ⟨(s.store_rest a _).1, (s.store_rest a _).2.1⟩
  · constructor
    · rw [(State.store_rest _ _ _).1, (State.store_rest _ _ _).1, (s.store_rest a _).1]
    · rw [(State.store_rest _ _ _).2.1, (State.store_rest _ _ _).2.1, (s.store_rest a _).2.1]

theorem State.insert_of_none (hn : s.heap a = some n) (hhead : s.head = none) : s.insert a =
      { s with
        heap := Function.update s.heap a (some ⟨n.data, none, none⟩)
        head := some a
        leaf := some a } := by
  rw [State.insert, State.store_eq hn]
  dsimp only
  rw [hhead]

theorem State.insert_of_some {l : α} {m : CallDetails α ρ}
    (hn : s.heap a = some n) (hhead : s.head = some l) (hm : s.heap l = some m)
    (hla : l ≠ a) :
    s.insert a =
      { s with
        heap := Function.update (Function.update s.heap a (some ⟨n.data, some l, none⟩)) l
          (some { m with prev := some a })
        head := some a } := by
  obtain ⟨heap, head, leaf, sem, producer, consumer, inserted, fifo, fault⟩ := s
  dsimp only at hn hm hhead
  subst hhead
  simp [State.insert, State.store, State.load, hn, hm, Function.update_of_ne hla]

end Access

namespace Inv

variable [DecidableEq α] {s : State α ρ} {q : List (α × List ρ)}

omit [DecidableEq α] in
theorem start : Inv (State.start : State α ρ) [] where
  fault := rfl
  nodup := List.nodup_nil
  queued := trivial
  head := rfl
  sem := rfl
  records := rfl
  temp _ h := by cases h
  leaf _ h := absurd rfl h
  cutting h := by cases h
  link _ h := by cases h
  building _ h := by cases h
  data _ _ _ h := by cases h

/-! ## The process -/

/-- The process writes to the node that it is filling. -/
theorem build (h : Inv s q) {a : α} {n : CallDetails α ρ} {p : Producer α ρ}
    (ha : a ∉ q.map Prod.fst) (htemp : s.consumer.temp ≠ some a)
    (hp : p.building = some a) (hpending : s.producer.pending = p.pending)
    (hdata : ∀ a' done rest, p = .filling a' done rest → n.data = done) :
    Inv { s with heap := Function.update s.heap a (some n), producer := p }
      q := by
  have hsame : ∀ t, s.consumer.temp = some t → Function.update s.heap a (some n) t = s.heap t := by
    rintro t ht
    rw [Function.update_of_ne]
    rintro rfl
    exact htemp ht
  refine { h with
    queued := h.queued.update ha _
    sem := ?_
    records := ?_
    temp := ?_
    building := ?_
    data := ?_ }
  · dsimp only
    rw [← hpending]
    exact h.sem
  · have hheld : ({ s with
        heap := Function.update s.heap a (some n), producer := p } :
          State α ρ).held = s.held := held_eq rfl hsame
    rw [hheld]
    exact h.records
  · intro t ht
    obtain ⟨hout, m, hm, hprev⟩ := h.temp t ht
    exact ⟨hout, m, (hsame t ht).trans hm, hprev⟩
  · intro a' ha'
    rw [hp, Option.some.injEq] at ha'
    subst ha'
    exact ⟨ha, htemp, by simp⟩
  · intro a' done rest hfill
    dsimp only at hfill
    have hsome : a' = a := by
      rw [hfill] at hp
      exact Option.some.inj hp
    subst hsome
    exact ⟨n, by simp, hdata _ _ _ hfill⟩

omit [DecidableEq α] in
/-- A record is put behind the newest one, which leaves the node that was taken
as it is. -/
theorem push (h : Inv s q) {a : α} {done : List ρ}
    {heap : α → Option (CallDetails α ρ)} {leaf : Option α}
    (hp : s.producer = .filling a done [])
    (hqueued : Queued heap s.consumer.back (q ++ [(a, done)]))
    (hsame : ∀ t, s.consumer.temp = some t → heap t = s.heap t)
    (hleaf : s.consumer.cutting = false → leaf = oldest (q ++ [(a, done)])) :
    Inv { s with
      heap := heap
      head := some a
      leaf := leaf
      producer := .posting
      inserted := s.inserted ++ [done] } (q ++ [(a, done)]) := by
  obtain ⟨ha, htemp, -⟩ := h.building a (by rw [hp]; rfl)
  have hlater : s.consumer.cutting = true → oldest (q ++ [(a, done)]) = oldest q :=
    fun hcut => oldest_append (h.cutting hcut) _
  have hheld : ({ s with
      heap := heap
      head := some a
      leaf := leaf
      producer := .posting
      inserted := s.inserted ++ [done] } : State α ρ).held = s.held :=
    held_eq rfl hsame
  have hpending : s.sem + s.consumer.taken = q.length := by
    have hsem := h.sem
    rw [hp] at hsem
    exact hsem
  constructor
  · exact h.fault
  · rw [List.map_append, List.nodup_append]
    refine ⟨h.nodup, List.nodup_singleton a, ?_⟩
    rintro x hx y hy rfl
    obtain rfl : x = a := List.mem_singleton.mp hy
    exact ha hx
  · exact hqueued
  · simp [newest]
  · simp only [Producer.pending, List.length_append, List.length_singleton]
    omega
  · rw [hheld]
    dsimp only
    rw [h.records, List.map_append, List.append_assoc]
    rfl
  · intro t ht
    obtain ⟨hout, n, hn, hprev⟩ := h.temp t ht
    refine ⟨?_, n, (hsame t ht).trans hn, fun hcut => ?_⟩
    · rw [List.map_append, List.mem_append, not_or]
      refine ⟨hout, ?_⟩
      rintro hmem
      obtain rfl : t = a := List.mem_singleton.mp hmem
      exact htemp ht
    · exact (hprev hcut).trans (hlater hcut).symm
  · exact fun hcut _ => hleaf hcut
  · intro _
    simp
  · intro p hlink
    exact (h.link p hlink).trans (hlater (Consumer.cutting_of_link hlink)).symm
  · intro b hb
    cases hb
  · intro b d rest hb
    cases hb

/-- The section of `insert_billing_session` under the mutex. -/
theorem insert (h : Inv s q) {a : α} {done : List ρ} (hp : s.producer = .filling a done []) :
    Inv { s.insert a with
      producer := .posting, inserted := s.inserted ++ [done] }
      (q ++ [(a, done)]) := by
  obtain ⟨ha, htemp, -⟩ := h.building a (by rw [hp]; rfl)
  obtain ⟨n, hn, rfl⟩ := h.data a done [] hp
  have hta : ∀ t, s.consumer.temp = some t → t ≠ a := by
    rintro t ht rfl
    exact htemp ht
  cases hnew : newest q with
  | none =>
    obtain rfl : q = [] := by
      by_contra hq
      obtain ⟨l, hl⟩ := isSome_newest hq
      simp [hnew] at hl
    have hcut : s.consumer.cutting = false := by
      cases hcutting : s.consumer.cutting with
      | false => rfl
      | true => exact absurd rfl (h.cutting hcutting)
    rw [State.insert_of_none hn (h.head.trans hnew)]
    refine h.push hp ?_ ?_ fun _ => rfl
    · rw [Consumer.back_of_cutting hcut]
      exact ⟨by simp [oldest], trivial⟩
    · exact fun t ht => Function.update_of_ne (hta t ht) _ _
  | some l =>
    have hlq := newest_mem hnew
    have hla : l ≠ a := fun hsame => ha (hsame ▸ hlq)
    obtain ⟨m, hm, -⟩ := h.queued.newest_eq hnew
    have hne : q ≠ [] := by
      rintro rfl
      simp [newest] at hnew
    rw [State.insert_of_some hn (h.head.trans hnew) hm hla]
    refine h.push hp (h.queued.snoc h.nodup ha hnew hm) ?_ ?_
    · intro t ht
      have htl : t ≠ l := fun hsame => (h.temp t ht).1 (hsame ▸ hlq)
      dsimp only
      rw [Function.update_of_ne htl, Function.update_of_ne (hta t ht)]
    · intro hcut
      rw [oldest_append hne]
      exact h.leaf hcut hne

end Inv

end Msicp.Racc
