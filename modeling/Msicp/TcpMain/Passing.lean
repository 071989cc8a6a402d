import Msicp.TcpMain.Connections
import Msicp.Support.Slots
import Mathlib.Data.Finset.Insert
import Mathlib.Data.List.FinRange
import Mathlib.Tactic.Ring

/-!
# Passing connections between processes

"tcp main" accepts connections and waits on those nobody reads; the reader
children read those that are handed to them, and give them back; the sending
processes find a connection, or open one, and ask main for its descriptor.
Each process is connected with main by a socket of its own.

Sending may fail.  A step is what a process does between two points where
another one may see a difference, or under the lock of the connections.
-/

namespace Msicp.TcpMain.Passing

open Msicp.Support Function

/-- `struct tcp_connection`, as far as it is passed around.  `inHash` says that
`tcpconn_add` has put it in the tables. -/
structure Conn where
  state : ConnState
  refcnt : ℤ
  timeout : ℤ
  inHash : Bool

def tcpConTimeout : ℤ := 120

def tcpConSendTimeout : ℤ := 120

def tcpChildTimeout : ℤ := 5

/-- `enum conn_cmds`, as readers use it. -/
inductive Cmd
  | destroy
  | error
  | eof
  | release
  deriving DecidableEq

/-- `enum conn_cmds`, as senders use it.  `fd` says that the descriptor has
been sent behind `CONN_NEW`. -/
inductive Request
  | error (c : Addr)
  | getFd (c : Addr)
  | new (c : Addr) (fd : Bool)
  deriving DecidableEq

/-- A reader: `busy` is what main counts in `tcp_children`, `inbox` and
`outbox` are the two ways of its socket, `list` the connections in use. -/
structure Child where
  busy : ℤ
  inbox : List Addr
  list : List Addr
  outbox : List (Addr × Cmd)

/-- Where `tcp_send` is. -/
inductive SendPc
  | idle
  /-- `tcpconn_get` has found it -/
  | found (c : Addr)
  /-- `CONN_GET_FD` is sent -/
  | waiting (c : Addr)
  /-- `tcpconn_connect` has opened it -/
  | opened (c : Addr)
  /-- there is a descriptor to write on -/
  | sending (c : Addr)
  /-- the write has failed, and the connection is marked as bad -/
  | failed (c : Addr)
  deriving DecidableEq

/-- A sending process, with the two ways of its socket. -/
structure Sender where
  pc : SendPc
  queue : List Request
  answers : List Addr

/-- Where `tcp_main_loop` is. -/
inductive MainPc
  | idle
  /-- there is data on it, and it is out of the set -/
  | ready (c : Addr)
  /-- `send2child` is next -/
  | handing (c : Addr)
  /-- `CONN_RELEASE` is read, and the connection is not bad -/
  | releasing (c : Addr)
  /-- `tcpconn_destroy` is next -/
  | destroying (c : Addr)
  deriving DecidableEq

/-- All processes, and what they share.  `masterSet` has the connections whose
descriptors main waits on. -/
structure Procs (P : Type) (n : ℕ) where
  conn : Addr → Option Conn
  masterSet : Finset Addr
  main : MainPc
  child : Fin n → Child
  sender : P → Sender
  ticks : ℤ

variable {P : Type} {n : ℕ}

/-- A field of a connection is written. -/
def Procs.upd (s : Procs P n) (c : Addr) (f : Conn → Conn) : Procs P n :=
  { s with conn := update s.conn c ((s.conn c).map f) }

/-- `_tcpconn_rm` -/
def Procs.rm (s : Procs P n) (c : Addr) : Procs P n :=
  { s with conn := update s.conn c none }

def Procs.setChild (s : Procs P n) (r : Fin n) (x : Child) : Procs P n :=
  { s with child := update s.child r x }

def Procs.setSender [DecidableEq P] (s : Procs P n) (p : P) (x : Sender) :
    Procs P n :=
  { s with sender := update s.sender p x }

/-- `tcpconn_ref` -/
def Procs.ref (s : Procs P n) (c : Addr) : Procs P n :=
  s.upd c fun k => { k with refcnt := k.refcnt + 1 }

/-- `tcpconn_put` -/
def Procs.put (s : Procs P n) (c : Addr) : Procs P n :=
  s.upd c fun k => { k with refcnt := k.refcnt - 1 }

def Procs.tcpconnDestroy (s : Procs P n) (c : Addr) : Procs P n :=
  match s.conn c with
  | none => s
  | some k =>
    if k.refcnt - 1 = 0 then s.rm c
    else s.upd c fun k =>
      { k with refcnt := k.refcnt - 1, timeout := 0, state := .bad }

/-- What is done where `send2child` has failed. -/
def Procs.notHanded (s : Procs P n) (c : Addr) : Procs P n :=
  match s.conn c with
  | none => s
  | some k =>
    if k.refcnt - 1 = 0 then s.rm c
    else s.upd c fun k => { k with refcnt := k.refcnt - 1, timeout := 0 }

/-- The loop of `send2child` that looks for a child that is not busy, or for
the least busy one. -/
def leastBusy (busy : Fin n → ℤ) : List (Fin n) → ℤ → Fin n → Fin n
  | [], _, idx => idx
  | i :: rest, minBusy, idx =>
    if busy i = 0 then i
    else if busy i < minBusy then leastBusy busy rest (busy i) i
    else leastBusy busy rest minBusy idx

def Procs.send2child [NeZero n] (s : Procs P n) (c : Addr) (sent : Bool) :
    Procs P n :=
  let busy := fun i => (s.child i).busy
  let idx := leastBusy busy (List.finRange n) (busy 0) 0
  let x := s.child idx
  s.setChild idx { x with
    busy := x.busy + 1
    inbox := if sent then x.inbox ++ [c] else x.inbox }

/-- `tcpconn_new`, with the reference that is taken right away. -/
def Procs.tcpconnNew (s : Procs P n) (c : Addr) (state : ConnState) (inHash : Bool) : Procs P n :=
  let k := ⟨state, 1, s.ticks + tcpConTimeout, inHash⟩
  { s with conn := update s.conn c (some k) }

/-- `release_tcpconn`: the message to main, unless it cannot be sent. -/
def Child.release (x : Child) (c : Addr) (cmd : Cmd) (sent : Bool) : Child :=
  if sent then { x with outbox := x.outbox ++ [(c, cmd)] } else x

/-- `tcpconn_listrm` -/
def Child.listrm (x : Child) (c : Addr) : Child :=
  { x with list := x.list.erase c }

/-- The steps.  Each failure of a call of the system is a choice. -/
inductive Label (P : Type) (n : ℕ)
  | tick
  /-- main: `handle_new_connect` -/
  | accept (c : Addr)
  | dataAvailable (c : Addr)
  | ref
  | send2child (sent : Bool)
  /-- main: a message of a reader, or of a sender -/
  | fromChild (r : Fin n)
  | fromSender (p : P) (answered : Bool)
  | release
  | destroy
  /-- main: `tcpconn_timeout` -/
  | timeout (c : Addr)
  /-- readers: `tcp_receive_loop` -/
  | childReceive (r : Fin n) (fd sent : Bool)
  | childBad (r : Fin n) (c : Addr) (sent : Bool)
  | childRead (r : Fin n) (c : Addr) (eof : Bool) (resp : Cmd) (sent : Bool)
  | childTimeout (r : Fin n) (c : Addr) (sent : Bool)
  /-- senders: `tcp_send` -/
  | find (p : P) (c : Addr)
  | connect (p : P) (c : Addr)
  | askFd (p : P) (sent : Bool)
  | receiveFd (p : P) (received : Bool)
  | announce (p : P) (sent fdSent : Bool)
  | write (p : P) (written : Bool)
  | report (p : P) (sent : Bool)

/-- The steps of `tcp_main_loop`. -/
def mainStep [NeZero n] [DecidableEq P] (s : Procs P n) : Label P n → Option (Procs P n)
  | .accept c =>
    if s.main = .idle ∧ s.conn c = none then
      some { s.tcpconnNew c .accept true with main := .handing c }
    else none
  | .dataAvailable c =>
    match s.conn c with
    | none => none
    | some k =>
      if s.main = .idle ∧ k.inHash ∧ k.refcnt = 0 ∧ c ∈ s.masterSet then
        some { s with masterSet := s.masterSet.erase c, main := .ready c }
      else none
  | .ref =>
    match s.main with
    | .ready c => some { s.ref c with main := .handing c }
    | _ => none
  | .send2child sent =>
    match s.main with
    | .handing c =>
      let s := { s.send2child c sent with main := .idle }
      some (if sent then s else s.notHanded c)
    | _ => none
  | .fromChild r =>
    match s.main, (s.child r).outbox with
    | .idle, (c, cmd) :: rest =>
      let x := s.child r
      let s := s.setChild r { x with busy := x.busy - 1, outbox := rest }
      match cmd with
      | .release =>
        some { s with main :=
          if (s.conn c).any fun k => k.state = .bad then .destroying c
          else .releasing c }
      | .error | .destroy | .eof =>
        some { s with
          masterSet := s.masterSet.erase c, main := .destroying c }
    | _, _ => none
  | .release =>
    match s.main with
    | .releasing c =>
      some { (s.upd c fun k =>
          { k with timeout := s.ticks + tcpConTimeout }).put c with
        masterSet := insert c s.masterSet
        main := .idle }
    | _ => none
  | .destroy =>
    match s.main with
    | .destroying c => some { s.tcpconnDestroy c with main := .idle }
    | _ => none
  | .fromSender p answered =>
    match s.main, (s.sender p).queue with
    | .idle, req :: rest =>
      let x := s.sender p
      match req with
      | .error c =>
        some { s.setSender p { x with queue := rest } with
          masterSet := s.masterSet.erase c, main := .destroying c }
      | .getFd c =>
        some (s.setSender p { x with
          queue := rest
          answers := if answered then x.answers ++ [c] else x.answers })
      | .new c true =>
        let s := s.setSender p { x with queue := rest }
        some { s.upd c fun k =>
            { k with inHash := true, timeout := s.ticks + tcpConTimeout }
          with masterSet := insert c s.masterSet }
      -- main waits for a descriptor, and takes what comes next for it
      | .new _ false => none
    | _, _ => none
  | .timeout c =>
    match s.conn c with
    | none => none
    | some k =>
      if s.main = .idle ∧ k.inHash ∧ k.refcnt = 0 ∧ k.timeout < s.ticks then
        some { s.rm c with masterSet := s.masterSet.erase c }
      else none
  | _ => none

/-- `state<0` -/
def Conn.broken (k : Conn) : Bool := k.state = .bad ∨ k.state = .error

/-- The steps of `tcp_receive_loop`. -/
def childStep (s : Procs P n) : Label P n → Option (Procs P n)
  | .childReceive r fd sent =>
    match (s.child r).inbox with
    | [] => none
    | c :: rest =>
      let x := { s.child r with inbox := rest }
      if fd = false then
        some ((s.upd c fun k => { k with state := .bad }).setChild r
          (x.release c .error sent))
      else
        let s := s.upd c fun k =>
          { k with timeout := s.ticks + tcpChildTimeout }
        if x.list.head? = some c then
          some (s.setChild r (x.release c .error sent))
        else some (s.setChild r { x with list := c :: x.list })
  | .childBad r c sent =>
    let x := s.child r
    if c ∈ x.list ∧ (s.conn c).any Conn.broken then
      some ((s.upd c fun k => { k with state := .bad }).setChild r
        ((x.listrm c).release c .error sent))
    else none
  -- `tcp_read_req` gives `resp`, and may find the end of the stream
  | .childRead r c eof resp sent =>
    let x := s.child r
    if c ∈ x.list then
      let s := if eof then s.upd c fun k => { k with state := .eof } else s
      if resp = .release then
        some (s.upd c fun k => { k with timeout := s.ticks + tcpChildTimeout })
      else
        some ((s.upd c fun k => { k with state := .bad }).setChild r
          ((x.listrm c).release c resp sent))
    else none
  | .childTimeout r c sent =>
    let x := s.child r
    if c ∈ x.list ∧ (s.conn c).any fun k => k.timeout ≤ s.ticks then
      some (s.setChild r ((x.listrm c).release c .release sent))
    else none
  | _ => none

/-- The steps of `tcp_send`. -/
def senderStep [DecidableEq P] (s : Procs P n) : Label P n → Option (Procs P n)
  | .find p c =>
    match (s.sender p).pc, s.conn c with
    | .idle, some k =>
      if k.inHash ∧ k.state ≠ .bad then
        some ((s.upd c fun k => { k with
            refcnt := k.refcnt + 1
            timeout := s.ticks + tcpConSendTimeout }).setSender p
          { s.sender p with pc := .found c })
      else none
    | _, _ => none
  | .connect p c =>
    if (s.sender p).pc = .idle ∧ s.conn c = none then
      some ((s.tcpconnNew c .connect false).setSender p
        { s.sender p with pc := .opened c })
    else none
  | .askFd p sent =>
    let x := s.sender p
    match x.pc with
    | .found c =>
      if sent then
        some (s.setSender p { x with
          pc := .waiting c, queue := x.queue ++ [.getFd c] })
      else some ((s.put c).setSender p { x with pc := .idle })
    | _ => none
  | .receiveFd p received =>
    let x := s.sender p
    match x.pc with
    | .waiting tmp =>
      if received then
        match x.answers with
        | [] => none
        | c :: rest =>
          if c = tmp then
            some (s.setSender p
              { x with pc := .sending c, answers := rest })
          else
            some ((s.put c).setSender p
              { x with pc := .idle, answers := rest })
      else some ((s.put tmp).setSender p { x with pc := .idle })
    | _ => none
  | .announce p sent fdSent =>
    let x := s.sender p
    match x.pc with
    | .opened c =>
      if sent then
        if fdSent then
          some (s.setSender p { x with
            pc := .sending c, queue := x.queue ++ [.new c true] })
        else
          some ((s.put c).setSender p { x with
            pc := .idle, queue := x.queue ++ [.new c false] })
      else some ((s.put c).setSender p { x with pc := .idle })
    | _ => none
  | .write p written =>
    let x := s.sender p
    match x.pc with
    | .sending c =>
      if written then some ((s.put c).setSender p { x with pc := .idle })
      else
        some ((s.upd c fun k =>
            { k with state := .bad, timeout := 0 }).setSender p
          { x with pc := .failed c })
    | _ => none
  -- `CONN_ERROR` gives back the reference as well
  | .report p sent =>
    let x := s.sender p
    match x.pc with
    | .failed c =>
      some (s.setSender p { x with
        pc := .idle
        queue := if sent then x.queue ++ [.error c] else x.queue })
    | _ => none
  | _ => none

/-- The processes together. -/
def step [NeZero n] [DecidableEq P] (l : Label P n) (s : Procs P n) : Option (Procs P n) :=
  match l with
  | .tick => some { s with ticks := s.ticks + 1 }
  | .accept _ | .dataAvailable _ | .ref | .send2child _ | .fromChild _
  | .fromSender _ _ | .release | .destroy | .timeout _ => mainStep s l
  | .childReceive _ _ _ | .childBad _ _ _ | .childRead _ _ _ _ _
  | .childTimeout _ _ _ => childStep s l
  | .find _ _ | .connect _ _ | .askFd _ _ | .receiveFd _ _
  | .announce _ _ _ | .write _ _ | .report _ _ => senderStep s l

/-- At the start there are no connections. -/
def procs (P : Type) [DecidableEq P] (n : ℕ) [NeZero n] : Machine (Procs P n) (Label P n) where
  init s := (∀ c, s.conn c = none) ∧ s.masterSet = ∅ ∧ s.main = .idle ∧
    (∀ r, s.child r = ⟨0, [], [], []⟩) ∧ ∀ p, s.sender p = ⟨.idle, [], []⟩
  step := step

/-!
## Who holds a connection

Every reference has a holder: a process, or a message that takes it to main.
What is counted here of one process is summed over all of them.
-/

/-- The connection that `tcp_send` holds. -/
def SendPc.conn : SendPc → Option Addr
  | .idle => none
  | .found c | .waiting c | .opened c | .sending c | .failed c => some c

/-- The references of a sender, and of its messages to main: `CONN_ERROR` takes
one along. -/
def Sender.refs (c : Addr) (x : Sender) : ℤ :=
  (if x.pc.conn = some c then 1 else 0) + x.queue.count (.error c)

/-- A connection that is handed over takes its reference along, to the reader
and back. -/
def Child.refs (c : Addr) (x : Child) : ℤ :=
  x.inbox.count c + x.list.count c + (x.outbox.map Prod.fst).count c

def MainPc.refs (c : Addr) : MainPc → ℤ
  | .handing c' | .releasing c' | .destroying c' => if c' = c then 1 else 0
  | .idle | .ready _ => 0

/-- Main has it, and does not wait on it. -/
def MainPc.reads (c : Addr) : MainPc → ℤ
  | .ready c' | .handing c' | .releasing c' => if c' = c then 1 else 0
  | .idle | .destroying _ => 0

/-- What is handed to a reader, and of which main has not read that it has been
released. -/
def Child.handed (x : Child) : ℤ :=
  x.inbox.length + x.list.length + x.outbox.length

/-- The parties and the messages that hold a connection. -/
def Procs.holders [Fintype P] (s : Procs P n) (c : Addr) : ℤ :=
  ∑ p, (s.sender p).refs c + ∑ r, (s.child r).refs c + s.main.refs c

/-- The parties that own a connection for reading, and the messages between
them. -/
def Procs.readers (s : Procs P n) (c : Addr) : ℤ :=
  ∑ r, (s.child r).refs c + s.main.reads c +
    if c ∈ s.masterSet then 1 else 0

/-! ## Messages to come -/

/-- `CONN_NEW` for a connection. -/
def Request.isNew (c : Addr) : Request → Bool
  | .new c' _ => c' = c
  | _ => false

/-- What a sender that holds a connection may still say of it. -/
def SendPc.pending : SendPc → List Request
  | .idle => []
  | .opened c => [.new c true, .error c]
  | .found c | .waiting c | .sending c | .failed c => [.error c]

/-- The messages of a sender, and those to come. -/
def Sender.all (x : Sender) : List Request := x.queue ++ x.pc.pending

def Sender.news (c : Addr) (x : Sender) : ℤ := x.all.countP (Request.isNew c)

theorem Sender.refs_eq (c : Addr) (x : Sender) : x.refs c = x.all.count (.error c) := by
  unfold Sender.refs Sender.all
  rw [List.count_append]
  cases x.pc <;>
    simp [SendPc.conn, SendPc.pending, List.count_cons, add_comm]

theorem Sender.refs_nonneg (c : Addr) (x : Sender) : 0 ≤ x.refs c := by
  rw [Sender.refs_eq]
  exact Int.natCast_nonneg _

theorem Sender.news_nonneg (c : Addr) (x : Sender) : 0 ≤ x.news c :=
  Int.natCast_nonneg _

theorem Child.refs_nonneg (c : Addr) (x : Child) : 0 ≤ x.refs c := by
  unfold Child.refs
  omega

theorem MainPc.refs_nonneg (c : Addr) (m : MainPc) : 0 ≤ m.refs c := by
  cases m <;> simp only [MainPc.refs, le_refl] <;> split <;> decide

theorem MainPc.reads_nonneg (c : Addr) (m : MainPc) : 0 ≤ m.reads c := by
  cases m <;> simp only [MainPc.reads, le_refl] <;> split <;> decide

/-- Every `CONN_ERROR` is for a connection that main knows by then. -/
def Known (listed : Addr → Prop) : List Request → Prop
  | [] => True
  | .error c :: q => listed c ∧ Known listed q
  | .getFd _ :: q => Known listed q
  | .new c _ :: q => Known (fun a => a = c ∨ listed a) q

theorem Known.mono {listed listed' : Addr → Prop} {q : List Request}
    (h : Known listed q) (hle : ∀ c, .error c ∈ q → listed c → listed' c) :
    Known listed' q := by
  induction q generalizing listed listed' with
  | nil => trivial
  | cons req q ih =>
    cases req with
    | error c =>
      exact ⟨hle c List.mem_cons_self h.1, ih h.2 fun a ha => hle a (List.mem_cons_of_mem _ ha)⟩
    | getFd c => exact ih h fun a ha => hle a (List.mem_cons_of_mem _ ha)
    | new c fd =>
      exact ih h fun a ha hor => hor.imp id (hle a (List.mem_cons_of_mem _ ha))

theorem known_append {listed : Addr → Prop} {q q' : List Request} :
    Known listed (q ++ q') ↔ Known listed q ∧
      Known (fun a => listed a ∨ ∃ fd, .new a fd ∈ q) q' := by
  induction q generalizing listed with
  | nil => simp [Known]
  | cons req q ih =>
    cases req with
    | error c => simp [Known, ih, and_assoc]
    | getFd c => simp [Known, ih]
    | new c fd =>
      simp only [List.cons_append, Known, ih]
      refine and_congr_right fun _ => ?_
      have hset : (fun a => (a = c ∨ listed a) ∨ ∃ fd, Request.new a fd ∈ q) =
          fun a => listed a ∨ ∃ fd', Request.new a fd' ∈ Request.new c fd :: q := by
        funext a
        simp only [List.mem_cons, Request.new.injEq, exists_or, eq_iff_iff,
          exists_and_left, exists_eq, and_true]
        tauto
      rw [hset]

/-! ## What the connections say -/

/-- The number of references, and none where there is no connection. -/
def refcntOf (conn : Addr → Option Conn) (c : Addr) : ℤ :=
  (conn c).elim 0 Conn.refcnt

/-- `tcpconn_add` has put it in the tables. -/
def Listed (conn : Addr → Option Conn) (c : Addr) : Prop :=
  (conn c).any Conn.inHash = true

variable {s : Procs P n} {c : Addr} {f : Conn → Conn}

theorem refcntOf_upd {d : ℤ}
    (hc : s.conn c ≠ none) (hf : ∀ k, (f k).refcnt = k.refcnt + d) (a : Addr) :
    refcntOf (s.upd c f).conn a = refcntOf s.conn a + if c = a then d else 0 := by
  unfold refcntOf Procs.upd
  by_cases ha : a = c
  · subst ha
    obtain ⟨k, hk⟩ := Option.ne_none_iff_exists'.mp hc
    simp [hk, hf]
  · have hne : c ≠ a := fun heq => ha heq.symm
    simp [ha, hne]

theorem refcntOf_upd_same (hf : ∀ k, (f k).refcnt = k.refcnt) (a : Addr) :
    refcntOf (s.upd c f).conn a = refcntOf s.conn a := by
  unfold refcntOf Procs.upd
  by_cases ha : a = c
  · subst ha
    cases s.conn a <;> simp [hf]
  · simp [ha]

theorem listed_upd (hf : ∀ k, (f k).inHash = k.inHash) :
    Listed (s.upd c f).conn = Listed s.conn := by
  funext a
  unfold Listed Procs.upd
  by_cases ha : a = c
  · subst ha
    cases s.conn a <;> simp [hf]
  · simp [ha]

theorem upd_ne_none {a : Addr} : (s.upd c f).conn a ≠ none ↔ s.conn a ≠ none := by
  unfold Procs.upd
  by_cases ha : a = c
  · subst ha
    simp
  · simp [ha]

theorem refcntOf_rm (s : Procs P n) (c a : Addr) :
    refcntOf (s.rm c).conn a = if c = a then 0 else refcntOf s.conn a := by
  unfold refcntOf Procs.rm
  by_cases ha : a = c
  · subst ha
    simp
  · have hne : c ≠ a := fun heq => ha heq.symm
    simp [ha, hne]

theorem listed_rm {a : Addr} : Listed (s.rm c).conn a ↔ a ≠ c ∧ Listed s.conn a := by
  unfold Listed Procs.rm
  by_cases ha : a = c <;> simp [ha]

/-! ## The invariant -/

section

variable [Fintype P] {s : Procs P n}

/-- The connections that are opened and not yet in the tables. -/
def Procs.news (s : Procs P n) (c : Addr) : ℤ := ∑ p, (s.sender p).news c

/-- What holds between any two steps. -/
structure Inv (s : Procs P n) : Prop where
  count : ∀ c, s.holders c = refcntOf s.conn c
  single : ∀ c, s.readers c ≤ 1
  listed : ∀ c, 0 < s.readers c → Listed s.conn c
  news : ∀ c, s.news c ≤ 1
  fresh : ∀ c, 0 < s.news c → s.conn c ≠ none ∧ ¬ Listed s.conn c
  known : ∀ p, Known (Listed s.conn) (s.sender p).all
  cleared : ∀ c, s.main = .destroying c →
    c ∉ s.masterSet ∧ Listed s.conn c
  busy : ∀ r, (s.child r).busy = (s.child r).handed

theorem Inv.ne_none (h : Inv s) {c : Addr} (hpos : 0 < s.holders c) : s.conn c ≠ none := by
  intro hnone
  have hcount := h.count c
  rw [refcntOf, hnone] at hcount
  simp only [Option.elim_none] at hcount
  omega

theorem holders_sender_pos {p : P} {c : Addr} (h : 0 < (s.sender p).refs c) : 0 < s.holders c := by
  have h1 := le_sum (Sender.refs_nonneg c) s.sender p
  have h2 := sum_nonneg (Child.refs_nonneg c) s.child
  have h3 := s.main.refs_nonneg c
  unfold Procs.holders
  omega

theorem holders_of_sender [DecidableEq P] (s s' : Procs P n) {p : P} {x : Sender}
    (hsender : s'.sender = update s.sender p x) (hchild : s'.child = s.child)
    (c : Addr) :
    s'.holders c = s.holders c + (x.refs c - (s.sender p).refs c) +
      (s'.main.refs c - s.main.refs c) := by
  unfold Procs.holders
  rw [hsender, hchild, sum_update (Sender.refs c)]
  ring

theorem news_of_sender [DecidableEq P] (s s' : Procs P n) {p : P} {x : Sender}
    (hsender : s'.sender = update s.sender p x) (c : Addr) :
    s'.news c = s.news c + (x.news c - (s.sender p).news c) := by
  unfold Procs.news
  rw [hsender, sum_update (Sender.news c)]

theorem holders_of_child (s s' : Procs P n) {r : Fin n} {x : Child}
    (hchild : s'.child = update s.child r x) (hsender : s'.sender = s.sender)
    (c : Addr) :
    s'.holders c = s.holders c + (x.refs c - (s.child r).refs c) +
      (s'.main.refs c - s.main.refs c) := by
  unfold Procs.holders
  rw [hsender, hchild, sum_update (Child.refs c)]
  ring

theorem holders_of_main (s s' : Procs P n) (hsender : s'.sender = s.sender)
    (hchild : s'.child = s.child) (c : Addr) :
    s'.holders c = s.holders c + (s'.main.refs c - s.main.refs c) := by
  unfold Procs.holders
  rw [hsender, hchild]
  ring

end

theorem readers_of_child (s s' : Procs P n) {r : Fin n} {x : Child}
    (hchild : s'.child = update s.child r x) (c : Addr) :
    s'.readers c = s.readers c + (x.refs c - (s.child r).refs c) +
      (s'.main.reads c - s.main.reads c) +
      ((if c ∈ s'.masterSet then 1 else 0) -
        if c ∈ s.masterSet then 1 else 0) := by
  unfold Procs.readers
  rw [hchild, sum_update (Child.refs c)]
  ring

theorem readers_of_main (s s' : Procs P n) (hchild : s'.child = s.child) (c : Addr) :
    s'.readers c = s.readers c + (s'.main.reads c - s.main.reads c) +
      ((if c ∈ s'.masterSet then 1 else 0) -
        if c ∈ s.masterSet then 1 else 0) := by
  unfold Procs.readers
  rw [hchild]
  ring

end Msicp.TcpMain.Passing
