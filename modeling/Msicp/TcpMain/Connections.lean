import Msicp.Support.Buckets
import Msicp.Support.Machine
import Mathlib.Data.List.ProdSigma
import Mathlib.Data.Int.Basic

/-!
# The table of TCP connections

A connection is in one chain by its id, and with each of its aliases in one
chain by remote address and alias port.  The links of the chains are in the
connection itself.
-/

namespace Msicp.TcpMain

open Msicp.Support

abbrev Addr := ℕ

/-- `struct ip_addr`: one word, or four. -/
structure Ip where
  words : List (BitVec 32)
  deriving DecidableEq

/-- `enum tcp_conn_states` -/
inductive ConnState
  | error
  | bad
  | ok
  | init
  | eof
  | accept
  | connect
  deriving DecidableEq

/-- `struct tcp_conn_alias`, but for its links. -/
structure Alias where
  parent : Addr
  port : BitVec 16
  hash : ℕ

/-- `struct tcp_connection`, as far as the table reads it.  The socket, the
buffer and the locks are left out. -/
structure Conn where
  id : BitVec 32
  ip : Ip
  srcPort : BitVec 16
  state : ConnState
  refcnt : ℤ
  timeout : ℤ
  idHash : ℕ
  aliases : ℕ
  conAliases : ℕ → Alias

def tcpConMaxAliases : ℕ := 4

def tcpIdHashSize : ℕ := 1024

def tcpIdHash (id : BitVec 32) : ℕ := (id &&& 1023#32).toNat

def tcpAddrHash (ip : Ip) (port : BitVec 16) : ℕ :=
  match ip.words with
  | [w] => ((w ^^^ port.zeroExtend 32) &&& 1023#32).toNat
  | [w₀, w₁, w₂, w₃] =>
    ((w₀ ^^^ w₁ ^^^ w₂ ^^^ w₃ ^^^ port.zeroExtend 32) &&& 1023#32).toNat
  | _ => 0

/-- The connections that are allocated and in the table, and the two tables.
An entry of the second is the alias of a connection by its number. -/
structure Table where
  conn : Addr → Conn
  live : List Addr
  ids : Buckets ℕ Addr
  als : Buckets ℕ (Addr × ℕ)

def tcpconnNew (id : BitVec 32) (ip : Ip) (srcPort : BitVec 16)
    (state : ConnState) (timeout : ℤ) : Conn where
  id := id
  ip := ip
  srcPort := srcPort
  state := state
  refcnt := 0
  timeout := timeout
  idHash := 0
  aliases := 0
  conAliases _ := ⟨0, 0, 0⟩

/-- The next alias of a connection is written. -/
def Conn.pushAlias (c : Conn) (al : Alias) : Conn :=
  { c with
    conAliases := Function.update c.conAliases c.aliases al
    aliases := c.aliases + 1 }

/-- `tcpconn_add`, for a connection that `tcpconn_new` has made at `a`. -/
def tcpconnAdd (a : Addr) (c : Conn) (s : Table) : Table :=
  let h := tcpIdHash c.id
  let ah := tcpAddrHash c.ip c.srcPort
  { conn := Function.update s.conn a
      ({ c with idHash := h }.pushAlias ⟨a, c.srcPort, ah⟩)
    live := a :: s.live
    ids := s.ids.add h a
    als := s.als.add ah (a, 0) }

/-- `tcpconn_rm` and `_tcpconn_rm` -/
def tcpconnRm (a : Addr) (s : Table) : Table :=
  let c := s.conn a
  { s with
    live := s.live.erase a
    ids := s.ids.remove c.idHash a
    als := (List.range c.aliases).foldl
      (fun als r => als.remove (c.conAliases r).hash (a, r)) s.als }

/-- The part of `_tcpconn_find` that looks for an id. -/
def tcpconnFindId (s : Table) (id : BitVec 32) : Option Addr :=
  if id = 0 then none
  else
    (walk s.ids.next (fun a => id = (s.conn a).id ∧ (s.conn a).state ≠ .bad)
      s.live.length none (s.ids.head (tcpIdHash id))).bind Prod.snd

/-- The search for an alias in `tcpconn_add_alias`. -/
def findAlias (s : Table) (ip : Ip) (port : ℤ) : Option (Addr × ℕ) :=
  (walk s.als.next (fun p =>
      let al := (s.conn p.1).conAliases p.2
      (s.conn al.parent).state ≠ .bad ∧ port = al.port.toNat ∧ ip = (s.conn al.parent).ip)
    (s.live.length * tcpConMaxAliases) none
    (s.als.head (tcpAddrHash ip (BitVec.ofInt 16 port)))).bind Prod.snd

/-- `port?port:((proto==PROTO_TLS)?SIPS_PORT:SIP_PORT)` -/
def fixPort (port : ℤ) (tls : Bool) : ℤ :=
  if port = 0 then if tls then 5061 else 5060 else port

def tcpconnAddAlias (id : BitVec 32) (port : ℤ) (tls : Bool) (s : Table) : ℤ × Table :=
  let port := fixPort port tls
  match tcpconnFindId s id with
  | none => (-1, s)
  | some a =>
    let c := s.conn a
    match findAlias s c.ip port with
    | some p =>
      if ((s.conn p.1).conAliases p.2).parent ≠ a then (-1, s) else (0, s)
    | none =>
      if tcpConMaxAliases ≤ c.aliases then (-1, s)
      else
        let hash := tcpAddrHash c.ip (BitVec.ofInt 16 port)
        (0, { s with
          conn := Function.update s.conn a (c.pushAlias ⟨a, BitVec.ofInt 16 port, hash⟩)
          als := s.als.add hash (a, c.aliases) })

/-- The inner loop of `tcpconn_timeout`. -/
def timeoutLoop (ticks : ℤ) : ℕ → Option Addr → Table → Table
  | 0, _, s => s
  | _ + 1, none, s => s
  | n + 1, some a, s =>
    let next := s.ids.next a
    let s := if (s.conn a).refcnt = 0 ∧ (s.conn a).timeout < ticks then
      tcpconnRm a s else s
    timeoutLoop ticks n next s

def tcpconnTimeout (ticks : ℤ) (s : Table) : Table :=
  (List.range tcpIdHashSize).foldl (fun s h => timeoutLoop ticks s.live.length (s.ids.head h) s) s

/-- What is done under the lock.  `touch` stands for everything that others do
to a connection. -/
inductive Call
  | add (a : Addr) (id : BitVec 32) (ip : Ip) (srcPort : BitVec 16)
      (state : ConnState) (timeout : ℤ)
  | addAlias (id : BitVec 32) (port : ℤ) (tls : Bool)
  | rm (a : Addr)
  | timeout (ticks : ℤ)
  | touch (a : Addr) (state : ConnState) (refcnt timeout : ℤ)

/-- Runs of the table.  A connection is added at an address that is not in use,
and only one that is there is removed or touched. -/
def table : Machine Table Call where
  init s := s.live = [] ∧ (∀ k, s.ids.head k = none) ∧ ∀ k, s.als.head k = none
  step
    | .add a id ip srcPort state timeout, s =>
      if a ∈ s.live then none
      else some (tcpconnAdd a (tcpconnNew id ip srcPort state timeout) s)
    | .addAlias id port tls, s => some (tcpconnAddAlias id port tls s).2
    | .rm a, s => if a ∈ s.live then some (tcpconnRm a s) else none
    | .timeout ticks, s => some (tcpconnTimeout ticks s)
    | .touch a state refcnt timeout, s =>
      if a ∈ s.live then
        some { s with conn := Function.update s.conn a { s.conn a with
          state := state, refcnt := refcnt, timeout := timeout } }
      else none

end Msicp.TcpMain
