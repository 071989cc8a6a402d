import Msicp.Support.Bytes
import Msicp.Support.Template

/-!
# Messages, sockets and lumps (`lump_struct.h`, `msg_translator.c`)

A lump is an edit of a received message: a region to delete, an anchor, or
text to add, with further text in front of it and behind it.  Strings and
buffers are lists of bytes, a pointer that may be null is an option.
-/

namespace Msicp.Lumps

open Msicp.Support

/-- `AF_INET` and `AF_INET6` -/
inductive AddrFamily where
  | inet
  | inet6
  deriving DecidableEq

/-- `enum sip_protos`, and the values of an `int proto` outside it. -/
inductive Proto where
  | none
  | udp
  | tcp
  | tls
  | sctp
  | unknown (proto : ℤ)
  deriving DecidableEq

/-- `struct ip_addr`, with the bytes in use of `u.addr`. -/
structure IpAddr where
  af : AddrFamily
  addr : Bytes

def ipAddrCmp (ip1 ip2 : IpAddr) : Bool :=
  ip1.af == ip2.af && ip1.addr == ip2.addr

/-- `struct socket_info` -/
structure SocketInfo where
  address : IpAddr
  addressStr : Bytes
  portNo : ℕ
  portNoStr : Bytes
  proto : Proto

/-- `struct receive_info` -/
structure ReceiveInfo where
  dstIp : IpAddr
  dstPort : ℕ
  proto : Proto
  bindAddress : Option SocketInfo

/-- `enum lump_subst` -/
inductive LumpSubst where
  | nop
  | rcvIp
  | sndIp
  | rcvPort
  | sndPort
  | rcvProto
  | sndProto
  | rcvAll
  | sndAll
  deriving DecidableEq

/-- `enum lump_conditions` -/
inductive LumpCond where
  | false
  | true
  | ifDiffRealms
  | ifDiffAf
  | ifDiffProto
  | ifDiffPort
  | ifDiffIp
  | ifRand
  deriving DecidableEq

/-- What is added: `LUMP_ADD`, `LUMP_ADD_SUBST` and `LUMP_ADD_OPT`, each with
its member of the union `u`. -/
inductive LumpAdd where
  | value (value : Bytes)
  | subst (subst : LumpSubst)
  | opt (cond : LumpCond)
  deriving DecidableEq

/-- `op` of a lump on one of the two lists of a message. -/
inductive LumpOp where
  | nop (offset : ℕ)
  | del (offset len : ℕ)
  | add (what : LumpAdd)
  deriving DecidableEq

/-- `struct lump`, with the lumps chained to it by `before` and `after`; the
insert functions put only additions there. -/
structure Lump where
  op : LumpOp
  before : List LumpAdd
  after : List LumpAdd

/-- The fields of `struct sip_msg` that are read here; `uri` is where the
request URI lies, an offset and a length. -/
structure SipMsg where
  buf : Bytes
  rcv : ReceiveInfo
  setGlobalAddress : Bytes
  setGlobalPort : Bytes
  uri : ℕ × ℕ
  newUri : Option Bytes

def sipPort : ℕ := 5060

def transportParam : Bytes := ascii ";transport="

def randMax : ℕ := 2 ^ 31 - 1

/-! ## Conditions -/

/-- The macro `get_ip_port_proto` for a send socket that is not null. -/
def getIpPortProto (msg : SipMsg) : IpAddr × ℕ × Proto :=
  match msg.rcv.bindAddress with
  | some s => (s.address, s.portNo, s.proto)
  | none => (msg.rcv.dstIp, msg.rcv.dstPort, msg.rcv.proto)

/-- `lump_check_opt`; `rand` is what a call of `rand()` would return. -/
def lumpCheckOpt (cond : LumpCond) (msg : SipMsg) (sndS : Option SocketInfo) (rand : ℕ) : Bool :=
  let differ (test : SocketInfo → IpAddr → ℕ → Proto → Bool) : Bool :=
    match sndS with
    | none => true
    | some s =>
      let (ip, port, proto) := getIpPortProto msg
      test s ip port proto
  match cond with
  | .false => false
  | .true => true
  | .ifDiffRealms => differ fun s ip port proto =>
    !(port == s.portNo && proto == s.proto && ipAddrCmp ip s.address)
  | .ifDiffAf => differ fun s ip _ _ => ip.af != s.address.af
  | .ifDiffProto => differ fun s _ _ proto => proto != s.proto
  | .ifDiffPort => differ fun s _ port _ => port != s.portNo
  | .ifDiffIp => differ fun s ip _ _ => !ipAddrCmp ip s.address
  | .ifRand => randMax / 2 ≤ rand

/-! ## Substitutions -/

/-- `send_address_str`; a null send socket is never read through. -/
def sendAddressStr (msg : SipMsg) (sendSock : SocketInfo) : Bytes :=
  if msg.setGlobalAddress.length ≠ 0 then msg.setGlobalAddress
  else sendSock.addressStr

/-- `send_port_str`, as the source sets it. -/
def sendPortStr (msg : SipMsg) (sendSock : SocketInfo) : Bytes :=
  if msg.setGlobalPort.length ≠ 0 then msg.setGlobalAddress
  else sendSock.portNoStr

/-- The address of a socket in brackets unless it is an IPv4 address. -/
def bracketed (sock : SocketInfo) (own : Bool) (address : Bytes) : Bytes :=
  if sock.address.af ≠ .inet ∧ own then
    ascii "[" ++ address ++ ascii "]"
  else address

/-- The name of a protocol in `SUBST_RCV_PROTO` and `SUBST_SND_PROTO`. -/
def protoText : Proto → Bytes
  | .none | .udp => ascii "udp"
  | .tcp => ascii "tcp"
  | .tls => ascii "tls"
  | .sctp => ascii "sctp"
  | .unknown _ => []

/-- The transport parameter in `SUBST_RCV_ALL` and `SUBST_SND_ALL`; udp is
the default. -/
def transportText : Proto → Bytes
  | .none | .udp => []
  | .tcp => transportParam ++ ascii "tcp"
  | .tls => transportParam ++ ascii "tls"
  | .sctp => transportParam ++ ascii "sctp"
  | .unknown _ => []

/-- `SUBST_LUMP`: the bytes written for a substitution. -/
def substLump (msg : SipMsg) (sendSock : Option SocketInfo) : LumpSubst → Bytes
  | .nop => []
  | .rcvIp =>
    match msg.rcv.bindAddress with
    | some b => bracketed b true b.addressStr
    | none => []
  | .rcvPort =>
    match msg.rcv.bindAddress with
    | some b => b.portNoStr
    | none => []
  | .rcvProto =>
    match msg.rcv.bindAddress with
    | some b => protoText b.proto
    | none => []
  | .rcvAll =>
    match msg.rcv.bindAddress with
    | some b =>
      bracketed b true b.addressStr ++
        (if b.portNo ≠ sipPort then ascii ":" ++ b.portNoStr else []) ++
        transportText b.proto
    | none => []
  | .sndIp =>
    match sendSock with
    | some s =>
      bracketed s (msg.setGlobalAddress.length == 0) (sendAddressStr msg s)
    | none => []
  | .sndPort =>
    match sendSock with
    | some s => sendPortStr msg s
    | none => []
  | .sndProto =>
    match sendSock with
    | some s => protoText s.proto
    | none => []
  | .sndAll =>
    match sendSock with
    | some s =>
      bracketed s (msg.setGlobalAddress.length == 0) (sendAddressStr msg s) ++
        (if s.portNo ≠ sipPort ∨ msg.setGlobalPort.length ≠ 0 then
          ascii ":" ++ sendPortStr msg s
        else []) ++
        transportText s.proto
    | none => []

/-- The two characters counted for the brackets. -/
def bracketLen (sock : SocketInfo) (own : Bool) : ℕ :=
  if sock.address.af ≠ .inet ∧ own then 2 else 0

def protoLen : Proto → ℕ
  | .none | .udp | .tcp | .tls => 3
  | .sctp => 4
  | .unknown _ => 0

def transportLen : Proto → ℕ
  | .none | .udp => 0
  | .tcp | .tls => transportParam.length + 3
  | .sctp => transportParam.length + 4
  | .unknown _ => 0

/-- `SUBST_LUMP_LEN`: the bytes counted for a substitution. -/
def substLumpLen (msg : SipMsg) (sendSock : Option SocketInfo) : LumpSubst → ℕ
  | .nop => 0
  | .rcvIp =>
    match msg.rcv.bindAddress with
    | some b => b.addressStr.length + bracketLen b true
    | none => 0
  | .rcvPort =>
    match msg.rcv.bindAddress with
    | some b => b.portNoStr.length
    | none => 0
  | .rcvProto =>
    match msg.rcv.bindAddress with
    | some b => protoLen b.proto
    | none => 0
  | .rcvAll =>
    match msg.rcv.bindAddress with
    | some b =>
      b.addressStr.length + bracketLen b true +
        (if b.portNo ≠ sipPort then 1 + b.portNoStr.length else 0) +
        transportLen b.proto
    | none => 0
  | .sndIp =>
    match sendSock with
    | some s =>
      (sendAddressStr msg s).length + bracketLen s (msg.setGlobalAddress.length == 0)
    | none => 0
  | .sndPort =>
    match sendSock with
    | some s => (sendPortStr msg s).length
    | none => 0
  | .sndProto =>
    match sendSock with
    | some s => protoLen s.proto
    | none => 0
  | .sndAll =>
    match sendSock with
    | some s =>
      (sendAddressStr msg s).length + bracketLen s (msg.setGlobalAddress.length == 0) +
        (if s.portNo ≠ sipPort ∨ msg.setGlobalPort.length ≠ 0 then
          1 + (sendPortStr msg s).length
        else 0) +
        transportLen s.proto
    | none => 0

theorem length_bracketed (sock : SocketInfo) (own : Bool) (address : Bytes) :
    (bracketed sock own address).length = address.length + bracketLen sock own := by
  by_cases h : sock.address.af ≠ .inet ∧ own
  · simp [bracketed, bracketLen, h, ascii]
  · rw [bracketed, bracketLen, if_neg h, if_neg h, Nat.add_zero]

theorem length_protoText (proto : Proto) : (protoText proto).length = protoLen proto := by
  cases proto <;> rfl

theorem length_transportText (proto : Proto) :
    (transportText proto).length = transportLen proto := by
  cases proto <;> simp [transportText, transportLen, ascii]

/-- Every substitution is counted with the length it is written with. -/
theorem length_substLump (msg : SipMsg) (sendSock : Option SocketInfo) (subst : LumpSubst) :
    (substLump msg sendSock subst).length =
      substLumpLen msg sendSock subst := by
  cases subst with
  | nop => rfl
  | rcvIp =>
    cases h : msg.rcv.bindAddress <;>
      simp [substLump, substLumpLen, h, length_bracketed]
  | rcvPort =>
    cases h : msg.rcv.bindAddress <;> simp [substLump, substLumpLen, h]
  | rcvProto =>
    cases h : msg.rcv.bindAddress <;>
      simp [substLump, substLumpLen, h, length_protoText]
  | rcvAll =>
    cases h : msg.rcv.bindAddress with
    | none => simp [substLump, substLumpLen, h]
    | some b =>
      by_cases hport : b.portNo ≠ sipPort
      · simp only [substLump, substLumpLen, h, if_pos hport,
          List.length_append, length_bracketed, length_transportText]
        simp [ascii, Nat.add_comm 1]
      · simp only [substLump, substLumpLen, h, if_neg hport,
          List.length_append, length_bracketed, length_transportText]
        simp
  | sndIp =>
    cases sendSock <;> simp [substLump, substLumpLen, length_bracketed]
  | sndPort => cases sendSock <;> simp [substLump, substLumpLen]
  | sndProto =>
    cases sendSock <;> simp [substLump, substLumpLen, length_protoText]
  | sndAll =>
    cases sendSock with
    | none => rfl
    | some s =>
      by_cases hport : s.portNo ≠ sipPort ∨ msg.setGlobalPort.length ≠ 0
      · simp only [substLump, substLumpLen, if_pos hport,
          List.length_append, length_bracketed, length_transportText]
        simp [ascii, Nat.add_comm 1]
      · simp only [substLump, substLumpLen, if_neg hport,
          List.length_append, length_bracketed, length_transportText]
        simp

end Msicp.Lumps
