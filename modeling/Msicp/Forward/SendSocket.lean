import Msicp.Support.Bytes

/-!
# The sending socket: `get_send_socket`

A forced socket, the socket of the outgoing interface, the one of the process
and the first one of the address family are tried in turn.
-/

namespace Msicp.Forward

open Msicp.Support List Option

/-- `enum sip_protos` -/
inductive SipProto
  | none
  | udp
  | tcp
  | tls
  | sctp
  deriving DecidableEq

def afInet : ℕ := 2

def afInet6 : ℕ := 10

/-- `struct ip_addr` -/
structure IpAddr where
  af : ℕ
  len : ℕ
  addr : Bytes
  deriving DecidableEq

def ipAddrCmp (ip1 ip2 : IpAddr) : Bool :=
  ip1.af = ip2.af && ip1.addr.take ip1.len = ip2.addr.take ip1.len

/-- `struct socket_info`, as far as it is read here: the descriptor, the
address, the port, `SI_IS_LO` and the protocol. -/
structure SocketInfo where
  socket : ℤ
  address : IpAddr
  portNo : ℕ
  isLo : Bool
  proto : SipProto
  deriving DecidableEq

/-- The lists of the sockets that are listened on, each of its own protocol. -/
structure Listen where
  udp : List SocketInfo
  tcp : List SocketInfo
  tls : List SocketInfo
  udpProto : ∀ si ∈ udp, si.proto = .udp
  tcpProto : ∀ si ∈ tcp, si.proto = .tcp
  tlsProto : ∀ si ∈ tls, si.proto = .tls

/-- The configuration: the listening sockets, how the program was started and
compiled, and the socket of the process. -/
structure Config where
  listen : Listen
  dontFork : Bool
  tcpDisable : Bool
  tlsDisable : Bool
  useTls : Bool
  mhomed : Bool
  bindAddress : Option SocketInfo

namespace Config

/-- The choice of the first socket of IPv4 that is not a loopback, or else the
last one of IPv4. -/
def pickInet (sock : Option SocketInfo) (si : SocketInfo) : Option SocketInfo :=
  if si.address.af = afInet ∧ (sock.all fun s => s.isLo) = true then some si else sock

/-- The choice of the first socket of IPv6. -/
def pickInet6 (sock : Option SocketInfo) (si : SocketInfo) : Option SocketInfo :=
  if sock = none ∧ si.address.af = afInet6 then some si else sock

/-- `sendipv4`, as `main_loop` sets it. -/
def sendipv4 (c : Config) : Option SocketInfo :=
  if c.dontFork then c.listen.udp.head? else c.listen.udp.foldl pickInet none

def sendipv6 (c : Config) : Option SocketInfo :=
  if c.dontFork then c.listen.udp.head? else c.listen.udp.foldl pickInet6 none

def sendipv4Tcp (c : Config) : Option SocketInfo :=
  if c.dontFork || c.tcpDisable then none else c.listen.tcp.foldl pickInet none

def sendipv6Tcp (c : Config) : Option SocketInfo :=
  if c.dontFork || c.tcpDisable then none else c.listen.tcp.foldl pickInet6 none

def sendipv4Tls (c : Config) : Option SocketInfo :=
  if c.dontFork || c.tlsDisable then none else c.listen.tls.foldl pickInet none

def sendipv6Tls (c : Config) : Option SocketInfo :=
  if c.dontFork || c.tlsDisable then none else c.listen.tls.foldl pickInet6 none

def getSockInfoList (c : Config) : SipProto → Option (List SocketInfo)
  | .udp => some c.listen.udp
  | .tcp => some c.listen.tcp
  | .tls => if c.useTls then some c.listen.tls else none
  | .none => none
  | .sctp => none

def nextProto (c : Config) : SipProto → SipProto
  | .none => .udp
  | .udp => if c.tcpDisable then .none else .tcp
  | .tcp => if c.useTls then if c.tlsDisable then .none else .tls else .none
  | .tls => .none
  | .sctp => .none

/-- The test of `find_si` for a socket; the port 0 matches any. -/
def siMatches (ip : IpAddr) (port : ℕ) (si : SocketInfo) : Bool :=
  (port = 0 || si.portNo = port) && ipAddrCmp ip si.address

/-- The loop of `find_si` over the protocols, of which there are three. -/
def findSiLoop (c : Config) (ip : IpAddr) (port : ℕ) (proto : SipProto) :
    ℕ → SipProto → Option SocketInfo
  | 0, _ => none
  | fuel + 1, cProto =>
    match c.getSockInfoList cProto with
    | none => none
    | some list =>
      match list.find? (siMatches ip port) with
      | some si => some si
      | none =>
        if proto = .none ∧ c.nextProto cProto ≠ .none then
          findSiLoop c ip port proto fuel (c.nextProto cProto)
        else none

def findSi (c : Config) (ip : IpAddr) (port : ℕ) (proto : SipProto) : Option SocketInfo :=
  findSiLoop c ip port proto 3 (if proto = .none then .udp else proto)

/-- `get_out_socket`; `from?` is the address that the kernel gives to a socket
which is connected to the destination, if it can be connected. -/
def getOutSocket (c : Config) (from? : Option IpAddr) : Option SocketInfo :=
  from?.bind fun ip => c.findSi ip 0 .udp

/-- What becomes of `get_send_socket`: it returns, with the value of
`force_send_socket` that it leaves behind, or it follows a null pointer. -/
inductive Outcome
  | ret (force send : Option SocketInfo)
  | nullPointer
  deriving DecidableEq

/-- The switch over the family of the destination. -/
def byFamily (af : ℕ) (sock4 sock6 : Option SocketInfo) : Option SocketInfo :=
  if af = afInet then sock4 else if af = afInet6 then sock6 else none

/-- The switch at the end of `get_send_socket`; `af` is the family of the
destination. -/
def defaultSocket (c : Config) (af : ℕ) : SipProto → Option SocketInfo
  | .tcp => byFamily af c.sendipv4Tcp c.sendipv6Tcp
  | .tls => if c.useTls then byFamily af c.sendipv4Tls c.sendipv6Tls else none
  | .udp =>
    if (c.bindAddress.all fun b => af ≠ b.address.af || b.proto ≠ .udp) = true then
      byFamily af c.sendipv4 c.sendipv6
    else c.bindAddress
  | .none => none
  | .sctp => none

/-- `get_send_socket` behind the forced socket. -/
def unforcedSocket (c : Config) (from? : Option IpAddr) (af : ℕ) (proto : SipProto) :
    Option SocketInfo :=
  if c.mhomed = true ∧ proto = .udp then
    match c.getOutSocket from? with
    | none => none
    | some si => if si.socket ≠ -1 then some si else c.defaultSocket af proto
  else c.defaultSocket af proto

/-- What `force_send_socket` becomes: of another protocol, it is looked up. -/
def forcedSocket (c : Config) (f : SocketInfo) (proto : SipProto) : Option SocketInfo :=
  if f.proto ≠ proto then c.findSi f.address f.portNo proto else some f

/-- `get_send_socket` for a message with the given `force_send_socket`, or
without a message, and a destination of the family `af`. -/
def getSendSocket (c : Config) (force : Option SocketInfo) (from? : Option IpAddr)
    (af : ℕ) (proto : SipProto) : Outcome :=
  match force with
  | none => .ret none (c.unforcedSocket from? af proto)
  | some f =>
    match c.forcedSocket f proto with
    | some g =>
      if g.socket ≠ -1 then .ret (some g) (some g)
      else .ret (some g) (c.unforcedSocket from? af proto)
    -- the message about the mismatch reads `force_send_socket->socket`
    | none => .nullPointer

end Config

/-! ## Look-ups -/

variable {c : Config} {proto : SipProto} {af : ℕ} {from? : Option IpAddr}

variable {l : List SocketInfo} {si : SocketInfo} {ip : IpAddr} {port : ℕ}

theorem getSockInfoList_proto {p : SipProto} (hl : c.getSockInfoList p = some l) (hsi : si ∈ l) :
    si.proto = p ∧ p ≠ .none := by
  cases p with
  | none => exact absurd hl nofun
  | sctp => exact absurd hl nofun
  | udp =>
    obtain rfl := some.inj hl
    exact ⟨c.listen.udpProto si hsi, nofun⟩
  | tcp =>
    obtain rfl := some.inj hl
    exact ⟨c.listen.tcpProto si hsi, nofun⟩
  | tls =>
    rw [Config.getSockInfoList] at hl
    split_ifs at hl with htls
    obtain rfl := some.inj hl
    exact ⟨c.listen.tlsProto si hsi, nofun⟩

theorem siMatches_af (h : Config.siMatches ip port si = true) : si.address.af = ip.af := by
  simp only [Config.siMatches, ipAddrCmp, Bool.and_eq_true, decide_eq_true_eq] at h
  exact h.2.1.symm

theorem findSiLoop_some {fuel : ℕ} {p : SipProto}
    (h : c.findSiLoop ip port proto fuel p = some si) :
    si.address.af = ip.af ∧ si.proto ≠ .none ∧ (proto ≠ .none → si.proto = p) := by
  induction fuel generalizing p with
  | zero => cases h
  | succ fuel ih =>
    rw [Config.findSiLoop] at h
    cases hl : c.getSockInfoList p with
    | none =>
      rw [hl] at h
      cases h
    | some l =>
      rw [hl] at h
      dsimp only at h
      cases hfind : l.find? (Config.siMatches ip port) with
      | some x =>
        rw [hfind] at h
        obtain rfl := some.inj h
        obtain ⟨hproto, hne⟩ := getSockInfoList_proto hl (mem_of_find?_eq_some hfind)
        exact ⟨siMatches_af (find?_some hfind), hproto ▸ hne, fun _ => hproto⟩
      | none =>
        rw [hfind] at h
        dsimp only at h
        split_ifs at h with hnext
        obtain ⟨haf, hne, -⟩ := ih h
        exact ⟨haf, hne, fun hproto => absurd hnext.1 hproto⟩

theorem findSi_some (h : c.findSi ip port proto = some si) :
    si.address.af = ip.af ∧ si.proto ≠ .none ∧ (proto ≠ .none → si.proto = proto) := by
  obtain ⟨haf, hne, hproto⟩ := findSiLoop_some h
  refine ⟨haf, hne, fun hp => ?_⟩
  rw [hproto hp, if_neg hp]

/-! ## The sockets of the families -/

theorem foldl_pickInet {sock : Option SocketInfo} (h : l.foldl Config.pickInet sock = some si) :
    sock = some si ∨ si ∈ l ∧ si.address.af = afInet := by
  induction l generalizing sock with
  | nil => exact .inl h
  | cons x l ih =>
    rcases ih h with hpick | ⟨hmem, haf⟩
    · unfold Config.pickInet at hpick
      split_ifs at hpick with hx
      · obtain rfl := some.inj hpick
        exact .inr ⟨mem_cons_self, hx.1⟩
      · exact .inl hpick
    · exact .inr ⟨mem_cons_of_mem x hmem, haf⟩

theorem foldl_pickInet6 {sock : Option SocketInfo} (h : l.foldl Config.pickInet6 sock = some si) :
    sock = some si ∨ si ∈ l ∧ si.address.af = afInet6 := by
  induction l generalizing sock with
  | nil => exact .inl h
  | cons x l ih =>
    rcases ih h with hpick | ⟨hmem, haf⟩
    · unfold Config.pickInet6 at hpick
      split_ifs at hpick with hx
      · obtain rfl := some.inj hpick
        exact .inr ⟨mem_cons_self, hx.2⟩
      · exact .inl hpick
    · exact .inr ⟨mem_cons_of_mem x hmem, haf⟩

/-- A socket that may be used: of the protocol and the family that are asked
for. -/
def Suits (proto : SipProto) (af : ℕ) (si : SocketInfo) : Prop :=
  si.proto = proto ∧ si.address.af = af

theorem foldl_pickInet_suits (hl : ∀ si ∈ l, si.proto = proto)
    (h : l.foldl Config.pickInet none = some si) : Suits proto afInet si := by
  obtain ⟨hmem, haf⟩ := (foldl_pickInet h).resolve_left nofun
  exact ⟨hl si hmem, haf⟩

theorem foldl_pickInet6_suits (hl : ∀ si ∈ l, si.proto = proto)
    (h : l.foldl Config.pickInet6 none = some si) :
    Suits proto afInet6 si := by
  obtain ⟨hmem, haf⟩ := (foldl_pickInet6 h).resolve_left nofun
  exact ⟨hl si hmem, haf⟩

theorem byFamily_suits {sock4 sock6 : Option SocketInfo}
    (h4 : ∀ si, sock4 = some si → Suits proto afInet si)
    (h6 : ∀ si, sock6 = some si → Suits proto afInet6 si)
    (h : Config.byFamily af sock4 sock6 = some si) : Suits proto af si := by
  unfold Config.byFamily at h
  split_ifs at h with haf4 haf6
  · exact haf4 ▸ h4 si h
  · exact haf6 ▸ h6 si h

/-- Over TCP and TLS the socket of the family is taken. -/
theorem defaultSocket_suits (hproto : proto ≠ .udp)
    (h : c.defaultSocket af proto = some si) : Suits proto af si := by
  cases proto with
  | udp => exact absurd rfl hproto
  | none => cases h
  | sctp => cases h
  | tcp =>
    refine byFamily_suits (fun x hx => ?_) (fun x hx => ?_) h
    · unfold Config.sendipv4Tcp at hx
      split_ifs at hx
      exact foldl_pickInet_suits c.listen.tcpProto hx
    · unfold Config.sendipv6Tcp at hx
      split_ifs at hx
      exact foldl_pickInet6_suits c.listen.tcpProto hx
  | tls =>
    rw [Config.defaultSocket] at h
    split_ifs at h with htls
    refine byFamily_suits (fun x hx => ?_) (fun x hx => ?_) h
    · unfold Config.sendipv4Tls at hx
      split_ifs at hx
      exact foldl_pickInet_suits c.listen.tlsProto hx
    · unfold Config.sendipv6Tls at hx
      split_ifs at hx
      exact foldl_pickInet6_suits c.listen.tlsProto hx

/-- The socket of the process is one for the destination. -/
def BindSuits (c : Config) (af : ℕ) : Prop := ∃ b ∈ c.bindAddress, Suits .udp af b

theorem bindAddress_unsuited_iff :
    (c.bindAddress.all fun b => af ≠ b.address.af || b.proto ≠ .udp) = true ↔ ¬BindSuits c af := by
  unfold BindSuits Suits
  cases c.bindAddress with
  | none => simp
  | some b =>
    simp only [all_some, mem_some_iff, exists_eq_left', not_and_or,
      Bool.or_eq_true, decide_eq_true_eq, ne_eq]
    rw [or_comm, @eq_comm _ af]

theorem sendipv4_single (h : c.dontFork = true) : c.sendipv4 = c.listen.udp.head? := by
  rw [Config.sendipv4, if_pos h]

theorem sendipv6_single (h : c.dontFork = true) : c.sendipv6 = c.listen.udp.head? := by
  rw [Config.sendipv6, if_pos h]

/-- Over UDP the socket of the process is taken, or that of the family.  Without
processes the first socket stands for both families. -/
theorem defaultSocket_udp_iff : (∀ si ∈ c.defaultSocket af .udp, Suits .udp af si) ↔
      c.dontFork = false ∨ BindSuits c af ∨ (af ≠ afInet ∧ af ≠ afInet6) ∨
        ∀ si ∈ c.listen.udp.head?, si.address.af = af := by
  rw [Config.defaultSocket]
  by_cases hbind : BindSuits c af
  · rw [if_neg (mt bindAddress_unsuited_iff.mp (not_not.mpr hbind))]
    obtain ⟨b, hb, hsuits⟩ := hbind
    refine iff_of_true (fun si hsi => ?_) (.inr (.inl ⟨b, hb, hsuits⟩))
    exact Option.mem_unique hb hsi ▸ hsuits
  · rw [if_pos (bindAddress_unsuited_iff.mpr hbind)]
    cases hfork : c.dontFork with
    | false =>
      refine iff_of_true (fun si hsi => ?_) (.inl rfl)
      refine byFamily_suits (fun x hx => ?_) (fun x hx => ?_) hsi
      · rw [Config.sendipv4, hfork] at hx
        exact foldl_pickInet_suits c.listen.udpProto hx
      · rw [Config.sendipv6, hfork] at hx
        exact foldl_pickInet6_suits c.listen.udpProto hx
    | true =>
      rw [sendipv4_single hfork, sendipv6_single hfork]
      have hhead : (∀ si ∈ c.listen.udp.head?, Suits .udp af si) ↔
          ∀ si ∈ c.listen.udp.head?, si.address.af = af := by
        constructor
        · exact fun h si hsi => (h si hsi).2
        · exact fun h si hsi => ⟨c.listen.udpProto si (mem_of_head? hsi), h si hsi⟩
      by_cases hfamily : af = afInet ∨ af = afInet6
      · have htake : Config.byFamily af c.listen.udp.head? c.listen.udp.head? =
            c.listen.udp.head? := by
          unfold Config.byFamily
          rcases hfamily with h | h
          · rw [if_pos h]
          · rw [if_pos h, ite_self]
        rw [htake, hhead]
        simp [hbind, ← not_or, hfamily]
      · have htake : Config.byFamily af c.listen.udp.head? c.listen.udp.head? = none := by
          rw [not_or] at hfamily
          rw [Config.byFamily, if_neg hfamily.1, if_neg hfamily.2]
        rw [htake]
        exact iff_of_true nofun (.inr (.inr (.inl (not_or.mp hfamily))))

/-! ## The socket that is returned -/

/-- `get_send_socket` returns nothing or a socket that suits. -/
def Right (c : Config) (force : Option SocketInfo) (from? : Option IpAddr) (af : ℕ)
    (proto : SipProto) : Prop :=
  ∃ force' send, c.getSendSocket force from? af proto = .ret force' send ∧
    ∀ si ∈ send, Suits proto af si

/-- The forced socket, if there is one, is not lost: where its protocol is another
one, a socket is found for it. -/
def Kept (c : Config) (force : Option SocketInfo) (proto : SipProto) : Prop :=
  ∀ f ∈ force, c.forcedSocket f proto ≠ none

/-- The forced socket is open, so that it is used. -/
def Used (c : Config) (force : Option SocketInfo) (proto : SipProto) : Prop :=
  ∃ f ∈ force, ∃ g ∈ c.forcedSocket f proto, g.socket ≠ -1

/-- The forced socket is one for the destination. -/
def ForceFits (force : Option SocketInfo) (af : ℕ) (proto : SipProto) : Prop :=
  ∀ f ∈ force, (f.proto = proto ∨ proto ≠ .none) ∧ f.address.af = af

/-- The outgoing interface decides: none is found, or one whose socket is open. -/
def OutDecides (c : Config) (from? : Option IpAddr) (proto : SipProto) : Prop :=
  c.mhomed = true ∧ proto = .udp ∧ ∀ si ∈ c.getOutSocket from?, si.socket ≠ -1

/-- The sockets from which the switch at the end chooses are those of their
families. -/
def DefaultFits (c : Config) (af : ℕ) (proto : SipProto) : Prop :=
  proto ≠ .udp ∨ c.dontFork = false ∨ BindSuits c af ∨ (af ≠ afInet ∧ af ≠ afInet6) ∨
    ∀ si ∈ c.listen.udp.head?, si.address.af = af

theorem defaultSocket_iff :
    (∀ si ∈ c.defaultSocket af proto, Suits proto af si) ↔ DefaultFits c af proto := by
  unfold DefaultFits
  by_cases hudp : proto = .udp
  · subst hudp
    rw [defaultSocket_udp_iff]
    simp
  · exact iff_of_true (fun si hsi => defaultSocket_suits hudp hsi) (.inl hudp)

theorem getOutSocket_suits (hfrom : ∀ ip ∈ from?, ip.af = af)
    (h : c.getOutSocket from? = some si) : Suits .udp af si := by
  unfold Config.getOutSocket at h
  obtain ⟨ip, hip, hfind⟩ := bind_eq_some_iff.mp h
  obtain ⟨haf, -, hproto⟩ := findSi_some hfind
  exact ⟨hproto nofun, haf.trans (hfrom ip hip)⟩

/-- The kernel gives an address of the family of the destination. -/
theorem unforcedSocket_iff (hfrom : ∀ ip ∈ from?, ip.af = af) :
    (∀ si ∈ c.unforcedSocket from? af proto, Suits proto af si) ↔
      OutDecides c from? proto ∨ DefaultFits c af proto := by
  unfold Config.unforcedSocket OutDecides
  by_cases hout : c.mhomed = true ∧ proto = .udp
  · rw [if_pos hout]
    obtain ⟨hmhomed, rfl⟩ := hout
    cases hsock : c.getOutSocket from? with
    | none => exact iff_of_true nofun (.inl ⟨hmhomed, rfl, nofun⟩)
    | some si =>
      dsimp only
      by_cases hopen : si.socket ≠ -1
      · rw [if_pos hopen]
        refine iff_of_true (fun x hx => ?_) (.inl ⟨hmhomed, rfl, fun x hx => ?_⟩)
        · exact some.inj hx ▸ getOutSocket_suits hfrom hsock
        · exact some.inj hx ▸ hopen
      · rw [if_neg hopen, defaultSocket_iff]
        refine ⟨.inr, fun h => h.resolve_left fun hdecides => ?_⟩
        exact hopen (hdecides.2.2 si rfl)
  · rw [if_neg hout, defaultSocket_iff]
    exact ⟨.inr, fun h => h.resolve_left fun hdecides => hout ⟨hdecides.1, hdecides.2.1⟩⟩

theorem forcedSocket_suits_iff {f g : SocketInfo} (h : c.forcedSocket f proto = some g) :
    Suits proto af g ↔ (f.proto = proto ∨ proto ≠ .none) ∧ f.address.af = af := by
  unfold Config.forcedSocket at h
  split_ifs at h with hproto
  · obtain ⟨haf, hne, hfound⟩ := findSi_some h
    unfold Suits
    rw [haf]
    refine and_congr_left fun _ => ⟨fun hg => ?_, fun hp => ?_⟩
    · exact .inr (hg ▸ hne)
    · exact hfound (hp.resolve_left hproto)
  · obtain rfl := some.inj h
    rw [not_not] at hproto
    exact and_congr_left fun _ => ⟨.inl, fun _ => hproto⟩

/-- `get_send_socket` is right if and only if a forced socket of another protocol
has a counterpart of the protocol that is asked for; the forced socket that is
used, if one is, has the family of the destination; and otherwise the outgoing
interface decides or the switch at the end has sockets of their families to choose
from. -/
theorem get_send_socket_right_iff (c : Config) (force : Option SocketInfo)
    (from? : Option IpAddr) (af : ℕ) (proto : SipProto) (hfrom : ∀ ip ∈ from?, ip.af = af) :
    Right c force from? af proto ↔
      Kept c force proto ∧ (Used c force proto → ForceFits force af proto) ∧
        (¬Used c force proto → OutDecides c from? proto ∨ DefaultFits c af proto) := by
  unfold Right Config.getSendSocket Kept Used ForceFits
  cases force with
  | none =>
    rw [← unforcedSocket_iff hfrom]
    simp
  | some f =>
    simp only [mem_some_iff, forall_eq', exists_eq_left']
    cases hforced : c.forcedSocket f proto with
    | none => simp
    | some g =>
      have hsuits := @forcedSocket_suits_iff c proto af f g hforced
      simp only [mem_some_iff, exists_eq_left', ne_eq, reduceCtorEq, not_false_eq_true, true_and]
      by_cases hopen : g.socket = -1
      · rw [← unforcedSocket_iff hfrom]
        simp [hopen]
      · rw [← hsuits]
        simp [hopen]

/-- A UDP socket of IPv4 on the port 5060. -/
def udpSocket : SocketInfo := ⟨3, ⟨afInet, 4, [10, 0, 0, 1]⟩, 5060, false, .udp⟩

/-- The program listens on this socket only. -/
def udpOnly : Config where
  listen := ⟨[udpSocket], [], [], by simp [udpSocket], nofun, nofun⟩
  dontFork := false
  tcpDisable := false
  tlsDisable := false
  useTls := false
  mhomed := false
  bindAddress := some udpSocket

theorem udpOnly_right : Right udpOnly (some udpSocket) none afInet .udp :=
  (get_send_socket_right_iff udpOnly (some udpSocket) none afInet .udp nofun).mpr
    ⟨by rintro f ⟨⟩; decide, by rintro - f ⟨⟩; exact ⟨.inl rfl, rfl⟩,
      fun _ => .inr (.inr (.inl rfl))⟩

/-- The UDP socket is forced, and the message is sent over TCP. -/
theorem getSendSocket_udpOnly_tcp :
    ¬ ∀ (c : Config) (force : Option SocketInfo) (from? : Option IpAddr) (af : ℕ)
      (proto : SipProto), (∀ ip ∈ from?, ip.af = af) → Right c force from? af proto := by
  intro h
  obtain ⟨force, send, hret, -⟩ := h udpOnly (some udpSocket) none afInet .tcp nofun
  have hnull : udpOnly.getSendSocket (some udpSocket) none afInet .tcp = .nullPointer := by
    decide
  rw [hnull] at hret
  cases hret

end Msicp.Forward
