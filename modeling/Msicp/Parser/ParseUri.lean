import Msicp.Tcp.ReadHeaders

/-!
# Parsing a URI (`parse_uri`)

The automaton reads the URI byte by byte.  Only at an `@` or at the end it
knows whether what it read was a user, a host, a password or a port, and it
moves what it found from one field of `struct sip_uri` to another.
-/

namespace Msicp.Parser

open Msicp.Support Msicp.Tcp

/-- A `str` that points into `buf`; `none` is the null pointer. -/
structure Str where
  s : Option ℕ := none
  len : ℕ := 0
  deriving DecidableEq

/-- The `str` from `a` up to `e`. -/
def Str.span (a e : ℕ) : Str where
  s := some a
  len := e - a

/-- The URI parameters that have a field of their own. -/
inductive Param
  | transport
  | ttl
  | userParam
  | maddr
  | method
  | lr
  | r2
  deriving DecidableEq

/-- The values of `proto`. -/
inductive Proto
  | none
  | udp
  | tcp
  | tls
  | sctp
  deriving DecidableEq

/-- `struct sip_uri` as `memset` leaves it, unless a field is given. -/
structure SipUri where
  user : Str := {}
  passwd : Str := {}
  host : Str := {}
  port : Str := {}
  params : Str := {}
  headers : Str := {}
  portNo : BitVec 16 := 0
  proto : Proto := .none
  secure : ℕ := 0
  transport : Str := {}
  ttl : Str := {}
  userParam : Str := {}
  maddr : Str := {}
  method : Str := {}
  lr : Str := {}
  r2 : Str := {}
  transportVal : Str := {}
  ttlVal : Str := {}
  userParamVal : Str := {}
  maddrVal : Str := {}
  methodVal : Str := {}
  lrVal : Str := {}
  r2Val : Str := {}
  deriving DecidableEq

/-- Writing through `param` and `param_val`. -/
def SipUri.setParam (uri : SipUri) (param : Param) (name val : Str) : SipUri :=
  match param with
  | .transport => { uri with transport := name, transportVal := val }
  | .ttl => { uri with ttl := name, ttlVal := val }
  | .userParam => { uri with userParam := name, userParamVal := val }
  | .maddr => { uri with maddr := name, maddrVal := val }
  | .method => { uri with method := name, methodVal := val }
  | .lr => { uri with lr := name, lrVal := val }
  | .r2 => { uri with r2 := name, r2Val := val }

/-- The states of the automaton, in the order of `enum states`. -/
inductive UriState
  | uriInit | uriUser | uriPassword | uriPasswordAlpha
  | uriHost | uriHostP | uriHost6P | uriHost6End | uriPort
  | uriParam | uriParamP | uriValP | uriHeaders
  | ptT | ptR | ptA | ptN | ptS | ptP | ptO | ptR2 | ptT2 | ptEq
  | pttlT2 | pttlL | pttlEq
  | puU | puS | puE | puR | puEq
  | pmM | pmE | pmT | pmH | pmO | pmD | pmEq
  | pmaA | pmaD | pmaD2 | pmaR | pmaEq
  | plrL | plrRFin | plrEq
  | pr2R | pr22Fin | pr2Eq
  | vuU | vuD | vuPFin
  | vtT | vtC | vtPFin
  | vtlsL | vtlsSFin
  | vsS | vsC | vsT | vsPFin
  deriving DecidableEq

/-- The labels `parse_uri` jumps to on an error. -/
inductive UriError
  | tooShort
  | badChar
  | badHost
  | badPort
  | badUri
  | headers
  | bug
  deriving DecidableEq

/-- The bytes that separate the parts of a URI. -/
inductive Kind
  | atSign
  | colon
  | semicolon
  | question
  | ampersand
  | lbracket
  | rbracket
  | other

def kind (c : UInt8) : Kind :=
  if c = 64 then .atSign
  else if c = 58 then .colon
  else if c = 59 then .semicolon
  else if c = 63 then .question
  else if c = 38 then .ampersand
  else if c = 91 then .lbracket
  else if c = 93 then .rbracket
  else .other

/-- The local variables of `parse_uri`.  `b` and `v` are read only behind the
start of a parameter and of a value. -/
structure UriParse where
  state : UriState := .uriInit
  s : ℕ
  b : ℕ := 0
  v : ℕ := 0
  param : Option Param := none
  pass : Option ℕ := none
  portNo : BitVec 32 := 0
  foundUser : Bool := false
  errorHeaders : Bool := false
  uri : SipUri := {}

/-- `still_at_user`: what was read as host, parameters and headers is the user
part.  Everything but the user and the password is zeroed. -/
def stillAtUser (p : ℕ) (st : UriParse) : Except UriError UriParse :=
  if st.foundUser then .error .badChar
  else
    let start := st.uri.host.s.getD 0
    .ok { st with
      uri :=
        { user := { s := st.uri.host.s, len := st.pass.getD p - start }
          passwd := match st.pass with
            | some q => Str.span (q + 1) p
            | none => {} }
      s := p + 1
      foundUser := true
      errorHeaders := false
      state := .uriHost }

/-- `param_set(b, v)` -/
def paramSet (p : ℕ) (st : UriParse) : UriParse :=
  match st.param with
  | some param =>
    { st with
      uri := st.uri.setParam param (Str.span st.b p) (Str.span st.v p) }
  | none => st

/-- A `;` or `?`: no user, a password cannot contain them. -/
def dropPass (st : UriParse) : UriParse :=
  if st.pass.isSome then { st with foundUser := true, pass := none } else st

/-- A `:` might start the password, but only if the user is not found yet. -/
def mightBePass (p : ℕ) (st : UriParse) : UriParse :=
  if st.foundUser then st
  else if st.pass.isSome then { st with foundUser := true, pass := none }
  else { st with pass := some p }

def semicolonCase (st : UriParse) : UriParse :=
  { dropPass st with state := .uriParam }

def questionCase (p : ℕ) (st : UriParse) : UriParse :=
  dropPass { st with
    uri := { st.uri with params := Str.span st.s p }
    state := .uriHeaders
    s := p + 1 }

def colonCase (p : ℕ) (st : UriParse) : UriParse :=
  { mightBePass p st with state := .uriParamP }

/-- `param_common_cases`; `other` is the state after any other byte. -/
def paramCommonCases (p : ℕ) (c : UInt8) (st other : UriParse) :
    Except UriError UriParse :=
  match kind c with
  | .atSign => stillAtUser p st
  | .semicolon => .ok (semicolonCase st)
  | .question => .ok (questionCase p st)
  | .colon => .ok (colonCase p st)
  | _ => .ok other

def valueCommonCases (p : ℕ) (c : UInt8) (st other : UriParse) :
    Except UriError UriParse :=
  match kind c with
  | .atSign => stillAtUser p st
  | .semicolon => .ok (paramSet p (semicolonCase st))
  | .question => .ok (paramSet p (questionCase p st))
  | .colon => .ok { colonCase p st with state := .uriValP }
  | _ => .ok other

/-- `param_switch`; `param_switch1` has the same byte twice. -/
def paramSwitch (c₁ c₂ : Char) (new : UriState) (p : ℕ) (c : UInt8)
    (st : UriParse) : Except UriError UriParse :=
  paramCommonCases p c st
    { st with
      state := if c = c₁.toUInt8 ∨ c = c₂.toUInt8 then new else .uriParamP }

def paramSwitchBig (c₁ c₂ d₁ d₂ : Char) (newC newD : UriState) (p : ℕ)
    (c : UInt8) (st : UriParse) : Except UriError UriParse :=
  paramCommonCases p c st
    { st with
      state :=
        if c = c₁.toUInt8 ∨ c = c₂.toUInt8 then newC
        else if c = d₁.toUInt8 ∨ c = d₂.toUInt8 then newD
        else .uriParamP }

def valueSwitch (c₁ c₂ : Char) (new : UriState) (p : ℕ) (c : UInt8)
    (st : UriParse) : Except UriError UriParse :=
  valueCommonCases p c st
    { st with
      state := if c = c₁.toUInt8 ∨ c = c₂.toUInt8 then new else .uriValP }

def valueSwitchBig (c₁ c₂ d₁ d₂ : Char) (newC newD : UriState) (p : ℕ)
    (c : UInt8) (st : UriParse) : Except UriError UriParse :=
  valueCommonCases p c st
    { st with
      state :=
        if c = c₁.toUInt8 ∨ c = c₂.toUInt8 then newC
        else if c = d₁.toUInt8 ∨ c = d₂.toUInt8 then newD
        else .uriValP }

def transportFin (proto : Proto) (p : ℕ) (c : UInt8) (st : UriParse) :
    Except UriError UriParse :=
  let setProto (st : UriParse) : UriParse :=
    { st with uri := { st.uri with proto := proto } }
  match kind c with
  | .atSign => stillAtUser p st
  | .semicolon => .ok (setProto (paramSet p (semicolonCase st)))
  | .question => .ok (setProto (paramSet p (questionCase p st)))
  -- `colon_case` has no `break` here and goes on into the default case
  | .colon => .ok { colonCase p st with state := .uriValP }
  | _ => .ok { st with state := .uriValP }

/-- The states `PT_eq` and so on, behind the `=` of a known parameter. -/
def paramEq (param : Param) (values : List (Char × Char × UriState)) (p : ℕ)
    (c : UInt8) (st : UriParse) : Except UriError UriParse :=
  let st := { st with param := some param }
  let value := values.find? fun (c₁, c₂, _) =>
    c = c₁.toUInt8 ∨ c = c₂.toUInt8
  paramCommonCases p c st
    { st with
      v := p
      state := match value with
        | some (_, _, new) => new
        | none => .uriValP }

/-- The states `PLR_R_FIN` and `PR2_2_FIN`, where the name alone is enough. -/
def paramFin (setName : SipUri → Str → SipUri) (eq : UriState) (p : ℕ)
    (c : UInt8) (st : UriParse) : Except UriError UriParse :=
  let set (st : UriParse) : UriParse :=
    { st with uri := setName st.uri (Str.span st.b p) }
  match kind c with
  | .atSign => stillAtUser p st
  | .semicolon => .ok (set (semicolonCase st))
  | .question => .ok (set (questionCase p st))
  | .colon => .ok (colonCase p st)
  | _ =>
    .ok { st with state := if c = '='.toUInt8 then eq else .uriParamP }

def setLr (uri : SipUri) (name : Str) : SipUri := { uri with lr := name }

def setR2 (uri : SipUri) (name : Str) : SipUri := { uri with r2 := name }

/-- The state behind the first byte of a parameter.  The case of `r` has no
`break` and goes on into the default case. -/
def paramStart (c : UInt8) : UriState :=
  if c = 't'.toUInt8 ∨ c = 'T'.toUInt8 then .ptT
  else if c = 'u'.toUInt8 ∨ c = 'U'.toUInt8 then .puU
  else if c = 'm'.toUInt8 ∨ c = 'M'.toUInt8 then .pmM
  else if c = 'l'.toUInt8 ∨ c = 'L'.toUInt8 then .plrL
  else .uriParamP

/-- The bytes at which a known parameter starts, and `b` is set. -/
def startsParam (c : UInt8) : Bool :=
  "tTuUmMlLrR".toList.any fun x => c = x.toUInt8

def casePort (c : UInt8) (portNo : BitVec 32) : BitVec 32 :=
  portNo * 10 + BitVec.ofNat 32 (digitVal c)

/-- `check_host_end`; `other` is the result for any other byte. -/
def checkHostEnd (p : ℕ) (c : UInt8) (st : UriParse)
    (other : Except UriError UriParse) : Except UriError UriParse :=
  let found (next : UriState) : UriParse :=
    { st with
      uri := { st.uri with host := Str.span st.s p }
      state := next
      s := p + 1 }
  match kind c with
  | .colon => .ok (found .uriPort)
  | .semicolon => .ok (found .uriParam)
  | .question => .ok (found .uriHeaders)
  | .ampersand => .error .badChar
  | .atSign => .error .badChar
  | _ => other

/-- `URI_PASSWORD` turned out to be the port, and the user the host. -/
def passwordIsPort (p : ℕ) (st : UriParse) : SipUri :=
  { st.uri with
    port := Str.span st.s p
    portNo := st.portNo.setWidth 16
    host := st.uri.user
    user := {} }

/-- The states before the first parameter or header. -/
def stepHostPort (p : ℕ) (c : UInt8) (st : UriParse) :
    Except UriError UriParse :=
  match st.state with
  | .uriInit =>
    match kind c with
    | .lbracket => .ok { st with state := .uriHost6P, s := p }
    | .rbracket | .colon => .error .badChar
    -- `@` goes on into the default case
    | _ => .ok { st with state := .uriUser }
  | .uriUser =>
    match kind c with
    | .atSign =>
      .ok { st with
        uri := { st.uri with user := Str.span st.s p }
        state := .uriHost
        foundUser := true
        s := p + 1 }
    | .colon =>
      .ok { st with
        uri := { st.uri with user := Str.span st.s p }
        state := .uriPassword
        s := p + 1 }
    | .semicolon =>
      .ok { st with
        uri := { st.uri with host := Str.span st.s p }
        state := .uriParam
        s := p + 1 }
    | .question =>
      .ok { st with
        uri := { st.uri with host := Str.span st.s p }
        state := .uriHeaders
        s := p + 1 }
    | .lbracket | .rbracket => .error .badChar
    | _ => .ok st
  | .uriPassword =>
    match kind c with
    | .atSign =>
      .ok { st with
        uri := { st.uri with passwd := Str.span st.s p }
        portNo := 0
        state := .uriHost
        foundUser := true
        s := p + 1 }
    | .semicolon =>
      .ok { st with
        uri := passwordIsPort p st
        state := .uriParam
        foundUser := true
        s := p + 1 }
    | .question =>
      .ok { st with
        uri := passwordIsPort p st
        state := .uriHeaders
        foundUser := true
        s := p + 1 }
    | .lbracket | .rbracket | .colon => .error .badChar
    | _ =>
      if isDigit c then .ok { st with portNo := casePort c st.portNo }
      else .ok { st with portNo := 0, state := .uriPasswordAlpha }
  | .uriPasswordAlpha =>
    match kind c with
    | .atSign =>
      .ok { st with
        uri := { st.uri with passwd := Str.span st.s p }
        state := .uriHost
        foundUser := true
        s := p + 1 }
    | .semicolon | .question => .error .badPort
    | .lbracket | .rbracket | .colon => .error .badChar
    | _ => .ok st
  | .uriHost =>
    match kind c with
    | .lbracket => .ok { st with state := .uriHost6P }
    | .colon | .semicolon | .question | .ampersand | .atSign =>
      .error .badHost
    | _ => .ok { st with state := .uriHostP }
  | .uriHostP => checkHostEnd p c st (.ok st)
  | .uriHost6End => checkHostEnd p c st (.error .badHost)
  | .uriHost6P =>
    match kind c with
    | .rbracket => .ok { st with state := .uriHost6End }
    | .lbracket | .ampersand | .atSign | .semicolon | .question =>
      .error .badHost
    | _ => .ok st
  | .uriPort =>
    let foundPort (next : UriState) : UriParse :=
      { st with
        uri :=
          { st.uri with
            port := Str.span st.s p
            portNo := st.portNo.setWidth 16 }
        state := next
        s := p + 1 }
    match kind c with
    | .semicolon => .ok (foundPort .uriParam)
    | .question => .ok (foundPort .uriHeaders)
    | _ =>
      if isDigit c then .ok { st with portNo := casePort c st.portNo }
      else .error .badPort
  | _ => .error .bug

/-- `URI_HEADERS`; the headers themselves are not looked at. -/
def stepHeaders (p : ℕ) (c : UInt8) (st : UriParse) :
    Except UriError UriParse :=
  match kind c with
  | .atSign => stillAtUser p st
  | .semicolon =>
    if st.foundUser then .error .badChar
    else if st.pass.isSome then .error .headers
    else .ok { st with errorHeaders := true }
  | .colon => .ok (mightBePass p st)
  | .question => .ok (dropPass st)
  | _ => .ok st

/-- One turn of the loop of `parse_uri`, at the byte `c` at `p`. -/
def step (p : ℕ) (c : UInt8) (st : UriParse) : Except UriError UriParse :=
  match st.state with
  | .uriInit | .uriUser | .uriPassword | .uriPasswordAlpha | .uriHost
  | .uriHostP | .uriHost6P | .uriHost6End | .uriPort => stepHostPort p c st
  | .uriParam =>
    paramCommonCases p c st
      { st with
        b := if startsParam c then p else st.b
        state := paramStart c }
  | .uriParamP => paramCommonCases p c st st
  | .uriValP => valueCommonCases p c st st
  | .uriHeaders => stepHeaders p c st
  -- transport
  | .ptT => paramSwitchBig 'r' 'R' 't' 'T' .ptR .pttlT2 p c st
  | .ptR => paramSwitch 'a' 'A' .ptA p c st
  | .ptA => paramSwitch 'n' 'N' .ptN p c st
  | .ptN => paramSwitch 's' 'S' .ptS p c st
  | .ptS => paramSwitch 'p' 'P' .ptP p c st
  | .ptP => paramSwitch 'o' 'O' .ptO p c st
  | .ptO => paramSwitch 'r' 'R' .ptR2 p c st
  | .ptR2 => paramSwitch 't' 'T' .ptT2 p c st
  | .ptT2 => paramSwitch '=' '=' .ptEq p c st
  | .ptEq =>
    paramEq .transport [('u', 'U', .vuU), ('t', 'T', .vtT), ('s', 'S', .vsS)] p c st
  | .vuU => valueSwitch 'd' 'D' .vuD p c st
  | .vuD => valueSwitch 'p' 'P' .vuPFin p c st
  | .vuPFin => transportFin .udp p c st
  | .vtT => valueSwitchBig 'c' 'C' 'l' 'L' .vtC .vtlsL p c st
  | .vtC => valueSwitch 'p' 'P' .vtPFin p c st
  | .vtPFin => transportFin .tcp p c st
  | .vtlsL => valueSwitch 's' 'S' .vtlsSFin p c st
  | .vtlsSFin => transportFin .tls p c st
  | .vsS => valueSwitch 'c' 'C' .vsC p c st
  | .vsC => valueSwitch 't' 'T' .vsT p c st
  | .vsT => valueSwitch 'p' 'P' .vsPFin p c st
  | .vsPFin => transportFin .sctp p c st
  -- ttl
  | .pttlT2 => paramSwitch 'l' 'L' .pttlL p c st
  | .pttlL => paramSwitch '=' '=' .pttlEq p c st
  | .pttlEq => paramEq .ttl [] p c st
  -- user
  | .puU => paramSwitch 's' 'S' .puS p c st
  | .puS => paramSwitch 'e' 'E' .puE p c st
  | .puE => paramSwitch 'r' 'R' .puR p c st
  | .puR => paramSwitch '=' '=' .puEq p c st
  | .puEq => paramEq .userParam [] p c st
  -- method
  | .pmM => paramSwitchBig 'e' 'E' 'a' 'A' .pmE .pmaA p c st
  | .pmE => paramSwitch 't' 'T' .pmT p c st
  | .pmT => paramSwitch 'h' 'H' .pmH p c st
  | .pmH => paramSwitch 'o' 'O' .pmO p c st
  | .pmO => paramSwitch 'd' 'D' .pmD p c st
  | .pmD => paramSwitch '=' '=' .pmEq p c st
  | .pmEq => paramEq .method [] p c st
  -- maddr
  | .pmaA => paramSwitch 'd' 'D' .pmaD p c st
  | .pmaD => paramSwitch 'd' 'D' .pmaD2 p c st
  | .pmaD2 => paramSwitch 'r' 'R' .pmaR p c st
  | .pmaR => paramSwitch '=' '=' .pmaEq p c st
  | .pmaEq => paramEq .maddr [] p c st
  -- lr
  | .plrL => paramSwitch 'r' 'R' .plrRFin p c st
  | .plrRFin => paramFin setLr .plrEq p c st
  | .plrEq => paramEq .lr [] p c st
  -- r2
  | .pr2R => paramSwitch '2' '2' .pr22Fin p c st
  | .pr22Fin => paramFin setR2 .pr2Eq p c st
  | .pr2Eq => paramEq .r2 [] p c st

/-- The loop of `parse_uri`, over the bytes from `p` on. -/
def run (p : ℕ) : Bytes → UriParse → Except UriError UriParse
  | [], st => .ok st
  | c :: cs, st => do
      let st ← step p c st
      run (p + 1) cs st

/-- The parameters that reach up to the end `p`. -/
def endParams (p : ℕ) (st : UriParse) : UriParse :=
  { st with uri := { st.uri with params := Str.span st.s p } }

/-- The switch behind the loop, with `p` at the end of the URI. -/
def finish (p : ℕ) (st : UriParse) : Except UriError SipUri :=
  match st.state with
  | .uriInit => .error .tooShort
  | .uriUser =>
    if st.foundUser then .error .badUri
    else .ok { st.uri with host := Str.span st.s p }
  | .uriPassword =>
    if st.foundUser then .error .badPort else .ok (passwordIsPort p st)
  | .uriPasswordAlpha => .error .badPort
  | .uriHostP | .uriHost6End =>
    .ok { st.uri with host := Str.span st.s p }
  | .uriHost | .uriHost6P => .error .badHost
  | .uriPort =>
    .ok { st.uri with
      port := Str.span st.s p
      portNo := st.portNo.setWidth 16 }
  | .uriParam | .uriParamP
  | .ptT | .ptR | .ptA | .ptN | .ptS | .ptP | .ptO | .ptR2 | .ptT2 | .ptEq
  | .pttlT2 | .pttlL | .pttlEq | .puU | .puS | .puE | .puR | .puEq
  | .pmM | .pmE | .pmT | .pmH | .pmO | .pmD | .pmEq | .plrL | .pr2R =>
    .ok (endParams p st).uri
  | .plrRFin | .plrEq => .ok (setLr (endParams p st).uri (Str.span st.b p))
  | .pr22Fin | .pr2Eq => .ok (setR2 (endParams p st).uri (Str.span st.b p))
  | .uriValP | .vuU | .vuD | .vtT | .vtC | .vtlsL | .vsS | .vsC | .vsT =>
    .ok (paramSet p (endParams p st)).uri
  | .vuPFin => .ok { (paramSet p (endParams p st)).uri with proto := .udp }
  | .vtPFin => .ok { (paramSet p (endParams p st)).uri with proto := .tcp }
  | .vtlsSFin => .ok { (paramSet p (endParams p st)).uri with proto := .tls }
  | .vsPFin => .ok { (paramSet p (endParams p st)).uri with proto := .sctp }
  | .uriHeaders =>
    if st.errorHeaders then .error .headers
    else .ok { st.uri with headers := Str.span st.s p }
  -- the states of `maddr` are missing here
  | .pmaA | .pmaD | .pmaD2 | .pmaR | .pmaEq => .error .bug

/-- The part of `parse_uri` behind the scheme, which ends at `p`. -/
def parseFrom (p secure : ℕ) (buf : Bytes) : Except UriError SipUri := do
  let st ← run p (buf.drop p) { s := p, uri := { secure := secure } }
  finish buf.length st

def parseUri (buf : Bytes) : Except UriError SipUri :=
  match buf with
  | c₀ :: c₁ :: c₂ :: c₃ :: c₄ :: _ =>
    if c₀ ||| 0x20 = 115 ∧ c₁ ||| 0x20 = 105 ∧ c₂ ||| 0x20 = 112 then
      if c₃ = 58 then parseFrom 4 0 buf
      else if c₃ ||| 0x20 = 115 ∧ c₄ = 58 then parseFrom 5 1 buf
      else .error .badUri
    else .error .badUri
  | _ => .error .tooShort

end Msicp.Parser
