import Msicp.Parser.UriRebuild

/-!
# Dialogs (`dlg_t`)

The strings and the route set of a dialog are blocks of shared memory, the
hooks are pointers to them or into them.  What the header parsers make of a
message, and what `shm_malloc` answers, are inputs of the functions.
-/

namespace Msicp.Dialog

open Msicp.Support Msicp.Parser

abbrev Addr := ℕ

/-- A block of shared memory that holds a text. -/
structure Blk where
  addr : Addr
  text : Bytes
  deriving DecidableEq

/-- A `str` of the dialog that has a block of its own, or the null pointer. -/
structure HeapStr where
  s : Option Blk := none
  len : ℕ := 0
  deriving DecidableEq

/-- `rr_t` as `parse_rr` leaves it: the text of its `len` bytes is the name up
to the `<`, the URI, and the rest.  A URI ends in front of the first `>` that
is not quoted. -/
structure RrBody where
  name : Bytes
  uri : Bytes
  rest : Bytes
  bare : uri.getLast? ≠ some '>'.toUInt8
  deriving DecidableEq

def RrBody.text (r : RrBody) : Bytes := r.name ++ r.uri ++ r.rest

/-- A copy of an `rr_t`, with its text in the same block. -/
structure Rr where
  addr : Addr
  body : RrBody
  deriving DecidableEq

def Rr.blk (r : Rr) : Blk := ⟨r.addr, r.body.text⟩

/-- The value of a `str`: where it starts and how long it is.  `wild` starts
at an address that was computed from a null pointer. -/
inductive StrVal
  | null
  | slice (blk : Addr) (off len : ℕ)
  | wild
  deriving DecidableEq

/-- A pointer to a `str`. -/
inductive StrPtr
  | null
  | ru
  | nh
  | remTarget
  | remUri
  | routeUri (node : Addr)
  deriving DecidableEq

/-- `dlg_hooks_t` -/
structure Hooks where
  ru : StrVal := .null
  nh : StrVal := .null
  requestUri : StrPtr := .null
  nextHop : StrPtr := .null
  firstRoute : Option Addr := none
  lastRoute : StrPtr := .null
  deriving DecidableEq

/-- `dlg_state_t` -/
inductive DlgState
  | new
  | early
  | confirmed
  | destroyed
  deriving DecidableEq

/-- `dlg_seq_t` -/
structure DlgSeq where
  value : ℕ := 0
  isSet : Bool := false
  deriving DecidableEq

/-- `dlg_id_t` -/
structure DlgId where
  callId : HeapStr := {}
  remTag : HeapStr := {}
  locTag : HeapStr := {}
  deriving DecidableEq

/-- `dlg_t` as `memset` leaves it, unless a field is given. -/
structure Dlg where
  id : DlgId := {}
  locSeq : DlgSeq := {}
  remSeq : DlgSeq := {}
  locUri : HeapStr := {}
  remUri : HeapStr := {}
  remTarget : HeapStr := {}
  state : DlgState := .new
  routeSet : List Rr := []
  hooks : Hooks := {}
  deriving DecidableEq

/-! ## The memory of a dialog -/

def HeapStr.blks (s : HeapStr) : List Blk := s.s.toList

/-- The blocks that the fields of the dialog point to. -/
def Dlg.owned (d : Dlg) : List Blk :=
  d.id.callId.blks ++ d.id.remTag.blks ++ d.id.locTag.blks ++ d.locUri.blks ++
    d.remUri.blks ++ d.remTarget.blks ++ d.routeSet.map Rr.blk

def Dlg.addrs (d : Dlg) : List Addr := d.owned.map Blk.addr

/-- What is read at a `str`; nothing if not all of it is in a block of the
dialog. -/
def Dlg.read (d : Dlg) : StrVal → Option Bytes
  | .slice blk off len =>
    (d.owned.find? fun b => b.addr = blk).bind fun b =>
      if off + len ≤ b.text.length then some ((b.text.drop off).take len)
      else none
  | _ => none

def HeapStr.val (s : HeapStr) : StrVal :=
  match s.s with
  | some b => .slice b.addr 0 s.len
  | none => .null

def Rr.uriVal (r : Rr) : StrVal :=
  .slice r.addr r.body.name.length r.body.uri.length

/-- The `str` that a pointer points to. -/
def Dlg.deref (d : Dlg) : StrPtr → StrVal
  | .null => .null
  | .ru => d.hooks.ru
  | .nh => d.hooks.nh
  | .remTarget => d.remTarget.val
  | .remUri => d.remUri.val
  | .routeUri node =>
    match d.routeSet.find? fun r => r.addr = node with
    | some r => r.uriVal
    | none => .wild

/-- The list from a node on. -/
def Dlg.routesFrom (d : Dlg) : Option Addr → List Rr
  | none => []
  | some node => d.routeSet.dropWhile fun r => r.addr ≠ node

/-! ## Shared memory -/

/-- What is left of the answers of `shm_malloc`: an address, or null. -/
abbrev Shm := List (Option Addr)

/-- An answer counts only if no block at that address is in use. -/
def shmMalloc (used : List Addr) : Shm → Option Addr × Shm
  | [] => (none, [])
  | a :: shm => (a.filter (· ∉ used), shm)

def strDuplicate (used : List Addr) (dst : HeapStr) (src : Bytes) (shm : Shm) :
    Bool × HeapStr × Shm :=
  match shmMalloc used shm with
  | (none, shm) => (false, { dst with s := none }, shm)
  | (some a, shm) => (true, ⟨some ⟨a, src⟩, src.length⟩, shm)

/-- `len && str_duplicate` -/
def dupUnlessEmpty (used : List Addr) (dst : HeapStr) (src : Bytes)
    (shm : Shm) : Bool × HeapStr × Shm :=
  if src = [] then (true, dst, shm) else strDuplicate used dst src shm

/-- `shm_duplicate_rr`: a copy of the node and of all behind it; a node and its
parameters take one answer. -/
def shmDuplicateRr (used : List Addr) : List RrBody → Shm → Option (List Rr) × Shm
  | [], shm => (some [], shm)
  | p :: ps, shm =>
    match shmMalloc used shm with
    | (none, shm) => (none, shm)
    | (some a, shm) =>
      let (copies, shm) := shmDuplicateRr (a :: used) ps shm
      (copies.map (⟨a, p⟩ :: ·), shm)

/-! ## The URI in a header field body -/

def findNotQuoted (c : UInt8) (quoted : Bool) (prev : UInt8) : Bytes → Option ℕ
  | [] => none
  | x :: s =>
    if quoted then
      (findNotQuoted c (x ≠ '"'.toUInt8 || prev = '\\'.toUInt8) x s).map (· + 1)
    else if x = '"'.toUInt8 then (findNotQuoted c true x s).map (· + 1)
    else if x = c then some 0
    else (findNotQuoted c false x s).map (· + 1)

/-- `get_raw_uri`: offset and length of the URI in the text, if the `<` that it
looks for is there. -/
def rawUriAt (s : Bytes) : Option (ℕ × ℕ) :=
  if s.getLast? = some '>'.toUInt8 then
    (findNotQuoted '<'.toUInt8 false 0 s).map fun i =>
      (i + 1, s.length - (i + 2))
  else some (0, s.length)

def Dlg.getRawUri (d : Dlg) : StrVal → StrVal
  | .slice blk off len =>
    match (d.read (.slice blk off len)).bind rawUriAt with
    | some (i, n) => .slice blk (off + i) n
    | none => .wild
  | v => v

/-! ## URI parameters -/

def isSpace (c : UInt8) : Bool :=
  c = ' '.toUInt8 || c = '\t'.toUInt8 || c = '\r'.toUInt8 || c = '\n'.toUInt8

def trimLeading (s : Bytes) : Bytes := s.dropWhile isSpace

/-- `parse_param_name` stops here. -/
def endsName (c : UInt8) : Bool :=
  isSpace c || c = ';'.toUInt8 || c = ','.toUInt8 || c = '='.toUInt8

/-- `parse_token_param` stops here. -/
def endsToken (c : UInt8) : Bool :=
  isSpace c || c = ','.toUInt8 || c = ';'.toUInt8

/-- The case of `parse_uri_class` that sets the `lr` hook. -/
def isLr : Bytes → Bool
  | [l, r] =>
    (l = 'l'.toUInt8 || l = 'L'.toUInt8) && (r = 'r'.toUInt8 || r = 'R'.toUInt8)
  | _ => false

/-- `parse_param_body`: what is left behind the body. -/
def parseParamBody (s : Bytes) : Option Bytes :=
  match s with
  | [] => none
  | c :: rest =>
    if c = '"'.toUInt8 then
      match rest.dropWhile (· ≠ '"'.toUInt8) with
      | [] => none
      | _ :: s => some s
    else if endsToken c then none
    else some (s.dropWhile fun x => !endsToken x)

/-- What follows a parameter: the end, or the text of the next one. -/
def nextParam : Bytes → Option (Option Bytes)
  | [] => some none
  | c :: s =>
    if c = ','.toUInt8 || c = '>'.toUInt8 then some none
    else if c = ';'.toUInt8 then
      match trimLeading s with
      | [] => none
      | s => some (some s)
    else none

/-- The text behind a name, up to the next parameter. -/
def behindName (s : Bytes) : Option (Option Bytes) :=
  match trimLeading s with
  | [] => some none
  | c :: s =>
    if c = '='.toUInt8 then
      (parseParamBody (trimLeading s)).bind fun s => nextParam (trimLeading s)
    else nextParam (c :: s)

/-- The loop of `parse_params` for URIs, as far as it sets the `lr` hook.  Each
turn takes a byte at least. -/
def paramsLoop : ℕ → Bytes → Bool → Option Bool
  | 0, _, _ => none
  | n + 1, s, lr =>
    let lr := lr || isLr (s.takeWhile fun c => !endsName c)
    match behindName (s.dropWhile fun c => !endsName c) with
    | none => none
    | some none => some lr
    | some (some s) => paramsLoop n s lr

/-- `parse_params`; `pkg` tells whether there is private memory left. -/
def parseParams (pkg : Bool) : Option Bytes → Option Bool
  | none => some false
  | some s => if pkg then paramsLoop (s.length + 1) s false else none

/-- The `lr` hook of the parameters of a URI, or the code of the error. -/
def uriLr (pkg : Bool) (uri : Bytes) : Except ℤ Bool :=
  match parseUri uri with
  | .error _ => .error (-1)
  | .ok puri =>
    match parseParams pkg (puri.params.s.map fun _ => puri.params.text uri)
    with
    | none => .error (-2)
    | some lr => .ok lr

/-! ## Calculating the hooks -/

/-- `&_d->rem_target` if there is one, else `&_d->rem_uri`. -/
def Dlg.targetPtr (d : Dlg) : StrPtr :=
  if d.remTarget.s.isSome then .remTarget else .remUri

def StrVal.notEmpty : StrVal → Bool
  | .null => false
  | .slice _ _ len => len ≠ 0
  | .wild => true

/-- The two statements at the end of `calculate_hooks`. -/
def Dlg.setUris (d : Dlg) : Dlg :=
  let uri := d.deref d.hooks.requestUri
  let hop := d.deref d.hooks.nextHop
  let hooks := d.hooks
  let hooks := if uri.notEmpty then
    { hooks with ru := d.getRawUri uri, requestUri := .ru } else hooks
  let hooks := if hop.notEmpty then
    { hooks with nh := d.getRawUri hop, nextHop := .nh } else hooks
  { d with hooks := hooks }

def calculateHooks (pkg : Bool) (d : Dlg) : ℤ × Dlg :=
  match d.routeSet with
  | r :: rs =>
    match uriLr pkg r.body.uri with
    | .error e => (e, d)
    | .ok true =>
      (0, { d with hooks := { d.hooks with
        requestUri := d.targetPtr
        nextHop := .routeUri r.addr
        firstRoute := some r.addr } }.setUris)
    | .ok false =>
      (0, { d with hooks := { d.hooks with
        requestUri := .routeUri r.addr
        nextHop := .routeUri r.addr
        firstRoute := rs.head?.map Rr.addr
        lastRoute := .remTarget } }.setUris)
  | [] =>
    (0, { d with hooks := { d.hooks with
      requestUri := d.targetPtr
      nextHop := d.targetPtr } }.setUris)

/-! ## Messages -/

/-- What `get_contact_uri` finds. -/
inductive Contact
  | missing
  | bad
  | star
  | uri (text : Bytes)

/-- A message as the header parsers see it.  `eoh`, `contactHf` and `cseqHf`
tell whether `parse_headers` succeeds up to there; `callId` is trimmed, and
`fromUri` and `toUri` are the bodies without their tag. -/
structure Msg where
  statusCode : ℕ := 0
  isInvite : Bool := false
  eoh : Bool := true
  contactHf : Bool := true
  cseqHf : Bool := true
  contact : Contact := .missing
  toTag : Option Bytes := none
  fromTag : Option Bytes := none
  callId : Option Bytes := none
  cseqMethod : Option Bytes := none
  cseqValue : Option ℕ := none
  fromUri : Option Bytes := none
  toUri : Option Bytes := none
  recordRoute : List (Option (List RrBody)) := []

def getContactUri (m : Msg) : Option Bytes :=
  match m.contact with
  | .missing => some []
  | .bad => none
  | .star => none
  | .uri text => some text

/-- The order of a route set in `get_route_set`. -/
inductive Order
  | normal
  | reverse
  deriving DecidableEq

/-- The inner loop of `get_route_set`: of each copy the first node is taken. -/
def addRoutes (order : Order) (used : List Addr) : List RrBody → List Rr →
    Shm → Option (List Rr) × Shm
  | [], rs, shm => (some rs, shm)
  | p :: ps, rs, shm =>
    match shmDuplicateRr (rs.map Rr.addr ++ used) (p :: ps) shm with
    | (some (t :: _), shm) =>
      match order with
      | .normal => addRoutes order used ps (rs ++ [t]) shm
      | .reverse => addRoutes order used ps (t :: rs) shm
    | (_, shm) => (none, shm)

/-- `get_route_set` from the header fields on; `none` if it fails. -/
def getRouteSet (order : Order) (used : List Addr) :
    List (Option (List RrBody)) → List Rr → Shm → Option (List Rr) × Shm
  | [], rs, shm => (some rs, shm)
  | none :: _, _, shm => (none, shm)
  | some body :: hfs, rs, shm =>
    match addRoutes order used body rs shm with
    | (some rs, shm) => getRouteSet order used hfs rs shm
    | (none, shm) => (none, shm)

/-! ## The calling side -/

/-- The labels `err1` of `response2dlg` and `request2dlg`. -/
def err1 (d : Dlg) : ℤ × Dlg := (-4, { d with remTarget := {} })

def err2 (d : Dlg) : ℤ × Dlg := err1 { d with id := { d.id with remTag := {} } }

def response2dlg (m : Msg) (shm : Shm) (d : Dlg) : ℤ × Dlg :=
  if !m.eoh then (-1, d)
  else
    match getContactUri m with
    | none => (-2, d)
    | some contact =>
      match dupUnlessEmpty d.addrs d.remTarget contact shm with
      | (false, target, _) => (-3, { d with remTarget := target })
      | (true, target, shm) =>
        let d := { d with remTarget := target }
        match m.toTag with
        | none => err1 d
        | some rtag =>
          match dupUnlessEmpty d.addrs d.id.remTag rtag shm with
          | (false, tag, _) =>
            err1 { d with id := { d.id with remTag := tag } }
          | (true, tag, shm) =>
            let d := { d with id := { d.id with remTag := tag } }
            match getRouteSet .reverse d.addrs m.recordRoute d.routeSet
              shm with
            | (none, _) => err2 { d with routeSet := [] }
            | (some rs, _) => (0, { d with routeSet := rs })

/-- What `dlg_new_resp_uac` and `dlg_early_resp_uac` do with a final response
that is not negative. -/
def confirm (m : Msg) (pkg : Bool) (shm : Shm) (d : Dlg) : ℤ × Dlg :=
  match response2dlg m shm d with
  | (ret, d) =>
    if ret < 0 then (-1, d)
    else
      match calculateHooks pkg { d with state := .confirmed } with
      | (ret, d) => if ret < 0 then (-2, d) else (0, d)

def dlgNewRespUac (m : Msg) (pkg : Bool) (shm : Shm) (d : Dlg) : ℤ × Dlg :=
  if m.statusCode < 200 then (0, d)
  else if 200 ≤ m.statusCode ∧ m.statusCode < 299 then confirm m pkg shm d
  else (1, { d with state := .destroyed })

def dlgEarlyRespUac (m : Msg) (pkg : Bool) (shm : Shm) (d : Dlg) : ℤ × Dlg :=
  if m.statusCode < 200 then (0, d)
  else if 200 ≤ m.statusCode ∧ m.statusCode ≤ 299 then confirm m pkg shm d
  else (1, { d with state := .destroyed })

/-- The old remote target is freed, and the new one duplicated. -/
def setTarget (contact : Bytes) (shm : Shm) (d : Dlg) : Bool × Dlg :=
  let used := { d with remTarget := { d.remTarget with s := none } }.addrs
  match strDuplicate used d.remTarget contact shm with
  | (ok, target, _) => (ok, { d with remTarget := target })

def dlgConfirmedRespUac (m : Msg) (shm : Shm) (d : Dlg) : ℤ × Dlg :=
  if m.statusCode = 481 then (1, { d with state := .destroyed })
  else if m.statusCode < 200 ∨ 300 ≤ m.statusCode then (0, d)
  else
    match m.cseqMethod with
    | none => (-1, d)
    | some method =>
      if method = ascii "INVITE" then
        if !m.contactHf then (-2, d)
        else
          match getContactUri m with
          | none => (-3, d)
          | some contact =>
            if contact = [] then (0, d)
            else
              match setTarget contact shm d with
              | (false, d) => (-4, d)
              | (true, d) => (0, d)
      else (0, d)

def dlgResponseUac (m : Msg) (pkg : Bool) (shm : Shm) (d : Dlg) : ℤ × Dlg :=
  match d.state with
  | .new => dlgNewRespUac m pkg shm d
  | .early => dlgEarlyRespUac m pkg shm d
  | .confirmed => dlgConfirmedRespUac m shm d
  | .destroyed => (-2, d)

/-- `new_dlg_uac`, where there is memory for the `dlg_t` itself. -/
def newDlgUac (cid ltag : Bytes) (lseq : ℕ) (luri ruri : Bytes) (pkg : Bool)
    (shm : Shm) : Option Dlg :=
  match strDuplicate [] {} cid shm with
  | (false, _, _) => none
  | (true, s, shm) =>
    let d : Dlg := { id := { callId := s } }
    match strDuplicate d.addrs {} ltag shm with
    | (false, _, _) => none
    | (true, s, shm) =>
      let d := { d with id := { d.id with locTag := s } }
      match strDuplicate d.addrs {} luri shm with
      | (false, _, _) => none
      | (true, s, shm) =>
        let d := { d with locUri := s }
        match strDuplicate d.addrs {} ruri shm with
        | (false, _, _) => none
        | (true, s, _) =>
          let d := { d with remUri := s, locSeq := ⟨lseq, true⟩ }
          match calculateHooks pkg d with
          | (ret, d) => if ret < 0 then none else some d

/-! ## The called side -/

/-- `get_dlg_uri`, where `uri` is the body without its tag. -/
def getDlgUri (used : List Addr) (uri : Option Bytes) (shm : Shm) : Bool × HeapStr × Shm :=
  match uri with
  | none => (false, {}, shm)
  | some uri => strDuplicate used {} uri shm

/-- `request2dlg` for a dialog that is new; what an error leaves in it is never
used. -/
def request2dlg (m : Msg) (shm : Shm) : Option (Dlg × Shm) :=
  if !m.eoh then none
  else do
    let contact ← getContactUri m
    match dupUnlessEmpty [] {} contact shm with
    | (false, _, _) => none
    | (true, s, shm) =>
      let d : Dlg := { remTarget := s }
      let rtag ← m.fromTag
      match dupUnlessEmpty d.addrs {} rtag shm with
      | (false, _, _) => none
      | (true, s, shm) =>
        let d := { d with id := { d.id with remTag := s } }
        let callid ← m.callId
        match dupUnlessEmpty d.addrs {} callid shm with
        | (false, _, _) => none
        | (true, s, shm) =>
          let d := { d with id := { d.id with callId := s } }
          let cseq ← m.cseqValue
          let d := { d with remSeq := ⟨cseq, true⟩ }
          match getDlgUri d.addrs m.fromUri shm with
          | (false, _, _) => none
          | (true, s, shm) =>
            let d := { d with remUri := s }
            match getDlgUri d.addrs m.toUri shm with
            | (false, _, _) => none
            | (true, s, shm) =>
              let d := { d with locUri := s }
              match getRouteSet .normal d.addrs m.recordRoute [] shm
              with
              | (none, _) => none
              | (some rs, shm) => some ({ d with routeSet := rs }, shm)

/-- `new_dlg_uas`; `tag` is the To tag of the server. -/
def newDlgUas (m : Msg) (code : ℕ) (tag : Bytes) (pkg : Bool) (shm : Shm) :
    Option Dlg :=
  if code < 200 ∨ 299 < code then none
  else
    match request2dlg m shm with
    | none => none
    | some (d, shm) =>
      match strDuplicate d.addrs {} tag shm with
      | (false, _, _) => none
      | (true, s, _) =>
        let d := { d with id := { d.id with locTag := s } }
        match calculateHooks pkg { d with state := .confirmed } with
        | (ret, d) => if ret < 0 then none else some d

def dlgRequestUas (m : Msg) (shm : Shm) (d : Dlg) : ℤ × Dlg :=
  if !m.cseqHf then (-2, d)
  else
    match m.cseqValue with
    | none => (-3, d)
    | some cseq =>
      if d.remSeq.isSet ∧ cseq ≤ d.remSeq.value then (0, d)
      else
        let d := { d with remSeq := ⟨cseq, true⟩ }
        if m.isInvite then
          if !m.contactHf then (-4, d)
          else
            match getContactUri m with
            | none => (-5, d)
            | some contact =>
              if contact = [] then (0, d)
              else
                match setTarget contact shm d with
                | (false, d) => (-6, d)
                | (true, d) => (0, d)
        else (0, d)

end Msicp.Dialog
