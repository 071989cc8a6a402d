import Msicp.Avp.Search
import Msicp.Dialog.MsgBuilder
import Msicp.Rr.ParseRr
import Msicp.Tm.Branch
import Mathlib.Data.List.DropRight
import Mathlib.Data.List.Infix

/-!
# A request for an external application (`assemble_msg`)

`t_write_req` and `t_write_unix` write a request as lines of text.  Twenty values
end in a newline each; the last two, additional header fields and the body, may
have several lines.
-/

namespace Msicp.Tm

open Msicp.Support
open Msicp.Rr (parseRr)
open Msicp.Dialog (findNotQuoted int2str paramsLoop)

/-- The newline. -/
def lf : UInt8 := '\n'.toUInt8

def emptyParam : Bytes := ascii "."

/-! ## Elements to append -/

/-- Where the value of a `struct hdr_avp` comes from. -/
inductive Elem
  | avpName (sval : Bytes)
  | avpId (ival : ℤ)
  | hdrName (sval : Bytes)
  | hdrType (ival : ℕ)

/-- `struct hdr_avp` -/
structure HdrAvp where
  title : Bytes
  elem : Elem

/-- `struct tw_info`, with `struct tw_append` if there is one. -/
structure TwInfo where
  action : Bytes
  append : Option (Bool × List HdrAvp)

/-- The value of an AVP. -/
inductive AvpVal
  | str (s : Bytes)
  | int (n : ℕ)

/-- `struct hdr_field` -/
structure Header where
  type : ℕ
  name : Bytes
  body : Bytes

def hdrRecordRoute : ℕ := 2 ^ 9

/-! ## The request -/

/-- What `assemble_msg` looks at once `parse_headers`, `parse_from_header`,
`parse_sip_msg_uri` and `parse_contact` have succeeded.  `contact` is the first
URI of Contact as `parse_contact` leaves it.  What the parsers cut out of the
first line or out of CSeq has no newline, and a tag is a part of its header
field. -/
structure Request where
  method : Bytes
  uri : Bytes
  parsedUser : Bytes
  parsedHost : Bytes
  addressStr : Bytes
  portNoStr : Bytes
  dstPort : ℕ
  isInvite : Bool
  contact : Option Bytes
  fromBody : Bytes
  fromUri : Bytes
  fromTag : Bytes
  toBody : Bytes
  toTag : Bytes
  callid : Bytes
  cseqNumber : Bytes
  hashIndex : ℕ
  label : ℕ
  headers : List Header
  avps : Elem → Option AvpVal
  msgFlags : ℕ
  body : Option Bytes
  oneLine : ∀ s ∈ [method, uri, parsedUser, parsedHost, addressStr, portNoStr,
    cseqNumber], lf ∉ s
  fromTagIn : fromTag <:+: fromBody
  toTagIn : toTag <:+: toBody

/-- The bodies of the Record-Route header fields. -/
def Request.recordRoute (req : Request) : List Bytes :=
  (req.headers.filter fun h => h.type = hdrRecordRoute).map Header.body

/-- The URI that `parse_nameaddr` leaves, also when it finds no `>`. -/
def nameaddrUri (s : Bytes) : Bytes :=
  match findNotQuoted '<'.toUInt8 false 0 s with
  | none => s
  | some i =>
    let uri := s.drop (i + 1)
    match findNotQuoted '>'.toUInt8 false 0 uri with
    | none => uri
    | some j => uri.take j

/-- `str_uri` before the routes are looked at: Contact, or else From. -/
def Request.target (req : Request) : Bytes :=
  match req.contact.map nameaddrUri with
  | none => req.fromUri
  | some uri => if uri = [] then req.fromUri else uri

/-! ## The route -/

/-- The text of `copy_route`. -/
def addRoute (route uri : Bytes) : Bytes :=
  (if route = [] then [] else route ++ ascii ",") ++ ascii "<" ++ uri ++ ascii ">"

/-- `copy_route`, into a buffer of `ROUTE_BUFFER_MAX` bytes. -/
def copyRoute (route uri : Bytes) : Option Bytes :=
  if 512 ≤ uri.length + route.length + 3 then none else some (addRoute route uri)

/-- `fproxy_lr`; `none` when `parse_params` fails.  The text that is parsed begins
with the `;` that was found. -/
def fproxyLr (uri : Bytes) : Option Bool :=
  match findNotQuoted ';'.toUInt8 false 0 uri with
  | none => some false
  | some i =>
    if i + 1 = uri.length then some false
    else paramsLoop (uri.length + 1) (uri.drop i) false

/-- A Record-Route header field behind the first one. -/
def copyHeader (route body : Bytes) : Option Bytes := do
  if body = [] then some route
  else
    let uris ← parseRr body
    uris.foldlM copyRoute route

/-- `route`, `next_hop` and `str_uri` -/
structure Routing where
  route : Bytes
  nextHop : Bytes
  strUri : Bytes

/-- The first URI is copied if it is one of a loose router. -/
def firstRoute (lr : Bool) (uri : Bytes) : Option Bytes :=
  if lr then copyRoute [] uri else some []

def assembleRoute (target : Bytes) : List Bytes → Option Routing
  | [] => some ⟨[], emptyParam, target⟩
  | first :: later => do
      let uris ← parseRr first
      let uri ← uris.head?
      let lr ← fproxyLr uri
      let route ← firstRoute lr uri
      let route ← later.foldlM copyHeader route
      if lr then some ⟨route, uri, target⟩
      else
        let route ← copyRoute route target
        some ⟨route, emptyParam, uri⟩

/-! ## Additional header fields -/

def trimLen (s : Bytes) : Bytes :=
  (s.rdropWhile fun c => c = 0 || c = 13 || c = 10 || c = 32 || c = 9).dropWhile
    fun c => c = 32 || c = 9

/-- The value of an element, if it is found. -/
def Request.elemValue (req : Request) (e : Elem) : Option Bytes :=
  match e with
  | .hdrName sval =>
    (req.headers.find? fun h => Avp.sameName sval h.name).map fun h =>
      trimLen h.body
  | .hdrType ival =>
    (req.headers.find? fun h => ival = h.type).map fun h => trimLen h.body
  | e =>
    (req.avps e).map fun v =>
      match v with
      | .str s => s
      | .int n => int2str n

/-- `add2buf`: `room` bytes are free. -/
def add2buf (room : ℕ) (buf title value : Bytes) : Option Bytes :=
  if room ≤ buf.length + title.length + value.length + 2 + 1 then none
  else some (buf ++ title ++ ascii ": " ++ value ++ [lf])

def append2buf (req : Request) (room : ℕ) (elems : List HdrAvp) (buf : Bytes) :
    Option Bytes :=
  elems.foldlM (fun buf ha =>
    match req.elemValue ha.elem with
    | none => some buf
    | some value => add2buf room buf ha.title value) buf

/-- What `int2reverse_hex` writes; `none` when there is no room. -/
def flagsHex (req : Request) : Option Bytes :=
  (int2reverseHex (4096 - 13) req.msgFlags).map Prod.fst

/-- `twi->append->elems`, if there is something to append. -/
def TwInfo.elems (twi : TwInfo) : List HdrAvp :=
  match twi.append with
  | none => []
  | some (_, elems) => elems

/-- `append_buf` of `APPEND_BUFFER_MAX` bytes. -/
def assembleAppend (req : Request) (twi : TwInfo) : Option Bytes := do
  let hex ← flagsHex req
  let s := ascii "P-MsgFlags: " ++ hex ++ [lf]
  let s ← append2buf req 4096 twi.elems s
  return s ++ emptyParam

/-! ## The lines -/

/-- `iov_lines_eol`: the values of one line, and the last two. -/
structure Assembled where
  lines : List Bytes
  append : Bytes
  body : Bytes

def orEmpty (s : Bytes) : Bytes := if s = [] then emptyParam else s

/-- The body, which goes with an INVITE or when the script asks for it. -/
def assembleBody (req : Request) (twi : TwInfo) : Option Bytes :=
  if req.isInvite ∨ twi.append.any Prod.fst then req.body else some emptyParam

/-- `cmd_buf` of `CMD_BUFFER_MAX` bytes. -/
def cmdBuf (twi : TwInfo) : Option Bytes :=
  if 128 ≤ twi.action.length + 12 then none
  else some (ascii "sip_request." ++ twi.action)

/-- `id_buf` of `IDBUF_LEN` bytes. -/
def idBuf (req : Request) : Option Bytes :=
  let hash := int2str req.hashIndex
  let label := int2str req.label
  if 128 ≤ hash.length + 1 then none
  else if 128 ≤ label.length + 1 + (hash.length + 1) then none
  else some (hash ++ ascii ":" ++ label)

def assembleMsg (req : Request) (twi : TwInfo) : Option Assembled := do
  let r ← assembleRoute req.target req.recordRoute
  let body ← assembleBody req twi
  let append ← assembleAppend req twi
  let cmd ← cmdBuf twi
  let id ← idBuf req
  return {
    lines := [ascii "0.3", cmd, req.method, req.parsedUser, req.parsedHost,
      req.addressStr, if req.dstPort = 5060 then emptyParam else req.portNoStr,
      req.uri, orEmpty r.strUri, req.fromBody, req.toBody, req.callid,
      req.fromTag, req.toTag, req.cseqNumber, id, orEmpty r.route, r.nextHop]
    append := append
    body := body }

/-- What `writev` writes: each value and `eol`. -/
def Assembled.text (out : Assembled) : Bytes :=
  (out.lines ++ [out.append, out.body]).flatMap fun s => s ++ [lf]

end Msicp.Tm

/-!
## What the external application can read

The lines of text are compared with the values that they stand for, and the
route, next hop and request URI with those of a dialog whose route set is made
of all Record-Route header fields.
-/

namespace Msicp.Tm

open Msicp.Support
open Msicp.Rr (parseRr)
open Msicp.Dialog (int2str)

/-! ## The reader -/

/-- A reader that splits the text at newlines: so many lines, and the rest. -/
def readLines : ℕ → Bytes → List Bytes × Bytes
  | 0, s => ([], s)
  | n + 1, s =>
    let later := readLines n (s.dropWhile (· ≠ lf)).tail
    (s.takeWhile (· ≠ lf) :: later.1, later.2)

/-- Values with a newline behind each. -/
def joinLines (l : List Bytes) : Bytes := l.flatMap fun s => s ++ [lf]

theorem joinLines_append (l₁ l₂ : List Bytes) :
    joinLines (l₁ ++ l₂) = joinLines l₁ ++ joinLines l₂ :=
  List.flatMap_append

theorem joinLines_cons (s : Bytes) (l : List Bytes) :
    joinLines (s :: l) = s ++ lf :: joinLines l := by
  simp [joinLines]

theorem readLines_joinLines {l : List Bytes} (h : ∀ s ∈ l, lf ∉ s)
    (rest : Bytes) : readLines l.length (joinLines l ++ rest) = (l, rest) := by
  induction l with
  | nil => rfl
  | cons s l ih =>
    have hs : ∀ x ∈ s, decide (x ≠ lf) = true := by
      intro x hx
      rw [decide_eq_true_eq]
      rintro rfl
      exact h s List.mem_cons_self hx
    have hrest := ih fun t ht => h t (List.mem_cons_of_mem s ht)
    rw [joinLines_cons, List.append_assoc, List.cons_append, List.length_cons,
      readLines, takeWhile_token hs (by simp), List.dropWhile_append_of_pos hs,
      List.dropWhile_cons_of_neg (by simp), List.tail_cons, hrest]

/-! ## The values of one line -/

/-- The line with the flags. -/
def flagsLine (req : Request) : Bytes :=
  ascii "P-MsgFlags: " ++ (flagsHex req).getD []

/-- The lines of the elements that are found. -/
def elemLines (req : Request) (elems : List HdrAvp) : List Bytes :=
  elems.filterMap fun ha =>
    (req.elemValue ha.elem).map fun value => ha.title ++ ascii ": " ++ value

/-- All that stands on a line of its own, up to the `.` in front of the body. -/
def singleLines (req : Request) (twi : TwInfo) (out : Assembled) : List Bytes :=
  out.lines ++ (flagsLine req :: elemLines req twi.elems) ++ [emptyParam]

variable {req : Request} {twi : TwInfo} {out : Assembled}

theorem append2buf_eq {room : ℕ} {elems : List HdrAvp} {buf s : Bytes}
    (h : append2buf req room elems buf = some s) :
    s = buf ++ joinLines (elemLines req elems) := by
  induction elems generalizing buf with
  | nil =>
    obtain rfl := Option.some.inj h
    simp [joinLines, elemLines]
  | cons ha elems ih =>
    rw [append2buf, List.foldlM_cons] at h
    obtain ⟨buf', hfirst, hrest⟩ := Option.bind_eq_some_iff.mp h
    rw [ih hrest]
    cases hvalue : req.elemValue ha.elem with
    | none =>
      rw [hvalue] at hfirst
      obtain rfl := Option.some.inj hfirst
      simp [elemLines, hvalue]
    | some value =>
      rw [hvalue] at hfirst
      simp only [add2buf] at hfirst
      split_ifs at hfirst
      obtain rfl := Option.some.inj hfirst
      simp [elemLines, hvalue, joinLines]

theorem assembleAppend_eq {s : Bytes} (h : assembleAppend req twi = some s) :
    s = joinLines (flagsLine req :: elemLines req twi.elems) ++ emptyParam := by
  obtain ⟨hex, hhex, h⟩ := Option.bind_eq_some_iff.mp h
  obtain ⟨buf, hbuf, h⟩ := Option.bind_eq_some_iff.mp h
  obtain rfl := Option.some.inj h
  have hdigits : (flagsHex req).getD [] = hex := by rw [hhex]; rfl
  rw [append2buf_eq hbuf, flagsLine, hdigits]
  simp [joinLines]

/-- What `assemble_msg` has put together. -/
structure Made (req : Request) (twi : TwInfo) (out : Assembled)
    (r : Routing) : Prop where
  routing : assembleRoute req.target req.recordRoute = some r
  append : out.append =
    joinLines (flagsLine req :: elemLines req twi.elems) ++ emptyParam
  lines : out.lines = [ascii "0.3", ascii "sip_request." ++ twi.action,
    req.method, req.parsedUser, req.parsedHost, req.addressStr,
    if req.dstPort = 5060 then emptyParam else req.portNoStr,
    req.uri, orEmpty r.strUri, req.fromBody, req.toBody, req.callid, req.fromTag,
    req.toTag, req.cseqNumber,
    int2str req.hashIndex ++ ascii ":" ++ int2str req.label, orEmpty r.route,
    r.nextHop]

theorem assembleMsg_made (h : assembleMsg req twi = some out) : ∃ r, Made req twi out r := by
  obtain ⟨r, hr, h⟩ := Option.bind_eq_some_iff.mp h
  obtain ⟨body, -, h⟩ := Option.bind_eq_some_iff.mp h
  obtain ⟨append, happend, h⟩ := Option.bind_eq_some_iff.mp h
  obtain ⟨cmd, hcmd, h⟩ := Option.bind_eq_some_iff.mp h
  obtain ⟨id, hid, h⟩ := Option.bind_eq_some_iff.mp h
  obtain rfl := Option.some.inj h
  unfold cmdBuf at hcmd
  split_ifs at hcmd
  obtain rfl := Option.some.inj hcmd
  simp only [idBuf] at hid
  split_ifs at hid
  obtain rfl := Option.some.inj hid
  exact ⟨r, hr, assembleAppend_eq happend, rfl⟩

theorem Made.text {r : Routing} (h : Made req twi out r) :
    out.text = joinLines (singleLines req twi out) ++ (out.body ++ [lf]) := by
  have htext : out.text = joinLines (out.lines ++ [out.append, out.body]) := rfl
  rw [htext, joinLines_append, singleLines, List.append_assoc, joinLines_append, h.append]
  simp [joinLines]

end Msicp.Tm
