import Msicp.Dialog.MsgBuilder
import Msicp.Reply.ReplyLumps

/-!
# The reply that is built from a request (`build_res_buf_from_sip_req`)

The builder walks over the header fields twice.  The first pass adds up the
length of the reply, which is then allocated; the second one writes it.  The
pieces of the request are given by where they lie in its buffer, as the parser
has set them.
-/

namespace Msicp.Reply

open Msicp.Support
open Msicp.Dialog (crlf crlfLen sipVersion sipVersionLen contentLength contentLengthLen int2str)

/-! ## The request -/

/-- The types of header fields the builder tells apart. -/
inductive HdrType
  | hdrTo
  | hdrVia
  | hdrRecordRoute
  | hdrFrom
  | hdrCallId
  | hdrCSeq
  | hdrOther
  deriving DecidableEq

/-- `tag_value` of a `struct to_body`: no tag, or where it starts and its
length.  The parser takes one from the length of a quoted tag. -/
structure TagValue where
  s : Option ℕ
  len : ℤ
  deriving DecidableEq

/-- `struct hdr_field`: the header field, its body, and the tag of a To. -/
structure HdrField where
  type : HdrType
  name : ℕ
  len : ℕ
  bodyS : ℕ
  bodyLen : ℕ
  tag : TagValue
  deriving DecidableEq

/-- The end of the body. -/
def HdrField.bodyEnd (h : HdrField) : ℕ := h.bodyS + h.bodyLen

/-- The end of the header field. -/
def HdrField.stop (h : HdrField) : ℕ := h.name + h.len

/-- `struct via_param` of an `rport` parameter. -/
structure ViaParam where
  start : ℕ
  size : ℕ

/-- A request whose headers are all parsed: the header fields lie one behind
the other, a body lies in its header field, a tag in its To body, and the
`rport` parameter of the first Via in the body of that. -/
structure SipReq where
  buf : Bytes
  headers : List HdrField
  rport : Option ViaParam
  forceRport : Bool
  replyLump : List LumpRpl
  bodyIn : ∀ h ∈ headers, h.name < h.bodyS ∧ h.bodyEnd ≤ h.stop ∧
    h.stop ≤ buf.length
  ordered : headers.Pairwise (fun h h' => h.stop ≤ h'.name)
  tagIn : ∀ h ∈ headers, ∀ a, h.tag.s = some a → h.name ≤ a ∧ a < h.stop ∧
    h.name ≤ a + h.tag.len ∧ a + h.tag.len ≤ h.stop
  noTag : ∀ h ∈ headers, h.tag.s = none → h.tag.len = 0
  hasVia : ∃ h, headers.find? (fun h => h.type = .hdrVia) = some h ∧
    ∀ old, rport = some old →
      h.name + 1 ≤ old.start ∧ old.start + old.size ≤ h.bodyEnd
  lumps : ReplyLumps replyLump

/-- `get_to(msg)->tag_value`: the tag of the first To. -/
def SipReq.toTag (req : SipReq) : TagValue :=
  match req.headers.find? (fun h => h.type = .hdrTo) with
  | some h => h.tag
  | none => ⟨none, 0⟩

/-- `hdr == msg->h_via1`; header fields do not start at one place. -/
def SipReq.isVia1 (req : SipReq) (h : HdrField) : Bool :=
  (req.headers.find? (fun h => h.type = .hdrVia)).any (fun via => via.name = h.name)

/-! ## The length pass -/

/-- `SERVER_HDR`, `sip_warning` and `server_signature`, and what the builders of
parameters and of the warning return; `none` when they fail. -/
structure Env where
  serverHdr : Bytes
  serverSignature : Bool
  receivedTest : Bool
  receivedBuilder : Option Bytes
  rportBuilder : Option Bytes
  sipWarning : Bool
  warningBuilder : Option Bytes

/-- The pieces that are built before the two passes. -/
structure Pieces where
  received : Option Bytes
  rport : Option Bytes
  warning : Option Bytes

/-- `received_buf`, which is null unless the address has to be told. -/
def Env.received (env : Env) : Option (Option Bytes) :=
  if env.receivedTest then env.receivedBuilder.map some else some none

/-- `rport_buf`, which is there when the first Via has an `rport`. -/
def Env.rport (env : Env) (req : SipReq) : Option (Option Bytes) :=
  if req.forceRport ∨ req.rport.isSome then env.rportBuilder.map some
  else some none

/-- The calls of the builders; `none` when the function gives up. -/
def Env.pieces (env : Env) (req : SipReq) : Option Pieces := do
  let received ← env.received
  let rport ← env.rport req
  return ⟨received, rport, if env.sipWarning then env.warningBuilder else none⟩

/-- The length of a buffer that may be null. -/
def lenOf (s : Option Bytes) : ℕ := (s.getD []).length

/-- Record-Route goes into replies with these codes only. -/
def copiesRr (code : ℕ) : Bool := ¬(code < 180 ∨ 300 ≤ code)

def totagToken : Bytes := ascii ";tag="

def totagTokenLen : ℕ := 5

variable (req : SipReq) (code : ℕ) (text newTag : Bytes) (pieces : Pieces)

/-- A header field in the length pass.  An empty `newTag` is a null pointer as
well. -/
def hdrLen (h : HdrField) : ℤ :=
  match h.type with
  | .hdrTo =>
    (if newTag ≠ [] then
      if req.toTag.len ≠ 0 then newTag.length - req.toTag.len
      else newTag.length + totagTokenLen
    else 0) + h.len
  | .hdrVia =>
    h.bodyEnd - h.name + crlfLen +
      if req.isVia1 h then lenOf pieces.received + lenOf pieces.rport else 0
  | .hdrRecordRoute => if copiesRr code then h.len else 0
  | .hdrFrom | .hdrCallId | .hdrCSeq => h.len
  | .hdrOther => 0

/-- What the `rport` of the first Via, with its semicolon, takes up. -/
def oldRport : ℤ :=
  match req.rport with
  | some old => (old.size : ℤ) + 1
  | none => 0

def serverLen (env : Env) : ℤ :=
  if env.serverSignature then env.serverHdr.length + crlfLen else 0

def warningLen : ℤ :=
  match pieces.warning with
  | some warning => warning.length + crlfLen
  | none => 0

def contentLenLen : ℤ :=
  match bodyOf req.replyLump with
  | some body => contentLengthLen + (int2str body.length).length + crlfLen
  | none => contentLengthLen + 1 + crlfLen

/-- The sum of the length pass. -/
def lenSum (env : Env) : ℤ :=
  -oldRport req + (sipVersionLen + 1 + 3 + 1 + text.length + crlfLen) +
  (req.headers.map (hdrLen req code newTag pieces)).sum +
  (req.replyLump.map fun l => l.text.length).sum + serverLen env +
  warningLen pieces + contentLenLen req + crlfLen

/-- `len`, an `unsigned int`: the wrap-around of the single additions comes to
that of the sum. -/
def len (env : Env) : ℕ :=
  (lenSum req code text newTag pieces env % 2 ^ 32).toNat

/-! ## The write pass -/

/-- What is written so far, and `to_tag_val` of the bookmark: its offset in the
reply and its length. -/
structure Writer where
  out : Bytes
  toTagVal : Option (ℤ × ℤ)

/-- `append_str` from a buffer of its own. -/
def Writer.append (w : Writer) (s : Bytes) : Writer :=
  { w with out := w.out ++ s }

/-- `append_str` from the request.  A negative length is a huge one for
`memcpy`: the call does not return. -/
def Writer.appendStr (w : Writer) (buf : Bytes) (src len : ℤ) : Option Writer :=
  if len < 0 then none
  else some (w.append ((buf.drop src.toNat).take len.toNat))

def Writer.mark (w : Writer) (len : ℤ) : Writer :=
  { w with toTagVal := some (w.out.length, len) }

/-- The first Via. -/
def writeVia1 (w : Writer) (h : HdrField) : Option Writer := do
  let w ← match pieces.rport with
    | some rport =>
      match req.rport with
      | some old => do
          let w ← w.appendStr req.buf h.name (old.start - h.name - 1)
          (w.append rport).appendStr req.buf (old.start + old.size)
            (h.bodyEnd - old.start - old.size)
      | none => do
          let w ← w.appendStr req.buf h.name (h.bodyEnd - h.name)
          some (w.append rport)
    | none => w.appendStr req.buf h.name (h.bodyEnd - h.name)
  return w.append (pieces.received.getD [])

/-- A To when there is a new tag; `toTag` is what the length pass has left. -/
def writeTo (toTag : TagValue) (w : Writer) (h : HdrField) : Option Writer :=
  match toTag.s with
  | some s => do
      let w ← w.appendStr req.buf h.name (s - h.name)
      let w := (w.mark newTag.length).append newTag
      w.appendStr req.buf (s + toTag.len) (h.stop - (s + toTag.len))
  | none => do
      let w ← w.appendStr req.buf h.name (h.bodyEnd - h.name)
      let w := w.append totagToken
      let w := (w.mark newTag.length).append newTag
      w.appendStr req.buf h.bodyEnd (h.stop - h.bodyEnd)

/-- A header field in the write pass. -/
def writeHdr (w : Writer) (h : HdrField) : Option Writer :=
  match h.type with
  | .hdrVia => do
      let w ← if req.isVia1 h then writeVia1 req pieces w h
        else w.appendStr req.buf h.name (h.bodyEnd - h.name)
      return w.append crlf
  | .hdrRecordRoute =>
    if copiesRr code then w.appendStr req.buf h.name h.len else some w
  | .hdrTo =>
    if newTag ≠ [] then writeTo req newTag req.toTag w h
    else
      let w := match h.tag.s with
        | some s =>
          { w with toTagVal := some (w.out.length + (s - h.name), h.tag.len) }
        | none => w
      w.appendStr req.buf h.name h.len
  | .hdrFrom | .hdrCallId | .hdrCSeq => w.appendStr req.buf h.name h.len
  | .hdrOther => some w

/-- The three digits of the code. -/
def codeDigits : Bytes :=
  [UInt8.ofNat (48 + code / 100 % 10), UInt8.ofNat (48 + code / 10 % 10),
    UInt8.ofNat (48 + code % 10)]

/-- What stands in front of the header fields. -/
def statusLine : Bytes :=
  sipVersion ++ ascii " " ++ codeDigits code ++ ascii " " ++ text ++ crlf

/-- What stands behind the header fields. -/
def writeRest (env : Env) : Bytes :=
  hdrText req.replyLump ++
  (if env.serverSignature then env.serverHdr ++ crlf else []) ++
  contentLength ++
  (match bodyOf req.replyLump with
    | some body => int2str body.length
    | none => ascii "0") ++ crlf ++
  (match pieces.warning with
    | some warning => warning ++ crlf
    | none => []) ++
  crlf ++ (bodyOf req.replyLump).getD []

/-- The write pass. -/
def write (env : Env) : Option Writer := do
  let w ← req.headers.foldlM (writeHdr req code newTag pieces)
    ⟨statusLine code text, none⟩
  return w.append (writeRest req pieces env)

/-- `build_res_buf_from_sip_req`: the length computed, which is allocated and
returned, and what is written.  The outer `none` is a failed builder, the inner
one a `memcpy` that does not return. -/
def buildResBufFromSipReq (env : Env) : Option (ℕ × Option Writer) := do
  let pieces ← env.pieces req
  return (len req code text newTag pieces env, write req code text newTag pieces env)

end Msicp.Reply
