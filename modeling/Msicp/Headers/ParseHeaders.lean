import Msicp.Support.Bytes
import Mathlib.Data.List.DropRight
import Msicp.Support.Machine
import Mathlib.Logic.Function.Basic

/-!
# One header field

The end of one header field is found, and its body is parsed where the type of
the field asks for it.  Pointers into the message are offsets.
-/

namespace Msicp.Headers

open Msicp.Support Option

/-- The types of header fields, `HDR_VIA` to `HDR_OTHER`. -/
inductive HdrType
  | via
  | toHf
  | fromHf
  | cseq
  | callid
  | contact
  | maxforwards
  | route
  | recordroute
  | contenttype
  | contentlength
  | authorization
  | expires
  | proxyauth
  | supported
  | proxyrequire
  | unsupported
  | allow
  | event
  | accept
  | acceptlanguage
  | organization
  | priority
  | subject
  | useragent
  | acceptdisposition
  | contentdisposition
  | diversion
  | rpid
  | other
  deriving DecidableEq

/-- The number of the bit that stands for a type.  Bit 1 is `HDR_VIA2`, which
is a flag only. -/
def HdrType.bit : HdrType → ℕ
  | .via => 0
  | .toHf => 2
  | .fromHf => 3
  | .cseq => 4
  | .callid => 5
  | .contact => 6
  | .maxforwards => 7
  | .route => 8
  | .recordroute => 9
  | .contenttype => 10
  | .contentlength => 11
  | .authorization => 12
  | .expires => 13
  | .proxyauth => 14
  | .supported => 15
  | .proxyrequire => 16
  | .unsupported => 17
  | .allow => 18
  | .event => 19
  | .accept => 20
  | .acceptlanguage => 21
  | .organization => 22
  | .priority => 23
  | .subject => 24
  | .useragent => 25
  | .acceptdisposition => 26
  | .contentdisposition => 27
  | .diversion => 28
  | .rpid => 29
  | .other => 30

/-- `HDR_VIA2` -/
def via2Bit : ℕ := 1

/-- A piece of the message. -/
structure Span where
  s : ℕ
  len : ℕ
  deriving DecidableEq

/-- `struct hdr_field`, but for its link.  Of the parsed bodies only the number
of Via bodies is kept. -/
structure HdrField where
  type : HdrType
  name : Span
  body : Span
  len : ℕ
  vias : ℕ

/-- The offset behind a header field. -/
def HdrField.stop (f : HdrField) : ℕ := f.name.s + f.len

/-- The message, and what the parsers of names and bodies make of it: each of
them gives the offset behind what it has read, and `parseHname` the type and
the length of the name as well, `parseVia` the number of bodies. -/
structure Message where
  buf : Bytes
  /-- behind the first line -/
  start : ℕ
  parseHname : ℕ → Option (HdrType × ℕ × ℕ)
  parseVia : ℕ → Option (ℕ × ℕ)
  parseCseq : ℕ → Option ℕ
  parseTo : ℕ → Option ℕ
  parseContentLength : ℕ → Option ℕ
  parseHname_lt : ∀ {p t n q}, parseHname p = some (t, n, q) → p < q
  parseVia_pos : ∀ {p k q}, parseVia p = some (k, q) → 0 < k
  parseVia_le : ∀ {p k q}, parseVia p = some (k, q) → p ≤ q
  parseCseq_le : ∀ {p q}, parseCseq p = some q → p ≤ q
  parseTo_le : ∀ {p q}, parseTo p = some q → p ≤ q
  parseContentLength_le : ∀ {p q}, parseContentLength p = some q → p ≤ q

/-- `SP` -/
def isSp (c : Option UInt8) : Bool := c = some 9 ∨ c = some 32

def eatLwsEnd (buf : Bytes) : ℕ → ℕ → ℕ
  | 0, p => p
  | fuel + 1, p =>
    if isSp buf[p]? then eatLwsEnd buf fuel (p + 1)
    else if buf[p]? = some 10 ∧ isSp buf[p + 1]? then
      eatLwsEnd buf fuel (p + 2)
    else if buf[p]? = some 13 ∧ buf[p + 1]? = some 10 ∧ isSp buf[p + 2]? then
      eatLwsEnd buf fuel (p + 3)
    else p

/-- The offset behind the next line feed, `q_memchr`. -/
def behindLf (buf : Bytes) (p : ℕ) : Option ℕ :=
  if (10 : UInt8) ∈ buf.drop p then some (p + (buf.drop p).idxOf 10 + 1)
  else none

/-- The loop that looks for the end of a body that is not parsed. -/
def bodyEnd (buf : Bytes) : ℕ → ℕ → Option ℕ
  | 0, _ => none
  | fuel + 1, p =>
    match behindLf buf p with
    | none => none
    | some q => if isSp buf[q]? then bodyEnd buf fuel q else some q

/-- `trim_r`: the length without what ends the line. -/
def trimR (buf : Bytes) (s len : ℕ) : ℕ :=
  (((buf.drop s).take len).rdropWhile fun c => c = 0 ∨ c = 13 ∨ c = 10).length

/-- What `get_hdr_field` finds. -/
inductive Found
  | eoh
  | error
  | field (f : HdrField)

/-- The number of Via bodies in a body, and the offset behind it. -/
def parseBody (m : Message) (type : HdrType) (tmp : ℕ) : Option (ℕ × ℕ) :=
  match type with
  | .via => m.parseVia tmp
  | .cseq => (m.parseCseq tmp).map (0, ·)
  | .toHf => (m.parseTo tmp).map (0, ·)
  | .contentlength => (m.parseContentLength tmp).map (0, ·)
  | _ => (bodyEnd m.buf (m.buf.length - tmp) tmp).map (0, ·)

def getHdrField (m : Message) (p : ℕ) : Found :=
  if m.buf[p]? = some 10 ∨ m.buf[p]? = some 13 then .eoh
  else
    match m.parseHname p with
    | none => .error
    | some (type, nameLen, q) =>
      let tmp := eatLwsEnd m.buf (m.buf.length - q) q
      if m.buf.length ≤ tmp then .error
      else
        match parseBody m type tmp with
        | none => .error
        | some (vias, stop) =>
          .field {
            type := type
            name := ⟨p, nameLen⟩
            body := ⟨tmp, trimR m.buf tmp (stop - tmp)⟩
            len := stop - p
            vias := vias }

/-! ## A field has a start and an end -/

theorem le_eatLwsEnd (buf : Bytes) (fuel p : ℕ) : p ≤ eatLwsEnd buf fuel p := by
  induction fuel generalizing p with
  | zero => exact le_rfl
  | succ fuel ih =>
    have h1 := ih (p + 1)
    have h2 := ih (p + 2)
    have h3 := ih (p + 3)
    unfold eatLwsEnd
    split
    · omega
    · split
      · omega
      · split <;> omega

theorem lt_bodyEnd {buf : Bytes} {fuel p q : ℕ} (h : bodyEnd buf fuel p = some q) : p < q := by
  induction fuel generalizing p with
  | zero => cases h
  | succ fuel ih =>
    unfold bodyEnd at h
    split at h
    · cases h
    · rename_i r hr
      have hlt : p < r := by
        unfold behindLf at hr
        split at hr
        · have heq := some.inj hr
          omega
        · cases hr
      split at h
      · exact hlt.trans (ih h)
      · have heq := some.inj h
        omega

theorem le_parseBody {m : Message} {type : HdrType} {tmp vias stop : ℕ}
    (h : parseBody m type tmp = some (vias, stop)) :
    tmp ≤ stop ∧ (type = .via → 0 < vias) := by
  cases type with
  | via => exact ⟨m.parseVia_le h, fun _ => m.parseVia_pos h⟩
  | cseq =>
    obtain ⟨q, hq, heq⟩ := map_eq_some_iff.mp h
    obtain ⟨-, rfl⟩ := Prod.mk.inj heq
    exact ⟨m.parseCseq_le hq, fun hvia => by cases hvia⟩
  | toHf =>
    obtain ⟨q, hq, heq⟩ := map_eq_some_iff.mp h
    obtain ⟨-, rfl⟩ := Prod.mk.inj heq
    exact ⟨m.parseTo_le hq, fun hvia => by cases hvia⟩
  | contentlength =>
    obtain ⟨q, hq, heq⟩ := map_eq_some_iff.mp h
    obtain ⟨-, rfl⟩ := Prod.mk.inj heq
    exact ⟨m.parseContentLength_le hq, fun hvia => by cases hvia⟩
  | _ =>
    obtain ⟨q, hq, heq⟩ := map_eq_some_iff.mp h
    obtain ⟨-, rfl⟩ := Prod.mk.inj heq
    exact ⟨(lt_bodyEnd hq).le, fun hvia => by cases hvia⟩

/-- A field starts where it is looked for, it is not empty, and a Via has a
body. -/
theorem getHdrField_field {m : Message} {p : ℕ} {f : HdrField} (h : getHdrField m p = .field f) :
    f.name.s = p ∧ p < f.stop ∧ (f.type = .via → 0 < f.vias) := by
  unfold getHdrField at h
  split at h
  · cases h
  · split at h
    · cases h
    · rename_i type nameLen q hname
      dsimp only at h
      split at h
      · cases h
      · split at h
        · cases h
        · rename_i vias stop hbody
          obtain ⟨hle, hvias⟩ := le_parseBody hbody
          have hlt := m.parseHname_lt hname
          have hws := le_eatLwsEnd m.buf (m.buf.length - q) q
          cases h
          refine ⟨rfl, ?_, hvias⟩
          unfold HdrField.stop
          dsimp only
          omega

end Msicp.Headers

/-!
## Parsing headers on demand

The list of the header fields found so far, the pointers to the first field of
each type and the flags of the types are kept in the message.  Every call goes
on where the last one has stopped.
-/

namespace Msicp.Headers

open Msicp.Support

abbrev Addr := ℕ

/-- `HDR_VIA` to `HDR_RPID` as flags. -/
def HdrType.flag (t : HdrType) : BitVec 32 := BitVec.twoPow 32 t.bit

/-- `HDR_VIA2` -/
def flagVia2 : BitVec 32 := BitVec.twoPow 32 via2Bit

/-- `HDR_EOH`, which is -1. -/
def flagEoh : BitVec 32 := BitVec.allOnes 32

/-- `struct sip_msg`, as far as the headers are concerned.  `hook` has the
pointers to the first field of each type, `callid` to `rpid`.  A Via body is
pointed to by its header field and its number.  The header fields are
allocated from `brk` on. -/
structure SipMsg where
  headers : Option Addr
  lastHeader : Option Addr
  hdr : Addr → HdrField
  next : Addr → Option Addr
  parsedFlag : BitVec 32
  via1 : Option (Addr × ℕ)
  via2 : Option (Addr × ℕ)
  hVia1 : Option Addr
  hVia2 : Option Addr
  hook : HdrType → Option Addr
  unparsed : ℕ
  eoh : Option ℕ
  brk : Addr

/-- A header field is allocated, and filled by `get_hdr_field`. -/
def SipMsg.alloc (msg : SipMsg) (f : HdrField) : SipMsg :=
  { msg with
    hdr := Function.update msg.hdr msg.brk f
    next := Function.update msg.next msg.brk none
    brk := msg.brk + 1 }

/-- The branch of `parse_headers` for a Via. -/
def SipMsg.noteVia (msg : SipMsg) (hf : Addr) (f : HdrField) : SipMsg :=
  let msg := { msg with parsedFlag := msg.parsedFlag ||| HdrType.via.flag }
  if msg.via1 = none then
    let msg := { msg with hVia1 := some hf, via1 := some (hf, 0) }
    if 1 < f.vias then
      { msg with
        via2 := some (hf, 1)
        parsedFlag := msg.parsedFlag ||| flagVia2 }
    else msg
  else if msg.via2 = none then
    { msg with
      hVia2 := some hf
      via2 := some (hf, 0)
      parsedFlag := msg.parsedFlag ||| flagVia2 }
  else msg

/-- The branches of `parse_headers` by the type of the field. -/
def SipMsg.note (msg : SipMsg) (hf : Addr) (f : HdrField) : SipMsg :=
  match f.type with
  | .other => msg
  | .via => msg.noteVia hf f
  | t =>
    { msg with
      hook := if msg.hook t = none then
        Function.update msg.hook t (some hf) else msg.hook
      parsedFlag := msg.parsedFlag ||| t.flag }

/-- The header field is added to the list. -/
def SipMsg.append (msg : SipMsg) (hf : Addr) : SipMsg :=
  match msg.lastHeader with
  | none => { msg with headers := some hf, lastHeader := some hf }
  | some last =>
    { msg with
      next := Function.update msg.next last (some hf)
      lastHeader := some hf }

/-- A field that is found is noted and added to the list. -/
def SipMsg.add (msg : SipMsg) (f : HdrField) : SipMsg :=
  ((msg.alloc f).note msg.brk f).append msg.brk

/-- The loop of `parse_headers`: what it returns, with room for so many more
header fields in memory. -/
def parseHeadersLoop (m : Message) (flags : BitVec 32) : ℕ → ℕ → ℕ → SipMsg → Option (Bool × SipMsg)
  | 0, _, _, _ => none
  | fuel + 1, mem, tmp, msg =>
    if m.buf.length ≤ tmp ∨ flags &&& msg.parsedFlag = flags then
      some (true, { msg with unparsed := tmp })
    else
      match mem with
      | 0 => some (false, msg)
      | mem + 1 =>
        match getHdrField m tmp with
        | .error => some (false, msg)
        | .eoh =>
          some (true, { msg with
            eoh := some tmp
            parsedFlag := msg.parsedFlag ||| flagEoh
            unparsed := tmp })
        | .field f =>
          parseHeadersLoop m flags fuel mem f.stop (msg.add f)

def parseHeaders (m : Message) (flags : BitVec 32) (next : Bool) (mem : ℕ)
    (msg : SipMsg) : Option (Bool × SipMsg) :=
  let origFlag := if next then msg.parsedFlag else 0
  let msg := if next then
    { msg with parsedFlag := msg.parsedFlag &&& ~~~flags } else msg
  match parseHeadersLoop m flags (m.buf.length - msg.unparsed + 1) mem
    msg.unparsed msg with
  | none => none
  | some (true, msg) => some (true, msg)
  | some (false, msg) =>
    some (false, if next then
      { msg with parsedFlag := msg.parsedFlag ||| origFlag } else msg)

def checkTransactionQuadruple (m : Message) (mem : ℕ) (msg : SipMsg) : Option (Bool × SipMsg) :=
  match parseHeaders m (HdrType.fromHf.flag ||| HdrType.toHf.flag |||
    HdrType.callid.flag ||| HdrType.cseq.flag) false mem msg with
  | none => none
  | some (ok, msg) =>
    some (ok ∧ (msg.hook .fromHf).isSome ∧ (msg.hook .toHf).isSome ∧
      (msg.hook .callid).isSome ∧ (msg.hook .cseq).isSome, msg)

/-- The calls; `parse_msg` makes the first one, for `HDR_VIA`. -/
inductive Call
  | parseHeaders (flags : BitVec 32) (next : Bool) (mem : ℕ)
  | checkTransactionQuadruple (mem : ℕ)

/-- Calls on one message, from what `parse_msg` has before its first one. -/
def calls (m : Message) : Machine SipMsg Call where
  init msg := msg.headers = none ∧ msg.lastHeader = none ∧
    msg.parsedFlag = 0 ∧ msg.via1 = none ∧ msg.via2 = none ∧
    msg.hVia1 = none ∧ msg.hVia2 = none ∧ (∀ t, msg.hook t = none) ∧
    msg.eoh = none ∧ msg.unparsed = m.start
  step
    | .parseHeaders flags next mem, msg =>
      (parseHeaders m flags next mem msg).map Prod.snd
    | .checkTransactionQuadruple mem, msg =>
      (checkTransactionQuadruple m mem msg).map Prod.snd

/-! ## Every call returns -/

end Msicp.Headers
