import Msicp.Support.Bytes

/-!
# To and From bodies: `parse_to`

Two automata read a body byte by byte, `parse_to` the name and the URI and
`parse_to_param` the parameters.  Pointers are addresses, 0 is the null
pointer.  Memory for the parameters is there.
-/

namespace Msicp.To

open Msicp.Support

/-- `str`; the length is the difference of two pointers. -/
structure Str where
  s : ℕ
  len : ℤ
  deriving DecidableEq

/-- `tmp - s` -/
def ptrDiff (p s : ℕ) : ℤ := (p : ℤ) - s

/-- The states of both automata. -/
inductive Status
  | startTo
  | displayQuoted
  | eDisplayQuoted
  | displayToken
  | sUriEnclosed
  | uriEnclosed
  | eUriEnclosed
  | uriOrToken
  | maybeUriEnd
  | endTo
  | fCr
  | fLf
  | fCrlf
  | sParaName
  | paraName
  | sEqual
  | sParaValue
  | tag1
  | tag2
  | tag3
  | paraValueToken
  | paraValueQuoted
  | eParaValue
  deriving DecidableEq

/-- `TAG_PARAM` and `GENERAL_PARAM`. -/
inductive ParamType
  | tag
  | general
  deriving DecidableEq

/-- `struct to_param`, but for its link. -/
structure ToParam where
  type : ParamType
  name : Str
  value : Str
  deriving DecidableEq

/-- A parameter as it has been allocated. -/
def ToParam.fresh : ToParam := ⟨.general, ⟨0, 0⟩, ⟨0, 0⟩⟩

/-- `struct to_body` -/
structure ToBody where
  error : Bool
  body : Str
  uri : Str
  display : Str
  tagValue : Str
  paramLst : List ToParam

/-- The kinds of bytes that the automata tell apart. -/
inductive CharClass
  | blank
  | lf
  | cr
  | nul
  | backslash
  | lt
  | gt
  | quote
  | semicolon
  | letterT
  | letterA
  | letterG
  | equal
  | default
  deriving DecidableEq

/-- The kind of a byte. -/
def charClass (c : UInt8) : CharClass :=
  if c = 32 ∨ c = 9 then .blank
  else if c = 10 then .lf
  else if c = 13 then .cr
  else if c = 0 then .nul
  else if c = 92 then .backslash
  else if c = 60 then .lt
  else if c = 62 then .gt
  else if c = 34 then .quote
  else if c = 59 then .semicolon
  else if c = 84 ∨ c = 116 then .letterT
  else if c = 65 ∨ c = 97 then .letterA
  else if c = 71 ∨ c = 103 then .letterG
  else if c = 61 then .equal
  else .default

/-! ## Parameters -/

/-- The variables of `parse_to_param`; `param` is what the pointer of that
name points to. -/
structure ParamVars where
  status : Status
  savedStatus : Status
  param : ToParam

/-- What becomes of a byte: the loop goes on, perhaps with a parameter added
to the list and a new one allocated; the end of the header has been reached;
or there is an error. -/
inductive ParamStep
  | next (v : ParamVars) (add : Option ToParam) (new : Bool)
  | endOfHeader (v : ParamVars) (add : Option ToParam)
  | error (v : ParamVars)

namespace ParamVars

/-- The loop goes on in the state `status`. -/
def goto (v : ParamVars) (status : Status) : ParamStep :=
  .next { v with status := status } none false

/-- `param->name.len = tmp - param->name.s` -/
def nameEnd (v : ParamVars) (p : ℕ) : ParamVars :=
  { v with param := { v.param with
      name := { v.param.name with len := ptrDiff p v.param.name.s } } }

/-- `param->value.len = tmp - param->value.s` -/
def valueEnd (v : ParamVars) (p : ℕ) : ParamVars :=
  { v with param := { v.param with
      value := { v.param.value with len := ptrDiff p v.param.value.s } } }

/-- `param->type = TAG_PARAM` -/
def setTag (v : ParamVars) : ParamVars :=
  { v with param := { v.param with type := .tag } }

/-- The cases of `' '` and `'\t'`. -/
def onBlank (v : ParamVars) (p : ℕ) : ParamStep :=
  match v.status with
  | .tag3 => (v.setTag.nameEnd p).goto .sEqual
  | .paraName | .tag1 | .tag2 => (v.nameEnd p).goto .sEqual
  | .paraValueToken =>
    let v := v.valueEnd p
    .next { v with status := .eParaValue } (some v.param) false
  | .fCrlf | .fLf | .fCr => v.goto v.savedStatus
  | _ => .next v none false

/-- The cases of `'\n'` and `'\r'` that both have: a line break, after which the
state is `f`. -/
def onBreak (v : ParamVars) (p : ℕ) (f : Status) : ParamStep :=
  match v.status with
  | .sParaName | .sEqual | .sParaValue | .eParaValue =>
    .next { v with savedStatus := v.status, status := f } none false
  | .tag3 =>
    .next { v.setTag.nameEnd p with savedStatus := .sEqual, status := f } none
      false
  | .paraName | .tag1 | .tag2 =>
    .next { v.nameEnd p with savedStatus := .sEqual, status := f } none false
  | .paraValueToken =>
    let v := v.valueEnd p
    .next { v with savedStatus := .eParaValue, status := f } (some v.param)
      false
  | _ => .error v

/-- The case of `'\n'`. -/
def onLf (v : ParamVars) (p : ℕ) : ParamStep :=
  match v.status with
  | .fCr => v.goto .fCrlf
  | .fCrlf | .fLf => .endOfHeader { v with status := v.savedStatus } none
  | _ => v.onBreak p .fLf

/-- The case of `'\r'`. -/
def onCr (v : ParamVars) (p : ℕ) : ParamStep :=
  match v.status with
  | .fCrlf | .fCr | .fLf =>
    .endOfHeader { v with status := v.savedStatus } none
  | _ => v.onBreak p .fCr

/-- The case of 0. -/
def onNul (v : ParamVars) (p : ℕ) : ParamStep :=
  match v.status with
  | .tag3 =>
    let v := v.setTag
    .endOfHeader { v with
      param := { v.param with name := { v.param.name with len := 3 } }
      status := .sEqual
      savedStatus := .sEqual } none
  | .sEqual | .sParaValue =>
    .endOfHeader { v with savedStatus := v.status } none
  | .paraValueToken =>
    let v := v.valueEnd p
    .endOfHeader { v with
      status := .eParaValue, savedStatus := .eParaValue } (some v.param)
  | .eParaValue => .endOfHeader { v with savedStatus := v.status } none
  | _ => .error v

/-- The case of `'"'`. -/
def onQuote (v : ParamVars) (p : ℕ) : ParamStep :=
  match v.status with
  | .sParaValue =>
    .next { v with
      param := { v.param with value := { v.param.value with s := p + 1 } }
      status := .paraValueQuoted } none false
  | .paraValueQuoted =>
    let v := { v with param := { v.param with
      value := { v.param.value with
        len := ptrDiff p v.param.value.s - 1 } } }
    .next { v with status := .eParaValue } (some v.param) false
  | .fCrlf | .fLf | .fCr => .endOfHeader v none
  | _ => .error v

/-- A new parameter, behind the one that is added. -/
def newParam (v : ParamVars) (add : Option ToParam) : ParamStep :=
  .next { v with param := .fresh, status := .sParaName } add true

/-- `;` behind a tag without a value. -/
def emptyTag (v : ParamVars) (p : ℕ) : ParamStep :=
  if v.param.type = .tag then
    let v := { v with param := { v.param with value := ⟨p, 0⟩ } }
    v.newParam (some v.param)
  else .error v

/-- The case of `';'`. -/
def onSemicolon (v : ParamVars) (p : ℕ) : ParamStep :=
  match v.status with
  | .paraValueQuoted => .next v none false
  | .tag3 =>
    let v := v.setTag
    { v with param := { v.param with
      name := { v.param.name with len := 3 } } }.emptyTag p
  | .sEqual | .sParaValue => v.emptyTag p
  | .paraValueToken =>
    let v := v.valueEnd p
    v.newParam (some v.param)
  | .eParaValue => v.newParam none
  | .fCrlf | .fLf | .fCr => .endOfHeader v none
  | _ => .error v

/-- The case of `'='`. -/
def onEqual (v : ParamVars) (p : ℕ) : ParamStep :=
  match v.status with
  | .paraValueQuoted => .next v none false
  | .tag3 => (v.setTag.nameEnd p).goto .sParaValue
  | .paraName | .tag1 | .tag2 => (v.nameEnd p).goto .sParaValue
  | .sEqual => v.goto .sParaValue
  | .fCrlf | .fLf | .fCr => .endOfHeader v none
  | _ => .error v

/-- The letters of `tag` and the other bytes: `start` is the state behind the
first byte of a name, `tag` what becomes of a name that may be `tag`. -/
def onText (v : ParamVars) (p : ℕ) (start : Status) (tag : Status → Status) : ParamStep :=
  match v.status with
  | .paraValueQuoted | .paraValueToken | .paraName => .next v none false
  | .sParaName =>
    .next { v with
      param := { v.param with name := { v.param.name with s := p } }
      status := start } none false
  | .sParaValue =>
    .next { v with
      param := { v.param with value := { v.param.value with s := p } }
      status := .paraValueToken } none false
  | .tag1 => v.goto (tag .tag1)
  | .tag2 => v.goto (tag .tag2)
  | .tag3 => v.goto (tag .tag3)
  | .fCrlf | .fLf | .fCr => .endOfHeader v none
  | _ => .error v

/-- The switch of `parse_to_param`, for a byte at `p`. -/
def step (v : ParamVars) (c : UInt8) (p : ℕ) : ParamStep :=
  match charClass c with
  | .blank => v.onBlank p
  | .lf => v.onLf p
  | .cr => v.onCr p
  | .nul => v.onNul p
  | .backslash => .error v
  | .quote => v.onQuote p
  | .semicolon => v.onSemicolon p
  | .letterT => v.onText p .tag1 fun _ => .paraName
  | .letterA => v.onText p .paraName fun status =>
    if status = .tag1 then .tag2 else .paraName
  | .letterG => v.onText p .paraName fun status =>
    if status = .tag2 then .tag3 else .paraName
  | .equal => v.onEqual p
  | .lt | .gt | .default => v.onText p .paraName fun _ => .paraName

end ParamVars

def ToBody.addParam (b : ToBody) (param : ToParam) : ToBody :=
  { b with
    paramLst := b.paramLst ++ [param]
    tagValue := if param.type = .tag then param.value else b.tagValue }

/-- `add_param`, where there is a parameter to add. -/
def ToBody.addParams (b : ToBody) (add : Option ToParam) : ToBody :=
  add.elim b b.addParam

/-- `endofheader` of `parse_to_param`, with the status that it returns. -/
def paramEnd (b : ToBody) (v : ParamVars) (p : ℕ) : ToBody × Status × ℕ :=
  if v.param.type = .tag ∧
      (v.savedStatus = .sEqual ∨ v.savedStatus = .sParaValue) then
    (b.addParam { v.param with value := ⟨0, 0⟩ }, .eParaValue, p)
  else (b, v.savedStatus, p)

/-- The pointer at which an error leaves the loop: a backslash in a quoted
value has been passed, unless the line ends behind it. -/
def errorAt (v : ParamVars) (c : UInt8) (next : Option UInt8) (p : ℕ) : ℕ :=
  if charClass c = .backslash ∧ v.status = .paraValueQuoted ∧
      next ≠ some 13 ∧ next ≠ some 10 then p + 1
  else p

/-- The loop of `parse_to_param` over the bytes from `p` to the end. -/
def paramLoop : Bytes → ℕ → ParamVars → ToBody → ToBody × Status × ℕ
  | [], p, v, b => paramEnd b v p
  | c :: rest, p, v, b =>
    match v.step c p with
    | .next v add _ => paramLoop rest (p + 1) v (b.addParams add)
    | .endOfHeader v add => paramEnd (b.addParams add) v p
    | .error v' =>
      ({ b with error := true }, v'.status, errorAt v c rest.head? p)

def parseToParam (buf : Bytes) (p : ℕ) (b : ToBody) : ToBody × Status × ℕ :=
  paramLoop buf p ⟨.eParaValue, .eParaValue, .fresh⟩ b

/-! ## Names and URIs -/

/-- The variables of `parse_to`. -/
structure ToVars where
  status : Status
  savedStatus : Status
  foo : ℕ
  body : ToBody

/-- What becomes of a byte: the loop goes on, perhaps behind the next byte; the
parameters start here; the end of the header has been reached; or there is an
error. -/
inductive ToStep
  | next (v : ToVars)
  | skip (v : ToVars)
  | params (v : ToVars)
  | endOfHeader (v : ToVars)
  | error (v : ToVars)

namespace ToVars

/-- The loop goes on in the state `status`. -/
def goto (v : ToVars) (status : Status) : ToStep :=
  .next { v with status := status }

/-- `to_b->uri.len = p - to_b->uri.s` -/
def uriEnd (v : ToVars) (p : ℕ) : ToVars :=
  { v with body := { v.body with
      uri := { v.body.uri with len := ptrDiff p v.body.uri.s } } }

/-- `to_b->body.len = p - to_b->body.s` -/
def bodyEnd (v : ToVars) (p : ℕ) : ToVars :=
  { v with body := { v.body with
      body := { v.body.body with len := ptrDiff p v.body.body.s } } }

/-- The cases of `' '` and `'\t'`. -/
def onBlank (v : ToVars) (p : ℕ) : ToStep :=
  match v.status with
  | .fCrlf | .fLf | .fCr => v.goto v.savedStatus
  | .uriEnclosed => (v.uriEnd p).goto .eUriEnclosed
  | .uriOrToken => { v with foo := p }.goto .maybeUriEnd
  | _ => .next v

/-- The cases of `'\n'` and `'\r'` that both have. -/
def onBreak (v : ToVars) (p : ℕ) (f : Status) : ToStep :=
  match v.status with
  | .uriOrToken =>
    .next { v with foo := p, savedStatus := .maybeUriEnd, status := f }
  | .maybeUriEnd | .displayToken | .eDisplayQuoted | .endTo =>
    .next { v with savedStatus := v.status, status := f }
  | _ => .error v

/-- The case of `'\n'`. -/
def onLf (v : ToVars) (p : ℕ) : ToStep :=
  match v.status with
  | .fCr => v.goto .fCrlf
  | .fCrlf | .fLf => .endOfHeader { v with status := v.savedStatus }
  | _ => v.onBreak p .fLf

/-- The case of `'\r'`. -/
def onCr (v : ToVars) (p : ℕ) : ToStep :=
  match v.status with
  | .fCrlf | .fCr | .fLf => .endOfHeader { v with status := v.savedStatus }
  | _ => v.onBreak p .fCr

/-- The case of 0. -/
def onNul (v : ToVars) (p : ℕ) : ToStep :=
  match v.status with
  | .uriOrToken | .maybeUriEnd =>
    .endOfHeader { v.uriEnd p with status := .endTo, savedStatus := .endTo }
  | .endTo => .endOfHeader { v with status := .endTo, savedStatus := .endTo }
  | _ => .error v

/-- The case of `'\\'`. -/
def onBackslash (v : ToVars) : ToStep :=
  match v.status with
  | .displayQuoted => .skip v
  | _ => .error v

/-- The case of `'<'`. -/
def onLt (v : ToVars) (p : ℕ) : ToStep :=
  match v.status with
  | .startTo =>
    { v with body := { v.body with
      body := { v.body.body with s := p } } }.goto .sUriEnclosed
  | .displayQuoted => .next v
  | .eDisplayQuoted => v.goto .sUriEnclosed
  | .uriOrToken | .displayToken | .maybeUriEnd =>
    { v with body := { v.body with
      display := { v.body.display with
        len := ptrDiff v.foo v.body.display.s } } }.goto .sUriEnclosed
  | .fCrlf | .fLf | .fCr => .endOfHeader v
  | _ => .error v

/-- The case of `'>'`. -/
def onGt (v : ToVars) (p : ℕ) : ToStep :=
  match v.status with
  | .displayQuoted => .next v
  | .uriEnclosed => { v.uriEnd p with foo := 0 }.goto .endTo
  | .eUriEnclosed => { v with foo := 0 }.goto .endTo
  | .fCrlf | .fLf | .fCr => .endOfHeader v
  | _ => .error v

/-- The case of `'"'`. -/
def onQuote (v : ToVars) (p : ℕ) : ToStep :=
  match v.status with
  | .startTo =>
    { v with body := { v.body with
      body := { v.body.body with s := p }
      display := { v.body.display with s := p } } }.goto .displayQuoted
  | .displayQuoted =>
    { v with body := { v.body with
      display := { v.body.display with
        len := ptrDiff p v.body.display.s + 1 } } }.goto .eDisplayQuoted
  | .fCrlf | .fLf | .fCr => .endOfHeader v
  | _ => .error v

/-- The case of `';'`. -/
def onSemicolon (v : ToVars) (p : ℕ) : ToStep :=
  match v.status with
  | .displayQuoted | .uriEnclosed => .next v
  | .uriOrToken => .params ((({ v with foo := p }).uriEnd p).bodyEnd p)
  | .maybeUriEnd => .params ((v.uriEnd v.foo).bodyEnd p)
  | .endTo => .params (v.bodyEnd p)
  | .fCrlf | .fLf | .fCr => .endOfHeader v
  | _ => .error v

/-- The default case. -/
def onText (v : ToVars) (p : ℕ) : ToStep :=
  match v.status with
  | .startTo =>
    { v with body := { v.body with
      body := { v.body.body with s := p }
      uri := { v.body.uri with s := p }
      display := { v.body.display with s := p } } }.goto .uriOrToken
  | .sUriEnclosed =>
    { v with body := { v.body with
      uri := { v.body.uri with s := p } } }.goto .uriEnclosed
  | .maybeUriEnd => v.goto .displayToken
  | .displayQuoted | .displayToken | .uriEnclosed | .uriOrToken => .next v
  | .fCrlf | .fLf | .fCr => .endOfHeader v
  | _ => .error v

/-- The switch of `parse_to`, for a byte at `p`. -/
def step (v : ToVars) (c : UInt8) (p : ℕ) : ToStep :=
  match charClass c with
  | .blank => v.onBlank p
  | .lf => v.onLf p
  | .cr => v.onCr p
  | .nul => v.onNul p
  | .backslash => v.onBackslash
  | .lt => v.onLt p
  | .gt => v.onGt p
  | .quote => v.onQuote p
  | .semicolon => v.onSemicolon p
  | .letterT | .letterA | .letterG | .equal | .default => v.onText p

/-- `error` -/
def fail (v : ToVars) (p : ℕ) : ToBody × ℕ :=
  ({ v.body with error := true }, p)

/-- `endofheader` -/
def finish (v : ToVars) (p : ℕ) : ToBody × ℕ :=
  let v := if v.body.display.len = 0 then
    { v with body := { v.body with
      display := { v.body.display with s := 0 } } } else v
  match v.savedStatus with
  | .maybeUriEnd => (((v.uriEnd v.foo).bodyEnd p).body, p)
  | .endTo => ((v.bodyEnd p).body, p)
  | .eParaValue => (v.body, p)
  | _ => v.fail p

end ToVars

/-- The loop of `parse_to` over the bytes from `p` to the end. -/
def toLoop : Bytes → ℕ → ToVars → ToBody × ℕ
  | [], p, v => v.finish p
  | c :: rest, p, v =>
    match v.step c p with
    | .next v => toLoop rest (p + 1) v
    | .skip v =>
      match rest with
      | [] => v.finish (p + 2)
      | _ :: rest => toLoop rest (p + 2) v
    | .params v =>
      let (body, status, tmp) := parseToParam (c :: rest) p v.body
      { v with body := body, savedStatus := status }.finish tmp
    | .endOfHeader v => v.finish p
    | .error v => v.fail p

/-- A body as the callers hand it in, all zero, as `parse_to` starts. -/
def ToBody.start : ToBody :=
  ⟨false, ⟨0, 0⟩, ⟨0, 0⟩, ⟨0, 0⟩, ⟨0, 0⟩, []⟩

/-- `parse_to` on the buffer at `p`, with the pointer that it returns. -/
def parseTo (buf : Bytes) (p : ℕ) : ToBody × ℕ :=
  toLoop buf p ⟨.startTo, .startTo, 0, .start⟩

end Msicp.To
