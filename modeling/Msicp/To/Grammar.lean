import Msicp.To.ParseTo
import Msicp.Avp.Search

/-!
# The grammar of To and From bodies

A body is `[display-name] "<" uri ">" *(";" param)` or `uri *(";" param)`.
White space, folded or not, may stand wherever the parts meet.
-/

namespace Msicp.To

open Msicp.Support
open Msicp.Avp (sameName)

/-- The ends of a line. -/
inductive Eol
  | cr
  | lf
  | crlf

def Eol.text : Eol → Bytes
  | .cr => [13]
  | .lf => [10]
  | .crlf => [13, 10]

/-- A blank: a space or a tab. -/
def blank (tab : Bool) : UInt8 := if tab then 9 else 32

/-- A piece of white space: a blank, or a line end with a blank behind it. -/
inductive Lws
  | blank (tab : Bool)
  | fold (eol : Eol) (tab : Bool)

def Lws.text : Lws → Bytes
  | .blank tab => [To.blank tab]
  | .fold eol tab => eol.text ++ [To.blank tab]

/-- White space. -/
def lwsText (l : List Lws) : Bytes := l.flatMap Lws.text

/-- A piece of a quoted string: a byte, a quoted pair, or a folded line. -/
inductive Qtext
  | byte (c : UInt8)
  | pair (c : UInt8)
  | fold (eol : Eol) (tab : Bool)

def Qtext.text : Qtext → Bytes
  | .byte c => [c]
  | .pair c => [92, c]
  | .fold eol tab => eol.text ++ [To.blank tab]

/-- The text between the quotes. -/
def qtextText (q : List Qtext) : Bytes := q.flatMap Qtext.text

/-- A quoted string. -/
def quoted (q : List Qtext) : Bytes := 34 :: (qtextText q ++ [34])

/-- The name in front of a URI in brackets. -/
inductive Display
  | none
  | quoted (q : List Qtext) (lws : List Lws)
  | words (word : Bytes) (more : List (List Lws × Bytes)) (lws : List Lws)

/-- The words behind the first one. -/
def moreText (more : List (List Lws × Bytes)) : Bytes :=
  more.flatMap fun m => lwsText m.1 ++ m.2

/-- The name itself. -/
def Display.slice : Display → Bytes
  | .none => []
  | .quoted q _ => To.quoted q
  | .words word more _ => word ++ moreText more

def Display.text : Display → Bytes
  | .none => []
  | .quoted q lws => To.quoted q ++ lwsText lws
  | .words word more lws => word ++ moreText more ++ lwsText lws

/-- The URI, in brackets or by itself. -/
inductive Address
  | enclosed (display : Display) (uri : Bytes)
  | bare (uri : Bytes)

def Address.text : Address → Bytes
  | .enclosed display uri => display.text ++ 60 :: (uri ++ [62])
  | .bare uri => uri

/-- The value of a parameter: a token or a quoted string. -/
inductive Value
  | token (t : Bytes)
  | quoted (q : List Qtext)

def Value.text : Value → Bytes
  | .token t => t
  | .quoted q => To.quoted q

/-- A parameter, with the white space in it. -/
structure Param where
  lead : List Lws
  name : Bytes
  behind : List Lws
  value : Option (List Lws × Value × List Lws)

def Param.text (a : Param) : Bytes :=
  lwsText a.lead ++ (a.name ++ (lwsText a.behind ++
    match a.value with
    | none => []
    | some (lws, value, behind) =>
      61 :: (lwsText lws ++ (value.text ++ lwsText behind))))

/-- A body. -/
structure Body where
  address : Address
  lws : List Lws
  params : List Param

/-- The parameters, each behind its `;`. -/
def paramsText (params : List Param) : Bytes :=
  params.flatMap fun a => 59 :: a.text

def Body.text (b : Body) : Bytes :=
  b.address.text ++ lwsText b.lws ++ paramsText b.params

/-! ## Well-formed bodies -/

/-- A byte of a word or of a URI without brackets. -/
def isWord (c : UInt8) : Bool :=
  c ∉ ([32, 9, 13, 10, 0, 92, 60, 62, 34, 59] : Bytes)

/-- A byte of a URI in brackets. -/
def isUri (c : UInt8) : Bool :=
  c ∉ ([32, 9, 13, 10, 0, 92, 60, 62, 34] : Bytes)

/-- A byte of the name or of a value of a parameter. -/
def isName (c : UInt8) : Bool :=
  c ∉ ([32, 9, 13, 10, 0, 92, 34, 59, 61] : Bytes)

/-- A byte of a quoted string. -/
def isQdtext (c : UInt8) : Bool :=
  c ∉ ([13, 10, 0, 92, 34] : Bytes)

/-- A text that is not empty, of bytes of one kind. -/
def IsText (f : UInt8 → Bool) (s : Bytes) : Prop :=
  s ≠ [] ∧ ∀ c ∈ s, f c = true

def Qtext.WellFormed : Qtext → Prop
  | .byte c => isQdtext c = true
  | .pair c => c ≠ 13 ∧ c ≠ 10
  | .fold _ _ => True

/-- A quoted string of the grammar. -/
def QtextsOk (q : List Qtext) : Prop := ∀ x ∈ q, x.WellFormed

/-- White space separates the words. -/
def Display.WellFormed : Display → Prop
  | .none => True
  | .quoted q _ => QtextsOk q
  | .words word more _ => IsText isWord word ∧ ∀ m ∈ more, m.1 ≠ [] ∧ IsText isWord m.2

/-- A URI in brackets does not start with a `;`. -/
def Address.WellFormed : Address → Prop
  | .enclosed display uri => display.WellFormed ∧ IsText isUri uri ∧ uri.head? ≠ some 59
  | .bare uri => IsText isWord uri

def Value.WellFormed : Value → Prop
  | .token t => IsText isName t
  | .quoted q => QtextsOk q

def Param.WellFormed (a : Param) : Prop :=
  IsText isName a.name ∧ ∀ v ∈ a.value, v.2.1.WellFormed

structure Body.WellFormed (b : Body) : Prop where
  address : b.address.WellFormed
  params : ∀ a ∈ b.params, a.WellFormed

/-- What follows the header on the next line: nothing, or something that does
not continue the header and can start a line of the message. -/
def Follows (eol : Eol) (rest : Bytes) : Prop :=
  ∀ c ∈ rest.head?, c ∉ ([32, 9, 92, 0] : Bytes) ∧ (eol = .cr → c ≠ 10)

/-! ## What is to be found -/

/-- The slice of `text` that starts at `p`. -/
def sliceAt (p : ℕ) (text : Bytes) : Str := ⟨p, text.length⟩

/-- The display name, which stands at the start, or the null string. -/
def Address.displayAt (p : ℕ) : Address → Str
  | .enclosed .none _ | .bare _ => ⟨0, 0⟩
  | .enclosed display _ => sliceAt p display.slice

/-- The URI. -/
def Address.uriAt (p : ℕ) : Address → Str
  | .enclosed display uri => sliceAt (p + display.text.length + 1) uri
  | .bare uri => sliceAt p uri

/-- The slice of the value; without the quotes, if it has them. -/
def Value.sliceAt (p : ℕ) : Value → Str
  | .token t => To.sliceAt p t
  | .quoted q => To.sliceAt (p + 1) (qtextText q)

/-- The parameter that was found is the parameter of the grammar, whose text
starts at `p`.  One without a value has an empty one. -/
structure ParamIs (p : ℕ) (a : Param) (found : ToParam) : Prop where
  type : found.type = .tag ↔ sameName (ascii "tag") a.name
  name : found.name = sliceAt (p + (lwsText a.lead).length) a.name
  value : match a.value with
    | none => found.value.len = 0
    | some (lws, value, _) =>
      found.value = value.sliceAt (p + (lwsText a.lead).length +
        a.name.length + (lwsText a.behind).length + 1 +
          (lwsText lws).length)

/-- The parameters that were found, from `p` on, where the first `;` is. -/
def ParamsAre : ℕ → List Param → List ToParam → Prop
  | _, [], [] => True
  | p, a :: as, x :: xs =>
    ParamIs (p + 1) a x ∧ ParamsAre (p + 1 + a.text.length) as xs
  | _, _, _ => False

/-- The value of the tag, the last one if there should be more. -/
def tagOf (params : List ToParam) : Str :=
  ((params.filter fun x => x.type = .tag).getLast?.map ToParam.value).getD ⟨0, 0⟩

/-- The body has been read as the grammar has it. -/
structure Parsed (p : ℕ) (b : Body) (found : ToBody) : Prop where
  error : found.error = false
  display : found.display = b.address.displayAt p
  uri : found.uri = b.address.uriAt p
  params : ParamsAre (p + b.address.text.length + (lwsText b.lws).length)
    b.params found.paramLst
  tag : found.tagValue = tagOf found.paramLst

end Msicp.To
