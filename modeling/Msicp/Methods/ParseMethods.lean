import Msicp.Avp.Search
import Msicp.Dialog.Dlg
import Msicp.Support.FoldedWords

/-!
# Lists of methods

A list is read method by method.  A method is looked up by its first letter;
what is none that is known is read as a token.
-/

namespace Msicp.Methods

open Msicp.Support
open Msicp.Avp (sameName)
open Msicp.Dialog (isSpace trimLeading)

/-- `token_char`; the bytes are signed. -/
def tokenChar (c : UInt8) : Bool :=
  (65 ≤ c && c ≤ 90) || (97 ≤ c && c ≤ 122) || (48 ≤ c && c ≤ 57) ||
    c ∈ ([45, 46, 33, 37, 42, 95, 43, 96, 39, 126] : Bytes)

/-! ## `enum methods` -/

def methUnknown : ℕ := 1
def methAck : ℕ := 2
def methBye : ℕ := 4
def methCancel : ℕ := 8
def methInfo : ℕ := 16
def methInvite : ℕ := 32
def methNotify : ℕ := 64
def methOptions : ℕ := 128
def methPrack : ℕ := 256
def methRegister : ℕ := 512
def methSubscribe : ℕ := 1024
def methUpdate : ℕ := 2048
def methMessage : ℕ := 4096
def methRefer : ℕ := 8192

/-! ## `parse_method` -/

/-- There is enough text, and it has the letters of `word` at `off`. -/
def looksLike (next : Bytes) (off : ℕ) (word : Bytes) : Bool :=
  off + word.length ≤ next.length && sameName word ((next.drop off).take word.length)

def unknown (next : Bytes) : Option (Bytes × ℕ) :=
  if next.head?.any tokenChar then some (next.dropWhile tokenChar, methUnknown)
  else none

/-- A case with one method. -/
def methodCase (next word : Bytes) (bit : ℕ) : Option (Bytes × ℕ) :=
  if looksLike next 1 word then some (next.drop (1 + word.length), bit)
  else unknown next

/-- A case with two methods, told apart behind the second letter. -/
def twoCases (next : Bytes) (len : ℕ) (second : Bytes) (m₁ m₂ : Bytes × ℕ) : Option (Bytes × ℕ) :=
  if len < next.length ∧ looksLike next 1 second then
    if looksLike next 2 m₁.1 then some (next.drop (2 + m₁.1.length), m₁.2)
    else if looksLike next 2 m₂.1 then some (next.drop (2 + m₂.1.length), m₂.2)
    else unknown next
  else unknown next

/-- The case of `'I'`. -/
def caseI (next : Bytes) : Option (Bytes × ℕ) :=
  twoCases next 3 (ascii "n") (ascii "fo", methInfo) (ascii "vite", methInvite)

/-- The case of `'R'`. -/
def caseR (next : Bytes) : Option (Bytes × ℕ) :=
  twoCases next 4 (ascii "e") (ascii "fer", methRefer) (ascii "gister", methRegister)

/-- `parse_method`: what is left, and the method. -/
def parseMethod (next : Bytes) (method : ℕ) : Option (Bytes × ℕ) :=
  match next with
  | [] => some (next, method)
  | c :: _ =>
    if c = 65 ∨ c = 97 then methodCase next (ascii "ck") methAck
    else if c = 66 ∨ c = 98 then methodCase next (ascii "ye") methBye
    else if c = 67 ∨ c = 99 then methodCase next (ascii "ancel") methCancel
    else if c = 73 ∨ c = 105 then caseI next
    else if c = 77 ∨ c = 109 then methodCase next (ascii "essage") methMessage
    else if c = 78 ∨ c = 110 then methodCase next (ascii "otify") methNotify
    else if c = 79 ∨ c = 111 then methodCase next (ascii "ptions") methOptions
    else if c = 80 ∨ c = 112 then methodCase next (ascii "rack") methPrack
    else if c = 82 ∨ c = 114 then caseR next
    else if c = 83 ∨ c = 115 then
      methodCase next (ascii "ubscribe") methSubscribe
    else if c = 85 ∨ c = 117 then methodCase next (ascii "pdate") methUpdate
    else unknown next

/-! ## `parse_methods` -/

/-- The loop, for as many methods as there are bytes. -/
def methodsLoop : ℕ → Bytes → ℕ → ℕ → Option ℕ
  | 0, _, _, _ => none
  | fuel + 1, next, method, methods =>
    match parseMethod next method with
    | none => none
    | some (next, method) =>
      match trimLeading next with
      | [] => some (methods ||| method)
      | c :: next =>
        if c = 44 then
          if trimLeading next = [] then none
          else methodsLoop fuel (trimLeading next) method (methods ||| method)
        else none

def parseMethods (body : Bytes) : Option ℕ :=
  if trimLeading body = [] then none
  else methodsLoop (trimLeading body).length (trimLeading body) 0 0

/-! ## Lists of methods -/

/-- The methods that are known. -/
def knownMethods : List (Bytes × ℕ) :=
  [(ascii "ACK", methAck), (ascii "BYE", methBye),
    (ascii "CANCEL", methCancel), (ascii "INFO", methInfo),
    (ascii "INVITE", methInvite), (ascii "MESSAGE", methMessage),
    (ascii "NOTIFY", methNotify), (ascii "OPTIONS", methOptions),
    (ascii "PRACK", methPrack), (ascii "REFER", methRefer),
    (ascii "REGISTER", methRegister), (ascii "SUBSCRIBE", methSubscribe),
    (ascii "UPDATE", methUpdate)]

/-- A token of a list, with the white space around it. -/
structure Item where
  lead : Bytes
  token : Bytes
  behind : Bytes

structure Item.WellFormed (x : Item) : Prop where
  lead : ∀ c ∈ x.lead, isSpace c = true
  nonempty : x.token ≠ []
  token : ∀ c ∈ x.token, tokenChar c = true
  behind : ∀ c ∈ x.behind, isSpace c = true

/-- The text of a list. -/
def listText : List Item → Bytes
  | [] => []
  | [x] => x.lead ++ (x.token ++ x.behind)
  | x :: y :: xs => x.lead ++ (x.token ++ (x.behind ++ 44 :: listText (y :: xs)))

/-- `body` is a list of these tokens. -/
structure IsList (body : Bytes) (xs : List Item) : Prop where
  text : body = listText xs
  nonempty : xs ≠ []
  items : ∀ x ∈ xs, x.WellFormed

/-- The bit of a token: that of the method it is, up to case. -/
def bitOf (token : Bytes) : ℕ :=
  match knownMethods.find? fun k => sameName k.1 token with
  | some k => k.2
  | none => methUnknown

/-- The bits of a list. -/
def bitsOf (xs : List Item) : ℕ := xs.foldl (fun bits x => bits ||| bitOf x.token) 0

/-- Up to case, `name` is the start of `s`. -/
def StartsWith (name s : Bytes) : Prop := sameName name (s.take name.length)

instance (name s : Bytes) : Decidable (StartsWith name s) :=
  inferInstanceAs (Decidable (sameName _ _))

/-- A method that is known is the start of a longer token. -/
def Extends (token : Bytes) : Prop :=
  ∃ k ∈ knownMethods, StartsWith k.1 token ∧ k.1.length < token.length

end Msicp.Methods
