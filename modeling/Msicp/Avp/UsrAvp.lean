import Mathlib.Data.BitVec
import Msicp.Support.Bytes
import Msicp.Support.LinkChain
import Msicp.Support.Machine

/-!
# Attribute-value pairs (`usr_avp.c`)

An AVP has a name, which is a number or a string, and a value.  The AVPs of a
list are linked singly, the newest one first; one list at a time is the current
one.  Beside the name an AVP stores a 16-bit id, by which a search passes over
most of the others.

`added` and `born` of an AVP record the name that `add_avp` was called with and
the number of the call, and `live` the addresses that are allocated; nothing in
them is looked up.
-/

namespace Msicp.Avp

open Function (update)
open Support (Bytes Machine walk collect)

/-- The address of an AVP. -/
abbrev AvpPtr := ℕ

/-- The address of the head of a list. -/
abbrev ListPtr := ℕ

/-- An `int_str` that names an AVP.  A number fills half of the union; `rest`
is the other half.  A string is a pointer, which may be null. -/
inductive AvpName
  | id (n rest : BitVec 32)
  | str (name : Option Bytes)
deriving DecidableEq, Repr

/-- An `int_str` with a value. -/
inductive AvpValue
  | n (n : BitVec 32)
  | s (s : Bytes)
deriving DecidableEq, Repr

/-- `name.s==0`, which reads the whole union. -/
def AvpName.isNull : AvpName → Bool
  | .id n rest => n = 0 ∧ rest = 0
  | .str name => name.isNone

/-- An AVP without its link.  The flag `AVP_NAME_STR` says whether there is a
name, `AVP_VAL_STR` which kind of value there is. -/
structure UsrAvp where
  id : BitVec 16
  name : Option Bytes
  value : AvpValue
  added : AvpName
  born : ℕ

structure Avps where
  avp : AvpPtr → UsrAvp
  next : AvpPtr → Option AvpPtr
  list : ListPtr → Option AvpPtr
  crtAvps : ListPtr
  live : List AvpPtr
  calls : ℕ

/-- The characters are signed. -/
def computeId (name : Bytes) : BitVec 16 :=
  name.foldr (fun p id => id ^^^ p.toBitVec.signExtend 16) 0

def tolower (c : UInt8) : UInt8 :=
  if 65 ≤ c ∧ c ≤ 90 then c + 32 else c

/-- `!strncasecmp` on strings of one length. -/
def strncasecmp : Bytes → Bytes → Bool
  | a :: s, b :: t =>
    if tolower a = tolower b then
      if a = 0 then true else strncasecmp s t
    else false
  | _, _ => true

/-- The AVP that `add_avp` allocates, unless its name is refused. -/
def newAvp (name : AvpName) (value : AvpValue) (born : ℕ) : Option UsrAvp :=
  if name.isNull then none
  else
    match name with
    | .id n rest =>
      some { id := n.setWidth 16, name := none, value := value,
             added := .id n rest, born := born }
    | .str none => none
    | .str (some []) => none
    | .str (some (c :: name)) =>
      some { id := computeId (c :: name), name := some (c :: name),
             value := value, added := .str (some (c :: name)), born := born }

namespace Avps

variable (s : Avps)

/-- A new AVP at `p`, in front of the current list. -/
def linkAvp (p : AvpPtr) (avp : UsrAvp) : Avps :=
  { s with
    avp := update s.avp p avp
    next := update s.next p (s.list s.crtAvps)
    list := update s.list s.crtAvps (some p)
    live := p :: s.live
    calls := s.calls + 1 }

/-- `p` is where the new AVP is put; there may be no memory for it. -/
def addAvp (p : Option AvpPtr) (name : AvpName) (value : AvpValue) : Avps :=
  match newAvp name value s.calls, p with
  | some avp, some p => s.linkAvp p avp
  | none, _ => s
  | some _, none => s

/-! ## Searching -/

/-- `get_avp_val`, which the searches call for the AVP they return. -/
def getAvpVal (avp : AvpPtr) : AvpValue :=
  (s.avp avp).value

/-- The tests of the two loops. -/
def matchesId (id : BitVec 16) (avp : UsrAvp) : Bool :=
  id = avp.id && avp.name.isNone

def matchesName (id : BitVec 16) (name : Bytes) (avp : UsrAvp) : Bool :=
  id = avp.id &&
    match avp.name with
    | some avpName => avpName.length = name.length && strncasecmp avpName name
    | none => false

/-- The loop of the searches, from the link `avp` on. -/
def internalSearch (test : UsrAvp → Bool) (avp : Option AvpPtr) :
    Option AvpPtr :=
  (walk s.next (fun p => test (s.avp p)) s.live.length none avp).bind Prod.snd

def internalSearchIdAvp (avp : Option AvpPtr) (id : BitVec 16) :
    Option AvpPtr :=
  s.internalSearch (matchesId id) avp

def internalSearchNameAvp (avp : Option AvpPtr) (id : BitVec 16) (name : Bytes) : Option AvpPtr :=
  s.internalSearch (matchesName id name) avp

def searchFirstAvp (name : AvpName) : Option AvpPtr :=
  if s.list s.crtAvps = none then none
  else if name.isNull then none
  else
    match name with
    | .id n _ => s.internalSearchIdAvp (s.list s.crtAvps) (n.setWidth 16)
    | .str none => none
    | .str (some []) => none
    | .str (some (c :: name)) =>
      s.internalSearchNameAvp (s.list s.crtAvps) (computeId (c :: name)) (c :: name)

/-- The search goes on with what the AVP has stored. -/
def searchNextAvp (avp : AvpPtr) : Option AvpPtr :=
  if s.next avp = none then none
  else
    match (s.avp avp).name with
    | some name =>
      s.internalSearchNameAvp (s.next avp) (s.avp avp).id name
    | none => s.internalSearchIdAvp (s.next avp) (s.avp avp).id

/-- `search_first_avp`, then `search_next_avp` until it returns null. -/
def searchAll (name : AvpName) : List AvpPtr :=
  collect s.searchNextAvp s.live.length (s.searchFirstAvp name)

/-! ## Removal and switching -/

/-- The link behind `avpPrev`, or the head, passes over the AVP. -/
def unlinkAvp (avpPrev : Option AvpPtr) (avp : AvpPtr) : Avps :=
  match avpPrev with
  | some avpPrev =>
    { s with
      next := update s.next avpPrev (s.next avp)
      live := s.live.erase avp }
  | none =>
    { s with
      list := update s.list s.crtAvps (s.next avp)
      live := s.live.erase avp }

/-- The AVP is only looked for in the current list. -/
def destroyAvp (avpDel : AvpPtr) : Avps :=
  match walk s.next (fun p => p = avpDel) s.live.length none
      (s.list s.crtAvps) with
  | some (avpPrev, some avp) => s.unlinkAvp avpPrev avp
  | _ => s

def setAvpList (list : ListPtr) : Avps :=
  { s with crtAvps := list }

end Avps

/-! ## Runs -/

/-- The calls on the AVPs. -/
inductive Call
  | addAvp (p : Option AvpPtr) (name : AvpName) (value : AvpValue)
  | destroyAvp (avpDel : AvpPtr)
  | setAvpList (list : ListPtr)

/-- The state after a call.  A new AVP is put at an address that is not in
use. -/
def Call.run (s : Avps) : Call → Option Avps
  | .addAvp p name value =>
    if ∃ x ∈ p, x ∈ s.live then none else some (s.addAvp p name value)
  | .destroyAvp avpDel => some (s.destroyAvp avpDel)
  | .setAvpList list => some (s.setAvpList list)

/-- No AVPs, and some list current. -/
def Avps.empty (crtAvps : ListPtr) : Avps where
  avp := fun _ =>
    { id := 0, name := none, value := .n 0, added := .id 0 0, born := 0 }
  next := fun _ => none
  list := fun _ => none
  crtAvps := crtAvps
  live := []
  calls := 0

def machine : Machine Avps Call where
  init := fun s => ∃ list, s = Avps.empty list
  step := fun call s => call.run s

end Msicp.Avp
