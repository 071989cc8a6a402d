import Mathlib.Data.BitVec
import Msicp.Support.Bytes

/-!
# Contacts and their rows

A contact as `usrloc/ucontact.h` lays it out, the functions of
`usrloc/ucontact.c` that touch one contact, and the rows of the `location`
table that belong to one address of record.

The statements of `ucontact.c` are written out as text without escaping; they
are taken here for what they say when no field holds a quote, and text columns
are compared byte by byte.  User name, domain and registrar are the same in
every statement of a record, so that they do not appear.
-/

namespace Msicp.Usrloc

open Msicp.Support (Bytes)

inductive CState
  | new
  | sync
  | dirty
deriving DecidableEq, Repr

/-- The module parameter `db_mode`. -/
inductive DbMode
  | noDb
  | writeThrough
  | writeBack
deriving DecidableEq, Repr

/-- Flags that the functions modelled here look at. -/
def flPermanent : BitVec 32 := 1 <<< 7

def flMem : BitVec 32 := 1 <<< 8

/-- A contact without its links.  The number `q` counts thousandths, as
`qvalue_t` does, and is -1 for a contact without a q parameter.  A missing
`received` is the empty string, which is how it is printed. -/
structure UContact where
  c : Bytes
  received : Bytes
  expires : ℤ
  q : ℤ
  callid : Bytes
  cseq : ℤ
  state : CState
  flags : BitVec 32
  userAgent : Bytes
deriving DecidableEq, Repr

/-- The macro `VALID_CONTACT`. -/
def UContact.valid (c : UContact) (actTime : ℕ) : Bool :=
  (actTime : ℤ) < c.expires || c.flags &&& flPermanent != 0

/-- The contact is kept in memory only. -/
def UContact.memOnly (c : UContact) : Bool :=
  c.flags &&& flMem != 0

/-- What a caller hands over about a contact, besides its key and its
Call-ID. -/
structure Binding where
  expires : ℤ
  q : ℤ
  cseq : ℤ
  userAgent : Bytes
  received : Option Bytes
deriving DecidableEq, Repr

def newUcontact (c : Bytes) (b : Binding) (callid : Bytes) (flags : BitVec 32) : UContact where
  c := c
  received := b.received.getD []
  expires := b.expires
  q := b.q
  callid := callid
  cseq := b.cseq
  state := .new
  flags := flags
  userAgent := b.userAgent

/-- The strings of a contact that an update may have to allocate again. -/
inductive StrField
  | key
  | userAgent
  | received
deriving DecidableEq, Repr

/-- A string overwritten in place, or in a new block when it has grown; `none`
when there is no memory for the block. -/
def setStr (alloc : Bool) (old new : Bytes) : Option Bytes :=
  if old.length < new.length && !alloc then none else some new

/-- The part that `mem_update_ucontact` and `mem_update_ucontact_bycallid`
share: everything after the string that is not the key.  The flag tells
whether the function got to its end. -/
def memUpdateRest (alloc : StrField → Bool) (c : UContact) (b : Binding)
    (set res : BitVec 32) : UContact × Bool :=
  match setStr (alloc .userAgent) c.userAgent b.userAgent with
  | none => (c, false)
  | some ua =>
    match setStr (alloc .received) c.received (b.received.getD []) with
    | none => ({ c with userAgent := ua }, false)
    | some received =>
      ({ c with
          userAgent := ua
          received := received
          expires := b.expires
          q := b.q
          cseq := b.cseq
          flags := (c.flags ||| set) &&& ~~~res }, true)

def memUpdateUcontact (alloc : StrField → Bool) (c : UContact) (b : Binding)
    (cid : Bytes) (set res : BitVec 32) : UContact × Bool :=
  match setStr (alloc .key) c.callid cid with
  | none => (c, false)
  | some callid => memUpdateRest alloc { c with callid := callid } b set res

def memUpdateUcontactBycallid (alloc : StrField → Bool) (c : UContact)
    (b : Binding) (contact : Bytes) (set res : BitVec 32) : UContact × Bool :=
  match setStr (alloc .key) c.c contact with
  | none => (c, false)
  | some uri => memUpdateRest alloc { c with c := uri } b set res

/-- The values of a contact after a complete update, besides the string that
an update has in front. -/
def UContact.refresh (c : UContact) (b : Binding) (set res : BitVec 32) :
    UContact :=
  { c with
    userAgent := b.userAgent
    received := b.received.getD []
    expires := b.expires
    q := b.q
    cseq := b.cseq
    flags := (c.flags ||| set) &&& ~~~res }

@[simp] theorem setStr_true (old new : Bytes) : setStr true old new = some new := by
  simp [setStr]

theorem memUpdateUcontact_of_alloc {alloc : StrField → Bool}
    (halloc : ∀ f, alloc f = true) (c : UContact) (b : Binding) (cid : Bytes)
    (set res : BitVec 32) :
    memUpdateUcontact alloc c b cid set res =
      (({ c with callid := cid } : UContact).refresh b set res, true) := by
  simp [memUpdateUcontact, memUpdateRest, halloc, UContact.refresh]

theorem memUpdateUcontactBycallid_of_alloc {alloc : StrField → Bool}
    (halloc : ∀ f, alloc f = true) (c : UContact) (b : Binding)
    (contact : Bytes) (set res : BitVec 32) :
    memUpdateUcontactBycallid alloc c b contact set res =
      (({ c with c := contact } : UContact).refresh b set res, true) := by
  simp [memUpdateUcontactBycallid, memUpdateRest, halloc, UContact.refresh]

/-! ## State transitions -/

def stUpdateUcontact (mode : DbMode) (c : UContact) : UContact :=
  match c.state with
  | .new => c
  | .sync => if mode = .writeBack then { c with state := .dirty } else c
  | .dirty => c

theorem stUpdateUcontact_of_ne {mode : DbMode} (hmode : mode ≠ .writeBack)
    (c : UContact) : stUpdateUcontact mode c = c := by
  unfold stUpdateUcontact
  split
  · rfl
  · rw [if_neg hmode]
  · rfl

theorem stUpdateUcontact_writeBack (c : UContact) : stUpdateUcontact .writeBack c =
      { c with state := if c.state = .new then .new else .dirty } := by
  obtain ⟨uri, received, expires, q, callid, cseq, state, flags, ua⟩ := c
  cases state with
  | new => rfl
  | sync => rfl
  | dirty => rfl

/-- The flag tells whether the contact is to be deleted from memory at once. -/
def stDeleteUcontact (mode : DbMode) (c : UContact) : UContact × Bool :=
  match c.state with
  | .new => (c, true)
  | .sync | .dirty =>
    if mode = .writeBack then
      ({ c with flags := c.flags &&& ~~~flPermanent, expires := 0 }, false)
    else (c, true)

theorem stDeleteUcontact_of_ne {mode : DbMode} (hmode : mode ≠ .writeBack)
    (c : UContact) : stDeleteUcontact mode c = (c, true) := by
  unfold stDeleteUcontact
  split
  · rfl
  · rw [if_neg hmode]
  · rw [if_neg hmode]

/-- Whether an expired contact is to be removed from the database. -/
def stExpiredUcontact (c : UContact) : Bool :=
  match c.state with
  | .new => false
  | .sync | .dirty => true

/-- What the timer has to do to the database for a contact that it keeps. -/
inductive FlushOp
  | nothing
  | insert
  | update
deriving DecidableEq, Repr

def stFlushUcontact (c : UContact) : UContact × FlushOp :=
  match c.state with
  | .new => ({ c with state := .sync }, .insert)
  | .sync => (c, .nothing)
  | .dirty => ({ c with state := .sync }, .update)

/-! ## The location table -/

/-- A row of an address of record. -/
structure Row where
  contact : Bytes
  expires : ℤ
  q : ℤ
  callid : Bytes
  cseq : ℤ
  flags : BitVec 32
  userAgent : Bytes
  received : Bytes
deriving DecidableEq, Repr

/-- What the columns `expires` and `q` hold of the text printed into a
statement: local time by the second, and two decimals. -/
structure Columns where
  expires : ℤ → ℤ
  q : ℤ → ℤ

/-- The fields of a contact as a row. -/
def UContact.fields (c : UContact) : Row where
  contact := c.c
  expires := c.expires
  q := c.q
  callid := c.callid
  cseq := c.cseq
  flags := c.flags
  userAgent := c.userAgent
  received := c.received

/-- The row that a statement with the values of a contact writes. -/
def Columns.write (col : Columns) (c : UContact) : Row :=
  { c.fields with
    expires := col.expires c.expires
    q := col.q c.q }

/-- The columns hold the values of a contact as they are. -/
def Columns.Exact (col : Columns) (c : UContact) : Prop :=
  col.write c = c.fields

instance (col : Columns) (c : UContact) : Decidable (col.Exact c) :=
  inferInstanceAs (Decidable (col.write c = c.fields))

/-- A statement changes the table when it succeeds. -/
def rawQuery (ok : Bool) (query : List Row → List Row) (rows : List Row) :
    List Row :=
  if ok then query rows else rows

def dbInsertUcontact (col : Columns) (ok : Bool) (c : UContact) (rows : List Row) : List Row :=
  if c.memOnly then rows
  else rawQuery ok (fun rows => rows ++ [col.write c]) rows

theorem dbInsertUcontact_true (col : Columns) {c : UContact}
    (hc : c.memOnly = false) (rows : List Row) :
    dbInsertUcontact col true c rows = rows ++ [col.write c] := by
  rw [dbInsertUcontact, hc]
  rfl

/-- `UPDATE`, with the Call-ID in the `WHERE` clause when `byCallid` is set and
the contact otherwise.  The column of the clause keeps its value, which is that
of the contact. -/
def dbUpdateUcontact (col : Columns) (ok : Bool) (c : UContact)
    (byCallid : Bool) (rows : List Row) : List Row :=
  if c.memOnly then rows
  else if byCallid then
    rawQuery ok (List.map fun row =>
      if row.callid = c.callid then
        { col.write c with callid := row.callid } else row) rows
  else
    rawQuery ok (List.map fun row =>
      if row.contact = c.c then
        { col.write c with contact := row.contact } else row) rows

theorem dbUpdateUcontact_byCallid (col : Columns) {c : UContact}
    (hc : c.memOnly = false) (rows : List Row) :
    dbUpdateUcontact col true c true rows =
      rows.map fun row => if row.callid = c.callid then col.write c else row := by
  rw [dbUpdateUcontact, hc]
  apply List.map_congr_left
  intro row _
  split
  case isTrue heq => rw [heq]; rfl
  case isFalse => rfl

theorem dbUpdateUcontact_byContact (col : Columns) {c : UContact}
    (hc : c.memOnly = false) (rows : List Row) :
    dbUpdateUcontact col true c false rows =
      rows.map fun row => if row.contact = c.c then col.write c else row := by
  rw [dbUpdateUcontact, hc]
  apply List.map_congr_left
  intro row _
  split
  case isTrue heq => rw [heq]; rfl
  case isFalse => rfl

/-- `DELETE`, with the Call-ID in the `WHERE` clause. -/
def dbDeleteUcontact (ok : Bool) (c : UContact) (rows : List Row) : List Row :=
  if c.memOnly then rows
  else rawQuery ok (List.filter fun row => row.callid ≠ c.callid) rows

theorem dbDeleteUcontact_true {c : UContact} (hc : c.memOnly = false) (rows : List Row) :
    dbDeleteUcontact true c rows = rows.filter fun row => row.callid ≠ c.callid := by
  rw [dbDeleteUcontact, hc]
  rfl

/-!
## Updates that run out of memory

`mem_update_ucontact` and `mem_update_ucontact_bycallid` replace the strings of
a contact one after the other and stop at the first one that cannot be
allocated.  What they have replaced by then stays replaced.
-/

/-- A string has grown and there is no memory for its new block. -/
def NoRoom (alloc : Bool) (old new : Bytes) : Prop :=
  old.length < new.length ∧ alloc = false

instance (alloc : Bool) (old new : Bytes) : Decidable (NoRoom alloc old new) :=
  inferInstanceAs (Decidable (_ ∧ _))

theorem setStr_eq_none {alloc : Bool} {old new : Bytes} :
    setStr alloc old new = none ↔ NoRoom alloc old new := by
  simp [setStr, NoRoom]

theorem setStr_of_room {alloc : Bool} {old new : Bytes}
    (h : ¬NoRoom alloc old new) : setStr alloc old new = some new :=
  if_neg (by simpa [NoRoom] using h)

/-- The string that an update replaces first: the one that is not its key. -/
inductive FirstStr
  | callid
  | contact

def FirstStr.get : FirstStr → UContact → Bytes
  | .callid, c => c.callid
  | .contact, c => c.c

/-- The two functions under one name. -/
def FirstStr.memUpdate : FirstStr → (StrField → Bool) → UContact → Binding →
    Bytes → BitVec 32 → BitVec 32 → UContact × Bool
  | .callid => memUpdateUcontact
  | .contact => memUpdateUcontactBycallid

def FirstStr.set : FirstStr → UContact → Bytes → UContact
  | .callid, c, s => { c with callid := s }
  | .contact, c, s => { c with c := s }

section

variable (first : FirstStr) (alloc : StrField → Bool) (c : UContact)
variable (b : Binding) (s : Bytes) (set res : BitVec 32)

theorem FirstStr.memUpdate_eq : first.memUpdate alloc c b s set res =
      match setStr (alloc .key) (first.get c) s with
      | none => (c, false)
      | some s => memUpdateRest alloc (first.set c s) b set res := by
  cases first <;> rfl

@[simp] theorem FirstStr.set_userAgent : (first.set c s).userAgent = c.userAgent := by
  cases first <;> rfl

@[simp] theorem FirstStr.set_received : (first.set c s).received = c.received := by
  cases first <;> rfl

theorem FirstStr.set_eq_self : first.set c s = c ↔ s = first.get c := by
  obtain ⟨uri, received, expires, q, callid, cseq, state, flags, agent⟩ := c
  cases first <;> simp [set, get]

theorem FirstStr.set_both_eq_self (ua : Bytes) :
    ({ first.set c s with userAgent := ua } : UContact) = c ↔
      s = first.get c ∧ ua = c.userAgent := by
  obtain ⟨uri, received, expires, q, callid, cseq, state, flags, agent⟩ := c
  cases first <;> simp [set, get]

/-- The strings in front of one that cannot be allocated are given the values
that they have. -/
def UpdatesFirst : Prop :=
  ¬NoRoom (alloc .key) (first.get c) s →
    (NoRoom (alloc .userAgent) c.userAgent b.userAgent → s = first.get c) ∧
    (¬NoRoom (alloc .userAgent) c.userAgent b.userAgent →
      NoRoom (alloc .received) c.received (b.received.getD []) →
        s = first.get c ∧ b.userAgent = c.userAgent)

theorem FirstStr.memUpdate_stopped : first.memUpdate alloc c b s set res =
      if NoRoom (alloc .key) (first.get c) s then (c, false)
      else if NoRoom (alloc .userAgent) c.userAgent b.userAgent then
        (first.set c s, false)
      else if NoRoom (alloc .received) c.received (b.received.getD []) then
        ({ first.set c s with userAgent := b.userAgent }, false)
      else ((first.set c s).refresh b set res, true) := by
  rw [memUpdate_eq]
  split_ifs with hkey hua hrecv
  · rw [setStr_eq_none.mpr hkey]
  · rw [setStr_of_room hkey]
    simp only [memUpdateRest, set_userAgent, setStr_eq_none.mpr hua]
  · rw [setStr_of_room hkey]
    simp only [memUpdateRest, set_userAgent, setStr_of_room hua, set_received,
      setStr_eq_none.mpr hrecv]
  · rw [setStr_of_room hkey]
    simp only [memUpdateRest, set_userAgent, setStr_of_room hua, set_received, setStr_of_room hrecv]
    rfl

/-- An update that fails leaves the contact as it was exactly when nothing
that it replaces before it stops has a new value. -/
theorem failed_update_unchanged_iff : ((first.memUpdate alloc c b s set res).2 = false →
      (first.memUpdate alloc c b s set res).1 = c) ↔
      UpdatesFirst first alloc c b s := by
  rw [FirstStr.memUpdate_stopped]
  unfold UpdatesFirst
  split_ifs with hkey hua hrecv
  · simp [hkey]
  · simp [hkey, hua, FirstStr.set_eq_self]
  · simpa [hkey, hua, hrecv] using first.set_both_eq_self c s b.userAgent
  · simp [hua, hrecv]

end

/-- A contact whose Call-ID and user agent are both to grow. -/
def shortContact : UContact where
  c := Support.ascii "sip:a@b"
  received := []
  expires := 100
  q := 0
  callid := Support.ascii "c1"
  cseq := 1
  state := .sync
  flags := 0
  userAgent := Support.ascii "ua"

def longBinding : Binding where
  expires := 200
  q := 0
  cseq := 2
  userAgent := Support.ascii "agent"
  received := none

/-- The new Call-ID stays behind when there is no memory for the user agent. -/
theorem failed_update_changes : ¬∀ (first : FirstStr) (alloc : StrField → Bool) (c : UContact)
      (b : Binding) (s : Bytes) (set res : BitVec 32),
      (first.memUpdate alloc c b s set res).2 = false →
        (first.memUpdate alloc c b s set res).1 = c := by
  intro h
  have hsame := h .callid (fun f => f = .key) shortContact longBinding (Support.ascii "call2") 0 0
  revert hsame
  decide

end Msicp.Usrloc
