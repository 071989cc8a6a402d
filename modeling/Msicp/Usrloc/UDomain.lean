import Msicp.Support.CountedList
import Msicp.Usrloc.Store

/-!
# Domains

A domain (`usrloc/udomain.c`) keeps its records in a hash table, whose slots
are lists (`usrloc/hslot.c`), and in one list of all records.  A record holds
the contacts of an address of record and those who watch it
(`usrloc/notify.c`); it is given back when it has neither.

The rows of the database are kept by address of record, so that they outlive
the record.  `live` holds the addresses of the records that are allocated and
`freed` the records that `free_urecord` was called for, as they were then;
nothing in them is looked up.
-/

namespace Msicp.Usrloc

open Function (update)
open Support (Bytes CountedList DLinks Machine)

/-- The address of a record. -/
abbrev RPtr := ℕ

/-- A callback and its parameter. -/
structure Watcher where
  cb : ℕ
  data : ℕ
deriving DecidableEq, Repr

/-- A record of an address of record.  The slot is given by its index in the
table. -/
structure AorRecord where
  aor : Bytes
  contacts : URecord
  slot : Option ℕ
  watchers : List Watcher

structure UDomain where
  size : ℕ
  table : ℕ → CountedList RPtr
  sLinks : DLinks RPtr
  dList : CountedList RPtr
  dLinks : DLinks RPtr
  users : ℤ
  mem : RPtr → AorRecord
  live : List RPtr
  freed : List AorRecord
  rows : Bytes → List Row

/-- The sum over the characters of an address of record, which the source adds
up in an `int`. -/
def charSum (aor : Bytes) : ℕ :=
  (aor.map UInt8.toNat).sum

def hashFunc (size : ℕ) (aor : Bytes) : ℕ :=
  charSum aor % size

namespace UDomain

variable (d : UDomain)

/-! ## The two lists -/

def slotAdd (sl : ℕ) (p : RPtr) : UDomain :=
  let (c, k) := (d.table sl).add d.sLinks p
  { d with
    table := update d.table sl c
    sLinks := k
    mem := update d.mem p { d.mem p with slot := some sl } }

def slotRem (p : RPtr) : UDomain :=
  match (d.mem p).slot with
  | some sl =>
    let (c, k) := (d.table sl).remove d.sLinks p
    { d with
      table := update d.table sl c
      sLinks := k
      mem := update d.mem p { d.mem p with slot := none } }
  | none => d

def udomainAdd (p : RPtr) : UDomain :=
  let (c, k) := d.dList.add d.dLinks p
  { d with dList := c, dLinks := k }

def udomainRemove (p : RPtr) : UDomain :=
  if d.dList.n = 0 then d
  else
    let (c, k) := d.dList.remove d.dLinks p
    { d with dList := c, dLinks := k }

/-! ## Records -/

/-- The contacts of a new record. -/
def noContacts : URecord :=
  Store.empty.record

def newUrecord (p : RPtr) (aor : Bytes) : UDomain :=
  { d with
    mem := update d.mem p
      { aor := aor, contacts := noContacts, slot := none, watchers := [] }
    sLinks := CountedList.clear d.sLinks p
    dLinks := CountedList.clear d.dLinks p
    live := p :: d.live }

def freeUrecord (p : RPtr) : UDomain :=
  { d with
    live := d.live.erase p
    freed := d.freed ++ [d.mem p] }

def memInsertUrecord (p : RPtr) (aor : Bytes) : UDomain :=
  let d := d.newUrecord p aor
  let d := d.slotAdd (hashFunc d.size aor) p
  let d := d.udomainAdd p
  { d with users := d.users + 1 }

def memDeleteUrecord (p : RPtr) : UDomain :=
  if (d.mem p).watchers = [] then
    let d := d.udomainRemove p
    let d := d.slotRem p
    let d := d.freeUrecord p
    { d with users := d.users - 1 }
  else d

def getUrecord (aor : Bytes) : Option RPtr :=
  let slot := d.table (hashFunc d.size aor)
  CountedList.find d.sLinks.next (fun p => (d.mem p).aor = aor) slot.n slot.first

def releaseUrecord (p : RPtr) : UDomain :=
  if (d.mem p).contacts.contacts = none then d.memDeleteUrecord p else d

/-! ## Contacts and watchers -/

/-- The record and its rows, as the contact operations see them. -/
def storeOf (p : RPtr) : Store where
  record := (d.mem p).contacts
  rows := d.rows (d.mem p).aor

def putStore (p : RPtr) (s : Store) : UDomain :=
  { d with
    mem := update d.mem p { d.mem p with contacts := s.record }
    rows := update d.rows (d.mem p).aor s.rows }

def setWatchers (p : RPtr) (watchers : List Watcher) : UDomain :=
  { d with mem := update d.mem p { d.mem p with watchers := watchers } }

/-- The loop of `delete_urecord` over the contacts. -/
def deleteContacts (cfg : Config) (ok : CPtr → Bool) : ℕ → Option CPtr → Store → Store
  | 0, _, s => s
  | _ + 1, none, s => s
  | n + 1, some c, s =>
    deleteContacts cfg ok n (s.record.next c) (deleteUcontact cfg (ok c) s c)

def deleteUrecord (cfg : Config) (ok : CPtr → Bool) (aor : Bytes) : UDomain :=
  match d.getUrecord aor with
  | none => d
  | some p =>
    let s := d.storeOf p
    let d := d.putStore p
      (deleteContacts cfg ok s.record.shm.length s.record.contacts s)
    d.releaseUrecord p

/-- `add_watcher`, and the release of the record when it fails. -/
def addWatcher (p : RPtr) (w : Watcher) (alloc : Bool) : UDomain :=
  if alloc then d.setWatchers p (w :: (d.mem p).watchers)
  else d.releaseUrecord p

/-- A record that does not exist yet is put at `p`. -/
def registerWatcher (p : RPtr) (aor : Bytes) (w : Watcher) (alloc : Bool) :
    UDomain :=
  match d.getUrecord aor with
  | some r => d.addWatcher r w alloc
  | none => (d.memInsertUrecord p aor).addWatcher p w alloc

def unregisterWatcher (aor : Bytes) (w : Watcher) : UDomain :=
  match d.getUrecord aor with
  | none => d
  | some p => (d.setWatchers p ((d.mem p).watchers.erase w)).releaseUrecord p

/-! ## The timer -/

/-- The timer of one record. -/
def timerRecord (cfg : Config) (actTime : ℕ) (ok : CPtr → Bool) (p : RPtr) :
    UDomain :=
  d.putStore p (timerUrecord cfg actTime ok (d.storeOf p))

/-- The loop of `timer_udomain`. -/
def timerRecords (cfg : Config) (actTime : ℕ) (ok : RPtr → CPtr → Bool) :
    ℕ → Option RPtr → UDomain → UDomain
  | 0, _, d => d
  | _ + 1, none, d => d
  | n + 1, some p, d =>
    let d := d.timerRecord cfg actTime (ok p) p
    if (d.mem p).contacts.contacts = none then
      timerRecords cfg actTime ok n (d.dLinks.next p) (d.memDeleteUrecord p)
    else timerRecords cfg actTime ok n (d.dLinks.next p) d

def timerUdomain (cfg : Config) (actTime : ℕ) (ok : RPtr → CPtr → Bool) :
    UDomain :=
  timerRecords cfg actTime ok d.live.length d.dList.first d

/-! ## Runs -/

/-- `new_udomain` for a table of `size` slots. -/
def new (size : ℕ) (rows : Bytes → List Row) : UDomain where
  size := size
  table := fun _ => CountedList.empty
  sLinks := { next := fun _ => none, prev := fun _ => none }
  dList := CountedList.empty
  dLinks := { next := fun _ => none, prev := fun _ => none }
  users := 0
  mem := fun _ =>
    { aor := [], contacts := noContacts, slot := none, watchers := [] }
  live := []
  freed := []
  rows := rows

end UDomain

/-- The calls on a domain. -/
inductive DomainCall
  | insertUrecord (p : RPtr) (aor : Bytes)
  | getUrecord (aor : Bytes)
  | releaseUrecord (p : RPtr)
  | deleteUrecord (aor : Bytes) (ok : CPtr → Bool)
  | contact (p : RPtr) (call : Call)
  | registerWatcher (p : RPtr) (aor : Bytes) (w : Watcher) (alloc : Bool)
  | unregisterWatcher (aor : Bytes) (w : Watcher)
  | timer (actTime : ℕ) (ok : RPtr → CPtr → Bool)

/-- The domain after a call.  A new record is put at an address that is not in
use. -/
def DomainCall.run (cfg : Config) (d : UDomain) : DomainCall → Option UDomain
  | .insertUrecord p aor =>
    if p ∈ d.live then none else some (d.memInsertUrecord p aor)
  | .getUrecord _ => some d
  | .releaseUrecord p =>
    if p ∈ d.live then some (d.releaseUrecord p) else none
  | .deleteUrecord aor ok => some (d.deleteUrecord cfg ok aor)
  | .contact p call =>
    if p ∈ d.live then (call.run cfg (d.storeOf p)).map (d.putStore p)
    else none
  | .registerWatcher p aor w alloc =>
    if p ∈ d.live then none else some (d.registerWatcher p aor w alloc)
  | .unregisterWatcher aor w => some (d.unregisterWatcher aor w)
  | .timer actTime ok => some (d.timerUdomain cfg actTime ok)

def domainMachine (cfg : Config) (size : ℕ) : Machine UDomain DomainCall where
  init := fun d => ∃ rows, d = UDomain.new size rows
  step := fun call d => call.run cfg d

end Msicp.Usrloc
