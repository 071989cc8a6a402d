import Msicp.Support.Machine
import Msicp.Usrloc.ContactList

/-!
# A record and its rows

The contact operations of `usrloc/ucontact.c` and `usrloc/urecord.c` on a
record together with its rows in the database.  An operation on a contact is
called with the address of one of the contacts of the record, which is what
the lookups return.  Whether the statements of an operation succeed, and
whether memory can be had for a string that has grown, is part of the label.
-/

namespace Msicp.Usrloc

open Support (Bytes Machine)
open URecord

structure Store where
  record : URecord
  rows : List Row

/-- The module parameters.  `registrarOrder` is the parameter
`desc_time_order` of the registrar module, `descTimeOrder` that of usrloc. -/
structure Config where
  mode : DbMode
  descTimeOrder : Bool
  registrarOrder : Bool
  col : Columns

variable (cfg : Config)

def insertUcontact (ok : Bool) (s : Store) (con : CPtr) (c : UContact) :
    Store :=
  let r := s.record.memInsertUcontact cfg.descTimeOrder con c
  if cfg.mode = .writeThrough then
    { record := r.setContact con { c with state := .sync }
      rows := dbInsertUcontact cfg.col ok c s.rows }
  else { record := r, rows := s.rows }

/-- What `update_ucontact` and `update_ucontact_bycallid` do with the outcome
of the update in memory; without memory it is left half done. -/
def finishUpdate (ok write byCallid : Bool) (s : Store) (p : CPtr)
    (upd : UContact × Bool) : Store :=
  if upd.2 then
    let c := stUpdateUcontact cfg.mode upd.1
    { record := s.record.setContact p c
      rows :=
        if cfg.mode = .writeThrough ∧ write then
          dbUpdateUcontact cfg.col ok c byCallid s.rows
        else s.rows }
  else { s with record := s.record.setContact p upd.1 }

def updateUcontact (alloc : StrField → Bool) (ok : Bool) (s : Store) (p : CPtr)
    (b : Binding) (cid : Bytes) (set res : BitVec 32) : Store :=
  finishUpdate cfg ok true false s p (memUpdateUcontact alloc (s.record.mem p) b cid set res)

def updateUcontactBycallid (alloc : StrField → Bool) (ok : Bool) (s : Store)
    (p : CPtr) (b : Binding) (contact : Bytes) (set res : BitVec 32)
    (flag : ℤ) : Store :=
  finishUpdate cfg ok (flag ≠ 0) true s p
    (memUpdateUcontactBycallid alloc (s.record.mem p) b contact set res)

def deleteUcontact (ok : Bool) (s : Store) (p : CPtr) : Store :=
  let del := stDeleteUcontact cfg.mode (s.record.mem p)
  let r := s.record.setContact p del.1
  if del.2 then
    { record := r.memDeleteUcontact p
      rows :=
        if cfg.mode = .writeThrough then dbDeleteUcontact ok del.1 s.rows
        else s.rows }
  else { s with record := r }

/-! ## Timers -/

def nodbTimer (actTime : ℕ) (s : Store) : Store :=
  let (r, rows) := timerLoop actTime (fun _ _ rows => rows)
    (fun _ c rows => (c, rows)) s.record.shm.length s.record.contacts s.record
    s.rows
  { record := r, rows := rows }

def wtExpire (ok : CPtr → Bool) (p : CPtr) (c : UContact) (rows : List Row) :
    List Row :=
  dbDeleteUcontact (ok p) c rows

def wtTimer (actTime : ℕ) (ok : CPtr → Bool) (s : Store) : Store :=
  let (r, rows) := timerLoop actTime (wtExpire ok) (fun _ c rows => (c, rows))
    s.record.shm.length s.record.contacts s.record s.rows
  { record := r, rows := rows }

def wbExpire (ok : CPtr → Bool) (p : CPtr) (c : UContact) (rows : List Row) :
    List Row :=
  if stExpiredUcontact c then dbDeleteUcontact (ok p) c rows else rows

def wbFlush (col : Columns) (ok : CPtr → Bool) (p : CPtr) (c : UContact)
    (rows : List Row) : UContact × List Row :=
  let (c, op) := stFlushUcontact c
  match op with
  | .nothing => (c, rows)
  | .insert => (c, dbInsertUcontact col (ok p) c rows)
  | .update => (c, dbUpdateUcontact col (ok p) c true rows)

def wbTimer (actTime : ℕ) (ok : CPtr → Bool) (s : Store) : Store :=
  let (r, rows) := timerLoop actTime (wbExpire ok) (wbFlush cfg.col ok)
    s.record.shm.length s.record.contacts s.record s.rows
  { record := r, rows := rows }

def timerUrecord (actTime : ℕ) (ok : CPtr → Bool) (s : Store) : Store :=
  match cfg.mode with
  | .noDb => nodbTimer actTime s
  | .writeThrough => wtTimer actTime ok s
  | .writeBack => wbTimer cfg actTime ok s

/-- What the timer of the mode does about an expired contact. -/
def timerExpire (ok : CPtr → Bool) : CPtr → UContact → List Row → List Row :=
  match cfg.mode with
  | .noDb => fun _ _ rows => rows
  | .writeThrough => wtExpire ok
  | .writeBack => wbExpire ok

/-- What the timer of the mode does about a valid contact. -/
def timerFlush (ok : CPtr → Bool) : CPtr → UContact → List Row → UContact × List Row :=
  match cfg.mode with
  | .noDb => fun _ c rows => (c, rows)
  | .writeThrough => fun _ c rows => (c, rows)
  | .writeBack => wbFlush cfg.col ok

theorem timerUrecord_eq (actTime : ℕ) (ok : CPtr → Bool) (s : Store) :
    timerUrecord cfg actTime ok s =
      let res := timerLoop actTime (timerExpire cfg ok) (timerFlush cfg ok)
        s.record.shm.length s.record.contacts s.record s.rows
      { record := res.1, rows := res.2 } := by
  obtain ⟨mode, descTimeOrder, registrarOrder, col⟩ := cfg
  cases mode with
  | noDb => rfl
  | writeThrough => rfl
  | writeBack => rfl

theorem timerUrecord_rule {actTime : ℕ} {ok : CPtr → Bool} {s : Store}
    {l : List CPtr}
    (Inv : List CPtr → List CPtr → (CPtr → UContact) → List Row → Prop)
    (hexpire : ∀ kept p todo mem rows, (kept ++ p :: todo).Nodup →
      Inv kept (p :: todo) mem rows → (mem p).valid actTime = false →
      Inv kept todo mem (timerExpire cfg ok p (mem p) rows))
    (hflush : ∀ kept p todo mem rows, (kept ++ p :: todo).Nodup →
      Inv kept (p :: todo) mem rows → (mem p).valid actTime = true →
      Inv (kept ++ [p]) todo (Function.update mem p (timerFlush cfg ok p (mem p) rows).1)
        (timerFlush cfg ok p (mem p) rows).2)
    (h : s.record.Wf l) (hinv : Inv [] l s.record.mem s.rows) :
    ∃ l', (timerUrecord cfg actTime ok s).record.Wf l' ∧
      Inv l' [] (timerUrecord cfg actTime ok s).record.mem
        (timerUrecord cfg actTime ok s).rows := by
  have hwf : s.record.Wf ([] ++ l) := h
  have hrun := timerLoop_rule Inv hexpire hflush hwf h.length_eq.le hinv
  rw [timerUrecord_eq, h.head]
  exact hrun

/-! ## Runs -/

/-- The calls on the contacts of a record. -/
inductive Call
  | insert (con : CPtr) (contact : Bytes) (b : Binding) (callid : Bytes)
      (flags : BitVec 32) (ok : Bool)
  | update (p : CPtr) (b : Binding) (cid : Bytes) (set res : BitVec 32)
      (alloc : StrField → Bool) (ok : Bool)
  | updateBycallid (p : CPtr) (b : Binding) (contact : Bytes)
      (set res : BitVec 32) (flag : ℤ) (alloc : StrField → Bool) (ok : Bool)
  | delete (p : CPtr) (ok : Bool)
  | moveOnTop (p : CPtr)
  | timer (actTime : ℕ) (ok : CPtr → Bool)

/-- The store after a call.  A new contact is put at an address that is not in
use; `move_on_top` is only called with `desc_time_order` set. -/
def Call.run (s : Store) : Call → Option Store
  | .insert con contact b callid flags ok =>
    if con ∈ s.record.shm then none
    else some (insertUcontact cfg ok s con (newUcontact contact b callid flags))
  | .update p b cid set res alloc ok =>
    if p ∈ s.record.shm then
      some (updateUcontact cfg alloc ok s p b cid set res)
    else none
  | .updateBycallid p b contact set res flag alloc ok =>
    if p ∈ s.record.shm then
      some (updateUcontactBycallid cfg alloc ok s p b contact set res flag)
    else none
  | .delete p ok =>
    if p ∈ s.record.shm then some (deleteUcontact cfg ok s p) else none
  | .moveOnTop p =>
    if cfg.registrarOrder ∧ p ∈ s.record.shm then
      some { s with record := s.record.moveOnTop p }
    else none
  | .timer actTime ok => some (timerUrecord cfg actTime ok s)

/-- A new record, and no row for it. -/
def Store.empty : Store where
  record :=
    { contacts := none
      next := fun _ => none
      prev := fun _ => none
      mem := fun _ => newUcontact [] ⟨0, 0, 0, [], none⟩ [] 0
      shm := [] }
  rows := []

def machine : Machine Store Call where
  init := fun s => s = Store.empty
  step := fun call s => call.run cfg s

theorem Store.empty_wf : empty.record.Wf [] :=
  ⟨⟨rfl, rfl⟩, List.nodup_nil, .refl _⟩

/-- Columns that hold times as they are and q with two decimals. -/
def twoDecimals : Columns where
  expires := id
  q := fun q => q / 10 * 10

end Msicp.Usrloc
