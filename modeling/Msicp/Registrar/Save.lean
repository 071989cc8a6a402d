import Msicp.Usrloc.ContactList
import Msicp.Support.Machine
import Msicp.Tcp.ReadHeaders

/-!
# The contacts of a record as a list

The registrar works on the contacts of one record at a time.  Here they are
the list of their values, in the order of the links, and the functions of
`usrloc` are operations on that list.  Each is what the function on the linked
contacts does.
-/

namespace Msicp.Registrar

open Function (update)
open Msicp.Support (Bytes)
open Msicp.Usrloc

/-- The module parameters of usrloc and of the registrar; `registrarOrder` is
the `desc_time_order` of the registrar. -/
structure Order where
  mode : DbMode
  descTimeOrder : Bool
  registrarOrder : Bool

/-- `mem_insert_ucontact`, once the contact is made. -/
def memInsert (desc : Bool) (c : UContact) (l : List UContact) :
    List UContact :=
  if desc then c :: l
  else l.takeWhile (fun x => !decide (x.q < c.q)) ++ c :: l.dropWhile fun x => !decide (x.q < c.q)

/-- `insert_ucontact`, when there is memory. -/
def insertUcontact (o : Order) (c : UContact) (l : List UContact) :
    List UContact :=
  memInsert o.descTimeOrder
    { c with state := if o.mode = .writeThrough then .sync else c.state } l

/-- `get_ucontact`: the first contact with an equal URI, and its place. -/
def getUcontact : List UContact → Bytes → Option (ℕ × UContact)
  | [], _ => none
  | x :: l, uri =>
    if URecord.uriKey x.c = URecord.uriKey uri then some (0, x)
    else (getUcontact l uri).map fun y => (y.1 + 1, y.2)

def deleteUcontact (o : Order) (l : List UContact) (i : ℕ) (c : UContact) :
    List UContact :=
  if (stDeleteUcontact o.mode c).2 then l.eraseIdx i
  else l.set i (stDeleteUcontact o.mode c).1

/-- `update_ucontact`; without memory the update is left half done. -/
def updateUcontact (o : Order) (alloc : StrField → Bool) (l : List UContact)
    (i : ℕ) (c : UContact) (b : Binding) (cid : Bytes)
    (set res : BitVec 32) : List UContact × Bool :=
  let upd := memUpdateUcontact alloc c b cid set res
  if upd.2 then (l.set i (stUpdateUcontact o.mode upd.1), true)
  else (l.set i upd.1, false)

def moveOnTop (l : List UContact) (i : ℕ) : List UContact :=
  match l[i]? with
  | some c => c :: l.eraseIdx i
  | none => l

section Middle

variable {l₁ l₂ : List UContact} {u x : UContact}

theorem set_middle : (l₁ ++ u :: l₂).set l₁.length x = l₁ ++ x :: l₂ := by
  rw [List.set_append_right _ _ (le_refl _)]
  simp

theorem eraseIdx_middle : (l₁ ++ u :: l₂).eraseIdx l₁.length = l₁ ++ l₂ := by
  rw [List.eraseIdx_append_of_length_le (le_refl _)]
  simp

theorem moveOnTop_middle (l₁ l₂ : List UContact) (u : UContact) :
    moveOnTop (l₁ ++ u :: l₂) l₁.length = u :: (l₁ ++ l₂) := by
  have hget : (l₁ ++ u :: l₂)[l₁.length]? = some u := by
    rw [List.getElem?_append_right (le_refl _)]
    simp
  rw [moveOnTop, hget]
  exact congrArg (u :: ·) eraseIdx_middle

end Middle

section Lookup

variable {l : List UContact} {uri : Bytes} {i : ℕ} {c : UContact}

theorem getUcontact_some (h : getUcontact l uri = some (i, c)) :
    ∃ l₁ l₂, l = l₁ ++ c :: l₂ ∧ i = l₁.length ∧ URecord.uriKey c.c = URecord.uriKey uri ∧
      ∀ x ∈ l₁, URecord.uriKey x.c ≠ URecord.uriKey uri := by
  induction l generalizing i with
  | nil => simp [getUcontact] at h
  | cons x l ih =>
    by_cases hx : URecord.uriKey x.c = URecord.uriKey uri
    · rw [getUcontact, if_pos hx] at h
      obtain ⟨rfl, rfl⟩ := Prod.mk.inj (Option.some.inj h)
      exact ⟨[], l, rfl, rfl, hx, by simp⟩
    · rw [getUcontact, if_neg hx, Option.map_eq_some_iff] at h
      obtain ⟨⟨j, d⟩, hfind, hj⟩ := h
      obtain ⟨rfl, rfl⟩ := Prod.mk.inj hj
      obtain ⟨l₁, l₂, rfl, rfl, hkey, hne⟩ := ih hfind
      exact ⟨x :: l₁, l₂, rfl, rfl, hkey, by simpa using ⟨hx, hne⟩⟩

theorem getUcontact_none : getUcontact l uri = none ↔
      ∀ x ∈ l, URecord.uriKey x.c ≠ URecord.uriKey uri := by
  induction l with
  | nil => simp [getUcontact]
  | cons x l ih =>
    by_cases hx : URecord.uriKey x.c = URecord.uriKey uri
    · simp [getUcontact, hx]
    · rw [getUcontact, if_neg hx, Option.map_eq_none_iff, ih]
      simp [hx]

end Lookup

/-! ## The linked contacts -/

section Linked

variable {r : URecord} {l l₁ l₂ : List CPtr} {p con : CPtr}

end Linked

end Msicp.Registrar

/-!
## Processing a REGISTER (`save.c`)

A request is given by what the parsers of the message make of it.  Each process
has a buffer for the Contact header field of a reply, which `build_contact`
fills and `send_reply` empties.  A shortage of memory is part of the input.
-/

namespace Msicp.Registrar

open Msicp.Support (Bytes)
open Msicp.Usrloc
open Msicp.Tcp (toInt)

/-- `rerr_t` -/
inductive Rerr
  | fine | ulDelR | ulGetR | ulNewR | invCseq | ulInsC | ulInsR | ulDelC
  | ulUpdC | toUser | aorLen | aorParse | invExp | invQ | parse | toMiss
  | cidMiss | csMiss | parseExp | parseCont | starExp | starCont | ooo
  | retrans | unescape | tooMany
  deriving DecidableEq

/-- The table `codes`. -/
def Rerr.code : Rerr → ℕ
  | .fine | .ooo | .retrans => 200
  | .ulDelR | .ulGetR | .ulNewR | .ulInsC | .ulInsR | .ulDelC | .ulUpdC
  | .aorLen => 500
  | .tooMany => 503
  | _ => 400

def flNat : BitVec 32 := 1

/-- The module parameters of the registrar, with those of usrloc. -/
structure Params where
  order : Order
  defaultExpires : ℤ
  minExpires : ℤ
  maxExpires : ℤ
  defaultQ : ℤ
  maxContacts : ℕ

/-- `contact_t`.  An outer `none` is a parameter that is absent or empty, an
inner one a value that `str2q` or `str2int` refuses. -/
structure ContactT where
  uri : Bytes
  q : Option (Option ℤ)
  expires : Option (Option ℕ)
  received : Option Bytes

/-- A Contact header field. -/
structure ContactBody where
  star : Bool
  contacts : List ContactT

/-- What the registrar reads of a REGISTER.  `parsed` is the error that
`parse_message` ends with, `expires` the Expires header field and its value
when it is valid, `cseq` the number when it is one. -/
structure Request where
  parsed : Option Rerr
  contact : List ContactBody
  expires : Option (Option ℤ)
  aor : Except Rerr Bytes
  callid : Bytes
  cseq : Option ℤ
  userAgent : Option Bytes
  natFlag : Bool
  rcvAvp : Option Bytes

/-- Whether memory can be had: for a record, for the contact and the strings of
the k-th contact of the request, for the buffer and for the lump that puts it
into the reply; `reply` also says whether the reply can be sent. -/
structure Memory where
  record : Bool
  contact : ℕ → Bool
  strings : ℕ → StrField → Bool
  buffer : Bool
  lump : Bool
  reply : Bool

/-- A record; a record with watchers is kept without contacts. -/
structure Rec where
  contacts : List UContact
  watchers : ℕ

/-! ## Reading the request (`sip_msg.c`) -/

def getExpiresHf (par : Params) (actTime : ℕ) (m : Request) : ℤ :=
  match m.expires with
  | some (some val) => if val ≠ 0 then toInt (val + actTime) else 0
  | _ => toInt (actTime + par.defaultExpires)

/-- The contacts that `get_first_contact` and `get_next_contact` run
through. -/
def contactList : List ContactBody → List ContactT
  | [] => []
  | b :: bodies =>
    if b.contacts.isEmpty then [] else b.contacts ++ contactList bodies

/-- `check_contacts`: an error, or whether the contact is a star. -/
def checkContacts (par : Params) (actTime : ℕ) (m : Request) :
    Except Rerr Bool :=
  match m.contact with
  | [] => .ok false
  | b :: bodies =>
    if b.star then
      if 0 < getExpiresHf par actTime m then .error .starExp
      else if !b.contacts.isEmpty then .error .starCont
      else if !bodies.isEmpty then .error .starCont
      else .ok true
    else if bodies.any ContactBody.star then .error .starCont
    else .ok false

def calcContactExpires (par : Params) (actTime : ℕ) (m : Request) (c : ContactT) : ℤ :=
  let e := match c.expires with
    | none => getExpiresHf par actTime m
    | some value =>
      let e := match value with
        | some n => toInt n
        | none => 3600
      if e ≠ 0 then toInt (e + actTime) else 0
  let e := if e ≠ 0 ∧ e - actTime < par.minExpires then
    toInt (par.minExpires + actTime) else e
  if e ≠ 0 ∧ par.maxExpires ≠ 0 ∧ e - actTime > par.maxExpires then
    toInt (par.maxExpires + actTime) else e

/-- `calc_contact_q`; `none` is an invalid q parameter. -/
def calcContactQ (par : Params) (c : ContactT) : Option ℤ :=
  match c.q with
  | none => some par.defaultQ
  | some q => q

def Request.recv (m : Request) (c : ContactT) : Option Bytes :=
  match c.received with
  | some r => some r
  | none => m.rcvAvp

def Request.nated (m : Request) : BitVec 32 := if m.natFlag then flNat else 0

def dummyUa : Bytes := Support.ascii "Unknown"

/-- The name of the user agent, when it is not empty. -/
def Request.ua (m : Request) : Bytes :=
  match m.userAgent with
  | some (c :: ua) => c :: ua
  | _ => dummyUa

/-- What a contact of the request says, with the parameters that can be
refused. -/
def binding (par : Params) (actTime : ℕ) (m : Request) (c : ContactT) :
    Except Rerr Binding :=
  match calcContactQ par c with
  | none => .error .invQ
  | some q =>
    match m.cseq with
    | none => .error .invCseq
    | some cseq =>
      .ok { expires := calcContactExpires par actTime m c
            q := q
            cseq := cseq
            userAgent := m.ua
            received := m.recv c }

/-! ## Records -/

def releaseUrecord (r : Rec) : Option Rec :=
  if r.contacts.isEmpty ∧ r.watchers = 0 then none else some r

/-- `delete_ucontact` for a contact of `delete_urecord`. -/
def deleteOne (mode : DbMode) (c : UContact) : Option UContact :=
  if (stDeleteUcontact mode c).2 then none
  else some (stDeleteUcontact mode c).1

def deleteUrecord (o : Order) (r : Option Rec) : Option Rec :=
  r.bind fun r =>
    releaseUrecord { r with contacts := r.contacts.filterMap (deleteOne o.mode) }

/-- The flag `FL_MEM` as `mem_only` says. -/
def setMem (memOnly : BitVec 32) (c : UContact) : UContact :=
  { c with
    flags := if memOnly ≠ 0 then c.flags ||| flMem else c.flags &&& ~~~flMem }

/-- What is left of a request when it is done: the record, the error, and the
contacts that `build_contact` was called with last. -/
structure Outcome where
  record : Option Rec
  error : Option Rerr
  built : Option (List UContact)

/-- `star`; `delete_urecord` does not fail. -/
def star (o : Order) (memOnly : BitVec 32) (r : Option Rec) : Outcome where
  record := deleteUrecord o (r.map fun r => { r with contacts := r.contacts.map (setMem memOnly) })
  error := none
  built := none

def noContacts (r : Option Rec) : Outcome where
  record := r
  error := none
  built := r.map Rec.contacts

/-! ## A new record -/

/-- The record and `num` in the loop of `insert`. -/
structure Inserting where
  record : Option Rec
  num : ℕ

section Calls

variable (par : Params) (actTime : ℕ) (memOnly : BitVec 32) (mem : Memory)
variable (m : Request)

/-- One turn of the loop of `insert`, at the k-th contact. -/
def insertContact (k : ℕ) (st : Inserting) (c : ContactT) : Inserting × Option Rerr :=
  let undone (r : Option Rec) : Inserting :=
    { st with record := deleteUrecord par.order r }
  if calcContactExpires par actTime m c = 0 then (st, none)
  else if par.maxContacts ≠ 0 ∧ par.maxContacts ≤ st.num then
    (undone st.record, some .tooMany)
  else if st.record.isNone ∧ !mem.record then (st, some .ulNewR)
  else
    let r := st.record.getD { contacts := [], watchers := 0 }
    match binding par actTime m c with
    | .error err => (undone (some r), some err)
    | .ok b =>
      if mem.contact k then
        ({ record := some { r with
             contacts := insertUcontact par.order
               (newUcontact c.uri b m.callid (m.nated ||| memOnly))
               r.contacts }
           num := st.num + 1 }, none)
      else (undone (some r), some .ulInsC)

/-- The loop of `insert`. -/
def insertLoop : ℕ → Inserting → List ContactT → Inserting × Option Rerr
  | _, st, [] => (st, none)
  | k, st, c :: cs =>
    match insertContact par actTime memOnly mem m k st c with
    | (st, none) => insertLoop (k + 1) st cs
    | (st, some err) => (st, some err)

def insert (cs : List ContactT) : Outcome :=
  match insertLoop par actTime memOnly mem m 0 { record := none, num := 0 } cs
    with
  | (st, some err) => { record := st.record, error := some err, built := none }
  | (st, none) =>
    match st.record with
    | none => { record := none, error := none, built := none }
    | some r =>
      if r.contacts.isEmpty then
        { record := deleteUrecord par.order (some r)
          error := none
          built := none }
      else
        { record := some r, error := none, built := some r.contacts }

/-! ## An existing record -/

/-- The number that `test_max_contacts` adds for a contact of the request. -/
def countContact (l : List UContact) (c : ContactT) : ℤ :=
  match getUcontact l c.uri with
  | none => if calcContactExpires par actTime m c ≠ 0 then 1 else 0
  | some _ => if calcContactExpires par actTime m c = 0 then -1 else 0

/-- The contacts that `test_max_contacts` expects to be valid. -/
def countContacts (l : List UContact) (cs : List ContactT) : ℤ :=
  cs.foldl (fun num c => num + countContact par actTime m l c) (l.countP fun c => c.valid actTime)

/-- One turn of the loop of `update`, at the k-th contact. -/
def updateContact (k : ℕ) (l : List UContact) (c : ContactT) : List UContact × Option Rerr :=
  let set := m.nated ||| memOnly
  match getUcontact l c.uri with
  | none =>
    if calcContactExpires par actTime m c = 0 then (l, none)
    else
      match binding par actTime m c with
      | .error err => (l, some err)
      | .ok b =>
        if mem.contact k then
          (insertUcontact par.order (newUcontact c.uri b m.callid set) l, none)
        else (l, some .ulInsC)
  | some (i, u) =>
    if calcContactExpires par actTime m c = 0 then
      (deleteUcontact par.order l i (setMem memOnly u), none)
    else
      match binding par actTime m c with
      | .error err => (l, some err)
      | .ok b =>
        let upd := updateUcontact par.order (mem.strings k) l i u b
          m.callid set (~~~set &&& (flNat ||| flMem))
        if upd.2 then
          (if par.order.registrarOrder then moveOnTop upd.1 i else upd.1,
            none)
        else (upd.1, some .ulUpdC)

/-- The loop of `update`. -/
def updateLoop : ℕ → List UContact → List ContactT → List UContact × Option Rerr
  | _, l, [] => (l, none)
  | k, l, c :: cs =>
    match updateContact par actTime memOnly mem m k l c with
    | (l, none) => updateLoop (k + 1) l cs
    | (l, some err) => (l, some err)

def update (l : List UContact) (cs : List ContactT) : List UContact × Option Rerr :=
  if par.maxContacts ≠ 0 ∧
      (par.maxContacts : ℤ) < countContacts par actTime m l cs then
    (l, some .tooMany)
  else updateLoop par actTime memOnly mem m 0 l cs

def contacts (r : Option Rec) (cs : List ContactT) : Outcome :=
  match r with
  | some r =>
    let upd := update par actTime memOnly mem m r.contacts cs
    { record := releaseUrecord { r with contacts := upd.1 }
      error := upd.2
      built := some upd.1 }
  | none => insert par actTime memOnly mem m cs

end Calls

/-! ## Replies -/

/-- What `build_contact` prints about a contact. -/
structure Listed where
  c : Bytes
  q : ℤ
  expires : ℤ
  received : Bytes
  deriving DecidableEq

/-- The state of a process.  The contacts printed into the static buffer are
`buffer`; it is empty when `data_len` is 0. -/
structure State where
  location : Bytes → Option Rec
  actTime : ℕ
  buffer : List Listed

/-- A reply, and the Contact header field put into it. -/
structure Reply where
  error : Rerr
  code : ℕ
  contact : List Listed

def printed (actTime : ℕ) (c : UContact) : Listed where
  c := c.c
  q := c.q
  expires := c.expires - actTime
  received := c.received

def buildContact (mem : Memory) (actTime : ℕ) (l : List UContact) :
    List Listed :=
  if mem.buffer then
    (l.filter fun c => c.valid actTime).map (printed actTime)
  else []

def sendReply (mem : Memory) (error : Rerr) (s : State) : State × Option Reply :=
  ({ s with buffer := [] },
    if mem.reply then
      some
        { error := error
          code := error.code
          contact := if mem.lump then s.buffer else [] }
    else none)

/-- The functions of the script. -/
inductive Entry
  | save
  | saveNoreply
  | saveMemory

def Entry.memOnly : Entry → BitVec 32
  | .saveMemory => flMem
  | _ => 0

def Entry.doreply : Entry → Bool
  | .saveNoreply => false
  | _ => true

/-- What `save_real` leaves: the state, the error it stopped with, and the reply
when there is one. -/
structure Result where
  state : State
  error : Option Rerr
  reply : Option Reply

/-- The end of `save_real`. -/
def finish (entry : Entry) (mem : Memory) (error : Option Rerr) (s : State) :
    Result :=
  if entry.doreply then
    { state := (sendReply mem (error.getD .fine) s).1
      error := error
      reply := (sendReply mem (error.getD .fine) s).2 }
  else { state := s, error := error, reply := none }

/-- What is done with the record of the address. -/
def process (par : Params) (actTime : ℕ) (entry : Entry) (mem : Memory)
    (m : Request) (isStar : Bool) (r : Option Rec) : Outcome :=
  if (contactList m.contact).isEmpty then
    if isStar then star par.order entry.memOnly r else noContacts r
  else
    contacts par actTime entry.memOnly mem m r (contactList m.contact)

/-- The state after the record of `aor` is processed. -/
def State.commit (s : State) (mem : Memory) (aor : Bytes) (out : Outcome) :
    State :=
  { s with
    location := Function.update s.location aor out.record
    buffer := match out.built with
      | some l => buildContact mem s.actTime l
      | none => s.buffer }

/-- `save_real`, at the time `now`. -/
def saveReal (par : Params) (now : ℕ) (entry : Entry) (mem : Memory)
    (m : Request) (s : State) : Result :=
  match m.parsed with
  | some err => finish entry mem (some err) s
  | none =>
    match checkContacts par s.actTime m with
    | .error err => finish entry mem (some err) s
    | .ok isStar =>
      let s := { s with actTime := now }
      match m.aor with
      | .error err => finish entry mem (some err) s
      | .ok aor =>
        let out := process par now entry mem m isStar (s.location aor)
        finish entry mem out.error (s.commit mem aor out)

/-! ## Plain values -/

/-- The parameters as the modules set them. -/
def Params.default : Params where
  order := ⟨.noDb, false, false⟩
  defaultExpires := 3600
  minExpires := 60
  maxExpires := 0
  defaultQ := -1
  maxContacts := 0

/-- There is memory for everything. -/
def Memory.plenty : Memory where
  record := true
  contact := fun _ => true
  strings := fun _ _ => true
  buffer := true
  lump := true
  reply := true

/-- A contact with the parameter `expires` only. -/
def ContactT.expiring (uri : Bytes) (e : ℕ) : ContactT where
  uri := uri
  q := none
  expires := some (some e)
  received := none

/-- A request with one Contact header field for each of the contacts. -/
def Request.register (aor : Bytes) (cs : List ContactT) : Request where
  parsed := none
  contact := cs.map fun c => { star := false, contacts := [c] }
  expires := none
  aor := .ok aor
  callid := Support.ascii "1"
  cseq := some 1
  userAgent := none
  natFlag := false
  rcvAvp := none

/-- The process before any request. -/
def State.fresh : State where
  location := fun _ => none
  actTime := 0
  buffer := []

/-! ## What a request does -/

section Result

variable {par : Params} {now : ℕ} {entry : Entry} {mem : Memory}
variable {m : Request} {s s' : State} {error : Option Rerr}

@[simp] theorem finish_error : (finish entry mem error s).error = error := by
  unfold finish
  split <;> rfl

@[simp] theorem finish_location : (finish entry mem error s).state.location = s.location := by
  unfold finish
  split <;> rfl

theorem finish_reply {reply : Reply} (h : (finish entry mem error s).reply = some reply) :
    entry.doreply = true ∧ (reply.contact = s.buffer ∨ reply.contact = []) := by
  unfold finish sendReply at h
  split at h
  · rename_i hreply
    refine ⟨hreply, ?_⟩
    split at h
    · obtain rfl := Option.some.inj h
      cases mem.lump with
      | true => exact .inl rfl
      | false => exact .inr rfl
    · simp at h
  · simp at h

/-- A request is refused before a record is looked at, or a record is
processed. -/
inductive Handled (par : Params) (now : ℕ) (entry : Entry) (mem : Memory)
    (m : Request) (s : State) : Result → Prop
  | refused {s' : State} {err : Rerr} (hlocation : s'.location = s.location)
      (hbuffer : s'.buffer = s.buffer)
      (hwhy : ∀ isStar aor, m.parsed = none →
        checkContacts par s.actTime m = .ok isStar → m.aor ≠ .ok aor) :
      Handled par now entry mem m s (finish entry mem (some err) s')
  | processed {isStar : Bool} {aor : Bytes} (hparsed : m.parsed = none)
      (hcheck : checkContacts par s.actTime m = .ok isStar)
      (haor : m.aor = .ok aor) :
      Handled par now entry mem m s
        (finish entry mem
          (process par now entry mem m isStar (s.location aor)).error
          (State.commit { s with actTime := now } mem aor
            (process par now entry mem m isStar (s.location aor))))

theorem saveReal_handled (par : Params) (now : ℕ) (entry : Entry)
    (mem : Memory) (m : Request) (s : State) :
    Handled par now entry mem m s (saveReal par now entry mem m s) := by
  unfold saveReal
  cases hparsed : m.parsed with
  | some err => exact .refused rfl rfl (by simp [hparsed])
  | none =>
    cases hcheck : checkContacts par s.actTime m with
    | error err => exact .refused rfl rfl (by simp [hcheck])
    | ok isStar =>
      cases haor : m.aor with
      | error err => exact .refused rfl rfl (by simp [haor])
      | ok aor => exact .processed hparsed hcheck haor

end Result

/-- A call of one of the functions of the script. -/
structure Call where
  entry : Entry
  now : ℕ
  mem : Memory
  request : Request

/-- A process that handles one request after the other. -/
def server (par : Params) (start : State → Prop) : Support.Machine State Call where
  init := start
  step call s :=
    some (saveReal par call.now call.entry call.mem call.request s).state

theorem server_step {par : Params} {start : State → Prop}
    {ok : Call → State → Prop} {s : State} (call : Call)
    (h : (server par start).ReachWhen ok s) (hok : ok call s) :
    (server par start).ReachWhen ok
      (saveReal par call.now call.entry call.mem call.request s).state :=
  .step h hok rfl

end Msicp.Registrar
