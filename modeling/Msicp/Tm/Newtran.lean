import Msicp.Support.Machine
import Msicp.Tm.Branch
import Mathlib.Data.List.Nodup

/-!
# Looking a request up and starting its transaction (`t_lookup.c`)

`t_newtran` looks the request up in its hash bucket and, if it finds nothing,
inserts a new cell before it gives the bucket's lock back.  Requests with the
magic cookie in the branch are matched by the branch, others by their headers.
-/

namespace Msicp.Tm.Newtran

open Msicp.Support Function

/-! ## The hash of a request -/

/-- A `char` as an int. -/
def charInt (c : UInt8) : BitVec 32 :=
  c.toBitVec.signExtend 32

def hInc (h v : BitVec 32) : BitVec 32 :=
  h + (v ^^^ (v >>> 3))

/-- The two loops of `new_hash2` over a string. -/
def hashLoop : Bytes → BitVec 32 → BitVec 32
  | a :: b :: c :: d :: rest, h =>
    hashLoop rest (hInc h ((charInt a <<< 24) + (charInt b <<< 16) + (charInt c <<< 8) + charInt d))
  | rest, h => hInc h (rest.foldl (fun v c => (v <<< 8) + charInt c) 0)

/-- `T_TABLE_POWER` -/
def tablePower : ℕ := 16

def newHash2 (callId cseqNr : Bytes) : ℕ :=
  let h := hashLoop cseqNr (hashLoop callId 0)
  let h := (h + (h >>> 11)) + ((h >>> 13) + (h >>> 23))
  h.toNat % 2 ^ tablePower

/-! ## Requests and cells -/

/-- `enum request_method` -/
inductive Method
  | invite
  | cancel
  | ack
  | bye
  | other
  deriving DecidableEq, Repr

def Method.bits : Method → BitVec 32
  | .invite => 1
  | .cancel => 2
  | .ack => 4
  | .bye => 8
  | .other => 16

/-- The parts of a parsed Via that are compared. -/
structure ViaBody where
  branch : Option Bytes
  host : Bytes
  port : ℕ
  transport : Bytes

/-- A request with the headers that `t_lookup_request` asks for.  `dlg` tells
whether `parse_dlg` succeeds on it. -/
structure Request where
  method : Method
  callid : Bytes
  cseq : Bytes
  cseqNumber : Bytes
  fromBody : Bytes
  toBody : Bytes
  toUri : Bytes
  toTag : Bytes
  ruri : Bytes
  via1 : Bytes
  dlg : Bool
  deriving DecidableEq

/-- A cell in the hash table; UAC transactions have no request. -/
structure Cell where
  request : Option Request
  hashIndex : ℕ
  status : ℕ := 0
  relaiedReplyBranch : ℤ := -1
  localTotag : Bytes := []
  deriving DecidableEq

/-- The module parameters, and the parser of a Via. -/
structure Params where
  ruriMatching : Bool := true
  via1Matching : Bool := true
  parseVia : Bytes → ViaBody

/-- The bucket of a request. -/
def Request.hashIndex (p : Request) : ℕ :=
  newHash2 p.callid p.cseqNumber

section Matching

variable (prm : Params)

/-- The branch, when it starts with the magic cookie and is longer. -/
def cookieBranch (p : Request) : Option Bytes :=
  (prm.parseVia p.via1).branch.filter fun value =>
    mcookie.length < value.length ∧ value.take mcookie.length = mcookie

/-- The field `tid` of the first Via, set for requests with the cookie. -/
def tid (p : Request) : Bytes :=
  match cookieBranch prm p with
  | some value => value.drop mcookie.length
  | none => []

def viaMatching (inv ack : Request) : Bool :=
  tid prm inv = tid prm ack ∧ (prm.parseVia inv.via1).host = (prm.parseVia ack.via1).host ∧
    (prm.parseVia inv.via1).port = (prm.parseVia ack.via1).port ∧
    (prm.parseVia inv.via1).transport = (prm.parseVia ack.via1).transport

def matching3261 (p : Request) (skipMethod : BitVec 32) : List (ℕ × Cell) → Option ℕ
  | [] => none
  | (c, cell) :: rest =>
    match cell.request with
    | none => matching3261 p skipMethod rest
    | some t =>
      if skipMethod &&& t.method.bits ≠ 0 then matching3261 p skipMethod rest
      else if p.method = .ack ∧ cell.status < 300 then
        -- an ACK for a 2xx is not matched here; a broken one ends the search
        if p.dlg then matching3261 p skipMethod rest else none
      else if viaMatching prm t p then some c
      else matching3261 p skipMethod rest

def dlgMatching (cell : Cell) (ack : Request) : Bool :=
  ack.toTag = cell.localTotag

/-- The comparison of headers for requests other than ACK. -/
def headersMatch (t p : Request) : Bool :=
  t.callid = p.callid ∧ t.cseq = p.cseq ∧ t.fromBody = p.fromBody ∧
    t.toBody = p.toBody ∧ (prm.ruriMatching = true → t.ruri = p.ruri) ∧
    (prm.via1Matching = true → t.via1 = p.via1)

/-- The headers that every ACK shares with its INVITE. -/
def ackHeadersMatch (t p : Request) : Bool :=
  t.method = .invite ∧ t.callid = p.callid ∧ t.cseqNumber = p.cseqNumber ∧
    t.fromBody = p.fromBody ∧ t.toUri = p.toUri

/-- The further elements of an ACK for a negative reply. -/
def negativeAckMatches (t p : Request) : Bool :=
  (prm.ruriMatching = true → t.ruri = p.ruri) ∧ (prm.via1Matching = true → t.via1 = p.via1)

/-- What a lookup comes to. -/
inductive Lookup
  | notfound
  | e2eAck (c : ℕ)
  | found (c : ℕ)

/-- The loop of `t_lookup_request` over requests without the cookie; `e2e` is
`e2e_ack_trans`. -/
def preMatching (p : Request) : Option ℕ → List (ℕ × Cell) → Lookup
  | some c, [] => .e2eAck c
  | none, [] => .notfound
  | e2e, (c, cell) :: rest =>
    match cell.request with
    | none => preMatching p e2e rest
    | some t =>
      if p.method ≠ .ack then
        if headersMatch prm t p then .found c else preMatching p e2e rest
      else if ackHeadersMatch t p then
        if cell.status < 300 ∧ e2e = none then
          if cell.relaiedReplyBranch ≠ -2 then preMatching p (some c) rest
          else if dlgMatching cell p then .found c
          else preMatching p e2e rest
        else if negativeAckMatches prm t p then .found c
        else preMatching p e2e rest
      else preMatching p e2e rest

/-- The `skip_method` of a lookup. -/
def skipMethod (p : Request) : BitVec 32 :=
  if p.method = .ack then ~~~ Method.invite.bits else ~~~ p.method.bits

/-- `t_lookup_request` in a table. -/
def tLookupRequest (table : List (ℕ × Cell)) (p : Request) : Lookup :=
  let bucket := table.filter fun e => e.2.hashIndex = p.hashIndex
  if (cookieBranch prm p).isSome then
    match matching3261 prm p (skipMethod p) bucket with
    | some c => .found c
    | none => .notfound
  else preMatching prm p none bucket

end Matching

/-! ## Processes -/

/-- The variable `T` of a process. -/
inductive TPtr
  | undefined
  | null
  | cell (c : ℕ)

/-- The table, in which every bucket lists its cells from the first to the
last, and the `T` of every process. -/
structure State where
  table : List (ℕ × Cell) := []
  t : ℕ → TPtr := fun _ => .undefined

/-- How `t_newtran` ends. -/
inductive Outcome
  | script
  | retransmission
  | e2eAck
  | ack
  | failed
  | created

/-- `t_newtran`, in one section under the lock of the bucket; `c` is the cell
that `new_t` builds, unless it fails. -/
def tNewtran (prm : Params) (s : State) (who : ℕ) (p : Request) (c : ℕ)
    (built : Bool) : Outcome × State :=
  match s.t who with
  | .cell _ => (.script, s)
  | _ =>
    match tLookupRequest prm s.table p with
    | .found d =>
      (.retransmission, { s with t := update s.t who (.cell d) })
    | .e2eAck _ => (.e2eAck, { s with t := update s.t who .null })
    | .notfound =>
      if p.method = .ack then (.ack, { s with t := update s.t who .null })
      else if built then
        (.created, {
          table := s.table ++ [(c, { request := some p, hashIndex := p.hashIndex })]
          t := update s.t who (.cell c) })
      else (.failed, { s with t := update s.t who .null })

/-- A call of `t_newtran`, a lookup by `t_check`, the end of a message, the
start of a UAC transaction, the removal of a cell, and replies, which change
what the lookup of an ACK reads. -/
inductive Event
  | newtran (who : ℕ) (p : Request) (c : ℕ) (built : Bool)
  | check (who : ℕ) (p : Request)
  | unref (who : ℕ)
  | uac (c hashIndex : ℕ)
  | remove (c : ℕ)
  | reply (c status : ℕ) (relaiedReplyBranch : ℤ) (localTotag : Bytes)

def State.step (prm : Params) (ev : Event) (s : State) : Option State :=
  match ev with
  | .newtran who p c built =>
    if c ∈ s.table.map Prod.fst then none
    else some (tNewtran prm s who p c built).2
  | .check who p =>
    match tLookupRequest prm s.table p with
    | .found d => some { s with t := update s.t who (.cell d) }
    | _ => some { s with t := update s.t who .null }
  | .unref who => some { s with t := update s.t who .undefined }
  | .uac c hashIndex =>
    if c ∈ s.table.map Prod.fst then none
    else some { s with
      table := s.table ++ [(c, { request := none, hashIndex })] }
  | .remove c =>
    some { s with table := s.table.filter fun e => e.1 ≠ c }
  | .reply c status relaiedReplyBranch localTotag =>
    some { s with table := s.table.map fun e =>
      if e.1 = c then
        (e.1, { e.2 with status, relaiedReplyBranch, localTotag })
      else e }

def newtrans (prm : Params) : Machine State Event where
  init := fun s => s = {}
  step := State.step prm

end Msicp.Tm.Newtran
