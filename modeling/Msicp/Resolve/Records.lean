import Msicp.Support.Bytes

/-!
# Answers of the name server (`get_record`)

The answer section of a response becomes a linked list: SRV records are put where their
priority and weight ask for, all others behind the last record.
-/

namespace Msicp.Resolve

open Msicp.Support

/-- How the reading of a response ends early: with an error, with a read behind the
response, or with one through a null pointer. -/
inductive Fault
  | error
  | outside
  | null

/-! ## Reading -/

variable (resp : Bytes)

/-- `memcpy` of `n` bytes of the response. -/
def readBytes (p n : ℕ) : Except Fault Bytes :=
  if p + n ≤ resp.length then .ok ((resp.drop p).take n) else .error .outside

/-- `ntohs` and `ntohl` -/
def ntoh (bytes : Bytes) : ℕ := bytes.foldl (fun n b => 256 * n + b.toNat) 0

/-- `(p>=end)?0:p` -/
def notAtEnd (p : ℕ) : Option ℕ := if resp.length ≤ p then none else some p

def dnsSkipname (p : ℕ) : Option ℕ :=
  if h : p < resp.length then
    let b := resp[p]
    if b = 0 then notAtEnd resp (p + 1)
    else if b &&& 0xc0 = 0xc0 then notAtEnd resp (p + 2)
    else dnsSkipname (p + b.toNat + 1)
  else none
termination_by resp.length - p

/-! ## The parsers of the rdata -/

/-- `dn_expand`: the name at a place of the message, and how long it is there. -/
abbrev DnExpand := Bytes → ℕ → Option (Bytes × ℕ)

variable (dnExpand : DnExpand)

/-- The rdata that the parsers allocate; `null` is the null pointer for a type that has
none. -/
inductive Rdata
  | srv (priority weight port : ℕ) (name : Bytes)
  | naptr (order pref : ℕ) (flags services regexp repl : Bytes)
  | cname (name : Bytes)
  | a (ip : Bytes)
  | aaaa (ip6 : Bytes)
  | null
  deriving DecidableEq

/-- `dn_expand` into a name of the rdata. -/
def expandName (p : ℕ) : Except Fault Bytes :=
  match dnExpand resp p with
  | none => .error .error
  | some (name, _) => .ok name

def dnsSrvParser (rdata : ℕ) : Except Fault Rdata :=
  if resp.length ≤ rdata + 6 then .error .error
  else do
    let priority ← readBytes resp rdata 2
    let weight ← readBytes resp (rdata + 2) 2
    let port ← readBytes resp (rdata + 4) 2
    let name ← expandName resp dnExpand (rdata + 6)
    return .srv (ntoh priority) (ntoh weight) (ntoh port) name

def dnsNaptrParser (rdata : ℕ) : Except Fault Rdata :=
  if resp.length ≤ rdata + 7 then .error .error
  else do
    let order ← readBytes resp rdata 2
    let pref ← readBytes resp (rdata + 2) 2
    let flagsLen ← ntoh <$> readBytes resp (rdata + 4) 1
    if resp.length ≤ rdata + 7 + flagsLen then throw .error
    let flags ← readBytes resp (rdata + 5) flagsLen
    let servicesLen ← ntoh <$> readBytes resp (rdata + 5 + flagsLen) 1
    if resp.length ≤ rdata + 7 + flagsLen + servicesLen then throw .error
    let services ← readBytes resp (rdata + 6 + flagsLen) servicesLen
    let regexpLen ← ntoh <$> readBytes resp (rdata + 6 + flagsLen + servicesLen) 1
    if resp.length ≤ rdata + 7 + flagsLen + servicesLen + regexpLen then throw .error
    let regexp ← readBytes resp (rdata + 7 + flagsLen + servicesLen) regexpLen
    let repl ← expandName resp dnExpand (rdata + 7 + flagsLen + servicesLen + regexpLen)
    return .naptr (ntoh order) (ntoh pref) flags services regexp repl

def dnsCnameParser (rdata : ℕ) : Except Fault Rdata := do
  let name ← expandName resp dnExpand rdata
  return .cname name

def dnsAParser (rdata : ℕ) : Except Fault Rdata :=
  if resp.length ≤ rdata + 4 then .error .error
  else do
    let ip ← readBytes resp rdata 4
    return .a ip

def dnsAaaaParser (rdata : ℕ) : Except Fault Rdata :=
  if resp.length ≤ rdata + 16 then .error .error
  else do
    let ip6 ← readBytes resp rdata 16
    return .aaaa ip6

/-- The types that `get_record` has a parser for. -/
inductive RType
  | a
  | cname
  | aaaa
  | srv
  | naptr
  | unknown
  deriving DecidableEq

def RType.ofNumber (rtype : ℕ) : RType :=
  if rtype = 33 then .srv
  else if rtype = 1 then .a
  else if rtype = 28 then .aaaa
  else if rtype = 5 then .cname
  else if rtype = 35 then .naptr
  else .unknown

/-- The parser for a type. -/
def parseRdata (rtype rdata : ℕ) : Except Fault Rdata :=
  match RType.ofNumber rtype with
  | .srv => dnsSrvParser resp dnExpand rdata
  | .a => dnsAParser resp rdata
  | .aaaa => dnsAaaaParser resp rdata
  | .cname => dnsCnameParser resp dnExpand rdata
  | .naptr => dnsNaptrParser resp dnExpand rdata
  | .unknown => .ok .null

/-! ## The list -/

/-- `struct rdata`: the answer that it was read from, what it says, its rdata, and what
the memory of the rdata held before. -/
structure RdataCell where
  r : ℕ
  type : ℕ
  class_ : ℕ
  ttl : ℕ
  rdata : Rdata
  fresh : Bytes

/-- The first four bytes of a block as two numbers of the host. -/
def hostPair (block : Bytes) : ℕ × ℕ :=
  (ntoh (block.take 2).reverse, ntoh ((block.drop 2).take 2).reverse)

/-- What `priority` and `weight` are when the rdata is taken for that of an SRV record,
whatever it is; there is nothing behind a null pointer. -/
def RdataCell.srvKey (c : RdataCell) : Option (ℕ × ℕ) :=
  match c.rdata with
  | .srv priority weight _ _ => some (priority, weight)
  | .naptr order pref _ _ _ _ => some (order, pref)
  | .cname name => some (hostPair (name ++ 0 :: c.fresh))
  | .a ip => some (hostPair ip)
  | .aaaa ip6 => some (hostPair ip6)
  | .null => none

/-- The comparison of the insertion. -/
def goesBefore (srvRd crtSrv : ℕ × ℕ) : Bool :=
  srvRd.1 < crtSrv.1 || (srvRd.1 = crtSrv.1 && crtSrv.2 < srvRd.2)

/-- The loop that inserts an SRV record; the flag is that it is the last element. -/
def insertSorted (rd : RdataCell) (srvRd : ℕ × ℕ) :
    List RdataCell → Except Fault (List RdataCell × Bool)
  | [] => .ok ([rd], true)
  | crt :: next =>
    match crt.srvKey with
    | none => .error .null
    | some crtSrv =>
      if goesBefore srvRd crtSrv then .ok (rd :: crt :: next, false)
      else (insertSorted rd srvRd next).map fun (list, atEnd) => (crt :: list, atEnd)

/-- The list and the cell whose `next` is what `last` points to; none for `head`. -/
structure RecordList where
  head : List RdataCell
  last : Option ℕ

/-- The list up to a cell. -/
def through (id : ℕ) : List RdataCell → List RdataCell
  | [] => []
  | c :: next => if c.r = id then [c] else c :: through id next

/-- `*last=rd; last=&(rd->next)` -/
def RecordList.append (l : RecordList) (rd : RdataCell) : RecordList :=
  match l.last with
  | none => ⟨[rd], some rd.r⟩
  | some id => ⟨through id l.head ++ [rd], some rd.r⟩

/-- A record is put into the list. -/
def RecordList.link (l : RecordList) (rd : RdataCell) : Except Fault RecordList :=
  match rd.rdata with
  | .srv priority weight _ _ => do
      let (head, atEnd) ← insertSorted rd (priority, weight) l.head
      return ⟨head, if atEnd then some rd.r else l.last⟩
  | _ => .ok (l.append rd)

/-! ## `get_record` -/

/-- What the two allocations for an answer find in memory, or that they fail. -/
abbrev Memory := ℕ → Option Bytes

variable (memory : Memory)

/-- The answer `r` at `p`: its cell, and where the next one begins. -/
def readAnswer (r p : ℕ) : Except Fault (RdataCell × ℕ) :=
  match dnsSkipname resp p with
  | none => .error .error
  | some p =>
    if resp.length ≤ p + 2 + 2 + 4 + 2 then .error .error
    else do
      let rtype ← ntoh <$> readBytes resp p 2
      let class_ ← ntoh <$> readBytes resp (p + 2) 2
      let ttl ← ntoh <$> readBytes resp (p + 4) 4
      let rdlength ← ntoh <$> readBytes resp (p + 8) 2
      match memory r with
      | none => .error .error
      | some fresh =>
        let rdata ← parseRdata resp dnExpand rtype (p + 10)
        return (⟨r, rtype, class_, ttl, rdata, fresh⟩, p + 10 + rdlength)

/-- The loop over the answers, of which `n` are left. -/
def answersLoop : ℕ → ℕ → ℕ → RecordList → Except Fault (List RdataCell)
  | 0, _, _, l => .ok l.head
  | n + 1, r, p, l =>
    if resp.length ≤ p then .ok l.head
    else do
      let (rd, next) ← readAnswer resp dnExpand memory r p
      let l ← l.link rd
      answersLoop n (r + 1) next l

/-- The loop that skips the questions. -/
def skipQuestions : ℕ → ℕ → Except Fault ℕ
  | 0, p => .ok p
  | n + 1, p =>
    match dnsSkipname resp p with
    | none => .error .error
    | some p =>
      if resp.length ≤ p + 2 + 2 then .error .error
      else skipQuestions n (p + 2 + 2)

def dnsHdrSize : ℕ := 12

/-- What `get_record` does with a response. -/
def readRecords : Except Fault (List RdataCell) :=
  if resp.length ≤ dnsHdrSize then .error .error
  else do
    let qno ← ntoh <$> readBytes resp 4 2
    let p ← skipQuestions resp qno dnsHdrSize
    let answersNo ← ntoh <$> readBytes resp 6 2
    answersLoop resp dnExpand memory answersNo 0 p ⟨[], none⟩

def maxQuerySize : ℕ := 8192

/-- What `res_search` leaves in the buffer. -/
def queryBuffer (answer : Bytes) : Bytes := answer.take maxQuerySize

/-- `get_record`, with what `res_search` finds: the empty list is the null pointer. -/
def getRecord (resSearch : Option Bytes) : Except Fault (List RdataCell) :=
  match resSearch with
  | none => .ok []
  | some answer =>
    match readRecords (queryBuffer answer) dnExpand memory with
    | .error .error => .ok []
    | result => result

end Msicp.Resolve
