import Msicp.Dialog.Hooks
import Mathlib.Data.Nat.Digits.Defs

/-!
# Requests that are built locally (`t_msgbuilder.c`)

Every builder counts the bytes of its request, allocates them, and then writes
the request piece by piece.  The text of the Via header field is an input, as
is `server_signature`, for which the signature itself is given.
-/

namespace Msicp.Dialog

open Msicp.Support Msicp.Parser Option

def crlf : Bytes := [13, 10]

def crlfLen : ℕ := 2

def sipVersion : Bytes := ascii "SIP/2.0"

def sipVersionLen : ℕ := 7

def contentLength : Bytes := ascii "Content-Length: "

def contentLengthLen : ℕ := 16

def routePrefix : Bytes := ascii "Route: "

def routePrefixLen : ℕ := 7

def reason : Bytes :=
  ascii "Reason: SIP ;cause=200 ;text=\"Call completed elsewhere\""

def reasonLen : ℕ := 55

def localCancel : Bytes := ascii "LocalCancel: YES"

def localCancelLen : ℕ := 16

def cancel : Bytes := ascii "CANCEL"

def ack : Bytes := ascii "ACK"

def ackLen : ℕ := 3

def bye : Bytes := ascii "BYE"

def byeLen : ℕ := 3

/-- What the builders read of a transaction.  `routes` are the Route header
fields of the request that was received, `uri` that of each branch. -/
structure Cell where
  uri : ℕ → Bytes
  fromHf : Bytes
  callid : Bytes
  cseqN : Bytes
  isLocal : Bool
  routes : List Bytes
  nReason : ℤ
  nRoutingPlanCase : ℤ

/-- What is not up to the builders: the signature, if it is on, the Via header
field, if it can be built, and whether there is shared memory. -/
structure Env where
  userAgent : Option Bytes
  via : Option Bytes
  shm : Bool := true

/-- `USER_AGENT_LEN + CRLF_LEN`, if the signature is on. -/
def Env.userAgentLen (env : Env) : ℕ :=
  match env.userAgent with
  | some ua => ua.length + crlfLen
  | none => 0

def Env.printUserAgent (env : Env) : Bytes :=
  match env.userAgent with
  | some ua => ua ++ crlf
  | none => []

/-! ## ACK and CANCEL hop by hop -/

/-- The conditions for a Reason header field. -/
def Cell.sendsReason (t : Cell) (method : Bytes) : Bool :=
  method = cancel && t.nReason = 0

/-- The beginnings of a Request-URI that mark a local CANCEL. -/
def localUris : List Bytes :=
  [ascii "sip:oms-", ascii "sip:gext-", ascii "sip:xfer-", ascii "sip:opr-"]

/-- The conditions for a LocalCancel header field. -/
def Cell.sendsLocalCancel (t : Cell) (branch : ℕ) (method : Bytes) : Bool :=
  method = cancel && !t.sendsReason method && t.nRoutingPlanCase = 1 &&
    localUris.any fun u => u.isPrefixOf ((t.uri branch).take 30)

/-- `build_local`: `*len` and what is written. -/
def buildLocal (env : Env) (t : Cell) (branch : ℕ) (method toHf : Bytes) : Option (ℕ × Bytes) := do
  let via ← env.via
  let len := sipVersionLen + method.length + 2 + crlfLen
  let len := len + (t.uri branch).length
  let len := len + via.length
  let len := len + (t.fromHf.length + t.callid.length + toHf.length +
    t.cseqN.length + 1 + method.length + crlfLen)
  let len := if t.isLocal then len
    else len + (t.routes.map List.length).sum
  let len := len + env.userAgentLen
  let len := if t.sendsReason method then len + (reasonLen + crlfLen) else len
  let len := if t.sendsLocalCancel branch method then
    len + (localCancelLen + crlfLen) else len
  let len := len + (contentLengthLen + 1 + crlfLen + crlfLen)
  if !env.shm then none
  else
    some (len, method ++ ascii " " ++ t.uri branch ++ ascii " " ++ sipVersion ++ crlf ++
      via ++ t.fromHf ++ t.callid ++ toHf ++ t.cseqN ++ ascii " " ++ method ++
      crlf ++ (if t.isLocal then [] else t.routes.flatten) ++
      env.printUserAgent ++
      (if t.sendsReason method then reason ++ crlf else []) ++
      (if t.sendsLocalCancel branch method then localCancel ++ crlf else []) ++
      contentLength ++ ascii "0" ++ crlf ++ crlf)

/-! ## The route set of a reply -/

/-- `ROUTE_SEPARATOR` of `t_msgbuilder.c` -/
def separator : Bytes := ascii ", "

def separatorLen : ℕ := 2

/-- The entries of the Record-Route header fields, if all can be parsed. -/
def recordRoutes : List (Option (List RrBody)) → Option (List RrBody)
  | [] => some []
  | none :: _ => none
  | some body :: hfs => (recordRoutes hfs).map (body ++ ·)

/-- `process_routeset`, and the comparison of Contact and Request-URI behind
it: the list, the Request-URI, and the Contact if it is to be appended. -/
def processRouteset (rpl : Msg) (contact : Bytes) :
    Option (List RrBody × Bytes × Option Bytes) := do
  let entries ← recordRoutes rpl.recordRoute
  match entries.reverse with
  | [] => some ([], contact, none)
  | head :: list =>
    match parseUri head.uri with
    | .error _ => none
    | .ok puri =>
      if puri.lr.s.isSome then some (head :: list, contact, none)
      else some (list, head.uri, some contact)

/-- The loop of `calc_routeset_len` behind the first entry. -/
def restLen (sepLen : ℕ) (list : List Bytes) : ℕ :=
  (list.map fun r => sepLen + r.length).sum

def calcRoutesetLen (list : List Bytes) (contact : Option Bytes) : ℕ :=
  if list ≠ [] ∨ contact ≠ none then
    let ret := routePrefixLen + crlfLen
    let ret := match list with
      | [] => ret
      | r :: rs => ret + (r.length + restLen separatorLen rs)
    match contact with
    | none => ret
    | some c =>
      (if list ≠ [] then ret + separatorLen else ret) + (2 + c.length)
  else 0

/-- The entries behind the first, each with a separator in front. -/
def printRest (sep : Bytes) (list : List Bytes) : Bytes :=
  list.flatMap fun r => sep ++ r

def printRs (list : List Bytes) (contact : Option Bytes) : Bytes :=
  if list ≠ [] ∨ contact ≠ none then
    routePrefix ++
    (match list with
      | [] => []
      | r :: rs => r ++ printRest separator rs) ++
    (match contact with
      | none => []
      | some c =>
        (if list ≠ [] then separator else []) ++ ascii "<" ++ c ++
          ascii ">") ++
    crlf
  else []

def buildDlgAck (env : Env) (rpl : Msg) (t : Cell) (toHf : Bytes) : Option (ℕ × Bytes) := do
  let contact ← getContactUri rpl
  let (list, ruri, cont) ← processRouteset rpl contact
  let list := list.map RrBody.text
  let len := sipVersionLen + ackLen + 2 + crlfLen
  let len := len + ruri.length
  let via ← env.via
  let len := len + via.length
  let len := len + (t.fromHf.length + t.callid.length + toHf.length +
    t.cseqN.length + 1 + ackLen + crlfLen)
  let len := len + calcRoutesetLen list cont
  let len := len + env.userAgentLen
  let len := len + (contentLengthLen + 1 + crlfLen + crlfLen)
  if !env.shm then none
  else
    some (len, ack ++ ascii " " ++ ruri ++ ascii " " ++ sipVersion ++ crlf ++ via ++
      t.fromHf ++ t.callid ++ toHf ++ t.cseqN ++ ascii " " ++ ack ++ crlf ++
      printRs list cont ++ env.printUserAgent ++ contentLength ++ ascii "0" ++
      crlf ++ crlf)

/-! ## The CSeq of a BYE -/

/-- The text of a number without sign. -/
def printNat (n : ℕ) : Bytes :=
  (Nat.digits 10 n).reverse.map fun d => UInt8.ofNat (d + 48)

/-- `%d` -/
def printInt (n : ℤ) : Bytes :=
  if n = 0 then ascii "0"
  else if n < 0 then ascii "-" ++ printNat n.natAbs
  else printNat n.natAbs

/-- A value as an `int` of 32 bits. -/
def toInt (n : ℤ) : ℤ := n.bmod (2 ^ 32)

def isDigit (c : UInt8) : Bool := 48 ≤ c && c ≤ 57

/-- The value of the digits at the front. -/
def digitsVal (s : Bytes) : ℕ :=
  (s.takeWhile isDigit).foldl (fun n c => n * 10 + (c.toNat - 48)) 0

/-- `atoi`: `strtol` for 64 bits, cut to an `int`. -/
def atoi (s : Bytes) : ℤ :=
  let s := s.dropWhile fun c => c = 32 || (9 ≤ c && c ≤ 13)
  let n : ℤ :=
    match s with
    | [] => 0
    | c :: rest =>
      if c = '-'.toUInt8 then max (-(digitsVal rest : ℤ)) (-2 ^ 63)
      else if c = '+'.toUInt8 then min (digitsVal rest : ℤ) (2 ^ 63 - 1)
      else min (digitsVal s : ℤ) (2 ^ 63 - 1)
  toInt n

/-- `snprintf` into `size` bytes, which hold the terminating zero too. -/
def snprintf (size : ℕ) (s : Bytes) : Bytes := s.take (size - 1)

/-- What is appended for the CSeq: the number incremented, if there is a space
in the text. -/
def byeCseq (cseqN : Bytes) : Bytes :=
  let temp := snprintf 255 (cseqN.takeWhile (· ≠ 0))
  match temp.dropWhile (· ≠ 32) with
  | [] => cseqN
  | _ :: num =>
    snprintf 255 (temp.takeWhile (· ≠ 32) ++ ascii " " ++ printInt (toInt (atoi num + 1)))

def buildDlgBye (env : Env) (rpl : Msg) (t : Cell) (toHf : Bytes) : Option (ℕ × Bytes) := do
  let contact ← getContactUri rpl
  let (list, ruri, cont) ← processRouteset rpl contact
  let list := list.map RrBody.text
  let len := sipVersionLen + byeLen + 2 + crlfLen
  let len := len + ruri.length
  let via ← env.via
  let len := len + via.length
  let len := len + (t.fromHf.length + t.callid.length + toHf.length +
    t.cseqN.length + 1 + byeLen + crlfLen)
  let len := len + calcRoutesetLen list cont
  let len := len + env.userAgentLen
  let len := len + (contentLengthLen + 1 + crlfLen + crlfLen)
  if !env.shm then none
  else
    some (len, bye ++ ascii " " ++ ruri ++ ascii " " ++ sipVersion ++ crlf ++ via ++
      t.fromHf ++ t.callid ++ toHf ++ byeCseq t.cseqN ++ ascii " " ++ bye ++
      crlf ++ printRs list cont ++ env.printUserAgent ++ contentLength ++
      ascii "0" ++ crlf ++ crlf)

/-! ## Requests within a dialog -/

/-- `ROUTE_SEPARATOR` of `dlg.c` -/
def dlgSeparator : Bytes := ascii "," ++ crlf ++ ascii "       "

def dlgSeparatorLen : ℕ := 10

def calculateRoutesetLength (u : RouteUse) : ℕ :=
  let len := match u.routes with
    | [] => 0
    | r :: rs =>
      routePrefixLen + crlfLen + (r.length + restLen dlgSeparatorLen rs)
  match u.last with
  | none => len
  | some last => len + (dlgSeparatorLen + 2) + last.length

def printRouteset (u : RouteUse) : Bytes :=
  (if u.routes ≠ [] ∨ u.last ≠ none then routePrefix else []) ++
  (match u.routes with
    | [] => []
    | r :: rs => r ++ printRest dlgSeparator rs) ++
  (match u.last with
    | none => []
    | some last =>
      (if u.routes ≠ [] then dlgSeparator else []) ++ ascii "<" ++ last ++
        ascii ">") ++
  (if u.routes ≠ [] ∨ u.last ≠ none then crlf else [])

def int2str (n : ℕ) : Bytes := if n = 0 then ascii "0" else printNat n

/-- `print_content_length`: the digits go into a buffer of 10 bytes. -/
def printContentLength (body : Option Bytes) : Option Bytes :=
  match body with
  | none => some []
  | some body =>
    let tmp := int2str body.length
    if 10 ≤ tmp.length then none else some tmp

/-- The tag of a From or To header field. -/
def printTag (tag : Bytes) : Bytes :=
  if tag = [] then [] else ascii ";tag=" ++ tag

/-- `TOTAG_LEN` or `FROMTAG_LEN`, and the tag. -/
def tagLen (tag : Bytes) : ℕ := if tag = [] then 0 else 5 + tag.length

/-- `build_uac_req`, where `u` is what the hooks of the dialog say. -/
def buildUacReq (env : Env) (method : Bytes) (headers body : Option Bytes)
    (d : Dlg) (u : RouteUse) : Option (ℕ × Bytes) := do
  let content ← printContentLength body
  let cseq := int2str d.locSeq.value
  let len := method.length + 1 + u.requestUri.length + 1 + sipVersionLen +
    crlfLen
  let via ← env.via
  let len := len + via.length
  let len := len + (4 + d.remUri.text.length + tagLen d.id.remTag.text +
    crlfLen)
  let len := len + (6 + d.locUri.text.length + tagLen d.id.locTag.text +
    crlfLen)
  let len := len + (9 + d.id.callId.text.length + crlfLen)
  let len := len + (6 + cseq.length + 1 + method.length + crlfLen)
  let len := len + calculateRoutesetLength u
  let len := len +
    (if body.isSome then contentLengthLen + content.length + crlfLen else 0)
  let len := len + env.userAgentLen
  let len := len + (headers.getD []).length
  let len := len + (body.getD []).length
  let len := len + crlfLen
  if !env.shm then none
  else
    some (len, method ++ ascii " " ++ u.requestUri ++ ascii " " ++ sipVersion ++ crlf ++ via ++
      (ascii "To: " ++ d.remUri.text ++ printTag d.id.remTag.text ++ crlf) ++
      (ascii "From: " ++ d.locUri.text ++ printTag d.id.locTag.text ++ crlf) ++
      (ascii "CSeq: " ++ cseq ++ ascii " " ++ method) ++
      (crlf ++ ascii "Call-ID: " ++ d.id.callId.text ++ crlf) ++
      printRouteset u ++
      (if body.isSome then contentLength ++ content ++ crlf else []) ++
      env.printUserAgent ++ headers.getD [] ++ crlf ++ body.getD [])

/-! ## What is counted and what is written -/

@[simp] theorem space_length : (ascii " ").length = 1 := by decide

@[simp] theorem zero_length : (ascii "0").length = 1 := by decide

@[simp] theorem lt_length : (ascii "<").length = 1 := by decide

@[simp] theorem gt_length : (ascii ">").length = 1 := by decide

@[simp] theorem crlf_length : crlf.length = crlfLen := rfl

@[simp] theorem sipVersion_length : sipVersion.length = sipVersionLen := by
  decide

@[simp] theorem contentLength_length : contentLength.length = contentLengthLen := by
  decide

@[simp] theorem routePrefix_length : routePrefix.length = routePrefixLen := by
  decide

@[simp] theorem reason_length : reason.length = reasonLen := by
  decide

@[simp] theorem localCancel_length : localCancel.length = localCancelLen := by
  decide

@[simp] theorem ack_length : ack.length = ackLen := by
  decide

@[simp] theorem bye_length : bye.length = byeLen := by
  decide

@[simp] theorem separator_length : separator.length = separatorLen := by
  decide

@[simp] theorem dlgSeparator_length : dlgSeparator.length = dlgSeparatorLen := by
  decide

@[simp] theorem printUserAgent_length (env : Env) :
    env.printUserAgent.length = env.userAgentLen := by
  unfold Env.printUserAgent Env.userAgentLen
  cases env.userAgent <;> simp

@[simp] theorem printTag_length (tag : Bytes) : (printTag tag).length = tagLen tag := by
  unfold printTag tagLen
  split
  · rfl
  · rw [List.length_append]
    rfl

theorem printRest_length (sep : Bytes) (list : List Bytes) :
    (printRest sep list).length = restLen sep.length list := by
  simp [printRest, restLen, List.length_flatMap]

@[simp] theorem printRs_length (list : List Bytes) (contact : Option Bytes) :
    (printRs list contact).length = calcRoutesetLen list contact := by
  cases list <;> cases contact <;>
    simp [printRs, calcRoutesetLen, printRest_length] <;> omega

variable {env : Env} {t : Cell} {toHf buf : Bytes} {len : ℕ}

theorem buildLocal_length {branch : ℕ}
    {method : Bytes}
    (h : buildLocal env t branch method toHf = some (len, buf)) :
    buf.length = len := by
  obtain ⟨via, hvia, h⟩ := bind_eq_some_iff.mp h
  dsimp only at h
  split at h
  · cases h
  · obtain ⟨hlen, hbuf⟩ := Prod.mk.inj (some.inj h)
    have hroutes : (if t.isLocal then [] else t.routes.flatten).length =
        if t.isLocal then 0 else (t.routes.map List.length).sum := by
      split <;> simp
    have hreason : (if t.sendsReason method then reason ++ crlf else []).length =
        if t.sendsReason method then reasonLen + crlfLen else 0 := by
      split <;> simp
    have hcancel : (if t.sendsLocalCancel branch method then
        localCancel ++ crlf else []).length =
        if t.sendsLocalCancel branch method then
          localCancelLen + crlfLen else 0 := by
      split <;> simp
    rw [← hlen, ← hbuf]
    simp only [List.length_append, hroutes, hreason, hcancel, space_length,
      sipVersion_length, crlf_length, contentLength_length, zero_length,
      printUserAgent_length]
    split <;> split <;> split <;> omega

theorem buildDlgAck_length {rpl : Msg} (h : buildDlgAck env rpl t toHf = some (len, buf)) :
    buf.length = len := by
  obtain ⟨contact, hcontact, h⟩ := bind_eq_some_iff.mp h
  obtain ⟨⟨list, ruri, cont⟩, hroutes, h⟩ := bind_eq_some_iff.mp h
  obtain ⟨via, hvia, h⟩ := bind_eq_some_iff.mp h
  dsimp only at h
  split at h
  · cases h
  · obtain ⟨hlen, hbuf⟩ := Prod.mk.inj (some.inj h)
    rw [← hlen, ← hbuf]
    simp only [List.length_append, space_length, sipVersion_length,
      crlf_length, contentLength_length, zero_length, ack_length,
      printRs_length, printUserAgent_length]
    omega

/-- The CSeq that is written takes the place of the one counted. -/
theorem buildDlgBye_length {rpl : Msg} (h : buildDlgBye env rpl t toHf = some (len, buf)) :
    buf.length + t.cseqN.length = len + (byeCseq t.cseqN).length := by
  obtain ⟨contact, hcontact, h⟩ := bind_eq_some_iff.mp h
  obtain ⟨⟨list, ruri, cont⟩, hroutes, h⟩ := bind_eq_some_iff.mp h
  obtain ⟨via, hvia, h⟩ := bind_eq_some_iff.mp h
  dsimp only at h
  split at h
  · cases h
  · obtain ⟨hlen, hbuf⟩ := Prod.mk.inj (some.inj h)
    rw [← hlen, ← hbuf]
    simp only [List.length_append, space_length, sipVersion_length,
      crlf_length, contentLength_length, zero_length, bye_length,
      printRs_length, printUserAgent_length]
    omega

theorem printRouteset_length (u : RouteUse) :
    (printRouteset u).length + (if u.routes = [] ∧ u.last ≠ none then 1 else 0) =
      calculateRoutesetLength u := by
  obtain ⟨requestUri, nextHop, routes, last⟩ := u
  cases routes <;> cases last <;>
    simp [printRouteset, calculateRoutesetLength, printRest_length,
      routePrefixLen, crlfLen, dlgSeparatorLen] <;> omega

theorem buildUacReq_length {method : Bytes}
    {headers body : Option Bytes} {d : Dlg} {u : RouteUse}
    (h : buildUacReq env method headers body d u = some (len, buf)) :
    buf.length + (if u.routes = [] ∧ u.last ≠ none then 1 else 0) = len := by
  obtain ⟨content, hcontent, h⟩ := bind_eq_some_iff.mp h
  obtain ⟨via, hvia, h⟩ := bind_eq_some_iff.mp h
  dsimp only at h
  split at h
  · cases h
  · obtain ⟨hlen, hbuf⟩ := Prod.mk.inj (some.inj h)
    have hset := printRouteset_length u
    have hcl : (if body.isSome then contentLength ++ content ++ crlf
        else []).length =
        if body.isSome then contentLengthLen + content.length + crlfLen
        else 0 := by
      split <;> simp [Nat.add_assoc]
    rw [← hlen, ← hbuf]
    clear hlen hbuf h
    simp only [List.length_append, hcl, space_length, sipVersion_length,
      crlf_length, printTag_length, printUserAgent_length,
      show (ascii "To: ").length = 4 by decide,
      show (ascii "From: ").length = 6 by decide,
      show (ascii "CSeq: ").length = 6 by decide,
      show (ascii "Call-ID: ").length = 9 by decide]
    omega

/-! ## Every builder -/

/-- A call of one of the builders. -/
inductive Build
  | ofLocal (t : Cell) (branch : ℕ) (method toHf : Bytes)
  | ofAck (rpl : Msg) (t : Cell) (toHf : Bytes)
  | ofBye (rpl : Msg) (t : Cell) (toHf : Bytes)
  | ofUac (method : Bytes) (headers body : Option Bytes) (d : Dlg)

/-- The length that is counted, and what is written. -/
def Build.run (env : Env) : Build → Option (ℕ × Bytes)
  | .ofLocal t branch method toHf => buildLocal env t branch method toHf
  | .ofAck rpl t toHf => buildDlgAck env rpl t toHf
  | .ofBye rpl t toHf => buildDlgBye env rpl t toHf
  | .ofUac method headers body d =>
    d.used.bind fun u => buildUacReq env method headers body d u

/-- The CSeq stays as long as it is: it has no space among the bytes that are
looked at, or the text up to the first space and the number behind it,
incremented, are as long together. -/
def CseqKeepsLength (cseqN : Bytes) : Prop :=
  let temp := snprintf 255 (cseqN.takeWhile (· ≠ 0))
  match temp.dropWhile (· ≠ 32) with
  | [] => True
  | _ :: num =>
    min 254 ((temp.takeWhile (· ≠ 32)).length + 1 +
      (printInt (toInt (atoi num + 1))).length) = cseqN.length

/-- A BYE keeps the length of the CSeq, and the hooks of a dialog have no last
route without a first one. -/
def Build.Exact : Build → Prop
  | .ofLocal _ _ _ _ => True
  | .ofAck _ _ _ => True
  | .ofBye _ t _ => CseqKeepsLength t.cseqN
  | .ofUac _ _ _ d => d.hooks.firstRoute = none → d.hooks.lastRoute = .null

theorem byeCseq_length (cseqN : Bytes) :
    (byeCseq cseqN).length = cseqN.length ↔ CseqKeepsLength cseqN := by
  unfold byeCseq CseqKeepsLength
  dsimp only
  generalize snprintf 255 (cseqN.takeWhile (· ≠ 0)) = temp
  cases temp.dropWhile (· ≠ 32) with
  | nil => exact iff_of_true rfl trivial
  | cons c num => simp [snprintf, Nat.add_assoc]

/-- The routes that are read are none just if there is no first route. -/
theorem Dlg.used_routes {d : Dlg} {u : RouteUse} (h : d.used = some u) :
    (u.routes = [] ↔ d.hooks.firstRoute = none) ∧ (u.last = none ↔ d.hooks.lastRoute = .null) := by
  obtain ⟨ruri, -, h⟩ := bind_eq_some_iff.mp h
  obtain ⟨hop, -, h⟩ := bind_eq_some_iff.mp h
  obtain ⟨routes, hroutes, h⟩ := bind_eq_some_iff.mp h
  obtain ⟨last, hlast, h⟩ := bind_eq_some_iff.mp h
  obtain rfl := some.inj h
  constructor
  · unfold readRoutes at hroutes
    split at hroutes
    · rename_i hfirst
      exact iff_of_true (some.inj hroutes).symm hfirst
    · rename_i node hfirst
      split at hroutes
      · rename_i hmem
        refine iff_of_false (fun hnil => ?_) (by simp [hfirst])
        obtain rfl := some.inj hroutes
        obtain ⟨r, hr, hnode⟩ := List.mem_map.mp hmem
        have hdrop : d.routesFrom (some node) = [] := by simpa using hnil
        rw [routesFrom, List.dropWhile_eq_nil_iff] at hdrop
        simpa [hnode] using hdrop r hr
      · cases hroutes
  · unfold readLast at hlast
    split at hlast
    · rename_i hnull
      exact iff_of_true (some.inj hlast).symm hnull
    · rename_i hne
      obtain ⟨text, -, rfl⟩ := map_eq_some_iff.mp hlast
      exact iff_of_false (by simp) hne

/-- A builder writes as many bytes as it has counted just under the condition
for it. -/
theorem build_exact_iff {env : Env} {b : Build} {len : ℕ} {buf : Bytes}
    (h : b.run env = some (len, buf)) : buf.length = len ↔ b.Exact := by
  cases b with
  | ofLocal t branch method toHf =>
    exact iff_of_true (buildLocal_length h) trivial
  | ofAck rpl t toHf => exact iff_of_true (buildDlgAck_length h) trivial
  | ofBye rpl t toHf =>
    have hlen := buildDlgBye_length h
    refine Iff.trans ?_ (byeCseq_length t.cseqN)
    omega
  | ofUac method headers body d =>
    obtain ⟨u, hu, h⟩ := bind_eq_some_iff.mp h
    have hlen := buildUacReq_length h
    obtain ⟨hroutes, hlast⟩ := Dlg.used_routes hu
    rw [Build.Exact, ← hroutes, ← hlast]
    split at hlen
    · rename_i hone
      exact iff_of_false (by omega) fun himp => hone.2 (himp hone.1)
    · rename_i hone
      refine iff_of_true (by omega) fun hnil => ?_
      by_contra hne
      exact hone ⟨hnil, hne⟩

/-! ## A CSeq that grows, and a single strict route -/

def sampleEnv : Env where
  userAgent := none
  via := some (ascii "Via: SIP/2.0/UDP h" ++ crlf)

/-- A transaction with this CSeq. -/
def cellWith (cseqN : Bytes) : Cell where
  uri _ := ascii "sip:b@p"
  fromHf := ascii "From: <sip:a@h>;tag=t1" ++ crlf
  callid := ascii "Call-ID: c1" ++ crlf
  cseqN := cseqN
  isLocal := true
  routes := []
  nReason := 0
  nRoutingPlanCase := 0

def byeFor (cseqN : Bytes) : Build :=
  .ofBye answered.msg (cellWith cseqN) (ascii "To: <sip:b@h>;tag=t2" ++ crlf)

/-- A dialog with a single, strict route. -/
def strictCall : Dlg :=
  (respond
    { msg := { answered.msg with
        recordRoute := [some [⟨ascii "<", ascii "sip:p@h", ascii ">", by decide⟩]] }
      shm := [some 5, some 6, some 7] } called).2

theorem byeFor_isSome : ((byeFor (ascii "CSeq: 1")).run sampleEnv).isSome := by
  decide

theorem build_exact_iff_bye :
    let built := ((byeFor (ascii "CSeq: 1")).run sampleEnv).get byeFor_isSome
    built.2.length = built.1 ↔ (byeFor (ascii "CSeq: 1")).Exact :=
  build_exact_iff (some_get byeFor_isSome).symm

set_option maxRecDepth 1024 in
/-- With the CSeq 9 a BYE is one byte longer than counted, and a request with a
single strict route one byte shorter. -/
theorem builds_miscount :
    ((byeFor (ascii "CSeq: 9")).run sampleEnv).map
        (fun x => decide (x.2.length = x.1 + 1)) = some true ∧
      ((Build.ofUac (ascii "BYE") none none strictCall).run sampleEnv).map
        (fun x => decide (x.2.length + 1 = x.1)) = some true := by
  decide

end Msicp.Dialog
