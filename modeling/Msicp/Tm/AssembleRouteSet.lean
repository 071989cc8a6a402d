import Msicp.Tm.AssembleMsg

/-!
# The route set that the external application is told

A dialog's route set is made of the URIs of all Record-Route header fields of
the request, in order.  If the first URI has an `lr` parameter, the next request
goes to the remote target with the route set as its route; otherwise it goes to
the first URI, and the remote target comes last in the route.
-/

namespace Msicp.Tm

open Msicp.Support List
open Option hiding or_assoc
open Msicp.Rr (parseRr)
open Msicp.Dialog (isLr int2str)

/-! ## The routing of a dialog -/

/-- The parameters of a URI: behind the host, up to the headers. -/
def uriParams (uri : Bytes) : List Bytes :=
  let hostport := match uri.dropWhile (· ≠ '@'.toUInt8) with
    | [] => uri
    | _ :: rest => rest
  ((hostport.takeWhile (· ≠ '?'.toUInt8)).splitOn ';'.toUInt8).tail

/-- The URI is one of a loose router. -/
def hasLr (uri : Bytes) : Bool :=
  (uriParams uri).any fun p => isLr (p.takeWhile (· ≠ '='.toUInt8))

/-- Where the requests of a dialog go. -/
structure Subsequent where
  requestUri : Bytes
  route : List Bytes
  nextHop : Option Bytes

/-- Strict and loose routing. -/
def subsequent (target : Bytes) : List Bytes → Subsequent
  | [] => ⟨target, [], none⟩
  | uri :: rest =>
    if hasLr uri then ⟨target, uri :: rest, some uri⟩
    else ⟨uri, rest ++ [target], none⟩

variable {target route : Bytes} {uris : List Bytes}

theorem subsequent_of_lr {uri : Bytes} {rest : List Bytes} (h : hasLr uri = true) :
    subsequent target (uri :: rest) = ⟨target, uri :: rest, some uri⟩ :=
  if_pos h

theorem subsequent_of_strict {uri : Bytes} {rest : List Bytes} (h : hasLr uri = false) :
    subsequent target (uri :: rest) = ⟨uri, rest ++ [target], none⟩ :=
  if_neg (by simp [h])

/-- The text of a route. -/
def routeText (uris : List Bytes) : Bytes := uris.foldl addRoute []

/-- The texts that stand for it. -/
def Subsequent.routing (s : Subsequent) : Routing :=
  ⟨routeText s.route, s.nextHop.getD emptyParam, s.requestUri⟩

/-- The URIs of a header field; an empty one has none. -/
def urisOf (body : Bytes) : List Bytes := (parseRr body).getD []

/-- The route set: all URIs of all Record-Route header fields. -/
def Request.routeSet (req : Request) : List Bytes := req.recordRoute.flatMap urisOf

/-! ## Texts of routes -/

theorem addRoute_length (route uri : Bytes) : (addRoute route uri).length =
      route.length + uri.length + if route = [] then 2 else 3 := by
  have hbrackets : (ascii "<").length = 1 ∧ (ascii ">").length = 1 ∧
      (ascii ",").length = 1 := by decide
  unfold addRoute
  split_ifs with h
  · simp only [h, List.length_append, hbrackets, length_nil]
    omega
  · simp only [List.length_append, hbrackets]
    omega

theorem addRoute_ne_nil (route uri : Bytes) : addRoute route uri ≠ [] := by
  have hlen := addRoute_length route uri
  intro h
  rw [h, length_nil] at hlen
  split_ifs at hlen

theorem foldl_addRoute_length (uris : List Bytes) (h : route ≠ []) :
    (uris.foldl addRoute route).length =
      route.length + (uris.map fun uri => uri.length + 3).sum := by
  induction uris generalizing route with
  | nil => simp
  | cons uri uris ih =>
    rw [foldl_cons, ih (addRoute_ne_nil route uri), addRoute_length, if_neg h, map_cons, sum_cons]
    omega

theorem routeText_length (h : uris ≠ []) : (routeText uris).length + 1 =
      (uris.map fun uri => uri.length + 3).sum := by
  obtain ⟨uri, uris, rfl⟩ := exists_cons_of_ne_nil h
  rw [routeText, foldl_cons, foldl_addRoute_length uris (addRoute_ne_nil [] uri), addRoute_length,
    if_pos rfl, length_nil, map_cons, sum_cons]
  omega

theorem routeText_ne_nil (h : uris ≠ []) : routeText uris ≠ [] := by
  intro hnil
  have hlen := routeText_length h
  obtain ⟨uri, uris, rfl⟩ := exists_cons_of_ne_nil h
  rw [hnil, map_cons, sum_cons, length_nil] at hlen
  omega

theorem routeText_inj {l₁ m l₂ : List Bytes} (h : l₁ ++ l₂ ≠ [])
    (hsame : routeText (l₁ ++ l₂) = routeText (l₁ ++ m ++ l₂)) : m = [] := by
  have hne : l₁ ++ m ++ l₂ ≠ [] := by
    intro hnil
    simp only [append_eq_nil_iff] at hnil
    exact h (append_eq_nil_iff.mpr ⟨hnil.1.1, hnil.2⟩)
  have hlen := routeText_length h
  have hlen' := routeText_length hne
  rw [← hsame] at hlen'
  simp only [map_append, sum_append] at hlen hlen'
  cases m with
  | nil => rfl
  | cons x m =>
    rw [map_cons, sum_cons] at hlen'
    omega

theorem lf_mem_foldl_addRoute :
    lf ∈ uris.foldl addRoute route ↔ lf ∈ route ∨ ∃ uri ∈ uris, lf ∈ uri := by
  have hbrackets : lf ∉ ascii "<" ∧ lf ∉ ascii ">" ∧ lf ∉ ascii "," := by decide
  induction uris generalizing route with
  | nil => simp
  | cons uri uris ih =>
    have hadd : lf ∈ addRoute route uri ↔ lf ∈ route ∨ lf ∈ uri := by
      unfold addRoute
      split_ifs with h
      · simp [h, hbrackets]
      · simp [hbrackets]
    rw [foldl_cons]
    refine ih.trans ?_
    rw [hadd]
    simp [or_assoc]

theorem lf_mem_routeText : lf ∈ routeText uris ↔ ∃ uri ∈ uris, lf ∈ uri := by
  rw [routeText, lf_mem_foldl_addRoute]
  simp

/-! ## What `assemble_msg` copies -/

theorem foldlM_copyRoute {route' : Bytes} (h : uris.foldlM copyRoute route = some route') :
    route' = uris.foldl addRoute route := by
  induction uris generalizing route with
  | nil => exact (some.inj h).symm
  | cons uri uris ih =>
    rw [foldlM_cons] at h
    obtain ⟨next, hnext, h⟩ := bind_eq_some_iff.mp h
    unfold copyRoute at hnext
    split_ifs at hnext
    obtain rfl := some.inj hnext
    exact ih h

theorem foldlM_copyHeader {later : List Bytes} {route' : Bytes}
    (h : later.foldlM copyHeader route = some route') :
    route' = (later.flatMap urisOf).foldl addRoute route := by
  induction later generalizing route with
  | nil => exact (some.inj h).symm
  | cons body later ih =>
    rw [foldlM_cons] at h
    obtain ⟨next, hnext, h⟩ := bind_eq_some_iff.mp h
    rw [ih h, flatMap_cons, foldl_append]
    congr 1
    unfold copyHeader at hnext
    split_ifs at hnext with hbody
    · obtain rfl := some.inj hnext
      subst hbody
      rfl
    · obtain ⟨uris, huris, hnext⟩ := bind_eq_some_iff.mp hnext
      rw [urisOf, huris, foldlM_copyRoute hnext]
      rfl

/-- The routing when there is a Record-Route: of the first header field only the
first URI is there. -/
theorem assembleRoute_eq {first : Bytes} {later : List Bytes}
    {r : Routing} (h : assembleRoute target (first :: later) = some r) :
    ∃ uri more lr, parseRr first = some (uri :: more) ∧ fproxyLr uri = some lr ∧
      r = if lr then ⟨routeText ([uri] ++ later.flatMap urisOf), uri, target⟩
        else ⟨routeText (later.flatMap urisOf ++ [target]), emptyParam, uri⟩ := by
  obtain ⟨uris, huris, hfirst⟩ := bind_eq_some_iff.mp h
  obtain ⟨uri, huri, hparams⟩ := bind_eq_some_iff.mp hfirst
  obtain ⟨lr, hlr, hcopy⟩ := bind_eq_some_iff.mp hparams
  obtain ⟨route, hroute, hlater⟩ := bind_eq_some_iff.mp hcopy
  obtain ⟨route', hroute', hlast⟩ := bind_eq_some_iff.mp hlater
  clear h hfirst hparams hcopy hlater
  obtain ⟨more, rfl⟩ : ∃ more, uris = uri :: more := by
    cases uris with
    | nil => cases huri
    | cons x more =>
      obtain rfl := some.inj huri
      exact ⟨more, rfl⟩
  refine ⟨uri, more, lr, huris, hlr, ?_⟩
  unfold firstRoute at hroute
  cases lr with
  | true =>
    rw [if_pos rfl] at hroute hlast
    obtain rfl := some.inj hlast
    unfold copyRoute at hroute
    split_ifs at hroute
    obtain rfl := some.inj hroute
    rw [foldlM_copyHeader hroute', if_pos rfl, routeText, foldl_append]
    rfl
  | false =>
    rw [if_neg (by simp)] at hroute hlast
    obtain rfl := some.inj hroute
    obtain ⟨last, hcopy, hlast⟩ := bind_eq_some_iff.mp hlast
    obtain rfl := some.inj hlast
    unfold copyRoute at hcopy
    split_ifs at hcopy
    obtain rfl := some.inj hcopy
    rw [if_neg (by simp), routeText, foldl_append, ← foldlM_copyHeader hroute']
    rfl

/-! ## The route set in the lines -/

variable {req : Request} {twi : TwInfo} {out : Assembled} {r : Routing}

/-- The request URI, the route and the next hop. -/
def Describes (out : Assembled) (s : Subsequent) : Prop :=
  out.lines[8]? = some (orEmpty s.requestUri) ∧
    out.lines[16]? = some (orEmpty (routeText s.route)) ∧
    out.lines[17]? = some (s.nextHop.getD emptyParam)

theorem Made.describes_iff (h : Made req twi out r) (s : Subsequent) :
    Describes out s ↔ orEmpty r.strUri = orEmpty s.requestUri ∧
      orEmpty r.route = orEmpty (routeText s.route) ∧
      r.nextHop = s.nextHop.getD emptyParam := by
  unfold Describes
  rw [h.lines]
  simp

/-- The first Record-Route header field has one URI, in which the `lr` that
`assemble_msg` finds is a parameter of the URI. -/
def FirstAlone (req : Request) : Prop :=
  ∀ first ∈ req.recordRoute.head?,
    ∃ uri, parseRr first = some [uri] ∧ fproxyLr uri = some (hasLr uri)

theorem orEmpty_of_ne_nil {s : Bytes} (h : s ≠ []) : orEmpty s = s := if_neg h

theorem orEmpty_routeText_inj {l₁ m l₂ : List Bytes} (hne : l₁ ++ l₂ ≠ [])
    (h : orEmpty (routeText (l₁ ++ l₂)) = orEmpty (routeText (l₁ ++ m ++ l₂))) :
    m = [] := by
  have hlong : l₁ ++ m ++ l₂ ≠ [] := by
    intro hnil
    simp only [append_eq_nil_iff] at hnil
    exact hne (append_eq_nil_iff.mpr ⟨hnil.1.1, hnil.2⟩)
  rw [orEmpty_of_ne_nil (routeText_ne_nil hne), orEmpty_of_ne_nil (routeText_ne_nil hlong)] at h
  exact routeText_inj hne h

theorem fproxyLr_emptyParam : fproxyLr emptyParam = some false := by decide

theorem hasLr_emptyParam : hasLr emptyParam = false := by decide

/-- The routing that `assemble_msg` writes is that of the whole route set exactly
when nothing of the first header field is left out. -/
theorem Made.routeSet_iff (h : Made req twi out r) :
    Describes out (subsequent req.target req.routeSet) ↔ FirstAlone req := by
  rw [h.describes_iff]
  have hrouting := h.routing
  unfold FirstAlone Request.routeSet
  cases hrr : req.recordRoute with
  | nil =>
    rw [hrr] at hrouting
    obtain rfl := some.inj hrouting
    exact iff_of_true ⟨rfl, rfl, rfl⟩ (by simp)
  | cons first later =>
    rw [hrr] at hrouting
    obtain ⟨uri, more, lr, hfirst, hlr, rfl⟩ := assembleRoute_eq hrouting
    have huris : urisOf first ++ later.flatMap urisOf = uri :: (more ++ later.flatMap urisOf) := by
      rw [urisOf, hfirst]
      rfl
    have halone : (∀ x ∈ (first :: later).head?, ∃ u,
        parseRr x = some [u] ∧ fproxyLr u = some (hasLr u)) ↔ more = [] ∧ lr = hasLr uri := by
      simp only [head?_cons, mem_some_iff, forall_eq', hfirst, some.injEq, List.cons.injEq]
      constructor
      · rintro ⟨u, ⟨rfl, rfl⟩, hlr'⟩
        exact ⟨rfl, some.inj (hlr.symm.trans hlr')⟩
      · rintro ⟨rfl, rfl⟩
        exact ⟨uri, ⟨rfl, rfl⟩, hlr⟩
    rw [halone, flatMap_cons, huris]
    cases lr with
    | true =>
      cases hloose : hasLr uri with
      | true =>
        rw [subsequent_of_lr hloose]
        simp only [if_true, getD_some, true_and, and_true]
        constructor
        · exact orEmpty_routeText_inj (cons_ne_nil uri _)
        · rintro rfl
          rfl
      | false =>
        -- the next hop is a URI with `lr`, which `.` is not
        rw [subsequent_of_strict hloose]
        simp only [if_true, getD_none]
        refine iff_of_false ?_ (by simp)
        rintro ⟨-, -, rfl⟩
        rw [fproxyLr_emptyParam] at hlr
        cases hlr
    | false =>
      cases hloose : hasLr uri with
      | true =>
        rw [subsequent_of_lr hloose]
        simp only [Bool.false_eq_true, if_false, getD_some]
        refine iff_of_false ?_ (by simp)
        rintro ⟨-, -, rfl⟩
        rw [hasLr_emptyParam] at hloose
        cases hloose
      | false =>
        rw [subsequent_of_strict hloose]
        simp only [Bool.false_eq_true, if_false, getD_none, true_and, and_true]
        constructor
        · intro hroute
          have hne : [] ++ (later.flatMap urisOf ++ [req.target]) ≠ [] := by
            simp
          refine orEmpty_routeText_inj hne ?_
          simpa using hroute
        · rintro rfl
          rfl

/-! ## The newlines -/

/-- What the single lines are made of has no newlines: no folded From, To or
Call-ID, and no URI or value to append that goes over a line. -/
structure OneLine (req : Request) (twi : TwInfo) : Prop where
  action : lf ∉ twi.action
  fromBody : lf ∉ req.fromBody
  toBody : lf ∉ req.toBody
  callid : lf ∉ req.callid
  target : lf ∉ req.target
  routeSet : ∀ uri ∈ req.routeSet, lf ∉ uri
  elems : ∀ ha ∈ twi.elems, ∀ value, req.elemValue ha.elem = some value →
    lf ∉ ha.title ∧ lf ∉ value

theorem lf_mem_orEmpty {s : Bytes} : lf ∈ orEmpty s ↔ lf ∈ s := by
  have hempty : lf ∉ emptyParam := by decide
  unfold orEmpty
  split_ifs with h
  · simp [h, hempty]
  · rfl

theorem lf_int2str (n : ℕ) : lf ∉ int2str n := by
  have hdigit : ∀ d < 10, UInt8.ofNat (d + 48) ≠ lf := by decide
  have hzero : lf ∉ ascii "0" := by decide
  unfold int2str Dialog.printNat
  split_ifs with h
  · exact hzero
  · simp only [List.mem_map, mem_reverse, not_exists, not_and]
    exact fun d hd => hdigit d (Nat.digits_lt_base (by decide) hd)

theorem lf_flagsHex (req : Request) : lf ∉ (flagsHex req).getD [] := by
  have hdigit : ∀ d < 16, lf ≠ hexDigit d := by decide
  have hloop : ∀ size nr, lf ∉ (int2reverseHexLoop size nr).1 := by
    intro size nr hmem
    obtain ⟨d, hd, hsame⟩ := mem_int2reverseHexLoop lf hmem
    exact hdigit d hd hsame
  unfold flagsHex int2reverseHex
  dsimp only
  split_ifs
  · simpa using hdigit 0 (by decide)
  · simp
  · simpa using hloop _ _

/-- The newlines of the routing are those of the remote target and of the route
set. -/
theorem lf_subsequent (target : Bytes) (uris : List Bytes) :
    (lf ∉ (subsequent target uris).requestUri ∧ lf ∉ routeText (subsequent target uris).route ∧
        lf ∉ (subsequent target uris).nextHop.getD emptyParam) ↔
      lf ∉ target ∧ ∀ uri ∈ uris, lf ∉ uri := by
  have hempty : lf ∉ emptyParam := by decide
  rw [lf_mem_routeText]
  cases uris with
  | nil => simp [subsequent, hempty]
  | cons uri rest =>
    cases hlr : hasLr uri with
    | true =>
      rw [subsequent_of_lr hlr]
      simp only [forall_mem_cons, getD_some, not_exists, not_and]
      tauto
    | false =>
      rw [subsequent_of_strict hlr]
      simp only [forall_mem_cons, forall_mem_append, getD_none,
        hempty, not_exists, not_and, not_mem_nil]
      tauto

theorem lf_elemLines : (∀ s ∈ elemLines req twi.elems, lf ∉ s) ↔
      ∀ ha ∈ twi.elems, ∀ value, req.elemValue ha.elem = some value →
        lf ∉ ha.title ∧ lf ∉ value := by
  have hcolon : lf ∉ ascii ": " := by decide
  unfold elemLines
  simp only [mem_filterMap, map_eq_some_iff]
  constructor
  · intro h ha hmem value hvalue
    have hline := h _ ⟨ha, hmem, value, hvalue, rfl⟩
    simp only [mem_append, not_or] at hline
    exact ⟨hline.1.1, hline.2⟩
  · rintro h s ⟨ha, hmem, value, hvalue, rfl⟩
    obtain ⟨htitle, hline⟩ := h ha hmem value hvalue
    simp only [mem_append, not_or]
    exact ⟨⟨htitle, hcolon⟩, hline⟩

theorem Made.lines_iff (h : Made req twi out r) (halone : FirstAlone req) :
    (∀ s ∈ out.lines, lf ∉ s) ↔
      (lf ∉ twi.action ∧ lf ∉ req.fromBody ∧ lf ∉ req.toBody ∧ lf ∉ req.callid) ∧
        lf ∉ req.target ∧ ∀ uri ∈ req.routeSet, lf ∉ uri := by
  obtain ⟨huri, hroute, hhop⟩ :=
    (h.describes_iff _).mp (h.routeSet_iff.mpr halone)
  have hcuts := req.oneLine
  simp only [forall_mem_cons, not_mem_nil, false_implies, implies_true, and_true] at hcuts
  obtain ⟨hmethod, hruri, huser, hhost, haddress, hport, hcseq⟩ := hcuts
  have hconst : lf ∉ ascii "0.3" ∧ lf ∉ ascii "sip_request." ∧ lf ∉ ascii ":" ∧
      lf ∉ emptyParam := by decide
  have hportLine : lf ∉ if req.dstPort = 5060 then emptyParam else req.portNoStr := by
    split_ifs
    · exact hconst.2.2.2
    · exact hport
  have hfromTag : lf ∉ req.fromBody → lf ∉ req.fromTag :=
    fun hbody htag => hbody (req.fromTagIn.subset htag)
  have htoTag : lf ∉ req.toBody → lf ∉ req.toTag :=
    fun hbody htag => hbody (req.toTagIn.subset htag)
  rw [← lf_subsequent, h.lines, huri, hroute, hhop]
  simp only [forall_mem_cons, not_mem_nil, false_implies,
    implies_true, and_true, mem_append, not_or, lf_mem_orEmpty, lf_int2str,
    not_false_eq_true, hconst, hmethod, hruri, huser, hhost, hportLine, haddress,
    hcseq, true_and]
  tauto

/-- The newlines of all lines in front of the body. -/
theorem Made.singleLines_iff (h : Made req twi out r) (halone : FirstAlone req) :
    (∀ s ∈ singleLines req twi out, lf ∉ s) ↔ OneLine req twi := by
  have hflags : lf ∉ flagsLine req := by
    have hname : lf ∉ ascii "P-MsgFlags: " := by decide
    simp only [flagsLine, mem_append, not_or]
    exact ⟨hname, lf_flagsHex req⟩
  have hempty : lf ∉ emptyParam := by decide
  have hsplit : (∀ s ∈ singleLines req twi out, lf ∉ s) ↔
      (∀ s ∈ out.lines, lf ∉ s) ∧ ∀ s ∈ elemLines req twi.elems, lf ∉ s := by
    unfold singleLines
    simp only [forall_mem_append, forall_mem_cons, hflags, hempty,
      not_mem_nil, false_implies, implies_true, and_true, not_false_eq_true,
      true_and]
  rw [hsplit, h.lines_iff halone, lf_elemLines]
  constructor
  · rintro ⟨⟨⟨haction, hfrom, hto, hcallid⟩, htarget, huris⟩, helems⟩
    exact ⟨haction, hfrom, hto, hcallid, htarget, huris, helems⟩
  · intro hone
    exact ⟨⟨⟨hone.action, hone.fromBody, hone.toBody, hone.callid⟩, hone.target,
      hone.routeSet⟩, hone.elems⟩

/-! ## The contract -/

/-- The application reads what was put into the lines, and is told the route
set of the request. -/
structure Conveys (req : Request) (twi : TwInfo) (out : Assembled) : Prop where
  oneLine : ∀ s ∈ singleLines req twi out, lf ∉ s
  read : readLines (singleLines req twi out).length out.text =
    (singleLines req twi out, out.body ++ [lf])
  routeSet : Describes out (subsequent req.target req.routeSet)

/-- `assemble_msg` conveys the request exactly when the first Record-Route header
field has one URI only and nothing goes over a line. -/
theorem assemble_msg_conveys_iff (h : assembleMsg req twi = some out) :
    Conveys req twi out ↔ FirstAlone req ∧ OneLine req twi := by
  obtain ⟨r, hmade⟩ := assembleMsg_made h
  constructor
  · intro hconveys
    have halone := hmade.routeSet_iff.mp hconveys.routeSet
    exact ⟨halone, (hmade.singleLines_iff halone).mp hconveys.oneLine⟩
  · rintro ⟨halone, hone⟩
    have hlines := (hmade.singleLines_iff halone).mpr hone
    refine ⟨hlines, ?_, hmade.routeSet_iff.mpr halone⟩
    rw [hmade.text]
    exact readLines_joinLines hlines _

/-- An `ACK` with these Record-Route header fields. -/
def ackRequest (recordRoute : List Bytes) : Request where
  method := ascii "ACK"
  uri := ascii "sip:u@h"
  parsedUser := ascii "u"
  parsedHost := ascii "h"
  addressStr := ascii "10.0.0.1"
  portNoStr := ascii "5060"
  dstPort := 5060
  isInvite := false
  contact := some (ascii "sip:c@h")
  fromBody := ascii "<sip:f@h>;tag=1"
  fromUri := ascii "sip:f@h"
  fromTag := ascii "1"
  toBody := ascii "<sip:t@h>"
  toTag := []
  callid := ascii "i"
  cseqNumber := ascii "1"
  hashIndex := 1
  label := 2
  headers := recordRoute.map fun body =>
    ⟨hdrRecordRoute, ascii "Record-Route", body⟩
  avps := fun _ => none
  msgFlags := 0
  body := none
  oneLine := by decide
  fromTagIn := by decide
  toTagIn := by decide

/-- Two header fields with one URI each. -/
def twoHeaders : Request := ackRequest [ascii "<sip:a;lr>", ascii "<sip:b;lr>"]

/-- One header field with both. -/
def oneHeader : Request := ackRequest [ascii "<sip:a;lr>,<sip:b;lr>"]

theorem assemble_msg_conveys_two_headers :
    ∃ out, assembleMsg twoHeaders ⟨ascii "x", none⟩ = some out ∧
      Conveys twoHeaders ⟨ascii "x", none⟩ out := by
  have hsome : (assembleMsg twoHeaders ⟨ascii "x", none⟩).isSome := by
    decide
  obtain ⟨out, hout⟩ := isSome_iff_exists.mp hsome
  refine ⟨out, hout, (assemble_msg_conveys_iff hout).mpr ⟨?_, ?_⟩⟩
  · intro first hfirst
    have hhead : twoHeaders.recordRoute.head? = some (ascii "<sip:a;lr>") := by
      decide
    rw [hhead, mem_some_iff] at hfirst
    subst hfirst
    exact ⟨ascii "sip:a;lr", by decide, by decide⟩
  · exact ⟨by decide, by decide, by decide, by decide, by decide,
      by decide, fun ha hmem => by cases hmem⟩

/-- The second URI of the header field is not in the route. -/
theorem assemble_msg_one_header : ∃ out, assembleMsg oneHeader ⟨ascii "x", none⟩ = some out ∧
      ¬Conveys oneHeader ⟨ascii "x", none⟩ out := by
  have hrun : (assembleMsg oneHeader ⟨ascii "x", none⟩).any (fun out =>
      decide (out.lines[16]? = some (ascii "<sip:a;lr>"))) = true := by
    decide
  obtain ⟨out, hout, hline⟩ := Option.any_eq_true _ _ |>.mp hrun
  refine ⟨out, hout, fun hconveys => ?_⟩
  have hroute := hconveys.routeSet.2.1
  rw [of_decide_eq_true hline, some.injEq] at hroute
  revert hroute
  decide

end Msicp.Tm
