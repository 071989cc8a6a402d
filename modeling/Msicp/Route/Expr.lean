import Msicp.Parser.ParseUri
import Msicp.Support.ShortCircuit
import Mathlib.Tactic.SplitIfs
import Msicp.Avp.Search

/-!
# Expressions of the routing script (`route.c`)

A condition of the script is a tree over elements, each of which compares some
part of the message or runs a list of actions.  What the elements need from
elsewhere (regular expressions, name resolution, the list of sockets, the
actions) is given by an environment.

A node whose type or operator `eval_expr` does not know is a leaf here.
`visits` of an evaluation records the elements that were evaluated; nothing
reads it.
-/

namespace Msicp.Route

open Support (Bytes Formula Outcome Visit)
open Msicp.Parser (SipUri parseUri)
open Avp (tolower)

def maxRecLev : ℕ := 100

def sipPort : ℕ := 5060

def exprDrop : ℤ := -127

def eBug : ℤ := -5

/-- The comparison operators. -/
inductive CmpOp
  | equal
  | match
  | gt
  | lt
  | gte
  | lte
  | diff
  | noOp

/-- The operands that are strings of the message. -/
inductive StrOperand
  | method
  | uri
  | fromUri
  | toUri

/-- The operands that are addresses. -/
inductive IpOperand
  | srcip
  | dstip

/-- The operands that are numbers of the message. -/
inductive IntOperand
  | srcport
  | dstport
  | proto
  | af
  | msglen

/-- A string without zero bytes; the zero byte behind it is left out. -/
structure CStr where
  bytes : Bytes
  noZero : 0 ∉ bytes

/-- `struct ip_addr` -/
structure IpAddr where
  af : ℕ
  addr : Bytes

/-- `struct hostent` -/
structure HostEnt where
  addrtype : ℕ
  addrList : List Bytes
  name : CStr
  aliases : List CStr

/-- What an operand is compared with: `subtype` and `r.param`. -/
inductive Param (R N : Type)
  | string (s : CStr)
  | re (r : R)
  | net (n : N)
  | number (n : ℤ)
  | myself
  | other

/-- An element, by its operand. -/
inductive Elem (R N A : Type)
  | str (operand : StrOperand) (op : CmpOp) (param : Param R N)
  | ip (operand : IpOperand) (op : CmpOp) (param : Param R N)
  | int (operand : IntOperand) (op : CmpOp) (param : Param R N)
  | number (intval : ℤ)
  | action (actions : A)
  | other

/-- A leaf of an expression. -/
inductive Node (R N A : Type)
  | elem (e : Elem R N A)
  | unknown

/-- `struct expr` -/
abbrev Expr (R N A : Type) := Formula (Node R N A)

/-- The parts of `struct sip_msg` that are compared.  `fromUri` is the URI in
the From header, missing if there is none or it cannot be parsed; `toUri`
likewise.  `parsedUri` is there if `parsed_uri_ok`, with the text that was
parsed.  In a reply the first line has the version and the status in place of
method and URI. -/
structure SipMsg (X : Type) where
  method : Bytes
  uri : Bytes
  newUri : Option Bytes
  fromUri : Option Bytes
  toUri : Option Bytes
  parsedUri : Option (Bytes × SipUri)
  srcIp : IpAddr
  dstIp : IpAddr
  srcPort : ℕ
  dstPort : ℕ
  proto : ℕ
  len : ℕ
  rest : X

/-- What the evaluation takes from elsewhere.  `runActions` is told how deep
the expression is, since the actions may evaluate others. -/
structure Env (R N A X : Type) where
  regexec : R → Bytes → Bool
  matchnet : IpAddr → N → Bool
  ipAddr2a : IpAddr → CStr
  resolvehost : CStr → Option HostEnt
  revResolvehost : IpAddr → Option HostEnt
  checkSelf : Bytes → ℕ → Bool
  runActions : ℕ → A → SipMsg X → ℤ × SipMsg X

variable {R N A X : Type}

/-! ## Comparing -/

/-- A truth value of C. -/
def ofBool (b : Bool) : ℤ := if b then 1 else 0

/-- `strncasecmp`, on a string that may be longer than `n` and one that ends
with a zero byte. -/
def strncasecmp : ℕ → Bytes → Bytes → ℤ
  | 0, _, _ => 0
  | n + 1, s, t =>
    let a := tolower (s.headD 0)
    let b := tolower (t.headD 0)
    if a ≠ b then (a.toNat : ℤ) - b.toNat
    else if a = 0 then 0
    else strncasecmp n s.tail t.tail

def compNo (port : ℤ) (param : Param R N) (op : CmpOp) : ℤ :=
  match param with
  | .number n =>
    match op with
    | .equal => ofBool (port = n)
    | .diff => ofBool (port ≠ n)
    | .gt => ofBool (n < port)
    | .lt => ofBool (port < n)
    | .gte => ofBool (n ≤ port)
    | .lte => ofBool (port ≤ n)
    | .match | .noOp => eBug
  | _ => eBug

def compStrstr (env : Env R N A X) (str : Bytes) (param : Param R N) (op : CmpOp) : ℤ :=
  match op, param with
  | .equal, .string t => ofBool (strncasecmp str.length str t.bytes = 0)
  | .diff, .string t => ofBool (strncasecmp str.length str t.bytes ≠ 0)
  -- the expression is matched against the string up to its first zero byte
  | .match, .re r => ofBool (env.regexec r (str.takeWhile (· ≠ 0)))
  | _, _ => -1

/-- `comp_str`, on strings that end with a zero byte. -/
def compStr (env : Env R N A X) (str : CStr) (param : Param R N) (op : CmpOp) : ℤ :=
  match op, param with
  | .equal, .string t =>
    ofBool (strncasecmp (str.bytes.length + 1) str.bytes t.bytes = 0)
  | .diff, .string t =>
    ofBool (strncasecmp (str.bytes.length + 1) str.bytes t.bytes ≠ 0)
  | .match, .re r => ofBool (env.regexec r str.bytes)
  | _, _ => -1

def checkSelfOp (env : Env R N A X) (op : CmpOp) (s : Bytes) (p : ℕ) : ℤ :=
  let ret := env.checkSelf s p
  match op with
  | .equal => ofBool ret
  | .diff => ofBool !ret
  | _ => -1

/-- The loop over `h_addr_list`. -/
def compAddrs (ip : IpAddr) : ℤ → List Bytes → ℤ
  | ret, [] => ret
  | ret, h :: hs =>
    if ret = 1 then ret else compAddrs ip (ofBool (ip.addr = h)) hs

/-- The loop over `h_aliases`. -/
def compAliases (env : Env R N A X) (param : Param R N) (op : CmpOp) : ℤ → List CStr → ℤ
  | ret, [] => ret
  | ret, h :: hs =>
    if ret = 1 then ret
    else compAliases env param op (compStr env h param op) hs

/-- The comparison of an address with a name, for `==` and `=~`. -/
def compIpName (env : Env R N A X) (ip : IpAddr) (param : Param R N) (op : CmpOp) : ℤ :=
  let ret := compStr env (env.ipAddr2a ip) param op
  if ret = 1 then ret
  else
    let ret :=
      match param with
      | .string t =>
        match env.resolvehost t with
        | some he =>
          if he.addrtype = ip.af then compAddrs ip ret he.addrList else ret
        | none => ret
      | _ => ret
    if ret = 1 then ret
    else
      match env.revResolvehost ip with
      | none => 0
      | some he =>
        compAliases env param op (compStr env he.name param op) he.aliases

/-- `!ret`, unless it is an error. -/
def negate (ret : ℤ) : ℤ :=
  if 0 ≤ ret then ofBool (ret = 0) else ret

def compIp (env : Env R N A X) (ip : IpAddr) (param : Param R N) (op : CmpOp) : ℤ :=
  match param with
  | .net n =>
    match op with
    | .equal => ofBool (env.matchnet ip n)
    | .diff => ofBool !env.matchnet ip n
    | _ => -1
  | .string _ | .re _ =>
    match op with
    | .equal | .match => compIpName env ip param op
    | .diff => negate (compIpName env ip param .equal)
    | _ => -1
  | .myself => checkSelfOp env op (env.ipAddr2a ip).bytes 0
  | _ => -1

/-! ## Elements -/

/-- The text of a `str` that points into `buf`. -/
def textOf (buf : Bytes) (str : Parser.Str) : Bytes :=
  (buf.drop (str.s.getD 0)).take str.len

/-- `uri.port_no?uri.port_no:SIP_PORT` -/
def portOf (uri : SipUri) : ℕ :=
  if uri.portNo = 0 then sipPort else uri.portNo.toNat

/-- `check_self_op` on the host of a URI. -/
def checkUri (env : Env R N A X) (op : CmpOp) (buf : Bytes) (uri : SipUri) :
    ℤ :=
  checkSelfOp env op (textOf buf uri.host) (portOf uri)

/-- The URI the request goes to. -/
def SipMsg.currentUri (msg : SipMsg X) : Bytes := msg.newUri.getD msg.uri

def parseSipMsgUri (msg : SipMsg X) : Option (Bytes × SipUri) × SipMsg X :=
  match msg.parsedUri with
  | some parsed => (some parsed, msg)
  | none =>
    match parseUri msg.currentUri with
    | .error _ => (none, msg)
    | .ok uri =>
      let parsed := some (msg.currentUri, uri)
      (parsed, { msg with parsedUri := parsed })

/-- The cases `METHOD_O` to `TO_URI_O` of `eval_elem`. -/
def evalStr (env : Env R N A X) (operand : StrOperand) (op : CmpOp)
    (param : Param R N) (msg : SipMsg X) : ℤ × SipMsg X :=
  match operand with
  | .method => (compStrstr env msg.method param op, msg)
  | .uri =>
    match param with
    | .myself =>
      match parseSipMsgUri msg with
      | (none, msg) => (-1, msg)
      | (some (buf, uri), msg) => (checkUri env op buf uri, msg)
    | _ => (compStrstr env msg.currentUri param op, msg)
  | .fromUri => headerUri msg.fromUri
  | .toUri => headerUri msg.toUri
where
  /-- A header that is bad or missing is an error. -/
  headerUri (uri : Option Bytes) : ℤ × SipMsg X :=
    match uri with
    | none => (-1, msg)
    | some buf =>
      match param with
      | .myself =>
        match parseUri buf with
        | .error _ => (-1, msg)
        | .ok uri => (checkUri env op buf uri, msg)
      | _ => (compStrstr env buf param op, msg)

/-- The number an operand stands for. -/
def intOperand (operand : IntOperand) (msg : SipMsg X) : ℤ :=
  match operand with
  | .srcport => msg.srcPort
  | .dstport => msg.dstPort
  | .proto => msg.proto
  | .af => msg.srcIp.af
  | .msglen => msg.len

/-- The address an operand stands for. -/
def ipOperand (operand : IpOperand) (msg : SipMsg X) : IpAddr :=
  match operand with
  | .srcip => msg.srcIp
  | .dstip => msg.dstIp

/-- `eval_elem`, called with `rec_lev` at `recLev`. -/
def evalElem (env : Env R N A X) (recLev : ℕ) (e : Elem R N A) (msg : SipMsg X) : ℤ × SipMsg X :=
  match e with
  | .str operand op param => evalStr env operand op param msg
  | .ip operand op param => (compIp env (ipOperand operand msg) param op, msg)
  | .int operand op param => (compNo (intOperand operand msg) param op, msg)
  | .number intval => (ofBool (intval ≠ 0), msg)
  | .action actions =>
    let (ret, msg) := env.runActions recLev actions msg
    (if ret ≤ 0 then if ret = 0 then exprDrop else 0 else 1, msg)
  | .other => (eBug, msg)

/-- A leaf, at the level `recLev`. -/
def evalNode (env : Env R N A X) (recLev : ℕ) (n : Node R N A) (msg : SipMsg X) : ℤ × SipMsg X :=
  match n with
  | .elem e => evalElem env recLev e msg
  | .unknown => (-1, msg)

/-! ## Expressions -/

/-- What an evaluation returns and leaves, and the elements evaluated. -/
structure Eval (R N A X : Type) where
  ret : ℤ
  msg : SipMsg X
  visits : List (Visit (Node R N A) (SipMsg X) ℤ)

/-- The outcome a return value stands for. -/
def outcome (ret : ℤ) : Outcome ℤ :=
  if ret = 1 then .val true else if ret = 0 then .val false else .stop ret

/-- A leaf is evaluated. -/
def visit (env : Env R N A X) (recLev : ℕ) (n : Node R N A) (msg : SipMsg X) : Eval R N A X :=
  let (ret, msg') := evalNode env recLev n msg
  ⟨ret, msg', [⟨recLev, n, msg, outcome ret⟩]⟩

/-- The second operand is evaluated behind the first. -/
def Eval.andThen (a b : Eval R N A X) : Eval R N A X :=
  ⟨b.ret, b.msg, a.visits ++ b.visits⟩

/-- `eval_expr`, called with `rec_lev` at `recLev`. -/
def evalExpr (env : Env R N A X) : ℕ → Expr R N A → SipMsg X → Eval R N A X
  | recLev, .atom n, msg =>
    if recLev + 1 > maxRecLev then ⟨-1, msg, []⟩
    else visit env (recLev + 1) n msg
  | recLev, .and l r, msg =>
    if recLev + 1 > maxRecLev then ⟨-1, msg, []⟩
    else
      let a := evalExpr env (recLev + 1) l msg
      if a.ret ≠ 1 then a
      else a.andThen (evalExpr env (recLev + 1) r a.msg)
  | recLev, .or l r, msg =>
    if recLev + 1 > maxRecLev then ⟨-1, msg, []⟩
    else
      let a := evalExpr env (recLev + 1) l msg
      if a.ret ≠ 0 then a
      else a.andThen (evalExpr env (recLev + 1) r a.msg)
  | recLev, .not l, msg =>
    if recLev + 1 > maxRecLev then ⟨-1, msg, []⟩
    else
      let a := evalExpr env (recLev + 1) l msg
      if a.ret < 0 then a else { a with ret := ofBool (a.ret = 0) }

/-- The parameters of an `if`; a missing one is a null pointer. -/
structure IfAction (R N A : Type) where
  cond : Option (Expr R N A)
  thenActions : Option A
  elseActions : Option A

/-- The actions of a branch; the default is to continue. -/
def runBranch (env : Env R N A X) (recLev : ℕ) (actions : Option A)
    (msg : SipMsg X) : ℤ × SipMsg X :=
  match actions with
  | some actions => env.runActions recLev actions msg
  | none => (1, msg)

/-- The case `IF_T` of `do_action`. -/
def doIf (env : Env R N A X) (recLev : ℕ) (a : IfAction R N A) (msg : SipMsg X) : ℤ × SipMsg X :=
  match a.cond with
  | none => (eBug, msg)
  | some cond =>
    let v := evalExpr env recLev cond msg
    if v.ret = exprDrop then (0, v.msg)
    else if 0 < v.ret then runBranch env recLev a.thenActions v.msg
    else runBranch env recLev a.elseActions v.msg

end Msicp.Route

/-!
## What a condition of the script means

`==` on a part of the message and a string literal means equality of the whole
strings up to case, and `!=` its negation.  A condition is evaluated from left
to right, no further than its value needs, and an operand that fails or drops
ends it.

The comparison stops at the end of the part of the message.  A part that is a
proper beginning of the literal is therefore taken for equal, and so is one
that goes on behind a zero byte where the literal ends.
-/

namespace Msicp.Route

open Support (Bytes Formula Outcome Visit)
open Avp (tolower tolower_eq_zero sameName)

variable {R N A X : Type}

/-! ## Comparing with a literal -/

theorem strncasecmp_eq_zero_iff (s t : Bytes) (ht : 0 ∉ t) : strncasecmp s.length s t = 0 ↔
      s.map tolower <+: t.map tolower ∨ (t ++ [0]).map tolower <+: s.map tolower := by
  induction s generalizing t with
  | nil => simp [strncasecmp]
  | cons a s ih =>
    cases t with
    | nil =>
      by_cases ha : tolower a = 0
      · have ha0 := (tolower_eq_zero a).mp ha
        subst ha0
        simp [strncasecmp, tolower]
      · have h0 : tolower 0 = 0 := rfl
        have hne : (tolower a).toNat ≠ 0 := fun h =>
          ha (UInt8.toNat_inj.mp h)
        simpa [strncasecmp, h0, ha, List.cons_prefix_cons, Ne.symm ha] using hne
    | cons b t =>
      obtain ⟨hb, ht⟩ := not_or.mp (fun h => ht (List.mem_cons.mpr h))
      have hb' : tolower b ≠ 0 := fun h => hb ((tolower_eq_zero b).mp h).symm
      by_cases hab : tolower a = tolower b
      · simp [strncasecmp, hab, hb', ih t ht, List.cons_prefix_cons]
      · have hne : (tolower a).toNat ≠ (tolower b).toNat := fun h =>
          hab (UInt8.toNat_inj.mp h)
        simp [strncasecmp, hab, Ne.symm hab, List.cons_prefix_cons, sub_eq_zero, hne]

/-- The comparison takes `s` for the literal `t` although they differ: `s` is a
proper beginning of `t` up to case, or goes on behind `t` and a zero byte. -/
def Mistaken (s t : Bytes) : Prop :=
  (s.length < t.length ∧ s.map tolower <+: t.map tolower) ∨ (t ++ [0]).map tolower <+: s.map tolower

instance (s t : Bytes) : Decidable (Mistaken s t) :=
  inferInstanceAs (Decidable (_ ∨ _))

theorem Mistaken.not_sameName {s t : Bytes} (h : Mistaken s t) : ¬ sameName s t := by
  intro hsame
  have hlen : s.length = t.length := by
    simpa using congrArg List.length hsame
  rcases h with ⟨hlt, -⟩ | hpre
  · omega
  · have := hpre.length_le
    simp only [List.length_map, List.length_append, List.length_singleton] at this
    omega

/-- Apart from the mistaken ones, the comparison finds the equal strings. -/
theorem strncasecmp_eq_zero_iff_sameName {s : Bytes} (t : CStr) :
    strncasecmp s.length s t.bytes = 0 ↔ sameName s t.bytes ∨ Mistaken s t.bytes := by
  rw [strncasecmp_eq_zero_iff s t.bytes t.noZero]
  constructor
  · rintro (hpre | hpre)
    · rcases Nat.lt_or_ge s.length t.bytes.length with hlt | hge
      · exact .inr (.inl ⟨hlt, hpre⟩)
      · exact .inl (hpre.eq_of_length_le (by simpa using hge))
    · exact .inr (.inr hpre)
  · rintro (hsame | ⟨-, hpre⟩ | hpre)
    · exact .inl (hsame ▸ List.prefix_rfl)
    · exact .inl hpre
    · exact .inr hpre

/-! ## The meaning of an element -/

/-- The string of the message that an operand stands for. -/
def SipMsg.operandText (msg : SipMsg X) : StrOperand → Option Bytes
  | .method => some msg.method
  | .uri => some msg.currentUri
  | .fromUri => msg.fromUri
  | .toUri => msg.toUri

/-- The outcome of a comparison with a literal; a header that is bad or
missing is an error. -/
def literalOutcome (text : Option Bytes) (equal : Bool) (t : CStr) :
    Outcome ℤ :=
  match text with
  | none => .stop (-1)
  | some s => .val (if equal then sameName s t.bytes else ¬ sameName s t.bytes)

/-- What a leaf means: comparisons with a literal are about whole strings, and
everything else is what it evaluates to. -/
def meaning (env : Env R N A X) (recLev : ℕ) (n : Node R N A)
    (msg : SipMsg X) : Outcome ℤ × SipMsg X :=
  match n with
  | .elem (.str operand .equal (.string t)) =>
    (literalOutcome (msg.operandText operand) true t, msg)
  | .elem (.str operand .diff (.string t)) =>
    (literalOutcome (msg.operandText operand) false t, msg)
  | n => ((evalNode env recLev n msg).map outcome id)

/-- The leaf does not compare mistaken strings. -/
def Exact (n : Node R N A) (msg : SipMsg X) : Prop :=
  match n with
  | .elem (.str operand .equal (.string t))
  | .elem (.str operand .diff (.string t)) =>
    ∀ s ∈ msg.operandText operand, ¬ Mistaken s t.bytes
  | _ => True

/-- A leaf as it is evaluated. -/
def leafOf (env : Env R N A X) (recLev : ℕ) (n : Node R N A)
    (msg : SipMsg X) : Outcome ℤ × SipMsg X :=
  (evalNode env recLev n msg).map outcome id

theorem outcome_ofBool (b : Bool) : outcome (ofBool b) = .val b := by
  cases b <;> rfl

theorem leafOf_literal (env : Env R N A X) (recLev : ℕ) (operand : StrOperand)
    (t : CStr) (msg : SipMsg X) :
    leafOf env recLev (.elem (.str operand .equal (.string t))) msg =
        ((msg.operandText operand).elim (.stop (-1))
          (fun s => .val (strncasecmp s.length s t.bytes = 0)), msg) ∧
      leafOf env recLev (.elem (.str operand .diff (.string t))) msg =
        ((msg.operandText operand).elim (.stop (-1))
          (fun s => .val (strncasecmp s.length s t.bytes ≠ 0)), msg) := by
  cases operand with
  | method =>
    exact ⟨Prod.ext (outcome_ofBool _) rfl, Prod.ext (outcome_ofBool _) rfl⟩
  | uri =>
    exact ⟨Prod.ext (outcome_ofBool _) rfl, Prod.ext (outcome_ofBool _) rfl⟩
  | fromUri =>
    unfold leafOf evalNode evalElem evalStr evalStr.headerUri SipMsg.operandText
    cases msg.fromUri with
    | none => exact ⟨rfl, rfl⟩
    | some s =>
      exact ⟨Prod.ext (outcome_ofBool _) rfl, Prod.ext (outcome_ofBool _) rfl⟩
  | toUri =>
    unfold leafOf evalNode evalElem evalStr evalStr.headerUri SipMsg.operandText
    cases msg.toUri with
    | none => exact ⟨rfl, rfl⟩
    | some s =>
      exact ⟨Prod.ext (outcome_ofBool _) rfl, Prod.ext (outcome_ofBool _) rfl⟩

theorem leafOf_eq_meaning_iff (env : Env R N A X) (recLev : ℕ) (n : Node R N A) (msg : SipMsg X) :
    leafOf env recLev n msg = meaning env recLev n msg ↔ Exact n msg := by
  unfold meaning Exact
  split
  · rename_i operand t
    rw [(leafOf_literal env recLev operand t msg).1]
    cases msg.operandText operand with
    | none => simp [literalOutcome]
    | some s =>
      have hne := @Mistaken.not_sameName s t.bytes
      simp [literalOutcome, strncasecmp_eq_zero_iff_sameName]
      tauto
  · rename_i operand t
    rw [(leafOf_literal env recLev operand t msg).2]
    cases msg.operandText operand with
    | none => simp [literalOutcome]
    | some s =>
      have hne := @Mistaken.not_sameName s t.bytes
      simp [literalOutcome, strncasecmp_eq_zero_iff_sameName]
      tauto
  · simp_all [leafOf]

end Msicp.Route
