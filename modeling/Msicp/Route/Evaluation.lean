import Msicp.Route.Expr

/-!
# Evaluating a condition

Every element returns a truth value or a negative code, so the results of
`eval_expr` are those of short-circuit evaluation with the elements as they are.
They are those with the meaning of the elements exactly if that evaluation
meets no mistaken comparison.
-/

namespace Msicp.Route

open Support (Bytes Formula Outcome Visit Yields exists_yields)

variable {R N A X : Type}

/-! ## Return values -/

/-- A truth value or a negative code. -/
def Legal (ret : ℤ) : Prop :=
  ret = 0 ∨ ret = 1 ∨ ret < 0

theorem legal_ofBool (b : Bool) : Legal (ofBool b) := by
  cases b
  · exact .inl rfl
  · exact .inr (.inl rfl)

theorem legal_of_neg {ret : ℤ} (h : ret < 0) : Legal ret := .inr (.inr h)

theorem legal_error : Legal (-1) := legal_of_neg (by decide)

theorem legal_eBug : Legal eBug := legal_of_neg (by decide)

theorem legal_compNo (port : ℤ) (param : Param R N) (op : CmpOp) :
    Legal (compNo port param op) := by
  unfold compNo
  split
  · split
    all_goals first
      | exact legal_ofBool _
      | exact legal_eBug
  · exact legal_eBug

variable (env : Env R N A X) (recLev : ℕ) (ip : IpAddr) (param : Param R N) (op : CmpOp)

theorem legal_compStrstr (str : Bytes)
    (param : Param R N) (op : CmpOp) : Legal (compStrstr env str param op) := by
  unfold compStrstr
  split
  · exact legal_ofBool _
  · exact legal_ofBool _
  · exact legal_ofBool _
  · exact legal_error

theorem legal_compStr (str : CStr) (param : Param R N)
    (op : CmpOp) : Legal (compStr env str param op) := by
  unfold compStr
  split
  · exact legal_ofBool _
  · exact legal_ofBool _
  · exact legal_ofBool _
  · exact legal_error

theorem legal_checkSelfOp (s : Bytes) (p : ℕ) : Legal (checkSelfOp env op s p) := by
  cases op with
  | equal => exact legal_ofBool _
  | diff => exact legal_ofBool _
  | _ => exact legal_error

theorem legal_compAddrs (hs : List Bytes) {ret : ℤ}
    (hret : Legal ret) : Legal (compAddrs ip ret hs) := by
  induction hs generalizing ret with
  | nil => exact hret
  | cons h hs ih =>
    unfold compAddrs
    split
    · exact hret
    · exact ih (legal_ofBool _)

theorem legal_compAliases (hs : List CStr) {ret : ℤ} (hret : Legal ret) :
    Legal (compAliases env param op ret hs) := by
  induction hs generalizing ret with
  | nil => exact hret
  | cons h hs ih =>
    unfold compAliases
    split
    · exact hret
    · exact ih (legal_compStr env h param op)

theorem legal_compIpName : Legal (compIpName env ip param op) := by
  have hret := legal_compStr env (env.ipAddr2a ip) param op
  unfold compIpName
  extract_lets ret ret'
  have hret' : Legal ret' := by
    unfold ret'
    repeat' split
    · exact legal_compAddrs ip _ hret
    all_goals exact hret
  split
  · exact hret
  split
  · exact hret'
  split
  · exact .inl rfl
  · exact legal_compAliases env param op _ (legal_compStr env _ param op)

theorem legal_negate {ret : ℤ} (h : Legal ret) : Legal (negate ret) := by
  unfold negate
  split
  · exact legal_ofBool _
  · exact h

theorem legal_compIp : Legal (compIp env ip param op) := by
  unfold compIp
  split
  · split
    · exact legal_ofBool _
    · exact legal_ofBool _
    · exact legal_error
  · split
    · exact legal_compIpName env ip _ _
    · exact legal_compIpName env ip _ _
    · exact legal_negate (legal_compIpName env ip _ _)
    · exact legal_error
  · split
    · exact legal_compIpName env ip _ _
    · exact legal_compIpName env ip _ _
    · exact legal_negate (legal_compIpName env ip _ _)
    · exact legal_error
  · exact legal_checkSelfOp env op _ _
  · exact legal_error

theorem legal_headerUri (param : Param R N) (msg : SipMsg X) (uri : Option Bytes) :
    Legal (evalStr.headerUri env op param msg uri).1 := by
  unfold evalStr.headerUri
  split
  · exact legal_error
  split
  · split
    · exact legal_error
    · exact legal_checkSelfOp env op _ _
  · exact legal_compStrstr env _ param op

theorem legal_evalStr (operand : StrOperand) (op : CmpOp) (param : Param R N) (msg : SipMsg X) :
    Legal (evalStr env operand op param msg).1 := by
  cases operand with
  | method => exact legal_compStrstr env _ param op
  | uri =>
    simp only [evalStr]
    split
    · split
      · exact legal_error
      · exact legal_checkSelfOp env op _ _
    · exact legal_compStrstr env _ param op
  | fromUri => exact legal_headerUri env op param msg _
  | toUri => exact legal_headerUri env op param msg _

theorem legal_evalNode (n : Node R N A) (msg : SipMsg X) : Legal (evalNode env recLev n msg).1 := by
  cases n with
  | unknown => exact legal_error
  | elem e =>
    cases e with
    | str operand op param => exact legal_evalStr env operand op param msg
    | ip operand op param => exact legal_compIp env _ param op
    | int operand op param => exact legal_compNo _ param op
    | number intval => exact legal_ofBool _
    | other => exact legal_eBug
    | action actions =>
      simp only [evalNode, evalElem]
      split
      · split
        · exact legal_of_neg (by decide)
        · exact .inl rfl
      · exact .inr (.inl rfl)

/-! ## The run -/

/-- An evaluation is that of the formula with the given leaves. -/
def Eval.Follows (run : Eval R N A X)
    (leaf : ℕ → Node R N A → SipMsg X → Outcome ℤ × SipMsg X) (recLev : ℕ)
    (e : Expr R N A) (msg : SipMsg X) : Prop :=
  Legal run.ret ∧ Yields leaf recLev e msg run.visits (outcome run.ret) run.msg

theorem outcome_of_neg {ret : ℤ} (h : ret < 0) : outcome ret = .stop ret := by
  unfold outcome
  rw [if_neg (by omega), if_neg (by omega)]

/-- `eval_expr` evaluates an expression that is not too deep from left to
right, no further than needed, with the leaves as they are. -/
theorem evalExpr_follows (e : Expr R N A) (recLev : ℕ)
    (msg : SipMsg X) (hdepth : recLev + e.depth < maxRecLev) :
    (evalExpr env recLev e msg).Follows (leafOf env) (recLev + 1) e msg := by
  induction e generalizing recLev msg with
  | atom n =>
    have hlev : ¬ recLev + 1 > maxRecLev := by
      simp only [Formula.depth] at hdepth
      omega
    simp only [evalExpr, if_neg hlev]
    exact ⟨legal_evalNode env _ n msg, .atom rfl⟩
  | and l r ihl ihr =>
    simp only [Formula.depth] at hdepth
    have hlev : ¬ recLev + 1 > maxRecLev := by omega
    obtain ⟨hlegal, hl⟩ := ihl (recLev + 1) msg (by omega)
    simp only [evalExpr, if_neg hlev]
    rcases hlegal with h | h | h
    · rw [h] at hl
      rw [if_pos (by omega)]
      exact ⟨.inl h, h ▸ .andFalse hl⟩
    · rw [h] at hl
      rw [if_neg (by omega)]
      obtain ⟨hlegal', hr⟩ := ihr (recLev + 1) (evalExpr env (recLev + 1) l msg).msg (by omega)
      exact ⟨hlegal', .andTrue hl hr⟩
    · rw [outcome_of_neg h] at hl
      rw [if_pos (by omega)]
      exact ⟨legal_of_neg h, outcome_of_neg h ▸ .andStop hl⟩
  | or l r ihl ihr =>
    simp only [Formula.depth] at hdepth
    have hlev : ¬ recLev + 1 > maxRecLev := by omega
    obtain ⟨hlegal, hl⟩ := ihl (recLev + 1) msg (by omega)
    simp only [evalExpr, if_neg hlev]
    rcases hlegal with h | h | h
    · rw [h] at hl
      rw [if_neg (by omega)]
      obtain ⟨hlegal', hr⟩ := ihr (recLev + 1) (evalExpr env (recLev + 1) l msg).msg (by omega)
      exact ⟨hlegal', .orFalse hl hr⟩
    · rw [h] at hl
      rw [if_pos (by omega)]
      exact ⟨.inr (.inl h), h ▸ .orTrue hl⟩
    · rw [outcome_of_neg h] at hl
      rw [if_pos (by omega)]
      exact ⟨legal_of_neg h, outcome_of_neg h ▸ .orStop hl⟩
  | not l ih =>
    simp only [Formula.depth] at hdepth
    have hlev : ¬ recLev + 1 > maxRecLev := by omega
    obtain ⟨hlegal, hl⟩ := ih (recLev + 1) msg (by omega)
    simp only [evalExpr, if_neg hlev]
    rcases hlegal with h | h | h
    · rw [h] at hl
      rw [if_neg (by omega), h]
      exact ⟨.inr (.inl rfl), .notVal hl⟩
    · rw [h] at hl
      rw [if_neg (by omega), h]
      exact ⟨.inl rfl, .notVal hl⟩
    · rw [outcome_of_neg h] at hl
      rw [if_pos h]
      exact ⟨legal_of_neg h, outcome_of_neg h ▸ .notStop hl⟩

/-! ## The meaning of a condition -/

/-- `eval_expr` does with the expression what it means: it returns 1 or 0 by
short-circuit evaluation, or the code at which that ends, it has evaluated the
operands that this evaluation needs, each with the outcome that it means, and
leaves the same message. -/
def Meets (env : Env R N A X) (recLev : ℕ) (e : Expr R N A) (msg : SipMsg X) : Prop :=
  (evalExpr env recLev e msg).Follows (meaning env) (recLev + 1) e msg

/-- Short-circuit evaluation by meaning comes upon no comparison of mistaken
strings. -/
def ComparesExactly (env : Env R N A X) (recLev : ℕ) (e : Expr R N A) (msg : SipMsg X) : Prop :=
  ∀ visits out msg', Yields (meaning env) (recLev + 1) e msg visits out msg' →
    ∀ v ∈ visits, Exact v.operand v.state

theorem leafOf_snd (n : Node R N A) (msg : SipMsg X) :
    (leafOf env recLev n msg).2 = (meaning env recLev n msg).2 := by
  unfold meaning
  split
  · rw [(leafOf_literal env recLev _ _ msg).1]
  · rw [(leafOf_literal env recLev _ _ msg).2]
  · rfl

/-- On a tree that is not too deep `eval_expr` does what the tree means exactly
if no comparison of mistaken strings is needed for that. -/
theorem evalExpr_meets_iff (env : Env R N A X) (recLev : ℕ) (e : Expr R N A)
    (msg : SipMsg X) (hdepth : recLev + e.depth < maxRecLev) :
    Meets env recLev e msg ↔ ComparesExactly env recLev e msg := by
  obtain ⟨hlegal, hrun⟩ := evalExpr_follows env e recLev msg hdepth
  constructor
  · rintro ⟨-, hmeans⟩ visits out msg' hyields v hv
    obtain ⟨rfl, -, -⟩ := hmeans.det hyields
    refine (leafOf_eq_meaning_iff env v.depth v.operand v.state).mp ?_
    have hout := (hrun.visit hv).symm.trans (hmeans.visit hv)
    exact Prod.ext hout (leafOf_snd env _ _ _)
  · intro hexact
    obtain ⟨visits, out, msg', hyields⟩ :=
      exists_yields (meaning env) e (recLev + 1) msg
    have hleaf : Yields (leafOf env) (recLev + 1) e msg visits out msg' :=
      hyields.congr fun v hv =>
        (leafOf_eq_meaning_iff env v.depth v.operand v.state).mpr
          (hexact visits out msg' hyields v hv)
    obtain ⟨rfl, rfl, rfl⟩ := hrun.det hleaf
    exact ⟨hlegal, hyields⟩

/-! ## The statement `if` -/

/-- What `if` does behind a condition with the given outcome. -/
def branch (env : Env R N A X) (recLev : ℕ) (a : IfAction R N A)
    (out : Outcome ℤ) (msg : SipMsg X) : ℤ × SipMsg X :=
  match out with
  | .val true => runBranch env recLev a.thenActions msg
  | .val false => runBranch env recLev a.elseActions msg
  -- a condition that drops ends the script, one that fails counts as false
  | .stop code =>
    if code = exprDrop then (0, msg)
    else runBranch env recLev a.elseActions msg

theorem doIf_eq_branch (a : IfAction R N A)
    (e : Expr R N A) (hcond : a.cond = some e) (msg : SipMsg X)
    (hlegal : Legal (evalExpr env recLev e msg).ret) :
    doIf env recLev a msg = branch env recLev a (outcome (evalExpr env recLev e msg).ret)
        (evalExpr env recLev e msg).msg := by
  simp only [doIf, hcond]
  rcases hlegal with h | h | h
  · rw [h]
    rfl
  · rw [h]
    rfl
  · rw [outcome_of_neg h, if_neg (not_lt.mpr h.le)]
    rfl

/-- `if` takes the branch that its condition means, if no comparison of
mistaken strings is needed for that. -/
theorem doIf_of_comparesExactly (a : IfAction R N A) (e : Expr R N A) (hcond : a.cond = some e)
    (msg msg' : SipMsg X) (hdepth : recLev + e.depth < maxRecLev)
    (hexact : ComparesExactly env recLev e msg)
    {visits : List (Visit (Node R N A) (SipMsg X) ℤ)} {out : Outcome ℤ}
    (hmeans : Yields (meaning env) (recLev + 1) e msg visits out msg') :
    doIf env recLev a msg = branch env recLev a out msg' := by
  obtain ⟨hlegal, hrun⟩ := evalExpr_follows env e recLev msg hdepth
  have hleaf : Yields (leafOf env) (recLev + 1) e msg visits out msg' :=
    hmeans.congr fun v hv => (leafOf_eq_meaning_iff env v.depth v.operand v.state).mpr
      (hexact visits out msg' hmeans v hv)
  obtain ⟨-, hout, hmsg⟩ := hrun.det hleaf
  rw [doIf_eq_branch env recLev a e hcond msg hlegal, hout, hmsg]

/-! ## A method that begins like another -/

/-- An environment in which nothing matches and actions do nothing. -/
def emptyEnv : Env Unit Unit Unit Unit where
  regexec _ _ := false
  matchnet _ _ := false
  ipAddr2a _ := ⟨[], by decide⟩
  resolvehost _ := none
  revResolvehost _ := none
  checkSelf _ _ := false
  runActions _ _ msg := (1, msg)

/-- A request with the given method. -/
def requestOf (method : Bytes) : SipMsg Unit where
  method := method
  uri := Support.ascii "sip:a"
  newUri := none
  fromUri := some (Support.ascii "sip:b")
  toUri := some (Support.ascii "sip:a")
  parsedUri := none
  srcIp := ⟨2, [127, 0, 0, 1]⟩
  dstIp := ⟨2, [127, 0, 0, 1]⟩
  srcPort := 5060
  dstPort := 5060
  proto := 1
  len := 100
  rest := ()

/-- `method == "INVITE"` -/
def isInvite : Expr Unit Unit Unit :=
  .atom (.elem (.str .method .equal (.string ⟨Support.ascii "INVITE", by decide⟩)))

/-- The method `INV` passes for `INVITE`. -/
theorem inv_is_invite : isInvite.depth < maxRecLev ∧
      (evalExpr emptyEnv 0 isInvite (requestOf (Support.ascii "INV"))).ret = 1 ∧
      ¬ Meets emptyEnv 0 isInvite (requestOf (Support.ascii "INV")) := by
  refine ⟨by decide, by decide, fun hmeets => ?_⟩
  have hvisit := hmeets.2.visit (List.mem_singleton.mpr rfl)
  revert hvisit
  decide

/-- `OPTIONS` is told from `INVITE`. -/
theorem options_is_not_invite : Meets emptyEnv 0 isInvite (requestOf (Support.ascii "OPTIONS")) ↔
      ComparesExactly emptyEnv 0 isInvite (requestOf (Support.ascii "OPTIONS")) :=
  evalExpr_meets_iff emptyEnv 0 isInvite (requestOf (Support.ascii "OPTIONS")) (by decide)

/-- `if (!1)` on a request. -/
theorem doIf_of_comparesExactly_not : ∃ out msg',
    doIf emptyEnv 0 ⟨some (.not (.atom (.elem (.number 1)))), none, none⟩ (requestOf []) =
      branch emptyEnv 0 ⟨some (.not (.atom (.elem (.number 1)))), none, none⟩ out msg' := by
  obtain ⟨visits, out, msg', hmeans⟩ := exists_yields (meaning emptyEnv)
    (.not (.atom (.elem (.number 1)))) 1 (requestOf [])
  refine ⟨out, msg', doIf_of_comparesExactly emptyEnv 0 _ _ rfl _ _ (by decide) ?_ hmeans⟩
  intro visits out msg' h v hv
  cases h with
  | notStop h =>
    cases h
    obtain rfl := List.mem_singleton.mp hv
    trivial
  | notVal h =>
    cases h
    obtain rfl := List.mem_singleton.mp hv
    trivial

end Msicp.Route
