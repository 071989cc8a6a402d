import Msicp.To.AddressRead

/-!
# The bodies that `parse_to` reads right

Names of one word and values without quotes are found as they are.
-/

namespace Msicp.To

open Msicp.Support List
open Msicp.Avp (sameName)

variable {p q : ℕ} {eol : Eol} {rest t : Bytes}

/-- A name that is found as it is: of words, there is one, with white space
behind it. -/
def Display.Plain : Display → Prop
  | .none => True
  | .quoted q _ => q.all Qtext.isLine = true
  | .words _ more lws => more = [] ∧ lws ≠ []

def Address.Plain : Address → Prop
  | .enclosed display _ => display.Plain
  | .bare _ => True

/-- A parameter that is found as it is: without quotes, and without a value only
if it is the tag. -/
def Param.Plain (a : Param) : Prop :=
  match a.value with
  | none => sameName (ascii "tag") a.name
  | some (_, .token _, _) => True
  | some (_, .quoted _, _) => False

structure Body.Plain (b : Body) : Prop where
  address : b.address.Plain
  params : ∀ a ∈ b.params, a.Plain

/-! ## What is found -/

theorem addAll_cons (b : ToBody) (x : ToParam) (ps : List ToParam) :
    b.addAll (x :: ps) = (b.addParam x).addAll ps := rfl

theorem addAll_paramLst (b : ToBody) (ps : List ToParam) :
    (b.addAll ps).paramLst = b.paramLst ++ ps := by
  induction ps generalizing b with
  | nil => exact (append_nil _).symm
  | cons x ps ih =>
    rw [addAll_cons, ih]
    exact append_assoc _ [x] ps

theorem addAll_display (b : ToBody) (ps : List ToParam) : (b.addAll ps).display = b.display := by
  induction ps generalizing b with
  | nil => rfl
  | cons x ps ih => exact ih (b.addParam x)

theorem addAll_uri (b : ToBody) (ps : List ToParam) : (b.addAll ps).uri = b.uri := by
  induction ps generalizing b with
  | nil => rfl
  | cons x ps ih => exact ih (b.addParam x)

theorem addAll_tagValue (b : ToBody) (ps : List ToParam) : (b.addAll ps).tagValue =
      ((ps.filter fun x => x.type = .tag).getLast?.map ToParam.value).getD b.tagValue := by
  induction ps generalizing b with
  | nil => rfl
  | cons x ps ih =>
    rw [addAll_cons, ih]
    by_cases hx : x.type = .tag
    · rw [filter_cons_of_pos (by simpa using hx), getLast?_cons]
      cases hlast : (ps.filter fun x => x.type = .tag).getLast? with
      | none => simp [ToBody.addParam, hx]
      | some y => simp
    · rw [filter_cons_of_neg (by simpa using hx)]
      simp [ToBody.addParam, hx]

theorem tidy_fields (b : ToBody) :
    b.tidy.error = b.error ∧ b.tidy.uri = b.uri ∧ b.tidy.paramLst = b.paramLst ∧
      b.tidy.tagValue = b.tagValue ∧
      b.tidy.display = if b.display.len = 0 then ⟨0, 0⟩ else b.display := by
  unfold ToBody.tidy
  split_ifs with h
  · refine ⟨rfl, rfl, rfl, rfl, ?_⟩
    simp only [Str.mk.injEq, true_and]
    exact h
  · exact ⟨rfl, rfl, rfl, rfl, rfl⟩

theorem found_fields (p : ℕ) (b : Body) (eol : Eol) :
    (b.found p eol).error = false ∧ (b.found p eol).uri = b.address.uriAt p ∧
      (b.found p eol).paramLst = paramsFound (b.paramsAt p) b.params ∧
      (b.found p eol).tagValue = tagOf (b.found p eol).paramLst ∧
      (b.found p eol).display =
        if (b.address.displayFound p).len = 0 then ⟨0, 0⟩ else b.address.displayFound p := by
  obtain ⟨herror, huri, hparams, htag, hdisplay⟩ := tidy_fields
    (((b.address.found p).withBody (b.addressLength eol)).addAll
      (paramsFound (b.paramsAt p) b.params))
  rw [← Body.found] at herror huri hparams htag hdisplay
  rw [addAll_error] at herror
  rw [addAll_uri] at huri
  rw [addAll_paramLst] at hparams
  rw [addAll_tagValue] at htag
  rw [addAll_display] at hdisplay
  refine ⟨herror, huri, hparams, ?_, hdisplay⟩
  rw [htag, hparams]
  rfl

/-! ## Names -/

variable {x : Bytes} {as : List Param} {c : UInt8} {v : ToVars}

theorem IsText.length_pos {f : UInt8 → Bool} (h : IsText f x) : 0 < x.length :=
  length_pos_iff.mpr h.1

theorem isText_of_all {f : UInt8 → Bool} (h : (!x.isEmpty && x.all f) = true) :
    IsText f x := by
  rw [Bool.and_eq_true, Bool.not_eq_true', isEmpty_eq_false_iff, List.all_eq_true] at h
  exact h

theorem display_iff {a : Address} (h : a.WellFormed) (hread : a.isRead = true) (p : ℕ) :
    (if (a.displayFound p).len = 0 then ⟨0, 0⟩ else a.displayFound p) = a.displayAt p ↔
      a.Plain := by
  cases a with
  | bare uri => simp [Address.displayFound, Address.displayAt, Address.Plain]
  | enclosed display uri =>
    cases display with
    | none => simp [Address.displayFound, Display.found, Address.displayAt, Address.Plain,
        Display.Plain]
    | quoted q l =>
      have hfound : (Address.enclosed (.quoted q l) uri).displayFound p =
        sliceAt p (quoted q) := rfl
      have hne : ((sliceAt p (quoted q)).len : ℤ) ≠ 0 := by
        simp only [sliceAt, quoted, length_cons]
        omega
      rw [hfound, if_neg hne]
      exact iff_of_true rfl hread
    | words w more l =>
      obtain ⟨⟨hw, hmore⟩, -⟩ := h
      have hpos := hw.length_pos
      have hslice : (sliceAt p w).len ≠ 0 := by
        simp only [sliceAt]
        omega
      by_cases hnone : more = [] ∧ l = []
      · obtain ⟨rfl, rfl⟩ := hnone
        simp only [Address.displayFound, Display.found, Address.displayAt, Address.Plain,
          Display.Plain, Display.slice, and_self, if_true, ne_eq, not_true, and_false, iff_false]
        split_ifs with hlen
        · simp only [sliceAt, moreText, flatMap_nil, append_nil, Str.mk.injEq, not_and]
          omega
        · simp only [sliceAt, moreText, flatMap_nil, append_nil, Str.mk.injEq, not_and, ptrDiff]
          omega
      · have hfound : (Address.enclosed (.words w more l) uri).displayFound p = sliceAt p w :=
          if_neg hnone
        rw [hfound, if_neg hslice]
        simp only [Address.displayAt, Address.Plain, Display.Plain, Display.slice]
        cases more with
        | nil => simpa [moreText] using hnone
        | cons m more =>
          have hm := (hmore m mem_cons_self).2.length_pos
          simp only [sliceAt, Str.mk.injEq, true_and, List.length_append, moreText,
            flatMap_cons, reduceCtorEq, false_and, iff_false]
          omega

/-! ## Parameters -/

theorem paramIs_iff {a : Param} (hread : a.isRead = true) (p q : ℕ) :
    ParamIs p a (a.found p q) ↔ a.Plain := by
  have htype : (a.found p q).type = .tag ↔ sameName (ascii "tag") a.name :=
    named_type_eq_tag_iff (a.nameAt p) a.name
  have hname : (a.found p q).name = sliceAt (p + (lwsText a.lead).length) a.name := rfl
  obtain ⟨lead, name, behind, value⟩ := a
  cases value with
  | none =>
    have hplain : sameName (ascii "tag") name := of_decide_eq_true hread
    exact ⟨fun _ => hplain, fun _ => ⟨htype, hname, rfl⟩⟩
  | some value =>
    obtain ⟨lws, v, after⟩ := value
    cases v with
    | token tok => exact ⟨fun _ => trivial, fun _ => ⟨htype, hname, rfl⟩⟩
    | quoted x =>
      refine ⟨fun h => ?_, fun h => h.elim⟩
      have hvalue : (⟨_, (qtextText x).length - 1⟩ : Str) = ⟨_, (qtextText x).length⟩ :=
        h.value
      rw [Str.mk.injEq] at hvalue
      omega

theorem paramsAre_iff (hread : as.all Param.isRead = true) (p : ℕ) :
    ParamsAre p as (paramsFound p as) ↔ ∀ a ∈ as, a.Plain := by
  induction as generalizing p with
  | nil => simp [paramsFound, ParamsAre]
  | cons a as ih =>
    rw [all_cons, Bool.and_eq_true] at hread
    cases as with
    | nil => simpa [paramsFound, ParamsAre] using paramIs_iff hread.1 (p + 1) 0
    | cons a' as =>
      rw [paramsFound, ParamsAre, paramIs_iff hread.1, ih hread.2]
      exact forall_mem_cons.symm

theorem Body.Plain.isRead {b : Body} (h : b.Plain) : b.isRead = true := by
  rw [Body.isRead, Bool.and_eq_true, List.all_eq_true]
  obtain ⟨haddress, hparams⟩ := h
  constructor
  · obtain ⟨address, l, params⟩ := b
    cases address with
    | bare uri => rfl
    | enclosed display uri =>
      cases display with
      | none => rfl
      | quoted q l => exact haddress
      | words w more l => rfl
  · intro a ha
    have hplain := hparams a ha
    obtain ⟨lead, name, behind, value⟩ := a
    cases value with
    | none =>
      have htag : sameName (ascii "tag") name := hplain
      exact decide_eq_true htag
    | some value =>
      obtain ⟨lws, v, after⟩ := value
      cases v with
      | token tok => rfl
      | quoted x => exact hplain.elim

theorem parsed_iff {b : Body} (h : b.WellFormed) (hrest : Follows eol rest) (p : ℕ) :
    Parsed p b (parseTo (b.text ++ (eol.text ++ rest)) p).1 ↔ b.Plain := by
  have hrun := @parseTo_body p eol rest b h hrest
  split_ifs at hrun with hread
  · rw [hrun]
    obtain ⟨herror, huri, hparams, htag, hdisplay⟩ := found_fields p b eol
    have hboth := hread
    rw [Body.isRead, Bool.and_eq_true] at hboth
    constructor
    · intro hparsed
      refine ⟨(display_iff h.address hboth.1 p).mp (hdisplay.symm.trans hparsed.display), ?_⟩
      have hfound := hparsed.params
      rw [hparams] at hfound
      exact (paramsAre_iff hboth.2 _).mp hfound
    · intro hplain
      refine ⟨herror, hdisplay.trans ((display_iff h.address hboth.1 p).mpr hplain.address),
        huri, ?_, htag⟩
      rw [hparams]
      exact (paramsAre_iff hboth.2 _).mpr hplain.params
  · refine iff_of_false (fun hparsed => ?_) fun hplain => hread hplain.isRead
    exact Bool.false_ne_true (hparsed.error.symm.trans hrun)

/-! ## Bodies that are not closed -/

/-- A body without the quote or the bracket that it needs: the display name or
the value of a parameter has no closing quote, or the URI no closing bracket. -/
inductive Unclosed
  | name (q : List Qtext)
  | bracket (display : Display) (uri : Bytes)
  | value (address : Address) (lws : List Lws) (params : List Param) (head : Param)
      (before : List Lws) (q : List Qtext)

def Unclosed.text : Unclosed → Bytes
  | .name q => 34 :: qtextText q
  | .bracket display uri => display.text ++ 60 :: uri
  | .value address lws params head before q =>
    address.text ++ (lwsText lws ++ (paramsText params ++
      59 :: (head.text ++ 61 :: (lwsText before ++ 34 :: qtextText q))))

def Unclosed.WellFormed : Unclosed → Prop
  | .name q => QtextsOk q
  | .bracket display uri => display.WellFormed ∧ 62 ∉ uri
  | .value address _ params head _ q =>
    address.WellFormed ∧ (∀ a ∈ params, a.WellFormed) ∧
      (head.WellFormed ∧ head.value = none) ∧ QtextsOk q

theorem toStep_quotedEnd (hc : c = 13 ∨ c = 10) (saved : Status) (foo : ℕ) (b : ToBody) (p : ℕ) :
    (⟨.displayQuoted, saved, foo, b⟩ : ToVars).step c p =
      .error ⟨.displayQuoted, saved, foo, b⟩ := by
  rcases hc with rfl | rfl
  · rfl
  · rfl

theorem Eol.text_cons (eol : Eol) : ∃ c s, eol.text = c :: s ∧ (c = 13 ∨ c = 10) := by
  cases eol with
  | cr => exact ⟨13, [], rfl, .inl rfl⟩
  | lf => exact ⟨10, [], rfl, .inr rfl⟩
  | crlf => exact ⟨13, [10], rfl, .inl rfl⟩

theorem parseTo_name_unclosed {q : List Qtext} (hq : QtextsOk q) (p : ℕ) :
    (parseTo (34 :: qtextText q ++ (eol.text ++ rest)) p).1.error = true := by
  have hquote : parseTo (34 :: qtextText q ++ (eol.text ++ rest)) p =
      toLoop (qtextText q ++ (eol.text ++ rest)) (p + 1) ⟨.displayQuoted, .startTo, 0,
        { ToBody.start with body := ⟨p, 0⟩, display := ⟨p, 0⟩ }⟩ := rfl
  rw [hquote]
  have hrun := @toLoop_qtext (eol.text ++ rest) (p + 1) .startTo 0
    { ToBody.start with body := ⟨p, 0⟩, display := ⟨p, 0⟩ } q hq
  split_ifs at hrun with hline
  · rw [hrun]
    obtain ⟨c, s, heol, hc⟩ := eol.text_cons
    rw [heol, cons_append]
    exact toLoop_error (toStep_quotedEnd hc _ _ _ _)
  · exact hrun

/-- Behind `<` and before `>`. -/
def InBrackets (status : Status) : Prop :=
  status = .sUriEnclosed ∨ status = .uriEnclosed ∨ status = .eUriEnclosed

theorem charClass_ne_gt (hc : c ≠ 62) : charClass c ≠ .gt := by
  simp only [charClass, hc, if_false, ne_eq, apply_ite (fun x => x = CharClass.gt),
    reduceCtorEq, ite_self, not_false_eq_true]

theorem toStep_inBrackets (hv : InBrackets v.status) (hc : c ≠ 62) (p : ℕ) :
    (∃ v', v.step c p = .next v' ∧ InBrackets v'.status) ∨ ∃ v', v.step c p = .error v' := by
  have hgt := charClass_ne_gt hc
  obtain ⟨status, saved, foo, b⟩ := v
  unfold ToVars.step
  rcases hv with hv | hv | hv <;> obtain rfl : status = _ := hv <;>
    cases hclass : charClass c <;>
    first
    | exact absurd hclass hgt
    | exact .inr ⟨_, rfl⟩
    | exact .inl ⟨_, rfl, by simp [InBrackets]⟩

theorem toStep_bracketEnd (hv : InBrackets v.status)
    (hc : c = 13 ∨ c = 10) (p : ℕ) : ∃ v', v.step c p = .error v' := by
  obtain ⟨status, saved, foo, b⟩ := v
  rcases hv with hv | hv | hv <;> obtain rfl : status = _ := hv <;> rcases hc with rfl | rfl <;>
    exact ⟨_, rfl⟩

theorem toLoop_bracket_unclosed (hx : 62 ∉ x) (hv : InBrackets v.status) (p : ℕ) :
    (toLoop (x ++ (eol.text ++ rest)) p v).1.error = true := by
  induction x generalizing p v with
  | nil =>
    obtain ⟨c, s, heol, hc⟩ := eol.text_cons
    obtain ⟨v', hstep⟩ := toStep_bracketEnd hv hc p
    rw [nil_append, heol, cons_append]
    exact toLoop_error hstep
  | cons c x ih =>
    rw [mem_cons, not_or] at hx
    rcases toStep_inBrackets hv (Ne.symm hx.1) p with ⟨v', hstep, hv'⟩ | ⟨v', hstep⟩
    · rw [cons_append, toLoop_next hstep]
      exact ih hx.2 hv' (p + 1)
    · exact toLoop_error hstep

theorem parseTo_bracket_unclosed {display : Display} (h : display.WellFormed) {uri : Bytes}
    (huri : 62 ∉ uri) (p : ℕ) :
    (parseTo ((display.text ++ 60 :: uri) ++ (eol.text ++ rest)) p).1.error = true := by
  rw [append_assoc, cons_append]
  by_cases hread : ∀ q l, display = .quoted q l → q.all Qtext.isLine = true
  · obtain ⟨saved, foo, u, hrun⟩ := @toLoop_display (uri ++ (eol.text ++ rest)) p display h hread
    rw [parseTo, hrun]
    exact toLoop_bracket_unclosed huri (.inl rfl) _
  · push Not at hread
    obtain ⟨q, l, rfl, hfold⟩ := hread
    have hrun := @toLoop_quoted (lwsText l ++ 60 :: (uri ++ (eol.text ++ rest))) p .startTo 0 q h
    rw [if_neg hfold] at hrun
    rw [parseTo, Display.text, append_assoc]
    exact hrun

/-! Values -/

variable {saved : Status} {b : ToBody}

theorem paramLoop_quote_unclosed {q : List Qtext} (hq : QtextsOk q) (param : ToParam) (p : ℕ) :
    (paramLoop (34 :: (qtextText q ++ (eol.text ++ rest))) p
      ⟨.sParaValue, saved, param⟩ b).1.error = true := by
  have hquote : paramLoop (34 :: (qtextText q ++ (eol.text ++ rest))) p
      ⟨.sParaValue, saved, param⟩ b = paramLoop (qtextText q ++ (eol.text ++ rest)) (p + 1)
        ⟨.paraValueQuoted, saved, param.valued { param.value with s := p + 1 }⟩ b := rfl
  have hrun := @paramLoop_qtext (eol.text ++ rest) (p + 1) b saved
    (param.valued { param.value with s := p + 1 }) q hq
  rw [hquote]
  split_ifs at hrun with hbyte
  · rw [hrun]
    obtain ⟨c, s, heol, hc⟩ := eol.text_cons
    rw [heol, cons_append]
    exact paramLoop_error (step_quoted_break (hc.imp_right .inl) _ _ _)
  · exact hrun

theorem paramLoop_head_unclosed {head : Param} (h : head.WellFormed) (hvalue : head.value = none)
    (before : List Lws) {q : List Qtext} (hq : QtextsOk q) (p : ℕ) :
    (paramLoop (head.text ++ 61 :: (lwsText before ++ (34 :: (qtextText q ++ (eol.text ++ rest)))))
      p ⟨.sParaName, saved, .fresh⟩ b).1.error = true := by
  obtain ⟨saved₁, hlead⟩ := @paramLoop_valueless
    (61 :: (lwsText before ++ (34 :: (qtextText q ++ (eol.text ++ rest))))) p b saved head h hvalue
  obtain ⟨saved₂, hequal⟩ := @paramLoop_equal
    (lwsText before ++ (34 :: (qtextText q ++ (eol.text ++ rest)))) (head.nameAt p) b head.name
    h.1.1 saved₁ head.behind
  obtain ⟨saved₃, hlws⟩ := @paramLoop_lws (34 :: (qtextText q ++ (eol.text ++ rest)))
    (head.nameAt p + head.name.length + (lwsText head.behind).length + 1)
    ⟨.sParaValue, saved₂, named (head.nameAt p) head.name⟩ b (by simp [Waits]) before
  rw [hlead, hequal, hlws]
  exact paramLoop_quote_unclosed hq _ _

/-- Parameters in front of an open one do not help. -/
theorem paramLoop_params_unclosed (has : ∀ a ∈ as, a.WellFormed)
    (ht : ∀ saved b p, (paramLoop t p ⟨.sParaName, saved, .fresh⟩ b).1.error = true)
    {s : Bytes} (hs : paramsText as ++ 59 :: t = 59 :: s) (saved : Status) (b : ToBody) (p : ℕ) :
    (paramLoop s p ⟨.sParaName, saved, .fresh⟩ b).1.error = true := by
  induction as generalizing s saved b p with
  | nil =>
    obtain rfl : t = s := tail_eq_of_cons_eq hs
    exact ht saved b p
  | cons a as ih =>
    have ha := has a mem_cons_self
    obtain ⟨u, hu⟩ : ∃ u, paramsText as ++ 59 :: t = 59 :: u := by
      cases as with
      | nil => exact ⟨t, rfl⟩
      | cons a' as => exact ⟨a'.text ++ paramsText as ++ 59 :: t, by simp [paramsText_cons]⟩
    obtain rfl : a.text ++ 59 :: u = s := by
      rw [paramsText_cons, cons_append, append_assoc, hu] at hs
      exact tail_eq_of_cons_eq hs
    cases hread : a.isRead with
    | false => exact paramLoop_param_error ha hread
    | true =>
      obtain ⟨saved', hrun⟩ := @paramLoop_param_semicolon u p b saved a ha hread
      rw [hrun]
      exact ih (fun x hx => has x (mem_cons_of_mem a hx)) hu _ _ _

theorem parseToParam_unclosed (has : ∀ a ∈ as, a.WellFormed)
    (ht : ∀ saved b p, (paramLoop t p ⟨.sParaName, saved, .fresh⟩ b).1.error = true)
    {s : Bytes} (hs : paramsText as ++ 59 :: t = 59 :: s) (b : ToBody) (p : ℕ) :
    (parseToParam (59 :: s) p b).1.error = true := by
  have hstart : parseToParam (59 :: s) p b =
      paramLoop s (p + 1) ⟨.sParaName, .eParaValue, .fresh⟩ b := rfl
  rw [hstart]
  exact paramLoop_params_unclosed has ht hs _ _ _

theorem parseTo_value_unclosed {address : Address} (h : address.WellFormed) (lws : List Lws)
    {params : List Param} (hparams : ∀ a ∈ params, a.WellFormed) {head : Param}
    (hhead : head.WellFormed) (hvalue : head.value = none) (before : List Lws) {q : List Qtext}
    (hq : QtextsOk q) (p : ℕ) :
    (parseTo ((Unclosed.value address lws params head before q).text ++
      (eol.text ++ rest)) p).1.error = true := by
  obtain ⟨s, hs⟩ : ∃ s, paramsText params ++ 59 :: (head.text ++ 61 :: (lwsText before ++
      (34 :: (qtextText q ++ (eol.text ++ rest))))) = 59 :: s := by
    cases params with
    | nil => exact ⟨_, rfl⟩
    | cons a as => exact ⟨_, by rw [paramsText_cons]; rfl⟩
  have htext : (Unclosed.value address lws params head before q).text ++ (eol.text ++ rest) =
      address.text ++ (lwsText lws ++ 59 :: s) := by
    rw [← hs]
    simp [Unclosed.text]
  rw [htext]
  cases hread : address.isRead with
  | false => exact toLoop_address_error h hread
  | true =>
    obtain ⟨foo, status, hrun⟩ := @toLoop_semicolon s p address h hread lws
    rw [parseTo, hrun]
    refine finishParams_error (.inl ?_) foo status
    exact parseToParam_unclosed hparams
      (fun saved b p => paramLoop_head_unclosed hhead hvalue before hq p) hs _ _

theorem parseTo_unclosed {o : Unclosed} (h : o.WellFormed) (p : ℕ) :
    (parseTo (o.text ++ (eol.text ++ rest)) p).1.error = true := by
  cases o with
  | name q => exact parseTo_name_unclosed h p
  | bracket display uri => exact parseTo_bracket_unclosed h.1 h.2 p
  | value address lws params head before q =>
    obtain ⟨haddress, hparams, ⟨hhead, hvalue⟩, hq⟩ := h
    exact parseTo_value_unclosed haddress lws hparams hhead hvalue before hq p

/-! ## What `parse_to` does -/

/-- `parse_to` reads a body as the grammar has it if and only if its display name
has one word with white space behind it, or is quoted and on one line, and its
parameters have values without quotes, or are tags without a value.  It fails on
every body that is not closed. -/
theorem parse_to_right_iff (b : Body) (o : Unclosed) :
    (b.WellFormed →
      ((∀ eol rest p, Follows eol rest →
          Parsed p b (parseTo (b.text ++ (eol.text ++ rest)) p).1) ↔ b.Plain)) ∧
      (o.WellFormed → ∀ (eol : Eol) rest p,
        (parseTo (o.text ++ (eol.text ++ rest)) p).1.error = true) := by
  constructor
  · intro hb
    constructor
    · intro h
      exact (parsed_iff hb (by simp [Follows]) 0).mp (h .lf [] 0 (by simp [Follows]))
    · intro hplain eol rest p hrest
      exact (parsed_iff hb hrest p).mpr hplain
  · intro ho eol rest p
    exact parseTo_unclosed ho p

/-- `Bob <sip:b>;tag=1` -/
def bobBody : Body :=
  ⟨.enclosed (.words (ascii "Bob") [] [.blank false]) (ascii "sip:b"), [],
    [⟨[], ascii "tag", [], some ([], .token (ascii "1"), [])⟩]⟩

theorem bobBody_wellFormed : bobBody.WellFormed := by
  constructor
  · exact ⟨⟨isText_of_all (by decide), nofun⟩, isText_of_all (by decide), by decide⟩
  · intro a ha
    obtain rfl := mem_singleton.mp ha
    refine ⟨isText_of_all (by decide), ?_⟩
    rintro v ⟨⟩
    exact isText_of_all (by decide)

theorem parse_to_bobBody : Parsed 1 bobBody (parseTo (bobBody.text ++ (Eol.crlf.text ++ [])) 1).1 ∧
      (parseTo ((Unclosed.name [.byte 97]).text ++ (Eol.crlf.text ++ [])) 1).1.error = true :=
  ⟨((parse_to_right_iff bobBody (.name [.byte 97])).1 bobBody_wellFormed).mpr
      ⟨⟨rfl, cons_ne_nil _ _⟩, by simp [bobBody, Param.Plain]⟩ .crlf [] 1
      (by simp [Follows]),
    (parse_to_right_iff bobBody (.name [.byte 97])).2
      (by simp [Unclosed.WellFormed, QtextsOk, Qtext.WellFormed]; decide) .crlf [] 1⟩

/-- `sip:b;x="yz"`: the value is found without its last byte. -/
def quotedBody : Body :=
  ⟨.bare (ascii "sip:b"), [], [⟨[], ascii "x", [], some ([], .quoted [.byte 121, .byte 122], [])⟩]⟩

theorem parse_to_quotedBody : ¬ ∀ b : Body, b.WellFormed → ∀ eol rest p, Follows eol rest →
      Parsed p b (parseTo (b.text ++ (eol.text ++ rest)) p).1 := by
  intro h
  have hwf : quotedBody.WellFormed := by
    constructor
    · exact isText_of_all (by decide)
    · intro a ha
      obtain rfl := mem_singleton.mp ha
      refine ⟨isText_of_all (by decide), ?_⟩
      rintro v ⟨⟩ x hx
      rcases mem_pair.mp hx with rfl | rfl
      · rfl
      · rfl
  have hparams := (h quotedBody hwf .crlf [] 1 (by simp [Follows])).params
  have hfound : (parseTo (quotedBody.text ++ (Eol.crlf.text ++ [])) 1).1.paramLst =
      [⟨.general, ⟨7, 1⟩, ⟨10, 1⟩⟩] := by decide
  rw [hfound] at hparams
  exact absurd hparams.1.value (by decide)

end Msicp.To
