import Msicp.To.ParamRun

/-!
# Values and lists of parameters

The text of a parameter, up to the next `;` or up to the end of the header,
leaves the parameter at the end of the list.
-/

namespace Msicp.To

open Msicp.Support List ParamVars Param
open Msicp.Avp (sameName)

variable {t : Bytes} {p : ℕ} {b : ToBody} {saved : Status} {param : ToParam}

/-! ## Tokens -/

/-- The parameter gets a value. -/
def ToParam.valued (param : ToParam) (value : Str) : ToParam :=
  { param with value := value }

variable {c : UInt8} {v : Value}

theorem step_valueStart (h : isName c = true) (saved : Status) (param : ToParam) (p : ℕ) :
    (⟨.sParaValue, saved, param⟩ : ParamVars).step c p = .next ⟨.paraValueToken, saved,
        { param with value := { param.value with s := p } }⟩ none false := by
  unfold step
  rcases charClass_isName h with h | h | h | h | h | h <;> simp [h, onText]

theorem step_valueNext (h : isName c = true) (saved : Status) (param : ToParam) (p : ℕ) :
    (⟨.paraValueToken, saved, param⟩ : ParamVars).step c p =
      .next ⟨.paraValueToken, saved, param⟩ none false := by
  unfold step
  rcases charClass_isName h with h | h | h | h | h | h <;> simp [h, onText]

theorem paramLoop_valueNext {tok : Bytes} (h : ∀ c ∈ tok, isName c = true) :
    paramLoop (tok ++ t) p ⟨.paraValueToken, saved, param⟩ b =
      paramLoop t (p + tok.length) ⟨.paraValueToken, saved, param⟩ b := by
  induction tok generalizing p with
  | nil => rfl
  | cons c tok ih =>
    rw [cons_append, paramLoop_pass (step_valueNext (h c mem_cons_self) _ _ _),
      ih fun d hd => h d (mem_cons_of_mem c hd), length_cons,
      Nat.add_right_comm, Nat.add_assoc]

theorem paramLoop_token {tok : Bytes} (h : IsText isName tok) :
    paramLoop (tok ++ t) p ⟨.sParaValue, saved, param⟩ b =
      paramLoop t (p + tok.length) ⟨.paraValueToken, saved,
        param.valued { param.value with s := p }⟩ b := by
  obtain ⟨hne, hall⟩ := h
  cases tok with
  | nil => exact absurd rfl hne
  | cons c tok =>
    rw [cons_append, paramLoop_pass (step_valueStart (hall c mem_cons_self) _ _ _),
      paramLoop_valueNext fun d hd => hall d (mem_cons_of_mem c hd),
      length_cons, Nat.add_right_comm, Nat.add_assoc]
    rfl

theorem settle_token (tok : Bytes) :
    (⟨.paraValueToken, saved, param.valued { param.value with s := p }⟩ :
        ParamVars).settle (p + tok.length) =
      (⟨.eParaValue, saved, param.valued (sliceAt p tok)⟩,
        some (param.valued (sliceAt p tok))) := by
  simp [settle, valueEnd, ToParam.valued, sliceAt, ptrDiff_add]

/-! ## Quoted strings -/

/-- A piece of a quoted string that is read as it is. -/
def Qtext.isByte : Qtext → Bool
  | .byte _ => true
  | .pair _ => false
  | .fold _ _ => false

theorem charClass_isQdtext (h : isQdtext c = true) :
    charClass c ≠ .lf ∧ charClass c ≠ .cr ∧ charClass c ≠ .nul ∧
      charClass c ≠ .backslash ∧ charClass c ≠ .quote := by
  fun_cases charClass c
  case case2 hc | case3 hc | case4 hc | case5 hc | case8 hc =>
    exact absurd (hc ▸ h) (by decide)
  all_goals simp

theorem step_qdtext (h : isQdtext c = true) (saved : Status) (param : ToParam) (p : ℕ) :
    (⟨.paraValueQuoted, saved, param⟩ : ParamVars).step c p =
      .next ⟨.paraValueQuoted, saved, param⟩ none false := by
  obtain ⟨hlf, hcr, hnul, hbackslash, hquote⟩ := charClass_isQdtext h
  unfold step
  cases hc : charClass c <;>
    first
    | exact absurd hc hlf
    | exact absurd hc hcr
    | exact absurd hc hnul
    | exact absurd hc hbackslash
    | exact absurd hc hquote
    | rfl

theorem step_quoted_break (hc : c = 13 ∨ c = 10 ∨ c = 92)
    (saved : Status) (param : ToParam) (p : ℕ) :
    (⟨.paraValueQuoted, saved, param⟩ : ParamVars).step c p =
      .error ⟨.paraValueQuoted, saved, param⟩ := by
  rcases hc with rfl | rfl | rfl
  · rfl
  · rfl
  · rfl

/-- Pairs and folded lines in a quoted value are errors. -/
theorem paramLoop_qtext {q : List Qtext} (hq : QtextsOk q) :
    if q.all Qtext.isByte then
      paramLoop (qtextText q ++ t) p ⟨.paraValueQuoted, saved, param⟩ b =
        paramLoop t (p + (qtextText q).length) ⟨.paraValueQuoted, saved, param⟩ b
    else
      (paramLoop (qtextText q ++ t) p ⟨.paraValueQuoted, saved, param⟩ b).1.error = true := by
  induction q generalizing p with
  | nil => rfl
  | cons x q ih =>
    have hx := hq x mem_cons_self
    have hrest := @ih (p + 1) fun y hy => hq y (mem_cons_of_mem x hy)
    cases x with
    | byte c =>
      have htext : qtextText (.byte c :: q) ++ t = c :: (qtextText q ++ t) := rfl
      have hlen : (qtextText (.byte c :: q)).length = (qtextText q).length + 1 := rfl
      rw [htext, hlen, paramLoop_pass (step_qdtext hx _ _ _), ← Nat.add_assoc, Nat.add_right_comm]
      exact hrest
    | pair c =>
      rw [if_neg (by simp [Qtext.isByte])]
      exact paramLoop_error (step_quoted_break (Or.inr (Or.inr rfl)) _ _ _)
    | fold eol tab =>
      rw [if_neg (by simp [Qtext.isByte])]
      cases eol with
      | cr => exact paramLoop_error (step_quoted_break (Or.inl rfl) _ _ _)
      | lf => exact paramLoop_error (step_quoted_break (Or.inr (Or.inl rfl)) _ _ _)
      | crlf => exact paramLoop_error (step_quoted_break (Or.inl rfl) _ _ _)

/-- The slice of a value as it is found: a quoted one is a byte short. -/
def Value.found (p : ℕ) : Value → Str
  | .token t => To.sliceAt p t
  | .quoted q => ⟨p + 1, (qtextText q).length - 1⟩

theorem paramLoop_quoted {q : List Qtext} (hq : QtextsOk q) :
    if q.all Qtext.isByte then
      paramLoop (quoted q ++ t) p ⟨.sParaValue, saved, param⟩ b =
        paramLoop t (p + (quoted q).length) ⟨.eParaValue, saved,
          param.valued ((Value.quoted q).found p)⟩
          (b.addParam (param.valued ((Value.quoted q).found p)))
    else
      (paramLoop (quoted q ++ t) p ⟨.sParaValue, saved, param⟩ b).1.error = true := by
  have htext : quoted q ++ t = 34 :: (qtextText q ++ 34 :: t) := by simp [quoted]
  have hlen : (quoted q).length = (qtextText q).length + 2 := by simp [quoted]
  have hopen : paramLoop (quoted q ++ t) p ⟨.sParaValue, saved, param⟩ b =
      paramLoop (qtextText q ++ 34 :: t) (p + 1) ⟨.paraValueQuoted, saved,
        param.valued { param.value with s := p + 1 }⟩ b := by
    rw [htext]
    exact paramLoop_pass rfl
  have hrun := @paramLoop_qtext (34 :: t) (p + 1) b saved
    (param.valued { param.value with s := p + 1 }) q hq
  rw [hopen]
  split_ifs at hrun ⊢ with hall
  · rw [hrun, @paramLoop_add _ _ _ _ _
      ⟨.eParaValue, saved, param.valued ((Value.quoted q).found p)⟩
      (param.valued ((Value.quoted q).found p)) false ?_, hlen]
    · congr 1
      omega
    · have hdiff := ptrDiff_add (p + 1) (qtextText q).length
      simp [step, charClass, onQuote, ToParam.valued, Value.found, hdiff]
  · exact hrun

/-! ## Values -/

/-- A value that is read. -/
def Value.isRead : Value → Bool
  | .token _ => true
  | .quoted q => q.all Qtext.isByte

theorem paramLoop_value {v : Value} (hv : v.WellFormed) (hread : v.isRead = true)
    {l : List Lws} (hl : l ≠ [] ∨ ∃ q, v = .quoted q) :
    ∃ saved', paramLoop (v.text ++ (lwsText l ++ t)) p ⟨.sParaValue, saved, param⟩ b =
      paramLoop t (p + v.text.length + (lwsText l).length)
        ⟨.eParaValue, saved', param.valued (v.found p)⟩
        (b.addParam (param.valued (v.found p))) := by
  cases v with
  | token tok =>
    have hl := hl.resolve_right (by simp)
    obtain ⟨saved', hrun⟩ := @paramLoop_settle t (p + tok.length)
      ⟨.paraValueToken, saved, param.valued { param.value with s := p }⟩ b
      (.inr (by simp [Ends])) l hl
    rw [settle_token] at hrun
    exact ⟨saved', (paramLoop_token hv).trans hrun⟩
  | quoted q =>
    have hrun := @paramLoop_quoted (lwsText l ++ t) p b saved param q hv
    rw [if_pos (show q.all Qtext.isByte = true from hread)] at hrun
    obtain ⟨saved', hws⟩ := @paramLoop_lws t (p + (To.quoted q).length)
      ⟨.eParaValue, saved, param.valued ((Value.quoted q).found p)⟩
      (b.addParam (param.valued ((Value.quoted q).found p))) (by simp [Waits]) l
    exact ⟨saved', hrun.trans hws⟩

theorem paramLoop_value_error (hv : v.WellFormed) (hread : v.isRead = false) :
    (paramLoop (v.text ++ t) p ⟨.sParaValue, saved, param⟩ b).1.error = true := by
  cases v with
  | token tok => exact absurd hread (by simp [Value.isRead])
  | quoted q =>
    have hrun := @paramLoop_quoted t p b saved param q hv
    rwa [if_neg (by simpa [Value.isRead] using hread)] at hrun

theorem paramLoop_value_semicolon {v : Value} (hv : v.WellFormed)
    (hread : v.isRead = true) (l : List Lws) :
    ∃ saved', paramLoop (v.text ++ (lwsText l ++ 59 :: t)) p ⟨.sParaValue, saved, param⟩ b =
      paramLoop t (p + v.text.length + (lwsText l).length + 1)
        ⟨.sParaName, saved', .fresh⟩ (b.addParam (param.valued (v.found p))) := by
  by_cases hl : l ≠ [] ∨ ∃ q, v = .quoted q
  · obtain ⟨saved', hrun⟩ := @paramLoop_value (59 :: t) p b saved param v hv hread l hl
    exact ⟨saved', hrun.trans (@paramLoop_next _ _ _ _ _ _ none true rfl)⟩
  · rw [not_or, not_not] at hl
    obtain ⟨rfl, hquoted⟩ := hl
    cases v with
    | quoted q => exact absurd ⟨q, rfl⟩ hquoted
    | token tok =>
      refine ⟨saved, (paramLoop_token hv).trans ?_⟩
      refine @paramLoop_add _ _ _ _ _ _ _ true ?_
      simp [step, charClass, onSemicolon, valueEnd,
        newParam, ToParam.valued, Value.found, sliceAt, ptrDiff_add]

theorem paramLoop_value_last (hv : v.WellFormed) (hread : v.isRead = true)
    {eol : Eol} {rest : Bytes} (hrest : Follows eol rest) (l : List Lws) :
    paramLoop (v.text ++ (lwsText l ++ (eol.text ++ rest))) p ⟨.sParaValue, saved, param⟩ b =
      (b.addParam (param.valued (v.found p)), .eParaValue,
        p + v.text.length + (lwsText l).length + eol.text.length) := by
  by_cases hl : l ≠ [] ∨ ∃ q, v = .quoted q
  · obtain ⟨saved', hrun⟩ := @paramLoop_value (eol.text ++ rest) p b saved param v hv hread l hl
    obtain ⟨f, hline⟩ := @paramLoop_line (p + v.text.length + (lwsText l).length)
      ⟨.eParaValue, saved', param.valued (v.found p)⟩
      (b.addParam (param.valued (v.found p))) (.inl (by simp [Waits])) eol rest hrest
    rw [hrun, hline]
    simp [settle, paramEnd, ToBody.addParams]
  · rw [not_or, not_not] at hl
    obtain ⟨rfl, hquoted⟩ := hl
    cases v with
    | quoted q => exact absurd ⟨q, rfl⟩ hquoted
    | token tok =>
      obtain ⟨f, hline⟩ := @paramLoop_line (p + tok.length)
        ⟨.paraValueToken, saved, param.valued { param.value with s := p }⟩ b
        (.inr (by simp [Ends])) eol rest hrest
      refine (paramLoop_token hv).trans ?_
      rw [settle_token] at hline
      refine hline.trans ?_
      simp [paramEnd, ToBody.addParams, Value.found, Value.text, lwsText]

/-! ## Parameters -/

/-- A parameter that is read.  Of those without a value it is the tag. -/
def Param.isRead (a : Param) : Bool :=
  match a.value with
  | none => sameName (ascii "tag") a.name
  | some (_, v, _) => v.isRead

/-- Where the name of a parameter is, whose text starts at `p`. -/
def Param.nameAt (p : ℕ) (a : Param) : ℕ := p + (lwsText a.lead).length

/-- Where its value is, behind white space. -/
def Param.valueAt (p : ℕ) (a : Param) (lws : List Lws) : ℕ :=
  a.nameAt p + a.name.length + (lwsText a.behind).length + 1 + (lwsText lws).length

/-- The parameter as it is found; `q` is the pointer to a value that is not
there. -/
def Param.found (p : ℕ) (a : Param) (q : ℕ) : ToParam :=
  (named (a.nameAt p) a.name).valued (match a.value with
    | none => ⟨q, 0⟩
    | some (lws, v, _) => v.found (a.valueAt p lws))

variable {a : Param} {as : List Param} {eol : Eol} {rest : Bytes}

theorem paramLoop_lead (h : a.WellFormed) (s : Bytes) :
    ∃ saved', paramLoop (lwsText a.lead ++ (a.name ++ s)) p ⟨.sParaName, saved, .fresh⟩ b =
      paramLoop s (a.nameAt p + a.name.length)
        ⟨nameStatus a.name, saved', started (a.nameAt p)⟩ b := by
  obtain ⟨saved', hrun⟩ := @paramLoop_lws (a.name ++ s) p ⟨.sParaName, saved, .fresh⟩ b
    (by simp [Waits]) a.lead
  exact ⟨saved', hrun.trans (paramLoop_name h.1 saved')⟩

theorem paramLoop_valueless (h : a.WellFormed) (hvalue : a.value = none) :
    ∃ saved', paramLoop (a.text ++ t) p ⟨.sParaName, saved, .fresh⟩ b =
      paramLoop (lwsText a.behind ++ t) (a.nameAt p + a.name.length)
        ⟨nameStatus a.name, saved', started (a.nameAt p)⟩ b := by
  have htext : a.text ++ t = lwsText a.lead ++ (a.name ++ (lwsText a.behind ++ t)) := by
    simp [text, hvalue]
  rw [htext]
  exact paramLoop_lead h _

theorem paramLoop_valued (h : a.WellFormed) {lws behind : List Lws} {v : Value}
    (hvalue : a.value = some (lws, v, behind)) :
    ∃ saved', paramLoop (a.text ++ t) p ⟨.sParaName, saved, .fresh⟩ b =
      paramLoop (v.text ++ (lwsText behind ++ t)) (a.valueAt p lws)
        ⟨.sParaValue, saved', named (a.nameAt p) a.name⟩ b := by
  have htext : a.text ++ t = lwsText a.lead ++ (a.name ++ (lwsText a.behind ++
      61 :: (lwsText lws ++ (v.text ++ (lwsText behind ++ t))))) := by
    simp [text, hvalue]
  obtain ⟨saved₁, hlead⟩ := @paramLoop_lead p b saved a h (lwsText a.behind ++
    61 :: (lwsText lws ++ (v.text ++ (lwsText behind ++ t))))
  obtain ⟨saved₂, hequal⟩ := @paramLoop_equal
    (lwsText lws ++ (v.text ++ (lwsText behind ++ t))) (a.nameAt p) b a.name h.1.1
    saved₁ a.behind
  obtain ⟨saved₃, hlws⟩ := @paramLoop_lws (v.text ++ (lwsText behind ++ t))
    (a.nameAt p + a.name.length + (lwsText a.behind).length + 1)
    ⟨.sParaValue, saved₂, named (a.nameAt p) a.name⟩ b (by simp [Waits]) lws
  exact ⟨saved₃, by rw [htext, hlead, hequal, hlws]; rfl⟩

theorem length_text_none (hvalue : a.value = none) (p : ℕ) :
    p + a.text.length = a.nameAt p + a.name.length + (lwsText a.behind).length := by
  simp only [text, hvalue, nameAt, append_nil, List.length_append]
  omega

theorem length_text_some {lws behind : List Lws}
    (hvalue : a.value = some (lws, v, behind)) (p : ℕ) :
    p + a.text.length = a.valueAt p lws + v.text.length + (lwsText behind).length := by
  simp only [text, hvalue, nameAt, valueAt, List.length_append, length_cons]
  omega

theorem paramLoop_param_semicolon (h : a.WellFormed) (hread : a.isRead = true) :
    ∃ saved', paramLoop (a.text ++ 59 :: t) p ⟨.sParaName, saved, .fresh⟩ b =
      paramLoop t (p + a.text.length + 1) ⟨.sParaName, saved', .fresh⟩
        (b.addParam (a.found p (p + a.text.length))) := by
  rw [isRead] at hread
  cases hvalue : a.value with
  | none =>
    rw [hvalue] at hread
    obtain ⟨saved₁, hrun⟩ := @paramLoop_valueless (59 :: t) p b saved a h hvalue
    obtain ⟨saved₂, hrun'⟩ := @paramLoop_tag_semicolon t (a.nameAt p) b a.name
      (by simpa using hread) saved₁ a.behind
    refine ⟨saved₂, hrun.trans (hrun'.trans ?_)⟩
    rw [length_text_none hvalue, Param.found, hvalue]
    rfl
  | some value =>
    obtain ⟨lws, v, behind⟩ := value
    rw [hvalue] at hread
    obtain ⟨saved₁, hrun⟩ := @paramLoop_valued (59 :: t) p b saved a h lws behind v hvalue
    obtain ⟨saved₂, hrun'⟩ := @paramLoop_value_semicolon t (a.valueAt p lws) b saved₁
      (named (a.nameAt p) a.name) v (h.2 _ hvalue) hread behind
    refine ⟨saved₂, hrun.trans (hrun'.trans ?_)⟩
    rw [length_text_some hvalue, Param.found, hvalue]

theorem paramLoop_param_error (h : a.WellFormed) (hread : a.isRead = false) :
    (paramLoop (a.text ++ 59 :: t) p ⟨.sParaName, saved, .fresh⟩ b).1.error = true := by
  rw [isRead] at hread
  cases hvalue : a.value with
  | none =>
    rw [hvalue] at hread
    obtain ⟨saved₁, hrun⟩ := @paramLoop_valueless (59 :: t) p b saved a h hvalue
    rw [hrun]
    exact paramLoop_name_semicolon h.1.1 (by simpa using hread) saved₁ a.behind
  | some value =>
    obtain ⟨lws, v, behind⟩ := value
    rw [hvalue] at hread
    obtain ⟨saved₁, hrun⟩ := @paramLoop_valued (59 :: t) p b saved a h lws behind v hvalue
    rw [hrun]
    exact paramLoop_value_error (h.2 _ hvalue) hread

theorem paramLoop_param_last (h : a.WellFormed) (hrest : Follows eol rest) :
    if a.isRead then
      paramLoop (a.text ++ (eol.text ++ rest)) p ⟨.sParaName, saved, .fresh⟩ b =
        (b.addParam (a.found p 0), .eParaValue, p + a.text.length + eol.text.length)
    else
      (paramLoop (a.text ++ (eol.text ++ rest)) p ⟨.sParaName, saved, .fresh⟩ b).1.error = true ∨
        (paramLoop (a.text ++ (eol.text ++ rest)) p
          ⟨.sParaName, saved, .fresh⟩ b).2.1 = .sEqual := by
  cases hvalue : a.value with
  | none =>
    obtain ⟨saved₁, hrun⟩ := @paramLoop_valueless (eol.text ++ rest) p b saved a h hvalue
    have hlast := @paramLoop_name_last (a.nameAt p) b a.name h.1.1 eol rest hrest saved₁ a.behind
    rw [hrun, hlast, length_text_none hvalue, isRead, hvalue]
    by_cases htag : sameName (ascii "tag") a.name
    · simp only [htag, decide_true, if_true, Param.found, hvalue]
      rfl
    · simp [htag]
  | some value =>
    obtain ⟨lws, v, behind⟩ := value
    obtain ⟨saved₁, hrun⟩ := @paramLoop_valued (eol.text ++ rest) p b saved a h lws behind v hvalue
    have hv := h.2 _ hvalue
    rw [hrun, length_text_some hvalue, isRead, hvalue]
    by_cases hread : v.isRead = true
    · simp only [hread, if_true, Param.found, hvalue]
      exact paramLoop_value_last hv hread hrest behind
    · simp only [hread]
      exact Or.inl (paramLoop_value_error hv (by simpa using hread))

/-! ## Lists of parameters -/

/-- The parameters as they are found; the first `;` is at `p`. -/
def paramsFound : ℕ → List Param → List ToParam
  | _, [] => []
  | p, [a] => [a.found (p + 1) 0]
  | p, a :: a' :: as =>
    a.found (p + 1) (p + 1 + a.text.length) :: paramsFound (p + 1 + a.text.length) (a' :: as)

/-- `add_param` for each of them. -/
def ToBody.addAll (b : ToBody) (params : List ToParam) : ToBody :=
  params.foldl ToBody.addParam b

theorem paramsText_cons (a : Param) (as : List Param) :
    paramsText (a :: as) = 59 :: (a.text ++ paramsText as) := by
  simp [paramsText]

theorem paramLoop_list (h : ∀ x ∈ a :: as, x.WellFormed) (hrest : Follows eol rest) :
    if (a :: as).all Param.isRead then
      paramLoop (a.text ++ (paramsText as ++ (eol.text ++ rest))) (p + 1)
          ⟨.sParaName, saved, .fresh⟩ b =
        (b.addAll (paramsFound p (a :: as)), .eParaValue,
          p + (paramsText (a :: as)).length + eol.text.length)
    else
      (paramLoop (a.text ++ (paramsText as ++ (eol.text ++ rest))) (p + 1)
          ⟨.sParaName, saved, .fresh⟩ b).1.error = true ∨
        (paramLoop (a.text ++ (paramsText as ++ (eol.text ++ rest))) (p + 1)
          ⟨.sParaName, saved, .fresh⟩ b).2.1 = .sEqual := by
  induction as generalizing a p b saved with
  | nil =>
    have hlast := @paramLoop_param_last (p + 1) b saved a eol rest (h a (by simp)) hrest
    have hlen : (paramsText [a]).length = a.text.length + 1 := by simp [paramsText]
    have hpos : p + 1 + a.text.length + eol.text.length =
        p + (a.text.length + 1) + eol.text.length := by omega
    rw [all_cons, all_nil, Bool.and_true, hlen, ← hpos]
    exact hlast
  | cons a' as ih =>
    have hlen : (paramsText (a :: a' :: as)).length =
        a.text.length + 1 + (paramsText (a' :: as)).length := by
      rw [paramsText_cons a, length_cons, List.length_append]
      omega
    have htext : a.text ++ (paramsText (a' :: as) ++ (eol.text ++ rest)) =
        a.text ++ 59 :: (a'.text ++ (paramsText as ++ (eol.text ++ rest))) := by
      simp [paramsText]
    rw [htext]
    cases hread : a.isRead with
    | true =>
      obtain ⟨saved', hrun⟩ := @paramLoop_param_semicolon
        (a'.text ++ (paramsText as ++ (eol.text ++ rest))) (p + 1) b saved a
        (h a mem_cons_self) hread
      have hih := @ih (p + 1 + a.text.length)
        (b.addParam (a.found (p + 1) (p + 1 + a.text.length))) saved' a'
        fun x hx => h x (mem_cons_of_mem a hx)
      have hpos : p + 1 + a.text.length + (paramsText (a' :: as)).length +
          eol.text.length = p + (a.text.length + 1 + (paramsText (a' :: as)).length) +
            eol.text.length := by omega
      rw [hrun, all_cons, hread, Bool.true_and, hlen, ← hpos]
      exact hih
    | false =>
      rw [all_cons, hread]
      exact Or.inl (paramLoop_param_error (h a mem_cons_self) hread)

theorem parseToParam_list (h : ∀ x ∈ a :: as, x.WellFormed) (hrest : Follows eol rest) :
    if (a :: as).all Param.isRead then
      parseToParam (paramsText (a :: as) ++ (eol.text ++ rest)) p b =
        (b.addAll (paramsFound p (a :: as)), .eParaValue,
          p + (paramsText (a :: as)).length + eol.text.length)
    else
      (parseToParam (paramsText (a :: as) ++ (eol.text ++ rest)) p b).1.error = true ∨
        (parseToParam (paramsText (a :: as) ++ (eol.text ++ rest)) p b).2.1 = .sEqual := by
  have hopen : parseToParam (paramsText (a :: as) ++ (eol.text ++ rest)) p b =
      paramLoop (a.text ++ (paramsText as ++ (eol.text ++ rest))) (p + 1)
        ⟨.sParaName, .eParaValue, .fresh⟩ b := by
    have htext : paramsText (a :: as) ++ (eol.text ++ rest) =
        59 :: (a.text ++ (paramsText as ++ (eol.text ++ rest))) := by
      simp [paramsText]
    rw [parseToParam, htext]
    exact @paramLoop_next _ _ _ _ _ _ none true rfl
  rw [hopen]
  exact paramLoop_list h hrest

end Msicp.To
