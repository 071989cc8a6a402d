import Msicp.Parser.ParseUri

/-!
# The parts of a URI and its parameters

More than forty states of the automaton look for parameters that have a field
of their own.  For the parts of the URI they are one state: what they do at a
byte depends only on the kind of the byte.
-/

namespace Msicp.Parser

open Msicp.Support Msicp.Tcp UriParse

/-- The states up to the parameters they look for. -/
inductive Phase
  | init
  | user
  | password
  | passwordAlpha
  | host
  | hostP
  | host6P
  | host6End
  | port
  | param
  | headers
  deriving DecidableEq

def UriState.phase : UriState → Phase
  | .uriInit => .init
  | .uriUser => .user
  | .uriPassword => .password
  | .uriPasswordAlpha => .passwordAlpha
  | .uriHost => .host
  | .uriHostP => .hostP
  | .uriHost6P => .host6P
  | .uriHost6End => .host6End
  | .uriPort => .port
  | .uriHeaders => .headers
  | _ => .param

/-- The fields of `struct sip_uri` that are about the parts of the URI. -/
structure Parts where
  user : Str := {}
  passwd : Str := {}
  host : Str := {}
  port : Str := {}
  params : Str := {}
  headers : Str := {}
  portNo : BitVec 16 := 0
  secure : ℕ := 0

def SipUri.parts (uri : SipUri) : Parts where
  user := uri.user
  passwd := uri.passwd
  host := uri.host
  port := uri.port
  params := uri.params
  headers := uri.headers
  portNo := uri.portNo
  secure := uri.secure

/-- The variables of `parse_uri` that are about the parts of the URI. -/
structure Fields where
  phase : Phase
  s : ℕ
  pass : Option ℕ
  portNo : BitVec 32
  foundUser : Bool
  errorHeaders : Bool
  uri : Parts

def UriParse.fields (st : UriParse) : Fields where
  phase := st.state.phase
  s := st.s
  pass := st.pass
  portNo := st.portNo
  foundUser := st.foundUser
  errorHeaders := st.errorHeaders
  uri := st.uri.parts

namespace Fields

/-- `still_at_user` -/
def atUser (p : ℕ) (f : Fields) : Fields where
  phase := .host
  s := p + 1
  pass := f.pass
  portNo := f.portNo
  foundUser := true
  errorHeaders := false
  uri :=
    { user :=
        { s := f.uri.host.s, len := f.pass.getD p - f.uri.host.s.getD 0 }
      passwd := match f.pass with
        | some q => Str.span (q + 1) p
        | none => {} }

def dropPass (f : Fields) : Fields :=
  if f.pass.isSome then { f with foundUser := true, pass := none } else f

def mightBePass (p : ℕ) (f : Fields) : Fields :=
  if f.foundUser then f
  else if f.pass.isSome then { f with foundUser := true, pass := none }
  else { f with pass := some p }

/-- The parameters end at a `?`. -/
def toHeaders (p : ℕ) (f : Fields) : Fields :=
  { f with
    uri := { f.uri with params := Str.span f.s p }
    phase := .headers
    s := p + 1 }

/-- What a byte `c` in or behind a parameter does; `none` when it is refused. -/
def paramStep (p : ℕ) (c : UInt8) (f : Fields) : Option Fields :=
  match kind c with
  | .atSign => if f.foundUser then none else some (f.atUser p)
  | .semicolon => some f.dropPass
  | .question => some (f.toHeaders p).dropPass
  | .colon => some (f.mightBePass p)
  | _ => some f

/-- What a byte `c` in the headers does. -/
def headersStep (p : ℕ) (c : UInt8) (f : Fields) : Option Fields :=
  match kind c with
  | .atSign => if f.foundUser then none else some (f.atUser p)
  | .semicolon =>
    if f.foundUser ∨ f.pass.isSome then none
    else some { f with errorHeaders := true }
  | .question => some f.dropPass
  | .colon => some (f.mightBePass p)
  | _ => some f

end Fields

section Moves

variable {p : ℕ} {c : UInt8} {st st' other : UriParse}

@[simp] theorem fields_setParam {uri : SipUri} {param : Param} {a b : Str} :
    (({ st with uri := uri.setParam param a b } : UriParse)).fields =
      ({ st with uri := uri } : UriParse).fields := by
  cases param <;> rfl

@[simp] theorem paramSet_fields : (paramSet p st).fields = st.fields := by
  unfold paramSet
  split
  · exact fields_setParam
  · rfl

theorem stillAtUser_fields (h : stillAtUser p st = .ok st') :
    st.foundUser = false ∧ st'.fields = st.fields.atUser p := by
  unfold stillAtUser at h
  split_ifs at h with hfound
  obtain rfl := Except.ok.inj h
  refine ⟨by simpa using hfound, ?_⟩
  cases hpass : st.pass <;>
    simp [fields, SipUri.parts, Fields.atUser, UriState.phase, hpass]

theorem dropPass_fields : (dropPass st).fields = st.fields.dropPass := by
  unfold dropPass Fields.dropPass
  cases hpass : st.pass <;> simp [fields, hpass]

theorem mightBePass_fields : (mightBePass p st).fields = st.fields.mightBePass p := by
  unfold mightBePass Fields.mightBePass
  cases hfound : st.foundUser <;> cases hpass : st.pass <;>
    simp [fields, hpass, hfound]

theorem semicolonCase_fields (hphase : st.state.phase = .param) :
    (semicolonCase st).fields = st.fields.dropPass := by
  have hstate : (semicolonCase st).fields = (dropPass st).fields := by
    have hdrop : (dropPass st).state.phase = .param := by
      unfold dropPass
      split_ifs <;> exact hphase
    simp [semicolonCase, fields, hdrop]
    rfl
  rw [hstate, dropPass_fields]

theorem questionCase_fields : (questionCase p st).fields = (st.fields.toHeaders p).dropPass := by
  rw [questionCase, dropPass_fields]
  rfl

variable {new : UriState} {c₁ c₂ : Char}

theorem colonCase_fields (p : ℕ) (hphase : st.state.phase = .param) (hnew : new.phase = .param) :
    ({ colonCase p st with state := new } : UriParse).fields =
      st.fields.mightBePass p := by
  have hstate : ({ colonCase p st with state := new } : UriParse).fields =
      (mightBePass p st).fields := by
    have hmight : (mightBePass p st).state.phase = .param := by
      unfold mightBePass
      split_ifs <;> exact hphase
    simp [colonCase, fields, hmight, hnew]
  rw [hstate, mightBePass_fields]

theorem stillAtUser_paramStep (hc : kind c = .atSign) (h : stillAtUser p st = .ok st') :
    st.fields.paramStep p c = some st'.fields := by
  obtain ⟨hfound, hfields⟩ := stillAtUser_fields h
  have hf : st.fields.foundUser = false := hfound
  simp [Fields.paramStep, hc, hf, hfields]

section

variable (hphase : st.state.phase = .param)
include hphase

theorem paramCommonCases_fields (hother : other.fields = st.fields)
    (h : paramCommonCases p c st other = .ok st') :
    st.fields.paramStep p c = some st'.fields := by
  unfold paramCommonCases at h
  split at h
  case h_1 hc => exact stillAtUser_paramStep hc h
  all_goals obtain rfl := Except.ok.inj h
  case h_2 hc =>
    simp [Fields.paramStep, hc, semicolonCase_fields hphase]
  case h_3 hc => simp [Fields.paramStep, hc, questionCase_fields]
  case h_4 hc =>
    have hcolon : (colonCase p st).fields = st.fields.mightBePass p :=
      colonCase_fields p hphase (rfl : UriState.uriParamP.phase = .param)
    simp [Fields.paramStep, hc, hcolon]
  case h_5 =>
    unfold Fields.paramStep
    split <;> simp_all

theorem valueCommonCases_fields (hother : other.fields = st.fields)
    (h : valueCommonCases p c st other = .ok st') :
    st.fields.paramStep p c = some st'.fields := by
  unfold valueCommonCases at h
  split at h
  case h_1 hc => exact stillAtUser_paramStep hc h
  all_goals obtain rfl := Except.ok.inj h
  case h_2 hc =>
    simp [Fields.paramStep, hc, semicolonCase_fields hphase]
  case h_3 hc => simp [Fields.paramStep, hc, questionCase_fields]
  case h_4 hc =>
    have hcolon := colonCase_fields p hphase (rfl : UriState.uriValP.phase = .param)
    simpa [Fields.paramStep, hc] using hcolon.symm
  case h_5 =>
    unfold Fields.paramStep
    split <;> simp_all

theorem setState_fields (hnew : new.phase = .param) :
    ({ st with state := new } : UriParse).fields = st.fields := by
  simp [fields, hphase, hnew]

theorem paramSwitch_fields (hnew : new.phase = .param)
    (h : paramSwitch c₁ c₂ new p c st = .ok st') :
    st.fields.paramStep p c = some st'.fields := by
  refine paramCommonCases_fields hphase (setState_fields hphase ?_) h
  split_ifs
  · exact hnew
  · rfl

theorem paramSwitchBig_fields {d₁ d₂ : Char} {newC newD : UriState} (hC : newC.phase = .param)
    (hD : newD.phase = .param)
    (h : paramSwitchBig c₁ c₂ d₁ d₂ newC newD p c st = .ok st') :
    st.fields.paramStep p c = some st'.fields := by
  refine paramCommonCases_fields hphase (setState_fields hphase ?_) h
  split_ifs
  · exact hC
  · exact hD
  · rfl

theorem valueSwitch_fields (hnew : new.phase = .param)
    (h : valueSwitch c₁ c₂ new p c st = .ok st') :
    st.fields.paramStep p c = some st'.fields := by
  refine valueCommonCases_fields hphase (setState_fields hphase ?_) h
  split_ifs
  · exact hnew
  · rfl

theorem valueSwitchBig_fields {d₁ d₂ : Char} {newC newD : UriState} (hC : newC.phase = .param)
    (hD : newD.phase = .param)
    (h : valueSwitchBig c₁ c₂ d₁ d₂ newC newD p c st = .ok st') :
    st.fields.paramStep p c = some st'.fields := by
  refine valueCommonCases_fields hphase (setState_fields hphase ?_) h
  split_ifs
  · exact hC
  · exact hD
  · rfl

theorem transportFin_fields {proto : Proto} (h : transportFin proto p c st = .ok st') :
    st.fields.paramStep p c = some st'.fields := by
  have hproto : ∀ x : UriParse,
      ({ x with uri := { x.uri with proto := proto } } : UriParse).fields =
        x.fields := fun _ => rfl
  unfold transportFin at h
  split at h
  case h_1 hc => exact stillAtUser_paramStep hc h
  all_goals obtain rfl := Except.ok.inj h
  case h_2 hc =>
    simp [Fields.paramStep, hc, hproto, semicolonCase_fields hphase]
  case h_3 hc => simp [Fields.paramStep, hc, hproto, questionCase_fields]
  case h_4 hc =>
    have hcolon := colonCase_fields p hphase (rfl : UriState.uriValP.phase = .param)
    simpa [Fields.paramStep, hc] using hcolon.symm
  case h_5 =>
    have hother := setState_fields hphase (rfl : UriState.uriValP.phase = .param)
    unfold Fields.paramStep
    split <;> simp_all

end

theorem paramFin_fields {setName : SipUri → Str → SipUri} {eq : UriState}
    (hset : ∀ (x : UriParse) name,
      ({ x with uri := setName x.uri name } : UriParse).fields = x.fields)
    (hphase : st.state.phase = .param) (heq : eq.phase = .param)
    (h : paramFin setName eq p c st = .ok st') :
    st.fields.paramStep p c = some st'.fields := by
  unfold paramFin at h
  split at h
  case h_1 hc => exact stillAtUser_paramStep hc h
  all_goals obtain rfl := Except.ok.inj h
  case h_2 hc =>
    simp [Fields.paramStep, hc, hset, semicolonCase_fields hphase]
  case h_3 hc => simp [Fields.paramStep, hc, hset, questionCase_fields]
  case h_4 hc =>
    have hcolon : (colonCase p st).fields = st.fields.mightBePass p :=
      colonCase_fields p hphase (rfl : UriState.uriParamP.phase = .param)
    simp [Fields.paramStep, hc, hcolon]
  case h_5 =>
    have hnew : (if c = '='.toUInt8 then eq else .uriParamP).phase =
        .param := by
      split_ifs
      · exact heq
      · rfl
    have hother := setState_fields hphase hnew
    unfold Fields.paramStep
    split <;> simp_all

theorem paramEq_fields {param : Param} {values : List (Char × Char × UriState)}
    (hphase : st.state.phase = .param)
    (hvalues : ∀ x ∈ values, x.2.2.phase = .param)
    (h : paramEq param values p c st = .ok st') :
    st.fields.paramStep p c = some st'.fields := by
  unfold paramEq at h
  have hfields : ({ st with param := some param } : UriParse).fields =
      st.fields := rfl
  rw [← hfields]
  refine paramCommonCases_fields hphase ?_ h
  simp only [fields, hphase]
  split
  · rename_i hfind
    have hmem := List.mem_of_find?_eq_some hfind
    simp [hvalues _ hmem]
  · rfl

/-- In all the states that look for parameters a byte does the same to the
parts of the URI. -/
theorem step_param (hphase : st.state.phase = .param) (h : step p c st = .ok st') :
    st.fields.paramStep p c = some st'.fields := by
  have hlr : ∀ (x : UriParse) name,
      ({ x with uri := setLr x.uri name } : UriParse).fields = x.fields :=
    fun _ _ => rfl
  have hr2 : ∀ (x : UriParse) name,
      ({ x with uri := setR2 x.uri name } : UriParse).fields = x.fields :=
    fun _ _ => rfl
  unfold step at h
  split at h
  case h_10 =>
    refine paramCommonCases_fields hphase ?_ h
    simp only [fields, hphase, paramStart]
    split_ifs <;> rfl
  case h_11 => exact paramCommonCases_fields hphase rfl h
  case h_12 => exact valueCommonCases_fields hphase rfl h
  all_goals first
    | exact paramSwitch_fields hphase rfl h
    | exact valueSwitch_fields hphase rfl h
    | exact paramSwitchBig_fields hphase rfl rfl h
    | exact valueSwitchBig_fields hphase rfl rfl h
    | exact transportFin_fields hphase h
    | exact paramFin_fields hlr hphase rfl h
    | exact paramFin_fields hr2 hphase rfl h
    | exact paramEq_fields hphase (by simp [UriState.phase]) h
    | simp_all [UriState.phase]

/-- What a byte does to the parts of the URI in the headers. -/
theorem step_headers (hstate : st.state = .uriHeaders) (h : step p c st = .ok st') :
    st.fields.headersStep p c = some st'.fields := by
  unfold step at h
  rw [hstate] at h
  simp only [stepHeaders] at h
  unfold Fields.headersStep
  have hfound : st.fields.foundUser = st.foundUser := rfl
  split at h
  case h_1 hc =>
    obtain ⟨hno, hfields⟩ := stillAtUser_fields h
    simp [hc, hfound, hno, hfields]
  case h_2 hc =>
    split_ifs at h with hf hp
    obtain rfl := Except.ok.inj h
    simp_all [fields]
  case h_3 hc =>
    obtain rfl := Except.ok.inj h
    simp [hc, mightBePass_fields]
  case h_4 hc =>
    obtain rfl := Except.ok.inj h
    simp [hc, dropPass_fields]
  case h_5 =>
    obtain rfl := Except.ok.inj h
    split <;> simp_all

/-- At the end of the URI all the states that look for parameters close the
parameters, if they accept. -/
theorem finish_param {uri : SipUri} (hphase : st.state.phase = .param) (h : finish p st = .ok uri) :
    uri.parts = { st.uri.parts with params := Str.span st.s p } := by
  have hset : ∀ x : UriParse, (paramSet p x).uri.parts = x.uri.parts :=
    fun x => congrArg Fields.uri (@paramSet_fields _ x)
  have hend : (endParams p st).uri.parts =
      { st.uri.parts with params := Str.span st.s p } := rfl
  have hproto : ∀ (x : SipUri) proto,
      ({ x with proto := proto } : SipUri).parts = x.parts := fun _ _ => rfl
  have hlr : ∀ (x : SipUri) name, (setLr x name).parts = x.parts :=
    fun _ _ => rfl
  have hr2 : ∀ (x : SipUri) name, (setR2 x name).parts = x.parts :=
    fun _ _ => rfl
  unfold finish at h
  split at h
  all_goals first
    | exact absurd hphase (by rw [‹st.state = _›]; decide)
    | (obtain rfl := Except.ok.inj h; simp only [hproto, hlr, hr2, hset, hend])
    | cases h

end Moves

end Msicp.Parser
