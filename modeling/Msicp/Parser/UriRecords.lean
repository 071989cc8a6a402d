import Msicp.Parser.UriParams

/-!
# What is recorded while the automaton reads

Each piece is recorded when it is closed.  The name states know its whole text,
the states of a value know its name, and in `URI_PARAM_P` nothing that follows
makes it count.  An `@` takes back all that was recorded.
-/

namespace Msicp.Parser

open Msicp.Support Msicp.Tcp List Param
open Msicp.Avp (tolower sameName)

/-- Where the automaton is in the piece `w` at `q`. -/
inductive InPiece (q : ℕ) (w : Bytes) (st : UriParse) : Prop
  | name (htext : st.state.text = some (w.map tolower))
      (hb : w ≠ [] → st.b = q)
  | skip (hstate : st.state = .uriParamP) (hdead : Dead (w.map tolower))
  | value {param : Param} (hstate : st.state.inValue = true)
      (hvalued : param.Valued (w.map tolower))
      (hparam : st.param = some param) (hb : st.b = q)
      (hv : st.v = q + param.name.length + 1)

/-- The fields of the parameters are the same. -/
def SameParams (uri uri' : SipUri) : Prop :=
  ∀ param, uri'.param param = uri.param param ∧ uri'.paramVal param = uri.paramVal param

section Recording

variable {e p q : ℕ} {w x : Bytes} {ps : List (ℕ × Bytes)}
variable {uri uri' : SipUri} {param other : Param}

theorem Recorded.congr (h : Recorded e uri ps) (hsame : SameParams uri uri') :
    Recorded e uri' ps := by
  intro param hparam
  rw [(hsame param).1, (hsame param).2]
  exact h param hparam

theorem pieceStr_isSome (piece : Option (ℕ × Bytes)) :
    (pieceStr piece).s.isSome = piece.isSome := by
  cases piece <;> rfl

theorem Recorded.isSome_iff (h : Recorded e uri ps) (hparam : param ∈ reachable) :
    (uri.param param).s.isSome = true ↔ ∃ piece ∈ ps, param.counts e piece = true := by
  rw [(h param hparam).1, pieceStr_isSome, getLast?_isSome, Ne, filter_eq_nil_iff]
  simp

theorem counts_iff : param.counts e (q, w) = true ↔ param.Valued (w.map tolower) ∨ param = .lr ∧
      (w.map tolower = ascii "lr" ∨ w.map tolower = ascii "lr=" ∧ q + w.length = e) := by
  have hlr : sameName w (ascii "lr") ↔ w.map tolower = ascii "lr" := Iff.rfl
  have heq : sameName w (ascii "lr=") ↔ w.map tolower = ascii "lr=" := Iff.rfl
  simp only [counts, Bool.or_eq_true, Bool.and_eq_true,
    decide_eq_true_eq, hasValue_iff, hlr, heq]

theorem Recorded.ignore (h : Recorded e uri ps)
    (hno : ∀ param ∈ reachable, param.counts e (q, w) = false) :
    Recorded e uri (ps ++ [(q, w)]) := by
  intro param hparam
  have hcounts := hno param hparam
  have hvalue : param.hasValue w = false := by
    rw [counts, Bool.or_eq_false_iff] at hcounts
    exact hcounts.1
  simpa [filter_append, hcounts, hvalue] using h param hparam

theorem setParam_param (a b : Str) : (uri.setParam param a b).param other =
      if other = param then a else uri.param other := by
  cases param <;> cases other <;> rfl

theorem setParam_paramVal (a b : Str) : (uri.setParam param a b).paramVal other =
      if other = param then b else uri.paramVal other := by
  cases param <;> cases other <;> rfl

theorem Param.Valued.valueStr (h : param.Valued (w.map tolower)) (hp : q + w.length = p) :
    valueStr (some (q, w)) = Str.span (q + param.name.length + 1) p := by
  have hvalue := Param.hasValue_iff.mpr h
  rw [hasValue, Bool.and_eq_true, names_iff] at hvalue
  have hlen : (pieceName w).length = param.name.length := by
    rw [← hvalue.1, length_map]
  rcases piece_split w with ⟨-, hnone⟩ | ⟨v, hw, hv⟩
  · simp [hnone] at hvalue
  · have hlength := congrArg List.length hw
    rw [List.length_append, length_cons] at hlength
    simp only [Parser.valueStr, hv, hlen, Option.getD_some, Str.ofText,
      Str.span, Str.mk.injEq, true_and]
    omega

/-- A piece with a value fills both fields of its parameter. -/
theorem Recorded.value (h : Recorded e uri ps)
    (hvalued : param.Valued (w.map tolower)) (hp : q + w.length = p) :
    Recorded e (uri.setParam param (Str.span q p)
        (Str.span (q + param.name.length + 1) p)) (ps ++ [(q, w)]) := by
  have hstr : pieceStr (some (q, w)) = Str.span q p :=
    (span_eq_ofText hp.symm).symm
  intro other hother
  rw [setParam_param, setParam_paramVal]
  by_cases hsame : other = param
  · subst hsame
    have hcounts : other.counts e (q, w) = true :=
      counts_iff.mpr (Or.inl hvalued)
    have hvalue : other.hasValue w = true := Param.hasValue_iff.mpr hvalued
    simp [filter_append, hcounts, hvalue, hstr, hvalued.valueStr hp]
  · have hno : ¬ other.Valued (w.map tolower) := fun hv =>
      hsame (hv.unique hvalued)
    have hvalue : other.hasValue w = false := by
      rw [Bool.eq_false_iff, Ne, hasValue_iff]
      exact hno
    have hcounts : other.counts e (q, w) = false := by
      rw [Bool.eq_false_iff, Ne, counts_iff]
      rintro (hv | ⟨-, hlr | ⟨hlr, -⟩⟩)
      · exact hno hv
      all_goals
        obtain ⟨d, t, heq, -⟩ := hvalued
        rw [hlr] at heq
        have hlen := congrArg List.length heq
        revert heq hlen
        cases param <;> simp [Param.name, ascii]
    simpa [filter_append, hsame, hcounts, hvalue] using h other hother

theorem setLr_param (a : Str) : (setLr uri a).param other =
    if other = .lr then a else uri.param other := by
  cases other <;> rfl

theorem setLr_paramVal (a : Str) : (setLr uri a).paramVal other = uri.paramVal other := by
  cases other <;> rfl

theorem Recorded.name (h : Recorded e uri ps)
    (hno : ∀ param : Param, ¬ param.Valued (w.map tolower))
    (hlr : Param.lr.counts e (q, w) = true) (hp : q + w.length = p) :
    Recorded e (setLr uri (Str.span q p)) (ps ++ [(q, w)]) := by
  have hstr : pieceStr (some (q, w)) = Str.span q p :=
    (span_eq_ofText hp.symm).symm
  intro other hother
  have hvalue : other.hasValue w = false := by
    rw [Bool.eq_false_iff, Ne, hasValue_iff]
    exact hno other
  rw [setLr_param, setLr_paramVal]
  by_cases hsame : other = .lr
  · subst hsame
    simpa [filter_append, hlr, hvalue, hstr] using (h .lr hother).2
  · have hcounts : other.counts e (q, w) = false := by
      rw [Bool.eq_false_iff, Ne, counts_iff]
      rintro (hv | ⟨heq, -⟩)
      · exact hno other hv
      · exact hsame heq
    simpa [filter_append, hsame, hcounts, hvalue] using h other hother

end Recording

/-! ## The texts of the states -/

section Texts

variable {e q : ℕ} {state : UriState} {w x : Bytes} {param : Param}

section

variable (hx : state.text = some x)
include hx

theorem text_not_valued : ¬ param.Valued x := by
  have hmem : (61 : UInt8) ∉ x.dropLast := by
    cases state <;> cases hx <;> decide
  rintro ⟨d, t, rfl, -⟩
  apply hmem
  rw [dropLast_append_of_ne_nil (by simp)]
  simp

theorem text_no_eq (heq : state.eqParam = none) : (61 : UInt8) ∉ x := by
  cases state <;> cases hx <;> first | decide | cases heq

theorem text_eqParam (heq : state.eqParam = some param) : x = param.key ∧ param ∈ reachable := by
  cases state <;> cases hx <;> cases heq <;> decide

theorem text_lr (hlr : x = ascii "lr") : state = .plrRFin := by
  cases state <;> cases hx <;> first | rfl | exact absurd hlr (by decide)

theorem text_lrEq (hlr : x = ascii "lr=") : state = .plrEq := by
  cases state <;> cases hx <;> first | rfl | exact absurd hlr (by decide)

end

theorem text_counts (hx : state.text = some (w.map tolower))
    (hlr : state ≠ .plrRFin) (hend : state = .plrEq → q + w.length ≠ e) :
    param.counts e (q, w) = false := by
  rw [Bool.eq_false_iff, Ne, counts_iff]
  rintro (hv | ⟨-, heq | ⟨htext, heq⟩⟩)
  · exact text_not_valued hx hv
  · exact hlr (text_lr hx heq)
  · exact hend (text_lrEq hx htext) heq

theorem dead_counts (hdead : Dead (w.map tolower)) :
    ∀ param ∈ reachable, param.counts e (q, w) = false := by
  intro param hparam
  have h := hdead []
  rw [append_nil] at h
  rw [Bool.eq_false_iff, Ne, counts_iff]
  rintro (hv | ⟨-, heq | ⟨heq, -⟩⟩)
  · exact h.2.2 param hparam hv
  · exact h.1 heq
  · exact h.2.1 heq

theorem starts_of_after {c : UInt8} (h : UriState.uriParam.after c ≠ .uriParamP) :
    startsParam c = true := by
  rw [← paramStart_eq, paramStart] at h
  unfold startsParam
  split_ifs at h with h₁ h₂ h₃ h₄
  · rcases h₁ with rfl | rfl <;> decide
  · rcases h₂ with rfl | rfl <;> decide
  · rcases h₃ with rfl | rfl <;> decide
  · rcases h₄ with rfl | rfl <;> decide
  · exact absurd rfl h

end Texts

/-! ## The common cases -/

/-- What a byte does in the piece `w` at `q` behind the pieces `ps`. -/
def PieceStep (e : ℕ) (c : UInt8) (ps : List (ℕ × Bytes)) (q : ℕ) (w : Bytes)
    (st' : UriParse) : Prop :=
  match kind c with
  | .atSign => Recorded e st'.uri []
  | .semicolon => Recorded e st'.uri (ps ++ [(q, w)]) ∧ st'.state = .uriParam
  | .question => Recorded e st'.uri (ps ++ [(q, w)])
  | _ => Recorded e st'.uri ps ∧ InPiece q (w ++ [c]) st'

section Cases

variable {e p q : ℕ} {c : UInt8} {ps : List (ℕ × Bytes)} {w : Bytes}
variable {st st' other : UriParse}

theorem stillAtUser_recorded (h : stillAtUser p st = .ok st') : Recorded e st'.uri [] := by
  unfold stillAtUser at h
  split_ifs at h
  obtain rfl := Except.ok.inj h
  intro param _
  cases param <;> exact ⟨rfl, rfl⟩

theorem dropPass_same : (dropPass st).uri = st.uri ∧
    (dropPass st).b = st.b ∧ (dropPass st).v = st.v ∧
    (dropPass st).param = st.param := by
  unfold dropPass
  split_ifs <;> exact ⟨rfl, rfl, rfl, rfl⟩

theorem mightBePass_same : (mightBePass p st).uri = st.uri ∧
    (mightBePass p st).b = st.b ∧ (mightBePass p st).v = st.v ∧
    (mightBePass p st).param = st.param := by
  unfold mightBePass
  split_ifs <;> exact ⟨rfl, rfl, rfl, rfl⟩

theorem PieceStep.stay (hat : kind c ≠ .atSign) (hsemi : kind c ≠ .semicolon)
    (hquestion : kind c ≠ .question)
    (h : Recorded e st'.uri ps ∧ InPiece q (w ++ [c]) st') :
    PieceStep e c ps q w st' := by
  unfold PieceStep
  split
  · exact absurd ‹_› hat
  · exact absurd ‹_› hsemi
  · exact absurd ‹_› hquestion
  · exact h

theorem semicolonCase_same : SameParams st.uri (semicolonCase st).uri ∧
    (semicolonCase st).b = st.b ∧ (semicolonCase st).v = st.v ∧
    (semicolonCase st).param = st.param := by
  refine ⟨fun _ => ?_, dropPass_same.2⟩
  rw [semicolonCase, dropPass_same.1]
  exact ⟨rfl, rfl⟩

theorem questionCase_same : SameParams st.uri (questionCase p st).uri ∧
    (questionCase p st).b = st.b ∧ (questionCase p st).v = st.v ∧
    (questionCase p st).param = st.param := by
  refine ⟨fun param => ?_, dropPass_same.2⟩
  rw [questionCase, dropPass_same.1]
  cases param <;> exact ⟨rfl, rfl⟩

/-- A state in which the piece, if it is closed, counts for nothing. -/
theorem paramCommonCases_piece (h : paramCommonCases p c st other = .ok st')
    (hrec : Recorded e st.uri ps)
    (hno : ∀ param ∈ reachable, param.counts e (q, w) = false)
    (hcolon : c = 58 → Dead ((w ++ [c]).map tolower))
    (hother : inside c = true → Recorded e other.uri ps ∧ InPiece q (w ++ [c]) other) :
    PieceStep e c ps q w st' := by
  unfold paramCommonCases at h
  unfold PieceStep
  split at h
  case h_1 hc =>
    rw [hc]
    exact stillAtUser_recorded h
  all_goals obtain rfl := Except.ok.inj h
  case h_2 hc =>
    rw [hc]
    exact ⟨(hrec.ignore hno).congr semicolonCase_same.1, rfl⟩
  case h_3 hc =>
    rw [hc]
    exact (hrec.ignore hno).congr questionCase_same.1
  case h_4 hc =>
    rw [hc]
    refine ⟨?_, InPiece.skip rfl (hcolon (kind_colon.mp hc))⟩
    rw [colonCase, mightBePass_same.1]
    exact hrec
  case h_5 hat hsemi hquestion hcolon =>
    exact PieceStep.stay hat hsemi hquestion (hother (inside_of_kind hat hcolon hsemi hquestion))

theorem paramSet_recorded {param : Param}
    (hvalued : param.Valued (w.map tolower)) (hp : q + w.length = p)
    (hrec : Recorded e st.uri ps) (hparam : st.param = some param)
    (hb : st.b = q) (hv : st.v = q + param.name.length + 1) :
    Recorded e (paramSet p st).uri (ps ++ [(q, w)]) := by
  unfold paramSet
  rw [hparam]
  dsimp only
  rw [hb, hv]
  exact hrec.value hvalued hp

theorem paramSet_state : (paramSet p st).state = st.state := by
  unfold paramSet
  split <;> rfl

theorem Param.Valued.concat {param : Param} (hvalued : param.Valued (w.map tolower)) (c : UInt8) :
    param.Valued ((w ++ [c]).map tolower) := by
  obtain ⟨d, t, heq, hd⟩ := hvalued
  exact ⟨d, t ++ [tolower c], by simp [heq], hd⟩

end Cases

/-! ## One step in a piece -/

section Steps

variable {e p q : ℕ} {c : UInt8} {ps : List (ℕ × Bytes)} {w : Bytes}
variable {st st' : UriParse}

/-- A state that spells out a name, but `PLR_R_FIN`. -/
theorem step_name (htext : st.state.text = some (w.map tolower))
    (hb : w ≠ [] → st.b = q) (heq : st.state.eqParam = none)
    (hlr : st.state ≠ .plrRFin) (hp : q + w.length = p) (hend : p < e)
    (hrec : Recorded e st.uri ps) (h : step p c st = .ok st') :
    PieceStep e c ps q w st' := by
  rw [step_text htext heq hlr] at h
  have hno := text_no_eq htext heq
  refine paramCommonCases_piece h hrec (fun _ _ => text_counts htext hlr fun _ => by omega) ?_ ?_
  · rintro rfl
    rw [map_append]
    refine dead_concat hno fun param _ hpre => ?_
    exact colon_notMem_key param (hpre.subset (by simp [tolower]))
  · intro _
    refine ⟨hrec, ?_⟩
    by_cases hafter : st.state.after c = .uriParamP
    · refine InPiece.skip hafter ?_
      rw [map_append]
      exact dead_concat hno fun param hparam =>
        not_prefix_after htext heq hafter hparam
    · refine InPiece.name ?_ fun _ => ?_
      · rw [map_append]
        exact text_after htext hafter
      · by_cases hstart : st.state = .uriParam
        · have hw : w = [] := by
            rw [hstart] at htext
            simpa [UriState.text] using htext
          rw [hstart] at hafter
          subst hw
          simp only [hstart, starts_of_after hafter, and_self, if_true]
          exact hp.symm
        · have hw : w ≠ [] := by
            rintro rfl
            revert hstart htext
            cases st.state <;> simp [UriState.text, ascii]
          simp only [hstart, false_and, if_false]
          exact hb hw

/-- The states behind the `=` of a known parameter. -/
theorem step_eq {param : Param} (htext : st.state.text = some (w.map tolower))
    (hb : w ≠ [] → st.b = q) (heq : st.state.eqParam = some param)
    (hp : q + w.length = p) (hend : p < e)
    (hrec : Recorded e st.uri ps) (h : step p c st = .ok st') :
    PieceStep e c ps q w st' := by
  obtain ⟨hkey, -⟩ := text_eqParam htext heq
  have hw : w ≠ [] := by
    rintro rfl
    exact absurd hkey (by simp [key])
  have hlr : st.state ≠ .plrRFin := by
    intro hst
    rw [hst] at heq
    cases heq
  obtain ⟨new, hnew, hstep⟩ := step_eqParam heq
  rw [hstep] at h
  refine paramCommonCases_piece h hrec (fun _ _ => text_counts htext hlr fun _ => by omega) ?_ ?_
  · rintro rfl
    rw [map_append, hkey]
    exact dead_colon param
  · intro hin
    refine ⟨hrec, InPiece.value hnew ?_ rfl (hb hw) ?_⟩
    · refine ⟨tolower c, [], by simp [hkey, key], ?_⟩
      rw [Ne, tolower_eq_iff (by decide)]
      rintro rfl
      exact absurd hin (by decide)
    · have hlen := congrArg List.length hkey
      simp only [length_map, key, List.length_append, length_singleton] at hlen
      change p = _
      omega

/-- `PLR_R_FIN` -/
theorem step_lr (hstate : st.state = .plrRFin) (htext : w.map tolower = ascii "lr") (hb : st.b = q)
    (hp : q + w.length = p) (hrec : Recorded e st.uri ps)
    (h : step p c st = .ok st') : PieceStep e c ps q w st' := by
  have htable : st.state.text = some (w.map tolower) := by
    rw [hstate, htext]
    rfl
  have hno : ∀ param : Param, ¬ param.Valued (w.map tolower) :=
    fun param => text_not_valued htable
  have hcounts : Param.lr.counts e (q, w) = true :=
    counts_iff.mpr (Or.inr ⟨rfl, Or.inl htext⟩)
  have hdead : ∀ x, x ≠ 61 → Dead (ascii "lr" ++ [x]) := by
    intro x hx
    refine dead_concat (by decide) fun param hparam hpre => ?_
    have hnext : param.key[2]? = some x := by
      obtain ⟨t, ht⟩ := hpre
      rw [← ht]
      rfl
    revert hpre hnext hparam
    cases param <;> simp [key, Param.name, ascii, reachable, Ne.symm hx]
  unfold step at h
  rw [hstate] at h
  simp only [paramFin] at h
  unfold PieceStep
  split at h
  case h_1 hc =>
    rw [hc]
    exact stillAtUser_recorded h
  all_goals obtain rfl := Except.ok.inj h
  case h_2 hc =>
    rw [hc]
    obtain ⟨hsame, hstart, -⟩ := @semicolonCase_same st
    refine ⟨?_, rfl⟩
    simp only [hstart, hb]
    exact (hrec.congr hsame).name hno hcounts hp
  case h_3 hc =>
    rw [hc]
    obtain ⟨hsame, hstart, -⟩ := @questionCase_same p st
    simp only [hstart, hb]
    exact (hrec.congr hsame).name hno hcounts hp
  case h_4 hc =>
    rw [hc]
    refine ⟨?_, InPiece.skip rfl ?_⟩
    · rw [colonCase, mightBePass_same.1]
      exact hrec
    · rw [map_append, htext, kind_colon.mp hc]
      exact hdead _ (by decide)
  case h_5 hat hsemi hquestion hcolon =>
    refine PieceStep.stay hat hsemi hquestion ⟨hrec, ?_⟩
    by_cases hc : c = 61
    · refine InPiece.name ?_ fun _ => hb
      rw [map_append, htext, hc]
      rfl
    · refine InPiece.skip (if_neg hc) ?_
      rw [map_append, htext]
      exact hdead _ (by rwa [Ne, tolower_eq_iff (by decide)])

theorem step_skip (hstate : st.state = .uriParamP)
    (hdead : Dead (w.map tolower)) (hrec : Recorded e st.uri ps)
    (h : step p c st = .ok st') : PieceStep e c ps q w st' := by
  have happend : Dead ((w ++ [c]).map tolower) := by
    rw [map_append]
    exact hdead.append
  unfold step at h
  rw [hstate] at h
  exact paramCommonCases_piece h hrec (dead_counts hdead) (fun _ => happend)
    fun _ => ⟨hrec, InPiece.skip hstate happend⟩

theorem step_value {param : Param} (hstate : st.state.inValue = true)
    (hvalued : param.Valued (w.map tolower)) (hparam : st.param = some param)
    (hb : st.b = q) (hv : st.v = q + param.name.length + 1)
    (hp : q + w.length = p) (hrec : Recorded e st.uri ps)
    (h : step p c st = .ok st') : PieceStep e c ps q w st' := by
  have hsemi := @semicolonCase_same st
  have hquestion := @questionCase_same p st
  have hclose : ∀ same : UriParse, SameParams st.uri same.uri ∧
      same.b = st.b ∧ same.v = st.v ∧ same.param = st.param →
      Recorded e (paramSet p same).uri (ps ++ [(q, w)]) := by
    rintro same ⟨hsame, hb', hv', hparam'⟩
    exact paramSet_recorded hvalued hp (hrec.congr hsame)
      (hparam'.trans hparam) (hb'.trans hb) (hv'.trans hv)
  have hcolon : Recorded e ({ colonCase p st with state := .uriValP } :
        UriParse).uri ps ∧
      InPiece q (w ++ [c]) { colonCase p st with state := .uriValP } := by
    obtain ⟨huri, hb', hv', hparam'⟩ := @mightBePass_same p st
    refine ⟨?_, InPiece.value rfl (hvalued.concat c) (hparam'.trans hparam)
      (hb'.trans hb) (hv'.trans hv)⟩
    simp only [colonCase, huri]
    exact hrec
  have hstay : ∀ new : UriState, new.inValue = true →
      Recorded e ({ st with state := new } : UriParse).uri ps ∧
        InPiece q (w ++ [c]) { st with state := new } := fun new hnew =>
    ⟨hrec, InPiece.value hnew (hvalued.concat c) hparam hb hv⟩
  obtain ⟨close, new, hnew, hkeeps, hstep⟩ := step_inValue hstate
  have hsame : ∀ uri, SameParams uri (close uri) := by
    intro uri other
    rcases hkeeps with rfl | ⟨proto, rfl⟩
    · exact ⟨rfl, rfl⟩
    · cases other <;> exact ⟨rfl, rfl⟩
  rw [hstep, valueCases] at h
  split at h
  case h_1 hc =>
    unfold PieceStep
    rw [hc]
    exact stillAtUser_recorded h
  all_goals obtain rfl := Except.ok.inj h
  case h_2 hc =>
    unfold PieceStep
    rw [hc]
    exact ⟨(hclose _ hsemi).congr (hsame _), paramSet_state⟩
  case h_3 hc =>
    unfold PieceStep
    rw [hc]
    exact (hclose _ hquestion).congr (hsame _)
  case h_4 hc =>
    exact PieceStep.stay (by simp [hc]) (by simp [hc]) (by simp [hc]) hcolon
  case h_5 hat hsemi hquestion hcolon =>
    exact PieceStep.stay hat hsemi hquestion (hstay new hnew)

theorem InPiece.step (hin : InPiece q w st) (hp : q + w.length = p)
    (hend : p < e) (hrec : Recorded e st.uri ps)
    (h : Parser.step p c st = .ok st') : PieceStep e c ps q w st' := by
  cases hin with
  | name htext hb =>
    by_cases hlr : st.state = .plrRFin
    · rw [hlr] at htext
      have hw : w.map tolower = ascii "lr" := (Option.some.inj htext).symm
      refine step_lr hlr hw (hb ?_) hp hrec h
      rintro rfl
      exact absurd hw (by decide)
    · cases heq : st.state.eqParam with
      | none => exact step_name htext hb heq hlr hp hend hrec h
      | some param => exact step_eq htext hb heq hp hend hrec h
  | skip hstate hdead => exact step_skip hstate hdead hrec h
  | value hstate hvalued hparam hb hv =>
    exact step_value hstate hvalued hparam hb hv hp hrec h

end Steps

end Msicp.Parser
