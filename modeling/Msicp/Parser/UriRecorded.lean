import Msicp.Parser.UriRecords
import Msicp.Parser.UriValues

/-!
# The parameters of an accepted URI

Up to the parameters nothing is recorded.  Then the closed pieces are, and at a
`?` or at the end of the URI the last one is closed, too.
-/

namespace Msicp.Parser

open Msicp.Support Msicp.Tcp List Option

/-- What is recorded of the text up to `p`. -/
def ReadParams (e : ℕ) (buf : Bytes) (p : ℕ) (st : UriParse) : Prop :=
  match st.state.phase with
  | .param =>
    st.s ≤ p ∧ ∃ ps q w,
      EndsIn 59 st.s ((buf.take p).drop st.s) ps q w ∧
        Recorded e st.uri ps ∧ InPiece q w st
  | .headers => Recorded e st.uri (st.uri.pieces buf)
  | _ => st.uri.params = {} ∧ Recorded e st.uri []

section Reading

variable {e p : ℕ} {c : UInt8} {buf : Bytes} {st st' : UriParse}

theorem pieces_span {uri : SipUri} {s q : ℕ} {w : Bytes}
    {ps : List (ℕ × Bytes)} (hparams : uri.params = Str.span s p)
    (h : EndsIn 59 s ((buf.take p).drop s) ps q w) :
    uri.pieces buf = ps ++ [(q, w)] := by
  rw [← h.pieces_eq, drop_take]
  simp only [SipUri.pieces, hparams, Str.span, Str.text]

/-- Nothing is recorded, and the parameters may start. -/
structure Unrecorded (p : ℕ) (st st' : UriParse) : Prop where
  same : SameParams st.uri st'.uri
  params : st'.uri.params = st.uri.params
  starts : st'.state.phase = .param → st'.state = .uriParam ∧ st'.s = p + 1

theorem checkHostEnd_params {other : Except UriError UriParse}
    (hother : other = .ok st' → Unrecorded p st st')
    (h : checkHostEnd p c st other = .ok st') : Unrecorded p st st' := by
  unfold checkHostEnd at h
  split at h
  case h_1 =>
    obtain rfl := Except.ok.inj h
    refine ⟨fun param => ?_, rfl, fun hphase => by cases hphase⟩
    cases param <;> exact ⟨rfl, rfl⟩
  case h_2 =>
    obtain rfl := Except.ok.inj h
    refine ⟨fun param => ?_, rfl, fun _ => ⟨rfl, rfl⟩⟩
    cases param <;> exact ⟨rfl, rfl⟩
  case h_3 =>
    obtain rfl := Except.ok.inj h
    refine ⟨fun param => ?_, rfl, fun hphase => by cases hphase⟩
    cases param <;> exact ⟨rfl, rfl⟩
  case h_4 => cases h
  case h_5 => cases h
  case h_6 => exact hother h

/-- Before the parameters nothing is recorded. -/
theorem stepHostPort_params (h : stepHostPort p c st = .ok st')
    (hphase : st.state.phase ≠ .param) : Unrecorded p st st' := by
  have hstay : Unrecorded p st st :=
    ⟨fun _ => ⟨rfl, rfl⟩, rfl, fun h => absurd h hphase⟩
  unfold stepHostPort at h
  split at h
  case h_6 => exact checkHostEnd_params (fun h => by cases h; exact hstay) h
  case h_7 => exact checkHostEnd_params (fun h => by cases h) h
  all_goals
    try split at h
  all_goals
    try split_ifs at h
  all_goals first
    | (cases h; done)
    | (obtain rfl := Except.ok.inj h
       first
         | exact hstay
         | (refine ⟨fun param => ?_, rfl, fun hph => ?_⟩
            · cases param <;> exact ⟨rfl, rfl⟩
            · first
                | exact ⟨rfl, rfl⟩
                | cases hph
                | exact absurd hph hphase))

theorem Unrecorded.read (h : Unrecorded p st st')
    (hparams : st.uri.params = {}) (hrec : Recorded e st.uri []) :
    ReadParams e buf (p + 1) st' := by
  have hparams' : st'.uri.params = {} := h.params.trans hparams
  have hrec' : Recorded e st'.uri [] := hrec.congr h.same
  have hpieces : st'.uri.pieces buf = [] := by
    simp [SipUri.pieces, hparams']
  unfold ReadParams
  split
  case h_1 hphase =>
    obtain ⟨hstate, hs⟩ := h.starts hphase
    rw [hs, drop_take_self]
    exact ⟨le_refl _, [], p + 1, [], EndsIn.nil _ _, hrec',
      InPiece.name (by rw [hstate]; rfl) (by simp)⟩
  case h_2 => rwa [hpieces]
  case h_3 => exact ⟨hparams', hrec'⟩

theorem read_atUser (hphase : st'.state.phase = .host)
    (hparams : st'.uri.params = {}) (hrec : Recorded e st'.uri []) :
    ReadParams e buf p st' := by
  unfold ReadParams
  rw [hphase]
  exact ⟨hparams, hrec⟩

theorem paramStep_s {f f' : Fields} (hat : kind c ≠ .atSign)
    (hquestion : kind c ≠ .question) (h : f.paramStep p c = some f') :
    f'.s = f.s := by
  unfold Fields.paramStep at h
  split at h
  case h_1 hc => exact absurd hc hat
  case h_3 hc => exact absurd hc hquestion
  all_goals obtain rfl := some.inj h
  case h_2 =>
    rw [Fields.dropPass]
    split_ifs <;> rfl
  case h_4 =>
    rw [Fields.mightBePass]
    split_ifs <;> rfl
  case h_5 => rfl

theorem InPiece.phase {q : ℕ} {w : Bytes} (h : InPiece q w st) :
    st.state.phase = .param := by
  cases h with
  | name htext =>
    revert htext
    cases st.state <;> intro htext <;> first | rfl | cases htext
  | skip hstate => rw [hstate]; rfl
  | value hstate =>
    revert hstate
    cases st.state <;> intro hstate <;> first | rfl | cases hstate

theorem ReadParams.step_param (hphase : st.state.phase = .param)
    (hread : ReadParams e buf p st) (hp : p < buf.length) (hend : p < e)
    (h : step p buf[p] st = .ok st') : ReadParams e buf (p + 1) st' := by
  unfold ReadParams at hread
  rw [hphase] at hread
  obtain ⟨hs, ps, q, w, hends, hrec, hin⟩ := hread
  have hstep := Parser.step_param hphase h
  have hfields := hstep
  have htext : (buf.take (p + 1)).drop st.s =
      (buf.take p).drop st.s ++ [buf[p]] := by
    rw [take_succ_eq_append_getElem hp,
      drop_append_of_le_length (by simp; omega)]
  have hlen : ((buf.take p).drop st.s).length = p - st.s := by
    simp only [length_drop, length_take]
    omega
  have hstop : q + w.length = p := by
    rw [hends.stop, hlen]
    omega
  have hpiece := hin.step hstop hend hrec h
  unfold PieceStep at hpiece
  unfold Fields.paramStep at hfields
  have hf : ∀ f, st'.fields = f → st'.state.phase = f.phase ∧
      st'.uri.params = f.uri.params := by
    rintro f rfl
    exact ⟨rfl, rfl⟩
  split at hpiece
  case h_1 hc =>
    simp only [hc] at hfields
    split_ifs at hfields
    obtain ⟨hphase', hparams⟩ := hf _ (some.inj hfields).symm
    exact read_atUser hphase' hparams hpiece
  case h_2 hc =>
    simp only [hc] at hfields
    have hs' : st'.s = st.s :=
      paramStep_s (by simp [hc]) (by simp [hc]) hstep
    have hbyte : buf[p] = 59 := kind_semicolon.mp hc
    have hnew := hends.concat_sep
    rw [← hbyte, ← htext, ← hs'] at hnew
    unfold ReadParams
    rw [hpiece.2]
    exact ⟨by omega, _, _, _, hbyte ▸ hnew, hpiece.1,
      InPiece.name (by rw [hpiece.2]; rfl) (by simp)⟩
  case h_3 hc =>
    simp only [hc] at hfields
    obtain ⟨hphase', hparams⟩ := hf _ (some.inj hfields).symm
    have hdrop : ∀ f : Fields, f.dropPass.phase = f.phase ∧
        f.dropPass.uri = f.uri := by
      intro f
      rw [Fields.dropPass]
      split_ifs <;> exact ⟨rfl, rfl⟩
    rw [(hdrop _).1] at hphase'
    rw [(hdrop _).2] at hparams
    have hpieces : st'.uri.pieces buf = ps ++ [(q, w)] :=
      pieces_span hparams hends
    unfold ReadParams
    rw [hphase']
    rw [← hpieces] at hpiece
    exact hpiece
  case h_4 hat hsemi hquestion =>
    have hs' : st'.s = st.s := paramStep_s hat hquestion hstep
    have hnew := hends.concat fun hbyte => hsemi (kind_semicolon.mpr hbyte)
    rw [← htext, ← hs'] at hnew
    unfold ReadParams
    rw [hpiece.2.phase]
    exact ⟨by omega, ps, q, _, hnew, hpiece.1, hpiece.2⟩

theorem ReadParams.step_headers (hphase : st.state.phase = .headers)
    (hread : ReadParams e buf p st) (h : step p c st = .ok st') :
    ReadParams e buf (p + 1) st' := by
  have hstate : st.state = .uriHeaders := by
    revert hphase
    cases st.state <;> intro hphase <;> first | rfl | cases hphase
  have hstay : st'.state = st.state → st'.uri = st.uri →
      ReadParams e buf (p + 1) st' := by
    intro hstate' huri
    unfold ReadParams at hread ⊢
    rw [hphase] at hread
    rwa [hstate', hphase, huri]
  unfold Parser.step at h
  rw [hstate] at h
  simp only [stepHeaders] at h
  split at h
  case h_1 =>
    have hhost := (stillAtUser_fields h).2
    exact read_atUser (congrArg Fields.phase hhost)
      (congrArg (fun f => f.uri.params) hhost) (stillAtUser_recorded h)
  case h_2 =>
    split_ifs at h
    obtain rfl := Except.ok.inj h
    exact hstay rfl rfl
  case h_3 =>
    obtain rfl := Except.ok.inj h
    refine hstay ?_ mightBePass_same.1
    rw [mightBePass]
    split_ifs <;> rfl
  case h_4 =>
    obtain rfl := Except.ok.inj h
    refine hstay ?_ dropPass_same.1
    rw [dropPass]
    split_ifs <;> rfl
  case h_5 =>
    obtain rfl := Except.ok.inj h
    exact hstay rfl rfl

theorem ReadParams.step (hread : ReadParams e buf p st) (hp : p < buf.length)
    (hend : p < e) (h : step p buf[p] st = .ok st') :
    ReadParams e buf (p + 1) st' := by
  cases hphase : st.state.phase
  case param => exact hread.step_param hphase hp hend h
  case headers => exact hread.step_headers hphase h
  all_goals
    unfold ReadParams at hread
    rw [hphase] at hread
    have hhost : Parser.step p buf[p] st = stepHostPort p buf[p] st := by
      unfold Parser.step
      revert hphase
      cases st.state <;> intro hphase <;> first | rfl | cases hphase
    rw [hhost] at h
    exact (stepHostPort_params h (by simp [hphase])).read hread.1 hread.2

end Reading

section End

variable {p q : ℕ} {buf w : Bytes} {st : UriParse} {uri : SipUri}
variable {ps : List (ℕ × Bytes)}

theorem ReadParams.run {rest : Bytes} {st' : UriParse}
    (hread : ReadParams buf.length buf p st) (hrest : buf.drop p = rest)
    (h : run p rest st = .ok st') (hp : p ≤ buf.length) :
    ReadParams buf.length buf buf.length st' := by
  induction rest generalizing p st with
  | nil =>
    obtain rfl := Except.ok.inj h
    have hend : buf.length = p := by
      have := drop_eq_nil_iff.mp hrest
      omega
    rwa [hend] at hread ⊢
  | cons c rest ih =>
    have hlt : p < buf.length := by
      by_contra hge
      rw [drop_eq_nil_of_le (by omega)] at hrest
      cases hrest
    rw [drop_eq_getElem_cons hlt] at hrest
    obtain ⟨rfl, hnext⟩ := List.cons.inj hrest
    rw [Parser.run] at h
    cases hstep : Parser.step p buf[p] st with
    | error x =>
      rw [hstep] at h
      cases h
    | ok next =>
      rw [hstep] at h
      exact ih (hread.step hlt hlt hstep) hnext h hlt

theorem finish_text {x : Bytes} (hx : st.state.text = some x)
    (h : finish p st = .ok uri) :
    uri = (endParams p st).uri ∧ st.state ≠ .plrRFin ∧ st.state ≠ .plrEq ∨
      uri = setLr (endParams p st).uri (Str.span st.b p) ∧
        (x = ascii "lr" ∨ x = ascii "lr=") := by
  unfold finish at h
  cases hstate : st.state
  all_goals
    rw [hstate] at h hx
    first
      | (cases hx; done)
      | (cases h; done)
      | exact Or.inl ⟨(Except.ok.inj h).symm, by decide, by decide⟩
      | exact Or.inr ⟨(Except.ok.inj h).symm, Or.inl (some.inj hx).symm⟩
      | exact Or.inr ⟨(Except.ok.inj h).symm, Or.inr (some.inj hx).symm⟩

theorem finish_inValue (hstate : st.state.inValue = true)
    (h : finish p st = .ok uri) :
    SameParams (paramSet p (endParams p st)).uri uri := by
  have hproto : ∀ (uri : SipUri) proto,
      SameParams uri { uri with proto := proto } := by
    intro uri proto other
    cases other <;> exact ⟨rfl, rfl⟩
  unfold finish at h
  cases hst : st.state
  all_goals
    rw [hst] at h hstate
    first
      | (cases hstate; done)
      | (obtain rfl := Except.ok.inj h
         exact hproto _ _)

theorem endParams_same : SameParams st.uri (endParams p st).uri := by
  intro param
  cases param <;> exact ⟨rfl, rfl⟩

/-- The last piece is closed at the end of the URI. -/
theorem InPiece.finish (hin : InPiece q w st) (hp : q + w.length = p)
    (hrec : Recorded p st.uri ps) (h : finish p st = .ok uri) :
    Recorded p uri (ps ++ [(q, w)]) := by
  have hend : Recorded p (endParams p st).uri ps := hrec.congr endParams_same
  cases hin with
  | name htext hb =>
    rcases finish_text htext h with ⟨rfl, hlr, heq⟩ | ⟨rfl, hw⟩
    · exact hend.ignore fun _ _ =>
        text_counts htext hlr fun hstate => absurd hstate heq
    · have hne : w ≠ [] := by
        rintro rfl
        revert hw
        simp [ascii]
      rw [hb hne]
      refine hend.name (fun _ => text_not_valued htext) ?_ hp
      exact counts_iff.mpr (Or.inr ⟨rfl, hw.imp_right fun hw => ⟨hw, hp⟩⟩)
  | skip hstate hdead =>
    unfold Parser.finish at h
    rw [hstate] at h
    obtain rfl := Except.ok.inj h
    exact hend.ignore (dead_counts hdead)
  | value hstate hvalued hparam hb hv =>
    exact (paramSet_recorded hvalued hp hend hparam hb hv).congr
      (finish_inValue hstate h)

theorem finish_same (hphase : st.state.phase ≠ .param)
    (h : finish p st = .ok uri) :
    uri.params = st.uri.params ∧ SameParams st.uri uri := by
  unfold finish at h
  split at h
  all_goals
    try split_ifs at h
  all_goals first
    | (cases h; done)
    | exact absurd (by rw [‹st.state = _›]; rfl) hphase
    | (obtain rfl := Except.ok.inj h
       refine ⟨rfl, fun param => ?_⟩
       cases param <;> exact ⟨rfl, rfl⟩)

theorem ReadParams.finish (hread : ReadParams buf.length buf buf.length st)
    (h : finish buf.length st = .ok uri) :
    Recorded buf.length uri (uri.pieces buf) := by
  unfold ReadParams at hread
  split at hread
  case h_1 hphase =>
    obtain ⟨hs, ps, q, w, hends, hrec, hin⟩ := hread
    have hparams : uri.params = Str.span st.s buf.length :=
      congrArg Parts.params (finish_param hphase h)
    have hstop : q + w.length = buf.length := by
      rw [hends.stop, take_length, length_drop]
      omega
    rw [pieces_span hparams hends]
    exact hin.finish hstop hrec h
  case h_2 hphase =>
    obtain ⟨hparams, hsame⟩ := finish_same (by simp [hphase]) h
    have hpieces : uri.pieces buf = st.uri.pieces buf := by
      simp only [SipUri.pieces, hparams]
    rw [hpieces]
    exact hread.congr hsame
  case h_3 hparam hheaders =>
    obtain ⟨hparams, hsame⟩ := finish_same hparam h
    have hpieces : uri.pieces buf = [] := by
      simp only [SipUri.pieces, hparams, hread.1]
    rw [hpieces]
    exact hread.2.congr hsame

theorem parseUri_recorded (h : parseUri buf = .ok uri) :
    Recorded buf.length uri (uri.pieces buf) := by
  obtain ⟨n, hfrom, hn, -⟩ := parseUri_parseFrom h
  unfold parseFrom at hfrom
  cases hrun : run n (buf.drop n)
      { s := n, uri := { secure := if isSips buf then 1 else 0 } } with
  | error x =>
    rw [hrun] at hfrom
    cases hfrom
  | ok st =>
    rw [hrun] at hfrom
    have hstart : ReadParams buf.length buf n
        { s := n, uri := { secure := if isSips buf then 1 else 0 } } := by
      refine ⟨rfl, fun param _ => ?_⟩
      cases param <;> exact ⟨rfl, rfl⟩
    exact (hstart.run rfl hrun hn).finish hfrom

/-- A parameter is recorded exactly if one of the pieces between the `;` counts
for it.  The last of these pieces is recorded, and the value of the last one
that has a value. -/
theorem parseUri_param (h : parseUri buf = .ok uri) (param : Param)
    (hparam : param ≠ .r2) :
    ((uri.param param).s.isSome = true ↔
      ∃ piece ∈ uri.pieces buf, param.counts buf.length piece = true) ∧
    uri.param param =
      pieceStr ((uri.pieces buf).filter (param.counts buf.length)).getLast? ∧
    uri.paramVal param =
      valueStr ((uri.pieces buf).filter
        fun piece => param.hasValue piece.2).getLast? := by
  have hrec := parseUri_recorded h
  have hreach := mem_reachable.mpr hparam
  exact ⟨hrec.isSome_iff hreach, hrec param hreach⟩

theorem parseUri_param_ttl :
    ∃ uri : SipUri, uri.ttlVal = Str.span 15 16 ∧
      uri.ttlVal = valueStr ((uri.pieces (ascii "sip:a;tt=1;TTL=9;lr")).filter
        fun piece => Param.ttl.hasValue piece.2).getLast? :=
  ⟨{ host := Str.span 4 5
     params := Str.span 6 19
     ttl := Str.span 11 16
     ttlVal := Str.span 15 16
     lr := Str.span 17 19 }, rfl,
    (parseUri_param (by decide) .ttl (by decide)).2.2⟩

/-- A parameter without a value is not recorded. -/
theorem parseUri_ttl_alone :
    ∃ uri : SipUri, parseUri (ascii "sip:a;ttl") = .ok uri ∧ uri.ttl = {} ∧
      ∃ piece ∈ uri.pieces (ascii "sip:a;ttl"),
        Param.ttl.names piece.2 = true :=
  ⟨{ host := Str.span 4 5, params := Str.span 6 9 }, by decide, rfl,
    (6, ascii "ttl"), by decide, by decide⟩

end End

end Msicp.Parser
