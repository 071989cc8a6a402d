import Msicp.Parser.UriPhases

/-!
# A byte keeps the shape of what was read

One lemma for each phase, and from them a run over any text.
-/

namespace Msicp.Parser

open Msicp.Support Msicp.Tcp List Option UriState Parts Shape ParamsPart

section Steps

variable {n secure p : ℕ} {c : UInt8} {st st' : UriParse}
variable {done pre stale host b : Bytes}

theorem inside_of_kind (hat : kind c ≠ .atSign) (hcolon : kind c ≠ .colon)
    (hsemi : kind c ≠ .semicolon) (hquest : kind c ≠ .question) :
    inside c = true := by
  rw [inside_iff]
  simp only [ne_eq, kind_atSign, kind_colon, kind_semicolon, kind_question]
    at hat hcolon hsemi hquest
  simp [hat, hcolon, hsemi, hquest]

theorem inside_of_isDigit (h : isDigit c = true) : inside c = true := by
  have hne := fun d (hd : isDigit d = false) => isDigit_ne h hd
  rw [inside_iff]
  simp [hne 64 (by decide), hne 58 (by decide), hne 59 (by decide), hne 63 (by decide)]

theorem UserText.concat (h : UserText done) (hc : inside c = true) : UserText (done ++ [c]) := by
  obtain ⟨htext, hhead⟩ := h
  cases htext with
  | reference => simp at hhead
  | name hd ht =>
    refine ⟨HostText.name hd ?_, by simpa using hd⟩
    intro x hx
    rcases mem_append.mp hx with hx | hx
    · exact ht x hx
    · rw [mem_singleton.mp hx]
      exact hc

theorem forall_mem_concat {q : UInt8 → Prop} {w : Bytes} (hw : ∀ x ∈ w, q x)
    (hc : q c) : ∀ x ∈ w ++ [c], q x := by
  intro x hx
  rcases mem_append.mp hx with hx | hx
  · exact hw x hx
  · rw [mem_singleton.mp hx]
    exact hc

theorem UserText.singleton (hc : c ≠ 91) : UserText [c] :=
  ⟨HostText.name hc (by simp), by simpa using hc⟩

theorem UserText.hostPart (h : UserText host) : HostPart [] host :=
  ⟨h.1, fun hpre => absurd rfl hpre⟩

section Moves

variable {f : Fields}

theorem HostShape.ofCredentials {x : Bytes} (hx : x ≠ [])
    (htail : ∀ y ∈ x.tail, y ∉ ([64, 59, 63] : Bytes))
    (hhead : x.head? ≠ some 91) (huser : Credentials n f.uri x)
    (hrest : f.uri.port = {} ∧ f.uri.params = {} ∧ f.uri.headers = {} ∧ f.uri.secure = secure)
    (hport : f.portNo = 0) (hfound : f.foundUser = true)
    (hs : f.s = n + x.length + 1) :
    HostShape n secure f (x ++ [64]) [] := by
  have hlead : leadingPort x = [] := by rw [leadingPort, if_neg hhead]
  have hnot : ∀ d ∈ ([64, 59, 63] : Bytes), d ∉ x.tail :=
    fun d hd hmem => htail d hmem hd
  constructor
  · have hpart : UserPart n secure f.uri (x ++ [64]) (leadingPort x) := by
      apply UserPart.present hx (hnot 64 (by simp)) _ huser
      rw [secureBehind, if_neg (by simp [hnot]), hrest.2.2.2]
    rwa [hlead] at hpart
  · exact hrest.1
  · exact hrest.2.1
  · exact hrest.2.2.1
  · exact hport
  · simp [hfound]
  · rw [hs, List.length_append]
    rfl

theorem Shape.startParams {t : Bytes} (hphase : f.phase = .param) (hdone : done = pre ++ host ++ t)
    (hfront : Front n secure f.uri pre stale host t)
    (hparams : f.uri.params = {}) (hheaders : f.uri.headers = {})
    (hpending : f.foundUser = false → pre = [] ∧ f.pass = none ∧
      f.portNo = portNum (if host.head? = some 91 then t.tail else []))
    (hs : f.s = n + done.length + 1) :
    Shape n secure (done ++ [59]) f := by
  simp only [Shape, hphase]
  refine ⟨pre, stale, host, t, [], by rw [hdone], ?_⟩
  refine ⟨hfront, hparams, hheaders, by simp, ?_, ?_⟩
  · intro hfound
    obtain ⟨hpre, hpass, hport⟩ := hpending hfound
    exact ⟨hpre, hport, by simp [hpass]⟩
  · rw [hs, hdone]
    simp only [List.length_append]
    omega

theorem Shape.startHeaders {t ps : Bytes} (hphase : f.phase = .headers)
    (hdone : done = pre ++ host ++ t ++ ps)
    (hfront : Front n secure f.uri pre stale host t)
    (hparams : ParamsPart (n + pre.length + host.length + t.length) f.uri ps)
    (hheaders : f.uri.headers = {})
    (hpending : f.foundUser = false → Pending n f (done ++ [63]) pre host t)
    (hs : f.s = n + done.length + 1) :
    Shape n secure (done ++ [63]) f := by
  simp only [Shape, hphase]
  refine ⟨pre, stale, host, t, ps, [], by rw [hdone], ?_⟩
  refine ⟨hfront, hparams, hheaders, by simp, hpending, ?_⟩
  rw [hs, hdone]
  simp only [List.length_append]
  omega

end Moves

theorem step_init (hstate : st.state = .uriInit) (hshape : Shape n secure done st.fields)
    (h : step (n + done.length) c st = .ok st') :
    Shape n secure (done ++ [c]) st'.fields := by
  have hphase : st.fields.phase = .init := congrArg phase hstate
  simp only [Shape, hphase] at hshape
  obtain ⟨rfl, hfresh⟩ := hshape
  simp only [step, hstate, stepHostPort] at h
  split at h
  case h_1 hc =>
    obtain rfl := Except.ok.inj h
    rw [kind_lbracket.mp hc]
    refine ⟨[], [], [], rfl, by simp, ?_⟩
    have huser : UserPart n secure st.fields.uri [] [] := by
      rw [hfresh.uri]
      exact UserPart.absent rfl rfl rfl
    refine ⟨huser, ?_, ?_, ?_, hfresh.portNo, ?_, rfl⟩
    · exact congrArg Parts.port hfresh.uri
    · exact congrArg params hfresh.uri
    · exact congrArg headers hfresh.uri
    · exact fun _ => ⟨rfl, hfresh.pass⟩
  case h_2 => cases h
  case h_3 => cases h
  case h_4 hl _ _ =>
    obtain rfl := Except.ok.inj h
    refine ⟨UserText.singleton fun hc => hl (kind_lbracket.mpr hc), ?_⟩
    exact ⟨hfresh.pass, hfresh.foundUser, hfresh.portNo, hfresh.s, hfresh.uri⟩

theorem UserText.notMem (h : UserText host) : ∀ y ∈ host.tail, y ∉ ([64, 59, 63] : Bytes) := by
  obtain ⟨htext, hhead⟩ := h
  cases htext with
  | reference => simp at hhead
  | name _ ht =>
    intro y hy
    have hin := inside_iff.mp (ht y hy)
    simp_all

theorem Front.ofUser {uri : Parts} (h : UserText host) (huser : uri.user = {})
    (hpasswd : uri.passwd = {}) (hsecure : uri.secure = secure)
    (hhost : uri.host = Str.ofText n host) (hport : uri.port = {}) :
    Front n secure uri [] [] host [] :=
  ⟨UserPart.absent huser hpasswd hsecure, h.hostPart, hhost, PortPart.absent hport⟩

theorem step_user (hstate : st.state = .uriUser) (hshape : Shape n secure done st.fields)
    (h : step (n + done.length) c st = .ok st') :
    Shape n secure (done ++ [c]) st'.fields := by
  have hphase : st.fields.phase = .user := congrArg phase hstate
  simp only [Shape, hphase] at hshape
  obtain ⟨htext, hfresh⟩ := hshape
  have hpass : st.pass = none := hfresh.pass
  have hfound : st.foundUser = false := hfresh.foundUser
  have hportNo : st.portNo = 0 := hfresh.portNo
  have hs : st.s = n := hfresh.s
  have huri : st.uri.parts = { secure := secure } := hfresh.uri
  have hspan : Str.span st.s (n + done.length) = Str.ofText n done := by
    rw [hs]
    exact span_eq_ofText rfl
  simp only [step, hstate, stepHostPort] at h
  split at h
  case h_1 hc =>
    obtain rfl := Except.ok.inj h
    rw [kind_atSign.mp hc]
    refine ⟨[], by simp, ?_⟩
    refine HostShape.ofCredentials htext.1.ne_nil htext.notMem htext.2
      (Credentials.user hspan (congrArg Parts.passwd huri)) ?_ hportNo rfl rfl
    exact ⟨congrArg Parts.port huri, congrArg params huri,
      congrArg headers huri, congrArg Parts.secure huri⟩
  case h_2 hc =>
    obtain rfl := Except.ok.inj h
    rw [kind_colon.mp hc]
    refine ⟨done, [], rfl, htext, by simp, hpass, hfound, hportNo, rfl, ?_⟩
    change { st.uri.parts with user := Str.span st.s (n + done.length) } = _
    rw [huri, hspan]
  case h_3 hc =>
    obtain rfl := Except.ok.inj h
    rw [kind_semicolon.mp hc]
    refine startParams rfl (by simp) (Front.ofUser htext
      (congrArg Parts.user huri) (congrArg Parts.passwd huri)
      (congrArg Parts.secure huri) hspan (congrArg Parts.port huri))
      (congrArg params huri) (congrArg headers huri) ?_ rfl
    intro _
    refine ⟨rfl, hpass, ?_⟩
    rw [if_neg htext.2]
    exact hportNo
  case h_4 hc =>
    obtain rfl := Except.ok.inj h
    rw [kind_question.mp hc]
    refine startHeaders rfl (by simp) (Front.ofUser htext
      (congrArg Parts.user huri) (congrArg Parts.passwd huri)
      (congrArg Parts.secure huri) hspan (congrArg Parts.port huri))
      (absent (congrArg params huri))
      (congrArg headers huri) ?_ rfl
    intro _
    refine ⟨rfl, ?_, ?_⟩
    · rw [if_neg htext.2]
      exact hportNo
    · intro q hq
      exact absurd (hpass.symm.trans hq) (by simp)
  case h_5 => cases h
  case h_6 => cases h
  case h_7 hat hcolon hsemi hquest _ _ =>
    obtain rfl := Except.ok.inj h
    simp only [Shape, hphase]
    exact ⟨htext.concat (inside_of_kind hat hcolon hsemi hquest), hfresh⟩

theorem HostShape.ofPasswd {f : Fields} {w : Bytes} (h : UserText host)
    (hdone : done = host ++ 58 :: w) (hw : ∀ x ∈ w, inside x = true)
    (huri : f.uri =
      { user := Str.ofText n host
        passwd := Str.ofText (n + (host.length + 1)) w
        secure := secure })
    (hport : f.portNo = 0) (hfound : f.foundUser = true)
    (hs : f.s = n + done.length + 1) :
    HostShape n secure f (done ++ [64]) [] := by
  obtain ⟨htext, hhead⟩ := h
  subst hdone
  refine ofCredentials (by simp) ?_ ?_ ?_ ?_ hport hfound hs
  · intro y hy
    rw [tail_append_of_ne_nil htext.ne_nil] at hy
    rcases mem_append.mp hy with hy | hy
    · exact UserText.notMem ⟨htext, hhead⟩ y hy
    · rcases mem_cons.mp hy with rfl | hy
      · simp
      · have hin := inside_iff.mp (hw y hy)
        simp_all
  · rwa [head?_append_of_ne_nil _ htext.ne_nil]
  · exact Credentials.passwd (congrArg Parts.user huri) (congrArg Parts.passwd huri)
  · rw [huri]
    exact ⟨rfl, rfl, rfl, rfl⟩

theorem Front.ofPassword {uri : Parts} {w : Bytes} (h : UserText host)
    (hw : ∀ x ∈ w, isDigit x = true) (huser : uri.user = {})
    (hpasswd : uri.passwd = {}) (hsecure : uri.secure = secure)
    (hhost : uri.host = Str.ofText n host)
    (hport : uri.port = Str.ofText (n + host.length + 1) w)
    (hnum : uri.portNo = (portNum w).setWidth 16) :
    Front n secure uri [] [] host (58 :: w) :=
  ⟨UserPart.absent huser hpasswd hsecure, h.hostPart, hhost, PortPart.present hw hport hnum⟩

theorem step_password (hstate : st.state = .uriPassword) (hshape : Shape n secure done st.fields)
    (h : step (n + done.length) c st = .ok st') :
    Shape n secure (done ++ [c]) st'.fields := by
  have hphase : st.fields.phase = .password := congrArg phase hstate
  simp only [Shape, hphase] at hshape
  obtain ⟨host, w, hdone, htext, hw, hfresh⟩ := hshape
  have hpass : st.pass = none := hfresh.pass
  have hfound : st.foundUser = false := hfresh.foundUser
  have hportNo : st.portNo = portNum w := hfresh.portNo
  have hs : st.s = n + host.length + 1 := hfresh.s
  have huri : st.uri.parts =
      { user := Str.ofText n host, secure := secure } := hfresh.uri
  have hin : ∀ x ∈ w, inside x = true :=
    fun x hx => inside_of_isDigit (hw x hx)
  have hend : n + done.length = st.s + w.length := by
    rw [hs, hdone]
    simp only [List.length_append, length_cons]
    omega
  have hspan : Str.span st.s (n + done.length) = Str.ofText (n + host.length + 1) w := by
    rw [span_eq_ofText hend, hs]
  have hfront : Front n secure (passwordIsPort (n + done.length) st).parts
      [] [] host (58 :: w) := by
    refine Front.ofPassword htext hw rfl (congrArg Parts.passwd huri)
      (congrArg Parts.secure huri) (congrArg Parts.user huri) hspan ?_
    exact congrArg (BitVec.setWidth 16) hportNo
  simp only [step, hstate, stepHostPort] at h
  split at h
  case h_1 hc =>
    obtain rfl := Except.ok.inj h
    rw [kind_atSign.mp hc]
    refine ⟨[], by simp, ?_⟩
    refine HostShape.ofPasswd htext hdone hin ?_ rfl rfl rfl
    change { st.uri.parts with passwd := Str.span st.s (n + done.length) } = _
    rw [huri, hspan]
    rfl
  case h_2 hc =>
    obtain rfl := Except.ok.inj h
    rw [kind_semicolon.mp hc]
    refine startParams rfl (by simpa using hdone) hfront
      (congrArg params huri) (congrArg headers huri) ?_ rfl
    intro hf
    cases hf
  case h_3 hc =>
    obtain rfl := Except.ok.inj h
    rw [kind_question.mp hc]
    refine startHeaders rfl (by simpa using hdone) hfront
      (absent (congrArg params huri))
      (congrArg headers huri) ?_ rfl
    intro hf
    cases hf
  case h_4 => cases h
  case h_5 => cases h
  case h_6 => cases h
  case h_7 hat hsemi hquest _ _ hcolon =>
    split_ifs at h with hdigit
    · obtain rfl := Except.ok.inj h
      refine ⟨host, w ++ [c], by rw [hdone]; simp, htext,
        forall_mem_concat hw hdigit, hpass, hfound, ?_, hs, huri⟩
      change casePort c st.portNo = _
      rw [hportNo, casePort_portNum]
    · obtain rfl := Except.ok.inj h
      refine ⟨host, w ++ [c], by rw [hdone]; simp, htext, ?_, hpass, hfound, rfl, hs, huri⟩
      exact forall_mem_concat hin (inside_of_kind hat hcolon hsemi hquest)

theorem step_passwordAlpha (hstate : st.state = .uriPasswordAlpha)
    (hshape : Shape n secure done st.fields)
    (h : step (n + done.length) c st = .ok st') :
    Shape n secure (done ++ [c]) st'.fields := by
  have hphase : st.fields.phase = .passwordAlpha :=
    congrArg phase hstate
  simp only [Shape, hphase] at hshape
  obtain ⟨host, w, hdone, htext, hw, hfresh⟩ := hshape
  have hportNo : st.portNo = 0 := hfresh.portNo
  have hs : st.s = n + host.length + 1 := hfresh.s
  have huri : st.uri.parts =
      { user := Str.ofText n host, secure := secure } := hfresh.uri
  have hend : n + done.length = st.s + w.length := by
    rw [hs, hdone]
    simp only [List.length_append, length_cons]
    omega
  have hspan : Str.span st.s (n + done.length) = Str.ofText (n + host.length + 1) w := by
    rw [span_eq_ofText hend, hs]
  simp only [step, hstate, stepHostPort] at h
  split at h
  case h_1 hc =>
    obtain rfl := Except.ok.inj h
    rw [kind_atSign.mp hc]
    refine ⟨[], by simp, ?_⟩
    refine HostShape.ofPasswd htext hdone hw ?_ hportNo rfl rfl
    change { st.uri.parts with passwd := Str.span st.s (n + done.length) } = _
    rw [huri, hspan]
    rfl
  case h_2 => cases h
  case h_3 => cases h
  case h_4 => cases h
  case h_5 => cases h
  case h_6 => cases h
  case h_7 hat hsemi hquest _ _ hcolon =>
    obtain rfl := Except.ok.inj h
    simp only [Shape, hphase]
    refine ⟨host, w ++ [c], by rw [hdone]; simp, htext, ?_, hfresh⟩
    exact forall_mem_concat hw (inside_of_kind hat hcolon hsemi hquest)

theorem step_host (hstate : st.state = .uriHost) (hshape : Shape n secure done st.fields)
    (h : step (n + done.length) c st = .ok st') :
    Shape n secure (done ++ [c]) st'.fields := by
  have hphase : st.fields.phase = .host := congrArg phase hstate
  simp only [Shape, hphase] at hshape
  obtain ⟨stale, hne, hhost⟩ := hshape
  have hkeep : ∀ new : UriState,
      HostShape n secure ({ st with state := new } : UriParse).fields done
        stale := fun _ => ⟨hhost.userPart, hhost.port, hhost.params,
          hhost.headers, hhost.portNo, hhost.noUser, hhost.s⟩
  simp only [step, hstate, stepHostPort] at h
  split at h
  case h_1 hc =>
    obtain rfl := Except.ok.inj h
    rw [kind_lbracket.mp hc]
    exact ⟨done, stale, [], rfl, by simp, hkeep .uriHost6P⟩
  case h_2 => cases h
  case h_3 => cases h
  case h_4 => cases h
  case h_5 => cases h
  case h_6 => cases h
  case h_7 hl hco hsemi hquest _ hat =>
    obtain rfl := Except.ok.inj h
    refine ⟨done, stale, c, [], rfl, hne, ?_, by simp, hkeep .uriHostP⟩
    have hcond : c ≠ 91 ∧ c ≠ 64 ∧ c ≠ 59 ∧ c ≠ 63 :=
      ⟨fun hc => hl (kind_lbracket.mpr hc), fun hc => hat (kind_atSign.mpr hc),
        fun hc => hsemi (kind_semicolon.mpr hc),
        fun hc => hquest (kind_question.mpr hc)⟩
    simpa using hcond

/-- The end of the host at a `:`, `;` or `?`. -/
theorem checkHostEnd_shape {other : Except UriError UriParse}
    (hdone : done = pre ++ host) (hpart : HostPart pre host)
    (hnoUser : st.foundUser = false → host.head? = some 91)
    (hhost : HostShape n secure st.fields pre stale)
    (h : checkHostEnd (n + done.length) c st other = .ok st') :
    Shape n secure (done ++ [c]) st'.fields ∨ (other = .ok st' ∧ inside c = true) := by
  have hs : st.s = n + pre.length := hhost.s
  have hspan : Str.span st.s (n + done.length) = Str.ofText (n + pre.length) host := by
    rw [hs]
    apply span_eq_ofText
    rw [hdone, List.length_append, Nat.add_assoc]
  have hfront : ∀ uri : Parts, uri = { st.uri.parts with
      host := Str.span st.s (n + done.length) } →
      Front n secure uri pre stale host [] := by
    rintro uri rfl
    exact ⟨hhost.userPart.congr rfl rfl rfl, hpart, hspan, PortPart.absent hhost.port⟩
  have hnum : st.foundUser = false →
      st.portNo = portNum (if host.head? = some 91 then [] else []) := by
    intro hf
    obtain ⟨rfl, -⟩ := hhost.noUser hf
    have hstale := hhost.userPart.stale_nil
    subst hstale
    rw [ite_self]
    exact hhost.portNo
  unfold checkHostEnd at h
  split at h
  case h_1 hc =>
    obtain rfl := Except.ok.inj h
    rw [kind_colon.mp hc]
    refine Or.inl ⟨pre, stale, host, [], by rw [hdone], ?_⟩
    obtain ⟨huser, -, hstr, -⟩ := hfront _ rfl
    refine ⟨huser, hpart, hstr, hhost.params, hhost.headers, ?_, by simp, ?_, ?_⟩
    · rw [append_nil]
      exact hhost.portNo
    · intro hf
      exact ⟨(hhost.noUser hf).1, (hhost.noUser hf).2, hnoUser hf⟩
    · change n + done.length + 1 = _
      rw [hdone, List.length_append]
      omega
  case h_2 hc =>
    obtain rfl := Except.ok.inj h
    rw [kind_semicolon.mp hc]
    refine Or.inl (startParams rfl (by simpa using hdone)
      (hfront _ rfl) hhost.params hhost.headers ?_ rfl)
    intro hf
    exact ⟨(hhost.noUser hf).1, (hhost.noUser hf).2, hnum hf⟩
  case h_3 hc =>
    obtain rfl := Except.ok.inj h
    rw [kind_question.mp hc]
    refine Or.inl (startHeaders rfl (by simpa using hdone)
      (hfront _ rfl) (absent hhost.params) hhost.headers ?_ rfl)
    intro hf
    refine ⟨(hhost.noUser hf).1, hnum hf, ?_⟩
    intro q hq
    exact absurd ((hhost.noUser hf).2.symm.trans hq) (by simp)
  case h_4 => cases h
  case h_5 => cases h
  case h_6 hco hsemi hquest _ hat =>
    exact Or.inr ⟨h, inside_of_kind hat hco hsemi hquest⟩

theorem step_hostP (hstate : st.state = .uriHostP) (hshape : Shape n secure done st.fields)
    (h : step (n + done.length) c st = .ok st') :
    Shape n secure (done ++ [c]) st'.fields := by
  have hphase : st.fields.phase = .hostP := congrArg phase hstate
  simp only [Shape, hphase] at hshape
  obtain ⟨pre, stale, d, t, hdone, hpre, hd, ht, hhost⟩ := hshape
  have hpart : HostPart pre (d :: t) := by
    refine ⟨HostText.name (by simp_all) ht, ?_⟩
    intro _ x hx
    obtain rfl := mem_some_iff.mp hx
    simp_all
  simp only [step, hstate, stepHostPort] at h
  have hnoUser : st.foundUser = false → (d :: t).head? = some 91 :=
    fun hf => absurd (hhost.noUser hf).1 hpre
  rcases checkHostEnd_shape hdone hpart hnoUser hhost h with h | ⟨h, hin⟩
  · exact h
  · obtain rfl := Except.ok.inj h
    simp only [Shape, hphase]
    exact ⟨pre, stale, d, t ++ [c], by rw [hdone]; simp, hpre, hd, forall_mem_concat ht hin, hhost⟩

theorem step_host6End (hstate : st.state = .uriHost6End) (hshape : Shape n secure done st.fields)
    (h : step (n + done.length) c st = .ok st') :
    Shape n secure (done ++ [c]) st'.fields := by
  have hphase : st.fields.phase = .host6End := congrArg phase hstate
  simp only [Shape, hphase] at hshape
  obtain ⟨pre, stale, b, hdone, hb, hhost⟩ := hshape
  have hpart : HostPart pre (91 :: (b ++ [93])) := by
    refine ⟨HostText.reference hb, ?_⟩
    intro _ x hx
    obtain rfl := mem_some_iff.mp hx
    simp
  simp only [step, hstate, stepHostPort] at h
  rcases checkHostEnd_shape hdone hpart (fun _ => rfl) hhost h with h | ⟨h, -⟩
  · exact h
  · cases h

theorem step_host6P (hstate : st.state = .uriHost6P) (hshape : Shape n secure done st.fields)
    (h : step (n + done.length) c st = .ok st') :
    Shape n secure (done ++ [c]) st'.fields := by
  have hphase : st.fields.phase = .host6P := congrArg phase hstate
  simp only [Shape, hphase] at hshape
  obtain ⟨pre, stale, b, hdone, hb, hhost⟩ := hshape
  simp only [step, hstate, stepHostPort] at h
  split at h
  case h_1 hc =>
    obtain rfl := Except.ok.inj h
    rw [kind_rbracket.mp hc]
    exact ⟨pre, stale, b, by rw [hdone]; simp, hb, hhost.userPart, hhost.port,
      hhost.params, hhost.headers, hhost.portNo, hhost.noUser, hhost.s⟩
  case h_2 => cases h
  case h_3 => cases h
  case h_4 => cases h
  case h_5 => cases h
  case h_6 => cases h
  case h_7 hr _ _ hat hsemi hquest =>
    obtain rfl := Except.ok.inj h
    simp only [Shape, hphase]
    have hcond : c ∉ ([93, 64, 59, 63] : Bytes) := by
      simp only [← kind_rbracket, ← kind_atSign, ← kind_semicolon,
        ← kind_question, mem_cons, not_mem_nil, or_false, not_or]
      exact ⟨hr, hat, hsemi, hquest⟩
    exact ⟨pre, stale, b ++ [c], by rw [hdone]; simp, forall_mem_concat hb hcond, hhost⟩

theorem step_port (hstate : st.state = .uriPort) (hshape : Shape n secure done st.fields)
    (h : step (n + done.length) c st = .ok st') :
    Shape n secure (done ++ [c]) st'.fields := by
  have hphase : st.fields.phase = .port := congrArg phase hstate
  simp only [Shape, hphase] at hshape
  obtain ⟨pre, stale, host, w, hdone, hport⟩ := hshape
  have hs : st.s = n + pre.length + host.length + 1 := hport.s
  have hportNo : st.portNo = portNum (stale ++ w) := hport.portNo
  have hspan : Str.span st.s (n + done.length) =
      Str.ofText (n + pre.length + host.length + 1) w := by
    rw [hs]
    apply span_eq_ofText
    rw [hdone]
    simp only [List.length_append, length_cons]
    omega
  have hfront : Front n secure
      { st.uri.parts with
        port := Str.span st.s (n + done.length)
        portNo := st.portNo.setWidth 16 } pre stale host (58 :: w) := by
    exact ⟨hport.userPart.congr rfl rfl rfl, hport.hostPart, hport.hostStr,
      PortPart.present hport.digits hspan (by rw [hportNo])⟩
  have hnum : st.foundUser = false → pre = [] ∧ st.pass = none ∧ st.portNo =
        portNum (if host.head? = some 91 then (58 :: w).tail else []) := by
    intro hf
    obtain ⟨hpre, hpass, hhead⟩ := hport.noUser hf
    subst hpre
    refine ⟨rfl, hpass, ?_⟩
    rw [hportNo, hport.userPart.stale_nil, if_pos hhead]
    rfl
  simp only [step, hstate, stepHostPort] at h
  split at h
  case h_1 hc =>
    obtain rfl := Except.ok.inj h
    rw [kind_semicolon.mp hc]
    exact startParams rfl hdone hfront hport.params hport.headers hnum rfl
  case h_2 hc =>
    obtain rfl := Except.ok.inj h
    rw [kind_question.mp hc]
    refine startHeaders rfl (by simpa using hdone) hfront
      (absent hport.params) hport.headers ?_ rfl
    intro hf
    obtain ⟨hpre, hpass, hnum⟩ := hnum hf
    refine ⟨hpre, hnum, ?_⟩
    intro q hq
    exact absurd (hpass.symm.trans hq) (by simp)
  case h_3 =>
    split_ifs at h with hdigit
    obtain rfl := Except.ok.inj h
    refine ⟨pre, stale, host, w ++ [c], by rw [hdone]; simp, hport.userPart,
      hport.hostPart, hport.hostStr, hport.params, hport.headers, ?_,
      forall_mem_concat hport.digits hdigit, hport.noUser, hs⟩
    change casePort c st.portNo = _
    rw [hportNo, casePort_portNum, append_assoc]

section Tail

variable {f f' : Fields} {t ps y : Bytes}

/-- A `:` or a byte without meaning keeps what is known of the user part. -/
theorem Pending.concat (h : Pending n f done pre host t) (hportNo : f'.portNo = f.portNo)
    (hpass : f'.pass = f.pass ∨ f'.pass = none ∨ (f'.pass = some (n + done.length) ∧ c = 58)) :
    Pending n f' (done ++ [c]) pre host t := by
  refine ⟨h.pre, hportNo.trans h.portNo, ?_⟩
  intro q hq
  rcases hpass with hp | hp | ⟨hp, rfl⟩
  · obtain ⟨u, w, hdone, hlen⟩ := h.pass q (hp ▸ hq)
    exact ⟨u, w ++ [c], by rw [hdone]; simp, hlen⟩
  · rw [hp] at hq
    cases hq
  · rw [hp] at hq
    cases hq
    exact ⟨done, [], by simp, rfl⟩

theorem dropPass_eq (f : Fields) : f.dropPass.uri = f.uri ∧ f.dropPass.s = f.s ∧
      f.dropPass.phase = f.phase ∧ f.dropPass.portNo = f.portNo ∧
      (f.dropPass.foundUser = false → f.foundUser = false ∧ f.dropPass.pass = none) := by
  unfold Fields.dropPass
  split_ifs with hp
  · simp
  · simp only [true_and]
    intro hf
    exact ⟨hf, by simpa using hp⟩

theorem mightBePass_eq (p : ℕ) (f : Fields) :
    (f.mightBePass p).uri = f.uri ∧ (f.mightBePass p).s = f.s ∧ (f.mightBePass p).phase = f.phase ∧
      (f.mightBePass p).portNo = f.portNo ∧
      ((f.mightBePass p).foundUser = false →
        f.foundUser = false ∧ (f.mightBePass p).pass = some p) := by
  unfold Fields.mightBePass
  split_ifs with hf hp <;> simp_all

theorem Pending.dropPass (h : f.foundUser = false → Pending n f done pre host t) :
    f.dropPass.foundUser = false → Pending n f.dropPass (done ++ [c]) pre host t := by
  intro hfound
  obtain ⟨-, -, -, hportNo, hpass⟩ := dropPass_eq f
  obtain ⟨hf, hp⟩ := hpass hfound
  exact (h hf).concat hportNo (Or.inr (Or.inl hp))

theorem Pending.mightBePass (h : f.foundUser = false → Pending n f done pre host t) :
    (f.mightBePass (n + done.length)).foundUser = false →
      Pending n (f.mightBePass (n + done.length)) (done ++ [58]) pre host
        t := by
  intro hfound
  obtain ⟨-, -, -, hportNo, hpass⟩ := mightBePass_eq (n + done.length) f
  obtain ⟨hf, hp⟩ := hpass hfound
  exact (h hf).concat hportNo (Or.inr (Or.inr ⟨hp, rfl⟩))

theorem notMem_concat (hy : (64 : UInt8) ∉ y) (hc : c ≠ 64) : (64 : UInt8) ∉ y ++ [c] := by
  simp [hy, hc.symm]

theorem ParamShape.concat (h : ParamShape n secure f done pre stale host t y)
    (hdone : done = pre ++ host ++ t ++ 59 :: y) (hphase : f'.phase = .param)
    (hc : c ≠ 64) (huri : f'.uri = f.uri) (hs : f'.s = f.s)
    (hpending : f'.foundUser = false → Pending n f' (done ++ [c]) pre host t) :
    Shape n secure (done ++ [c]) f' := by
  simp only [Shape, hphase]
  refine ⟨pre, stale, host, t, y ++ [c], by rw [hdone]; simp, ?_⟩
  refine ⟨?_, ?_, ?_, notMem_concat h.at_notMem hc, hpending, hs.trans h.s⟩
  · rw [huri]
    exact h.front
  · rw [huri]
    exact h.params
  · rw [huri]
    exact h.headers

theorem HeadersShape.concat (h : HeadersShape n secure f done pre stale host t ps y)
    (hdone : done = pre ++ host ++ t ++ ps ++ 63 :: y)
    (hphase : f'.phase = .headers) (hc : c ≠ 64) (huri : f'.uri = f.uri)
    (hs : f'.s = f.s)
    (hpending : f'.foundUser = false → Pending n f' (done ++ [c]) pre host t) :
    Shape n secure (done ++ [c]) f' := by
  simp only [Shape, hphase]
  refine ⟨pre, stale, host, t, ps, y ++ [c], by rw [hdone]; simp, ?_⟩
  refine ⟨?_, ?_, ?_, notMem_concat h.at_notMem hc, hpending, hs.trans h.s⟩
  · rw [huri]
    exact h.front
  · rw [huri]
    exact h.params
  · rw [huri]
    exact h.headers

theorem ParamShape.toHeaders (h : ParamShape n secure f done pre stale host t y)
    (hdone : done = pre ++ host ++ t ++ 59 :: y) :
    Shape n secure (done ++ [63]) (f.toHeaders (n + done.length)).dropPass := by
  obtain ⟨huri, hs, hphase, hportNo, hpass⟩ :=
    dropPass_eq (f.toHeaders (n + done.length))
  have hspan : Str.span f.s (n + done.length) =
      Str.ofText (n + pre.length + host.length + t.length + 1) y := by
    rw [h.s]
    apply span_eq_ofText
    rw [hdone]
    simp only [List.length_append, length_cons]
    omega
  have hfront : Front n secure (f.toHeaders (n + done.length)).dropPass.uri pre stale host t := by
    rw [huri]
    exact ⟨h.front.userPart.congr rfl rfl rfl, h.front.hostPart,
      h.front.hostStr, h.front.port.congr rfl rfl⟩
  refine startHeaders hphase hdone hfront ?_ ?_ ?_ hs
  · rw [huri]
    exact present h.at_notMem hspan
  · rw [huri]
    exact h.headers
  · intro hfound
    obtain ⟨hf, hp⟩ := hpass hfound
    exact (h.pending hf).concat hportNo (Or.inr (Or.inl hp))

theorem step_param_shape (hphase : st.state.phase = .param) (hshape : Shape n secure done st.fields)
    (h : step (n + done.length) c st = .ok st') :
    Shape n secure (done ++ [c]) st'.fields := by
  have hfphase : st.fields.phase = .param := hphase
  simp only [Shape, hfphase] at hshape
  obtain ⟨pre, stale, host, t, y, hdone, hparam⟩ := hshape
  have hmove := step_param hphase h
  unfold Fields.paramStep at hmove
  split at hmove
  case h_1 hc =>
    split_ifs at hmove with hfound
    rw [← some.inj hmove, kind_atSign.mp hc]
    have hpending := hparam.pending (by simpa using hfound)
    exact ⟨leadingPort done, by simp, hparam.front.atUser hpending hdone
      ⟨59, y, rfl, Or.inl rfl⟩ (by simp [hparam.at_notMem])⟩
  case h_2 hc =>
    rw [← some.inj hmove, kind_semicolon.mp hc]
    obtain ⟨huri, hs, hph, -⟩ := dropPass_eq st.fields
    exact hparam.concat hdone (hph.trans hfphase) (by decide) huri hs
      (Pending.dropPass hparam.pending)
  case h_3 hc =>
    rw [← some.inj hmove, kind_question.mp hc]
    exact hparam.toHeaders hdone
  case h_4 hc =>
    rw [← some.inj hmove, kind_colon.mp hc]
    obtain ⟨huri, hs, hph, -⟩ :=
      mightBePass_eq (n + done.length) st.fields
    exact hparam.concat hdone (hph.trans hfphase) (by decide) huri hs
      (Pending.mightBePass hparam.pending)
  case h_5 hat _ _ _ =>
    rw [← some.inj hmove]
    refine hparam.concat hdone hfphase ?_ rfl rfl ?_
    · exact fun hc => hat (kind_atSign.mpr hc)
    · exact fun hf => (hparam.pending hf).concat rfl (Or.inl rfl)

theorem step_headers_shape (hstate : st.state = .uriHeaders)
    (hshape : Shape n secure done st.fields)
    (h : step (n + done.length) c st = .ok st') :
    Shape n secure (done ++ [c]) st'.fields := by
  have hphase : st.fields.phase = .headers := congrArg phase hstate
  simp only [Shape, hphase] at hshape
  obtain ⟨pre, stale, host, t, ps, z, hdone, hheaders⟩ := hshape
  have hmove := step_headers hstate h
  unfold Fields.headersStep at hmove
  split at hmove
  case h_1 hc =>
    split_ifs at hmove with hfound
    rw [← some.inj hmove, kind_atSign.mp hc]
    have hpending := hheaders.pending (by simpa using hfound)
    obtain ⟨hv, hat⟩ := hheaders.params.tail hheaders.at_notMem
    refine ⟨leadingPort done, by simp, hheaders.front.atUser hpending ?_ hv hat⟩
    rw [hdone]
    simp
  case h_2 hc =>
    split_ifs at hmove with hfound
    rw [← some.inj hmove, kind_semicolon.mp hc]
    refine hheaders.concat hdone hphase (by decide) rfl rfl ?_
    exact fun hf => (hheaders.pending hf).concat rfl (Or.inl rfl)
  case h_3 hc =>
    rw [← some.inj hmove, kind_question.mp hc]
    obtain ⟨huri, hs, hph, -⟩ := dropPass_eq st.fields
    exact hheaders.concat hdone (hph.trans hphase) (by decide) huri hs
      (Pending.dropPass hheaders.pending)
  case h_4 hc =>
    rw [← some.inj hmove, kind_colon.mp hc]
    obtain ⟨huri, hs, hph, -⟩ :=
      mightBePass_eq (n + done.length) st.fields
    exact hheaders.concat hdone (hph.trans hphase) (by decide) huri hs
      (Pending.mightBePass hheaders.pending)
  case h_5 hat _ _ _ =>
    rw [← some.inj hmove]
    refine hheaders.concat hdone hphase ?_ rfl rfl ?_
    · exact fun hc => hat (kind_atSign.mpr hc)
    · exact fun hf => (hheaders.pending hf).concat rfl (Or.inl rfl)

end Tail

theorem step_shape (hshape : Shape n secure done st.fields)
    (h : step (n + done.length) c st = .ok st') :
    Shape n secure (done ++ [c]) st'.fields := by
  by_cases hparam : st.state.phase = .param
  · exact step_param_shape hparam hshape h
  cases hstate : st.state
  case uriInit => exact step_init hstate hshape h
  case uriUser => exact step_user hstate hshape h
  case uriPassword => exact step_password hstate hshape h
  case uriPasswordAlpha => exact step_passwordAlpha hstate hshape h
  case uriHost => exact step_host hstate hshape h
  case uriHostP => exact step_hostP hstate hshape h
  case uriHost6P => exact step_host6P hstate hshape h
  case uriHost6End => exact step_host6End hstate hshape h
  case uriPort => exact step_port hstate hshape h
  case uriHeaders => exact step_headers_shape hstate hshape h
  all_goals exact absurd (by rw [hstate]; rfl) hparam

theorem run_shape {rest : Bytes} (hshape : Shape n secure done st.fields)
    (h : run (n + done.length) rest st = .ok st') :
    Shape n secure (done ++ rest) st'.fields := by
  induction rest generalizing done st with
  | nil =>
    obtain rfl := Except.ok.inj h
    simpa using hshape
  | cons c rest ih =>
    simp only [run] at h
    cases hstep : step (n + done.length) c st with
    | error e =>
      rw [hstep] at h
      cases h
    | ok st₁ =>
      rw [hstep] at h
      have hnext := step_shape hshape hstep
      have hlen : n + done.length + 1 = n + (done ++ [c]).length := by
        simp [Nat.add_assoc]
      have hrun : run (n + (done ++ [c]).length) rest st₁ = .ok st' := by
        rw [← hlen]
        exact h
      simpa using ih hnext hrun

end Steps

end Msicp.Parser
