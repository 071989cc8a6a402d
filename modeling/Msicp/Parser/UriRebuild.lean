import Msicp.Parser.UriSteps

/-!
# An accepted URI is cut into its parts

At the end of an accepted text the last part is closed, and the fields of
`struct sip_uri` are the parts of the text.
-/

namespace Msicp.Parser

open Msicp.Support Msicp.Tcp

section Finish

variable {n secure : ℕ} {c : UInt8} {st : UriParse}
variable {done pre stale host : Bytes}

theorem HostShape.cut (h : HostShape n secure st.fields pre stale)
    (hdone : done = pre ++ host) (hpart : HostPart pre host) :
    Cut n secure
      { st.uri.parts with host := Str.span st.s (n + done.length) }
      pre stale host [] [] [] := by
  have hs : st.s = n + pre.length := h.s
  have hspan : Str.span st.s (n + done.length) = Str.ofText (n + pre.length) host := by
    rw [hs]
    apply span_eq_ofText
    rw [hdone, List.length_append, Nat.add_assoc]
  exact ⟨⟨h.userPart.congr rfl rfl rfl, hpart, hspan, PortPart.absent h.port⟩,
    ParamsPart.absent h.params, HeadersPart.absent h.headers⟩

theorem ParamShape.cut {t y : Bytes} (h : ParamShape n secure st.fields done pre stale host t y)
    (hdone : done = pre ++ host ++ t ++ 59 :: y) :
    Cut n secure
      { st.uri.parts with params := Str.span st.s (n + done.length) }
      pre stale host t (59 :: y) [] := by
  have hs : st.s = n + pre.length + host.length + t.length + 1 := h.s
  have hspan : Str.span st.s (n + done.length) =
      Str.ofText (n + pre.length + host.length + t.length + 1) y := by
    rw [hs]
    apply span_eq_ofText
    rw [hdone]
    simp only [List.length_append, List.length_cons]
    omega
  exact ⟨⟨h.front.userPart.congr rfl rfl rfl, h.front.hostPart,
    h.front.hostStr, h.front.port.congr rfl rfl⟩,
    ParamsPart.present h.at_notMem hspan, HeadersPart.absent h.headers⟩

theorem HeadersShape.cut {t ps z : Bytes}
    (h : HeadersShape n secure st.fields done pre stale host t ps z)
    (hdone : done = pre ++ host ++ t ++ ps ++ 63 :: z) :
    Cut n secure
      { st.uri.parts with headers := Str.span st.s (n + done.length) }
      pre stale host t ps (63 :: z) := by
  have hs : st.s = n + pre.length + host.length + t.length + ps.length + 1 := h.s
  have hspan : Str.span st.s (n + done.length) = Str.ofText
      (n + pre.length + host.length + t.length + ps.length + 1) z := by
    rw [hs]
    apply span_eq_ofText
    rw [hdone]
    simp only [List.length_append, List.length_cons]
    omega
  exact ⟨⟨h.front.userPart.congr rfl rfl rfl, h.front.hostPart,
    h.front.hostStr, h.front.port.congr rfl rfl⟩,
    h.params.congr rfl, HeadersPart.present h.at_notMem hspan⟩

theorem PortShape.cut {w : Bytes} (h : PortShape n secure st.fields pre stale host w)
    (hdone : done = pre ++ host ++ 58 :: w) :
    Cut n secure
      { st.uri.parts with
        port := Str.span st.s (n + done.length)
        portNo := st.portNo.setWidth 16 }
      pre stale host (58 :: w) [] [] := by
  have hs : st.s = n + pre.length + host.length + 1 := h.s
  have hportNo : st.portNo = portNum (stale ++ w) := h.portNo
  have hspan : Str.span st.s (n + done.length) =
      Str.ofText (n + pre.length + host.length + 1) w := by
    rw [hs]
    apply span_eq_ofText
    rw [hdone]
    simp only [List.length_append, List.length_cons]
    omega
  exact ⟨⟨h.userPart.congr rfl rfl rfl, h.hostPart, h.hostStr,
    PortPart.present h.digits hspan (by rw [hportNo])⟩,
    ParamsPart.absent h.params, HeadersPart.absent h.headers⟩

/-- A host alone, and a host with a port that were read as the user part. -/
theorem finish_user {uri : SipUri} (hstate : st.state = .uriUser ∨ st.state = .uriPassword)
    (hshape : Shape n secure done st.fields)
    (h : finish (n + done.length) st = .ok uri) :
    ∃ host t, done = host ++ t ∧ Cut n secure uri.parts [] [] host t [] [] := by
  rcases hstate with hstate | hstate
  · have hphase : st.fields.phase = .user := congrArg UriState.phase hstate
    simp only [Shape, hphase] at hshape
    obtain ⟨htext, hfresh⟩ := hshape
    have huri : st.uri.parts = { secure := secure } := hfresh.uri
    have hs : st.s = n := hfresh.s
    have hspan : Str.span st.s (n + done.length) = Str.ofText n done := by
      rw [hs]
      exact span_eq_ofText rfl
    simp only [finish, hstate] at h
    split_ifs at h
    obtain rfl := Except.ok.inj h
    refine ⟨done, [], by simp, Front.ofUser htext (congrArg Parts.user huri)
      (congrArg Parts.passwd huri) (congrArg Parts.secure huri) hspan
      (congrArg Parts.port huri), ?_, ?_⟩
    · exact ParamsPart.absent (congrArg Parts.params huri)
    · exact HeadersPart.absent (congrArg Parts.headers huri)
  · have hphase : st.fields.phase = .password :=
      congrArg UriState.phase hstate
    simp only [Shape, hphase] at hshape
    obtain ⟨host, w, hdone, htext, hw, hfresh⟩ := hshape
    have huri : st.uri.parts =
        { user := Str.ofText n host, secure := secure } := hfresh.uri
    have hs : st.s = n + host.length + 1 := hfresh.s
    have hspan : Str.span st.s (n + done.length) = Str.ofText (n + host.length + 1) w := by
      rw [hs]
      apply span_eq_ofText
      rw [hdone]
      simp only [List.length_append, List.length_cons]
      omega
    simp only [finish, hstate] at h
    split_ifs at h
    obtain rfl := Except.ok.inj h
    refine ⟨host, 58 :: w, hdone, Front.ofPassword htext hw rfl
      (congrArg Parts.passwd huri) (congrArg Parts.secure huri)
      (congrArg Parts.user huri) hspan ?_, ?_, ?_⟩
    · exact congrArg (BitVec.setWidth 16) hfresh.portNo
    · exact ParamsPart.absent (congrArg Parts.params huri)
    · exact HeadersPart.absent (congrArg Parts.headers huri)

/-- What an accepted text is cut into at the end. -/
theorem finish_cut {uri : SipUri} (hshape : Shape n secure done st.fields)
    (h : finish (n + done.length) st = .ok uri) :
    ∃ pre stale host t ps hs, done = pre ++ host ++ t ++ ps ++ hs ∧
      Cut n secure uri.parts pre stale host t ps hs := by
  by_cases hparam : st.state.phase = .param
  · have hphase : st.fields.phase = .param := hparam
    simp only [Shape, hphase] at hshape
    obtain ⟨pre, stale, host, t, y, hdone, hparam'⟩ := hshape
    have huri := finish_param hparam h
    refine ⟨pre, stale, host, t, 59 :: y, [], by simpa using hdone, ?_⟩
    rw [huri]
    exact hparam'.cut hdone
  have hcopy := hshape
  have hphase : st.fields.phase = st.state.phase := rfl
  simp only [Shape, hphase] at hshape
  cases hstate : st.state
  case uriUser =>
    obtain ⟨host, t, hdone, hcut⟩ := finish_user (Or.inl hstate) hcopy h
    exact ⟨[], [], host, t, [], [], by simpa using hdone, hcut⟩
  case uriPassword =>
    obtain ⟨host, t, hdone, hcut⟩ := finish_user (Or.inr hstate) hcopy h
    exact ⟨[], [], host, t, [], [], by simpa using hdone, hcut⟩
  all_goals
    simp only [hstate, UriState.phase, finish] at hshape h
  case uriHostP =>
    obtain rfl := Except.ok.inj h
    obtain ⟨pre, stale, c, t, hdone, hpre, hc, ht, hhost⟩ := hshape
    have hpart : HostPart pre (c :: t) := by
      refine ⟨HostText.name (by simp_all) ht, ?_⟩
      intro _ x hx
      obtain rfl := Option.mem_some_iff.mp hx
      simp_all
    exact ⟨pre, stale, c :: t, [], [], [], by simpa using hdone, hhost.cut hdone hpart⟩
  case uriHost6End =>
    obtain rfl := Except.ok.inj h
    obtain ⟨pre, stale, b, hdone, hb, hhost⟩ := hshape
    have hpart : HostPart pre (91 :: (b ++ [93])) := by
      refine ⟨HostText.reference hb, ?_⟩
      intro _ x hx
      obtain rfl := Option.mem_some_iff.mp hx
      simp
    exact ⟨pre, stale, 91 :: (b ++ [93]), [], [], [], by simpa using hdone, hhost.cut hdone hpart⟩
  case uriPort =>
    obtain rfl := Except.ok.inj h
    obtain ⟨pre, stale, host, w, hdone, hport⟩ := hshape
    exact ⟨pre, stale, host, 58 :: w, [], [], by simpa using hdone, hport.cut hdone⟩
  case uriHeaders =>
    split_ifs at h
    obtain rfl := Except.ok.inj h
    obtain ⟨pre, stale, host, t, ps, z, hdone, hheaders⟩ := hshape
    exact ⟨pre, stale, host, t, ps, 63 :: z, hdone, hheaders.cut hdone⟩
  all_goals first
    | exact absurd (by rw [hstate]; rfl) hparam
    | cases h

end Finish

/-- An accepted text behind the scheme is cut into the parts of a URI, and
the fields are these parts. -/
theorem parseFrom_cut {n secure : ℕ} {buf : Bytes} {uri : SipUri}
    (hn : n ≤ buf.length) (h : parseFrom n secure buf = .ok uri) :
    ∃ pre stale host t ps hs, buf.drop n = pre ++ host ++ t ++ ps ++ hs ∧
        Cut n secure uri.parts pre stale host t ps hs := by
  unfold parseFrom at h
  cases hrun : run n (buf.drop n) { s := n, uri := { secure := secure } } with
  | error e =>
    rw [hrun] at h
    cases h
  | ok st =>
    rw [hrun] at h
    have hstart : Shape n secure [] ({ s := n, uri := { secure := secure } } : UriParse).fields :=
      ⟨rfl, rfl, rfl, rfl, rfl, rfl⟩
    have hshape := run_shape hstart hrun
    rw [List.nil_append] at hshape
    refine finish_cut hshape ?_
    have hlen : n + (buf.drop n).length = buf.length := by
      rw [List.length_drop]
      omega
    rw [hlen]
    exact h

/-!
## The fields of an accepted URI give back its text

`struct sip_uri` does not keep the scheme, only whether it is `sips`.  Behind
the scheme the fields are slices of the text in their order, and with their
separators they are the whole text.
-/

/-- The text a `str` points at. -/
def Str.text (buf : Bytes) (f : Str) : Bytes :=
  match f.s with
  | some a => (buf.drop a).take f.len
  | none => []

/-- A field that is present, with the separator before it. -/
def Str.behind (sep : UInt8) (buf : Bytes) (f : Str) : Bytes :=
  if f.s.isSome then sep :: f.text buf else []

/-- The fields behind the scheme with their separators, each only if the field
is present. -/
def SipUri.join (uri : SipUri) (buf : Bytes) : Bytes :=
  (if uri.user.s.isSome then
    uri.user.text buf ++ uri.passwd.behind 58 buf ++ [64] else []) ++
    uri.host.text buf ++ uri.port.behind 58 buf ++ uri.params.behind 59 buf ++
    uri.headers.behind 63 buf

/-- The scheme that `secure` stands for. -/
def SipUri.scheme (uri : SipUri) : Bytes :=
  if uri.secure = 1 then ascii "sips:" else ascii "sip:"

/-- Where a field that is present starts and ends. -/
def Str.slice (f : Str) : List (ℕ × ℕ) :=
  match f.s with
  | some a => [(a, a + f.len)]
  | none => []

/-- The fields that are present. -/
def SipUri.slices (uri : SipUri) : List (ℕ × ℕ) :=
  uri.user.slice ++ uri.passwd.slice ++ uri.host.slice ++ uri.port.slice ++
    uri.params.slice ++ uri.headers.slice

/-- Slices between `a` and `e`, each behind the one before it. -/
def InOrder (a e : ℕ) (l : List (ℕ × ℕ)) : Prop :=
  l.Pairwise (fun f g => f.2 ≤ g.1) ∧ ∀ f ∈ l, a ≤ f.1 ∧ f.1 ≤ f.2 ∧ f.2 ≤ e

/-- `sip:` or `sips:`, with letters of either case. -/
def IsScheme (scheme : Bytes) : Prop :=
  ∃ letters, scheme = letters ++ [58] ∧ (letters.map (· ||| 0x20) = ascii "sip" ∨
      letters.map (· ||| 0x20) = ascii "sips")

section Slices

variable {a e m : ℕ} {l l₁ l₂ : List (ℕ × ℕ)} {x y z buf : Bytes} {f : Str}

theorem InOrder.nil : InOrder a e [] :=
  ⟨List.Pairwise.nil, by simp⟩

theorem InOrder.append (h₁ : InOrder a m l₁) (h₂ : InOrder m e l₂)
    (ham : a ≤ m) (hme : m ≤ e) : InOrder a e (l₁ ++ l₂) := by
  refine ⟨List.pairwise_append.mpr ⟨h₁.1, h₂.1, ?_⟩, ?_⟩
  · intro f hf g hg
    exact ((h₁.2 f hf).2.2).trans (h₂.2 g hg).1
  · intro f hf
    rcases List.mem_append.mp hf with hf | hf
    · obtain ⟨hlow, hle, hhigh⟩ := h₁.2 f hf
      exact ⟨hlow, hle, hhigh.trans hme⟩
    · obtain ⟨hlow, hle, hhigh⟩ := h₂.2 f hf
      exact ⟨ham.trans hlow, hle, hhigh⟩

@[simp] theorem slice_none : ({} : Str).slice = [] := rfl

theorem slice_ofText (ha : a ≤ m) (he : m + x.length ≤ e) : InOrder a e (Str.ofText m x).slice := by
  refine ⟨List.pairwise_singleton _ _, ?_⟩
  intro f hf
  obtain rfl := List.mem_singleton.mp hf
  exact ⟨ha, Nat.le_add_right _ _, he⟩

theorem text_ofText (hbuf : buf = x ++ y ++ z) (hm : m = x.length) :
    (Str.ofText m y).text buf = y := by
  subst hbuf hm
  simp [Str.text, Str.ofText]

@[simp] theorem behind_none {sep : UInt8} : ({} : Str).behind sep buf = [] := rfl

theorem behind_ofText {sep : UInt8} (hbuf : buf = x ++ y ++ z)
    (hm : m = x.length) : (Str.ofText m y).behind sep buf = sep :: y := by
  rw [Str.behind, text_ofText hbuf hm]
  rfl

end Slices

section Rebuild

variable {n secure : ℕ} {uri : SipUri} {buf scheme x z : Bytes}
variable {pre stale host t ps hs : Bytes}

theorem PortPart.behind (h : PortPart n uri.parts stale t)
    (hbuf : buf = x ++ t ++ z) (hn : n = x.length) :
    uri.port.behind 58 buf = t := by
  have hport : uri.parts.port = uri.port := rfl
  cases h with
  | absent h₁ => rw [← hport, h₁, behind_none]
  | present _ h₁ _ =>
    rw [← hport, h₁]
    apply behind_ofText (x := x ++ [58]) (z := z)
    · simp [hbuf]
    · simp [hn]

theorem ParamsPart.behind (h : ParamsPart n uri.parts t)
    (hbuf : buf = x ++ t ++ z) (hn : n = x.length) :
    uri.params.behind 59 buf = t := by
  have hparams : uri.parts.params = uri.params := rfl
  cases h with
  | absent h₁ => rw [← hparams, h₁, behind_none]
  | present _ h₁ =>
    rw [← hparams, h₁]
    apply behind_ofText (x := x ++ [59]) (z := z)
    · simp [hbuf]
    · simp [hn]

theorem HeadersPart.behind (h : HeadersPart n uri.parts t)
    (hbuf : buf = x ++ t ++ z) (hn : n = x.length) :
    uri.headers.behind 63 buf = t := by
  have hheaders : uri.parts.headers = uri.headers := rfl
  cases h with
  | absent h₁ => rw [← hheaders, h₁, behind_none]
  | present _ h₁ =>
    rw [← hheaders, h₁]
    apply behind_ofText (x := x ++ [63]) (z := z)
    · simp [hbuf]
    · simp [hn]

theorem UserPart.join (h : UserPart n secure uri.parts pre stale)
    (hbuf : buf = x ++ pre ++ z) (hn : n = x.length) :
    (if uri.user.s.isSome then
      uri.user.text buf ++ uri.passwd.behind 58 buf ++ [64] else []) =
      pre := by
  have huser : uri.parts.user = uri.user := rfl
  have hpasswd : uri.parts.passwd = uri.passwd := rfl
  cases h with
  | absent h₁ _ _ => rw [← huser, h₁]; rfl
  | present _ _ _ hcred =>
    cases hcred with
    | user h₁ h₂ =>
      rw [← huser, ← hpasswd, h₁, h₂, text_ofText (z := 64 :: z) (by rw [hbuf]; simp) hn]
      simp [Str.ofText]
    | @passwd u w h₁ h₂ =>
      rw [← huser, ← hpasswd, h₁, h₂, text_ofText (z := 58 :: w ++ 64 :: z) (by rw [hbuf]; simp) hn,
        behind_ofText (x := x ++ u ++ [58]) (z := 64 :: z) (by rw [hbuf]; simp) (by simp [hn])]
      simp [Str.ofText]

/-- The fields with their separators are the text that was cut. -/
theorem Cut.join (h : Cut n secure uri.parts pre stale host t ps hs)
    (hbuf : buf = scheme ++ (pre ++ host ++ t ++ ps ++ hs))
    (hn : n = scheme.length) :
    uri.join buf = pre ++ host ++ t ++ ps ++ hs := by
  have huser := h.front.userPart.join (show buf = scheme ++ pre ++ (host ++ t ++ ps ++ hs) by
      rw [hbuf]; simp) hn
  have hhost : uri.host.text buf = host := by
    have hstr : uri.host = Str.ofText (n + pre.length) host := h.front.hostStr
    rw [hstr]
    apply text_ofText (x := scheme ++ pre) (z := t ++ ps ++ hs)
    · rw [hbuf]
      simp
    · simp [hn]
  have hport := h.front.port.behind (show buf = scheme ++ pre ++ host ++ t ++ (ps ++ hs) by
      rw [hbuf]; simp) (by simp [hn, Nat.add_assoc])
  have hparams := h.params.behind (show buf = scheme ++ pre ++ host ++ t ++ ps ++ hs by
      rw [hbuf]; simp) (by simp [hn, Nat.add_assoc])
  have hheaders := h.headers.behind (show buf = scheme ++ pre ++ host ++ t ++ ps ++ hs ++ [] by
      rw [hbuf]; simp) (by simp [hn, Nat.add_assoc])
  rw [SipUri.join, huser, hhost, hport, hparams, hheaders]

theorem UserPart.inOrder (h : UserPart n secure uri.parts pre stale) :
    InOrder n (n + pre.length) (uri.user.slice ++ uri.passwd.slice) := by
  have huser : uri.parts.user = uri.user := rfl
  have hpasswd : uri.parts.passwd = uri.passwd := rfl
  cases h with
  | absent h₁ h₂ _ =>
    rw [← huser, ← hpasswd, h₁, h₂]
    exact InOrder.nil
  | present _ _ _ hcred =>
    cases hcred with
    | user h₁ h₂ =>
      rw [← huser, ← hpasswd, h₁, h₂, slice_none, List.append_nil]
      exact slice_ofText le_rfl (by simp only [List.length_append]; omega)
    | @passwd u w h₁ h₂ =>
      rw [← huser, ← hpasswd, h₁, h₂]
      refine (slice_ofText le_rfl le_rfl).append
        (slice_ofText (a := n + u.length) (by omega) ?_) (by omega) ?_
      · simp only [List.length_append, List.length_cons]
        omega
      · simp only [List.length_append]
        omega

theorem PortPart.inOrder (h : PortPart n uri.parts stale t) :
    InOrder n (n + t.length) uri.port.slice := by
  have hport : uri.parts.port = uri.port := rfl
  cases h with
  | absent h₁ => rw [← hport, h₁]; exact InOrder.nil
  | present _ h₁ _ =>
    rw [← hport, h₁]
    exact slice_ofText (by omega) (by simp only [List.length_cons]; omega)

theorem ParamsPart.inOrder (h : ParamsPart n uri.parts t) :
    InOrder n (n + t.length) uri.params.slice := by
  have hparams : uri.parts.params = uri.params := rfl
  cases h with
  | absent h₁ => rw [← hparams, h₁]; exact InOrder.nil
  | present _ h₁ =>
    rw [← hparams, h₁]
    exact slice_ofText (by omega) (by simp only [List.length_cons]; omega)

theorem HeadersPart.inOrder (h : HeadersPart n uri.parts t) :
    InOrder n (n + t.length) uri.headers.slice := by
  have hheaders : uri.parts.headers = uri.headers := rfl
  cases h with
  | absent h₁ => rw [← hheaders, h₁]; exact InOrder.nil
  | present _ h₁ =>
    rw [← hheaders, h₁]
    exact slice_ofText (by omega) (by simp only [List.length_cons]; omega)

theorem Cut.inOrder (h : Cut n secure uri.parts pre stale host t ps hs) :
    InOrder n (n + (pre ++ host ++ t ++ ps ++ hs).length) uri.slices := by
  have hhost : InOrder (n + pre.length) (n + pre.length + host.length)
      uri.host.slice := by
    have hstr : uri.host = Str.ofText (n + pre.length) host := h.front.hostStr
    rw [hstr]
    exact slice_ofText le_rfl le_rfl
  have hfront := (h.front.userPart.inOrder.append hhost (by omega)
    (by omega)).append h.front.port.inOrder (by omega) (by omega)
  have hall := (hfront.append h.params.inOrder (by omega) (by omega)).append
    h.headers.inOrder (by omega) (by omega)
  have hlen : n + (pre ++ host ++ t ++ ps ++ hs).length =
      n + pre.length + host.length + t.length + ps.length + hs.length := by
    simp only [List.length_append]
    omega
  rw [hlen]
  exact hall

end Rebuild

theorem parseUri_scheme {buf : Bytes} {uri : SipUri} (h : parseUri buf = .ok uri) :
    ∃ scheme rest secure, IsScheme scheme ∧ buf = scheme ++ rest ∧
      parseFrom scheme.length secure buf = .ok uri := by
  unfold parseUri at h
  split at h
  case h_1 c₀ c₁ c₂ c₃ c₄ rest =>
    split_ifs at h with hsip hcolon hsips
    · obtain ⟨h₀, h₁, h₂⟩ := hsip
      subst hcolon
      refine ⟨[c₀, c₁, c₂, 58], c₄ :: rest, 0, ⟨[c₀, c₁, c₂], rfl, Or.inl ?_⟩, rfl, h⟩
      simp only [List.map_cons, List.map_nil, h₀, h₁, h₂]
      rfl
    · obtain ⟨h₀, h₁, h₂⟩ := hsip
      obtain ⟨h₃, rfl⟩ := hsips
      refine ⟨[c₀, c₁, c₂, c₃, 58], rest, 1, ⟨[c₀, c₁, c₂, c₃], rfl, Or.inr ?_⟩, rfl, h⟩
      simp only [List.map_cons, List.map_nil, h₀, h₁, h₂, h₃]
      rfl
  case h_2 => cases h

/-- The fields of an accepted URI, with their separators, are its text behind
the scheme, and they are slices of it in their order. -/
theorem parseUri_rebuilds {buf : Bytes} {uri : SipUri} (h : parseUri buf = .ok uri) :
    ∃ scheme, IsScheme scheme ∧ buf = scheme ++ uri.join buf ∧
      InOrder scheme.length buf.length uri.slices := by
  obtain ⟨scheme, rest, secure, hscheme, hbuf, hparse⟩ :=
    parseUri_scheme h
  have hlen : scheme.length ≤ buf.length := by
    rw [hbuf, List.length_append]
    exact Nat.le_add_right _ _
  obtain ⟨pre, stale, host, t, ps, hs, hdrop, hcut⟩ :=
    parseFrom_cut hlen hparse
  have hrest : rest = pre ++ host ++ t ++ ps ++ hs := by
    rw [← hdrop, hbuf, List.drop_left]
  have hwhole : buf = scheme ++ (pre ++ host ++ t ++ ps ++ hs) := by
    rw [hbuf, hrest]
  refine ⟨scheme, hscheme, ?_, ?_⟩
  · rw [hcut.join hwhole rfl]
    exact hwhole
  · have horder := hcut.inOrder
    rw [← List.length_append, ← hwhole] at horder
    exact horder

/-- The case of the scheme is not kept. -/
theorem upper_case_scheme_lost :
    ∃ buf uri, parseUri buf = .ok uri ∧ uri.scheme ++ uri.join buf ≠ buf :=
  ⟨ascii "SIP:h", { host := { s := some 4, len := 1 } }, by decide,
    by decide⟩

theorem rebuilds_password : ∃ scheme, IsScheme scheme ∧ ascii "sip:a:p@h:50" = scheme ++ SipUri.join
          { user := Str.span 4 5
            passwd := Str.span 6 7
            host := Str.span 8 9
            port := Str.span 10 12
            portNo := 50 } (ascii "sip:a:p@h:50") ∧
      InOrder scheme.length 12 [(4, 5), (6, 7), (8, 9), (10, 12)] :=
  parseUri_rebuilds (by decide)

end Msicp.Parser
