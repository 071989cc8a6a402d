import Msicp.Parser.UriRebuild
import Mathlib.Data.List.Induction

/-!
# Scheme, host and port of an accepted URI

When an `@` shows that what was read as a host with parameters is the user,
all fields are zeroed, `secure` among them, but not the number the digits of a
port have made.  The first byte behind the scheme is taken whatever it is, and
the number of the port is never compared with a bound.
-/

namespace Msicp.Parser

open Msicp.Support Msicp.Tcp List

/-- The scheme of an accepted URI is `sips`. -/
def isSips (buf : Bytes) : Bool :=
  buf[3]? != some 58

/-- The text of an accepted URI behind the scheme. -/
def afterScheme (buf : Bytes) : Bytes :=
  buf.drop (if isSips buf then 5 else 4)

/-- The text up to the first `@` that is not the first byte. -/
def beforeAt (rest : Bytes) : Bytes :=
  rest.tail.takeWhile fun x => x != 64

/-- The text behind the first `@` that is not the first byte, or all of it. -/
def afterAt (rest : Bytes) : Bytes :=
  if 64 ∈ rest.tail then (rest.tail.dropWhile fun x => x != 64).tail else rest

/-- The digits that are in the number of the port before it is read. -/
def stalePort (rest : Bytes) : Bytes :=
  if 64 ∈ rest.tail then leadingPort (rest.take 1 ++ beforeAt rest) else []

/-- `secure` is 1 exactly for `sips`, the host is not empty and has no `@`,
`;` or `?`, and `port_no` is the value of the port. -/
structure Exact (buf : Bytes) (uri : SipUri) : Prop where
  secure : uri.secure = 1 ↔ isSips buf = true
  host_ne_nil : uri.host.text buf ≠ []
  host_mem : ∀ c ∈ uri.host.text buf, c ∉ ([64, 59, 63] : Bytes)
  port : uri.port.s.isSome → (∀ c ∈ uri.port.text buf, isDigit c = true) ∧
    uri.portNo.toNat = decimal (uri.port.text buf) ∧
    decimal (uri.port.text buf) ≤ 65535

/-- The user part of a `sips` URI has no `;` or `?` behind its first byte. -/
def KeepsSecure (buf : Bytes) : Prop :=
  isSips buf = true → 64 ∈ (afterScheme buf).tail →
    ∀ c ∈ beforeAt (afterScheme buf), c ∉ ([59, 63] : Bytes)

/-- Without a user part the first byte is not `@`, `;` or `?`. -/
def StartsHost (buf : Bytes) : Prop :=
  64 ∉ (afterScheme buf).tail → ∀ c ∈ (afterScheme buf).head?, c ∉ ([64, 59, 63] : Bytes)

/-- The port is in range and the digits before it make no difference. -/
def PortFits (buf : Bytes) : Prop :=
  (afterHost (afterAt (afterScheme buf))).head? = some 58 →
    decimal (portDigits (afterAt (afterScheme buf))) ≤ 65535 ∧
    65536 ∣ decimal (stalePort (afterScheme buf)) *
      10 ^ (portDigits (afterAt (afterScheme buf))).length

section Input

variable {n secure : ℕ} {uri : Parts} {buf pre stale host t ps hs v : Bytes}

theorem decimal_append (a b : Bytes) :
    decimal (a ++ b) = decimal a * 10 ^ b.length + decimal b := by
  induction b using List.reverseRecOn with
  | nil => simp [decimal]
  | append_singleton b c ih =>
    rw [← append_assoc, decimal_concat, decimal_concat, ih,
      List.length_append, length_singleton, pow_succ]
    ring

/-- `port_no` is the value of the digits when it fits and what was there
before vanishes. -/
theorem portNum_eq_iff (a b : Bytes) :
    ((portNum (a ++ b)).setWidth 16).toNat = decimal b ∧ decimal b ≤ 65535 ↔
      decimal b ≤ 65535 ∧ 65536 ∣ decimal a * 10 ^ b.length := by
  have hnum : ((portNum (a ++ b)).setWidth 16).toNat =
      (decimal a * 10 ^ b.length + decimal b) % 65536 := by
    simp [portNum, decimal_append]
  rw [hnum]
  omega

theorem Cut.notMem_at (h : Cut n secure uri pre stale host t ps hs) :
    (64 : UInt8) ∉ host.tail ++ (t ++ ps ++ hs) := by
  have ht : (64 : UInt8) ∉ t := by
    rcases h.front.port.tail_digits with rfl | ⟨ds, rfl, hds⟩
    · simp
    · rintro (_ | ⟨_, hmem⟩)
      exact isDigit_ne (hds _ hmem) (by decide : isDigit 64 = false) rfl
  have hps : (64 : UInt8) ∉ ps := by
    cases h.params with
    | absent => simp
    | present hat => simpa using hat
  have hhs : (64 : UInt8) ∉ hs := by
    cases h.headers with
    | absent => simp
    | present hat => simpa using hat
  have hhost := h.front.hostPart.text.at_notMem
  simp [ht, hps, hhs, hhost]

theorem Cut.tail_params (h : Cut n secure uri pre stale host t ps hs) :
    ∀ d ∈ (ps ++ hs).head?, d = 59 ∨ d = 63 := by
  cases h.params with
  | present => simp
  | absent =>
    cases h.headers with
    | present => simp
    | absent => simp

theorem takeWhile_at {x : Bytes} (hx : (64 : UInt8) ∉ x) :
    (x ++ 64 :: v).takeWhile (fun y => y != 64) = x ∧
      (x ++ 64 :: v).dropWhile (fun y => y != 64) = 64 :: v := by
  have hall : ∀ y ∈ x, (y != 64) = true := by
    intro y hy
    simp only [bne_iff_ne, ne_eq]
    rintro rfl
    exact hx hy
  rw [takeWhile_token hall (by simp), dropWhile_append_of_pos hall]
  simp

/-- What the input says about the user part. -/
structure AtSign (rest : Bytes) (secure : ℕ) (uri : Parts)
    (pre stale host : Bytes) : Prop where
  mem : 64 ∈ rest.tail ↔ pre ≠ []
  stale : stalePort rest = stale
  secure : uri.secure =
    if 64 ∈ rest.tail ∧ (59 ∈ beforeAt rest ∨ 63 ∈ beforeAt rest) then 0
    else secure
  head : pre = [] → rest.head? = host.head?

/-- The user part is the text before the first `@` behind the first byte. -/
theorem Cut.atSign (h : Cut n secure uri pre stale host t ps hs)
    {rest : Bytes} (hrest : rest = pre ++ host ++ t ++ ps ++ hs) :
    AtSign rest secure uri pre stale host ∧ afterAt rest = host ++ t ++ (ps ++ hs) := by
  have hhost := h.front.hostPart.text.ne_nil
  have hat := h.notMem_at
  cases h.front.userPart with
  | absent _ _ hsecure =>
    have htail : rest.tail = host.tail ++ (t ++ ps ++ hs) := by
      rw [hrest, nil_append, append_assoc, append_assoc, tail_append_of_ne_nil hhost, append_assoc]
    have hnot : (64 : UInt8) ∉ rest.tail := by rwa [htail]
    refine ⟨⟨by simp [hnot], ?_, ?_, ?_⟩, ?_⟩
    · rw [stalePort, if_neg hnot]
    · rw [hsecure, if_neg (by simp [hnot])]
    · intro _
      rw [hrest, nil_append, append_assoc, append_assoc, head?_append_of_ne_nil _ hhost]
    · rw [afterAt, if_neg hnot, hrest]
      simp
  | @present x hne hx hsecure _ =>
    have htail : rest.tail = x.tail ++ 64 :: (host ++ t ++ (ps ++ hs)) := by
      rw [hrest, show x ++ [64] ++ host ++ t ++ ps ++ hs =
        x ++ 64 :: (host ++ t ++ (ps ++ hs)) by simp,
        tail_append_of_ne_nil hne]
    obtain ⟨htake, hdrop⟩ :=
      takeWhile_at (v := host ++ t ++ (ps ++ hs)) hx
    have hmem : (64 : UInt8) ∈ rest.tail := by
      rw [htail]
      simp
    have hbefore : beforeAt rest = x.tail := by
      rw [beforeAt, htail, htake]
    have hx' : rest.take 1 ++ beforeAt rest = x := by
      rw [hbefore, hrest]
      cases x with
      | nil => exact absurd rfl hne
      | cons c x => rfl
    refine ⟨⟨by simp [hmem], ?_, ?_, by simp⟩, ?_⟩
    · rw [stalePort, if_pos hmem, hx']
    · rw [hsecure, secureBehind, hbefore]
      simp [hmem]
    · rw [afterAt, if_pos hmem, htail, hdrop]
      rfl

theorem Cut.port_text (h : Cut n secure uri pre stale host t ps hs) :
    portDigits (host ++ t ++ (ps ++ hs)) = t.tail ∧
      ((afterHost (host ++ t ++ (ps ++ hs))).head? = some 58 ↔ t ≠ []) := by
  have hport := h.front.port.tail_digits
  have hv := h.tail_params
  refine ⟨portDigits_cut h.front.hostPart.text hport hv, ?_⟩
  rw [append_assoc, h.front.hostPart.text.afterHost_append]
  · rcases hport with rfl | ⟨ds, rfl, -⟩
    · simp only [nil_append, ne_eq, not_true_eq_false, iff_false]
      intro hhead
      rcases hv 58 hhead with hd | hd <;> simp at hd
    · simp
  · intro d hd
    rcases hport with rfl | ⟨ds, rfl, -⟩
    · rcases hv d hd with rfl | rfl <;> decide
    · obtain rfl := Option.mem_some_iff.mp hd
      decide

/-- Only the first byte of a host can be a separator. -/
theorem HostText.mem_iff (h : HostText host) : (∀ c ∈ host, c ∉ ([64, 59, 63] : Bytes)) ↔
      ∀ c ∈ host.head?, c ∉ ([64, 59, 63] : Bytes) := by
  cases h with
  | reference hb =>
    simp only [head?_cons, Option.mem_some_iff, forall_eq']
    refine iff_of_true ?_ (by decide)
    intro c hc
    rcases mem_cons.mp hc with rfl | hc
    · decide
    · rcases mem_append.mp hc with hc | hc
      · have := hb c hc
        simp_all
      · rw [mem_singleton.mp hc]
        decide
  | name hc ht =>
    simp only [head?_cons, Option.mem_some_iff, forall_eq', forall_mem_cons, and_iff_left_iff_imp]
    intro _ x hx
    have := inside_iff.mp (ht x hx)
    simp_all

end Input

theorem parseUri_parseFrom {buf : Bytes} {uri : SipUri} (h : parseUri buf = .ok uri) :
    ∃ n, parseFrom n (if isSips buf then 1 else 0) buf = .ok uri ∧
      n ≤ buf.length ∧ afterScheme buf = buf.drop n := by
  unfold parseUri at h
  split at h
  case h_1 c₀ c₁ c₂ c₃ c₄ rest =>
    split_ifs at h with hsip hcolon hsips
    · subst hcolon
      exact ⟨4, h, by simp, rfl⟩
    · have hs : isSips (c₀ :: c₁ :: c₂ :: c₃ :: c₄ :: rest) = true := by
        simpa [isSips] using hcolon
      exact ⟨5, by rwa [if_pos hs], by simp, by rw [afterScheme, if_pos hs]⟩
  case h_2 => cases h

section Exactness

variable {n : ℕ} {buf pre stale host t ps hs : Bytes} {uri : SipUri}

theorem secure_iff {secure : ℕ} (hsecure : uri.parts.secure =
      if 64 ∈ (afterScheme buf).tail ∧ (59 ∈ beforeAt (afterScheme buf) ∨
        63 ∈ beforeAt (afterScheme buf)) then 0 else secure)
    (hs : secure = if isSips buf then 1 else 0) :
    (uri.secure = 1 ↔ isSips buf = true) ↔ KeepsSecure buf := by
  have huri : uri.secure = uri.parts.secure := rfl
  have hkeeps : KeepsSecure buf ↔ (isSips buf = true →
      ¬(64 ∈ (afterScheme buf).tail ∧ (59 ∈ beforeAt (afterScheme buf) ∨
        63 ∈ beforeAt (afterScheme buf)))) := by
    unfold KeepsSecure
    constructor
    · rintro h hsips ⟨hmem, hc | hc⟩
      · exact h hsips hmem 59 hc (by simp)
      · exact h hsips hmem 63 hc (by simp)
    · intro h hsips hmem c hc hsep
      rcases mem_cons.mp hsep with rfl | hsep
      · exact h hsips ⟨hmem, Or.inl hc⟩
      · rw [mem_singleton.mp hsep] at hc
        exact h hsips ⟨hmem, Or.inr hc⟩
  rw [hkeeps, huri, hsecure, hs]
  split_ifs with hat hsips <;> simp_all

theorem Cut.texts {secure : ℕ} (h : Cut n secure uri.parts pre stale host t ps hs)
    (hn : n ≤ buf.length)
    (hdrop : buf.drop n = pre ++ host ++ t ++ ps ++ hs) :
    uri.host.text buf = host ∧ (uri.port.s.isSome = true ↔ t ≠ []) ∧
      (t ≠ [] → uri.port.text buf = t.tail ∧
        uri.portNo = (portNum (stale ++ t.tail)).setWidth 16) := by
  obtain ⟨scheme, hlen, hbuf⟩ : ∃ scheme, scheme.length = n ∧
      buf = scheme ++ (pre ++ host ++ t ++ ps ++ hs) := by
    refine ⟨buf.take n, ?_, ?_⟩
    · rw [length_take, Nat.min_eq_left hn]
    · rw [← hdrop, take_append_drop]
  have hstr : uri.host = Str.ofText (n + pre.length) host := h.front.hostStr
  refine ⟨?_, ?_, ?_⟩
  · have hhost : buf = scheme ++ pre ++ host ++ (t ++ ps ++ hs) := by
      rw [hbuf]
      simp
    rw [hstr]
    exact text_ofText hhost (by rw [List.length_append, hlen])
  · have hport : uri.parts.port = uri.port := rfl
    cases h.front.port with
    | absent h₁ => simp [← hport, h₁]
    | present _ h₁ _ => simp [← hport, h₁, Str.ofText]
  · intro ht
    have hport : uri.parts.port = uri.port := rfl
    cases h.front.port with
    | absent => exact absurd rfl ht
    | @present ds _ h₁ hnum =>
      refine ⟨?_, hnum⟩
      have hds : buf = scheme ++ pre ++ host ++ [58] ++ ds ++ (ps ++ hs) := by
        rw [hbuf]
        simp
      rw [← hport, h₁]
      apply text_ofText hds
      simp only [List.length_append, hlen, length_singleton]

end Exactness

/-- Scheme, host and port of an accepted URI are exact if and only if a `sips`
user part has no `;` or `?`, a host starts the URI where there is no user part,
and the port is in range, with no digits before it. -/
theorem parseUri_exact_iff {buf : Bytes} {uri : SipUri} (h : parseUri buf = .ok uri) :
    Exact buf uri ↔ KeepsSecure buf ∧ StartsHost buf ∧ PortFits buf := by
  obtain ⟨n, hparse, hn, hafter⟩ := parseUri_parseFrom h
  obtain ⟨pre, stale, host, t, ps, hs, hdrop, hcut⟩ := parseFrom_cut hn hparse
  obtain ⟨hhost, hpresent, hport⟩ := hcut.texts hn hdrop
  rw [← hafter] at hdrop
  obtain ⟨hat, hrest⟩ := hcut.atSign hdrop
  obtain ⟨hdigits, hhead⟩ := hcut.port_text
  rw [← hrest] at hdigits hhead
  have hsecure := secure_iff hat.secure rfl
  have htext := hcut.front.hostPart.text
  have hstarts : (∀ c ∈ host, c ∉ ([64, 59, 63] : Bytes)) ↔
      StartsHost buf := by
    rw [htext.mem_iff, StartsHost, hat.mem, not_not]
    constructor
    · intro hc hpre
      rwa [hat.head hpre]
    · intro hc
      by_cases hpre : pre = []
      · rw [← hat.head hpre]
        exact hc hpre
      · exact hcut.front.hostPart.head hpre
  have hfits : (t ≠ [] → uri.portNo.toNat = decimal t.tail ∧
      decimal t.tail ≤ 65535) ↔ PortFits buf := by
    rw [PortFits, hhead, hdigits, hat.stale]
    refine forall_congr' fun ht => ?_
    rw [(hport ht).2, portNum_eq_iff]
  have hds : ∀ c ∈ t.tail, isDigit c = true := by
    rcases hcut.front.port.tail_digits with rfl | ⟨ds, rfl, hds⟩
    · simp
    · exact hds
  constructor
  · intro hex
    refine ⟨hsecure.mp hex.secure, hstarts.mp ?_, hfits.mp ?_⟩
    · rw [← hhost]
      exact hex.host_mem
    · intro ht
      rw [← (hport ht).1]
      exact (hex.port (hpresent.mpr ht)).2
  · rintro ⟨hkeeps, hstart, hport'⟩
    refine ⟨hsecure.mpr hkeeps, ?_, ?_, ?_⟩
    · rw [hhost]
      exact htext.ne_nil
    · rw [hhost]
      exact hstarts.mpr hstart
    · intro hsome
      have ht := hpresent.mp hsome
      rw [(hport ht).1]
      exact ⟨hds, hfits.mpr hport' ht⟩

/-- The `;` in the user part zeroes `secure`. -/
theorem sips_user_params_insecure : ∃ buf uri, parseUri buf = .ok uri ∧ ¬Exact buf uri :=
  ⟨ascii "sips:a;b@h", { user := Str.span 5 8, host := Str.span 9 10 },
    by decide, fun h => absurd (h.secure.mpr (by decide)) (by decide)⟩

theorem exact_sips_host :
    Exact (ascii "sips:h:5061")
        { host := Str.span 5 6
          port := Str.span 7 11
          portNo := 5061
          secure := 1 } ↔
      KeepsSecure (ascii "sips:h:5061") ∧ StartsHost (ascii "sips:h:5061") ∧
        PortFits (ascii "sips:h:5061") :=
  parseUri_exact_iff (by decide)

end Msicp.Parser
