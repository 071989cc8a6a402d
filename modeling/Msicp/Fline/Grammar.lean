import Msicp.Fline.Accepted

/-!
# The grammar of the first line

`request = method SP uri SP version CRLF` and
`response = version SP status SP reason CRLF` with the version SIP/2.0, where
the line may also end with a line feed alone.  The lines about which
`parse_first_line` is right are those that it accepts by this grammar.
-/

namespace Msicp.Fline

open Msicp.Support List
open Msicp.Headers (Span)
open Msicp.Avp (sameName)

/-- A request line by the grammar. -/
structure RequestLine (buf method uri version eol rest : Bytes) : Prop where
  eq : buf = method ++ 32 :: (uri ++ 32 :: (version ++ (eol ++ rest)))
  method_ne : method ≠ []
  method_token : Token method
  not_version : ¬sameName sipVersion method
  uri_ne : uri ≠ []
  uri_token : Token uri
  version_same : sameName sipVersion version
  eol_eq : eol = [13, 10] ∨ eol = [10]

/-- A status line by the grammar. -/
structure ReplyLine (buf version : Bytes) (d1 d2 d3 : UInt8)
    (reason eol rest : Bytes) : Prop where
  eq : buf = version ++ 32 :: ([d1, d2, d3] ++ 32 :: (reason ++ (eol ++ rest)))
  version_same : sameName sipVersion version
  digits : ∀ d ∈ [d1, d2, d3], 48 ≤ d ∧ d ≤ 57
  reason_line : ∀ c ∈ reason, isEol c = false
  eol_eq : eol = [13, 10] ∨ eol = [10]

/-- The number of the method that is the token. -/
def exactMethod (token : Bytes) : MethodId :=
  match knownMethods.find? fun m => m.1 = token with
  | some m => m.2
  | none => .other

/-- The result for a line whose parts, with one space between them, are
known. -/
def lineResult (type : MsgType) (first uri third eol : Bytes) (value : ℕ) : MsgStart × ℕ :=
  let nl := thirdStop first uri [32] third + eol.length
  (lineFields type first uri [32] third value nl, nl)

/-- `parse_first_line` accepts the buffer exactly if it starts with a line of
the grammar, and then finds its parts and the start of the next line. -/
structure FirstLineRight (buf : Bytes) (fl : MsgStart) : Prop where
  request : ∀ {method uri version eol rest},
    RequestLine buf method uri version eol rest →
      parseFirstLine buf fl = lineResult .request method uri version eol
        (exactMethod method).val
  reply : ∀ {version d1 d2 d3 reason eol rest},
    ReplyLine buf version d1 d2 d3 reason eol rest →
      parseFirstLine buf fl = lineResult .reply version [d1, d2, d3] reason eol
        (statusValue d1 d2 d3)
  sound : (parseFirstLine buf fl).1.type ≠ .invalid →
    (∃ method uri version eol rest,
      RequestLine buf method uri version eol rest) ∨
    ∃ version d1 d2 d3 reason eol rest,
      ReplyLine buf version d1 d2 d3 reason eol rest

/-- What comes behind the line feed is not empty, and does not start with a
carriage return (unless that is all). -/
def EndsWell (rest : Bytes) : Prop :=
  rest ≠ [] ∧ ¬(rest.head? = some 13 ∧ 2 ≤ rest.length)

/-- The buffers about which `parse_first_line` is right.  A line of the grammar
stands in a buffer of more than 16 bytes, is followed by something, and gives
a method that is known in its own spelling and a reason that does not start
with a blank; every line that is accepted has a URI, a single space on both
sides of it, the version SIP/2.0 and no blanks behind it, and ends with a line
feed right behind the carriage return. -/
structure FirstLineRegular (buf : Bytes) : Prop where
  request : ∀ {method uri version eol rest},
    RequestLine buf method uri version eol rest →
      16 < buf.length ∧ EndsWell rest ∧
        ∀ m ∈ knownMethods, sameName m.1 method → m.1 = method
  reply : ∀ {version d1 d2 d3 reason eol rest},
    ReplyLine buf version d1 d2 d3 reason eol rest →
      16 < buf.length ∧ EndsWell rest ∧
        ∀ c ∈ reason.head?, isBlank c = false
  loose_request : 16 < buf.length →
    ∀ {method uri blanks version pad e tail},
      LooseRequest buf method uri blanks version pad e tail →
        uri ≠ [] ∧ blanks = [32] ∧ sameName sipVersion version ∧ pad = [] ∧
          (e = 10 ∨ tail.head? = some 10)
  loose_reply : 16 < buf.length →
    ∀ {version d1 d2 d3 blanks reason e tail},
      LooseReply buf version d1 d2 d3 blanks reason e tail →
        blanks.head? = some 32 ∧ (e = 10 ∨ tail.head? = some 10)

section Lines

variable {buf method uri version eol rest reason : Bytes}
variable {d1 d2 d3 : UInt8} {fl : MsgStart}

/-! ## Methods -/

theorem exactMethod_eq_iff {token : Bytes} : (methodOf token).val = (exactMethod token).val ↔
      ∀ m ∈ knownMethods, sameName m.1 token → m.1 = token := by
  have hdistinct : ∀ m ∈ knownMethods, ∀ n ∈ knownMethods, sameName m.1 n.1 → m = n := by decide
  have hval : ∀ m ∈ knownMethods, m.2.val ≠ MethodId.other.val := by decide
  constructor
  · intro heq m hm hsame
    obtain ⟨n, hn⟩ : ∃ n, knownMethods.find? (fun m => sameName m.1 token) =
        some n := by
      rw [← Option.isSome_iff_exists, find?_isSome]
      exact ⟨m, hm, by simpa using hsame⟩
    have hnmem := mem_of_find?_eq_some hn
    have hnsame : sameName n.1 token := by simpa using find?_some hn
    obtain rfl : m = n := hdistinct m hm n hnmem (hsame.trans hnsame.symm)
    by_contra hne
    have hnone : knownMethods.find? (fun m => m.1 = token) = none := by
      rw [find?_eq_none]
      intro k hk hkt
      have hkt' : k.1 = token := by simpa using hkt
      obtain rfl := hdistinct m hm k hk (hsame.trans (by rw [hkt']))
      exact hne hkt'
    rw [methodOf, exactMethod, hn, hnone] at heq
    exact hval m hm heq
  · intro hexact
    have hfind : knownMethods.find? (fun m => sameName m.1 token) =
        knownMethods.find? fun m => m.1 = token := by
      refine find?_congr fun m hm => ?_
      rw [decide_eq_decide]
      exact ⟨hexact m hm, fun h => h ▸ rfl⟩
    unfold methodOf exactMethod
    cases h : knownMethods.find? (fun m => m.1 = token) with
    | none => simp only [hfind, h]
    | some m => simp only [hfind, h]

/-! ## Ends of lines -/

theorem eol_cons (heol : eol = [13, 10] ∨ eol = [10]) (rest : Bytes) :
    ∃ e tail, eol ++ rest = e :: tail ∧ isEol e = true ∧ (10 : UInt8) ∈ e :: tail := by
  rcases heol with rfl | rfl
  · exact ⟨13, 10 :: rest, rfl, rfl, by simp⟩
  · exact ⟨10, rest, rfl, rfl, by simp⟩

theorem eol_of_cons {e : UInt8} {tail : Bytes} (he : isEol e = true)
    (h : e = 10 ∨ tail.head? = some 10) :
    ∃ eol rest, e :: tail = eol ++ rest ∧ (eol = [13, 10] ∨ eol = [10]) := by
  by_cases h10 : e = 10
  · subst h10
    exact ⟨[10], tail, rfl, .inr rfl⟩
  · have h13 : e = 13 := by
      have h' : e = 13 ∨ e = 10 := by simpa [isEol] using he
      tauto
    obtain ⟨t, rfl⟩ := head?_eq_some_iff.mp (h.resolve_left h10)
    exact ⟨[13, 10], t, by rw [h13]; rfl, .inl rfl⟩

theorem cons_of_eol {e : UInt8} {tail : Bytes}
    (heol : eol = [13, 10] ∨ eol = [10]) (h : e :: tail = eol ++ rest) :
    e = 10 ∨ tail.head? = some 10 := by
  rcases heol with rfl | rfl
  · obtain ⟨-, rfl⟩ := List.cons.inj h
    exact .inr rfl
  · exact .inl (List.cons.inj h).1

/-- The next line starts behind the end of this one, if that end is as it
should be. -/
theorem eatLine_eol_iff {a : Bytes} (heol : eol = [13, 10] ∨ eol = [10])
    (hbuf : buf = a ++ (eol ++ rest)) :
    eatLine buf a.length = a.length + eol.length ↔ EndsWell rest := by
  have hline : ∃ token, eol = token ++ [10] ∧ (10 : UInt8) ∉ token := by
    rcases heol with rfl | rfl
    · exact ⟨[13], rfl, by decide⟩
    · exact ⟨[], rfl, by decide⟩
  obtain ⟨token, rfl, htoken⟩ := hline
  have hcut : buf = a ++ (token ++ 10 :: rest) := by
    rw [hbuf]
    simp
  rw [eatLine_append hcut htoken, EndsWell, List.length_append, length_singleton]
  by_cases hnil : rest = []
  · rw [if_pos hnil]
    simp [hnil]
  · rw [if_neg hnil]
    by_cases hcr : rest.head? = some 13 ∧ 2 ≤ rest.length
    · rw [if_pos hcr]
      simp only [hcr, not_true_eq_false, and_false, iff_false, true_and]
      omega
    · rw [if_neg hcr]
      simp only [hcr, not_false_eq_true, and_true, ne_eq, hnil, iff_true]
      omega

/-! ## Lines of the grammar are accepted -/

theorem version_token (h : sameName sipVersion version) : Token version ∧ version ≠ [] := by
  obtain ⟨l, t, hl, -, htoken, -⟩ := KnownFirst.facts (.inl rfl)
  refine ⟨htoken.of_sameName h, ?_⟩
  rintro rfl
  rw [hl] at h
  cases h

theorem RequestLine.loose (h : RequestLine buf method uri version eol rest) :
    ∃ e tail, LooseRequest buf method uri [32] version [] e tail ∧ eol ++ rest = e :: tail := by
  obtain ⟨e, tail, htail, heol, hlf⟩ := eol_cons h.eol_eq rest
  obtain ⟨htoken, hne⟩ := version_token h.version_same
  exact ⟨e, tail, {
    eq := by rw [h.eq, htail]; rfl
    method_ne := h.method_ne
    method_token := h.method_token
    not_version := h.not_version
    uri_token := h.uri_token
    blanks_ne := by simp
    blanks_blank := by intro c hc; simp_all [isBlank]
    version_ne := hne
    version_token := htoken
    pad_blank := by intro c hc; simp at hc
    eol := heol
    lf := hlf }, htail⟩

/-- The blanks in front of the reason are taken for the separator. -/
theorem ReplyLine.loose (h : ReplyLine buf version d1 d2 d3 reason eol rest) :
    ∃ lead reason' e tail, reason = lead ++ reason' ∧
      LooseReply buf version d1 d2 d3 (32 :: lead) reason' e tail ∧
      eol ++ rest = e :: tail := by
  obtain ⟨e, tail, htail, heol, hlf⟩ := eol_cons h.eol_eq rest
  have hsplit := @takeWhile_append_dropWhile _ isBlank reason
  refine ⟨reason.takeWhile isBlank, reason.dropWhile isBlank, e, tail, hsplit.symm, {
    eq := by
      have hreason : reason ++ e :: tail = reason.takeWhile isBlank ++
          (reason.dropWhile isBlank ++ e :: tail) := by
        rw [← append_assoc, hsplit]
      rw [h.eq, htail, hreason]
      rfl
    version_same := h.version_same
    digits := h.digits
    blanks_ne := by simp
    blanks_blank := by
      intro c hc
      rcases mem_cons.mp hc with rfl | hc
      · rfl
      · exact mem_takeWhile_imp hc
    reason_line := fun c hc =>
      h.reason_line c ((dropWhile_sublist isBlank).subset hc)
    reason_head := by
      intro c hc
      have hne : reason.dropWhile isBlank ≠ [] := by
        rintro hnil
        simp [hnil] at hc
      rw [head?_eq_some_head hne] at hc
      have hhead := head_dropWhile_not isBlank hne
      rwa [Option.some.inj hc] at hhead
    eol := heol
    lf := hlf }, htail⟩

theorem lineResult_eq_iff {type : MsgType} {first third : Bytes}
    {value value' nl : ℕ} :
    (lineFields type first uri [32] third value nl, nl) =
        lineResult type first uri third eol value' ↔
      nl = thirdStop first uri [32] third + eol.length ∧ value = value' := by
  simp only [lineResult, lineFields, Prod.mk.injEq, MsgStart.mk.injEq, true_and]
  constructor
  · rintro ⟨⟨h, h'⟩, -⟩
    exact ⟨h, h'⟩
  · rintro ⟨rfl, rfl⟩
    exact ⟨⟨rfl, rfl⟩, rfl⟩

/-- A line of the grammar in a longer buffer is read as it stands, if its
method has its own spelling and its end is as it should be. -/
theorem RequestLine.parse_iff (h : RequestLine buf method uri version eol rest)
    (hlong : 16 < buf.length) :
    parseFirstLine buf fl = lineResult .request method uri version eol (exactMethod method).val ↔
      EndsWell rest ∧ ∀ m ∈ knownMethods, sameName m.1 method → m.1 = method := by
  obtain ⟨e, tail, hloose, htail⟩ := h.loose
  have hbuf : buf = (method ++ [32] ++ uri ++ [32] ++ version) ++ (eol ++ rest) := by
    rw [h.eq]
    simp
  have hstop : (method ++ [32] ++ uri ++ [32] ++ version).length =
      thirdStop method uri [32] version := by
    simp [thirdStop]
    omega
  have hend := eatLine_eol_iff h.eol_eq hbuf
  rw [hstop] at hend
  rw [hloose.parse hlong, lineResult_eq_iff, hend, exactMethod_eq_iff]

/-- A status line, of which the reason may not start with a blank. -/
theorem ReplyLine.parse_iff (h : ReplyLine buf version d1 d2 d3 reason eol rest)
    (hlong : 16 < buf.length) :
    parseFirstLine buf fl = lineResult .reply version [d1, d2, d3] reason eol
        (statusValue d1 d2 d3) ↔
      EndsWell rest ∧ ∀ c ∈ reason.head?, isBlank c = false := by
  obtain ⟨lead, reason', e, tail, hlead, hloose, htail⟩ := h.loose
  by_cases hnil : lead = []
  · subst hnil
    rw [nil_append] at hlead
    subst hlead
    have hbuf : buf = (version ++ [32] ++ [d1, d2, d3] ++ [32] ++ reason) ++ (eol ++ rest) := by
      rw [h.eq]
      simp
    have hstop : (version ++ [32] ++ [d1, d2, d3] ++ [32] ++ reason).length =
        thirdStop version [d1, d2, d3] [32] reason := by
      simp [thirdStop]
      omega
    have hend := eatLine_eol_iff h.eol_eq hbuf
    rw [hstop] at hend
    rw [hloose.parse hlong, lineResult_eq_iff, hend]
    exact ⟨fun hr => ⟨hr.1, hloose.reason_head⟩, fun hr => ⟨hr.1, rfl⟩⟩
  · -- the reason starts behind its blanks
    constructor
    · intro hparse
      rw [hloose.parse hlong] at hparse
      have hstart := congrArg (fun r => r.1.version.s) hparse
      simp only [lineFields, lineResult, length_cons, length_nil] at hstart
      exact absurd (length_eq_zero_iff.mp (by omega)) hnil
    · rintro ⟨-, hhead⟩
      obtain ⟨c, t, rfl, hc⟩ := exists_head hnil fun c hc =>
        hloose.blanks_blank c (mem_cons_of_mem _ hc)
      rw [hhead c (by rw [hlead]; rfl)] at hc
      exact absurd hc (by decide)

/-! ## When the result is right -/

theorem parse_short (h : buf.length ≤ 16) : (parseFirstLine buf fl).1.type = .invalid := by
  rw [parseFirstLine, if_pos h]
  rfl

theorem FirstLineRight.regular (h : FirstLineRight buf fl) : FirstLineRegular buf where
  request := by
    intro method uri version eol rest hline
    have hparse := h.request hline
    have hlong : 16 < buf.length := by
      by_contra hshort
      have hinvalid := @parse_short buf fl (not_lt.mp hshort)
      rw [hparse] at hinvalid
      exact absurd hinvalid (by simp [lineResult, lineFields])
    exact ⟨hlong, (hline.parse_iff hlong).mp hparse⟩
  reply := by
    intro version d1 d2 d3 reason eol rest hline
    have hparse := h.reply hline
    have hlong : 16 < buf.length := by
      by_contra hshort
      have hinvalid := @parse_short buf fl (not_lt.mp hshort)
      rw [hparse] at hinvalid
      exact absurd hinvalid (by simp [lineResult, lineFields])
    exact ⟨hlong, (hline.parse_iff hlong).mp hparse⟩
  loose_request := by
    intro hlong method uri blanks version pad e tail hloose
    have hparse := @LooseRequest.parse _ _ _ _ _ _ _ _ fl hloose hlong
    have hvalid : (parseFirstLine buf fl).1.type ≠ .invalid := by
      rw [hparse]
      simp [lineFields]
    rcases h.sound hvalid with ⟨method', uri', version', eol, rest, hline⟩ |
      ⟨version', d1, d2, d3, reason, eol, rest, hline⟩
    · have heq := hparse.symm.trans (h.request hline)
      simp only [lineFields, lineResult, Prod.mk.injEq, MsgStart.mk.injEq,
        Span.mk.injEq, length_singleton, true_and] at heq
      obtain ⟨hmethod, htail⟩ := append_inj (hloose.eq.symm.trans hline.eq) (by omega)
      obtain ⟨huri, hbehind⟩ := append_inj (List.cons.inj htail).2 (by omega)
      have hsep : blanks ++ (version ++ (pad ++ e :: tail)) =
          [32] ++ (version' ++ (eol ++ rest)) := hbehind
      have hlen : blanks.length = [(32 : UInt8)].length := by
        rw [length_singleton]
        omega
      obtain ⟨hblanks, hthird⟩ := append_inj hsep hlen
      obtain ⟨hversion, hend⟩ := append_inj hthird (by omega)
      have hpad : pad = [] := by
        cases pad with
        | nil => rfl
        | cons c pad =>
          obtain ⟨e', tail', heol, he', -⟩ := eol_cons hline.eol_eq rest
          rw [heol] at hend
          have hc := hloose.pad_blank c (by simp)
          rw [(List.cons.inj hend).1, not_blank_of_eol he'] at hc
          exact absurd hc (by decide)
      subst hpad
      exact ⟨huri ▸ hline.uri_ne, hblanks, hversion ▸ hline.version_same,
        rfl, cons_of_eol hline.eol_eq hend⟩
    · have heq := hparse.symm.trans (h.reply hline)
      exact absurd (congrArg (fun r => r.1.type) heq) (by simp [lineFields, lineResult])
  loose_reply := by
    intro hlong version d1 d2 d3 blanks reason e tail hloose
    have hparse := @LooseReply.parse _ _ _ _ _ _ _ _ _ fl hloose hlong
    have hvalid : (parseFirstLine buf fl).1.type ≠ .invalid := by
      rw [hparse]
      simp [lineFields]
    rcases h.sound hvalid with ⟨method', uri', version', eol, rest, hline⟩ |
      ⟨version', c1, c2, c3, reason', eol, rest, hline⟩
    · have heq := hparse.symm.trans (h.request hline)
      exact absurd (congrArg (fun r => r.1.type) heq) (by simp [lineFields, lineResult])
    · have heq := hparse.symm.trans (h.reply hline)
      simp only [lineFields, lineResult, Prod.mk.injEq, MsgStart.mk.injEq,
        Span.mk.injEq, length_singleton, true_and] at heq
      obtain ⟨hversion, htail⟩ := append_inj (hloose.eq.symm.trans hline.eq) (by omega)
      obtain ⟨hstatus, hbehind⟩ := append_inj (List.cons.inj htail).2 rfl
      have hsep : blanks ++ (reason ++ e :: tail) = [32] ++ (reason' ++ (eol ++ rest)) := hbehind
      have hlen : blanks.length = [(32 : UInt8)].length := by
        simp only [length_cons, length_nil] at heq ⊢
        omega
      obtain ⟨hblanks, hthird⟩ := append_inj hsep hlen
      obtain ⟨hreason, hend⟩ := append_inj hthird (by omega)
      exact ⟨by rw [hblanks]; rfl, cons_of_eol hline.eol_eq hend⟩

theorem FirstLineRegular.right (h : FirstLineRegular buf) : FirstLineRight buf fl where
  request := by
    intro method uri version eol rest hline
    obtain ⟨hlong, hgood⟩ := h.request hline
    exact (hline.parse_iff hlong).mpr hgood
  reply := by
    intro version d1 d2 d3 reason eol rest hline
    obtain ⟨hlong, hgood⟩ := h.reply hline
    exact (hline.parse_iff hlong).mpr hgood
  sound := by
    intro hvalid
    obtain ⟨hlong, ⟨method, uri, blanks, version, pad, e, tail, hloose⟩ |
      ⟨version, d1, d2, d3, blanks, reason, e, tail, hloose⟩⟩ :=
        accepted_loose hvalid
    · obtain ⟨huri, rfl, hversion, rfl, hend⟩ := h.loose_request hlong hloose
      obtain ⟨eol, rest, htail, heol⟩ := eol_of_cons hloose.eol hend
      exact .inl ⟨method, uri, version, eol, rest, {
        eq := by
          rw [hloose.eq, ← htail]
          rfl
        method_ne := hloose.method_ne
        method_token := hloose.method_token
        not_version := hloose.not_version
        uri_ne := huri
        uri_token := hloose.uri_token
        version_same := hversion
        eol_eq := heol }⟩
    · obtain ⟨hblank, hend⟩ := h.loose_reply hlong hloose
      obtain ⟨lead, rfl⟩ := head?_eq_some_iff.mp hblank
      obtain ⟨eol, rest, htail, heol⟩ := eol_of_cons hloose.eol hend
      exact .inr ⟨version, d1, d2, d3, lead ++ reason, eol, rest, {
        eq := by
          rw [hloose.eq, ← htail]
          simp
        version_same := hloose.version_same
        digits := hloose.digits
        reason_line := by
          intro c hc
          rcases mem_append.mp hc with hc | hc
          · exact not_eol_of_blank (hloose.blanks_blank c (mem_cons_of_mem _ hc))
          · exact hloose.reason_line c hc
        eol_eq := heol }⟩

/-- `parse_first_line` is right about the regular buffers, and about no
other. -/
theorem parseFirstLine_right_iff (buf : Bytes) (fl : MsgStart) :
    FirstLineRight buf fl ↔ FirstLineRegular buf :=
  ⟨FirstLineRight.regular, FirstLineRegular.right⟩

end Lines

/-- A request of another protocol is accepted. -/
theorem parseFirstLine_http :
    let buf := ascii "GET sip:a@b HTTP/1.1\r\nVia: x\r\n"
    let fl : MsgStart := ⟨.invalid, 0, ⟨0, 0⟩, ⟨0, 0⟩, ⟨0, 0⟩, 0⟩
    parseFirstLine buf fl = (⟨.request, 22, ⟨0, 3⟩, ⟨4, 7⟩, ⟨12, 8⟩, 16⟩, 22) ∧
      ¬FirstLineRight buf fl := by
  intro buf fl
  refine ⟨by decide, fun h => ?_⟩
  have hloose : LooseRequest buf (ascii "GET") (ascii "sip:a@b") [32]
      (ascii "HTTP/1.1") [] 13 (ascii "\nVia: x\r\n") := {
    eq := by decide
    method_ne := by decide
    method_token := fun c hc => List.all_eq_true.mp
      (show (ascii "GET").all isToken = true by decide) c hc
    not_version := by decide
    uri_token := fun c hc => List.all_eq_true.mp
      (show (ascii "sip:a@b").all isToken = true by decide) c hc
    blanks_ne := by decide
    blanks_blank := fun c hc => List.all_eq_true.mp (show [32].all isBlank = true by decide) c hc
    version_ne := by decide
    version_token := fun c hc => List.all_eq_true.mp
      (show (ascii "HTTP/1.1").all isToken = true by decide) c hc
    pad_blank := by simp [Blanks]
    eol := by decide
    lf := by decide }
  have hversion := (h.regular.loose_request (by decide) hloose).2.2.1
  exact absurd hversion (by decide)

end Msicp.Fline
