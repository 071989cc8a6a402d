import Msicp.Fline.LooseLine
import Mathlib.Data.FinEnum

/-!
# What `parse_first_line` makes of a line

The lines that are accepted, with the slices that are found in them.
-/

namespace Msicp.Fline

open Msicp.Support List
open Msicp.Avp (sameName)

variable {buf method uri blanks version pad tail reason : Bytes}
variable {e d1 d2 d3 : UInt8} {fl : MsgStart}

/-! ## Bytes -/

variable {c : UInt8} {rest : Bytes}

theorem not_token_of_blank (h : isBlank c = true) : isToken c = false := by
  simp [isToken, h]

theorem not_token_of_eol (h : isEol c = true) : isToken c = false := by
  simp [isToken, h]

theorem not_blank_of_token (h : isToken c = true) : isBlank c = false := by
  simp only [isToken, Bool.and_eq_true, Bool.not_eq_true'] at h
  exact h.1

theorem not_blank_of_eol (h : isEol c = true) : isBlank c = false := by
  have h' : c = 13 ∨ c = 10 := by simpa [isEol] using h
  rcases h' with rfl | rfl <;> rfl

theorem not_eol_of_blank (h : isBlank c = true) : isEol c = false := by
  have h' : c = 32 ∨ c = 9 := by simpa [isBlank] using h
  rcases h' with rfl | rfl <;> rfl

theorem exists_head {f : UInt8 → Bool} {s : Bytes} (hne : s ≠ [])
    (h : ∀ c ∈ s, f c = true) : ∃ c t, s = c :: t ∧ f c = true := by
  cases s with
  | nil => exact absurd rfl hne
  | cons c t => exact ⟨c, t, rfl, h c (by simp)⟩

/-! ## Requests -/

/-- The offset behind the version of a request, or the reason of a reply. -/
def thirdStop (first uri blanks third : Bytes) : ℕ :=
  first.length + 1 + uri.length + blanks.length + third.length

/-- What is found in a line whose parts are known. -/
def lineFields (type : MsgType) (first uri blanks third : Bytes) (value nl : ℕ) : MsgStart where
  type := type
  len := nl
  method := ⟨0, first.length⟩
  uri := ⟨first.length + 1, uri.length⟩
  version := ⟨first.length + 1 + uri.length + blanks.length, third.length⟩
  methodValue := value

theorem LooseRequest.thirdEnd (h : LooseRequest buf method uri blanks version pad e tail) :
    thirdEnd buf .request (method.length + 1 + uri.length + blanks.length) =
      some (thirdStop method uri blanks version) := by
  have hbuf : buf = (method ++ [32] ++ uri ++ blanks) ++ (version ++ (pad ++ e :: tail)) := by
    rw [h.eq]
    simp
  have hstart : (method ++ [32] ++ uri ++ blanks).length =
      method.length + 1 + uri.length + blanks.length := by simp; omega
  obtain ⟨c, rest, hrest, hc⟩ : ∃ c rest, pad ++ e :: tail = c :: rest ∧ isToken c = false := by
    rcases pad with _ | ⟨c, pad⟩
    · exact ⟨e, tail, rfl, not_token_of_eol h.eol⟩
    · exact ⟨c, pad ++ e :: tail, rfl, not_token_of_blank (h.pad_blank c (by simp))⟩
  have hend := eatWhile_append (hrest ▸ hbuf) h.version_token hc
  rw [hstart] at hend
  have hbuf' : buf = (method ++ [32] ++ uri ++ blanks ++ version) ++ (pad ++ e :: tail) := by
    rw [h.eq]
    simp
  have hspace := eatWhile_append hbuf' h.pad_blank (not_blank_of_eol h.eol)
  have hstop : (method ++ [32] ++ uri ++ blanks ++ version).length =
      thirdStop method uri blanks version := by
    rw [List.length_append, hstart]
    rfl
  rw [hstop] at hspace
  have hempty : isEmptyEnd buf (thirdStop method uri blanks version) = true := by
    have hget : buf[thirdStop method uri blanks version + pad.length]? =
        some e := by
      rw [show buf = (method ++ [32] ++ uri ++ blanks ++ version ++ pad) ++
          e :: tail by rw [h.eq]; simp,
        getElem?_append_right (by rw [List.length_append, hstop]),
        List.length_append, hstop, Nat.sub_self]
      rfl
    rw [isEmptyEnd, eatSpaceEnd, hspace, hget]
    exact h.eol
  have hpos : version.length ≠ 0 := by
    simpa [length_eq_zero_iff] using h.version_ne
  have hlt : thirdStop method uri blanks version < buf.length := by
    have hlen := congrArg List.length hbuf'
    rw [List.length_append, hstop] at hlen
    simp only [List.length_append, length_cons] at hlen
    omega
  simp only [Fline.thirdEnd, if_true, eatTokenEnd, hend]
  rw [if_neg (by simp only [thirdStop] at hlt; omega)]
  change (if (!isEmptyEnd buf (thirdStop method uri blanks version)) = true then
    none else some (thirdStop method uri blanks version)) = _
  rw [hempty]
  rfl

/-- The middle part of a line, and the blanks behind it. -/
theorem second_third {first : Bytes} (hbuf : buf = first ++ 32 :: (uri ++ (blanks ++ c :: rest)))
    (huri : Token uri) (hne : blanks ≠ []) (hblanks : Blanks blanks)
    (hc : isBlank c = false) :
    eatTokenEnd buf (first.length + 1) = first.length + 1 + uri.length ∧
      eatSpaceEnd buf (first.length + 1 + uri.length) =
        first.length + 1 + uri.length + blanks.length := by
  obtain ⟨b, bs, hb, hblank⟩ := exists_head hne hblanks
  have hfirst : buf = (first ++ [32]) ++ (uri ++ b :: (bs ++ c :: rest)) := by
    rw [hbuf, hb]
    simp
  have hsecond : buf = (first ++ [32] ++ uri) ++ (blanks ++ c :: rest) := by
    rw [hbuf]
    simp
  have h1 := eatWhile_append hfirst huri (not_token_of_blank hblank)
  have h2 := eatWhile_append hsecond hblanks hc
  simp only [List.length_append, length_singleton] at h1 h2
  exact ⟨h1, h2⟩

/-- A request line is accepted, if the buffer is longer than 16 bytes. -/
theorem LooseRequest.parse (h : LooseRequest buf method uri blanks version pad e tail)
    (hlong : 16 < buf.length) :
    parseFirstLine buf fl = (lineFields .request method uri blanks version (methodOf method).val
        (eatLine buf (thirdStop method uri blanks version)),
        eatLine buf (thirdStop method uri blanks version)) := by
  obtain ⟨v, vs, hv, htoken⟩ := exists_head h.version_ne h.version_token
  obtain ⟨hsecond, hthird⟩ := second_third
    (show buf = method ++ 32 :: (uri ++ (blanks ++ v :: (vs ++ (pad ++ e :: tail))))
      by rw [h.eq, hv]; rfl)
    h.uri_token h.blanks_ne h.blanks_blank (not_blank_of_token htoken)
  have hfirst := @firstToken_append _ _ _ fl h.eq h.method_ne h.method_token
  rw [if_neg h.not_version] at hfirst
  have hpos : blanks.length ≠ 0 := by
    simpa [length_eq_zero_iff] using h.blanks_ne
  have hlen : method.length + 1 + uri.length < buf.length := by
    rw [h.eq]
    simp
    omega
  have hdrop : buf.drop (thirdStop method uri blanks version) = pad ++ e :: tail := by
    rw [show buf = (method ++ [32] ++ uri ++ blanks ++ version) ++
      (pad ++ e :: tail) by rw [h.eq]; simp]
    exact drop_left' (by simp [thirdStop]; omega)
  have hnl : eatLine buf (thirdStop method uri blanks version) <
      buf.length := by
    rw [eatLine_lt_iff, hdrop]
    exact mem_append_right _ h.lf
  rw [parseFirstLine, if_neg (by omega), hfirst]
  simp only [hsecond, hthird]
  rw [if_neg (by omega), if_neg (by omega), if_neg (by simp)]
  simp only [h.thirdEnd]
  rw [if_neg (by omega)]
  simp [lineFields, thirdStop]

/-! ## Replies -/

/-- The value of three digits. -/
def statusValue (d1 d2 d3 : UInt8) : ℕ :=
  (d1.toNat - 48) * 100 + 10 * (d2.toNat - 48) + (d3.toNat - 48)

theorem statusCode_append {a : Bytes} (hbuf : buf = a ++ ([d1, d2, d3] ++ rest)) :
    statusCode buf a.length =
      if ∀ d ∈ [d1, d2, d3], 48 ≤ d ∧ d ≤ 57 then some (statusValue d1 d2 d3)
      else none := by
  have hget : ∀ k, buf[a.length + k]? = ([d1, d2, d3] ++ rest)[k]? := by
    intro k
    rw [hbuf, getElem?_append_right (by omega), Nat.add_sub_cancel_left]
  have h0 := hget 0
  have h1 := hget 1
  have h2 := hget 2
  simp only [Nat.add_zero, cons_append, nil_append,
    getElem?_cons_zero, getElem?_cons_succ] at h0 h1 h2
  rw [statusCode, h0, h1, h2]
  simp [statusValue, and_assoc]

/-- A status line is accepted, if the buffer is longer than 16 bytes. -/
theorem LooseReply.parse (h : LooseReply buf version d1 d2 d3 blanks reason e tail)
    (hlong : 16 < buf.length) :
    parseFirstLine buf fl = (lineFields .reply version [d1, d2, d3] blanks reason
        (statusValue d1 d2 d3)
        (eatLine buf (thirdStop version [d1, d2, d3] blanks reason)),
        eatLine buf (thirdStop version [d1, d2, d3] blanks reason)) := by
  have hknown : KnownFirst sipVersion := .inl rfl
  obtain ⟨l, t, hl, -, hvtoken, -⟩ := hknown.facts
  have hfirstToken := hvtoken.of_sameName h.version_same
  have hne : version ≠ [] := by
    rintro rfl
    have hsame := h.version_same
    rw [hl] at hsame
    cases hsame
  have hstatus : Token [d1, d2, d3] := by
    have hdigit : ∀ c : UInt8, 48 ≤ c ∧ c ≤ 57 → isToken c = true :=
      forall_byte (by decide)
    exact fun d hd => hdigit d (h.digits d hd)
  -- behind the blanks comes the reason, or the end of the line
  obtain ⟨c, rest, hrest, hc⟩ : ∃ c rest, reason ++ e :: tail = c :: rest ∧ isBlank c = false := by
    rcases reason with _ | ⟨c, reason⟩
    · exact ⟨e, tail, rfl, not_blank_of_eol h.eol⟩
    · exact ⟨c, reason ++ e :: tail, rfl, h.reason_head c rfl⟩
  obtain ⟨hsecond, hthird⟩ := second_third
    (show buf = version ++ 32 :: ([d1, d2, d3] ++ (blanks ++ c :: rest)) by
      rw [h.eq, hrest])
    hstatus h.blanks_ne h.blanks_blank hc
  have hfirst := @firstToken_append _ _ _ fl h.eq hne hfirstToken
  rw [if_pos h.version_same] at hfirst
  have hpos : blanks.length ≠ 0 := by
    simpa [length_eq_zero_iff] using h.blanks_ne
  have hlen : version.length + 1 + 3 < buf.length := by
    rw [h.eq]
    simp
    omega
  have hcode : statusCode buf (version.length + 1) = some (statusValue d1 d2 d3) := by
    have hcode := statusCode_append (show buf = (version ++ [32]) ++
      ([d1, d2, d3] ++ (blanks ++ (reason ++ e :: tail))) by rw [h.eq]; simp)
    rw [if_pos h.digits] at hcode
    simpa using hcode
  have hbuf : buf = (version ++ [32] ++ [d1, d2, d3] ++ blanks) ++ (reason ++ e :: tail) := by
    rw [h.eq]
    simp
  have hstart : (version ++ [32] ++ [d1, d2, d3] ++ blanks).length =
      version.length + 1 + [d1, d2, d3].length + blanks.length := by
    simp
    omega
  have hend : thirdEnd buf .reply (version.length + 1 + [d1, d2, d3].length + blanks.length) =
        some (thirdStop version [d1, d2, d3] blanks reason) := by
    have hreason : ∀ c ∈ reason, (c ≠ 13 && c ≠ 10 && c ≠ 13 : Bool) = true := by
      intro c hc
      have hline := h.reason_line c hc
      simp only [isEol, decide_eq_false_iff_not, not_or] at hline
      simp [hline.1, hline.2]
    have heol : (e ≠ 13 && e ≠ 10 && e ≠ 13 : Bool) = false := by
      have heol := h.eol
      simp only [isEol, decide_eq_true_eq] at heol
      rcases heol with rfl | rfl <;> rfl
    have hscan := eatWhile_append hbuf hreason heol
    rw [hstart] at hscan
    have hlt : thirdStop version [d1, d2, d3] blanks reason < buf.length := by
      have hlen := congrArg List.length hbuf
      rw [List.length_append, hstart] at hlen
      simp only [List.length_append, length_cons] at hlen
      simp only [thirdStop, length_cons]
      omega
    simp only [thirdEnd, reduceCtorEq, if_false, eatToken2End, hscan]
    rw [if_neg (by simpa [thirdStop] using hlt)]
    rfl
  have hnl : eatLine buf (thirdStop version [d1, d2, d3] blanks reason) <
      buf.length := by
    rw [eatLine_lt_iff, show buf.drop (thirdStop version [d1, d2, d3] blanks reason) = e :: tail by
      rw [show buf = (version ++ [32] ++ [d1, d2, d3] ++ blanks ++ reason) ++
        e :: tail by rw [h.eq]; simp]
      exact drop_left' (by rw [List.length_append, hstart]; rfl)]
    exact h.lf
  rw [parseFirstLine, if_neg (by omega), hfirst]
  simp only [hsecond, hthird, hcode]
  simp only [length_cons, length_nil]
  rw [if_neg (by omega), if_neg (by omega), if_neg (by simp)]
  simp only [length_cons, length_nil] at hend
  simp only [hend]
  rw [if_neg (by omega)]
  simp [lineFields, thirdStop]

/-! ## Every accepted line -/

/-- The third part of a request, and what comes behind it. -/
theorem thirdEnd_request {third tmp : ℕ} (h : thirdEnd buf .request third = some tmp)
    (hnl : eatLine buf tmp < buf.length) :
    ∃ version pad e tail, buf.drop third = version ++ (pad ++ e :: tail) ∧
      version ≠ [] ∧ Token version ∧ Blanks pad ∧ isEol e = true ∧
      (10 : UInt8) ∈ e :: tail := by
  obtain ⟨version, hcut, hend, hversion, -⟩ := eatWhile_cut isToken buf third
  have hend' : eatTokenEnd buf third = third + version.length := hend
  simp only [thirdEnd, if_true, hend'] at h
  by_cases hbad : third + version.length = third ∨ buf.length ≤ third + version.length
  · rw [if_pos hbad] at h
    cases h
  rw [if_neg hbad] at h
  by_cases hempty : isEmptyEnd buf (third + version.length) = true
  · rw [hempty, Bool.not_true, if_neg (by simp)] at h
    obtain rfl := Option.some.inj h
    obtain ⟨pad, hpad, hpadEnd, hblank, -⟩ :=
      eatWhile_cut isBlank buf (third + version.length)
    have hpadEnd' : eatSpaceEnd buf (third + version.length) =
        third + version.length + pad.length := hpadEnd
    rw [isEmptyEnd, hpadEnd', Option.any_eq_true] at hempty
    obtain ⟨e, he, heol⟩ := hempty
    obtain ⟨hlt, hget⟩ := List.getElem?_eq_some_iff.mp he
    rw [hpadEnd, drop_eq_getElem_cons hlt, hget] at hpad
    refine ⟨version, pad, e, buf.drop (third + version.length + pad.length + 1), ?_, ?_, hversion,
      hblank, heol, ?_⟩
    · rw [hcut, hend, hpad]
    · rintro rfl
      exact hbad (.inl rfl)
    · rw [eatLine_lt_iff, hpad] at hnl
      rcases mem_append.mp hnl with hmem | hmem
      · exact absurd (hblank 10 hmem) (by decide)
      · exact hmem
  · rw [if_pos (by simpa using hempty)] at h
    cases h

theorem thirdEnd_reply {third tmp : ℕ} (h : thirdEnd buf .reply third = some tmp)
    (hnl : eatLine buf tmp < buf.length) :
    ∃ reason e tail, buf.drop third = reason ++ e :: tail ∧
      (∀ c ∈ reason, isEol c = false) ∧ isEol e = true ∧
      (10 : UInt8) ∈ e :: tail := by
  obtain ⟨reason, hcut, hend, hreason, hstop⟩ := eatWhile_cut
    (fun c => c ≠ 13 && c ≠ 10 && c ≠ 13) buf third
  have hend' : eatToken2End buf third 13 = third + reason.length := hend
  simp only [thirdEnd, reduceCtorEq, if_false, hend'] at h
  by_cases hbad : buf.length ≤ third + reason.length
  · rw [if_pos hbad] at h
    cases h
  rw [if_neg hbad] at h
  obtain rfl := Option.some.inj h
  obtain ⟨e, tail, htail⟩ := drop_eq_cons (not_le.mp hbad)
  rw [hend, htail] at hcut hstop
  refine ⟨reason, e, tail, hcut, fun c hc => ?_, ?_, ?_⟩
  · have hline := hreason c hc
    simp only [Bool.and_eq_true, decide_eq_true_eq] at hline
    simp [isEol, hline.1.1, hline.1.2]
  · have heol := hstop e rfl
    simp only [Bool.and_eq_false_iff, decide_eq_false_iff_not, not_not] at heol
    simp only [isEol, decide_eq_true_eq]
    tauto
  · rwa [eatLine_lt_iff, htail] at hnl

theorem statusCode_some {a s : Bytes} (hbuf : buf = a ++ (s ++ rest))
    (hlen : s.length = 3) (hcode : statusCode buf a.length ≠ none) :
    ∃ d1 d2 d3, s = [d1, d2, d3] ∧ ∀ d ∈ [d1, d2, d3], 48 ≤ d ∧ d ≤ 57 := by
  obtain ⟨d1, d2, d3, rfl⟩ := length_eq_three.mp hlen
  rw [statusCode_append hbuf] at hcode
  split at hcode
  · exact ⟨d1, d2, d3, rfl, ‹_›⟩
  · exact absurd rfl hcode

theorem accepted_loose (h : (parseFirstLine buf fl).1.type ≠ .invalid) : 16 < buf.length ∧
      ((∃ method uri blanks version pad e tail,
        LooseRequest buf method uri blanks version pad e tail) ∨
      ∃ version d1 d2 d3 blanks reason e tail,
        LooseReply buf version d1 d2 d3 blanks reason e tail) := by
  have hinvalid : ∀ {fl : MsgStart}, (flError buf fl).1.type = .invalid := rfl
  rw [parseFirstLine] at h
  by_cases hlong : buf.length ≤ 16
  · rw [if_pos hlong] at h
    exact absurd hinvalid h
  rw [if_neg hlong] at h
  refine ⟨by omega, ?_⟩
  cases hfirst : firstToken buf fl with
  | none =>
    rw [hfirst] at h
    exact absurd hinvalid h
  | some r =>
    obtain ⟨first, rest, hbuf, hne, htoken⟩ := firstToken_some hfirst
    rw [firstToken_append hbuf hne htoken] at h
    have hdrop : buf.drop (first.length + 1) = rest := by
      rw [show buf = (first ++ [32]) ++ rest by rw [hbuf]; simp]
      exact drop_left' (by simp)
    obtain ⟨uri, hcut1, hend1, huri, -⟩ :=
      eatWhile_cut isToken buf (first.length + 1)
    have hend1' : eatTokenEnd buf (first.length + 1) = first.length + 1 + uri.length := hend1
    obtain ⟨blanks, hcut2, hend2, hblanks, hnext⟩ :=
      eatWhile_cut isBlank buf (first.length + 1 + uri.length)
    have hend2' : eatSpaceEnd buf (first.length + 1 + uri.length) =
        first.length + 1 + uri.length + blanks.length := hend2
    rw [hdrop, hend1, hcut2, hend2] at hcut1
    rw [hend2] at hnext
    simp only [hend1', hend2'] at h
    by_cases hshort : buf.length ≤ first.length + 1 + uri.length
    · rw [if_pos hshort] at h
      exact absurd hinvalid h
    rw [if_neg hshort] at h
    by_cases hgap : first.length + 1 + uri.length + blanks.length = first.length + 1 + uri.length ∨
        buf.length ≤ first.length + 1 + uri.length
    · rw [if_pos hgap] at h
      exact absurd hinvalid h
    rw [if_neg hgap] at h
    have hblanksNe : blanks ≠ [] := by
      rintro rfl
      exact hgap (.inl rfl)
    by_cases hversion : sameName sipVersion first
    · right
      simp only [hversion, if_true, true_and] at h
      by_cases hstatus : first.length + 1 + uri.length - (first.length + 1) ≠ 3 ∨
            statusCode buf (first.length + 1) = none
      · rw [if_pos hstatus] at h
        exact absurd hinvalid h
      rw [if_neg hstatus, Nat.add_sub_cancel_left] at h
      simp only [not_or, not_not, Nat.add_sub_cancel_left] at hstatus
      have hbuf' : buf = (first ++ [32]) ++ (uri ++ (blanks ++
          buf.drop (first.length + 1 + uri.length + blanks.length))) := by
        rw [← hcut1, hbuf]
        simp
      obtain ⟨d1, d2, d3, rfl, hdigits⟩ := statusCode_some hbuf' hstatus.1
        (by simpa using hstatus.2)
      cases hthird : thirdEnd buf .reply
          (first.length + 1 + [d1, d2, d3].length + blanks.length) with
      | none =>
        simp only [hthird] at h
        exact absurd hinvalid h
      | some tmp =>
        simp only [hthird] at h
        by_cases hnl : buf.length ≤ eatLine buf tmp
        · rw [if_pos hnl] at h
          exact absurd hinvalid h
        obtain ⟨reason, e, tail, hreason, hline, heol, hlf⟩ :=
          thirdEnd_reply hthird (not_le.mp hnl)
        refine ⟨first, d1, d2, d3, blanks, reason, e, tail, ?_, hversion,
          hdigits, hblanksNe, hblanks, hline, ?_, heol, hlf⟩
        · rw [hbuf, hcut1, hreason]
        · intro c hc
          rw [hreason] at hnext
          refine hnext c ?_
          obtain ⟨t, rfl⟩ := head?_eq_some_iff.mp hc
          rfl
    · left
      simp only [hversion, if_false, reduceCtorEq, false_and] at h
      cases hthird : thirdEnd buf .request
          (first.length + 1 + uri.length + blanks.length) with
      | none =>
        simp only [hthird] at h
        exact absurd hinvalid h
      | some tmp =>
        simp only [hthird] at h
        by_cases hnl : buf.length ≤ eatLine buf tmp
        · rw [if_pos hnl] at h
          exact absurd hinvalid h
        obtain ⟨version, pad, e, tail, hrest, hvne, hvtoken, hpad, heol, hlf⟩ :=
          thirdEnd_request hthird (not_le.mp hnl)
        exact ⟨first, uri, blanks, version, pad, e, tail,
          by rw [hbuf, hcut1, hrest], hne, htoken, hversion, huri, hblanksNe,
          hblanks, hvne, hvtoken, hpad, heol, hlf⟩

end Msicp.Fline
