import Msicp.Tcp.LengthLines

/-!
# Where the length of a message comes from

The bytes read so far are lines that have ended and one that has not.  Up to
the empty line the scan is in the state that the last line alone determines,
and it has found a length if one of the lines gives one.  So a store into
`content_len` or `has_content_len` can be traced to the line it is made on,
which need not be a header line of its own.
-/

namespace Msicp.Tcp

open Msicp.Support List
open Option hiding or_assoc

/-! ## Lines -/

/-- The lines of a message up to some byte. -/
structure Lines where
  ended : List Bytes
  last : Bytes

/-- One more byte; a message starts behind empty lines and white space. -/
def nextByte : Option Lines → UInt8 → Option Lines
  | none, c => if isBlank c ∨ c = 10 ∨ c = 13 then none else some ⟨[], [c]⟩
  | some l, c =>
    if c = 10 then some ⟨l.ended ++ [l.last], []⟩
    else some ⟨l.ended, l.last ++ [c]⟩

/-- The lines of the bytes read. -/
def linesOf (u : Bytes) : Option Lines := u.foldl nextByte none

variable {u w indent name digits : Bytes} {c : UInt8} {r : Scan} {p : ℕ} {l : Lines}

theorem linesOf_concat : linesOf (u ++ [c]) = nextByte (linesOf u) c := by
  rw [linesOf, foldl_append]
  rfl

/-- The line reads as a length that has at least one digit. -/
def Number (w : Bytes) : Prop :=
  ∃ indent name digits, LengthLine w indent name digits ∧ digits ≠ []

/-- White space or a carriage return has followed the digits. -/
def Passed (w : Bytes) : Prop :=
  ∃ w₁ c w₂, w = w₁ ++ c :: w₂ ∧ (isBlank c = true ∨ c = 13) ∧ Number w₁

/-- The line, when it ends, has given a length. -/
def GivesLength (w : Bytes) : Prop := Number w ∨ Passed w

/-- The empty line behind the headers. -/
def EndsHeaders (w : Bytes) : Prop := w = [] ∨ w = [13]

theorem not_endsHeaders_concat (h : w ≠ []) : ¬EndsHeaders (w ++ [c]) := by
  rintro (hw | hw)
  · simp at hw
  · obtain ⟨hnil, -⟩ := append_inj' (hw.trans (nil_append [13]).symm) rfl
    exact h hnil

theorem passed_concat : Passed (w ++ [c]) ↔ Passed w ∨ (isBlank c = true ∨ c = 13) ∧ Number w := by
  constructor
  · rintro ⟨w₁, d, w₂, hw, hd, hnumber⟩
    rcases eq_nil_or_concat w₂ with rfl | ⟨w₃, e, rfl⟩
    · obtain ⟨rfl, hcd⟩ := append_inj' hw rfl
      obtain rfl : c = d := by simpa using hcd
      exact Or.inr ⟨hd, hnumber⟩
    · rw [concat_eq_append, ← cons_append, ← append_assoc] at hw
      obtain ⟨rfl, -⟩ := append_inj' hw rfl
      exact Or.inl ⟨w₁, d, w₃, rfl, hd, hnumber⟩
  · rintro (⟨w₁, d, w₂, rfl, hd, hnumber⟩ | ⟨hc, hnumber⟩)
    · exact ⟨w₁, d, w₂ ++ [c], by simp, hd, hnumber⟩
    · exact ⟨w, c, [], rfl, hc, hnumber⟩

theorem not_passed_nil : ¬Passed [] := by
  rintro ⟨w₁, c, w₂, hw, -⟩
  simp at hw

theorem number_iff (hw : 10 ∉ w) : Number w ↔ lineState w = .contLenBodyParse := by
  constructor
  · rintro ⟨indent, name, digits, hline, hne⟩
    rw [hline.lineState, if_neg hne]
  · intro hstate
    have hreads := reads_lineState hw
    rw [hstate] at hreads
    exact hreads

/-! ## The scan byte by byte -/

/-- The fields when `tcp_read_headers` has seen these bytes, in however many
reads they came. -/
def scan (u : Bytes) : Scan := readHeadersLoop Scan.init 0 u

/-- The turn at `c` stores into `content_len`. -/
def storesLength (r : Scan) (c : UInt8) : Prop :=
  (r.state = .contLenBody ∨ r.state = .contLenBodyParse) ∧ isDigit c = true

/-- The turn at `c` stores into `has_content_len`. -/
def storesFound (r : Scan) (c : UInt8) : Prop :=
  r.state = .contLenBodyParse ∧ (isBlank c = true ∨ c = 13 ∨ c = 10)

theorem not_isDigit_of_end (hc : isBlank c = true ∨ c = 13 ∨ c = 10) : isDigit c = false := by
  rcases hc with hc | rfl | rfl
  · exact not_isDigit_of_isBlank hc
  · rfl
  · rfl

theorem not_isBlank_of_isDigit (h : isDigit c = true) : isBlank c = false := by
  by_contra hblank
  rw [Bool.not_eq_false] at hblank
  simp [not_isDigit_of_isBlank hblank] at h

theorem headerStep_of_ne (hbody : r.state ≠ .contLenBody) (hparse : r.state ≠ .contLenBodyParse) :
    (headerStep r p c).contentLen = r.contentLen ∧
      (headerStep r p c).hasContentLen = r.hasContentLen := by
  unfold headerStep foundEmptyLine
  cases hstate : r.state with
  | contLenBody => exact absurd hstate hbody
  | contLenBodyParse => exact absurd hstate hparse
  | skip | lf | lfcr | skipEmpty | contLen | lColon =>
    dsimp only
    split_ifs <;> exact ⟨rfl, rfl⟩
  | startWs | body => exact ⟨rfl, rfl⟩

theorem headerStep_contentLen (h : ¬storesLength r c) :
    (headerStep r p c).contentLen = r.contentLen := by
  by_cases hdigit : isDigit c = true
  · have hstate : ¬(r.state = .contLenBody ∨ r.state = .contLenBodyParse) :=
      fun hstate => h ⟨hstate, hdigit⟩
    rw [not_or] at hstate
    exact (headerStep_of_ne hstate.1 hstate.2).1
  · cases hstate : r.state with
    | contLenBody =>
      simp only [headerStep, hstate, if_neg hdigit]
      split_ifs <;> rfl
    | contLenBodyParse =>
      simp only [headerStep, hstate, if_neg hdigit]
      split_ifs <;> rfl
    | _ => exact (headerStep_of_ne (by simp [hstate]) (by simp [hstate])).1

theorem headerStep_hasContentLen : (headerStep r p c).hasContentLen = true ↔
      r.hasContentLen = true ∨ storesFound r c := by
  cases hstate : r.state with
  | contLenBody =>
    simp only [storesFound, hstate, reduceCtorEq, false_and, or_false, headerStep]
    split_ifs <;> rfl
  | contLenBodyParse =>
    simp only [storesFound, hstate, true_and, headerStep]
    by_cases hend : isBlank c = true ∨ c = 13 ∨ c = 10
    · rw [if_neg (by simp [not_isDigit_of_end hend])]
      by_cases hinner : isBlank c = true ∨ c = 13
      · simp [if_pos hinner, hend]
      · have hc : c = 10 := by tauto
        simp only [if_neg hinner, if_pos hc, hend, or_true]
    · have hinner : ¬(isBlank c = true ∨ c = 13) := by tauto
      have hc : c ≠ 10 := by tauto
      simp only [if_neg hinner, if_neg hc, hend, or_false]
      split_ifs <;> rfl
  | _ =>
    rw [(headerStep_of_ne (by simp [hstate]) (by simp [hstate])).2]
    simp [storesFound, hstate]

theorem headerStep_state (hhas : r.hasContentLen = false) (hc : c ≠ 10) :
    (headerStep r p c).state = turn r.state c := by
  have hinit : Scan.init.hasContentLen = false := rfl
  cases hstate : r.state with
  | body | skip => simp [turn, headerStep, hstate, hc]
  | startWs | lfcr =>
    simp only [turn, headerStep, hstate, contentLenBeg, hhas, hinit, if_neg hc]
  | _ =>
    simp only [turn, headerStep, hstate, contentLenBeg, hhas, hinit, if_neg hc]
    split_ifs <;> first | rfl | exact hstate

theorem lf_ne_contLenChars (k : Fin 13) :
    ¬((10 : UInt8) = contLenChars[k].1 ∨ (10 : UInt8) = contLenChars[k].2) := by
  revert k
  decide

theorem headerStep_lf (hempty : r.state ≠ .skipEmpty)
    (hbody : r.state ≠ .body) (hlf : r.state ≠ .lf)
    (hlfcr : r.state ≠ .lfcr) : (headerStep r p 10).state = .lf := by
  cases hstate : r.state with
  | skipEmpty => exact absurd hstate hempty
  | body => exact absurd hstate hbody
  | lf => exact absurd hstate hlf
  | lfcr => exact absurd hstate hlfcr
  | contLen k =>
    simp only [headerStep, hstate, if_neg (lf_ne_contLenChars k), crlfDefaultSkip, if_true]
  | _ =>
    simp [headerStep, hstate, contentLenBeg, crlfDefaultSkip, isBlank, isDigit]

theorem headerStep_empty (h : r.state = .lf ∨ r.state = .lfcr) :
    (headerStep r p 10).state = .body := by
  have hreturn : (10 : UInt8) ≠ 13 := by decide
  have hfound : (foundEmptyLine r p).state = .body := by
    unfold foundEmptyLine
    split_ifs <;> rfl
  rcases h with h | h
  · simp only [headerStep, h, if_neg hreturn, if_true, hfound]
  · simp only [headerStep, h, if_true, hfound]

theorem headerStep_found (hhas : r.hasContentLen = true) (hc : c ≠ 10) :
    (r.state = .lf → (headerStep r p c).state = if c = 13 then .lfcr else .skip) ∧
      (r.state = .lfcr ∨ r.state = .skip → (headerStep r p c).state = .skip) := by
  constructor
  · intro hstate
    simp only [headerStep, hstate, if_neg hc, contentLenBeg, hhas, if_true]
    split_ifs <;> rfl
  · rintro (hstate | hstate)
    · simp only [headerStep, hstate, if_neg hc]
    · simp only [headerStep, hstate, if_neg hc]

theorem headerStep_stays_open (hopen : r.Open)
    (h : (headerStep r p c).state ≠ .body) : (headerStep r p c).Open := by
  have hfound : (foundEmptyLine r p).state = .body := by
    unfold foundEmptyLine
    split_ifs <;> rfl
  unfold headerStep at h ⊢
  cases hstate : r.state with
  | startWs | body => exact ⟨hopen.error, hopen.complete⟩
  | lf | lfcr =>
    simp only [hstate] at h ⊢
    split_ifs at h ⊢ <;> first
      | exact absurd hfound h
      | exact ⟨hopen.error, hopen.complete⟩
  | _ =>
    dsimp only
    split_ifs <;> exact ⟨hopen.error, hopen.complete⟩

theorem scan_body {u : Bytes} {c : UInt8} (h : (scan u).state = .body) :
    (scan (u ++ [c])).state = .body ∧ (scan (u ++ [c])).contentLen = (scan u).contentLen ∧
      (scan (u ++ [c])).hasContentLen = (scan u).hasContentLen := by
  have hinit : Scan.init.Open := ⟨rfl, rfl⟩
  unfold scan at h ⊢
  by_cases hopen : (readHeadersLoop Scan.init 0 u).Open
  · rw [readHeadersLoop_append [c] hinit hopen, readHeadersLoop_cons hopen, if_pos h]
    exact ⟨h, rfl, rfl⟩
  · rw [readHeadersLoop_stop [c] hinit hopen]
    exact ⟨h, rfl, rfl⟩

theorem scan_concat_of_open (hopen : (scan u).Open) (h : (scan u).state ≠ .body) : scan (u ++ [c]) =
      { headerStep (scan u) u.length c with parsed := (u.length + 1 : ℕ) } := by
  have hinit : Scan.init.Open := ⟨rfl, rfl⟩
  unfold scan at hopen h ⊢
  rw [readHeadersLoop_append [c] hinit hopen, readHeadersLoop_cons hopen,
    if_neg h, Nat.zero_add, readHeadersLoop]
  split_ifs <;> rfl

theorem scan_open (h : (scan u).state ≠ .body) : (scan u).Open := by
  induction u using List.reverseRecOn with
  | nil => exact ⟨rfl, rfl⟩
  | append_singleton u c ih =>
    have hbefore : (scan u).state ≠ .body := fun hbody => h (scan_body hbody).1
    have hopen := ih hbefore
    rw [scan_concat_of_open hopen hbefore] at h ⊢
    obtain ⟨herror, hcomplete⟩ := headerStep_stays_open hopen h
    exact ⟨herror, hcomplete⟩

theorem scan_concat (h : (scan u).state ≠ .body) : scan (u ++ [c]) =
      { headerStep (scan u) u.length c with parsed := (u.length + 1 : ℕ) } :=
  scan_concat_of_open (scan_open h) h

/-- The digits of a number are read from left to right. -/
theorem of_turn_eq_parse {state : ReqState} (h : turn state c = .contLenBodyParse) :
    (state = .contLenBody ∨ state = .contLenBodyParse) ∧ isDigit c = true := by
  cases state with
  | contLenBody =>
    refine ⟨Or.inl rfl, ?_⟩
    by_contra hdigit
    simp only [turn, headerStep, if_neg hdigit, crlfDefaultSkip] at h
    split_ifs at h
  | contLenBodyParse =>
    refine ⟨Or.inr rfl, ?_⟩
    by_contra hdigit
    simp only [turn, headerStep, if_neg hdigit] at h
    split_ifs at h
  | contLen k =>
    simp only [turn, headerStep, contLenNext, crlfDefaultSkip] at h
    split_ifs at h
  | body => cases h
  | skip | lfcr | skipEmpty | lColon | lf | startWs =>
    simp only [turn, headerStep, foundEmptyLine, contentLenBeg, crlfDefaultSkip, Scan.init] at h
    split_ifs at h <;> cases h

theorem toInt_digitVal (c : UInt8) : toInt (digitVal c) = digitVal c := by
  have hlt : c.toNat < 256 := c.toNat_lt
  simp only [digitVal, toInt]
  exact Int.bmod_eq_of_le (by omega) (by omega)

theorem toInt_digit (x d : ℤ) : toInt (toInt x * 10 + d) = toInt (x * 10 + d) := by
  rw [toInt, toInt, ← Int.bmod_add_bmod, Int.bmod_mul_bmod, Int.bmod_add_bmod]
  rfl

/-! ## The lines behind the state -/

theorem lineState_ends (hw : 10 ∉ w) : lineState w = .lf ∨ lineState w = .lfcr ↔ EndsHeaders w := by
  constructor
  · intro h
    have hreads := reads_lineState hw
    rcases h with h | h
    · rw [h] at hreads
      exact Or.inl hreads
    · rw [h] at hreads
      exact Or.inr hreads
  · rintro (rfl | rfl)
    · exact Or.inl rfl
    · exact Or.inr rfl

/-- Up to the empty line: the scan and the lines it has seen. -/
structure LineInv (l : Lines) (r : Scan) : Prop where
  noLf : 10 ∉ l.last
  ended : ∀ w ∈ l.ended, ¬EndsHeaders w
  seeking : r.hasContentLen = false → r.state = lineState l.last
  found : r.hasContentLen = true →
    r.state = .lf ∧ l.last = [] ∨ r.state = .lfcr ∧ l.last = [13] ∨
      r.state = .skip ∧ ¬EndsHeaders l.last
  gives : r.hasContentLen = true ↔
    (∃ w ∈ l.ended, GivesLength w) ∨ Passed l.last
  number : r.state = .contLenBodyParse →
    r.contentLen = toInt (decimal (l.last.rtakeWhile isDigit))

namespace LineInv

variable {l : Lines} {r : Scan} {p : ℕ} {c : UInt8}

section

variable (h : LineInv l r)
include h

theorem ends : r.state = .lf ∨ r.state = .lfcr ↔ EndsHeaders l.last := by
  cases hhas : r.hasContentLen with
  | false => rw [h.seeking hhas, lineState_ends h.noLf]
  | true =>
    rcases h.found hhas with ⟨hstate, hlast⟩ | ⟨hstate, hlast⟩ |
      ⟨hstate, hlast⟩
    · simp [hstate, hlast, EndsHeaders]
    · simp [hstate, hlast, EndsHeaders]
    · simp [hstate, hlast]

theorem hasContentLen_of_state (hstate : r.state = .contLenBody ∨ r.state = .contLenBodyParse) :
    r.hasContentLen = false := by
  by_contra hhas
  rw [Bool.not_eq_false] at hhas
  rcases h.found hhas with ⟨hfound, -⟩ | ⟨hfound, -⟩ | ⟨hfound, -⟩ <;> simp [hfound] at hstate

theorem state_ne : r.state ≠ .skipEmpty ∧ r.state ≠ .body := by
  cases hhas : r.hasContentLen with
  | false =>
    have hreads := reads_lineState h.noLf
    rw [← h.seeking hhas] at hreads
    constructor <;>
      · intro hstate
        rw [hstate] at hreads
        exact hreads
  | true =>
    rcases h.found hhas with ⟨hfound, -⟩ | ⟨hfound, -⟩ | ⟨hfound, -⟩ <;> simp [hfound]

theorem setParsed (q : ℤ) : LineInv l { r with parsed := q } :=
  ⟨h.noLf, h.ended, h.seeking, h.found, h.gives, h.number⟩

theorem number_iff (hhas : r.hasContentLen = false) :
    Number l.last ↔ r.state = .contLenBodyParse := by
  rw [Tcp.number_iff h.noLf, h.seeking hhas]

theorem colon (hstate : r.state = .contLenBody) : l.last.rtakeWhile isDigit = [] := by
  have hreads := reads_lineState h.noLf
  rw [← h.seeking (h.hasContentLen_of_state (Or.inl hstate)), hstate] at hreads
  obtain ⟨indent, name, hline⟩ := hreads
  exact hline.parts.2.2.symm

theorem lineFeed (hends : ¬EndsHeaders l.last) :
    LineInv ⟨l.ended ++ [l.last], []⟩ (headerStep r p 10) := by
  obtain ⟨hlf, hlfcr⟩ := not_or.mp (fun hends' => hends (h.ends.mp hends'))
  have hstate : (headerStep r p 10).state = .lf :=
    headerStep_lf h.state_ne.1 h.state_ne.2 hlf hlfcr
  refine ⟨by simp, ?_, ?_, ?_, ?_, ?_⟩
  · intro w hw
    rcases mem_append.mp hw with hw | hw
    · exact h.ended w hw
    · rwa [mem_singleton.mp hw]
  · intro _
    exact hstate
  · intro _
    exact Or.inl ⟨hstate, rfl⟩
  · have hstores : storesFound r 10 ↔ r.state = .contLenBodyParse := by
      simp [storesFound]
    rw [headerStep_hasContentLen, hstores]
    simp only [mem_append, mem_singleton, or_and_right, exists_or,
      exists_eq_left, not_passed_nil, or_false, GivesLength]
    cases hhas : r.hasContentLen with
    | false =>
      have hnone := h.gives.not.mp (by simp [hhas])
      rw [not_or] at hnone
      rw [h.number_iff hhas]
      simp only [GivesLength] at hnone
      simp [hnone.1, hnone.2]
    | true =>
      have hsome := h.gives.mp hhas
      simp only [GivesLength] at hsome
      rcases hsome with hsome | hsome <;> simp [hsome]
  · intro hparse
    rw [hstate] at hparse
    cases hparse

/-- A line on which the length was found goes on. -/
theorem next_found (hc : c ≠ 10) (hhas : r.hasContentLen = true) :
    (headerStep r p c).state = .lf ∧ l.last ++ [c] = [] ∨
      (headerStep r p c).state = .lfcr ∧ l.last ++ [c] = [13] ∨
        (headerStep r p c).state = .skip ∧ ¬EndsHeaders (l.last ++ [c]) := by
  obtain ⟨hfromLf, hfromSkip⟩ := headerStep_found (p := p) hhas hc
  rcases h.found hhas with ⟨hstate, hlast⟩ | ⟨hstate, hlast⟩ | ⟨hstate, hlast⟩
  · rw [hfromLf hstate, hlast]
    by_cases hreturn : c = 13
    · simp [hreturn]
    · simp [hreturn, EndsHeaders]
  · rw [hfromSkip (Or.inl hstate), hlast]
    simp [EndsHeaders]
  · rw [hfromSkip (Or.inr hstate)]
    refine Or.inr (Or.inr ⟨rfl, not_endsHeaders_concat ?_⟩)
    exact fun hnil => hlast (Or.inl hnil)

theorem next (hc : c ≠ 10) : LineInv ⟨l.ended, l.last ++ [c]⟩ (headerStep r p c) := by
  have hstores : storesFound r c ↔ r.state = .contLenBodyParse ∧ (isBlank c = true ∨ c = 13) := by
    simp [storesFound, hc]
  have hstate : r.hasContentLen = false → (headerStep r p c).state = lineState (l.last ++ [c]) := by
    intro hhas
    rw [headerStep_state hhas hc, h.seeking hhas, lineState_concat]
  refine ⟨?_, h.ended, ?_, ?_, ?_, ?_⟩
  · simpa [hc.symm] using h.noLf
  · intro hhas
    have hbefore : r.hasContentLen = false := by
      by_contra htrue
      rw [Bool.not_eq_false] at htrue
      simp [headerStep_hasContentLen.mpr (Or.inl htrue)] at hhas
    exact hstate hbefore
  · intro hhas
    cases hbefore : r.hasContentLen with
    | true => exact h.next_found hc hbefore
    | false =>
      rw [headerStep_hasContentLen, hbefore] at hhas
      obtain ⟨hparse, hend⟩ := hstores.mp (hhas.resolve_left (by simp))
      have hlast : l.last ≠ [] := by
        intro hnil
        rw [h.seeking hbefore, hnil] at hparse
        cases hparse
      refine Or.inr (Or.inr ⟨?_, not_endsHeaders_concat hlast⟩)
      have hdigit := not_isDigit_of_end (c := c) (by tauto)
      simp [headerStep, hparse, hdigit, hend]
  · rw [headerStep_hasContentLen, passed_concat, hstores, h.gives]
    cases hbefore : r.hasContentLen with
    | false =>
      rw [h.number_iff hbefore, or_assoc]
      exact or_congr_right (or_congr_right and_comm)
    | true =>
      have hsome := h.gives.mp hbefore
      rcases hsome with hsome | hsome <;> simp [hsome]
  · intro hparse
    have hbefore : r.hasContentLen = false := by
      by_contra htrue
      rw [Bool.not_eq_false] at htrue
      rcases h.next_found (p := p) hc htrue with ⟨hfound, -⟩ | ⟨hfound, -⟩ |
        ⟨hfound, -⟩ <;> simp [hfound] at hparse
    rw [headerStep_state hbefore hc] at hparse
    obtain ⟨hfrom, hdigit⟩ := of_turn_eq_parse hparse
    rw [rtakeWhile_concat_pos _ _ _ hdigit, decimal_concat]
    have hblank := not_isBlank_of_isDigit hdigit
    rcases hfrom with hfrom | hfrom
    · rw [h.colon hfrom]
      simp [headerStep, hfrom, hdigit, hblank, decimal, toInt_digitVal]
    · have hvalue := h.number hfrom
      simp only [headerStep, hfrom, if_pos hdigit, hvalue, toInt_digit]
      push_cast
      rfl

end

end LineInv

theorem turn_skipEmpty (hc : ¬(isBlank c = true ∨ c = 10 ∨ c = 13)) :
    turn .skipEmpty c = turn .lf c := by
  have hparts : isBlank c ≠ true ∧ c ≠ 10 ∧ c ≠ 13 := by tauto
  obtain ⟨hblank, hlf, hreturn⟩ := hparts
  simp only [turn, headerStep, if_neg hc, if_neg hreturn, if_neg hlf,
    contentLenBeg, if_neg hblank, Scan.init, Bool.false_eq_true, if_false]
  split_ifs <;> rfl

theorem LineInv.first (hstate : r.state = .skipEmpty) (hhas : r.hasContentLen = false)
    (hc : ¬(isBlank c = true ∨ c = 10 ∨ c = 13)) :
    LineInv ⟨[], [c]⟩ (headerStep r p c) := by
  have hlf : c ≠ 10 := by tauto
  have hreturn : c ≠ 13 := by tauto
  have hhas' : (headerStep r p c).hasContentLen = false := by
    rw [(headerStep_of_ne (by simp [hstate]) (by simp [hstate])).2, hhas]
  have hnext : (headerStep r p c).state = lineState [c] := by
    rw [headerStep_state hhas hlf, hstate, turn_skipEmpty hc]
    rfl
  have hpassed : ¬Passed [c] := by
    rw [← nil_append [c], passed_concat]
    rintro (hpassed | ⟨hend, -⟩)
    · exact not_passed_nil hpassed
    · tauto
  refine ⟨by simpa using Ne.symm hlf, by simp, fun _ => hnext, ?_, ?_, ?_⟩
  · intro htrue
    simp [hhas'] at htrue
  · simp [hhas', hpassed]
  · intro hparse
    rw [headerStep_state hhas hlf, hstate] at hparse
    have hfrom := (of_turn_eq_parse hparse).1
    simp at hfrom

/-- A scan and the lines of the bytes it has seen. -/
theorem scan_lines (h : (scan u).state ≠ .body) :
    linesOf u = none ∧ (scan u).state = .skipEmpty ∧ (scan u).hasContentLen = false ∨
      ∃ l, linesOf u = some l ∧ LineInv l (scan u) := by
  induction u using List.reverseRecOn with
  | nil => exact Or.inl ⟨rfl, rfl, rfl⟩
  | append_singleton u c ih =>
    have hbefore : (scan u).state ≠ .body := fun hbody => h (scan_body hbody).1
    rw [scan_concat hbefore] at h ⊢
    rw [linesOf_concat]
    rcases ih hbefore with ⟨hnone, hstate, hhas⟩ | ⟨l, hsome, hinv⟩
    · rw [hnone, nextByte]
      by_cases hc : isBlank c = true ∨ c = 10 ∨ c = 13
      · have hsame : headerStep (scan u) u.length c = scan u := by
          simp only [headerStep, hstate, if_pos hc]
        rw [if_pos hc, hsame]
        exact Or.inl ⟨rfl, hstate, hhas⟩
      · rw [if_neg hc]
        exact Or.inr ⟨_, rfl, (LineInv.first hstate hhas hc).setParsed _⟩
    · rw [hsome, nextByte]
      by_cases hc : c = 10
      · subst hc
        have hends : ¬EndsHeaders l.last := by
          rw [← hinv.ends]
          exact fun hends => h (headerStep_empty hends)
        rw [if_pos rfl]
        exact Or.inr ⟨_, rfl, (hinv.lineFeed hends).setParsed _⟩
      · rw [if_neg hc]
        exact Or.inr ⟨_, rfl, (hinv.next hc).setParsed _⟩

/-- The scan is in the body behind an empty line only. -/
theorem scan_ended (h : (scan u).state = .body) :
    ∃ l, linesOf u = some l ∧ ∃ w ∈ l.ended, EndsHeaders w := by
  induction u using List.reverseRecOn with
  | nil => cases h
  | append_singleton u c ih =>
    rw [linesOf_concat]
    by_cases hbefore : (scan u).state = .body
    · obtain ⟨l, hsome, w, hw, hends⟩ := ih hbefore
      rw [hsome, nextByte]
      by_cases hc : c = 10
      · rw [if_pos hc]
        exact ⟨_, rfl, w, mem_append_left _ hw, hends⟩
      · rw [if_neg hc]
        exact ⟨_, rfl, w, hw, hends⟩
    · rw [scan_concat hbefore] at h
      dsimp only at h
      rcases scan_lines hbefore with ⟨-, hstate, hhas⟩ | ⟨l, hsome, hinv⟩
      · exfalso
        by_cases hc : isBlank c = true ∨ c = 10 ∨ c = 13
        · simp [headerStep, hstate, hc] at h
        · exact (LineInv.first hstate hhas hc).state_ne.2 h
      · rw [hsome, nextByte]
        by_cases hc : c = 10
        · subst hc
          rw [if_pos rfl]
          refine ⟨_, rfl, l.last, by simp, ?_⟩
          by_contra hends
          exact (hinv.lineFeed hends).state_ne.2 h
        · exact absurd h (hinv.next hc).state_ne.2

/-! ## The source of the length -/

/-- Every store into `content_len` and `has_content_len` is made on a header
line of its own with the name of the header, the second one at the end of its
digits; and the length in force is the value of such a line. -/
structure LengthFromHeader (a : Bytes) : Prop where
  stored : ∀ u c v, a = u ++ c :: v → (scan u).state ≠ .body →
    storesLength (scan u) c ∨ storesFound (scan u) c →
    ∃ l name digits, linesOf u = some l ∧ LengthLine l.last [] name digits ∧
      ProperName name ∧ (storesFound (scan u) c →
        digits ≠ [] ∧ (scan u).contentLen = decimal digits)
  inForce : ∀ u v, a = u ++ v → (scan u).hasContentLen = true →
    ∃ u₀ c v₀ l name digits, u = u₀ ++ c :: v₀ ∧ linesOf u₀ = some l ∧
      LengthLine l.last [] name digits ∧ ProperName name ∧ digits ≠ [] ∧
      (scan u).contentLen = decimal digits

/-- Up to the first line that gives a length, a line that reads as one is not
indented, has the name in a proper spelling, and its number fits an `int`. -/
def NoFalseLength (a : Bytes) : Prop :=
  ∀ u v l, a = u ++ v → linesOf u = some l → (∀ w ∈ l.ended, ¬EndsHeaders w ∧ ¬GivesLength w) →
    ∀ indent name digits, LengthLine l.last indent name digits →
      digits ≠ [] → indent = [] ∧ ProperName name ∧
        ∀ c ∈ v.head?, isBlank c = true ∨ c = 13 ∨ c = 10 → decimal digits < 2 ^ 31

theorem LengthLine.concat (h : LengthLine w indent name digits) (hc : isDigit c = true) :
    LengthLine (w ++ [c]) indent name (digits ++ [c]) := by
  obtain ⟨gap, gap', rfl, hindent, hname, hgap, hgap', hdigits⟩ := h
  exact ⟨gap, gap', by simp, hindent, hname, hgap, hgap', digits_concat.mpr ⟨hdigits, hc⟩⟩

theorem LengthLine.not_passed (hw : 10 ∉ w) (h : LengthLine w indent name digits) : ¬Passed w := by
  rintro ⟨w₁, c, w₂, rfl, hend, hnumber⟩
  simp only [mem_append, mem_cons, not_or] at hw
  obtain ⟨hw₁, hc, hw₂⟩ := hw
  have hparse := (number_iff hw₁).mp hnumber
  have hskip : turn .contLenBodyParse c = .skip := by
    have hdigit := not_isDigit_of_end (c := c) (by tauto)
    simp [turn, headerStep, hdigit, hend]
  have hrest : w₂.foldl turn .skip = .skip := by
    apply foldl_turn_eq
    intro d hd
    have hne : d ≠ 10 := fun hEq => hw₂ (hEq ▸ hd)
    simp [turn, headerStep, hne]
  have hstate := h.lineState
  rw [Tcp.lineState] at hparse hstate
  rw [foldl_append, foldl_cons, hparse, hskip, hrest] at hstate
  split_ifs at hstate

theorem LineInv.at_digits (h : LineInv l r) (hended : ∀ w ∈ l.ended, ¬GivesLength w)
    (hline : LengthLine l.last indent name digits) :
    r.state = if digits = [] then .contLenBody else .contLenBodyParse := by
  have hhas : r.hasContentLen = false := by
    by_contra hhas
    rw [Bool.not_eq_false, h.gives] at hhas
    rcases hhas with ⟨w, hw, hgives⟩ | hpassed
    · exact hended w hw hgives
    · exact hline.not_passed h.noLf hpassed
  rw [h.seeking hhas, hline.lineState]

/-- The digits in front of a store, and the lines before them. -/
theorem LineInv.of_store (h : LineInv l r)
    (hstate : r.state = .contLenBody ∨ r.state = .contLenBodyParse) :
    (∀ w ∈ l.ended, ¬EndsHeaders w ∧ ¬GivesLength w) ∧
      ∃ indent name digits, LengthLine l.last indent name digits ∧
        (r.state = .contLenBodyParse → digits ≠ []) := by
  have hhas := h.hasContentLen_of_state hstate
  have hnone := h.gives.not.mp (by simp [hhas])
  rw [not_or] at hnone
  refine ⟨fun w hw => ⟨h.ended w hw, fun hgives => hnone.1 ⟨w, hw, hgives⟩⟩, ?_⟩
  have hreads := reads_lineState h.noLf
  rw [← h.seeking hhas] at hreads
  rcases hstate with hstate | hstate
  · rw [hstate] at hreads
    obtain ⟨indent, name, hline⟩ := hreads
    exact ⟨indent, name, [], hline, by simp [hstate]⟩
  · rw [hstate] at hreads
    obtain ⟨indent, name, digits, hline, hne⟩ := hreads
    exact ⟨indent, name, digits, hline, fun _ => hne⟩

theorem state_of_stores (h : storesLength r c ∨ storesFound r c) :
    r.state = .contLenBody ∨ r.state = .contLenBodyParse := by
  rcases h with h | h
  · exact h.1
  · exact Or.inr h.1

/-- The length in force was stored when it was found. -/
theorem stored_of_hasContentLen (h : (scan u).hasContentLen = true) :
    ∃ u₀ c v₀, u = u₀ ++ c :: v₀ ∧ (scan u₀).state ≠ .body ∧ storesFound (scan u₀) c ∧
      (scan u).contentLen = (scan u₀).contentLen := by
  induction u using List.reverseRecOn with
  | nil => cases h
  | append_singleton u c ih =>
    have hlonger : (scan u).hasContentLen = true →
        (scan (u ++ [c])).contentLen = (scan u).contentLen →
        ∃ u₀ c₀ v₀, u ++ [c] = u₀ ++ c₀ :: v₀ ∧ (scan u₀).state ≠ .body ∧ storesFound (scan u₀) c₀ ∧
          (scan (u ++ [c])).contentLen = (scan u₀).contentLen := by
      intro hhas hsame
      obtain ⟨u₀, c₀, v₀, hu, hstate, hfound, hlen⟩ := ih hhas
      exact ⟨u₀, c₀, v₀ ++ [c], by simp [hu], hstate, hfound, hsame.trans hlen⟩
    by_cases hbody : (scan u).state = .body
    · obtain ⟨-, hlen, hhas⟩ := @scan_body u c hbody
      exact hlonger (hhas ▸ h) hlen
    · rw [scan_concat hbody] at h
      have hlen : ¬storesLength (scan u) c →
          (scan (u ++ [c])).contentLen = (scan u).contentLen := by
        intro hstores
        rw [scan_concat hbody]
        exact headerStep_contentLen hstores
      rcases headerStep_hasContentLen.mp h with hhas | hfound
      · refine hlonger hhas (hlen ?_)
        rintro ⟨hstate, -⟩
        rcases scan_lines hbody with ⟨-, hempty, -⟩ | ⟨l, -, hinv⟩
        · simp [hempty] at hstate
        · simp [hinv.hasContentLen_of_state hstate] at hhas
      · refine ⟨u, c, [], rfl, hbody, hfound, hlen ?_⟩
        rintro ⟨-, hdigit⟩
        simp [not_isDigit_of_end hfound.2] at hdigit

theorem toInt_natCast_iff (n : ℕ) : toInt n = n ↔ n < 2 ^ 31 := by
  constructor
  · intro h
    have hlt : (n : ℤ).bmod (2 ^ 32) < ((2 ^ 32 : ℕ) + 1) / 2 :=
      Int.bmod_lt (by decide)
    rw [toInt] at h
    omega
  · intro h
    exact Int.bmod_eq_of_le (by omega) (by omega)

/-- The line that reads as a length, one digit before. -/
theorem linesOf_digits (hlines : linesOf u = some l)
    (hline : LengthLine l.last indent name digits) (hne : digits ≠ []) :
    ∃ u₀ c w₀ digits₀, u = u₀ ++ [c] ∧ isDigit c = true ∧
      linesOf u₀ = some ⟨l.ended, w₀⟩ ∧ LengthLine w₀ indent name digits₀ := by
  obtain ⟨gap, gap', hlast, hindent, hname, hgap, hgap', hdigits⟩ := hline
  obtain ⟨digits₀, c, rfl⟩ : ∃ ds c, digits = ds ++ [c] :=
    ⟨digits.dropLast, digits.getLast hne, (dropLast_append_getLast hne).symm⟩
  rw [digits_concat] at hdigits
  set w₀ := indent ++ (name ++ (gap ++ 58 :: (gap' ++ digits₀))) with hw₀
  have hlast' : l.last = w₀ ++ [c] := by
    rw [hlast, hw₀]
    simp
  have hnil : w₀ ≠ [] := by
    simp [hw₀]
  have hc : c ≠ 10 := by
    rintro rfl
    simp [isDigit] at hdigits
  rcases eq_nil_or_concat u with rfl | ⟨u₀, d, rfl⟩
  · cases hlines
  rw [concat_eq_append] at hlines ⊢
  rw [linesOf_concat] at hlines
  cases hbefore : linesOf u₀ with
  | none =>
    rw [hbefore, nextByte] at hlines
    split_ifs at hlines
    obtain rfl := some.inj hlines
    obtain ⟨hempty, -⟩ := append_inj' (hlast'.symm.trans (nil_append [d]).symm) rfl
    exact absurd hempty hnil
  | some l₀ =>
    rw [hbefore, nextByte] at hlines
    split_ifs at hlines with hd
    · obtain rfl := some.inj hlines
      simp at hlast'
    · obtain rfl := some.inj hlines
      obtain ⟨hw, hcd⟩ := append_inj' hlast' rfl
      obtain rfl : d = c := by simpa using hcd
      refine ⟨u₀, d, w₀, digits₀, rfl, hdigits.2, ?_, gap, gap', rfl, hindent,
        hname, hgap, hgap', hdigits.1⟩
      rw [hbefore, ← hw]

/-- The length is taken from a header line of its own exactly when no line in
front of the first length reads as one without being one. -/
theorem length_from_header_iff (a : Bytes) : LengthFromHeader a ↔ NoFalseLength a := by
  constructor
  · intro h u v l ha hlines hended indent name digits hline hne
    have hbody : ∀ {u : Bytes} {w : Bytes}, linesOf u = some ⟨l.ended, w⟩ →
        (scan u).state ≠ .body := by
      intro u w hlines hbody
      obtain ⟨l', hl', x, hx, hends⟩ := scan_ended hbody
      rw [hlines] at hl'
      obtain rfl := some.inj hl'
      exact (hended x hx).1 hends
    have hstate : ∀ {u : Bytes} {w digits : Bytes},
        linesOf u = some ⟨l.ended, w⟩ → LengthLine w indent name digits →
        LineInv ⟨l.ended, w⟩ (scan u) ∧ (scan u).state =
          if digits = [] then .contLenBody else .contLenBodyParse := by
      intro u w digits hlines hline
      rcases scan_lines (hbody hlines) with ⟨hnone, -⟩ | ⟨l', hsome, hinv⟩
      · rw [hlines] at hnone
        cases hnone
      · rw [hlines] at hsome
        obtain rfl := some.inj hsome
        exact ⟨hinv, hinv.at_digits (fun w hw => (hended w hw).2) hline⟩
    -- the store of the last digit names the line
    obtain ⟨u₀, c, w₀, digits₀, rfl, hdigit, hlines₀, hline₀⟩ :=
      linesOf_digits hlines hline hne
    obtain ⟨-, hstate₀⟩ := hstate hlines₀ hline₀
    have hstores : storesLength (scan u₀) c := by
      refine ⟨?_, hdigit⟩
      rw [hstate₀]
      split_ifs
      · exact Or.inl rfl
      · exact Or.inr rfl
    obtain ⟨l', name', digits', hlines', hline', hname', -⟩ :=
      h.stored u₀ c v (by rw [ha]; simp) (hbody hlines₀) (Or.inl hstores)
    rw [hlines₀] at hlines'
    obtain rfl := some.inj hlines'
    obtain ⟨hindent, hname, -⟩ := hline₀.parts
    obtain ⟨hindent', hname'', -⟩ := hline'.parts
    refine ⟨hindent.trans hindent'.symm, ?_, ?_⟩
    · rw [hname, ← hname'']
      exact hname'
    · -- the store at the end of the digits has their value
      intro d hd hend
      obtain ⟨v', rfl⟩ : ∃ v', v = d :: v' := by
        cases v with
        | nil => simp at hd
        | cons e v' =>
          obtain rfl : e = d := by simpa using hd
          exact ⟨v', rfl⟩
      obtain ⟨hinv, hparse⟩ := hstate hlines hline
      rw [if_neg hne] at hparse
      obtain ⟨l'', name'', digits'', hlines'', hline'', -, hvalue⟩ :=
        h.stored (u₀ ++ [c]) d v' ha (hbody hlines) (Or.inr ⟨hparse, hend⟩)
      rw [hlines] at hlines''
      obtain rfl := some.inj hlines''
      obtain ⟨-, hvalue⟩ := hvalue ⟨hparse, hend⟩
      have hsame : digits'' = digits :=
        hline''.parts.2.2.trans hline.parts.2.2.symm
      rw [hinv.number hparse, ← hline.parts.2.2, hsame] at hvalue
      exact (toInt_natCast_iff _).mp hvalue
  · intro h
    have hstored : ∀ u c v, a = u ++ c :: v → (scan u).state ≠ .body →
        storesLength (scan u) c ∨ storesFound (scan u) c →
        ∃ l name digits, linesOf u = some l ∧ LengthLine l.last [] name digits ∧ ProperName name ∧
            (storesFound (scan u) c → digits ≠ [] ∧ (scan u).contentLen = decimal digits) := by
      intro u c v ha hbody hstores
      have hat := state_of_stores hstores
      rcases scan_lines hbody with ⟨-, hempty, -⟩ | ⟨l, hlines, hinv⟩
      · simp [hempty] at hat
      obtain ⟨hended, indent, name, digits, hline, hparse⟩ := hinv.of_store hat
      by_cases hdigit : isDigit c = true
      · have hc : c ≠ 10 := by
          rintro rfl
          simp [isDigit] at hdigit
        have hnext : linesOf (u ++ [c]) = some ⟨l.ended, l.last ++ [c]⟩ := by
          rw [linesOf_concat, hlines, nextByte, if_neg hc]
        obtain ⟨rfl, hname, -⟩ := h (u ++ [c]) v _ (by rw [ha]; simp) hnext
          hended indent name (digits ++ [c]) (hline.concat hdigit) (by simp)
        refine ⟨l, name, digits, hlines, hline, hname, ?_⟩
        rintro ⟨-, hend⟩
        simp [not_isDigit_of_end hend] at hdigit
      · have hfound : storesFound (scan u) c := by
          rcases hstores with hstores | hstores
          · exact absurd hstores.2 hdigit
          · exact hstores
        have hne := hparse hfound.1
        obtain ⟨rfl, hname, hfits⟩ :=
          h u (c :: v) l ha hlines hended indent name digits hline hne
        refine ⟨l, name, digits, hlines, hline, hname, fun _ => ⟨hne, ?_⟩⟩
        rw [hinv.number hfound.1, ← hline.parts.2.2]
        exact (toInt_natCast_iff _).mpr (hfits c rfl hfound.2)
    refine ⟨hstored, ?_⟩
    intro u v ha hhas
    obtain ⟨u₀, c, v₀, hu, hstate, hfound, hlen⟩ := stored_of_hasContentLen hhas
    obtain ⟨l, name, digits, hlines, hline, hname, hvalue⟩ :=
      hstored u₀ c (v₀ ++ v) (by rw [ha, hu]; simp) hstate (Or.inr hfound)
    obtain ⟨hne, hvalue⟩ := hvalue hfound
    exact ⟨u₀, c, v₀, l, name, digits, hu, hlines, hline, hname, hne, hlen.trans hvalue⟩

/-- The second line of a folded Subject is taken for the length. -/
theorem folded_subject_is_length :
    let a := ascii "OPTIONS sip:a SIP/2.0\nSubject: x\n l: 7\n\n"
    (scan a).hasContentLen = true ∧ (scan a).contentLen = 7 ∧
      (scan a).bytesToGo = 7 ∧ ¬LengthFromHeader a := by
  refine ⟨by decide, by decide, by decide, ?_⟩
  intro h
  have hstores : storesLength (scan (ascii "OPTIONS sip:a SIP/2.0\nSubject: x\n l: ")) 55 := by
    unfold storesLength
    decide
  obtain ⟨l, name, digits, hlines, hline, -, -⟩ :=
    h.stored (ascii "OPTIONS sip:a SIP/2.0\nSubject: x\n l: ") 55
      (ascii "\n\n") (by decide) (by decide) (Or.inl hstores)
  have hlast : l.last = ascii " l: " := by
    have hread : (linesOf (ascii "OPTIONS sip:a SIP/2.0\nSubject: x\n l: ")).map (·.last) =
          some (ascii " l: ") := by decide
    rw [hlines] at hread
    exact some.inj hread
  have hindent := hline.parts.1
  rw [hlast] at hindent
  have hblank : (ascii " l: ").takeWhile isBlank = [32] := by decide
  rw [hblank] at hindent
  cases hindent

end Msicp.Tcp
