import Msicp.Avp.UsrAvp
import Msicp.Tcp.ContentLength
import Mathlib.Data.List.DropRight

/-!
# What the scan takes for a Content-Length line

As long as no length was found, the state of `tcp_read_headers` depends only on
the bytes of the line it is on.  The two states that store into `content_len`
are those in which the line reads: white space, the name, white space, a colon,
white space, digits.
-/

namespace Msicp.Tcp

open Msicp.Support List

/-! ## The shape of a line -/

/-- A name, character by character in one of two spellings. -/
def Spells (chars : List (UInt8 × UInt8)) (name : Bytes) : Prop :=
  List.Forall₂ (fun p c => c = p.1 ∨ c = p.2) chars name

/-- The characters of the long name, with the two that the scan goes on at. -/
def longName : List (UInt8 × UInt8) := (67, 99) :: contLenChars

/-- The short name. -/
def shortName : List (UInt8 × UInt8) := [(76, 108)]

/-- A name the scan goes on at. -/
def IsLengthName (name : Bytes) : Prop :=
  Spells longName name ∨ Spells shortName name

/-- White space within a line. -/
def Blanks (s : Bytes) : Prop := ∀ c ∈ s, isBlank c = true

/-- Digits. -/
def Digits (s : Bytes) : Prop := ∀ c ∈ s, isDigit c = true

/-- A line that reads, up to here, as a length: `indent` stands in front of
the name and `digits` behind the colon. -/
def LengthLine (w indent name digits : Bytes) : Prop :=
  ∃ gap gap', w = indent ++ (name ++ (gap ++ 58 :: (gap' ++ digits))) ∧
    Blanks indent ∧ IsLengthName name ∧ Blanks gap ∧ Blanks gap' ∧
    Digits digits

/-- The name of the header in one of its two forms, whatever its case. -/
def ProperName (name : Bytes) : Prop :=
  name.map Avp.tolower = ascii "content-length" ∨ name.map Avp.tolower = ascii "l"

/-! ## The parts of a line -/

variable {s name w indent : Bytes} {c : UInt8} {state : ReqState}

theorem blanks_concat : Blanks (s ++ [c]) ↔ Blanks s ∧ isBlank c = true := by
  simp [Blanks, or_imp, forall_and]

theorem digits_concat : Digits (s ++ [c]) ↔ Digits s ∧ isDigit c = true := by
  simp [Digits, or_imp, forall_and]

theorem not_isDigit_of_isBlank (h : isBlank c = true) : isDigit c = false := by
  simp only [isBlank, Bool.or_eq_true, beq_iff_eq] at h
  rcases h with rfl | rfl <;> rfl

/-- A character of a name is neither white space nor a colon. -/
def isNameChar (c : UInt8) : Bool := !isBlank c && c != 58

theorem Spells.nameChars {chars : List (UInt8 × UInt8)} (h : Spells chars name)
    (hchars : ∀ p ∈ chars, isNameChar p.1 = true ∧ isNameChar p.2 = true) :
    ∀ c ∈ name, isNameChar c = true := by
  induction h with
  | nil => simp
  | @cons p c chars name hc _ ih =>
    intro d hd
    obtain ⟨hfst, hsnd⟩ := hchars p mem_cons_self
    rcases mem_cons.mp hd with rfl | hd
    · rcases hc with rfl | rfl
      · exact hfst
      · exact hsnd
    · exact ih (fun q hq => hchars q (mem_cons_of_mem _ hq)) d hd

theorem IsLengthName.nameChars (h : IsLengthName name) : ∀ c ∈ name, isNameChar c = true := by
  have hlong : (longName.all fun p => isNameChar p.1 && isNameChar p.2) = true :=
    by decide
  have hshort : (shortName.all fun p => isNameChar p.1 && isNameChar p.2) = true :=
    by decide
  rcases h with h | h
  · exact h.nameChars fun p hp => by
      simpa using List.all_eq_true.mp hlong p hp
  · exact h.nameChars fun p hp => by
      simpa using List.all_eq_true.mp hshort p hp

theorem IsLengthName.ne_nil (h : IsLengthName name) : name ≠ [] := by
  rintro rfl
  rcases h with h | h
  · cases h
  · cases h

/-- The parts of a line that reads as a length are determined by it. -/
theorem LengthLine.parts {digits : Bytes} (h : LengthLine w indent name digits) :
    indent = w.takeWhile isBlank ∧ name = (w.dropWhile isBlank).takeWhile isNameChar ∧
      digits = w.rtakeWhile isDigit := by
  obtain ⟨gap, gap', rfl, hindent, hname, hgap, hgap', hdigits⟩ := h
  have hchars := hname.nameChars
  obtain ⟨c, name', rfl⟩ := exists_cons_of_ne_nil hname.ne_nil
  have hc : isBlank c = false := by
    have hchar := hchars c mem_cons_self
    simp only [isNameChar, Bool.and_eq_true, Bool.not_eq_true'] at hchar
    exact hchar.1
  refine ⟨?_, ?_, ?_⟩
  · exact (takeWhile_token hindent hc).symm
  · have hstop : ∃ d rest, gap ++ 58 :: (gap' ++ digits) = d :: rest ∧ isNameChar d = false := by
      cases gap with
      | nil => exact ⟨58, gap' ++ digits, rfl, by decide⟩
      | cons b gap =>
        refine ⟨b, gap ++ 58 :: (gap' ++ digits), rfl, ?_⟩
        simp [isNameChar, hgap b mem_cons_self]
    obtain ⟨d, rest, hrest, hd⟩ := hstop
    rw [dropWhile_append_of_pos hindent, cons_append,
      dropWhile_cons_of_neg (by simp [hc]), ← cons_append, hrest,
      takeWhile_token hchars hd]
  · rw [List.rtakeWhile]
    simp only [reverse_append, reverse_cons, append_assoc]
    rw [takeWhile_append_of_pos (by simpa [Digits] using hdigits)]
    have hstop : (gap'.reverse ++ ([58] ++ (gap.reverse ++
        (name'.reverse ++ ([c] ++ indent.reverse))))).takeWhile isDigit = [] := by
      cases hrev : gap'.reverse with
      | nil => rfl
      | cons b rest =>
        have hb : isDigit b = false := by
          refine not_isDigit_of_isBlank (hgap' b ?_)
          rw [← mem_reverse, hrev]
          exact mem_cons_self
        rw [cons_append, takeWhile_cons_of_neg (by simp [hb])]
    rw [hstop, append_nil, reverse_reverse]

/-! ## The states of the scan on a line -/

/-- The next state while no length was found. -/
def turn (state : ReqState) (c : UInt8) : ReqState :=
  (headerStep { Scan.init with state := state } 0 c).state

/-- The state behind these bytes of a line. -/
def lineState (w : Bytes) : ReqState := w.foldl turn .lf

theorem lineState_concat : lineState (w ++ [c]) = turn (lineState w) c := by
  rw [lineState, foldl_append]
  rfl

theorem foldl_turn_eq (h : ∀ c ∈ s, turn state c = state) : s.foldl turn state = state := by
  induction s with
  | nil => rfl
  | cons c s ih =>
    rw [foldl_cons, h c mem_cons_self]
    exact ih fun d hd => h d (mem_cons_of_mem c hd)

/-! ### From the text to the state -/

theorem turn_blank (hc : isBlank c = true) : turn .lf c = .startWs ∧ turn .startWs c = .startWs ∧
      turn .lColon c = .lColon ∧ turn .contLenBody c = .contLenBody := by
  simp only [isBlank, Bool.or_eq_true, beq_iff_eq] at hc
  rcases hc with rfl | rfl <;> decide

theorem turn_digit (hc : isDigit c = true) : turn .contLenBody c = .contLenBodyParse ∧
      turn .contLenBodyParse c = .contLenBodyParse := by
  have hblank : isBlank c = false := by
    by_contra hblank
    rw [Bool.not_eq_false] at hblank
    simp [not_isDigit_of_isBlank hblank] at hc
  simp [turn, headerStep, hc, hblank]

theorem turn_contLen {k : Fin 13} (hc : c = contLenChars[k].1 ∨ c = contLenChars[k].2) :
    turn (.contLen k) c = contLenNext k := by
  simp only [turn, headerStep, if_pos hc]

theorem lineState_blanks (h : Blanks indent) :
    lineState indent = .lf ∨ lineState indent = .startWs := by
  cases indent with
  | nil => exact Or.inl rfl
  | cons c indent =>
    refine Or.inr ?_
    rw [lineState, foldl_cons, (turn_blank (h c mem_cons_self)).1]
    exact foldl_turn_eq fun d hd =>
      (turn_blank (h d (mem_cons_of_mem c hd))).2.1

theorem foldl_turn_contLen {k : Fin 13} {name : Bytes} (h : Spells (contLenChars.drop k) name) :
    name.foldl turn (.contLen k) = .lColon := by
  induction name generalizing k with
  | nil =>
    rw [drop_contLenChars] at h
    cases h
  | cons c name ih =>
    rw [drop_contLenChars] at h
    obtain ⟨hc, hname⟩ := forall₂_cons.mp h
    rw [foldl_cons, turn_contLen hc, contLenNext]
    by_cases hk : k.val + 1 < 13
    · rw [dif_pos hk]
      exact @ih ⟨k.val + 1, hk⟩ hname
    · rw [dif_neg hk]
      have hend : contLenChars.drop (k.val + 1) = [] :=
        drop_of_length_le (Nat.not_lt.mp hk)
      rw [hend] at hname
      cases hname
      rfl

theorem foldl_turn_name (hstate : state = .lf ∨ state = .startWs) (h : IsLengthName name) :
    name.foldl turn state = .lColon := by
  rcases h with h | h
  · obtain ⟨c, name, hc, hname, rfl⟩ := forall₂_cons_left_iff.mp h
    have hfirst : turn state c = .contLen 0 := by
      rcases hstate with rfl | rfl <;> rcases hc with rfl | rfl <;> decide
    rw [foldl_cons, hfirst]
    exact @foldl_turn_contLen 0 name hname
  · obtain ⟨c, name, hc, hname, rfl⟩ := forall₂_cons_left_iff.mp h
    cases hname
    rcases hstate with rfl | rfl <;> rcases hc with rfl | rfl <;> decide

theorem LengthLine.lineState {digits : Bytes} (h : LengthLine w indent name digits) : lineState w =
      if digits = [] then .contLenBody else .contLenBodyParse := by
  obtain ⟨gap, gap', rfl, hindent, hname, hgap, hgap', hdigits⟩ := h
  have hcolon : turn .lColon 58 = .contLenBody := by decide
  have hstart := foldl_turn_name (lineState_blanks hindent) hname
  rw [Tcp.lineState] at hstart ⊢
  rw [foldl_append, foldl_append, hstart, foldl_append,
    foldl_turn_eq (fun c hc => (turn_blank (hgap c hc)).2.2.1),
    foldl_cons, hcolon, foldl_append,
    foldl_turn_eq (fun c hc => (turn_blank (hgap' c hc)).2.2.2)]
  cases digits with
  | nil => rfl
  | cons c digits =>
    rw [if_neg (cons_ne_nil c digits), foldl_cons, (turn_digit (hdigits c mem_cons_self)).1]
    exact foldl_turn_eq fun d hd =>
      (turn_digit (hdigits d (mem_cons_of_mem c hd))).2

/-! ### From the state to the text -/

/-- What a line reads when the scan is in this state. -/
def Reads : ReqState → Bytes → Prop
  | .lf, w => w = []
  | .lfcr, w => w = [13]
  | .startWs, w => Blanks w
  | .contLen k, w => ∃ indent name, w = indent ++ name ∧ Blanks indent ∧
      Spells (longName.take (k + 1)) name
  | .lColon, w => ∃ indent name gap, w = indent ++ (name ++ gap) ∧
      Blanks indent ∧ IsLengthName name ∧ Blanks gap
  | .contLenBody, w => ∃ indent name, LengthLine w indent name []
  | .contLenBodyParse, w => ∃ indent name digits, LengthLine w indent name digits ∧ digits ≠ []
  | .skipEmpty, _ => False
  | .body, _ => False
  | .skip, _ => True

theorem reads_contentLenBeg (h : Blanks w) :
    Reads ((contentLenBeg Scan.init c).getD .skip) (w ++ [c]) := by
  by_cases hblank : isBlank c = true
  · simpa [contentLenBeg, hblank, Scan.init, Reads] using blanks_concat.mpr ⟨h, hblank⟩
  · by_cases hlong : c = 67 ∨ c = 99
    · simp only [contentLenBeg, if_neg hblank, if_pos hlong, Scan.init,
        Bool.false_eq_true, if_false, Option.getD_some]
      exact ⟨w, [c], rfl, h, List.Forall₂.cons hlong List.Forall₂.nil⟩
    · by_cases hshort : c = 76 ∨ c = 108
      · simp only [contentLenBeg, if_neg hblank, if_neg hlong, if_pos hshort,
          Scan.init, Bool.false_eq_true, if_false, Option.getD_some]
        exact ⟨w, [c], [], rfl, h,
          Or.inr (List.Forall₂.cons hshort List.Forall₂.nil), by simp [Blanks]⟩
      · simp only [contentLenBeg, if_neg hblank, if_neg hlong, if_neg hshort, Option.getD_none]
        trivial

theorem longName_take_succ (k : Fin 13) : longName.take (k.val + 2) =
      longName.take (k.val + 1) ++ [contLenChars[k]] := by
  revert k
  decide

theorem reads_contLenNext {k : Fin 13} (h : Reads (.contLen k) w)
    (hc : c = contLenChars[k].1 ∨ c = contLenChars[k].2) :
    Reads (contLenNext k) (w ++ [c]) := by
  obtain ⟨indent, name, rfl, hindent, hname⟩ := h
  have hlonger : Spells (longName.take (k.val + 2)) (name ++ [c]) := by
    rw [longName_take_succ]
    exact rel_append hname (List.Forall₂.cons hc List.Forall₂.nil)
  rw [contLenNext]
  by_cases hk : k.val + 1 < 13
  · rw [dif_pos hk]
    exact ⟨indent, name ++ [c], append_assoc _ _ _, hindent, hlonger⟩
  · rw [dif_neg hk]
    have hfull : longName.take (k.val + 2) = longName :=
      take_of_length_le (by
        have hlen : longName.length = 14 := rfl
        omega)
    rw [hfull] at hlonger
    exact ⟨indent, name ++ [c], [], by simp, hindent, Or.inl hlonger, by simp [Blanks]⟩

theorem reads_skip (hc : c ≠ 10) : Reads (crlfDefaultSkip c) w := by
  rw [crlfDefaultSkip, if_neg hc]
  trivial

theorem reads_turn (h : Reads state w) (hc : c ≠ 10) : Reads (turn state c) (w ++ [c]) := by
  cases state with
  | skipEmpty => cases h
  | skip =>
    simp only [turn, headerStep, if_neg hc]
    trivial
  | body => cases h
  | lf =>
    obtain rfl : w = [] := h
    by_cases hreturn : c = 13
    · simp only [turn, headerStep, if_pos hreturn]
      rw [hreturn]
      rfl
    · simp only [turn, headerStep, if_neg hreturn, if_neg hc]
      exact reads_contentLenBeg (w := []) (by simp [Blanks])
  | lfcr =>
    simp only [turn, headerStep, if_neg hc]
    trivial
  | startWs =>
    have hskip : crlfDefaultSkip c = .skip := if_neg hc
    simp only [turn, headerStep, hskip]
    exact reads_contentLenBeg h
  | contLen k =>
    by_cases hchar : c = contLenChars[k].1 ∨ c = contLenChars[k].2
    · rw [turn_contLen hchar]
      exact reads_contLenNext h hchar
    · simp only [turn, headerStep, if_neg hchar]
      exact reads_skip hc
  | lColon =>
    obtain ⟨indent, name, gap, rfl, hindent, hname, hgap⟩ := h
    by_cases hblank : isBlank c = true
    · rw [(turn_blank hblank).2.2.1]
      exact ⟨indent, name, gap ++ [c], by simp, hindent, hname, blanks_concat.mpr ⟨hgap, hblank⟩⟩
    · by_cases hcolon : c = 58
      · have hbody : turn .lColon 58 = .contLenBody := by decide
        rw [hcolon, hbody]
        exact ⟨indent, name, gap, [], by simp, hindent, hname, hgap,
          by simp [Blanks], by simp [Digits]⟩
      · simp only [turn, headerStep, if_neg hblank, if_neg hcolon]
        exact reads_skip hc
  | contLenBody =>
    obtain ⟨indent, name, gap, gap', rfl, hindent, hname, hgap, hgap', -⟩ := h
    by_cases hblank : isBlank c = true
    · rw [(turn_blank hblank).2.2.2]
      exact ⟨indent, name, gap, gap' ++ [c], by simp, hindent, hname, hgap,
        blanks_concat.mpr ⟨hgap', hblank⟩, by simp [Digits]⟩
    · by_cases hdigit : isDigit c = true
      · rw [(turn_digit hdigit).1]
        exact ⟨indent, name, [c], ⟨gap, gap', by simp, hindent, hname, hgap,
          hgap', by simpa [Digits] using hdigit⟩, by simp⟩
      · simp only [turn, headerStep, if_neg hblank, if_neg hdigit]
        exact reads_skip hc
  | contLenBodyParse =>
    obtain ⟨indent, name, digits, ⟨gap, gap', rfl, hindent, hname, hgap, hgap', hdigits⟩, hne⟩ := h
    by_cases hdigit : isDigit c = true
    · rw [(turn_digit hdigit).2]
      exact ⟨indent, name, digits ++ [c], ⟨gap, gap', by simp, hindent, hname,
        hgap, hgap', digits_concat.mpr ⟨hdigits, hdigit⟩⟩, by simp⟩
    · have hskip : turn .contLenBodyParse c = .skip := by
        simp only [turn, headerStep, if_neg hdigit, if_neg hc]
        split <;> rfl
      rw [hskip]
      trivial

theorem reads_lineState (hw : 10 ∉ w) : Reads (lineState w) w := by
  induction w using List.reverseRecOn with
  | nil => rfl
  | append_singleton w c ih =>
    simp only [mem_append, mem_singleton, not_or] at hw
    rw [lineState_concat]
    exact reads_turn (ih hw.1) (Ne.symm hw.2)

end Msicp.Tcp
