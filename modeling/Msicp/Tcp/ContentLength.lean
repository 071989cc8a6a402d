import Msicp.Tcp.ReadHeaders

/-!
# The Content-Length line

A line of the headers gives the length of the body if it consists of blanks,
the name, blanks, a colon, blanks, and digits that end the line or stand in
front of a blank or a carriage return.  `contentLengthOf` reads a line this way;
the scan finds the same digits.
-/

namespace Msicp.Tcp

open Msicp.Support List

/-! ## Reading a line -/

/-- The digits, of which some are already read, and what ends them. -/
def afterDigits (ds : Bytes) : Bytes → Option Bytes
  | [] => some ds
  | c :: v =>
    if isDigit c then afterDigits (ds ++ [c]) v
    else if isBlank c ∨ c = 13 then some ds
    else none

/-- The rest of the line behind the colon. -/
def afterColon : Bytes → Option Bytes
  | [] => none
  | c :: v =>
    if isBlank c then afterColon v
    else if isDigit c then afterDigits [c] v
    else none

/-- The rest of the line behind the name. -/
def afterName : Bytes → Option Bytes
  | [] => none
  | c :: v =>
    if isBlank c then afterName v
    else if c = 58 then afterColon v
    else none

/-- The rest of the line when some characters of the name are missing. -/
def inName : List (UInt8 × UInt8) → Bytes → Option Bytes
  | [], v => afterName v
  | _ :: _, [] => none
  | (upper, lower) :: name, c :: v =>
    if c = upper ∨ c = lower then inName name v else none

/-- The digits of a Content-Length line, in its long or its short form. -/
def contentLengthOf : Bytes → Option Bytes
  | [] => none
  | c :: v =>
    if isBlank c then contentLengthOf v
    else if c = 67 ∨ c = 99 then inName contLenChars v
    else if c = 76 ∨ c = 108 then afterName v
    else none

/-- The decimal value of a digit string. -/
def decimal (ds : Bytes) : ℕ :=
  ds.foldl (fun v c => v * 10 + digitVal c) 0

theorem decimal_concat (ds : Bytes) (c : UInt8) :
    decimal (ds ++ [c]) = decimal ds * 10 + digitVal c := by
  rw [decimal, foldl_append]
  rfl

example : contentLengthOf (ascii "content-length : 17\r") = some (ascii "17") := by decide

/-! ## The scan of a line -/

/-- The digit at this point makes `content_len` too large for an `int`. -/
def Point.Overflows (pt : Point) : Prop :=
  pt.r.state = .contLenBodyParse ∧ ∃ c, pt.next = some c ∧
    isDigit c = true ∧ 2 ^ 31 ≤ pt.r.contentLen * 10 + digitVal c

/-- The scan of these bytes comes to no digit that is too much. -/
def Clean (r : Scan) (p : ℕ) (a : Bytes) : Prop :=
  ∀ pt ∈ readHeadersPoints r p a, ¬ pt.Overflows

/-- From `r` the scan comes to `r'` behind the bytes `a`. -/
structure Goes (r : Scan) (p : ℕ) (a rest : Bytes) (r' : Scan) : Prop where
  loop : readHeadersLoop r p (a ++ rest) =
    readHeadersLoop r' (p + a.length) rest
  points : readHeadersPoints r' (p + a.length) rest ⊆
    readHeadersPoints r p (a ++ rest)

variable {r : Scan} {p : ℕ} {rest v : Bytes} {c : UInt8}

theorem Goes.clean {r' : Scan} {a : Bytes}
    (h : Goes r p a rest r') (hclean : Clean r p (a ++ rest)) :
    Clean r' (p + a.length) rest :=
  fun pt hpt => hclean pt (h.points hpt)

theorem readHeadersPoints_cons (hopen : r.Open) (hstate : r.state ≠ .body)
    (hstep : (headerStep r p c).complete = false) :
    readHeadersPoints r p (c :: rest) = ⟨r, p, p + (rest.length + 1), some c⟩ ::
        readHeadersPoints (headerStep r p c) (p + 1) rest := by
  rw [readHeadersPoints, if_neg (not_not.mpr hopen.error), if_neg hstate]
  dsimp only
  rw [if_neg (by simp [hstep])]

theorem Goes.cons {r r' : Scan} {p : ℕ} {c : UInt8} {a rest : Bytes}
    (hopen : r.Open) (hstate : r.state ≠ .body)
    (hstep : (headerStep r p c).complete = false)
    (h : Goes (headerStep r p c) (p + 1) a rest r') :
    Goes r p (c :: a) rest r' := by
  have hlen : p + (c :: a).length = p + 1 + a.length := by
    rw [length_cons]
    omega
  constructor
  · rw [cons_append, readHeadersLoop_cons hopen, if_neg hstate,
      if_neg (by simp [hstep]), h.loop, hlen]
  · rw [cons_append, readHeadersPoints_cons hopen hstate hstep, hlen]
    exact subset_cons_of_subset _ h.points

theorem Clean.tail {r₁ : Scan} {a : Bytes}
    (hclean : Clean r p (c :: a)) (hopen : r.Open) (hstate : r.state ≠ .body)
    (hstep : headerStep r p c = r₁) (hcomplete : r₁.complete = false) :
    Clean r₁ (p + 1) a := by
  subst hstep
  intro pt hpt
  refine hclean pt ?_
  rw [readHeadersPoints_cons hopen hstate hcomplete]
  exact mem_cons_of_mem _ hpt

/-- The scan behind a line that gives these digits. -/
structure Line (r r' : Scan) (digits : Option Bytes) : Prop where
  state : r'.state = .lf
  isOpen : r'.Open
  start : r'.start = r.start
  bytesToGo : r'.bytesToGo = r.bytesToGo
  found : ∀ ds, digits = some ds →
    r'.hasContentLen = true ∧ r'.contentLen = decimal ds
  lost : digits = none → r'.hasContentLen = r.hasContentLen ∧
    (r.hasContentLen = true → r'.contentLen = r.contentLen)

/-- The rest `v` of a line and its line feed give these digits. -/
def LineGives (r : Scan) (p : ℕ) (v rest : Bytes) (digits : Option Bytes) :
    Prop :=
  ∃ r', Goes r p (v ++ [10]) rest r' ∧ Line r r' digits

/-- A turn of the loop that does not touch what was found. -/
structure Quiet (r r₁ : Scan) : Prop where
  isOpen : r₁.Open
  start : r₁.start = r.start
  bytesToGo : r₁.bytesToGo = r.bytesToGo
  hasContentLen : r₁.hasContentLen = r.hasContentLen
  contentLen : r.hasContentLen = true → r₁.contentLen = r.contentLen

theorem Quiet.line {r₁ r' : Scan} {digits : Option Bytes} (h : Quiet r r₁)
    (hline : Line r₁ r' digits) : Line r r' digits where
  state := hline.state
  isOpen := hline.isOpen
  start := hline.start.trans h.start
  bytesToGo := hline.bytesToGo.trans h.bytesToGo
  found := hline.found
  lost := by
    intro hnone
    obtain ⟨hhas, hlen⟩ := hline.lost hnone
    rw [h.hasContentLen] at hhas hlen
    exact ⟨hhas, fun htrue => (hlen htrue).trans (h.contentLen htrue)⟩

theorem LineGives.cons {r r₁ : Scan} {p : ℕ} {c : UInt8} {v rest : Bytes}
    {digits : Option Bytes} (hopen : r.Open) (hstate : r.state ≠ .body)
    (hstep : headerStep r p c = r₁) (hquiet : Quiet r r₁)
    (h : LineGives r₁ (p + 1) v rest digits) :
    LineGives r p (c :: v) rest digits := by
  obtain ⟨r', hgoes, hline⟩ := h
  subst hstep
  exact ⟨r', hgoes.cons hopen hstate hquiet.isOpen.complete, hquiet.line hline⟩

theorem LineGives.lineFeed (hopen : r.Open) (hstate : r.state ≠ .body)
    (hstep : headerStep r p 10 = { r with state := .lf }) :
    LineGives r p [] rest none := by
  refine ⟨{ r with state := .lf }, ?_, ?_⟩
  · refine Goes.cons hopen hstate ?_ ?_
    · rw [hstep]
      exact hopen.complete
    · rw [hstep]
      exact ⟨rfl, List.Subset.refl _⟩
  · exact ⟨rfl, ⟨hopen.error, hopen.complete⟩, rfl, rfl,
      fun _ h => (by cases h), fun _ => ⟨rfl, fun _ => rfl⟩⟩

theorem skip_line {r : Scan} {p : ℕ} {v rest : Bytes} (hopen : r.Open)
    (hstate : r.state = .skip) (hv : 10 ∉ v) :
    LineGives r p v rest none := by
  induction v generalizing p with
  | nil =>
    refine LineGives.lineFeed hopen (by simp [hstate]) ?_
    simp [headerStep, hstate]
  | cons c v ih =>
    have hc : c ≠ 10 := fun h => hv (by simp [h])
    have hstep : headerStep r p c = r := by
      simp [headerStep, hstate, hc]
    refine LineGives.cons hopen (by simp [hstate]) hstep ?_ (ih fun h => hv (mem_cons_of_mem c h))
    exact ⟨hopen, rfl, rfl, rfl, fun _ => rfl⟩

/-- The digits are found, and their value is in `content_len` as long as it
fits. -/
theorem digits_line {ds : Bytes} (hopen : r.Open)
    (hstate : r.state = .contLenBodyParse) (hhas : r.hasContentLen = false)
    (hlen : r.contentLen = decimal ds) (hv : 10 ∉ v)
    (hclean : Clean r p (v ++ 10 :: rest)) :
    LineGives r p v rest (afterDigits ds v) := by
  have hbody : r.state ≠ .body := by simp [hstate]
  induction v generalizing r p ds with
  | nil =>
    have hstep : headerStep r p 10 =
        { r with state := .lf, hasContentLen := true } := by
      simp [headerStep, hstate, isDigit, isBlank]
    refine ⟨{ r with state := .lf, hasContentLen := true }, ?_, ?_⟩
    · refine Goes.cons hopen hbody ?_ ?_
      · rw [hstep]
        exact hopen.complete
      · rw [hstep]
        exact ⟨rfl, List.Subset.refl _⟩
    · refine ⟨rfl, ⟨hopen.error, hopen.complete⟩, rfl, rfl, ?_, ?_⟩
      · intro ds' hds
        obtain rfl := Option.some.inj hds
        exact ⟨rfl, hlen⟩
      · intro hnone
        cases hnone
  | cons c v ih =>
    have hvtail : 10 ∉ v := fun h => hv (mem_cons_of_mem c h)
    have hc : c ≠ 10 := fun h => hv (by simp [h])
    rw [afterDigits]
    by_cases hdigit : isDigit c = true
    · rw [if_pos hdigit]
      have hfits : r.contentLen * 10 + digitVal c < 2 ^ 31 := by
        by_contra hle
        refine hclean ⟨r, p, p + ((v ++ 10 :: rest).length + 1), some c⟩
          ?_ ⟨hstate, c, rfl, hdigit, Int.not_lt.mp hle⟩
        rw [cons_append, readHeadersPoints]
        exact mem_cons_self
      have hvalue : toInt (r.contentLen * 10 + digitVal c) = decimal (ds ++ [c]) := by
        rw [decimal_concat, hlen] at *
        push_cast
        exact Int.bmod_eq_of_le (by omega) (by omega)
      have hstep : headerStep r p c =
          { r with contentLen := decimal (ds ++ [c]) } := by
        simp [headerStep, hstate, hdigit, hvalue]
      have hquiet : Quiet r { r with contentLen := decimal (ds ++ [c]) } :=
        ⟨⟨hopen.error, hopen.complete⟩, rfl, rfl, rfl, fun h => absurd h (by simp [hhas])⟩
      refine LineGives.cons hopen hbody hstep hquiet ?_
      exact ih hquiet.isOpen hstate hhas rfl hvtail
        (hclean.tail hopen hbody hstep hopen.complete) hbody
    · rw [if_neg hdigit]
      by_cases hend : isBlank c = true ∨ c = 13
      · rw [if_pos hend]
        have hstep : headerStep r p c =
            { r with state := .skip, hasContentLen := true } := by
          simp [headerStep, hstate, hdigit, hend]
        obtain ⟨r', hgoes, hline⟩ := @skip_line
          { r with state := .skip, hasContentLen := true } (p + 1) v rest
          ⟨hopen.error, hopen.complete⟩ rfl hvtail
        refine ⟨r', ?_, ?_⟩
        · refine Goes.cons hopen hbody ?_ ?_
          · rw [hstep]
            exact hopen.complete
          · rw [hstep]
            exact hgoes
        · obtain ⟨hhas', hlen'⟩ := hline.lost rfl
          refine ⟨hline.state, hline.isOpen, hline.start, hline.bytesToGo, ?_, ?_⟩
          · intro ds' hds
            obtain rfl := Option.some.inj hds
            exact ⟨hhas', (hlen' rfl).trans hlen⟩
          · intro hnone
            cases hnone
      · rw [if_neg hend]
        have hstep : headerStep r p c = { r with state := .skip } := by
          simp [headerStep, hstate, hdigit, hend, hc]
        refine LineGives.cons hopen hbody hstep ?_
          (skip_line ⟨hopen.error, hopen.complete⟩ rfl hvtail)
        exact ⟨⟨hopen.error, hopen.complete⟩, rfl, rfl, rfl, fun _ => rfl⟩

theorem quiet_state (hopen : r.Open) (state : ReqState) : Quiet r { r with state := state } :=
  ⟨⟨hopen.error, hopen.complete⟩, rfl, rfl, rfl, fun _ => rfl⟩

theorem colon_line (hopen : r.Open)
    (hstate : r.state = .contLenBody) (hhas : r.hasContentLen = false)
    (hv : 10 ∉ v) (hclean : Clean r p (v ++ 10 :: rest)) :
    LineGives r p v rest (afterColon v) := by
  have hbody : r.state ≠ .body := by simp [hstate]
  induction v generalizing p with
  | nil =>
    refine LineGives.lineFeed hopen hbody ?_
    simp [headerStep, hstate, isDigit, isBlank, crlfDefaultSkip]
  | cons c v ih =>
    have hvtail : 10 ∉ v := fun h => hv (mem_cons_of_mem c h)
    have hc : c ≠ 10 := fun h => hv (by simp [h])
    rw [afterColon]
    by_cases hblank : isBlank c = true
    · rw [if_pos hblank]
      have hstep : headerStep r p c = r := by
        simp [headerStep, hstate, hblank]
      exact LineGives.cons hopen hbody hstep ⟨hopen, rfl, rfl, rfl, fun _ => rfl⟩
        (ih hvtail (hclean.tail hopen hbody hstep hopen.complete))
    · rw [if_neg hblank]
      by_cases hdigit : isDigit c = true
      · rw [if_pos hdigit]
        have hstep : headerStep r p c =
            { r with state := .contLenBodyParse, contentLen := digitVal c } := by
          simp [headerStep, hstate, hblank, hdigit]
        have hvalue : decimal [c] = digitVal c := by simp [decimal]
        refine LineGives.cons hopen hbody hstep ⟨⟨hopen.error, hopen.complete⟩, rfl, rfl, rfl,
            fun h => absurd h (by simp [hhas])⟩ ?_
        refine digits_line ⟨hopen.error, hopen.complete⟩ rfl hhas ?_ hvtail
          (hclean.tail hopen hbody hstep hopen.complete)
        rw [hvalue]
      · rw [if_neg hdigit]
        have hstep : headerStep r p c = { r with state := .skip } := by
          simp [headerStep, hstate, hblank, hdigit, crlfDefaultSkip, hc]
        exact LineGives.cons hopen hbody hstep (quiet_state hopen _)
          (skip_line ⟨hopen.error, hopen.complete⟩ rfl hvtail)

theorem name_line (hopen : r.Open) (hstate : r.state = .lColon) (hhas : r.hasContentLen = false)
    (hv : 10 ∉ v) (hclean : Clean r p (v ++ 10 :: rest)) :
    LineGives r p v rest (afterName v) := by
  have hbody : r.state ≠ .body := by simp [hstate]
  induction v generalizing p with
  | nil =>
    refine LineGives.lineFeed hopen hbody ?_
    simp [headerStep, hstate, isBlank, crlfDefaultSkip]
  | cons c v ih =>
    have hvtail : 10 ∉ v := fun h => hv (mem_cons_of_mem c h)
    have hc : c ≠ 10 := fun h => hv (by simp [h])
    rw [afterName]
    by_cases hblank : isBlank c = true
    · rw [if_pos hblank]
      have hstep : headerStep r p c = r := by
        simp [headerStep, hstate, hblank]
      exact LineGives.cons hopen hbody hstep ⟨hopen, rfl, rfl, rfl, fun _ => rfl⟩
        (ih hvtail (hclean.tail hopen hbody hstep hopen.complete))
    · rw [if_neg hblank]
      by_cases hcolon : c = 58
      · rw [if_pos hcolon]
        have hstep : headerStep r p c = { r with state := .contLenBody } := by
          simp only [headerStep, hstate, if_neg hblank, if_pos hcolon]
        exact LineGives.cons hopen hbody hstep (quiet_state hopen _)
          (colon_line ⟨hopen.error, hopen.complete⟩ rfl hhas hvtail
            (hclean.tail hopen hbody hstep hopen.complete))
      · rw [if_neg hcolon]
        have hstep : headerStep r p c = { r with state := .skip } := by
          simp [headerStep, hstate, hblank, hcolon, crlfDefaultSkip, hc]
        exact LineGives.cons hopen hbody hstep (quiet_state hopen _)
          (skip_line ⟨hopen.error, hopen.complete⟩ rfl hvtail)

theorem drop_contLenChars (k : Fin 13) :
    contLenChars.drop k = contLenChars[k] :: contLenChars.drop (k + 1) :=
  drop_eq_getElem_cons k.isLt

theorem inName_line {r : Scan} {k : Fin 13} {p : ℕ} {v rest : Bytes}
    (hopen : r.Open) (hstate : r.state = .contLen k)
    (hhas : r.hasContentLen = false) (hv : 10 ∉ v)
    (hclean : Clean r p (v ++ 10 :: rest)) :
    LineGives r p v rest (inName (contLenChars.drop k) v) := by
  have hbody : r.state ≠ .body := by simp [hstate]
  have hlf : ∀ k : Fin 13,
      ¬ ((10 : UInt8) = contLenChars[k].1 ∨ (10 : UInt8) = contLenChars[k].2) := by
    decide
  rw [drop_contLenChars]
  induction v generalizing r p k with
  | nil =>
    refine LineGives.lineFeed hopen hbody ?_
    simp only [headerStep, hstate, if_neg (hlf k), crlfDefaultSkip, if_true]
  | cons c v ih =>
    have hvtail : 10 ∉ v := fun h => hv (mem_cons_of_mem c h)
    have hc : c ≠ 10 := fun h => hv (by simp [h])
    rw [inName]
    by_cases hchar : c = contLenChars[k].1 ∨ c = contLenChars[k].2
    · rw [if_pos hchar]
      have hstep : headerStep r p c = { r with state := contLenNext k } := by
        simp only [headerStep, hstate, if_pos hchar]
      refine LineGives.cons hopen hbody hstep (quiet_state hopen _) ?_
      have hopen' : ({ r with state := contLenNext k } : Scan).Open :=
        ⟨hopen.error, hopen.complete⟩
      have hclean' := hclean.tail hopen hbody hstep hopen.complete
      by_cases hk : k.val + 1 < 13
      · have hnext : contLenNext k = .contLen ⟨k.val + 1, hk⟩ := by
          rw [contLenNext, dif_pos hk]
        have hrest := @ih { r with state := contLenNext k } ⟨k.val + 1, hk⟩
          (p + 1) hopen' hnext hhas hvtail hclean' (by simp [hnext])
        rw [← drop_contLenChars] at hrest
        exact hrest
      · have hnext : contLenNext k = .lColon := by
          rw [contLenNext, dif_neg hk]
        have hend : contLenChars.drop (k.val + 1) = [] :=
          drop_of_length_le (Nat.not_lt.mp hk)
        rw [hend]
        exact name_line hopen' hnext hhas hvtail hclean'
    · rw [if_neg hchar]
      have hstep : headerStep r p c = { r with state := .skip } := by
        simp only [headerStep, hstate, if_neg hchar, crlfDefaultSkip, if_neg hc]
      exact LineGives.cons hopen hbody hstep (quiet_state hopen _)
        (skip_line ⟨hopen.error, hopen.complete⟩ rfl hvtail)

/-- Behind the first byte of a line or of its name, from where
`content_len_beg_case` sends the scan. -/
theorem begin_line (hopen : r.Open) (hbody : r.state ≠ .body) (hhas : r.hasContentLen = false)
    (hstep : headerStep r p c =
      { r with state := (contentLenBeg r c).getD .skip })
    (hv : 10 ∉ c :: v) (hclean : Clean r p (c :: v ++ 10 :: rest))
    (hws : isBlank c = true → Clean { r with state := .startWs } (p + 1)
      (v ++ 10 :: rest) → LineGives { r with state := .startWs } (p + 1) v rest
        (contentLengthOf v)) :
    LineGives r p (c :: v) rest (contentLengthOf (c :: v)) := by
  have hvtail : 10 ∉ v := fun h => hv (mem_cons_of_mem c h)
  have hopen' : ∀ state, ({ r with state := state } : Scan).Open :=
    fun _ => ⟨hopen.error, hopen.complete⟩
  have goTo : ∀ state, contentLenBeg r c = some state ∨ contentLenBeg r c = none ∧ state = .skip →
      headerStep r p c = { r with state := state } := by
    rintro state (hbeg | ⟨hbeg, rfl⟩)
    · rw [hstep, hbeg, Option.getD_some]
    · rw [hstep, hbeg, Option.getD_none]
  rw [contentLengthOf]
  by_cases hblank : isBlank c = true
  · have hto := goTo .startWs (Or.inl (by simp [contentLenBeg, hblank, hhas]))
    rw [if_pos hblank]
    exact LineGives.cons hopen hbody hto (quiet_state hopen _)
      (hws hblank (hclean.tail hopen hbody hto hopen.complete))
  · rw [if_neg hblank]
    by_cases hlong : c = 67 ∨ c = 99
    · have hto := goTo (.contLen 0) (Or.inl (by simp [contentLenBeg, hblank, hlong, hhas]))
      have hclean' := hclean.tail hopen hbody hto hopen.complete
      rw [if_pos hlong]
      exact LineGives.cons hopen hbody hto (quiet_state hopen _)
        (@inName_line _ 0 _ _ _ (hopen' _) rfl hhas hvtail hclean')
    · rw [if_neg hlong]
      by_cases hshort : c = 76 ∨ c = 108
      · have hto := goTo .lColon (Or.inl (by simp [contentLenBeg, hblank, hlong, hshort, hhas]))
        have hclean' := hclean.tail hopen hbody hto hopen.complete
        rw [if_pos hshort]
        exact LineGives.cons hopen hbody hto (quiet_state hopen _)
          (name_line (hopen' _) rfl hhas hvtail hclean')
      · have hto := goTo .skip (Or.inr ⟨by simp [contentLenBeg, hblank, hlong, hshort], rfl⟩)
        rw [if_neg hshort]
        exact LineGives.cons hopen hbody hto (quiet_state hopen _) (skip_line (hopen' _) rfl hvtail)

theorem startWs_line (hopen : r.Open) (hstate : r.state = .startWs) (hhas : r.hasContentLen = false)
    (hv : 10 ∉ v) (hclean : Clean r p (v ++ 10 :: rest)) :
    LineGives r p v rest (contentLengthOf v) := by
  have hbody : r.state ≠ .body := by simp [hstate]
  induction v generalizing r p with
  | nil =>
    refine LineGives.lineFeed hopen hbody ?_
    simp [headerStep, hstate, contentLenBeg, isBlank, crlfDefaultSkip]
  | cons c v ih =>
    have hc : c ≠ 10 := fun h => hv (by simp [h])
    have hstep : headerStep r p c =
        { r with state := (contentLenBeg r c).getD .skip } := by
      simp only [headerStep, hstate, crlfDefaultSkip, if_neg hc]
    refine begin_line hopen hbody hhas hstep hv hclean ?_
    intro _ hclean'
    exact ih ⟨hopen.error, hopen.complete⟩ rfl hhas
      (fun h => hv (mem_cons_of_mem c h)) hclean' (by simp)

/-- A line of the headers that is not empty gives its digits, unless some were
found before. -/
theorem lf_line (hopen : r.Open)
    (hstate : r.state = .lf) (hv : 10 ∉ v) (hne : v ≠ []) (hcr : v ≠ [13])
    (hclean : Clean r p (v ++ 10 :: rest)) :
    LineGives r p v rest (if r.hasContentLen then none else contentLengthOf v) := by
  have hbody : r.state ≠ .body := by simp [hstate]
  obtain ⟨c, v, rfl⟩ := exists_cons_of_ne_nil hne
  have hc : c ≠ 10 := fun h => hv (by simp [h])
  have hvtail : 10 ∉ v := fun h => hv (mem_cons_of_mem c h)
  have hopen' : ∀ state, ({ r with state := state } : Scan).Open :=
    fun _ => ⟨hopen.error, hopen.complete⟩
  by_cases hreturn : c = 13
  · -- a carriage return that does not end the headers spoils the line
    subst hreturn
    obtain ⟨d, v, rfl⟩ := exists_cons_of_ne_nil (fun h : v = [] => hcr (by rw [h]))
    have hd : d ≠ 10 := fun h => hvtail (by simp [h])
    have hvtail' : 10 ∉ v := fun h => hvtail (mem_cons_of_mem d h)
    have hgive : (if r.hasContentLen then none
        else contentLengthOf (13 :: d :: v)) = none := by
      simp [contentLengthOf, isBlank]
    have hstep : headerStep r p 13 = { r with state := .lfcr } := by
      simp [headerStep, hstate]
    rw [hgive]
    refine LineGives.cons hopen hbody hstep (quiet_state hopen _) ?_
    refine LineGives.cons (hopen' _) (by simp) ?_ (quiet_state (hopen' _) .skip)
      (skip_line (hopen' _) rfl hvtail')
    simp [headerStep, hd]
  · have hstep : headerStep r p c =
        { r with state := (contentLenBeg r c).getD .skip } := by
      simp only [headerStep, hstate, if_neg hreturn, if_neg hc]
    cases hhas : r.hasContentLen with
    | false =>
      refine begin_line hopen hbody hhas hstep hv hclean ?_
      intro _ hclean'
      exact startWs_line (hopen' _) rfl hhas hvtail hclean'
    | true =>
      have hskip : (contentLenBeg r c).getD .skip = .skip := by
        simp only [contentLenBeg, hhas, if_true]
        split_ifs <;> rfl
      rw [hskip] at hstep
      exact LineGives.cons hopen hbody hstep (quiet_state hopen _) (skip_line (hopen' _) rfl hvtail)

end Msicp.Tcp
