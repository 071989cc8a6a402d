import Msicp.To.Grammar
import Msicp.Support.FoldedWords

/-!
# `parse_to_param` on parameters of the grammar

What each part of a parameter does to the variables of the automaton.
-/

namespace Msicp.To

open Msicp.Support List
open Msicp.Avp (tolower sameName)

variable {t : Bytes} {p : ℕ} {v : ParamVars} {b : ToBody}

/-! ## Steps -/

theorem paramLoop_next {c : UInt8} {v' : ParamVars} {add : Option ToParam}
    {new : Bool} (h : v.step c p = .next v' add new) :
    paramLoop (c :: t) p v b = paramLoop t (p + 1) v' (b.addParams add) := by
  rw [paramLoop, h]

theorem paramLoop_pass {c : UInt8} {v' : ParamVars}
    (h : v.step c p = .next v' none false) :
    paramLoop (c :: t) p v b = paramLoop t (p + 1) v' b :=
  paramLoop_next h

theorem paramLoop_add {c : UInt8} {v' : ParamVars} {param : ToParam}
    {new : Bool} (h : v.step c p = .next v' (some param) new) :
    paramLoop (c :: t) p v b = paramLoop t (p + 1) v' (b.addParam param) :=
  paramLoop_next h

theorem paramLoop_error {c : UInt8} {v' : ParamVars} (h : v.step c p = .error v') :
    (paramLoop (c :: t) p v b).1.error = true := by
  rw [paramLoop, h]

theorem paramLoop_end {c : UInt8} {v' : ParamVars}
    (h : v.step c p = .endOfHeader v' none) :
    paramLoop (c :: t) p v b = paramEnd b v' p := by
  rw [paramLoop, h]
  rfl

theorem charClass_blank (tab : Bool) : charClass (To.blank tab) = .blank := by
  cases tab <;> rfl

theorem charClass_isName {c : UInt8} (h : isName c = true) :
    charClass c = .letterT ∨ charClass c = .letterA ∨ charClass c = .letterG ∨
      charClass c = .lt ∨ charClass c = .gt ∨ charClass c = .default := by
  simp only [isName, mem_cons, not_mem_nil, or_false, not_or,
    decide_eq_true_eq] at h
  obtain ⟨h1, h2, h3, h4, h5, h6, h7, h8, h9⟩ := h
  unfold charClass
  simp only [h1, h2, h3, h4, h5, h6, h7, h8, h9, or_self, if_false]
  split_ifs <;> simp

/-! ## White space -/

/-- States in which a line may be folded, and nothing else happens then. -/
def Waits (status : Status) : Prop :=
  status = .sParaName ∨ status = .sEqual ∨ status = .sParaValue ∨
    status = .eParaValue

/-- States in which something ends at white space. -/
def Ends (status : Status) : Prop :=
  status = .paraName ∨ status = .tag1 ∨ status = .tag2 ∨ status = .tag3 ∨
    status = .paraValueToken

/-- What white space at `p` ends. -/
def ParamVars.settle (v : ParamVars) (p : ℕ) : ParamVars × Option ToParam :=
  match v.status with
  | .tag3 => ({ v.setTag.nameEnd p with status := .sEqual }, none)
  | .paraName | .tag1 | .tag2 => ({ v.nameEnd p with status := .sEqual }, none)
  | .paraValueToken =>
    ({ v.valueEnd p with status := .eParaValue },
      some (v.valueEnd p).param)
  | _ => (v, none)

theorem Waits.settle (h : Waits v.status) (p : ℕ) : v.settle p = (v, none) := by
  obtain ⟨status, saved, param⟩ := v
  rcases h with h | h | h | h <;>
    (obtain rfl : status = _ := h
     rfl)

theorem Ends.waits (h : Ends v.status) (p : ℕ) : Waits (v.settle p).1.status := by
  obtain ⟨status, saved, param⟩ := v
  rcases h with h | h | h | h | h <;>
    (obtain rfl : status = _ := h
     simp [ParamVars.settle, Waits])

theorem settle_waits (h : Waits v.status ∨ Ends v.status) (p : ℕ) :
    Waits (v.settle p).1.status := by
  rcases h with h | h
  · rwa [h.settle]
  · exact h.waits p

theorem step_blank (h : Waits v.status ∨ Ends v.status) (tab : Bool) (p : ℕ) :
    v.step (To.blank tab) p = .next (v.settle p).1 (v.settle p).2 false := by
  obtain ⟨status, saved, param⟩ := v
  simp only [ParamVars.step, charClass_blank]
  rcases h with (h | h | h | h) | (h | h | h | h | h) <;>
    (obtain rfl : status = _ := h
     rfl)

/-- A line end leaves the automaton waiting for the next byte. -/
theorem paramLoop_eol (h : Waits v.status ∨ Ends v.status) (eol : Eol) :
    ∃ f, (f = .fCr ∨ f = .fLf ∨ f = .fCrlf) ∧ (f = .fCr → eol = .cr) ∧
      paramLoop (eol.text ++ t) p v b =
        paramLoop t (p + eol.text.length)
          { (v.settle p).1 with
            savedStatus := (v.settle p).1.status, status := f }
          (b.addParams (v.settle p).2) := by
  have hbreak : ∀ f, v.onBreak p f = .next { (v.settle p).1 with
      savedStatus := (v.settle p).1.status, status := f } (v.settle p).2
        false := by
    intro f
    obtain ⟨status, saved, param⟩ := v
    rcases h with (h | h | h | h) | (h | h | h | h | h) <;>
      (obtain rfl : status = _ := h
       rfl)
  have hcr : v.step 13 p = v.onBreak p .fCr := by
    obtain ⟨status, saved, param⟩ := v
    rcases h with (h | h | h | h) | (h | h | h | h | h) <;>
      (obtain rfl : status = _ := h
       rfl)
  have hlf : v.step 10 p = v.onBreak p .fLf := by
    obtain ⟨status, saved, param⟩ := v
    rcases h with (h | h | h | h) | (h | h | h | h | h) <;>
      (obtain rfl : status = _ := h
       rfl)
  cases eol with
  | cr =>
    exact ⟨.fCr, .inl rfl, fun _ => rfl, paramLoop_next (hcr.trans (hbreak _))⟩
  | lf =>
    exact ⟨.fLf, .inr (.inl rfl), by simp,
      paramLoop_next (hlf.trans (hbreak _))⟩
  | crlf =>
    refine ⟨.fCrlf, .inr (.inr rfl), by simp, ?_⟩
    have hstep := @paramLoop_next (10 :: t) p v b _ _ _ _ (hcr.trans (hbreak _))
    exact hstep.trans (paramLoop_pass rfl)

theorem paramLoop_fold (h : Waits v.status ∨ Ends v.status) (eol : Eol)
    (tab : Bool) :
    ∃ saved, paramLoop (eol.text ++ (To.blank tab :: t)) p v b =
      paramLoop t (p + eol.text.length + 1)
        { (v.settle p).1 with savedStatus := saved }
        (b.addParams (v.settle p).2) := by
  obtain ⟨f, hf, -, hrun⟩ := @paramLoop_eol (To.blank tab :: t) p v b h eol
  refine ⟨(v.settle p).1.status, hrun.trans (paramLoop_pass ?_)⟩
  rcases hf with rfl | rfl | rfl <;>
    simp [ParamVars.step, charClass_blank, ParamVars.onBlank, ParamVars.goto]

theorem paramLoop_lws (h : Waits v.status) (l : List Lws) :
    ∃ saved, paramLoop (lwsText l ++ t) p v b =
      paramLoop t (p + (lwsText l).length) { v with savedStatus := saved } b := by
  induction l generalizing p v with
  | nil => exact ⟨v.savedStatus, rfl⟩
  | cons x l ih =>
    cases x with
    | blank tab =>
      obtain ⟨saved, hrun⟩ := @ih (p + 1) v h
      refine ⟨saved, ?_⟩
      have hstep := step_blank (.inl h) tab p
      rw [h.settle] at hstep
      rw [show lwsText (.blank tab :: l) ++ t =
        To.blank tab :: (lwsText l ++ t) from rfl, paramLoop_next hstep]
      refine hrun.trans ?_
      congr 1
      change p + 1 + (lwsText l).length = p + ((lwsText l).length + 1)
      omega
    | fold eol tab =>
      obtain ⟨saved, hfold⟩ := @paramLoop_fold (lwsText l ++ t) p v b (.inl h)
        eol tab
      rw [h.settle] at hfold
      obtain ⟨saved', hrun⟩ := @ih (p + eol.text.length + 1)
        { v with savedStatus := saved } h
      refine ⟨saved', ?_⟩
      have htext : lwsText (.fold eol tab :: l) ++ t =
          eol.text ++ (To.blank tab :: (lwsText l ++ t)) := by
        simp [lwsText, Lws.text]
      rw [htext, hfold]
      refine hrun.trans ?_
      congr 1
      simp only [lwsText, flatMap_cons, Lws.text, List.length_append,
        length_singleton]
      omega

/-- White space ends what there is to end, if there is any. -/
theorem paramLoop_settle (h : Waits v.status ∨ Ends v.status) {l : List Lws}
    (hl : l ≠ []) :
    ∃ saved, paramLoop (lwsText l ++ t) p v b =
      paramLoop t (p + (lwsText l).length)
        { (v.settle p).1 with savedStatus := saved }
        (b.addParams (v.settle p).2) := by
  have hwaits := settle_waits h p
  cases l with
  | nil => exact absurd rfl hl
  | cons x l =>
    cases x with
    | blank tab =>
      obtain ⟨saved, hrun⟩ := @paramLoop_lws t (p + 1) (v.settle p).1
        (b.addParams (v.settle p).2) hwaits l
      refine ⟨saved, ?_⟩
      rw [show lwsText (.blank tab :: l) ++ t =
        To.blank tab :: (lwsText l ++ t) from rfl,
        paramLoop_next (step_blank h tab p)]
      refine hrun.trans ?_
      congr 1
      change p + 1 + (lwsText l).length = p + ((lwsText l).length + 1)
      omega
    | fold eol tab =>
      obtain ⟨saved, hfold⟩ := @paramLoop_fold (lwsText l ++ t) p v b h eol tab
      obtain ⟨saved', hrun⟩ := @paramLoop_lws t (p + eol.text.length + 1)
        { (v.settle p).1 with savedStatus := saved }
        (b.addParams (v.settle p).2) hwaits l
      refine ⟨saved', ?_⟩
      have htext : lwsText (.fold eol tab :: l) ++ t =
          eol.text ++ (To.blank tab :: (lwsText l ++ t)) := by
        simp [lwsText, Lws.text]
      rw [htext, hfold]
      refine hrun.trans ?_
      congr 1
      simp only [lwsText, flatMap_cons, Lws.text, List.length_append,
        length_singleton]
      omega

/-! ## The end of the header -/

theorem charClass_line {c : UInt8} (h : c ∉ ([32, 9, 92, 0] : Bytes)) :
    charClass c ≠ .blank ∧ charClass c ≠ .nul ∧ charClass c ≠ .backslash ∧
      (charClass c = .lf → c = 10) := by
  simp only [mem_cons, not_mem_nil, or_false, not_or] at h
  obtain ⟨h1, h2, h3, h4⟩ := h
  fun_cases charClass c
  case case1 hc => exact absurd hc (not_or.mpr ⟨h1, h2⟩)
  case case2 hc => simp [hc]
  case case4 hc => exact absurd hc h4
  case case5 hc => exact absurd hc h3
  all_goals simp

/-- The next line does not start with white space. -/
theorem step_line {c : UInt8} (h : c ∉ ([32, 9, 92, 0] : Bytes)) {f : Status}
    (hf : f = .fCr ∨ f = .fLf ∨ f = .fCrlf) (hlf : f = .fCr → c ≠ 10)
    (saved : Status) (param : ToParam) (p : ℕ) :
    ∃ status, (⟨f, saved, param⟩ : ParamVars).step c p =
      .endOfHeader ⟨status, saved, param⟩ none := by
  obtain ⟨hblank, hnul, hbackslash, hten⟩ := charClass_line h
  unfold ParamVars.step
  rcases hf with rfl | rfl | rfl <;> cases hc : charClass c <;>
    first
    | exact absurd hc hblank
    | exact absurd hc hnul
    | exact absurd hc hbackslash
    | exact absurd (hten hc) (hlf rfl)
    | exact ⟨_, rfl⟩

theorem paramLoop_line (h : Waits v.status ∨ Ends v.status) {eol : Eol}
    {rest : Bytes} (hrest : Follows eol rest) :
    ∃ f, paramLoop (eol.text ++ rest) p v b =
      paramEnd (b.addParams (v.settle p).2)
        ⟨f, (v.settle p).1.status, (v.settle p).1.param⟩ (p + eol.text.length) := by
  obtain ⟨f, hf, hcr, hrun⟩ := @paramLoop_eol rest p v b h eol
  rw [hrun]
  cases rest with
  | nil => exact ⟨_, rfl⟩
  | cons c rest =>
    obtain ⟨hc, hten⟩ := hrest c rfl
    obtain ⟨status, hstep⟩ := step_line hc hf (fun hf => hten (hcr hf))
      (v.settle p).1.status (v.settle p).1.param (p + eol.text.length)
    exact ⟨status, paramLoop_end hstep⟩

theorem paramLoop_last (h : Waits v.status ∨ Ends v.status) {eol : Eol}
    {rest : Bytes} (hrest : Follows eol rest) (l : List Lws) :
    ∃ f, paramLoop (lwsText l ++ (eol.text ++ rest)) p v b =
      paramEnd (b.addParams (v.settle p).2)
        ⟨f, (v.settle p).1.status, (v.settle p).1.param⟩
        (p + (lwsText l).length + eol.text.length) := by
  cases l with
  | nil => exact paramLoop_line h hrest
  | cons x l =>
    have hwaits := settle_waits h p
    obtain ⟨saved, hrun⟩ := @paramLoop_settle (eol.text ++ rest) p v b h (x :: l)
      (cons_ne_nil x l)
    obtain ⟨f, hline⟩ := @paramLoop_line (p + (lwsText (x :: l)).length)
      { (v.settle p).1 with savedStatus := saved } (b.addParams (v.settle p).2)
      (.inl hwaits) eol rest hrest
    refine ⟨f, hrun.trans (hline.trans ?_)⟩
    rw [Waits.settle (v := { (v.settle p).1 with savedStatus := saved }) hwaits]
    rfl

end Msicp.To

/-!
## Names of parameters

A name is read in the states that tell a tag from the other parameters.
-/

namespace Msicp.To

open Msicp.Support
open Msicp.Avp (tolower sameName)

variable {t : Bytes} {p : ℕ} {b : ToBody}

/-- The state behind the first byte of a name. -/
def nameStart (c : UInt8) : Status :=
  if charClass c = .letterT then .tag1 else .paraName

/-- The state behind a further byte of a name. -/
def nameNext (status : Status) (c : UInt8) : Status :=
  if charClass c = .letterA ∧ status = .tag1 then .tag2
  else if charClass c = .letterG ∧ status = .tag2 then .tag3
  else .paraName

/-- The state behind a name. -/
def nameStatus : Bytes → Status
  | [] => .sParaName
  | c :: name => name.foldl nameNext (nameStart c)

/-! ## Tags -/

theorem foldl_nameNext_paraName (name : Bytes) :
    name.foldl nameNext .paraName = .paraName := by
  induction name with
  | nil => rfl
  | cons c name ih => simpa [nameNext] using ih

theorem letters_tag (c : UInt8) :
    (charClass c = .letterT ↔ tolower c = 116) ∧
      (charClass c = .letterA ↔ tolower c = 97) ∧
        (charClass c = .letterG ↔ tolower c = 103) := by
  revert c
  exact forall_byte (by decide)

theorem nameStart_eq_tag1_iff {c : UInt8} : nameStart c = .tag1 ↔ charClass c = .letterT := by
  unfold nameStart
  split_ifs with h <;> simp [h]

theorem nameStart_ne (c : UInt8) : nameStart c ≠ .tag2 ∧ nameStart c ≠ .tag3 := by
  unfold nameStart
  split_ifs <;> simp

theorem nameNext_ne_tag1 (status : Status) (c : UInt8) : nameNext status c ≠ .tag1 := by
  unfold nameNext
  split_ifs <;> simp

theorem nameNext_eq_tag2_iff {status : Status} {c : UInt8} :
    nameNext status c = .tag2 ↔ charClass c = .letterA ∧ status = .tag1 := by
  unfold nameNext
  split_ifs with ha <;> simp [ha]

theorem nameNext_eq_tag3_iff {status : Status} {c : UInt8} :
    nameNext status c = .tag3 ↔ charClass c = .letterG ∧ status = .tag2 := by
  by_cases ha : charClass c = .letterA ∧ status = .tag1 <;> simp [nameNext, ha]

theorem nameStatus_eq_tag3_iff (name : Bytes) :
    nameStatus name = .tag3 ↔ sameName (ascii "tag") name := by
  have hascii : (ascii "tag").map tolower = [116, 97, 103] := by decide
  rw [sameName, hascii, @eq_comm Bytes]
  rcases name with _ | ⟨c, _ | ⟨d, _ | ⟨e, _ | ⟨f, rest⟩⟩⟩⟩
  · simp [nameStatus]
  · simp [nameStatus, nameStart_ne]
  · simp [nameStatus, nameNext_eq_tag3_iff, nameStart_ne]
  · simp only [nameStatus, List.foldl_cons, List.foldl_nil, List.map_cons,
      List.map_nil, List.cons.injEq, and_true, nameNext_eq_tag3_iff,
      nameNext_eq_tag2_iff, nameStart_eq_tag1_iff, (letters_tag c).1,
      (letters_tag d).2.1, (letters_tag e).2.2]
    exact ⟨fun h => ⟨h.2.2, h.2.1, h.1⟩, fun h => ⟨h.2.2, h.2.1, h.1⟩⟩
  · -- behind the fourth byte it is no tag any more
    have hlast : nameNext (nameNext (nameNext (nameStart c) d) e) f = .paraName := by
      rw [nameNext]
      simp [nameNext_eq_tag2_iff, nameNext_ne_tag1]
    rw [nameStatus, List.foldl_cons, List.foldl_cons, List.foldl_cons, hlast,
      foldl_nameNext_paraName]
    simp

/-! ## Reading a name -/

/-- The states in a name. -/
def Names (status : Status) : Prop :=
  status = .paraName ∨ status = .tag1 ∨ status = .tag2 ∨ status = .tag3

theorem names_nameStart (c : UInt8) : Names (nameStart c) := by
  unfold nameStart
  split_ifs <;> simp [Names]

theorem names_nameNext (status : Status) (c : UInt8) :
    Names (nameNext status c) := by
  unfold nameNext
  split_ifs <;> simp [Names]

theorem names_foldl {status : Status} (h : Names status) (name : Bytes) :
    Names (name.foldl nameNext status) := by
  induction name generalizing status with
  | nil => exact h
  | cons c name ih => exact ih (names_nameNext status c)

theorem names_nameStatus {name : Bytes} (h : name ≠ []) :
    Names (nameStatus name) := by
  cases name with
  | nil => exact absurd rfl h
  | cons c name => exact names_foldl (names_nameStart c) name

theorem Names.ends {status : Status} (h : Names status) : Ends status := by
  rcases h with rfl | rfl | rfl | rfl <;> simp [Ends]

theorem step_nameStart {c : UInt8} (h : isName c = true) (saved : Status)
    (param : ToParam) (p : ℕ) :
    (⟨.sParaName, saved, param⟩ : ParamVars).step c p =
      .next ⟨nameStart c, saved,
        { param with name := { param.name with s := p } }⟩ none false := by
  unfold ParamVars.step nameStart
  rcases charClass_isName h with h | h | h | h | h | h <;>
    simp [h, ParamVars.onText]

theorem step_nameNext {c : UInt8} (h : isName c = true) {status : Status}
    (hs : Names status) (saved : Status) (param : ToParam) (p : ℕ) :
    (⟨status, saved, param⟩ : ParamVars).step c p =
      .next ⟨nameNext status c, saved, param⟩ none false := by
  unfold ParamVars.step nameNext
  rcases hs with rfl | rfl | rfl | rfl <;>
    rcases charClass_isName h with h | h | h | h | h | h <;>
      simp [h, ParamVars.onText, ParamVars.goto]

theorem paramLoop_foldl {name : Bytes} (h : ∀ c ∈ name, isName c = true)
    {status : Status} (hs : Names status) (saved : Status) (param : ToParam) :
    paramLoop (name ++ t) p ⟨status, saved, param⟩ b =
      paramLoop t (p + name.length)
        ⟨name.foldl nameNext status, saved, param⟩ b := by
  induction name generalizing p status with
  | nil => rfl
  | cons c name ih =>
    have hc := h c List.mem_cons_self
    have hrun := @ih (p + 1) (fun d hd => h d (List.mem_cons_of_mem c hd)) _
      (names_nameNext status c)
    rw [List.cons_append, paramLoop_pass (step_nameNext hc hs saved param p),
      hrun, List.foldl_cons, List.length_cons, Nat.add_right_comm, Nat.add_assoc]

/-- A parameter whose name has started at `p`. -/
def started (p : ℕ) : ToParam := ⟨.general, ⟨p, 0⟩, ⟨0, 0⟩⟩

/-- A parameter whose name has been read. -/
def named (p : ℕ) (name : Bytes) : ToParam :=
  ⟨if nameStatus name = .tag3 then .tag else .general, sliceAt p name, ⟨0, 0⟩⟩

theorem paramLoop_name {name : Bytes} (h : IsText isName name)
    (saved : Status) :
    paramLoop (name ++ t) p ⟨.sParaName, saved, .fresh⟩ b =
      paramLoop t (p + name.length) ⟨nameStatus name, saved, started p⟩ b := by
  obtain ⟨hne, hall⟩ := h
  cases name with
  | nil => exact absurd rfl hne
  | cons c name =>
    have hc := hall c List.mem_cons_self
    rw [List.cons_append, paramLoop_pass (step_nameStart hc saved .fresh p),
      paramLoop_foldl (fun d hd => hall d (List.mem_cons_of_mem c hd))
        (names_nameStart c), List.length_cons, Nat.add_right_comm, Nat.add_assoc]
    rfl

/-! ## The end of a name -/

theorem ptrDiff_add (p n : ℕ) : ptrDiff (p + n) p = n := by
  simp [ptrDiff]

theorem settle_name {name : Bytes} (h : name ≠ []) (saved : Status) :
    (⟨nameStatus name, saved, started p⟩ : ParamVars).settle
        (p + name.length) = (⟨.sEqual, saved, named p name⟩, none) := by
  unfold ParamVars.settle named
  rcases names_nameStatus h with h | h | h | h <;>
    simp [h, started, sliceAt, ptrDiff_add, ParamVars.nameEnd, ParamVars.setTag]

theorem paramLoop_equal {name : Bytes} (h : name ≠ []) (saved : Status)
    (l : List Lws) :
    ∃ saved', paramLoop (lwsText l ++ 61 :: t) (p + name.length)
        ⟨nameStatus name, saved, started p⟩ b =
      paramLoop t (p + name.length + (lwsText l).length + 1)
        ⟨.sParaValue, saved', named p name⟩ b := by
  have hnames := names_nameStatus h
  cases l with
  | nil =>
    refine ⟨saved, paramLoop_pass ?_⟩
    unfold ParamVars.step named
    rcases hnames with h | h | h | h <;>
      simp [h, started, sliceAt, ptrDiff_add, ParamVars.nameEnd,
        ParamVars.setTag, charClass, ParamVars.onEqual, ParamVars.goto]
  | cons x l =>
    obtain ⟨saved', hrun⟩ := @paramLoop_settle (61 :: t) (p + name.length)
      ⟨nameStatus name, saved, started p⟩ b (.inr hnames.ends) (x :: l)
        (List.cons_ne_nil x l)
    rw [settle_name h] at hrun
    exact ⟨saved', hrun.trans (paramLoop_pass rfl)⟩

/-! ## Names without a value -/

theorem named_type_eq_tag_iff (p : ℕ) (name : Bytes) :
    (named p name).type = .tag ↔ sameName (ascii "tag") name := by
  rw [← nameStatus_eq_tag3_iff, named]
  by_cases h : nameStatus name = .tag3 <;> simp [h]

theorem length_of_tag {name : Bytes} (h : sameName (ascii "tag") name) :
    name.length = 3 :=
  (h.length_eq).symm

/-- A tag without a value, at whose end something stands at `q`. -/
def valueless (p : ℕ) (name : Bytes) (q : ℕ) : ToParam :=
  { named p name with value := ⟨q, 0⟩ }

theorem paramLoop_tag_semicolon {name : Bytes}
    (h : sameName (ascii "tag") name) (saved : Status) (l : List Lws) :
    ∃ saved', paramLoop (lwsText l ++ 59 :: t) (p + name.length)
        ⟨nameStatus name, saved, started p⟩ b =
      paramLoop t (p + name.length + (lwsText l).length + 1)
        ⟨.sParaName, saved', .fresh⟩ (b.addParam
          (valueless p name (p + name.length + (lwsText l).length))) := by
  have hne : name ≠ [] := by
    rintro rfl
    exact absurd h (by decide)
  have htag := (nameStatus_eq_tag3_iff name).2 h
  have hlength := length_of_tag h
  cases l with
  | nil =>
    refine ⟨saved, @paramLoop_add _ _ _ _ _ _ _ true ?_⟩
    simp [htag, ParamVars.step, charClass, ParamVars.onSemicolon,
      ParamVars.setTag, ParamVars.emptyTag, ParamVars.newParam, started,
      valueless, named, sliceAt, hlength, lwsText]
  | cons x l =>
    obtain ⟨saved', hrun⟩ := @paramLoop_settle (59 :: t) (p + name.length)
      ⟨nameStatus name, saved, started p⟩ b
      (.inr (names_nameStatus hne).ends) (x :: l) (List.cons_ne_nil x l)
    rw [settle_name hne] at hrun
    refine ⟨saved', hrun.trans (@paramLoop_add _ _ _ _ _ _ _ true ?_)⟩
    have htype := (named_type_eq_tag_iff p name).2 h
    simp [ParamVars.step, charClass, ParamVars.onSemicolon,
      ParamVars.emptyTag, ParamVars.newParam, htype, valueless]

theorem paramLoop_name_semicolon {name : Bytes} (hne : name ≠ [])
    (h : ¬ sameName (ascii "tag") name) (saved : Status) (l : List Lws) :
    (paramLoop (lwsText l ++ 59 :: t) (p + name.length)
      ⟨nameStatus name, saved, started p⟩ b).1.error = true := by
  have htag := mt (nameStatus_eq_tag3_iff name).1 h
  cases l with
  | nil =>
    refine @paramLoop_error t (p + name.length)
      ⟨nameStatus name, saved, started p⟩ b 59
      ⟨nameStatus name, saved, started p⟩ ?_
    unfold ParamVars.step
    rcases names_nameStatus hne with h | h | h | h
    · simp [h, charClass, ParamVars.onSemicolon]
    · simp [h, charClass, ParamVars.onSemicolon]
    · simp [h, charClass, ParamVars.onSemicolon]
    · exact absurd h htag
  | cons x l =>
    obtain ⟨saved', hrun⟩ := @paramLoop_settle (59 :: t) (p + name.length)
      ⟨nameStatus name, saved, started p⟩ b
      (.inr (names_nameStatus hne).ends) (x :: l) (List.cons_ne_nil x l)
    rw [settle_name hne] at hrun
    have htype := mt (named_type_eq_tag_iff p name).1 h
    rw [hrun]
    refine @paramLoop_error _ _ _ _ _ ⟨.sEqual, saved', named p name⟩ ?_
    simp [ParamVars.step, charClass, ParamVars.onSemicolon,
      ParamVars.emptyTag, htype]

theorem paramLoop_name_last {name : Bytes} (hne : name ≠ []) {eol : Eol}
    {rest : Bytes} (hrest : Follows eol rest) (saved : Status) (l : List Lws) :
    paramLoop (lwsText l ++ (eol.text ++ rest)) (p + name.length)
        ⟨nameStatus name, saved, started p⟩ b =
      if sameName (ascii "tag") name then
        (b.addParam (valueless p name 0), .eParaValue,
          p + name.length + (lwsText l).length + eol.text.length)
      else (b, .sEqual, p + name.length + (lwsText l).length + eol.text.length) := by
  obtain ⟨f, hrun⟩ := @paramLoop_last (p + name.length)
    ⟨nameStatus name, saved, started p⟩ b (.inr (names_nameStatus hne).ends) eol
    rest hrest l
  rw [hrun, settle_name hne]
  simp [paramEnd, named_type_eq_tag_iff, ToBody.addParams, valueless]

end Msicp.To
