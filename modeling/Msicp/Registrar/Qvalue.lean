import Msicp.Parser.UriValues
import Msicp.Tcp.LengthLines

/-!
# Values of q (`qvalue.c`, `qvalue.h`)

A q value is kept as a number of thousandths.  `str2q` reads it with an
automaton, `q2str` prints it without trailing zeros.
-/

namespace Msicp.Registrar

open List

open Msicp.Support (Bytes ascii)
open Msicp.Parser (decimal_append)
open Msicp.Tcp (isBlank isDigit digitVal decimal decimal_concat Blanks Digits
  digits_concat blanks_concat)

/-! ## Reading -/

/-- The states of the automaton in `str2q`. -/
inductive QState
  | start | zero | one | zeroPt | onePt | onePtZero | zeroPtN

/-- The errors of `str2q`. -/
inductive QError
  | invalidParams | invChar | tooBig | empty | decMissing
  deriving DecidableEq

/-- The variables of `str2q`; `q` is what is there before the call. -/
structure QScan where
  state : QState := .start
  q : ℤ
  digits : ℕ := 1
  order : ℕ := 100

/-- The error for a character that does not go on. -/
def refuse (c : UInt8) : QError := if isDigit c then .tooBig else .invChar

/-- A digit behind the first one of the decimals. -/
def QScan.nextDigit (st : QScan) (c : UInt8) : QScan :=
  if st.digits ≤ 3 then
    { st with
      q := st.q + (digitVal c * st.order : ℕ)
      order := st.order / 10
      digits := st.digits + 1 }
  else st

/-- One turn of the loop of `str2q`. -/
def QScan.step (st : QScan) (c : UInt8) : Except QError QScan :=
  match st.state with
  | .start =>
    if isBlank c then .ok st
    else if c = '0'.toUInt8 then .ok { st with q := 0, state := .zero }
    else if c = '1'.toUInt8 then .ok { st with q := 1000, state := .one }
    else if c = '.'.toUInt8 then .ok { st with state := .zeroPt }
    else .error .invChar
  | .zero =>
    if c = '0'.toUInt8 then .ok st
    else if c = '.'.toUInt8 then .ok { st with state := .zeroPt }
    else if c = '1'.toUInt8 then .ok { st with q := 1000, state := .one }
    else .error (refuse c)
  | .one =>
    if c = '.'.toUInt8 then .ok { st with state := .onePt }
    else .error (refuse c)
  | .zeroPt =>
    if isDigit c then
      .ok { st with
        q := (digitVal c * st.order : ℕ)
        order := st.order / 10
        state := .zeroPtN }
    else .error .invChar
  | .onePt =>
    if c = '0'.toUInt8 then .ok { st with state := .onePtZero }
    else .error (refuse c)
  | .onePtZero => if c = '0'.toUInt8 then .ok st else .error (refuse c)
  | .zeroPtN => if isDigit c then .ok (st.nextDigit c) else .error .invChar

/-- The loop of `str2q`. -/
def scanQ : Bytes → QScan → Except QError QScan
  | [], st => .ok st
  | c :: s, st => (st.step c).bind (scanQ s)

/-- The switch behind the loop. -/
def QScan.finish (st : QScan) : Except QError ℤ :=
  match st.state with
  | .start => .error .empty
  | .zeroPt | .onePt => .error .decMissing
  | _ => .ok st.q

/-- `str2q`; `none` is the null pointer. -/
def str2q (q : Option ℤ) (s : Option Bytes) : Except QError ℤ :=
  match q, s with
  | some q, some s => (scanQ s { q := q }).bind QScan.finish
  | _, _ => .error .invalidParams

/-! ## Printing -/

def qUnspecified : ℤ := -1

def maxQ : ℤ := 1000

def minQ : ℤ := 0

def lenQ (q : ℤ) : ℕ :=
  if q = qUnspecified then 0
  else if maxQ ≤ q then 1
  else if q ≤ minQ then 1
  else if q % 100 = 0 then 3
  else if q % 10 = 0 then 4
  else 5

/-- `n + '0'` -/
def qDigit (n : ℕ) : UInt8 := UInt8.ofNat (n + 48)

/-- The decimals that `q2str` prints. -/
def qDecimals (n : ℕ) : Bytes :=
  qDigit (n / 100) ::
    if n % 100 = 0 then []
    else qDigit (n % 100 / 10) ::
      if n % 100 % 10 = 0 then [] else [qDigit (n % 100 % 10)]

def q2str (q : ℤ) : Bytes :=
  if q = qUnspecified then []
  else if maxQ ≤ q then ascii "1"
  else if q ≤ minQ then ascii "0"
  else ascii "0." ++ qDecimals q.toNat

/-! ## Decimal numbers -/

/-- The text is a decimal number, and its value is `n / 10 ^ k`: digits, or a
point between digits of which only the ones behind it have to be there. -/
inductive DecimalText : Bytes → ℕ → ℕ → Prop
  | int {ds : Bytes} (hne : ds ≠ []) (h : Digits ds) :
      DecimalText ds (decimal ds) 0
  | point {ds fs : Bytes} (hds : Digits ds) (hne : fs ≠ []) (hfs : Digits fs) :
      DecimalText (ds ++ '.'.toUInt8 :: fs) (decimal (ds ++ fs)) fs.length

/-- The text reads as `q`: behind blanks there is a decimal number that is not
greater than 1, and `q` is its thousandfold, rounded down. -/
def ReadsAs (s : Bytes) (q : ℤ) : Prop :=
  ∃ indent t n k, s = indent ++ t ∧ Blanks indent ∧ DecimalText t n k ∧
    n ≤ 10 ^ k ∧ q = (1000 * n / 10 ^ k : ℕ)

/-- A string of zeros. -/
def Zeros (s : Bytes) : Prop := ∀ c ∈ s, c = '0'.toUInt8

variable {c : UInt8} {s : Bytes} {n : ℕ}

theorem digitVal_lt (h : isDigit c = true) : digitVal c < 10 := by
  simp only [isDigit, Bool.and_eq_true, decide_eq_true_eq, UInt8.le_iff_toNat_le] at h
  have hle : c.toNat ≤ 57 := h.2
  rw [digitVal]
  omega

theorem digitVal_eq_zero (h : isDigit c = true) (h0 : digitVal c = 0) : c = '0'.toUInt8 := by
  simp only [isDigit, Bool.and_eq_true, decide_eq_true_eq, UInt8.le_iff_toNat_le] at h
  have hle : 48 ≤ c.toNat := h.1
  rw [digitVal] at h0
  apply UInt8.toNat_inj.mp
  change c.toNat = 48
  omega

theorem digitVal_eq_one (h : digitVal c = 1) : c = '1'.toUInt8 := by
  rw [digitVal] at h
  apply UInt8.toNat_inj.mp
  change c.toNat = 49
  omega

theorem decimal_lt {ds : Bytes} (h : Digits ds) : decimal ds < 10 ^ ds.length := by
  induction ds using List.reverseRecOn with
  | nil => simp [decimal]
  | append_singleton ds c ih =>
    obtain ⟨hds, hc⟩ := digits_concat.mp h
    have hlt := ih hds
    have hdigit := digitVal_lt hc
    rw [decimal_concat, List.length_append, length_singleton, pow_succ]
    omega

theorem Zeros.digits (h : Zeros s) : Digits s := by
  intro c hc
  rw [h c hc]
  decide

theorem Zeros.decimal (h : Zeros s) : decimal s = 0 := by
  induction s using List.reverseRecOn with
  | nil => rfl
  | append_singleton s c ih =>
    have hc : c = '0'.toUInt8 := h c (by simp)
    have hs : Zeros s := fun d hd => h d (by simp [hd])
    rw [decimal_concat, ih hs, hc]
    rfl

theorem zeros_of_decimal (h : Digits s) (h0 : Tcp.decimal s = 0) : Zeros s := by
  induction s using List.reverseRecOn with
  | nil => simp [Zeros]
  | append_singleton s c ih =>
    obtain ⟨hs, hc⟩ := digits_concat.mp h
    rw [decimal_concat] at h0
    intro d hd
    rcases mem_append.mp hd with hd | hd
    · exact ih hs (by omega) d hd
    · rw [mem_singleton.mp hd]
      exact digitVal_eq_zero hc (by omega)

theorem one_of_decimal (h : Digits s) (h1 : Tcp.decimal s = 1) :
    ∃ zs, s = zs ++ ['1'.toUInt8] ∧ Zeros zs := by
  rcases eq_nil_or_concat s with rfl | ⟨zs, c, rfl⟩
  · simp [Tcp.decimal] at h1
  · rw [concat_eq_append] at h h1 ⊢
    obtain ⟨hs, hc⟩ := digits_concat.mp h
    rw [decimal_concat] at h1
    have hone : digitVal c = 1 := by omega
    rw [digitVal_eq_one hone]
    exact ⟨zs, rfl, zeros_of_decimal hs (by omega)⟩

/-! ## What the automaton has read -/

/-- The decimals `ds` are in `q`, `order` and `digits`. -/
structure QScan.Decimals (st : QScan) (ds : Bytes) : Prop where
  q : st.q = (1000 * decimal ds / 10 ^ ds.length : ℕ)
  order : st.order = 100 / 10 ^ ds.length
  digits : st.digits = min ds.length 4

/-- Behind the third decimal nothing changes. -/
theorem thousandfold_concat {d : ℕ} (n m : ℕ) (hd : d < 10) :
    1000 * n / 10 ^ (m + 3) = 1000 * (n * 10 + d) / 10 ^ (m + 3 + 1) := by
  have hleft : (10 : ℕ) ^ (m + 3) = 1000 * 10 ^ m := by
    rw [pow_add, mul_comm]
    norm_num
  have hright : (10 : ℕ) ^ (m + 3 + 1) = 1000 * (10 * 10 ^ m) := by
    rw [pow_succ, hleft]
    ring
  have hshift : (n * 10 + d) / 10 = n := by omega
  rw [hleft, hright, Nat.mul_div_mul_left _ _ (by decide),
    Nat.mul_div_mul_left _ _ (by decide), ← Nat.div_div_eq_div_mul, hshift]

theorem QScan.Decimals.nextDigit {st : QScan} {ds : Bytes}
    (h : st.Decimals ds) (hne : ds ≠ []) (hc : isDigit c = true) :
    (st.nextDigit c).Decimals (ds ++ [c]) := by
  obtain ⟨hq, horder, hdigits⟩ := h
  have hdigit := digitVal_lt hc
  have hlen : 0 < ds.length := length_pos_iff.mpr hne
  have hlen' : (ds ++ [c]).length = ds.length + 1 := by simp
  by_cases hle : st.digits ≤ 3
  · rw [QScan.nextDigit, if_pos hle]
    have hcases : ds.length = 1 ∨ ds.length = 2 ∨ ds.length = 3 := by omega
    constructor
    · rw [hlen', decimal_concat]
      dsimp only
      rw [hq, horder]
      rcases hcases with hl | hl | hl <;> rw [hl] <;> push_cast <;> omega
    · rw [hlen', pow_succ, ← Nat.div_div_eq_div_mul, ← horder]
    · rw [hlen']
      dsimp only
      omega
  · rw [QScan.nextDigit, if_neg hle]
    obtain ⟨m, hm⟩ : ∃ m, ds.length = m + 3 := ⟨ds.length - 3, by omega⟩
    constructor
    · rw [hlen', decimal_concat, hq, hm, thousandfold_concat _ m hdigit]
    · have hpow : (10 : ℕ) ^ 3 ≤ 10 ^ (m + 3) :=
        Nat.pow_le_pow_right (by decide) (by omega)
      rw [hlen', pow_succ, ← Nat.div_div_eq_div_mul, horder, hm, Nat.div_eq_of_lt (by omega)]
    · rw [hlen', hdigits]
      omega

/-- The text that was read to get into each state. -/
inductive QScan.Read : QScan → Bytes → Prop
  | start {q : ℤ} {indent : Bytes} (hi : Blanks indent) : Read { q := q } indent
  | zero {indent zs : Bytes} (hi : Blanks indent) (hz : Zeros zs)
      (hne : zs ≠ []) : Read { state := .zero, q := 0 } (indent ++ zs)
  | one {indent zs : Bytes} (hi : Blanks indent) (hz : Zeros zs) :
      Read { state := .one, q := 1000 } (indent ++ (zs ++ ['1'.toUInt8]))
  | zeroPt {q : ℤ} {indent zs : Bytes} (hi : Blanks indent) (hz : Zeros zs) :
      Read { state := .zeroPt, q := q } (indent ++ (zs ++ ['.'.toUInt8]))
  | onePt {indent zs : Bytes} (hi : Blanks indent) (hz : Zeros zs) :
      Read { state := .onePt, q := 1000 }
        (indent ++ (zs ++ ['1'.toUInt8, '.'.toUInt8]))
  | onePtZero {indent zs fs : Bytes} (hi : Blanks indent) (hz : Zeros zs)
      (hf : Zeros fs) (hne : fs ≠ []) :
      Read { state := .onePtZero, q := 1000 }
        (indent ++ (zs ++ '1'.toUInt8 :: '.'.toUInt8 :: fs))
  | zeroPtN {st : QScan} {indent zs fs : Bytes} (hi : Blanks indent)
      (hz : Zeros zs) (hf : Digits fs) (hne : fs ≠ [])
      (hstate : st.state = .zeroPtN) (h : st.Decimals fs) :
      Read st (indent ++ (zs ++ '.'.toUInt8 :: fs))

theorem Zeros.concat (h : Zeros s) : Zeros (s ++ ['0'.toUInt8]) := by
  intro c hc
  rcases mem_append.mp hc with hc | hc
  · exact h c hc
  · exact mem_singleton.mp hc

theorem firstDecimal (c : UInt8) : QScan.Decimals
      { state := .zeroPtN
        q := (digitVal c * 100 : ℕ)
        order := 100 / 10 } [c] := by
  have hval : decimal [c] = digitVal c := by simp [decimal]
  constructor
  · dsimp only
    rw [hval, length_singleton]
    omega
  · rfl
  · rfl

section Steps

variable {st st' : QScan} {done : Bytes} {c : UInt8}

theorem QScan.Read.step (h : st.Read done) (hstep : st.step c = .ok st') :
    st'.Read (done ++ [c]) := by
  cases h with
  | start hi =>
    simp only [QScan.step] at hstep
    split_ifs at hstep with hblank h0 h1 hpt
    · obtain rfl := Except.ok.inj hstep
      exact .start (blanks_concat.mpr ⟨hi, hblank⟩)
    · obtain rfl := Except.ok.inj hstep
      exact .zero hi (by simp [Zeros, h0]) (by simp)
    · obtain rfl := Except.ok.inj hstep
      rw [h1]
      exact @QScan.Read.one _ [] hi (by simp [Zeros])
    · obtain rfl := Except.ok.inj hstep
      rw [hpt]
      exact @QScan.Read.zeroPt _ _ [] hi (by simp [Zeros])
  | zero hi hz hne =>
    simp only [QScan.step] at hstep
    split_ifs at hstep with h0 hpt h1
    · obtain rfl := Except.ok.inj hstep
      rw [h0, append_assoc]
      exact .zero hi hz.concat (by simp)
    · obtain rfl := Except.ok.inj hstep
      rw [hpt, append_assoc]
      exact .zeroPt hi hz
    · obtain rfl := Except.ok.inj hstep
      rw [h1, append_assoc]
      exact .one hi hz
  | one hi hz =>
    simp only [QScan.step] at hstep
    split_ifs at hstep with hpt
    obtain rfl := Except.ok.inj hstep
    rw [hpt, append_assoc, append_assoc]
    exact .onePt hi hz
  | zeroPt hi hz =>
    simp only [QScan.step] at hstep
    split_ifs at hstep with hdigit
    obtain rfl := Except.ok.inj hstep
    rw [append_assoc, append_assoc]
    exact .zeroPtN hi hz (by simp [Digits, hdigit]) (by simp) rfl (firstDecimal c)
  | onePt hi hz =>
    simp only [QScan.step] at hstep
    split_ifs at hstep with h0
    obtain rfl := Except.ok.inj hstep
    rw [append_assoc, append_assoc]
    exact .onePtZero hi hz (by simp [Zeros, h0]) (by simp)
  | onePtZero hi hz hf hne =>
    simp only [QScan.step] at hstep
    split_ifs at hstep with h0
    obtain rfl := Except.ok.inj hstep
    rw [h0, append_assoc, append_assoc]
    exact .onePtZero hi hz hf.concat (by simp)
  | zeroPtN hi hz hf hne hstate h =>
    simp only [QScan.step, hstate] at hstep
    split_ifs at hstep with hdigit
    obtain rfl := Except.ok.inj hstep
    rw [append_assoc, append_assoc]
    have hstate' : (st.nextDigit c).state = .zeroPtN := by
      unfold QScan.nextDigit
      split_ifs <;> exact hstate
    exact .zeroPtN hi hz (digits_concat.mpr ⟨hf, hdigit⟩) (by simp) hstate' (h.nextDigit hne hdigit)

theorem QScan.Read.scan {s : Bytes} (h : st.Read done)
    (hscan : scanQ s st = .ok st') : st'.Read (done ++ s) := by
  induction s generalizing st done with
  | nil =>
    obtain rfl := Except.ok.inj hscan
    simpa using h
  | cons c s ih =>
    rw [scanQ] at hscan
    cases hstep : st.step c with
    | error e =>
      rw [hstep] at hscan
      cases hscan
    | ok st₁ =>
      rw [hstep] at hscan
      simpa using ih (h.step hstep) hscan

end Steps

/-- What is accepted reads as the value that is returned. -/
theorem QScan.Read.readsAs {st : QScan} {q : ℤ} (h : st.Read s)
    (hfinish : st.finish = .ok q) : ReadsAs s q := by
  cases h with
  | start hi => cases hfinish
  | zeroPt hi hz => cases hfinish
  | onePt hi hz => cases hfinish
  | zero hi hz hne =>
    obtain rfl := Except.ok.inj hfinish
    refine ⟨_, _, _, _, rfl, hi, .int hne hz.digits, ?_, ?_⟩
    · rw [hz.decimal]
      decide
    · rw [hz.decimal]
      rfl
  | @one indent zs hi hz =>
    obtain rfl := Except.ok.inj hfinish
    have hone : decimal (zs ++ ['1'.toUInt8]) = 1 := by
      rw [decimal_concat, hz.decimal]
      rfl
    refine ⟨_, _, _, _, rfl, hi, .int (by simp) (digits_concat.mpr ⟨hz.digits, by decide⟩), ?_, ?_⟩
    · rw [hone]
      decide
    · rw [hone]
      rfl
  | @onePtZero indent zs fs hi hz hf hne =>
    obtain rfl := Except.ok.inj hfinish
    have hone : decimal ((zs ++ ['1'.toUInt8]) ++ fs) = 10 ^ fs.length := by
      rw [decimal_append, decimal_concat, hz.decimal, hf.decimal]
      change (0 * 10 + 1) * 10 ^ fs.length + 0 = 10 ^ fs.length
      omega
    have htext := DecimalText.point
      (digits_concat.mpr ⟨hz.digits, (by decide : isDigit '1'.toUInt8 = true)⟩)
      hne hf.digits
    rw [append_assoc, singleton_append] at htext
    refine ⟨_, _, _, _, rfl, hi, htext, ?_, ?_⟩
    · rw [hone]
    · rw [hone, Nat.mul_div_cancel _ (Nat.pow_pos (by decide))]
      rfl
  | @zeroPtN _ indent zs fs hi hz hf hne hstate h =>
    have hq : st.q = q := by
      simp only [QScan.finish, hstate] at hfinish
      exact Except.ok.inj hfinish
    have hvalue : decimal (zs ++ fs) = decimal fs := by
      rw [decimal_append, hz.decimal]
      omega
    refine ⟨_, _, _, _, rfl, hi, .point hz.digits hne hf, ?_, ?_⟩
    · rw [hvalue]
      exact (decimal_lt hf).le
    · rw [hvalue, ← hq, h.q]

/-! ## What the automaton accepts -/

section Forward

variable {q : ℤ} {zs fs indent s : Bytes}

theorem scanQ_indent (h : Blanks indent) : scanQ (indent ++ s) { q := q } = scanQ s { q := q } := by
  induction indent with
  | nil => rfl
  | cons c indent ih =>
    obtain ⟨hc, hindent⟩ := forall_mem_cons.mp h
    simp only [cons_append, scanQ, QScan.step, hc, if_true]
    exact ih hindent

theorem scanQ_zeros (h : Zeros zs) : scanQ (zs ++ s) { state := .zero, q := 0 } =
      scanQ s { state := .zero, q := 0 } := by
  induction zs with
  | nil => rfl
  | cons c zs ih =>
    obtain ⟨hc, hzs⟩ := forall_mem_cons.mp h
    simp only [cons_append, scanQ, QScan.step, hc, if_true]
    exact ih hzs

/-- Behind the zeros in front of the point. -/
def QScan.AtZeros (st : QScan) (q : ℤ) (zs : Bytes) : Prop :=
  zs = [] ∧ st = { q := q } ∨ zs ≠ [] ∧ st = { state := .zero, q := 0 }

theorem scanQ_start (q : ℤ) (h : Zeros zs) (s : Bytes) : ∃ st : QScan, st.AtZeros q zs ∧
      scanQ (zs ++ s) { q := q } = scanQ s st := by
  cases zs with
  | nil => exact ⟨_, .inl ⟨rfl, rfl⟩, rfl⟩
  | cons c zs =>
    obtain ⟨hc, hzs⟩ := forall_mem_cons.mp h
    refine ⟨_, .inr ⟨by simp, rfl⟩, ?_⟩
    rw [← scanQ_zeros hzs, hc]
    rfl

theorem QScan.AtZeros.one {st : QScan} (h : st.AtZeros q zs) :
    st.step '1'.toUInt8 = .ok { state := .one, q := 1000 } := by
  rcases h with ⟨-, rfl⟩ | ⟨-, rfl⟩ <;> rfl

theorem QScan.AtZeros.point {st : QScan} (h : st.AtZeros q zs) :
    ∃ q', st.step '.'.toUInt8 = .ok { state := .zeroPt, q := q' } := by
  rcases h with ⟨-, rfl⟩ | ⟨-, rfl⟩ <;> exact ⟨_, rfl⟩

theorem scanQ_onePtZero (h : Zeros fs) : scanQ fs { state := .onePtZero, q := 1000 } =
      .ok { state := .onePtZero, q := 1000 } := by
  induction fs with
  | nil => rfl
  | cons c fs ih =>
    obtain ⟨hc, hfs⟩ := forall_mem_cons.mp h
    simp only [scanQ, QScan.step, hc, if_true]
    exact ih hfs

theorem scanQ_decimals {st : QScan} {before : Bytes}
    (hstate : st.state = .zeroPtN) (h : st.Decimals before)
    (hne : before ≠ []) (hfs : Digits fs) :
    ∃ st', scanQ fs st = .ok st' ∧ st'.state = .zeroPtN ∧ st'.Decimals (before ++ fs) := by
  induction fs generalizing st before with
  | nil => exact ⟨st, rfl, hstate, by simpa using h⟩
  | cons c fs ih =>
    obtain ⟨hc, hfs⟩ := forall_mem_cons.mp hfs
    have hstate' : (st.nextDigit c).state = .zeroPtN := by
      unfold QScan.nextDigit
      split_ifs <;> exact hstate
    obtain ⟨st', hscan, hend, hdecimals⟩ :=
      ih hstate' (h.nextDigit hne hc) (by simp) hfs
    refine ⟨st', ?_, hend, by simpa using hdecimals⟩
    simp only [scanQ, QScan.step, hstate, if_pos hc]
    exact hscan

theorem scanQ_point (hne : fs ≠ []) (hfs : Digits fs) :
    (scanQ fs { state := .zeroPt, q := q }).bind QScan.finish =
      .ok ((1000 * decimal fs / 10 ^ fs.length : ℕ) : ℤ) := by
  cases fs with
  | nil => exact absurd rfl hne
  | cons c fs =>
    obtain ⟨hc, hfs⟩ := forall_mem_cons.mp hfs
    obtain ⟨st', hscan, hend, hdecimals⟩ :=
      scanQ_decimals rfl (firstDecimal c) (by simp) hfs
    have hq := hdecimals.q
    rw [singleton_append] at hq
    simp only [scanQ, QScan.step, if_pos hc]
    change (scanQ fs _).bind QScan.finish = _
    rw [hscan, ← hq]
    simp [Except.bind, QScan.finish, hend]

theorem scanQ_int (q : ℤ) (hne : s ≠ []) (h : Digits s) (hle : decimal s ≤ 1) :
    (scanQ s { q := q }).bind QScan.finish =
      .ok ((1000 * decimal s : ℕ) : ℤ) := by
  have hcases : decimal s = 0 ∨ decimal s = 1 := by omega
  rcases hcases with h0 | h1
  · obtain ⟨st, hst, hscan⟩ := scanQ_start q (zeros_of_decimal h h0) []
    rw [append_nil] at hscan
    obtain ⟨rfl, -⟩ | ⟨-, rfl⟩ := hst
    · exact absurd rfl hne
    · rw [hscan, h0]
      rfl
  · obtain ⟨zs, rfl, hzs⟩ := one_of_decimal h h1
    obtain ⟨st, hst, hscan⟩ := scanQ_start q hzs ['1'.toUInt8]
    rw [hscan, h1, scanQ, hst.one]
    rfl

theorem scanQ_fraction (q : ℤ) {ds : Bytes} (hds : Digits ds) (hne : fs ≠ [])
    (hfs : Digits fs) (hle : decimal (ds ++ fs) ≤ 10 ^ fs.length) :
    (scanQ (ds ++ '.'.toUInt8 :: fs) { q := q }).bind QScan.finish =
      .ok ((1000 * decimal (ds ++ fs) / 10 ^ fs.length : ℕ) : ℤ) := by
  have hpow : 0 < 10 ^ fs.length := Nat.pow_pos (by decide)
  rw [decimal_append] at hle ⊢
  have hcases : decimal ds = 0 ∨ decimal ds = 1 := by
    by_contra hcases
    have htwo : 2 ≤ decimal ds := by omega
    have hmul := Nat.mul_le_mul_right (10 ^ fs.length) htwo
    omega
  rcases hcases with h0 | h1
  · obtain ⟨st, hst, hscan⟩ :=
      scanQ_start q (zeros_of_decimal hds h0) ('.'.toUInt8 :: fs)
    obtain ⟨q', hpoint⟩ := hst.point
    rw [hscan, scanQ, hpoint, h0, Nat.zero_mul, Nat.zero_add]
    exact scanQ_point hne hfs
  · rw [h1, Nat.one_mul] at hle ⊢
    have hzero : decimal fs = 0 := by omega
    have hzeros := zeros_of_decimal hfs hzero
    obtain ⟨zs, rfl, hzs⟩ := one_of_decimal hds h1
    obtain ⟨st, hst, hscan⟩ :=
      scanQ_start q hzs ('1'.toUInt8 :: '.'.toUInt8 :: fs)
    have htail : scanQ ('.'.toUInt8 :: fs) { state := .one, q := 1000 } =
        .ok { state := .onePtZero, q := 1000 } := by
      cases fs with
      | nil => exact absurd rfl hne
      | cons c fs =>
        obtain ⟨hc, hfs⟩ := forall_mem_cons.mp hzeros
        rw [hc]
        exact scanQ_onePtZero hfs
    rw [append_assoc, singleton_append, hscan, scanQ, hst.one]
    change (scanQ _ _).bind QScan.finish = _
    rw [htail, hzero, Nat.add_zero, Nat.mul_div_cancel _ hpow]
    rfl

end Forward

/-- `str2q` accepts the decimal numbers up to 1 behind blanks, and rounds them
down to thousandths. -/
theorem str2q_ok_iff (q₀ : ℤ) (s : Bytes) (q : ℤ) :
    str2q (some q₀) (some s) = .ok q ↔ ReadsAs s q := by
  constructor
  · intro h
    rw [str2q] at h
    cases hscan : scanQ s { q := q₀ } with
    | error e =>
      rw [hscan] at h
      cases h
    | ok st =>
      rw [hscan] at h
      have hstart : QScan.Read { q := q₀ } [] := .start (by simp [Blanks])
      exact (hstart.scan hscan).readsAs h
  · rintro ⟨indent, t, n, k, rfl, hindent, htext, hle, rfl⟩
    rw [str2q, scanQ_indent hindent]
    cases htext with
    | int hne h => simpa using scanQ_int q₀ hne h (by simpa using hle)
    | point hds hne hfs => exact scanQ_fraction q₀ hds hne hfs hle

/-! ## What is printed reads back -/

theorem isDigit_qDigit (h : n < 10) : isDigit (qDigit n) = true := by
  have hall : ∀ n < 10, isDigit (qDigit n) = true := by decide
  exact hall n h

theorem digitVal_qDigit (h : n < 10) : digitVal (qDigit n) = n := by
  have hall : ∀ n < 10, digitVal (qDigit n) = n := by decide
  exact hall n h

theorem qDecimals_value (h : n < 1000) : Digits (qDecimals n) ∧ qDecimals n ≠ [] ∧
      1000 * decimal (qDecimals n) = n * 10 ^ (qDecimals n).length ∧
      (qDecimals n).length =
        if n % 100 = 0 then 1 else if n % 10 = 0 then 2 else 3 := by
  have hfirst : n / 100 < 10 := by omega
  have hsecond : n % 100 / 10 < 10 := by omega
  have hthird : n % 100 % 10 < 10 := by omega
  have hten : n % 100 % 10 = n % 10 := by omega
  rw [qDecimals, hten]
  split_ifs with h100 h10
  · refine ⟨by simp [Digits, isDigit_qDigit hfirst], by simp, ?_, rfl⟩
    simp only [decimal, foldl_cons, foldl_nil, digitVal_qDigit hfirst, length_singleton]
    omega
  · refine ⟨by simp [Digits, isDigit_qDigit hfirst, isDigit_qDigit hsecond], by simp, ?_, rfl⟩
    simp only [decimal, foldl_cons, foldl_nil,
      digitVal_qDigit hfirst, digitVal_qDigit hsecond, length_cons,
      length_nil]
    omega
  · rw [hten] at hthird
    refine ⟨by simp [Digits, isDigit_qDigit hfirst, isDigit_qDigit hsecond,
      isDigit_qDigit hthird], by simp, ?_, rfl⟩
    simp only [decimal, foldl_cons, foldl_nil, digitVal_qDigit hfirst, digitVal_qDigit hsecond,
      digitVal_qDigit hthird, length_cons, length_nil]
    omega

theorem length_q2str (q : ℤ) : (q2str q).length = lenQ q := by
  unfold q2str lenQ
  split_ifs with hunspec hmax hmin h100 h10
  · rfl
  · rfl
  · rfl
  all_goals
    simp only [qUnspecified, maxQ, minQ] at hunspec hmax hmin
    obtain ⟨n, rfl⟩ : ∃ n : ℕ, q = n := ⟨q.toNat, by omega⟩
    have hlen := (qDecimals_value (n := n) (by omega)).2.2.2
    rw [Int.toNat_natCast, List.length_append, hlen]
    split_ifs <;> first | rfl | omega

theorem thousandfold_extra (hn : n < 1000) {extra : Bytes} (hextra : Digits extra)
    (hthree : extra = [] ∨ (qDecimals n).length = 3) :
    1000 * decimal (qDecimals n ++ extra) / 10 ^ (qDecimals n ++ extra).length = n := by
  obtain ⟨-, -, hvalue, -⟩ := qDecimals_value hn
  generalize hds : qDecimals n = ds at *
  have hsplit : 1000 * decimal (ds ++ extra) =
      1000 * decimal extra + n * 10 ^ (ds ++ extra).length := by
    rw [decimal_append, List.length_append, pow_add, Nat.mul_add, ← Nat.mul_assoc, hvalue]
    ring
  have hpow : 0 < 10 ^ (ds ++ extra).length := Nat.pow_pos (by decide)
  have hrest : 1000 * decimal extra < 10 ^ (ds ++ extra).length := by
    rcases hthree with rfl | h3
    · exact hpow
    · have hlt := decimal_lt hextra
      rw [List.length_append, h3, pow_add]
      omega
  rw [hsplit, Nat.add_mul_div_right _ _ hpow, Nat.div_eq_of_lt hrest, Nat.zero_add]

/-- A printed q is the decimal number of so many thousandths, also with more
digits behind three decimals. -/
theorem decimalText_q2str {q : ℤ} (h0 : 0 ≤ q) (h1000 : q ≤ 1000)
    {extra : Bytes} (hextra : Digits extra)
    (hthree : extra = [] ∨ lenQ q = 5) :
    ∃ n k, DecimalText (q2str q ++ extra) n k ∧ n ≤ 10 ^ k ∧ q = (1000 * n / 10 ^ k : ℕ) := by
  by_cases hmax : q = 1000
  · subst hmax
    obtain rfl := hthree.resolve_right (by decide)
    have hone : DecimalText (ascii "1") (decimal (ascii "1")) 0 :=
      .int (by decide) (List.all_eq_true.mp (by decide))
    exact ⟨_, _, hone, by decide, by decide⟩
  by_cases hmin : q = 0
  · subst hmin
    obtain rfl := hthree.resolve_right (by decide)
    have hzero : DecimalText (ascii "0") (decimal (ascii "0")) 0 :=
      .int (by decide) (List.all_eq_true.mp (by decide))
    exact ⟨_, _, hzero, by decide, by decide⟩
  obtain ⟨n, rfl⟩ : ∃ n : ℕ, q = n := ⟨q.toNat, by omega⟩
  obtain ⟨hdigits, hne, -, -⟩ := qDecimals_value (n := n) (by omega)
  have htext : q2str n = ascii "0." ++ qDecimals n := by
    rw [q2str, if_neg, if_neg, if_neg, Int.toNat_natCast]
    · simp only [minQ]
      omega
    · simp only [maxQ]
      omega
    · simp only [qUnspecified]
      omega
  have hthree' : extra = [] ∨ (qDecimals n).length = 3 := by
    refine hthree.imp_right fun h => ?_
    rw [← length_q2str, htext, List.length_append] at h
    have hlen : (ascii "0.").length = 2 := rfl
    omega
  have hall : Digits (qDecimals n ++ extra) := by
    intro c hc
    rcases mem_append.mp hc with hc | hc
    · exact hdigits c hc
    · exact hextra c hc
  have hzero : Zeros ['0'.toUInt8] := by simp [Zeros]
  have hvalue : decimal (['0'.toUInt8] ++ (qDecimals n ++ extra)) =
      decimal (qDecimals n ++ extra) := by
    rw [decimal_append, hzero.decimal, Nat.zero_mul, Nat.zero_add]
  refine ⟨decimal (['0'.toUInt8] ++ (qDecimals n ++ extra)),
    (qDecimals n ++ extra).length, ?_, ?_, ?_⟩
  · rw [htext, append_assoc]
    exact .point hzero.digits (by simp [hne]) hall
  · rw [hvalue]
    exact (decimal_lt hall).le
  · rw [hvalue, thousandfold_extra (by omega) hextra hthree']

/-- `str2q` accepts exactly the decimal numbers up to 1 behind blanks and
rounds them down to thousandths; it reads back what `q2str` prints. -/
theorem str2q_q2str : (∀ (q₀ : ℤ) (s : Bytes) (q : ℤ),
      str2q (some q₀) (some s) = .ok q ↔ ReadsAs s q) ∧
    ∀ (q₀ q : ℤ), 0 ≤ q → q ≤ 1000 → (q2str q).length = lenQ q ∧
      ∀ indent extra : Bytes, Blanks indent → Digits extra → extra = [] ∨ lenQ q = 5 →
        str2q (some q₀) (some (indent ++ (q2str q ++ extra))) = .ok q := by
  refine ⟨str2q_ok_iff, fun q₀ q h0 h1000 => ⟨length_q2str q, ?_⟩⟩
  intro indent extra hindent hextra hthree
  obtain ⟨n, k, htext, hle, hq⟩ :=
    decimalText_q2str h0 h1000 hextra hthree
  exact (str2q_ok_iff q₀ _ q).mpr ⟨indent, _, n, k, rfl, hindent, htext, hle, hq⟩

theorem str2q_q2str_123 : str2q (some 0) (some ([32] ++ (q2str 123 ++ ascii "45"))) = .ok 123 :=
  (str2q_q2str.2 0 123 (by decide) (by decide)).2 [32] (ascii "45")
    (by simp [Blanks, isBlank]) (List.all_eq_true.mp (by decide))
    (.inr (by decide))

/-- White space behind the number is refused. -/
theorem str2q_trailing_blank : ¬∀ (q₀ q : ℤ) (indent after : Bytes), 0 ≤ q → q ≤ 1000 →
      Blanks indent → Blanks after →
      str2q (some q₀) (some (indent ++ (q2str q ++ after))) = .ok q := by
  intro h
  have hok := h 0 500 [] [32] (by decide) (by decide) (by simp [Blanks]) (by simp [Blanks, isBlank])
  have herror : str2q (some 0) (some ([] ++ (q2str 500 ++ [32]))) = .error .invChar := by
    decide
  rw [herror] at hok
  cases hok

end Msicp.Registrar
