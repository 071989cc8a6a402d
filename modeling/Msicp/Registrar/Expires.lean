import Msicp.Dialog.Dlg
import Msicp.Registrar.Save

/-!
# The time a contact asks for

The time comes as digits, in the expires parameter of the contact or in the
Expires header field of the request.  The digits are read into 32 bits, limited
and added to the current time.
-/

namespace Msicp.Registrar

open Msicp.Support (Bytes)
open Msicp.Dialog (isSpace trimLeading)
open Msicp.Tcp (toInt isDigit digitVal decimal decimal_concat)

/-! ## Reading the digits -/

/-- The loop of `str2int`, with what it has read; the number is unsigned. -/
def str2intLoop (r : ℕ) : Bytes → Option ℕ
  | [] => some r
  | c :: s =>
    if isDigit c then
      str2intLoop ((r * 10 % 2 ^ 32 + digitVal c) % 2 ^ 32) s
    else none

def str2int (s : Bytes) : Option ℕ := str2intLoop 0 s

/-- What `calc_contact_expires` makes of the body of an expires parameter. -/
def paramExpires (body : Bytes) : Option (Option ℕ) :=
  if body.isEmpty then none else some (str2int body)

/-- The loop of `expires_parser`; `none` is a value that is not valid. -/
def expiresLoop (val : ℤ) : Bytes → Option ℤ
  | [] => some val
  | c :: s =>
    if isDigit c then expiresLoop (toInt (toInt (val * 10) + digitVal c)) s
    else if isSpace c then some val
    else none

/-- `expires_parser`; an outer `none` is an error. -/
def expiresParser (body : Bytes) : Option (Option ℤ) :=
  if (trimLeading body).isEmpty then none
  else some (expiresLoop 0 (trimLeading body))

/-- Behind the digits of a header field there is nothing, or white space. -/
def Ends (tail : Bytes) : Prop := ∀ c ∈ tail.head?, isSpace c = true

/-- The contact asks for the time that the digits say, in its expires parameter
or, without one, in the Expires header field of the request. -/
inductive Asks (m : Request) (c : ContactT) (digits : Bytes) : Prop
  | param (h : c.expires = paramExpires digits)
  | header {body tail : Bytes} (hparam : c.expires = none)
      (hbody : trimLeading body = digits ++ tail) (htail : Ends tail)
      (h : m.expires = expiresParser body)

/-- A decimal string. -/
def IsDecimal (digits : Bytes) : Prop :=
  digits ≠ [] ∧ ∀ c ∈ digits, isDigit c = true

theorem not_isDigit_of_isSpace {c : UInt8} (h : isSpace c = true) : isDigit c = false := by
  simp only [isSpace, Bool.or_eq_true, decide_eq_true_eq] at h
  rcases h with ((rfl | rfl) | rfl) | rfl <;> decide

section Digits

variable {digits : Bytes}

theorem str2intLoop_digits (before : Bytes) (h : ∀ c ∈ digits, isDigit c = true) :
    str2intLoop (decimal before % 2 ^ 32) digits = some (decimal (before ++ digits) % 2 ^ 32) := by
  induction digits generalizing before with
  | nil => simp [str2intLoop]
  | cons c s ih =>
    rw [List.forall_mem_cons] at h
    have hstep : (decimal before % 2 ^ 32 * 10 % 2 ^ 32 + digitVal c) % 2 ^ 32 =
        decimal (before ++ [c]) % 2 ^ 32 := by
      rw [decimal_concat]
      omega
    rw [str2intLoop, if_pos h.1, hstep, ih (before ++ [c]) h.2]
    simp

theorem str2int_digits (h : ∀ c ∈ digits, isDigit c = true) :
    str2int digits = some (decimal digits % 2 ^ 32) :=
  str2intLoop_digits [] h

theorem toInt_step (x : ℕ) (c : UInt8) : toInt (toInt (toInt x * 10) + digitVal c) =
      toInt ((x * 10 + digitVal c : ℕ) : ℤ) := by
  push_cast
  simp only [toInt]
  rw [Int.bmod_add_bmod, ← Int.bmod_add_bmod, Int.bmod_mul_bmod, Int.bmod_add_bmod]

theorem expiresLoop_digits (before : Bytes) {tail : Bytes}
    (h : ∀ c ∈ digits, isDigit c = true) (htail : Ends tail) :
    expiresLoop (toInt (decimal before)) (digits ++ tail) =
      some (toInt (decimal (before ++ digits))) := by
  induction digits generalizing before with
  | nil =>
    cases tail with
    | nil => simp [expiresLoop]
    | cons c tail =>
      have hspace : isSpace c = true := htail c rfl
      simp [expiresLoop, hspace, not_isDigit_of_isSpace hspace]
  | cons c s ih =>
    rw [List.forall_mem_cons] at h
    rw [List.cons_append, expiresLoop, if_pos h.1, toInt_step,
      ← decimal_concat, ih (before ++ [c]) h.2]
    simp

theorem expiresParser_digits {body tail : Bytes} (h : IsDecimal digits)
    (hbody : trimLeading body = digits ++ tail) (htail : Ends tail) :
    expiresParser body = some (some (toInt (decimal digits))) := by
  have hloop := expiresLoop_digits [] h.2 htail
  rw [expiresParser, hbody, if_neg (by simp [h.1])]
  exact congrArg some hloop

end Digits

/-! ## From the digits to a time -/

/-- The two limits at the end of `calc_contact_expires`. -/
def limited (par : Params) (actTime : ℕ) (e : ℤ) : ℤ :=
  let e := if e ≠ 0 ∧ e - actTime < par.minExpires then
    toInt (par.minExpires + actTime) else e
  if e ≠ 0 ∧ par.maxExpires ≠ 0 ∧ e - actTime > par.maxExpires then
    toInt (par.maxExpires + actTime) else e

/-- The time asked for, added to the current time on 32 bits. -/
def added (actTime v : ℕ) : ℤ :=
  if 2 ^ 32 ∣ v then 0 else toInt (actTime + v)

theorem toInt_eq (x : ℤ) : ∃ k, toInt x = x + 2 ^ 32 * k := by
  refine ⟨toInt x / 2 ^ 32 - x / 2 ^ 32, ?_⟩
  have hmod : toInt x % 2 ^ 32 = x % 2 ^ 32 := Int.bmod_emod
  omega

theorem toInt_bounds (x : ℤ) : -2 ^ 31 ≤ toInt x ∧ toInt x < 2 ^ 31 := by
  have hle : -(((2 ^ 32 : ℕ) : ℤ) / 2) ≤ x.bmod (2 ^ 32) :=
    Int.le_bmod (by decide)
  have hlt : x.bmod (2 ^ 32) < (((2 ^ 32 : ℕ) : ℤ) + 1) / 2 :=
    Int.bmod_lt (by decide)
  rw [toInt]
  omega

theorem toInt_of_bounds {x : ℤ} (h : -2 ^ 31 ≤ x ∧ x < 2 ^ 31) : toInt x = x := by
  obtain ⟨k, hk⟩ := toInt_eq x
  have hbounds := toInt_bounds x
  omega

theorem toInt_eq_zero {x : ℤ} : toInt x = 0 ↔ 2 ^ 32 ∣ x := by
  obtain ⟨k, hk⟩ := toInt_eq x
  have hbounds := toInt_bounds x
  omega

section Sum

variable {par : Params} {actTime : ℕ} {m : Request} {c : ContactT}
variable {digits : Bytes}

theorem sum_param (v : ℕ) : (if toInt ((v % 2 ^ 32 : ℕ) : ℤ) ≠ 0 then
      toInt (toInt ((v % 2 ^ 32 : ℕ) : ℤ) + actTime) else 0) =
      added actTime v := by
  obtain ⟨k, hk⟩ := toInt_eq ((v % 2 ^ 32 : ℕ) : ℤ)
  obtain ⟨l, hl⟩ := toInt_eq (toInt ((v % 2 ^ 32 : ℕ) : ℤ) + actTime)
  obtain ⟨n, hn⟩ := toInt_eq ((actTime : ℤ) + v)
  have hl' := toInt_bounds (toInt ((v % 2 ^ 32 : ℕ) : ℤ) + actTime)
  have hn' := toInt_bounds ((actTime : ℤ) + v)
  have hzero := toInt_eq_zero (x := ((v % 2 ^ 32 : ℕ) : ℤ))
  rw [added]
  by_cases hv : 2 ^ 32 ∣ v
  · rw [if_pos hv, if_neg (by omega)]
  · rw [if_neg hv, if_pos (by omega)]
    omega

theorem sum_header (v : ℕ) : (if toInt (v : ℤ) ≠ 0 then toInt (toInt (v : ℤ) + actTime) else 0) =
      added actTime v := by
  have hsum : toInt (toInt (v : ℤ) + actTime) = toInt (actTime + v) := by
    simp only [toInt]
    rw [Int.bmod_add_bmod, add_comm]
  have hzero := toInt_eq_zero (x := (v : ℤ))
  rw [added, hsum]
  by_cases hv : 2 ^ 32 ∣ v
  · rw [if_pos hv, if_neg (by omega)]
  · rw [if_neg hv, if_pos (by omega)]

theorem calcContactExpires_eq (hdigits : IsDecimal digits) (h : Asks m c digits) :
    calcContactExpires par actTime m c = limited par actTime (added actTime (decimal digits)) := by
  cases h with
  | param h =>
    have hc : c.expires = some (some (decimal digits % 2 ^ 32)) := by
      rw [h, paramExpires, if_neg (by simp [hdigits.1]), str2int_digits hdigits.2]
    rw [← sum_param, calcContactExpires, hc]
    rfl
  | header hparam hbody htail h =>
    have hm : m.expires = some (some (toInt (decimal digits))) := by
      rw [h, expiresParser_digits hdigits hbody htail]
    rw [← sum_header, calcContactExpires, hparam]
    simp only [getExpiresHf, hm]
    rfl

end Sum

/-! ## Exactly when the time is right -/

/-- The limits are numbers that an `int` holds, and there is room between
them; a `max_expires` of 0 is no limit. -/
structure Params.Limits (par : Params) : Prop where
  min_int : -2 ^ 31 ≤ par.minExpires ∧ par.minExpires < 2 ^ 31
  max_int : -2 ^ 31 ≤ par.maxExpires ∧ par.maxExpires < 2 ^ 31
  min_le_max : par.maxExpires ≠ 0 → par.minExpires ≤ par.maxExpires

/-- A time brought between the limits. -/
def Params.clamp (par : Params) (v : ℤ) : ℤ :=
  if par.maxExpires = 0 then max v par.minExpires
  else min (max v par.minExpires) par.maxExpires

/-- The absolute time `e` is right for a contact that asks for `v` seconds. -/
def RightTime (par : Params) (actTime v : ℕ) (e : ℤ) : Prop :=
  (e = 0 ↔ v = 0) ∧ (v ≠ 0 → e = actTime + par.clamp v)

/-- The time asked for fits into 32 bits together with the current time; or it
does not, reaches the maximum, and what 32 bits hold of the sum does so
too. -/
def SumFits (par : Params) (actTime v : ℕ) : Prop :=
  actTime + v < 2 ^ 31 ∨ par.maxExpires ≠ 0 ∧ par.maxExpires ≤ v ∧
    ¬2 ^ 32 ∣ v ∧ ¬2 ^ 32 ∣ actTime + v ∧
    (par.minExpires = par.maxExpires ∨ actTime + par.maxExpires ≤ toInt (actTime + v))

/-- The time is right when nothing is asked for, or when an `int` holds the
limited time and the sum fits. -/
def Survives (par : Params) (actTime v : ℕ) : Prop :=
  v = 0 ∨ actTime + par.clamp v < 2 ^ 31 ∧ actTime + par.clamp v ≠ 0 ∧ SumFits par actTime v

theorem limited_zero (par : Params) (actTime : ℕ) : limited par actTime 0 = 0 := by
  simp [limited]

variable {par : Params} {actTime : ℕ}

theorem limited_of_fits {e : ℤ} (hpar : par.Limits) (he : e ≠ 0)
    (hint : actTime + par.clamp (e - actTime) < 2 ^ 31)
    (hzero : actTime + par.clamp (e - actTime) ≠ 0) :
    limited par actTime e = actTime + par.clamp (e - actTime) := by
  obtain ⟨hmin, hmax, hle⟩ := hpar
  have hmin' := toInt_of_bounds (x := par.minExpires + actTime)
  have hmax' := toInt_of_bounds (x := par.maxExpires + actTime)
  simp only [Params.clamp] at *
  simp only [limited]
  split_ifs at * <;> omega

theorem fits_of_right (hpar : par.Limits) {v : ℕ}
    (h : limited par actTime (toInt (actTime + v)) = actTime + par.clamp v)
    (hzero : actTime + par.clamp v ≠ 0) :
    actTime + par.clamp v < 2 ^ 31 ∧
      (actTime + v < 2 ^ 31 ∨ par.maxExpires ≠ 0 ∧ par.maxExpires ≤ v ∧
        (par.minExpires = par.maxExpires ∨ actTime + par.maxExpires ≤ toInt (actTime + v))) := by
  obtain ⟨hmin, hmax, hle⟩ := hpar
  obtain ⟨k, hk⟩ := toInt_eq ((actTime : ℤ) + v)
  have hbounds := toInt_bounds ((actTime : ℤ) + v)
  have hmin' := toInt_bounds (par.minExpires + actTime)
  have hmax' := toInt_bounds (par.maxExpires + actTime)
  obtain ⟨l, hl⟩ := toInt_eq (par.minExpires + actTime)
  obtain ⟨n, hn⟩ := toInt_eq (par.maxExpires + actTime)
  simp only [limited, Params.clamp] at *
  split_ifs at * <;> omega

theorem SumFits.added (hpar : par.Limits) {v : ℕ} (hv : v ≠ 0) (h : SumFits par actTime v) :
    added actTime v ≠ 0 ∧ par.clamp (added actTime v - actTime) = par.clamp v := by
  obtain ⟨k, hk⟩ := toInt_eq ((actTime : ℤ) + v)
  have hbounds := toInt_bounds ((actTime : ℤ) + v)
  rcases h with h | ⟨hset, hle, hword, hsum, hrest⟩
  · have hword : ¬2 ^ 32 ∣ v := by omega
    rw [Registrar.added, if_neg hword]
    have hsame : toInt ((actTime : ℤ) + v) = actTime + v := by omega
    rw [hsame]
    exact ⟨by omega, by simp⟩
  · have hzero := toInt_eq_zero (x := (actTime : ℤ) + v)
    rw [Registrar.added, if_neg hword]
    refine ⟨by omega, ?_⟩
    have hmin := hpar.min_le_max hset
    simp only [Params.clamp, if_neg hset]
    omega

/-- The time of a contact is right exactly when it survives. -/
theorem limited_right_iff (hpar : par.Limits) (actTime v : ℕ) :
    RightTime par actTime v (limited par actTime (added actTime v)) ↔
      Survives par actTime v := by
  by_cases hv : v = 0
  · subst hv
    simp [RightTime, Survives, added, limited_zero]
  constructor
  · rintro ⟨hzero, hright⟩
    right
    have hright := hright hv
    have hne : actTime + par.clamp v ≠ 0 := by
      rw [← hright]
      exact fun h => hv (hzero.mp h)
    have hword : ¬2 ^ 32 ∣ v := by
      intro hword
      rw [added, if_pos hword, limited_zero] at hright
      exact hne hright.symm
    rw [added, if_neg hword] at hright
    obtain ⟨hint, hfits⟩ := fits_of_right hpar hright hne
    refine ⟨hint, hne, hfits.imp_right ?_⟩
    rintro ⟨hset, hle, hrest⟩
    refine ⟨hset, hle, hword, ?_, hrest⟩
    intro hdvd
    have hsum : toInt (actTime + v) = 0 :=
      toInt_eq_zero.mpr (by exact_mod_cast hdvd)
    rw [hsum, limited_zero] at hright
    exact hne hright.symm
  · rintro (h | ⟨hint, hne, hfits⟩)
    · exact absurd h hv
    obtain ⟨hadded, hclamp⟩ := hfits.added hpar hv
    rw [← hclamp] at hint hne
    have hlimited := limited_of_fits hpar hadded hint hne
    rw [hclamp] at hlimited hne
    rw [RightTime, hlimited]
    exact ⟨⟨fun h => absurd h hne, fun h => absurd h hv⟩, fun _ => rfl⟩

/-- The time that a contact is given is right exactly when it survives the
arithmetic of the registrar. -/
theorem calcContactExpires_right_iff {par : Params} (hpar : par.Limits)
    (actTime : ℕ) {m : Request} {c : ContactT} {digits : Bytes}
    (hdigits : IsDecimal digits) (h : Asks m c digits) :
    RightTime par actTime (decimal digits) (calcContactExpires par actTime m c) ↔
      Survives par actTime (decimal digits) := by
  rw [calcContactExpires_eq hdigits h]
  exact limited_right_iff hpar actTime (decimal digits)

/-- A registration lasts from one minute to one hour. -/
def hourly : Params := { Params.default with maxExpires := 3600 }

theorem hourly_limits : hourly.Limits where
  min_int := by decide
  max_int := by decide
  min_le_max := by decide

def ContactT.asking (digits : Bytes) : ContactT :=
  { ContactT.expiring (Support.ascii "sip:a") 0 with
    expires := paramExpires digits }

theorem calcContactExpires_right_7200 :
    RightTime hourly 1000 (decimal (Support.ascii "7200"))
        (calcContactExpires hourly 1000 (.register [] []) (.asking (Support.ascii "7200"))) ↔
      Survives hourly 1000 (decimal (Support.ascii "7200")) :=
  calcContactExpires_right_iff hourly_limits 1000
    ⟨by decide, List.all_eq_true.mp (by decide)⟩ (.param rfl)

/-- 2 to the 32 seconds are taken for none, and the contact is removed. -/
theorem calcContactExpires_wraps : ¬∀ (par : Params) (actTime : ℕ) (m : Request) (c : ContactT)
      (digits : Bytes), par.Limits → IsDecimal digits → Asks m c digits →
        RightTime par actTime (decimal digits) (calcContactExpires par actTime m c) := by
  intro h
  have hright := h hourly 1000 (.register [] [])
    (.asking (Support.ascii "4294967296")) (Support.ascii "4294967296")
    hourly_limits ⟨by decide, List.all_eq_true.mp (by decide)⟩ (.param rfl)
  have hzero := hright.1.mp (by decide)
  revert hzero
  decide

end Msicp.Registrar
