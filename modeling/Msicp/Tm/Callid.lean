import Msicp.Dialog.MsgBuilder
import Mathlib.Data.Nat.Digits.Lemmas

/-!
# Call-IDs (`tm/callid.c`)

A Call-ID is a number of 16 hexadecimal digits that every process counts on in
its own copy of one buffer, and a constant part with the id of the process.  The
digits are counted on in place, from the last one, with a carry.
-/

namespace Msicp.Tm.Callid

open Msicp.Support List
open Dialog (printNat)
open Function (update)

/-- `inc_hexchar`: the character and the carry flag. -/
def incHexchar (c : UInt8) : UInt8 × Bool :=
  if c = 57 then (97, false) else if c = 102 then (48, true) else (c + 1, false)

/-- The loop of `generate_callid` over `callid_prefix`, from its last byte. -/
def incLoop : Bytes → Bytes
  | [] => []
  | c :: cs => if (incHexchar c).2 then (incHexchar c).1 :: incLoop cs else (incHexchar c).1 :: cs

/-- `callid_prefix` and `callid_suffix` of a process. -/
structure Generator where
  callidPrefix : Bytes
  callidSuffix : Bytes

def callidSuffixLen : ℕ := 67

/-- A digit of `%lx`. -/
def hexchar (d : ℕ) : UInt8 := UInt8.ofNat (if d < 10 then d + 48 else d + 87)

/-- The last `k` digits, from the last one. -/
def hexDigits : ℕ → ℕ → Bytes
  | 0, _ => []
  | k + 1, n => hexchar (n % 16) :: hexDigits k (n / 16)

/-- `callid_nr` as `init_callid` prints it. -/
def printCallidNr (callidNr : ℕ) : Bytes := (hexDigits 16 callidNr).reverse

/-- `child_init_callid` behind `init_callid`, for a process id, which is positive.
Where the text takes up all of the buffer, `snprintf` has ended it one byte before. -/
def childInitCallid (callidNr pid : ℕ) (address : Bytes) : Option Generator :=
  let text := 45 :: (printNat pid ++ 64 :: address)
  if callidSuffixLen < text.length then none
  else some ⟨printCallidNr callidNr, if text.length = callidSuffixLen then
    text.take (callidSuffixLen - 1) ++ [0] else text⟩

def generateCallid (g : Generator) : Generator × Bytes :=
  let g := { g with callidPrefix := (incLoop g.callidPrefix.reverse).reverse }
  (g, g.callidPrefix ++ g.callidSuffix)

variable {ι : Type*} [DecidableEq ι]

/-- The Call-IDs that the processes generate, which take turns in some order. -/
def callids (st : ι → Generator) : List ι → List Bytes
  | [] => []
  | i :: is => (generateCallid (st i)).2 :: callids (update st i (generateCallid (st i)).1) is

/-! ## The digits count -/

theorem incHexchar_hexchar {d : ℕ} (hd : d < 16) :
    incHexchar (hexchar d) = if d = 15 then (hexchar 0, true) else (hexchar (d + 1), false) := by
  have hall : (range 16).all fun d => incHexchar (hexchar d) =
      if d = 15 then (hexchar 0, true) else (hexchar (d + 1), false) := by decide
  exact of_decide_eq_true (all_eq_true.mp hall d (mem_range.mpr hd))

theorem hexchar_inj {d e : ℕ} (hd : d < 16) (he : e < 16) (h : hexchar d = hexchar e) : d = e := by
  have hall : (range 16).all fun d => (range 16).all fun e =>
      decide (hexchar d = hexchar e → d = e) := by decide
  have hrow := all_eq_true.mp hall d (mem_range.mpr hd)
  exact of_decide_eq_true (all_eq_true.mp hrow e (mem_range.mpr he)) h

theorem incLoop_hexDigits (k n : ℕ) : incLoop (hexDigits k n) = hexDigits k (n + 1) := by
  induction k generalizing n with
  | zero => rfl
  | succ k ih =>
    rw [hexDigits, incLoop, incHexchar_hexchar (Nat.mod_lt n (by decide)), hexDigits]
    by_cases hlast : n % 16 = 15
    · have hzero : (n + 1) % 16 = 0 ∧ (n + 1) / 16 = n / 16 + 1 := by omega
      rw [if_pos hlast, if_pos rfl, ih, hzero.1, hzero.2]
    · have hnext : (n + 1) % 16 = n % 16 + 1 ∧ (n + 1) / 16 = n / 16 := by omega
      rw [if_neg hlast, if_neg Bool.false_ne_true, hnext.1, hnext.2]

theorem length_hexDigits (k n : ℕ) : (hexDigits k n).length = k := by
  induction k generalizing n with
  | zero => rfl
  | succ k ih => rw [hexDigits, length_cons, ih]

theorem hexDigits_inj {k n m : ℕ} (h : hexDigits k n = hexDigits k m) :
    n % 16 ^ k = m % 16 ^ k := by
  induction k generalizing n m with
  | zero => rw [pow_zero, Nat.mod_one, Nat.mod_one]
  | succ k ih =>
    obtain ⟨hdigit, hrest⟩ := cons.inj h
    have hmod := hexchar_inj (Nat.mod_lt n (by decide)) (Nat.mod_lt m (by decide)) hdigit
    rw [pow_succ', Nat.mod_mul, Nat.mod_mul, hmod, ih hrest]

/-- `generate_callid` refines counting: the text of a number becomes that of the
next one. -/
theorem generateCallid_eq (n : ℕ) (suffix : Bytes) :
    generateCallid ⟨printCallidNr n, suffix⟩ =
      (⟨printCallidNr (n + 1), suffix⟩, printCallidNr (n + 1) ++ suffix) := by
  simp only [generateCallid, printCallidNr, reverse_reverse, incLoop_hexDigits]

/-! ## The constant part -/

theorem printNat_inj {m n : ℕ} (h : printNat m = printNat n) : m = n := by
  have hread : ∀ n, (printNat n).reverse.map (fun c => c.toNat - 48) = Nat.digits 10 n := by
    intro n
    rw [printNat, ← map_reverse, reverse_reverse, map_map]
    refine (map_congr_left fun d hd => ?_).trans (map_id _)
    have hlt := Nat.digits_lt_base (by decide) hd
    simp only [Function.comp_apply, UInt8.toNat_ofNat', id_eq]
    omega
  have hdigits := hread m
  rw [h, hread n] at hdigits
  exact (Nat.digits_inj_iff.mp hdigits).symm

theorem childInitCallid_some {nr pid : ℕ} {address : Bytes} {g : Generator} (hpid : pid < 2 ^ 31)
    (h : childInitCallid nr pid address = some g) :
    g.callidPrefix = printCallidNr nr ∧
      (g.callidSuffix.drop 1).takeWhile (· ≠ 64) = printNat pid := by
  have hchars : ∀ c ∈ printNat pid, decide (c ≠ 64) = true := by
    intro c hc
    obtain ⟨d, hd, rfl⟩ := mem_map.mp hc
    have hlt := Nat.digits_lt_base (by decide) (mem_reverse.mp hd)
    simp only [ne_eq, decide_eq_true_eq, ← UInt8.toNat_inj, UInt8.toNat_ofNat', UInt8.reduceToNat]
    omega
  have hlen : (printNat pid).length ≤ 10 := by
    rw [printNat, length_map, length_reverse, Nat.digits_length_le_iff (by decide)]
    omega
  unfold childInitCallid at h
  obtain ⟨-, hg⟩ := Option.ite_none_left_eq_some.mp h
  obtain rfl := Option.some.inj hg
  refine ⟨rfl, ?_⟩
  dsimp only
  split
  · have hcut : ∃ rest, (45 :: (printNat pid ++ 64 :: address)).take (callidSuffixLen - 1) =
        45 :: (printNat pid ++ 64 :: rest) := by
      obtain ⟨k, hk⟩ := Nat.exists_eq_add_of_le (show (printNat pid).length + 2 ≤ 66 by omega)
      refine ⟨address.take k, ?_⟩
      rw [callidSuffixLen, show 67 - 1 = ((printNat pid).length + (k + 1)) + 1 by omega,
        take_succ_cons, take_length_add_append, take_succ_cons]
    obtain ⟨rest, hrest⟩ := hcut
    rw [hrest, cons_append, drop_succ_cons, drop_zero, append_assoc, cons_append]
    exact takeWhile_token hchars (by decide)
  · exact takeWhile_token hchars (by decide)

/-! ## Runs -/

/-- A process has counted on to `nr i`. -/
def Counts (nr : ι → ℕ) (suffix : ι → Bytes) (st : ι → Generator) : Prop :=
  ∀ i, st i = ⟨printCallidNr (nr i), suffix i⟩

variable {nr : ι → ℕ} {suffix : ι → Bytes} {st : ι → Generator} {is : List ι}

theorem Counts.generate (h : Counts nr suffix st) (i : ι) :
    Counts (update nr i (nr i + 1)) suffix (update st i (generateCallid (st i)).1) := by
  intro j
  rw [h i, generateCallid_eq]
  by_cases hj : j = i
  · rw [hj, Function.update_self, Function.update_self]
  · rw [Function.update_of_ne hj, Function.update_of_ne hj]
    exact h j

theorem Counts.mem_callids (h : Counts nr suffix st) {cid : Bytes} (hcid : cid ∈ callids st is) :
    ∃ i, ∃ k < is.count i, cid = printCallidNr (nr i + k + 1) ++ suffix i := by
  induction is generalizing nr st with
  | nil => cases hcid
  | cons i is ih =>
    rcases mem_cons.mp hcid with rfl | hcid
    · exact ⟨i, 0, by simp, by rw [h i, generateCallid_eq]⟩
    · obtain ⟨j, k, hk, rfl⟩ := ih (h.generate i) hcid
      by_cases hj : j = i
      · subst hj
        refine ⟨j, k + 1, by simpa using hk, ?_⟩
        rw [Function.update_self, Nat.add_right_comm (nr j) 1 k]
        rfl
      · rw [Function.update_of_ne hj]
        exact ⟨j, k, by rwa [count_cons_of_ne (Ne.symm hj)], rfl⟩

theorem Counts.nodup (h : Counts nr suffix st) (hsuffix : Function.Injective suffix)
    (hcalls : ∀ i, is.count i ≤ 2 ^ 64) : (callids st is).Nodup := by
  induction is generalizing nr st with
  | nil => exact nodup_nil
  | cons i is ih =>
    refine nodup_cons.mpr ⟨fun hcid => ?_, ih (h.generate i) fun j => ?_⟩
    · obtain ⟨j, k, hk, hsame⟩ := (h.generate i).mem_callids hcid
      rw [h i, generateCallid_eq] at hsame
      obtain ⟨hnr, hsuf⟩ := append_inj hsame (by simp [printCallidNr, length_hexDigits])
      obtain rfl := hsuffix hsuf
      rw [Function.update_self] at hnr
      have hmod := hexDigits_inj (reverse_injective hnr)
      have hbound := hcalls i
      rw [count_cons_self] at hbound
      omega
    · exact (count_le_count_cons).trans (hcalls j)

/-- No two calls return one Call-ID: not in one process, nor in two of them that
count on from the same number. -/
theorem callids_unique (callidNr : ℕ) (pid : ι → ℕ) (address : ι → Bytes) (st : ι → Generator)
    (hinit : ∀ i, childInitCallid callidNr (pid i) (address i) = some (st i))
    (hpid : Function.Injective pid) (hrange : ∀ i, pid i < 2 ^ 31) (is : List ι)
    (hcalls : ∀ i, is.count i ≤ 2 ^ 64) : (callids st is).Nodup := by
  have hst : ∀ i, _ := fun i => childInitCallid_some (hrange i) (hinit i)
  have hcounts : Counts (fun _ => callidNr) (fun i => (st i).callidSuffix) st := by
    intro i
    rw [← (hst i).1]
  refine hcounts.nodup (fun i j hij => ?_) hcalls
  have hpids := (hst i).2.symm.trans ((congrArg _ (congrArg _ hij)).trans (hst j).2)
  exact hpid (printNat_inj hpids)

/-- Two processes that count on from 255. -/
theorem callids_unique_two : ∃ st : Bool → Generator,
    (∀ i, childInitCallid 255 (if i then 101 else 100) (ascii "10.0.0.1") = some (st i)) ∧
      (callids st [false, true, false]).Nodup := by
  have hinit : ∀ i : Bool, ∃ g,
      childInitCallid 255 (if i then 101 else 100) (ascii "10.0.0.1") = some g := by
    intro i
    cases i with
    | false => exact ⟨_, rfl⟩
    | true => exact ⟨_, rfl⟩
  choose st hst using hinit
  exact ⟨st, hst, callids_unique 255 _ _ st hst (by decide) (by decide) _ (by decide)⟩

end Msicp.Tm.Callid
