import Msicp.Support.Bytes
import Mathlib.Data.Nat.Digits.Defs
import Mathlib.Tactic.Ring

/-!
# The branch parameter of a transaction (`branch_builder`)

A request is sent with a branch parameter that names its transaction: the slot
of the hash table, the label or the MD5 value of the cell, and the number of
the branch, each written in hexadecimal with the lowest digit first.
-/

namespace Msicp.Tm

open Msicp.Support

def mcookie : Bytes := ascii "z9hG4bK"

def branchSeparator : UInt8 := 46

def md5Len : ℕ := 32

def maxBranchParamLen : ℕ :=
  mcookie.length + 8 + 1 + md5Len + 1 + 8 + 1

def tableEntries : ℕ := 2 ^ 16

def maxBranches : ℕ := 30

/-! ## Reversed hexadecimal (`ut.h`) -/

/-- The character written for a digit. -/
def hexDigit (digit : ℕ) : UInt8 :=
  if 10 ≤ digit then UInt8.ofNat (digit + 97 - 10)
  else UInt8.ofNat (digit + 48)

/-- The loop of `int2reverse_hex`: the characters, the space left, and what is
left of the number. -/
def int2reverseHexLoop : ℕ → ℕ → Bytes × ℕ × ℕ
  | 0, nr => ([], 0, nr)
  | size + 1, nr =>
    if nr = 0 then ([], size + 1, 0)
    else
      let (cs, left, rest) := int2reverseHexLoop size (nr / 16)
      (hexDigit (nr % 16) :: cs, left, rest)

/-- `int2reverse_hex`: the characters and the space left; `none` stands for
-1. -/
def int2reverseHex (size nr : ℕ) : Option (Bytes × ℕ) :=
  if size ≠ 0 ∧ nr = 0 then some ([hexDigit 0], size - 1)
  else
    let (cs, left, rest) := int2reverseHexLoop size nr
    if rest ≠ 0 then none else some (cs, left)

/-- The value of a hexadecimal digit. -/
def hexVal (c : UInt8) : Option ℕ :=
  if 48 ≤ c ∧ c ≤ 57 then some (c.toNat - 48)
  else if 97 ≤ c ∧ c ≤ 102 then some (c.toNat - 97 + 10)
  else if 65 ≤ c ∧ c ≤ 70 then some (c.toNat - 65 + 10)
  else none

/-- `reverse_hex2int`, from the last character down; `none` stands for -1. -/
def reverseHex2int : Bytes → Option ℕ
  | [] => some 0
  | c :: cs => do
      let res ← reverseHex2int cs
      let digit ← hexVal c
      return (res * 16 % 2 ^ 32 + digit) % 2 ^ 32

def string2hex (str : Bytes) : Bytes :=
  str.flatMap fun b => [hexDigit (b.toNat / 16), hexDigit (b.toNat % 16)]

theorem hexVal_hexDigit {d : ℕ} (hd : d < 16) : hexVal (hexDigit d) = some d := by
  have hall : ∀ d ∈ List.range 16, hexVal (hexDigit d) = some d := by decide
  exact hall d (List.mem_range.mpr hd)

/-- A character of the lower-case hexadecimal alphabet. -/
def IsHexDigit (c : UInt8) : Prop := ∃ d < 16, c = hexDigit d

theorem int2reverseHexLoop_length {size nr : ℕ} : (int2reverseHexLoop size nr).1.length ≤ size := by
  induction size generalizing nr with
  | zero => simp [int2reverseHexLoop]
  | succ size ih =>
    rw [int2reverseHexLoop]
    by_cases hnr : nr = 0
    · simp [hnr]
    · rw [if_neg hnr]
      have hle := @ih (nr / 16)
      simpa using hle

theorem mem_int2reverseHexLoop {size nr : ℕ} :
    ∀ c ∈ (int2reverseHexLoop size nr).1, IsHexDigit c := by
  induction size generalizing nr with
  | zero => simp [int2reverseHexLoop]
  | succ size ih =>
    intro c hc
    rw [int2reverseHexLoop] at hc
    by_cases hnr : nr = 0
    · simp [hnr] at hc
    · rw [if_neg hnr] at hc
      rcases List.mem_cons.mp hc with rfl | hc
      · exact ⟨nr % 16, Nat.mod_lt _ (by decide), rfl⟩
      · exact ih c hc

/-- With enough space the loop writes the digits of the number. -/
theorem int2reverseHexLoop_eq {size n nr : ℕ} (h : nr < 16 ^ n) (hn : n ≤ size) :
    ∃ cs, int2reverseHexLoop size nr = (cs, size - cs.length, 0) ∧
      cs.length ≤ n ∧ (nr ≠ 0 → cs ≠ []) ∧
      (nr < 2 ^ 32 → reverseHex2int cs = some nr) := by
  induction n generalizing size nr with
  | zero =>
    obtain rfl : nr = 0 := by simpa using h
    refine ⟨[], ?_, le_rfl, fun hne => absurd rfl hne, fun _ => rfl⟩
    cases size <;> rfl
  | succ n ih =>
    obtain ⟨size, rfl⟩ : ∃ m, size = m + 1 := ⟨size - 1, by omega⟩
    by_cases hnr : nr = 0
    · subst hnr
      exact ⟨[], rfl, Nat.zero_le _, fun hne => absurd rfl hne, fun _ => rfl⟩
    · have hdiv : nr / 16 < 16 ^ n := by
        rw [pow_succ] at h
        exact Nat.div_lt_of_lt_mul (by omega)
      obtain ⟨cs, hloop, hlen, -, hval⟩ := ih hdiv (Nat.le_of_succ_le_succ hn)
      refine ⟨hexDigit (nr % 16) :: cs, ?_, ?_, by simp, ?_⟩
      · simp [int2reverseHexLoop, hnr, hloop]
      · simpa using hlen
      · intro hlt
        have hdigit : hexVal (hexDigit (nr % 16)) = some (nr % 16) :=
          hexVal_hexDigit (Nat.mod_lt _ (by decide))
        have hsmall : nr / 16 * 16 % 2 ^ 32 = nr / 16 * 16 :=
          Nat.mod_eq_of_lt (by omega)
        have hsum : (nr / 16 * 16 % 2 ^ 32 + nr % 16) % 2 ^ 32 = nr := by
          rw [hsmall, Nat.div_add_mod']
          exact Nat.mod_eq_of_lt hlt
        rw [reverseHex2int, hval (by omega), hdigit]
        exact congrArg some hsum

/-- The characters are a numeral that reads back as the number. -/
structure IsNumeral (cs : Bytes) (nr : ℕ) : Prop where
  ne_nil : cs ≠ []
  hex : ∀ c ∈ cs, IsHexDigit c
  value : reverseHex2int cs = some nr

theorem int2reverseHex_spec {size nr : ℕ} (hsize : 8 ≤ size) (hnr : nr < 2 ^ 32) :
    ∃ cs, int2reverseHex size nr = some (cs, size - cs.length) ∧
      cs.length ≤ 8 ∧ IsNumeral cs nr := by
  by_cases hzero : nr = 0
  · subst hzero
    refine ⟨[hexDigit 0], ?_, by simp, by simp, ?_, by decide⟩
    · rw [int2reverseHex, if_pos ⟨by omega, rfl⟩]
      rfl
    · simp only [List.mem_singleton, forall_eq]
      exact ⟨0, by decide, rfl⟩
  · obtain ⟨cs, hloop, hlen, hne, hval⟩ :=
      @int2reverseHexLoop_eq size 8 nr (by omega) hsize
    refine ⟨cs, ?_, hlen, hne hzero, ?_, hval hnr⟩
    · rw [int2reverseHex, if_neg fun h => hzero h.2, hloop]
      rfl
    · intro c hc
      apply @mem_int2reverseHexLoop size nr
      rw [hloop]
      exact hc

/-! ## Building the parameter -/

/-- `char md5[MD5_LEN]` of a cell, with what `init_synonym_id` makes sure of:
the characters are hexadecimal digits. -/
structure Md5 where
  chars : Bytes
  length_eq : chars.length = md5Len
  hex : ∀ c ∈ chars, IsHexDigit c

/-- The cell of a proxied request whose digest could not be computed. -/
def Md5.zeros : Md5 where
  chars := List.replicate md5Len (hexDigit 0)
  length_eq := List.length_replicate
  hex := fun c hc => ⟨0, by decide, List.eq_of_mem_replicate hc⟩

/-- The cell of a proxied request: `MDStringArray` writes the digest with
`string2hex`. -/
def Md5.ofDigest (digest : Bytes) (h : digest.length = 16) : Md5 where
  chars := string2hex digest
  length_eq := by
    simp [string2hex, List.length_flatMap, h, md5Len]
  hex := by
    intro c hc
    simp only [string2hex, List.mem_flatMap, List.mem_cons, List.not_mem_nil, or_false] at hc
    obtain ⟨b, -, rfl | rfl⟩ := hc
    · exact ⟨_, by have := b.toNat_lt; omega, rfl⟩
    · exact ⟨_, Nat.mod_lt _ (by decide), rfl⟩

/-- The cell of a locally generated request: zeros, overwritten with the
digits of a random number. -/
def Md5.ofRand (myrand : ℕ) : Md5 where
  chars :=
    let cs := (int2reverseHexLoop md5Len myrand).1
    cs ++ List.replicate (md5Len - cs.length) (hexDigit 0)
  length_eq := by
    have hle := @int2reverseHexLoop_length md5Len myrand
    simp only [List.length_append, List.length_replicate]
    omega
  hex := by
    intro c hc
    rcases List.mem_append.mp hc with hc | hc
    · exact mem_int2reverseHexLoop c hc
    · exact ⟨0, by decide, List.eq_of_mem_replicate hc⟩

/-- `branch_builder`: the parameter and the space left, which it returns;
`none` when the parameter does not fit.  `charV` is used if it is given, else
the label. -/
def branchBuilder (hashIndex label : ℕ) (charV : Option Md5) (branch : ℕ) : Option (Bytes × ℕ) := do
  let size := maxBranchParamLen - mcookie.length
  let (hash, size) ← int2reverseHex size hashIndex
  if size = 0 then none
  let size := size - 1
  let (value, size) ←
    match charV with
    | some charV => some (charV.chars, size - md5Len)
    | none => int2reverseHex size label
  if size = 0 then none
  let size := size - 1
  let (b, size) ← int2reverseHex size branch
  return (mcookie ++ (hash ++ branchSeparator ::
    (value ++ branchSeparator :: b)), size)

/-- The fields of a cell that take part in matching a reply.
`localCancelLen b` is `uac[b].local_cancel.buffer_len`, `confirmed` says that
`cell_status` is `WS_DLG_CONFIRMED`. -/
structure Cell where
  label : ℕ
  md5 : Md5
  method : Bytes
  isInvite : Bool
  nrOfOutgoings : ℕ
  localCancelLen : ℕ → ℕ
  confirmed : Bool
  dialogBranch : ℕ
  refCount : ℕ

def tCalcBranch (synBranch : Bool) (hashIndex : ℕ) (t : Cell) (b : ℕ) : Option (Bytes × ℕ) :=
  if synBranch then branchBuilder hashIndex t.label none b
  else branchBuilder hashIndex 0 (some t.md5) b

theorem branchBuilder_label {hashIndex label b : ℕ}
    (hhash : hashIndex < tableEntries) (hlabel : label < 2 ^ 32)
    (hb : b < maxBranches) :
    ∃ hashi syni branchi size, branchBuilder hashIndex label none b =
        some (mcookie ++ (hashi ++ branchSeparator :: (syni ++ branchSeparator :: branchi)), size) ∧
      0 < size ∧
      mcookie.length + (hashi.length + 1 + (syni.length + 1 +
        branchi.length)) + size = maxBranchParamLen ∧
      IsNumeral hashi hashIndex ∧ IsNumeral syni label ∧
      syni.length ≤ 8 ∧ IsNumeral branchi b := by
  have hsize : maxBranchParamLen - mcookie.length = 51 := by decide
  have hmax : maxBranchParamLen = 58 := by decide
  have hcookie : mcookie.length = 7 := by decide
  simp only [tableEntries, maxBranches] at hhash hb
  obtain ⟨hashi, hhashi, hhashLen, hhashNum⟩ :=
    @int2reverseHex_spec 51 hashIndex (by omega) (by omega)
  obtain ⟨syni, hsyni, hsynLen, hsynNum⟩ :=
    @int2reverseHex_spec (51 - hashi.length - 1) label (by omega) hlabel
  obtain ⟨branchi, hbranchi, hbranchLen, hbranchNum⟩ :=
    @int2reverseHex_spec (51 - hashi.length - 1 - syni.length - 1) b (by omega) (by omega)
  refine ⟨hashi, syni, branchi,
    51 - hashi.length - 1 - syni.length - 1 - branchi.length, ?_, ?_, ?_,
    hhashNum, hsynNum, hsynLen, hbranchNum⟩
  · have h1 : 51 - hashi.length ≠ 0 := by omega
    have h2 : 51 - hashi.length - 1 - syni.length ≠ 0 := by omega
    simp [branchBuilder, hsize, hhashi, hsyni, hbranchi, h1, h2]
  · omega
  · omega

/-- The pieces that `branch_builder` puts together with an MD5 value. -/
theorem branchBuilder_md5 {hashIndex label b : ℕ} (md5 : Md5)
    (hhash : hashIndex < tableEntries) (hb : b < maxBranches) :
    ∃ hashi branchi size, branchBuilder hashIndex label (some md5) b =
        some (mcookie ++ (hashi ++ branchSeparator ::
          (md5.chars ++ branchSeparator :: branchi)), size) ∧
      0 < size ∧
      mcookie.length + (hashi.length + 1 + (md5.chars.length + 1 +
        branchi.length)) + size = maxBranchParamLen ∧
      IsNumeral hashi hashIndex ∧ IsNumeral branchi b := by
  have hsize : maxBranchParamLen - mcookie.length = 51 := by decide
  have hmax : maxBranchParamLen = 58 := by decide
  have hcookie : mcookie.length = 7 := by decide
  have hmd5 : md5.chars.length = 32 := md5.length_eq
  have hmd5Len : md5Len = 32 := rfl
  simp only [tableEntries, maxBranches] at hhash hb
  obtain ⟨hashi, hhashi, hhashLen, hhashNum⟩ :=
    @int2reverseHex_spec 51 hashIndex (by omega) (by omega)
  obtain ⟨branchi, hbranchi, hbranchLen, hbranchNum⟩ :=
    @int2reverseHex_spec (51 - hashi.length - 1 - 32 - 1) b (by omega) (by omega)
  refine ⟨hashi, branchi, 51 - hashi.length - 1 - 32 - 1 - branchi.length,
    ?_, ?_, ?_, hhashNum, hbranchNum⟩
  · have h1 : 51 - hashi.length ≠ 0 := by omega
    have h2 : 51 - hashi.length - 1 - 32 ≠ 0 := by omega
    simp [branchBuilder, hsize, hhashi, hmd5Len, hbranchi, h1, h2]
  · omega
  · omega

end Msicp.Tm
