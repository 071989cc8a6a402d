import Msicp.Support.Bytes
import Mathlib.Tactic.NormNum

/-!
# Buffers and length-prefixed texts

A buffer is a list of bytes that is read and written at offsets, inside its
bounds only.  Texts are packed into it one behind the other, each with its
length before it as a 32-bit word, and a zero word behind the last one.
-/

namespace Msicp.Support

/-- `memcpy` of `bs` to the offset `off`. -/
def write (mem : Bytes) (off : ℕ) (bs : Bytes) : Option Bytes :=
  if off + bs.length ≤ mem.length then
    some (mem.take off ++ bs ++ mem.drop (off + bs.length))
  else none

/-- `memcpy` of `n` bytes from the offset `off`. -/
def read (mem : Bytes) (off n : ℕ) : Option Bytes :=
  if off + n ≤ mem.length then some ((mem.drop off).take n) else none

/-- The bytes of a 32-bit word. -/
def word (n : ℕ) : Bytes :=
  [UInt8.ofNat n, UInt8.ofNat (n / 256), UInt8.ofNat (n / 65536), UInt8.ofNat (n / 16777216)]

/-- The value of the bytes of a word. -/
def wordVal (bs : Bytes) : ℕ :=
  bs.foldr (fun b v => b.toNat + 256 * v) 0

/-- A text with its length before it. -/
def entry (x : Bytes) : Bytes := word x.length ++ x

/-- Texts one behind the other. -/
def pack (xs : List Bytes) : Bytes := xs.flatMap entry

/-- The texts from the offset `off` up to a length of zero. -/
def readEntries (mem : Bytes) : ℕ → ℕ → Option (List Bytes)
  | 0, _ => none
  | fuel + 1, off => do
      let w ← read mem off 4
      if wordVal w = 0 then some []
      else
        let x ← read mem (off + 4) (wordVal w)
        let xs ← readEntries mem fuel (off + 4 + wordVal w)
        some (x :: xs)

variable {a b c mem x : Bytes} {off n fuel : ℕ} {xs : List Bytes}

@[simp] theorem word_length (n : ℕ) : (word n).length = 4 := rfl

theorem wordVal_word (h : n < 2 ^ 32) : wordVal (word n) = n := by
  simp only [wordVal, word, List.foldr_cons, List.foldr_nil, UInt8.toNat_ofNat']
  norm_num at h ⊢
  omega

@[simp] theorem entry_length (x : Bytes) : (entry x).length = 4 + x.length := by
  simp [entry]

@[simp] theorem pack_nil : pack [] = [] := rfl

@[simp] theorem pack_cons (x : Bytes) (xs : List Bytes) : pack (x :: xs) = entry x ++ pack xs := rfl

theorem pack_append (xs ys : List Bytes) :
    pack (xs ++ ys) = pack xs ++ pack ys := List.flatMap_append

theorem write_over {b' : Bytes} (hlen : b'.length = b.length) :
    write (a ++ b ++ c) a.length b' = some (a ++ b' ++ c) := by
  rw [write, if_pos (by simp [hlen])]
  simp [hlen, List.drop_append]

theorem read_over (hn : n = b.length) : read (a ++ b ++ c) a.length n = some b := by
  subst hn
  rw [read, if_pos (by simp)]
  simp

/-- What was packed is read again, up to the first empty text. -/
theorem readEntries_pack (hmem : mem = a ++ pack xs ++ word 0 ++ c)
    (hlen : ∀ x ∈ xs, x.length < 2 ^ 32) (hfuel : xs.length < fuel) :
    readEntries mem fuel a.length = some (xs.takeWhile fun x => x != []) := by
  induction xs generalizing a fuel with
  | nil =>
    obtain ⟨fuel, rfl⟩ : ∃ k, fuel = k + 1 := ⟨fuel - 1, by omega⟩
    have hread : read mem a.length 4 = some (word 0) := by
      rw [hmem, pack_nil, List.append_nil]
      exact read_over rfl
    rw [readEntries, hread]
    rfl
  | cons x xs ih =>
    obtain ⟨fuel, rfl⟩ : ∃ k, fuel = k + 1 := ⟨fuel - 1, by omega⟩
    have hx : wordVal (word x.length) = x.length :=
      wordVal_word (hlen x (by simp))
    have hread : read mem a.length 4 = some (word x.length) := by
      have hcut : mem = a ++ word x.length ++ (x ++ pack xs ++ word 0 ++ c) := by
        rw [hmem]
        simp [entry]
      rw [hcut]
      exact read_over rfl
    have htext : read mem (a.length + 4) x.length = some x := by
      have hcut : mem = (a ++ word x.length) ++ x ++ (pack xs ++ word 0 ++ c) := by
        rw [hmem]
        simp [entry]
      have hread := read_over (a := a ++ word x.length)
        (c := pack xs ++ word 0 ++ c) (rfl : x.length = x.length)
      rw [List.length_append, word_length] at hread
      rw [hcut]
      exact hread
    have hrest := @ih (a ++ entry x) fuel (by rw [hmem]; simp)
      (fun y hy => hlen y (by simp [hy])) (by simpa using hfuel)
    have hoff : a.length + 4 + x.length = (a ++ entry x).length := by
      simp [Nat.add_assoc]
    rw [readEntries, hread]
    change (if wordVal (word x.length) = 0 then _ else _) = _
    rw [hx, htext, hoff]
    cases x with
    | nil => rfl
    | cons d x =>
      rw [if_neg (by simp)]
      change (do
        let ys ← readEntries mem fuel (a ++ entry (d :: x)).length
        some ((d :: x) :: ys)) = _
      rw [hrest]
      rfl

end Msicp.Support
