import Mathlib.Data.List.Basic
import Mathlib.Data.List.TakeWhile

/-!
# Strings as bytes

Strings and buffers are lists of bytes.  A scanner that stops at the first byte
of some kind cuts a token off the front of its input.
-/

namespace Msicp.Support

/-- A string or buffer. -/
abbrev Bytes := List UInt8

/-- The text of ASCII characters as bytes. -/
def ascii (s : String) : Bytes :=
  s.toList.map (fun c => UInt8.ofNat c.toNat)

theorem takeWhile_token {p : UInt8 → Bool} {token : Bytes} {c : UInt8}
    {rest : Bytes} (htoken : ∀ x ∈ token, p x = true) (hc : p c = false) :
    (token ++ c :: rest).takeWhile p = token := by
  rw [List.takeWhile_append_of_pos htoken, List.takeWhile_cons_of_neg
    (by simp [hc]), List.append_nil]

theorem takeWhile_all {p : UInt8 → Bool} {token : Bytes}
    (htoken : ∀ x ∈ token, p x = true) : token.takeWhile p = token := by
  have h := @List.takeWhile_append_of_pos _ p token [] htoken
  simpa using h

end Msicp.Support
