import Msicp.Support.Bytes
import Mathlib.Data.List.Infix
import Mathlib.Data.List.GetD

/-!
# Functions of `string.h`

Strings are lists of bytes without their terminating zero.
-/

namespace Msicp.Support

open List

variable {c : UInt8} {s : Bytes}

/-- `strchr`, when a zero is then put where the byte was found: what is in
front of it, and what is behind. -/
def cutAt (c : UInt8) (s : Bytes) : Option (Bytes × Bytes) :=
  match s.dropWhile (· ≠ c) with
  | [] => none
  | _ :: rest => some (s.takeWhile (· ≠ c), rest)

/-- The same with `strrchr`. -/
def cutAtLast (c : UInt8) (s : Bytes) : Option (Bytes × Bytes) :=
  (cutAt c s.reverse).map fun p => (p.2.reverse, p.1.reverse)

/-- `strstr`: the rest of the string from where the needle is found. -/
def strstr (s needle : Bytes) : Option Bytes :=
  s.tails.find? needle.isPrefixOf

/-- `strncmp(a, b, n) == 0` -/
def strncmpEq (a b : Bytes) (n : ℕ) : Bool := a.take n = b.take n

/-- `strncpy(dst, src, n)`, where `dst` holds a string already. -/
def strncpy (dst src : Bytes) (n : ℕ) : Bytes :=
  if src.length < n then src else src.take n ++ dst.drop n

variable {front rest : Bytes}

theorem cutAt_eq_some (h : cutAt c s = some (front, rest)) :
    front = s.takeWhile (· ≠ c) ∧ s = front ++ c :: rest := by
  unfold cutAt at h
  cases hdrop : s.dropWhile (· ≠ c) with
  | nil =>
    rw [hdrop] at h
    cases h
  | cons d rest' =>
    rw [hdrop] at h
    dsimp only at h
    rw [Option.some.injEq, Prod.mk.injEq] at h
    obtain ⟨rfl, rfl⟩ := h
    have hd : d = c := by
      have hhead := head?_dropWhile_not (· ≠ c) s
      rw [hdrop] at hhead
      simpa using hhead
    refine ⟨rfl, ?_⟩
    rw [← hd, ← hdrop, hd, takeWhile_append_dropWhile]

theorem cutAt_append (h : c ∉ front) : cutAt c (front ++ c :: rest) = some (front, rest) := by
  have hfront : ∀ x ∈ front, (decide (x ≠ c)) = true := by
    intro x hx
    exact decide_eq_true (ne_of_mem_of_not_mem hx h)
  unfold cutAt
  rw [dropWhile_append_of_pos hfront, takeWhile_token hfront (by simp),
    dropWhile_cons_of_neg (by simp)]

theorem cutAt_eq_none : cutAt c s = none ↔ c ∉ s := by
  constructor
  · intro h hc
    obtain ⟨front, rest, hs, hfront⟩ := eq_append_cons_of_mem hc
    rw [hs, cutAt_append hfront] at h
    cases h
  · intro h
    unfold cutAt
    rw [dropWhile_eq_nil_iff.mpr]
    intro d hd
    exact decide_eq_true (ne_of_mem_of_not_mem hd h)

theorem cutAtLast_append (h : c ∉ rest) :
    cutAtLast c (front ++ c :: rest) = some (front, rest) := by
  have hreverse : (front ++ c :: rest).reverse = rest.reverse ++ c :: front.reverse := by
    simp
  rw [cutAtLast, hreverse, cutAt_append (by simpa using h)]
  simp

theorem cutAtLast_eq_none : cutAtLast c s = none ↔ c ∉ s := by
  rw [cutAtLast, Option.map_eq_none_iff, cutAt_eq_none, mem_reverse]

theorem cutAtLast_eq_some (h : cutAtLast c s = some (front, rest)) : s = front ++ c :: rest := by
  obtain ⟨p, hp, heq⟩ := Option.map_eq_some_iff.mp h
  obtain ⟨rfl, rfl⟩ := Prod.mk.inj heq
  have hs := congrArg List.reverse (cutAt_eq_some hp).2
  rw [reverse_reverse] at hs
  rw [hs]
  simp

theorem strstr_eq_none_iff {needle : Bytes} : strstr s needle = none ↔ ¬needle <:+: s := by
  rw [strstr, find?_eq_none, infix_iff_prefix_suffix]
  simp only [mem_tails, isPrefixOf_iff_prefix]
  constructor
  · rintro h ⟨t, hprefix, hsuffix⟩
    exact h t hsuffix hprefix
  · intro h t hsuffix hprefix
    exact h ⟨t, hprefix, hsuffix⟩

theorem strstr_singleton : strstr s [c] = none ↔ c ∉ s := by
  rw [strstr_eq_none_iff]
  have hiff : [c] <:+: s ↔ c ∈ s := by
    constructor
    · intro h
      exact h.subset mem_cons_self
    · intro h
      obtain ⟨l₁, l₂, rfl⟩ := append_of_mem h
      exact ⟨l₁, l₂, by simp⟩
  rw [hiff]

theorem strncpy_of_le {dst src : Bytes} {n : ℕ} (hlen : src.length ≤ dst.length)
    (hn : dst.length ≤ n) : strncpy dst src n = src := by
  unfold strncpy
  split_ifs with hsrc
  · rfl
  · rw [take_of_length_le (by omega), drop_of_length_le hn, append_nil]

end Msicp.Support

/-!
## Text in memory that is not initialised

A text without a terminator is put at the start of a buffer; behind it the
memory holds whatever it held before.  `strncmp` compares the buffer with a
string of known length and stops early at a zero.
-/

namespace Msicp.Support

/-- A text followed by what was there before. -/
def memory (text : Bytes) (junk : ℕ → UInt8) (i : ℕ) : UInt8 :=
  text.getD i (junk (i - text.length))

/-- `strncmp(mem, s, len) == 0` for a string of length `len`; `norm` maps the
characters that are compared. -/
def strncmp (norm : UInt8 → UInt8) (mem : ℕ → UInt8) : Bytes → Bool
  | [] => true
  | c :: s =>
    decide (norm (mem 0) = norm c) && (decide (c = 0) || strncmp norm (fun i => mem (i + 1)) s)

/-- What a comparison looks at: the string up to its first zero. -/
def upToZero : Bytes → Bytes
  | [] => []
  | c :: s => if c = 0 then [0] else c :: upToZero s

/-- The memory starts with the string. -/
def Agrees (norm : UInt8 → UInt8) (mem : ℕ → UInt8) (s : Bytes) : Prop :=
  ∀ i c, s[i]? = some c → norm (mem i) = norm c

variable {norm : UInt8 → UInt8} {mem : ℕ → UInt8}

theorem agrees_nil : Agrees norm mem [] := by
  intro i c h
  cases h

theorem agrees_cons {c : UInt8} {s : Bytes} : Agrees norm mem (c :: s) ↔
      norm (mem 0) = norm c ∧ Agrees norm (fun i => mem (i + 1)) s := by
  constructor
  · intro h
    exact ⟨h 0 c rfl, fun i d hd => h (i + 1) d hd⟩
  · rintro ⟨h0, hrest⟩ i d hd
    cases i with
    | zero =>
      obtain rfl : c = d := Option.some.inj hd
      exact h0
    | succ i => exact hrest i d hd

theorem agrees_append {s t : Bytes} : Agrees norm mem (s ++ t) ↔
      Agrees norm mem s ∧ Agrees norm (fun i => mem (i + s.length)) t := by
  induction s generalizing mem with
  | nil => exact ⟨fun h => ⟨agrees_nil, h⟩, fun h => h.2⟩
  | cons c s ih =>
    rw [List.cons_append, agrees_cons, agrees_cons, ih, and_assoc]
    rfl

theorem strncmp_iff (s : Bytes) : strncmp norm mem s = true ↔ Agrees norm mem (upToZero s) := by
  induction s generalizing mem with
  | nil => exact ⟨fun _ => agrees_nil, fun _ => rfl⟩
  | cons c s ih =>
    rw [strncmp, upToZero, Bool.and_eq_true, Bool.or_eq_true,
      decide_eq_true_eq, decide_eq_true_eq, ih]
    by_cases hc : c = 0
    · subst hc
      rw [if_pos rfl, agrees_cons]
      exact ⟨fun h => ⟨h.1, agrees_nil⟩, fun h => ⟨h.1, .inl rfl⟩⟩
    · rw [if_neg hc, agrees_cons]
      exact ⟨fun h => ⟨h.1, h.2.resolve_left hc⟩, fun h => ⟨h.1, .inr h.2⟩⟩

theorem upToZero_append {s : Bytes} (hs : 0 ∉ s) (t : Bytes) :
    upToZero (s ++ t) = s ++ upToZero t := by
  induction s with
  | nil => rfl
  | cons c s ih =>
    have hc : c ≠ 0 := fun h => hs (h ▸ List.mem_cons_self)
    rw [List.cons_append, upToZero, if_neg hc,
      ih fun h => hs (List.mem_cons_of_mem c h), List.cons_append]

theorem memory_append (a b : Bytes) (junk : ℕ → UInt8) (i : ℕ) :
    memory (a ++ b) junk (i + a.length) = memory b junk i := by
  simp only [memory, List.getD_eq_getElem?_getD, List.length_append]
  rw [List.getElem?_append_right (Nat.le_add_left _ _), Nat.add_sub_cancel,
    show i + a.length - (a.length + b.length) = i - b.length by omega]

theorem memory_cons_zero (c : UInt8) (text : Bytes) (junk : ℕ → UInt8) :
    memory (c :: text) junk 0 = c := rfl

theorem memory_cons_succ (c : UInt8) (text : Bytes) (junk : ℕ → UInt8)
    (i : ℕ) : memory (c :: text) junk (i + 1) = memory text junk i := by
  simpa using memory_append [c] text junk i

/-- A string as long as a front part of the text agrees with that part. -/
theorem agrees_memory_append {a b s t : Bytes} {junk : ℕ → UInt8} (hlen : s.length = a.length) :
    Agrees norm (memory (a ++ b) junk) (s ++ t) ↔
      s.map norm = a.map norm ∧ Agrees norm (memory b junk) t := by
  rw [agrees_append, hlen]
  refine and_congr ?_ (by simp only [memory_append])
  constructor
  · intro h
    apply List.ext_getElem
    · simp [hlen]
    · intro i hs ha
      rw [List.length_map] at hs ha
      have hi := h i s[i] (List.getElem?_eq_getElem hs)
      rw [memory, List.getD_append _ _ _ _ ha, List.getD_eq_getElem _ _ ha] at hi
      rw [List.getElem_map, List.getElem_map, hi]
  · intro h i c hc
    obtain ⟨hs, rfl⟩ := List.getElem?_eq_some_iff.mp hc
    have ha : i < a.length := hlen ▸ hs
    have hi : (s.map norm)[i]? = (a.map norm)[i]? := by rw [h]
    rw [memory, List.getD_append _ _ _ _ ha, List.getD_eq_getElem _ _ ha]
    simpa [hs, ha] using hi.symm

theorem agrees_memory_cons {c d : UInt8} {text s : Bytes}
    {junk : ℕ → UInt8} :
    Agrees norm (memory (c :: text) junk) (d :: s) ↔
      norm c = norm d ∧ Agrees norm (memory text junk) s := by
  rw [agrees_cons, memory_cons_zero]
  simp only [memory_cons_succ]

end Msicp.Support
