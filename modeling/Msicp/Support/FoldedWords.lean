import Msicp.Support.Bytes
import Mathlib.Data.Int.Basic
import Mathlib.Tactic.Ring

/-!
# Keywords read four bytes at a time

A recogniser of keywords compares words of four bytes, and single bytes, with
keys, after it has set the bit 0x20 in every byte.  However its comparisons are
nested, it is a table: the first row whose pattern fits the memory decides.
-/

namespace Msicp.Support

open List

/-- Memory, which may be read everywhere. -/
abbrev Memory := ℕ → UInt8

/-- The `n` bytes at `p`. -/
def Memory.bytes (mem : Memory) (p : ℕ) : ℕ → Bytes
  | 0 => []
  | n + 1 => mem p :: mem.bytes (p + 1) n

def qMemchr (mem : Memory) (c : UInt8) : ℕ → ℕ → Option ℕ
  | 0, _ => none
  | size + 1, p => if mem p = c then some p else qMemchr mem c size (p + 1)

def lowerByte (b : UInt8) : UInt8 := b ||| 0x20

def lowerDword (d : ℕ) : ℕ := d ||| 0x20202020

/-- The value of a `char`, which is signed. -/
def charVal (b : UInt8) : ℤ :=
  if b.toNat < 128 then b.toNat else b.toNat - 256

/-- `READ`, as an unsigned word. -/
def readDword (mem : Memory) (p : ℕ) : ℕ :=
  ((charVal (mem p) + charVal (mem (p + 1)) * 2 ^ 8 +
    charVal (mem (p + 2)) * 2 ^ 16 + charVal (mem (p + 3)) * 2 ^ 24) % 2 ^ 32).toNat

/-- How a recogniser ends: it has found a keyword, or `goto other`. -/
inductive Exit (α : Type*)
  | found (a : α) (p : ℕ)
  | other (p : ℕ)

/-- A recogniser looks at the memory from `p` on. -/
abbrev Recogniser (α : Type*) := Memory → ℕ → Exit α

/-- What a pattern asks of one byte. -/
inductive Test
  | folded (c : UInt8)
  | exact (c : UInt8)
  | any
  deriving DecidableEq

/-- The byte meets the test. -/
def Test.holds : Test → UInt8 → Bool
  | .folded c, b => lowerByte b = c
  | .exact c, b => b = c
  | .any, _ => true

/-- The memory at `p` fits the pattern. -/
def Takes (mem : Memory) (p : ℕ) : List Test → Prop
  | [] => True
  | t :: pat => t.holds (mem p) = true ∧ Takes mem (p + 1) pat

/-- A pattern, and the keyword it stands for if it stands for one. -/
abbrev Row (α : Type*) := List Test × Option α

section Recognisers

variable {α : Type*}

instance Takes.decidable (mem : Memory) : ∀ (p : ℕ) (pat : List Test), Decidable (Takes mem p pat)
  | _, [] => .isTrue trivial
  | p, t :: pat =>
    have := Takes.decidable mem (p + 1) pat
    inferInstanceAs (Decidable (t.holds (mem p) = true ∧ Takes mem (p + 1) pat))

/-- The keyword `a` has been read. -/
def found (a : α) : Recogniser α := fun _ p => .found a p

/-- `goto other` -/
def other : Recogniser α := fun _ p => .other p

/-- `case key:` of a switch over `LOWER_DWORD(READ(p))`, with `p += 4` in its
body. -/
def dwordCase (key : ℕ) (body els : Recogniser α) : Recogniser α :=
  fun mem p =>
    if lowerDword (readDword mem p) = key then body mem (p + 4) else els mem p

/-- `if (LOWER_BYTE(*p) == c)`, with `p++` in its body. -/
def byteCase (c : UInt8) (body els : Recogniser α) : Recogniser α :=
  fun mem p => if lowerByte (mem p) = c then body mem (p + 1) else els mem p

/-- What the row says of memory that fits its pattern at `p`. -/
def Row.exit (r : Row α) (p : ℕ) : Exit α :=
  match r.2 with
  | some a => .found a (p + r.1.length)
  | none => .other (p + r.1.length)

/-- The recogniser of a table. -/
def runRows (els : Recogniser α) (rows : List (Row α)) : Recogniser α :=
  fun mem p =>
    match rows.find? fun r => Takes mem p r.1 with
    | some r => r.exit p
    | none => els mem p

/-- The row behind more tests. -/
def Row.under (pat : List Test) (r : Row α) : Row α := (pat ++ r.1, r.2)

/-- The tests of the four bytes of a key. -/
def keyTests (key : ℕ) : List Test :=
  [.folded (UInt8.ofNat key), .folded (UInt8.ofNat (key / 256)),
    .folded (UInt8.ofNat (key / 256 / 256)),
    .folded (UInt8.ofNat (key / 256 / 256 / 256))]

/-- Every byte of the key is a character of ASCII. -/
def AsciiKey (key : ℕ) : Prop :=
  key % 256 < 128 ∧ key / 256 % 256 < 128 ∧ key / 256 / 256 % 256 < 128 ∧
    key / 256 / 256 / 256 < 128

instance (key : ℕ) : Decidable (AsciiKey key) := by
  unfold AsciiKey
  infer_instance

end Recognisers

section Memory

variable {mem : Memory} {c : UInt8} {size p q m n : ℕ}

@[simp] theorem Memory.length_bytes : (mem.bytes p n).length = n := by
  induction n generalizing p with
  | zero => rfl
  | succ n ih => exact congrArg (· + 1) ih

theorem Memory.bytes_add : mem.bytes p (m + n) = mem.bytes p m ++ mem.bytes (p + m) n := by
  induction m generalizing p with
  | zero => simp [Memory.bytes]
  | succ m ih =>
    rw [Nat.succ_add, Memory.bytes, ih, Memory.bytes, cons_append,
      show p + 1 + m = p + (m + 1) by omega]

theorem Memory.mem_bytes : c ∈ mem.bytes p n ↔ ∃ i, p ≤ i ∧ i < p + n ∧ mem i = c := by
  induction n generalizing p with
  | zero =>
    simp only [Memory.bytes, not_mem_nil, false_iff]
    rintro ⟨i, h⟩
    omega
  | succ n ih =>
    rw [Memory.bytes, mem_cons, ih]
    constructor
    · rintro (rfl | ⟨i, hi, hlt, rfl⟩)
      · exact ⟨p, le_rfl, by omega, rfl⟩
      · exact ⟨i, by omega, by omega, rfl⟩
    · rintro ⟨i, hi, hlt, rfl⟩
      rcases Nat.eq_or_lt_of_le hi with rfl | hlt'
      · exact .inl rfl
      · exact .inr ⟨i, hlt', by omega, rfl⟩

theorem qMemchr_eq_some : qMemchr mem c size p = some q ↔
      p ≤ q ∧ q < p + size ∧ mem q = c ∧ ∀ i, p ≤ i → i < q → mem i ≠ c := by
  induction size generalizing p with
  | zero =>
    simp only [qMemchr, reduceCtorEq, false_iff]
    omega
  | succ size ih =>
    unfold qMemchr
    split
    · rename_i h
      constructor
      · rintro ⟨⟩
        exact ⟨le_rfl, by omega, h, by omega⟩
      · rintro ⟨hq, -, -, hall⟩
        rcases Nat.eq_or_lt_of_le hq with rfl | hlt
        · rfl
        · exact absurd h (hall p le_rfl hlt)
    · rename_i h
      rw [ih]
      constructor
      · rintro ⟨hq, hlt, hc, hall⟩
        refine ⟨by omega, by omega, hc, fun i hi hlt' => ?_⟩
        rcases Nat.eq_or_lt_of_le hi with rfl | hpi
        · exact h
        · exact hall i hpi hlt'
      · rintro ⟨hq, hlt, hc, hall⟩
        have hne : p ≠ q := by
          rintro rfl
          exact h hc
        exact ⟨by omega, by omega, hc, fun i hi => hall i (by omega)⟩

end Memory

/-- A byte by its two halves, so that what holds of all bytes is decided in
steps of sixteen. -/
theorem forall_byte {P : UInt8 → Prop}
    (h : ∀ high < 16, ∀ low < 16, P (UInt8.ofNat (16 * high + low))) (c : UInt8) : P c := by
  have hlt := c.toNat_lt
  have hc := h (c.toNat / 16) (by omega) (c.toNat % 16) (by omega)
  rwa [Nat.div_add_mod, UInt8.ofNat_toNat] at hc

/-! ## A word against its key -/

section Words

variable {mem : Memory} {p key : ℕ}

theorem lor_split {a u : ℕ} (ha : a < 256) (hu : u < 256) (b v : ℕ) :
    (a + 256 * b) ||| (u + 256 * v) = (a ||| u) + 256 * (b ||| v) := by
  have hlow := @Nat.or_mod_two_pow (a + 256 * b) (u + 256 * v) 8
  have hhigh := @Nat.or_div_two_pow (a + 256 * b) (u + 256 * v) 8
  rw [show (a + 256 * b) % 2 ^ 8 = a by omega,
    show (u + 256 * v) % 2 ^ 8 = u by omega] at hlow
  rw [show (a + 256 * b) / 2 ^ 8 = b by omega,
    show (u + 256 * v) / 2 ^ 8 = v by omega] at hhigh
  omega

theorem emod_split {b : ℕ} (hb : b < 256) (x : ℤ) {m : ℕ} (hm : 0 < m) :
    (((b : ℤ) + 256 * x) % (256 * m : ℕ)).toNat = b + 256 * (x % m).toNat := by
  push_cast
  have hx := Int.mul_ediv_add_emod x m
  have hpos : 0 ≤ x % m := Int.emod_nonneg x (by omega)
  have hlt : x % m < m := Int.emod_lt_of_pos x (by omega)
  have hcut : (b : ℤ) + 256 * x = (b + 256 * (x % m)) + 256 * m * (x / m) := by
    nth_rewrite 1 [← hx]
    ring
  rw [hcut, Int.add_mul_emod_self_left, Int.emod_eq_of_lt (by omega) (by omega)]
  omega

/-- The lowest byte of a word against the lowest byte of its key.  A byte from
0x80 on would borrow from the next one, but then it is no byte of a key. -/
theorem fold_low_iff {b : UInt8} {x : ℤ} {m mask k rest : ℕ} (hm : 0 < m) (hk : k < 128) :
    ((charVal b + 256 * x) % (256 * m : ℕ)).toNat ||| (0x20 + 256 * mask) = k + 256 * rest ↔
      lowerByte b = UInt8.ofNat k ∧ (x % m).toNat ||| mask = rest := by
  have hb := b.toNat_lt
  have hbyte : lowerByte b = UInt8.ofNat k ↔ b.toNat ||| 0x20 = k := by
    rw [← UInt8.toNat_inj, lowerByte, UInt8.toNat_or, UInt8.toNat_ofNat',
      Nat.mod_eq_of_lt (by omega)]
    rfl
  have hor : b.toNat ||| 0x20 < 256 := Nat.or_lt_two_pow (n := 8) hb (by decide)
  rw [hbyte]
  unfold charVal
  split
  · rw [emod_split hb x hm, lor_split hb (by decide)]
    omega
  · rename_i hhigh
    have hge : b.toNat ≤ b.toNat ||| 0x20 := Nat.left_le_or
    rw [show (b.toNat : ℤ) - 256 + 256 * x = b.toNat + 256 * (x - 1) by ring,
      emod_split hb _ hm, lor_split hb (by decide)]
    omega

/-- A word equals its key when all four bytes do. -/
theorem lowerDword_eq_iff (hkey : AsciiKey key) :
    lowerDword (readDword mem p) = key ↔ Takes mem p (keyTests key) := by
  obtain ⟨h0, h1, h2, h3⟩ := hkey
  have hread : readDword mem p = ((charVal (mem p) + 256 * (charVal (mem (p + 1)) +
      256 * (charVal (mem (p + 2)) + 256 * (charVal (mem (p + 3)) + 256 * 0)))) %
        (256 * (256 * (256 * (256 * 1))) : ℕ)).toNat := by
    rw [readDword]
    congr 2
    ring
  have hof : ∀ n, UInt8.ofNat (n % 256) = UInt8.ofNat n := by
    intro n
    rw [← UInt8.toNat_inj]
    simp
  rw [lowerDword, hread, show (0x20202020 : ℕ) =
      0x20 + 256 * (0x20 + 256 * (0x20 + 256 * (0x20 + 256 * 0))) from rfl]
  nth_rewrite 1 [show key = key % 256 + 256 * (key / 256 % 256 +
    256 * (key / 256 / 256 % 256 + 256 * (key / 256 / 256 / 256 + 256 * 0))) by
      omega]
  rw [fold_low_iff (by decide) h0, fold_low_iff (by decide) h1,
    fold_low_iff (by decide) h2, fold_low_iff (by decide) h3]
  simp [Takes, keyTests, Test.holds, hof, Nat.add_assoc]

end Words

/-! ## Patterns -/

section Patterns

variable {mem : Memory} {p : ℕ} {pat pat' : List Test}

theorem takes_append : Takes mem p (pat ++ pat') ↔
      Takes mem p pat ∧ Takes mem (p + pat.length) pat' := by
  induction pat generalizing p with
  | nil => simp [Takes]
  | cons t pat ih =>
    rw [cons_append, Takes, Takes, ih, and_assoc, length_cons, Nat.add_assoc, Nat.add_comm 1]

/-- What a test says of a byte with its bit 0x20 set. -/
def Test.lowered : Test → Option UInt8
  | .folded c => some c
  | .exact c => some (lowerByte c)
  | .any => none

/-- No byte meets both tests. -/
def Test.differ (t u : Test) : Bool :=
  match t.lowered, u.lowered with
  | some c, some d => c ≠ d
  | _, _ => false

theorem Test.lowered_of_holds {t : Test} {b c : UInt8} (h : t.holds b = true)
    (hc : t.lowered = some c) : lowerByte b = c := by
  cases t <;> simp_all [Test.holds, Test.lowered]

theorem Test.differ_eq_false {t u : Test} {b : UInt8} (ht : t.holds b = true)
    (hu : u.holds b = true) : t.differ u = false := by
  unfold Test.differ
  split
  · rename_i c d hc hd
    rw [← lowered_of_holds ht hc, ← lowered_of_holds hu hd]
    simp
  · rfl

/-- The patterns differ at a byte that both of them look at. -/
def clash : List Test → List Test → Bool
  | t :: pat, u :: pat' => t.differ u || clash pat pat'
  | _, _ => false

theorem clash_eq_false (h : Takes mem p pat) (h' : Takes mem p pat') : clash pat pat' = false := by
  induction pat generalizing p pat' with
  | nil => rfl
  | cons t pat ih =>
    cases pat' with
    | nil => rfl
    | cons u pat' =>
      rw [clash, Test.differ_eq_false h.1 h'.1, ih h.2 h'.2]
      rfl

end Patterns

/-! ## Tables -/

section Tables

variable {α : Type*} {rows rows' : List (Row α)} {els : Recogniser α}
variable {key : ℕ} {c : UInt8} {a : α} {mem : Memory} {p : ℕ}

theorem runRows_nil : runRows els [] = els := rfl

theorem runRows_append : runRows els (rows ++ rows') = runRows (runRows els rows') rows := by
  funext mem p
  simp only [runRows, find?_append]
  cases rows.find? fun r => Takes mem p r.1 <;> rfl

/-- The table of a recogniser that runs behind some tests, `pat`. -/
def tableUnder (pat : List Test) (rows : List (Row α)) : List (Row α) :=
  rows.map (Row.under pat) ++ [(pat, none)]

variable (pat : List Test)

theorem find_map_under (h : Takes mem p pat) :
    (rows.map (Row.under pat)).find? (fun r => Takes mem p r.1) =
      (rows.find? fun r => Takes mem (p + pat.length) r.1).map (Row.under pat) := by
  rw [find?_map]
  congr 2
  funext r
  simp [Row.under, takes_append, h]

theorem find_map_under_of_not (h : ¬Takes mem p pat) :
    (rows.map (Row.under pat)).find? (fun r => Takes mem p r.1) = none := by
  rw [find?_eq_none]
  intro r hr
  obtain ⟨r, -, rfl⟩ := List.mem_map.mp hr
  simp [Row.under, takes_append, h]

theorem Row.exit_under (r : Row α) (p : ℕ) : (r.under pat).exit p = r.exit (p + pat.length) := by
  obtain ⟨pat', a | a⟩ := r <;> simp [Row.under, Row.exit, Nat.add_assoc]

theorem runRows_under : (fun mem p => if Takes mem p pat then
      runRows other rows mem (p + pat.length) else runRows els rows' mem p) =
        runRows els (tableUnder pat rows ++ rows') := by
  funext mem p
  rw [tableUnder, append_assoc]
  split
  · rename_i h
    rw [runRows, runRows, find?_append, find_map_under pat h]
    cases rows.find? fun r => Takes mem (p + pat.length) r.1 with
    | none => simp [h, other, Row.exit]
    | some r => exact (r.exit_under pat p).symm
  · rename_i h
    rw [runRows, runRows, find?_append, find_map_under_of_not pat h]
    simp [h]

theorem runRows_under_found : (fun mem p => if Takes mem p pat then found a mem (p + pat.length)
      else runRows els rows' mem p) = runRows els ((pat, some a) :: rows') := by
  funext mem p
  rw [runRows, runRows, find?_cons]
  split <;> simp_all [found, Row.exit]

theorem dwordCase_runRows (hkey : AsciiKey key) :
    dwordCase key (runRows other rows) (runRows els rows') =
      runRows els (tableUnder (keyTests key) rows ++ rows') := by
  rw [← runRows_under]
  funext mem p
  exact if_congr (lowerDword_eq_iff hkey) rfl rfl

theorem dwordCase_found (hkey : AsciiKey key) : dwordCase key (found a) (runRows els rows') =
      runRows els ((keyTests key, some a) :: rows') := by
  rw [← runRows_under_found]
  funext mem p
  exact if_congr (lowerDword_eq_iff hkey) rfl rfl

theorem takes_folded : Takes mem p [.folded c] ↔ lowerByte (mem p) = c := by
  simp [Takes, Test.holds]

theorem byteCase_runRows : byteCase c (runRows other rows) (runRows els rows') =
      runRows els (tableUnder [.folded c] rows ++ rows') := by
  rw [← runRows_under]
  funext mem p
  exact if_congr takes_folded.symm rfl rfl

theorem byteCase_found : byteCase c (found a) (runRows els rows') =
      runRows els (([.folded c], some a) :: rows') := by
  rw [← runRows_under_found]
  funext mem p
  exact if_congr takes_folded.symm rfl rfl

theorem dwordCase_runRows_other (hkey : AsciiKey key) : dwordCase key (runRows other rows) other =
      runRows other (tableUnder (keyTests key) rows) := by
  have h := @dwordCase_runRows _ rows [] other key hkey
  rwa [runRows_nil, append_nil] at h

theorem dwordCase_found_other (hkey : AsciiKey key) :
    dwordCase key (found a) other = runRows other [(keyTests key, some a)] :=
  @dwordCase_found _ [] other key a hkey

theorem byteCase_runRows_other : byteCase c (runRows other rows) other =
      runRows other (tableUnder [.folded c] rows) := by
  have h := @byteCase_runRows _ rows [] other c
  rwa [runRows_nil, append_nil] at h

theorem byteCase_found_other : byteCase c (found a) other = runRows other [([.folded c], some a)] :=
  @byteCase_found _ [] other c a

/-- The first row that does not differ from a pattern is the row for the
memory that the pattern fits. -/
theorem runRows_of_takes {pat : List Test} {r : Row α} (h : Takes mem p pat) (hr : Takes mem p r.1)
    (hfirst : (rows.find? fun r => !clash r.1 pat) = some r) :
    runRows els rows mem p = r.exit p := by
  obtain ⟨-, before, behind, rfl, hbefore⟩ :=
    find?_eq_some_iff_append.mp hfirst
  have hnone : before.find? (fun r => Takes mem p r.1) = none := by
    rw [find?_eq_none]
    intro s hs htakes
    have hclash := clash_eq_false (by simpa using htakes) h
    have hskip := hbefore s hs
    simp [hclash] at hskip
  rw [runRows, find?_append, hnone, Option.none_or, find?_cons_of_pos (by simpa using hr)]

theorem runRows_found {els : Recogniser α} {q : ℕ} (h : runRows els rows mem p = .found a q) :
    (∃ pat, (pat, some a) ∈ rows ∧ Takes mem p pat ∧ q = p + pat.length) ∨
      (els mem p = .found a q ∧ ∀ r ∈ rows, ¬Takes mem p r.1) := by
  unfold runRows at h
  split at h
  · rename_i r hr
    obtain ⟨pat, o⟩ := r
    cases o with
    | none => simp [Row.exit] at h
    | some b =>
      obtain ⟨rfl, rfl⟩ : b = a ∧ p + pat.length = q := by
        simpa [Row.exit] using h
      exact .inl ⟨pat, mem_of_find?_eq_some hr, by simpa using find?_some hr, rfl⟩
  · rename_i hnone
    exact .inr ⟨h, fun r hr => by simpa using find?_eq_none.mp hnone r hr⟩

theorem runRows_other {els : Recogniser α} {q : ℕ} (h : runRows els rows mem p = .other q) :
    (∃ pat, (pat, none) ∈ rows ∧ Takes mem p pat ∧ q = p + pat.length) ∨ els mem p = .other q := by
  unfold runRows at h
  split at h
  · rename_i r hr
    obtain ⟨pat, o⟩ := r
    cases o with
    | some b => simp [Row.exit] at h
    | none =>
      obtain rfl : p + pat.length = q := by simpa [Row.exit] using h
      exact .inl ⟨pat, mem_of_find?_eq_some hr, by simpa using find?_some hr, rfl⟩
  · exact .inr h

end Tables

end Msicp.Support
