import Msicp.Mysql.Dbase

/-!
# Statements in pieces

A statement is a list of pieces, which are printed one behind the other.  The
room that is left tells when the statement comes out whole, when there is an
error, and when something of it is lost.
-/

namespace Msicp.Mysql

open Msicp.Support List

/-- What one step of the code prints. -/
inductive Piece (D : Type)
  /-- a text, with a check -/
  | text (t : Bytes)
  /-- a text with a check and a value without one -/
  | assign (t : Bytes) (v : Val D)
  /-- a value, with a check -/
  | value (v : Val D)
  /-- a byte, whether there is room or not -/
  | mark (c : UInt8)
  /-- a comma, if there is room -/
  | comma
  /-- the zero byte at the end -/
  | nul
  /-- a call that is not valid -/
  | fail

variable {D : Type} (lib : Lib D)

/-- The text of a value. -/
def Val.literal (v : Val D) : Bytes :=
  if v.nul then ascii "NULL"
  else
    match v.val with
    | .int n => formatInt n
    | .bitmap n => formatInt n
    | .double d => lib.formatDouble d
    | .string s => ascii "'" ++ lib.realEscape s.text ++ ascii "'"
    | .str s => ascii "'" ++ lib.realEscape s ++ ascii "'"
    | .datetime t => ascii "'" ++ lib.formatTime t ++ ascii "'"
    | .blob s => ascii "'" ++ lib.escape s ++ ascii "'"

/-- The text of a piece. -/
def Piece.render : Piece D → Bytes
  | .text t => t
  | .assign t v => t ++ v.literal lib
  | .value v => v.literal lib
  | .mark c => [c]
  | .comma => ascii ","
  | .nul => []
  | .fail => []

/-- The whole statement. -/
def render (ps : List (Piece D)) : Bytes := ps.flatMap (Piece.render lib)

def Piece.exec (mem : Bytes) (off : ℕ) : Piece D → Printed
  | .text t => append mem off t
  | .assign t v => (append mem off t).bind fun off mem =>
    (val2strAnyway lib v mem off (sqlBufLen - off)).advance off
  | .value v => (val2str lib v mem off (sqlBufLen - off)).advance off
  | .mark c => putByte mem off c
  | .comma =>
    if 1 ≤ sqlBufLen - off then putByte mem off 44 else some (some off, mem)
  | .nul => terminate mem off
  | .fail => some (none, mem)

/-- The pieces are printed in order, up to an error. -/
def exec (mem : Bytes) (off : ℕ) : List (Piece D) → Printed
  | [] => some (some off, mem)
  | p :: ps => (p.exec lib mem off).bind fun off mem => exec mem off ps

/-! ## Room -/

/-- What becomes of a value: all of it is printed, nothing is, some other text
of that length is, or there is no room for what is printed. -/
inductive Fit
  | whole
  | refuse
  | cut (n : ℕ)
  | outside

/-- The room that `val2str` asks for is worked out in 32 bits. -/
def fitQuote (escape : Bytes → Bytes) (s : Bytes) (room : ℕ) : Fit :=
  let l := BitVec.ofNat 32 s.length
  if (room : ℤ) < (l * 2 + 3).toInt then .refuse
  else if l.toInt < 0 then .outside
  else if 2 * s.length + 3 ≤ room then .whole
  else if (escape (s.take l.toNat)).length + 3 ≤ room then
    .cut ((escape (s.take l.toNat)).length + 2)
  else .outside

def fitText (t : Bytes) (room : ℕ) : Fit :=
  if t.length < room then .whole else .refuse

/-- What becomes of a value where there is so much room. -/
def Val.fit (v : Val D) (room : ℕ) : Fit :=
  if room = 0 then .refuse
  else if v.nul then fitText (ascii "NULL") room
  else
    match v.val with
    | .int n => fitText (formatInt n) room
    | .bitmap n => fitText (formatInt n) room
    | .double d => fitText (lib.formatDouble d) room
    | .string s => fitQuote lib.realEscape s.text room
    | .str s => fitQuote lib.realEscape s room
    | .datetime t =>
      if room < 2 then .refuse
      else if (lib.formatTime t).length + 2 ≤ room then .whole
      else .cut 2
    | .blob s => fitQuote lib.escape s room

/-- A zero byte is left behind every value but a date. -/
def Val.ended (v : Val D) : Bool :=
  v.nul || match v.val with
    | .datetime _ => false
    | _ => true

/-- What a piece leaves: the statement goes on, with so much room left and maybe
a zero byte behind it, something is lost of it, there is an error, or no room
for what is printed. -/
inductive After
  | goes (ended : Bool) (room : ℕ)
  | lost (room : ℕ)
  | fails
  | outside

/-- What becomes of a piece where there is so much room. -/
def Piece.after (room : ℕ) : Piece D → After
  | .text t => if t.length < room then .goes true (room - t.length) else .fails
  | .assign t v =>
    if t.length < room then
      match v.fit lib (room - t.length) with
      | .whole => .goes v.ended (room - t.length - (v.literal lib).length)
      | .refuse => .lost 0
      | .cut n => .lost (room - t.length - n)
      | .outside => .outside
    else .fails
  | .value v =>
    match v.fit lib room with
    | .whole => .goes v.ended (room - (v.literal lib).length)
    | .refuse => .fails
    | .cut n => .lost (room - n)
    | .outside => .outside
  | .mark _ => if 0 < room then .goes false (room - 1) else .outside
  | .comma => if 0 < room then .goes false (room - 1) else .lost 0
  | .nul => if 0 < room then .goes true room else .outside
  | .fail => .fails

/-- An error comes before all is printed, and before there is no room. -/
def Stops (room : ℕ) : List (Piece D) → Prop
  | [] => False
  | p :: ps =>
    match p.after lib room with
    | .goes _ room => Stops room ps
    | .lost room => Stops room ps
    | .fails => True
    | .outside => False

/-- Nothing is lost, unless an error comes behind it.  `ended` tells that there
is a zero byte behind what is printed, and `stale` that there is one in the
buffer from before. -/
def Kept (stale : ℕ → Prop) (ended : Bool) (room : ℕ) : List (Piece D) → Prop
  | [] => ended = true ∨ stale room
  | p :: ps =>
    match p.after lib room with
    | .goes ended room => Kept stale ended room ps
    | .lost room => Stops lib room ps
    | .fails => True
    | .outside => False

/-- The zero byte that the buffer has from before. -/
def SqlBuf.Stale (buf : SqlBuf) (room : ℕ) : Prop :=
  buf.mem[sqlBufLen - room]? = some 0

/-- Nothing is written outside the buffer, and there is an error, or the
statement is submitted as it should be. -/
def Outcome.Right (o : Option Outcome) (statement : Bytes) : Prop :=
  o = some .error ∨ o = some (.submit (some statement))

/-! ## Printing behind what is there -/

variable {lib} {p q : Bytes}

theorem write_behind (t : Bytes) : write (p ++ q) p.length t =
      if t.length ≤ q.length then some (p ++ t ++ q.drop t.length) else none := by
  unfold write
  rw [List.length_append, take_left, drop_append, drop_of_length_le (by omega)]
  simp

theorem write_behind_of_le {t : Bytes} (ht : t.length ≤ q.length) :
    write (p ++ q) p.length t = some (p ++ t ++ q.drop t.length) := by
  rw [write_behind, if_pos ht]

theorem snprintf_whole {t : Bytes} (ht : t.length < q.length) (hq : q.length ≤ sqlBufLen) :
    snprintf (p ++ q) p.length q.length t =
      some ((t.length : ℤ), p ++ t ++ 0 :: q.drop (t.length + 1)) := by
  have hsmall : t.length < 2 ^ 31 := by
    unfold sqlBufLen at hq
    omega
  have htake : t.take (q.length - 1) = t := take_of_length_le (by omega)
  have hlen : (t ++ [0]).length ≤ q.length := by
    rw [List.length_append, length_singleton]
    omega
  unfold snprintf
  rw [if_pos hsmall, if_neg (by omega), htake, write_behind_of_le hlen]
  simp

theorem printPiece_whole {t : Bytes} (ht : t.length < q.length) (hq : q.length ≤ sqlBufLen) :
    printPiece (p ++ q) p.length q.length t =
      some (some t.length, p ++ t ++ 0 :: q.drop (t.length + 1)) := by
  unfold printPiece
  rw [snprintf_whole ht hq]
  dsimp only
  rw [if_neg (by omega), Int.toNat_natCast]

/-- A text that does not fit is cut, and that is an error. -/
theorem printPiece_cut {t : Bytes} (ht : q.length ≤ t.length) : ∃ q', q'.length = q.length ∧
      printPiece (p ++ q) p.length q.length t = some (none, p ++ q') := by
  have hret : ∀ m : ℤ, m = (if t.length < 2 ^ 31 then (t.length : ℤ) else -1) →
      m < 0 ∨ (q.length : ℤ) ≤ m := by
    intro m hm
    split at hm <;> omega
  unfold printPiece snprintf
  by_cases hq : q.length = 0
  · refine ⟨q, rfl, ?_⟩
    dsimp only
    rw [if_pos hq]
    dsimp only
    rw [if_pos (hret _ rfl)]
  · have hlen : (t.take (q.length - 1) ++ [0]).length = q.length := by
      simp only [List.length_append, length_take, length_singleton]
      omega
    refine ⟨t.take (q.length - 1) ++ [0], hlen, ?_⟩
    dsimp only
    rw [if_neg hq, write_behind_of_le hlen.le, hlen, drop_length]
    dsimp only
    rw [if_pos (hret _ rfl), append_nil]

/-- What a value becomes, by its room. -/
def Printed.Fits (x : Printed) (p q literal : Bytes) (ended : Bool) : Fit → Prop
  | .whole => literal.length + ended.toNat ≤ q.length ∧
      x = some (some literal.length, p ++ literal ++
        if ended then 0 :: q.drop (literal.length + 1)
        else q.drop literal.length)
  | .refuse => ∃ q', q'.length = q.length ∧ x = some (none, p ++ q') ∧
      (q' = q ∧ literal ≠ [] ∨ q.length ≤ literal.length)
  | .cut n => ∃ q', q'.length = q.length ∧ x = some (some n, p ++ q') ∧
      n ≤ q.length ∧ q.length < literal.length
  | .outside => x = none

theorem printPiece_fits (t : Bytes) (hq : q.length ≤ sqlBufLen) :
    (printPiece (p ++ q) p.length q.length t).Fits p q t true (fitText t q.length) := by
  unfold fitText
  split
  · rename_i ht
    exact ⟨ht, printPiece_whole ht hq⟩
  · rename_i ht
    obtain ⟨q', hq', hprint⟩ := @printPiece_cut p q t (by omega)
    exact ⟨q', hq', hprint, .inr (by omega)⟩

theorem time2mysql_whole {t : ℤ} (ht : (lib.formatTime t).length < q.length) :
    time2mysql lib (p ++ q) p.length q.length t =
      some ((lib.formatTime t).length, p ++ lib.formatTime t ++
        0 :: q.drop ((lib.formatTime t).length + 1)) := by
  have hlen : (lib.formatTime t ++ [0]).length ≤ q.length := by
    rw [List.length_append, length_singleton]
    omega
  unfold time2mysql
  rw [if_pos ht, write_behind_of_le hlen]
  simp

theorem time2mysql_cut {t : ℤ} (ht : q.length ≤ (lib.formatTime t).length) :
    ∃ q', q'.length = q.length ∧
      time2mysql lib (p ++ q) p.length q.length t = some (0, p ++ q') := by
  have hlen := lib.leftover_le t q.length
  refine ⟨lib.leftover t q.length ++ q.drop (lib.leftover t q.length).length, ?_, ?_⟩
  · rw [List.length_append, length_drop]
    omega
  · unfold time2mysql
    rw [if_neg (by omega), write_behind_of_le hlen, append_assoc]

theorem time2str_fits (t : ℤ) : (time2str lib (p ++ q) p.length q.length t).Fits p q
      (ascii "'" ++ lib.formatTime t ++ ascii "'") false
      (if q.length < 2 then .refuse
        else if (lib.formatTime t).length + 2 ≤ q.length then .whole
        else .cut 2) := by
  have hquote : (ascii "'").length = 1 := rfl
  have hliteral : (ascii "'" ++ lib.formatTime t ++ ascii "'").length =
      (lib.formatTime t).length + 2 := by
    simp only [List.length_append, hquote]
    omega
  unfold time2str
  split
  · exact ⟨q, rfl, rfl, .inr (by omega)⟩
  rename_i hroom
  have hoff : p.length + 1 = (p ++ ascii "'").length := by
    rw [List.length_append, hquote]
  have hrest : q.length - 1 = (q.drop 1).length := (length_drop ..).symm
  rw [write_behind_of_le (by omega), hquote]
  dsimp only
  rw [hoff, hrest]
  by_cases hfit : (lib.formatTime t).length + 2 ≤ q.length
  · rw [if_pos hfit, time2mysql_whole (by omega)]
    dsimp only
    have hoff' : (p ++ ascii "'").length + (lib.formatTime t).length =
        (p ++ ascii "'" ++ lib.formatTime t).length :=
      List.length_append.symm
    rw [hoff', write_behind_of_le (by simp [hquote])]
    have hdrop : ((0 : UInt8) :: (q.drop 1).drop ((lib.formatTime t).length + 1)).drop 1 =
        q.drop ((lib.formatTime t).length + 2) := by
      rw [drop_succ_cons, drop_zero, drop_drop]
      congr 1
      omega
    refine ⟨by rw [hliteral]; exact hfit, ?_⟩
    rw [hliteral, hquote, hdrop]
    simp
  · obtain ⟨q', hq', htime⟩ := @time2mysql_cut D lib (p ++ ascii "'") (q.drop 1) t (by omega)
    rw [if_neg hfit, htime]
    dsimp only
    rw [Nat.add_zero, write_behind_of_le (by omega), hquote, append_assoc, append_assoc]
    refine ⟨ascii "'" ++ (ascii "'" ++ q'.drop 1), ?_, rfl, by omega, by omega⟩
    simp only [List.length_append, hquote, length_drop]
    omega

theorem toInt_room {n : ℕ} (hn : n < 2 ^ 30 - 1) :
    (BitVec.ofNat 32 n * 2 + 3).toInt = 2 * n + 3 := by
  have hnat : (BitVec.ofNat 32 n * 2 + 3).toNat = n * 2 + 3 := by
    have h2 : (2 : BitVec 32).toNat = 2 := rfl
    have h3 : (3 : BitVec 32).toNat = 3 := rfl
    rw [BitVec.toNat_add, BitVec.toNat_mul, BitVec.toNat_ofNat, h2, h3]
    omega
  rw [BitVec.toInt_eq_toNat_of_lt (by omega), hnat]
  push_cast
  omega

theorem quote_fits {escape : Bytes → Bytes} (hle : ∀ s, (escape s).length ≤ 2 * s.length)
    (hge : ∀ s, s.length ≤ (escape s).length) (s : Bytes)
    (hq : q.length ≤ sqlBufLen) :
    (quote escape (p ++ q) p.length q.length s).Fits p q (ascii "'" ++ escape s ++ ascii "'") true
      (fitQuote escape s q.length) := by
  have hquote : ∀ x, (ascii "'" ++ x ++ ascii "'" ++ [0]).length = x.length + 3 := by
    intro x
    simp only [List.length_append, length_singleton]
    have h1 : (ascii "'").length = 1 := rfl
    omega
  have hliteral : (ascii "'" ++ escape s ++ ascii "'").length = (escape s).length + 2 := by
    have h3 := hquote (escape s)
    rw [List.length_append, length_singleton] at h3
    omega
  unfold quote fitQuote
  dsimp only
  by_cases hroom : (q.length : ℤ) < (BitVec.ofNat 32 s.length * 2 + 3).toInt
  · rw [if_pos hroom, if_pos hroom]
    refine ⟨q, rfl, rfl, .inl ⟨rfl, ?_⟩⟩
    exact ne_nil_of_length_pos (by omega)
  rw [if_neg hroom, if_neg hroom]
  by_cases hneg : (BitVec.ofNat 32 s.length).toInt < 0
  · rw [if_pos hneg, if_pos hneg]
    exact rfl
  rw [if_neg hneg, if_neg hneg]
  by_cases hfit : 2 * s.length + 3 ≤ q.length
  · have hl : s.take (BitVec.ofNat 32 s.length).toNat = s := by
      refine take_of_length_le ?_
      unfold sqlBufLen at hq
      rw [BitVec.toNat_ofNat, Nat.mod_eq_of_lt (by omega)]
    have hesc := hle s
    rw [if_pos hfit, hl, write_behind_of_le (by rw [hquote]; omega), hquote]
    refine ⟨by rw [hliteral, Bool.toNat_true]; omega, ?_⟩
    rw [hliteral]
    simp
  rw [if_neg hfit]
  have hlong : q.length < s.length := by
    by_contra hshort
    rw [toInt_room (by unfold sqlBufLen at hq; omega)] at hroom
    omega
  have hesc := hge s
  by_cases hcut : (escape (s.take (BitVec.ofNat 32 s.length).toNat)).length + 3 ≤ q.length
  · rw [if_pos hcut, write_behind_of_le (by rw [hquote]; exact hcut), append_assoc]
    refine ⟨_, ?_, rfl, by omega, by omega⟩
    rw [List.length_append, hquote, length_drop]
    omega
  · rw [if_neg hcut, write_behind, if_neg (by rw [hquote]; exact hcut)]
    exact rfl

/-- What `val2str` does is what there is room for. -/
theorem val2str_fits (lib : Lib D) (v : Val D) (hq : q.length ≤ sqlBufLen) :
    (val2str lib v (p ++ q) p.length q.length).Fits p q (v.literal lib) v.ended
      (v.fit lib q.length) := by
  unfold val2str Val.literal Val.ended Val.fit
  by_cases hroom : q.length = 0
  · rw [if_pos hroom, if_pos hroom]
    exact ⟨q, rfl, rfl, .inr (by omega)⟩
  rw [if_neg hroom, if_neg hroom]
  cases v.nul with
  | true =>
    have hnull : (ascii "NULL").length = 4 := rfl
    rw [if_pos rfl, if_pos rfl, if_pos rfl]
    unfold fitText
    by_cases hfit : q.length < 5
    · rw [if_pos hfit, if_neg (by omega)]
      exact ⟨q, rfl, rfl, .inr (by omega)⟩
    · rw [if_neg hfit, if_pos (by omega), snprintf_whole (by omega) hq]
      exact ⟨by rw [hnull]; simpa using hfit, rfl⟩
  | false =>
    simp only [Bool.false_eq_true, if_false, Bool.false_or]
    cases v.val with
    | int n =>
      dsimp only
      rw [int2str, if_neg hroom]
      exact printPiece_fits _ hq
    | bitmap n =>
      dsimp only
      rw [int2str, if_neg hroom]
      exact printPiece_fits _ hq
    | double d =>
      dsimp only
      rw [double2str, if_neg hroom]
      exact printPiece_fits _ hq
    | string s => exact quote_fits lib.realEscape_le lib.le_realEscape _ hq
    | str s => exact quote_fits lib.realEscape_le lib.le_realEscape _ hq
    | datetime t => exact time2str_fits t
    | blob s => exact quote_fits lib.escape_le lib.le_escape _ hq

end Msicp.Mysql
