import Mathlib.Data.Nat.Digits.Lemmas
import Msicp.Dialog.MsgBuilder
import Msicp.Registrar.Qvalue
import Msicp.Support.Buffer
import Msicp.Support.MachineInt
import Msicp.Usrloc.UContact

/-!
# The buffer of the Contact header field (`calc_buf_len`, `build_contact`)

The length of the header field is computed first and a buffer of that length
is kept from one reply to the next.  The computed length leaves room for the
longest number in each expires parameter.
-/

namespace Msicp.Registrar

open Msicp.Support List
open Msicp.Dialog (int2str)

/-! ## The two passes -/

/-- What is read of a contact; `received` is `none` when its pointer is
null. -/
structure ContactFields where
  c : Bytes
  q : ℤ
  expires : ℤ
  flags : BitVec 32
  received : Option Bytes

/-- The macro `VALID_CONTACT`. -/
def ContactFields.valid (c : ContactFields) (actTime : ℕ) : Bool :=
  (actTime : ℤ) < c.expires || c.flags &&& Usrloc.flPermanent != 0

def contactBegin : Bytes := ascii "Contact: "
def qParam : Bytes := ascii ";q="
def expiresParam : Bytes := ascii ";expires="
def contactSep : Bytes := ascii ", "
def crlf : Bytes := ascii "\r\n"

def int2strMaxLen : ℕ := 19 + 1 + 1

/-- What a valid contact adds to the length, one number for each `+=`; `fl`
tells that the length is not 0. -/
def increments (rcvParam : Bytes) (fl : Bool) (c : ContactFields) : List ℕ :=
  (if fl then [contactSep.length] else []) ++ [2 + c.c.length] ++
  (if lenQ c.q ≠ 0 then [qParam.length + lenQ c.q] else []) ++
  [expiresParam.length + int2strMaxLen] ++
  match c.received with
  | some received => [1 + rcvParam.length + 1 + 1 + received.length + 1]
  | none => []

/-- The loop of `calc_buf_len`, with `add` for the addition. -/
def calcLoop (add : ℕ → ℕ → ℕ) (rcvParam : Bytes) (actTime : ℕ) : List ContactFields → ℕ → ℕ
  | [], len => len
  | c :: cs, len =>
    if c.valid actTime then
      calcLoop add rcvParam actTime cs ((increments rcvParam (len ≠ 0) c).foldl add len)
    else calcLoop add rcvParam actTime cs len

def calcLen (add : ℕ → ℕ → ℕ) (rcvParam : Bytes) (actTime : ℕ) (cs : List ContactFields) : ℕ :=
  let len := calcLoop add rcvParam actTime cs 0
  if len ≠ 0 then add len (contactBegin.length + crlf.length) else len

/-- `calc_buf_len`, in unsigned arithmetic on 32 bits. -/
def calcBufLen : Bytes → ℕ → List ContactFields → ℕ := calcLen (uadd 32)

/-- The value of `(int)(c->expires - act_time)` as an unsigned long. -/
def secondsLeft (actTime : ℕ) (c : ContactFields) : ℕ :=
  ((c.expires - actTime).bmod (2 ^ 32) % 2 ^ 64).toNat

/-- What is written for a valid contact, one string for each `memcpy`; `fl`
tells that it is not the first one. -/
def contactPieces (rcvParam : Bytes) (actTime : ℕ) (fl : Bool) (c : ContactFields) : List Bytes :=
  (if fl then [contactSep] else []) ++ [ascii "<", c.c, ascii ">"] ++
  (if lenQ c.q ≠ 0 then [qParam, (q2str c.q).take (lenQ c.q)] else []) ++
  [expiresParam, int2str (secondsLeft actTime c)] ++
  match c.received with
  | some received =>
    [ascii ";", rcvParam, ascii "=", ascii "\"", received, ascii "\""]
  | none => []

/-- The loop of `build_contact`. -/
def loopPieces (rcvParam : Bytes) (actTime : ℕ) : List ContactFields → Bool → List Bytes
  | [], _ => []
  | c :: cs, fl =>
    if c.valid actTime then
      contactPieces rcvParam actTime fl c ++ loopPieces rcvParam actTime cs true
    else loopPieces rcvParam actTime cs fl

def headerPieces (rcvParam : Bytes) (actTime : ℕ) (cs : List ContactFields) :
    List Bytes :=
  contactBegin :: loopPieces rcvParam actTime cs false ++ [crlf]

/-! ## The buffer -/

/-- The variable `contact`; `buf` is the block, null at first. -/
structure ContactBuf where
  buf : Option Bytes
  bufLen : ℤ
  dataLen : ℤ

/-- The block is as long as `buf_len` says. -/
def ContactBuf.Sized (b : ContactBuf) : Prop :=
  ∀ mem, b.buf = some mem → b.bufLen ≤ mem.length

/-- Writing the pieces from `p` on; `none` is a write past the block. -/
def putAll : List Bytes → Bytes → ℕ → Option (Bytes × ℕ)
  | [], mem, p => some (mem, p)
  | x :: xs, mem, p =>
    (write mem p x).bind fun mem => putAll xs mem (p + x.length)

/-- The part of `build_contact` behind the allocation. -/
def fillContact (rcvParam : Bytes) (actTime : ℕ) (cs : List ContactFields)
    (mem : Bytes) (bufLen : ℤ) : Option (ContactBuf × ℤ) :=
  (putAll (headerPieces rcvParam actTime cs) mem 0).map fun r =>
    ({ buf := some r.1, bufLen := bufLen, dataLen := r.2 }, 0)

/-- `build_contact`: the buffer behind it and the value that is returned.
`malloc` is `pkg_malloc`. -/
def buildContactBuf (malloc : ℕ → Option Bytes) (rcvParam : Bytes)
    (actTime : ℕ) (cs : List ContactFields) (b : ContactBuf) :
    Option (ContactBuf × ℤ) :=
  let dataLen : ℤ := ((calcBufLen rcvParam actTime cs : ℕ) : ℤ).bmod (2 ^ 32)
  if dataLen = 0 then some ({ b with dataLen := dataLen }, 0)
  else
    match (if b.bufLen < dataLen then none else b.buf) with
    | some mem => fillContact rcvParam actTime cs mem b.bufLen
    | none =>
      match malloc (dataLen % 2 ^ 64).toNat with
      | none => some ({ buf := none, bufLen := 0, dataLen := 0 }, -1)
      | some mem => fillContact rcvParam actTime cs mem dataLen

/-! ## The computed length is enough -/

/-- The length that `calc_buf_len` stands for, without the limit of a
word. -/
def neededLen : Bytes → ℕ → List ContactFields → ℕ := calcLen (· + ·)

section Lengths

variable {rcvParam : Bytes} {actTime : ℕ} {cs : List ContactFields}
variable {len : ℕ}

theorem foldl_add (xs : List ℕ) (len : ℕ) : xs.foldl (· + ·) len = len + xs.sum := by
  induction xs generalizing len with
  | nil => simp
  | cons x xs ih =>
    rw [foldl_cons, ih, sum_cons]
    omega

theorem foldl_uadd {xs : List ℕ} (h : len + xs.sum < 2 ^ 32) :
    xs.foldl (uadd 32) len = len + xs.sum := by
  induction xs generalizing len with
  | nil => simp
  | cons x xs ih =>
    rw [sum_cons] at h ⊢
    rw [foldl_cons, uadd_of_lt (by omega), ih (by omega)]
    omega

theorem le_calcLoop (rcvParam : Bytes) (actTime : ℕ) (cs : List ContactFields) (len : ℕ) :
    len ≤ calcLoop (· + ·) rcvParam actTime cs len := by
  induction cs generalizing len with
  | nil => exact le_rfl
  | cons c cs ih =>
    rw [calcLoop]
    split_ifs
    · have hrest := ih ((increments rcvParam (len ≠ 0) c).foldl (· + ·) len)
      rw [foldl_add] at hrest ⊢
      omega
    · exact ih len

theorem calcLoop_word (h : calcLoop (· + ·) rcvParam actTime cs len < 2 ^ 32) :
    calcLoop (uadd 32) rcvParam actTime cs len = calcLoop (· + ·) rcvParam actTime cs len := by
  induction cs generalizing len with
  | nil => rfl
  | cons c cs ih =>
    rw [calcLoop] at h ⊢
    rw [calcLoop]
    split_ifs at h ⊢ with hvalid
    · have hle := (le_calcLoop rcvParam actTime cs _).trans_lt h
      rw [foldl_add] at hle h ⊢
      rw [foldl_uadd hle]
      exact ih h
    · exact ih h

theorem calcBufLen_eq (h : neededLen rcvParam actTime cs < 2 ^ 32) :
    calcBufLen rcvParam actTime cs = neededLen rcvParam actTime cs := by
  unfold calcBufLen neededLen calcLen at *
  have hle : calcLoop (· + ·) rcvParam actTime cs 0 < 2 ^ 32 := by
    dsimp only at h
    split_ifs at h <;> omega
  rw [calcLoop_word hle]
  dsimp only at h ⊢
  split_ifs at h ⊢ with hzero
  · exact uadd_of_lt h
  · rfl

theorem secondsLeft_lt (actTime : ℕ) (c : ContactFields) : secondsLeft actTime c < 2 ^ 64 := by
  rw [secondsLeft]
  omega

/-- No number is printed with more than 20 digits. -/
theorem length_int2str {n : ℕ} (h : n < 2 ^ 64) : (int2str n).length ≤ 20 := by
  rw [int2str]
  split_ifs
  · decide
  · rw [Dialog.printNat, length_map, length_reverse, Nat.digits_length_le_iff (by decide)]
    omega

theorem length_contactPieces (rcvParam : Bytes) (actTime : ℕ) (fl : Bool) (c : ContactFields) :
    (contactPieces rcvParam actTime fl c).flatten.length < (increments rcvParam fl c).sum := by
  have hnumber := length_int2str (secondsLeft_lt actTime c)
  have hq : ((q2str c.q).take (lenQ c.q)).length = lenQ c.q := by
    rw [length_take, length_q2str, Nat.min_self]
  have hbrackets : (ascii "<").length + (ascii ">").length = 2 := rfl
  have hparam : (ascii ";").length + (ascii "=").length +
      (ascii "\"").length + (ascii "\"").length = 4 := rfl
  unfold contactPieces increments int2strMaxLen
  cases fl <;> cases c.received <;> split_ifs <;>
    simp only [flatten_append, flatten_cons, flatten_nil,
      List.length_append, length_nil, sum_append, sum_cons,
      sum_nil] <;>
    omega

/-- The loop prints no more than was counted. -/
theorem length_loopPieces (rcvParam : Bytes) (actTime : ℕ) (cs : List ContactFields) (len : ℕ) :
    (loopPieces rcvParam actTime cs (len ≠ 0)).flatten.length + len ≤
      calcLoop (· + ·) rcvParam actTime cs len := by
  induction cs generalizing len with
  | nil => simp [loopPieces, calcLoop]
  | cons c cs ih =>
    rw [loopPieces, calcLoop]
    split_ifs
    · have hpieces :=
        length_contactPieces rcvParam actTime (len ≠ 0) c
      have hrest := ih ((increments rcvParam (len ≠ 0) c).foldl (· + ·) len)
      rw [foldl_add] at hrest ⊢
      have hfl : decide (len + (increments rcvParam (len ≠ 0) c).sum ≠ 0) = true := by
        rw [decide_eq_true_eq]
        omega
      rw [hfl] at hrest
      rw [flatten_append, List.length_append]
      omega
    · exact ih len

theorem calcLoop_eq_zero : calcLoop (· + ·) rcvParam actTime cs 0 = 0 ↔
      ∀ c ∈ cs, c.valid actTime = false := by
  induction cs with
  | nil => simp [calcLoop]
  | cons c cs ih =>
    rw [calcLoop, forall_mem_cons]
    cases hvalid : c.valid actTime with
    | false => simpa using ih
    | true =>
      have hpieces := length_contactPieces rcvParam actTime false c
      have hle := le_calcLoop rcvParam actTime cs ((increments rcvParam false c).foldl (· + ·) 0)
      rw [foldl_add] at hle
      have hne : calcLoop (· + ·) rcvParam actTime cs
          ((increments rcvParam false c).foldl (· + ·) 0) ≠ 0 := by
        rw [foldl_add]
        omega
      simpa using hne

/-- The needed length is 0 when there is nothing to print, and is greater than
the length of what is printed otherwise. -/
theorem neededLen_cases (rcvParam : Bytes) (actTime : ℕ) (cs : List ContactFields) :
    (neededLen rcvParam actTime cs = 0 ∧ ∀ c ∈ cs, c.valid actTime = false) ∨
      neededLen rcvParam actTime cs ≠ 0 ∧
      (headerPieces rcvParam actTime cs).flatten.length ≤
        neededLen rcvParam actTime cs := by
  unfold neededLen calcLen
  by_cases hzero : calcLoop (· + ·) rcvParam actTime cs 0 = 0
  · left
    exact ⟨by simp [hzero], calcLoop_eq_zero.1 hzero⟩
  · right
    have hloop := length_loopPieces rcvParam actTime cs 0
    dsimp only
    rw [if_pos hzero]
    refine ⟨by omega, ?_⟩
    simp only [headerPieces, flatten_append, flatten_cons,
      flatten_nil, cons_append, List.length_append, length_nil]
    have hfl : decide ((0 : ℕ) ≠ 0) = false := rfl
    rw [hfl] at hloop
    omega

end Lengths

/-! ## What is in the buffer -/

/-- The pieces go over as many bytes, one behind the other. -/
theorem putAll_over (pieces : List Bytes) (a b c : Bytes)
    (hlen : b.length = pieces.flatten.length) :
    putAll pieces (a ++ b ++ c) a.length =
      some (a ++ pieces.flatten ++ c, a.length + pieces.flatten.length) := by
  induction pieces generalizing a b with
  | nil =>
    obtain rfl := length_eq_zero_iff.mp hlen
    simp [putAll]
  | cons x xs ih =>
    rw [flatten_cons, List.length_append] at hlen
    have hfirst : (b.take x.length).length = x.length := by
      rw [length_take]
      omega
    have hsplit : a ++ b ++ c = a ++ b.take x.length ++ (b.drop x.length ++ c) := by
      conv_lhs => rw [← take_append_drop x.length b]
      simp only [append_assoc]
    have hrest := ih (a ++ x) (b.drop x.length) (by rw [length_drop]; omega)
    rw [List.length_append] at hrest
    rw [putAll, hsplit, write_over hfirst.symm, Option.bind_some, ← append_assoc, hrest]
    simp [Nat.add_assoc]

/-- What `build_contact` can end with: there is nothing to print, there is no
memory, or the header field is at the front of a block that is long
enough. -/
inductive Built (rcvParam : Bytes) (actTime : ℕ) (cs : List ContactFields)
    (b : ContactBuf) : ContactBuf → ℤ → Prop
  | nothing (h : ∀ c ∈ cs, c.valid actTime = false) :
      Built rcvParam actTime cs b { b with dataLen := 0 } 0
  | noMemory :
      Built rcvParam actTime cs b { buf := none, bufLen := 0, dataLen := 0 } (-1)
  | written {b' : ContactBuf} {rest : Bytes}
      (hbuf : b'.buf =
        some ((headerPieces rcvParam actTime cs).flatten ++ rest))
      (hdata : b'.dataLen = (headerPieces rcvParam actTime cs).flatten.length)
      (hcount : b'.dataLen ≤ calcBufLen rcvParam actTime cs)
      (hroom : (calcBufLen rcvParam actTime cs : ℤ) ≤ b'.bufLen) :
      Built rcvParam actTime cs b b' 0

section Building

variable {rcvParam : Bytes} {actTime : ℕ} {cs : List ContactFields}
variable {b : ContactBuf}

theorem fillContact_built {mem : Bytes} {bufLen : ℤ}
    (hle : (headerPieces rcvParam actTime cs).flatten.length ≤ calcBufLen rcvParam actTime cs)
    (hroom : (calcBufLen rcvParam actTime cs : ℤ) ≤ bufLen)
    (hmem : bufLen ≤ mem.length) :
    ∃ b' ret, fillContact rcvParam actTime cs mem bufLen = some (b', ret) ∧
      b'.Sized ∧ Built rcvParam actTime cs b b' ret := by
  generalize hpieces : headerPieces rcvParam actTime cs = pieces at *
  have htake : (mem.take pieces.flatten.length).length =
      pieces.flatten.length := by
    rw [length_take]
    omega
  have hput := putAll_over pieces [] (mem.take pieces.flatten.length)
    (mem.drop pieces.flatten.length) htake
  rw [nil_append, take_append_drop, nil_append, length_nil, Nat.zero_add] at hput
  have hfill : fillContact rcvParam actTime cs mem bufLen =
      some (⟨some (pieces.flatten ++ mem.drop pieces.flatten.length), bufLen,
        pieces.flatten.length⟩, 0) := by
    rw [fillContact, hpieces, hput]
    rfl
  refine ⟨_, _, hfill, ?_, .written (by rw [hpieces]) (by rw [hpieces]) ?_ hroom⟩
  · intro m hm
    obtain rfl := Option.some.inj hm
    rw [List.length_append, length_drop]
    dsimp only
    omega
  · dsimp only
    omega

end Building

/-- A block of zeros. -/
def zeroBlock (n : ℕ) : Option Bytes := some (List.replicate n 0)

def emptyContactBuf : ContactBuf where
  buf := none
  bufLen := 0
  dataLen := 0

/-- A contact that is valid for another minute. -/
def oneMinute : ContactFields where
  c := ascii "sip:a"
  q := 500
  expires := 60
  flags := 0
  received := some (ascii "sip:b")

end Msicp.Registrar
