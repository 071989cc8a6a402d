import Msicp.Support.Bytes
import Mathlib.Data.Nat.Cast.Order.Ring
import Mathlib.Tactic.Ring

/-!
# Scanning a request for its end (`tcp_read_headers`)

The bytes read from a connection are scanned one after the other, from where
the scan stopped at the last read.  The scan looks for a Content-Length line
and for the empty line at the end of the headers, and then counts the bytes of
the body.
-/

namespace Msicp.Tcp

open Msicp.Support List

/-- `enum tcp_req_states`; `contLen k` is `H_CONT_LEN1` to `H_CONT_LEN13`. -/
inductive ReqState
  | skipEmpty
  | skip
  | lf
  | lfcr
  | body
  | startWs
  | contLen (k : Fin 13)
  | lColon
  | contLenBody
  | contLenBodyParse
  deriving DecidableEq

/-- `enum tcp_req_errors` -/
inductive ReqError
  | ok
  | overrun
  | badLen
  deriving DecidableEq

/-- The fields of `struct tcp_req` that the scan works on.  Pointers are
offsets from `buf`. -/
structure Scan where
  start : ℕ
  parsed : ℤ
  body : Option ℕ
  contentLen : ℤ
  hasContentLen : Bool
  complete : Bool
  bytesToGo : ℤ
  error : ReqError
  state : ReqState

/-- The fields as `init_tcp_req` and the preparation for the next request set
them. -/
def Scan.init : Scan where
  start := 0
  parsed := 0
  body := none
  contentLen := 0
  hasContentLen := false
  complete := false
  bytesToGo := 0
  error := .ok
  state := .skipEmpty

/-- Arithmetic on a 32-bit `int`. -/
def toInt (x : ℤ) : ℤ := x.bmod (2 ^ 32)

/-- `' '` or `'\t'` -/
def isBlank (c : UInt8) : Bool := c == 32 || c == 9

/-- `'0'` to `'9'` -/
def isDigit (c : UInt8) : Bool := 48 ≤ c && c ≤ 57

/-- `*p - '0'` -/
def digitVal (c : UInt8) : ℕ := c.toNat - 48

/-- The two characters that `H_CONT_LEN1` to `H_CONT_LEN13` go on at. -/
def contLenChars : List (UInt8 × UInt8) :=
  [(79, 111), (78, 110), (84, 116), (69, 101), (78, 110), (84, 116), (45, 95),
    (76, 108), (69, 101), (78, 110), (71, 103), (84, 116), (72, 104)]

/-- The state behind `H_CONT_LEN1` to `H_CONT_LEN13`. -/
def contLenNext (k : Fin 13) : ReqState :=
  if h : k.val + 1 < 13 then .contLen ⟨k.val + 1, h⟩ else .lColon

/-- `crlf_default_skip_case` -/
def crlfDefaultSkip (c : UInt8) : ReqState :=
  if c = 10 then .lf else .skip

/-- `content_len_beg_case`; `none` when no case applies. -/
def contentLenBeg (r : Scan) (c : UInt8) : Option ReqState :=
  if isBlank c then some (if r.hasContentLen then .skip else .startWs)
  else if c = 67 ∨ c = 99 then
    some (if r.hasContentLen then .skip else .contLen 0)
  else if c = 76 ∨ c = 108 then
    some (if r.hasContentLen then .skip else .lColon)
  else none

/-- The empty line was found, its line feed at `p`. -/
def foundEmptyLine (r : Scan) (p : ℕ) : Scan :=
  if r.hasContentLen then
    { r with
      state := .body
      body := some (p + 1)
      bytesToGo := r.contentLen
      complete := r.contentLen = 0 }
  else { r with state := .body, error := .badLen }

/-- One turn of the loop of `tcp_read_headers` in a state other than `H_BODY`,
at the byte `c` at `p`. -/
def headerStep (r : Scan) (p : ℕ) (c : UInt8) : Scan :=
  match r.state with
  | .body => r
  | .skip => if c = 10 then { r with state := .lf } else r
  | .lf =>
    if c = 13 then { r with state := .lfcr }
    else if c = 10 then foundEmptyLine r p
    else { r with state := (contentLenBeg r c).getD .skip }
  | .lfcr =>
    if c = 10 then foundEmptyLine r p else { r with state := .skip }
  | .startWs =>
    { r with state := (contentLenBeg r c).getD (crlfDefaultSkip c) }
  | .skipEmpty =>
    if isBlank c ∨ c = 10 ∨ c = 13 then r
    else if c = 67 ∨ c = 99 then { r with state := .contLen 0, start := p }
    else if c = 76 ∨ c = 108 then { r with state := .lColon, start := p }
    else { r with state := .skip, start := p }
  | .contLen k =>
    if c = contLenChars[k].1 ∨ c = contLenChars[k].2 then
      { r with state := contLenNext k }
    else { r with state := crlfDefaultSkip c }
  | .lColon =>
    if isBlank c then r
    else if c = 58 then { r with state := .contLenBody }
    else { r with state := crlfDefaultSkip c }
  | .contLenBody =>
    if isBlank c then r
    else if isDigit c then
      { r with state := .contLenBodyParse, contentLen := digitVal c }
    else { r with state := crlfDefaultSkip c }
  | .contLenBodyParse =>
    if isDigit c then
      { r with contentLen := toInt (r.contentLen * 10 + digitVal c) }
    else if isBlank c ∨ c = 13 then
      { r with state := .skip, hasContentLen := true }
    else if c = 10 then { r with state := .lf, hasContentLen := true }
    else { r with state := .skip }

/-- `H_BODY`, with `avail` bytes between `p` and `pos`. -/
def bodyStep (r : Scan) (p avail : ℕ) : Scan :=
  let remaining := min (avail : ℤ) r.bytesToGo
  { r with
    bytesToGo := r.bytesToGo - remaining
    parsed := p + remaining
    complete := r.complete || r.bytesToGo - remaining = 0 }

/-- The loop of `tcp_read_headers` over the bytes from `p` to `pos`.  In
`H_BODY` one turn takes all the bytes it can use; the loop over `H_SKIP` is
the search of `q_memchr`. -/
def readHeadersLoop (r : Scan) (p : ℕ) : Bytes → Scan
  | [] => { r with parsed := p }
  | c :: rest =>
    if r.error ≠ .ok then { r with parsed := p }
    else if r.state = .body then bodyStep r p (rest.length + 1)
    else
      let r' := headerStep r p c
      if r'.complete then { r' with parsed := p + 1 }
      else readHeadersLoop r' (p + 1) rest

/-- A point of the loop: the fields, the local parse position, the end of the
bytes read and the byte looked at. -/
structure Point where
  r : Scan
  p : ℤ
  pos : ℕ
  next : Option UInt8

/-- The points that `readHeadersLoop` passes through. -/
def readHeadersPoints (r : Scan) (p : ℕ) : Bytes → List Point
  | [] => [⟨r, p, p, none⟩]
  | c :: rest =>
    let pos := p + (rest.length + 1)
    ⟨r, p, pos, some c⟩ ::
      if r.error ≠ .ok then []
      else if r.state = .body then
        let r' := bodyStep r p (rest.length + 1)
        [⟨r', r'.parsed, pos, none⟩]
      else
        let r' := headerStep r p c
        if r'.complete then [⟨r', (p + 1 : ℕ), pos, none⟩]
        else readHeadersPoints r' (p + 1) rest

/-! ## Resuming the scan -/

/-- The scan wants more bytes. -/
structure Scan.Open (r : Scan) : Prop where
  error : r.error = .ok
  complete : r.complete = false

variable {r : Scan} {p : ℕ} {rest a : Bytes}

theorem readHeadersLoop_cons {c : UInt8} (hopen : r.Open) : readHeadersLoop r p (c :: rest) =
      if r.state = .body then bodyStep r p (rest.length + 1)
      else if (headerStep r p c).complete then
        { headerStep r p c with parsed := p + 1 }
      else readHeadersLoop (headerStep r p c) (p + 1) rest := by
  rw [readHeadersLoop, if_neg (not_not.mpr hopen.error)]

theorem readHeadersLoop_error (herror : r.error ≠ .ok) :
    readHeadersLoop r p rest = { r with parsed := p } := by
  cases rest with
  | nil => rfl
  | cons c rest => rw [readHeadersLoop, if_pos herror]

theorem bodyStep_open {n : ℕ} (hopen : (bodyStep r p n).Open) :
    (n : ℤ) ≤ r.bytesToGo ∧ (bodyStep r p n).parsed = (p + n : ℕ) ∧
      (bodyStep r p n).bytesToGo = r.bytesToGo - n := by
  have hcomplete := hopen.complete
  simp only [bodyStep, Bool.or_eq_false_iff, decide_eq_false_iff_not] at hcomplete
  have hmin : min (n : ℤ) r.bytesToGo = n := by omega
  refine ⟨by omega, ?_, ?_⟩
  · simp only [bodyStep, hmin, Nat.cast_add]
  · simp only [bodyStep, hmin]

theorem bodyStep_append {n : ℕ} (m : ℕ) (hopen : (bodyStep r p n).Open) :
    bodyStep r p (n + m) = bodyStep (bodyStep r p n) (p + n) m := by
  obtain ⟨hle, -, -⟩ := bodyStep_open hopen
  have hrc : r.complete = false := by
    have hcomplete := hopen.complete
    simp only [bodyStep, Bool.or_eq_false_iff] at hcomplete
    exact hcomplete.1
  have hmin : min (n : ℤ) r.bytesToGo = n := by omega
  have hsplit : min ((n : ℤ) + m) r.bytesToGo = n + min (m : ℤ) (r.bytesToGo - n) := by omega
  have hsub : r.bytesToGo - (n + min (m : ℤ) (r.bytesToGo - n)) =
      r.bytesToGo - n - min (m : ℤ) (r.bytesToGo - n) := by omega
  have hne : r.bytesToGo - n ≠ 0 := by
    have hcomplete := hopen.complete
    simp only [bodyStep, Bool.or_eq_false_iff, decide_eq_false_iff_not, hmin] at hcomplete
    exact hcomplete.2
  simp only [bodyStep, hmin, Nat.cast_add, hsplit, hsub, hrc, hne,
    Bool.false_or, decide_false, add_assoc]

theorem bodyStep_stop {r : Scan} {p n : ℕ} (m : ℕ) (hopen : r.Open)
    (hstop : ¬ (bodyStep r p n).Open) :
    bodyStep r p (n + m) = bodyStep r p n := by
  have hle : r.bytesToGo ≤ n := by
    by_contra hlt
    have hmin : min (n : ℤ) r.bytesToGo = n := by omega
    refine hstop ⟨hopen.error, ?_⟩
    simp only [bodyStep, hopen.complete, hmin, Bool.false_or, decide_eq_false_iff_not]
    omega
  have hmin : min (n : ℤ) r.bytesToGo = r.bytesToGo := by omega
  have hmin' : min ((n + m : ℕ) : ℤ) r.bytesToGo = r.bytesToGo := by omega
  simp only [bodyStep, hmin, hmin']

theorem headerStep_setParsed {q : ℤ} {c : UInt8} : headerStep { r with parsed := q } p c =
      { headerStep r p c with parsed := q } := by
  obtain ⟨_, _, _, _, _, _, _, _, state⟩ := r
  cases state <;> simp only [headerStep, foundEmptyLine] <;>
    (try split_ifs) <;> rfl

theorem readHeadersLoop_setParsed {q : ℤ} : readHeadersLoop { r with parsed := q } p rest =
      readHeadersLoop r p rest := by
  induction rest generalizing r p with
  | nil => rfl
  | cons c rest ih =>
    simp only [readHeadersLoop, headerStep_setParsed, ih]
    rfl

/-- An open scan has come to the end of its bytes. -/
theorem readHeadersLoop_parsed (hopen : r.Open) (hafter : (readHeadersLoop r p a).Open) :
    (readHeadersLoop r p a).parsed = (p + a.length : ℕ) := by
  induction a generalizing r p with
  | nil => rfl
  | cons c rest ih =>
    rw [readHeadersLoop_cons hopen] at hafter ⊢
    by_cases hbody : r.state = .body
    · rw [if_pos hbody] at hafter ⊢
      exact (bodyStep_open hafter).2.1
    · rw [if_neg hbody] at hafter ⊢
      by_cases hcomplete : (headerStep r p c).complete = true
      · rw [if_pos hcomplete] at hafter
        exact absurd hafter.complete (by simp [hcomplete])
      · rw [if_neg hcomplete] at hafter ⊢
        have hstep : (headerStep r p c).Open := by
          refine ⟨?_, by simpa using hcomplete⟩
          by_contra herror
          rw [readHeadersLoop_error herror] at hafter
          exact herror hafter.error
        rw [ih hstep hafter, length_cons]
        norm_cast
        omega

theorem readHeadersLoop_parsed_le {r : Scan} {p : ℕ} {a : Bytes} :
    (readHeadersLoop r p a).parsed ≤ (p + a.length : ℕ) := by
  induction a generalizing r p with
  | nil => exact le_rfl
  | cons c rest ih =>
    have hlen : p + (c :: rest).length = p + 1 + rest.length := by
      rw [length_cons]
      omega
    rw [readHeadersLoop, hlen]
    dsimp only
    split_ifs
    · push_cast
      omega
    · simp only [bodyStep]
      push_cast
      omega
    · push_cast
      omega
    · exact ih

/-- More bytes do not change a scan that has stopped. -/
theorem readHeadersLoop_stop (d : Bytes) (hopen : r.Open) (hstop : ¬ (readHeadersLoop r p a).Open) :
    readHeadersLoop r p (a ++ d) = readHeadersLoop r p a := by
  induction a generalizing r p with
  | nil => exact absurd ⟨hopen.error, hopen.complete⟩ hstop
  | cons c rest ih =>
    rw [readHeadersLoop_cons hopen] at hstop
    rw [cons_append, readHeadersLoop_cons hopen, readHeadersLoop_cons hopen]
    by_cases hbody : r.state = .body
    · rw [if_pos hbody] at hstop
      rw [if_pos hbody, if_pos hbody]
      have hmore := @bodyStep_stop r p (rest.length + 1) d.length hopen hstop
      rw [List.length_append]
      rw [← hmore]
      congr 1
      omega
    · rw [if_neg hbody] at hstop
      rw [if_neg hbody, if_neg hbody]
      by_cases hcomplete : (headerStep r p c).complete = true
      · rw [if_pos hcomplete, if_pos hcomplete]
      · rw [if_neg hcomplete] at hstop
        rw [if_neg hcomplete, if_neg hcomplete]
        by_cases herror : (headerStep r p c).error = .ok
        · exact ih ⟨herror, by simpa using hcomplete⟩ hstop
        · rw [readHeadersLoop_error herror, readHeadersLoop_error herror]

/-- A scan that wants more bytes goes on with them as if they had been there
from the start. -/
theorem readHeadersLoop_append (d : Bytes)
    (hopen : r.Open) (hafter : (readHeadersLoop r p a).Open) :
    readHeadersLoop r p (a ++ d) = readHeadersLoop (readHeadersLoop r p a) (p + a.length) d := by
  induction a generalizing r p with
  | nil =>
    change readHeadersLoop r p d = readHeadersLoop { r with parsed := (p : ℤ) } p d
    exact readHeadersLoop_setParsed.symm
  | cons c rest ih =>
    rw [readHeadersLoop_cons hopen] at hafter
    rw [cons_append, readHeadersLoop_cons hopen, readHeadersLoop_cons hopen]
    by_cases hbody : r.state = .body
    · rw [if_pos hbody] at hafter
      rw [if_pos hbody, if_pos hbody]
      have hmore := bodyStep_append d.length hafter
      have hlen : (rest ++ d).length + 1 = rest.length + 1 + d.length := by
        rw [List.length_append]
        omega
      rw [hlen, hmore]
      cases d with
      | nil =>
        obtain ⟨-, hparsed, -⟩ := bodyStep_open hafter
        have hzero := bodyStep_append 0 hafter
        rw [Nat.add_zero] at hzero
        rw [length_nil, ← hzero, readHeadersLoop, length_cons, ← hparsed]
      | cons e d =>
        have hstate : (bodyStep r p (rest.length + 1)).state = .body :=
          hbody
        rw [readHeadersLoop_cons hafter, if_pos hstate]
        rfl
    · rw [if_neg hbody] at hafter
      rw [if_neg hbody, if_neg hbody]
      by_cases hcomplete : (headerStep r p c).complete = true
      · rw [if_pos hcomplete] at hafter
        exact absurd hafter.complete (by simp [hcomplete])
      · rw [if_neg hcomplete] at hafter
        rw [if_neg hcomplete, if_neg hcomplete]
        have hstep : (headerStep r p c).Open := by
          refine ⟨?_, by simpa using hcomplete⟩
          by_contra herror
          rw [readHeadersLoop_error herror] at hafter
          exact herror hafter.error
        rw [ih hstep hafter, length_cons]
        congr 1
        omega

end Msicp.Tcp
