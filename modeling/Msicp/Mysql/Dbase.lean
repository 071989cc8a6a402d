import Msicp.Support.Buffer

/-!
# Values in SQL statements

A statement is put together in one buffer of fixed size.  What is printed into
it is cut at the end of the buffer, refused, or runs over the end.
-/

namespace Msicp.Mysql

open Msicp.Support

/-- A string that ends with a zero byte in memory. -/
structure CStr where
  text : Bytes
  clean : 0 ∉ text

/-- The functions of the C library and of the MySQL client library that format
and escape values.  `leftover` is what `strftime` leaves in an array that is
too small. -/
structure Lib (D : Type) where
  formatDouble : D → Bytes
  formatTime : ℤ → Bytes
  leftover : ℤ → ℕ → Bytes
  realEscape : Bytes → Bytes
  escape : Bytes → Bytes
  formatDouble_clean : ∀ d, 0 ∉ formatDouble d
  formatTime_clean : ∀ t, 0 ∉ formatTime t
  leftover_le : ∀ t n, (leftover t n).length ≤ n
  realEscape_le : ∀ s, (realEscape s).length ≤ 2 * s.length
  le_realEscape : ∀ s, s.length ≤ (realEscape s).length
  realEscape_clean : ∀ s, 0 ∉ realEscape s
  escape_le : ∀ s, (escape s).length ≤ 2 * s.length
  le_escape : ∀ s, s.length ≤ (escape s).length
  escape_clean : ∀ s, 0 ∉ escape s

/-- The union in `db_val_t`, by the type of the value. -/
inductive Datum (D : Type)
  | int (v : BitVec 32)
  | double (v : D)
  | string (s : CStr)
  | str (s : Bytes)
  | datetime (t : ℤ)
  | blob (s : Bytes)
  | bitmap (v : BitVec 32)

/-- `db_val_t` -/
structure Val (D : Type) where
  nul : Bool
  val : Datum D

/-- What printing comes to: `none` if a byte is written outside the buffer, and
else what is returned, `none` for an error, and the buffer. -/
abbrev Printed := Option (Option ℕ × Bytes)

/-- What follows a printing that has returned no error. -/
def Printed.bind (x : Printed) (f : ℕ → Bytes → Printed) : Printed :=
  match x with
  | none => none
  | some (none, mem) => some (none, mem)
  | some (some n, mem) => f n mem

/-- `snprintf` to the offset `off`. -/
def snprintf (mem : Bytes) (off size : ℕ) (text : Bytes) : Option (ℤ × Bytes) :=
  let ret : ℤ := if text.length < 2 ^ 31 then text.length else -1
  if size = 0 then some (ret, mem)
  else
    match write mem off (text.take (size - 1) ++ [0]) with
    | none => none
    | some mem => some (ret, mem)

/-- `snprintf`, and the check of what it returns. -/
def printPiece (mem : Bytes) (off size : ℕ) (text : Bytes) : Printed :=
  match snprintf mem off size text with
  | none => none
  | some (ret, mem) =>
    if ret < 0 ∨ (size : ℤ) ≤ ret then some (none, mem)
    else some (some ret.toNat, mem)

/-- `%-d` -/
def formatInt (v : BitVec 32) : Bytes := ascii (toString v.toInt)

def int2str (mem : Bytes) (off len : ℕ) (v : BitVec 32) : Printed :=
  if len = 0 then some (none, mem) else printPiece mem off len (formatInt v)

variable {D : Type} (lib : Lib D)

def double2str (mem : Bytes) (off len : ℕ) (v : D) : Printed :=
  if len = 0 then some (none, mem)
  else printPiece mem off len (lib.formatDouble v)

/-- `time2mysql`, that is `strftime`: nothing is returned for a text that does
not fit. -/
def time2mysql (mem : Bytes) (off len : ℕ) (t : ℤ) : Option (ℕ × Bytes) :=
  if (lib.formatTime t).length < len then
    match write mem off (lib.formatTime t ++ [0]) with
    | none => none
    | some mem => some ((lib.formatTime t).length, mem)
  else
    match write mem off (lib.leftover t len) with
    | none => none
    | some mem => some (0, mem)

def time2str (mem : Bytes) (off len : ℕ) (t : ℤ) : Printed :=
  if len < 2 then some (none, mem)
  else
    match write mem off (ascii "'") with
    | none => none
    | some mem =>
      match time2mysql lib mem (off + 1) (len - 1) t with
      | none => none
      | some (l, mem) =>
        match write mem (off + 1 + l) (ascii "'") with
        | none => none
        | some mem => some (some (l + 2), mem)

/-- The branches of `val2str` for texts.  The length and the room that is asked
for are of type `int`; a negative length is a huge one for the function that
escapes. -/
def quote (escape : Bytes → Bytes) (mem : Bytes) (off len : ℕ) (s : Bytes) :
    Printed :=
  let l := BitVec.ofNat 32 s.length
  if (len : ℤ) < (l * 2 + 3).toInt then some (none, mem)
  else if l.toInt < 0 then none
  else
    let text := escape (s.take l.toNat)
    match write mem off (ascii "'" ++ text ++ ascii "'" ++ [0]) with
    | none => none
    | some mem => some (some (text.length + 2), mem)

def val2str (v : Val D) (mem : Bytes) (off len : ℕ) : Printed :=
  if len = 0 then some (none, mem)
  else if v.nul then
    if len < 5 then some (none, mem)
    else
      match snprintf mem off len (ascii "NULL") with
      | none => none
      | some (ret, mem) => some (some ret.toNat, mem)
  else
    match v.val with
    | .int n => int2str mem off len n
    | .bitmap n => int2str mem off len n
    | .double d => double2str lib mem off len d
    | .string s => quote lib.realEscape mem off len s.text
    | .str s => quote lib.realEscape mem off len s
    | .datetime t => time2str lib mem off len t
    | .blob s => quote lib.escape mem off len s

end Msicp.Mysql

/-!
## Queries, insertions, deletions and updates

The functions of the MySQL module that put a statement together and hand it
over.  The buffer keeps what the statement before has left in it.
-/

namespace Msicp.Mysql

open Msicp.Support

def sqlBufLen : ℕ := 65536

/-- `sql_buf` -/
structure SqlBuf where
  mem : Bytes
  length_eq : mem.length = sqlBufLen

/-- A key, an operator and a value of the `where` clause; no operator where the
array of operators is null. -/
structure Cond (D : Type) where
  key : CStr
  op : Option CStr
  val : Val D

/-- A key and its value. -/
structure Assign (D : Type) where
  key : CStr
  val : Val D

/-- What is returned is counted from the offset of the buffer. -/
def Printed.advance (off : ℕ) (x : Printed) : Printed :=
  x.bind fun ret mem => some (some (off + ret), mem)

/-- A byte is written, with no look at the room that is left. -/
def putByte (mem : Bytes) (off : ℕ) (c : UInt8) : Printed :=
  match write mem off [c] with
  | none => none
  | some mem => some (some (off + 1), mem)

/-- The loop of `print_columns`. -/
def printColumnsLoop (mem : Bytes) (off l len : ℕ) : List CStr → Printed
  | [] => some (some len, mem)
  | [c] => (printPiece mem (off + len) (l - len) (c.text ++ ascii " ")).advance len
  | c :: cs =>
    ((printPiece mem (off + len) (l - len) (c.text ++ ascii ",")).advance
      len).bind fun len mem => printColumnsLoop mem off l len cs

def printColumns (mem : Bytes) (off l : ℕ) (c : List CStr) : Printed :=
  if c.length = 0 ∨ l = 0 then some (none, mem)
  else printColumnsLoop mem off l 0 c

variable {D : Type} (lib : Lib D)

/-- The loop of `print_values`. -/
def printValuesLoop (mem : Bytes) (off l res : ℕ) : List (Val D) → Printed
  | [] => some (some res, mem)
  | [v] => (val2str lib v mem (off + res) (l - res)).advance res
  | v :: vs =>
    ((val2str lib v mem (off + res) (l - res)).advance res).bind fun res mem =>
        (putByte mem (off + res) 44).bind fun _ mem =>
          printValuesLoop mem off l (res + 1) vs

def printValues (mem : Bytes) (off l : ℕ) (v : List (Val D)) : Printed :=
  if l = 0 ∨ v.length = 0 then some (none, mem)
  else printValuesLoop lib mem off l 0 v

/-- `val2str`, without a look at what it returns: the length is the one that it
has left. -/
def val2strAnyway (v : Val D) (mem : Bytes) (off len : ℕ) : Printed :=
  match val2str lib v mem off len with
  | none => none
  | some (none, mem) => some (some len, mem)
  | some (some l, mem) => some (some l, mem)

/-- The key of a condition, with the operator behind it. -/
def Cond.left (c : Cond D) : Bytes :=
  match c.op with
  | some op => c.key.text ++ op.text
  | none => c.key.text ++ ascii "="

/-- One condition of `print_where`. -/
def printCond (mem : Bytes) (off l len : ℕ) (c : Cond D) : Printed :=
  ((printPiece mem (off + len) (l - len) c.left).advance len).bind fun len mem =>
      (val2strAnyway lib c.val mem (off + len) (l - len)).advance len

/-- The loop of `print_where`. -/
def printWhereLoop (mem : Bytes) (off l len : ℕ) : List (Cond D) → Printed
  | [] => some (some len, mem)
  | [c] => printCond lib mem off l len c
  | c :: cs =>
    (printCond lib mem off l len c).bind fun len mem =>
      ((printPiece mem (off + len) (l - len) (ascii " AND ")).advance
        len).bind fun len mem => printWhereLoop mem off l len cs

def printWhere (mem : Bytes) (off l : ℕ) (c : List (Cond D)) : Printed :=
  if l = 0 ∨ c.length = 0 then some (none, mem)
  else printWhereLoop lib mem off l 0 c

/-- One assignment of `print_set`. -/
def printAssign (mem : Bytes) (off l len : ℕ) (u : Assign D) : Printed :=
  ((printPiece mem (off + len) (l - len) (u.key.text ++ ascii "=")).advance len).bind fun len mem =>
      (val2strAnyway lib u.val mem (off + len) (l - len)).advance len

/-- The loop of `print_set`. -/
def printSetLoop (mem : Bytes) (off l len : ℕ) : List (Assign D) → Printed
  | [] => some (some len, mem)
  | [u] => printAssign lib mem off l len u
  | u :: us =>
    (printAssign lib mem off l len u).bind fun len mem =>
      if 1 ≤ l - len then
        (putByte mem (off + len) 44).bind fun _ mem =>
          printSetLoop mem off l (len + 1) us
      else printSetLoop mem off l len us

def printSet (mem : Bytes) (off l : ℕ) (u : List (Assign D)) : Printed :=
  if l = 0 ∨ u.length = 0 then some (none, mem)
  else printSetLoop lib mem off l 0 u

/-- What a call comes to: an error with nothing submitted, or a statement that
is, as far as the zero byte that ends it. -/
inductive Outcome
  | error
  | submit (statement : Option Bytes)

/-- The string at the start of the buffer, if one ends in it. -/
def cString (mem : Bytes) : Option Bytes :=
  if 0 ∈ mem then some (mem.takeWhile (· ≠ 0)) else none

/-- `submit_query`, if there has been no error. -/
def submitQuery (x : Printed) : Option Outcome :=
  match x with
  | none => none
  | some (none, _) => some .error
  | some (some _, mem) => some (.submit (cString mem))

/-- A text is put at the end of the statement. -/
def append (mem : Bytes) (off : ℕ) (text : Bytes) : Printed :=
  (printPiece mem off (sqlBufLen - off) text).advance off

/-- `*(sql_buf + off) = '\0'` -/
def terminate (mem : Bytes) (off : ℕ) : Printed :=
  match write mem off [0] with
  | none => none
  | some mem => some (some off, mem)

/-- The `where` clause, if there are conditions. -/
def appendWhere (mem : Bytes) (off : ℕ) (intro : Bytes) (c : List (Cond D)) :
    Printed :=
  if c.length = 0 then some (some off, mem)
  else
    (append mem off intro).bind fun off mem =>
      (printWhere lib mem off (sqlBufLen - off) c).advance off

/-- The order of the rows, if there is one. -/
def appendOrder (mem : Bytes) (off : ℕ) (o : Option CStr) : Printed :=
  match o with
  | none => some (some off, mem)
  | some o => append mem off (ascii "order by " ++ o.text)

/-- `db_query`, up to the result of the statement.  All columns are asked for
where the array of columns is null. -/
def dbQuery (buf : SqlBuf) (table : CStr) (c : List (Cond D))
    (cols : Option (List CStr)) (order : Option CStr) : Option Outcome :=
  let head : Printed :=
    match cols with
    | none => append buf.mem 0 (ascii "select * from " ++ table.text ++ ascii " ")
    | some cols =>
      (append buf.mem 0 (ascii "select ")).bind fun off mem =>
        ((printColumns mem off (sqlBufLen - off) cols).advance off).bind fun off mem =>
            append mem off (ascii "from " ++ table.text ++ ascii " ")
  submitQuery <|
    head.bind fun off mem =>
      (appendWhere lib mem off (ascii "where ") c).bind fun off mem =>
        (appendOrder mem off order).bind fun off mem => terminate mem off

def dbInsert (buf : SqlBuf) (table : CStr) (u : List (Assign D)) :
    Option Outcome :=
  if u.length = 0 then some .error
  else
    submitQuery <|
      (append buf.mem 0 (ascii "insert into " ++ table.text ++ ascii " (")).bind fun off mem =>
      ((printColumns mem off (sqlBufLen - off) (u.map Assign.key)).advance off).bind fun off mem =>
      (append mem off (ascii ") values (")).bind fun off mem =>
      ((printValues lib mem off (sqlBufLen - off) (u.map Assign.val)).advance
        off).bind fun off mem =>
      (putByte mem off 41).bind fun off mem => terminate mem off

def dbDelete (buf : SqlBuf) (table : CStr) (c : List (Cond D)) :
    Option Outcome :=
  submitQuery <|
    (append buf.mem 0 (ascii "delete from " ++ table.text)).bind fun off mem =>
    (appendWhere lib mem off (ascii " where ") c).bind fun off mem =>
      terminate mem off

/-- `db_update`.  The statement is ended only behind conditions. -/
def dbUpdate (buf : SqlBuf) (table : CStr) (c : List (Cond D))
    (u : List (Assign D)) : Option Outcome :=
  if u.length = 0 then some .error
  else
    submitQuery <|
      (append buf.mem 0 (ascii "update " ++ table.text ++ ascii " set ")).bind fun off mem =>
      ((printSet lib mem off (sqlBufLen - off) u).advance off).bind fun off mem =>
          if c.length = 0 then some (some off, mem)
          else
            (appendWhere lib mem off (ascii " where ") c).bind fun off mem =>
              terminate mem off

end Msicp.Mysql
