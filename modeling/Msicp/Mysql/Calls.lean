import Msicp.Mysql.Statements

/-!
# The four calls

The statement that each call should submit, the pieces in which its code prints
it, and when it does.
-/

namespace Msicp.Mysql

open Msicp.Support List

variable {D : Type} (lib : Lib D)

/-! ## The statements -/

/-- A condition, with its value. -/
def Cond.text (c : Cond D) : Bytes := c.left ++ c.val.literal lib

/-- An assignment, with its value. -/
def Assign.text (u : Assign D) : Bytes :=
  u.key.text ++ ascii "=" ++ u.val.literal lib

/-- Texts with a separator between them. -/
def joined (separator : Bytes) (texts : List Bytes) : Bytes :=
  separator.intercalate texts

/-- A clause with the conditions, if there are any. -/
def whereText (intro : Bytes) (c : List (Cond D)) : Bytes :=
  if c.length = 0 then []
  else intro ++ joined (ascii " AND ") (c.map (Cond.text lib))

/-- The columns of a query or an insertion. -/
def columnsText (c : List CStr) : Bytes :=
  if c.length = 0 then [] else joined (ascii ",") (c.map CStr.text) ++ ascii " "

def colsText : Option (List CStr) → Bytes
  | none => ascii "* "
  | some cols => columnsText cols

def orderText : Option CStr → Bytes
  | none => []
  | some o => ascii "order by " ++ o.text

/-- The calls. -/
inductive Call (D : Type)
  | query (table : CStr) (c : List (Cond D)) (cols : Option (List CStr))
      (order : Option CStr)
  | insert (table : CStr) (u : List (Assign D))
  | delete (table : CStr) (c : List (Cond D))
  | update (table : CStr) (c : List (Cond D)) (u : List (Assign D))

/-- The statement that a call should submit. -/
def Call.statement : Call D → Bytes
  | .query table c cols order =>
    ascii "select " ++ colsText cols ++ ascii "from " ++ table.text ++
    ascii " " ++ whereText lib (ascii "where ") c ++ orderText order
  | .insert table u =>
    ascii "insert into " ++ table.text ++ ascii " (" ++
    columnsText (u.map Assign.key) ++ ascii ") values (" ++
    joined (ascii ",") (u.map fun u => u.val.literal lib) ++ ascii ")"
  | .delete table c =>
    ascii "delete from " ++ table.text ++ whereText lib (ascii " where ") c
  | .update table c u =>
    ascii "update " ++ table.text ++ ascii " set " ++
    joined (ascii ",") (u.map (Assign.text lib)) ++
    whereText lib (ascii " where ") c

/-- What a call does, with what the buffer has left in it. -/
def Call.run (buf : SqlBuf) : Call D → Option Outcome
  | .query table c cols order => dbQuery lib buf table c cols order
  | .insert table u => dbInsert lib buf table u
  | .delete table c => dbDelete lib buf table c
  | .update table c u => dbUpdate lib buf table c u

/-! ## The pieces -/

def columnPieces : List CStr → List (Piece D)
  | [] => []
  | [c] => [.text (c.text ++ ascii " ")]
  | c :: cs => .text (c.text ++ ascii ",") :: columnPieces cs

def valuePieces : List (Val D) → List (Piece D)
  | [] => []
  | [v] => [.value v]
  | v :: vs => .value v :: .mark 44 :: valuePieces vs

def condPieces : List (Cond D) → List (Piece D)
  | [] => []
  | [c] => [.assign c.left c.val]
  | c :: cs => .assign c.left c.val :: .text (ascii " AND ") :: condPieces cs

def assignPieces : List (Assign D) → List (Piece D)
  | [] => []
  | [u] => [.assign (u.key.text ++ ascii "=") u.val]
  | u :: us =>
    .assign (u.key.text ++ ascii "=") u.val :: .comma :: assignPieces us

def wherePieces (intro : Bytes) (c : List (Cond D)) : List (Piece D) :=
  if c.length = 0 then [] else .text intro :: condPieces c

def colsPieces (table : CStr) : Option (List CStr) → List (Piece D)
  | none => [.text (ascii "select * from " ++ table.text ++ ascii " ")]
  | some cols =>
    .text (ascii "select ") :: (if cols.length = 0 then [.fail] else columnPieces cols) ++
      [.text (ascii "from " ++ table.text ++ ascii " ")]

def orderPieces : Option CStr → List (Piece D)
  | none => []
  | some o => [.text (ascii "order by " ++ o.text)]

/-- The pieces in which a call prints its statement. -/
def Call.pieces : Call D → List (Piece D)
  | .query table c cols order =>
    colsPieces table cols ++ wherePieces (ascii "where ") c ++ orderPieces order ++ [.nul]
  | .insert table u =>
    if u.length = 0 then [.fail]
    else
      .text (ascii "insert into " ++ table.text ++ ascii " (") ::
        columnPieces (u.map Assign.key) ++ [.text (ascii ") values (")] ++
        valuePieces (u.map Assign.val) ++ [.mark 41, .nul]
  | .delete table c =>
    .text (ascii "delete from " ++ table.text) :: wherePieces (ascii " where ") c ++ [.nul]
  | .update table c u =>
    if u.length = 0 then [.fail]
    else
      .text (ascii "update " ++ table.text ++ ascii " set ") :: assignPieces u ++
        if c.length = 0 then [] else wherePieces (ascii " where ") c ++ [.nul]

/-! ## The code prints the pieces -/

variable {lib}

@[simp] theorem Printed.bind_done (n : ℕ) (mem : Bytes) (f : ℕ → Bytes → Printed) :
    Printed.bind (some (some n, mem)) f = f n mem := rfl

variable (s mem : Bytes) (off : ℕ) (x : Printed) (c : List CStr)

@[simp] theorem Printed.bind_pure : (x.bind fun n mem => some (some n, mem)) = x := by
  match x with
  | none => rfl
  | some (none, mem) => rfl
  | some (some n, mem) => rfl

theorem Printed.bind_assoc (f g : ℕ → Bytes → Printed) :
    (x.bind f).bind g = x.bind fun n mem => (f n mem).bind g := by
  match x with
  | none => rfl
  | some (none, mem) => rfl
  | some (some n, mem) => rfl

theorem Printed.advance_bind (f : ℕ → Bytes → Printed) :
    (x.bind f).advance off = x.bind fun n mem => (f n mem).advance off :=
  x.bind_assoc f _

theorem exec_append (ps ps' : List (Piece D)) (mem : Bytes) (off : ℕ) :
    exec lib mem off (ps ++ ps') =
      (exec lib mem off ps).bind fun off mem => exec lib mem off ps' := by
  induction ps generalizing mem off with
  | nil => rfl
  | cons p ps ih =>
    simp only [cons_append, exec, Printed.bind_assoc, ih]

theorem printPiece_bind (lib : Lib D) (mem : Bytes) (off len : ℕ) (t : Bytes)
    (f : ℕ → Bytes → Printed) :
    ((printPiece mem (off + len) (sqlBufLen - off - len) t).advance len).bind
        (fun len mem => f (off + len) mem) =
      ((Piece.text t).exec lib mem (off + len)).bind f := by
  unfold Piece.exec append Printed.advance
  dsimp only
  rw [Nat.sub_sub, Printed.bind_assoc, Printed.bind_assoc]
  simp only [Printed.bind_done, Nat.add_assoc]

theorem printAssign_bind (len : ℕ) (t : Bytes) (v : Val D) (f : ℕ → Bytes → Printed) :
    (((printPiece mem (off + len) (sqlBufLen - off - len) t).advance len).bind fun len mem =>
          (val2strAnyway lib v mem (off + len) (sqlBufLen - off - len)).advance len).bind
        (fun len mem => f (off + len) mem) =
      ((Piece.assign t v).exec lib mem (off + len)).bind f := by
  have htext := printPiece_bind lib mem off len t fun off mem =>
    ((val2strAnyway lib v mem off (sqlBufLen - off)).advance off).bind f
  unfold Piece.exec at htext ⊢
  dsimp only at htext ⊢
  rw [Printed.bind_assoc, Printed.bind_assoc, ← htext]
  unfold Printed.advance
  simp only [Printed.bind_assoc, Printed.bind_done, Nat.add_assoc, Nat.sub_sub]

theorem printColumnsLoop_exec (mem : Bytes) (off len : ℕ) :
    (printColumnsLoop mem off (sqlBufLen - off) len c).advance off =
      exec lib mem (off + len) (columnPieces c) := by
  fun_induction columnPieces (D := D) c generalizing mem len with
  | case1 => rfl
  | case2 c =>
    exact printPiece_bind lib mem off len _ fun off mem => some (some off, mem)
  | case3 c cs hcs ih =>
    rw [printColumnsLoop, Printed.advance_bind, exec, ← printPiece_bind]
    · simp only [ih]
    · exact hcs

theorem printWhereLoop_exec (c : List (Cond D)) (mem : Bytes) (off len : ℕ) :
    (printWhereLoop lib mem off (sqlBufLen - off) len c).advance off =
      exec lib mem (off + len) (condPieces c) := by
  fun_induction condPieces c generalizing mem len with
  | case1 => rfl
  | case2 c =>
    exact printAssign_bind mem off len _ _ fun off mem => some (some off, mem)
  | case3 c cs hcs ih =>
    rw [printWhereLoop, Printed.advance_bind, exec, ← printAssign_bind]
    · simp only [exec, ← printPiece_bind, Printed.advance_bind, ih]
      rfl
    · exact hcs

theorem putByte_bind (c : UInt8) (f : ℕ → Bytes → Printed) :
    ((putByte mem off c).bind fun _ mem => f (off + 1) mem) = (putByte mem off c).bind f := by
  unfold putByte
  match write mem off [c] with
  | none => rfl
  | some mem => rfl

theorem printSetLoop_exec (u : List (Assign D)) (mem : Bytes) (off len : ℕ) :
    (printSetLoop lib mem off (sqlBufLen - off) len u).advance off =
      exec lib mem (off + len) (assignPieces u) := by
  fun_induction assignPieces u generalizing mem len with
  | case1 => rfl
  | case2 u =>
    exact printAssign_bind mem off len _ _ fun off mem => some (some off, mem)
  | case3 u us hus ih =>
    have hcomma : ∀ mem len, Printed.advance off (if 1 ≤ sqlBufLen - off - len then
          (putByte mem (off + len) 44).bind fun _ mem =>
            printSetLoop lib mem off (sqlBufLen - off) (len + 1) us
        else printSetLoop lib mem off (sqlBufLen - off) len us) =
          exec lib mem (off + len) (.comma :: assignPieces us) := by
      intro mem len
      unfold exec Piece.exec
      dsimp only
      rw [Nat.sub_sub]
      split
      · simp only [Printed.advance_bind, ih]
        exact putByte_bind mem (off + len) 44 fun off mem =>
          exec lib mem off (assignPieces us)
      · exact ih mem len
    rw [printSetLoop, Printed.advance_bind, exec, ← printAssign_bind]
    · simp only [hcomma]
      rfl
    · exact hus

theorem value_bind (len : ℕ) (v : Val D) (f : ℕ → Bytes → Printed) :
    ((val2str lib v mem (off + len) (sqlBufLen - off - len)).advance len).bind
        (fun len mem => f (off + len) mem) =
      ((Piece.value v).exec lib mem (off + len)).bind f := by
  unfold Piece.exec Printed.advance
  dsimp only
  rw [Nat.sub_sub, Printed.bind_assoc, Printed.bind_assoc]
  simp only [Printed.bind_done, Nat.add_assoc]

theorem printValuesLoop_exec (v : List (Val D)) (mem : Bytes) (off len : ℕ) :
    (printValuesLoop lib mem off (sqlBufLen - off) len v).advance off =
      exec lib mem (off + len) (valuePieces v) := by
  fun_induction valuePieces v generalizing mem len with
  | case1 => rfl
  | case2 v =>
    exact value_bind mem off len v fun off mem => some (some off, mem)
  | case3 v vs hvs ih =>
    rw [printValuesLoop, Printed.advance_bind, exec, ← value_bind]
    · simp only [exec, Piece.exec, Printed.advance_bind, ih, ← putByte_bind, Nat.add_assoc]
    · exact hvs

/-! ## The calls print their pieces -/

theorem append_full {mem t : Bytes} {off : ℕ} (h : sqlBufLen - off = 0) :
    append mem off t = some (none, mem) := by
  unfold append printPiece snprintf
  rw [h]
  simp only [if_true]
  rw [if_pos (by split <;> omega)]
  rfl

theorem printColumns_exec (lib : Lib D) (c : List CStr) (mem : Bytes) (off : ℕ) :
    (printColumns mem off (sqlBufLen - off) c).advance off = exec lib mem off
        (if c.length = 0 then [.fail] else columnPieces c) := by
  unfold printColumns
  by_cases hc : c.length = 0
  · rw [if_pos (.inl hc), if_pos hc]
    rfl
  rw [if_neg hc]
  by_cases hroom : sqlBufLen - off = 0
  · rw [if_pos (.inr hroom)]
    match c with
    | [c] =>
      simp only [columnPieces, exec, Piece.exec, append_full hroom]
      rfl
    | c :: c' :: cs =>
      simp only [columnPieces, exec, Piece.exec, append_full hroom]
      rfl
  · rw [if_neg (by omega)]
    exact printColumnsLoop_exec c mem off 0

theorem printWhere_exec {c : List (Cond D)} (hc : c.length ≠ 0) (mem : Bytes) (off : ℕ) :
    (printWhere lib mem off (sqlBufLen - off) c).advance off = exec lib mem off (condPieces c) := by
  unfold printWhere
  by_cases hroom : sqlBufLen - off = 0
  · rw [if_pos (.inl hroom)]
    match c with
    | [c] =>
      simp only [condPieces, exec, Piece.exec, append_full hroom]
      rfl
    | c :: c' :: cs =>
      simp only [condPieces, exec, Piece.exec, append_full hroom]
      rfl
  · rw [if_neg (by omega)]
    exact printWhereLoop_exec c mem off 0

theorem printSet_exec {u : List (Assign D)} (hu : u.length ≠ 0) (mem : Bytes) (off : ℕ) :
    (printSet lib mem off (sqlBufLen - off) u).advance off = exec lib mem off (assignPieces u) := by
  unfold printSet
  by_cases hroom : sqlBufLen - off = 0
  · rw [if_pos (.inl hroom)]
    match u with
    | [u] =>
      simp only [assignPieces, exec, Piece.exec, append_full hroom]
      rfl
    | u :: u' :: us =>
      simp only [assignPieces, exec, Piece.exec, append_full hroom]
      rfl
  · rw [if_neg (by omega)]
    exact printSetLoop_exec u mem off 0

theorem printValues_exec {v : List (Val D)} (hv : v.length ≠ 0) (mem : Bytes) (off : ℕ) :
    (printValues lib mem off (sqlBufLen - off) v).advance off =
      exec lib mem off (valuePieces v) := by
  unfold printValues
  by_cases hroom : sqlBufLen - off = 0
  · rw [if_pos (.inl hroom)]
    match v with
    | [v] =>
      simp only [valuePieces, exec, Piece.exec, val2str, hroom, if_true]
      rfl
    | v :: v' :: vs =>
      simp only [valuePieces, exec, Piece.exec, val2str, hroom, if_true]
      rfl
  · rw [if_neg (by omega)]
    exact printValuesLoop_exec v mem off 0

theorem appendWhere_exec (intro : Bytes) (c : List (Cond D)) (mem : Bytes) (off : ℕ) :
    appendWhere lib mem off intro c = exec lib mem off (wherePieces intro c) := by
  unfold appendWhere wherePieces
  by_cases hc : c.length = 0
  · rw [if_pos hc, if_pos hc]
    rfl
  · rw [if_neg hc, if_neg hc]
    simp only [exec, Piece.exec, printWhere_exec hc]

theorem appendOrder_exec (lib : Lib D) (o : Option CStr) (mem : Bytes) (off : ℕ) :
    appendOrder mem off o = exec lib mem off (orderPieces o) := by
  cases o with
  | none => rfl
  | some o => exact (Printed.bind_pure _).symm

/-- Every call prints its pieces and submits what comes out. -/
theorem run_eq (buf : SqlBuf) (c : Call D) :
    c.run lib buf = submitQuery (exec lib buf.mem 0 c.pieces) := by
  cases c with
  | query table c cols order =>
    unfold Call.run Call.pieces dbQuery
    cases cols with
    | none =>
      simp only [colsPieces, exec_append, exec, Piece.exec, appendWhere_exec,
        appendOrder_exec lib, Printed.bind_pure, Printed.bind_assoc]
    | some cols =>
      simp only [colsPieces, exec_append, exec, Piece.exec, appendWhere_exec,
        appendOrder_exec lib, printColumns_exec lib,
        Printed.bind_pure, Printed.bind_assoc, cons_append]
  | insert table u =>
    unfold Call.run Call.pieces dbInsert
    by_cases hu : u.length = 0
    · simp only [hu, if_true]
      rfl
    · have hkeys : (u.map Assign.key).length ≠ 0 := by simpa using hu
      have hvals : (u.map Assign.val).length ≠ 0 := by simpa using hu
      simp only [hu, if_false, exec_append, exec, Piece.exec,
        printColumns_exec lib, hkeys, printValues_exec hvals,
        Printed.bind_pure, Printed.bind_assoc, cons_append]
  | delete table c =>
    unfold Call.run Call.pieces dbDelete
    simp only [exec_append, appendWhere_exec, exec, Piece.exec, Printed.bind_pure, cons_append]
  | update table c u =>
    unfold Call.run Call.pieces dbUpdate
    by_cases hu : u.length = 0
    · simp only [hu, if_true]
      rfl
    · by_cases hc : c.length = 0
      · simp only [hu, hc, if_true, if_false, exec, Piece.exec,
          printSet_exec hu, Printed.bind_pure, append_nil]
      · simp only [hu, hc, if_false, exec_append, appendWhere_exec, exec,
          Piece.exec, printSet_exec hu, Printed.bind_pure, cons_append]

/-! ## The pieces are the statement -/

@[simp] theorem render_nil : render lib ([] : List (Piece D)) = [] := rfl

@[simp] theorem render_cons (p : Piece D) (ps : List (Piece D)) :
    render lib (p :: ps) = p.render lib ++ render lib ps := rfl

@[simp] theorem render_append (ps ps' : List (Piece D)) :
    render lib (ps ++ ps') = render lib ps ++ render lib ps' :=
  flatMap_append

@[simp] theorem joined_nil : joined s [] = [] := rfl

@[simp] theorem joined_one (t : Bytes) : joined s [t] = t := by
  simp [joined, List.intercalate]

theorem joined_cons (t : Bytes) {ts : List Bytes} (h : ts ≠ []) :
    joined s (t :: ts) = t ++ s ++ joined s ts := by
  cases ts with
  | nil => exact absurd rfl h
  | cons t' ts => simp [joined, List.intercalate]

theorem render_columnPieces : render lib (columnPieces c) = columnsText c := by
  fun_induction columnPieces (D := D) c with
  | case1 => rfl
  | case2 c => simp [columnsText, Piece.render]
  | case3 c cs hcs ih =>
    have hne : cs ≠ [] := hcs
    have hne' : cs.map CStr.text ≠ [] := by simpa using hne
    rw [render_cons, ih, columnsText, columnsText, if_neg (by simpa using hne),
      if_neg (by simp), map_cons, joined_cons _ _ hne']
    simp [Piece.render]

theorem render_condPieces (c : List (Cond D)) : render lib (condPieces c) =
      joined (ascii " AND ") (c.map (Cond.text lib)) := by
  fun_induction condPieces c with
  | case1 => rfl
  | case2 c => simp [Piece.render, Cond.text]
  | case3 c cs hcs ih =>
    have hne : cs.map (Cond.text lib) ≠ [] := by simpa using hcs
    rw [map_cons, joined_cons _ _ hne]
    simp [ih, Piece.render, Cond.text]

theorem render_assignPieces (u : List (Assign D)) : render lib (assignPieces u) =
      joined (ascii ",") (u.map (Assign.text lib)) := by
  fun_induction assignPieces u with
  | case1 => rfl
  | case2 u => simp [Piece.render, Assign.text]
  | case3 u us hus ih =>
    have hne : us.map (Assign.text lib) ≠ [] := by simpa using hus
    rw [map_cons, joined_cons _ _ hne]
    simp [ih, Piece.render, Assign.text]

theorem render_valuePieces (v : List (Val D)) : render lib (valuePieces v) =
      joined (ascii ",") (v.map (Val.literal lib)) := by
  fun_induction valuePieces v with
  | case1 => rfl
  | case2 v => simp [Piece.render]
  | case3 v vs hvs ih =>
    have hne : vs.map (Val.literal lib) ≠ [] := by simpa using hvs
    have hcomma : ascii "," = [44] := rfl
    rw [map_cons, joined_cons _ _ hne]
    simp [ih, Piece.render, hcomma]

theorem render_wherePieces (intro : Bytes) (c : List (Cond D)) :
    render lib (wherePieces intro c) = whereText lib intro c := by
  unfold wherePieces whereText
  split
  · rfl
  · simp [render_condPieces, Piece.render]

/-- A call that is not refused at the start. -/
def Call.Valid : Call D → Prop
  | .query _ _ _ _ => True
  | .insert _ u => u.length ≠ 0
  | .delete _ _ => True
  | .update _ _ u => u.length ≠ 0

theorem render_pieces {c : Call D} (h : c.Valid) : render lib c.pieces = c.statement lib := by
  cases c with
  | query table c cols order =>
    have horder : render lib (orderPieces (D := D) order) = orderText order := by
      cases order <;> simp [orderPieces, orderText, Piece.render]
    have hcols : render lib (colsPieces (D := D) table cols) =
        ascii "select " ++ colsText cols ++ ascii "from " ++ table.text ++ ascii " " := by
      cases cols with
      | none =>
        have hall : ascii "select * from " = ascii "select " ++ ascii "* " ++ ascii "from " := rfl
        simp [colsPieces, colsText, Piece.render, hall]
      | some cols =>
        by_cases hc : cols = []
        · simp [colsPieces, colsText, Piece.render, hc, columnsText]
        · simp [colsPieces, colsText, Piece.render, hc, render_columnPieces]
    simp [Call.pieces, Call.statement, horder, hcols, render_wherePieces, Piece.render]
  | insert table u =>
    have hu : u ≠ [] := by simpa [Call.Valid] using h
    have hclose : ascii ")" = [41] := rfl
    simp [Call.pieces, Call.statement, hu, hclose, render_columnPieces,
      render_valuePieces, Piece.render, Function.comp_def]
  | delete table c =>
    simp [Call.pieces, Call.statement, render_wherePieces, Piece.render]
  | update table c u =>
    have hu : u ≠ [] := by simpa [Call.Valid] using h
    by_cases hc : c = []
    · simp [Call.pieces, Call.statement, hu, hc, render_assignPieces, whereText, Piece.render]
    · simp [Call.pieces, Call.statement, hu, hc, render_assignPieces,
        render_wherePieces, Piece.render]

/-! ## No zero byte is in a statement -/

theorem ascii_clean {s : String} (h : ∀ c ∈ s.toList, UInt8.ofNat c.toNat ≠ 0) : 0 ∉ ascii s := by
  unfold ascii
  intro hzero
  obtain ⟨c, hc, hval⟩ := List.mem_map.mp hzero
  exact h c hc hval

theorem formatInt_clean (v : BitVec 32) : 0 ∉ formatInt v := by
  have hdigits : ∀ n : ℕ, ∀ c ∈ n.repr.toList, UInt8.ofNat c.toNat ≠ 0 := by
    intro n c hc
    rw [Nat.toList_repr] at hc
    have hdigit := Nat.isDigit_of_mem_toDigits (by decide) (by decide) hc
    simp only [Char.isDigit, Bool.and_eq_true, decide_eq_true_eq] at hdigit
    intro hzero
    have hnat : c.toNat % 256 = 0 := by
      have hval := congrArg UInt8.toNat hzero
      simpa using hval
    have hlow : 48 ≤ c.toNat := hdigit.1
    have hhigh : c.toNat ≤ 57 := hdigit.2
    omega
  refine ascii_clean ?_
  rw [Int.toString_eq_repr, Int.repr_eq_if]
  split
  · exact hdigits _
  · intro c hc
    rw [String.toList_append, mem_append] at hc
    rcases hc with hc | hc
    · have hminus : c = '-' := by simpa using hc
      subst hminus
      decide
    · exact hdigits _ c hc

theorem literal_clean (v : Val D) : 0 ∉ v.literal lib := by
  have hquote : 0 ∉ ascii "'" := by decide
  unfold Val.literal
  split
  · decide
  · split
    · exact formatInt_clean _
    · exact formatInt_clean _
    · exact lib.formatDouble_clean _
    · simp [hquote, lib.realEscape_clean]
    · simp [hquote, lib.realEscape_clean]
    · simp [hquote, lib.formatTime_clean]
    · simp [hquote, lib.escape_clean]

theorem joined_clean {s : Bytes} {ts : List Bytes} (hs : 0 ∉ s)
    (h : ∀ t ∈ ts, 0 ∉ t) : 0 ∉ joined s ts := by
  induction ts with
  | nil => simp
  | cons t ts ih =>
    have ht := h t mem_cons_self
    have hts := ih fun t ht => h t (mem_cons_of_mem _ ht)
    by_cases hne : ts = []
    · simpa [hne] using ht
    · rw [joined_cons _ _ hne]
      simp [ht, hs, hts]

theorem left_clean (c : Cond D) : 0 ∉ c.left := by
  have hequal : 0 ∉ ascii "=" := by decide
  unfold Cond.left
  cases c.op with
  | none => simp [c.key.clean, hequal]
  | some op => simp [c.key.clean, op.clean]

theorem whereText_clean (lib : Lib D) {intro : Bytes} (hintro : 0 ∉ intro)
    (c : List (Cond D)) : 0 ∉ whereText lib intro c := by
  unfold whereText
  split
  · simp
  · have hconds : 0 ∉ joined (ascii " AND ") (c.map (Cond.text lib)) := by
      refine joined_clean (by decide) fun t ht => ?_
      obtain ⟨c, -, rfl⟩ := List.mem_map.mp ht
      simp [Cond.text, left_clean, literal_clean]
    simp [hintro, hconds]

theorem columnsText_clean : 0 ∉ columnsText c := by
  unfold columnsText
  split
  · simp
  · have hcols : 0 ∉ joined (ascii ",") (c.map CStr.text) := by
      refine joined_clean (by decide) fun t ht => ?_
      obtain ⟨c, -, rfl⟩ := List.mem_map.mp ht
      exact c.clean
    have hblank : 0 ∉ ascii " " := by decide
    simp [hcols, hblank]

theorem statement_clean (c : Call D) : 0 ∉ c.statement lib := by
  cases c with
  | query table c cols order =>
    have hcols : 0 ∉ colsText cols := by
      cases cols with
      | none => decide
      | some cols => exact columnsText_clean cols
    have horder : 0 ∉ orderText order := by
      cases order with
      | none => decide
      | some o =>
        have horder : 0 ∉ ascii "order by " := by decide
        simp [orderText, horder, o.clean]
    have hintro : 0 ∉ ascii "where " := by decide
    have hwhere := whereText_clean lib hintro c
    simp only [Call.statement, mem_append, not_or]
    exact ⟨⟨⟨⟨⟨⟨by decide, hcols⟩, by decide⟩, table.clean⟩, by decide⟩, hwhere⟩, horder⟩
  | insert table u =>
    have hvals : 0 ∉ joined (ascii ",") (u.map fun u => u.val.literal lib) := by
      refine joined_clean (by decide) fun t ht => ?_
      obtain ⟨u, -, rfl⟩ := List.mem_map.mp ht
      exact literal_clean u.val
    simp only [Call.statement, mem_append, not_or]
    exact ⟨⟨⟨⟨⟨⟨by decide, table.clean⟩, by decide⟩, columnsText_clean _⟩,
      by decide⟩, hvals⟩, by decide⟩
  | delete table c =>
    have hintro : 0 ∉ ascii " where " := by decide
    have hwhere := whereText_clean lib hintro c
    simp only [Call.statement, mem_append, not_or]
    exact ⟨⟨by decide, table.clean⟩, hwhere⟩
  | update table c u =>
    have hassigns : 0 ∉ joined (ascii ",") (u.map (Assign.text lib)) := by
      refine joined_clean (by decide) fun t ht => ?_
      obtain ⟨u, -, rfl⟩ := List.mem_map.mp ht
      have hequal : 0 ∉ ascii "=" := by decide
      simp [Assign.text, u.key.clean, hequal, literal_clean]
    have hintro : 0 ∉ ascii " where " := by decide
    have hwhere := whereText_clean lib hintro c
    simp only [Call.statement, mem_append, not_or]
    exact ⟨⟨⟨⟨by decide, table.clean⟩, by decide⟩, hassigns⟩, hwhere⟩

/-! ## When a call is right -/

/-- What is printed for a call has room, or is lost where an error follows. -/
def Call.Kept (lib : Lib D) (buf : SqlBuf) (c : Call D) : Prop :=
  Mysql.Kept lib buf.Stale false sqlBufLen c.pieces

theorem run_invalid (lib : Lib D) (buf : SqlBuf) {c : Call D} (h : ¬ c.Valid) :
    c.run lib buf = some .error ∧ c.Kept lib buf := by
  have hpieces : c.pieces = [.fail] := by
    cases c with
    | query table c cols order => exact absurd trivial h
    | insert table u => exact if_pos (not_not.mp h)
    | delete table c => exact absurd trivial h
    | update table c u => exact if_pos (not_not.mp h)
  rw [run_eq, Call.Kept, hpieces]
  exact ⟨rfl, trivial⟩

theorem right_iff_of_valid (buf : SqlBuf) {c : Call D} (h : c.Valid) :
    Outcome.Right (c.run lib buf) (c.statement lib) ↔ c.Kept lib buf := by
  have hbuf : buf.mem = [] ++ rest buf.mem ([] : Bytes).length false := rfl
  have hlen := buf.length_eq
  rw [hbuf] at hlen
  have hkept := kept_iff lib buf c.pieces false hlen (by
    rw [nil_append, render_pieces h]
    exact statement_clean c)
  have hroom : (rest buf.mem ([] : Bytes).length false).length =
      sqlBufLen := buf.length_eq
  rw [nil_append, nil_append, hroom, render_pieces h] at hkept
  rw [run_eq]
  exact hkept.symm

/-- A call submits its statement or nothing, and writes nowhere but to the
buffer, just if its pieces are kept. -/
theorem right_iff_kept (lib : Lib D) (buf : SqlBuf) (c : Call D) :
    Outcome.Right (c.run lib buf) (c.statement lib) ↔ c.Kept lib buf := by
  by_cases hvalid : c.Valid
  · exact right_iff_of_valid buf hvalid
  · obtain ⟨herror, hkept⟩ := run_invalid lib buf hvalid
    exact iff_of_true (.inl herror) hkept

/-! ## A condition whose value is lost -/

/-- What is put in front of a byte, and in its place, in an escaped text. -/
def escapeByte (c : UInt8) : Bytes :=
  if c = 0 then ascii "\\0"
  else if c = 10 then ascii "\\n"
  else if c = 13 then ascii "\\r"
  else if c = 26 then ascii "\\Z"
  else if c = 34 ∨ c = 39 ∨ c = 92 then [92, c]
  else [c]

theorem escapeByte_length (c : UInt8) : 1 ≤ (escapeByte c).length ∧ (escapeByte c).length ≤ 2 := by
  unfold escapeByte
  repeat' split
  all_goals simp [ascii]

theorem escapeByte_clean (c : UInt8) : 0 ∉ escapeByte c := by
  unfold escapeByte
  by_cases hc : c = 0
  · rw [if_pos hc]
    decide
  · have hzero : (0 : UInt8) ≠ c := fun heq => hc heq.symm
    rw [if_neg hc]
    repeat' split
    all_goals simp [ascii, hzero]

/-- A text as `mysql_escape_string` gives it. -/
def escapeText (s : Bytes) : Bytes := s.flatMap escapeByte

theorem escapeText_length : s.length ≤ (escapeText s).length ∧
      (escapeText s).length ≤ 2 * s.length := by
  induction s with
  | nil => simp [escapeText]
  | cons c s ih =>
    have hc := escapeByte_length c
    simp only [escapeText, flatMap_cons, List.length_append, length_cons] at ih ⊢
    omega

theorem escapeText_clean : 0 ∉ escapeText s := by
  simp [escapeText, escapeByte_clean]

/-- A library that formats one double and one date. -/
def plainLib : Lib Unit where
  formatDouble _ := ascii "0.00      "
  formatTime _ := ascii "2006-08-31 22:40:52"
  leftover _ _ := []
  realEscape := escapeText
  escape := escapeText
  formatDouble_clean _ := by decide
  formatTime_clean _ := by decide
  leftover_le _ _ := Nat.zero_le _
  realEscape_le s := (escapeText_length s).2
  le_realEscape s := (escapeText_length s).1
  realEscape_clean := escapeText_clean
  escape_le s := (escapeText_length s).2
  le_escape s := (escapeText_length s).1
  escape_clean := escapeText_clean

def emptyBuf : SqlBuf where
  mem := List.replicate sqlBufLen 0
  length_eq := List.length_replicate ..

/-- A value of 40000 bytes. -/
def longText : Bytes := List.replicate 40000 97

def longVal : Val Unit := ⟨false, .str longText⟩

theorem longVal_fit {room : ℕ} (h : room < 80003) : longVal.fit plainLib room = .refuse := by
  have hlen : longText.length = 40000 := length_replicate ..
  have hask : (BitVec.ofNat 32 40000 * 2 + 3).toInt = 80003 := by decide
  have hquote : fitQuote escapeText longText room = .refuse := by
    unfold fitQuote
    dsimp only
    rw [hlen, hask]
    exact if_pos (by omega)
  have hfit : ∀ s : Bytes, Val.fit plainLib ⟨false, .str s⟩ room =
      if room = 0 then .refuse else fitQuote escapeText s room := fun _ => rfl
  rw [longVal, hfit, hquote]
  split <;> rfl

/-- `delete from t where k=` and the long value. -/
def longDelete : Call Unit :=
  .delete ⟨ascii "t", by decide⟩ [⟨⟨ascii "k", by decide⟩, none, longVal⟩]

/-- The value is refused, and the zero byte is written behind the buffer. -/
theorem longDelete_wrong : ¬ Outcome.Right (longDelete.run plainLib emptyBuf)
      (longDelete.statement plainLib) := by
  rw [right_iff_of_valid emptyBuf (show longDelete.Valid from trivial)]
  have htable : Piece.after plainLib sqlBufLen (.text (ascii "delete from " ++ ascii "t")) =
      .goes true 65523 := by
    have hlen : (ascii "delete from " ++ ascii "t").length = 13 := rfl
    rw [Piece.after, hlen]
    rfl
  have hwhere : Piece.after plainLib 65523 (.text (ascii " where ")) = .goes true 65516 := by
    have hlen : (ascii " where ").length = 7 := rfl
    rw [Piece.after, hlen]
    rfl
  have hvalue : Piece.after plainLib 65516 (.assign (ascii "k" ++ ascii "=") longVal) =
      .lost 0 := by
    have hlen : (ascii "k" ++ ascii "=").length = 2 := rfl
    rw [Piece.after, hlen, longVal_fit (by decide)]
    rfl
  have hpieces : longDelete.pieces =
      [.text (ascii "delete from " ++ ascii "t"), .text (ascii " where "),
        .assign (ascii "k" ++ ascii "=") longVal, .nul] := rfl
  rw [Call.Kept, hpieces, Kept, htable]
  dsimp only
  rw [Kept, hwhere]
  dsimp only
  rw [Kept, hvalue]
  simp [Stops, Piece.after]

end Msicp.Mysql
