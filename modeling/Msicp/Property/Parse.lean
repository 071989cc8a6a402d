import Msicp.Support.Bytes
import Mathlib.Data.List.Find
import Mathlib.Data.List.Pairwise

/-!
# Configuration files of the fifo reader: `parse` and `getsetvalue`

A file is read line by line into a list of categories, each with a list of
parameters.  At the end of every list a block is allocated ahead.
-/

namespace Msicp.Property

open Msicp.Support List

/-- `struct paramval`: the bytes of its fields, and whether `next` is a pointer to
somewhere.  `origin` is no field of it: it is the number of the line whose text the
block holds. -/
structure Block where
  name : Bytes
  value : Bytes
  wild : Bool
  origin : Option ℕ
  deriving DecidableEq

/-- `memset` with 0 -/
def Block.zero : Block := ⟨List.replicate 128 0, List.replicate 1024 0, false, none⟩

/-- A string in memory, up to its zero. -/
def cString (s : Bytes) : Bytes := s.takeWhile (· ≠ 0)

/-- The name, as `strcmp` reads it: without a zero in its field it goes on. -/
def Block.nameText (b : Block) : Bytes := cString (b.name ++ b.value)

def Block.valueText (b : Block) : Bytes := cString b.value

/-- `strncpy(field, src, n)` on a field with the bytes `old`. -/
def strncpy (old src : Bytes) (n : ℕ) : Bytes :=
  src.take n ++ List.replicate (n - src.length) 0 ++ old.drop n

/-- The block when the text of line `i` has been put into it and `next` points to
the new block. -/
def Block.fill (b : Block) (i : ℕ) (name value : Bytes) : Block :=
  ⟨strncpy b.name name 127, strncpy b.value value 1023, false, some i⟩

/-- `struct sets`: the name, the parameters, and the block that `parameter` points
to behind them. -/
structure Category where
  category : Bytes
  params : List Block
  tail : Block

def Category.zero : Category := ⟨[], [], .zero⟩

/-- `"general"` -/
def general : Bytes := ascii "general"

/-! ## Lines -/

/-- What `parse` sees in a line.  A header is `closed` if it has its bracket. -/
inductive Item
  | header (title : Bytes) (closed : Bool)
  | param (name value : Bytes)
  | other

/-- The text without the blanks in front of it. -/
def skipBlanks (s : Bytes) : Bytes := s.dropWhile (· = 32)

/-- The value up to the end of the line. -/
def lineEnd (s : Bytes) : Bytes := (s.takeWhile (· ≠ 13)).takeWhile (· ≠ 10)

/-- A line of the buffer. -/
def readItem (s : Bytes) : Item :=
  if s.head? = some 59 then .other
  else if s.head? = some 91 then .header (s.tail.takeWhile (· ≠ 93)) (s.tail.contains 93)
  else if s.contains 61 then
    .param ((s.takeWhile (· ≠ 61)).takeWhile (· ≠ 32))
      (lineEnd (skipBlanks (s.dropWhile (· ≠ 61)).tail))
  else .other

/-- What the same buffer is read as once more, after the zeros that have been put
into it. -/
def Item.again : Item → Item
  | .header title _ => .header title false
  | .param _ _ => .other
  | .other => .other

/-- `sizeof(buffer)` -/
def bufferSize : ℕ := 2048

/-- The lines that `fgets` gives, `acc` having been read of the first one, and
whether `feof` holds behind the last one. -/
def fgetsLines : Bytes → Bytes → List Bytes × Bool
  | [], acc => if acc = [] then ([], false) else ([acc], true)
  | c :: rest, acc =>
    if c = 10 ∨ acc.length + 2 = bufferSize then
      ((acc ++ [c]) :: (fgetsLines rest []).1, (fgetsLines rest []).2)
    else fgetsLines rest (acc ++ [c])

/-- What is not in the file: the blocks in the order in which `malloc` gives them
out, and what is in `buffer` at first. -/
structure Env where
  blocks : ℕ → Block
  buffer : Bytes

/-- The items in the order in which the loop of `parse` sees them: when `feof` does
not hold behind the last line, the buffer is read once more. -/
def loopItems (env : Env) (file : Bytes) : List Item :=
  let items := (fgetsLines file []).1.map fun l => readItem (cString l)
  if (fgetsLines file []).2 then items
  else items ++ [(items.getLast?.map Item.again).getD (readItem (cString env.buffer))]

/-! ## The lists -/

/-- The variables of `parse`: the categories before `pcurrent`, the one it points
to, `headflag`, and how many blocks have been allocated. -/
structure State where
  done : List Category
  pcurrent : Category
  headflag : Bool
  used : ℕ

def State.start : State := ⟨[], .zero, false, 0⟩

/-- One round of the loop, for line `i`. -/
def State.step (env : Env) (st : State) (i : ℕ) : Item → State
  | .other => st
  | .header title _ =>
    if st.headflag then
      { st with
        done := st.done ++ [st.pcurrent]
        pcurrent := { Category.zero with category := title.take 127 } }
    else
      { st with
        headflag := true
        pcurrent := { st.pcurrent with category := title.take 127 } }
  | .param name value =>
    { st with
      pcurrent :=
        ⟨if st.pcurrent.category = [] then general else st.pcurrent.category,
          st.pcurrent.params ++ [st.pcurrent.tail.fill i name value], env.blocks st.used⟩
      used := st.used + 1 }

/-- All rounds, from line `i` on. -/
def State.run (env : Env) : State → ℕ → List Item → State
  | st, _, [] => st
  | st, i, item :: items => State.run env (st.step env i item) (i + 1) items

/-- The list of categories; behind a header there is one more. -/
def State.categories (st : State) : List Category :=
  st.done ++ st.pcurrent :: if st.headflag then [.zero] else []

def parse (env : Env) (file : Bytes) : List Category :=
  (State.start.run env 0 (loopItems env file)).categories

/-- What `getsetvalue` returns: the block with the value, or null; or it follows a
pointer that nothing has been assigned to. -/
inductive Lookup
  | found (b : Block)
  | null
  | wild
  deriving DecidableEq

/-- The loop over the parameters of a category; `none` where it ends. -/
def searchParams (name : Bytes) : List Block → Option Lookup
  | [] => none
  | b :: bs =>
    if b.nameText = name then some (.found b)
    else if b.wild then some .wild
    else searchParams name bs

def getsetvalue (set name : Bytes) : List Category → Lookup
  | [] => .null
  | c :: cs =>
    if c.category = set then
      (searchParams name (c.params ++ [c.tail])).getD (getsetvalue set name cs)
    else getsetvalue set name cs

/-! ## What stands in the file -/

/-- The lines of a text, each with its line end; `acc` is the start of the first
one. -/
def textLines : Bytes → Bytes → List Bytes
  | [], acc => if acc = [] then [] else [acc]
  | c :: rest, acc =>
    if c = 10 then (acc ++ [c]) :: textLines rest [] else textLines rest (acc ++ [c])

/-- The name of a section: up to the bracket, or else up to the end of the line. -/
def sectionName (title : Bytes) (closed : Bool) : Bytes :=
  if closed then title else lineEnd title

/-- A line with a parameter: its number, name and value, the section in which it
stands, and the category in which it is filed. -/
structure Line where
  index : ℕ
  name : Bytes
  value : Bytes
  stands : Bytes
  filed : Bytes
  deriving DecidableEq

/-- A category without a name is given one by its first parameter. -/
def orGeneral (category : Bytes) : Bytes := if category = [] then general else category

/-- The lines behind a header: the section and the category are those of the last
header. -/
def linesFrom (stands filed : Bytes) : ℕ → List Item → List Line
  | _, [] => []
  | i, .header title closed :: items =>
    linesFrom (sectionName title closed) (title.take 127) (i + 1) items
  | i, .param name value :: items =>
    ⟨i, name, value, stands, orGeneral filed⟩ :: linesFrom stands filed (i + 1) items
  | i, .other :: items => linesFrom stands filed (i + 1) items

/-- There is a parameter before the next header. -/
def startsWithParam : List Item → Bool
  | [] => false
  | .header _ _ :: _ => false
  | .param _ _ :: _ => true
  | .other :: items => startsWithParam items

/-- The name of a category in the end. -/
def finalName (category : Bytes) (items : List Item) : Bytes :=
  if category = [] ∧ startsWithParam items = true then general else category

/-- The category of the parameters in front of the first header: it takes the name
of this header. -/
def firstName : List Item → Bytes
  | [] => general
  | .header title _ :: items => finalName (title.take 127) items
  | .param _ _ :: items => firstName items
  | .other :: items => firstName items

/-- The lines of a file. -/
def linesStart : ℕ → List Item → List Line
  | _, [] => []
  | i, .header title closed :: items =>
    linesFrom (sectionName title closed) (title.take 127) (i + 1) items
  | i, .param name value :: items =>
    ⟨i, name, value, general, firstName items⟩ :: linesStart (i + 1) items
  | i, .other :: items => linesStart (i + 1) items

def fileLines (file : Bytes) : List Line :=
  linesStart 0 ((textLines file []).map fun l => readItem (cString l))

/-- The line stands in the section and has the name. -/
def Line.asked (l : Line) (set name : Bytes) : Bool := l.stands = set && l.name = name

/-- The line is filed so that it is found. -/
def Line.matched (l : Line) (set name : Bytes) : Bool :=
  l.filed = set && l.name.take 127 = name

/-- `getsetvalue` returns the value of the first line that is asked for, out of the
block into which this line has been read, or null if there is none. -/
def Right (env : Env) (file set name : Bytes) : Prop :=
  match (fileLines file).find? fun l => l.asked set name with
  | none => getsetvalue set name (parse env file) = .null
  | some l => ∃ b, getsetvalue set name (parse env file) = .found b ∧
      b.origin = some l.index ∧ b.valueText = l.value

/-- The first line that is asked for or would be found is both, and its value is
not too long. -/
def FirstFits (file set name : Bytes) : Prop :=
  ∀ l ∈ (fileLines file).find? fun l => l.asked set name || l.matched set name,
    l.asked set name = true ∧ l.matched set name = true ∧ l.value.length ≤ 1023

/-- Memory that has not been used before: the blocks are zero, and a file without a
line finds nothing in the buffer. -/
structure Env.Fresh (env : Env) : Prop where
  blocks : ∀ k, env.blocks k = .zero
  buffer : readItem (cString env.buffer) = .other

/-! ## Lists of categories -/

/-- The parameters of all categories, each with the name of its category. -/
def flat (cs : List Category) : List (Bytes × Block) :=
  cs.flatMap fun c => c.params.map fun b => (c.category, b)

theorem flat_append (cs ds : List Category) : flat (cs ++ ds) = flat cs ++ flat ds :=
  flatMap_append

/-- A category whose list ends with a block of zeros. -/
structure Category.Ended (c : Category) : Prop where
  params : ∀ b ∈ c.params, b.wild = false
  tail : c.tail = .zero

theorem nameText_zero : Block.zero.nameText = [] := by decide

variable {name file s : Bytes} {l : Line}

theorem searchParams_ended (hname : name ≠ []) {bs : List Block} (hbs : ∀ b ∈ bs, b.wild = false) :
    searchParams name (bs ++ [.zero]) = (bs.find? fun b => b.nameText = name).map .found := by
  induction bs with
  | nil =>
    rw [nil_append, searchParams, nameText_zero, if_neg (Ne.symm hname)]
    rfl
  | cons b bs ih =>
    rw [cons_append, searchParams]
    by_cases hb : b.nameText = name
    · rw [if_pos hb, find?_cons_of_pos (by simpa using hb)]
      rfl
    · rw [if_neg hb, hbs b mem_cons_self, if_neg Bool.false_ne_true,
        find?_cons_of_neg (by simpa using hb)]
      exact ih fun x hx => hbs x (mem_cons_of_mem b hx)

/-- The search goes through the parameters of all categories in turn. -/
theorem getsetvalue_flat {set : Bytes} (hname : name ≠ []) {cs : List Category}
    (hcs : ∀ c ∈ cs, c.Ended) :
    getsetvalue set name cs = (((flat cs).find? fun p => p.1 = set && p.2.nameText = name).map
        fun p => Lookup.found p.2).getD .null := by
  induction cs with
  | nil => rfl
  | cons c cs ih =>
    have hc := hcs c mem_cons_self
    have hrest := ih fun x hx => hcs x (mem_cons_of_mem c hx)
    have hflat : flat (c :: cs) = (c.params.map fun b => (c.category, b)) ++ flat cs := rfl
    rw [getsetvalue, hflat, find?_append, hrest, find?_map]
    by_cases hset : c.category = set
    · rw [if_pos hset, hc.tail, searchParams_ended hname hc.params]
      have hfun : (fun p : Bytes × Block => decide (p.1 = set) && decide (p.2.nameText = name)) ∘
          (fun b => (c.category, b)) = fun b => decide (b.nameText = name) := by
        funext b
        simp [hset]
      rw [hfun]
      cases c.params.find? fun b => decide (b.nameText = name) with
      | none => rfl
      | some b => rfl
    · rw [if_neg hset]
      have hfun : (fun p : Bytes × Block => decide (p.1 = set) && decide (p.2.nameText = name)) ∘
          (fun b => (c.category, b)) = fun _ => false := by
        funext b
        simp [hset]
      have hnone : c.params.find? (fun _ => false) = none :=
        find?_eq_none.mpr fun _ _ => Bool.false_ne_true
      rw [hfun, hnone]
      rfl

/-! ## A run of `parse` -/

variable {env : Env}

/-- The block into which a line is read. -/
def Line.block (l : Line) : Block := Block.zero.fill l.index l.name l.value

/-- The line as it is found in the lists. -/
def Line.entry (l : Line) : Bytes × Block := (l.filed, l.block)

theorem State.Ended.step {st : State} (henv : env.Fresh)
    (h : ∀ c ∈ st.done ++ [st.pcurrent], c.Ended) (i : ℕ) (item : Item) :
    ∀ c ∈ (st.step env i item).done ++ [(st.step env i item).pcurrent], c.Ended := by
  intro c hc
  have hcurrent := h st.pcurrent (by simp)
  cases item with
  | other => exact h c hc
  | param name value =>
    rcases mem_append.mp hc with hc | hc
    · exact h c (mem_append_left _ hc)
    · obtain rfl := mem_singleton.mp hc
      refine ⟨fun b hb => ?_, henv.blocks st.used⟩
      rcases mem_append.mp hb with hb | hb
      · exact hcurrent.params b hb
      · exact mem_singleton.mp hb ▸ rfl
  | header title closed =>
    rw [State.step] at hc
    split_ifs at hc with hflag
    · rcases mem_append.mp hc with hc | hc
      · exact h c hc
      · obtain rfl := mem_singleton.mp hc
        exact ⟨nofun, rfl⟩
    · rcases mem_append.mp hc with hc | hc
      · exact h c (mem_append_left _ hc)
      · obtain rfl := mem_singleton.mp hc
        exact ⟨hcurrent.params, hcurrent.tail⟩

theorem categories_eq (st : State) :
    st.categories = (st.done ++ [st.pcurrent]) ++ if st.headflag then [.zero] else [] :=
  (append_assoc st.done [st.pcurrent] _).symm

theorem run_ended {st : State} (henv : env.Fresh)
    (h : ∀ c ∈ st.done ++ [st.pcurrent], c.Ended) (i : ℕ) (items : List Item) :
    ∀ c ∈ (st.run env i items).categories, c.Ended := by
  induction items generalizing st i with
  | nil =>
    intro c hc
    rw [State.run, categories_eq] at hc
    rcases mem_append.mp hc with hc | hc
    · exact h c hc
    · split_ifs at hc
      · obtain rfl := mem_singleton.mp hc
        exact ⟨nofun, rfl⟩
      · exact absurd hc not_mem_nil
  | cons item items ih => exact ih (State.Ended.step henv h i item) (i + 1)

theorem flat_categories (st : State) : flat st.categories = flat (st.done ++ [st.pcurrent]) := by
  have hrest : flat (if st.headflag then [Category.zero] else []) = [] := by
    split_ifs <;> rfl
  rw [categories_eq, flat_append, hrest, append_nil]

theorem linesFrom_orGeneral (stands filed : Bytes) (i : ℕ) (items : List Item) :
    linesFrom stands (orGeneral filed) i items = linesFrom stands filed i items := by
  have htwice : orGeneral (orGeneral filed) = orGeneral filed := by
    unfold orGeneral
    split_ifs <;> rfl
  induction items generalizing i with
  | nil => rfl
  | cons item items ih =>
    cases item with
    | header title closed => rfl
    | param name value => rw [linesFrom, linesFrom, htwice, ih]
    | other => exact ih (i + 1)

theorem flat_concat (cs : List Category) (c : Category) :
    flat (cs ++ [c]) = flat cs ++ c.params.map fun b => (c.category, b) := by
  simp [flat]

theorem finalName_param (filed name value : Bytes) (items : List Item) :
    finalName filed (.param name value :: items) = orGeneral filed := by
  unfold finalName orGeneral
  simp [startsWithParam]

theorem finalName_orGeneral (filed : Bytes) (items : List Item) :
    finalName (orGeneral filed) items = orGeneral filed := by
  unfold finalName orGeneral
  by_cases h : filed = []
  · rw [if_pos h, if_neg]
    exact fun hboth => absurd hboth.1 (by decide)
  · rw [if_neg h, if_neg fun hboth => h hboth.1]

theorem finalName_header (filed title : Bytes) (closed : Bool) (items : List Item) :
    finalName filed (.header title closed :: items) = filed :=
  if_neg fun h => Bool.false_ne_true h.2

theorem run_flat_from {st : State} (henv : env.Fresh) (hflag : st.headflag = true)
    (htail : st.pcurrent.tail = .zero) (stands : Bytes) (i : ℕ) (items : List Item) :
    flat (st.run env i items).categories = flat st.done ++
        (st.pcurrent.params.map (fun b => (finalName st.pcurrent.category items, b)) ++
        (linesFrom stands st.pcurrent.category i items).map Line.entry) := by
  induction items generalizing st stands i with
  | nil =>
    have hname : finalName st.pcurrent.category [] = st.pcurrent.category :=
      if_neg fun h => Bool.false_ne_true h.2
    rw [State.run, flat_categories, flat_concat, hname, linesFrom, map_nil, append_nil]
  | cons item items ih =>
    rw [State.run]
    cases item with
    | other => exact ih hflag htail stands (i + 1)
    | header title closed =>
      rw [State.step, if_pos hflag,
        @ih ⟨st.done ++ [st.pcurrent], { Category.zero with category := title.take 127 },
          st.headflag, st.used⟩ hflag rfl (sectionName title closed) (i + 1),
        flat_concat, finalName_header, linesFrom, append_assoc]
      rfl
    | param name value =>
      have hcategory : (if st.pcurrent.category = [] then general else st.pcurrent.category) =
          orGeneral st.pcurrent.category := rfl
      rw [State.step, hcategory, @ih ⟨st.done, ⟨orGeneral st.pcurrent.category,
          st.pcurrent.params ++ [st.pcurrent.tail.fill i name value], env.blocks st.used⟩,
          st.headflag, st.used + 1⟩ hflag (henv.blocks st.used) stands (i + 1)]
      simp only [finalName_orGeneral, finalName_param, linesFrom_orGeneral, linesFrom, htail,
        map_append, map_cons, map_nil, append_assoc, singleton_append]
      rfl

theorem run_flat_start {st : State} (henv : env.Fresh) (hflag : st.headflag = false)
    (hdone : st.done = []) (htail : st.pcurrent.tail = .zero)
    (hname : st.pcurrent.params ≠ [] → st.pcurrent.category = general)
    (hempty : st.pcurrent.params = [] → st.pcurrent.category = []) (i : ℕ)
    (items : List Item) :
    flat (st.run env i items).categories = st.pcurrent.params.map (fun b => (firstName items, b)) ++
        (linesStart i items).map Line.entry := by
  induction items generalizing st i with
  | nil =>
    rw [State.run, flat_categories, hdone, linesStart, map_nil, append_nil]
    have hflat : flat ([] ++ [st.pcurrent]) =
        st.pcurrent.params.map fun b => (st.pcurrent.category, b) := by
      simp [flat]
    rw [hflat]
    by_cases hparams : st.pcurrent.params = []
    · rw [hparams, map_nil, map_nil]
    · rw [hname hparams]
      rfl
  | cons item items ih =>
    rw [State.run]
    cases item with
    | other => exact ih hflag hdone htail hname hempty (i + 1)
    | header title closed =>
      rw [State.step, hflag, if_neg Bool.false_ne_true,
        @run_flat_from env ⟨st.done, { st.pcurrent with category := title.take 127 }, true,
          st.used⟩ henv rfl htail (sectionName title closed) (i + 1) items, hdone]
      rfl
    | param name value =>
      have hcategory : (if st.pcurrent.category = [] then general else st.pcurrent.category) =
          general := by
        by_cases hparams : st.pcurrent.params = []
        · rw [if_pos (hempty hparams)]
        · rw [hname hparams, ite_self]
      rw [State.step, hcategory, @ih ⟨st.done, ⟨general,
          st.pcurrent.params ++ [st.pcurrent.tail.fill i name value], env.blocks st.used⟩,
          st.headflag, st.used + 1⟩ hflag hdone (henv.blocks st.used) (fun _ => rfl)
          (fun h => absurd h (by simp)) (i + 1)]
      simp only [firstName, linesStart, htail, map_append, map_cons, map_nil,
        append_assoc, singleton_append]
      rfl

/-! ## The lines of the file -/

theorem textLines_length {file acc : Bytes} (h : file ≠ []) :
    ∃ l ∈ textLines file acc, acc.length < l.length := by
  induction file generalizing acc with
  | nil => exact absurd rfl h
  | cons c rest ih =>
    rw [textLines]
    split_ifs with hc
    · exact ⟨acc ++ [c], mem_cons_self, by simp⟩
    · cases rest with
      | nil => exact ⟨acc ++ [c], by simp [textLines], by simp⟩
      | cons d rest =>
        obtain ⟨l, hl, hlen⟩ := @ih (acc ++ [c]) (cons_ne_nil d rest)
        rw [List.length_append, length_singleton] at hlen
        exact ⟨l, hl, by omega⟩

/-- Lines that are shorter than the buffer are read whole. -/
theorem fgetsLines_eq {acc : Bytes} (h : ∀ l ∈ textLines file acc, l.length < bufferSize) :
    (fgetsLines file acc).1 = textLines file acc := by
  induction file generalizing acc with
  | nil =>
    rw [fgetsLines, textLines]
    split_ifs <;> rfl
  | cons c rest ih =>
    rw [fgetsLines]
    rw [textLines] at h ⊢
    by_cases hc : c = 10
    · rw [if_pos (.inl hc), if_pos hc]
      rw [if_pos hc] at h
      exact congrArg _ (ih fun l hl => h l (mem_cons_of_mem _ hl))
    · rw [if_neg hc] at h ⊢
      by_cases hfull : acc.length + 2 = bufferSize
      · rw [if_pos (.inr hfull)]
        cases rest with
        | nil => simp [fgetsLines, textLines]
        | cons d rest =>
          obtain ⟨l, hl, hlen⟩ := @textLines_length (d :: rest) (acc ++ [c]) (cons_ne_nil d rest)
          have hshort := h l hl
          rw [List.length_append, length_singleton] at hlen
          omega
      · rw [if_neg (not_or.mpr ⟨hc, hfull⟩)]
        exact ih h

/-! The round in which the buffer is read once more files nothing. -/

variable {items : List Item} {x : Item}

section

variable (hx : ∀ name value, x ≠ .param name value)
include hx

theorem startsWithParam_concat : startsWithParam (items ++ [x]) = startsWithParam items := by
  induction items with
  | nil =>
    cases x with
    | header title closed => rfl
    | param name value => exact absurd rfl (hx name value)
    | other => rfl
  | cons item items ih =>
    cases item with
    | header title closed => rfl
    | param name value => rfl
    | other => exact ih

theorem linesFrom_concat (stands filed : Bytes)
    (i : ℕ) : linesFrom stands filed i (items ++ [x]) = linesFrom stands filed i items := by
  induction items generalizing stands filed i with
  | nil =>
    cases x with
    | header title closed => rfl
    | param name value => exact absurd rfl (hx name value)
    | other => rfl
  | cons item items ih =>
    cases item with
    | header title closed => exact ih _ _ _
    | param name value => rw [cons_append, linesFrom, linesFrom, ih]
    | other => exact ih _ _ _

theorem firstName_concat (hlast : x = .other ∨ ∃ title closed, .header title closed ∈ items) :
    firstName (items ++ [x]) = firstName items := by
  induction items with
  | nil =>
    obtain rfl := hlast.resolve_right (by simp)
    rfl
  | cons item items ih =>
    have hrest : (∀ title closed, item ≠ .header title closed) →
        firstName (items ++ [x]) = firstName items := by
      intro hitem
      apply ih
      refine hlast.imp_right ?_
      rintro ⟨title, closed, hmem⟩
      exact ⟨title, closed, (mem_cons.mp hmem).resolve_left (Ne.symm (hitem title closed))⟩
    cases item with
    | header title closed =>
      simp only [cons_append, firstName, finalName, startsWithParam_concat hx]
    | param name value => exact hrest nofun
    | other => exact hrest nofun

end

theorem linesStart_concat (hx : ∀ name value, x ≠ .param name value)
    (hlast : x = .other ∨ ∃ title closed, .header title closed ∈ items) (i : ℕ) :
    linesStart i (items ++ [x]) = linesStart i items := by
  induction items generalizing i with
  | nil =>
    obtain rfl := hlast.resolve_right (by simp)
    rfl
  | cons item items ih =>
    have hrest : (∀ title closed, item ≠ .header title closed) →
        x = .other ∨ ∃ title closed, .header title closed ∈ items := by
      intro hitem
      refine hlast.imp_right ?_
      rintro ⟨title, closed, hmem⟩
      exact ⟨title, closed, (mem_cons.mp hmem).resolve_left (Ne.symm (hitem title closed))⟩
    cases item with
    | header title closed => exact linesFrom_concat hx _ _ _
    | param name value =>
      rw [cons_append, linesStart, linesStart, firstName_concat hx (hrest nofun), ih (hrest nofun)]
    | other => exact ih (hrest nofun) _

theorem linesStart_loopItems (henv : env.Fresh)
    (hshort : ∀ l ∈ textLines file [], l.length < bufferSize) :
    linesStart 0 (loopItems env file) = fileLines file := by
  unfold loopItems fileLines
  rw [fgetsLines_eq hshort]
  generalize (textLines file []).map (fun l => readItem (cString l)) = items
  dsimp only
  split_ifs
  · rfl
  · cases hlast : items.getLast? with
    | none => exact linesStart_concat (by simp [henv.buffer]) (.inl henv.buffer) 0
    | some item =>
      cases item with
      | header title closed =>
        exact @linesStart_concat items (.header title false) nofun
          (.inr ⟨title, closed, mem_of_getLast? hlast⟩) 0
      | param name value => exact @linesStart_concat items .other nofun (.inl rfl) 0
      | other => exact @linesStart_concat items .other nofun (.inl rfl) 0

theorem flat_parse (henv : env.Fresh) (hshort : ∀ l ∈ textLines file [], l.length < bufferSize) :
    flat (parse env file) = (fileLines file).map Line.entry := by
  have hrun := @run_flat_start env State.start henv rfl rfl rfl (fun h => absurd rfl h)
    (fun _ => rfl) 0 (loopItems env file)
  rw [linesStart_loopItems henv hshort] at hrun
  exact hrun

/-! ## Names, values and numbers of the lines -/

theorem cString_of_notMem (h : 0 ∉ s) (n : ℕ) (t : Bytes) :
    cString (s ++ List.replicate (n + 1) 0 ++ t) = s := by
  unfold cString
  rw [append_assoc, takeWhile_append_of_pos, replicate_succ, cons_append,
    takeWhile_cons_of_neg (by simp), append_nil]
  intro c hc
  simpa using ne_of_mem_of_not_mem hc h

theorem cString_strncpy {src : Bytes} (h : 0 ∉ src) (n : ℕ) (t : Bytes) :
    cString (strncpy (List.replicate (n + 1) 0) src n ++ t) = src.take n := by
  have hzeros : ∀ k, List.replicate k (0 : UInt8) ++ (List.replicate (n + 1) 0).drop n =
      List.replicate (k + 1) 0 := by
    intro k
    rw [drop_replicate, Nat.add_sub_cancel_left, replicate_append_replicate]
  rw [strncpy, append_assoc (src.take n), hzeros]
  exact cString_of_notMem (fun hmem => h (mem_of_mem_take hmem)) _ t

theorem Line.nameText_block (h : 0 ∉ l.name) : l.block.nameText = l.name.take 127 :=
  cString_strncpy h 127 _

theorem Line.valueText_block (h : 0 ∉ l.value) : l.block.valueText = l.value.take 1023 := by
  have hvalue := cString_strncpy h 1023 []
  rw [append_nil] at hvalue
  exact hvalue

/-- Texts of a C string have no zero in them. -/
def NoZero : Item → Prop
  | .param name value => 0 ∉ name ∧ 0 ∉ value
  | .header _ _ => True
  | .other => True

theorem notMem_cString (s : Bytes) : 0 ∉ cString s := by
  intro h
  simpa using mem_takeWhile_imp h

theorem noZero_readItem (h : 0 ∉ s) : NoZero (readItem s) := by
  unfold readItem
  split_ifs
  · trivial
  · trivial
  · constructor
    · intro hmem
      exact h ((takeWhile_sublist _).subset ((takeWhile_sublist _).subset hmem))
    · intro hmem
      unfold lineEnd skipBlanks at hmem
      have hdrop := (dropWhile_sublist _).subset
        ((takeWhile_sublist _).subset ((takeWhile_sublist _).subset hmem))
      exact h ((dropWhile_sublist _).subset (mem_of_mem_tail hdrop))
  · trivial

/-- What is known of the lines with the numbers from `i` on. -/
structure LinesOk (i : ℕ) (ls : List Line) : Prop where
  noZero : ∀ l ∈ ls, 0 ∉ l.name ∧ 0 ∉ l.value
  le : ∀ l ∈ ls, i ≤ l.index
  increasing : ls.Pairwise fun l m => l.index < m.index

theorem LinesOk.mono {i : ℕ} {ls : List Line} (h : LinesOk (i + 1) ls) : LinesOk i ls :=
  ⟨h.noZero, fun l hl => Nat.le_of_succ_le (h.le l hl), h.increasing⟩

theorem LinesOk.cons {i : ℕ} {ls : List Line} (h : LinesOk (i + 1) ls) {l : Line}
    (hindex : l.index = i) (hzero : 0 ∉ l.name ∧ 0 ∉ l.value) : LinesOk i (l :: ls) := by
  constructor
  · exact forall_mem_cons.mpr ⟨hzero, h.noZero⟩
  · exact forall_mem_cons.mpr ⟨hindex.ge, h.mono.le⟩
  · exact pairwise_cons.mpr ⟨fun m hm => hindex ▸ h.le m hm, h.increasing⟩

theorem linesFrom_ok {items : List Item} (h : ∀ x ∈ items, NoZero x) (stands filed : Bytes)
    (i : ℕ) : LinesOk i (linesFrom stands filed i items) := by
  induction items generalizing stands filed i with
  | nil => exact ⟨nofun, nofun, .nil⟩
  | cons item items ih =>
    have hrest := fun stands filed =>
      ih (fun x hx => h x (mem_cons_of_mem item hx)) stands filed (i + 1)
    cases item with
    | header title closed => exact (hrest _ _).mono
    | param name value => exact (hrest _ _).cons rfl (h _ mem_cons_self)
    | other => exact (hrest _ _).mono

theorem linesStart_ok {items : List Item} (h : ∀ x ∈ items, NoZero x) (i : ℕ) :
    LinesOk i (linesStart i items) := by
  induction items generalizing i with
  | nil => exact ⟨nofun, nofun, .nil⟩
  | cons item items ih =>
    have htail := fun x hx => h x (mem_cons_of_mem item hx)
    cases item with
    | header title closed => exact (linesFrom_ok htail _ _ _).mono
    | param name value => exact (ih htail (i + 1)).cons rfl (h _ mem_cons_self)
    | other => exact (ih htail (i + 1)).mono

theorem fileLines_ok (file : Bytes) : LinesOk 0 (fileLines file) := by
  apply linesStart_ok
  intro x hx
  obtain ⟨l, -, rfl⟩ := List.mem_map.mp hx
  exact noZero_readItem (notMem_cString l)

/-! ## The first line -/

/-- Two searches find the same if and only if what comes first for either one
comes first for both. -/
theorem find?_agree_iff {α : Type} (p q : α → Bool) (l : List α) :
    l.find? p = l.find? q ↔ ∀ a ∈ l.find? fun a => p a || q a, p a = true ∧ q a = true := by
  induction l with
  | nil => simp
  | cons a l ih =>
    cases hp : p a with
    | true =>
      cases hq : q a with
      | true => simp [hp, hq]
      | false =>
        rw [find?_cons_of_pos hp, find?_cons_of_neg (by simp [hq]),
          find?_cons_of_pos (by simp [hp])]
        refine iff_of_false (fun h => ?_) (by simp [hp, hq])
        exact Bool.false_ne_true (hq.symm.trans (find?_some h.symm))
    | false =>
      cases hq : q a with
      | true =>
        rw [find?_cons_of_pos hq, find?_cons_of_neg (by simp [hp]),
          find?_cons_of_pos (by simp [hq])]
        refine iff_of_false (fun h => ?_) (by simp [hp, hq])
        exact Bool.false_ne_true (hp.symm.trans (find?_some h))
      | false => simp [hp, hq, ih]

theorem find?_or_of_agree {α : Type} {p q : α → Bool} {l : List α}
    (h : l.find? p = l.find? q) : (l.find? fun a => p a || q a) = l.find? p := by
  have hboth := (find?_agree_iff p q l).mp h
  cases hfind : l.find? fun a => p a || q a with
  | none =>
    rw [find?_eq_none] at hfind
    refine (find?_eq_none.mpr fun a ha hp => ?_).symm
    exact hfind a ha (by simp [hp])
  | some a =>
    rw [hfind] at hboth
    rw [find?_eq_some_iff_append] at hfind
    obtain ⟨-, before, after, rfl, hbefore⟩ := hfind
    symm
    rw [find?_eq_some_iff_append]
    refine ⟨(hboth a rfl).1, before, after, rfl, fun b hb => ?_⟩
    have hneither := hbefore b hb
    rw [Bool.not_eq_true', Bool.or_eq_false_iff] at hneither
    rw [hneither.1]
    rfl

theorem getsetvalue_parse (henv : env.Fresh) {set : Bytes}
    (hshort : ∀ l ∈ textLines file [], l.length < bufferSize) (hname : name ≠ []) :
    getsetvalue set name (parse env file) =
      (((fileLines file).find? fun l => l.matched set name).map
        fun l => Lookup.found l.block).getD .null := by
  have hstart : ∀ c ∈ State.start.done ++ [State.start.pcurrent], c.Ended := by
    intro c hc
    obtain rfl := mem_singleton.mp hc
    exact ⟨nofun, rfl⟩
  have hmatch : ((fileLines file).find?
      ((fun p : Bytes × Block => p.1 = set && p.2.nameText = name) ∘ Line.entry)) =
        (fileLines file).find? fun l => l.matched set name := by
    apply find?_congr
    intro l hl
    have htext := Line.nameText_block ((fileLines_ok file).noZero l hl).1
    have hiff : l.block.nameText = name ↔ l.name.take 127 = name := by rw [htext]
    simp only [Function.comp_apply, Line.entry, Line.matched]
    congr 1
    exact decide_eq_decide.mpr hiff
  have hended : ∀ c ∈ parse env file, c.Ended :=
    run_ended henv hstart 0 (loopItems env file)
  rw [getsetvalue_flat hname hended, flat_parse henv hshort, find?_map, hmatch, Option.map_map]
  rfl

theorem LinesOk.eq_of_index {i : ℕ} {ls : List Line} (h : LinesOk i ls) {m : Line}
    (hl : l ∈ ls) (hm : m ∈ ls) (heq : l.index = m.index) : l = m := by
  by_contra hne
  have hdistinct : ls.Pairwise fun l m => l.index ≠ m.index :=
    h.increasing.imp fun hlt => hlt.ne
  have hsymm : Std.Symm fun l m : Line => l.index ≠ m.index := ⟨fun _ _ h => h.symm⟩
  exact hdistinct.forall hl hm hne heq

theorem take_eq_self_iff {n : ℕ} : s.take n = s ↔ s.length ≤ n := by
  constructor
  · intro h
    rw [← h, length_take]
    exact Nat.min_le_left n s.length
  · exact take_of_length_le

/-- Memory of zeros. -/
def zeroEnv : Env := ⟨fun _ => .zero, []⟩

theorem zeroEnv_fresh : zeroEnv.Fresh := ⟨fun _ => rfl, rfl⟩

/-- `[db]`, `host=a`, and `[db]` once more with `user=b` and no line end. -/
def dbFile : Bytes := ascii "[db]\nhost=a\n[db]\nuser=b"

theorem firstFits_dbFile : FirstFits dbFile (ascii "db") (ascii "user") := by
  have hline : (fileLines dbFile).find?
      (fun l => l.asked (ascii "db") (ascii "user") || l.matched (ascii "db") (ascii "user")) =
        some ⟨3, ascii "user", ascii "b", ascii "db", ascii "db"⟩ := by decide
  intro l hl
  rw [hline] at hl
  obtain rfl := Option.some.inj hl
  exact ⟨by decide, by decide, by decide⟩

theorem dbFile_short : ∀ l ∈ textLines dbFile [], l.length < bufferSize := by
  have hall : ((textLines dbFile []).all fun l => l.length < bufferSize) = true := by decide
  simpa using hall

end Msicp.Property
