import Msicp.Unixsock.ReadBody
import Mathlib.Data.List.DropRight

/-!
# Lines from the FIFO

`read_line` cuts a piece off the stream; the two readers of several lines put
CRLF behind each piece, until one of them is the end.
-/

namespace Msicp.Fifo

open Msicp.Support List
open Msicp.Unixsock (lineText lines_eq)

/-- Up to `n` bytes of the stream and up to LF, and what is left. -/
def upToLf : ℕ → Bytes → Bytes × Bytes
  | 0, s => ([], s)
  | _, [] => ([], [])
  | n + 1, c :: s =>
    if c = 10 then ([10], s)
    else (c :: (upToLf n s).1, (upToLf n s).2)

/-- `fgets`, which is NULL at the end of the stream and for a buffer that has no
room for the zero.  With room for nothing else it reads nothing. -/
def fgets (size : ℕ) (s : Bytes) : Option (Bytes × Bytes) :=
  if size = 0 ∨ 2 ≤ size ∧ s = [] then none
  else some (upToLf (size - 1) s)

/-- What a reader does: it returns 1 with the text, it returns 0, or the whole
process group is ended by `kill(0, SIGTERM)`. -/
inductive Result
  | done (text rest : Bytes)
  | fail
  | down

def isBlank (c : UInt8) : Bool := c == 10 || c == 13 || c == 32 || c == 9

/-- "trim from right" -/
def trim (s : Bytes) : Bytes := s.rdropWhile isBlank

/-- `read_line`, over a stream that gives no error before its end. -/
def readLine (max : ℕ) (s : Bytes) : Result :=
  match fgets max s with
  | none => .down
  | some (b, rest) =>
    let b := b.takeWhile (· != 0)
    if b ≠ [] ∧ ¬ (b.getLast? = some 10 ∨ b.getLast? = some 13) then .fail
    else .done (trim b) rest

/-- The loop of `read_line_set` and `read_body`. -/
def readLines (isEnd : Bytes → Bool) (maxLen : ℕ) (s : Bytes) : Result :=
  match readLine maxLen s with
  | .down => .down
  | .fail => .fail
  | .done line rest =>
    if isEnd line then .done [] rest
    else if maxLen - line.length < 2 then .fail
    else
      match readLines isEnd (maxLen - line.length - 2) rest with
      | .done text rest => .done (line ++ [13, 10] ++ text) rest
      | result => result
termination_by maxLen
decreasing_by omega

/-- The end of a line set. -/
def isSetEnd (line : Bytes) : Bool := line == [] || line == [46]

/-- The end of a body. -/
def isBodyEnd (line : Bytes) : Bool := line == [46]

def readLineSet (maxLen : ℕ) (s : Bytes) : Result := readLines isSetEnd maxLen s

def readBody (maxLen : ℕ) (s : Bytes) : Result := readLines isBodyEnd maxLen s

/-! ## What is asked of them -/

variable {isEnd : Bytes → Bool} {maxLen size size' n : ℕ} {s p l rest rest' out : Bytes}
  {ps : List Bytes}

/-- The text of lines, each trimmed and ended by CRLF. -/
def crlfText (ls : List Bytes) : Bytes := ls.flatMap fun l => trim l ++ [13, 10]

/-- The lines up to the first one that is the end, and what is behind it. -/
def LinesAre (isEnd : Bytes → Bool) (s out rest : Bytes) : Prop :=
  ∃ ls last, (∀ l ∈ ls, 10 ∉ l ∧ isEnd (trim l) = false) ∧ 10 ∉ last ∧
    isEnd (trim last) = true ∧ out = crlfText ls ∧
    s = lineText ls ++ (last ++ 10 :: rest)

/-- A success is the lines, and without lines that fit there is a failure. -/
structure LinesRight (isEnd : Bytes → Bool) (maxLen : ℕ) (s : Bytes) : Prop where
  exact : ∀ out rest, readLines isEnd maxLen s = .done out rest →
    out.length ≤ maxLen ∧ LinesAre isEnd s out rest
  fails : (¬ ∃ out rest, out.length ≤ maxLen ∧ LinesAre isEnd s out rest) →
    readLines isEnd maxLen s = .fail

/-! ## Pieces of the stream -/

/-- A piece that is a line. -/
def Whole (p : Bytes) : Prop := ∃ l, p = l ++ [10]

/-- The C string in the buffer. -/
def content (p : Bytes) : Bytes := p.takeWhile (· != 0)

/-- A piece that is read into a buffer of `size` bytes and taken for a line. -/
structure IsPiece (size : ℕ) (p rest : Bytes) : Prop where
  short : p.length < size
  line : 10 ∉ p.dropLast
  whole : Whole p ∨ p.length + 1 = size ∨ rest = []
  nonempty : p = [] → size = 1
  taken : content p = [] ∨ (content p).getLast? = some 10 ∨ (content p).getLast? = some 13

/-- Pieces that are read before the end, with the size of the buffer and the
stream behind them. -/
inductive Reads (isEnd : Bytes → Bool) : ℕ → Bytes → List Bytes → ℕ → Bytes → Prop
  | nil {size : ℕ} {s : Bytes} : Reads isEnd size s [] size s
  | cons {size size' : ℕ} {p rest rest' : Bytes} {ps : List Bytes} :
      IsPiece size p rest → isEnd (trim (content p)) = false →
      (trim (content p)).length + 2 ≤ size →
      Reads isEnd (size - (trim (content p)).length - 2) rest ps size' rest' →
      Reads isEnd size (p ++ rest) (p :: ps) size' rest'

/-- Pieces up to one that is the end. -/
def Ends (isEnd : Bytes → Bool) (size : ℕ) (s : Bytes) (ps : List Bytes)
    (last rest : Bytes) : Prop :=
  ∃ size', Reads isEnd size s ps size' (last ++ rest) ∧ IsPiece size' last rest ∧
    isEnd (trim (content last)) = true

/-- Up to the end all pieces are lines without zeros, and the stream and the
buffer do not run out between lines that do not fit. -/
structure LinesRegular (isEnd : Bytes → Bool) (maxLen : ℕ) (s : Bytes) : Prop where
  whole : ∀ ps last rest, Ends isEnd maxLen s ps last rest →
    ∀ p ∈ ps ++ [last], Whole p ∧ 0 ∉ p
  closed : ∀ ps size rest, Reads isEnd maxLen s ps size rest →
    size = 0 ∨ 2 ≤ size ∧ rest = [] →
    ∃ out rest, out.length ≤ maxLen ∧ LinesAre isEnd s out rest

theorem not_whole_nil : ¬ Whole [] := by
  rintro ⟨l, h⟩
  exact absurd h (by simp)

theorem whole_cons {c : UInt8} (hp : p ≠ []) : Whole (c :: p) ↔ Whole p := by
  constructor
  · rintro ⟨l, h⟩
    cases l with
    | nil => exact absurd (List.cons.inj h).2 hp
    | cons d l => exact ⟨l, (List.cons.inj h).2⟩
  · rintro ⟨l, rfl⟩
    exact ⟨c :: l, rfl⟩

theorem upToLf_iff : upToLf n s = (p, rest) ↔ s = p ++ rest ∧ p.length ≤ n ∧ 10 ∉ p.dropLast ∧
      (Whole p ∨ p.length = n ∨ rest = []) := by
  induction n generalizing s p with
  | zero =>
    rw [upToLf, Prod.mk.injEq]
    constructor
    · rintro ⟨rfl, rfl⟩
      exact ⟨rfl, le_refl _, not_mem_nil, Or.inr (Or.inl rfl)⟩
    · rintro ⟨rfl, hlen, -, -⟩
      have hnil : p = [] := length_eq_zero_iff.mp (Nat.le_zero.mp hlen)
      subst hnil
      exact ⟨rfl, rfl⟩
  | succ n ih =>
    cases s with
    | nil =>
      rw [upToLf, Prod.mk.injEq]
      constructor
      · rintro ⟨rfl, rfl⟩
        exact ⟨rfl, Nat.zero_le _, not_mem_nil, Or.inr (Or.inr rfl)⟩
      · rintro ⟨h, -, -, -⟩
        obtain ⟨rfl, rfl⟩ := append_eq_nil_iff.mp h.symm
        exact ⟨rfl, rfl⟩
      · exact fun h => absurd h (by simp)
    | cons c s =>
      rw [upToLf]
      by_cases hc : c = 10
      · rw [if_pos hc, Prod.mk.injEq, hc]
        constructor
        · rintro ⟨rfl, rfl⟩
          exact ⟨rfl, Nat.le_add_left 1 n, not_mem_nil, Or.inl ⟨[], rfl⟩⟩
        · rintro ⟨h, -, hline, hwhole⟩
          cases p with
          | nil =>
            rcases hwhole with hwhole | hwhole | hwhole
            · exact absurd hwhole not_whole_nil
            · exact absurd hwhole (by simp)
            · exact absurd h (by simp [hwhole])
          | cons d p =>
            obtain ⟨rfl, rfl⟩ := List.cons.inj h
            cases p with
            | nil => exact ⟨rfl, rfl⟩
            | cons d p => exact absurd mem_cons_self hline
      · rw [if_neg hc, Prod.mk.injEq]
        constructor
        · rintro ⟨rfl, rfl⟩
          obtain ⟨hs, hlen, hline, hwhole⟩ := (ih (p := (upToLf n s).1)).mp rfl
          refine ⟨congrArg (c :: ·) hs, Nat.succ_le_succ hlen, ?_, ?_⟩
          · by_cases hnil : (upToLf n s).1 = []
            · simp [hnil]
            · rw [dropLast_cons_of_ne_nil hnil]
              exact not_mem_cons_of_ne_of_not_mem (Ne.symm hc) hline
          · rcases hwhole with hwhole | hwhole | hwhole
            · refine Or.inl ((whole_cons ?_).mpr hwhole)
              exact fun hnil => not_whole_nil (hnil ▸ hwhole)
            · exact Or.inr (Or.inl (congrArg (· + 1) hwhole))
            · exact Or.inr (Or.inr hwhole)
        · rintro ⟨h, hlen, hline, hwhole⟩
          cases p with
          | nil =>
            rcases hwhole with hwhole | hwhole | hwhole
            · exact absurd hwhole not_whole_nil
            · exact absurd hwhole (by simp)
            · exact absurd h (by simp [hwhole])
          | cons d p =>
            obtain ⟨rfl, hs⟩ := List.cons.inj h
            have hpart : upToLf n s = (p, rest) := by
              refine ih.mpr ⟨hs, Nat.le_of_succ_le_succ hlen, ?_, ?_⟩
              · by_cases hnil : p = []
                · simp [hnil]
                · rw [dropLast_cons_of_ne_nil hnil] at hline
                  exact fun hmem => hline (mem_cons_of_mem c hmem)
              · rcases hwhole with hwhole | hwhole | hwhole
                · by_cases hnil : p = []
                  · obtain ⟨l, hl⟩ := hwhole
                    rw [hnil] at hl
                    have hlast := congrArg List.getLast? hl
                    rw [getLast?_concat] at hlast
                    exact absurd (Option.some.inj hlast) hc
                  · exact Or.inl ((whole_cons hnil).mp hwhole)
                · exact Or.inr (Or.inl (Nat.succ.inj hwhole))
                · exact Or.inr (Or.inr hwhole)
            rw [hpart]
            exact ⟨rfl, rfl⟩

theorem readLine_done {x : Bytes} : readLine size s = .done x rest ↔
      ∃ p, s = p ++ rest ∧ IsPiece size p rest ∧ x = trim (content p) := by
  rw [readLine, fgets]
  by_cases hnone : size = 0 ∨ 2 ≤ size ∧ s = []
  · rw [if_pos hnone]
    simp only [reduceCtorEq, false_iff]
    rintro ⟨p, hs, hp, -⟩
    have hshort := hp.short
    rcases hnone with hzero | ⟨hsize, hnil⟩
    · omega
    · rw [hnil] at hs
      have hone := hp.nonempty (append_eq_nil_iff.mp hs.symm).1
      omega
  · rw [if_neg hnone]
    have hpos : 0 < size := by
      by_contra hzero
      exact hnone (Or.inl (Nat.le_zero.mp (Nat.not_lt.mp hzero)))
    obtain ⟨hs, hlen, hline, hwhole⟩ :=
      (upToLf_iff (n := size - 1) (p := (upToLf (size - 1) s).1)).mp rfl
    dsimp only
    constructor
    · intro h
      by_cases htaken : content (upToLf (size - 1) s).1 ≠ [] ∧
          ¬ ((content (upToLf (size - 1) s).1).getLast? = some 10 ∨
            (content (upToLf (size - 1) s).1).getLast? = some 13)
      · rw [content] at htaken
        rw [if_pos htaken] at h
        exact absurd h (by simp)
      · have htaken' := htaken
        rw [content] at htaken'
        rw [if_neg htaken', Result.done.injEq] at h
        obtain ⟨hx, rfl⟩ := h
        refine ⟨_, hs, ⟨by omega, hline, ?_, ?_, ?_⟩, hx.symm⟩
        · rcases hwhole with hwhole | hwhole | hwhole
          · exact Or.inl hwhole
          · exact Or.inr (Or.inl (by omega))
          · exact Or.inr (Or.inr hwhole)
        · intro hnil
          rw [hnil] at hwhole hs
          rcases hwhole with hwhole | hwhole | hwhole
          · exact absurd hwhole not_whole_nil
          · rw [length_nil] at hwhole
            omega
          · rw [hwhole] at hs
            by_contra hone
            exact hnone (Or.inr ⟨by omega, hs⟩)
        · by_contra hcontra
          push Not at hcontra
          exact htaken ⟨hcontra.1, fun h => h.elim hcontra.2.1 hcontra.2.2⟩
    · rintro ⟨p, rfl, hp, rfl⟩
      have hread : upToLf (size - 1) (p ++ rest) = (p, rest) := by
        have hshort := hp.short
        refine upToLf_iff.2 ⟨rfl, by omega, hp.line, ?_⟩
        rcases hp.whole with hwhole | hwhole | hwhole
        · exact Or.inl hwhole
        · exact Or.inr (Or.inl (by omega))
        · exact Or.inr (Or.inr hwhole)
      rw [hread]
      refine if_neg ?_
      rintro ⟨hne, hlast⟩
      rcases hp.taken with htaken | htaken
      · exact hne htaken
      · exact hlast htaken

theorem readLine_down : readLine size s = .down ↔ size = 0 ∨ 2 ≤ size ∧ s = [] := by
  rw [readLine, fgets]
  by_cases hnone : size = 0 ∨ 2 ≤ size ∧ s = []
  · simp [hnone]
  · rw [if_neg hnone]
    dsimp only
    split_ifs <;> simp [hnone]

/-! ## Runs -/

/-- What the pieces leave in the buffer. -/
def piecesText (ps : List Bytes) : Bytes :=
  ps.flatMap fun p => trim (content p) ++ [13, 10]

theorem readLines_done : readLines isEnd maxLen s = .done out rest ↔
      ∃ ps last, Ends isEnd maxLen s ps last rest ∧ out = piecesText ps := by
  induction maxLen using Nat.strong_induction_on generalizing s out with
  | _ maxLen ih =>
    rw [readLines]
    constructor
    · intro h
      cases hline : readLine maxLen s with
      | down => simp [hline] at h
      | fail => simp [hline] at h
      | done line behind =>
        obtain ⟨p, rfl, hp, rfl⟩ := readLine_done.1 hline
        rw [hline] at h
        dsimp only at h
        by_cases hend : isEnd (trim (content p)) = true
        · rw [if_pos hend, Result.done.injEq] at h
          obtain ⟨rfl, rfl⟩ := h
          exact ⟨[], p, ⟨maxLen, .nil, hp, hend⟩, rfl⟩
        · rw [if_neg hend] at h
          by_cases hroom : maxLen - (trim (content p)).length < 2
          · simp [hroom] at h
          · rw [if_neg hroom] at h
            cases hrun : readLines isEnd (maxLen - (trim (content p)).length - 2) behind with
            | down => simp [hrun] at h
            | fail => simp [hrun] at h
            | done text behind' =>
              rw [hrun] at h
              simp only [Result.done.injEq] at h
              obtain ⟨rfl, rfl⟩ := h
              obtain ⟨ps, last, ⟨size', hreads, hlast, hend'⟩, rfl⟩ :=
                (ih _ (by omega)).mp hrun
              exact ⟨p :: ps, last, ⟨size', .cons hp (by simpa using hend) (by omega) hreads,
                hlast, hend'⟩, rfl⟩
    · rintro ⟨ps, last, ⟨size', hreads, hlast, hend⟩, rfl⟩
      cases hreads with
      | nil =>
        rw [readLine_done.2 ⟨last, rfl, hlast, rfl⟩]
        exact if_pos hend
      | cons hp hno hroom hreads =>
        rw [readLine_done.2 ⟨_, rfl, hp, rfl⟩]
        dsimp only
        rw [if_neg (by simp [hno]), if_neg (by omega),
          (ih _ (by omega)).mpr ⟨_, last, ⟨size', hreads, hlast, hend⟩, rfl⟩]
        rfl

theorem readLines_down : readLines isEnd maxLen s = .down ↔
      ∃ ps size rest, Reads isEnd maxLen s ps size rest ∧ (size = 0 ∨ 2 ≤ size ∧ rest = []) := by
  induction maxLen using Nat.strong_induction_on generalizing s with
  | _ maxLen ih =>
    rw [readLines]
    constructor
    · intro h
      cases hline : readLine maxLen s with
      | down => exact ⟨[], maxLen, s, .nil, readLine_down.1 hline⟩
      | fail => simp [hline] at h
      | done line behind =>
        obtain ⟨p, rfl, hp, rfl⟩ := readLine_done.1 hline
        rw [hline] at h
        dsimp only at h
        by_cases hend : isEnd (trim (content p)) = true
        · simp [hend] at h
        · rw [if_neg hend] at h
          by_cases hroom : maxLen - (trim (content p)).length < 2
          · simp [hroom] at h
          · rw [if_neg hroom] at h
            cases hrun : readLines isEnd (maxLen - (trim (content p)).length - 2) behind with
            | done text behind' => simp [hrun] at h
            | fail => simp [hrun] at h
            | down =>
              obtain ⟨ps, size, rest, hreads, hstop⟩ := (ih _ (by omega)).mp hrun
              exact ⟨p :: ps, size, rest, .cons hp (by simpa using hend) (by omega) hreads, hstop⟩
    · rintro ⟨ps, size, rest, hreads, hstop⟩
      cases hreads with
      | nil => rw [readLine_down.2 hstop]
      | cons hp hno hroom hreads =>
        rw [readLine_done.2 ⟨_, rfl, hp, rfl⟩]
        dsimp only
        rw [if_neg (by simp [hno]), if_neg (by omega),
          (ih _ (by omega)).mpr ⟨_, size, rest, hreads, hstop⟩]

section

variable (h : Reads isEnd size s ps size' rest)
include h

theorem Reads.text : s = ps.flatten ++ rest := by
  induction h with
  | nil => rfl
  | cons _ _ _ _ ih => rw [ih, flatten_cons, append_assoc]

theorem Reads.length : (piecesText ps).length + size' = size := by
  induction h with
  | nil => exact Nat.zero_add _
  | cons _ _ hroom _ ih =>
    rw [piecesText, flatMap_cons, ← piecesText, List.length_append, List.length_append]
    simp only [length_cons, length_nil]
    omega

theorem Reads.pieces : ∀ p ∈ ps, 10 ∉ p.dropLast ∧ isEnd (trim (content p)) = false := by
  induction h with
  | nil => exact fun p hp => absurd hp not_mem_nil
  | cons hpiece hno _ _ ih =>
    intro p hp
    rcases mem_cons.mp hp with rfl | hp
    · exact ⟨hpiece.line, hno⟩
    · exact ih p hp

end

/-! ## Pieces that are lines -/

theorem trim_lf (l : Bytes) : trim (l ++ [10]) = trim l :=
  rdropWhile_concat_pos _ _ _ rfl

theorem content_line (hl : 0 ∉ l) : trim (content (l ++ [10])) = trim l := by
  have hall : content (l ++ [10]) = l ++ [10] := by
    refine takeWhile_all fun c hc => ?_
    rcases mem_append.mp hc with hc | hc
    · simpa using fun h : c = 0 => hl (h ▸ hc)
    · rw [mem_singleton.mp hc]
      rfl
  rw [hall, trim_lf]

theorem trim_prefix (p : Bytes) : trim p <+: p := rdropWhile_prefix _ _

theorem content_prefix (p : Bytes) : content p <+: p := takeWhile_prefix _

/-- Neither LF nor zero is in the text of a piece. -/
theorem lf_not_mem (hp : 10 ∉ p.dropLast) : 10 ∉ trim (content p) := by
  rcases eq_nil_or_concat' p with rfl | ⟨l, c, rfl⟩
  · exact not_mem_nil
  · rw [dropLast_concat] at hp
    rcases prefix_concat_iff.mp ( content_prefix (l ++ [c])) with hall | hpre
    · rw [hall]
      by_cases hc : c = 10
      · rw [hc, trim_lf]
        exact fun hmem => hp (( trim_prefix l).subset hmem)
      · intro hmem
        rcases mem_append.mp (( trim_prefix _).subset hmem) with hmem | hmem
        · exact hp hmem
        · exact hc (mem_singleton.mp hmem).symm
    · exact fun hmem => hp (hpre.subset (( trim_prefix _).subset hmem))

theorem zero_not_mem (p : Bytes) : 0 ∉ trim (content p) := by
  intro hmem
  have hcontent := mem_takeWhile_imp (( trim_prefix _).subset hmem)
  exact absurd hcontent (by decide)

theorem zero_mem_trim (h : 0 ∈ l) : 0 ∈ trim l := by
  induction l using List.reverseRecOn with
  | nil => exact absurd h not_mem_nil
  | append_singleton l c ih =>
    by_cases hc : isBlank c = true
    · rw [trim, rdropWhile_concat_pos _ _ _ hc]
      refine ih ((mem_append.mp h).resolve_right fun hmem => ?_)
      rw [← mem_singleton.mp hmem] at hc
      exact absurd hc (by decide)
    · rw [trim, rdropWhile_concat_neg _ _ _ hc]
      exact h

/-- With as many LFs as pieces, all pieces are lines. -/
theorem whole_of_count (hps : ∀ p ∈ ps, 10 ∉ p.dropLast)
    (h : ps.length ≤ ps.flatten.count 10) : ∀ p ∈ ps, Whole p := by
  have hone : ∀ p : Bytes, 10 ∉ p.dropLast → p.count 10 ≤ 1 ∧ (1 ≤ p.count 10 → Whole p) := by
    intro p hp
    rcases eq_nil_or_concat' p with rfl | ⟨l, c, rfl⟩
    · exact ⟨Nat.zero_le 1, fun h => absurd h (by simp)⟩
    · rw [dropLast_concat] at hp
      rw [count_append, count_eq_zero_of_not_mem hp, Nat.zero_add]
      by_cases hc : c = 10
      · rw [hc]
        exact ⟨le_refl 1, fun _ => ⟨l, rfl⟩⟩
      · rw [count_eq_zero_of_not_mem fun hmem => hc (mem_singleton.mp hmem).symm]
        exact ⟨Nat.zero_le 1, fun h => absurd h (by omega)⟩
  have hall : ∀ qs : List Bytes, (∀ p ∈ qs, 10 ∉ p.dropLast) → qs.flatten.count 10 ≤ qs.length := by
    intro qs hqs
    induction qs with
    | nil => exact le_refl 0
    | cons q qs ih =>
      have hq := (hone q (hqs q mem_cons_self)).1
      have hrest := ih fun p hp => hqs p (mem_cons_of_mem q hp)
      rw [flatten_cons, count_append, length_cons]
      omega
  induction ps with
  | nil => exact fun p hp => absurd hp not_mem_nil
  | cons q ps ih =>
    have hrest : ∀ p ∈ ps, 10 ∉ p.dropLast := fun p hp => hps p (mem_cons_of_mem q hp)
    have hmost := hall ps hrest
    obtain ⟨hq, hwhole⟩ := hone q (hps q mem_cons_self)
    rw [flatten_cons, count_append, length_cons] at h
    intro p hp
    rcases mem_cons.mp hp with rfl | hp
    · exact hwhole (by omega)
    · exact ih hrest (by omega) p hp

theorem exists_lines_of_whole (h : ∀ p ∈ ps, Whole p) :
    ∃ ls : List Bytes, ps = ls.map (· ++ [10]) := by
  induction ps with
  | nil => exact ⟨[], rfl⟩
  | cons p ps ih =>
    obtain ⟨ls, rfl⟩ := ih fun q hq => h q (mem_cons_of_mem p hq)
    obtain ⟨l, rfl⟩ := h p mem_cons_self
    exact ⟨l :: ls, rfl⟩

theorem flatten_lines (ls : List Bytes) : (ls.map (· ++ [10])).flatten = lineText ls :=
  flatMap_def.symm

theorem count_lineText {ls : List Bytes} (hls : ∀ l ∈ ls, 10 ∉ l) :
    (lineText ls).count 10 = ls.length := by
  induction ls with
  | nil => rfl
  | cons l ls ih =>
    have hrest := ih fun m hm => hls m (mem_cons_of_mem l hm)
    rw [lineText, flatMap_cons, ← lineText, count_append, hrest,
      count_append, count_eq_zero_of_not_mem (hls l mem_cons_self),
      length_cons]
    simp [Nat.add_comm]

/-! ## The lines that are read -/

/-- Pieces that give the text of lines, up to the same rest, are those lines. -/
theorem whole_of_lines (hend : ∀ x, isEnd x = true → 0 ∉ x) {last : Bytes}
    (h : Ends isEnd maxLen s ps last rest) (hlines : LinesAre isEnd s (piecesText ps) rest) :
    ∀ p ∈ ps ++ [last], Whole p ∧ 0 ∉ p := by
  obtain ⟨size', hreads, hlast, -⟩ := h
  obtain ⟨ls, last', hls, hlast', hstop, htext, hsource⟩ := hlines
  have hpieces := hreads.pieces
  have hno : ∀ l ∈ ls, 10 ∉ l := fun l hl => (hls l hl).1
  -- the texts agree piece by piece
  have hmap : ps.map (fun p => trim (content p) ++ [13]) = ls.map fun l => trim l ++ [13] := by
    have hpart : ∀ p ∈ ps, 10 ∉ trim (content p) ++ [13] := fun p hp => by
      simpa using lf_not_mem (hpieces p hp).1
    have hpart' : ∀ l ∈ ls, 10 ∉ trim l ++ [13] := fun l hl => by
      simpa using fun hmem => hno l hl (( trim_prefix l).subset hmem)
    refine (@lines_inj _ 10 _ _ _ [] [] ?_ not_mem_nil ?_ not_mem_nil ?_).1
    · simpa using hpart
    · simpa using hpart'
    · simpa [piecesText, crlfText, flatMap_map] using htext
  have hcount : ps.length = ls.length := by simpa using congrArg List.length hmap
  have hall : (ps ++ [last]).flatten = lineText (ls ++ [last']) := by
    have hsame := hreads.text.symm.trans hsource
    rw [← append_assoc, append_cons last', ← append_assoc, ← append_assoc] at hsame
    simpa [lineText] using append_cancel_right hsame
  have hall' : ∀ p ∈ ps ++ [last], 10 ∉ p.dropLast := by
    intro p hp
    rcases mem_append.mp hp with hp | hp
    · exact (hpieces p hp).1
    · rw [mem_singleton.mp hp]
      exact hlast.line
  have hno' : ∀ l ∈ ls ++ [last'], 10 ∉ l := by
    intro l hl
    rcases mem_append.mp hl with hl | hl
    · exact hno l hl
    · rw [mem_singleton.mp hl]
      exact hlast'
  have hwhole := whole_of_count hall' (by rw [hall, count_lineText hno']; simp [hcount])
  obtain ⟨ms, hms⟩ := exists_lines_of_whole hwhole
  have hsame : ms = ls ++ [last'] := by
    rw [hms, flatten_lines] at hall
    have hms' : ∀ m ∈ ms, 10 ∉ m := by
      intro m hm
      have hline := hall' (m ++ [10]) (hms ▸ List.mem_map_of_mem hm)
      rwa [dropLast_concat] at hline
    refine (@lines_inj _ 10 _ _ _ [] [] hms' not_mem_nil hno' not_mem_nil ?_).1
    simpa [lineText] using hall
  rw [hsame, map_append] at hms
  obtain ⟨rfl, hlastEq⟩ := append_inj' hms rfl
  obtain rfl := head_eq_of_cons_eq hlastEq
  rw [List.map_map, map_inj_left] at hmap
  intro p hp
  refine ⟨hwhole p hp, ?_⟩
  rw [← map_singleton (f := (· ++ [10])), ← map_append] at hp
  obtain ⟨l, hl, rfl⟩ := List.mem_map.mp hp
  have hzero : 0 ∉ l := by
    intro hmem
    rcases mem_append.mp hl with hl | hl
    · have heq := append_cancel_right (hmap l hl)
      exact zero_not_mem (l ++ [10]) (heq ▸ zero_mem_trim hmem)
    · rw [mem_singleton.mp hl] at hmem
      exact hend _ hstop (zero_mem_trim hmem)
  simp [hzero]

theorem lines_of_whole {last : Bytes} (h : Ends isEnd maxLen s ps last rest)
    (hwhole : ∀ p ∈ ps ++ [last], Whole p ∧ 0 ∉ p) :
    LinesAre isEnd s (piecesText ps) rest := by
  obtain ⟨size', hreads, hlast, hstop⟩ := h
  obtain ⟨ls, rfl⟩ := exists_lines_of_whole fun p hp =>
    (hwhole p (mem_append_left _ hp)).1
  obtain ⟨last, rfl⟩ := (hwhole last (by simp)).1
  have hzero : ∀ l ∈ ls, 0 ∉ l := by
    intro l hl hmem
    have hno := (hwhole (l ++ [10]) (mem_append_left _ (List.mem_map_of_mem hl))).2
    exact hno (mem_append_left _ hmem)
  have hzeroLast : 0 ∉ last := fun hmem =>
    (hwhole (last ++ [10]) (by simp)).2 (mem_append_left _ hmem)
  refine ⟨ls, last, ?_, ?_, ?_, ?_, ?_⟩
  · intro l hl
    obtain ⟨hline, hno⟩ := hreads.pieces (l ++ [10]) (List.mem_map_of_mem hl)
    rw [content_line (hzero l hl)] at hno
    rw [dropLast_concat] at hline
    exact ⟨hline, hno⟩
  · have hline := hlast.line
    rwa [dropLast_concat] at hline
  · rwa [content_line hzeroLast] at hstop
  · rw [piecesText, crlfText, flatMap_map]
    exact flatMap_congr fun l hl => by rw [content_line (hzero l hl)]
  · rw [hreads.text, flatten_lines]
    simp

theorem linesRight_iff (hend : ∀ x, isEnd x = true → 0 ∉ x) (maxLen : ℕ) (s : Bytes) :
    LinesRight isEnd maxLen s ↔ LinesRegular isEnd maxLen s := by
  constructor
  · intro h
    refine ⟨?_, ?_⟩
    · intro ps last rest hends
      have hread := readLines_done.2 ⟨ps, last, hends, rfl⟩
      exact whole_of_lines hend hends (h.exact _ _ hread).2
    · intro ps size rest hreads hstop
      have hdown := readLines_down.2 ⟨ps, size, rest, hreads, hstop⟩
      by_contra hnone
      rw [h.fails hnone] at hdown
      exact absurd hdown (by simp)
  · intro h
    have hexact : ∀ out rest, readLines isEnd maxLen s = .done out rest →
        out.length ≤ maxLen ∧ LinesAre isEnd s out rest := by
      intro out rest hread
      obtain ⟨ps, last, hends, rfl⟩ := readLines_done.1 hread
      obtain ⟨size', hreads, -⟩ := id hends
      have hlen := hreads.length
      exact ⟨by omega, lines_of_whole hends (h.whole ps last rest hends)⟩
    refine ⟨hexact, ?_⟩
    intro hnone
    cases hread : readLines isEnd maxLen s with
    | fail => rfl
    | done out rest => exact absurd ⟨out, rest, hexact out rest hread⟩ hnone
    | down =>
      obtain ⟨ps, size, rest, hreads, hstop⟩ := readLines_down.1 hread
      exact absurd (h.closed ps size rest hreads hstop) hnone

/-- `read_line_set` and `read_body` are right for the streams that are regular. -/
theorem readers_right_iff (maxLen : ℕ) (s : Bytes) :
    (LinesRight isSetEnd maxLen s ↔ LinesRegular isSetEnd maxLen s) ∧
      (LinesRight isBodyEnd maxLen s ↔ LinesRegular isBodyEnd maxLen s) := by
  refine ⟨linesRight_iff ?_ maxLen s, linesRight_iff ?_ maxLen s⟩
  · intro x hx
    rw [isSetEnd, Bool.or_eq_true, beq_iff_eq, beq_iff_eq] at hx
    rcases hx with rfl | rfl
    · decide
    · decide
  · intro x hx
    rw [isBodyEnd, beq_iff_eq] at hx
    rw [hx]
    decide

/-- One free byte is left behind the first line: the set ends there. -/
theorem readLineSet_cut : ¬ LinesRight isSetEnd 4 [97, 10, 98, 10, 10] := by
  intro h
  have hpiece : IsPiece 4 [97, 10] [98, 10, 10] :=
    ⟨by decide, by decide, Or.inl ⟨[97], rfl⟩, by decide, by decide⟩
  have hlast : IsPiece 1 [] [98, 10, 10] :=
    ⟨by decide, by decide, Or.inr (Or.inl rfl), fun _ => rfl, by decide⟩
  have hread : readLines isSetEnd 4 [97, 10, 98, 10, 10] = .done [97, 13, 10] [98, 10, 10] :=
    readLines_done.2 ⟨[[97, 10]], [], ⟨1, .cons hpiece rfl (by decide) .nil, hlast, rfl⟩, rfl⟩
  obtain ⟨-, ls, last, hls, hlast', -, htext, hsource⟩ := h.exact _ _ hread
  have hsame : lineText ls ++ (last ++ 10 :: [98, 10, 10]) =
      lineText [] ++ ([97] ++ 10 :: [98, 10, 10]) := hsource.symm
  obtain ⟨rfl, -⟩ := lines_eq (fun l hl => (hls l hl).1) hlast'
    (fun l hl => absurd hl not_mem_nil) (by decide) hsame
  exact absurd htext (by decide)

end Msicp.Fifo
