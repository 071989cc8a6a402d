import Msicp.Support.Bytes
import Msicp.Support.Parts
import Mathlib.Data.List.Induction
import Mathlib.Tactic.Push

/-!
# The body of a command

A body goes up to a line that is a single dot.
-/

namespace Msicp.Unixsock

open Msicp.Support List

/-- The states of both readers. -/
inductive State
  | begin
  | crlf
  | data
  | newline

/-- The loop of `unixsock_read_body`, at `i`: `last_dot`, and what is behind the
body. -/
def bodyLoop : State → ℕ → ℕ → Bytes → Option (ℕ × Bytes)
  | _, _, _, [] => none
  | .begin, i, lastDot, c :: s =>
    if c = 46 then bodyLoop .crlf (i + 1) i s
    else if c = 10 then bodyLoop .newline (i + 1) lastDot s
    else bodyLoop .data (i + 1) lastDot s
  | .crlf, i, lastDot, c :: s =>
    if c = 10 then some (lastDot, s)
    else if c ≠ 13 then bodyLoop .data (i + 1) lastDot s
    else bodyLoop .crlf (i + 1) lastDot s
  | .data, i, lastDot, c :: s =>
    if c = 10 then bodyLoop .newline (i + 1) lastDot s
    else bodyLoop .data (i + 1) lastDot s
  | .newline, i, lastDot, c :: s =>
    if c = 46 then bodyLoop .crlf (i + 1) i s
    else bodyLoop .newline (i + 1) lastDot s

/-- `unixsock_read_body`: the body, and the source behind it. -/
def readBody (source : Bytes) : Option (Bytes × Bytes) :=
  if source.length < 2 then none
  else (bodyLoop .begin 0 0 source).map fun (len, rest) => (source.take len, rest)

/-! ## What is asked of it -/

/-- The text of lines that are ended by LF. -/
def lineText (ls : List Bytes) : Bytes := ls.flatMap fun l => l ++ [10]

/-- A line that is a single dot, ended by LF or by CRLF. -/
def IsDot (l : Bytes) : Prop := l = [46] ∨ l = [46, 13]

instance (l : Bytes) : Decidable (IsDot l) :=
  inferInstanceAs (Decidable (l = [46] ∨ l = [46, 13]))

/-- The body is what is before the first line that is a single dot. -/
def BodyIs (source body rest : Bytes) : Prop :=
  ∃ ls dot, (∀ l ∈ ls, 10 ∉ l ∧ ¬ IsDot l) ∧ IsDot dot ∧ body = lineText ls ∧
    source = body ++ (dot ++ 10 :: rest)

/-- The body is read, and nothing else is taken for one. -/
def BodyRight (source : Bytes) : Prop :=
  ∀ body rest, readBody source = some (body, rest) ↔ BodyIs source body rest

/-- A line looks like the end if only CRs are behind its first dot; the first
line of all starts with it. -/
def LooksLast (before : List Bytes) (l : Bytes) : Prop :=
  ∃ x k, l = x ++ 46 :: List.replicate k 13 ∧ 46 ∉ x ∧ (before = [] → x = [])

/-- The first line that looks like the end is a single dot. -/
def BodyRegular (source : Bytes) : Prop :=
  ∀ ls l rest, source = lineText ls ++ (l ++ 10 :: rest) → (∀ m ∈ ls, 10 ∉ m) →
    10 ∉ l → (∀ m ∈ ls, ¬ IsDot m) → LooksLast ls l → IsDot l

/-! ## Lines -/

variable {i lastDot k : ℕ} {c : UInt8} {x s : Bytes}

theorem bodyLoop_ne_dot (hc : c ≠ 46) :
    bodyLoop .newline i lastDot (c :: s) = bodyLoop .newline (i + 1) lastDot s := if_neg hc

theorem bodyLoop_ne_lf (hc : c ≠ 10) :
    bodyLoop .data i lastDot (c :: s) = bodyLoop .data (i + 1) lastDot s := if_neg hc

theorem bodyLoop_cr : bodyLoop .crlf i lastDot (13 :: s) = bodyLoop .crlf (i + 1) lastDot s := rfl

theorem bodyLoop_ne_cr (hc : c ≠ 10) (hcr : c ≠ 13) :
    bodyLoop .crlf i lastDot (c :: s) = bodyLoop .data (i + 1) lastDot s :=
  (if_neg hc).trans (if_pos hcr)

theorem bodyLoop_newline (hx : 46 ∉ x) :
    bodyLoop .newline i lastDot (x ++ s) = bodyLoop .newline (i + x.length) lastDot s := by
  induction x generalizing i with
  | nil => rfl
  | cons c x ih =>
    have hc : c ≠ 46 := fun h => hx (h ▸ mem_cons_self)
    rw [cons_append, bodyLoop_ne_dot hc, ih fun h => hx (mem_cons_of_mem c h),
      length_cons, Nat.add_right_comm, Nat.add_assoc]

theorem bodyLoop_data (hx : 10 ∉ x) : bodyLoop .data i lastDot (x ++ 10 :: s) =
      bodyLoop .newline (i + x.length + 1) lastDot s := by
  induction x generalizing i with
  | nil => rfl
  | cons c x ih =>
    have hc : c ≠ 10 := fun h => hx (h ▸ mem_cons_self)
    rw [cons_append, bodyLoop_ne_lf hc, ih fun h => hx (mem_cons_of_mem c h),
      length_cons, Nat.add_right_comm i 1, Nat.add_assoc i]

theorem bodyLoop_crs : bodyLoop .crlf i lastDot (List.replicate k 13 ++ s) =
      bodyLoop .crlf (i + k) lastDot s := by
  induction k generalizing i with
  | zero => rfl
  | succ k ih =>
    rw [replicate_succ, cons_append, bodyLoop_cr, ih, Nat.add_right_comm, Nat.add_assoc]

/-- A text without line ends has no end of a body. -/
theorem bodyLoop_short (q : State) (hx : 10 ∉ x) : bodyLoop q i lastDot x = none := by
  induction x generalizing q i lastDot with
  | nil => cases q <;> rfl
  | cons c x ih =>
    have hc : c ≠ 10 := fun h => hx (h ▸ mem_cons_self)
    have hrest : 10 ∉ x := fun h => hx (mem_cons_of_mem c h)
    cases q with
    | begin =>
      rw [bodyLoop, if_neg hc]
      split_ifs <;> exact ih _ hrest
    | crlf =>
      rw [bodyLoop, if_neg hc]
      split_ifs <;> exact ih _ hrest
    | data =>
      rw [bodyLoop, if_neg hc]
      exact ih _ hrest
    | newline =>
      rw [bodyLoop]
      split_ifs <;> exact ih _ hrest

theorem bodyLoop_crlf (hx : 10 ∉ x) : bodyLoop .crlf i lastDot (x ++ 10 :: s) =
      if x.all (· == 13) then some (lastDot, s)
      else bodyLoop .newline (i + x.length + 1) lastDot s := by
  induction x generalizing i with
  | nil => rfl
  | cons c x ih =>
    have hc : c ≠ 10 := fun h => hx (h ▸ mem_cons_self)
    have hrest : 10 ∉ x := fun h => hx (mem_cons_of_mem c h)
    rw [cons_append, all_cons, length_cons]
    by_cases hcr : c = 13
    · rw [hcr, bodyLoop_cr, ih hrest, Nat.add_right_comm i 1, Nat.add_assoc i]
      simp
    · rw [bodyLoop_ne_cr hc hcr, bodyLoop_data hrest, Nat.add_right_comm i 1, Nat.add_assoc i]
      simp [hcr]

variable {before : List Bytes} {l rest : Bytes}

theorem looksLast_dot {t : Bytes} (hx : 46 ∉ x) : LooksLast before (x ++ 46 :: t) ↔
      t.all (· == 13) = true ∧ (before = [] → x = []) := by
  have hall : t.all (· == 13) = true ↔ ∃ k, t = List.replicate k 13 := by
    simp only [List.all_eq_true, beq_iff_eq]
    constructor
    · exact fun h => ⟨t.length, eq_replicate_iff.mpr ⟨rfl, h⟩⟩
    · rintro ⟨k, rfl⟩ c hc
      exact (mem_replicate.mp hc).2
  have hcut : ∀ {y u : Bytes}, 46 ∉ y → (y ++ 46 :: u).takeWhile (fun c => c != 46) = y := by
    intro y u hy
    refine takeWhile_token (fun c hc => ?_) (by decide)
    simpa using fun heq : c = 46 => hy (heq ▸ hc)
  rw [hall]
  constructor
  · rintro ⟨y, k, heq, hy, hfirst⟩
    have hxy : x = y := by rw [← hcut hx, heq, hcut hy]
    rw [hxy] at heq ⊢
    exact ⟨⟨k, (List.cons.inj (append_cancel_left heq)).2⟩, hfirst⟩
  · rintro ⟨⟨k, rfl⟩, hfirst⟩
    exact ⟨x, k, rfl, hx, hfirst⟩

/-- The state at the start of a line. -/
def lineState (before : List Bytes) : State :=
  if before = [] then .begin else .newline

theorem bodyLoop_dot (hx : 46 ∉ x) (hfirst : before = [] → x = []) (s : Bytes) :
    bodyLoop (lineState before) i lastDot (x ++ 46 :: s) =
      bodyLoop .crlf (i + x.length + 1) (i + x.length) s := by
  by_cases hbefore : before = []
  · rw [hfirst hbefore, lineState, if_pos hbefore]
    rfl
  · rw [lineState, if_neg hbefore, bodyLoop_newline hx]
    rfl

theorem bodyLoop_begin (hc : c ≠ 46) (hx : 10 ∉ c :: x) :
    bodyLoop .begin i lastDot (c :: x ++ 10 :: s) =
      bodyLoop .newline (i + (c :: x).length + 1) lastDot s := by
  have hne : c ≠ 10 := fun h => hx (h ▸ mem_cons_self)
  rw [cons_append, bodyLoop, if_neg hc, if_neg hne,
    bodyLoop_data fun h => hx (mem_cons_of_mem c h), length_cons,
    Nat.add_right_comm i 1, Nat.add_assoc i]

theorem bodyLoop_last (hx : 46 ∉ x) (hfirst : before = [] → x = []) (s : Bytes) :
    bodyLoop (lineState before) i lastDot
        ((x ++ 46 :: List.replicate k 13) ++ 10 :: s) = some (i + x.length, s) := by
  rw [append_assoc, cons_append, bodyLoop_dot hx hfirst, bodyLoop_crs]
  rfl

theorem bodyLoop_other (hl : 10 ∉ l) (h : ¬ LooksLast before l) (i lastDot : ℕ) :
    ∃ lastDot', ∀ s, bodyLoop (lineState before) i lastDot (l ++ 10 :: s) =
      bodyLoop .newline (i + l.length + 1) lastDot' s := by
  by_cases hdot : 46 ∈ l
  · obtain ⟨x, t, rfl, hx⟩ := eq_append_cons_of_mem hdot
    rw [looksLast_dot hx] at h
    by_cases hfirst : before = [] → x = []
    · have ht : 10 ∉ t := fun hmem => hl (by simp [hmem])
      refine ⟨i + x.length, fun s => ?_⟩
      rw [append_assoc, cons_append, bodyLoop_dot hx hfirst, bodyLoop_crlf ht,
        if_neg fun hall => h ⟨hall, hfirst⟩, List.length_append, length_cons]
      congr 1
      omega
    · push Not at hfirst
      obtain ⟨hbefore, hne⟩ := hfirst
      obtain ⟨c, x, rfl⟩ := exists_cons_of_ne_nil hne
      have hc : c ≠ 46 := fun heq => hx (heq ▸ mem_cons_self)
      refine ⟨lastDot, fun s => ?_⟩
      rw [lineState, if_pos hbefore]
      exact bodyLoop_begin hc hl
  · refine ⟨lastDot, fun s => ?_⟩
    by_cases hbefore : before = []
    · rw [lineState, if_pos hbefore]
      cases l with
      | nil => rfl
      | cons c x => exact bodyLoop_begin (fun heq => hdot (heq ▸ mem_cons_self)) hl
    · rw [lineState, if_neg hbefore, bodyLoop_newline hdot, bodyLoop, if_neg (by decide)]

theorem length_lineText_concat (ls : List Bytes) (l : Bytes) :
    (lineText (ls ++ [l])).length = (lineText ls).length + l.length + 1 := by
  simp [lineText, Nat.add_assoc]

theorem bodyLoop_lines {ls : List Bytes} (hls : ∀ l ∈ ls, 10 ∉ l)
    (h : ∀ pre l post, ls = pre ++ l :: post → ¬ LooksLast pre l) :
    ∃ lastDot, ∀ s, bodyLoop .begin 0 0 (lineText ls ++ s) =
      bodyLoop (lineState ls) (lineText ls).length lastDot s := by
  induction ls using List.reverseRecOn with
  | nil => exact ⟨0, fun s => rfl⟩
  | append_singleton ls l ih =>
    obtain ⟨lastDot, hloop⟩ := ih (fun m hm => hls m (mem_append_left _ hm))
      (fun pre m post heq => h pre m (post ++ [l]) (by rw [heq]; simp))
    obtain ⟨lastDot', hline⟩ := bodyLoop_other (hls l (by simp)) (h ls l [] rfl)
      (lineText ls).length lastDot
    refine ⟨lastDot', fun s => ?_⟩
    have htext : lineText (ls ++ [l]) ++ s = lineText ls ++ (l ++ 10 :: s) := by
      simp [lineText]
    have hstate : lineState (ls ++ [l]) = .newline := if_neg (by simp)
    rw [htext, hloop, hline, hstate, length_lineText_concat]

/-- The first line that looks like the end, with its part before the dot. -/
structure FirstLast (source : Bytes) (pre : List Bytes) (x : Bytes) (k : ℕ)
    (rest : Bytes) : Prop where
  source : source = lineText pre ++ ((x ++ 46 :: List.replicate k 13) ++ 10 :: rest)
  lines : ∀ l ∈ pre, 10 ∉ l
  line : 10 ∉ x
  dot : 46 ∉ x
  first : pre = [] → x = []
  before : ∀ pre' l post', pre = pre' ++ l :: post' → ¬ LooksLast pre' l

theorem FirstLast.read {source : Bytes} {pre : List Bytes} (h : FirstLast source pre x k rest) :
    readBody source = some (lineText pre ++ x, rest) := by
  obtain ⟨lastDot, hloop⟩ := bodyLoop_lines h.lines h.before
  have hlen : ¬ source.length < 2 := by
    rw [h.source]
    simp
    omega
  have htake : source.take ((lineText pre).length + x.length) = lineText pre ++ x := by
    rw [h.source, append_assoc x, ← append_assoc, ← List.length_append, take_left]
  have hread : bodyLoop .begin 0 0 source = some ((lineText pre).length + x.length, rest) := by
    rw [h.source, hloop, bodyLoop_last h.dot h.first]
  rw [readBody, if_neg hlen, hread, Option.map_some]
  exact congrArg (fun body => some (body, rest)) htake

/-- What is read ends with the first line that looks like the end. -/
theorem readBody_iff {source body : Bytes} : readBody source = some (body, rest) ↔
      ∃ pre x k, FirstLast source pre x k rest ∧ body = lineText pre ++ x := by
  constructor
  · intro h
    obtain ⟨ls, last, hsource, hls, hlast⟩ := exists_lines 10 source
    rcases exists_first LooksLast ls with hnone | ⟨pre, l, post, hcut, hlooks, hbefore⟩
    · obtain ⟨lastDot, hloop⟩ := bodyLoop_lines hls hnone
      have hread : bodyLoop .begin 0 0 source = none := by
        rw [hsource]
        exact (hloop last).trans (bodyLoop_short _ hlast)
      rw [readBody, hread] at h
      split_ifs at h
      simp at h
    · obtain ⟨x, k, rfl, hx, hfirst⟩ := hlooks
      have hfound : FirstLast source pre x k (lineText post ++ last) := by
        refine ⟨?_, fun l hl => hls l (by simp [hcut, hl]), ?_, hx, hfirst, hbefore⟩
        · rw [hsource, hcut]
          simp [lineText]
        · have hline := hls _ (hcut ▸ mem_append_right pre mem_cons_self)
          exact fun hmem => hline (by simp [hmem])
      have hread := hfound.read
      rw [h, Option.some.injEq, Prod.mk.injEq] at hread
      exact ⟨pre, x, k, hread.2 ▸ hfound, hread.1⟩
  · rintro ⟨pre, x, k, hfound, rfl⟩
    exact hfound.read

/-! ## The bodies that are read -/

theorem IsDot.looksLast (h : IsDot l) (before : List Bytes) :
    LooksLast before l := by
  rcases h with rfl | rfl
  · exact ⟨[], 0, rfl, by simp, fun _ => rfl⟩
  · exact ⟨[], 1, rfl, by simp, fun _ => rfl⟩

theorem IsDot.front (h : IsDot l) {t : Bytes} (heq : l = x ++ 46 :: t) (hx : 46 ∉ x) : x = [] := by
  cases x with
  | nil => rfl
  | cons c x =>
    have hc : c = 46 := by
      rcases h with rfl | rfl
      · exact (List.cons.inj heq).1.symm
      · exact (List.cons.inj heq).1.symm
    exact absurd (hc ▸ mem_cons_self) hx

theorem IsDot.noLine (h : IsDot l) : 10 ∉ l := by
  rcases h with rfl | rfl
  · decide
  · decide

theorem lineText_cut (pre : List Bytes) (l : Bytes) (post : List Bytes) (s : Bytes) :
    lineText (pre ++ l :: post) ++ s = lineText pre ++ (l ++ 10 :: (lineText post ++ s)) := by
  simp [lineText]

theorem lines_eq {ls ms : List Bytes} {m : Bytes} (hls : ∀ x ∈ ls, 10 ∉ x)
    (hl : 10 ∉ l) (hms : ∀ x ∈ ms, 10 ∉ x) (hm : 10 ∉ m)
    (h : lineText ls ++ (l ++ 10 :: rest) = lineText ms ++ (m ++ 10 :: rest)) :
    ls = ms ∧ l = m := by
  rw [← append_assoc, ← append_assoc] at h
  exact lines_inj hls hl hms hm (append_cancel_right h)

/-- `unixsock_read_body` is right for the sources that are regular. -/
theorem bodyRight_iff (source : Bytes) : BodyRight source ↔ BodyRegular source := by
  constructor
  · intro h ls l rest hsource hls hl hdots hlooks
    rcases exists_first LooksLast (ls ++ [l]) with
      hnone | ⟨pre, m, post, hcut, ⟨x, k, rfl, hx, hfirst⟩, hbefore⟩
    · exact absurd hlooks (hnone ls l [] rfl)
    · have hall : ∀ m ∈ ls ++ [l], 10 ∉ m := by
        intro m hm
        rcases mem_append.mp hm with hm | hm
        · exact hls m hm
        · rw [mem_singleton.mp hm]
          exact hl
      rw [hcut] at hall
      have hline := hall _ (mem_append_right pre mem_cons_self)
      have htext : source = lineText pre ++ ((x ++ 46 :: List.replicate k 13) ++
          10 :: (lineText post ++ rest)) := by
        rw [← lineText_cut, ← hcut, hsource, lineText_cut]
        rfl
      have hfound : FirstLast source pre x k (lineText post ++ rest) :=
        ⟨htext, fun m hm => hall m (mem_append_left _ hm),
          fun hmem => hline (by simp [hmem]), hx, hfirst, hbefore⟩
      obtain ⟨ms, dot, hms, hdot, hbody, hsource'⟩ := (h _ _).mp hfound.read
      rw [hbody, htext] at hsource'
      have hsame := (lines_eq hfound.lines hline (fun m hm => (hms m hm).1) hdot.noLine hsource').2
      have hdotLine : IsDot (x ++ 46 :: List.replicate k 13) := hsame ▸ hdot
      rcases eq_nil_or_concat' post with rfl | ⟨post, m, rfl⟩
      · rw [(append_inj' hcut rfl).2 |> head_eq_of_cons_eq]
        exact hdotLine
      · have hlast : ls = pre ++ (x ++ 46 :: List.replicate k 13) :: post := by
          have hcut' : ls ++ [l] = (pre ++ (x ++ 46 :: List.replicate k 13) :: post) ++ [m] := by
            rw [hcut]
            simp
          exact (append_inj' hcut' rfl).1
        exact absurd hdotLine (hdots _ (hlast ▸ by simp))
  · intro h body rest
    rw [readBody_iff]
    constructor
    · rintro ⟨pre, x, k, hfound, rfl⟩
      have hdots : ∀ m ∈ pre, ¬ IsDot m := by
        intro m hm hdot
        obtain ⟨pre', post', hcut⟩ := append_of_mem hm
        exact hfound.before pre' m post' hcut (hdot.looksLast pre')
      have hline : 10 ∉ x ++ 46 :: List.replicate k 13 := by
        have hno := hfound.line
        simp [hno]
      have hdot := h pre _ rest hfound.source hfound.lines hline hdots
        ⟨x, k, rfl, hfound.dot, hfound.first⟩
      have hnil := hdot.front rfl hfound.dot
      subst hnil
      exact ⟨pre, _, fun l hl => ⟨hfound.lines l hl, hdots l hl⟩, hdot,
        append_nil _, by rw [append_nil]; exact hfound.source⟩
    · rintro ⟨ls, dot, hls, hdot, rfl, hsource⟩
      obtain ⟨k, rfl⟩ : ∃ k, dot = 46 :: List.replicate k 13 := by
        rcases hdot with rfl | rfl
        · exact ⟨0, rfl⟩
        · exact ⟨1, rfl⟩
      refine ⟨ls, [], k, ⟨hsource, fun l hl => (hls l hl).1, by simp, by simp,
        fun _ => rfl, ?_⟩, (append_nil _).symm⟩
      intro pre' l post' hcut hlooks
      have hmem : l ∈ ls := hcut ▸ by simp
      have hpre : ∀ m ∈ pre', m ∈ ls := fun m hm => hcut ▸ mem_append_left _ hm
      refine (hls l hmem).2 (h pre' l
        (lineText post' ++ ((46 :: List.replicate k 13) ++ 10 :: rest)) ?_
        (fun m hm => (hls m (hpre m hm)).1) (hls l hmem).1
        (fun m hm => (hls m (hpre m hm)).2) hlooks)
      rw [hsource, hcut, lineText_cut]

end Msicp.Unixsock
