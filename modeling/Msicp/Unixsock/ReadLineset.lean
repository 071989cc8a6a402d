import Msicp.Unixsock.ReadBody

/-!
# The lines of a command

The lines up to a single dot are copied, each with CRLF behind it.
-/

namespace Msicp.Unixsock

open Msicp.Support List

/-- One byte of `unixsock_read_lineset`: the next state and what is written, or
the end of the lines. -/
def linesetMove : State → UInt8 → Option (State × Bytes)
  | .begin, c =>
    if c = 46 then some (.crlf, [])
    else if c = 10 then some (.newline, [13, 10])
    else some (.begin, [c])
  | .crlf, c =>
    if c = 10 then none
    else some (.data, [46, c])
  | .data, c =>
    if c = 10 then some (.newline, [13, 10])
    else some (.data, [c])
  | .newline, c =>
    if c = 46 then some (.crlf, [])
    else some (.data, [c])

/-- The loop of `unixsock_read_lineset`, over a buffer of `size` bytes. -/
def linesetLoop (size : ℕ) : State → Bytes → Bytes → Option (Bytes × Bytes)
  | _, _, [] => none
  | q, dest, c :: s =>
    if c = 13 then linesetLoop size q dest s
    else
      match linesetMove q c with
      | none => some (dest, s)
      | some (q', w) =>
        if dest.length + w.length > size then none
        else linesetLoop size q' (dest ++ w) s

/-- `unixsock_read_lineset`: the lines, and the source behind them. -/
def readLineset (size : ℕ) (source : Bytes) : Option (Bytes × Bytes) :=
  if size = 0 then none
  else if source.length < 2 then none
  else linesetLoop size .begin [] source

/-! ## What is asked of it -/

/-- A line without its CRs. -/
def clean (l : Bytes) : Bytes := l.filter (· != 13)

/-- Lines, each ended by CRLF. -/
def linesetText (ls : List Bytes) : Bytes := ls.flatMap fun l => clean l ++ [13, 10]

/-- The lineset is the lines before the first one that is a single dot. -/
def LinesetIs (source out rest : Bytes) : Prop :=
  ∃ ls dot, (∀ l ∈ ls, 10 ∉ l ∧ clean l ≠ [46]) ∧ 10 ∉ dot ∧ clean dot = [46] ∧
    out = linesetText ls ∧ source = lineText ls ++ (dot ++ 10 :: rest)

/-- The lineset is read into every buffer that has room for it, and nothing else
is taken for one. -/
def LinesetRight (source : Bytes) : Prop :=
  ∀ size out rest, readLineset size source = some (out, rest) ↔
    size ≠ 0 ∧ out.length ≤ size ∧ LinesetIs source out rest

/-- The first line does not end in its only dot, with text before that; behind
the first line no line of the lineset is empty. -/
structure LinesetRegular (source : Bytes) : Prop where
  first : ∀ l rest x, source = l ++ 10 :: rest → 10 ∉ l → clean l = x ++ [46] →
    46 ∉ x → x = []
  empty : ∀ l ls dot rest, source = lineText (l :: ls) ++ (dot ++ 10 :: rest) →
    (∀ m ∈ l :: ls, 10 ∉ m ∧ clean m ≠ [46]) → 10 ∉ dot → clean dot = [46] →
    ∀ m ∈ ls, clean m ≠ []

/-! ## The text that is written -/

variable {q : State} {w x s l out rest dest source : Bytes} {size : ℕ}

/-- What is written before the rest. -/
def push (w : Bytes) (r : Option (Bytes × Bytes)) : Option (Bytes × Bytes) :=
  r.map fun (out, rest) => (w ++ out, rest)

theorem push_nil (r : Option (Bytes × Bytes)) : push [] r = r := by
  cases r with
  | none => rfl
  | some r => rfl

theorem push_push (w x : Bytes) (r : Option (Bytes × Bytes)) :
    push w (push x r) = push (w ++ x) r := by
  cases r with
  | none => rfl
  | some r => simp [push]

theorem push_some (w : Bytes) (out rest : Bytes) :
    push w (some (out, rest)) = some (w ++ out, rest) := rfl

theorem push_eq_some {r : Option (Bytes × Bytes)} :
    push w r = some (out, rest) ↔ ∃ tail, r = some (tail, rest) ∧ out = w ++ tail := by
  cases r with
  | none => simp [push]
  | some r =>
    obtain ⟨tail, behind⟩ := r
    simp [push, and_comm, eq_comm]

/-- What is written from a state on, if the buffer has room for it. -/
def linesetOut : State → Bytes → Option (Bytes × Bytes)
  | _, [] => none
  | q, c :: s =>
    if c = 13 then linesetOut q s
    else
      match linesetMove q c with
      | none => some ([], s)
      | some (q', w) => push w (linesetOut q' s)

theorem linesetLoop_iff (hdest : dest.length ≤ size) :
    linesetLoop size q dest s = some (out, rest) ↔
      out.length ≤ size ∧ ∃ tail, linesetOut q s = some (tail, rest) ∧ out = dest ++ tail := by
  induction s generalizing q dest with
  | nil => simp [linesetLoop, linesetOut]
  | cons c s ih =>
    rw [linesetLoop, linesetOut]
    by_cases hc : c = 13
    · rw [if_pos hc, if_pos hc]
      exact ih hdest
    · rw [if_neg hc, if_neg hc]
      cases hmove : linesetMove q c with
      | none =>
        simp only [Option.some.injEq, Prod.mk.injEq]
        constructor
        · rintro ⟨rfl, rfl⟩
          exact ⟨hdest, [], ⟨rfl, rfl⟩, (append_nil dest).symm⟩
        · rintro ⟨-, tail, ⟨rfl, rfl⟩, rfl⟩
          exact ⟨(append_nil dest).symm, rfl⟩
      | some move =>
        obtain ⟨q', w⟩ := move
        simp only [push_eq_some]
        by_cases hroom : dest.length + w.length > size
        · rw [if_pos hroom]
          simp only [reduceCtorEq, false_iff]
          rintro ⟨hsize, -, ⟨tail, -, rfl⟩, rfl⟩
          simp only [List.length_append] at hsize
          omega
        · rw [if_neg hroom, ih (by rw [List.length_append]; omega)]
          simp [append_assoc]

theorem linesetMove_ne_none {c : UInt8} (hc : c ≠ 10) : linesetMove q c ≠ none := by
  cases q with
  | begin =>
    rw [linesetMove, if_neg hc]
    split_ifs <;> simp
  | crlf => simp [linesetMove, hc]
  | data => simp [linesetMove, hc]
  | newline =>
    rw [linesetMove]
    split_ifs <;> simp

theorem linesetOut_cr : linesetOut q (13 :: s) = linesetOut q s := rfl

theorem linesetOut_move {q' : State} {c : UInt8} (hc : c ≠ 13)
    (hmove : linesetMove q c = some (q', w)) :
    linesetOut q (c :: s) = push w (linesetOut q' s) := by
  rw [linesetOut, if_neg hc, hmove]

theorem linesetOut_clean (hx : 10 ∉ x) :
    linesetOut q (x ++ 10 :: s) = linesetOut q (clean x ++ 10 :: s) := by
  induction x generalizing q with
  | nil => rfl
  | cons c x ih =>
    have hc : c ≠ 10 := fun h => hx (h ▸ mem_cons_self)
    have hrest : 10 ∉ x := fun h => hx (mem_cons_of_mem c h)
    by_cases hcr : c = 13
    · have hclean : clean (c :: x) = clean x := by simp [clean, hcr]
      rw [hclean, cons_append, hcr, linesetOut_cr]
      exact ih hrest
    · have hclean : clean (c :: x) = c :: clean x := by simp [clean, hcr]
      obtain ⟨⟨q', w⟩, hmove⟩ := Option.ne_none_iff_exists'.mp (linesetMove_ne_none hc)
      rw [hclean, cons_append, cons_append, linesetOut_move hcr hmove,
        linesetOut_move hcr hmove, ih hrest]

/-! ## Lines -/

/-- A line as the loop sees it. -/
def Plain (l : Bytes) : Prop := ∀ c ∈ l, c ≠ 10 ∧ c ≠ 13

theorem plain_clean (hl : 10 ∉ l) : Plain (clean l) := by
  intro c hc
  rw [clean, mem_filter] at hc
  exact ⟨fun h => hl (h ▸ hc.1), by simpa using hc.2⟩

theorem linesetOut_data (hl : Plain l) : linesetOut .data (l ++ 10 :: s) =
      push (l ++ [13, 10]) (linesetOut .newline s) := by
  induction l with
  | nil => exact linesetOut_move (by decide) rfl
  | cons c l ih =>
    obtain ⟨hlf, hcr⟩ := hl c mem_cons_self
    rw [cons_append, @linesetOut_move .data _ _ _ _ hcr (if_neg hlf),
      ih fun d hd => hl d (mem_cons_of_mem c hd), push_push]
    rfl

theorem linesetOut_crlf (hl : Plain l) (hne : l ≠ []) : linesetOut .crlf (l ++ 10 :: s) =
      push (46 :: l ++ [13, 10]) (linesetOut .newline s) := by
  obtain ⟨c, l, rfl⟩ := exists_cons_of_ne_nil hne
  obtain ⟨hlf, hcr⟩ := hl c mem_cons_self
  rw [cons_append, @linesetOut_move .crlf _ _ _ _ hcr (if_neg hlf),
    linesetOut_data fun d hd => hl d (mem_cons_of_mem c hd), push_push]
  rfl

theorem linesetOut_stop : linesetOut .crlf (10 :: s) = some ([], s) := rfl

theorem linesetOut_dot (hq : q = .begin ∨ q = .newline) :
    linesetOut q (46 :: s) = linesetOut .crlf s := by
  rcases hq with rfl | rfl
  · exact (linesetOut_move (by decide) rfl).trans (push_nil _)
  · exact (linesetOut_move (by decide) rfl).trans (push_nil _)

theorem linesetOut_next (hl : Plain l) (hne : l ≠ []) (hdot : l ≠ [46]) :
    linesetOut .newline (l ++ 10 :: s) = push (l ++ [13, 10]) (linesetOut .newline s) := by
  obtain ⟨c, l, rfl⟩ := exists_cons_of_ne_nil hne
  have hrest : Plain l := fun d hd => hl d (mem_cons_of_mem c hd)
  by_cases hc : c = 46
  · subst hc
    rw [cons_append, linesetOut_dot (Or.inr rfl),
      linesetOut_crlf hrest fun hnil => hdot (by rw [hnil])]
  · rw [cons_append, @linesetOut_move .newline _ _ _ _ (hl c mem_cons_self).2 (if_neg hc),
      linesetOut_data hrest, push_push]
    rfl

theorem linesetOut_empty : linesetOut .newline (10 :: s) = push [10] (linesetOut .data s) :=
  linesetOut_move (by decide) rfl

theorem linesetOut_begin (hl : Plain x) (hx : 46 ∉ x) : linesetOut .begin (x ++ s) =
      push x (linesetOut .begin s) := by
  induction x with
  | nil => exact (push_nil _).symm
  | cons c x ih =>
    obtain ⟨hlf, hcr⟩ := hl c mem_cons_self
    have hc : c ≠ 46 := fun h => hx (h ▸ mem_cons_self)
    rw [cons_append, @linesetOut_move .begin _ _ _ _ hcr ((if_neg hc).trans (if_neg hlf)),
      ih (fun d hd => hl d (mem_cons_of_mem c hd)) fun h => hx (mem_cons_of_mem c h),
      push_push]
    rfl

theorem linesetOut_first (hl : Plain l) (h : ∀ x, l = x ++ [46] → 46 ∈ x) :
    linesetOut .begin (l ++ 10 :: s) = push (l ++ [13, 10]) (linesetOut .newline s) := by
  by_cases hdot : 46 ∈ l
  · obtain ⟨x, t, rfl, hx⟩ := eq_append_cons_of_mem hdot
    have hne : t ≠ [] := fun hnil => hx (h x (by rw [hnil]))
    rw [append_assoc, cons_append, linesetOut_begin (fun c hc => hl c (mem_append_left _ hc)) hx,
      linesetOut_dot (Or.inl rfl), linesetOut_crlf _ hne, push_push]
    · simp
    · intro c hc
      exact hl c (mem_append_right x (mem_cons_of_mem 46 hc))
  · have hend : linesetOut .begin (10 :: s) = push [13, 10] (linesetOut .newline s) :=
      linesetOut_move (by decide) rfl
    rw [linesetOut_begin hl hdot, hend, push_push]

theorem linesetOut_cut (hl : Plain x) (hx : 46 ∉ x) :
    linesetOut .begin ((x ++ [46]) ++ 10 :: s) = some (x, s) := by
  rw [append_assoc, linesetOut_begin hl hx, singleton_append,
    linesetOut_dot (Or.inl rfl), linesetOut_stop, push_some, append_nil]

variable {ls : List Bytes}

theorem linesetOut_lines (hls : ∀ l ∈ ls, 10 ∉ l ∧ clean l ≠ [46]) (hne : ∀ l ∈ ls, clean l ≠ []) :
    linesetOut .newline (lineText ls ++ s) = push (linesetText ls) (linesetOut .newline s) := by
  induction ls with
  | nil => exact (push_nil _).symm
  | cons l ls ih =>
    obtain ⟨hl, hdot⟩ := hls l mem_cons_self
    have htext : lineText (l :: ls) ++ s = l ++ 10 :: (lineText ls ++ s) := by
      simp [lineText]
    rw [htext, linesetOut_clean hl, linesetOut_next (plain_clean hl) (hne l mem_cons_self) hdot,
      ih (fun m hm => hls m (mem_cons_of_mem l hm))
        fun m hm => hne m (mem_cons_of_mem l hm), push_push]
    rfl

/-- No line is the end: the loop does not find one. -/
theorem linesetOut_none {last : Bytes} (hls : ∀ l ∈ ls, 10 ∉ l ∧ clean l ≠ [46]) (hlast : 10 ∉ last)
    (hq : ls = [] ∨ q = .data ∨ q = .newline) :
    linesetOut q (lineText ls ++ last) = none := by
  induction ls generalizing q with
  | nil =>
    rw [lineText, flatMap_nil, nil_append]
    clear hq
    induction last generalizing q with
    | nil => rfl
    | cons c last ih =>
      have hc : c ≠ 10 := fun h => hlast (h ▸ mem_cons_self)
      have hrest : 10 ∉ last := fun h => hlast (mem_cons_of_mem c h)
      by_cases hcr : c = 13
      · rw [hcr, linesetOut_cr]
        exact ih hrest
      · obtain ⟨⟨q', w⟩, hmove⟩ := Option.ne_none_iff_exists'.mp (linesetMove_ne_none hc)
        rw [linesetOut_move hcr hmove, ih hrest]
        rfl
  | cons l ls ih =>
    obtain ⟨hl, hdot⟩ := hls l mem_cons_self
    have hbehind : ∀ {q : State}, q = .data ∨ q = .newline →
        linesetOut q (lineText ls ++ last) = none := fun h =>
      ih (fun m hm => hls m (mem_cons_of_mem l hm)) (Or.inr h)
    have htext : lineText (l :: ls) ++ last = l ++ 10 :: (lineText ls ++ last) := by
      simp [lineText]
    rw [htext, linesetOut_clean hl]
    rcases hq.resolve_left (cons_ne_nil l ls) with rfl | rfl
    · rw [linesetOut_data (plain_clean hl), hbehind (Or.inr rfl)]
      rfl
    · by_cases hempty : clean l = []
      · rw [hempty, nil_append, linesetOut_empty, hbehind (Or.inl rfl)]
        rfl
      · rw [linesetOut_next (plain_clean hl) hempty hdot, hbehind (Or.inr rfl)]
        rfl

/-! ## The linesets that are read -/

theorem readLineset_iff : readLineset size source = some (out, rest) ↔
      size ≠ 0 ∧ 2 ≤ source.length ∧ out.length ≤ size ∧
        linesetOut .begin source = some (out, rest) := by
  rw [readLineset]
  by_cases hsize : size = 0
  · simp [hsize]
  · by_cases hlen : source.length < 2
    · rw [if_neg hsize, if_pos hlen]
      simp only [reduceCtorEq, false_iff]
      rintro ⟨-, hlen', -⟩
      exact absurd hlen (by omega)
    · rw [if_neg hsize, if_neg hlen, linesetLoop_iff (Nat.zero_le size)]
      simp [hsize, Nat.not_lt.mp hlen]

theorem first_line (hfirst : ∀ x, clean l = x ++ [46] → 46 ∉ x → x = [])
    (hdot : clean l ≠ [46]) : ∀ x, clean l = x ++ [46] → 46 ∈ x := by
  intro x heq
  by_contra hx
  refine hdot ?_
  rw [heq, hfirst x heq hx]
  rfl

theorem LinesetRegular.read (h : LinesetRegular source) {dot : Bytes}
    (hls : ∀ l ∈ ls, 10 ∉ l ∧ clean l ≠ [46]) (hdot : 10 ∉ dot)
    (hend : clean dot = [46]) (hsource : source = lineText ls ++ (dot ++ 10 :: rest)) :
    linesetOut .begin source = some (linesetText ls, rest) := by
  have hplain : Plain ([] : Bytes) := fun c hc => absurd hc not_mem_nil
  rw [hsource]
  cases ls with
  | nil =>
    rw [lineText, flatMap_nil, nil_append, linesetOut_clean hdot, hend]
    exact linesetOut_cut hplain not_mem_nil
  | cons l ls =>
    obtain ⟨hl, hline⟩ := hls l mem_cons_self
    have htext : ∀ s, lineText (l :: ls) ++ s = l ++ 10 :: (lineText ls ++ s) := by
      simp [lineText]
    have hdotEnd : linesetOut .newline (dot ++ 10 :: rest) = some ([], rest) := by
      rw [linesetOut_clean hdot, hend]
      exact (linesetOut_dot (Or.inr rfl)).trans linesetOut_stop
    have hfirst := first_line (fun x => h.first l _ x (hsource.trans (htext _)) hl) hline
    rw [htext, linesetOut_clean hl, linesetOut_first (plain_clean hl) hfirst,
      linesetOut_lines (fun m hm => hls m (mem_cons_of_mem l hm))
        (h.empty l ls dot rest hsource hls hdot hend), hdotEnd, push_some, push_some,
      append_nil]
    rfl

theorem LinesetRegular.noEnd {last : Bytes} (h : LinesetRegular (lineText ls ++ last))
    (hls : ∀ l ∈ ls, 10 ∉ l ∧ clean l ≠ [46]) (hlast : 10 ∉ last) :
    linesetOut .begin (lineText ls ++ last) = none := by
  cases ls with
  | nil => exact linesetOut_none hls hlast (Or.inl rfl)
  | cons l ls =>
    obtain ⟨hl, hline⟩ := hls l mem_cons_self
    have htext : lineText (l :: ls) ++ last = l ++ 10 :: (lineText ls ++ last) := by
      simp [lineText]
    have hfirst := first_line (fun x => h.first l _ x htext hl) hline
    rw [htext, linesetOut_clean hl, linesetOut_first (plain_clean hl) hfirst,
      linesetOut_none (fun m hm => hls m (mem_cons_of_mem l hm)) hlast (Or.inr (Or.inr rfl))]
    rfl

theorem LinesetRegular.right (h : LinesetRegular source) : LinesetRight source := by
  intro size out rest
  rw [readLineset_iff]
  constructor
  · rintro ⟨hsize, -, hroom, hout⟩
    refine ⟨hsize, hroom, ?_⟩
    obtain ⟨ls, last, hsource, hls, hlast⟩ := exists_lines 10 source
    rcases exists_first (fun _ l => clean l = [46]) ls with
      hnone | ⟨pre, dot, post, hcut, hend, hbefore⟩
    · have hlines : ∀ l ∈ ls, 10 ∉ l ∧ clean l ≠ [46] := by
        intro l hl
        obtain ⟨pre, post, hcut⟩ := append_of_mem hl
        exact ⟨hls l hl, hnone pre l post hcut⟩
      have hsrc : source = lineText ls ++ last := hsource
      rw [hsrc] at h hout
      rw [h.noEnd hlines hlast] at hout
      exact absurd hout (by simp)
    · have hlines : ∀ l ∈ pre, 10 ∉ l ∧ clean l ≠ [46] := by
        intro l hl
        obtain ⟨pre', post', hcut'⟩ := append_of_mem hl
        exact ⟨hls l (hcut ▸ mem_append_left _ hl), hbefore pre' l post' hcut'⟩
      have hdot : 10 ∉ dot := hls dot (hcut ▸ by simp)
      have hsrc : source = lineText pre ++ (dot ++ 10 :: (lineText post ++ last)) := by
        rw [← lineText_cut, ← hcut]
        exact hsource
      have hread := h.read hlines hdot hend hsrc
      rw [hout, Option.some.injEq, Prod.mk.injEq] at hread
      exact ⟨pre, dot, hlines, hdot, hend, hread.1, hread.2 ▸ hsrc⟩
  · rintro ⟨hsize, hroom, ls, dot, hls, hdot, hend, rfl, hsource⟩
    refine ⟨hsize, ?_, hroom, h.read hls hdot hend hsource⟩
    have hne : dot ≠ [] := by
      rintro rfl
      exact absurd hend (by decide)
    have hpos : 0 < dot.length := length_pos_iff.mpr hne
    rw [hsource]
    simp only [List.length_append, length_cons]
    omega

theorem LinesetRight.regular (h : LinesetRight source) : LinesetRegular source := by
  have hfirst : ∀ l rest x, source = l ++ 10 :: rest → 10 ∉ l → clean l = x ++ [46] →
      46 ∉ x → x = [] := by
    intro l rest x hsource hl heq hx
    by_contra hne
    have hplain : Plain x := fun c hc => plain_clean hl c (heq ▸ mem_append_left _ hc)
    have hout : linesetOut .begin source = some (x, rest) := by
      rw [hsource, linesetOut_clean hl, heq]
      exact linesetOut_cut hplain hx
    have hlong : 2 ≤ source.length := by
      have hpos : 0 < l.length := length_pos_iff.mpr fun hnil => by
        rw [hnil] at heq
        exact absurd heq (by simp [clean])
      rw [hsource, List.length_append, length_cons]
      omega
    have hread := (h x.length x rest).mp (readLineset_iff.mpr
      ⟨fun hzero => hne (length_eq_zero_iff.mp hzero), hlong, le_refl _, hout⟩)
    obtain ⟨-, -, ls, dot, hls, hdot, hend, -, hsource'⟩ := hread
    have hsame : lineText ls ++ (dot ++ 10 :: rest) = lineText [] ++ (l ++ 10 :: rest) := by
      rw [← hsource', hsource]
      rfl
    obtain ⟨-, rfl⟩ := lines_eq (fun m hm => (hls m hm).1) hdot
      (fun m hm => absurd hm not_mem_nil) hl hsame
    rw [hend] at heq
    exact hne (append_inj' heq rfl |>.1).symm
  refine ⟨hfirst, ?_⟩
  intro l ls dot rest hsource hlines hdot hend
  by_contra hempty
  push Not at hempty
  obtain ⟨m, hm, hclean⟩ := hempty
  obtain ⟨hl, hline⟩ := hlines l mem_cons_self
  have hout : linesetOut .begin source = some (linesetText (l :: ls), rest) := by
    have hroom : (linesetText (l :: ls)).length ≠ 0 := by simp [linesetText]
    exact (readLineset_iff.mp ((h _ _ rest).mpr ⟨hroom, le_refl _, l :: ls, dot, hlines,
      hdot, hend, rfl, hsource⟩)).2.2.2
  rcases exists_first (fun _ m => clean m = []) ls with
    hnone | ⟨pre, m', post, rfl, hclean', hbefore⟩
  · obtain ⟨pre, post, hcut⟩ := append_of_mem hm
    exact hnone pre m post hcut hclean
  · have hpre : ∀ m ∈ pre, 10 ∉ m ∧ clean m ≠ [46] := fun m hm =>
      hlines m (mem_cons_of_mem l (mem_append_left _ hm))
    have hne : ∀ m ∈ pre, clean m ≠ [] := by
      intro m hm
      obtain ⟨pre', post', hcut⟩ := append_of_mem hm
      exact hbefore pre' m post' hcut
    have hm' : 10 ∉ m' := (hlines m' (by simp)).1
    have htext : source = l ++ 10 :: (lineText pre ++ (m' ++ 10 ::
        (lineText post ++ (dot ++ 10 :: rest)))) := by
      rw [hsource, ← lineText_cut]
      simp [lineText]
    rw [htext, linesetOut_clean hl, linesetOut_first (plain_clean hl)
      (first_line (fun x => hfirst l _ x htext hl) hline), linesetOut_lines hpre hne,
      linesetOut_clean hm', hclean', nil_append, linesetOut_empty,
      push_push, push_push, push_eq_some] at hout
    obtain ⟨tail, -, hsame⟩ := hout
    have hall : linesetText (l :: (pre ++ m' :: post)) =
        clean l ++ ([13, 10] ++ (linesetText pre ++ (13 :: 10 :: linesetText post))) := by
      simp [linesetText, hclean']
    rw [hall] at hsame
    simp only [append_assoc] at hsame
    have hbytes := append_cancel_left (append_cancel_left (append_cancel_left hsame))
    exact absurd (List.cons.inj hbytes).1 (by decide)

theorem linesetRight_iff (source : Bytes) : LinesetRight source ↔ LinesetRegular source :=
  ⟨LinesetRight.regular, LinesetRegular.right⟩

/-- Both readers are right for the sources that are regular. -/
theorem command_right_iff (source : Bytes) : (BodyRight source ↔ BodyRegular source) ∧
      (LinesetRight source ↔ LinesetRegular source) :=
  ⟨bodyRight_iff source, linesetRight_iff source⟩

/-- A dot at the end of a line is taken for the end of the body. -/
theorem bodyRight_dot : ¬ BodyRight [118, 61, 48, 10, 97, 46, 10, 46, 10] := by
  intro h
  obtain ⟨ls, dot, hls, hdot, hbody, hsource⟩ :=
    (h [118, 61, 48, 10, 97] [46, 10]).mp (by decide)
  have hsame : lineText ls ++ (dot ++ 10 :: [46, 10]) =
      lineText [[118, 61, 48]] ++ ([97, 46] ++ 10 :: [46, 10]) := by
    rw [hbody] at hsource
    exact hsource.symm
  obtain ⟨-, rfl⟩ := lines_eq (fun m hm => (hls m hm).1) hdot.noLine
    (fun m hm => by rw [mem_singleton.mp hm]; decide) (by decide) hsame
  exact absurd hdot (by decide)

end Msicp.Unixsock
