import Msicp.Parser.UriParams
import Msicp.Rr.RouteSet

/-!
# The parameters as `loose.c` scans them

`is_strict` and `is_2rr` cut the parameters at each `;` that is not in quotes
and look at the name of each, without the white space around it.  A parameter
that is blank or only the first letter of the name takes the one behind it with
it, as its `;` is skipped like any other byte.
-/

namespace Msicp.Rr

open Msicp.Support List
open Msicp.Parser (pieceName)
open Msicp.Avp (tolower sameName)

/-- Whether a text is in quotes, or behind a backslash in quotes. -/
inductive Quote
  | outside | inside | escaped
  deriving DecidableEq

def Quote.next (quote : Quote) (c : UInt8) : Quote :=
  match quote with
  | .outside => if c = '"'.toUInt8 then .inside else .outside
  | .inside =>
    if c = '\\'.toUInt8 then .escaped
    else if c = '"'.toUInt8 then .outside else .inside
  | .escaped => .inside

/-- A text that starts inside or outside of quotes, cut at each `;` that is not
in quotes. -/
def paramsFrom (quote : Quote) : Bytes → List Bytes
  | [] => [[]]
  | c :: text =>
    if quote = .outside ∧ c = ';'.toUInt8 then
      [] :: paramsFrom .outside text
    else (paramsFrom (quote.next c) text).modifyHead (c :: ·)

/-- The parameters, cut at each `;` that is not in quotes. -/
def quotedParams (params : Bytes) : List Bytes :=
  paramsFrom .outside params

/-- A text without the white space around it. -/
def trim (w : Bytes) : Bytes :=
  ((w.dropWhile isWhite).reverse.dropWhile isWhite).reverse

/-- A parameter with the name, in letters of either case. -/
def isNamed (name w : Bytes) : Bool :=
  sameName (trim (pieceName w)) name

/-- A parameter that is blank, or only the first letter of the name. -/
def swallows (a : UInt8 → Bool) (w : Bytes) : Bool :=
  match w.dropWhile isWhite with
  | [] => true
  | [c] => a c
  | _ => false

/-- A parameter whose first quote follows its start, the first letter or the
name. -/
def strayQuote (a b : UInt8 → Bool) (w : Bytes) : Bool :=
  match w.dropWhile isWhite with
  | [] => false
  | [c] => c = '"'.toUInt8
  | c :: d :: t =>
    c = '"'.toUInt8 || a c && (d = '"'.toUInt8 ||
      b d && (t.dropWhile isWhite).head? = some '"'.toUInt8)

/-! ## The name of a parameter -/

/-- White space, the two letters, white space, and then nothing or a `=`. -/
def twoLetters (a b : UInt8 → Bool) (w : Bytes) : Bool :=
  match w.dropWhile isWhite with
  | c :: d :: t =>
    a c && b d && (t.dropWhile isWhite).head?.all (· = '='.toUInt8)
  | _ => false

/-- The letters of a name. -/
structure Letters (a b : UInt8 → Bool) (name : Bytes) : Prop where
  same : ∀ x, sameName x name ↔ ∃ c d, x = [c, d] ∧ a c = true ∧ b d = true
  first : ∀ c, a c = true → isWhite c = false ∧ c ≠ 61 ∧ c ≠ 59 ∧ c ≠ 34
  second : ∀ c, b c = true → isWhite c = false ∧ c ≠ 61 ∧ c ≠ 59 ∧ c ≠ 34

theorem sameName_pair {m n : UInt8} {x : Bytes} : sameName x [m, n] ↔
    ∃ c d, x = [c, d] ∧ tolower c = tolower m ∧ tolower d = tolower n := by
  constructor
  · intro h
    obtain ⟨c, y, rfl, hc, hy⟩ := map_eq_cons_iff.mp h
    obtain ⟨d, z, rfl, hd, hz⟩ := map_eq_cons_iff.mp hy
    obtain rfl := map_eq_nil_iff.mp hz
    exact ⟨c, d, rfl, hc, hd⟩
  · rintro ⟨c, d, rfl, hc, hd⟩
    simp [sameName, hc, hd]

theorem isL_iff (c : UInt8) : isL c = true ↔ tolower c = tolower 108 := by
  have hl : tolower 108 = 108 := by decide
  rw [hl, Parser.tolower_eq_letter (e := 76) (by decide) (by decide)]
  simp only [isL, Bool.or_eq_true, decide_eq_true_eq]
  exact Iff.rfl

theorem isR_iff (c : UInt8) : isR c = true ↔ tolower c = tolower 114 := by
  have hr : tolower 114 = 114 := by decide
  rw [hr, Parser.tolower_eq_letter (e := 82) (by decide) (by decide)]
  simp only [isR, Bool.or_eq_true, decide_eq_true_eq]
  exact Iff.rfl

theorem isL_ne {c : UInt8} (h : isL c = true) : isWhite c = false ∧ c ≠ 61 ∧ c ≠ 59 ∧ c ≠ 34 := by
  simp only [isL, Bool.or_eq_true, decide_eq_true_eq] at h
  rcases h with rfl | rfl <;> decide

theorem isR_ne {c : UInt8} (h : isR c = true) : isWhite c = false ∧ c ≠ 61 ∧ c ≠ 59 ∧ c ≠ 34 := by
  simp only [isR, Bool.or_eq_true, decide_eq_true_eq] at h
  rcases h with rfl | rfl <;> decide

theorem letters_lr : Letters isL isR (ascii "lr") where
  same x := by
    simp only [isL_iff, isR_iff]
    exact sameName_pair
  first _ := isL_ne
  second _ := isR_ne

theorem letters_r2 : Letters isR (· = '2'.toUInt8) (ascii "r2") where
  same x := by
    have h2 : ∀ d : UInt8, decide (d = '2'.toUInt8) = true ↔ tolower d = tolower 50 := by
      intro d
      have h50 : tolower 50 = 50 := by decide
      rw [h50, Parser.tolower_eq_iff (by decide), decide_eq_true_iff]
      exact Iff.rfl
    simp only [isR_iff, h2]
    exact sameName_pair
  first _ := isR_ne
  second c h := by
    obtain rfl := of_decide_eq_true h
    decide

section Names

variable {a b : UInt8 → Bool} {name w v t : Bytes} {c d : UInt8}

theorem isWhite_eq : isWhite 61 = false := by
  decide

theorem pieceName_cons : pieceName (c :: w) = if c = 61 then [] else c :: pieceName w := by
  by_cases hc : c = 61 <;> simp [pieceName, hc]

theorem dropWhile_pieceName (w : Bytes) :
    (pieceName w).dropWhile isWhite = pieceName (w.dropWhile isWhite) := by
  induction w with
  | nil => rfl
  | cons c w ih =>
    by_cases hc : c = 61
    · subst hc
      simp [pieceName_cons, isWhite_eq]
    · cases hwhite : isWhite c <;> simp [pieceName_cons, hc, hwhite, ih]

theorem all_pieceName_white (t : Bytes) : (pieceName t).all isWhite =
      (t.dropWhile isWhite).head?.all (· = '='.toUInt8) := by
  have heq : '='.toUInt8 = 61 := rfl
  induction t with
  | nil => simp [pieceName]
  | cons c t ih =>
    by_cases hc : c = 61
    · subst hc
      simp [pieceName_cons, isWhite_eq, heq]
    · cases hwhite : isWhite c
      · simp [pieceName_cons, hc, hwhite, heq]
      · simp [pieceName_cons, hc, hwhite, ih]

theorem trimEnd_pair (c d : UInt8) (v : Bytes) : ((c :: d :: v).reverse.dropWhile isWhite).reverse =
      if v.all isWhite then ([d, c].dropWhile isWhite).reverse
      else c :: d :: (v.reverse.dropWhile isWhite).reverse := by
  have hempty : (v.reverse.dropWhile isWhite).isEmpty = v.all isWhite := by
    rw [Bool.eq_iff_iff]
    simp [List.isEmpty_iff]
  have hsplit : (c :: d :: v).reverse = v.reverse ++ [d, c] := by simp
  rw [hsplit, dropWhile_append, hempty]
  split_ifs
  · rfl
  · simp

/-- The two letters are the name between white space. -/
theorem isNamed_eq (h : Letters a b name) (w : Bytes) : isNamed name w = twoLetters a b w := by
  have hshort : ∀ x : Bytes, x.length ≠ 2 → ¬ sameName x name := by
    intro x hx hsame
    obtain ⟨c, d, rfl, -⟩ := (h.same x).mp hsame
    exact hx rfl
  have htrim : ∀ x : Bytes, x.length < 2 → (x.reverse.dropWhile isWhite).reverse.length ≠ 2 := by
    intro x hx
    have hle := length_dropWhile_le isWhite x.reverse
    simp only [length_reverse] at hle ⊢
    omega
  rw [Bool.eq_iff_iff, isNamed, decide_eq_true_iff, trim, dropWhile_pieceName, twoLetters]
  match w.dropWhile isWhite with
  | [] => exact iff_of_false (hshort _ (htrim _ (by simp [pieceName]))) (by simp)
  | [c] =>
    refine iff_of_false (hshort _ (htrim _ ?_)) (by simp)
    rw [pieceName_cons]
    split_ifs <;> simp [pieceName]
  | c :: d :: t =>
    simp only [Bool.and_eq_true]
    rw [pieceName_cons]
    split_ifs with hc
    · refine iff_of_false (hshort _ (htrim _ (by simp))) ?_
      rintro ⟨⟨ha, -⟩, -⟩
      exact (h.first c ha).2.1 hc
    rw [pieceName_cons]
    split_ifs with hd
    · refine iff_of_false (hshort _ (htrim _ (by simp))) ?_
      rintro ⟨⟨-, hb⟩, -⟩
      exact (h.second d hb).2.1 hd
    rw [trimEnd_pair, ← all_pieceName_white]
    split_ifs with hv
    · cases hwhite : isWhite d with
      | false =>
        have hpair : sameName [c, d] name ↔ a c = true ∧ b d = true := by
          simp [h.same]
        rw [and_iff_left hv]
        simpa [hwhite] using hpair
      | true =>
        refine iff_of_false (hshort _ (htrim [c] (by simp)) ∘ ?_) ?_
        · simp [hwhite]
        · rintro ⟨⟨-, hb⟩, -⟩
          simp [(h.second d hb).1] at hwhite
    · refine iff_of_false (hshort _ fun hlen => hv ?_) fun hlr => hv hlr.2
      simp only [length_cons, length_reverse, Nat.reduceEqDiff,
        length_eq_zero_iff, dropWhile_eq_nil_iff] at hlen
      simpa using hlen

end Names

end Msicp.Rr

/-!
## What a scan of the parameters finds

The scan is followed from the first byte of a parameter on.  Behind a byte that
does not belong to the name it is in step with the quotes again, up to the next
`;`.
-/

namespace Msicp.Rr

open Msicp.Support

/-- The scan gets to a parameter with the name.  It does not look at one behind
a parameter that swallows it. -/
def reaches (a b : UInt8 → Bool) : List Bytes → Bool
  | [] => false
  | [w] => twoLetters a b w
  | w :: v :: ws =>
    twoLetters a b w ||
      if swallows a w then reaches a b ws else reaches a b (v :: ws)

/-- What a scan that is in the state returns for the rest of the text. -/
def hits (a b : UInt8 → Bool) (state : Scan) (text : Bytes) : Bool :=
  match text.foldl (Scan.next a b) state with
  | .second | .white | .found => true
  | _ => false

/-- The state of a scan that skips the rest of a parameter. -/
def Quote.scan : Quote → Scan
  | .outside => .skip
  | .inside => .quoted
  | .escaped => .escaped

section Pieces

variable {a b : UInt8 → Bool} {name w v text : Bytes} {c d e : UInt8}
variable {ws : List Bytes} {quote : Quote}

theorem reaches_cons (w : Bytes) (ws : List Bytes) : reaches a b (w :: ws) = (twoLetters a b w ||
        reaches a b (if swallows a w then ws.tail else ws)) := by
  cases ws with
  | nil => cases h : swallows a w <;> simp [reaches]
  | cons v ws => cases h : swallows a w <;> simp [reaches, h]

theorem paramsFrom_ne_nil (quote : Quote) (text : Bytes) :
    ∃ w ws, paramsFrom quote text = w :: ws := by
  induction text generalizing quote with
  | nil => exact ⟨[], [], rfl⟩
  | cons c text ih =>
    unfold paramsFrom
    split_ifs
    · exact ⟨[], _, rfl⟩
    · obtain ⟨w, ws, h⟩ := ih (quote.next c)
      exact ⟨c :: w, ws, by rw [h]; rfl⟩

theorem paramsFrom_sep (text : Bytes) :
    paramsFrom .outside (59 :: text) = [] :: paramsFrom .outside text :=
  if_pos ⟨rfl, rfl⟩

theorem paramsFrom_quote (text : Bytes) : paramsFrom .outside (34 :: text) =
      (paramsFrom .inside text).modifyHead (34 :: ·) :=
  rfl

theorem paramsFrom_cons (hsep : c ≠ 59) (hquote : c ≠ 34) (text : Bytes) :
    paramsFrom .outside (c :: text) = (paramsFrom .outside text).modifyHead (c :: ·) := by
  have hnext : Quote.next .outside c = .outside := if_neg hquote
  rw [paramsFrom, if_neg fun h => hsep h.2, hnext]

theorem white_ne (h : isWhite c = true) : c ≠ 59 ∧ c ≠ 34 ∧ c ≠ 61 := by
  simp only [isWhite, Bool.or_eq_true, decide_eq_true_eq] at h
  rcases h with ((rfl | rfl) | rfl) | rfl <;> decide

theorem dropWhile_white (hwhite : isWhite c = true) : twoLetters a b (c :: w) = twoLetters a b w ∧
      swallows a (c :: w) = swallows a w ∧
      strayQuote a b (c :: w) = strayQuote a b w := by
  have hhead : (c :: w).dropWhile isWhite = w.dropWhile isWhite :=
    List.dropWhile_cons_of_pos hwhite
  rw [twoLetters, swallows, strayQuote, hhead]
  exact ⟨rfl, rfl, rfl⟩

theorem strayQuote_first : strayQuote a b (34 :: w) = true := by
  cases w <;> rfl

theorem strayQuote_second (hwhite : isWhite c = false) (ha : a c = true) :
    strayQuote a b (c :: 34 :: w) = true := by
  have hquote : '"'.toUInt8 = 34 := rfl
  simp [strayQuote, hwhite, ha, hquote]

theorem strayQuote_name (hwhite : isWhite c = false) (ha : a c = true)
    (hb : b d = true) (hv : ∀ x ∈ v, isWhite x = true) :
    strayQuote a b (c :: d :: (v ++ 34 :: w)) = true := by
  have hquote : '"'.toUInt8 = 34 := rfl
  have hstop : (34 :: w).dropWhile isWhite = 34 :: w :=
    List.dropWhile_cons_of_neg (by decide)
  simp [strayQuote, hwhite, ha, hb, hquote, hstop, List.dropWhile_append_of_pos hv]

theorem skip_first (hwhite : isWhite c = false) (ha : a c = false) :
    twoLetters a b (c :: w) = false ∧ swallows a (c :: w) = false := by
  cases w <;> simp [twoLetters, swallows, hwhite, ha]

theorem skip_second (hwhite : isWhite c = false) (hb : b d = false) :
    twoLetters a b (c :: d :: w) = false ∧ swallows a (c :: d :: w) = false := by
  simp [twoLetters, swallows, hwhite, hb]

theorem dropWhile_name (hwhite : isWhite c = false) (hv : ∀ x ∈ v, isWhite x = true) :
    twoLetters a b (c :: d :: (v ++ w)) = (a c && b d && (w.dropWhile isWhite).head?.all (· = 61)) ∧
      swallows a (c :: d :: (v ++ w)) = false := by
  have hhead : (c :: d :: (v ++ w)).dropWhile isWhite = c :: d :: (v ++ w) :=
    List.dropWhile_cons_of_neg (by simp [hwhite])
  rw [twoLetters, swallows, hhead]
  dsimp only
  rw [List.dropWhile_append_of_pos hv]
  exact ⟨rfl, rfl⟩

end Pieces

/-- What a scan of the text returns, in each of its states. -/
structure Scans (a b : UInt8 → Bool) (text : Bytes) : Prop where
  skip : ∀ quote : Quote,
    (∀ w ∈ (paramsFrom quote text).tail, strayQuote a b w = false) →
    hits a b quote.scan text = reaches a b (paramsFrom quote text).tail
  start : (∀ w ∈ paramsFrom .outside text, strayQuote a b w = false) →
    hits a b .start text = reaches a b (paramsFrom .outside text)
  first : ∀ c, a c = true →
    (∀ w ∈ (paramsFrom .outside text).modifyHead (c :: ·),
      strayQuote a b w = false) →
    hits a b .first text =
      reaches a b ((paramsFrom .outside text).modifyHead (c :: ·))
  name : ∀ c d v state, a c = true → b d = true →
    (∀ x ∈ v, isWhite x = true) → state = .second ∨ state = .white →
    (∀ w ∈ (paramsFrom .outside text).modifyHead fun w => c :: d :: (v ++ w),
      strayQuote a b w = false) →
    hits a b state text =
      reaches a b
        ((paramsFrom .outside text).modifyHead fun w => c :: d :: (v ++ w))

section Scanning

variable {a b : UInt8 → Bool} {name text : Bytes} {c : UInt8}

theorem hits_found (text : Bytes) : hits a b .found text = true := by
  induction text with
  | nil => rfl
  | cons c text ih => exact ih

theorem scans_nil (h : Letters a b name) : Scans a b [] where
  skip quote _ := by cases quote <;> rfl
  start _ := rfl
  first c ha _ := by
    have hwhite := (h.first c ha).1
    simp [hits, paramsFrom, reaches, twoLetters, hwhite]
  name c d v state ha hb hv hstate _ := by
    have hname := (dropWhile_name (a := a) (b := b) (d := d) (w := []) (h.first c ha).1 hv).1
    simp only [List.append_nil, ha, hb] at hname
    rcases hstate with rfl | rfl <;> simp [hits, paramsFrom, reaches, hname]

theorem hits_cons (state : Scan) : hits a b state (c :: text) = hits a b (state.next a b c) text :=
  rfl

theorem Scans.skip_cons (ih : Scans a b text) (quote : Quote)
    (hstray : ∀ w ∈ (paramsFrom quote (c :: text)).tail, strayQuote a b w = false) :
    hits a b quote.scan (c :: text) = reaches a b (paramsFrom quote (c :: text)).tail := by
  rw [hits_cons]
  rw [paramsFrom] at hstray ⊢
  by_cases hsep : quote = .outside ∧ c = ';'.toUInt8
  · rw [if_pos hsep] at hstray ⊢
    obtain ⟨rfl, rfl⟩ := hsep
    exact ih.start hstray
  · rw [if_neg hsep] at hstray ⊢
    have hscan : quote.scan.next a b c = (quote.next c).scan := by
      cases quote with
      | outside =>
        have hc : c ≠ ';'.toUInt8 := fun hc => hsep ⟨rfl, hc⟩
        simp only [Quote.scan, Quote.next, Scan.next, if_neg hc]
        split_ifs <;> rfl
      | inside =>
        simp only [Quote.scan, Quote.next, Scan.next]
        split_ifs <;> rfl
      | escaped => rfl
    rw [hscan]
    obtain ⟨w, ws, hparams⟩ := paramsFrom_ne_nil (quote.next c) text
    have hskip := ih.skip (quote.next c)
    rw [hparams] at hstray hskip ⊢
    exact hskip hstray

section

variable (h : Letters a b name)
include h

theorem Scans.start_cons (ih : Scans a b text) (hstray : ∀ w ∈ paramsFrom .outside (c :: text),
      strayQuote a b w = false) :
    hits a b .start (c :: text) = reaches a b (paramsFrom .outside (c :: text)) := by
  rw [hits_cons]
  have hskip := ih.skip .outside
  obtain ⟨w, ws, hparams⟩ := paramsFrom_ne_nil .outside text
  cases hwhite : isWhite c with
  | true =>
    have hnext : Scan.next a b .start c = .start := if_pos hwhite
    obtain ⟨hsep, hquote, -⟩ := white_ne hwhite
    have hstart := ih.start
    rw [paramsFrom_cons hsep hquote, hparams] at hstray ⊢
    rw [hparams] at hstart
    obtain ⟨hname, hswallow, hquotes⟩ := @dropWhile_white a b w c hwhite
    rw [List.modifyHead_cons] at hstray ⊢
    rw [List.forall_mem_cons, hquotes] at hstray
    rw [hnext, hstart (List.forall_mem_cons.mpr hstray), reaches_cons,
      reaches_cons, hname, hswallow]
  | false =>
    cases ha : a c with
    | true =>
      have hnext : Scan.next a b .start c = .first := by
        simp [Scan.next, hwhite, ha]
      obtain ⟨-, -, hsep, hquote⟩ := h.first c ha
      rw [paramsFrom_cons hsep hquote] at hstray ⊢
      rw [hnext]
      exact ih.first c ha hstray
    | false =>
      have hnext : Scan.next a b .start c = .skip := by
        simp [Scan.next, hwhite, ha]
      have hscan : Scan.skip = Quote.outside.scan := rfl
      rw [hnext, hscan]
      by_cases hsep : c = 59
      · subst hsep
        rw [paramsFrom_sep] at hstray ⊢
        rw [reaches_cons, hskip fun x hx => hstray x
          (List.mem_cons_of_mem _ (List.mem_of_mem_tail hx))]
        rfl
      by_cases hquote : c = 34
      · subst hquote
        obtain ⟨v, vs, hin⟩ := paramsFrom_ne_nil .inside text
        rw [paramsFrom_quote, hin] at hstray
        have hfalse := hstray (34 :: v) (by simp)
        rw [strayQuote_first] at hfalse
        cases hfalse
      · rw [paramsFrom_cons hsep hquote, hparams] at hstray ⊢
        rw [hparams] at hskip
        obtain ⟨hname, hswallow⟩ := @skip_first a b w c hwhite ha
        rw [List.modifyHead_cons, reaches_cons, hname, hswallow,
          hskip fun x hx => hstray x (List.mem_cons_of_mem _ hx)]
        rfl

theorem Scans.first_cons (ih : Scans a b text)
    {d : UInt8} (ha : a c = true)
    (hstray : ∀ w ∈ (paramsFrom .outside (d :: text)).modifyHead (c :: ·),
      strayQuote a b w = false) :
    hits a b .first (d :: text) =
      reaches a b ((paramsFrom .outside (d :: text)).modifyHead (c :: ·)) := by
  rw [hits_cons]
  have hskip := ih.skip .outside
  have hwhite := (h.first c ha).1
  obtain ⟨w, ws, hparams⟩ := paramsFrom_ne_nil .outside text
  cases hb : b d with
  | true =>
    have hnext : Scan.next a b .first d = .second := if_pos hb
    obtain ⟨-, -, hsep, hquote⟩ := h.second d hb
    have hname := ih.name c d [] .second ha hb (by simp) (Or.inl rfl)
    rw [paramsFrom_cons hsep hquote, hparams] at hstray ⊢
    rw [hparams] at hname
    rw [hnext]
    exact hname hstray
  | false =>
    have hnext : Scan.next a b .first d = .skip := by simp [Scan.next, hb]
    have hscan : Scan.skip = Quote.outside.scan := rfl
    rw [hnext, hscan]
    by_cases hsep : d = 59
    · subst hsep
      have hone : twoLetters a b [c] = false ∧ swallows a [c] = true := by
        simp [twoLetters, swallows, hwhite, ha]
      rw [paramsFrom_sep, List.modifyHead_cons] at hstray ⊢
      rw [reaches_cons, hone.1, hone.2, hskip fun x hx => hstray x
        (List.mem_cons_of_mem _ (List.mem_of_mem_tail hx))]
      rfl
    by_cases hquote : d = 34
    · subst hquote
      obtain ⟨v, vs, hin⟩ := paramsFrom_ne_nil .inside text
      rw [paramsFrom_quote, hin] at hstray
      have hfalse := hstray (c :: 34 :: v) (by simp)
      rw [strayQuote_second hwhite ha] at hfalse
      cases hfalse
    · rw [paramsFrom_cons hsep hquote, hparams] at hstray ⊢
      rw [hparams] at hskip
      obtain ⟨hname, hswallow⟩ := @skip_second a b w c d hwhite hb
      rw [List.modifyHead_cons, List.modifyHead_cons, reaches_cons, hname,
        hswallow, hskip fun x hx => hstray x (List.mem_cons_of_mem _ hx)]
      rfl

/-- Behind the name and the white space `v`. -/
theorem Scans.name_cons (ih : Scans a b text)
    {d e : UInt8} {v : Bytes} {state : Scan} (ha : a c = true)
    (hb : b d = true) (hv : ∀ x ∈ v, isWhite x = true)
    (hstate : state = .second ∨ state = .white)
    (hstray : ∀ w ∈ (paramsFrom .outside (e :: text)).modifyHead
      fun w => c :: d :: (v ++ w), strayQuote a b w = false) :
    hits a b state (e :: text) = reaches a b ((paramsFrom .outside (e :: text)).modifyHead
        fun w => c :: d :: (v ++ w)) := by
  rw [hits_cons]
  have hwhite := (h.first c ha).1
  have hname : ∀ w, twoLetters a b (c :: d :: (v ++ w)) = (w.dropWhile isWhite).head?.all (· = 61) ∧
        swallows a (c :: d :: (v ++ w)) = false := by
    intro w
    simpa [ha, hb] using dropWhile_name (a := a) (b := b) (d := d) (w := w) hwhite hv
  have hnext : state.next a b e = if e = 59 ∨ e = 61 then .found
      else if isWhite e then .white else .skip := by
    rcases hstate with rfl | rfl <;> rfl
  obtain ⟨w, ws, hparams⟩ := paramsFrom_ne_nil .outside text
  by_cases hsep : e = 59
  · subst hsep
    rw [hnext, if_pos (Or.inl rfl), hits_found, paramsFrom_sep,
      List.modifyHead_cons, reaches_cons, (hname []).1]
    rfl
  by_cases heq : e = 61
  · subst heq
    rw [hnext, if_pos (Or.inr rfl), hits_found,
      paramsFrom_cons (by decide) (by decide), hparams, List.modifyHead_cons,
      List.modifyHead_cons, reaches_cons, (hname _).1]
    rfl
  rw [hnext, if_neg (by simp [hsep, heq])]
  cases hwhite' : isWhite e with
  | true =>
    have hmore := ih.name c d (v ++ [e]) .white ha hb (by
      simpa [or_imp, forall_and, hwhite'] using hv) (Or.inr rfl)
    rw [paramsFrom_cons hsep (white_ne hwhite').2.1, hparams] at hstray ⊢
    rw [hparams] at hmore
    simp only [List.modifyHead_cons, List.append_assoc, List.singleton_append] at hmore hstray ⊢
    exact hmore hstray
  | false =>
    by_cases hquote : e = 34
    · subst hquote
      obtain ⟨x, xs, hin⟩ := paramsFrom_ne_nil .inside text
      rw [paramsFrom_quote, hin] at hstray
      have hfalse := hstray (c :: d :: (v ++ 34 :: x)) (by simp)
      rw [strayQuote_name hwhite ha hb hv] at hfalse
      cases hfalse
    · have hskip := ih.skip .outside
      rw [paramsFrom_cons hsep hquote, hparams] at hstray ⊢
      rw [hparams] at hskip
      have hscan : Scan.skip = Quote.outside.scan := rfl
      obtain ⟨hno, hswallow⟩ := hname (e :: w)
      rw [List.dropWhile_cons_of_neg (by simp [hwhite'])] at hno
      rw [List.modifyHead_cons, List.modifyHead_cons, reaches_cons, hno, hswallow]
      simp only [Bool.false_eq_true, if_false, List.head?_cons,
        Option.all_some, heq, decide_false, Bool.false_or]
      rw [hscan, hskip fun x hx => hstray x (List.mem_cons_of_mem _ hx)]
      rfl

theorem scans (text : Bytes) : Scans a b text := by
  induction text with
  | nil => exact scans_nil h
  | cons c text ih =>
    exact ⟨fun quote => ih.skip_cons quote, ih.start_cons h, fun d hd => ih.first_cons h hd,
      fun d e v state hd he hv hstate => ih.name_cons h hd he hv hstate⟩

theorem hasParam_eq (hstray : ∀ w ∈ quotedParams text, strayQuote a b w = false) :
    hasParam a b text = reaches a b (quotedParams text) :=
  (scans h text).start hstray

end

end Scanning

end Msicp.Rr
