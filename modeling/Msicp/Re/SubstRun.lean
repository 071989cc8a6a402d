import Msicp.Support.Bytes
import Msicp.Support.Splice

/-!
# Substitution expressions

An expression is a separator, a regular expression, a replacement and flags.
Two bytes of the replacement, the first a backslash, stand for a byte, for the
URI of the message or for what a group has matched.
-/

namespace Msicp.Re

open Msicp.Support
open Option hiding min_eq_left

/-- What `regexec` leaves in `pmatch`; a group that has matched nothing has the
offset -1. -/
abbrev Pmatch := ℕ → Option (ℕ × ℕ)

/-- A compiled expression answers on a text, with `REG_NOTBOL` or without.
What it has matched lies in the text. -/
structure Regex where
  exec : Bytes → Bool → Option Pmatch
  bounds : ∀ {text : Bytes} {notbol : Bool} {pmatch : Pmatch} {k so eo : ℕ},
    exec text notbol = some pmatch → pmatch k = some (so, eo) →
      so ≤ eo ∧ eo ≤ text.length

/-- `enum replace_special`, with the union. -/
inductive Special
  | nmatch (k : ℕ)
  | char (c : UInt8)
  | uri

/-- `struct replace_with` -/
structure ReplaceWith where
  offset : ℕ
  size : ℕ
  type : Special

/-- `struct subst_expr` -/
structure SubstExpr where
  re : Regex
  replacement : Bytes
  replaceAll : Bool
  escapes : List ReplaceWith
  maxPmatch : ℕ

def maxReplaceWith : ℕ := 100

/-- The expression up to the first separator that is not escaped, and what is
behind that.  `prev` is the byte before. -/
def findRe (c : UInt8) : UInt8 → Bytes → Option (Bytes × Bytes)
  | _, [] => none
  | prev, b :: rest =>
    if b = c ∧ prev ≠ 92 then some ([], rest)
    else (findRe c b rest).map fun (re, rest) => (b :: re, rest)

/-- What an escaped byte stands for. -/
def special (b : UInt8) : Special :=
  if b = 92 then .char 92
  else if b = 110 then .char 10
  else if b = 114 then .char 13
  else if b = 116 then .char 9
  else if b = 117 then .uri
  else if 48 ≤ b ∧ b ≤ 57 then .nmatch (b.toNat - 48)
  else .char b

/-- The loop over the replacement, `i` bytes behind its start: its length, its
escapes, and what is behind the separator. -/
def replLoop (c : UInt8) :
    ℕ → Bool → List ReplaceWith → Bytes → Option (ℕ × List ReplaceWith × Bytes)
  | _, _, _, [] => none
  | i, true, rw, b :: rest =>
    if maxReplaceWith ≤ rw.length + 1 then none
    else replLoop c (i + 1) false (rw ++ [⟨i - 1, 2, special b⟩]) rest
  | i, false, rw, b :: rest =>
    if b = 92 then replLoop c (i + 1) true rw rest
    else if b = c then some (i, rw, rest)
    else replLoop c (i + 1) false rw rest

/-- `cflags` and `replace_all` -/
structure Flags where
  icase : Bool
  newline : Bool
  replaceAll : Bool

/-- The loop over the flags. -/
def flagsLoop : Flags → Bytes → Option Flags
  | f, [] => some f
  | f, b :: rest =>
    if b = 105 then flagsLoop { f with icase := true } rest
    else if b = 115 then flagsLoop { f with newline := false } rest
    else if b = 103 then flagsLoop { f with replaceAll := true } rest
    else none

/-- The group an escape refers to. -/
def groupOf : Special → ℕ
  | .nmatch k => k
  | _ => 0

/-- The answers of `pkg_malloc`, request by request. -/
abbrev Grants := ℕ → Bool

/-- `subst_parser`, where `regcomp` gets the expression, `REG_ICASE` and
`REG_NEWLINE`. -/
def substParser (regcomp : Bytes → Bool → Bool → Option Regex) (mem : Grants)
    (subst : Bytes) : Option SubstExpr :=
  match subst with
  | c :: p =>
    if subst.length < 3 ∨ c = 92 then none
    else
      (findRe c c p).bind fun (re, repl) =>
      (replLoop c 0 false [] repl).bind fun (len, rw, flags) =>
      (flagsLoop ⟨false, true, false⟩ flags).bind fun f =>
      if mem 0 = false then none
      else
        -- an expression ends at its first null byte
        (regcomp (re.takeWhile (· ≠ 0)) f.icase f.newline).bind fun regex =>
        if mem 1 = false ∨ mem 2 = false then none
        else
          some ⟨regex, repl.take len, f.replaceAll, rw,
            rw.foldl (fun n r => max n (groupOf r.type)) 0⟩
  | [] => none

/-- The edits that the escapes are, if `text` says what they stand for. -/
def edits (text : Special → Bytes) (escapes : List ReplaceWith) : List (Edit UInt8) :=
  escapes.map fun r => ⟨r.offset, r.size, text r.type⟩

/-- The escapes are in order, and in the replacement. -/
def SubstExpr.WellFormed (se : SubstExpr) : Prop :=
  ∀ text, Ordered 0 (edits text se.escapes) se.replacement.length

theorem edits_append {text : Special → Bytes} {rw : List ReplaceWith}
    {i : ℕ} (type : Special) (h : Ordered 0 (edits text rw) i) :
    Ordered 0 (edits text (rw ++ [⟨i, 2, type⟩])) (i + 2) := by
  rw [edits, List.map_append]
  exact h.append ⟨le_refl i, le_refl (i + 2)⟩

/-- `i` bytes have been read, the last of them a backslash if `escape` is set. -/
theorem replLoop_ordered {c : UInt8} {text : Special → Bytes} {rest : Bytes}
    {i : ℕ} {escape : Bool} {rw out : List ReplaceWith} {len : ℕ} {flags : Bytes}
    (hescape : escape.toNat ≤ i)
    (hrw : Ordered 0 (edits text rw) (i - escape.toNat))
    (h : replLoop c i escape rw rest = some (len, out, flags)) :
    len ≤ i + rest.length ∧ Ordered 0 (edits text out) len := by
  induction rest generalizing i escape rw with
  | nil => cases escape <;> simp [replLoop] at h
  | cons b rest ih =>
    have hnext : ∀ {escape' : Bool} {rw' : List ReplaceWith},
        Ordered 0 (edits text rw') (i + 1 - escape'.toNat) →
        replLoop c (i + 1) escape' rw' rest = some (len, out, flags) →
        len ≤ i + (b :: rest).length ∧ Ordered 0 (edits text out) len := by
      intro escape' rw' hrw' h'
      have hle : escape'.toNat ≤ i + 1 := by
        have := Bool.toNat_le escape'
        omega
      have hout := ih hle hrw' h'
      rw [List.length_cons]
      exact ⟨by omega, hout.2⟩
    cases escape with
    | true =>
      rw [replLoop] at h
      split_ifs at h with hmany
      have hone : 1 ≤ i := hescape
      have hadd := edits_append (special b) hrw
      refine hnext ?_ h
      rw [Bool.toNat_false, Nat.sub_zero]
      rw [Bool.toNat_true, show i - 1 + 2 = i + 1 by omega] at hadd
      exact hadd
    | false =>
      rw [replLoop] at h
      split_ifs at h with hback hsep
      · exact hnext hrw h
      · simp only [some.injEq, Prod.mk.injEq] at h
        obtain ⟨rfl, rfl, rfl⟩ := h
        exact ⟨by omega, hrw⟩
      · exact @hnext false _ (hrw.mono (Nat.le_succ i)) h

/-- The escapes of an expression that has been read are in order. -/
theorem substParser_wellFormed
    {regcomp : Bytes → Bool → Bool → Option Regex} {mem : Grants} {subst : Bytes}
    {se : SubstExpr} (h : substParser regcomp mem subst = some se) :
    se.WellFormed := by
  intro text
  cases subst with
  | nil => simp [substParser] at h
  | cons c p =>
    simp only [substParser] at h
    by_cases hshort : (c :: p).length < 3 ∨ c = 92
    · rw [if_pos hshort] at h
      cases h
    rw [if_neg hshort] at h
    obtain ⟨⟨re, repl⟩, -, h⟩ := bind_eq_some_iff.mp h
    obtain ⟨⟨len, rw', flags⟩, hrepl, h⟩ := bind_eq_some_iff.mp h
    obtain ⟨f, -, h⟩ := bind_eq_some_iff.mp h
    by_cases hzero : mem 0 = false
    · rw [if_pos hzero] at h
      cases h
    rw [if_neg hzero] at h
    obtain ⟨regex, -, h⟩ := bind_eq_some_iff.mp h
    by_cases hmem : mem 1 = false ∨ mem 2 = false
    · rw [if_pos hmem] at h
      cases h
    rw [if_neg hmem] at h
    obtain rfl := some.inj h
    have hord := @replLoop_ordered _ text _ _ _ _ _ _ _ (Nat.zero_le _)
      (show Ordered 0 (edits text []) (0 - false.toNat) from le_refl 0) hrepl
    rw [List.length_take, min_eq_left (by omega)]
    exact hord.2

end Msicp.Re

/-!
## Substitutions

`subst_run` searches from the end of the last match on, and notes what is to be
replaced; `subst_str` replaces it.
-/

namespace Msicp.Re

open Msicp.Support

/-- What a message says about its URI. -/
structure Msg where
  isRequest : Bool
  newUri : Option Bytes
  uri : Bytes

/-- A `str` as it has been filled: the length that is noted, and the bytes. -/
structure Str where
  len : ℤ
  s : Bytes

/-- `struct replace_lst` -/
structure ReplaceLst where
  offset : ℕ
  size : ℕ
  rpl : Str

/-- What is copied for an escape, of a match in `text`. -/
def escapeText (se : SubstExpr) (msg : Msg) (text : Bytes) (pmatch : Pmatch) : Special → Bytes
  | .nmatch k =>
    if k < se.maxPmatch + 1 then
      match pmatch k with
      | some (so, eo) => (text.drop so).take (eo - so)
      | none => []
    else []
  | .char c => [c]
  | .uri => if msg.isRequest then msg.newUri.getD msg.uri else []

/-- One step of `replace_len`. -/
def lenStep (se : SubstExpr) (msg : Msg) (pmatch : Pmatch) (len : ℤ) (r : ReplaceWith) : ℤ :=
  match r.type with
  | .nmatch k =>
    len - r.size +
      if k < se.maxPmatch + 1 then
        match pmatch k with
        | some (so, eo) => (eo : ℤ) - so
        | none => 0
      else 0
  | .char _ => len - (r.size - 1)
  | .uri =>
    len - r.size + if msg.isRequest then (msg.newUri.getD msg.uri).length else 0

def replaceLen (se : SubstExpr) (msg : Msg) (pmatch : Pmatch) : ℤ :=
  se.escapes.foldl (lenStep se msg pmatch) se.replacement.length

/-- The loop of `replace_build`, at `p` in the replacement. -/
def buildLoop (se : SubstExpr) (msg : Msg) (text : Bytes) (pmatch : Pmatch) :
    ℕ → Bytes → List ReplaceWith → Bytes
  | p, dest, [] => dest ++ se.replacement.drop p
  | p, dest, r :: rs =>
    let size := r.offset - p
    buildLoop se msg text pmatch (p + (size + r.size)) (dest ++ (se.replacement.drop p).take size ++
        escapeText se msg text pmatch r.type) rs

/-- `replace_build`, and how many requests for memory there have been. -/
def replaceBuild (mem : Grants) (n : ℕ) (se : SubstExpr) (msg : Msg)
    (text : Bytes) (pmatch : Pmatch) : Option Str × ℕ :=
  let len := replaceLen se msg pmatch
  if len = 0 then (some ⟨len, []⟩, n)
  else if mem n then
    (some ⟨len, buildLoop se msg text pmatch 0 [] se.escapes⟩, n + 1)
  else (none, n + 1)

/-- The loop of `subst_run`, at `p` in the input: the list, or `none` behind
`error`. -/
def substLoop (mem : Grants) (se : SubstExpr) (input : Bytes) (msg : Msg) :
    ℕ → ℕ → Bool → ℕ → List ReplaceLst → Option (Option (List ReplaceLst) × ℕ)
  | 0, _, _, _, _ => none
  | fuel + 1, p, notbol, n, lst =>
    match se.re.exec (input.drop p) notbol with
    | none => some (some lst, n)
    | some pmatch =>
      if mem n = false then some (none, n + 1)
      else
        match pmatch 0 with
        | none => some (none, n + 1)
        | some (so, eo) =>
          match replaceBuild mem (n + 1) se msg (input.drop p) pmatch with
          | (none, n) => some (none, n)
          | (some rpl, n) =>
            let lst := lst ++ [⟨so + p, eo - so, rpl⟩]
            if se.replaceAll then
              substLoop mem se input msg fuel (p + eo) true n lst
            else some (some lst, n)

def substRun (mem : Grants) (fuel : ℕ) (se : SubstExpr) (input : Bytes)
    (msg : Msg) : Option (Option (List ReplaceLst) × ℕ) :=
  if mem 0 then substLoop mem se input msg fuel 0 false 1 []
  else some (none, 1)

/-- The length `subst_str` computes. -/
def strLen (input : Bytes) (lst : List ReplaceLst) : ℤ :=
  lst.foldl (fun len l => len + (l.rpl.len - l.size)) input.length

/-- The loop of `subst_str`, at `p` in the input. -/
def strLoop (input : Bytes) : ℕ → Bytes → List ReplaceLst → Bytes
  | p, dest, [] => dest ++ input.drop p
  | p, dest, l :: ls =>
    let size := l.offset - p
    let dest := dest ++ (input.drop p).take size
    strLoop input (p + (size + l.size))
      (if l.rpl.len = 0 then dest else dest ++ l.rpl.s.take l.rpl.len.toNat) ls

/-- `subst_str`; there is no result if nothing has matched, or without memory. -/
def substStr (mem : Grants) (fuel : ℕ) (se : SubstExpr) (input : Bytes)
    (msg : Msg) : Option (Option Str) :=
  (substRun mem fuel se input msg).map fun
    | (none, _) | (some [], _) => none
    | (some lst, n) =>
      if mem n = false ∨ mem (n + 1) = false then none
      else some ⟨strLen input lst, strLoop input 0 [] lst⟩

/-! ## What is asked of it -/

/-- The replacement, with what its escapes stand for. -/
def expansion (se : SubstExpr) (msg : Msg) (text : Bytes) (pmatch : Pmatch) :
    Bytes :=
  splice se.replacement 0 (edits (escapeText se msg text pmatch) se.escapes)

/-- The bytes and their length. -/
def Str.of (s : Bytes) : Str := ⟨s.length, s⟩

/-- The matches from `p` on, from left to right, with their replacements. -/
inductive Listed (se : SubstExpr) (msg : Msg) (input : Bytes) :
    ℕ → Bool → List ReplaceLst → Prop
  | done {p : ℕ} {notbol : Bool} (h : se.re.exec (input.drop p) notbol = none) :
      Listed se msg input p notbol []
  | only {p so eo : ℕ} {notbol : Bool} {pmatch : Pmatch}
      (h : se.re.exec (input.drop p) notbol = some pmatch)
      (hwhole : pmatch 0 = some (so, eo)) (hone : se.replaceAll = false) :
      Listed se msg input p notbol
        [⟨so + p, eo - so, Str.of (expansion se msg (input.drop p) pmatch)⟩]
  | more {p so eo : ℕ} {notbol : Bool} {pmatch : Pmatch} {lst : List ReplaceLst}
      (h : se.re.exec (input.drop p) notbol = some pmatch)
      (hwhole : pmatch 0 = some (so, eo)) (hall : se.replaceAll = true)
      (hrest : Listed se msg input (p + eo) true lst) :
      Listed se msg input p notbol
        (⟨so + p, eo - so, Str.of (expansion se msg (input.drop p) pmatch)⟩ :: lst)

/-- A replacement as an edit of the input. -/
def ReplaceLst.edit (l : ReplaceLst) : Edit UInt8 := ⟨l.offset, l.size, l.rpl.s⟩

/-- The run ends, its list is right, and so is the text that is built. -/
structure Right (mem : Grants) (se : SubstExpr) (input : Bytes) (msg : Msg) :
    Prop where
  returns : ∃ fuel out, substRun mem fuel se input msg = some out
  list : ∀ fuel lst n, substRun mem fuel se input msg = some (some lst, n) →
    Listed se msg input 0 false lst ∧
      Ordered 0 (lst.map ReplaceLst.edit) input.length
  build : ∀ text notbol pmatch, se.re.exec text notbol = some pmatch →
    ∀ n rpl n', replaceBuild mem n se msg text pmatch = (some rpl, n') →
      (rpl.s.length : ℤ) = replaceLen se msg pmatch
  str : ∀ fuel res, substStr mem fuel se input msg = some (some res) →
    ∃ lst, Listed se msg input 0 false lst ∧
      Spliced 0 input (lst.map ReplaceLst.edit) res.s ∧ res.len = res.s.length

/-- Where a search may start. -/
inductive Reached (se : SubstExpr) (input : Bytes) : ℕ → Bool → Prop
  | start : Reached se input 0 false
  | next {p so eo : ℕ} {notbol : Bool} {pmatch : Pmatch}
      (h : Reached se input p notbol)
      (hexec : se.re.exec (input.drop p) notbol = some pmatch)
      (hwhole : pmatch 0 = some (so, eo)) : Reached se input (p + eo) true

/-- All matches are asked for, and one ends where the search for it has started,
which is not the search at the start of the input. -/
def Stuck (se : SubstExpr) (input : Bytes) : Prop :=
  se.replaceAll = true ∧ ∃ p so pmatch, Reached se input p true ∧
    se.re.exec (input.drop p) true = some pmatch ∧ pmatch 0 = some (so, 0)

end Msicp.Re
