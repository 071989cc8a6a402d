import Msicp.Content.MimeTree
import Msicp.Methods.ParseMethods

/-!
# The names in the trees

A walk that ends at the last letter of a name does not say whether it has been
there; and the subtypes behind `c` are not where the tree says.
-/

namespace Msicp.Content

open Msicp.Support List
open Msicp.Avp (tolower sameName)

/-- The names in `type_tree`. -/
def types : List (Bytes × ℕ) :=
  [(ascii "text", typeText), (ascii "message", typeMessage), (ascii "application", typeApplication)]

/-- The names in `subtype_tree`. -/
def subtypes : List (Bytes × ℕ) :=
  [(ascii "plain", subtypePlain), (ascii "cpim", subtypeCpim),
    (ascii "sdp", subtypeSdp), (ascii "cpl+xml", subtypeCplxml)]

/-- The code of a token, if it is one of the names. -/
def nameCode (names : List (Bytes × ℕ)) (unknown : ℕ) (token : Bytes) : ℕ :=
  ((names.find? fun n => sameName n.1 token).map Prod.snd).getD unknown

/-- The code that `type_tree` has for a token. -/
def typeFinal (token : Bytes) : ℕ :=
  finalOf typeTree typeUnknown (walk typeTree (some 0) token)

/-- The code that `subtype_tree` has for a token. -/
def subtypeFinal (token : Bytes) : ℕ :=
  finalOf subtypeTree subtypeUnknown (walk subtypeTree (some 0) token)

/-- A name without its last letter, with that letter once or more than once. -/
def Taken (w t : Bytes) : Prop :=
  ∃ x ∈ w.getLast?, ∃ j, t = w.dropLast ++ List.replicate j x

variable {w token : Bytes}

theorem takenFor_iff {t : Bytes} : takenFor w t = true ↔ Taken w t := by
  induction w generalizing t with
  | nil => simp [takenFor, Taken]
  | cons x w ih =>
    cases w with
    | nil =>
      have hall : t.all (· == x) = true ↔ ∃ j, t = List.replicate j x := by
        simp only [List.all_eq_true, beq_iff_eq]
        constructor
        · exact fun h => ⟨t.length, eq_replicate_iff.mpr ⟨rfl, h⟩⟩
        · rintro ⟨j, rfl⟩ c hc
          exact (mem_replicate.mp hc).2
      simpa [takenFor, Taken] using hall
    | cons y w =>
      cases t with
      | nil => simp [takenFor, Taken]
      | cons c t =>
        rw [takenFor, Bool.and_eq_true, beq_iff_eq, ih, Taken, Taken,
          getLast?_cons_cons, dropLast_cons_cons]
        constructor
        · rintro ⟨rfl, x', hx', j, rfl⟩
          exact ⟨x', hx', j, rfl⟩
        · rintro ⟨x', hx', j, heq⟩
          rw [cons_append, List.cons.injEq] at heq
          exact ⟨heq.1, x', hx', j, heq.2⟩

/-! ## The types -/

theorem advance_type (c : UInt8) : advance typeTree (some 0) c =
      if tolower c = 116 then some 1
      else if tolower c = 109 then some 5
      else if tolower c = 97 then some 12
      else none := by
  simp only [advance, seek, typeTree, length_cons, length_nil,
    getElem?_cons_zero, getElem?_cons_succ, isCharEqual_iff]
  split_ifs <;> rfl

theorem takenFor_cons {x : UInt8} (hw : w ≠ []) (c : UInt8) (t : Bytes) :
    takenFor (x :: w) (c :: t) = (c == x && takenFor w t) := by
  obtain ⟨y, w, rfl⟩ := exists_cons_of_ne_nil hw
  rfl

theorem typeFinal_eq (h : token ≠ []) : typeFinal token =
      if takenFor (ascii "text") (token.map tolower) then typeText
      else if takenFor (ascii "message") (token.map tolower) then typeMessage
      else if takenFor (ascii "application") (token.map tolower) then typeApplication
      else typeUnknown := by
  obtain ⟨c, t, rfl⟩ := exists_cons_of_ne_nil h
  have htext := @walk_chain typeTree typeUnknown typeText 1 (ascii "ext") (typeTree.drop 4)
      (by decide) (by decide) t
  have hmessage := @walk_chain typeTree typeUnknown typeMessage 5 (ascii "essage")
      (typeTree.drop 11)
    (by decide) (by decide) t
  have happlication := @walk_chain typeTree typeUnknown typeApplication 12 (ascii "pplication") []
    (by decide) (by decide) t
  rw [show ascii "text" = 116 :: ascii "ext" by decide,
    show ascii "message" = 109 :: ascii "essage" by decide,
    show ascii "application" = 97 :: ascii "pplication" by decide, map_cons,
    takenFor_cons (by decide), takenFor_cons (by decide), takenFor_cons (by decide),
    typeFinal, walk_cons, advance_type]
  by_cases ht : tolower c = 116
  · rw [if_pos ht, htext, ht]
    simp
  · rw [if_neg ht]
    by_cases hm : tolower c = 109
    · rw [if_pos hm, hmessage, hm]
      simp
    · rw [if_neg hm]
      by_cases ha : tolower c = 97
      · rw [if_pos ha, happlication, ha]
        simp
      · rw [if_neg ha, walk_none]
        simp [ht, hm, ha, finalOf]

/-! ## The subtypes -/

theorem advance_subtype (c : UInt8) : advance subtypeTree (some 0) c =
      if tolower c = 112 then some 1
      else if tolower c = 99 then some 6
      else if tolower c = 43 then some 11
      else none := by
  simp only [advance, seek, subtypeTree, length_cons, length_nil,
    getElem?_cons_zero, getElem?_cons_succ, isCharEqual_iff]
  split_ifs <;> rfl

theorem advance_cp (c : UInt8) : advance subtypeTree (some 7) c =
      if tolower c = 105 then some 8
      else if tolower c = 108 then some 10
      else none := by
  simp only [advance, seek, subtypeTree, length_cons, length_nil,
    getElem?_cons_zero, getElem?_cons_succ, isCharEqual_iff]
  split_ifs <;> rfl

/-- The subtypes that start with `cp`. -/
theorem walk_cp (t : Bytes) : finalOf subtypeTree subtypeUnknown (walk subtypeTree (some 6) t) =
      if takenFor (ascii "pim") (t.map tolower) then subtypeCpim
      else if takenFor (ascii "pl+xml") (t.map tolower) then subtypeCplxml
      else subtypeUnknown := by
  have hp : subtypeTree[6]? = some ⟨112, subtypeUnknown, 2, none⟩ := rfl
  rw [show ascii "pim" = 112 :: 105 :: ascii "m" by decide,
    show ascii "pl+xml" = 112 :: 108 :: ascii "+xml" by decide]
  cases t with
  | nil => rfl
  | cons c t =>
    rw [walk_cons, advance_single hp, map_cons, takenFor_cons (by simp), takenFor_cons (by simp)]
    by_cases hc : tolower c = 112
    · rw [if_pos hc, if_pos (by decide), hc]
      cases t with
      | nil => rfl
      | cons d t =>
        have hcpim := @walk_chain subtypeTree subtypeUnknown subtypeCpim 8 (ascii "m")
            (subtypeTree.drop 9)
          (by decide) (by decide) t
        have hcpl := @walk_chain subtypeTree subtypeUnknown subtypeCplxml 10 (ascii "+xml")
            (subtypeTree.drop 14) (by decide) (by decide) t
        rw [walk_cons, advance_cp, map_cons, takenFor_cons (by decide), takenFor_cons (by decide)]
        by_cases hi : tolower d = 105
        · rw [if_pos hi, hcpim, hi]
          simp
        · rw [if_neg hi]
          by_cases hl : tolower d = 108
          · rw [if_pos hl, hcpl, hl]
            simp
          · rw [if_neg hl, walk_none]
            simp [hi, hl, finalOf]
    · rw [if_neg hc, walk_none]
      simp [hc, finalOf]

theorem subtypeFinal_eq (h : token ≠ []) : subtypeFinal token =
      if takenFor (ascii "plain") (token.map tolower) then subtypePlain
      else if takenFor (ascii "cpim") (token.map tolower) then subtypeCpim
      else if takenFor (ascii "cpl+xml") (token.map tolower) then subtypeCplxml
      else if takenFor (ascii "+xml") (token.map tolower) then subtypeCplxml
      else subtypeUnknown := by
  obtain ⟨c, t, rfl⟩ := exists_cons_of_ne_nil h
  have hplain := @walk_chain subtypeTree subtypeUnknown subtypePlain 1 (ascii "lain")
      (subtypeTree.drop 5)
    (by decide) (by decide) t
  have hxml := @walk_chain subtypeTree subtypeUnknown subtypeCplxml 11 (ascii "xml")
      (subtypeTree.drop 14)
    (by decide) (by decide) t
  rw [show ascii "plain" = 112 :: ascii "lain" by decide,
    show ascii "cpim" = 99 :: ascii "pim" by decide,
    show ascii "cpl+xml" = 99 :: ascii "pl+xml" by decide,
    show ascii "+xml" = 43 :: ascii "xml" by decide, map_cons,
    takenFor_cons (by decide), takenFor_cons (by decide), takenFor_cons (by decide),
    takenFor_cons (by decide), subtypeFinal, walk_cons, advance_subtype]
  by_cases hp : tolower c = 112
  · rw [if_pos hp, hplain, hp]
    simp
  · rw [if_neg hp]
    by_cases hc : tolower c = 99
    · rw [if_pos hc, walk_cp, hc]
      simp
    · rw [if_neg hc]
      by_cases hplus : tolower c = 43
      · rw [if_pos hplus, hxml, hplus]
        simp
      · rw [if_neg hplus, walk_none]
        simp [hp, hc, hplus, finalOf]

/-! ## Codes that are right -/

/-- No name of a type but for its last letter. -/
def TypeRegular (token : Bytes) : Prop :=
  ∀ n ∈ types, Taken n.1 (token.map tolower) → sameName n.1 token

/-- No name of a subtype but for its last letter, not `sdp`, and not the end of
`cpl+xml`. -/
structure SubtypeRegular (token : Bytes) : Prop where
  names : ∀ w ∈ [ascii "plain", ascii "cpim", ascii "cpl+xml"],
    Taken w (token.map tolower) → sameName w token
  sdp : ¬ sameName (ascii "sdp") token
  suffix : ¬ Taken (ascii "+xml") (token.map tolower)

theorem nameCode_cons (n : Bytes × ℕ) (ns : List (Bytes × ℕ)) (unknown : ℕ) (token : Bytes) :
    nameCode (n :: ns) unknown token =
      if sameName n.1 token then n.2 else nameCode ns unknown token := by
  rw [nameCode, find?_cons]
  by_cases h : sameName n.1 token
  · simp [h]
  · simp [h, nameCode]

theorem nameCode_nil (unknown : ℕ) (token : Bytes) : nameCode [] unknown token = unknown := rfl

theorem takenFor_of_sameName {w' : Bytes} (h : sameName w token) :
    takenFor w' (token.map tolower) = takenFor w' (w.map tolower) := by
  rw [sameName] at h
  rw [h]

theorem typeRegular_iff : TypeRegular token ↔ (takenFor (ascii "text") (token.map tolower) = true →
        sameName (ascii "text") token) ∧
      (takenFor (ascii "message") (token.map tolower) = true → sameName (ascii "message") token) ∧
      (takenFor (ascii "application") (token.map tolower) = true →
        sameName (ascii "application") token) := by
  simp [TypeRegular, types, takenFor_iff]

theorem typeFinal_right_iff (h : token ≠ []) :
    typeFinal token = nameCode types typeUnknown token ↔ TypeRegular token := by
  rw [typeFinal_eq h, types, nameCode_cons, nameCode_cons, nameCode_cons,
    nameCode_nil, typeRegular_iff]
  by_cases ht : sameName (ascii "text") token
  · rw [takenFor_of_sameName ht, takenFor_of_sameName ht, takenFor_of_sameName ht, if_pos ht]
    exact iff_of_true (by decide) ⟨fun _ => ht,
      fun hx => absurd hx (by decide), fun hx => absurd hx (by decide)⟩
  by_cases hm : sameName (ascii "message") token
  · rw [takenFor_of_sameName hm, takenFor_of_sameName hm, takenFor_of_sameName hm,
      if_neg ht, if_pos hm]
    exact iff_of_true (by decide) ⟨fun hx => absurd hx (by decide),
      fun _ => hm, fun hx => absurd hx (by decide)⟩
  by_cases ha : sameName (ascii "application") token
  · rw [takenFor_of_sameName ha, takenFor_of_sameName ha, takenFor_of_sameName ha,
      if_neg ht, if_neg hm, if_pos ha]
    exact iff_of_true (by decide) ⟨fun hx => absurd hx (by decide),
      fun hx => absurd hx (by decide), fun _ => ha⟩
  rw [if_neg ht, if_neg hm, if_neg ha, imp_iff_not ht, imp_iff_not hm, imp_iff_not ha]
  cases takenFor (ascii "text") (token.map tolower) <;>
    cases takenFor (ascii "message") (token.map tolower) <;>
    cases takenFor (ascii "application") (token.map tolower) <;> decide

theorem subtypeRegular_iff : SubtypeRegular token ↔
      (takenFor (ascii "plain") (token.map tolower) = true → sameName (ascii "plain") token) ∧
      (takenFor (ascii "cpim") (token.map tolower) = true → sameName (ascii "cpim") token) ∧
      (takenFor (ascii "cpl+xml") (token.map tolower) = true → sameName (ascii "cpl+xml") token) ∧
      ¬ sameName (ascii "sdp") token ∧
      ¬ takenFor (ascii "+xml") (token.map tolower) = true := by
  simp only [takenFor_iff]
  constructor
  · intro h
    exact ⟨h.names _ (by simp), h.names _ (by simp), h.names _ (by simp), h.sdp, h.suffix⟩
  · rintro ⟨hplain, hcpim, hcpl, hsdp, hsuffix⟩
    refine ⟨fun w hw => ?_, hsdp, hsuffix⟩
    simp only [mem_cons, not_mem_nil, or_false] at hw
    rcases hw with rfl | rfl | rfl
    · exact hplain
    · exact hcpim
    · exact hcpl

theorem subtypeFinal_right_iff (h : token ≠ []) :
    subtypeFinal token = nameCode subtypes subtypeUnknown token ↔
      SubtypeRegular token := by
  rw [subtypeFinal_eq h, subtypes, nameCode_cons, nameCode_cons, nameCode_cons,
    nameCode_cons, nameCode_nil, subtypeRegular_iff]
  by_cases hp : sameName (ascii "plain") token
  · have hsdp : ¬ sameName (ascii "sdp") token :=
      fun hs => absurd (hp.trans hs.symm) (by decide)
    rw [takenFor_of_sameName hp, takenFor_of_sameName hp, takenFor_of_sameName hp,
      takenFor_of_sameName hp, if_pos hp]
    exact iff_of_true (by decide) ⟨fun _ => hp, fun hx => absurd hx (by decide),
      fun hx => absurd hx (by decide), hsdp, by decide⟩
  by_cases hc : sameName (ascii "cpim") token
  · have hsdp : ¬ sameName (ascii "sdp") token :=
      fun hs => absurd (hc.trans hs.symm) (by decide)
    rw [takenFor_of_sameName hc, takenFor_of_sameName hc, takenFor_of_sameName hc,
      takenFor_of_sameName hc, if_neg hp, if_pos hc]
    exact iff_of_true (by decide) ⟨fun hx => absurd hx (by decide), fun _ => hc,
      fun hx => absurd hx (by decide), hsdp, by decide⟩
  by_cases hs : sameName (ascii "sdp") token
  · rw [takenFor_of_sameName hs, takenFor_of_sameName hs, takenFor_of_sameName hs,
      takenFor_of_sameName hs, if_neg hp, if_neg hc, if_pos hs]
    exact iff_of_false (by decide) fun h => h.2.2.2.1 hs
  by_cases hx : sameName (ascii "cpl+xml") token
  · rw [takenFor_of_sameName hx, takenFor_of_sameName hx, takenFor_of_sameName hx,
      takenFor_of_sameName hx, if_neg hp, if_neg hc, if_neg hs, if_pos hx]
    exact iff_of_true (by decide) ⟨fun h => absurd h (by decide),
      fun h => absurd h (by decide), fun _ => hx, hs, by decide⟩
  rw [if_neg hp, if_neg hc, if_neg hs, if_neg hx, imp_iff_not hp, imp_iff_not hc,
    imp_iff_not hx, and_iff_right hs]
  cases takenFor (ascii "plain") (token.map tolower) <;>
    cases takenFor (ascii "cpim") (token.map tolower) <;>
    cases takenFor (ascii "cpl+xml") (token.map tolower) <;>
    cases takenFor (ascii "+xml") (token.map tolower) <;> decide

end Msicp.Content

/-!
## `decode_mime_type`

One element of a Content-Type or Accept header is read up to the comma behind
it, or up to the end.
-/

namespace Msicp.Content

open Msicp.Support
open Msicp.Methods (tokenChar)
open Msicp.Avp (sameName)

def isBlank (c : UInt8) : Bool := c == 32 || c == 9

/-- White space; `after` is the memory behind `end`. -/
def skipWs (after : Bytes) : Bytes → Bytes
  | [] => []
  | c :: s =>
    if isBlank c || (c == 10 && (s ++ after).head?.any isBlank) then skipWs after s
    else c :: s

/-- A token, or `*`: what is left, and the code. -/
def parseToken (final : Bytes → ℕ) (all : ℕ) (s : Bytes) : Option (Bytes × ℕ) :=
  if s.head? = some 42 then some (s.tail, all)
  else
    let token := s.takeWhile isMimeChar
    if token = [] then none else some (s.dropWhile isMimeChar, final token)

/-- From the parameters on: the pointer that is returned, and the MIME type. -/
def decodeEnd (after : Bytes) (type subtype : ℕ) (s : Bytes) : Option (Bytes × ℕ) :=
  let s := skipWs after s
  -- parameters are ignored, up to the first comma
  let s := if s.head? = some 59 then s.tail.dropWhile (· ≠ 44) else s
  if s ≠ [] ∧ s.head? ≠ some 44 then none
  else if type = typeAll ∧ subtype ≠ subtypeAll then none
  else some (s, type * 2 ^ 16 + subtype)

/-- From the slash on. -/
def decodeSubtype (after : Bytes) (type : ℕ) (s : Bytes) : Option (Bytes × ℕ) :=
  let s := skipWs after s
  if s.head? ≠ some 47 then none
  else
    let s := skipWs after s.tail
    if s = [] then none
    else (parseToken subtypeFinal subtypeAll s).bind fun (s, subtype) =>
      decodeEnd after type subtype s

def decodeMimeType (after s : Bytes) : Option (Bytes × ℕ) :=
  let s := skipWs after s
  if s = [] then none
  else (parseToken typeFinal typeAll s).bind fun (s, type) =>
    decodeSubtype after type s

/-! ## Elements -/

/-- White space, with lines that go on. -/
inductive IsLws : Bytes → Prop
  | nil : IsLws []
  | blank {c : UInt8} {ws : Bytes} (hc : isBlank c = true) (h : IsLws ws) :
      IsLws (c :: ws)
  | fold {eol : Bytes} {c : UInt8} {ws : Bytes} (heol : eol ∈ [[10], [13, 10]])
      (hc : isBlank c = true) (h : IsLws ws) : IsLws (eol ++ c :: ws)

/-- What may stand in quotes. -/
inductive IsQuoted : Bytes → Prop
  | nil : IsQuoted []
  | text {c : UInt8} {s : Bytes} (hquote : c ≠ 34) (hback : c ≠ 92) (h : IsQuoted s) :
      IsQuoted (c :: s)
  | pair {c : UInt8} {s : Bytes} (h : IsQuoted s) : IsQuoted (92 :: c :: s)

/-- A piece of the parameters: a byte, or a quoted string. -/
inductive Piece
  | byte (c : UInt8)
  | quoted (s : Bytes)

def Piece.text : Piece → Bytes
  | .byte c => [c]
  | .quoted s => 34 :: (s ++ [34])

/-- A comma stands in quotes. -/
def Piece.WellFormed : Piece → Prop
  | .byte c => c ≠ 44 ∧ c ≠ 34
  | .quoted s => IsQuoted s

/-- An element as it is written. -/
structure Element where
  lead : Bytes
  type : Bytes
  before : Bytes
  behind : Bytes
  subtype : Bytes
  trail : Bytes
  params : Option (List Piece)

/-- The parameters with the semicolon before them. -/
def Element.paramText (e : Element) : Bytes :=
  match e.params with
  | some ps => 59 :: ps.flatMap Piece.text
  | none => []

def Element.text (e : Element) : Bytes :=
  e.lead ++ (e.type ++ (e.before ++ 47 :: (e.behind ++ (e.subtype ++ (e.trail ++ e.paramText)))))

/-- A token as the grammar of SIP has it. -/
def IsToken (token : Bytes) : Prop :=
  token ≠ [] ∧ ∀ c ∈ token, tokenChar c = true

structure Element.WellFormed (e : Element) : Prop where
  lead : IsLws e.lead
  type : IsToken e.type
  before : IsLws e.before
  behind : IsLws e.behind
  subtype : IsToken e.subtype
  trail : IsLws e.trail
  params : ∀ ps ∈ e.params, ∀ p ∈ ps, p.WellFormed
  -- a wildcard goes with a wildcard
  all : e.type = [42] → e.subtype = [42]

/-- What may be behind an element. -/
def Follows (rest : Bytes) : Prop := rest = [] ∨ rest.head? = some 44

/-- The code of a token, of a wildcard that of all. -/
def codeOf (names : List (Bytes × ℕ)) (all unknown : ℕ) (token : Bytes) : ℕ :=
  if token = [42] then all else nameCode names unknown token

/-- The code of an element. -/
def Element.code (e : Element) : ℕ :=
  codeOf types typeAll typeUnknown e.type * 2 ^ 16 +
    codeOf subtypes subtypeAll subtypeUnknown e.subtype

/-- The element is decoded, up to what is behind it. -/
def Element.Right (e : Element) (after rest : Bytes) : Prop :=
  decodeMimeType after (e.text ++ rest) = some (rest, e.code)

/-- A token with letters, `-` and `+` only, or a wildcard. -/
def Readable (token : Bytes) : Prop :=
  token = [42] ∨ ∀ c ∈ token, isMimeChar c = true

/-- The tokens are readable, and no names but for their last letters; no line
goes on behind CRLF, and no comma stands in quotes. -/
structure Element.Regular (e : Element) : Prop where
  lead : 13 ∉ e.lead
  before : 13 ∉ e.before
  behind : 13 ∉ e.behind
  trail : 13 ∉ e.trail
  readType : Readable e.type
  readSubtype : Readable e.subtype
  type : TypeRegular e.type
  subtype : SubtypeRegular e.subtype
  comma : 44 ∉ e.paramText

end Msicp.Content
