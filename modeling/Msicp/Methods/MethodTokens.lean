import Msicp.Methods.ParseMethods
import Mathlib.Data.List.Find

/-!
# One method

`parse_method` takes the known method that the text starts with, or a token.
-/

namespace Msicp.Methods

open Msicp.Support List
open Msicp.Avp (tolower sameName)

variable {name s tail : Bytes} {c a : UInt8}

/-! ## What a text starts with -/

theorem startsWith_nil (s : Bytes) : StartsWith [] s := rfl

theorem startsWith_cons : StartsWith (a :: name) (c :: s) ↔
    tolower a = tolower c ∧ StartsWith name s := by
  simp [StartsWith, sameName]

theorem not_startsWith_nil : ¬ StartsWith (a :: name) [] := by
  simp [StartsWith, sameName]

theorem startsWith_two : StartsWith (a :: name) s ↔
    StartsWith [a] s ∧ StartsWith name (s.drop 1) := by
  cases s with
  | nil => simp [not_startsWith_nil]
  | cons c s => simp [startsWith_cons, startsWith_nil]

theorem startsWith_congr {name' : Bytes} (h : sameName name name') :
    StartsWith name s ↔ StartsWith name' s := by
  rw [StartsWith, StartsWith, h.length_eq, sameName, sameName, h]

theorem StartsWith.length_le (h : StartsWith name s) : name.length ≤ s.length := by
  have hlen := h.length_eq
  rw [length_take] at hlen
  omega

theorem looksLike_iff {off : ℕ} {word : Bytes} (hword : word ≠ []) :
    looksLike s off word = true ↔ StartsWith word (s.drop off) := by
  rw [looksLike, Bool.and_eq_true, decide_eq_true_eq, decide_eq_true_eq]
  refine and_iff_right_of_imp fun h => ?_
  have hlen := StartsWith.length_le h
  have hpos := length_pos_of_ne_nil hword
  rw [length_drop] at hlen
  omega

/-! ## The cases -/

theorem methodCase_eq {word : Bytes} (hword : word ≠ []) (next : Bytes) (bit : ℕ) :
    methodCase next word bit =
      if StartsWith word (next.drop 1) then
        some (next.drop (1 + word.length), bit)
      else unknown next := by
  unfold methodCase
  simp only [looksLike_iff hword]

/-- The letters of the cases, in both forms. -/
def caseLetters : List (UInt8 × UInt8) :=
  [(65, 97), (66, 98), (67, 99), (73, 105), (77, 109), (78, 110), (79, 111),
    (80, 112), (82, 114), (83, 115), (85, 117)]

theorem caseLetters_all (c : UInt8) : caseLetters.all (fun l =>
    (c == l.1 || c == l.2) == (tolower c == l.2)) = true := by
  revert c
  exact forall_byte (by decide)

theorem caseLetters_iff (c : UInt8) : ∀ l ∈ caseLetters, (c = l.1 ∨ c = l.2 ↔ tolower c = l.2) := by
  intro l hl
  have heq := List.all_eq_true.mp (caseLetters_all c) l hl
  rw [beq_iff_eq, Bool.eq_iff_iff] at heq
  simpa using heq

/-- The known methods that start with a letter. -/
def methodsOf (letter : UInt8) : List (Bytes × ℕ) :=
  knownMethods.filter fun k => k.1.head?.map tolower = some letter

theorem StartsWith.head? (h : StartsWith name (c :: s)) (hname : name ≠ []) :
    name.head?.map tolower = some (tolower c) := by
  cases name with
  | nil => exact absurd rfl hname
  | cons a name => exact congrArg some (startsWith_cons.mp h).1

theorem known_nonempty : ∀ k ∈ knownMethods, k.1 ≠ [] := by
  decide

theorem find?_methodsOf (c : UInt8) (tail : Bytes) :
    (methodsOf (tolower c)).find? (fun k => StartsWith k.1 (c :: tail)) =
      knownMethods.find? fun k => StartsWith k.1 (c :: tail) := by
  rw [methodsOf, find?_filter]
  refine find?_congr fun k hk => ?_
  rw [decide_eq_decide, decide_eq_true_eq, decide_eq_true_eq]
  exact and_iff_right_of_imp fun h => h.head? (known_nonempty k hk)

theorem methodsOf_other {letter : UInt8}
    (h : letter ∉ caseLetters.map Prod.snd) : methodsOf letter = [] := by
  have hknown : knownMethods.all (fun k => (k.1.head?.map tolower).all fun a =>
      (caseLetters.map Prod.snd).elem a) = true := by
    decide
  rw [methodsOf, filter_eq_nil_iff]
  intro k hk heq
  have hletter := List.all_eq_true.mp hknown k hk
  rw [of_decide_eq_true heq, Option.all_some, elem_iff] at hletter
  exact h hletter

/-- What becomes of the known method that has been found. -/
def taken (next : Bytes) (k : Option (Bytes × ℕ)) : Option (Bytes × ℕ) :=
  match k with
  | some k => some (next.drop k.1.length, k.2)
  | none => unknown next

variable {l l' : UInt8} {low low₁ low₂ name₁ name₂ : Bytes}

theorem methodCase_find (hname : sameName (l :: low) name) (hlow : low ≠ [])
    (hc : tolower l = tolower c) (bit : ℕ) :
    methodCase (c :: tail) low bit = taken (c :: tail)
      ([(name, bit)].find? fun k => StartsWith k.1 (c :: tail)) := by
  have hlen := hname.length_eq
  rw [length_cons] at hlen
  have hstarts : StartsWith name (c :: tail) ↔ StartsWith low tail := by
    rw [← startsWith_congr hname, startsWith_cons, and_iff_right hc]
  rw [methodCase_eq hlow, find?_singleton]
  simp only [hstarts, drop_one, tail_cons, decide_eq_true_eq]
  by_cases h : StartsWith low tail
  · simp only [if_pos h, taken, ← hlen, Nat.add_comm]
  · simp only [if_neg h, taken]

theorem twoCases_find {len bit₁ bit₂ : ℕ} (hname₁ : sameName (l :: l' :: low₁) name₁)
    (hname₂ : sameName (l :: l' :: low₂) name₂) (hlow₁ : low₁ ≠ [])
    (hlow₂ : low₂ ≠ []) (hlen₁ : len < 2 + low₁.length)
    (hlen₂ : len < 2 + low₂.length) (hc : tolower l = tolower c) :
    twoCases (c :: tail) len [l'] (low₁, bit₁) (low₂, bit₂) =
      taken (c :: tail) ([(name₁, bit₁), (name₂, bit₂)].find?
        fun k => StartsWith k.1 (c :: tail)) := by
  have hlen₁' := hname₁.length_eq
  have hlen₂' := hname₂.length_eq
  rw [length_cons, length_cons] at hlen₁' hlen₂'
  have hstarts₁ : StartsWith name₁ (c :: tail) ↔
      StartsWith [l'] tail ∧ StartsWith low₁ (tail.drop 1) := by
    rw [← startsWith_congr hname₁, startsWith_cons, and_iff_right hc]
    exact startsWith_two
  have hstarts₂ : StartsWith name₂ (c :: tail) ↔
      StartsWith [l'] tail ∧ StartsWith low₂ (tail.drop 1) := by
    rw [← startsWith_congr hname₂, startsWith_cons, and_iff_right hc]
    exact startsWith_two
  rw [twoCases, find?_cons, find?_singleton]
  simp only [looksLike_iff (cons_ne_nil l' []), looksLike_iff hlow₁,
    looksLike_iff hlow₂, hstarts₁, hstarts₂, drop_succ_cons, drop_zero,
    decide_eq_true_eq]
  by_cases hsecond : StartsWith [l'] tail
  · have hpos := hsecond.length_le
    have hlong : ∀ low, len < 2 + low.length → StartsWith low (tail.drop 1) →
        len < (c :: tail).length := by
      intro low hlow h
      have hle := h.length_le
      rw [length_drop] at hle
      rw [length_singleton] at hpos
      rw [length_cons]
      omega
    generalize tail.drop 1 = behind at hlong ⊢
    by_cases h₁ : StartsWith low₁ behind
    · rw [if_pos ⟨hlong low₁ hlen₁ h₁, hsecond⟩, if_pos h₁, Nat.add_comm]
      simp [hsecond, h₁, taken, ← hlen₁']
    · by_cases h₂ : StartsWith low₂ behind
      · rw [if_pos ⟨hlong low₂ hlen₂ h₂, hsecond⟩, if_neg h₁, if_pos h₂, Nat.add_comm]
        simp [hsecond, h₁, h₂, taken, ← hlen₂']
      · simp [hsecond, h₁, h₂, taken]
  · simp [hsecond, taken]

theorem parseMethod_cons (c : UInt8) (tail : Bytes) (method : ℕ) :
    parseMethod (c :: tail) method = taken (c :: tail)
      (knownMethods.find? fun k => StartsWith k.1 (c :: tail)) := by
  have hl := caseLetters_iff c
  simp only [caseLetters, forall_mem_cons, not_mem_nil, false_implies, implies_true, and_true] at hl
  obtain ⟨hA, hB, hC, hI, hM, hN, hO, hP, hR, hS, hU⟩ := hl
  rw [← find?_methodsOf, parseMethod]
  simp only [hA, hB, hC, hI, hM, hN, hO, hP, hR, hS, hU]
  by_cases hA' : tolower c = 97
  · rw [if_pos hA', hA', show methodsOf 97 = [(ascii "ACK", methAck)] by
      decide]
    exact @methodCase_find _ _ _ 97 _ (by decide) (by decide) hA'.symm _
  rw [if_neg hA']
  by_cases hB' : tolower c = 98
  · rw [if_pos hB', hB', show methodsOf 98 = [(ascii "BYE", methBye)] by
      decide]
    exact @methodCase_find _ _ _ 98 _ (by decide) (by decide) hB'.symm _
  rw [if_neg hB']
  by_cases hC' : tolower c = 99
  · rw [if_pos hC', hC', show methodsOf 99 = [(ascii "CANCEL", methCancel)] by
      decide]
    exact @methodCase_find _ _ _ 99 _ (by decide) (by decide) hC'.symm _
  rw [if_neg hC']
  by_cases hI' : tolower c = 105
  · rw [if_pos hI', hI', show methodsOf 105 =
      [(ascii "INFO", methInfo), (ascii "INVITE", methInvite)] by
      decide]
    exact @twoCases_find _ _ 105 _ _ _ _ _ _ _ _ (by decide) (by decide)
      (by decide) (by decide) (by decide) (by decide) hI'.symm
  rw [if_neg hI']
  by_cases hM' : tolower c = 109
  · rw [if_pos hM', hM', show methodsOf 109 = [(ascii "MESSAGE", methMessage)] by
      decide]
    exact @methodCase_find _ _ _ 109 _ (by decide) (by decide) hM'.symm _
  rw [if_neg hM']
  by_cases hN' : tolower c = 110
  · rw [if_pos hN', hN', show methodsOf 110 = [(ascii "NOTIFY", methNotify)] by
      decide]
    exact @methodCase_find _ _ _ 110 _ (by decide) (by decide) hN'.symm _
  rw [if_neg hN']
  by_cases hO' : tolower c = 111
  · rw [if_pos hO', hO', show methodsOf 111 = [(ascii "OPTIONS", methOptions)] by
      decide]
    exact @methodCase_find _ _ _ 111 _ (by decide) (by decide) hO'.symm _
  rw [if_neg hO']
  by_cases hP' : tolower c = 112
  · rw [if_pos hP', hP', show methodsOf 112 = [(ascii "PRACK", methPrack)] by
      decide]
    exact @methodCase_find _ _ _ 112 _ (by decide) (by decide) hP'.symm _
  rw [if_neg hP']
  by_cases hR' : tolower c = 114
  · rw [if_pos hR', hR', show methodsOf 114 =
      [(ascii "REFER", methRefer), (ascii "REGISTER", methRegister)] by
      decide]
    exact @twoCases_find _ _ 114 _ _ _ _ _ _ _ _ (by decide) (by decide)
      (by decide) (by decide) (by decide) (by decide) hR'.symm
  rw [if_neg hR']
  by_cases hS' : tolower c = 115
  · rw [if_pos hS', hS', show methodsOf 115 = [(ascii "SUBSCRIBE", methSubscribe)] by
      decide]
    exact @methodCase_find _ _ _ 115 _ (by decide) (by decide) hS'.symm _
  rw [if_neg hS']
  by_cases hU' : tolower c = 117
  · rw [if_pos hU', hU', show methodsOf 117 = [(ascii "UPDATE", methUpdate)] by
      decide]
    exact @methodCase_find _ _ _ 117 _ (by decide) (by decide) hU'.symm _
  rw [if_neg hU']
  have hother : tolower c ∉ caseLetters.map Prod.snd := by
    simp [caseLetters, hA', hB', hC', hI', hM', hN', hO', hP', hR', hS', hU']
  rw [methodsOf_other hother]
  rfl

/-! ## A token -/

theorem tokenChar_tolower (c : UInt8) : tokenChar (tolower c) = tokenChar c := by
  rw [tolower]
  split_ifs with h
  · have hlower : 97 ≤ c + 32 ∧ c + 32 ≤ 122 := by
      simp only [UInt8.le_iff_toNat_le, UInt8.toNat_add, UInt8.reduceToNat] at h ⊢
      omega
    simp [tokenChar, h.1, h.2, hlower.1, hlower.2]
  · rfl

theorem tokenChar_congr (h : tolower a = tolower c) : tokenChar a = tokenChar c := by
  rw [← tokenChar_tolower a, h, tokenChar_tolower]

theorem known_tokenChar : ∀ k ∈ knownMethods, k.1.all tokenChar = true := by
  decide

variable {token : Bytes}

theorem startsWith_append_iff {rest : Bytes} (hname : name.all tokenChar = true)
    (hrest : ∀ c ∈ rest.head?, tokenChar c = false) :
    StartsWith name (token ++ rest) ↔ StartsWith name token := by
  induction name generalizing token with
  | nil => exact iff_of_true (startsWith_nil _) (startsWith_nil _)
  | cons a name ih =>
    rw [all_cons, Bool.and_eq_true] at hname
    cases token with
    | cons c token =>
      rw [cons_append, startsWith_cons, startsWith_cons, ih hname.2]
    | nil =>
      refine iff_of_false (fun h => ?_) not_startsWith_nil
      cases rest with
      | nil => exact not_startsWith_nil h
      | cons c rest =>
        have hc := hrest c rfl
        rw [← tokenChar_congr (startsWith_cons.mp h).1, hname.1] at hc
        exact absurd hc (by decide)

theorem startsWith_of_sameName (h : sameName name s) : StartsWith name s := by
  rw [StartsWith, h.length_eq, take_length]
  exact h

theorem sameName_of_startsWith (h : StartsWith name s)
    (hlen : s.length ≤ name.length) : sameName name s := by
  rwa [StartsWith, take_of_length_le hlen] at h

theorem startsWith_iff_sameName (h : ¬ Extends token)
    {k : Bytes × ℕ} (hk : k ∈ knownMethods) :
    StartsWith k.1 token ↔ sameName k.1 token := by
  refine ⟨fun hstarts => sameName_of_startsWith hstarts ?_, startsWith_of_sameName⟩
  by_contra hlen
  exact h ⟨k, hk, hstarts, by omega⟩

/-- The known method that a token starts with. -/
def startOf (token : Bytes) : Option (Bytes × ℕ) :=
  knownMethods.find? fun k => StartsWith k.1 token

theorem startOf_some {k : Bytes × ℕ} (h : startOf token = some k) :
    k ∈ knownMethods ∧ StartsWith k.1 token := by
  rw [startOf] at h
  exact ⟨mem_of_find?_eq_some h, by simpa using find?_some h⟩

theorem parseMethod_token {rest : Bytes} (hne : token ≠ [])
    (htoken : ∀ c ∈ token, tokenChar c = true)
    (hrest : ∀ c ∈ rest.head?, tokenChar c = false) (method : ℕ) :
    parseMethod (token ++ rest) method =
      match startOf token with
      | some k => some (token.drop k.1.length ++ rest, k.2)
      | none => some (rest, methUnknown) := by
  have hstart : knownMethods.find? (fun k => StartsWith k.1 (token ++ rest)) =
      startOf token := by
    refine find?_congr fun k hk => ?_
    rw [decide_eq_decide]
    exact startsWith_append_iff (known_tokenChar k hk) hrest
  cases token with
  | nil => exact absurd rfl hne
  | cons c token =>
    rw [cons_append] at hstart ⊢
    rw [parseMethod_cons, hstart]
    cases hk : startOf (c :: token) with
    | some k =>
      have hstarts := (startOf_some hk).2
      rw [taken, ← cons_append, drop_append_of_le_length (StartsWith.length_le hstarts)]
    | none =>
      have hhead := htoken c mem_cons_self
      have hdrop : (c :: (token ++ rest)).dropWhile tokenChar = rest := by
        rw [← cons_append, dropWhile_append_of_pos htoken]
        cases rest with
        | nil => rfl
        | cons d rest => exact dropWhile_cons_of_neg (by simp [hrest d rfl])
      rw [taken, unknown, hdrop]
      simp [hhead]

theorem startOf_of_not_extends (h : ¬ Extends token) :
    startOf token = knownMethods.find? fun k => sameName k.1 token := by
  refine find?_congr fun k hk => ?_
  rw [decide_eq_decide]
  exact startsWith_iff_sameName h hk

theorem known_distinct : ∀ k ∈ knownMethods, ∀ k' ∈ knownMethods, StartsWith k.1 k'.1 → k = k' := by
  decide

theorem StartsWith.of_le {name' : Bytes} (h : StartsWith name s)
    (h' : StartsWith name' s) (hle : name.length ≤ name'.length) :
    StartsWith name name' := by
  have htake := congrArg (List.take name.length) h'
  rw [← map_take, ← map_take, take_take, Nat.min_eq_left hle] at htake
  exact h.trans htake.symm

theorem startOf_of_extends (h : Extends token) :
    ∃ k, startOf token = some k ∧ k.1.length < token.length := by
  obtain ⟨k, hk, hstarts, hlen⟩ := h
  cases hk' : startOf token with
  | none =>
    have hnone := find?_eq_none.mp hk' k hk
    exact absurd hstarts (by simpa using hnone)
  | some k' =>
    obtain ⟨hmem, hstarts'⟩ := startOf_some hk'
    refine ⟨k', rfl, ?_⟩
    rcases Nat.le_total k.1.length k'.1.length with hle | hle
    · rwa [← known_distinct k hk k' hmem (hstarts.of_le hstarts' hle)]
    · omega

end Msicp.Methods
