import Msicp.Content.DecodeMime

/-!
# Which elements are decoded

Each part of an element is read, or something of it is left that nothing takes.
-/

namespace Msicp.Content

open Msicp.Support List Option
open Msicp.Methods (tokenChar)

variable {after s ws token rest : Bytes} {type subtype : ℕ}

/-! ## White space -/

/-- No white space is next. -/
def Stops (s : Bytes) : Prop := ∀ c ∈ s.head?, isBlank c = false ∧ c ≠ 10

theorem skipWs_stops (h : Stops s) : skipWs after s = s := by
  cases s with
  | nil => rfl
  | cons c s =>
    obtain ⟨hblank, hnl⟩ := h c rfl
    rw [skipWs, hblank, beq_eq_false_iff_ne.mpr hnl]
    rfl

theorem stops_cr (s : Bytes) : Stops (13 :: s) := by
  intro c hc
  rw [← some.inj hc]
  decide

variable {c : UInt8} {final : Bytes → ℕ} {all : ℕ}

theorem skipWs_blank (hc : isBlank c = true) : skipWs after (c :: s) = skipWs after s := by
  rw [skipWs, hc]
  rfl

theorem skipWs_fold (hc : isBlank c = true) : skipWs after (10 :: c :: s) = skipWs after s := by
  rw [skipWs, cons_append, head?_cons, any_some, hc]
  exact skipWs_blank hc

/-- White space is skipped, or what is left starts with a carriage return. -/
theorem skipWs_lws (hws : IsLws ws) (hs : Stops s) : (13 ∉ ws → skipWs after (ws ++ s) = s) ∧
      (13 ∈ ws → ∃ t, skipWs after (ws ++ s) = 13 :: t) := by
  induction hws with
  | nil => exact ⟨fun _ => skipWs_stops hs, fun h => absurd h (by simp)⟩
  | @blank c ws hc h ih =>
    have hne : c ≠ 13 := by
      rintro rfl
      exact absurd hc (by decide)
    rw [cons_append, skipWs_blank hc]
    constructor
    · exact fun hcr => ih.1 fun h => hcr (mem_cons_of_mem c h)
    · intro hcr
      exact ih.2 ((mem_cons.mp hcr).resolve_left hne.symm)
  | @fold eol c ws heol hc h ih =>
    have hne : c ≠ 13 := by
      rintro rfl
      exact absurd hc (by decide)
    simp only [mem_cons, not_mem_nil, or_false] at heol
    rcases heol with rfl | rfl
    · rw [singleton_append, cons_append, cons_append, skipWs_fold hc]
      constructor
      · exact fun hcr => ih.1 fun h =>
          hcr (mem_cons_of_mem 10 (mem_cons_of_mem c h))
      · intro hcr
        have hcr' := (mem_cons.mp hcr).resolve_left (by decide)
        exact ih.2 ((mem_cons.mp hcr').resolve_left hne.symm)
    · refine ⟨fun hcr => absurd (by simp) hcr, fun _ => ⟨10 :: c :: (ws ++ s), ?_⟩⟩
      exact skipWs_stops (stops_cr _)

/-! ## Tokens -/

theorem tokenChar_facts (c : UInt8) : tokenChar c = true →
    isBlank c = false ∧ c ≠ 10 ∧ c ≠ 47 ∧ c ≠ 59 ∧ c ≠ 44 := by
  intro hc
  have hne : ∀ d, tokenChar d = false → c ≠ d := by
    rintro d hd rfl
    simp [hc] at hd
  refine ⟨?_, hne 10 rfl, hne 47 rfl, hne 59 rfl, hne 44 rfl⟩
  simp [isBlank, hne 32 rfl, hne 9 rfl]

theorem tokenChar_of_mime (c : UInt8) : isMimeChar c = true → tokenChar c = true := by
  intro hc
  simp only [isMimeChar, Bool.or_eq_true, beq_iff_eq] at hc
  rcases hc with (hc | rfl) | rfl
  · rw [isAlpha] at hc
    rw [tokenChar, hc]
    rfl
  · rfl
  · rfl

/-- No token is next. -/
def Ends (s : Bytes) : Prop := ∀ c ∈ s.head?, tokenChar c = false

theorem IsToken.stops (h : IsToken token) : Stops (token ++ s) := by
  obtain ⟨c, t, rfl⟩ := exists_cons_of_ne_nil h.1
  intro d hd
  have hfacts := tokenChar_facts c (h.2 c mem_cons_self)
  rw [← some.inj hd]
  exact ⟨hfacts.1, hfacts.2.1⟩

theorem Ends.mime (h : Ends s) : s.takeWhile isMimeChar = [] ∧ s.dropWhile isMimeChar = s := by
  cases s with
  | nil => exact ⟨rfl, rfl⟩
  | cons c s =>
    have hc : ¬ isMimeChar c = true := by
      intro hmime
      have htoken := tokenChar_of_mime c hmime
      rw [h c rfl] at htoken
      exact absurd htoken (by decide)
    exact ⟨takeWhile_cons_of_neg hc, dropWhile_cons_of_neg hc⟩

theorem parseToken_eq (h : s.head? ≠ some 42) (hne : s.takeWhile isMimeChar ≠ []) :
    parseToken final all s = some (s.dropWhile isMimeChar, final (s.takeWhile isMimeChar)) := by
  rw [parseToken, if_neg h]
  exact if_neg hne

theorem parseToken_readable (htoken : IsToken token) (hread : Readable token) (hs : Ends s) :
    parseToken final all (token ++ s) = some (s, if token = [42] then all else final token) := by
  rcases hread with rfl | hmime
  · rfl
  · have hne := htoken.1
    have hhead : (token ++ s).head? ≠ some 42 := by
      obtain ⟨c, t, rfl⟩ := exists_cons_of_ne_nil hne
      intro heq
      have hc := hmime c mem_cons_self
      rw [some.inj heq] at hc
      exact absurd hc (by decide)
    have hstar : token ≠ [42] := by
      rintro rfl
      exact hhead rfl
    have htake : (token ++ s).takeWhile isMimeChar = token := by
      rw [takeWhile_append_of_pos hmime, hs.mime.1, append_nil]
    have hdrop : (token ++ s).dropWhile isMimeChar = s := by
      rw [dropWhile_append_of_pos hmime, hs.mime.2]
    rw [parseToken_eq hhead (by rwa [htake]), htake, hdrop, if_neg hstar]

/-- Of a token that is not readable something is left. -/
theorem parseToken_left (htoken : IsToken token) (hread : ¬ Readable token) (s : Bytes) :
    ∀ r ∈ parseToken final all (token ++ s), ∃ d t, r.1 = d :: t ∧ tokenChar d = true := by
  intro r hr
  by_cases hhead : token.head? = some 42
  · obtain ⟨c, t, rfl⟩ := exists_cons_of_ne_nil htoken.1
    obtain rfl : c = 42 := some.inj hhead
    have hne : t ≠ [] := by
      rintro rfl
      exact hread (Or.inl rfl)
    obtain ⟨d, t, rfl⟩ := exists_cons_of_ne_nil hne
    obtain rfl := some.inj hr
    exact ⟨d, t ++ s, rfl, htoken.2 d (by simp)⟩
  · have hrest : token.dropWhile isMimeChar ≠ [] := by
      intro hnil
      exact hread (Or.inr (dropWhile_eq_nil_iff.mp hnil))
    obtain ⟨d, t, hdrop⟩ := exists_cons_of_ne_nil hrest
    have hcut : token = token.takeWhile isMimeChar ++ d :: t := by
      rw [← hdrop, takeWhile_append_dropWhile]
    have hd : isMimeChar d = false := by
      have hnot := head?_dropWhile_not isMimeChar token
      rwa [hdrop] at hnot
    have hpre : ∀ c ∈ token.takeWhile isMimeChar, isMimeChar c = true :=
      fun c hc => mem_takeWhile_imp hc
    have htake : (token ++ s).takeWhile isMimeChar = token.takeWhile isMimeChar := by
      conv_lhs => rw [hcut]
      rw [append_assoc, cons_append, takeWhile_token hpre hd]
    have hrest' : (token ++ s).dropWhile isMimeChar = d :: (t ++ s) := by
      conv_lhs => rw [hcut]
      rw [append_assoc, dropWhile_append_of_pos hpre, cons_append,
        dropWhile_cons_of_neg (by simp [hd])]
    have hhead' : (token ++ s).head? ≠ some 42 := by
      rwa [head?_append_of_ne_nil _ htoken.1]
    rw [parseToken, if_neg hhead', htake, hrest'] at hr
    by_cases hnil : token.takeWhile isMimeChar = []
    · simp [hnil] at hr
    · simp only [if_neg hnil, mem_some_iff] at hr
      subst hr
      refine ⟨d, t ++ s, rfl, htoken.2 d ?_⟩
      rw [hcut]
      exact mem_append_right _ mem_cons_self

/-! ## The parts of an element -/

theorem parseToken_cr (t : Bytes) : parseToken final all (13 :: t) = none := by
  have htake : (13 :: t).takeWhile isMimeChar = [] :=
    takeWhile_cons_of_neg (by decide)
  rw [parseToken, if_neg (by simp), htake]
  rfl

theorem stops_token (hc : tokenChar c = true) (t : Bytes) : skipWs after (c :: t) = c :: t := by
  refine skipWs_stops fun d hd => ?_
  have hfacts := tokenChar_facts c hc
  rw [← some.inj hd]
  exact ⟨hfacts.1, hfacts.2.1⟩

theorem decodeEnd_token (hc : tokenChar c = true) (t : Bytes) :
    decodeEnd after type subtype (c :: t) = none := by
  obtain ⟨-, -, -, hsemi, hcomma⟩ := tokenChar_facts c hc
  have hhead : (c :: t).head? ≠ some 59 := by simpa using hsemi
  rw [decodeEnd, stops_token hc]
  simp only [if_neg hhead]
  exact if_pos ⟨by simp, by simpa using hcomma⟩

theorem decodeSubtype_token (hc : tokenChar c = true) (t : Bytes) :
    decodeSubtype after type (c :: t) = none := by
  obtain ⟨-, -, hslash, -⟩ := tokenChar_facts c hc
  rw [decodeSubtype, stops_token hc]
  exact if_pos (by simpa using hslash)

theorem bind_parseToken {α : Type*}
    {f : Bytes × ℕ → Option α} {r : α} (htoken : IsToken token) (hs : Ends s)
    (hf : ∀ c t v, tokenChar c = true → f (c :: t, v) = none) :
    (parseToken final all (token ++ s)).bind f = some r ↔
      Readable token ∧ f (s, if token = [42] then all else final token) = some r := by
  by_cases hread : Readable token
  · rw [parseToken_readable htoken hread hs, bind_some, and_iff_right hread]
  · refine iff_of_false ?_ fun h => hread h.1
    intro h
    obtain ⟨⟨p, v⟩, hp, hfp⟩ := bind_eq_some_iff.mp h
    obtain ⟨c, t, hpt, hc⟩ := parseToken_left htoken hread s _ hp
    simp only at hpt
    rw [hpt, hf c t v hc] at hfp
    exact absurd hfp (by simp)

theorem dropWhile_comma {q : Bytes} (hq : 44 ∉ q) (hrest : Follows rest) :
    (q ++ rest).dropWhile (· ≠ 44) = rest := by
  rw [dropWhile_append_of_pos fun c hc => by
    simpa using fun heq : c = 44 => hq (heq ▸ hc)]
  rcases hrest with rfl | hcomma
  · rfl
  · cases rest with
    | nil => rfl
    | cons c t =>
      obtain rfl : c = 44 := some.inj hcomma
      rfl

theorem dropWhile_early {q : Bytes} (hq : 44 ∈ q) (rest : Bytes) :
    (q ++ rest).dropWhile (· ≠ 44) ≠ rest := by
  obtain ⟨pre, q', rfl, hpre⟩ := eq_append_cons_of_mem hq
  have hdrop : ((pre ++ 44 :: q') ++ rest).dropWhile (· ≠ 44) = 44 :: (q' ++ rest) := by
    rw [append_assoc, cons_append, dropWhile_comma hpre (Or.inr head?_cons)]
  rw [hdrop]
  intro heq
  have hlen := congrArg List.length heq
  rw [length_cons, List.length_append] at hlen
  omega

/-- What is left when the parameters have been passed. -/
def passParams (s : Bytes) : Bytes :=
  if s.head? = some 59 then s.tail.dropWhile (· ≠ 44) else s

theorem passParams_iff {paramText : Bytes}
    (hparam : paramText = [] ∨ paramText.head? = some 59) (hrest : Follows rest) :
    passParams (paramText ++ rest) = rest ↔ 44 ∉ paramText := by
  rcases hparam with rfl | hsemi
  · refine iff_of_true (if_neg ?_) not_mem_nil
    rw [nil_append]
    rcases hrest with rfl | hcomma
    · simp
    · rw [hcomma]
      decide
  · cases paramText with
    | nil => simp at hsemi
    | cons c q =>
      obtain rfl : c = 59 := some.inj hsemi
      have hpass : passParams (59 :: q ++ rest) = (q ++ rest).dropWhile (· ≠ 44) :=
        if_pos rfl
      have hmem : 44 ∈ 59 :: q ↔ 44 ∈ q := by simp
      rw [hpass, hmem]
      by_cases hq : 44 ∈ q
      · exact iff_of_false (dropWhile_early hq rest) fun h => h hq
      · exact iff_of_true (dropWhile_comma hq hrest) hq

/-- A pointer that is returned is behind the element. -/
theorem decodeEnd_iff {paramText : Bytes} {v : ℕ} (hws : IsLws ws)
    (hparam : paramText = [] ∨ paramText.head? = some 59) (hrest : Follows rest) :
    decodeEnd after type subtype (ws ++ (paramText ++ rest)) = some (rest, v) ↔
      13 ∉ ws ∧ 44 ∉ paramText ∧ ¬ (type = typeAll ∧ subtype ≠ subtypeAll) ∧
        v = type * 2 ^ 16 + subtype := by
  have hstops : Stops (paramText ++ rest) := by
    intro c hc
    rcases hparam with rfl | hsemi
    · rcases hrest with rfl | hcomma
      · simp at hc
      · rw [nil_append, hcomma] at hc
        rw [← some.inj hc]
        decide
    · rw [head?_append, hsemi] at hc
      rw [← some.inj hc]
      decide
  have hskip := @skipWs_lws after _ _ hws hstops
  by_cases hcr : 13 ∈ ws
  · obtain ⟨t, ht⟩ := hskip.2 hcr
    have hnone : decodeEnd after type subtype (ws ++ (paramText ++ rest)) = none := by
      rw [decodeEnd, ht]
      rfl
    rw [hnone]
    exact iff_of_false (by simp) fun h => h.1 hcr
  · have hend : decodeEnd after type subtype (ws ++ (paramText ++ rest)) =
        if passParams (paramText ++ rest) ≠ [] ∧
            (passParams (paramText ++ rest)).head? ≠ some 44 then none
        else if type = typeAll ∧ subtype ≠ subtypeAll then none
        else some (passParams (paramText ++ rest), type * 2 ^ 16 + subtype) := by
      rw [decodeEnd, hskip.1 hcr]
      rfl
    rw [hend, and_iff_right hcr, ← passParams_iff hparam hrest]
    by_cases hpass : passParams (paramText ++ rest) = rest
    · have hfollows : ¬ (rest ≠ [] ∧ rest.head? ≠ some 44) := by
        rintro ⟨hne, hhead⟩
        exact hrest.elim hne hhead
      rw [hpass, if_neg hfollows, and_iff_right rfl]
      split_ifs with hall
      · exact iff_of_false (by simp) fun h => h.1 hall
      · rw [some.injEq, Prod.mk.injEq, and_iff_right rfl, and_iff_right hall, eq_comm]
    · refine iff_of_false ?_ fun h => hpass h.1
      split_ifs
      · simp
      · simp
      · intro h
        exact hpass (Prod.mk.inj (some.inj h)).1

theorem decodeSubtype_iff {before behind : Bytes} {r : Bytes × ℕ}
    (hbefore : IsLws before) (hbehind : IsLws behind) (htoken : IsToken token)
    (hs : Ends s) :
    decodeSubtype after type (before ++ 47 :: (behind ++ (token ++ s))) = some r ↔
      13 ∉ before ∧ 13 ∉ behind ∧ Readable token ∧
        decodeEnd after type (if token = [42] then subtypeAll else subtypeFinal token)
          s = some r := by
  have hslash : Stops (47 :: (behind ++ (token ++ s))) := by
    intro c hc
    rw [← some.inj hc]
    decide
  have hskip := @skipWs_lws after _ _ hbefore hslash
  have hskip' := @skipWs_lws after _ _ hbehind (htoken.stops (s := s))
  rw [decodeSubtype]
  by_cases hcr : 13 ∈ before
  · obtain ⟨t, ht⟩ := hskip.2 hcr
    rw [ht]
    exact iff_of_false (by simp) fun h => h.1 hcr
  · simp only [hskip.1 hcr, head?_cons, tail_cons]
    rw [if_neg (by simp), and_iff_right hcr]
    by_cases hcr' : 13 ∈ behind
    · obtain ⟨t, ht⟩ := hskip'.2 hcr'
      rw [ht, if_neg (cons_ne_nil 13 t), parseToken_cr]
      exact iff_of_false (by simp) fun h => h.1 hcr'
    · rw [hskip'.1 hcr', if_neg (by simp [htoken.1]), and_iff_right hcr']
      exact bind_parseToken htoken hs fun c t v hc => decodeEnd_token hc t

theorem decodeMimeType_iff {lead : Bytes} {r : Bytes × ℕ} (hlead : IsLws lead)
    (htoken : IsToken token) (hs : Ends s) :
    decodeMimeType after (lead ++ (token ++ s)) = some r ↔ 13 ∉ lead ∧ Readable token ∧
        decodeSubtype after (if token = [42] then typeAll else typeFinal token)
          s = some r := by
  have hskip := @skipWs_lws after _ _ hlead (htoken.stops (s := s))
  rw [decodeMimeType]
  by_cases hcr : 13 ∈ lead
  · obtain ⟨t, ht⟩ := hskip.2 hcr
    simp only [ht]
    rw [if_neg (cons_ne_nil 13 t), parseToken_cr]
    exact iff_of_false (by simp) fun h => h.1 hcr
  · simp only [hskip.1 hcr]
    rw [if_neg (by simp [htoken.1]), and_iff_right hcr]
    exact bind_parseToken htoken hs fun c t v hc => decodeSubtype_token hc t

/-! ## The codes -/

theorem typeFinal_ne_all {token : Bytes} (h : token ≠ []) : typeFinal token ≠ typeAll := by
  rw [typeFinal_eq h]
  split_ifs <;> decide

theorem subtypeFinal_lt {token : Bytes} (h : token ≠ []) : subtypeFinal token < 2 ^ 16 := by
  rw [subtypeFinal_eq h]
  split_ifs <;> decide

theorem subtypeCode_lt (token : Bytes) :
    codeOf subtypes subtypeAll subtypeUnknown token < 2 ^ 16 := by
  rw [codeOf, subtypes, nameCode_cons, nameCode_cons, nameCode_cons, nameCode_cons, nameCode_nil]
  split_ifs <;> decide

theorem type_code_iff {token : Bytes} (h : token ≠ []) :
    codeOf types typeAll typeUnknown token =
        (if token = [42] then typeAll else typeFinal token) ↔ TypeRegular token := by
  by_cases hstar : token = [42]
  · subst hstar
    refine iff_of_true rfl ?_
    rw [typeRegular_iff]
    exact ⟨fun h => absurd h (by decide), fun h => absurd h (by decide),
      fun h => absurd h (by decide)⟩
  · rw [codeOf, if_neg hstar, if_neg hstar, eq_comm]
    exact typeFinal_right_iff h

theorem subtype_code_iff {token : Bytes} (h : token ≠ []) :
    codeOf subtypes subtypeAll subtypeUnknown token =
        (if token = [42] then subtypeAll else subtypeFinal token) ↔
      SubtypeRegular token := by
  by_cases hstar : token = [42]
  · subst hstar
    refine iff_of_true rfl ?_
    rw [subtypeRegular_iff]
    exact ⟨fun h => absurd h (by decide), fun h => absurd h (by decide),
      fun h => absurd h (by decide), by decide, by decide⟩
  · rw [codeOf, if_neg hstar, if_neg hstar, eq_comm]
    exact subtypeFinal_right_iff h

/-! ## Elements -/

theorem IsLws.ends (h : IsLws ws) (hs : Ends s) : Ends (ws ++ s) := by
  have hblank : ∀ c : UInt8, (!isBlank c || !tokenChar c) = true := by
    intro c
    cases htoken : tokenChar c
    · simp
    · simp [(tokenChar_facts c htoken).1]
  intro c hc
  cases h with
  | nil => exact hs c hc
  | @blank d ws hd _ =>
    obtain rfl : d = c := some.inj hc
    simpa [hd] using hblank d
  | @fold eol d ws heol hd _ =>
    simp only [mem_cons, not_mem_nil, or_false] at heol
    rcases heol with rfl | rfl
    · rw [← some.inj hc]
      decide
    · rw [← some.inj hc]
      decide

theorem Follows.ends (h : Follows rest) : Ends rest := by
  intro c hc
  rcases h with rfl | hcomma
  · simp at hc
  · rw [hcomma] at hc
    rw [← some.inj hc]
    decide

theorem Element.paramText_cases (e : Element) : e.paramText = [] ∨ e.paramText.head? = some 59 := by
  rw [paramText]
  cases e.params with
  | none => exact Or.inl rfl
  | some ps => exact Or.inr rfl

theorem Element.paramText_ends (e : Element) (hrest : Follows rest) :
    Ends (e.paramText ++ rest) := by
  rcases e.paramText_cases with hnil | hsemi
  · rw [hnil]
    exact hrest.ends
  · intro c hc
    rw [head?_append, hsemi] at hc
    rw [← some.inj hc]
    decide

/-- An element is decoded if and only if it is regular. -/
theorem decodeMimeType_right_iff {e : Element} (he : e.WellFormed) (after : Bytes)
    {rest : Bytes} (hrest : Follows rest) : e.Right after rest ↔ e.Regular := by
  have hends := he.trail.ends (e.paramText_ends hrest)
  have hslash : Ends (47 :: (e.behind ++ (e.subtype ++ (e.trail ++ (e.paramText ++ rest))))) := by
    intro c hc
    rw [← some.inj hc]
    decide
  have htext : e.text ++ rest = e.lead ++ (e.type ++ (e.before ++ 47 :: (e.behind ++
      (e.subtype ++ (e.trail ++ (e.paramText ++ rest)))))) := by
    simp [Element.text]
  rw [Element.Right, htext, decodeMimeType_iff he.lead he.type (he.before.ends hslash),
    decodeSubtype_iff he.before he.behind he.subtype hends,
    decodeEnd_iff he.trail e.paramText_cases hrest, Element.code]
  have htype := type_code_iff he.type.1
  have hsubtype := subtype_code_iff he.subtype.1
  have hlt := subtypeCode_lt e.subtype
  have hlt' : (if e.subtype = [42] then subtypeAll else subtypeFinal e.subtype) <
      2 ^ 16 := by
    split_ifs
    · decide
    · exact subtypeFinal_lt he.subtype.1
  have hall : ¬ ((if e.type = [42] then typeAll else typeFinal e.type) = typeAll ∧
      (if e.subtype = [42] then subtypeAll else subtypeFinal e.subtype) ≠ subtypeAll) := by
    rintro ⟨htypeAll, hne⟩
    by_cases hstar : e.type = [42]
    · exact hne (if_pos (he.all hstar))
    · rw [if_neg hstar] at htypeAll
      exact typeFinal_ne_all he.type.1 htypeAll
  generalize (if e.type = [42] then typeAll else typeFinal e.type) = t at *
  generalize (if e.subtype = [42] then subtypeAll else subtypeFinal e.subtype) = u at *
  constructor
  · rintro ⟨hlead, hread, hbefore, hbehind, hread', htrail, hcomma, -, hcode⟩
    exact ⟨hlead, hbefore, hbehind, htrail, hread, hread', htype.mp (by omega),
      hsubtype.mp (by omega), hcomma⟩
  · intro h
    refine ⟨h.lead, h.readType, h.before, h.behind, h.readSubtype, h.trail, h.comma, hall, ?_⟩
    rw [htype.mpr h.type, hsubtype.mpr h.subtype]

/-- Nothing but a type, a slash and a subtype. -/
def Element.plain (type subtype : Bytes) : Element :=
  ⟨[], type, [], [], subtype, [], none⟩

theorem Element.plain_wellFormed {type subtype : Bytes} (htype : IsToken type)
    (hsubtype : IsToken subtype) (hall : type ≠ [42]) :
    (plain type subtype).WellFormed :=
  ⟨.nil, htype, .nil, .nil, hsubtype, .nil, by simp [plain], fun h => absurd h hall⟩

theorem isToken_of_all {token : Bytes} (hne : token ≠ [])
    (h : token.all tokenChar = true) : IsToken token :=
  ⟨hne, List.all_eq_true.mp h⟩

/-- `message/cpim` is decoded. -/
theorem decodeMimeType_right_cpim :
    (Element.plain (ascii "message") (ascii "cpim")).Right [13, 10] [] ↔
      (Element.plain (ascii "message") (ascii "cpim")).Regular :=
  decodeMimeType_right_iff (Element.plain_wellFormed
    (isToken_of_all (by decide) (by decide)) (isToken_of_all (by decide) (by decide))
    (by decide)) [13, 10] (Or.inl rfl)

/-- `application/sdp` is not known. -/
theorem decodeMimeType_sdp :
    ¬ ∀ e : Element, e.WellFormed → ∀ after rest, Follows rest → e.Right after rest := by
  intro h
  have hright := h (Element.plain (ascii "application") (ascii "sdp"))
    (Element.plain_wellFormed (isToken_of_all (by decide) (by decide))
      (isToken_of_all (by decide) (by decide)) (by decide)) [] [] (Or.inl rfl)
  have hread : decodeMimeType [] ((Element.plain (ascii "application") (ascii "sdp")).text ++ []) =
        some ([], (Element.plain (ascii "application") (ascii "sdp")).code) := hright
  exact absurd hread (by decide)

end Msicp.Content
