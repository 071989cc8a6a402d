import Msicp.Worksmart.Classification
import Msicp.Worksmart.Extensions

/-!
# Dialled numbers and their normal form (`normalize`)

A number may be dialled with dashes.  The router classifies it and adds the national
prefix where the country asks for it; both have a way of their own for the dashes.
-/

namespace Msicp.Worksmart

open Msicp.Support List UriType
open Msicp.Dialog (atoi isDigit)

/-! ## The model -/

def USA : ℤ := 1

def UK : ℤ := 2

/-- What `normalize` returns and leaves in its buffers, and up to where it writes in
`buffer`. -/
structure Normalized where
  ret : ℕ
  phone : Bytes
  buffer : Bytes
  written : ℕ

/-- `nBufferLen - 1` as a size. -/
def sizeBefore (nBufferLen : ℕ) : ℕ :=
  if nBufferLen = 0 then 2 ^ 64 - 1 else nBufferLen - 1

/-- `strcat` of what is between the dashes. -/
def strcatPieces (buffer pCurrent : Bytes) : Bytes :=
  match _h : cutAt wsSeperator pCurrent with
  | none => buffer ++ pCurrent
  | some (piece, rest) => strcatPieces (buffer ++ piece) rest
termination_by pCurrent.length
decreasing_by
  rw [(cutAt_eq_some _h).2, List.length_append, List.length_cons]
  omega

/-- `snprintf` of the national prefix and the number. -/
def printNational (nationalPrefix phone buffer : Bytes) (size : ℕ) : Normalized :=
  let text := nationalPrefix ++ phone
  let buffer := if size = 0 then buffer else text.take (size - 1)
  ⟨buffer.length, phone, buffer, if size = 0 then 0 else min text.length (size - 1) + 1⟩

/-- `strncpy` of the number. -/
def copyNumber (phone buffer : Bytes) (size : ℕ) : Normalized :=
  let buffer := strncpy buffer phone size
  ⟨buffer.length, phone, buffer, size⟩

/-- The branch of `normalize` for a number without dashes. -/
def normalizeDigits (countryCode : ℤ) (nationalPrefix : Bytes) (nBufferLen : ℕ)
    (phone buffer : Bytes) : Normalized :=
  if countryCode = USA then
    if phone.length = 10 then
      printNational nationalPrefix phone buffer (sizeBefore nBufferLen)
    else copyNumber phone buffer (sizeBefore nBufferLen)
  else if countryCode = UK then
    if phone.headD 0 = nationalPrefix.headD 0 then
      copyNumber phone buffer (sizeBefore nBufferLen)
    else printNational nationalPrefix phone buffer (sizeBefore nBufferLen)
  else ⟨0, phone, buffer, 0⟩

theorem strcatPieces_eq (buffer pCurrent : Bytes) :
    strcatPieces buffer pCurrent = buffer ++ pCurrent.filter (· ≠ wsSeperator) := by
  fun_induction strcatPieces buffer pCurrent with
  | case1 buffer pCurrent h =>
    have hself : pCurrent.filter (· ≠ wsSeperator) = pCurrent := by
      rw [filter_eq_self]
      intro c hc
      exact decide_eq_true (ne_of_mem_of_not_mem hc (cutAt_eq_none.mp h))
    rw [hself]
  | case2 buffer pCurrent piece rest h ih =>
    obtain ⟨hpiece, hs⟩ := cutAt_eq_some h
    have hself : piece.filter (· ≠ wsSeperator) = piece := by
      rw [filter_eq_self, hpiece]
      intro c hc
      have hne := mem_takeWhile_imp hc
      exact hne
    rw [ih, hs, filter_append, hself, filter_cons_of_neg (by simp),
      append_assoc]

/-- `normalize`: a number with dashes is put together without them, and then is
normalized once more. -/
def normalize (countryCode : ℤ) (nationalPrefix : Bytes) (nBufferLen phoneLen : ℕ)
    (phone buffer : Bytes) : Normalized :=
  if wsSeperator ∈ phone then
    let joined := strcatPieces [] phone
    let again := normalize countryCode nationalPrefix nBufferLen phoneLen
      (joined.take (phoneLen - 1)) joined
    { again with written := max (joined.length + 1) again.written }
  else normalizeDigits countryCode nationalPrefix nBufferLen phone buffer
termination_by phone.count wsSeperator
decreasing_by
  have hnone : wsSeperator ∉ (strcatPieces [] phone).take (phoneLen - 1) := by
    rw [strcatPieces_eq]
    intro hmem
    simpa using List.mem_of_mem_take hmem
  rw [List.count_eq_zero_of_not_mem hnone]
  exact List.count_pos_iff.mpr ‹_›

/-! ## Without dashes -/

/-- The country asks for the national prefix. -/
def AsksPrefix (countryCode : ℤ) (nationalPrefix digits : Bytes) : Prop :=
  if countryCode = USA then digits.length = 10
  else digits.headD 0 ≠ nationalPrefix.headD 0

instance (countryCode : ℤ) (nationalPrefix digits : Bytes) :
    Decidable (AsksPrefix countryCode nationalPrefix digits) := by
  unfold AsksPrefix
  infer_instance

/-- The number as the country has it. -/
def nationalNumber (countryCode : ℤ) (nationalPrefix digits : Bytes) : Bytes :=
  if AsksPrefix countryCode nationalPrefix digits then nationalPrefix ++ digits else digits

/-- There is room for the number; `snprintf` needs a byte more than `strncpy`. -/
def NumberFits (countryCode : ℤ) (nationalPrefix digits : Bytes) (nBufferLen : ℕ) : Prop :=
  (nationalNumber countryCode nationalPrefix digits).length +
    (if AsksPrefix countryCode nationalPrefix digits then 2 else 1) ≤ nBufferLen

instance (countryCode : ℤ) (nationalPrefix digits : Bytes) (nBufferLen : ℕ) :
    Decidable (NumberFits countryCode nationalPrefix digits nBufferLen) := by
  unfold NumberFits
  infer_instance

variable {countryCode : ℤ} {nationalPrefix digits buffer : Bytes} {nBufferLen phoneLen : ℕ}

theorem length_pos_of_append (nationalPrefix : Bytes) (h : 0 < digits.length) :
    0 < (nationalPrefix ++ digits).length := by
  rw [List.length_append]
  omega

theorem printNational_right_iff (h : 0 < digits.length) :
    ((printNational nationalPrefix digits [] (sizeBefore nBufferLen)).buffer =
        nationalPrefix ++ digits ∧
      (printNational nationalPrefix digits [] (sizeBefore nBufferLen)).written ≤
        nBufferLen) ↔
      (nationalPrefix ++ digits).length + 2 ≤ nBufferLen := by
  have hpos := length_pos_of_append nationalPrefix h
  unfold printNational sizeBefore
  dsimp only
  rcases nBufferLen with - | n
  · constructor
    · rintro ⟨-, hwritten⟩
      rw [if_pos rfl, if_neg (by decide)] at hwritten
      omega
    · intro hfits
      omega
  · rw [if_neg (Nat.succ_ne_zero n), Nat.add_sub_cancel]
    rcases n with - | size
    · constructor
      · rintro ⟨htext, -⟩
        rw [if_pos rfl] at htext
        rw [← htext] at hpos
        exact absurd hpos (Nat.lt_irrefl 0)
      · intro hfits
        omega
    · rw [if_neg (Nat.succ_ne_zero size), if_neg (Nat.succ_ne_zero size),
        Nat.add_sub_cancel, List.take_eq_self_iff]
      constructor
      · rintro ⟨hlen, -⟩
        omega
      · intro hfits
        exact ⟨by omega, by omega⟩

theorem copyNumber_right_iff (h : 0 < digits.length) :
    ((copyNumber digits [] (sizeBefore nBufferLen)).buffer = digits ∧
      (copyNumber digits [] (sizeBefore nBufferLen)).written ≤ nBufferLen) ↔
      digits.length + 1 ≤ nBufferLen := by
  have hcopy : ∀ size, strncpy [] digits size = digits.take size := by
    intro size
    unfold strncpy
    split_ifs with hlen
    · exact (take_of_length_le hlen.le).symm
    · rw [drop_nil, append_nil]
  unfold copyNumber sizeBefore
  dsimp only
  rw [hcopy, List.take_eq_self_iff]
  rcases nBufferLen with - | n
  · rw [if_pos rfl]
    constructor
    · rintro ⟨-, hwritten⟩
      omega
    · intro hfits
      omega
  · rw [if_neg (Nat.succ_ne_zero n), Nat.add_sub_cancel]
    constructor
    · rintro ⟨hlen, -⟩
      omega
    · intro hfits
      exact ⟨by omega, by omega⟩

theorem normalizeDigits_eq (hcountry : countryCode = USA ∨ countryCode = UK)
    (nationalPrefix digits buffer : Bytes) (nBufferLen : ℕ) :
    normalizeDigits countryCode nationalPrefix nBufferLen digits buffer =
      if AsksPrefix countryCode nationalPrefix digits then
        printNational nationalPrefix digits buffer (sizeBefore nBufferLen)
      else copyNumber digits buffer (sizeBefore nBufferLen) := by
  unfold normalizeDigits AsksPrefix
  rcases hcountry with rfl | rfl
  · simp only [if_true]
  · have hother : ¬UK = USA := by decide
    simp only [hother, if_true, if_false, ite_not]

theorem normalizeDigits_right_iff (hcountry : countryCode = USA ∨ countryCode = UK)
    (h : 0 < digits.length) :
    ((normalizeDigits countryCode nationalPrefix nBufferLen digits []).buffer =
        nationalNumber countryCode nationalPrefix digits ∧
      (normalizeDigits countryCode nationalPrefix nBufferLen digits []).written ≤
        nBufferLen) ↔
      NumberFits countryCode nationalPrefix digits nBufferLen := by
  rw [normalizeDigits_eq hcountry, nationalNumber, NumberFits, nationalNumber]
  by_cases hasks : AsksPrefix countryCode nationalPrefix digits
  · rw [if_pos hasks, if_pos hasks, if_pos hasks]
    exact printNational_right_iff h
  · rw [if_neg hasks, if_neg hasks, if_neg hasks]
    exact copyNumber_right_iff h

/-! ## With dashes -/

variable {s : Bytes}

/-- A dialled string: digits, at least seven, and dashes. -/
structure DialledDigits (s : Bytes) : Prop where
  chars : ∀ c ∈ s, isDigit c = true ∨ c = wsSeperator
  digits : 7 ≤ s.countP isDigit

instance (s : Bytes) : Decidable (DialledDigits s) :=
  decidable_of_iff ((s.all fun c => isDigit c || c == wsSeperator) = true ∧
      7 ≤ s.countP isDigit)
    ⟨fun h => ⟨by simpa using h.1, h.2⟩, fun h => ⟨by simpa using h.chars, h.digits⟩⟩

theorem DialledDigits.filter_ne (hs : DialledDigits s) :
    s.filter (· ≠ wsSeperator) = s.filter isDigit := by
  refine filter_congr ?_
  intro c hc
  rcases hs.chars c hc with hd | rfl
  · rw [hd, decide_eq_true_eq]
    rintro rfl
    exact Bool.false_ne_true (not_isDigit_wsSeperator.symm.trans hd)
  · rw [not_isDigit_wsSeperator]
    exact decide_eq_false (not_not.mpr rfl)

theorem wsSeperator_notMem_filter (s : Bytes) : wsSeperator ∉ s.filter isDigit := by
  intro hmem
  exact Bool.false_ne_true (not_isDigit_wsSeperator.symm.trans (mem_filter.mp hmem).2)

theorem DialledDigits.filter_eq (hs : DialledDigits s) (h : wsSeperator ∉ s) :
    s.filter isDigit = s := by
  rw [← hs.filter_ne, filter_eq_self]
  intro c hc
  exact decide_eq_true (ne_of_mem_of_not_mem hc h)

theorem length_filter_lt (h : wsSeperator ∈ s) : (s.filter isDigit).length < s.length := by
  refine length_filter_lt_length_iff_exists.mpr ⟨wsSeperator, h, ?_⟩
  rw [not_isDigit_wsSeperator]
  exact Bool.false_ne_true

theorem DialledDigits.normalize_eq (hs : DialledDigits s) (h : wsSeperator ∈ s)
    (hlen : s.length ≤ phoneLen) :
    (normalize countryCode nationalPrefix nBufferLen phoneLen s buffer).written =
      max ((s.filter isDigit).length + 1)
        (normalizeDigits countryCode nationalPrefix nBufferLen (s.filter isDigit)
          (s.filter isDigit)).written := by
  have hfilter := length_filter_lt h
  rw [normalize, if_pos h]
  dsimp only
  rw [strcatPieces_eq, nil_append, hs.filter_ne, take_of_length_le (by omega),
    normalize, if_neg (wsSeperator_notMem_filter s)]

theorem written_normalizeDigits (countryCode : ℤ) (nationalPrefix phone : Bytes)
    (nBufferLen : ℕ) (buffer buffer' : Bytes) :
    (normalizeDigits countryCode nationalPrefix nBufferLen phone buffer).written =
      (normalizeDigits countryCode nationalPrefix nBufferLen phone buffer').written := by
  unfold normalizeDigits
  split_ifs
  · rfl
  · rfl
  · rfl
  · rfl
  · rfl

/-! ## Classification -/

theorem count_of_cutAt {front rest : Bytes} {c : UInt8} (h : cutAt c s = some (front, rest)) :
    s.count c = rest.count c + 1 := by
  obtain ⟨hfront, hs⟩ := cutAt_eq_some h
  have hnone : front.count c = 0 := by
    rw [count_eq_zero, hfront]
    intro hmem
    simpa using mem_takeWhile_imp hmem
  conv_lhs => rw [hs]
  rw [count_append, hnone, count_cons_self, Nat.zero_add]

theorem count_eq_zero_of_cutAt {c : UInt8} (h : cutAt c s = none) : s.count c = 0 :=
  count_eq_zero.mpr (cutAt_eq_none.mp h)

theorem splitWsUri_snd (parsed : Bytes) :
    (splitWsUri parsed).2 = true ↔ 4 ≤ parsed.count wsSeperator := by
  unfold splitWsUri
  cases htype : cutAt wsSeperator parsed with
  | none =>
    rw [count_eq_zero_of_cutAt htype]
    exact ⟨fun h => absurd h Bool.false_ne_true, fun h => by omega⟩
  | some p =>
    rw [count_of_cutAt htype]
    dsimp only
    cases hcommand : cutAt wsSeperator p.2 with
    | none =>
      rw [count_eq_zero_of_cutAt hcommand]
      exact ⟨fun h => absurd h Bool.false_ne_true, fun h => by omega⟩
    | some q =>
      rw [count_of_cutAt hcommand]
      dsimp only
      cases hgroup : cutAt wsSeperator q.2 with
      | none =>
        rw [count_eq_zero_of_cutAt hgroup]
        exact ⟨fun h => absurd h Bool.false_ne_true, fun h => by omega⟩
      | some r =>
        rw [count_of_cutAt hgroup]
        dsimp only
        cases htoken : cutAtLast wsSeperator r.2 with
        | none =>
          rw [count_eq_zero.mpr (cutAtLast_eq_none.mp htoken)]
          exact ⟨fun h => absurd h Bool.false_ne_true, fun h => by omega⟩
        | some t =>
          have hmem : wsSeperator ∈ r.2 := by
            by_contra hnone
            rw [cutAtLast_eq_none.mpr hnone] at htoken
            cases htoken
          have hpos := count_pos_iff.mpr hmem
          exact ⟨fun _ => by omega, fun _ => rfl⟩

theorem DialledDigits.length (hs : DialledDigits s) : 7 ≤ s.length :=
  hs.digits.trans countP_le_length

theorem DialledDigits.parseWsUri_eq (hs : DialledDigits s) (fromUser : Option Bytes)
    (token : Bytes) :
    parseWsUri fromUser s token =
      if ascii "--" <:+: s.take 99 then
        ({ WsUri.zero with type := some (ascii "invtype") }, true)
      else splitWsUri (s.take 99) := by
  have hlength := hs.length
  have htake : 7 ≤ (s.take 99).length := by
    rw [length_take]
    omega
  have hmwi : strncmpEq (s.take 99) (ascii "mwi") 3 = false := by
    unfold strncmpEq
    rw [decide_eq_false_iff_not]
    intro heq
    have hm : 'm'.toUInt8 ∈ (s.take 99).take 3 := by
      rw [heq]
      decide
    have hchar := hs.chars _ (mem_of_mem_take (mem_of_mem_take hm))
    exact absurd hchar (by decide)
  unfold parseWsUri
  dsimp only
  by_cases hdashes : ascii "--" <:+: s.take 99
  · have hsome : (strstr (s.take 99) (ascii "--")).isSome = true := by
      rw [Option.isSome_iff_ne_none]
      intro hnone
      exact strstr_eq_none_iff.mp hnone hdashes
    rw [if_pos hsome, if_pos hdashes]
  · rw [strstr_eq_none_iff.mpr hdashes, hmwi, if_neg (by simp), if_neg (by omega),
      if_neg (by omega), if_neg (by simp), if_neg hdashes]

theorem wsUriType_of_unnamed {wsuri : WsUri} (h : ∀ t ∈ types, wsuri.type ≠ some t.1) :
    (wsUriType wsuri).1 = .wsUri ∨ (wsUriType wsuri).1 = .six11 := by
  unfold wsUriType
  by_cases hcommand : wsuri.command = some (ascii "611")
  · have hsix : types.find? (fun t => some (ascii "six11") = some t.1) =
        some (ascii "six11", .six11) := by decide
    simp only [hcommand, if_true, hsix]
    exact Or.inr trivial
  · have hnone : types.find? (fun t => wsuri.type = some t.1) = none := by
      rw [find?_eq_none]
      intro t ht hsame
      exact h t ht (of_decide_eq_true hsame)
    simp only [if_neg hcommand, hnone]
    exact Or.inl trivial

theorem DialledDigits.wsUriType_parse (hs : DialledDigits s) {env : RouterEnv} {token : Bytes}
    {wsuri : WsUri} (hparse : parseWsUri env.fromUser s token = (wsuri, true)) :
    (wsUriType wsuri).1 = .wsUri ∨ (wsUriType wsuri).1 = .six11 := by
  refine wsUriType_of_unnamed ?_
  intro t ht hsame
  rw [hs.parseWsUri_eq] at hparse
  split_ifs at hparse with hdashes
  · obtain ⟨rfl, -⟩ := Prod.mk.inj hparse
    have hinv : ∀ t ∈ types, some (ascii "invtype") ≠ some t.1 := by decide
    exact hinv t ht hsame
  · obtain ⟨type, htype, hmem, hcut⟩ := splitWsUri_type (congrArg Prod.snd hparse)
    rw [hparse, hsame] at htype
    obtain rfl := Option.some.inj htype
    obtain ⟨c, hc, hdigit⟩ := types_named t ht
    rcases hs.chars c (mem_of_mem_take (hmem c hc)) with hd | rfl
    · exact Bool.false_ne_true (hdigit.symm.trans hd)
    · exact hcut hc

theorem DialledDigits.numberType_dashes (hs : DialledDigits s) (h : wsSeperator ∈ s)
    (env : RouterEnv) (wsuri : WsUri) (token : Bytes) {uriLen : ℕ} (hlen : s.length < uriLen) :
    numberType env wsuri s token uriLen = (.phoneNumber, wsuri, s.filter isDigit) := by
  have hdash : strstr s (ascii "-") ≠ none := by
    intro hnone
    exact strstr_singleton.mp hnone h
  have hstrip : strncpy s (s.filter isDigit) (uriLen - 1) = s.filter isDigit :=
    strncpy_of_le (length_filter_le _ _) (by omega)
  unfold numberType
  dsimp only
  rw [if_neg fun hnumber => hdash hnumber.2, stripDashes_eq hs.chars]
  simp only [hstrip]

theorem DialledDigits.dialledNumber (hs : DialledDigits s) :
    DialledNumber (s.filter isDigit) where
  chars c hc := Or.inl (mem_filter.mp hc).2
  apart h := wsSeperator_notMem_filter s (h.subset (by decide))
  digits := by
    rw [countP_filter]
    simpa using hs.digits

/-- The digits are an international number. -/
def International (env : RouterEnv) (digits : Bytes) : Prop :=
  atoi digits ≠ 0 ∧ strncmpEq digits env.internationalPrefix env.prefixLength = true

instance (env : RouterEnv) (digits : Bytes) : Decidable (International env digits) := by
  unfold International
  infer_instance

theorem DialledDigits.getUriType_digits (hs : DialledDigits s) (env : RouterEnv)
    (token : Bytes) {uriLen : ℕ} (hlen : (s.filter isDigit).length < uriLen) (tokenLen : ℕ) :
    (getUriType env (s.filter isDigit) token uriLen tokenLen).uritype =
        (if International env (s.filter isDigit) then .internationalPhnumber
          else .phoneNumber) ∧
      (getUriType env (s.filter isDigit) token uriLen tokenLen).uri = s.filter isDigit := by
  have hnumber := hs.dialledNumber
  have hnone := wsSeperator_notMem_filter s
  have hparse : parseWsUri env.fromUser (s.filter isDigit) token =
      ((splitWsUri ((s.filter isDigit).take 99)).1, false) := by
    rw [parseWsUri_eq ⟨hnumber.chars, hnumber.digits⟩, if_neg]
    · refine Prod.ext rfl (Bool.eq_false_iff.mpr ?_)
      intro hflag
      have hcount := (splitWsUri_snd _).mp hflag
      rw [count_eq_zero.mpr fun hmem => hnone (mem_of_mem_take hmem)] at hcount
      omega
    · intro hinfix
      exact hnone (mem_of_mem_take ( hinfix.subset (by decide)))
  have hstrip : strstr (s.filter isDigit) (ascii "-") = none := strstr_singleton.mpr hnone
  have hself := hnumber.filter_eq hstrip
  have hclass : numberClass env (s.filter isDigit) =
      if International env (s.filter isDigit) then .international
      else .phoneNumber (s.filter isDigit) := by
    unfold numberClass International
    simp only [hstrip, and_true, hself]
  rcases hnumber.numberType_eq env (splitWsUri ((s.filter isDigit).take 99)).1 token hlen with
    ⟨hint, htype⟩ | ⟨hphone, htype⟩
  · have hinternational : International env (s.filter isDigit) := by
      by_contra hnot
      rw [hclass, if_neg hnot] at hint
      cases hint
    rw [if_pos hinternational]
    exact getUriType_of_number hparse htype (by simp [Plain]) tokenLen
  · have hordinary : ¬International env (s.filter isDigit) := by
      intro hinternational
      rw [hclass, if_pos hinternational] at hphone
      cases hphone
    rw [hself] at htype
    rw [if_neg hordinary]
    exact getUriType_of_number hparse htype (by simp [Plain]) tokenLen

/-! ## Classified and normalized -/

/-- The string is classified as its digits are. -/
def ClassifiedAlike (env : RouterEnv) (s : Bytes) : Prop :=
  wsSeperator ∈ s →
    ¬ascii "--" <:+: s.take 99 ∧ (s.take 99).count wsSeperator < 4 ∧
      ¬International env (s.filter isDigit)

instance (env : RouterEnv) (s : Bytes) : Decidable (ClassifiedAlike env s) := by
  unfold ClassifiedAlike
  infer_instance

theorem DialledDigits.uritype_eq_iff (hs : DialledDigits s) (env : RouterEnv) (token : Bytes)
    {uriLen : ℕ} (hlen : s.length < uriLen) (tokenLen : ℕ) :
    (getUriType env s token uriLen tokenLen).uritype =
        (getUriType env (s.filter isDigit) token uriLen tokenLen).uritype ↔
      ClassifiedAlike env s := by
  have hfilter : (s.filter isDigit).length < uriLen :=
    (length_filter_le _ _).trans_lt hlen
  obtain ⟨hdigits, -⟩ := hs.getUriType_digits env token hfilter tokenLen
  rw [hdigits]
  by_cases hmem : wsSeperator ∈ s
  · cases hflag : (parseWsUri env.fromUser s token).2 with
    | true =>
      have hpair : parseWsUri env.fromUser s token =
          ((parseWsUri env.fromUser s token).1, true) := Prod.ext rfl hflag
      have hclass := hs.wsUriType_parse hpair
      have hplain : (wsUriType (parseWsUri env.fromUser s token).1).1.Plain := by
        rcases hclass with h | h
        · rw [h]
          simp [Plain]
        · rw [h]
          simp [Plain]
      rw [getUriType_of_wsUri hpair hplain]
      constructor
      · intro hsame
        exfalso
        rcases hclass with h | h
        · rw [h] at hsame
          split_ifs at hsame
        · rw [h] at hsame
          split_ifs at hsame
      · intro halike
        obtain ⟨hdashes, hcount, -⟩ := halike hmem
        rw [hs.parseWsUri_eq, if_neg hdashes, splitWsUri_snd] at hflag
        omega
    | false =>
      have hpair : parseWsUri env.fromUser s token =
          ((parseWsUri env.fromUser s token).1, false) := Prod.ext rfl hflag
      have hnumber := hs.numberType_dashes hmem env (parseWsUri env.fromUser s token).1 token
        hlen
      rw [(getUriType_of_number hpair hnumber (by simp [Plain]) tokenLen).1]
      rw [hs.parseWsUri_eq] at hflag
      have hdashes : ¬ascii "--" <:+: s.take 99 := by
        intro hdashes
        rw [if_pos hdashes] at hflag
        exact Bool.false_ne_true hflag.symm
      have hcount : (s.take 99).count wsSeperator < 4 := by
        rw [if_neg hdashes] at hflag
        by_contra hfour
        exact Bool.false_ne_true
          (hflag.symm.trans ((splitWsUri_snd _).mpr (not_lt.mp hfour)))
      constructor
      · intro hsame _
        refine ⟨hdashes, hcount, ?_⟩
        intro hinternational
        rw [if_pos hinternational] at hsame
        cases hsame
      · intro halike
        rw [if_neg (halike hmem).2.2]
  · have hself := hs.filter_eq hmem
    rw [hself] at hdigits
    constructor
    · intro _ h
      exact absurd h hmem
    · intro _
      rw [hself]
      exact hdigits

theorem DialledDigits.uri_eq (hs : DialledDigits s) {env : RouterEnv}
    (halike : ClassifiedAlike env s) (token : Bytes) {uriLen : ℕ} (hlen : s.length < uriLen)
    (tokenLen : ℕ) :
    (getUriType env s token uriLen tokenLen).uri = s.filter isDigit := by
  by_cases hmem : wsSeperator ∈ s
  · obtain ⟨hdashes, hcount, -⟩ := halike hmem
    have hpair : parseWsUri env.fromUser s token = ((splitWsUri (s.take 99)).1, false) := by
      rw [hs.parseWsUri_eq, if_neg hdashes]
      refine Prod.ext rfl (Bool.eq_false_iff.mpr ?_)
      intro hflag
      have hfour := (splitWsUri_snd _).mp hflag
      omega
    have hnumber := hs.numberType_dashes hmem env (splitWsUri (s.take 99)).1 token hlen
    exact (getUriType_of_number hpair hnumber (by simp [Plain]) tokenLen).2
  · have hself := hs.filter_eq hmem
    have huri := (hs.getUriType_digits env token (by rw [hself]; exact hlen) tokenLen).2
    rw [hself] at huri ⊢
    exact huri

/-- What the router does with a dialled string is what it does with its digits. -/
structure NumberRight (env : RouterEnv) (countryCode : ℤ) (nationalPrefix : Bytes)
    (uriLen tokenLen nBufferLen phoneLen : ℕ) (s token : Bytes) : Prop where
  uritype : (getUriType env s token uriLen tokenLen).uritype =
    (getUriType env (s.filter isDigit) token uriLen tokenLen).uritype
  same : (normalize countryCode nationalPrefix nBufferLen phoneLen
      (getUriType env s token uriLen tokenLen).uri []).buffer =
    (normalize countryCode nationalPrefix nBufferLen phoneLen
      (getUriType env (s.filter isDigit) token uriLen tokenLen).uri []).buffer
  number : (normalize countryCode nationalPrefix nBufferLen phoneLen
      (getUriType env s token uriLen tokenLen).uri []).buffer =
    nationalNumber countryCode nationalPrefix (s.filter isDigit)
  within : ∀ phone ∈ [s, (getUriType env s token uriLen tokenLen).uri],
    (normalize countryCode nationalPrefix nBufferLen phoneLen phone []).written ≤ nBufferLen

/-- A dialled string is treated as its digits are, inside the buffer, if and only if it
is classified like them and there is room for the number. -/
theorem get_uri_type_normalize_iff (env : RouterEnv) (countryCode : ℤ)
    (nationalPrefix : Bytes) (uriLen tokenLen nBufferLen phoneLen : ℕ) (s token : Bytes)
    (hcountry : countryCode = USA ∨ countryCode = UK) (hs : DialledDigits s)
    (huri : s.length < uriLen) (hphone : s.length ≤ phoneLen) :
    NumberRight env countryCode nationalPrefix uriLen tokenLen nBufferLen phoneLen s token ↔
      ClassifiedAlike env s ∧
        NumberFits countryCode nationalPrefix (s.filter isDigit) nBufferLen := by
  have hfilter : (s.filter isDigit).length < uriLen :=
    (length_filter_le _ _).trans_lt huri
  have hpos : 0 < (s.filter isDigit).length := by
    have hseven := hs.dialledNumber.length
    omega
  have hplain : ∀ buffer, normalize countryCode nationalPrefix nBufferLen phoneLen
      (s.filter isDigit) buffer =
        normalizeDigits countryCode nationalPrefix nBufferLen (s.filter isDigit) buffer := by
    intro buffer
    rw [normalize, if_neg (wsSeperator_notMem_filter s)]
  have hright := @normalizeDigits_right_iff countryCode nationalPrefix (s.filter isDigit)
    nBufferLen hcountry hpos
  constructor
  · rintro ⟨huritype, -, hnumber, hwithin⟩
    have halike := (hs.uritype_eq_iff env token huri tokenLen).mp huritype
    have hdigits := hs.uri_eq halike token huri tokenLen
    have hwritten := hwithin _ (mem_cons_of_mem _ mem_cons_self)
    rw [hdigits, hplain] at hnumber hwritten
    exact ⟨halike, hright.mp ⟨hnumber, hwritten⟩⟩
  · rintro ⟨halike, hfits⟩
    have hdigits := hs.uri_eq halike token huri tokenLen
    obtain ⟨hnumber, hwritten⟩ := hright.mpr hfits
    constructor
    · exact (hs.uritype_eq_iff env token huri tokenLen).mpr halike
    · rw [hdigits, (hs.getUriType_digits env token hfilter tokenLen).2]
    · rw [hdigits, hplain]
      exact hnumber
    · intro phone hmem
      rw [hdigits] at hmem
      rcases mem_pair.mp hmem with rfl | rfl
      · by_cases hdash : wsSeperator ∈ phone
        · rw [hs.normalize_eq hdash hphone, written_normalizeDigits _ _ _ _ _ []]
          refine max_le ?_ hwritten
          unfold NumberFits nationalNumber at hfits
          split_ifs at hfits
          · rw [List.length_append] at hfits
            omega
          · exact hfits
        · rw [hs.filter_eq hdash] at hplain hwritten
          rw [hplain]
          exact hwritten
      · rw [hplain]
        exact hwritten

/-- A number of ten digits, dialled with two dashes. -/
theorem number_408_right :
    NumberRight plainRouter USA (ascii "1") 255 32 16 255 (ascii "408-555-0199") [] :=
  (get_uri_type_normalize_iff plainRouter USA (ascii "1") 255 32 16 255
    (ascii "408-555-0199") [] (Or.inl rfl) (by decide) (by decide)
    (by decide)).mpr (by decide)

/-- An international number with dashes is taken for an ordinary one. -/
theorem getUriType_international_dashes :
    ¬∀ (env : RouterEnv) (countryCode : ℤ) (nationalPrefix : Bytes)
      (uriLen tokenLen nBufferLen phoneLen : ℕ) (s token : Bytes),
      countryCode = USA ∨ countryCode = UK → DialledDigits s → s.length < uriLen →
        s.length ≤ phoneLen →
          NumberRight env countryCode nationalPrefix uriLen tokenLen nBufferLen phoneLen s
            token := by
  intro h
  have hright := h plainRouter USA (ascii "1") 255 32 64 255 (ascii "011-44-2079460000") []
    (Or.inl rfl) (by decide) (by decide) (by decide)
  have hdashes : (getUriType plainRouter (ascii "011-44-2079460000") [] 255 32).uritype =
      .phoneNumber := by decide
  have hdigits : (getUriType plainRouter ((ascii "011-44-2079460000").filter isDigit) [] 255
      32).uritype = .internationalPhnumber := by decide
  cases hdashes.symm.trans (hright.uritype.trans hdigits)

end Msicp.Worksmart
