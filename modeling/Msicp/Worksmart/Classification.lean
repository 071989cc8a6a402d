import Msicp.Worksmart.UriType

/-!
# The two classifications of a dialled number agree

The router completes a call by what it takes the number for, and the reader of
the billing records takes the number apart once more.
-/

namespace Msicp.Worksmart

open Msicp.Support List
open Msicp.Dialog (atoi isDigit)

/-! ## Classes -/

/-- What the two sides tell apart; `six11` is the router's own 611 service. -/
inductive Classification
  | international
  | phoneNumber (digits : Bytes)
  | wsUri
  | six11
  | invalid
  | other
  deriving DecidableEq

def Routed.classification (r : Routed) : Classification :=
  match r.uritype with
  | .internationalPhnumber => .international
  | .phoneNumber => .phoneNumber r.uri
  | .wsUri => .wsUri
  | .six11 => .six11
  | .invalidUri => .invalid
  | _ => .other

def FifoRouted.classification (r : FifoRouted) : Classification :=
  match r.uritype with
  | .internationalPhnumber => .international
  | .phoneNumber => .phoneNumber r.buffer
  | .wsUri => .wsUri
  | .invalidUri => .invalid
  | _ => .other

/-- The reader with the prefix that the router has. -/
def RouterEnv.billing (env : RouterEnv) : FifoEnv :=
  ⟨env.internationalPrefix, env.prefixLength⟩

/-- A dialled string: digits, at least seven, and dashes that do not adjoin. -/
structure DialledNumber (s : Bytes) : Prop where
  chars : ∀ c ∈ s, isDigit c = true ∨ c = wsSeperator
  apart : ¬ascii "--" <:+: s
  digits : 7 ≤ s.countP isDigit

instance (s : Bytes) : Decidable (DialledNumber s) :=
  decidable_of_iff ((s.all fun c => isDigit c || c == wsSeperator) = true ∧
      ¬ascii "--" <:+: s ∧ 7 ≤ s.countP isDigit)
    ⟨fun h => ⟨by simpa using h.1, h.2.1, h.2.2⟩,
      fun h => ⟨by simpa using h.chars, h.apart, h.digits⟩⟩

variable {s : Bytes}

theorem DialledNumber.length (hs : DialledNumber s) : 7 ≤ s.length :=
  hs.digits.trans countP_le_length

/-! ## The two parsers -/

/-- On a dialled string that is short enough the router's parser only cuts. -/
theorem DialledNumber.parseWsUri_eq (hs : DialledNumber s)
    (hshort : s.length ≤ 98) (fromUser : Option Bytes) (token : Bytes) :
    parseWsUri fromUser s token = splitWsUri s := by
  have hlength := hs.length
  have hparsed : s.take 99 = s := take_of_length_le (by omega)
  have hdashes : strstr s (ascii "--") = none := strstr_eq_none_iff.mpr hs.apart
  have hmwi : strncmpEq s (ascii "mwi") 3 = false := by
    cases s with
    | nil => simp at hlength
    | cons c s =>
      have hc : c ≠ 'm'.toUInt8 := by
        rintro rfl
        have hm := hs.chars _ mem_cons_self
        revert hm
        decide
      have hneedle : (ascii "mwi").take 3 = 'm'.toUInt8 :: ascii "wi" := by
        decide
      simp only [strncmpEq, hneedle, take_succ_cons, List.cons.injEq, hc, false_and, decide_false]
  unfold parseWsUri
  dsimp only
  rw [hparsed, hdashes, hmwi, if_neg (by simp), if_neg (by omega),
    if_neg (by omega), if_neg (by simp)]

/-- The reader finds the fields that the router finds. -/
theorem parseWsFifoUriBuffer_eq (hshort : s.length ≤ 98) :
    (parseWsFifoUriBuffer s).2 = (splitWsUri s).2 ∧
      (parseWsFifoUriBuffer s).1.type = (splitWsUri s).1.type ∧
      (parseWsFifoUriBuffer s).1.command = (splitWsUri s).1.command := by
  have hparsed : s.take 255 = s := take_of_length_le (by omega)
  unfold parseWsFifoUriBuffer
  rw [hparsed]
  obtain ⟨wsuri, parsed⟩ := splitWsUri s
  cases parsed with
  | false => exact ⟨rfl, rfl, rfl⟩
  | true => exact ⟨rfl, rfl, rfl⟩

theorem DialledNumber.type_ne {type name : Bytes} (hs : DialledNumber s)
    (htype : ∀ c ∈ type, c ∈ s) (hcut : wsSeperator ∉ type)
    (hname : ∃ c ∈ name, isDigit c = false) : type ≠ name := by
  rintro rfl
  obtain ⟨c, hc, hdigit⟩ := hname
  rcases hs.chars c (htype c hc) with hd | rfl
  · simp [hd] at hdigit
  · exact hcut hc

theorem types_named : ∀ t ∈ types, ∃ c ∈ t.1, isDigit c = false := by
  decide

theorem fifoTypes_named : ∀ t ∈ fifoTypes, ∃ c ∈ t.1, isDigit c = false := by
  decide

/-! ## Worksmart URIs -/

theorem DialledNumber.wsUriType_eq (hs : DialledNumber s) (hparse : (splitWsUri s).2 = true) :
    (wsUriType (splitWsUri s).1).1 =
      if (splitWsUri s).1.command = some (ascii "611") then .six11
      else .wsUri := by
  obtain ⟨type, htype, hmem, hcut⟩ := splitWsUri_type hparse
  unfold wsUriType
  by_cases hcommand : (splitWsUri s).1.command = some (ascii "611")
  · have hsix : types.find? (fun t => some (ascii "six11") = some t.1) =
        some (ascii "six11", .six11) := by decide
    simp only [hcommand, if_true, hsix]
  · have hnone : types.find? (fun t => (splitWsUri s).1.type = some t.1) = none := by
      rw [find?_eq_none]
      intro t ht hsame
      rw [htype, decide_eq_true_eq, Option.some.injEq] at hsame
      exact hs.type_ne hmem hcut (types_named t ht) hsame
    simp only [if_neg hcommand, hnone]

theorem DialledNumber.fifoType_eq (hs : DialledNumber s) (hparse : (splitWsUri s).2 = true) :
    fifoTypes.find? (fun t => (splitWsUri s).1.type = some t.1) = none := by
  obtain ⟨type, htype, hmem, hcut⟩ := splitWsUri_type hparse
  rw [find?_eq_none]
  intro t ht hsame
  rw [htype, decide_eq_true_eq, Option.some.injEq] at hsame
  exact hs.type_ne hmem hcut (fifoTypes_named t ht) hsame

/-! ## Numbers -/

theorem stripDashes_eq (hs : ∀ c ∈ s, isDigit c = true ∨ c = wsSeperator) :
    stripDashes s = some (s.filter isDigit) := by
  induction s with
  | nil => rfl
  | cons c s ih =>
    have hrest := ih fun d hd => hs d (mem_cons_of_mem c hd)
    unfold stripDashes
    rcases hs c mem_cons_self with hd | rfl
    · simp [hd, hrest]
    · have hdash : isDigit wsSeperator = false := by decide
      rw [filter_cons_of_neg (by simp [hdash]), hdash, hrest]
      simp [wsSeperator]

theorem DialledNumber.filter_eq (hs : DialledNumber s)
    (hdash : strstr s (ascii "-") = none) : s.filter isDigit = s := by
  have hnone : wsSeperator ∉ s := strstr_singleton.mp hdash
  rw [filter_eq_self]
  intro c hc
  rcases hs.chars c hc with hd | rfl
  · exact hd
  · exact absurd hc hnone

/-- The class of a number that is not a worksmart URI. -/
def numberClass (env : RouterEnv) (s : Bytes) : Classification :=
  if (atoi s ≠ 0 ∧ strstr s (ascii "-") = none) ∧
      strncmpEq s env.internationalPrefix env.prefixLength then .international
  else .phoneNumber (s.filter isDigit)

theorem DialledNumber.numberType_eq (hs : DialledNumber s) (env : RouterEnv)
    (wsuri : WsUri) (token : Bytes) {uriLen : ℕ} (hlen : s.length < uriLen) :
    (numberClass env s = .international ∧ numberType env wsuri s token uriLen =
          (.internationalPhnumber, wsuri, s)) ∨
      (numberClass env s = .phoneNumber (s.filter isDigit) ∧ numberType env wsuri s token uriLen =
          (.phoneNumber, wsuri, s.filter isDigit)) := by
  have hlength := hs.length
  have hstrip : strncpy s (s.filter isDigit) (uriLen - 1) = s.filter isDigit :=
    strncpy_of_le (length_filter_le _ _) (by omega)
  unfold numberClass numberType
  dsimp only
  by_cases hnumber : atoi s ≠ 0 ∧ strstr s (ascii "-") = none
  · have hsame := hs.filter_eq hnumber.2
    have hpickup : ¬(10 ≤ atoi s ∧ atoi s ≤ 80 ∧ s.length = 2) := by omega
    rw [if_pos hnumber, if_neg hpickup, hsame]
    by_cases hprefix : strncmpEq s env.internationalPrefix env.prefixLength = true
    · rw [if_pos ⟨hnumber, hprefix⟩, if_pos hprefix]
      exact Or.inl ⟨rfl, rfl⟩
    · rw [if_neg fun h => hprefix h.2, if_neg hprefix]
      refine Or.inr ⟨rfl, ?_⟩
      split_ifs
      · rfl
      · rfl
      · omega
  · rw [if_neg hnumber, if_neg fun h => hnumber h.1, stripDashes_eq hs.chars]
    exact Or.inr ⟨rfl, by simp only [hstrip]⟩

/-- The reader: without dashes the length of an ordinary number is at most
12. -/
theorem DialledNumber.fifoNumberType_eq (hs : DialledNumber s) (env : RouterEnv)
    {length : ℕ} (hlen : s.length < length) :
    (numberClass env s = .international ∧
        fifoNumberType env.billing s length = (.internationalPhnumber, s)) ∨
      (numberClass env s = .phoneNumber (s.filter isDigit) ∧ ((s.filter isDigit).length ≤ 12 →
          fifoNumberType env.billing s length = (.phoneNumber, s.filter isDigit))) := by
  have hlength := hs.length
  have hstrip : strncpy s (s.filter isDigit) (length - 1) = s.filter isDigit :=
    strncpy_of_le (length_filter_le _ _) (by omega)
  unfold numberClass fifoNumberType RouterEnv.billing
  dsimp only
  by_cases hnumber : atoi s ≠ 0 ∧ strstr s (ascii "-") = none
  · have hsame := hs.filter_eq hnumber.2
    have hpickup : ¬(10 ≤ atoi s ∧ atoi s ≤ 80 ∧ s.length = 2) := by omega
    rw [if_pos hnumber, if_neg hpickup, hsame]
    by_cases hprefix : strncmpEq s env.internationalPrefix env.prefixLength = true
    · rw [if_pos ⟨hnumber, hprefix⟩, if_pos hprefix]
      exact Or.inl ⟨rfl, rfl⟩
    · rw [if_neg fun h => hprefix h.2, if_neg hprefix]
      refine Or.inr ⟨rfl, fun htwelve => ?_⟩
      rw [if_pos ⟨hlength, htwelve⟩]
  · rw [if_neg hnumber, if_neg fun h => hnumber h.1, stripDashes_eq hs.chars]
    exact Or.inr ⟨rfl, fun _ => by simp only [hstrip]⟩

/-! ## Both sides -/

/-- The types that click-to-call leaves alone. -/
def UriType.Plain (uritype : UriType) : Prop :=
  uritype ≠ .failed ∧ uritype ≠ .ctcRequest ∧ uritype ≠ .wsctcbcall

theorem ctcChanges_eq {r : Routed} (h : r.uritype.Plain) (env : RouterEnv)
    (tokenLen : ℕ) : ctcChanges env r tokenLen = r := by
  have hctc : ¬(r.uritype = .ctcRequest ∧ env.is3pccacdsup = true) :=
    fun hboth => h.2.1 hboth.1
  unfold ctcChanges
  rw [if_neg hctc, if_neg h.2.2, ite_self]

theorem getUriType_of_wsUri {env : RouterEnv} {uri token : Bytes}
    {wsuri : WsUri} (hparse : parseWsUri env.fromUser uri token = (wsuri, true))
    (h : (wsUriType wsuri).1.Plain) (uriLen tokenLen : ℕ) :
    (getUriType env uri token uriLen tokenLen).uritype = (wsUriType wsuri).1 := by
  unfold getUriType
  rw [hparse]
  dsimp only
  rw [if_neg h.1, ctcChanges_eq h, if_neg h.1]
  rfl

theorem getUriType_of_number {env : RouterEnv} {uri token uri' : Bytes}
    {wsuri wsuri' : WsUri} {uritype : UriType} {uriLen : ℕ}
    (hparse : parseWsUri env.fromUser uri token = (wsuri, false))
    (hnumber : numberType env wsuri uri token uriLen = (uritype, wsuri', uri'))
    (h : uritype.Plain) (tokenLen : ℕ) :
    (getUriType env uri token uriLen tokenLen).uritype = uritype ∧
      (getUriType env uri token uriLen tokenLen).uri = uri' := by
  unfold getUriType
  rw [hparse]
  dsimp only
  rw [hnumber]
  dsimp only
  rw [if_neg h.1, ctcChanges_eq h, if_neg h.1]
  exact ⟨rfl, rfl⟩

theorem worksmartGetDialplan2_eq_some {env : RouterEnv} {contactsOk : Bool}
    {timeS : Bytes} {r : Routed}
    (hr : worksmartGetDialplan2 env contactsOk s timeS = some r) :
    s.length ≤ 98 ∧ getUriType env s timeS 255 32 = r ∧
      (r.uritype = .phoneNumber → r.uri.length ≤ 12) := by
  unfold worksmartGetDialplan2 at hr
  dsimp only at hr
  split_ifs at hr with hlen _ _ hlong
  have hshort : s.length ≤ 98 := by
    rw [length_take] at hlen
    omega
  rw [take_of_length_le (by omega)] at hr hlong
  obtain rfl := Option.some.inj hr
  exact ⟨hshort, rfl, fun hphone => not_lt.mp fun h => hlong ⟨hphone, h⟩⟩

/-- A dialled number that the router does not reject is of the same class for
the reader of the billing records, except that the router has its 611 service
in place of a worksmart URI with that command. -/
theorem classification_agrees {env : RouterEnv} {contactsOk : Bool}
    {timeS : Bytes} {length : ℕ} {r : Routed} (hs : DialledNumber s)
    (hlen : s.length < length)
    (hr : worksmartGetDialplan2 env contactsOk s timeS = some r) :
    (getFifoUriType env.billing s length).classification ∈
        ([.international, .phoneNumber (s.filter isDigit), .wsUri, .invalid] :
          List Classification) ∧
      r.classification =
        if (getFifoUriType env.billing s length).classification = .wsUri ∧
            (getFifoUriType env.billing s length).wsuri.command = some (ascii "611") then .six11
        else (getFifoUriType env.billing s length).classification := by
  obtain ⟨hshort, hget, htwelve⟩ := worksmartGetDialplan2_eq_some hr
  have hparse := hs.parseWsUri_eq hshort env.fromUser timeS
  obtain ⟨hfifo, hfifotype, hfifocommand⟩ := parseWsFifoUriBuffer_eq hshort
  cases hflag : (splitWsUri s).2 with
  | true =>
    have hrouter := hs.wsUriType_eq hflag
    have hnone := hs.fifoType_eq hflag
    have hplain : (wsUriType (splitWsUri s).1).1.Plain := by
      rw [hrouter]
      split_ifs <;> simp [UriType.Plain]
    have htype := getUriType_of_wsUri (hparse.trans (Prod.ext rfl hflag)) hplain 255 32
    rw [hget, hrouter] at htype
    have hbilling : getFifoUriType env.billing s length =
        ⟨.wsUri, (parseWsFifoUriBuffer s).1, s⟩ := by
      have hpair : parseWsFifoUriBuffer s = ((parseWsFifoUriBuffer s).1, true) :=
        Prod.ext rfl (hfifo.trans hflag)
      unfold getFifoUriType
      rw [hpair]
      dsimp only
      rw [hfifotype, hnone]
    rw [hbilling]
    refine ⟨by simp [FifoRouted.classification], ?_⟩
    simp only [FifoRouted.classification, Routed.classification, htype, hfifocommand, true_and]
    split_ifs <;> rfl
  | false =>
    have hpair : parseWsUri env.fromUser s timeS = ((splitWsUri s).1, false) :=
      hparse.trans (Prod.ext rfl hflag)
    have hbilling : (getFifoUriType env.billing s length) =
        ⟨(fifoNumberType env.billing s length).1, (parseWsFifoUriBuffer s).1,
          (fifoNumberType env.billing s length).2⟩ := by
      have hpair' : parseWsFifoUriBuffer s = ((parseWsFifoUriBuffer s).1, false) :=
        Prod.ext rfl (hfifo.trans hflag)
      unfold getFifoUriType
      rw [hpair']
    rw [hbilling]
    have huri : s.length < 255 := by omega
    rcases hs.numberType_eq env (splitWsUri s).1 timeS huri with
      ⟨hclass, hnumber⟩ | ⟨hclass, hnumber⟩
    · obtain ⟨htype, -⟩ := getUriType_of_number hpair hnumber (by simp [UriType.Plain]) 32
      rw [hget] at htype
      have hreader := (hs.fifoNumberType_eq env hlen).resolve_right
        (by rintro ⟨h, -⟩; rw [hclass] at h; cases h)
      rw [hreader.2]
      refine ⟨by simp [FifoRouted.classification], ?_⟩
      simp [FifoRouted.classification, Routed.classification, htype]
    · obtain ⟨htype, huri⟩ := getUriType_of_number hpair hnumber (by simp [UriType.Plain]) 32
      rw [hget] at htype huri
      have hdigits := htwelve htype
      rw [huri] at hdigits
      have hreader := (hs.fifoNumberType_eq env hlen).resolve_left
        (by rintro ⟨h, -⟩; rw [hclass] at h; cases h)
      rw [hreader.2 hdigits]
      refine ⟨by simp [FifoRouted.classification], ?_⟩
      simp [FifoRouted.classification, Routed.classification, htype, huri]

/-- A router without click-to-call and the prefix 011. -/
def plainRouter : RouterEnv where
  internationalPrefix := ascii "011"
  prefixLength := 3
  wsCtccallFlag := false
  fromUser := some (ascii "4000-site")
  is3pcc := false
  is3pccacdsup := false
  ctcSitename := []
  prio1 := []
  getDirectExtension := fun _ => -1

theorem classification_agrees_dashes :
    (getFifoUriType plainRouter.billing (ascii "1-408-555-0199") 128).classification ∈
        ([.international, .phoneNumber ((ascii "1-408-555-0199").filter isDigit),
          .wsUri, .invalid] : List Classification) ∧
      Classification.phoneNumber (ascii "14085550199") =
        if (getFifoUriType plainRouter.billing (ascii "1-408-555-0199")
              128).classification = .wsUri ∧
            (getFifoUriType plainRouter.billing (ascii "1-408-555-0199")
              128).wsuri.command = some (ascii "611") then .six11
        else (getFifoUriType plainRouter.billing (ascii "1-408-555-0199") 128).classification :=
  have hr : worksmartGetDialplan2 plainRouter true (ascii "1-408-555-0199") [] =
      some ⟨.phoneNumber, ⟨some (ascii "1"), some (ascii "408"),
        some (ascii "555"), some (ascii "0199"), some []⟩,
        ascii "14085550199", []⟩ := by
    decide
  classification_agrees (by decide) (by decide) hr

/-- The router takes the second field 611 for its own service. -/
theorem classification_differs : DialledNumber (ascii "1-611-2-3-4567") ∧
      (worksmartGetDialplan2 plainRouter true (ascii "1-611-2-3-4567")
        []).map Routed.classification = some .six11 ∧
      (getFifoUriType plainRouter.billing (ascii "1-611-2-3-4567")
        128).classification = .wsUri := by
  decide

end Msicp.Worksmart
