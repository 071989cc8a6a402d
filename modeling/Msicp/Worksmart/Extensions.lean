import Msicp.Worksmart.UriType

/-!
# Extensions as worksmart URIs

A number of three to five digits becomes a worksmart URI with the site of the
caller and the token of the call.  It is put together in a buffer of 100 bytes and
cut again at its dashes.
-/

namespace Msicp.Worksmart

open Msicp.Support List Option
open Msicp.Dialog (atoi isDigit snprintf)

/-! ## Fields -/

variable {type command group context token parsed : Bytes}

/-- The five fields with dashes between them. -/
def joinFields (type command group context token : Bytes) : Bytes :=
  type ++ wsSeperator :: (command ++ wsSeperator :: (group ++ wsSeperator ::
    (context ++ wsSeperator :: token)))

/-- A worksmart URI with all its fields. -/
def fullUri (type command group context token : Bytes) : WsUri :=
  ⟨some type, some command, some group, some context, some token⟩

/-- Fields that have been put together are found again. -/
theorem splitWsUri_joinFields (htype : wsSeperator ∉ type) (hcommand : wsSeperator ∉ command)
    (hgroup : wsSeperator ∉ group) (htoken : wsSeperator ∉ token) :
    splitWsUri (joinFields type command group context token) =
      (fullUri type command group context token, true) := by
  unfold splitWsUri joinFields
  rw [cutAt_append htype]
  dsimp only
  rw [cutAt_append hcommand]
  dsimp only
  rw [cutAt_append hgroup]
  dsimp only
  rw [cutAtLast_append htoken]
  rfl

/-- What has been cut into the fields was put together from them. -/
theorem eq_joinFields (h : splitWsUri parsed = (fullUri type command group context token, true)) :
    parsed = joinFields type command group context token := by
  unfold splitWsUri at h
  cases htype : cutAt wsSeperator parsed with
  | none =>
    rw [htype] at h
    cases h
  | some p =>
    rw [htype] at h
    dsimp only at h
    cases hcommand : cutAt wsSeperator p.2 with
    | none =>
      rw [hcommand] at h
      cases h
    | some q =>
      rw [hcommand] at h
      dsimp only at h
      cases hgroup : cutAt wsSeperator q.2 with
      | none =>
        rw [hgroup] at h
        cases h
      | some r =>
        rw [hgroup] at h
        dsimp only at h
        cases htoken : cutAtLast wsSeperator r.2 with
        | none =>
          rw [htoken] at h
          cases h
        | some t =>
          rw [htoken] at h
          cases h
          rw [(cutAt_eq_some htype).2, (cutAt_eq_some hcommand).2, (cutAt_eq_some hgroup).2,
            cutAtLast_eq_some htoken]
          rfl

/-! ## Extensions -/

/-- The type for an extension. -/
def extensionType (extension : Bytes) : Bytes :=
  if extension.length = 3 then (threeDigitType (atoi extension)).take 3 else ascii "ext"

/-- `parsed` with a text and its zero in it. -/
def FitsParsed (text : Bytes) : Prop := text.length + 1 ≤ 100

/-- The extension becomes the worksmart URI that it should, inside the buffer, and
so does its text when it is parsed once more. -/
structure ExtensionRight (extension user site token : Bytes) : Prop where
  parse : parseWsUri (some (user ++ wsSeperator :: site)) extension token =
    (fullUri (extensionType extension) extension (ascii "0") site token, true)
  fits : ∀ context, fromContext (some (user ++ wsSeperator :: site)) = some context →
    FitsParsed (joinFields (extensionType extension) extension (ascii "0") context token)
  again : parseWsUriBuffer
      (joinFields (extensionType extension) extension (ascii "0") site token) =
    (fullUri (extensionType extension) extension (ascii "0") site token, true)

variable {extension user site : Bytes}

theorem not_isDigit_wsSeperator : isDigit wsSeperator = false := by decide

section

variable (h : extension.all isDigit = true)
include h

theorem wsSeperator_notMem : wsSeperator ∉ extension := by
  intro hmem
  have hdigit := List.all_eq_true.mp h wsSeperator hmem
  exact Bool.false_ne_true (not_isDigit_wsSeperator.symm.trans hdigit)

theorem strstr_digits :
    strstr extension (ascii "--") = none := by
  rw [strstr_eq_none_iff]
  intro hinfix
  exact wsSeperator_notMem h ( hinfix.subset (by decide))

theorem strncmpEq_mwi : strncmpEq extension (ascii "mwi") 3 = false := by
  unfold strncmpEq
  rw [decide_eq_false_iff_not]
  intro heq
  have hm : 'm'.toUInt8 ∈ extension.take 3 := by
    rw [heq]
    decide
  exact absurd (List.all_eq_true.mp h _ (mem_of_mem_take hm)) (by decide)

theorem splitWsUri_digits : splitWsUri extension = (.zero, false) := by
  have hcut : cutAt wsSeperator extension = none :=
    cutAt_eq_none.mpr (wsSeperator_notMem h)
  rw [splitWsUri, hcut]

end

theorem threeDigitType_eq (n : ℤ) : threeDigitType n = (threeDigitType n).take 3 ++ [wsSeperator] ∧
      (threeDigitType n).take 3 ∈ [ascii "dir", ascii "inv", ascii "ext"] := by
  unfold threeDigitType
  split_ifs
  · decide
  · decide
  · decide

theorem extensionType_eq (extension : Bytes) :
    (extensionType extension).length = 3 ∧ wsSeperator ∉ extensionType extension := by
  have htypes : ∀ t ∈ [ascii "dir", ascii "inv", ascii "ext"],
      t.length = 3 ∧ wsSeperator ∉ t := by decide
  unfold extensionType
  split_ifs
  · exact htypes _ (threeDigitType_eq _).2
  · exact htypes _ (by decide)

theorem parseWsUri_extension (hdigits : extension.all isDigit = true)
    (hlen : 3 ≤ extension.length ∧ extension.length ≤ 5) (fromUser : Option Bytes) :
    parseWsUri fromUser extension token =
      if 0 < atoi extension then
        parseExtension fromUser token (extensionType extension ++ wsSeperator :: extension)
      else (.zero, false) := by
  have htake : extension.take 99 = extension := take_of_length_le (by omega)
  have hext : ascii "ext-" = ascii "ext" ++ [wsSeperator] := by decide
  unfold parseWsUri extensionType
  simp only [htake, strstr_digits hdigits, isSome_none, Bool.false_eq_true, if_false,
    strncmpEq_mwi hdigits, splitWsUri_digits hdigits]
  by_cases hpos : 0 < atoi extension
  · by_cases hthree : extension.length = 3
    · rw [if_pos ⟨hthree, hpos⟩, if_pos hpos, if_pos hthree]
      conv_lhs => rw [(threeDigitType_eq (atoi extension)).1]
      rw [append_assoc, singleton_append]
    · rw [if_neg fun h => hthree h.1, if_pos ⟨by omega, hpos⟩, if_pos hpos, if_neg hthree,
        hext, append_assoc, singleton_append]
  · rw [if_neg fun h => hpos h.2, if_neg fun h => hpos h.2, if_neg hpos]

theorem fromContext_eq (huser : wsSeperator ∉ user) :
    fromContext (some (user ++ wsSeperator :: site)) =
      if user.length < 254 then some (site.take (253 - user.length)) else none := by
  have hcopy : fromContext (some (user ++ wsSeperator :: site)) =
      (cutAt wsSeperator ((user ++ wsSeperator :: site).take 254)).map Prod.snd := by
    simp only [fromContext, snprintf, bind_eq_bind, bind_some]
    cases cutAt wsSeperator ((user ++ wsSeperator :: site).take 254) with
    | none => rfl
    | some p => rfl
  rw [hcopy, take_append]
  split_ifs with hlen
  · obtain ⟨k, hk⟩ : ∃ k, 254 - user.length = k + 1 := ⟨253 - user.length, by omega⟩
    rw [take_of_length_le hlen.le, hk, take_succ_cons, cutAt_append huser]
    have hk' : k = 253 - user.length := by omega
    rw [hk']
    rfl
  · have hrest : 254 - user.length = 0 := by omega
    have hnone : cutAt wsSeperator (user.take 254) = none :=
      cutAt_eq_none.mpr fun hc => huser (mem_of_mem_take hc)
    rw [hrest, take_zero, append_nil, hnone]
    rfl

theorem parseExtension_eq (htoken : wsSeperator ∉ token)
    (hdigits : extension.all isDigit = true) {fromUser : Option Bytes}
    (hcontext : fromContext fromUser = some context) :
    parseExtension fromUser token (extensionType extension ++ wsSeperator :: extension) =
      (fullUri (extensionType extension) extension (ascii "0") context token, true) := by
  have hjoin : extensionType extension ++ wsSeperator :: extension ++ ascii "-0-" ++ context ++
      ascii "-" ++ token =
        joinFields (extensionType extension) extension (ascii "0") context token := by
    have hgroup : ascii "-0-" = wsSeperator :: (ascii "0" ++ [wsSeperator]) := by decide
    have hdash : ascii "-" = [wsSeperator] := by decide
    rw [hgroup, hdash]
    simp [joinFields, append_assoc]
  rw [parseExtension, hcontext]
  dsimp only
  rw [hjoin]
  exact splitWsUri_joinFields (extensionType_eq extension).2 (wsSeperator_notMem hdigits)
    (by decide) htoken

theorem length_joinFields (extension context token : Bytes) :
    (joinFields (extensionType extension) extension (ascii "0") context token).length =
      extension.length + context.length + token.length + 8 := by
  have hgroup : (ascii "0").length = 1 := by decide
  simp only [joinFields, List.length_append, length_cons, (extensionType_eq extension).1, hgroup]
  omega

/-- For an extension, a caller `user-site` and a token without a dash,
`parse_ws_uri` and `parse_ws_uri_buffer` are right if and only if the extension is not
zero, the user of From has at most 254 bytes and the text at most 98. -/
theorem parse_ws_uri_extension_iff (extension user site token : Bytes)
    (hdigits : extension.all isDigit = true)
    (hlen : 3 ≤ extension.length ∧ extension.length ≤ 5)
    (huser : wsSeperator ∉ user) (htoken : wsSeperator ∉ token) :
    ExtensionRight extension user site token ↔
      0 < atoi extension ∧ user.length + 1 + site.length ≤ 254 ∧
        extension.length + site.length + token.length + 8 ≤ 98 := by
  have hparse := @parseWsUri_extension token extension hdigits hlen
    (some (user ++ wsSeperator :: site))
  have hcontext := @fromContext_eq user site huser
  constructor
  · rintro ⟨hright, -, hagain⟩
    rw [hright] at hparse
    split_ifs at hparse with hpos
    · refine ⟨hpos, ?_, ?_⟩
      · by_cases huser' : user.length < 254
        · rw [if_pos huser'] at hcontext
          rw [parseExtension_eq htoken hdigits hcontext] at hparse
          have hsite := congrArg (fun r : WsUri × Bool => r.1.context) hparse
          have hlength := congrArg List.length (some.inj hsite)
          rw [length_take] at hlength
          omega
        · rw [if_neg huser'] at hcontext
          rw [parseExtension, hcontext] at hparse
          cases hparse
      · have htext := eq_joinFields hagain
        have hlength := congrArg List.length htext
        rw [snprintf, length_take, length_joinFields] at hlength
        omega
    · cases hparse
  · rintro ⟨hpos, hfrom, htext⟩
    have hsite : site.take (253 - user.length) = site := take_of_length_le (by omega)
    rw [if_pos (by omega), hsite] at hcontext
    refine ⟨?_, ?_, ?_⟩
    · rw [hparse, if_pos hpos]
      exact parseExtension_eq htoken hdigits hcontext
    · intro context hsome
      obtain rfl := some.inj (hcontext.symm.trans hsome)
      rw [FitsParsed, length_joinFields]
      omega
    · have htake : snprintf 99
          (joinFields (extensionType extension) extension (ascii "0") site token) =
            joinFields (extensionType extension) extension (ascii "0") site token := by
        refine take_of_length_le ?_
        rw [length_joinFields]
        exact htext
      rw [parseWsUriBuffer, htake]
      exact splitWsUri_joinFields (extensionType_eq extension).2 (wsSeperator_notMem hdigits)
        (by decide) htoken

/-- The directory of a site, called by one of its users. -/
theorem extension_311_bob :
    ExtensionRight (ascii "311") (ascii "bob") (ascii "acme-west") (ascii "t1") :=
  (parse_ws_uri_extension_iff (ascii "311") (ascii "bob") (ascii "acme-west") (ascii "t1")
    (by decide) (by decide) (by decide) (by decide)).mpr (by decide)

/-- A long site makes the text longer than `parsed`. -/
theorem parseWsUri_longSite : ¬∀ extension user site token : Bytes, extension.all isDigit = true →
      3 ≤ extension.length ∧ extension.length ≤ 5 → wsSeperator ∉ user →
        wsSeperator ∉ token → ExtensionRight extension user site token := by
  intro h
  obtain ⟨site, hsite⟩ : ∃ site : Bytes, site.length = 90 :=
    ⟨List.replicate 90 'a'.toUInt8, length_replicate⟩
  have hright := h (ascii "1234") (ascii "bob") site (ascii "t1") (by decide) (by decide)
    (by decide) (by decide)
  have hcontext := @fromContext_eq (ascii "bob") site (by decide)
  have huser : (ascii "bob").length = 3 := by decide
  rw [huser, if_pos (by decide), take_of_length_le (by omega)] at hcontext
  have hfits := hright.fits site hcontext
  have hext : (ascii "1234").length = 4 := by decide
  rw [FitsParsed, length_joinFields] at hfits
  omega

end Msicp.Worksmart
