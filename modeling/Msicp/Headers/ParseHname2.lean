import Msicp.Headers.HnameCases

/-!
# Names of header fields: `parse_hname2`

The switches of `parse_hname2`, however they are nested, are one table of
names.
-/

namespace Msicp.Headers

open Msicp.Support

def skipWs (mem : Memory) : ℕ → ℕ → ℕ
  | 0, p => p
  | size + 1, p =>
    if mem p ≠ 32 ∧ mem p ≠ 9 then p else skipWs mem size (p + 1)

/-- `end - p` as an `unsigned int`. -/
def sizeTo (stop p : ℕ) : ℕ := (((stop : ℤ) - p) % 2 ^ 32).toNat

/-- What `parse_hname2` writes of a `struct hdr_field`.  No type stands for
`HDR_ERROR`, no start of the name for the null pointer. -/
structure HnameField where
  type : Option HdrType
  s : Option ℕ
  len : ℕ
  deriving DecidableEq

/-- `other` -/
def hnameOther (mem : Memory) (start stop : ℕ) (hdr : HnameField) (p : ℕ) : HnameField × Option ℕ :=
  match qMemchr mem 58 (sizeTo stop p) p with
  | none => ({ type := none, s := none, len := 0 }, none)
  | some p => ({ hdr with type := some .other, len := p - start }, some (p + 1))

/-- `dc_end` -/
def hnameDcEnd (mem : Memory) (start stop : ℕ) (hdr : HnameField) (p : ℕ) : HnameField × Option ℕ :=
  let p := skipWs mem (sizeTo stop p) p
  if mem p ≠ 58 then hnameOther mem start stop hdr p
  else ({ hdr with len := p - start }, some (p + 1))

/-- The switch over the first four bytes. -/
def hnameSwitch : Recogniser HnameCase := firstQuaternions compactNames

/-- `parse_hname2`, with the pointer that it returns. -/
def parseHname2 (mem : Memory) (start stop : ℕ) (hdr : HnameField) : HnameField × Option ℕ :=
  if (stop : ℤ) - start < 4 then ({ hdr with type := none }, some start)
  else
    let hdr := { hdr with s := some start }
    match hnameSwitch mem start with
    | .found ⟨type, some len⟩ p =>
      ({ hdr with type := some type, len := len }, some p)
    | .found ⟨type, none⟩ p =>
      hnameDcEnd mem start stop { hdr with type := some type } p
    | .other p => hnameOther mem start stop hdr p

/-! ## The table -/

/-- The tests of a text. -/
def nameTests (name : Bytes) : List Test := name.map .folded

/-- A text that is recognised, with its length where it ends the search. -/
def take (text : String) (type : HdrType) (len : Option ℕ) : Row HnameCase :=
  (nameTests (ascii text), some ⟨type, len⟩)

/-- A text behind which the search is given up. -/
def drop (text : String) : Row HnameCase := (nameTests (ascii text), none)

/-- The rows of `FIRST_QUATERNIONS`. -/
def quaternionRows : List (Row HnameCase) := [take "via:" .via (some 3), take "from" .fromHf none,
  take "to: " .toHf (some 2),
  take "cseq" .cseq none,
  take "call-id:" .callid (some 7),
  take "call-id " .callid none,
  drop "call",
  take "contact:" .contact (some 7),
  take "contact " .contact none,
  take "content-length: " .contentlength (some 14),
  take "content-length" .contentlength none,
  drop "content-lengt",
  drop "content-leng",
  take "content-type" .contenttype none,
  take "content-disposition:" .contentdisposition (some 19),
  take "content-disposition " .contentdisposition none,
  drop "content-disposit",
  drop "content-disp",
  drop "content-",
  drop "cont",
  take "route" .route none,
  drop "rout",
  take "max-forwards" .maxforwards none,
  drop "max-forw",
  drop "max-",
  take "record-route" .recordroute none,
  drop "record-r",
  drop "reco",
  take "via " .via none,
  take "authorization" .authorization none,
  drop "authorizatio",
  drop "authoriz",
  drop "auth",
  take "supported" .supported none,
  drop "supporte",
  drop "supp",
  take "expires:" .expires (some 7),
  take "expires " .expires none,
  drop "expi",
  take "proxy-authorization:" .proxyauth (some 19),
  take "proxy-authorization " .proxyauth none,
  drop "proxy-authorizat",
  drop "proxy-author",
  drop "proxy-au",
  take "proxy-require" .proxyrequire none,
  drop "proxy-requir",
  drop "proxy-re",
  drop "prox",
  take "allow" .allow none,
  drop "allo",
  take "unsupported:" .unsupported (some 11),
  take "unsupported " .unsupported none,
  drop "unsuppor",
  drop "unsu",
  take "event" .event none,
  drop "even",
  take "accept-language:" .acceptlanguage (some 15),
  take "accept-language " .acceptlanguage none,
  drop "accept-langu",
  drop "accept-l",
  take "acceptadisposition" .acceptdisposition none,
  drop "acceptadispositio",
  drop "acceptadispositi",
  drop "acceptadispo",
  drop "acceptad",
  take "accept" .accept none,
  drop "accep",
  drop "acce",
  take "organization" .organization none,
  drop "organiza",
  drop "orga",
  take "priority" .priority none,
  drop "prio",
  take "subject:" .subject (some 7),
  take "subject " .subject none,
  drop "subj",
  take "user-agent" .useragent none,
  drop "user-agen",
  drop "user-age",
  drop "user",
  take "diversion" .diversion none,
  drop "diversio",
  drop "dive",
  take "remote-party-id:" .rpid (some 15),
  take "remote-party-id " .rpid none,
  drop "remote-party",
  drop "remote-p",
  drop "remo"]

theorem firstQuaternions_eq (els : Recogniser HnameCase) :
    firstQuaternions els = runRows els quaternionRows := by
  change firstQuaternions (runRows els []) = _
  simp (disch := decide) only [firstQuaternions, via1Case, via2Case, fromCase,
    to12Case, cseqCase, idCase, callCase, thCase, ionCase, dispositionCase,
    contentCase, actEntCase, contCase, routCase, ardsCase, forwCase, maxCase,
    outeCase, rdRCase, recoCase, authAtioCase, authOrizCase, authCase,
    orteCase, suppCase, expiResCase, expiCase, proxIonCase, izatCase, thorCase,
    quirCase, prox2Case, proxCase, alloCase, tedCase, pporCase, unsuCase,
    evenCase, ageCase, anguCase, onCase, sitiCase, ispoCase, acceCase,
    tionCase, nizaCase, orgaCase, rityCase, prioCase, ectCase, subjCase, ntCase,
    userCase, rsioCase, diveCase, remoIdCase, artyCase, tePCase, remoCase,
    dcEnd, hnameReturn, dwordCase_runRows, dwordCase_found,
    dwordCase_found_other, dwordCase_runRows_other, byteCase_found_other,
    byteCase_runRows_other]
  exact congrArg (runRows els) (by decide)

/-- The rows of a compact name. -/
def letterRows (c : UInt8) (type : HdrType) : List (Row HnameCase) :=
  [([.folded c, .exact 32], some ⟨type, none⟩), ([.folded c, .exact 58], some ⟨type, some 1⟩)]

/-- The rows of the compact names. -/
def compactRows : List (Row HnameCase) :=
  [take "to" .toHf none, take "t " .toHf none, take "t:" .toHf (some 1)] ++
    (letterRows 'v'.toUInt8 .via ++ (letterRows 'f'.toUInt8 .fromHf ++
    (letterRows 'i'.toUInt8 .callid ++ (letterRows 'm'.toUInt8 .contact ++
    (letterRows 'l'.toUInt8 .contentlength ++
    (letterRows 'k'.toUInt8 .supported ++
    (letterRows 'c'.toUInt8 .contenttype ++
    (letterRows 'o'.toUInt8 .event ++ []))))))))

variable {mem : Memory} {p : ℕ}

/-- A case of a single letter that goes to `other` without passing it. -/
theorem letterCase {c : UInt8} {rows rows' : List (Row HnameCase)}
    {x y : Exit HnameCase}
    (hrows : ∀ r ∈ rows, r.1.head? = some (.folded c))
    (hrows' : ∀ r ∈ rows', clash r.1 [.folded c] = true)
    (hx : lowerByte (mem p) = c → x = runRows other rows mem p)
    (hy : y = runRows other rows' mem p) :
    (if lowerByte (mem p) = c then x else y) =
      runRows other (rows ++ rows') mem p := by
  by_cases hc : lowerByte (mem p) = c
  · rw [if_pos hc, hx hc]
    have hnone : rows'.find? (fun r => Takes mem p r.1) = none := by
      rw [List.find?_eq_none]
      intro r hr htakes
      have hclash := clash_eq_false (by simpa using htakes) (takes_folded.mpr hc)
      rw [hrows' r hr] at hclash
      exact absurd hclash (by decide)
    rw [runRows, runRows, List.find?_append, hnone, Option.or_none]
  · rw [if_neg hc, hy]
    have hnone : rows.find? (fun r => Takes mem p r.1) = none := by
      rw [List.find?_eq_none]
      intro r hr htakes
      obtain ⟨tail, htail⟩ := List.head?_eq_some_iff.mp (hrows r hr)
      rw [htail] at htakes
      exact hc (by simpa [Test.holds] using (of_decide_eq_true htakes).1)
    rw [runRows, runRows, List.find?_append, hnone, Option.none_or]

theorem parseCompact_eq {c : UInt8} (id : HdrType) (hc : lowerByte (mem p) = c) :
    parseCompact id mem p = runRows other (letterRows c id) mem p := by
  unfold parseCompact
  split_ifs with h32 h58 <;> simp [runRows, letterRows, Takes, Test.holds, Row.exit, other, *]

theorem compactT_eq (hc : lowerByte (mem p) = 't'.toUInt8) :
    compactT mem p = runRows other [take "to" .toHf none,
      take "t " .toHf none, take "t:" .toHf (some 1)] mem p := by
  have hto : ∀ d : UInt8, Takes mem p [.folded 't'.toUInt8, .folded d] ↔
      lowerByte (mem (p + 1)) = d := by
    intro d
    simp [Takes, Test.holds, hc]
  change _ = @runRows HnameCase other
    [([.folded 't'.toUInt8, .folded 'o'.toUInt8], some ⟨.toHf, none⟩),
      ([.folded 't'.toUInt8, .folded 32], some ⟨.toHf, none⟩),
      ([.folded 't'.toUInt8, .folded 58], some ⟨.toHf, some 1⟩)] mem p
  simp only [compactT, runRows, List.find?, hto]
  by_cases ho : lowerByte (mem (p + 1)) = 'o'.toUInt8
  · simp [ho, Row.exit]
  · by_cases h32 : lowerByte (mem (p + 1)) = 32
    · rw [h32]
      rfl
    · by_cases h58 : lowerByte (mem (p + 1)) = 58
      · rw [h58]
        rfl
      · simp [ho, h32, h58, other]

theorem compactNames_eq : compactNames = runRows other compactRows := by
  funext mem p
  refine letterCase (by decide) (by decide) compactT_eq ?_
  refine letterCase (by decide) (by decide) (parseCompact_eq .via) ?_
  refine letterCase (by decide) (by decide) (parseCompact_eq .fromHf) ?_
  refine letterCase (by decide) (by decide) (parseCompact_eq .callid) ?_
  refine letterCase (by decide) (by decide) (parseCompact_eq .contact) ?_
  refine letterCase (by decide) (by decide) (parseCompact_eq .contentlength) ?_
  refine letterCase (by decide) (by decide) (parseCompact_eq .supported) ?_
  refine letterCase (by decide) (by decide) (parseCompact_eq .contenttype) ?_
  exact letterCase (by decide) (by decide) (parseCompact_eq .event) rfl

/-- All rows of `parse_hname2`. -/
def hnameRows : List (Row HnameCase) := quaternionRows ++ compactRows

theorem hnameSwitch_eq : hnameSwitch = runRows other hnameRows := by
  rw [hnameSwitch, firstQuaternions_eq, compactNames_eq, hnameRows, runRows_append]

end Msicp.Headers
