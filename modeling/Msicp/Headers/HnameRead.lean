import Msicp.Avp.Search
import Msicp.Headers.ParseHname2

/-!
# The forms in which names are recognised

Most names are recognised by themselves and may have blanks behind them.  For
some the next byte belongs to the comparison, and has to be a `:` or a space.
-/

namespace Msicp.Headers

open Msicp.Support
open Msicp.Avp (tolower sameName)

/-- The full and the compact names of the types, in lower case. -/
def hnames : HdrType → List Bytes
  | .via => [ascii "via", ascii "v"]
  | .toHf => [ascii "to", ascii "t"]
  | .fromHf => [ascii "from", ascii "f"]
  | .cseq => [ascii "cseq"]
  | .callid => [ascii "call-id", ascii "i"]
  | .contact => [ascii "contact", ascii "m"]
  | .maxforwards => [ascii "max-forwards"]
  | .route => [ascii "route"]
  | .recordroute => [ascii "record-route"]
  | .contenttype => [ascii "content-type", ascii "c"]
  | .contentlength => [ascii "content-length", ascii "l"]
  | .authorization => [ascii "authorization"]
  | .expires => [ascii "expires"]
  | .proxyauth => [ascii "proxy-authorization"]
  | .supported => [ascii "supported", ascii "k"]
  | .proxyrequire => [ascii "proxy-require"]
  | .unsupported => [ascii "unsupported"]
  | .allow => [ascii "allow"]
  | .event => [ascii "event", ascii "o"]
  | .accept => [ascii "accept"]
  | .acceptlanguage => [ascii "accept-language"]
  | .organization => [ascii "organization"]
  | .priority => [ascii "priority"]
  | .subject => [ascii "subject", ascii "s"]
  | .useragent => [ascii "user-agent"]
  | .acceptdisposition => [ascii "accept-disposition"]
  | .contentdisposition => [ascii "content-disposition"]
  | .diversion => [ascii "diversion"]
  | .rpid => [ascii "remote-party-id"]
  | .other => []

/-- The names that are recognised by themselves. -/
def plainNames : List (Bytes × HdrType) := [
  (ascii "from", .fromHf), (ascii "to", .toHf), (ascii "cseq", .cseq),
  (ascii "content-length", .contentlength),
  (ascii "content-type", .contenttype), (ascii "route", .route),
  (ascii "max-forwards", .maxforwards), (ascii "record-route", .recordroute),
  (ascii "authorization", .authorization), (ascii "supported", .supported),
  (ascii "proxy-require", .proxyrequire), (ascii "allow", .allow),
  (ascii "event", .event), (ascii "acceptadisposition", .acceptdisposition),
  (ascii "accept", .accept), (ascii "organization", .organization),
  (ascii "priority", .priority), (ascii "user-agent", .useragent),
  (ascii "diversion", .diversion)]

/-- The names that are compared together with the byte behind them. -/
def closedNames : List (Bytes × HdrType) := [
  (ascii "via", .via), (ascii "t", .toHf), (ascii "call-id", .callid),
  (ascii "contact", .contact),
  (ascii "content-disposition", .contentdisposition),
  (ascii "expires", .expires), (ascii "proxy-authorization", .proxyauth),
  (ascii "unsupported", .unsupported),
  (ascii "accept-language", .acceptlanguage), (ascii "subject", .subject),
  (ascii "remote-party-id", .rpid)]

/-- The letters that are compared together with the byte behind them, which is
not folded. -/
def letterNames : List (Bytes × HdrType) := [
  (ascii "v", .via), (ascii "f", .fromHf), (ascii "i", .callid),
  (ascii "m", .contact), (ascii "l", .contentlength), (ascii "k", .supported),
  (ascii "c", .contenttype), (ascii "o", .event)]

/-- The names that `parse_hname2` looks for, with their types. -/
def soughtNames : List (Bytes × HdrType) :=
  plainNames ++ closedNames ++ letterNames

/-- A name by itself. -/
def plainForm (n : Bytes × HdrType) : Row HnameCase :=
  (nameTests n.1, some ⟨n.2, none⟩)

/-- A name with the `:` behind it. -/
def colonForm (test : UInt8 → Test) (n : Bytes × HdrType) : Row HnameCase :=
  (nameTests n.1 ++ [test 58], some ⟨n.2, some n.1.length⟩)

/-- A name with a space behind it. -/
def spaceForm (test : UInt8 → Test) (n : Bytes × HdrType) : Row HnameCase :=
  (nameTests n.1 ++ [test 32], some ⟨n.2, none⟩)

/-- The forms of all names. -/
def hnameForms : List (Row HnameCase) :=
  plainNames.map plainForm ++
    (closedNames.flatMap fun n => [colonForm .folded n, spaceForm .folded n]) ++
    letterNames.flatMap fun n => [colonForm .exact n, spaceForm .exact n]

/-- The names that are compared together with the `:` and the blank behind
it. -/
def overrunNames : List (Bytes × HdrType) :=
  [(ascii "to", .toHf), (ascii "content-length", .contentlength)]

/-- A name with a `:` and a blank behind it. -/
def overrunForm (n : Bytes × HdrType) : Row HnameCase :=
  (nameTests (n.1 ++ [58, 32]), some ⟨n.2, some n.1.length⟩)

/-! ## The forms are the rows of the table -/

variable {r : Row HnameCase} {n : Bytes × HdrType} {type : HdrType}

/-- The rows without the names that are compared with the blank behind the
`:`. -/
def keptRows : List (Row HnameCase) :=
  hnameRows.filter (· ∉ overrunNames.map overrunForm)

/-- The pattern has no place for the byte `c`. -/
def Avoids (c : UInt8) (pat : List Test) : Prop :=
  ∀ t ∈ pat, t.lowered ≠ none ∧ t.lowered ≠ some (lowerByte c)

instance (c : UInt8) (pat : List Test) : Decidable (Avoids c pat) := by
  unfold Avoids
  infer_instance

/-! ## The names -/

/-- A byte of a name in lower case. -/
def NameByte (c : UInt8) : Prop := (97 ≤ c ∧ c ≤ 122) ∨ c = 45

instance (c : UInt8) : Decidable (NameByte c) := by
  unfold NameByte
  infer_instance

theorem nameByte_of_sought {n : Bytes × HdrType} (hn : n ∈ soughtNames) :
    ∀ c ∈ n.1, NameByte c := by
  have h : ∀ n ∈ soughtNames, n.1.all (NameByte ·) = true := by decide
  simpa using h n hn

theorem nameByte_of_hnames {n : Bytes} (hn : n ∈ hnames type) : ∀ c ∈ n, NameByte c := by
  have h : ∀ n ∈ hnames type, n.all (NameByte ·) = true := by
    cases type <;> decide
  simpa using h n hn

/-- The names that are not sought, or sought under another spelling. -/
def missedNames : List Bytes :=
  [ascii "s", ascii "accept-disposition", ascii "acceptadisposition"]

theorem sought_of_hnames {n : Bytes} (hn : n ∈ hnames type)
    (hmiss : n ∉ missedNames) : (n, type) ∈ soughtNames := by
  revert n
  cases type <;> decide

theorem hnames_of_sought (hn : n ∈ soughtNames) (hmiss : n.1 ∉ missedNames) : n.1 ∈ hnames n.2 := by
  have h : ∀ n ∈ soughtNames, n.1 ∉ missedNames → n.1 ∈ hnames n.2 := by
    decide
  exact h n hn hmiss

theorem type_unique (hn : n ∈ soughtNames) (hname : n.1 ∈ hnames type) : n.2 = type := by
  have h : ∀ n ∈ soughtNames, ∀ type, n.1 ∈ hnames type → n.2 = type := by
    intro n hn type
    revert n
    cases type <;> decide
  exact h n hn type hname

end Msicp.Headers

/-!
## Names in the text

Text that a form takes is its name up to case, but for the bytes that look like
a `-`, a `:` or a space once their bit 0x20 is set.
-/

namespace Msicp.Headers

open Msicp.Support
open Msicp.Avp (tolower sameName)

/-- A space or a tab. -/
def isWs (c : UInt8) : Bool := c = 32 ∨ c = 9

/-- A text without the spaces and tabs behind it. -/
def withoutWs (s : Bytes) : Bytes := s.rdropWhile isWs

/-! ## Bytes -/

theorem byte_facts (c : UInt8) :
    (NameByte c → tolower c = c ∧ c ≠ 32 ∧ c ≠ 41 ∧ c ≠ 58) ∧
      (NameByte (tolower c) → lowerByte c = tolower c) ∧
        (isWs c = true → (lowerByte c = 32 → c = 32) ∧ (lowerByte c = 32 ∨ lowerByte c = 41)) := by
  refine ⟨?_, ?_, ?_⟩ <;>
    · revert c
      exact forall_byte (by decide)

theorem lowerByte_of_tolower {c : UInt8} (h : NameByte (tolower c)) : lowerByte c = tolower c :=
  (byte_facts c).2.1 h

theorem lowerByte_of_isWs {c : UInt8} (h : isWs c = true) :
    lowerByte c = 32 ∨ lowerByte c = 41 :=
  ((byte_facts c).2.2 h).2

theorem eq_space {c : UInt8} (h : isWs c = true) (hc : lowerByte c = 32) : c = 32 :=
  ((byte_facts c).2.2 h).1 hc

theorem NameByte.ne {c : UInt8} (h : NameByte c) : c ≠ 32 ∧ c ≠ 41 ∧ c ≠ 58 :=
  ((byte_facts c).1 h).2

/-! ## Texts -/

section Texts

variable {n n' s : Bytes}

section

variable (hn : ∀ c ∈ n, NameByte c)
include hn

theorem map_lowerByte_of_tolower (h : s.map tolower = n) : s.map lowerByte = n := by
  subst h
  refine List.map_congr_left fun c hc => ?_
  exact lowerByte_of_tolower (hn _ (List.mem_map_of_mem hc))

theorem tolower_of_nameBytes : n.map tolower = n := by
  conv_rhs => rw [← List.map_id n]
  exact List.map_congr_left fun c hc => ((byte_facts c).1 (hn c hc)).1

theorem sameName_iff : sameName n s ↔ s.map tolower = n := by
  rw [sameName, tolower_of_nameBytes hn]
  exact eq_comm

end

theorem withoutWs_append (s : Bytes) : ∃ ws, s = withoutWs s ++ ws ∧ ∀ c ∈ ws, isWs c = true :=
  ⟨s.rtakeWhile isWs, (List.rdropWhile_append_rtakeWhile).symm,
    fun _ hc => List.mem_rtakeWhile_imp hc⟩

theorem withoutWs_eq {ws : Bytes} (hn : ∀ c ∈ n, NameByte c)
    (h : s.map tolower = n) (hws : ∀ c ∈ ws, isWs c = true) :
    withoutWs (s ++ ws) = s := by
  have hlast : s.reverse.dropWhile isWs = s.reverse := by
    cases hs : s.reverse with
    | nil => rfl
    | cons c t =>
      have hc : c ∈ s := List.mem_reverse.mp (by simp [hs])
      have hbyte := hn (tolower c) (h ▸ List.mem_map_of_mem hc)
      have hfold := lowerByte_of_tolower hbyte
      refine List.dropWhile_cons_of_neg fun hcws => ?_
      rcases lowerByte_of_isWs hcws with h32 | h41
      · exact hbyte.ne.1 (hfold.symm.trans h32)
      · exact hbyte.ne.2.1 (hfold.symm.trans h41)
  rw [withoutWs, List.rdropWhile, List.reverse_append,
    List.dropWhile_append_of_pos (fun c hc => hws c (List.mem_reverse.mp hc)),
    hlast, List.reverse_reverse]

/-- Names with blanks behind them are told apart by the bytes before the
blanks. -/
theorem name_unique {a b : Bytes} (hn : ∀ c ∈ n, NameByte c)
    (hn' : ∀ c ∈ n', NameByte c) (ha : ∀ c ∈ a, c = 32 ∨ c = 41)
    (hb : ∀ c ∈ b, c = 32 ∨ c = 41) (h : n ++ a = n' ++ b) :
    n = n' ∧ a = b := by
  have hcut : ∀ {m t : Bytes}, (∀ c ∈ m, NameByte c) → (∀ c ∈ t, c = 32 ∨ c = 41) →
      (m ++ t).takeWhile (fun c => c ≠ 32 ∧ c ≠ 41) = m := by
    intro m t hm ht
    rw [List.takeWhile_append_of_pos (fun c hc => by
      simpa using ⟨(hm c hc).ne.1, (hm c hc).ne.2.1⟩)]
    cases t with
    | nil => simp
    | cons c t =>
      rw [List.takeWhile_cons_of_neg (by
        rcases ht c (by simp) with rfl | rfl <;> decide), List.append_nil]
  have heq : n = n' := by rw [← hcut hn ha, h, hcut hn' hb]
  subst heq
  exact ⟨rfl, List.append_cancel_left h⟩

end Texts

/-! ## Texts in memory -/

section Memory

variable {mem : Memory} {p size : ℕ}

theorem skipWs_spec (mem : Memory) (size p : ℕ) :
    p ≤ skipWs mem size p ∧ skipWs mem size p ≤ p + size ∧
      (∀ i, p ≤ i → i < skipWs mem size p → isWs (mem i) = true) ∧
      (skipWs mem size p < p + size → isWs (mem (skipWs mem size p)) = false) := by
  induction size generalizing p with
  | zero =>
    simp only [skipWs]
    exact ⟨le_rfl, le_rfl, by omega, by omega⟩
  | succ size ih =>
    unfold skipWs
    split
    · rename_i h
      exact ⟨le_rfl, by omega, by omega, fun _ => by simp [isWs, h.1, h.2]⟩
    · rename_i h
      obtain ⟨hle, hge, hws, hstop⟩ := ih (p + 1)
      refine ⟨by omega, by omega, fun i hi hlt => ?_, fun hlt => hstop (by omega)⟩
      rcases Nat.eq_or_lt_of_le hi with rfl | hlt'
      · by_contra hno
        exact h (by simpa [isWs] using hno)
      · exact hws i hlt' hlt

theorem isWs_of_mem_bytes {q : ℕ} {c : UInt8} (hws : ∀ i, p ≤ i → i < q → isWs (mem i) = true)
    (hc : c ∈ mem.bytes p (q - p)) : isWs c = true := by
  obtain ⟨i, hi, hlt, rfl⟩ := Memory.mem_bytes.mp hc
  exact hws i hi (by omega)

theorem takes_nameTests {n : Bytes} :
    Takes mem p (nameTests n) ↔ (mem.bytes p n.length).map lowerByte = n := by
  induction n generalizing p with
  | nil => simp [nameTests, Takes, Memory.bytes]
  | cons c n ih =>
    rw [List.length_cons, Memory.bytes, List.map_cons, List.cons.injEq, ← ih]
    simp [nameTests, Takes, Test.holds]

/-- No byte of memory that fits a pattern is one that the pattern has no place
for. -/
theorem ne_of_takes {c : UInt8} {pat : List Test} (h : Takes mem p pat)
    (hpat : Avoids c pat) {i : ℕ} (hi : p ≤ i) (hlt : i < p + pat.length) :
    mem i ≠ c := by
  induction pat generalizing p with
  | nil =>
    rw [List.length_nil] at hlt
    omega
  | cons t pat ih =>
    rcases Nat.eq_or_lt_of_le hi with rfl | hlt'
    · rintro rfl
      obtain ⟨hsome, hne⟩ := hpat t (by simp)
      obtain ⟨d, hd⟩ := Option.ne_none_iff_exists'.mp hsome
      exact hne (by rw [hd, Test.lowered_of_holds h.1 hd])
    · rw [List.length_cons] at hlt
      exact ih h.2 (fun u hu => hpat u (by simp [hu])) hlt' (by omega)

end Memory

end Msicp.Headers

/-!
## What `parse_hname2` makes of a line

A line is taken by one of the forms, or its name is not known.
-/

namespace Msicp.Headers

open Msicp.Support
open Msicp.Avp (tolower sameName)

variable {mem : Memory} {start stop c : ℕ} {hdr : HnameField}

variable {r : Row HnameCase} {n : Bytes × HdrType}

set_option maxRecDepth 4096 in
theorem hnameRows_some (hr : r ∈ hnameRows) (hsome : r.2.isSome) :
    r ∈ hnameForms ∨ r ∈ overrunNames.map overrunForm := by
  revert r
  decide

theorem overrun_first (hn : n ∈ overrunNames) :
    (hnameRows.find? fun r => !clash r.1 (overrunForm n).1) = some (overrunForm n) := by
  revert n
  decide

set_option maxRecDepth 4096 in
theorem form_first (hr : r ∈ hnameForms) (hne : r ≠ plainForm (ascii "accept", .accept)) :
    (keptRows.find? fun s => !clash s.1 r.1) = some r := by
  revert r
  decide

theorem accept_first {c : UInt8} (hc : c = 32 ∨ c = 41 ∨ c = 58) :
    (keptRows.find? fun s => !clash s.1 (nameTests (ascii "accept") ++ [Test.folded c])) =
        some (plainForm (ascii "accept", .accept)) := by
  rcases hc with rfl | rfl | rfl <;> decide

theorem rows_avoid (hr : r ∈ hnameRows) (hgo : ∀ v ∈ r.2, v.len = none) : Avoids 58 r.1 := by
  revert r
  decide

/-- The form takes the line: its pattern fits, and behind it comes the `:`, if
the pattern does not end the search. -/
def Claims (mem : Memory) (start stop : ℕ) (r : Row HnameCase) : Prop :=
  Takes mem start r.1 ∧ ∀ v ∈ r.2, v.len = none → mem (skipWs mem (sizeTo stop (start + r.1.length))
      (start + r.1.length)) = 58

/-- `c` is the first `:` of the line. -/
structure FirstColon (mem : Memory) (start stop c : ℕ) : Prop where
  le : start ≤ c
  lt : c < stop
  colon : mem c = 58
  first : ∀ i, start ≤ i → i < c → mem i ≠ 58

theorem firstColon_of_qMemchr (h : qMemchr mem 58 (stop - start) start = some c) :
    FirstColon mem start stop c := by
  obtain ⟨hle, hlt, hc, hfirst⟩ := qMemchr_eq_some.mp h
  exact ⟨hle, by omega, hc, hfirst⟩

/-- The line does not start with a name that is compared with the blank behind
its `:`. -/
def NoOverrun (mem : Memory) (start : ℕ) : Prop :=
  ∀ n ∈ overrunNames, ¬Takes mem start (overrunForm n).1

/-! ## The switch -/

theorem hnameSwitch_overrun {n : Bytes × HdrType} (hn : n ∈ overrunNames)
    (htakes : Takes mem start (overrunForm n).1) :
    hnameSwitch mem start = (overrunForm n).exit start := by
  rw [hnameSwitch_eq]
  exact runRows_of_takes htakes htakes (overrun_first hn)

theorem runRows_kept (hno : NoOverrun mem start) :
    runRows other hnameRows mem start = runRows other keptRows mem start := by
  have hfind : keptRows.find? (fun r => Takes mem start r.1) =
      hnameRows.find? fun r => Takes mem start r.1 := by
    rw [keptRows, List.find?_filter]
    congr 1
    funext r
    by_cases htakes : Takes mem start r.1
    · have hkept : r ∉ overrunNames.map overrunForm := by
        intro hr
        obtain ⟨n, hn, rfl⟩ := List.mem_map.mp hr
        exact hno n hn htakes
      simp [htakes, hkept]
    · simp [htakes]
  rw [runRows, runRows, hfind]

theorem hnameSwitch_claims (hno : NoOverrun mem start) {r : Row HnameCase}
    (hr : r ∈ hnameForms) (hclaims : Claims mem start stop r) :
    hnameSwitch mem start = r.exit start := by
  obtain ⟨htakes, hcolon⟩ := hclaims
  rw [hnameSwitch_eq, runRows_kept hno]
  by_cases hne : r = plainForm (ascii "accept", .accept)
  · -- the byte behind the name is a blank or the colon
    subst hne
    set q := start + (plainForm (ascii "accept", .accept)).1.length with hq
    have h58 := hcolon ⟨.accept, none⟩ rfl rfl
    obtain ⟨hle, -, hws, -⟩ := skipWs_spec mem (sizeTo stop q) q
    have hbyte : lowerByte (mem q) = 32 ∨ lowerByte (mem q) = 41 ∨ lowerByte (mem q) = 58 := by
      rcases Nat.eq_or_lt_of_le hle with heq | hlt
      · rw [← heq] at h58
        rw [h58]
        exact .inr (.inr rfl)
      · rcases lowerByte_of_isWs (hws q le_rfl hlt) with h | h
        · exact .inl h
        · exact .inr (.inl h)
    refine runRows_of_takes ?_ htakes (accept_first hbyte)
    exact takes_append.mpr ⟨htakes, takes_folded.mpr rfl⟩
  · exact runRows_of_takes htakes htakes (form_first hr hne)

theorem sizeTo_eq {p : ℕ} (hp : p ≤ stop) (hlt : stop < p + 2 ^ 32) : sizeTo stop p = stop - p := by
  unfold sizeTo
  omega

theorem qMemchr_sizeTo (hc : FirstColon mem start stop c)
    (hsize : stop < start + 2 ^ 32) {p : ℕ} (hp : start ≤ p)
    (hfirst : ∀ i, start ≤ i → i < p → mem i ≠ 58) :
    qMemchr mem 58 (sizeTo stop p) p = some c := by
  have hpc : p ≤ c := by
    by_contra hlt
    exact hfirst c hc.le (by omega) hc.colon
  have hlt := hc.lt
  rw [sizeTo_eq (by omega) (by omega)]
  exact qMemchr_eq_some.mpr ⟨hpc, by omega, hc.colon, fun i hi => hc.first i (by omega)⟩

theorem hnameOther_eq (hc : FirstColon mem start stop c)
    (hsize : stop < start + 2 ^ 32) {p : ℕ} (hp : start ≤ p)
    (hfirst : ∀ i, start ≤ i → i < p → mem i ≠ 58) :
    hnameOther mem start stop hdr p =
      ({ hdr with type := some .other, len := c - start }, some (c + 1)) := by
  rw [hnameOther, qMemchr_sizeTo hc hsize hp hfirst]

/-- Behind a pattern without a `:` the blanks reach to the first `:`, or the
name goes on. -/
theorem no_colon_skipped {pat : List Test} (htakes : Takes mem start pat)
    (hpat : Avoids 58 pat) (size : ℕ) :
    ∀ i, start ≤ i → i < skipWs mem size (start + pat.length) → mem i ≠ 58 := by
  intro i hi hlt
  obtain ⟨-, -, hws, -⟩ := skipWs_spec mem size (start + pat.length)
  by_cases hin : i < start + pat.length
  · exact ne_of_takes htakes hpat hi hin
  · intro h58
    have hblank := hws i (by omega) hlt
    rw [h58] at hblank
    exact absurd hblank (by decide)

/-! ## The results -/

theorem parseHname2_short (hshort : stop < start + 4) :
    parseHname2 mem start stop hdr = ({ hdr with type := none }, some start) := by
  rw [parseHname2, if_pos (by omega)]

theorem parseHname2_long (hlong : start + 4 ≤ stop) : parseHname2 mem start stop hdr =
      match hnameSwitch mem start with
      | .found ⟨type, some len⟩ p =>
        ({ type := some type, s := some start, len := len }, some p)
      | .found ⟨type, none⟩ p =>
        hnameDcEnd mem start stop
          { hdr with type := some type, s := some start } p
      | .other p =>
        hnameOther mem start stop { hdr with s := some start } p := by
  unfold parseHname2
  exact if_neg (by omega)

theorem parseHname2_returns (hlong : start + 4 ≤ stop) {pat : List Test}
    {type : HdrType} {len : ℕ} (hswitch : hnameSwitch mem start =
      Row.exit (pat, some ⟨type, some len⟩) start) :
    parseHname2 mem start stop hdr = ({ type := some type, s := some start, len := len },
        some (start + pat.length)) := by
  rw [parseHname2_long hlong, hswitch]
  rfl

/-- A form behind which the `:` is looked for, and found. -/
theorem parseHname2_dcEnd (hlong : start + 4 ≤ stop) {pat : List Test}
    {type : HdrType} (hswitch : hnameSwitch mem start = Row.exit (pat, some ⟨type, none⟩) start)
    {q : ℕ} (hq : q = skipWs mem (sizeTo stop (start + pat.length))
      (start + pat.length)) (hcolon : mem q = 58) :
    parseHname2 mem start stop hdr = ({ type := some type, s := some start, len := q - start },
        some (q + 1)) := by
  rw [parseHname2_long hlong, hswitch]
  subst hq
  change hnameDcEnd mem start stop _ _ = _
  rw [hnameDcEnd, if_neg (not_not_intro hcolon)]

theorem hnameSwitch_unclaimed (hno : NoOverrun mem start)
    (hnone : ∀ r ∈ hnameForms, ¬Claims mem start stop r) :
    (∃ p, hnameSwitch mem start = .other p ∧ start ≤ p ∧ ∀ i, start ≤ i → i < p → mem i ≠ 58) ∨
    ∃ pat type, hnameSwitch mem start = Row.exit (pat, some ⟨type, none⟩) start ∧
      Takes mem start pat ∧ Avoids 58 pat ∧
      mem (skipWs mem (sizeTo stop (start + pat.length)) (start + pat.length)) ≠ 58 := by
  rw [hnameSwitch_eq]
  cases hrun : runRows other hnameRows mem start with
  | other p =>
    refine .inl ⟨p, rfl, ?_⟩
    rcases runRows_other hrun with ⟨pat, hpat, htakes, rfl⟩ | hp
    · exact ⟨by omega, fun i hi hlt =>
        ne_of_takes htakes (rows_avoid hpat (by simp)) hi hlt⟩
    · obtain rfl : start = p := by simpa [other] using hp
      exact ⟨le_rfl, fun i _ _ => by omega⟩
  | found v p =>
    rcases runRows_found hrun with ⟨pat, hpat, htakes, rfl⟩ | ⟨hp, -⟩
    · have hform : (pat, some v) ∈ hnameForms := by
        rcases hnameRows_some hpat rfl with h | h
        · exact h
        · obtain ⟨n, hn, hrow⟩ := List.mem_map.mp h
          exact absurd (hrow ▸ htakes : Takes mem start (overrunForm n).1) (hno n hn)
      have hdc : v.len = none ∧ mem (skipWs mem (sizeTo stop
          (start + pat.length)) (start + pat.length)) ≠ 58 := by
        by_contra hcontra
        refine hnone _ hform ⟨htakes, ?_⟩
        rintro v' ⟨⟩ hlen
        by_contra hne
        exact hcontra ⟨hlen, hne⟩
      obtain ⟨type, len⟩ := v
      obtain rfl : len = none := hdc.1
      exact .inr ⟨pat, type, rfl, htakes, rows_avoid hpat (by rintro _ ⟨⟩; rfl), hdc.2⟩
    · simp [other] at hp

theorem parseHname2_other (hlong : start + 4 ≤ stop)
    (hsize : stop < start + 2 ^ 32) (hc : FirstColon mem start stop c)
    (hno : NoOverrun mem start)
    (hnone : ∀ r ∈ hnameForms, ¬Claims mem start stop r) :
    parseHname2 mem start stop hdr = ({ type := some .other, s := some start, len := c - start },
        some (c + 1)) := by
  rw [parseHname2_long hlong]
  rcases hnameSwitch_unclaimed hno hnone with ⟨p, hp, hle, hfirst⟩ |
    ⟨pat, type, hrow, htakes, hpat, hskip⟩
  · rw [hp]
    exact hnameOther_eq hc hsize hle hfirst
  · rw [hrow]
    change hnameDcEnd mem start stop _ _ = _
    rw [hnameDcEnd, if_pos hskip]
    have hle := (skipWs_spec mem (sizeTo stop (start + pat.length)) (start + pat.length)).1
    exact hnameOther_eq hc hsize ((Nat.le_add_right _ _).trans hle) (no_colon_skipped htakes hpat _)

end Msicp.Headers
