import Msicp.Headers.HnameTaken

/-!
# When `parse_hname2` is right about a line

It is right about a line whose name is in the table in the form in which it
stands, unless control characters pass for a `-`, a `:` or a space.
-/

namespace Msicp.Headers

open Msicp.Support List Option
open Msicp.Avp (sameName)

variable {mem : Memory} {start stop c : ℕ} {hdr : HnameField}

/-- What the name before the `:` at `c` calls for; `cut` is what becomes of the
blanks behind the name. -/
structure HnameIs (cut : Bytes → Bytes) (mem : Memory) (start c : ℕ)
    (result : HnameField × Option ℕ) : Prop where
  type_iff : ∀ type ≠ HdrType.other, result.1.type = some type ↔
    ∃ n ∈ hnames type, sameName n (lineName mem start c)
  unknown : lineName mem start c ≠ [] →
    (∀ type, ∀ n ∈ hnames type, ¬sameName n (lineName mem start c)) →
      result.1.type = some .other
  name_s : result.1.s = some start
  name_len : result.1.len = (cut (lineText mem start c)).length
  next : result.2 = some (c + 1)

/-- `parse_hname2` reads the name of the line.  A line without a `:` has no
name, and no known type. -/
def HnameRead (cut : Bytes → Bytes) (mem : Memory) (start stop : ℕ) (hdr : HnameField) : Prop :=
  match qMemchr mem 58 (stop - start) start with
  | some c => HnameIs cut mem start c (parseHname2 mem start stop hdr)
  | none => ∀ type ≠ HdrType.other, (parseHname2 mem start stop hdr).1.type ≠ some type

/-- The line with its first `:` at `c` has no name that the table misses, no
tab behind a name that is compared with the next byte, no blank behind the `:`
of a name that is compared with it, and passes for no form but its own. -/
structure HnameClear (mem : Memory) (start stop c : ℕ) : Prop where
  long : start + 4 ≤ stop
  sought : ∀ n ∈ missedNames, ¬sameName n (lineName mem start c)
  no_tab : ∀ n ∈ closedNames ++ letterNames,
    sameName n.1 (lineName mem start c) → mem (start + n.1.length) ≠ 9
  no_overrun : NoOverrun mem start
  honest : ∀ r ∈ hnameForms, Claims mem start stop r → Honest mem start r

/-- The lines about which `parse_hname2` is right.  Without a `:` no form may
take the line. -/
def HnameRegular (mem : Memory) (start stop : ℕ) : Prop :=
  match qMemchr mem 58 (stop - start) start with
  | some c => HnameClear mem start stop c
  | none => start + 4 ≤ stop → NoOverrun mem start ∧ ∀ r ∈ hnameForms, ¬Claims mem start stop r

/-! ## Names and forms -/

variable {n : Bytes × HdrType}

/-- The name of a line that a form takes is the name of the form, if it is a
name at all. -/
theorem Taken.name {r : Row HnameCase} {rest : Bytes}
    (h : Taken mem start c hdr stop r n rest) {n' : Bytes}
    (hn' : ∀ x ∈ n', NameByte x) (hname : sameName n' (lineName mem start c)) :
    n' = n.1 ∧ Honest mem start r := by
  have hlower := (sameName_iff hn').mp hname
  obtain ⟨ws, hcut, hws⟩ := withoutWs_append (lineText mem start c)
  have hfold : n' ++ ws.map lowerByte = n.1 ++ rest.map lowerByte := by
    have htext := congrArg (List.map lowerByte) (hcut.symm.trans h.text)
    rw [map_append, map_append, h.fold] at htext
    rw [← htext, ← map_lowerByte_of_tolower hn' hlower]
    rfl
  obtain ⟨rfl, hrest⟩ := name_unique hn' (nameByte_of_sought h.sought)
    (fold_isWs hws) h.rest_fold hfold
  have hlen : (withoutWs (lineText mem start c)).length = n.1.length := by
    rw [← hlower, length_map]
    rfl
  obtain ⟨hbytes, rfl⟩ := append_inj (hcut.symm.trans h.text) (by rw [hlen, Memory.length_bytes])
  refine ⟨rfl, h.honest.mpr ⟨?_, hws⟩⟩
  rw [← hbytes]
  exact hlower

theorem Taken.sameName {r : Row HnameCase} {rest : Bytes}
    (h : Taken mem start c hdr stop r n rest) (hhonest : Honest mem start r) :
    sameName n.1 (lineName mem start c) := by
  obtain ⟨hlower, hws⟩ := h.honest.mp hhonest
  have hbytes := nameByte_of_sought h.sought
  rw [sameName_iff hbytes, lineName, h.text, withoutWs_eq hbytes hlower hws]
  exact hlower

/-- A form that takes the line says what the line is, unless it ends the search
behind another byte than the first `:`. -/
theorem taken_of_claims (hlong : start + 4 ≤ stop)
    (hc : FirstColon mem start stop c) (hno : NoOverrun mem start)
    {r : Row HnameCase} (hr : r ∈ hnameForms)
    (hclaims : Claims mem start stop r)
    (hnext : (parseHname2 mem start stop hdr).2 = some (c + 1) ∨ Honest mem start r) :
    ∃ n rest, Taken mem start c hdr stop r n rest := by
  rcases mem_hnameForms.mp hr with ⟨n, hn, rfl⟩ | ⟨test, n, hn, rfl | rfl⟩
  · exact ⟨n, taken_plain hn hlong hc hno hclaims⟩
  · obtain ⟨-, hptr, hcolon, htaken⟩ :=
      @taken_colon _ _ _ _ hdr _ _ hn hlong hc hno hclaims
    have hplace : c = start + n.1.length := by
      rcases hnext with hnext | hhonest
      · rw [hptr] at hnext
        have := some.inj hnext
        omega
      · exact hcolon hhonest
    exact ⟨n, [], htaken hplace⟩
  · exact ⟨n, taken_space hn hlong hc hno hclaims⟩

/-- A name that is compared with the blank behind its `:`: the search ends
behind that blank. -/
theorem parseHname2_overrun (hlong : start + 4 ≤ stop) {n : Bytes × HdrType}
    (hn : n ∈ overrunNames) (htakes : Takes mem start (overrunForm n).1) :
    (parseHname2 mem start stop hdr).1.type = some n.2 ∧ (FirstColon mem start stop c →
        (parseHname2 mem start stop hdr).2 ≠ some (c + 1)) := by
  have hresult := @parseHname2_returns _ _ _ hdr hlong _ _ _ (hnameSwitch_overrun hn htakes)
  rw [length_nameTests] at hresult
  refine ⟨by rw [hresult], fun hc hnext => ?_⟩
  rw [hresult] at hnext
  have hplace : start + (n.1 ++ [58, 32]).length = c + 1 :=
    some.inj hnext
  have hfold : (mem.bytes start (n.1 ++ [58, 32]).length).map lowerByte =
      n.1 ++ [58, 32] := takes_nameTests.mp htakes
  rw [show (n.1 ++ [58, 32] : Bytes).length = n.1.length + 1 + 1 by simp,
    Memory.bytes_add, map_append] at hfold
  have hlast := (append_inj' (hfold.trans (append_assoc n.1 [58] [32]).symm) (by simp)).2
  have hc32 : lowerByte (mem c) = 32 := by
    have hc' : start + (n.1.length + 1) = c := by
      simp only [List.length_append, length_cons, length_nil] at hplace
      omega
    simpa [Memory.bytes, hc'] using hlast
  rw [hc.colon] at hc32
  exact absurd hc32 (by decide)

theorem skipWs_eq {p size : ℕ} (hp : p ≤ c) (hlt : c < p + size)
    (hws : ∀ i, p ≤ i → i < c → isWs (mem i) = true)
    (hc : isWs (mem c) = false) : skipWs mem size p = c := by
  obtain ⟨hle, -, hall, hstop⟩ := skipWs_spec mem size p
  rcases Nat.lt_trichotomy (skipWs mem size p) c with h | h | h
  · have hblank := hws _ hle h
    rw [hstop (by omega)] at hblank
    exact absurd hblank (by decide)
  · exact h
  · rw [hall c hp h] at hc
    exact absurd hc (by decide)

/-- A name that is sought is taken by one of its forms. -/
theorem claims_of_name (hsize : stop < start + 2 ^ 32) (hc : FirstColon mem start stop c)
    (hn : n ∈ soughtNames) (hname : sameName n.1 (lineName mem start c))
    (htab : n ∈ closedNames ++ letterNames → mem (start + n.1.length) ≠ 9) :
    ∃ r ∈ hnameForms, Claims mem start stop r := by
  have hbytes := nameByte_of_sought hn
  have hlower := (sameName_iff hbytes).mp hname
  obtain ⟨ws, hcut, hws⟩ := withoutWs_append (lineText mem start c)
  have hlen : (lineName mem start c).length = n.1.length := by
    rw [← hlower, length_map]
  have hle : start + n.1.length ≤ c := by
    have htext := congrArg List.length hcut
    rw [lineText, Memory.length_bytes, List.length_append] at htext
    have hc' := hc.le
    change c - start = (lineName mem start c).length + ws.length at htext
    omega
  obtain ⟨hhead, hrest⟩ := append_inj ((lineText_cut hle).symm.trans hcut)
    (by rw [Memory.length_bytes]; exact hlen.symm)
  have hfold : (mem.bytes start n.1.length).map lowerByte = n.1 := by
    rw [hhead]
    exact map_lowerByte_of_tolower hbytes hlower
  have htakes : Takes mem start (nameTests n.1) := takes_nameTests.mpr hfold
  have hblank : ∀ i, start + n.1.length ≤ i → i < c → isWs (mem i) = true := by
    intro i hi hlt
    refine hws _ ?_
    rw [← hrest]
    exact Memory.mem_bytes.mpr ⟨i, hi, by omega, rfl⟩
  have hcolon : isWs (mem c) = false := by
    rw [hc.colon]
    rfl
  have hstop := hc.lt
  -- behind a pattern of `k` bytes the blanks reach to the first `:`
  have hskip : ∀ k, n.1.length ≤ k → start + k ≤ c →
      mem (skipWs mem (sizeTo stop (start + k)) (start + k)) = 58 := by
    intro k hk hkc
    rw [sizeTo_eq (by omega) (by omega), skipWs_eq hkc (by omega)
      (fun i hi => hblank i (by omega)) hcolon]
    exact hc.colon
  have hclosed : ∀ test, Closed test n → ∃ r ∈ hnameForms, Claims mem start stop r := by
    intro test htest
    rcases Nat.eq_or_lt_of_le hle with heq | hlt
    · refine ⟨colonForm test n, mem_hnameForms.mpr
        (.inr ⟨test, n, htest, .inl rfl⟩), takes_append.mpr ⟨htakes, ?_⟩, ?_⟩
      · rw [length_nameTests, heq]
        exact ⟨hc.colon.symm ▸ htest.holds (by decide), trivial⟩
      · rintro v ⟨⟩ hv
        exact absurd hv (by simp)
    · have h32 : mem (start + n.1.length) = 32 := by
        have hnine := htab (by
          rcases htest with ⟨h, -⟩ | ⟨h, -⟩
          · exact mem_append_left _ h
          · exact mem_append_right _ h)
        have hws' := hblank _ le_rfl hlt
        simpa [isWs, hnine] using hws'
      refine ⟨spaceForm test n, mem_hnameForms.mpr
        (.inr ⟨test, n, htest, .inr rfl⟩), takes_append.mpr ⟨htakes, ?_⟩, ?_⟩
      · rw [length_nameTests]
        exact ⟨h32.symm ▸ htest.holds (by decide), trivial⟩
      · rintro v - -
        rw [spaceForm, List.length_append, length_nameTests]
        exact hskip (n.1.length + 1) (by omega) hlt
  simp only [soughtNames, mem_append] at hn
  rcases hn with (hn | hn) | hn
  · refine ⟨plainForm n, mem_hnameForms.mpr (.inl ⟨n, hn, rfl⟩), htakes, ?_⟩
    rintro v - -
    rw [plainForm, length_nameTests]
    exact hskip n.1.length le_rfl hle
  · exact hclosed .folded (.inl ⟨hn, rfl⟩)
  · exact hclosed .exact (.inr ⟨hn, rfl⟩)

/-! ## Lines with a `:` -/

theorem sought_ne_other (hn : n ∈ soughtNames) : n.2 ≠ .other := by
  have h : ∀ n ∈ soughtNames, n.2 ≠ .other := by decide
  exact h n hn

/-- The search has ended behind the first `:`, so the text before it is the
slice of the name. -/
theorem slice_of_next (hsize : stop < start + 2 ^ 32) (hc : FirstColon mem start stop c)
    (hnext : (parseHname2 mem start stop hdr).2 = some (c + 1)) :
    start + 4 ≤ stop ∧ NoOverrun mem start ∧ (parseHname2 mem start stop hdr).1.s = some start ∧
      (parseHname2 mem start stop hdr).1.len = c - start := by
  have hlong : start + 4 ≤ stop := by
    by_contra hshort
    rw [parseHname2_short (by omega)] at hnext
    have hle := hc.le
    have := some.inj hnext
    omega
  have hno : NoOverrun mem start := fun n hn htakes =>
    (parseHname2_overrun hlong hn htakes).2 hc hnext
  refine ⟨hlong, hno, ?_⟩
  by_cases hclaims : ∃ r ∈ hnameForms, Claims mem start stop r
  · obtain ⟨r, hr, hclaims⟩ := hclaims
    obtain ⟨n, rest, htaken⟩ :=
      taken_of_claims hlong hc hno hr hclaims (.inl hnext)
    rw [htaken.result]
    exact ⟨rfl, rfl⟩
  · rw [parseHname2_other hlong hsize hc hno fun r hr h => hclaims ⟨r, hr, h⟩]
    exact ⟨rfl, rfl⟩

section HnameIs

variable {cut : Bytes → Bytes}

/-- A type that was read has been read from a form of the name. -/
theorem HnameIs.taken (hsize : stop < start + 2 ^ 32) (hc : FirstColon mem start stop c)
    (h : HnameIs cut mem start c (parseHname2 mem start stop hdr))
    {type : HdrType} {n : Bytes} (hn : n ∈ hnames type)
    (hname : sameName n (lineName mem start c)) :
    ∃ r rest, Taken mem start c hdr stop r (n, type) rest := by
  obtain ⟨hlong, hno, -⟩ := slice_of_next hsize hc h.next
  have hne : type ≠ .other := by
    rintro rfl
    simp [hnames] at hn
  have htype := (h.type_iff type hne).mpr ⟨n, hn, hname⟩
  by_cases hclaims : ∃ r ∈ hnameForms, Claims mem start stop r
  · obtain ⟨r, hr, hclaims⟩ := hclaims
    obtain ⟨m, rest, htaken⟩ :=
      taken_of_claims hlong hc hno hr hclaims (.inl h.next)
    obtain ⟨rfl, -⟩ := htaken.name (nameByte_of_hnames hn) hname
    rw [htaken.result] at htype
    obtain rfl : m.2 = type := some.inj htype
    exact ⟨r, rest, htaken⟩
  · rw [parseHname2_other hlong hsize hc hno fun r hr h => hclaims ⟨r, hr, h⟩] at htype
    exact absurd (some.inj htype).symm hne

theorem HnameIs.clear (hsize : stop < start + 2 ^ 32) (hc : FirstColon mem start stop c)
    (h : HnameIs cut mem start c (parseHname2 mem start stop hdr)) :
    HnameClear mem start stop c := by
  obtain ⟨hlong, hno, -⟩ := slice_of_next hsize hc h.next
  have hmissed : ∀ type, ∀ n ∈ hnames type, (n, type) ∉ soughtNames →
      ¬sameName n (lineName mem start c) := by
    intro type n hn hnot hname
    obtain ⟨r, rest, htaken⟩ := h.taken hsize hc hn hname
    exact hnot htaken.sought
  have hmisspelt : ¬sameName (ascii "acceptadisposition") (lineName mem start c) := by
    intro hname
    have hbytes : ∀ x ∈ ascii "acceptadisposition", NameByte x :=
      @nameByte_of_sought (ascii "acceptadisposition", .acceptdisposition) (by decide)
    obtain ⟨r, hr, hclaims⟩ := claims_of_name hsize hc
      (show (ascii "acceptadisposition", .acceptdisposition) ∈ soughtNames by
        decide) hname (fun hclosed => absurd hclosed (by decide))
    obtain ⟨m, rest, htaken⟩ :=
      taken_of_claims hlong hc hno hr hclaims (.inl h.next)
    obtain ⟨hm, -⟩ := htaken.name hbytes hname
    have hother := h.unknown (by
      intro hnil
      rw [hnil] at hname
      exact absurd hname (by decide)) (by
      intro type n hn hsame
      have heq : n = ascii "acceptadisposition" :=
        ((sameName_iff (nameByte_of_hnames hn)).mp hsame).symm.trans
          ((sameName_iff hbytes).mp hname)
      subst heq
      revert hn
      cases type <;> decide)
    rw [htaken.result] at hother
    exact sought_ne_other htaken.sought (some.inj hother)
  refine ⟨hlong, ?_, ?_, hno, ?_⟩
  · intro n hn
    simp only [missedNames, mem_cons, not_mem_nil, or_false] at hn
    rcases hn with rfl | rfl | rfl
    · exact hmissed .subject _ (by decide) (by decide)
    · exact hmissed .acceptdisposition _ (by decide) (by decide)
    · exact hmisspelt
  · intro n hn hname
    have hsought : n ∈ soughtNames := by
      rw [soughtNames, append_assoc]
      exact mem_append_right _ hn
    have hkept : ∀ n ∈ closedNames ++ letterNames, n.1 ∉ missedNames := by
      decide
    obtain ⟨r, rest, htaken⟩ :=
      h.taken hsize hc (hnames_of_sought hsought (hkept n hn)) hname
    exact htaken.no_tab hn
  · intro r hr hclaims
    obtain ⟨n, rest, htaken⟩ :=
      taken_of_claims hlong hc hno hr hclaims (.inl h.next)
    have htype : (parseHname2 mem start stop hdr).1.type = some n.2 := by
      rw [htaken.result]
    obtain ⟨n', hn', hname⟩ :=
      (h.type_iff n.2 (sought_ne_other htaken.sought)).mp htype
    exact (htaken.name (nameByte_of_hnames hn') hname).2

theorem HnameClear.is (hsize : stop < start + 2 ^ 32)
    (hc : FirstColon mem start stop c) (h : HnameClear mem start stop c) :
    HnameIs id mem start c (parseHname2 mem start stop hdr) := by
  have hlen : (id (lineText mem start c)).length = c - start :=
    Memory.length_bytes
  by_cases hclaims : ∃ r ∈ hnameForms, Claims mem start stop r
  · obtain ⟨r, hr, hclaims⟩ := hclaims
    have hhonest := h.honest r hr hclaims
    obtain ⟨n, rest, htaken⟩ := @taken_of_claims _ _ _ _ hdr h.long hc
      h.no_overrun r hr hclaims (.inr hhonest)
    have hsame := htaken.sameName hhonest
    have hn := hnames_of_sought htaken.sought fun hmiss =>
      h.sought n.1 hmiss hsame
    rw [htaken.result]
    refine ⟨fun type hne => ?_, fun _ hunknown => ?_, rfl, hlen.symm, rfl⟩
    · constructor
      · rintro ⟨⟩
        exact ⟨n.1, hn, hsame⟩
      · rintro ⟨n', hn', hname⟩
        obtain ⟨rfl, -⟩ := htaken.name (nameByte_of_hnames hn') hname
        exact congrArg some (type_unique htaken.sought hn')
    · exact absurd hsame (hunknown n.2 n.1 hn)
  · rw [parseHname2_other h.long hsize hc h.no_overrun fun r hr h => hclaims ⟨r, hr, h⟩]
    refine ⟨fun type hne => ?_, fun _ _ => rfl, rfl, hlen.symm, rfl⟩
    constructor
    · rintro ⟨⟩
      exact absurd rfl hne
    · rintro ⟨n, hn, hname⟩
      have hsought := sought_of_hnames hn fun hmiss => h.sought n hmiss hname
      exact absurd (claims_of_name hsize hc hsought hname
        fun hclosed => h.no_tab _ hclosed hname) hclaims

theorem HnameIs.of_cut (hsize : stop < start + 2 ^ 32) (hc : FirstColon mem start stop c)
    (h : HnameIs cut mem start c (parseHname2 mem start stop hdr)) :
    (cut (lineText mem start c)).length = (lineText mem start c).length := by
  rw [← h.name_len, (slice_of_next hsize hc h.next).2.2.2]
  exact Memory.length_bytes.symm

end HnameIs

/-! ## Lines without a `:` -/

theorem hnameOther_type {p : ℕ} {type : HdrType}
    (h : (hnameOther mem start stop hdr p).1.type = some type) :
    type = .other := by
  unfold hnameOther at h
  split at h
  · simp at h
  · exact (some.inj h).symm

theorem type_of_claims (hlong : start + 4 ≤ stop) (hno : NoOverrun mem start)
    {r : Row HnameCase} (hr : r ∈ hnameForms)
    (hclaims : Claims mem start stop r) :
    ∃ type ≠ HdrType.other, (parseHname2 mem start stop hdr).1.type = some type := by
  have hswitch := hnameSwitch_claims hno hr hclaims
  rcases mem_hnameForms.mp hr with ⟨n, hn, rfl⟩ | ⟨test, n, hn, rfl | rfl⟩
  · refine ⟨n.2, sought_ne_other ?_, ?_⟩
    · simp only [soughtNames, mem_append]
      exact .inl (.inl hn)
    · rw [parseHname2_dcEnd hlong hswitch rfl (hclaims.2 ⟨n.2, none⟩ rfl rfl)]
  · refine ⟨n.2, sought_ne_other hn.sought, ?_⟩
    rw [parseHname2_returns hlong hswitch]
  · refine ⟨n.2, sought_ne_other hn.sought, ?_⟩
    rw [parseHname2_dcEnd hlong hswitch rfl (hclaims.2 ⟨n.2, none⟩ rfl rfl)]

theorem no_type_iff : (∀ type ≠ HdrType.other,
      (parseHname2 mem start stop hdr).1.type ≠ some type) ↔
    (start + 4 ≤ stop → NoOverrun mem start ∧ ∀ r ∈ hnameForms, ¬Claims mem start stop r) := by
  constructor
  · intro h hlong
    have hno : NoOverrun mem start := by
      intro n hn htakes
      have hknown : ∀ n ∈ overrunNames, n.2 ≠ .other := by decide
      exact h n.2 (hknown n hn) (@parseHname2_overrun _ _ _ 0 _ hlong _ hn htakes).1
    refine ⟨hno, fun r hr hclaims => ?_⟩
    obtain ⟨type, hne, htype⟩ := @type_of_claims _ _ _ hdr hlong hno r hr hclaims
    exact h type hne htype
  · intro h type hne htype
    rcases Nat.lt_or_ge stop (start + 4) with hshort | hlong
    · rw [parseHname2_short hshort] at htype
      simp at htype
    · obtain ⟨hno, hnone⟩ := h hlong
      rw [parseHname2_long hlong] at htype
      rcases hnameSwitch_unclaimed hno hnone with ⟨p, hp, -⟩ |
        ⟨pat, type', hrow, -, -, hskip⟩
      · rw [hp] at htype
        exact hne (hnameOther_type htype)
      · rw [hrow] at htype
        change (hnameDcEnd mem start stop _ _).1.type = _ at htype
        rw [hnameDcEnd, if_pos hskip] at htype
        exact hne (hnameOther_type htype)

/-! ## All lines -/

/-- `parse_hname2` is right about the regular lines and about no other; and if
the blanks behind the name shall not belong to its slice, about those of them
that have none. -/
theorem parseHname2_read_iff (mem : Memory) (start stop : ℕ) (hdr : HnameField)
    (hsize : stop < start + 2 ^ 32) :
    (HnameRead id mem start stop hdr ↔ HnameRegular mem start stop) ∧
      (HnameRead withoutWs mem start stop hdr ↔ HnameRegular mem start stop ∧
          ∀ c ∈ qMemchr mem 58 (stop - start) start,
            withoutWs (lineText mem start c) = lineText mem start c) := by
  unfold HnameRead HnameRegular
  cases hfind : qMemchr mem 58 (stop - start) start with
  | none => simpa using no_type_iff
  | some c =>
    have hc := firstColon_of_qMemchr hfind
    refine ⟨⟨fun h => h.clear hsize hc, fun h => h.is hsize hc⟩, ?_, ?_⟩
    · intro h
      refine ⟨h.clear hsize hc, ?_⟩
      rintro c ⟨⟩
      exact ( rdropWhile_prefix isWs _).eq_of_length (h.of_cut hsize hc)
    · rintro ⟨h, hblank⟩
      have his := @HnameClear.is _ _ _ _ hdr hsize hc h
      exact { his with
        name_len := by
          rw [hblank c rfl]
          exact his.name_len }

/-- A text at the address 0. -/
def textMem (text : String) : Memory := fun i => (ascii text).getD i 0

instance (r : Row HnameCase) : Decidable (Claims mem start stop r) := by
  unfold Claims
  infer_instance

instance (r : Row HnameCase) : Decidable (Honest mem start r) := by
  unfold Honest
  infer_instance

/-- An ordinary line. -/
theorem parseHname2_read_callId :
    HnameRead withoutWs (textMem "Call-ID: 1") 0 10 ⟨none, none, 0⟩ := by
  refine (parseHname2_read_iff (textMem "Call-ID: 1") 0 10 ⟨none, none, 0⟩
    (by decide)).2.mpr ⟨?_, ?_⟩
  · have hfind : qMemchr (textMem "Call-ID: 1") 58 (10 - 0) 0 = some 7 := by
      decide
    rw [HnameRegular, hfind]
    exact ⟨by decide, by decide, by decide,
      by unfold NoOverrun; decide, by decide⟩
  · have hfind : qMemchr (textMem "Call-ID: 1") 58 (10 - 0) 0 = some 7 := by
      decide
    rw [hfind]
    rintro c ⟨⟩
    decide

/-- With a tab behind its name a Via header is some other header, however the
blanks behind the name are counted. -/
theorem parseHname2_via_tab :
    parseHname2 (textMem "Via\t: a") 0 7 ⟨none, none, 0⟩ = (⟨some .other, some 0, 4⟩, some 5) ∧
      ¬HnameRead id (textMem "Via\t: a") 0 7 ⟨none, none, 0⟩ ∧
      ¬HnameRead withoutWs (textMem "Via\t: a") 0 7 ⟨none, none, 0⟩ := by
  have hrun : parseHname2 (textMem "Via\t: a") 0 7 ⟨none, none, 0⟩ =
      (⟨some .other, some 0, 4⟩, some 5) := by decide
  have hfind : qMemchr (textMem "Via\t: a") 58 (7 - 0) 0 = some 4 := by decide
  have hnot : ∀ cut, ¬HnameRead cut (textMem "Via\t: a") 0 7 ⟨none, none, 0⟩ := by
    intro cut h
    rw [HnameRead, hfind] at h
    have htype := (h.type_iff .via (by decide)).mpr ⟨ascii "via", by decide, by decide⟩
    rw [hrun] at htype
    exact absurd htype (by decide)
  exact ⟨hrun, hnot id, hnot withoutWs⟩

end Msicp.Headers
