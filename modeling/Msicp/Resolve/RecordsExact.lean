import Msicp.Resolve.RecordList

/-!
# When `get_record` finds all answers

What the format says about a response is compared with what the parsers accept.  They
want a byte behind an address, and the list has no place for a record that they do not
know.
-/

namespace Msicp.Resolve

open Msicp.Support List Option

variable {resp : Bytes} {dnExpand : DnExpand} {memory : Memory}

/-! ## The format -/

/-- A domain name at `p` ends at `q`: labels, and the root or a pointer. -/
inductive NameEnd (resp : Bytes) : ℕ → ℕ → Prop
  | root {p : ℕ} : resp[p]? = some 0 → NameEnd resp p (p + 1)
  | pointer {p : ℕ} {b : UInt8} : resp[p]? = some b → b ≠ 0 → b &&& 0xc0 = 0xc0 →
      NameEnd resp p (p + 2)
  | label {p q : ℕ} {b : UInt8} : resp[p]? = some b → b ≠ 0 → ¬b &&& 0xc0 = 0xc0 →
      NameEnd resp (p + b.toNat + 1) q → NameEnd resp p q

/-- `n` bytes of the response. -/
def slice (resp : Bytes) (p n : ℕ) : Option Bytes :=
  if p + n ≤ resp.length then some ((resp.drop p).take n) else none

/-- A domain name that begins in the response. -/
def nameAt (resp : Bytes) (dnExpand : DnExpand) (p : ℕ) : Option (Bytes × ℕ) :=
  if p < resp.length then dnExpand resp p else none

/-- The rdata of a type at `p`, and how long it is. -/
def rdataAt (resp : Bytes) (dnExpand : DnExpand) (rtype p : ℕ) : Option (Rdata × ℕ) :=
  match RType.ofNumber rtype with
  | .srv => do
      let priority ← slice resp p 2
      let weight ← slice resp (p + 2) 2
      let port ← slice resp (p + 4) 2
      let (name, len) ← nameAt resp dnExpand (p + 6)
      return (.srv (ntoh priority) (ntoh weight) (ntoh port) name, 6 + len)
  | .a => do
      let ip ← slice resp p 4
      return (.a ip, 4)
  | .aaaa => do
      let ip6 ← slice resp p 16
      return (.aaaa ip6, 16)
  | .cname => do
      let (name, len) ← nameAt resp dnExpand p
      return (.cname name, len)
  | .naptr => do
      let order ← slice resp p 2
      let pref ← slice resp (p + 2) 2
      let f ← ntoh <$> slice resp (p + 4) 1
      let flags ← slice resp (p + 5) f
      let s ← ntoh <$> slice resp (p + 5 + f) 1
      let services ← slice resp (p + 6 + f) s
      let e ← ntoh <$> slice resp (p + 6 + f + s) 1
      let regexp ← slice resp (p + 7 + f + s) e
      let (repl, len) ← nameAt resp dnExpand (p + 7 + f + s + e)
      return (.naptr (ntoh order) (ntoh pref) flags services regexp repl,
        7 + f + s + e + len)
  | .unknown => some (.null, 0)

/-- The type of an address. -/
def IsAddress (rtype : ℕ) : Prop :=
  RType.ofNumber rtype = .a ∨ RType.ofNumber rtype = .aaaa

/-! ## The parsers -/

theorem slice_of_le {p n : ℕ} (h : p + n ≤ resp.length) :
    slice resp p n = some ((resp.drop p).take n) := if_pos h

theorem readBytes_of_le {p n : ℕ} (h : p + n ≤ resp.length) :
    readBytes resp p n = .ok ((resp.drop p).take n) := if_pos h

theorem expandName_eq {p : ℕ} (h : p < resp.length) :
    expandName resp dnExpand p = match nameAt resp dnExpand p with
      | none => .error .error
      | some (name, _) => .ok name := by
  unfold expandName nameAt
  cases dnExpand resp p with
  | none => simp only [if_pos h]
  | some name => simp only [if_pos h]

theorem dnsSrvParser_eq {rtype p : ℕ} (htype : RType.ofNumber rtype = .srv) :
    dnsSrvParser resp dnExpand p = match rdataAt resp dnExpand rtype p with
      | none => .error .error
      | some (rdata, _) => .ok rdata := by
  unfold dnsSrvParser rdataAt
  rw [htype]
  dsimp only
  by_cases h : resp.length ≤ p + 6
  · have hname : nameAt resp dnExpand (p + 6) = none := if_neg (by omega)
    rw [if_pos h, hname]
    cases slice resp p 2 with
    | none => rfl
    | some priority =>
      cases slice resp (p + 2) 2 with
      | none => rfl
      | some weight =>
        cases slice resp (p + 4) 2 with
        | none => rfl
        | some port => rfl
  · rw [if_neg h, readBytes_of_le (by omega), readBytes_of_le (by omega),
      readBytes_of_le (by omega), slice_of_le (by omega), slice_of_le (by omega),
      slice_of_le (by omega), expandName_eq (by omega)]
    cases nameAt resp dnExpand (p + 6) with
    | none => rfl
    | some name => rfl

theorem nameAt_of_le {p : ℕ} (h : resp.length ≤ p) : nameAt resp dnExpand p = none :=
  if_neg (by omega)

theorem dnsNaptrParser_eq {rtype p : ℕ} (htype : RType.ofNumber rtype = .naptr) :
    dnsNaptrParser resp dnExpand p = match rdataAt resp dnExpand rtype p with
      | none => .error .error
      | some (rdata, _) => .ok rdata := by
  unfold dnsNaptrParser rdataAt
  rw [htype]
  dsimp only
  by_cases h : resp.length ≤ p + 7
  · rw [if_pos h]
    have hnone : ∀ f s e, nameAt resp dnExpand (p + 7 + f + s + e) = none :=
      fun f s e => nameAt_of_le (by omega)
    simp only [hnone, bind_eq_bind, bind_none, bind_fun_none]
  rw [if_neg h, readBytes_of_le (by omega), readBytes_of_le (by omega),
    readBytes_of_le (by omega), slice_of_le (by omega), slice_of_le (by omega),
    slice_of_le (by omega)]
  obtain ⟨f, hf⟩ : ∃ f, f = ntoh ((resp.drop (p + 4)).take 1) := ⟨_, rfl⟩
  simp only [bind, Except.bind, Functor.map, Except.map, map_some, bind_some, ← hf]
  by_cases hflags : resp.length ≤ p + 7 + f
  · rw [if_pos hflags]
    have hnone : ∀ s e, nameAt resp dnExpand (p + 7 + f + s + e) = none :=
      fun s e => nameAt_of_le (by omega)
    simp only [hnone, bind_none, bind_fun_none]
    rfl
  rw [if_neg hflags]
  simp only [pure, Except.pure]
  rw [readBytes_of_le (by omega), readBytes_of_le (by omega), slice_of_le (by omega),
    slice_of_le (by omega)]
  obtain ⟨e, he⟩ : ∃ e, e = ntoh ((resp.drop (p + 5 + f)).take 1) := ⟨_, rfl⟩
  simp only [bind_some, map_some, ← he]
  by_cases hservices : resp.length ≤ p + 7 + f + e
  · rw [if_pos hservices]
    have hnone : ∀ g, nameAt resp dnExpand (p + 7 + f + e + g) = none :=
      fun g => nameAt_of_le (by omega)
    simp only [hnone, bind_none, bind_fun_none]
    rfl
  rw [if_neg hservices, readBytes_of_le (by omega), readBytes_of_le (by omega),
    slice_of_le (by omega),
    slice_of_le (by omega)]
  obtain ⟨g, hg⟩ : ∃ g, g = ntoh ((resp.drop (p + 6 + f + e)).take 1) := ⟨_, rfl⟩
  simp only [bind_some, map_some, ← hg]
  by_cases hregexp : resp.length ≤ p + 7 + f + e + g
  · rw [if_pos hregexp, nameAt_of_le hregexp]
    simp only [bind_none, bind_fun_none]
    rfl
  rw [if_neg hregexp, readBytes_of_le (by omega), slice_of_le (by omega), expandName_eq (by omega)]
  cases nameAt resp dnExpand (p + 7 + f + e + g) with
  | none => rfl
  | some name => rfl

/-- The parsers of the addresses want a byte behind them. -/
def Room (resp : Bytes) (rtype p len : ℕ) : Prop := IsAddress rtype → p + len < resp.length

theorem dnsAParser_eq (resp : Bytes) (p : ℕ) :
    dnsAParser resp p = if p + 4 < resp.length then .ok (.a ((resp.drop p).take 4))
      else .error .error := by
  unfold dnsAParser
  by_cases h : p + 4 < resp.length
  · rw [if_neg (by omega), if_pos h, readBytes_of_le (by omega)]
    rfl
  · rw [if_pos (by omega), if_neg h]

theorem dnsAaaaParser_eq (resp : Bytes) (p : ℕ) :
    dnsAaaaParser resp p = if p + 16 < resp.length then .ok (.aaaa ((resp.drop p).take 16))
      else .error .error := by
  unfold dnsAaaaParser
  by_cases h : p + 16 < resp.length
  · rw [if_neg (by omega), if_pos h, readBytes_of_le (by omega)]
    rfl
  · rw [if_pos (by omega), if_neg h]

/-- A parser finds what the format says, or fails. -/
theorem parseRdata_eq {rtype p : ℕ} (h : p < resp.length) :
    (∃ rdata len, rdataAt resp dnExpand rtype p = some (rdata, len) ∧
      Room resp rtype p len ∧ parseRdata resp dnExpand rtype p = .ok rdata) ∨
    (∀ rdata len, rdataAt resp dnExpand rtype p = some (rdata, len) →
      ¬Room resp rtype p len) ∧ parseRdata resp dnExpand rtype p = .error .error := by
  have haddress : ∀ t, RType.ofNumber rtype = t → t ≠ .a → t ≠ .aaaa → ¬IsAddress rtype := by
    rintro t ht ha haaaa (h | h)
    · exact ha (ht.symm.trans h)
    · exact haaaa (ht.symm.trans h)
  have hparser : ∀ t, RType.ofNumber rtype = t → t ≠ .a → t ≠ .aaaa →
      (parseRdata resp dnExpand rtype p = match rdataAt resp dnExpand rtype p with
        | none => .error .error
        | some (rdata, _) => .ok rdata) →
      (∃ rdata len, rdataAt resp dnExpand rtype p = some (rdata, len) ∧
        Room resp rtype p len ∧ parseRdata resp dnExpand rtype p = .ok rdata) ∨
      (∀ rdata len, rdataAt resp dnExpand rtype p = some (rdata, len) →
        ¬Room resp rtype p len) ∧ parseRdata resp dnExpand rtype p = .error .error := by
    intro t ht ha haaaa hparse
    cases hat : rdataAt resp dnExpand rtype p with
    | none =>
      rw [hat] at hparse
      refine Or.inr ⟨fun rdata len hsome => ?_, hparse⟩
      cases hsome
    | some r =>
      rw [hat] at hparse
      exact Or.inl ⟨r.1, r.2, rfl, fun hr => absurd hr (haddress t ht ha haaaa), hparse⟩
  cases htype : RType.ofNumber rtype with
  | srv =>
    refine hparser .srv htype (by decide) (by decide) ?_
    rw [← dnsSrvParser_eq htype, parseRdata, htype]
  | naptr =>
    refine hparser .naptr htype (by decide) (by decide) ?_
    rw [← dnsNaptrParser_eq htype, parseRdata, htype]
  | cname =>
    refine hparser .cname htype (by decide) (by decide) ?_
    rw [parseRdata, rdataAt, htype]
    dsimp only
    rw [dnsCnameParser, expandName_eq h]
    cases nameAt resp dnExpand p with
    | none => rfl
    | some name => rfl
  | unknown =>
    refine hparser .unknown htype (by decide) (by decide) ?_
    rw [parseRdata, rdataAt, htype]
  | a =>
    have hparse : parseRdata resp dnExpand rtype p = dnsAParser resp p := by
      rw [parseRdata, htype]
    have hat : rdataAt resp dnExpand rtype p = (slice resp p 4).map fun ip => (.a ip, 4) := by
      rw [rdataAt, htype]
      dsimp only
      cases slice resp p 4 with
      | none => rfl
      | some ip => rfl
    rw [hparse, dnsAParser_eq, hat]
    by_cases hroom : p + 4 < resp.length
    · rw [if_pos hroom, slice_of_le hroom.le]
      exact Or.inl ⟨_, _, rfl, fun _ => hroom, rfl⟩
    · rw [if_neg hroom]
      refine Or.inr ⟨fun rdata len hsome hr => ?_, rfl⟩
      obtain ⟨ip, -, hip⟩ := map_eq_some_iff.mp hsome
      obtain ⟨-, rfl⟩ := Prod.mk.inj hip
      exact hroom (hr (Or.inl htype))
  | aaaa =>
    have hparse : parseRdata resp dnExpand rtype p = dnsAaaaParser resp p := by
      rw [parseRdata, htype]
    have hat : rdataAt resp dnExpand rtype p =
        (slice resp p 16).map fun ip6 => (.aaaa ip6, 16) := by
      rw [rdataAt, htype]
      dsimp only
      cases slice resp p 16 with
      | none => rfl
      | some ip6 => rfl
    rw [hparse, dnsAaaaParser_eq, hat]
    by_cases hroom : p + 16 < resp.length
    · rw [if_pos hroom, slice_of_le hroom.le]
      exact Or.inl ⟨_, _, rfl, fun _ => hroom, rfl⟩
    · rw [if_neg hroom]
      refine Or.inr ⟨fun rdata len hsome hr => ?_, rfl⟩
      obtain ⟨ip6, -, hip6⟩ := map_eq_some_iff.mp hsome
      obtain ⟨-, rfl⟩ := Prod.mk.inj hip6
      exact hroom (hr (Or.inr htype))

/-! ## Names -/

theorem notAtEnd_eq_some {p q : ℕ} : notAtEnd resp p = some q ↔ p = q ∧ q < resp.length := by
  unfold notAtEnd
  split_ifs with h
  · constructor
    · intro hnone
      cases hnone
    · rintro ⟨rfl, hlt⟩
      omega
  · constructor
    · intro hsome
      obtain rfl := some.inj hsome
      exact ⟨rfl, not_le.mp h⟩
    · rintro ⟨rfl, -⟩
      rfl

theorem NameEnd.lt {p q : ℕ} (h : NameEnd resp p q) : p < resp.length := by
  cases h with
  | root hb => exact (List.getElem?_eq_some_iff.mp hb).1
  | pointer hb => exact (List.getElem?_eq_some_iff.mp hb).1
  | label hb => exact (List.getElem?_eq_some_iff.mp hb).1

theorem NameEnd.lt_end {p q : ℕ} (h : NameEnd resp p q) : p < q := by
  induction h with
  | root => omega
  | pointer => omega
  | label => omega

theorem NameEnd.unique {p q q' : ℕ} (h : NameEnd resp p q) (h' : NameEnd resp p q') : q = q' := by
  induction h with
  | root hb =>
    cases h' with
    | root => rfl
    | pointer hb' hne => exact absurd (some.inj (hb'.symm.trans hb)) hne
    | label hb' hne => exact absurd (some.inj (hb'.symm.trans hb)) hne
  | pointer hb hne hmask =>
    cases h' with
    | root hb' => exact absurd (some.inj (hb.symm.trans hb')) hne
    | pointer => rfl
    | label hb' _ hmask' =>
      obtain rfl := some.inj (hb.symm.trans hb')
      exact absurd hmask hmask'
  | label hb hne hmask _ ih =>
    cases h' with
    | root hb' => exact absurd (some.inj (hb.symm.trans hb')) hne
    | pointer hb' _ hmask' =>
      obtain rfl := some.inj (hb.symm.trans hb')
      exact absurd hmask' hmask
    | label hb' _ _ hrest =>
      obtain rfl := some.inj (hb.symm.trans hb')
      exact ih hrest

theorem dnsSkipname_eq_some {p q : ℕ} :
    dnsSkipname resp p = some q ↔ NameEnd resp p q ∧ q < resp.length := by
  fun_induction dnsSkipname resp p with
  | case1 p h b hb =>
    have hget : resp[p]? = some 0 := by
      rw [getElem?_eq_getElem h]
      exact congrArg some hb
    rw [notAtEnd_eq_some]
    constructor
    · rintro ⟨rfl, hlt⟩
      exact ⟨.root hget, hlt⟩
    · rintro ⟨hname, hlt⟩
      exact ⟨(NameEnd.root hget).unique hname, hlt⟩
  | case2 p h b hb hmask =>
    have hget : resp[p]? = some b := getElem?_eq_getElem h
    rw [notAtEnd_eq_some]
    constructor
    · rintro ⟨rfl, hlt⟩
      exact ⟨.pointer hget hb hmask, hlt⟩
    · rintro ⟨hname, hlt⟩
      exact ⟨(NameEnd.pointer hget hb hmask).unique hname, hlt⟩
  | case3 p h b hb hmask ih =>
    have hget : resp[p]? = some b := getElem?_eq_getElem h
    rw [ih]
    constructor
    · rintro ⟨hname, hlt⟩
      exact ⟨.label hget hb hmask hname, hlt⟩
    · rintro ⟨hname, hlt⟩
      refine ⟨?_, hlt⟩
      cases hname with
      | root hb' => exact absurd (some.inj (hget.symm.trans hb')) hb
      | pointer hb' _ hmask' =>
        obtain rfl := some.inj (hget.symm.trans hb')
        exact absurd hmask' hmask
      | label hb' _ _ hrest =>
        obtain rfl := some.inj (hget.symm.trans hb')
        exact hrest
  | case4 p h =>
    constructor
    · intro hnone
      cases hnone
    · rintro ⟨hname, -⟩
      exact absurd hname.lt h

/-! ## Answers -/

/-- The number in `n` bytes. -/
def numberAt (resp : Bytes) (p n : ℕ) : ℕ := ntoh ((resp.drop p).take n)

/-- The answer `r` of a response, at `p`: its name ends at `q`, and its rdata is
`len` bytes long. -/
structure AnswerAt (resp : Bytes) (dnExpand : DnExpand) (memory : Memory) (r p : ℕ)
    (cell : RdataCell) (q len : ℕ) : Prop where
  name : NameEnd resp p q
  header : q + 10 ≤ resp.length
  r_eq : cell.r = r
  type_eq : cell.type = numberAt resp q 2
  class_eq : cell.class_ = numberAt resp (q + 2) 2
  ttl_eq : cell.ttl = numberAt resp (q + 4) 4
  fresh_eq : memory r = some cell.fresh
  rdata_eq : rdataAt resp dnExpand cell.type (q + 10) = some (cell.rdata, len)

/-- Where the answer after it begins. -/
def nextAnswer (resp : Bytes) (q : ℕ) : ℕ := q + 10 + numberAt resp (q + 8) 2

/-- An answer that `get_record` reads: something stands behind its fields, and behind
an address. -/
structure ReadAt (resp : Bytes) (dnExpand : DnExpand) (memory : Memory) (r p : ℕ)
    (cell : RdataCell) (q len : ℕ) : Prop extends
    AnswerAt resp dnExpand memory r p cell q len where
  behind : q + 10 < resp.length
  room : Room resp cell.type (q + 10) len

theorem AnswerAt.unique {r p q q' len len' : ℕ} {cell cell' : RdataCell}
    (h : AnswerAt resp dnExpand memory r p cell q len)
    (h' : AnswerAt resp dnExpand memory r p cell' q' len') :
    cell = cell' ∧ q = q' ∧ len = len' := by
  obtain ⟨cr, ctype, cclass, cttl, crdata, cfresh⟩ := cell
  obtain ⟨cr', ctype', cclass', cttl', crdata', cfresh'⟩ := cell'
  obtain rfl := h.name.unique h'.name
  obtain rfl : cr = cr' := h.r_eq.trans h'.r_eq.symm
  obtain rfl : ctype = ctype' := h.type_eq.trans h'.type_eq.symm
  obtain rfl : cclass = cclass' := h.class_eq.trans h'.class_eq.symm
  obtain rfl : cttl = cttl' := h.ttl_eq.trans h'.ttl_eq.symm
  obtain rfl : cfresh = cfresh' := some.inj (h.fresh_eq.symm.trans h'.fresh_eq)
  have hrdata := some.inj (h.rdata_eq.symm.trans h'.rdata_eq)
  obtain ⟨rfl, rfl⟩ := Prod.mk.inj hrdata
  exact ⟨rfl, rfl, rfl⟩

/-- `readAnswer` reads an answer, or fails where there is none that it reads. -/
theorem readAnswer_spec (resp : Bytes) (dnExpand : DnExpand) (memory : Memory) (r p : ℕ) :
    (∃ cell q len, ReadAt resp dnExpand memory r p cell q len ∧
      readAnswer resp dnExpand memory r p = .ok (cell, nextAnswer resp q)) ∨
    (∀ cell q len, ¬ReadAt resp dnExpand memory r p cell q len) ∧
      readAnswer resp dnExpand memory r p = .error .error := by
  unfold readAnswer
  cases hname : dnsSkipname resp p with
  | none =>
    refine Or.inr ⟨fun cell q len h => ?_, rfl⟩
    have hsome := dnsSkipname_eq_some.mpr ⟨h.name, by have hq := h.behind; omega⟩
    rw [hname] at hsome
    cases hsome
  | some q =>
    obtain ⟨hend, -⟩ := dnsSkipname_eq_some.mp hname
    dsimp only
    by_cases hbehind : q + 10 < resp.length
    · rw [if_neg (by omega), readBytes_of_le (by omega), readBytes_of_le (by omega),
        readBytes_of_le (by omega), readBytes_of_le (by omega)]
      simp only [bind, Except.bind, Functor.map, Except.map]
      cases hfresh : memory r with
      | none =>
        refine Or.inr ⟨fun cell q len h => ?_, rfl⟩
        have hsome := h.fresh_eq
        rw [hfresh] at hsome
        cases hsome
      | some fresh =>
        dsimp only
        rcases @parseRdata_eq resp dnExpand (numberAt resp q 2) (q + 10) hbehind with
          ⟨rdata, len, hat, hroom, hparse⟩ | ⟨hnone, hparse⟩
        · rw [numberAt] at hparse
          rw [hparse]
          exact Or.inl ⟨⟨r, numberAt resp q 2, numberAt resp (q + 2) 2, numberAt resp (q + 4) 4,
            rdata, fresh⟩, q, len, ⟨⟨hend, hbehind.le, rfl, rfl, rfl, rfl, hfresh, hat⟩, hbehind,
            hroom⟩, rfl⟩
        · rw [numberAt] at hparse
          rw [hparse]
          refine Or.inr ⟨fun cell q' len h => ?_, rfl⟩
          obtain rfl := hend.unique h.name
          have hat := h.rdata_eq
          have hroom := h.room
          rw [h.type_eq] at hat hroom
          exact hnone _ _ hat hroom
    · rw [if_pos (by omega)]
      refine Or.inr ⟨fun cell q' len h => ?_, rfl⟩
      obtain rfl := hend.unique h.name
      exact hbehind h.behind

/-! ## The answer section -/

/-- Answers that are read one after the other from `p` on. -/
inductive Front (resp : Bytes) (dnExpand : DnExpand) (memory : Memory) :
    ℕ → ℕ → ℕ → List RdataCell → Prop
  | stop {n r p : ℕ} : Front resp dnExpand memory n r p []
  | answer {n r p q len : ℕ} {cell : RdataCell} {cells : List RdataCell} :
      ReadAt resp dnExpand memory r p cell q len →
      Front resp dnExpand memory n (r + 1) (nextAnswer resp q) cells →
      Front resp dnExpand memory (n + 1) r p (cell :: cells)

/-- All `n` answers from `p` on, or those in front of the end of the response. -/
inductive Answers (resp : Bytes) (dnExpand : DnExpand) (memory : Memory) :
    ℕ → ℕ → ℕ → List RdataCell → Prop
  | done {r p : ℕ} : Answers resp dnExpand memory 0 r p []
  | past {n r p : ℕ} : resp.length ≤ p → Answers resp dnExpand memory (n + 1) r p []
  | answer {n r p q len : ℕ} {cell : RdataCell} {cells : List RdataCell} :
      ReadAt resp dnExpand memory r p cell q len →
      Answers resp dnExpand memory n (r + 1) (nextAnswer resp q) cells →
      Answers resp dnExpand memory (n + 1) r p (cell :: cells)

variable {n r p : ℕ} {cells : List RdataCell}

theorem Front.le (h : Front resp dnExpand memory n r p cells) : ∀ c ∈ cells, r ≤ c.r := by
  induction h with
  | stop =>
    intro c hc
    cases hc
  | answer hread _ ih =>
    intro c hc
    rcases mem_cons.mp hc with rfl | hc
    · exact hread.r_eq.ge
    · have hle := ih c hc
      omega

theorem Front.nodup (h : Front resp dnExpand memory n r p cells) :
    (cells.map RdataCell.r).Nodup := by
  induction h with
  | stop => exact nodup_nil
  | answer hread hrest ih =>
    refine nodup_cons.mpr ⟨?_, ih⟩
    intro hmem
    obtain ⟨c, hc, heq⟩ := List.mem_map.mp hmem
    have hle := hrest.le c hc
    have hr := hread.r_eq
    omega

/-- The loop reads the longest front of the answers, and puts it into the list. -/
theorem answersLoop_spec (resp : Bytes) (dnExpand : DnExpand) (memory : Memory) (n r p : ℕ) :
    ∃ cells, Front resp dnExpand memory n r p cells ∧
      (∀ cells', Front resp dnExpand memory n r p cells' → cells' <+: cells) ∧
      (Answers resp dnExpand memory n r p cells ∧ (∀ l, answersLoop resp dnExpand memory n r p l =
            (cells.foldlM RecordList.link l).map RecordList.head) ∨
        (∀ cells', ¬Answers resp dnExpand memory n r p cells') ∧
          ∀ l, answersLoop resp dnExpand memory n r p l =
            (cells.foldlM RecordList.link l).bind fun _ => .error .error) := by
  induction n generalizing r p with
  | zero =>
    refine ⟨[], .stop, ?_, Or.inl ⟨.done, fun l => rfl⟩⟩
    intro cells' h
    cases h
    exact prefix_refl _
  | succ n ih =>
    by_cases hpast : resp.length ≤ p
    · refine ⟨[], .stop, ?_, Or.inl ⟨.past hpast, ?_⟩⟩
      · intro cells' h
        cases h with
        | stop => exact prefix_refl _
        | answer hread => exact absurd hread.name.lt (by omega)
      · intro l
        rw [answersLoop, if_pos hpast]
        rfl
    · rcases readAnswer_spec resp dnExpand memory r p with
        ⟨cell, q, len, hread, hanswer⟩ | ⟨hnone, hanswer⟩
      · have hloop : ∀ l, answersLoop resp dnExpand memory (n + 1) r p l =
            (l.link cell).bind fun l =>
              answersLoop resp dnExpand memory n (r + 1) (nextAnswer resp q) l := by
          intro l
          rw [answersLoop, if_neg hpast, hanswer]
          rfl
        obtain ⟨cells, hfront, hlongest, hend⟩ := ih (r + 1) (nextAnswer resp q)
        refine ⟨cell :: cells, .answer hread hfront, ?_, ?_⟩
        · intro cells' h
          cases h with
          | stop => exact nil_prefix
          | answer hread' hfront' =>
            obtain ⟨rfl, rfl, -⟩ := hread.toAnswerAt.unique hread'.toAnswerAt
            exact cons_prefix_cons.mpr ⟨rfl, hlongest _ hfront'⟩
        · rcases hend with ⟨hanswers, hrest⟩ | ⟨hnone, hrest⟩
          · refine Or.inl ⟨.answer hread hanswers, fun l => ?_⟩
            rw [hloop, foldlM_cons]
            cases l.link cell with
            | error f => rfl
            | ok l' => exact hrest l'
          · refine Or.inr ⟨fun cells' h => ?_, fun l => ?_⟩
            · cases h with
              | past hp => exact hpast hp
              | answer hread' hanswers' =>
                obtain ⟨rfl, rfl, -⟩ := hread.toAnswerAt.unique hread'.toAnswerAt
                exact hnone _ hanswers'
            · rw [hloop, foldlM_cons]
              cases l.link cell with
              | error f => rfl
              | ok l' => exact hrest l'
      · refine ⟨[], .stop, ?_, Or.inr ⟨?_, ?_⟩⟩
        · intro cells' h
          cases h with
          | stop => exact prefix_refl _
          | answer hread => exact absurd hread (hnone _ _ _)
        · intro cells' h
          cases h with
          | past hp => exact hpast hp
          | answer hread => exact absurd hread (hnone _ _ _)
        · intro l
          rw [answersLoop, if_neg hpast, hanswer]
          rfl

/-! ## The question section -/

/-- `n` questions from `p` on end at `e`. -/
inductive QuestionsEnd (resp : Bytes) : ℕ → ℕ → ℕ → Prop
  | done {p : ℕ} : QuestionsEnd resp 0 p p
  | question {n p q e : ℕ} : NameEnd resp p q → QuestionsEnd resp n (q + 4) e →
      QuestionsEnd resp (n + 1) p e

theorem QuestionsEnd.unique {e e' : ℕ} (h : QuestionsEnd resp n p e)
    (h' : QuestionsEnd resp n p e') : e = e' := by
  induction h with
  | done =>
    cases h'
    rfl
  | question hname _ ih =>
    cases h' with
    | question hname' hrest' =>
      obtain rfl := hname.unique hname'
      exact ih hrest'

theorem QuestionsEnd.le {e : ℕ} (h : QuestionsEnd resp n p e) : p ≤ e := by
  induction h with
  | done => exact Nat.le_refl _
  | question hname _ ih =>
    have hlt := hname.lt_end
    omega

theorem skipQuestions_spec {p : ℕ} (hp : p < resp.length) :
    (∃ e, QuestionsEnd resp n p e ∧ e < resp.length ∧ skipQuestions resp n p = .ok e) ∨
    (∀ e, QuestionsEnd resp n p e → ¬e < resp.length) ∧ skipQuestions resp n p = .error .error := by
  induction n generalizing p with
  | zero => exact Or.inl ⟨p, .done, hp, rfl⟩
  | succ n ih =>
    unfold skipQuestions
    cases hskip : dnsSkipname resp p with
    | none =>
      refine Or.inr ⟨fun e h he => ?_, rfl⟩
      cases h with
      | question hname hrest =>
        have hle := hrest.le
        have hsome := dnsSkipname_eq_some.mpr ⟨hname, by omega⟩
        rw [hskip] at hsome
        cases hsome
    | some q =>
      obtain ⟨hname, -⟩ := dnsSkipname_eq_some.mp hskip
      dsimp only
      by_cases hq : q + 4 < resp.length
      · rw [if_neg (by omega)]
        rcases ih hq with ⟨e, hrest, he, hok⟩ | ⟨hnone, herror⟩
        · exact Or.inl ⟨e, .question hname hrest, he, hok⟩
        · refine Or.inr ⟨fun e h => ?_, herror⟩
          cases h with
          | question hname' hrest =>
            obtain rfl := hname.unique hname'
            exact hnone e hrest
      · rw [if_pos (by omega)]
        refine Or.inr ⟨fun e h he => ?_, rfl⟩
        cases h with
        | question hname' hrest =>
          obtain rfl := hname.unique hname'
          have hle := hrest.le
          omega

/-! ## Responses -/

/-- The answer section begins at `p`. -/
structure AnswersFrom (resp : Bytes) (p : ℕ) : Prop where
  header : dnsHdrSize ≤ resp.length
  questions : QuestionsEnd resp (numberAt resp 4 2) dnsHdrSize p

/-- The number of answers that a response has in its header. -/
def ancount (resp : Bytes) : ℕ := numberAt resp 6 2

/-- Answers that are read one after the other from a response. -/
def AnsweredFront (resp : Bytes) (dnExpand : DnExpand) (memory : Memory)
    (cells : List RdataCell) : Prop :=
  ∃ p, AnswersFrom resp p ∧ p < resp.length ∧ Front resp dnExpand memory (ancount resp) 0 p cells

/-- All the answers of a response. -/
def Answered (resp : Bytes) (dnExpand : DnExpand) (memory : Memory)
    (cells : List RdataCell) : Prop :=
  ∃ p, AnswersFrom resp p ∧ p < resp.length ∧ Answers resp dnExpand memory (ancount resp) 0 p cells

theorem readRecords_spec (resp : Bytes) (dnExpand : DnExpand) (memory : Memory) :
    (∃ cells, AnsweredFront resp dnExpand memory cells ∧
      (∀ cells', AnsweredFront resp dnExpand memory cells' → cells' <+: cells) ∧
      (cells.map RdataCell.r).Nodup ∧
      (Answered resp dnExpand memory cells ∧
          readRecords resp dnExpand memory = (linkAll cells).map RecordList.head ∨
        (∀ cells', ¬Answered resp dnExpand memory cells') ∧
          readRecords resp dnExpand memory = (linkAll cells).bind fun _ => .error .error)) ∨
    (∀ cells, ¬AnsweredFront resp dnExpand memory cells) ∧
      (∀ cells, ¬Answered resp dnExpand memory cells) ∧
      readRecords resp dnExpand memory = .error .error := by
  unfold readRecords
  by_cases hheader : dnsHdrSize < resp.length
  · have htwelve : 12 < resp.length := hheader
    rw [if_neg (by omega), readBytes_of_le (by omega), readBytes_of_le (by omega)]
    simp only [bind, Except.bind, Functor.map, Except.map]
    rcases @skipQuestions_spec resp (numberAt resp 4 2) dnsHdrSize hheader with
      ⟨p, hquestions, hp, hok⟩ | ⟨hnone, herror⟩
    · rw [numberAt] at hok
      rw [hok]
      dsimp only
      have hfrom : AnswersFrom resp p := ⟨hheader.le, hquestions⟩
      obtain ⟨cells, hfront, hlongest, hend⟩ :=
        answersLoop_spec resp dnExpand memory (ancount resp) 0 p
      refine Or.inl ⟨cells, ⟨p, hfrom, hp, hfront⟩, ?_, hfront.nodup, ?_⟩
      · rintro cells' ⟨p', hfrom', -, hfront'⟩
        obtain rfl := hfrom.questions.unique hfrom'.questions
        exact hlongest _ hfront'
      · rcases hend with ⟨hanswers, hloop⟩ | ⟨hnone, hloop⟩
        · exact Or.inl ⟨⟨p, hfrom, hp, hanswers⟩, hloop _⟩
        · refine Or.inr ⟨?_, hloop _⟩
          rintro cells' ⟨p', hfrom', -, hanswers'⟩
          obtain rfl := hfrom.questions.unique hfrom'.questions
          exact hnone _ hanswers'
    · rw [numberAt] at herror
      rw [herror]
      refine Or.inr ⟨?_, ?_, rfl⟩
      · rintro cells ⟨p, hfrom, hp, -⟩
        exact hnone p hfrom.questions hp
      · rintro cells ⟨p, hfrom, hp, -⟩
        exact hnone p hfrom.questions hp
  · rw [if_pos (by omega)]
    have hnone : ∀ p, AnswersFrom resp p → ¬p < resp.length := by
      intro p hfrom hp
      have hle := hfrom.questions.le
      omega
    refine Or.inr ⟨?_, ?_, rfl⟩
    · rintro cells ⟨p, hfrom, hp, -⟩
      exact hnone p hfrom hp
    · rintro cells ⟨p, hfrom, hp, -⟩
      exact hnone p hfrom hp

/-! ## Complete responses -/

/-- An answer, where its name ends and how long its rdata is. -/
structure Answer where
  cell : RdataCell
  q : ℕ
  len : ℕ

/-- `n` answers from `p` on, each whole and, if its type is known, as long as it says. -/
inductive Complete (resp : Bytes) (dnExpand : DnExpand) (memory : Memory) :
    ℕ → ℕ → ℕ → List Answer → Prop
  | done {r p : ℕ} : Complete resp dnExpand memory 0 r p []
  | answer {n r p : ℕ} {a : Answer} {answers : List Answer} :
      AnswerAt resp dnExpand memory r p a.cell a.q a.len →
      (RType.ofNumber a.cell.type ≠ .unknown → numberAt resp (a.q + 8) 2 = a.len) →
      nextAnswer resp a.q ≤ resp.length →
      Complete resp dnExpand memory n (r + 1) (nextAnswer resp a.q) answers →
      Complete resp dnExpand memory (n + 1) r p (a :: answers)

/-- A response with all the answers that its header counts. -/
def CompleteResponse (resp : Bytes) (dnExpand : DnExpand) (memory : Memory)
    (answers : List Answer) : Prop :=
  ∃ p, AnswersFrom resp p ∧ Complete resp dnExpand memory (ancount resp) 0 p answers

/-- An answer that ends with the response and is an address or has no rdata. -/
def Answer.AtEnd (resp : Bytes) (a : Answer) : Prop :=
  nextAnswer resp a.q = resp.length ∧ (IsAddress a.cell.type ∨ numberAt resp (a.q + 8) 2 = 0)

/-- Whole answers are read unless they are such ones. -/
theorem readAt_iff {a : Answer} (h : AnswerAt resp dnExpand memory r p a.cell a.q a.len)
    (hlen : RType.ofNumber a.cell.type ≠ .unknown → numberAt resp (a.q + 8) 2 = a.len)
    (hnext : nextAnswer resp a.q ≤ resp.length) :
    ReadAt resp dnExpand memory r p a.cell a.q a.len ↔ ¬a.AtEnd resp := by
  unfold nextAnswer at hnext
  have haddress : IsAddress a.cell.type → numberAt resp (a.q + 8) 2 = a.len := by
    rintro (ht | ht)
    · exact hlen (by rw [ht]; decide)
    · exact hlen (by rw [ht]; decide)
  constructor
  · rintro hread ⟨hend, haddr | hzero⟩
    · have hroom := hread.room haddr
      have hsame := haddress haddr
      unfold nextAnswer at hend
      omega
    · have hbehind := hread.behind
      unfold nextAnswer at hend
      omega
  · intro hnot
    refine ⟨h, ?_, ?_⟩
    · by_contra hbehind
      exact hnot ⟨by unfold nextAnswer; omega, Or.inr (by omega)⟩
    · intro haddr
      have hsame := haddress haddr
      by_contra hroom
      exact hnot ⟨by unfold nextAnswer; omega, Or.inl haddr⟩

theorem Complete.lt {answers : List Answer} {a : Answer}
    (h : Complete resp dnExpand memory n r p (a :: answers)) : p < resp.length := by
  cases h with
  | answer hat => exact hat.name.lt

theorem Complete.answers {answers : List Answer}
    (h : Complete resp dnExpand memory n r p answers) (hend : ∀ a ∈ answers, ¬a.AtEnd resp) :
    Answers resp dnExpand memory n r p (answers.map Answer.cell) := by
  induction h with
  | done => exact .done
  | answer hat hlen hnext _ ih =>
    refine .answer ((readAt_iff hat hlen hnext).mpr (hend _ mem_cons_self)) ?_
    exact ih fun a ha => hend a (mem_cons_of_mem _ ha)

theorem Complete.not_atEnd {answers : List Answer} (h : Complete resp dnExpand memory n r p answers)
    (hread : Answers resp dnExpand memory n r p cells) : ∀ a ∈ answers, ¬a.AtEnd resp := by
  induction h generalizing cells with
  | done =>
    intro a ha
    cases ha
  | answer hat hlen hnext _ ih =>
    cases hread with
    | past hpast => exact absurd hat.name.lt (by omega)
    | answer hread hrest =>
      obtain ⟨rfl, rfl, rfl⟩ := hread.toAnswerAt.unique hat
      intro a ha
      rcases mem_cons.mp ha with rfl | ha
      · exact (readAt_iff hat hlen hnext).mp hread
      · exact ih hrest a ha

/-- Of a response `get_record` reads only the bytes, it returns, and what it returns is
a list of all the answers with the SRV records in order; if all answers are there, it
finds them. -/
structure RecordsRight (dnExpand : DnExpand) (memory : Memory) (answer : Bytes) : Prop where
  returns : ∃ l, getRecord dnExpand memory (some answer) = .ok l
  all : ∀ l, getRecord dnExpand memory (some answer) = .ok l → l ≠ [] →
    ∃ cells, Answered (queryBuffer answer) dnExpand memory cells ∧ l.Perm cells ∧
      SrvSorted l
  complete : ∀ answers, CompleteResponse (queryBuffer answer) dnExpand memory answers →
    ∃ l, getRecord dnExpand memory (some answer) = .ok l ∧
      l.Perm (answers.map Answer.cell) ∧ SrvSorted l

theorem Answers.unique {cells' : List RdataCell} (h : Answers resp dnExpand memory n r p cells)
    (h' : Answers resp dnExpand memory n r p cells') : cells = cells' := by
  induction h generalizing cells' with
  | done =>
    cases h'
    rfl
  | past hpast =>
    cases h' with
    | past => rfl
    | answer hread => exact absurd hread.name.lt (by omega)
  | answer hread _ ih =>
    cases h' with
    | past hpast => exact absurd hread.name.lt (by omega)
    | answer hread' hrest' =>
      obtain ⟨rfl, rfl, -⟩ := hread.toAnswerAt.unique hread'.toAnswerAt
      rw [ih hrest']

variable {answer : Bytes}

theorem CompleteResponse.answered {answers : List Answer}
    (h : CompleteResponse resp dnExpand memory answers) (hne : answers ≠ [])
    (hend : ∀ a ∈ answers, ¬a.AtEnd resp) :
    Answered resp dnExpand memory (answers.map Answer.cell) := by
  obtain ⟨p, hfrom, hcomplete⟩ := h
  obtain ⟨a, rest, rfl⟩ := exists_cons_of_ne_nil hne
  exact ⟨p, hfrom, hcomplete.lt, hcomplete.answers hend⟩

/-- Where nothing is found, nothing may be there. -/
theorem recordsRight_of_nil (hget : getRecord dnExpand memory (some answer) = .ok [])
    (hnone : ∀ cells, ¬Answered (queryBuffer answer) dnExpand memory cells) :
    RecordsRight dnExpand memory answer ↔
      ∀ answers, CompleteResponse (queryBuffer answer) dnExpand memory answers →
        ∀ a ∈ answers, ¬a.AtEnd (queryBuffer answer) := by
  constructor
  · intro hright answers hcomplete a ha
    obtain ⟨l, hl, hperm, -⟩ := hright.complete answers hcomplete
    obtain rfl := Except.ok.inj (hget.symm.trans hl)
    rw [map_eq_nil_iff.mp hperm.nil_eq.symm] at ha
    cases ha
  · intro hend
    refine ⟨⟨[], hget⟩, ?_, ?_⟩
    · intro l hl hne
      exact absurd (Except.ok.inj (hl.symm.trans hget)) hne
    · intro answers hcomplete
      have hnil : answers = [] := by
        by_contra hne
        exact hnone _ (hcomplete.answered hne (hend answers hcomplete))
      rw [hnil]
      exact ⟨[], hget, List.Perm.refl _, List.Pairwise.nil⟩

theorem getRecord_of_read {result : Except Fault (List RdataCell)} :
    readRecords (queryBuffer answer) dnExpand memory = result →
      getRecord dnExpand memory (some answer) = match result with
        | .error .error => .ok []
        | result => result := by
  rintro rfl
  rfl

/-- `get_record` is right about a response if and only if no SRV record meets one of an
unknown type in the list, and no complete response ends with an address or with a record
without rdata. -/
theorem get_record_right_iff (dnExpand : DnExpand) (memory : Memory) (answer : Bytes) :
    RecordsRight dnExpand memory answer ↔
      (∀ cells, AnsweredFront (queryBuffer answer) dnExpand memory cells → NullSafe cells) ∧
        ∀ answers, CompleteResponse (queryBuffer answer) dnExpand memory answers →
          ∀ a ∈ answers, ¬a.AtEnd (queryBuffer answer) := by
  rcases readRecords_spec (queryBuffer answer) dnExpand memory with
    ⟨cells, hfront, hlongest, hnodup, hend⟩ | ⟨hnofront, hnone, herror⟩
  · obtain ⟨hok, hnull⟩ := linkAll_spec hnodup
    by_cases hsafe : NullSafe cells
    · obtain ⟨a, b, front, l, hcells, hl, hbuilt⟩ := hok hsafe
      have hall : ∀ cells', AnsweredFront (queryBuffer answer) dnExpand memory cells' →
          NullSafe cells' := by
        intro cells' h
        obtain ⟨rest, hrest⟩ := hlongest _ h
        rw [← hrest] at hsafe
        exact hsafe.of_append
      rcases hend with ⟨hanswered, hread⟩ | ⟨hnone, hread⟩
      · rw [hl] at hread
        have hlist := getRecord_of_read hread
        have hperm := hbuilt.perm_head
        rw [hcells] at hperm
        obtain ⟨p, hfrom, hp, hanswers⟩ := hanswered
        constructor
        · intro _
          refine ⟨hall, ?_⟩
          rintro answers ⟨p', hfrom', hcomplete⟩
          obtain rfl := hfrom.questions.unique hfrom'.questions
          exact hcomplete.not_atEnd hanswers
        · rintro ⟨-, hatEnd⟩
          refine ⟨⟨_, hlist⟩, ?_, ?_⟩
          · intro l' hl' _
            obtain rfl := Except.ok.inj (hlist.symm.trans hl')
            exact ⟨cells, ⟨p, hfrom, hp, hanswers⟩, hperm, hbuilt.ordered.srvSorted⟩
          · rintro answers ⟨p', hfrom', hcomplete⟩
            obtain rfl := hfrom.questions.unique hfrom'.questions
            have hsame := hanswers.unique (hcomplete.answers (hatEnd answers ⟨p, hfrom, hcomplete⟩))
            rw [← hsame]
            exact ⟨_, hlist, hperm, hbuilt.ordered.srvSorted⟩
      · rw [hl] at hread
        rw [recordsRight_of_nil (getRecord_of_read hread) hnone]
        exact ⟨fun h => ⟨hall, h⟩, fun h => h.2⟩
    · have hfault : getRecord dnExpand memory (some answer) = .error .null := by
        rcases hend with ⟨-, hread⟩ | ⟨-, hread⟩
        · rw [hnull hsafe] at hread
          exact getRecord_of_read hread
        · rw [hnull hsafe] at hread
          exact getRecord_of_read hread
      constructor
      · intro hright
        obtain ⟨l, hl⟩ := hright.returns
        cases hfault.symm.trans hl
      · rintro ⟨hall, -⟩
        exact absurd (hall cells hfront) hsafe
  · rw [recordsRight_of_nil (getRecord_of_read herror) hnone]
    exact ⟨fun h => ⟨fun cells hc => absurd hc (hnofront cells), h⟩, fun h => h.2⟩

/-- A response with one address, 10.0.0.1 for the root. -/
def addressResponse : Bytes :=
  [0, 0, 0, 0, 0, 0, 0, 1, 0, 0, 0, 0, 0, 0, 1, 0, 1, 0, 0, 0, 60, 0, 4, 10, 0, 0, 1]

/-- The address at the end of the response is not found. -/
theorem getRecord_address_atEnd : ¬∀ (dnExpand : DnExpand) (memory : Memory) (answer : Bytes),
      RecordsRight dnExpand memory answer := by
  intro h
  have hright := h (fun _ _ => none) (fun _ => some []) addressResponse
  have hbuffer : queryBuffer addressResponse = addressResponse :=
    take_of_length_le (by decide)
  have hqdcount : numberAt addressResponse 4 2 = 0 := by decide
  have hancount : ancount addressResponse = 1 := by decide
  have hfrom : AnswersFrom addressResponse 12 := by
    refine ⟨by decide, ?_⟩
    rw [hqdcount]
    exact .done
  have hcomplete : Complete addressResponse (fun _ _ => none) (fun _ => some []) 1 0 12
      [⟨⟨0, 1, 1, 60, .a [10, 0, 0, 1], []⟩, 13, 4⟩] := by
    refine .answer ⟨.root (by decide), by decide, rfl, by decide, by decide, by decide, rfl,
      by decide⟩ (fun _ => by decide) (by decide) .done
  obtain ⟨l, hl, hperm, -⟩ := hright.complete _ ⟨12, by rw [hbuffer]; exact hfrom, by
    rw [hbuffer, hancount]
    exact hcomplete⟩
  have hne : l ≠ [] := by
    rintro rfl
    exact cons_ne_nil _ _ hperm.nil_eq.symm
  obtain ⟨cells, ⟨p, hfrom', -, hanswers⟩, -⟩ := hright.all l hl hne
  rw [hbuffer] at hfrom' hanswers
  rw [hancount] at hanswers
  obtain rfl := hfrom.questions.unique hfrom'.questions
  refine hcomplete.not_atEnd hanswers _ mem_cons_self ⟨by decide, Or.inl (Or.inl ?_)⟩
  decide

end Msicp.Resolve
