import Msicp.Headers.HnameRead

/-!
# Lines that a form takes

The text of such a line starts with the name of the form, and what comes behind
the name looks like blanks.
-/

namespace Msicp.Headers

open Msicp.Support List Memory
open Msicp.Avp (tolower)

variable {mem : Memory} {start stop c : ℕ} {hdr : HnameField}
variable {r : Row HnameCase}

/-- The text before the `:` at `c`. -/
def lineText (mem : Memory) (start c : ℕ) : Bytes := mem.bytes start (c - start)

/-- The name before the `:` at `c`. -/
def lineName (mem : Memory) (start c : ℕ) : Bytes :=
  withoutWs (lineText mem start c)

/-- The character that a test asks for. -/
def testChar : Test → UInt8
  | .folded c => c
  | .exact c => c
  | .any => 0

/-- The text is that of the form, in one case or the other. -/
def Honest (mem : Memory) (start : ℕ) (r : Row HnameCase) : Prop :=
  (mem.bytes start r.1.length).map tolower = r.1.map testChar

theorem eq_of_tolower {x d : UInt8} (hd : d < 97) (h : tolower x = d) : x = d := by
  rw [tolower] at h
  split at h
  · simp only [UInt8.le_iff_toNat_le, UInt8.lt_iff_toNat_lt, ← UInt8.toNat_inj, UInt8.toNat_add,
      UInt8.reduceToNat] at *
    omega
  · exact h

theorem eq_of_tolower_space {x : UInt8} (h : tolower x = 32) : x = 32 := eq_of_tolower (by decide) h

theorem eq_of_tolower_colon {x : UInt8} (h : tolower x = 58) : x = 58 := eq_of_tolower (by decide) h

/-! ## The shapes of the forms -/

/-- The names that are compared with the byte behind them, with the test for
that byte. -/
def Closed (test : UInt8 → Test) (n : Bytes × HdrType) : Prop :=
  (n ∈ closedNames ∧ test = .folded) ∨ (n ∈ letterNames ∧ test = .exact)

theorem mem_hnameForms : r ∈ hnameForms ↔ (∃ n ∈ plainNames, r = plainForm n) ∨
      ∃ test n, Closed test n ∧ (r = colonForm test n ∨ r = spaceForm test n) := by
  simp only [hnameForms, mem_append, List.mem_map, mem_flatMap,
    mem_cons, not_mem_nil, or_false, Closed]
  constructor
  · rintro ((⟨n, hn, rfl⟩ | ⟨n, hn, h⟩) | ⟨n, hn, h⟩)
    · exact .inl ⟨n, hn, rfl⟩
    · exact .inr ⟨.folded, n, .inl ⟨hn, rfl⟩, h⟩
    · exact .inr ⟨.exact, n, .inr ⟨hn, rfl⟩, h⟩
  · rintro (⟨n, hn, rfl⟩ | ⟨test, n, ⟨hn, rfl⟩ | ⟨hn, rfl⟩, h⟩)
    · exact .inl (.inl ⟨n, hn, rfl⟩)
    · exact .inl (.inr ⟨n, hn, h⟩)
    · exact .inr ⟨n, hn, h⟩

section Closed

variable {test : UInt8 → Test} {n : Bytes × HdrType} {x d : UInt8}

section

variable (h : Closed test n)
include h

theorem Closed.sought : n ∈ soughtNames := by
  simp only [soughtNames, mem_append]
  rcases h with ⟨hn, -⟩ | ⟨hn, -⟩
  · exact .inl (.inr hn)
  · exact .inr hn

theorem Closed.testChar : testChar (test d) = d := by
  rcases h with ⟨-, rfl⟩ | ⟨-, rfl⟩ <;> rfl

theorem Closed.lowerByte_eq (hd : lowerByte d = d)
    (hx : (test d).holds x = true) : lowerByte x = d := by
  rcases h with ⟨-, rfl⟩ | ⟨-, rfl⟩
  · simpa [Test.holds] using hx
  · obtain rfl : x = d := by simpa [Test.holds] using hx
    exact hd

theorem Closed.holds (hd : lowerByte d = d) : (test d).holds d = true := by
  rcases h with ⟨-, rfl⟩ | ⟨-, rfl⟩ <;> simp [Test.holds, hd]

end

end Closed

theorem testChar_nameTests (n : Bytes) : (nameTests n).map testChar = n := by
  simp [nameTests, Function.comp_def, testChar]

theorem length_nameTests (n : Bytes) : (nameTests n).length = n.length := by
  simp [nameTests]

/-! ## A form that takes the line -/

/-- What is known of a line that a form takes, when the search has ended behind
the first `:`: the text starts with the name of the form, and the rest looks
like blanks. -/
structure Taken (mem : Memory) (start c : ℕ) (hdr : HnameField) (stop : ℕ)
    (r : Row HnameCase) (n : Bytes × HdrType) (rest : Bytes) : Prop where
  sought : n ∈ soughtNames
  text : lineText mem start c = mem.bytes start n.1.length ++ rest
  fold : (mem.bytes start n.1.length).map lowerByte = n.1
  rest_fold : ∀ d ∈ rest.map lowerByte, d = 32 ∨ d = 41
  result : parseHname2 mem start stop hdr =
    ({ type := some n.2, s := some start, len := c - start }, some (c + 1))
  honest : Honest mem start r ↔
    (mem.bytes start n.1.length).map tolower = n.1 ∧
      ∀ d ∈ rest, isWs d = true
  no_tab : n ∈ closedNames ++ letterNames → mem (start + n.1.length) ≠ 9

/-- Behind a pattern without a `:` the first `:` is found. -/
theorem claims_dcEnd (hlong : start + 4 ≤ stop)
    (hc : FirstColon mem start stop c) {pat : List Test} {type : HdrType}
    (hclaims : Claims mem start stop (pat, some ⟨type, none⟩))
    (hswitch : hnameSwitch mem start =
      Row.exit (pat, some ⟨type, none⟩) start) (hpat : Avoids 58 pat) :
    parseHname2 mem start stop hdr = ({ type := some type, s := some start, len := c - start },
          some (c + 1)) ∧
      start + pat.length ≤ c ∧
      ∀ i, start + pat.length ≤ i → i < c → isWs (mem i) = true := by
  obtain ⟨htakes, hcolon⟩ := hclaims
  have h58 := hcolon ⟨type, none⟩ rfl rfl
  dsimp only at h58
  obtain ⟨hle, -, hws, -⟩ := skipWs_spec mem (sizeTo stop (start + pat.length)) (start + pat.length)
  have hfirst := no_colon_skipped htakes hpat (sizeTo stop (start + pat.length))
  have hskip : skipWs mem (sizeTo stop (start + pat.length)) (start + pat.length) = c := by
    rcases Nat.lt_trichotomy (skipWs mem (sizeTo stop (start + pat.length))
      (start + pat.length)) c with hlt | heq | hlt
    · exact absurd h58 (hc.first _ ((Nat.le_add_right _ _).trans hle) hlt)
    · exact heq
    · exact absurd hc.colon (hfirst c hc.le hlt)
  rw [hskip] at hle hws
  exact ⟨parseHname2_dcEnd hlong hswitch hskip.symm hc.colon, hle, hws⟩

theorem fold_isWs {rest : Bytes} (h : ∀ d ∈ rest, isWs d = true) :
    ∀ d ∈ rest.map lowerByte, d = 32 ∨ d = 41 := by
  intro d hd
  obtain ⟨x, hx, rfl⟩ := List.mem_map.mp hd
  exact lowerByte_of_isWs (h x hx)

theorem nameTests_avoids {n : Bytes} (hn : ∀ x ∈ n, NameByte x) : Avoids 58 (nameTests n) := by
  intro t ht
  obtain ⟨x, hx, rfl⟩ := List.mem_map.mp ht
  refine ⟨by simp [Test.lowered], fun h => (hn x hx).ne.2.2 ?_⟩
  exact Option.some.inj h

theorem lineText_cut {n : ℕ} (h : start + n ≤ c) : lineText mem start c =
      mem.bytes start n ++ mem.bytes (start + n) (c - (start + n)) := by
  rw [lineText, show c - start = n + (c - (start + n)) by omega, bytes_add]

section Shapes

variable {n : Bytes × HdrType} {test : UInt8 → Test}

theorem taken_plain (hn : n ∈ plainNames) (hlong : start + 4 ≤ stop)
    (hc : FirstColon mem start stop c) (hno : NoOverrun mem start)
    (hclaims : Claims mem start stop (plainForm n)) :
    ∃ rest, Taken mem start c hdr stop (plainForm n) n rest := by
  have hsought : n ∈ soughtNames := by
    simp only [soughtNames, mem_append]
    exact .inl (.inl hn)
  have hswitch := hnameSwitch_claims hno (mem_hnameForms.mpr (.inl ⟨n, hn, rfl⟩)) hclaims
  obtain ⟨hresult, hle, hws⟩ := @claims_dcEnd _ _ _ _ hdr hlong hc _ _ hclaims
    hswitch (nameTests_avoids (nameByte_of_sought hsought))
  rw [length_nameTests] at hle hws
  have hrest : ∀ d ∈ mem.bytes (start + n.1.length) (c - (start + n.1.length)), isWs d = true :=
    fun d hd => isWs_of_mem_bytes hws hd
  refine ⟨_, hsought, lineText_cut hle, takes_nameTests.mp hclaims.1,
    fold_isWs hrest, hresult, ?_, ?_⟩
  · rw [Honest, plainForm, testChar_nameTests, length_nameTests]
    exact ⟨fun h => ⟨h, hrest⟩, fun h => h.1⟩
  · intro hclosed
    have hdisj : ∀ n ∈ plainNames, n ∉ closedNames ++ letterNames := by decide
    exact absurd hclosed (hdisj n hn)

theorem taken_space (hn : Closed test n) (hlong : start + 4 ≤ stop)
    (hc : FirstColon mem start stop c) (hno : NoOverrun mem start)
    (hclaims : Claims mem start stop (spaceForm test n)) :
    ∃ rest, Taken mem start c hdr stop (spaceForm test n) n rest := by
  have hswitch := hnameSwitch_claims hno (mem_hnameForms.mpr (.inr ⟨test, n, hn, .inr rfl⟩)) hclaims
  have htakes := takes_append.mp hclaims.1
  have hfold := takes_nameTests.mp htakes.1
  have hspace : lowerByte (mem (start + n.1.length)) = 32 := by
    have hholds := htakes.2.1
    rw [length_nameTests] at hholds
    exact hn.lowerByte_eq (by decide) hholds
  have hpat : Avoids 58 (nameTests n.1 ++ [test 32]) := by
    intro t ht
    rcases mem_append.mp ht with ht | ht
    · exact nameTests_avoids (nameByte_of_sought hn.sought) t ht
    · obtain rfl : t = test 32 := by simpa using ht
      rcases hn with ⟨-, rfl⟩ | ⟨-, rfl⟩ <;> decide
  obtain ⟨hresult, hle, hws⟩ := @claims_dcEnd _ _ _ _ hdr hlong hc _ _ hclaims hswitch hpat
  rw [List.length_append, length_nameTests] at hle hws
  change start + (n.1.length + 1) ≤ c at hle
  have hbehind : mem.bytes (start + n.1.length) (c - (start + n.1.length)) =
      mem (start + n.1.length) :: mem.bytes (start + (n.1.length + 1))
        (c - (start + (n.1.length + 1))) := by
    rw [show c - (start + n.1.length) = c - (start + (n.1.length + 1)) + 1 by omega]
    rfl
  have hrest : ∀ d ∈ mem.bytes (start + (n.1.length + 1))
      (c - (start + (n.1.length + 1))), isWs d = true :=
    fun d hd => isWs_of_mem_bytes hws hd
  refine ⟨_, hn.sought, lineText_cut (by omega), hfold, ?_, hresult, ?_, ?_⟩
  · rw [hbehind, map_cons]
    intro d hd
    rcases mem_cons.mp hd with rfl | hd
    · exact .inl hspace
    · exact fold_isWs hrest d hd
  · rw [Honest, spaceForm, map_append, testChar_nameTests,
      List.length_append, length_nameTests, length_singleton,
      bytes_add, map_append, hbehind]
    have hlen : ((mem.bytes start n.1.length).map tolower).length =
        n.1.length := by simp
    constructor
    · intro h
      obtain ⟨hname, hlast⟩ := append_inj h hlen
      have h32 : tolower (mem (start + n.1.length)) = 32 := by
        simpa [bytes, hn.testChar] using hlast
      refine ⟨hname, fun d hd => ?_⟩
      rcases mem_cons.mp hd with rfl | hd
      · rw [eq_of_tolower_space h32]
        rfl
      · exact hrest d hd
    · rintro ⟨hname, hws'⟩
      have h32 := eq_space (hws' _ (by simp)) hspace
      simp [hname, bytes, hn.testChar, h32]
      rfl
  · intro _ h9
    rw [h9] at hspace
    exact absurd hspace (by decide)

/-- A name with the `:` behind it.  The search ends behind the byte that is
taken for the `:`. -/
theorem taken_colon (hn : Closed test n) (hlong : start + 4 ≤ stop)
    (hc : FirstColon mem start stop c) (hno : NoOverrun mem start)
    (hclaims : Claims mem start stop (colonForm test n)) :
    (parseHname2 mem start stop hdr).1.type = some n.2 ∧
      (parseHname2 mem start stop hdr).2 = some (start + n.1.length + 1) ∧
      (Honest mem start (colonForm test n) → c = start + n.1.length) ∧
      (c = start + n.1.length → Taken mem start c hdr stop (colonForm test n) n []) := by
  have hswitch := hnameSwitch_claims hno (mem_hnameForms.mpr (.inr ⟨test, n, hn, .inl rfl⟩)) hclaims
  have htakes := takes_append.mp hclaims.1
  have hfold := takes_nameTests.mp htakes.1
  have hresult := @parseHname2_returns _ _ _ hdr hlong _ _ _ hswitch
  rw [List.length_append, length_nameTests, length_singleton, ← Nat.add_assoc] at hresult
  have hhonest : Honest mem start (colonForm test n) ↔
      (mem.bytes start n.1.length).map tolower = n.1 ∧ tolower (mem (start + n.1.length)) = 58 := by
    rw [Honest, colonForm, map_append, testChar_nameTests,
      List.length_append, length_nameTests, length_singleton,
      bytes_add, map_append]
    have hlen : ((mem.bytes start n.1.length).map tolower).length =
        n.1.length := by simp
    constructor
    · intro h
      obtain ⟨hname, hlast⟩ := append_inj h hlen
      exact ⟨hname, by simpa [bytes, hn.testChar] using hlast⟩
    · rintro ⟨hname, hlast⟩
      simp [hname, bytes, hn.testChar, hlast]
  refine ⟨by rw [hresult], by rw [hresult], ?_, ?_⟩
  · intro h
    have h58 := eq_of_tolower_colon (hhonest.mp h).2
    -- the name has no `:`, so this is the first one
    rcases Nat.lt_trichotomy c (start + n.1.length) with hlt | heq | hlt
    · exact absurd hc.colon (ne_of_takes htakes.1
        (nameTests_avoids (nameByte_of_sought hn.sought)) hc.le
        (by rwa [length_nameTests]))
    · exact heq
    · exact absurd h58 (hc.first _ (by omega) hlt)
  · rintro rfl
    refine ⟨hn.sought, ?_, hfold, by simp, ?_, ?_, ?_⟩
    · rw [lineText, Nat.add_sub_cancel_left, append_nil]
    · rw [hresult, Nat.add_sub_cancel_left]
    · rw [hhonest, hc.colon]
      simp [show tolower 58 = 58 from rfl]
    · intro _ h9
      have hcolon := hc.colon
      rw [h9] at hcolon
      exact absurd hcolon (by decide)

end Shapes

end Msicp.Headers
