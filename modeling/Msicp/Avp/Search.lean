import Msicp.Avp.UsrAvp

/-!
# What a search for AVPs finds

A search compares the 16-bit ids first.  The id of a number is its lower half;
that of a string is an exclusive or of its characters, in which upper and lower
case differ.
-/

namespace Msicp.Avp

open List Function

open Function (update)
open Support (Bytes Links LinkChain linkSeg_append collect walk_found walk_of_linkChain
  collect_linkChain collect_eq_filter)

/-! ## Equal names -/

/-- Names that are equal up to case. -/
def sameName (a b : Bytes) : Prop :=
  a.map tolower = b.map tolower

instance (a b : Bytes) : Decidable (sameName a b) :=
  inferInstanceAs (Decidable (a.map tolower = b.map tolower))

/-- What `strncasecmp` looks at. -/
def cString : Bytes → Bytes
  | [] => []
  | c :: s => if c = 0 then [] else tolower c :: cString s

theorem tolower_eq_zero (c : UInt8) : tolower c = 0 ↔ c = 0 := by
  unfold tolower
  by_cases h : 65 ≤ c ∧ c ≤ 90
  · rw [if_pos h, ← UInt8.toNat_inj, ← UInt8.toNat_inj, UInt8.toNat_add]
    obtain ⟨h1, h2⟩ := h
    rw [UInt8.le_iff_toNat_le] at h1 h2
    simp only [UInt8.toNat_ofNat] at h1 h2 ⊢
    omega
  · rw [if_neg h]

theorem eq_zero_iff {x y : UInt8} (h : tolower x = tolower y) : x = 0 ↔ y = 0 := by
  rw [← tolower_eq_zero x, h, tolower_eq_zero]

theorem strncasecmp_iff {a b : Bytes} (h : a.length = b.length) :
    strncasecmp a b = true ↔ cString a = cString b := by
  induction a generalizing b with
  | nil =>
    obtain rfl : b = [] := length_eq_zero_iff.mp h.symm
    simp [strncasecmp]
  | cons x a ih =>
    cases b with
    | nil => cases h
    | cons y b =>
      have hrest := ih (Nat.succ.inj h)
      by_cases hxy : tolower x = tolower y
      · by_cases hx : x = 0
        · have hy := (eq_zero_iff hxy).mp hx
          simp [strncasecmp, cString, hx, hy]
        · have hy : y ≠ 0 := fun hy => hx ((eq_zero_iff hxy).mpr hy)
          simp [strncasecmp, cString, hxy, hx, hy, hrest]
      · have hne : cString (x :: a) ≠ cString (y :: b) := by
          intro heq
          by_cases hx : x = 0
          · by_cases hy : y = 0
            · exact hxy (by rw [hx, hy])
            · simp [cString, hx, hy] at heq
          · by_cases hy : y = 0
            · simp [cString, hx, hy] at heq
            · simp [cString, hx, hy, hxy] at heq
        simp [strncasecmp, hxy, hne]

theorem sameName.length_eq {a b : Bytes} (h : sameName a b) : a.length = b.length := by
  simpa using congrArg List.length h

/-- Names that are equal up to case look equal to `strncasecmp`. -/
theorem sameName.cString_eq {a b : Bytes} (h : sameName a b) : cString a = cString b := by
  induction a generalizing b with
  | nil =>
    obtain rfl : b = [] := by simpa [sameName] using h.symm
    rfl
  | cons x a ih =>
    cases b with
    | nil => cases h
    | cons y b =>
      obtain ⟨hxy, hrest⟩ := List.cons.inj h
      by_cases hx : x = 0
      · simp [cString, hx, (eq_zero_iff hxy).mp hx]
      · have hy : y ≠ 0 := fun hy => hx ((eq_zero_iff hxy).mpr hy)
        simp [cString, hx, hy, hxy, ih hrest]

/-! ## The lists -/

/-- An AVP as `add_avp` stores it. -/
def UsrAvp.Stored (avp : UsrAvp) : Prop :=
  match avp.added with
  | .id n _ => avp.name = none ∧ avp.id = n.setWidth 16
  | .str none => False
  | .str (some name) =>
    name ≠ [] ∧ avp.name = some name ∧ avp.id = computeId name

theorem newAvp_stored {name : AvpName} {value : AvpValue} {born : ℕ}
    {avp : UsrAvp} (h : newAvp name value born = some avp) :
    avp.Stored ∧ avp.born = born := by
  unfold newAvp at h
  obtain ⟨_, h⟩ := Option.ite_none_left_eq_some.mp h
  split at h
  · cases h
    exact ⟨⟨rfl, rfl⟩, rfl⟩
  · cases h
  · cases h
  · cases h
    exact ⟨⟨cons_ne_nil _ _, rfl, rfl⟩, rfl⟩

namespace Avps

variable {s s' : Avps} {lists : ListPtr → List AvpPtr}

/-- What holds between calls: the lists share no AVP, and the AVPs of a list
stand in the order of their ages. -/
structure Wf (s : Avps) (lists : ListPtr → List AvpPtr) : Prop where
  chain : ∀ l, LinkChain s.next (s.list l) (lists l)
  live : ∀ l, ∀ p ∈ lists l, p ∈ s.live
  disjoint : ∀ l l' p, p ∈ lists l → p ∈ lists l' → l = l'
  stored : ∀ p ∈ s.live, (s.avp p).Stored ∧ (s.avp p).born < s.calls
  newestFirst : ∀ l, (lists l).Pairwise fun p q =>
    (s.avp q).born < (s.avp p).born

theorem Wf.nodup (h : s.Wf lists) (l : ListPtr) : (lists l).Nodup :=
  (h.chain l).nodup

theorem Wf.length_le (h : s.Wf lists) (l : ListPtr) : (lists l).length ≤ s.live.length :=
  ((h.nodup l).subperm (h.live l)).length_le

theorem empty_wf (crtAvps : ListPtr) : (Avps.empty crtAvps).Wf fun _ => [] := by
  refine ⟨fun l => rfl, ?_, ?_, ?_, fun l => List.Pairwise.nil⟩
  · intro l p hp
    cases hp
  · intro l l' p hp
    cases hp
  · intro p hp
    cases hp

section

variable (h : s.Wf lists)
include h

theorem Wf.linkAvp {p : AvpPtr} (hp : p ∉ s.live)
    {avp : UsrAvp} (hstored : avp.Stored) (hborn : avp.born = s.calls) :
    (s.linkAvp p avp).Wf (update lists s.crtAvps (p :: lists s.crtAvps)) := by
  have hnotin : ∀ l, p ∉ lists l := fun l hmem => hp (h.live l p hmem)
  have hold : ∀ l, ∀ q ∈ lists l, update s.avp p avp q = s.avp q := by
    intro l q hq
    apply update_of_ne
    rintro rfl
    exact hnotin l hq
  have hmem : ∀ l, ∀ q ∈ update lists s.crtAvps (p :: lists s.crtAvps) l,
      (q = p ∧ l = s.crtAvps) ∨ q ∈ lists l := by
    intro l q hq
    by_cases hl : l = s.crtAvps
    · subst hl
      rw [update_self] at hq
      rcases mem_cons.mp hq with rfl | hq
      · exact Or.inl ⟨rfl, rfl⟩
      · exact Or.inr hq
    · rw [update_of_ne hl] at hq
      exact Or.inr hq
  refine ⟨?_, ?_, ?_, ?_, ?_⟩
  · intro l
    have hchain := (h.chain l).update (s.list s.crtAvps) (hnotin l)
    by_cases hl : l = s.crtAvps
    · subst hl
      simp only [Avps.linkAvp, update_self]
      exact ⟨rfl, by simpa using hchain⟩
    · simp only [Avps.linkAvp, update_of_ne hl]
      exact hchain
  · intro l q hq
    rcases hmem l q hq with ⟨rfl, -⟩ | hq
    · exact mem_cons_self
    · exact mem_cons_of_mem _ (h.live l q hq)
  · intro l l' q hq hq'
    rcases hmem l q hq with ⟨rfl, rfl⟩ | hold₁
    · rcases hmem l' q hq' with ⟨-, rfl⟩ | hold₂
      · rfl
      · exact absurd hold₂ (hnotin l')
    · rcases hmem l' q hq' with ⟨rfl, -⟩ | hold₂
      · exact absurd hold₁ (hnotin l)
      · exact h.disjoint l l' q hold₁ hold₂
  · intro q hq
    simp only [Avps.linkAvp]
    rcases mem_cons.mp hq with rfl | hlive
    · rw [update_self, hborn]
      exact ⟨hstored, Nat.lt_succ_self _⟩
    · have hne : q ≠ p := by
        rintro rfl
        exact hp hlive
      rw [update_of_ne hne]
      obtain ⟨h1, h2⟩ := h.stored q hlive
      exact ⟨h1, Nat.lt_succ_of_lt h2⟩
  · intro l
    have hrest : (lists l).Pairwise fun q q' =>
        (update s.avp p avp q').born < (update s.avp p avp q).born := by
      apply (h.newestFirst l).imp_of_mem
      intro q q' hq hq' hlt
      rw [hold l q hq, hold l q' hq']
      exact hlt
    simp only [Avps.linkAvp]
    by_cases hl : l = s.crtAvps
    · subst hl
      rw [update_self]
      refine pairwise_cons.mpr ⟨?_, hrest⟩
      intro q hq
      rw [hold _ q hq, update_self, hborn]
      exact (h.stored q (h.live _ q hq)).2
    · rw [update_of_ne hl]
      exact hrest

theorem Wf.addAvp {p : Option AvpPtr}
    (hp : ¬ ∃ x ∈ p, x ∈ s.live) (name : AvpName) (value : AvpValue) :
    ∃ lists', (s.addAvp p name value).Wf lists' := by
  unfold Avps.addAvp
  split
  case h_1 avp p hnew =>
    obtain ⟨hstored, hborn⟩ := newAvp_stored hnew
    exact ⟨_, h.linkAvp (fun hmem => hp ⟨p, rfl, hmem⟩) hstored hborn⟩
  case h_2 => exact ⟨lists, h⟩
  case h_3 => exact ⟨lists, h⟩

theorem Wf.cut {l₁ l₂ : List AvpPtr} {p : AvpPtr} (hl : lists s.crtAvps = l₁ ++ p :: l₂)
    (hchain : ∀ l, LinkChain s'.next (s'.list l) (update lists s.crtAvps (l₁ ++ l₂) l))
    (havp : s'.avp = s.avp) (hlive : s'.live = s.live.erase p)
    (hcalls : s'.calls = s.calls) :
    s'.Wf (update lists s.crtAvps (l₁ ++ l₂)) := by
  have hsub : ∀ l, (update lists s.crtAvps (l₁ ++ l₂) l).Sublist (lists l) := by
    intro l
    by_cases hne : l = s.crtAvps
    · subst hne
      rw [update_self, hl]
      exact List.Sublist.append_left (sublist_cons_self p l₂) l₁
    · rw [update_of_ne hne]
  have hnotin : ∀ l, p ∉ update lists s.crtAvps (l₁ ++ l₂) l := by
    intro l hp
    have hcrt : l = s.crtAvps :=
      h.disjoint l _ p ((hsub l).subset hp) (by rw [hl]; simp)
    rw [hcrt, update_self] at hp
    have hnodup := h.nodup s.crtAvps
    rw [hl, nodup_middle] at hnodup
    exact (nodup_cons.mp hnodup).1 hp
  refine ⟨hchain, ?_, ?_, ?_, ?_⟩
  · intro l q hq
    have hne : q ≠ p := by
      rintro rfl
      exact hnotin l hq
    rw [hlive, mem_erase_of_ne hne]
    exact h.live l q ((hsub l).subset hq)
  · intro l l' q hq hq'
    exact h.disjoint l l' q ((hsub l).subset hq) ((hsub l').subset hq')
  · intro q hq
    rw [hlive] at hq
    rw [havp, hcalls]
    exact h.stored q (mem_of_mem_erase hq)
  · intro l
    rw [havp]
    exact (h.newestFirst l).sublist (hsub l)

theorem Wf.unlinkAvp {l₁ l₂ : List AvpPtr} {p : AvpPtr} (hl : lists s.crtAvps = l₁ ++ p :: l₂) :
    (s.unlinkAvp l₁.getLast? p).Wf (update lists s.crtAvps (l₁ ++ l₂)) := by
  have hholds : (⟨s.list s.crtAvps, s.next⟩ : Links AvpPtr).Holds
      (l₁ ++ p :: l₂) := hl ▸ h.chain s.crtAvps
  have hremove := Links.holds_remove hholds
  rcases eq_nil_or_concat l₁ with rfl | ⟨l₁, c, rfl⟩
  · refine h.cut hl ?_ rfl rfl rfl
    intro l
    by_cases hne : l = s.crtAvps
    · subst hne
      simp only [Avps.unlinkAvp, getLast?_nil, update_self]
      exact hremove
    · simp only [Avps.unlinkAvp, getLast?_nil, update_of_ne hne]
      exact h.chain l
  · rw [concat_eq_append] at hl hremove ⊢
    rw [getLast?_concat] at hremove ⊢
    refine h.cut hl ?_ rfl rfl rfl
    intro l
    by_cases hne : l = s.crtAvps
    · subst hne
      rw [update_self]
      exact hremove
    · rw [update_of_ne hne]
      apply (h.chain l).update
      intro hc
      exact hne (h.disjoint l _ c hc (by rw [hl]; simp))

theorem Wf.destroyAvp (avpDel : AvpPtr) : ∃ lists', (s.destroyAvp avpDel).Wf lists' := by
  obtain ⟨l₁, l₂, hl, -, -, hwalk⟩ :=
    walk_of_linkChain (fun p => decide (p = avpDel)) none
      (h.chain s.crtAvps) (h.length_le s.crtAvps)
  rw [Option.or_none] at hwalk
  rw [Avps.destroyAvp, hwalk]
  cases l₂ with
  | nil => exact ⟨lists, h⟩
  | cons p l₂ => exact ⟨_, h.unlinkAvp hl⟩

end

end Avps

theorem Avps.Wf.step {s s' : Avps} {lists : ListPtr → List AvpPtr}
    (h : s.Wf lists) {call : Call} (hs : call.run s = some s') :
    ∃ lists', s'.Wf lists' := by
  cases call with
  | addAvp p name value =>
    simp only [Call.run] at hs
    obtain ⟨hp, ⟨⟩⟩ := Option.ite_none_left_eq_some.mp hs
    exact h.addAvp hp name value
  | destroyAvp avpDel =>
    cases hs
    exact h.destroyAvp avpDel
  | setAvpList list =>
    cases hs
    exact ⟨lists, h.chain, h.live, h.disjoint, h.stored, h.newestFirst⟩

theorem wf_of_reach {s : Avps} (h : machine.Reach s) : ∃ lists, s.Wf lists := by
  apply h.invariant fun s => ∃ lists, s.Wf lists
  · rintro s ⟨list, rfl⟩
    exact ⟨_, Avps.empty_wf list⟩
  · rintro call s s' ⟨lists, hwf⟩ - hs
    exact hwf.step hs

/-! ## The searches -/

/-- The AVPs that a search asks for. -/
def AvpName.Asked (name : AvpName) (avp : UsrAvp) : Prop :=
  match name, avp.added with
  | .id n _, .id m _ => m = n
  | .str (some a), .str (some b) => sameName b a
  | _, _ => False

instance (name : AvpName) (avp : UsrAvp) : Decidable (name.Asked avp) := by
  unfold AvpName.Asked
  split <;> infer_instance

/-- The test of the loop that a search starts. -/
def AvpName.hit (name : AvpName) (avp : UsrAvp) : Bool :=
  if name.isNull then false
  else
    match name with
    | .id n _ => Avps.matchesId (n.setWidth 16) avp
    | .str none => false
    | .str (some []) => false
    | .str (some (c :: name)) =>
      Avps.matchesName (computeId (c :: name)) (c :: name) avp

/-- An AVP for which the test and the question differ: an id that is null or
has another upper half; a name whose letters differ in case and in their
exclusive or, or one that is different behind a null character only. -/
def AvpName.Clashes (name : AvpName) (avp : UsrAvp) : Prop :=
  match name, avp.added with
  | .id n rest, .id m _ =>
    if n = 0 ∧ rest = 0 then m = n
    else m ≠ n ∧ m.setWidth 16 = n.setWidth 16
  | .str (some a), .str (some b) =>
    if sameName b a then computeId b ≠ computeId a
    else b.length = a.length ∧ computeId b = computeId a ∧ cString b = cString a
  | _, _ => False

instance (name : AvpName) (avp : UsrAvp) : Decidable (name.Clashes avp) := by
  unfold AvpName.Clashes
  split <;> infer_instance

theorem matchesName_iff {a b : Bytes} {id : BitVec 16} {avp : UsrAvp} (hname : avp.name = some b) :
    Avps.matchesName id a avp = true ↔
      id = avp.id ∧ b.length = a.length ∧ cString b = cString a := by
  simp only [Avps.matchesName, hname, Bool.and_eq_true, decide_eq_true_eq]
  constructor
  · rintro ⟨hid, hlen, hcase⟩
    exact ⟨hid, hlen, (strncasecmp_iff hlen).mp hcase⟩
  · rintro ⟨hid, hlen, hcase⟩
    exact ⟨hid, hlen, (strncasecmp_iff hlen).mpr hcase⟩

theorem hit_iff_asked {name : AvpName} {avp : UsrAvp} (h : avp.Stored) :
    (name.hit avp = true ↔ name.Asked avp) ↔ ¬ name.Clashes avp := by
  obtain ⟨id, aname, value, added, born⟩ := avp
  cases added with
  | id m r =>
    obtain ⟨rfl, rfl⟩ := h
    cases name with
    | id n rest =>
      simp only [AvpName.hit, AvpName.Asked, AvpName.Clashes, AvpName.isNull,
        Avps.matchesId, decide_eq_true_eq]
      by_cases hnull : n = 0 ∧ rest = 0
      · simp [hnull]
      · rw [if_neg hnull, if_neg hnull]
        by_cases hmn : m = n
        · simp [hmn]
        · simp [hmn, eq_comm]
    | str a =>
      cases a with
      | none => simp [AvpName.hit, AvpName.Asked, AvpName.Clashes]
      | some a =>
        cases a with
        | nil => simp [AvpName.hit, AvpName.Asked, AvpName.Clashes]
        | cons c a =>
          simp [AvpName.hit, AvpName.Asked, AvpName.Clashes, AvpName.isNull, Avps.matchesName]
  | str b =>
    cases b with
    | none => exact h.elim
    | some b =>
      obtain ⟨hne, rfl, rfl⟩ := h
      cases name with
      | id n rest =>
        simp [AvpName.hit, AvpName.Asked, AvpName.Clashes, Avps.matchesId]
      | str a =>
        cases a with
        | none => simp [AvpName.hit, AvpName.Asked, AvpName.Clashes]
        | some a =>
          cases a with
          | nil =>
            have hask : ¬ sameName b [] := by
              intro heq
              exact hne (length_eq_zero_iff.mp heq.length_eq)
            simp [AvpName.hit, AvpName.Asked, AvpName.Clashes, hask, hne]
          | cons c a =>
            have hname : (⟨computeId b, some b, value, .str (some b), born⟩ :
                UsrAvp).name = some b := rfl
            have hhit := @matchesName_iff (c :: a) b (computeId (c :: a)) _ hname
            simp only [AvpName.hit, AvpName.Asked, AvpName.Clashes,
              AvpName.isNull, Option.isNone_some, Bool.false_eq_true,
              if_false, hhit]
            by_cases hsame : sameName b (c :: a)
            · simp [hsame, hsame.length_eq, hsame.cString_eq, eq_comm]
            · simp [hsame, eq_comm]
              tauto

namespace Avps

variable {s : Avps} {lists : ListPtr → List AvpPtr}

/-- The AVPs of the current list. -/
def current (s : Avps) : List AvpPtr :=
  collect s.next s.live.length (s.list s.crtAvps)

section

variable (h : s.Wf lists)
include h

theorem Wf.current_eq : s.current = lists s.crtAvps :=
  collect_linkChain (h.chain s.crtAvps) (h.length_le s.crtAvps)

theorem Wf.internalSearch {a : Option AvpPtr}
    {l₁ l₂ : List AvpPtr} (hl : lists s.crtAvps = l₁ ++ l₂)
    (ha : LinkChain s.next a l₂) (test : UsrAvp → Bool) :
    s.internalSearch test a = l₂.find? fun p => test (s.avp p) := by
  apply walk_found ha
  have hlen := h.length_le s.crtAvps
  rw [hl, List.length_append] at hlen
  omega

/-- The first search finds the first AVP that meets the test. -/
theorem Wf.searchFirstAvp (name : AvpName) : s.searchFirstAvp name =
      (lists s.crtAvps).find? fun p => name.hit (s.avp p) := by
  have hchain := h.chain s.crtAvps
  have hfind := h.internalSearch (nil_append _).symm hchain
  unfold Avps.searchFirstAvp
  by_cases hnone : s.list s.crtAvps = none
  · rw [if_pos hnone]
    rw [hnone] at hchain
    obtain hnil : lists s.crtAvps = [] := by
      cases hl : lists s.crtAvps with
      | nil => rfl
      | cons x l =>
        rw [hl] at hchain
        cases hchain.1
    rw [hnil]
    rfl
  · rw [if_neg hnone]
    have hskip : ∀ hit : UsrAvp → Bool, (∀ avp, hit avp = false) →
        (lists s.crtAvps).find? (fun p => hit (s.avp p)) = none := by
      intro hit hfalse
      rw [find?_eq_none]
      intro p _
      simp [hfalse]
    by_cases hnull : name.isNull = true
    · rw [if_pos hnull, hskip]
      intro avp
      unfold AvpName.hit
      rw [if_pos hnull]
    · rw [if_neg hnull]
      unfold AvpName.hit
      simp only [if_neg hnull]
      split
      · exact hfind _
      · exact (hskip _ fun _ => rfl).symm
      · exact (hskip _ fun _ => rfl).symm
      · exact hfind _

/-- The next search goes on with the test of the first one. -/
theorem Wf.searchNextAvp (name : AvpName)
    {l₁ l₂ : List AvpPtr} {p : AvpPtr}
    (hl : lists s.crtAvps = l₁ ++ p :: l₂)
    (hp : name.hit (s.avp p) = true) :
    s.searchNextAvp p = l₂.find? fun p => name.hit (s.avp p) := by
  have hchain := h.chain s.crtAvps
  rw [hl] at hchain
  obtain ⟨b, -, -, hrest⟩ := linkSeg_append.mp hchain
  have hl' : lists s.crtAvps = (l₁ ++ [p]) ++ l₂ := by
    rw [hl, append_assoc]
    rfl
  have hfind := h.internalSearch hl' hrest
  unfold Avps.searchNextAvp
  by_cases hnone : s.next p = none
  · rw [if_pos hnone]
    rw [hnone] at hrest
    cases l₂ with
    | nil => rfl
    | cons x l₂ => cases hrest.1
  · rw [if_neg hnone]
    unfold AvpName.hit at hp ⊢
    by_cases hnull : name.isNull = true
    · rw [if_pos hnull] at hp
      cases hp
    · simp only [if_neg hnull] at hp ⊢
      split at hp
      · simp only [matchesId, Bool.and_eq_true, decide_eq_true_eq, Option.isNone_iff_eq_none] at hp
        obtain ⟨hid, hname⟩ := hp
        rw [hname, hid]
        exact hfind _
      · cases hp
      · cases hp
      · rename_i _ c name
        cases hname : (s.avp p).name with
        | none => simp [matchesName, hname] at hp
        | some b =>
          obtain ⟨hid, hlen, hcase⟩ := (matchesName_iff hname).mp hp
          have hsame : matchesName (s.avp p).id b =
              matchesName (computeId (c :: name)) (c :: name) := by
            funext avp
            rw [Bool.eq_iff_iff]
            cases havp : avp.name with
            | none => simp [matchesName, havp]
            | some d =>
              rw [matchesName_iff havp, matchesName_iff havp, hid, hlen, hcase]
          have hfound := hfind (matchesName (s.avp p).id b)
          rw [hsame] at hfound
          rw [← hfound, ← hsame]
          rfl

theorem Wf.searchAll (name : AvpName) : s.searchAll name =
      (lists s.crtAvps).filter fun p => name.hit (s.avp p) := by
  rw [Avps.searchAll, h.searchFirstAvp name]
  apply collect_eq_filter (h.length_le s.crtAvps)
  intro l₁ p l₂ hl hp
  exact h.searchNextAvp name hl hp

end

end Avps

/-- The searches enumerate the AVPs of the current list that are asked for,
the newest one first, when the list holds no AVP that the digest confuses with
them or hides. -/
theorem search_enumerates_iff {s : Avps} (h : machine.Reach s) (name : AvpName) :
    (s.searchAll name = s.current.filter (fun p => name.Asked (s.avp p)) ∧
        (s.searchAll name).Pairwise fun p q =>
          (s.avp q).born < (s.avp p).born) ↔
      ∀ p ∈ s.current, ¬ name.Clashes (s.avp p) := by
  obtain ⟨lists, hwf⟩ := wf_of_reach h
  rw [hwf.searchAll, hwf.current_eq]
  have hagree : ∀ p ∈ lists s.crtAvps, (name.hit (s.avp p) = true ↔
      name.Asked (s.avp p)) ↔ ¬ name.Clashes (s.avp p) := fun p hp =>
    hit_iff_asked (hwf.stored p (hwf.live _ p hp)).1
  constructor
  · rintro ⟨hall, -⟩ p hp
    rw [← hagree p hp]
    have hmem : p ∈ (lists s.crtAvps).filter (fun p => name.hit (s.avp p)) ↔
        p ∈ (lists s.crtAvps).filter (fun p => name.Asked (s.avp p)) := by
      rw [hall]
    simpa [mem_filter, hp] using hmem
  · intro hclash
    constructor
    · apply filter_congr
      intro p hp
      rw [Bool.eq_iff_iff, (hagree p hp).mpr (hclash p hp)]
      simp
    · exact (hwf.newestFirst s.crtAvps).filter _

/-- Two AVPs in one list and one in another. -/
def nameCalls : List Call :=
  [.addAvp (some 1) (.str (some [102, 111, 111])) (.n 7), .addAvp (some 2) (.id 3 0) (.s [120]),
    .addAvp (some 3) (.str (some [70, 111, 79])) (.n 8),
    .setAvpList 1,
    .addAvp (some 4) (.str (some [102, 111, 111])) (.n 9),
    .setAvpList 0,
    .destroyAvp 2]

theorem search_enumerates_names : ∃ s, machine.run (Avps.empty 0) nameCalls = some s ∧
      (s.searchAll (.str (some [102, 79, 79])) = s.current.filter (fun p =>
            (AvpName.str (some [102, 79, 79])).Asked (s.avp p)) ∧
        (s.searchAll (.str (some [102, 79, 79]))).Pairwise fun p q =>
          (s.avp q).born < (s.avp p).born) := by
  refine ⟨_, rfl, (search_enumerates_iff (.run (.init ⟨0, rfl⟩) nameCalls rfl)
    (.str (some [102, 79, 79]))).mpr ?_⟩
  decide

/-- The letters of `Foo` and `foo` differ in one bit, and so do their ids. -/
theorem name_in_other_case_missed :
    ∃ s, machine.run (Avps.empty 0)
        [.addAvp (some 1) (.str (some [70, 111, 111])) (.n 7)] = some s ∧
      s.searchAll (.str (some [102, 111, 111])) = [] ∧
      s.current.filter (fun p =>
        (AvpName.str (some [102, 111, 111])).Asked (s.avp p)) = [1] :=
  ⟨_, rfl, by decide, by decide⟩

end Msicp.Avp
