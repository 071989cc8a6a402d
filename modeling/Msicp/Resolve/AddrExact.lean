import Msicp.Resolve.Ip6Exact

/-!
# What is taken for an address

`str2ip6` does not look at the length of a group, nor whether a colon at an end
of the text stands alone; and it counts colons where it should count groups.
-/

namespace Msicp.Resolve

open Msicp.Support List Option

/-! ## Loose texts -/

/-- How many empty fields have a field on either side. -/
def doubles (parts : List Bytes) : ℕ := parts.tail.dropLast.count []

/-- At most seven colons between hexadecimal digits; one double colon, or seven
single ones. -/
structure Loose (s : Bytes) : Prop where
  digits : ∀ p ∈ s.splitOn 58, p.all isHex = true
  few : (s.splitOn 58).length ≤ 8
  double : doubles (s.splitOn 58) ≤ 1
  enough : doubles (s.splitOn 58) = 1 ∨ (s.splitOn 58).length = 8

/-- The double colons that are seen, `dc` says whether a colon is right before. -/
def seen : Bool → List Bytes → ℕ
  | dc, p :: q :: ps => (dc && p.isEmpty).toNat + seen true (q :: ps)
  | _, _ => 0

theorem seen_true (ps : List Bytes) : seen true ps = ps.dropLast.count [] := by
  induction ps with
  | nil => rfl
  | cons p ps ih =>
    cases ps with
    | nil => rfl
    | cons q ps =>
      rw [seen, ih, dropLast_cons_cons, count_cons]
      cases p with
      | nil => simp [Nat.add_comm]
      | cons c p => simp

theorem seen_false (ps : List Bytes) : seen false ps = doubles ps := by
  match ps with
  | [] => rfl
  | [_] => rfl
  | p :: q :: ps =>
    rw [seen, seen_true]
    simp [doubles]

theorem loop_isSome {n idx1 : ℕ} {dc e : Bool} {l o : List UInt16} {p : Bytes}
    {ps : List Bytes} (hcolon : ∀ q ∈ p :: ps, 58 ∉ q) (ho : e = false → o = [])
    (hn : n ≤ 7) :
    ((str2ip6Loop (Ip6.reading n dc e idx1 l 0 o)
        ([58].intercalate (p :: ps))).bind Ip6.finish).isSome = true ↔
      (∀ q ∈ p :: ps, q.all isHex = true) ∧ n + ps.length ≤ 7 ∧ e.toNat + seen dc (p :: ps) ≤ 1 ∧
        (e.toNat + seen dc (p :: ps) = 1 ∨ n + ps.length = 7) := by
  induction ps generalizing n dc e idx1 l o p with
  | nil =>
    have hread := @loop_part n idx1 dc e l o _ [] (hcolon p mem_cons_self)
    rw [append_nil] at hread
    have hseen : seen dc [p] = 0 := by cases dc <;> rfl
    rw [intercalate_singleton, hread, forall_mem_singleton, hseen]
    by_cases hhex : p.all isHex = true
    · rw [if_pos hhex, and_iff_right hhex, str2ip6Loop, bind_some, finish_isSome, length_nil]
      cases e with
      | true => simpa using hn
      | false =>
        simp only [Bool.false_eq_true, false_or, Bool.toNat_false]
        omega
    · rw [if_neg hhex]
      exact iff_of_false (by simp) fun h => hhex h.1
  | cons q ps ih =>
    have hread := @loop_part n idx1 dc e l o _ (58 :: [58].intercalate (q :: ps))
        (hcolon p mem_cons_self)
    have hrest : ∀ r ∈ q :: ps, 58 ∉ r :=
      fun r hr => hcolon r (mem_cons_of_mem p hr)
    rw [intercalate_cons_cons, append_assoc, singleton_append, hread,
      seen, forall_mem_cons, length_cons]
    by_cases hhex : p.all isHex = true
    · rw [if_pos hhex, and_iff_right hhex, loop_append_colon]
      by_cases hfull : 7 ≤ n
      · rw [colon_refused (Or.inl hfull)]
        exact iff_of_false (by simp) fun h => by omega
      · have hroom : n + (ps.length + 1) = n + 1 + ps.length := by omega
        rw [hroom]
        cases hdc : (dc && p.isEmpty) with
        | false =>
          rw [colon_reading (by omega), bind_some, ih hrest ho (by omega),
            Bool.toNat_false, Nat.zero_add]
        | true =>
          cases e with
          | true =>
            rw [colon_refused (Or.inr ⟨rfl, rfl⟩)]
            refine iff_of_false (by simp) fun h => ?_
            have hle := h.2.2.1
            simp only [Bool.toNat_true] at hle
            omega
          | false =>
            have hnil : p = [] := by
              simpa using (Bool.and_eq_true_iff.mp hdc).2
            rw [ho rfl, hnil, word_nil, doubleColon_reading (by omega),
              bind_some, ih hrest (by simp) (by omega), Bool.toNat_true,
              Bool.toNat_false, Nat.zero_add]
    · rw [if_neg hhex]
      exact iff_of_false (by simp) fun h => hhex h.1.1

theorem body_isSome (s : Bytes) : (str2ip6Body s).isSome = true ↔ Loose s := by
  obtain ⟨p, ps, rfl, hcolon⟩ := exists_parts 58 s
  have hloop := @loop_isSome 0 0 false false [] [] _ _ hcolon (fun _ => rfl) (Nat.zero_le 7)
  rw [str2ip6Body, reading_start, hloop, seen_false, Bool.toNat_false, Nat.zero_add, Nat.zero_add]
  have hsplit := splitOn_intercalate 58 hcolon (cons_ne_nil p ps)
  constructor
  · rintro ⟨hdigits, hfew, hdouble, henough⟩
    constructor
    · rwa [hsplit]
    · rw [hsplit, length_cons]
      omega
    · rwa [hsplit]
    · rw [hsplit, length_cons]
      omega
  · rintro ⟨hdigits, hfew, hdouble, henough⟩
    rw [hsplit] at hdigits hfew hdouble henough
    rw [length_cons] at hfew henough
    exact ⟨hdigits, by omega, hdouble, by omega⟩

/-! ## Tidy texts -/

/-- The first field is empty, and the one behind it is not. -/
def LoneStart (parts : List Bytes) : Prop :=
  ∃ q rest, parts = [] :: q :: rest ∧ q ≠ []

/-- The last field is empty, and the one before it is not. -/
def LoneEnd (parts : List Bytes) : Prop :=
  ∃ q rest, parts = rest ++ [q, []] ∧ q ≠ []

/-- No group is too long, and no colon stands alone at an end. -/
structure Tidy (s : Bytes) : Prop where
  short : ∀ p ∈ s.splitOn 58, p.length ≤ 4
  start : ¬ LoneStart (s.splitOn 58)
  finish : ¬ LoneEnd (s.splitOn 58)

theorem splitOn_short {front back : List Bytes} (h : ∀ p ∈ front ++ back, IsGroup p) :
    ([58].intercalate front ++ 58 :: 58 :: [58].intercalate back).splitOn 58 =
      fields front ++ [] :: fields back := by
  have hnil : List.splitOn 58 (58 :: [58].intercalate back) =
      [] :: ([58].intercalate back).splitOn 58 :=
    splitOn_append_cons_self (a := 58) [] ([58].intercalate back)
  rw [splitOn_append_cons_self, hnil, splitOn_groups fun p hp => h p (mem_append_left _ hp),
    splitOn_groups fun p hp => h p (mem_append_right _ hp)]

variable (groups : List Bytes)

theorem fields_cases :
    groups = [] ∧ fields groups = [[]] ∨ groups ≠ [] ∧ fields groups = groups := by
  by_cases hnil : groups = []
  · exact Or.inl ⟨hnil, if_pos hnil⟩
  · exact Or.inr ⟨hnil, if_neg hnil⟩

theorem not_isGroup_nil : ¬ IsGroup [] := fun h => h.nonempty rfl

theorem mem_fields {groups : List Bytes} (h : ∀ p ∈ groups, IsGroup p) {p : Bytes}
    (hp : p ∈ fields groups) : p.length ≤ 4 := by
  rcases fields_cases groups with ⟨-, hf⟩ | ⟨-, hf⟩
  · rw [hf, mem_singleton] at hp
    rw [hp]
    exact Nat.zero_le 4
  · rw [hf] at hp
    exact (h p hp).le

variable {s : Bytes} {ip : IpAddr} {parts : List Bytes}

theorem IsIp6.tidy (h : IsIp6 s ip) : Tidy s := by
  obtain ⟨-, ⟨parts, hlen, hparts, rfl, -⟩ | ⟨front, back, -, hgroups, rfl, -⟩⟩ := h
  · have hne : parts ≠ [] := ne_nil_of_length_eq_add_one hlen
    have hsplit := splitOn_intercalate 58 (fun p hp => (hparts p hp).colon) hne
    constructor
    · rw [hsplit]
      exact fun p hp => (hparts p hp).le
    · rw [hsplit]
      rintro ⟨q, rest, rfl, -⟩
      exact not_isGroup_nil (hparts [] mem_cons_self)
    · rw [hsplit]
      rintro ⟨q, rest, rfl, -⟩
      exact not_isGroup_nil (hparts [] (by simp))
  · have hfront : ∀ p ∈ front, IsGroup p :=
      fun p hp => hgroups p (mem_append_left _ hp)
    have hback : ∀ p ∈ back, IsGroup p :=
      fun p hp => hgroups p (mem_append_right _ hp)
    constructor
    · rw [splitOn_short hgroups]
      intro p hp
      rcases mem_append.mp hp with hp | hp
      · exact mem_fields hfront hp
      · rcases mem_cons.mp hp with rfl | hp
        · exact Nat.zero_le 4
        · exact mem_fields hback hp
    · rw [splitOn_short hgroups]
      rintro ⟨q, rest, heq, hq⟩
      rcases fields_cases front with ⟨-, hf⟩ | ⟨hne, hf⟩
      · rw [hf] at heq
        simp only [singleton_append, List.cons.injEq, true_and] at heq
        exact hq heq.1.symm
      · obtain ⟨p, ps, rfl⟩ := exists_cons_of_ne_nil hne
        rw [hf, cons_append, List.cons.injEq] at heq
        exact not_isGroup_nil (heq.1 ▸ hfront p mem_cons_self)
    · rw [splitOn_short hgroups]
      rintro ⟨q, rest, heq, hq⟩
      rcases fields_cases back with ⟨-, hf⟩ | ⟨hne, hf⟩
      · rw [hf] at heq
        have hlast := (append_inj' heq rfl).2
        simp only [List.cons.injEq, and_true] at hlast
        exact hq hlast.symm
      · obtain ⟨ps, p, rfl⟩ := (eq_nil_or_concat' back).resolve_left hne
        have hcut : (fields front ++ [] :: ps) ++ [p] = (rest ++ [q]) ++ [[]] := by
          rw [hf] at heq
          simpa using heq
        have hlast := (append_inj' hcut rfl).2
        rw [List.cons.injEq] at hlast
        exact not_isGroup_nil (hlast.1 ▸ hback p (by simp))

/-! ## A tidy text is an address -/

theorem IpAddr.eq_of {ip' : IpAddr} (haf : ip.af = ip'.af)
    (haddr : ip.addr = ip'.addr) : ip = ip' := IpAddr.ext haf haddr

theorem body_of_ip6 (h : IsIp6 s ip)
    (hfew : (s.splitOn 58).length ≤ 8) : str2ip6Body s = some ip := by
  obtain ⟨haf, ⟨parts, hlen, hparts, rfl, haddr⟩ |
    ⟨front, back, -, hgroups, rfl, haddr⟩⟩ := h
  · obtain ⟨ip', hread, haf', haddr'⟩ := body_full hlen hparts
    rw [hread, IpAddr.eq_of (haf'.trans haf.symm) (haddr'.trans haddr.symm)]
  · rw [splitOn_short hgroups, List.length_append, length_cons] at hfew
    obtain ⟨ip', hread, haf', haddr'⟩ := body_short hgroups (by omega)
    rw [hread, IpAddr.eq_of (haf'.trans haf.symm) (haddr'.trans haddr.symm)]

theorem exists_groups (hne : parts ≠ [])
    (hhex : ∀ p ∈ parts, p.all isHex = true) (hshort : ∀ p ∈ parts, p.length ≤ 4)
    (h : parts = [[]] ∨ [] ∉ parts) :
    ∃ groups, (∀ p ∈ groups, IsGroup p) ∧ fields groups = parts := by
  rcases h with rfl | hnil
  · exact ⟨[], by simp, rfl⟩
  · refine ⟨parts, fun p hp => ⟨?_, List.all_eq_true.mp (hhex p hp), hshort p hp⟩, if_neg hne⟩
    rintro rfl
    exact hnil hp

theorem intercalate_fields : [58].intercalate (fields groups) = [58].intercalate groups := by
  rcases fields_cases groups with ⟨rfl, hf⟩ | ⟨-, hf⟩
  · rfl
  · rw [hf]

theorem intercalate_append {as bs : List Bytes} (ha : as ≠ []) (hb : bs ≠ []) :
    [58].intercalate (as ++ bs) = [58].intercalate as ++ 58 :: [58].intercalate bs := by
  induction as with
  | nil => exact absurd rfl ha
  | cons p as ih =>
    by_cases has : as = []
    · rw [has, singleton_append, intercalate_cons_of_ne_nil hb]
      simp
    · rw [cons_append, intercalate_cons_of_ne_nil (by simp [has]), ih has,
        intercalate_cons_of_ne_nil has]
      simp

theorem length_le_fields : groups.length ≤ (fields groups).length := by
  rcases fields_cases groups with ⟨rfl, -⟩ | ⟨-, hf⟩
  · exact Nat.zero_le _
  · rw [hf]

theorem exists_double (h : doubles parts = 1) :
    ∃ p ms ns z, parts = (p :: ms) ++ [] :: (ns ++ [z]) ∧ [] ∉ ms ∧ [] ∉ ns := by
  cases parts with
  | nil => simp [doubles] at h
  | cons p ps =>
    have hcount : ps.dropLast.count [] = 1 := h
    have hmem : [] ∈ ps.dropLast := by
      apply count_pos_iff.mp
      omega
    obtain ⟨ms, ns, hcut⟩ := append_of_mem hmem
    have hne : ps ≠ [] := by
      rintro rfl
      simp at hmem
    have hps := dropLast_append_getLast hne
    rw [hcut, count_append, count_cons_self] at hcount
    refine ⟨p, ms, ns, ps.getLast hne, ?_, ?_, ?_⟩
    · calc p :: ps = p :: (ps.dropLast ++ [ps.getLast hne]) := by rw [hps]
        _ = (p :: ms) ++ [] :: (ns ++ [ps.getLast hne]) := by
          rw [hcut]
          simp
    · exact count_eq_zero.mp (by omega)
    · exact count_eq_zero.mp (by omega)

theorem exists_ip6_full (hdigits : ∀ p ∈ parts, p.all isHex = true)
    (hshort : ∀ p ∈ parts, p.length ≤ 4) (hstart : ¬ LoneStart parts)
    (hend : ¬ LoneEnd parts) (hnone : doubles parts = 0) (hlen : parts.length = 8) :
    ∃ ip, IsIp6 ([58].intercalate parts) ip := by
  have hnil : [] ∉ parts := by
    match parts, hlen with
    | [a, b, c, d, e, f, g, h], _ =>
      have hmid : ([b, c, d, e, f, g] : List Bytes).count [] = 0 := hnone
      have hmid' := count_eq_zero.mp hmid
      intro hmem
      by_cases ha : a = []
      · subst ha
        exact hstart ⟨b, _, rfl, fun hb => hmid' (by simp [hb])⟩
      · by_cases hh : h = []
        · subst hh
          exact hend ⟨g, [a, b, c, d, e, f], rfl, fun hg => hmid' (by simp [hg])⟩
        · simp only [mem_cons, not_mem_nil, or_false] at hmem hmid'
          rcases hmem with h₁ | h₂ | h₃ | h₄ | h₅ | h₆ | h₇ | h₈
          · exact ha h₁.symm
          · exact hmid' (Or.inl h₂)
          · exact hmid' (Or.inr (Or.inl h₃))
          · exact hmid' (Or.inr (Or.inr (Or.inl h₄)))
          · exact hmid' (Or.inr (Or.inr (Or.inr (Or.inl h₅))))
          · exact hmid' (Or.inr (Or.inr (Or.inr (Or.inr (Or.inl h₆)))))
          · exact hmid' (Or.inr (Or.inr (Or.inr (Or.inr (Or.inr h₇)))))
          · exact hh h₈.symm
  have hparts : ∀ p ∈ parts, IsGroup p := by
    intro p hp
    refine ⟨?_, List.all_eq_true.mp (hdigits p hp), hshort p hp⟩
    rintro rfl
    exact hnil hp
  obtain ⟨ip, -, haf, haddr⟩ := body_full hlen hparts
  exact ⟨ip, haf, Or.inl ⟨parts, hlen, hparts, rfl, haddr⟩⟩

theorem exists_ip6_short (hdigits : ∀ p ∈ parts, p.all isHex = true)
    (hshort : ∀ p ∈ parts, p.length ≤ 4) (hstart : ¬ LoneStart parts)
    (hend : ¬ LoneEnd parts) (hone : doubles parts = 1) (hfew : parts.length ≤ 8) :
    ∃ ip, IsIp6 ([58].intercalate parts) ip := by
  obtain ⟨p, ms, ns, z, rfl, hms, hns⟩ := exists_double hone
  have hback : ∀ q ∈ ns ++ [z], q ∈ (p :: ms) ++ [] :: (ns ++ [z]) :=
    fun q hq => mem_append_right _ (mem_cons_of_mem _ hq)
  have hfront : ∀ q ∈ p :: ms, q ∈ (p :: ms) ++ [] :: (ns ++ [z]) :=
    fun q hq => mem_append_left _ hq
  obtain ⟨front, hgroups, hf⟩ := exists_groups (cons_ne_nil p ms)
    (fun q hq => hdigits q (hfront q hq)) (fun q hq => hshort q (hfront q hq)) (by
      by_cases hp : p = []
      · cases ms with
        | nil => exact Or.inl (by rw [hp])
        | cons q ms =>
          subst hp
          exact absurd ⟨q, _, rfl, fun hq => hms (by simp [hq])⟩ hstart
      · refine Or.inr fun hmem => ?_
        rcases mem_cons.mp hmem with h | h
        · exact hp h.symm
        · exact hms h)
  obtain ⟨back, hgroups', hb⟩ := exists_groups (show ns ++ [z] ≠ [] by simp)
    (fun q hq => hdigits q (hback q hq)) (fun q hq => hshort q (hback q hq)) (by
      by_cases hz : z = []
      · rcases eq_nil_or_concat' ns with rfl | ⟨ns, q, rfl⟩
        · exact Or.inl (by rw [hz, nil_append])
        · subst hz
          refine absurd ⟨q, (p :: ms) ++ [] :: ns, by simp, ?_⟩ hend
          exact fun hq => hns (by simp [hq])
      · refine Or.inr fun hmem => ?_
        rcases mem_append.mp hmem with h | h
        · exact hns h
        · exact hz (mem_singleton.mp h).symm)
  have hall : ∀ q ∈ front ++ back, IsGroup q := by
    intro q hq
    rcases mem_append.mp hq with hq | hq
    · exact hgroups q hq
    · exact hgroups' q hq
  have htext : [58].intercalate ((p :: ms) ++ [] :: (ns ++ [z])) =
      [58].intercalate front ++ 58 :: 58 :: [58].intercalate back := by
    have hempty : [58].intercalate ([] :: (ns ++ [z])) = 58 :: [58].intercalate (ns ++ [z]) := by
      rw [intercalate_cons_of_ne_nil (by simp)]
      rfl
    rw [intercalate_append (cons_ne_nil p ms) (cons_ne_nil _ _), hempty,
      ← hf, ← hb, intercalate_fields, intercalate_fields]
  have hlen : (fields front).length + (fields back).length ≤ 7 := by
    have hrear : ([] :: (ns ++ [z])).length = (ns ++ [z]).length + 1 := rfl
    rw [List.length_append, hrear] at hfew
    rw [hf, hb]
    omega
  have hfl := length_le_fields front
  have hbl := length_le_fields back
  obtain ⟨ip, -, haf, haddr⟩ := body_short hall hlen
  exact ⟨ip, haf, Or.inr ⟨front, back, by omega, hall, htext, haddr⟩⟩

theorem exists_ip6 (hloose : Loose s) (htidy : Tidy s) : ∃ ip, IsIp6 s ip := by
  rw [← @intercalate_splitOn _ s _ _ 58]
  by_cases hone : doubles (s.splitOn 58) = 1
  · exact exists_ip6_short hloose.digits htidy.short htidy.start htidy.finish hone hloose.few
  · have hnone : doubles (s.splitOn 58) = 0 := by
      have hle := hloose.double
      omega
    exact exists_ip6_full hloose.digits htidy.short htidy.start htidy.finish hnone
      (hloose.enough.resolve_left hone)

/-- A loose text is tidy, and an address has at most seven colons. -/
structure Regular (s : Bytes) : Prop where
  tidy : Loose s → Tidy s
  few : ∀ ip, IsIp6 s ip → (s.splitOn 58).length ≤ 8

theorem body_right_iff (s : Bytes) : (∀ ip, str2ip6Body s = some ip ↔ IsIp6 s ip) ↔ Regular s := by
  constructor
  · intro h
    constructor
    · intro hloose
      obtain ⟨ip, hip⟩ := isSome_iff_exists.mp ((body_isSome s).mpr hloose)
      exact ((h ip).mp hip).tidy
    · intro ip hip
      exact ((body_isSome s).mp (isSome_of_eq_some ((h ip).mpr hip))).few
  · intro h ip
    constructor
    · intro hread
      have hloose := (body_isSome s).mp (isSome_of_eq_some hread)
      obtain ⟨ip', hip'⟩ := exists_ip6 hloose (h.tidy hloose)
      have hread' := body_of_ip6 hip' (h.few ip' hip')
      rw [hread] at hread'
      rw [some.inj hread']
      exact hip'
    · intro hip
      exact body_of_ip6 hip (h.few ip hip)

end Msicp.Resolve

/-!
## Addresses in brackets, and addresses that have been written

What `ip_addr2a` has written is read back.
-/

namespace Msicp.Resolve

open Msicp.Support

/-! ## Brackets -/

theorem head?_groups {groups : List Bytes} (h : ∀ p ∈ groups, IsGroup p) (s : Bytes) :
    ([58].intercalate groups ++ 58 :: s).head? ≠ some 91 := by
  cases groups with
  | nil => simp
  | cons p ps =>
    have hp := h p List.mem_cons_self
    obtain ⟨c, p, rfl⟩ := List.exists_cons_of_ne_nil hp.nonempty
    have hc : c ≠ 91 := by
      rintro rfl
      exact absurd (hp.digits 91 List.mem_cons_self) (by decide)
    rw [List.intercalate_cons_cons_left]
    simpa using hc

theorem IsIp6.head {s : Bytes} {ip : IpAddr} (h : IsIp6 s ip) : s.head? ≠ some 91 := by
  obtain ⟨-, ⟨parts, hlen, hparts, rfl, -⟩ | ⟨front, back, -, hgroups, rfl, -⟩⟩ := h
  · obtain ⟨p, ps, rfl⟩ :=
      List.exists_cons_of_ne_nil (List.ne_nil_of_length_eq_add_one hlen)
    have hps : ps ≠ [] := by
      rintro rfl
      simp at hlen
    have hhead := @head?_groups [p] (fun q hq => hparts q (by
        rw [List.mem_singleton.mp hq]
        exact List.mem_cons_self)) ([58].intercalate ps)
    rw [List.intercalate_cons_of_ne_nil hps]
    simpa using hhead
  · exact head?_groups (fun p hp => hgroups p (List.mem_append_left _ hp)) _

/-- `str2ip6` accepts the addresses, alone or in brackets, and nothing else. -/
def Ip6Right (text : Bytes) : Prop :=
  ∀ ip, str2ip6 text = some ip ↔ IsIp6Text text ip

theorem str2ip6_bracket (s : Bytes) : str2ip6 (91 :: (s ++ [93])) = str2ip6Body s := by
  have hlast : (91 :: (s ++ [93])).getLast? = some 93 := by
    rw [← List.cons_append, List.getLast?_concat]
  rw [str2ip6, if_pos List.head?_cons, if_neg (by simp [hlast]), List.tail_cons,
    List.dropLast_concat]

theorem str2ip6_plain {text : Bytes} (h : text.head? ≠ some 91) :
    str2ip6 text = str2ip6Body text := by
  rw [str2ip6, if_neg h]

theorem isIp6Text_bracket (s : Bytes) (ip : IpAddr) :
    IsIp6Text (91 :: (s ++ [93])) ip ↔ IsIp6 s ip := by
  constructor
  · rintro (h | ⟨s', heq, h⟩)
    · exact absurd rfl h.head
    · have hcut := (List.append_inj' (List.cons.inj heq).2 rfl).1
      rwa [hcut]
  · exact fun h => Or.inr ⟨s, rfl, h⟩

theorem isIp6Text_plain {text : Bytes} (h : text.head? ≠ some 91) (ip : IpAddr) :
    IsIp6Text text ip ↔ IsIp6 text ip := by
  refine ⟨?_, Or.inl⟩
  rintro (hip | ⟨s, rfl, -⟩)
  · exact hip
  · exact absurd rfl h

/-- It does so for a text that is regular, its brackets taken off. -/
theorem ip6Right_iff (text : Bytes) : Ip6Right text ↔ (text.head? ≠ some 91 → Regular text) ∧
      ∀ s, text = 91 :: (s ++ [93]) → Regular s := by
  by_cases hhead : text.head? = some 91
  · by_cases hlast : text.getLast? = some 93
    · obtain ⟨s, rfl⟩ : ∃ s, text = 91 :: (s ++ [93]) := by
        cases text with
        | nil => simp at hhead
        | cons c t =>
          rcases List.eq_nil_or_concat' t with rfl | ⟨s, d, rfl⟩
          · rw [List.head?_cons] at hhead
            rw [List.getLast?_singleton, hhead] at hlast
            exact absurd hlast (by decide)
          · rw [← List.cons_append, List.getLast?_concat, Option.some.injEq] at hlast
            rw [List.head?_cons, Option.some.injEq] at hhead
            exact ⟨s, by rw [hhead, hlast]⟩
      rw [Ip6Right, str2ip6_bracket]
      simp only [isIp6Text_bracket]
      rw [body_right_iff]
      constructor
      · intro h
        refine ⟨fun hne => absurd hhead hne, fun s' heq => ?_⟩
        rwa [← (List.append_inj' (List.cons.inj heq).2 rfl).1]
      · exact fun h => h.2 s rfl
    · have hnone : str2ip6 text = none := by
        rw [str2ip6, if_pos hhead, if_pos hlast]
      have hbracket : ∀ s, text ≠ 91 :: (s ++ [93]) := by
        rintro s rfl
        rw [← List.cons_append, List.getLast?_concat] at hlast
        exact hlast rfl
      refine iff_of_true ?_ ⟨fun hne => absurd hhead hne, fun s h => absurd h (hbracket s)⟩
      intro ip
      rw [hnone]
      refine iff_of_false (by simp) ?_
      rintro (hip | ⟨s, heq, -⟩)
      · exact hip.head hhead
      · exact hbracket s heq
  · rw [Ip6Right, str2ip6_plain hhead]
    simp only [isIp6Text_plain hhead]
    rw [body_right_iff]
    constructor
    · intro h
      refine ⟨fun _ => h, ?_⟩
      rintro s rfl
      exact absurd rfl hhead
    · exact fun h => h.1 hhead

/-! ## What `ip_addr2a` writes -/

theorem hex2i_hexdig {d : ℕ} (hd : d < 16) : hex2i (hexdig d) = some d := by
  have hall : ∀ d ∈ List.range 16, hex2i (hexdig d) = some d := by decide
  exact hall d (List.mem_range.mpr hd)

theorem hexadecimal_hexdig {ds : List ℕ} (h : ∀ d ∈ ds, d < 16) :
    hexadecimal (ds.map hexdig) = ds.foldl (fun v d => v * 16 + d) 0 := by
  rw [hexadecimal, List.foldl_map]
  refine List.foldl_ext _ _ _ fun v d hd => ?_
  rw [hex2i_hexdig (h d hd), Option.getD_some]

theorem hexText_digits {hex4 : ℕ} (h : hex4 < 65536) :
    ∃ ds : List ℕ, hexText hex4 = ds.map hexdig ∧ ds ≠ [] ∧ ds.length ≤ 4 ∧
      (∀ d ∈ ds, d < 16) ∧ ds.foldl (fun v d => v * 16 + d) 0 = hex4 := by
  have ha : hex4 / 4096 < 16 := by omega
  simp only [hexText]
  split_ifs with hfour hthree htwo
  · exact ⟨[hex4 / 4096, hex4 / 256 % 16, hex4 / 16 % 16, hex4 % 16], rfl, by simp,
      le_refl 4, by simp; omega, by simp only [List.foldl]; omega⟩
  · exact ⟨[hex4 / 256 % 16, hex4 / 16 % 16, hex4 % 16], rfl, by simp, by simp,
      by simp; omega, by simp only [List.foldl]; omega⟩
  · exact ⟨[hex4 / 16 % 16, hex4 % 16], rfl, by simp, by simp, by simp; omega,
      by simp only [List.foldl]; omega⟩
  · exact ⟨[hex4 % 16], rfl, by simp, by simp, by simp; omega, by simp only [List.foldl]; omega⟩

theorem hexText_group {hex4 : ℕ} (h : hex4 < 65536) :
    IsGroup (hexText hex4) ∧ hexadecimal (hexText hex4) = hex4 := by
  obtain ⟨ds, htext, hne, hlen, hdigit, hval⟩ := hexText_digits h
  rw [htext, hexadecimal_hexdig hdigit, hval]
  refine ⟨⟨by simpa using hne, fun c hc => ?_, by simpa using hlen⟩, rfl⟩
  obtain ⟨d, hd, rfl⟩ := List.mem_map.mp hc
  rw [isHex, hex2i_hexdig (hdigit d hd)]
  rfl

theorem networkOrder_word (a b : UInt8) :
    networkOrder [(htons (UInt16.ofNat (a.toNat + b.toNat * 256))).toNat] = [a, b] := by
  have ha := a.toNat_lt
  have hb := b.toNat_lt
  have hword : (UInt16.ofNat (a.toNat + b.toNat * 256)).toNat = a.toNat + b.toNat * 256 := by
    rw [UInt16.toNat_ofNat']
    omega
  have hfirst : (a.toNat + b.toNat * 256) % 256 = a.toNat := by omega
  have hsecond : (a.toNat + b.toNat * 256) / 256 = b.toNat := by omega
  have hswap : (htons (UInt16.ofNat (a.toNat + b.toNat * 256))).toNat =
      a.toNat * 256 + b.toNat := by
    rw [htons, UInt16.toNat_ofNat', hword, hfirst, hsecond]
    omega
  have hhigh : (a.toNat * 256 + b.toNat) / 256 = a.toNat := by omega
  have hlow : (a.toNat * 256 + b.toNat) % 256 = b.toNat := by omega
  rw [hswap, networkOrder, List.flatMap_singleton, hhigh, hlow, UInt8.ofNat_toNat,
    UInt8.ofNat_toNat]

theorem networkOrder_words {addr : Bytes} (h : addr.length = 16) :
    networkOrder ((List.range 8).map fun r => (htons (addr16 addr r)).toNat) = addr := by
  have hword : ∀ r, networkOrder [(htons (addr16 addr r)).toNat] =
      [addr.getD (2 * r) 0, addr.getD (2 * r + 1) 0] :=
    fun r => networkOrder_word _ _
  have hcut : networkOrder ((List.range 8).map fun r => (htons (addr16 addr r)).toNat) =
      (List.range 8).flatMap fun r => [addr.getD (2 * r) 0, addr.getD (2 * r + 1) 0] := by
    rw [networkOrder, List.flatMap_map]
    refine List.flatMap_congr fun r _ => ?_
    rw [← hword r, networkOrder, List.flatMap_singleton]
  rw [hcut]
  exact map_filled h

/-- An IPv6 address is written as eight groups. -/
theorem ipAddr2a_groups (ip : IpAddr) (h : ip.af = .inet6) :
    ∃ parts : List Bytes, parts.length = 8 ∧ (∀ p ∈ parts, IsGroup p) ∧
      ipAddr2a ip = [58].intercalate parts ∧
      ip.addr = networkOrder (parts.map hexadecimal) := by
  have hlen : ip.addr.length = 16 := by
    rw [ip.len_eq, h]
    rfl
  have hgroup : ∀ r, IsGroup (hexText (htons (addr16 ip.addr r)).toNat) ∧
      hexadecimal (hexText (htons (addr16 ip.addr r)).toNat) = (htons (addr16 ip.addr r)).toNat :=
    fun r => hexText_group (htons (addr16 ip.addr r)).toNat_lt
  refine ⟨(List.range 8).map fun r => hexText (htons (addr16 ip.addr r)).toNat, by simp, ?_, ?_, ?_⟩
  · intro p hp
    obtain ⟨r, -, rfl⟩ := List.mem_map.mp hp
    exact (hgroup r).1
  · rw [List.range_succ, List.map_append, List.map_singleton, intercalate_concat, List.flatMap_map]
    simp [ipAddr2a, h]
  · rw [List.map_map]
    have hval : (List.range 8).map (hexadecimal ∘ fun r =>
        hexText (htons (addr16 ip.addr r)).toNat) =
          (List.range 8).map fun r => (htons (addr16 ip.addr r)).toNat :=
      List.map_congr_left fun r _ => (hgroup r).2
    rw [hval, networkOrder_words hlen]

theorem str2ip6_ipAddr2a (ip : IpAddr) (h : ip.af = .inet6) : str2ip6 (ipAddr2a ip) = some ip := by
  obtain ⟨parts, hlen, hparts, htext, haddr⟩ := ipAddr2a_groups ip h
  have hip : IsIp6 (ipAddr2a ip) ip := ⟨h, Or.inl ⟨parts, hlen, hparts, htext, haddr⟩⟩
  have hsplit := List.splitOn_intercalate 58 (fun p hp => (hparts p hp).colon)
    (List.ne_nil_of_length_eq_add_one hlen)
  rw [str2ip6_plain hip.head]
  apply body_of_ip6 hip
  rw [htext, hsplit, hlen]

/-- What is written for an address is read back. -/
def ReadBack (ip : IpAddr) : Prop :=
  match ip.af with
  | .inet => str2ip (ipAddr2a ip) = some ip
  | .inet6 => str2ip6 (ipAddr2a ip) = some ip

theorem readBack (ip : IpAddr) : ReadBack ip := by
  rw [ReadBack]
  cases h : ip.af with
  | inet => exact str2ip_ipAddr2a ip h
  | inet6 => exact str2ip6_ipAddr2a ip h

/-- The texts for which `str2ip` and `str2ip6` are right; every address is read
back. -/
theorem addr_texts_right_iff (text : Bytes) (ip : IpAddr) :
    (QuadRight text ↔ ∀ parts, IsDigits text parts → ∀ p ∈ parts, IsOctet p) ∧
      (Ip6Right text ↔ (text.head? ≠ some 91 → Regular text) ∧
        ∀ s, text = 91 :: (s ++ [93]) → Regular s) ∧
      ReadBack ip :=
  ⟨quadRight_iff text, ip6Right_iff text, readBack ip⟩

/-- An octet that is too large is taken modulo 256. -/
theorem addr_texts_wrap :
    ¬ ((∀ text, QuadRight text) ∧ (∀ text, Ip6Right text) ∧ ∀ ip, ReadBack ip) := by
  rintro ⟨hquad, -, -⟩
  have hoctet := (quadRight_iff (ascii "256.0.0.1")).mp (hquad _)
    [ascii "256", ascii "0", ascii "0", ascii "1"] ?_ (ascii "256") (by simp)
  · exact absurd hoctet.le (by decide)
  · have hdigits : [ascii "256", ascii "0", ascii "0", ascii "1"].all
        (fun p => p.all Tcp.isDigit) = true := by decide
    refine ⟨rfl, fun p hp => ?_, by decide⟩
    exact List.all_eq_true.mp (List.all_eq_true.mp hdigits p hp)

end Msicp.Resolve
