import Msicp.Resolve.IpText
import Mathlib.Data.List.Induction

/-!
# The groups of an IPv6 address

The loop of `str2ip6` is followed from colon to colon.
-/

namespace Msicp.Resolve

open Msicp.Support List

/-- The word that is kept of a string of hexadecimal digits. -/
def word (p : Bytes) : UInt16 := UInt16.ofNat (hexadecimal p)

/-- The groups `l` have been read, and `w` of the one at hand; the other array
has the groups `o`. -/
def Ip6.reading (noColons : ℕ) (doubleColon inEnd : Bool) (idx1 : ℕ)
    (l : List UInt16) (w : UInt16) (o : List UInt16) : Ip6 :=
  ⟨l.length, idx1, noColons, doubleColon, inEnd,
    if inEnd then filled o else filled (l ++ [w]),
    if inEnd then filled (l ++ [w]) else filled o⟩

variable {n idx1 : ℕ} {dc e : Bool} {l o : List UInt16} {w : UInt16} {p q s : Bytes}

theorem Ip6.reading_addr : (Ip6.reading n dc e idx1 l w o).addr l.length = w := by
  cases e with
  | false => exact filled_last l w
  | true => exact filled_last l w

theorem Ip6.reading_put (v : UInt16) :
    (Ip6.reading n dc e idx1 l w o).put v = Ip6.reading n dc e idx1 l v o := by
  have hupdate := update_filled_last l w v
  cases e with
  | false => simp [Ip6.reading, Ip6.put, hupdate]
  | true => simp [Ip6.reading, Ip6.put, hupdate]

theorem hexadecimal_concat (q : Bytes) (c : UInt8) :
    hexadecimal (q ++ [c]) = hexadecimal q * 16 + (hex2i c).getD 0 := by
  rw [hexadecimal, foldl_append]
  rfl

theorem word_concat (q : Bytes) (c : UInt8) {hex : ℕ} (h : hex2i c = some hex) :
    UInt16.ofNat ((word q).toNat * 16 + hex) = word (q ++ [c]) := by
  apply UInt16.toNat_inj.mp
  rw [word, word, hexadecimal_concat, h, Option.getD_some, UInt16.toNat_ofNat',
    UInt16.toNat_ofNat', UInt16.toNat_ofNat']
  omega

theorem Ip6.reading_digit {c : UInt8} {hex : ℕ} (h : hex2i c = some hex) :
    (Ip6.reading n dc e idx1 l (word q) o).digit hex =
      Ip6.reading n false e idx1 l (word (q ++ [c])) o := by
  have haddr := @Ip6.reading_addr n idx1 dc e l o (word q)
  have hi : (Ip6.reading n dc e idx1 l (word q) o).i = l.length := rfl
  rw [Ip6.digit, hi, haddr, word_concat q c h, Ip6.reading_put]
  rfl

/-- Digits go into the group at hand; anything else but a colon is refused. -/
theorem loop_digits (hp : 58 ∉ p) : str2ip6Loop (Ip6.reading n dc e idx1 l (word q) o) (p ++ s) =
      if p.all isHex then
        str2ip6Loop (Ip6.reading n (dc && p.isEmpty) e idx1 l (word (q ++ p)) o) s
      else none := by
  induction p generalizing q dc with
  | nil => simp
  | cons c p ih =>
    have hc : c ≠ 58 := fun h => hp (h ▸ mem_cons_self)
    rw [cons_append, str2ip6Loop, if_neg hc, all_cons]
    cases hhex : hex2i c with
    | none => simp [isHex, hhex]
    | some hex =>
      have hrest := @ih false (q ++ [c]) fun h => hp (mem_cons_of_mem c h)
      simp only [Ip6.reading_digit hhex, hrest, isHex, hhex]
      simp [isHex]

theorem word_nil : word [] = 0 := rfl

theorem loop_part (hp : 58 ∉ p) : str2ip6Loop (Ip6.reading n dc e idx1 l 0 o) (p ++ s) =
      if p.all isHex then
        str2ip6Loop (Ip6.reading n (dc && p.isEmpty) e idx1 l (word p) o) s
      else none := by
  rw [← word_nil]
  exact loop_digits (q := []) hp

theorem reading_next (v : UInt16) :
    { Ip6.reading n dc e idx1 l v o with i := l.length + 1 } =
      Ip6.reading n dc e idx1 (l ++ [v]) 0 o := by
  simp [Ip6.reading, filled_zero, -append_assoc]

theorem colon_reading (hn : n < 7) : (Ip6.reading n false e idx1 l w o).colon =
      some (Ip6.reading (n + 1) true e idx1 (l ++ [htons w]) 0 o) := by
  have hcolon : (Ip6.reading n false e idx1 l w o).colon =
      if 7 < n + 1 then none
      else
        let t := (Ip6.reading (n + 1) true e idx1 l w o).put
          (htons ((Ip6.reading (n + 1) false e idx1 l w o).addr l.length))
        some { t with i := t.i + 1 } := rfl
  rw [hcolon, if_neg (by omega), Ip6.reading_addr, Ip6.reading_put]
  exact congrArg some (reading_next (htons w))

theorem doubleColon_reading (hn : n < 7) : (Ip6.reading n true false idx1 l 0 []).colon =
      some (Ip6.reading (n + 1) true true l.length [] 0 l) := by
  have hcount : ¬ 7 < n + 1 := by omega
  have hzero : filled ([0] : List UInt16) = filled [] := filled_zero []
  simp [Ip6.colon, Ip6.reading, hcount, filled_zero, hzero]

theorem colon_refused (h : 7 ≤ n ∨ dc = true ∧ e = true) :
    (Ip6.reading n dc e idx1 l w o).colon = none := by
  rcases h with hn | ⟨rfl, rfl⟩
  · simp [Ip6.colon, Ip6.reading, show 7 < n + 1 by omega]
  · simp [Ip6.colon, Ip6.reading]

/-! ## The whole loop -/

theorem reading_start : (⟨0, 0, 0, false, false, fun _ => 0, fun _ => 0⟩ : Ip6) =
      Ip6.reading 0 false false 0 [] 0 [] := by
  have hzero : filled ([0] : List UInt16) = filled [] := filled_zero []
  simp [Ip6.reading, hzero, filled_nil]

theorem loop_append_colon (t : Ip6) (s : Bytes) :
    str2ip6Loop t (58 :: s) = t.colon.bind fun t => str2ip6Loop t s := by
  rw [str2ip6Loop, if_pos rfl]

theorem loop_groups {ps : List Bytes} (hps : ∀ p ∈ ps, p ≠ [] ∧ p.all isHex = true)
    (hn : n + ps.length ≤ 7) :
    str2ip6Loop (Ip6.reading n dc e idx1 l 0 o) ((ps.flatMap fun p => p ++ [58]) ++ s) =
      str2ip6Loop (Ip6.reading (n + ps.length) (dc || !ps.isEmpty) e idx1
        (l ++ ps.map (htons ∘ word)) 0 o) s := by
  induction ps generalizing n dc l with
  | nil => simp
  | cons p ps ih =>
    obtain ⟨hne, hall⟩ := hps p mem_cons_self
    have hempty : p.isEmpty = false := by
      simpa using hne
    have hcolon : 58 ∉ p := by
      intro h
      exact absurd (List.all_eq_true.mp hall 58 h) (by decide)
    rw [length_cons] at hn
    have hrest := @ih (n + 1) true (l ++ [htons (word p)])
      (fun q hq => hps q (mem_cons_of_mem p hq)) (by omega)
    rw [flatMap_cons, append_assoc, append_assoc, loop_part hcolon,
      if_pos hall, hempty, Bool.and_false, singleton_append, loop_append_colon,
      colon_reading (by omega), Option.bind_some, hrest]
    simp [Nat.add_assoc, Nat.add_comm 1]

/-! ## The bytes of an address -/

theorem wordBytes_congr {w w' : ℕ → UInt16} (h : ∀ j < 8, w j = w' j) :
    wordBytes w = wordBytes w' := by
  rw [wordBytes, wordBytes]
  refine flatMap_congr fun r hr => ?_
  rw [h r (mem_range.mp hr)]

/-- The bytes of a word in memory. -/
def memBytes (w : UInt16) : Bytes :=
  [UInt8.ofNat (w.toNat % 256), UInt8.ofNat (w.toNat / 256)]

theorem wordBytes_filled {ws : List UInt16} (h : ws.length = 8) :
    wordBytes (filled ws) = ws.flatMap memBytes := by
  have hbytes : ws.flatMap memBytes =
      ((List.range 8).map (filled ws)).flatMap memBytes := by rw [map_filled h]
  rw [wordBytes, hbytes, flatMap_map]
  rfl

/-- The groups that are read, the moved ones at the end. -/
theorem moved_filled {fs bs : List UInt16} (h : fs.length + bs.length ≤ 8) :
    wordBytes (moved (filled fs) (filled bs) fs.length bs.length) =
      (fs ++ (List.replicate (8 - (fs.length + bs.length)) 0 ++ bs)).flatMap
        memBytes := by
  rw [← wordBytes_filled]
  · refine wordBytes_congr fun j hj => ?_
    simp only [moved, filled]
    by_cases hfront : j < fs.length
    · rw [if_neg (by omega), getD_append _ _ _ _ hfront]
    · rw [getD_append_right _ _ _ _ (by omega)]
      by_cases hzero : j < 8 - bs.length
      · rw [if_neg (by omega), getD_append _ _ _ _ (by
          rw [length_replicate]; omega), getD_eq_default _ _ (by omega)]
        simp
      · rw [if_pos (by omega), getD_append_right _ _ _ _ (by
          rw [length_replicate]; omega), length_replicate]
        congr 1
        omega
  · simp
    omega

theorem hexadecimal_lt (p : Bytes) : hexadecimal p < 16 ^ p.length := by
  induction p using List.reverseRecOn with
  | nil => decide
  | append_singleton q c ih =>
    have hdigit : ∀ c : UInt8, (hex2i c).getD 0 < 16 := forall_byte (by decide)
    have hc := hdigit c
    rw [hexadecimal_concat, List.length_append, length_singleton, pow_succ]
    omega

theorem memBytes_word {p : Bytes} (h : IsGroup p) : memBytes (htons (word p)) =
      [UInt8.ofNat (hexadecimal p / 256), UInt8.ofNat (hexadecimal p % 256)] := by
  have hlt : hexadecimal p < 65536 :=
    (hexadecimal_lt p).trans_le (Nat.pow_le_pow_right (by decide) h.le)
  have hword : (word p).toNat = hexadecimal p := by
    rw [word, UInt16.toNat_ofNat', Nat.mod_eq_of_lt hlt]
  have hswap : (htons (word p)).toNat = hexadecimal p % 256 * 256 + hexadecimal p / 256 := by
    rw [htons, UInt16.toNat_ofNat', hword]
    omega
  have hlow : (hexadecimal p % 256 * 256 + hexadecimal p / 256) % 256 =
      hexadecimal p / 256 := by omega
  have hhigh : (hexadecimal p % 256 * 256 + hexadecimal p / 256) / 256 =
      hexadecimal p % 256 := by omega
  rw [memBytes, hswap, hlow, hhigh]

theorem memBytes_words {ps : List Bytes} (h : ∀ p ∈ ps, IsGroup p) :
    (ps.map (htons ∘ word)).flatMap memBytes = networkOrder (ps.map hexadecimal) := by
  rw [networkOrder, flatMap_map, flatMap_map]
  exact flatMap_congr fun p hp => memBytes_word (h p hp)

theorem memBytes_zeros (k : ℕ) : (List.replicate k (0 : UInt16)).flatMap memBytes =
      networkOrder (List.replicate k 0) := by
  induction k with
  | zero => rfl
  | succ k ih =>
    rw [replicate_succ, replicate_succ, flatMap_cons, ih]
    rfl

end Msicp.Resolve

/-!
## IPv6 addresses

A text with an empty group at one of its ends, or with a group of more than four
digits, may be taken for an address.
-/

namespace Msicp.Resolve

open Msicp.Support

variable {n idx1 : ℕ} {dc e : Bool} {l o : List UInt16} {w : UInt16}

/-! ## Behind the loop -/

theorem finish_group : (Ip6.reading n false e idx1 l w o).finish =
    (Ip6.reading n false e idx1 (l ++ [htons w]) 0 o).close := by
  have hfinish : (Ip6.reading n false e idx1 l w o).finish =
      let t := (Ip6.reading n false e idx1 l w o).put
        (htons ((Ip6.reading n false e idx1 l w o).addr l.length))
      Ip6.close { t with i := t.i + 1 } := rfl
  rw [hfinish, Ip6.reading_addr, Ip6.reading_put, ← reading_next]
  rfl

theorem close_start (hn : ¬ n < 7) : (Ip6.reading n dc false idx1 l 0 o).close =
    some ⟨.inet6, wordBytes (filled l), length_wordBytes _⟩ := by
  simp [Ip6.close, Ip6.reading, hn, filled_zero]

theorem close_end : (Ip6.reading n dc true idx1 l 0 o).close =
    some ⟨.inet6, wordBytes (moved (filled o) (filled l) idx1 l.length), length_wordBytes _⟩ := by
  simp [Ip6.close, Ip6.reading, filled_zero]

theorem finish_isSome : ((Ip6.reading n dc e idx1 l w o).finish).isSome = true ↔
    e = true ∨ 7 ≤ n := by
  have hclose : ∀ t : Ip6, t.close.isSome = true ↔ t.inEnd = true ∨ 7 ≤ t.noColons := by
    intro t
    rw [Ip6.close]
    cases t.inEnd with
    | true => simp
    | false =>
      by_cases hn : t.noColons < 7
      · simp [hn]
      · simp [hn]
        omega
  cases dc with
  | true => exact hclose _
  | false =>
    rw [finish_group]
    exact hclose _

/-! ## The addresses -/

theorem IsGroup.all {p : Bytes} (h : IsGroup p) : p.all isHex = true :=
  List.all_eq_true.mpr h.digits

theorem IsGroup.colon {p : Bytes} (h : IsGroup p) : 58 ∉ p :=
  fun hcolon => absurd (h.digits 58 hcolon) (by decide)

theorem IsGroup.isEmpty {p : Bytes} (h : IsGroup p) : p.isEmpty = false := by
  simpa using h.nonempty

theorem loop_last {ps : List Bytes} {p : Bytes} (hps : ∀ q ∈ ps, IsGroup q)
    (hp : IsGroup p) (hn : n + ps.length ≤ 7) :
    str2ip6Loop (Ip6.reading n dc e idx1 l 0 o) ([58].intercalate (ps ++ [p])) =
      some (Ip6.reading (n + ps.length) false e idx1 (l ++ ps.map (htons ∘ word)) (word p) o) := by
  have hread := @loop_groups n idx1 dc e l o p _
      (fun q hq => ⟨(hps q hq).nonempty, (hps q hq).all⟩) hn
  have hpart := @loop_part (n + ps.length) idx1 (dc || !ps.isEmpty) e (l ++ ps.map (htons ∘ word))
      o _ [] hp.colon
  rw [List.append_nil, if_pos hp.all, hp.isEmpty, Bool.and_false] at hpart
  rw [intercalate_concat, hread, hpart]
  rfl

theorem body_full {parts : List Bytes} (hlen : parts.length = 8) (h : ∀ p ∈ parts, IsGroup p) :
    ∃ ip, str2ip6Body ([58].intercalate parts) = some ip ∧ ip.af = .inet6 ∧
      ip.addr = networkOrder (parts.map hexadecimal) := by
  obtain ⟨ps, p, rfl⟩ := List.eq_nil_or_concat' parts |>.resolve_left (by
    rintro rfl
    simp at hlen)
  have hps : ps.length = 7 := by simpa using hlen
  have hread := @loop_last 0 0 false false [] [] _ _ (fun q hq => h q (List.mem_append_left _ hq))
    (h p (List.mem_append_right _ List.mem_cons_self)) (by omega)
  have hwords : ps.map (htons ∘ word) ++ [htons (word p)] =
      (ps ++ [p]).map (htons ∘ word) := by simp
  rw [hps, List.nil_append, Nat.zero_add] at hread
  have hbody : str2ip6Body ([58].intercalate (ps ++ [p])) =
      some ⟨.inet6, wordBytes (filled ((ps ++ [p]).map (htons ∘ word))), length_wordBytes _⟩ := by
    rw [str2ip6Body, reading_start, hread, Option.bind_some, finish_group, hwords,
      close_start (by omega)]
  exact ⟨_, hbody, rfl, (wordBytes_filled (by simpa using hlen)).trans (memBytes_words h)⟩

/-- The fields of a text that has some groups, or none. -/
def fields (groups : List Bytes) : List Bytes := if groups = [] then [[]] else groups

theorem splitOn_groups {groups : List Bytes} (h : ∀ p ∈ groups, IsGroup p) :
    ([58].intercalate groups).splitOn 58 = fields groups := by
  by_cases hnil : groups = []
  · rw [hnil]
    rfl
  · rw [List.splitOn_intercalate 58 (fun p hp => (h p hp).colon) hnil, fields, if_neg hnil]

theorem loop_front {front : List Bytes} (h : ∀ p ∈ front, IsGroup p)
    (hlen : (fields front).length ≤ 7) (s : Bytes) :
    str2ip6Loop (Ip6.reading 0 false false 0 [] 0 []) ([58].intercalate front ++ 58 :: s) =
      str2ip6Loop (Ip6.reading (fields front).length true false 0
        ((fields front).map (htons ∘ word)) 0 []) s := by
  rcases List.eq_nil_or_concat' front with rfl | ⟨ps, p, rfl⟩
  · rw [List.intercalate_nil, List.nil_append, loop_append_colon, colon_reading (by decide)]
    rfl
  · have hne : ps ++ [p] ≠ [] := by simp
    have hfields : fields (ps ++ [p]) = ps ++ [p] := if_neg hne
    have htext : [58].intercalate (ps ++ [p]) ++ 58 :: s =
        ((ps ++ [p]).flatMap fun q => q ++ [58]) ++ s := by
      rw [intercalate_concat]
      simp
    rw [hfields] at hlen ⊢
    have hempty : (ps ++ [p]).isEmpty = false := by simp
    rw [htext, loop_groups (fun q hq => ⟨(h q hq).nonempty, (h q hq).all⟩) (by omega),
      hempty, Nat.zero_add]
    rfl

theorem loop_back {back : List Bytes} (h : ∀ p ∈ back, IsGroup p) (hn : n + back.length ≤ 8) :
    (str2ip6Loop (Ip6.reading n true true idx1 [] 0 o) ([58].intercalate back)).bind Ip6.finish =
      some ⟨.inet6, wordBytes (moved (filled o) (filled (back.map (htons ∘ word)))
        idx1 (back.map (htons ∘ word)).length), length_wordBytes _⟩ := by
  rcases List.eq_nil_or_concat' back with rfl | ⟨ps, p, rfl⟩
  · exact @close_end n _ true [] _
  · have hwords : ps.map (htons ∘ word) ++ [htons (word p)] =
        (ps ++ [p]).map (htons ∘ word) := by simp
    rw [List.length_append, List.length_singleton] at hn
    rw [loop_last (fun q hq => h q (List.mem_append_left _ hq))
      (h p (List.mem_append_right _ List.mem_cons_self)) (by omega),
      Option.bind_some, finish_group, List.nil_append, hwords, close_end]

theorem body_short {front back : List Bytes} (h : ∀ p ∈ front ++ back, IsGroup p)
    (hlen : (fields front).length + (fields back).length ≤ 7) :
    ∃ ip, str2ip6Body ([58].intercalate front ++ 58 :: 58 :: [58].intercalate back) =
        some ip ∧ ip.af = .inet6 ∧
      ip.addr = networkOrder (front.map hexadecimal ++
        (List.replicate (8 - (front.length + back.length)) 0 ++ back.map hexadecimal)) := by
  have hfront : ∀ p ∈ front, IsGroup p := fun p hp => h p (List.mem_append_left _ hp)
  have hback : ∀ p ∈ back, IsGroup p := fun p hp => h p (List.mem_append_right _ hp)
  have hpos : 1 ≤ (fields back).length ∧ back.length ≤ (fields back).length := by
    rw [fields]
    split_ifs with hnil
    · simp [hnil]
    · exact ⟨List.length_pos_of_ne_nil hnil, le_refl _⟩
  have hbody := @loop_back ((fields front).length + 1)
      (((fields front).map (htons ∘ word)).length) ((fields front).map (htons ∘ word)) _ hback
      (by omega)
  have hread : str2ip6Body ([58].intercalate front ++
      58 :: 58 :: [58].intercalate back) = some ⟨.inet6, wordBytes (moved
        (filled ((fields front).map (htons ∘ word))) (filled (back.map (htons ∘ word)))
        ((fields front).map (htons ∘ word)).length (back.map (htons ∘ word)).length),
        length_wordBytes _⟩ := by
    rw [str2ip6Body, reading_start, loop_front hfront (by omega), loop_append_colon,
      doubleColon_reading (by omega), Option.bind_some]
    exact hbody
  refine ⟨_, hread, rfl, ?_⟩
  · have hmoved := @moved_filled ((fields front).map (htons ∘ word)) (back.map (htons ∘ word)) (by
        rw [List.length_map, List.length_map]
        omega)
    refine hmoved.trans ?_
    rw [List.length_map, List.length_map, List.flatMap_append, List.flatMap_append,
      memBytes_words hback, memBytes_zeros]
    by_cases hnil : front = []
    · have hroom : 8 - (1 + back.length) + 1 = 8 - (0 + back.length) := by omega
      have hzero : ((fields []).map (htons ∘ word)).flatMap memBytes = networkOrder [0] := rfl
      have hone : (fields []).length = 1 := rfl
      subst hnil
      rw [hzero, hone, List.map_nil, List.length_nil, ← hroom, List.replicate_succ]
      simp [networkOrder]
    · have hfields : fields front = front := if_neg hnil
      rw [hfields, memBytes_words hfront]
      simp [networkOrder]

end Msicp.Resolve
