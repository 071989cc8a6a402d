import Msicp.Tcp.ContentLength
import Msicp.Support.FoldedWords
import Msicp.Support.Parts
import Mathlib.Data.List.GetD
import Mathlib.Data.UInt

/-!
# Addresses as text

An address is kept in network order.  It is read from a text digit by digit,
into words that are as narrow as the address has them.
-/

namespace Msicp.Resolve

open Msicp.Support
open Msicp.Tcp (decimal isDigit digitVal)

/-- The address families. -/
inductive Af
  | inet
  | inet6

/-- The `len` of an address. -/
def Af.len : Af → ℕ
  | .inet => 4
  | .inet6 => 16

/-- `struct ip_addr`, with the bytes of `u.addr`. -/
@[ext] structure IpAddr where
  af : Af
  addr : Bytes
  len_eq : addr.length = af.len

/-! ## `str2ip` -/

/-- The loop of `str2ip`: the number of dots, and `u.addr`. -/
def str2ipLoop : ℕ → (ℕ → UInt8) → Bytes → Option (ℕ × (ℕ → UInt8))
  | i, addr, [] => some (i, addr)
  | i, addr, c :: s =>
    if c = 46 then
      if 3 < i + 1 then none else str2ipLoop (i + 1) addr s
    else if c ≤ 57 ∧ 48 ≤ c then
      str2ipLoop i (Function.update addr i (UInt8.ofNat ((addr i).toNat * 10 + c.toNat - 48))) s
    else none

def str2ip (st : Bytes) : Option IpAddr :=
  (str2ipLoop 0 (fun _ => 0) st).bind fun (i, addr) =>
    if i < 3 then none
    else some ⟨.inet, [addr 0, addr 1, addr 2, addr 3], rfl⟩

/-! ## `str2ip6` -/

/-- `HEX2I`, where -1 is `none`. -/
def hex2i (c : UInt8) : Option ℕ :=
  if 48 ≤ c ∧ c ≤ 57 then some (c.toNat - 48)
  else if 65 ≤ c ∧ c ≤ 70 then some (c.toNat - 65 + 10)
  else if 97 ≤ c ∧ c ≤ 102 then some (c.toNat - 97 + 10)
  else none

/-- `htons`, and `ntohs`: the bytes of a word change places. -/
def htons (w : UInt16) : UInt16 :=
  UInt16.ofNat (w.toNat % 256 * 256 + w.toNat / 256)

/-- The variables of `str2ip6`; `inEnd` says that `addr` is `addr_end`. -/
structure Ip6 where
  i : ℕ
  idx1 : ℕ
  noColons : ℕ
  doubleColon : Bool
  inEnd : Bool
  addrStart : ℕ → UInt16
  addrEnd : ℕ → UInt16

/-- `*addr` -/
def Ip6.addr (t : Ip6) : ℕ → UInt16 := if t.inEnd then t.addrEnd else t.addrStart

/-- `addr[i]=w` -/
def Ip6.put (t : Ip6) (w : UInt16) : Ip6 :=
  if t.inEnd then { t with addrEnd := Function.update t.addrEnd t.i w }
  else { t with addrStart := Function.update t.addrStart t.i w }

/-- A colon. -/
def Ip6.colon (t : Ip6) : Option Ip6 :=
  let t := { t with noColons := t.noColons + 1 }
  if 7 < t.noColons then none
  else if t.doubleColon then
    if t.inEnd then none else some { t with idx1 := t.i, i := 0, inEnd := true }
  else
    let t := { t with doubleColon := true }.put (htons (t.addr t.i))
    some { t with i := t.i + 1 }

/-- A digit. -/
def Ip6.digit (t : Ip6) (hex : ℕ) : Ip6 :=
  { t.put (UInt16.ofNat ((t.addr t.i).toNat * 16 + hex)) with doubleColon := false }

/-- The loop of `str2ip6`. -/
def str2ip6Loop : Ip6 → Bytes → Option Ip6
  | t, [] => some t
  | t, c :: s =>
    if c = 58 then t.colon.bind fun t => str2ip6Loop t s
    else
      match hex2i c with
      | some hex => str2ip6Loop (t.digit hex) s
      | none => none

/-- The bytes of eight words in memory. -/
def wordBytes (w : ℕ → UInt16) : Bytes :=
  (List.range 8).flatMap fun r =>
    [UInt8.ofNat ((w r).toNat % 256), UInt8.ofNat ((w r).toNat / 256)]

theorem length_wordBytes (w : ℕ → UInt16) : (wordBytes w).length = 16 := by
  simp [wordBytes]

/-- The `i` groups of `addr_end` behind those of `addr_start`, at the end. -/
def moved (addrStart addrEnd : ℕ → UInt16) (idx1 i : ℕ) : ℕ → UInt16 :=
  let rest := 8 - i - idx1
  fun j =>
    if idx1 + rest ≤ j ∧ j < idx1 + rest + i then addrEnd (j - (idx1 + rest))
    else addrStart j

/-- The end of `str2ip6`, when the last group has been put away. -/
def Ip6.close (t : Ip6) : Option IpAddr :=
  if t.inEnd then
    some ⟨.inet6, wordBytes (moved t.addrStart t.addrEnd t.idx1 t.i), length_wordBytes _⟩
  else if t.noColons < 7 then none
  else some ⟨.inet6, wordBytes t.addrStart, length_wordBytes _⟩

/-- What `str2ip6` does behind the loop. -/
def Ip6.finish (t : Ip6) : Option IpAddr :=
  if t.doubleColon then t.close
  else
    let t := t.put (htons (t.addr t.i))
    Ip6.close { t with i := t.i + 1 }

/-- `str2ip6` between `s` and `limit`. -/
def str2ip6Body (s : Bytes) : Option IpAddr :=
  (str2ip6Loop ⟨0, 0, 0, false, false, fun _ => 0, fun _ => 0⟩ s).bind Ip6.finish

def str2ip6 (st : Bytes) : Option IpAddr :=
  if st.head? = some 91 then
    if st.getLast? ≠ some 93 then none else str2ip6Body st.tail.dropLast
  else str2ip6Body st

/-! ## `ip_addr2a` -/

def hexdig (x : ℕ) : UInt8 := UInt8.ofNat (if 10 ≤ x then x - 10 + 65 else x + 48)

/-- What is written for a word. -/
def hexText (hex4 : ℕ) : Bytes :=
  let a := hex4 / 4096
  let b := hex4 / 256 % 16
  let c := hex4 / 16 % 16
  let d := hex4 % 16
  if a ≠ 0 then [hexdig a, hexdig b, hexdig c, hexdig d]
  else if b ≠ 0 then [hexdig b, hexdig c, hexdig d]
  else if c ≠ 0 then [hexdig c, hexdig d]
  else [hexdig d]

/-- What is written for an octet. -/
def decText (octet : UInt8) : Bytes :=
  let a := octet / 100
  let c := octet % 10
  let b := octet % 100 / 10
  if a ≠ 0 then [a + 48, b + 48, c + 48]
  else if b ≠ 0 then [b + 48, c + 48]
  else [c + 48]

/-- `u.addr16[r]` -/
def addr16 (addr : Bytes) (r : ℕ) : UInt16 :=
  UInt16.ofNat ((addr.getD (2 * r) 0).toNat + (addr.getD (2 * r + 1) 0).toNat * 256)

def ipAddr2a (ip : IpAddr) : Bytes :=
  match ip.af with
  | .inet6 =>
    ((List.range 7).flatMap fun r =>
      hexText (htons (addr16 ip.addr r)).toNat ++ [58]) ++
      hexText (htons (addr16 ip.addr 7)).toNat
  | .inet =>
    ((List.range 3).flatMap fun r => decText (ip.addr.getD r 0) ++ [46]) ++
      decText (ip.addr.getD 3 0)

/-! ## What the texts denote -/

/-- A decimal octet. -/
structure IsOctet (p : Bytes) : Prop where
  nonempty : p ≠ []
  digits : ∀ c ∈ p, isDigit c = true
  le : decimal p ≤ 255

/-- Four octets with dots between them. -/
def IsQuad (text : Bytes) (ip : IpAddr) : Prop :=
  ∃ parts : List Bytes, parts.length = 4 ∧ (∀ p ∈ parts, IsOctet p) ∧
    text = [46].intercalate parts ∧ ip.af = .inet ∧
    ip.addr = parts.map fun p => UInt8.ofNat (decimal p)

/-- A character is a hexadecimal digit. -/
def isHex (c : UInt8) : Bool := (hex2i c).isSome

/-- The value of a string of hexadecimal digits. -/
def hexadecimal (p : Bytes) : ℕ :=
  p.foldl (fun v c => v * 16 + (hex2i c).getD 0) 0

/-- One to four hexadecimal digits. -/
structure IsGroup (p : Bytes) : Prop where
  nonempty : p ≠ []
  digits : ∀ c ∈ p, isHex c = true
  le : p.length ≤ 4

/-- Groups in network order. -/
def networkOrder (groups : List ℕ) : Bytes :=
  groups.flatMap fun g => [UInt8.ofNat (g / 256), UInt8.ofNat (g % 256)]

/-- Eight groups with colons between them, or fewer with a double colon in the
place of those that are 0. -/
def IsIp6 (text : Bytes) (ip : IpAddr) : Prop :=
  ip.af = .inet6 ∧
    ((∃ parts : List Bytes, parts.length = 8 ∧ (∀ p ∈ parts, IsGroup p) ∧
        text = [58].intercalate parts ∧
        ip.addr = networkOrder (parts.map hexadecimal)) ∨
      ∃ front back : List Bytes, front.length + back.length < 8 ∧ (∀ p ∈ front ++ back, IsGroup p) ∧
        text = [58].intercalate front ++ 58 :: 58 :: [58].intercalate back ∧
        ip.addr = networkOrder (front.map hexadecimal ++
          (List.replicate (8 - (front.length + back.length)) 0 ++ back.map hexadecimal)))

/-- An address as it stands alone, or in brackets. -/
def IsIp6Text (text : Bytes) (ip : IpAddr) : Prop :=
  IsIp6 text ip ∨ ∃ s, text = 91 :: (s ++ [93]) ∧ IsIp6 s ip

end Msicp.Resolve

/-!
## Dotted quads

Four strings of digits with dots between them are read, whatever their values.
-/

namespace Msicp.Resolve

open Msicp.Support
open Msicp.Tcp (decimal decimal_concat isDigit digitVal)

/-! ## An array that is filled from its start -/

section Filled

variable {α : Type*} [Zero α]

/-- The words that have been written; 0 is behind them. -/
def filled (l : List α) : ℕ → α := fun j => l.getD j 0

theorem filled_nil : filled ([] : List α) = fun _ => 0 := by
  funext j
  simp [filled]

variable (l : List α)

theorem filled_end : filled l l.length = 0 := by
  simp [filled]

theorem filled_last (w : α) : filled (l ++ [w]) l.length = w := by
  simp [filled]

theorem update_filled (w : α) : Function.update (filled l) l.length w = filled (l ++ [w]) := by
  funext j
  by_cases hj : j = l.length
  · subst hj
    rw [Function.update_self, filled_last]
  · rw [Function.update_of_ne hj, filled, filled]
    rcases Nat.lt_or_gt_of_ne hj with hlt | hgt
    · rw [List.getD_append _ _ _ _ hlt]
    · rw [List.getD_eq_default _ _ (by omega), List.getD_eq_default]
      rw [List.length_append, List.length_singleton]
      omega

theorem filled_zero : filled (l ++ [0]) = filled l := by
  rw [← update_filled]
  exact Function.update_eq_self_iff.mpr (filled_end l).symm

theorem update_filled_last (v w : α) :
    Function.update (filled (l ++ [v])) l.length w = filled (l ++ [w]) := by
  rw [← update_filled l v, Function.update_idem, update_filled]

theorem map_filled {l : List α} {n : ℕ} (h : l.length = n) : (List.range n).map (filled l) = l := by
  apply List.ext_getElem
  · simp [h]
  · intro j hj hj'
    simp [filled, List.getElem?_eq_getElem hj']

end Filled

/-! ## The octets of a text -/

/-- The value that is kept of a string of digits. -/
def octet (p : Bytes) : UInt8 := UInt8.ofNat (decimal p)

theorem isDigit_iff {c : UInt8} : isDigit c = true ↔ c ≤ 57 ∧ 48 ≤ c := by
  rw [isDigit, Bool.and_eq_true, decide_eq_true_eq, decide_eq_true_eq, and_comm]

theorem octet_step {v : ℕ} {c : UInt8} (h : isDigit c = true) :
    UInt8.ofNat ((UInt8.ofNat v).toNat * 10 + c.toNat - 48) =
      UInt8.ofNat (v * 10 + digitVal c) := by
  have hle : 48 ≤ c.toNat := (isDigit_iff.mp h).2
  apply UInt8.toNat_inj.mp
  rw [UInt8.toNat_ofNat', UInt8.toNat_ofNat', UInt8.toNat_ofNat', digitVal]
  omega

theorem str2ipLoop_digits {p s q : Bytes} {l : List UInt8} (hp : 46 ∉ p) :
    str2ipLoop l.length (filled (l ++ [octet q])) (p ++ s) =
      if p.all isDigit then
        str2ipLoop l.length (filled (l ++ [octet (q ++ p)])) s
      else none := by
  induction p generalizing q with
  | nil => simp
  | cons c p ih =>
    have hc : c ≠ 46 := fun h => hp (h ▸ List.mem_cons_self)
    rw [List.cons_append, str2ipLoop, if_neg hc, List.all_cons]
    by_cases hdigit : isDigit c = true
    · rw [if_pos (isDigit_iff.mp hdigit), filled_last, octet, octet_step hdigit,
        ← decimal_concat, update_filled_last, show UInt8.ofNat
          (decimal (q ++ [c])) = octet (q ++ [c]) from rfl,
            ih fun h => hp (List.mem_cons_of_mem c h), hdigit, Bool.true_and,
        List.append_assoc, List.singleton_append]
    · rw [if_neg (fun h => hdigit (isDigit_iff.mpr h)), if_neg (by simp [hdigit])]

theorem str2ipLoop_part {p : Bytes} (s : Bytes) (l : List UInt8) (hp : 46 ∉ p) :
    str2ipLoop l.length (filled l) (p ++ s) =
      if p.all isDigit then str2ipLoop l.length (filled (l ++ [octet p])) s
      else none := by
  rw [← filled_zero l]
  exact str2ipLoop_digits (q := []) hp

theorem str2ipLoop_parts {l : List UInt8} {p : Bytes} {ps : List Bytes}
    (hdots : ∀ p' ∈ p :: ps, 46 ∉ p') (hl : l.length ≤ 3) :
    str2ipLoop l.length (filled l) ([46].intercalate (p :: ps)) =
      if (p :: ps).all (fun p => p.all isDigit) ∧ l.length + ps.length ≤ 3
      then some (l.length + ps.length, filled (l ++ (p :: ps).map octet))
      else none := by
  induction ps generalizing l p with
  | nil =>
    have hread := str2ipLoop_part [] l (hdots p List.mem_cons_self)
    rw [List.append_nil] at hread
    rw [List.intercalate_singleton, hread]
    simp [str2ipLoop, hl]
  | cons p' ps ih =>
    have hread := str2ipLoop_part (46 :: [46].intercalate (p' :: ps)) l (hdots p List.mem_cons_self)
    rw [List.intercalate_cons_cons, List.append_assoc, List.singleton_append, hread,
      str2ipLoop, if_pos rfl, List.all_cons, List.length_cons]
    by_cases hroom : 3 < l.length + 1
    · rw [if_pos hroom, ite_self, if_neg]
      omega
    · rw [if_neg hroom]
      have hrest := ih (l := l ++ [octet p]) (fun q hq => hdots q (List.mem_cons_of_mem p hq))
        (by rw [List.length_append, List.length_singleton]; omega)
      rw [List.length_append, List.length_singleton] at hrest
      rw [hrest, Nat.add_right_comm, Nat.add_assoc, List.append_assoc]
      by_cases hdigits : p.all isDigit = true
      · simp [hdigits]
      · simp [hdigits]

/-- The digits of four strings, with dots between them, whatever they are worth. -/
def IsDigits (text : Bytes) (parts : List Bytes) : Prop :=
  parts.length = 4 ∧ (∀ p ∈ parts, ∀ c ∈ p, isDigit c = true) ∧ text = [46].intercalate parts

theorem dot_notMem {p : Bytes} (h : ∀ c ∈ p, isDigit c = true) : 46 ∉ p :=
  fun hdot => absurd (h 46 hdot) (by decide)

theorem str2ip_parts {p : Bytes} {ps : List Bytes} (hdots : ∀ q ∈ p :: ps, 46 ∉ q) :
    (str2ip ([46].intercalate (p :: ps))).map (fun ip => (ip.af, ip.addr)) =
      if (p :: ps).all (fun p => p.all isDigit) ∧ (p :: ps).length = 4 then
        some (.inet, (p :: ps).map octet)
      else none := by
  have hrun := str2ipLoop_parts (l := []) hdots (Nat.zero_le 3)
  rw [List.length_nil, filled_nil, Nat.zero_add, List.nil_append] at hrun
  rw [str2ip, hrun, List.length_cons]
  by_cases hall : (p :: ps).all (fun p => p.all isDigit) = true
  · rcases Nat.lt_trichotomy ps.length 3 with hlt | heq | hgt
    · rw [if_pos ⟨hall, hlt.le⟩, if_neg (by omega)]
      simp [hlt]
    · rw [if_pos ⟨hall, heq.le⟩, if_pos ⟨hall, by omega⟩]
      have hfour : ∀ os : List UInt8, os.length = 4 →
          [filled os 0, filled os 1, filled os 2, filled os 3] = os :=
        fun os hos => map_filled hos
      simp only [Option.bind_some, heq, lt_irrefl, if_false, Option.map_some,
        hfour _ (show ((p :: ps).map octet).length = 4 by simp [heq])]
    · rw [if_neg (by omega), if_neg (by omega)]
      rfl
  · rw [if_neg fun h => hall h.1, if_neg fun h => hall h.1]
    rfl

theorem str2ip_iff {text : Bytes} {ip : IpAddr} : str2ip text = some ip ↔
      ∃ parts, IsDigits text parts ∧ ip.af = .inet ∧ ip.addr = parts.map octet := by
  constructor
  · intro h
    obtain ⟨p, ps, rfl, hdots⟩ := exists_parts 46 text
    have hparts := str2ip_parts hdots
    rw [h, Option.map_some] at hparts
    split_ifs at hparts with hall
    obtain ⟨haf, haddr⟩ := Prod.mk.inj (Option.some.inj hparts)
    refine ⟨p :: ps, ⟨hall.2, ?_, rfl⟩, haf, haddr⟩
    intro q hq
    exact List.all_eq_true.mp (List.all_eq_true.mp hall.1 q hq)
  · rintro ⟨parts, ⟨hlen, hdigits, rfl⟩, haf, haddr⟩
    cases parts with
    | nil => simp at hlen
    | cons p ps =>
      have hparts := str2ip_parts fun q hq => dot_notMem (hdigits q hq)
      have hall : (p :: ps).all (fun p => p.all isDigit) = true :=
        List.all_eq_true.mpr fun q hq => List.all_eq_true.mpr (hdigits q hq)
      rw [if_pos ⟨hall, hlen⟩, Option.map_eq_some_iff] at hparts
      obtain ⟨ip', hip', heq⟩ := hparts
      obtain ⟨haf', haddr'⟩ := Prod.mk.inj heq
      rw [hip']
      exact congrArg some (IpAddr.ext (haf'.trans haf.symm) (haddr'.trans haddr.symm))

/-- `str2ip` accepts the dotted quads, with their addresses, and nothing else. -/
def QuadRight (text : Bytes) : Prop :=
  ∀ ip, str2ip text = some ip ↔ IsQuad text ip

/-- It does so where four strings of digits, with dots between them, are octets. -/
theorem quadRight_iff (text : Bytes) :
    QuadRight text ↔ ∀ parts, IsDigits text parts → ∀ p ∈ parts, IsOctet p := by
  constructor
  · intro h parts hparts
    have hlen : (parts.map octet).length = Af.inet.len := by
      rw [List.length_map]
      exact hparts.1
    have hread : str2ip text = some ⟨.inet, parts.map octet, hlen⟩ :=
      str2ip_iff.mpr ⟨parts, hparts, rfl, rfl⟩
    obtain ⟨parts', hlen', hoct, htext, -, -⟩ := (h _).mp hread
    have hsame : parts = parts' := by
      apply parts_inj (fun p hp => dot_notMem (hparts.2.1 p hp))
        (fun p hp => dot_notMem (hoct p hp).digits)
      · exact List.ne_nil_of_length_eq_add_one hparts.1
      · exact List.ne_nil_of_length_eq_add_one hlen'
      · rw [← htext, hparts.2.2]
    rw [hsame]
    exact hoct
  · intro h ip
    rw [str2ip_iff]
    constructor
    · rintro ⟨parts, hparts, haf, haddr⟩
      exact ⟨parts, hparts.1, h parts hparts, hparts.2.2, haf, haddr⟩
    · rintro ⟨parts, hlen, hoct, htext, haf, haddr⟩
      exact ⟨parts, ⟨hlen, fun p hp => (hoct p hp).digits, htext⟩, haf, haddr⟩

/-! ## What `ip_addr2a` writes -/

theorem decText_octet (o : UInt8) :
    decText o ≠ [] ∧ (decText o).all isDigit = true ∧ decimal (decText o) = o.toNat := by
  revert o
  exact forall_byte (by decide)

theorem str2ip_ipAddr2a (ip : IpAddr) (h : ip.af = .inet) : str2ip (ipAddr2a ip) = some ip := by
  obtain ⟨af, addr, hlen⟩ := ip
  obtain rfl : af = .inet := h
  rw [str2ip_iff]
  match addr, hlen with
  | [a, b, c, d], _ =>
    refine ⟨[decText a, decText b, decText c, decText d], ⟨rfl, ?_, ?_⟩, rfl, ?_⟩
    · have hdec : ∀ o : UInt8, ∀ x ∈ decText o, isDigit x = true :=
        fun o => List.all_eq_true.mp (decText_octet o).2.1
      simp only [List.mem_cons, List.not_mem_nil, or_false]
      rintro p (rfl | rfl | rfl | rfl)
      · exact hdec a
      · exact hdec b
      · exact hdec c
      · exact hdec d
    · simp [ipAddr2a, List.range_succ]
    · simp [octet, (decText_octet _).2.2]

end Msicp.Resolve
