import Msicp.Avp.Search
import Msicp.Support.FoldedWords

/-!
# The trees of MIME types

A tree is an array.  The first son of a node stands right behind it, and a node
knows its next sibling; a walk stands at the node that the next letter is
compared with first.
-/

namespace Msicp.Content

open Msicp.Support
open Msicp.Avp (tolower)

/-- `type_node_t`; -1 is `none`. -/
structure TypeNode where
  c : UInt8
  final : ℕ
  nrSons : ℕ
  next : Option ℕ
  deriving DecidableEq

def typeText : ℕ := 1
def typeMessage : ℕ := 2
def typeApplication : ℕ := 3
def typeAll : ℕ := 0xfe
def typeUnknown : ℕ := 0xff

def subtypePlain : ℕ := 1
def subtypeCpim : ℕ := 2
def subtypeSdp : ℕ := 3
def subtypeCplxml : ℕ := 4
def subtypeAll : ℕ := 0xfe
def subtypeUnknown : ℕ := 0xff

def typeTree : List TypeNode :=
  [⟨116, typeUnknown, 1, some 4⟩, ⟨101, typeUnknown, 1, none⟩, ⟨120, typeUnknown, 1, none⟩,
    ⟨116, typeText, 0, none⟩,
   ⟨109, typeUnknown, 1, some 11⟩, ⟨101, typeUnknown, 1, none⟩, ⟨115, typeUnknown, 1, none⟩,
    ⟨115, typeUnknown, 1, none⟩,
    ⟨97, typeUnknown, 1, none⟩,
    ⟨103, typeUnknown, 1, none⟩,
    ⟨101, typeMessage, 0, none⟩,
   ⟨97, typeUnknown, 1, none⟩, ⟨112, typeUnknown, 1, none⟩, ⟨112, typeUnknown, 1, none⟩,
    ⟨108, typeUnknown, 1, none⟩,
    ⟨105, typeUnknown, 1, none⟩,
    ⟨99, typeUnknown, 1, none⟩,
    ⟨97, typeUnknown, 1, none⟩,
    ⟨116, typeUnknown, 1, none⟩,
    ⟨105, typeUnknown, 1, none⟩,
    ⟨111, typeUnknown, 1, none⟩,
    ⟨110, typeApplication, 0, none⟩]

/-- `subtype_tree`; the next sibling of `c` is not `s`. -/
def subtypeTree : List TypeNode :=
  [⟨112, subtypeUnknown, 1, some 5⟩, ⟨108, subtypeUnknown, 1, none⟩, ⟨97, subtypeUnknown, 1, none⟩,
    ⟨105, subtypeUnknown, 1, none⟩,
    ⟨110, subtypePlain, 0, none⟩,
   ⟨99, subtypeUnknown, 1, some 10⟩,
    ⟨112, subtypeUnknown, 2, none⟩,
     ⟨105, subtypeUnknown, 1, some 9⟩, ⟨109, subtypeCpim, 0, none⟩,
     ⟨108, subtypeUnknown, 1, none⟩, ⟨43, typeUnknown, 1, none⟩, ⟨120, typeUnknown, 1, none⟩,
      ⟨109, typeUnknown, 1, none⟩,
      ⟨108, subtypeCplxml, 0, none⟩,
   ⟨115, subtypeUnknown, 1, none⟩, ⟨100, subtypeUnknown, 1, none⟩, ⟨112, subtypeSdp, 0, none⟩]

def isAlpha (c : UInt8) : Bool := (65 ≤ c && c ≤ 90) || (97 ≤ c && c ≤ 122)

def isMimeChar (c : UInt8) : Bool := isAlpha c || c == 45 || c == 43

def isCharEqual (c cs : UInt8) : Bool :=
  if isAlpha c then (c ||| 0x20) == cs else c == cs

/-- The node that has the letter, among a node and its siblings. -/
def seek (tree : List TypeNode) (c : UInt8) : ℕ → Option ℕ → Option ℕ
  | fuel + 1, some k =>
    match tree[k]? with
    | some n => if isCharEqual c n.c then some k else seek tree c fuel n.next
    | none => none
  | _, _ => none

/-- One letter of a token. -/
def advance (tree : List TypeNode) (node : Option ℕ) (c : UInt8) : Option ℕ :=
  (seek tree c tree.length node).bind fun k =>
    tree[k]?.map fun n => if n.nrSons ≠ 0 then k + 1 else k

/-- The letters of a token. -/
def walk (tree : List TypeNode) (node : Option ℕ) (token : Bytes) : Option ℕ :=
  token.foldl (advance tree) node

/-- What is noted where a walk has ended. -/
def finalOf (tree : List TypeNode) (unknown : ℕ) (node : Option ℕ) : ℕ :=
  ((node.bind fun k => tree[k]?).map TypeNode.final).getD unknown

/-! ## Letters in a row -/

theorem isCharEqual_iff (c cs : UInt8) : isCharEqual c cs = true ↔ tolower c = cs := by
  have hfold : ∀ c : UInt8, (if isAlpha c then c ||| 0x20 else c) = tolower c :=
    forall_byte (by decide)
  rw [isCharEqual, ← hfold c]
  split_ifs
  · exact beq_iff_eq
  · exact beq_iff_eq

variable {tree : List TypeNode} {unknown v k : ℕ} {w : Bytes}

theorem walk_none (token : Bytes) : walk tree none token = none := by
  induction token with
  | nil => rfl
  | cons c token ih =>
    have hstep : advance tree none c = none := by
      rw [advance]
      cases tree.length <;> rfl
    rw [walk, List.foldl_cons, hstep]
    exact ih

theorem walk_cons (node : Option ℕ) (c : UInt8) (token : Bytes) :
    walk tree node (c :: token) = walk tree (advance tree node c) token := rfl

theorem advance_single {x : UInt8} {final sons : ℕ}
    (h : tree[k]? = some ⟨x, final, sons, none⟩) (c : UInt8) :
    advance tree (some k) c =
      if tolower c = x then some (if sons ≠ 0 then k + 1 else k) else none := by
  have hlen : tree.length ≠ 0 := by
    have hk := (List.getElem?_eq_some_iff.mp h).1
    omega
  obtain ⟨fuel, hfuel⟩ := Nat.exists_eq_succ_of_ne_zero hlen
  rw [advance, hfuel, seek]
  simp only [h]
  by_cases hc : tolower c = x
  · rw [if_pos ((isCharEqual_iff c x).mpr hc), if_pos hc]
    simp [h]
  · rw [if_neg fun heq => hc ((isCharEqual_iff c x).mp heq), if_neg hc]
    cases fuel <;> rfl

/-- The nodes of a word, each the only son of the one before it. -/
def chainNodes (unknown v : ℕ) : Bytes → List TypeNode
  | [] => []
  | [x] => [⟨x, v, 0, none⟩]
  | x :: y :: w => ⟨x, unknown, 1, none⟩ :: chainNodes unknown v (y :: w)

/-- What a walk along the nodes of a word takes for the word. -/
def takenFor : Bytes → Bytes → Bool
  | [], _ => false
  | [x], t => t.all (· == x)
  | _ :: _ :: _, [] => false
  | x :: y :: w, c :: t => c == x && takenFor (y :: w) t

theorem getElem?_drop {rest : List TypeNode} {n : TypeNode}
    (h : tree.drop k = n :: rest) : tree[k]? = some n := by
  have hget : (tree.drop k)[0]? = some n := by rw [h]; rfl
  rwa [List.getElem?_drop, Nat.add_zero] at hget

theorem drop_succ {rest : List TypeNode} {n : TypeNode}
    (h : tree.drop k = n :: rest) : tree.drop (k + 1) = rest := by
  rw [← List.drop_drop, h]
  rfl

theorem walk_leaf {x : UInt8} (h : tree[k]? = some ⟨x, v, 0, none⟩) (t : Bytes) :
    finalOf tree unknown (walk tree (some k) t) =
      if (t.map tolower).all (· == x) then v else unknown := by
  induction t with
  | nil => simp [walk, finalOf, h]
  | cons c t ih =>
    rw [walk_cons, advance_single h, List.map_cons, List.all_cons]
    by_cases hc : tolower c = x
    · simpa [hc] using ih
    · rw [if_neg hc, walk_none]
      simp [hc, finalOf]

theorem walk_chain {rest : List TypeNode} (hw : w ≠ [])
    (h : tree.drop k = chainNodes unknown v w ++ rest) (t : Bytes) :
    finalOf tree unknown (walk tree (some k) t) =
      if takenFor w (t.map tolower) then v else unknown := by
  induction w generalizing k t with
  | nil => exact absurd rfl hw
  | cons x w ih =>
    cases w with
    | nil => exact walk_leaf (getElem?_drop h) t
    | cons y w =>
      have hnode := getElem?_drop h
      cases t with
      | nil => simp [walk, finalOf, hnode, takenFor]
      | cons c t =>
        rw [walk_cons, advance_single hnode, List.map_cons, takenFor]
        by_cases hc : tolower c = x
        · have hnext := ih (List.cons_ne_nil y w) (drop_succ h) t
          simpa [hc] using hnext
        · rw [if_neg hc, walk_none]
          simp [hc, finalOf]

end Msicp.Content
