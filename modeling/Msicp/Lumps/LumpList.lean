import Msicp.Lumps.HeaderText
import Msicp.Support.LinkChain
import Mathlib.Data.Finset.Card
import Mathlib.Data.Finset.Insert

/-!
# The lump lists of a message (`data_lump.c`)

The two lists of a message are linked through the `next` fields of their
lumps.  `pkg_malloc` may fail; if it does not, it returns memory that is not in
use.  An operation ends in `abort()` when the offsets do not fit the message.
-/

namespace Msicp.Lumps

open Msicp.Support List Function

/-- `enum lump_op` -/
inductive LumpKind where
  | nop
  | del
  | add
  | addSubst
  | addOpt
  deriving DecidableEq

/-- `struct lump` in memory, as far as the two lists are concerned; of the
union `u` either `offset` or `value` is in use. -/
structure LumpCell where
  type : ℤ
  op : LumpKind
  offset : ℤ
  value : Option ℕ
  len : ℤ
  next : Option ℕ

/-- `msg->add_rm` and `msg->body_lumps` -/
inductive ListName where
  | addRm
  | bodyLumps
  deriving DecidableEq

/-- A message with its lumps; `eoh` is the distance of `msg->eoh` from
`msg->buf`, `allocated` is the memory handed out for lumps. -/
structure LumpMsg where
  len : ℕ
  eoh : Option ℤ
  head : ListName → Option ℕ
  cell : ℕ → LumpCell
  allocated : Finset ℕ

/-- How a call may fail to return. -/
inductive Stop where
  | abort
  | loops

namespace LumpMsg

/-- The head of a list and the links of all lumps. -/
def links (msg : LumpMsg) (list : ListName) : Links ℕ :=
  ⟨msg.head list, fun a => (msg.cell a).next⟩

/-- `*t = v` for a slot of the list. -/
def setLink (msg : LumpMsg) (list : ListName) (slot v : Option ℕ) : LumpMsg :=
  match slot with
  | none => { msg with head := Function.update msg.head list v }
  | some c =>
    { msg with
      cell := Function.update msg.cell c { msg.cell c with next := v } }

/-- The contents written into new memory. -/
def newCell (msg : LumpMsg) (tmp : ℕ) (c : LumpCell) : LumpMsg :=
  { msg with
    cell := Function.update msg.cell tmp c
    allocated := insert tmp msg.allocated }

/-- A walk along a list up to the first lump that meets the test. -/
def walkList (msg : LumpMsg) (list : ListName) (stop : ℕ → Bool) : Option (Option ℕ × Option ℕ) :=
  walk (msg.links list).next stop msg.allocated.card none (msg.links list).first

end LumpMsg

/-- `(unsigned int)` -/
def toUnsigned (x : ℤ) : ℤ := x % 2 ^ 32

/-- `append_new_lump`; `mem` is what `pkg_malloc` returns. -/
def appendNewLump (msg : LumpMsg) (list : ListName) (newHdr : Option ℕ)
    (len type : ℤ) (mem : Option ℕ) : Except Stop LumpMsg :=
  match msg.walkList list (fun _ => false) with
  | none => .error .loops
  | some (t, _) =>
    match mem with
    | none => .ok msg
    | some tmp =>
      let msg := msg.newCell tmp ⟨type, .add, 0, newHdr, len, none⟩
      .ok (msg.setLink list t (some tmp))

def insertNewLump (msg : LumpMsg) (list : ListName) (newHdr : Option ℕ)
    (len type : ℤ) (mem : Option ℕ) : Except Stop LumpMsg :=
  match mem with
  | none => .ok msg
  | some tmp =>
    let msg := msg.newCell tmp ⟨type, .add, 0, newHdr, len, msg.head list⟩
    .ok (msg.setLink list none (some tmp))

/-- The list for an offset: the body is what lies behind `msg->eoh`. -/
def chooseList (msg : LumpMsg) (offset : ℤ) : ListName :=
  match msg.eoh with
  | some eoh => if eoh < offset then .bodyLumps else .addRm
  | none => .addRm

/-- Where the insertion of an offset stops. -/
def stopsAt (msg : LumpMsg) (offset : ℤ) (t : ℕ) : Bool :=
  ((msg.cell t).op == .del || (msg.cell t).op == .nop) && offset < (msg.cell t).offset

/-- The part that `del_lump` and `anchor_lump` share: find the place in the
list and link the new lump in. -/
def insertSorted (msg : LumpMsg) (op : LumpKind) (offset len type : ℤ)
    (mem : Option ℕ) : Except Stop LumpMsg :=
  match mem with
  | none => .ok msg
  | some tmp =>
    let list := chooseList msg offset
    match msg.walkList list (stopsAt msg offset) with
    | none => .error .loops
    | some (prev, t) =>
      let msg := msg.newCell tmp ⟨type, op, offset, none, len, t⟩
      .ok (msg.setLink list prev (some tmp))

def delLump (msg : LumpMsg) (offset len type : ℤ) (mem : Option ℕ) :
    Except Stop LumpMsg :=
  if msg.len < toUnsigned offset then .error .abort
  else if msg.len < toUnsigned (offset + len) then .error .abort
  else insertSorted msg .del offset len type mem

/-- `anchor_lump`; a length is only warned about. -/
def anchorLump (msg : LumpMsg) (offset len type : ℤ) (mem : Option ℕ) :
    Except Stop LumpMsg :=
  if msg.len < toUnsigned offset then .error .abort
  else insertSorted msg .nop offset len type mem

/-- A call of one of the four functions. -/
inductive LumpCall where
  | del (offset len type : ℤ)
  | anchor (offset len type : ℤ)
  | append (list : ListName) (newHdr : Option ℕ) (len type : ℤ)
  | insert (list : ListName) (newHdr : Option ℕ) (len type : ℤ)

def LumpMsg.step (msg : LumpMsg) (mem : Option ℕ) : LumpCall → Except Stop LumpMsg
  | .del offset len type => delLump msg offset len type mem
  | .anchor offset len type => anchorLump msg offset len type mem
  | .append list newHdr len type => appendNewLump msg list newHdr len type mem
  | .insert list newHdr len type => insertNewLump msg list newHdr len type mem

/-- The messages that a message without lumps can become. -/
inductive LumpReach : LumpMsg → Prop
  | init {msg : LumpMsg} :
      (∀ list, msg.head list = none) → msg.allocated = ∅ → LumpReach msg
  | step {msg msg' : LumpMsg} {mem : Option ℕ} {call : LumpCall} :
      LumpReach msg → (∀ tmp ∈ mem, tmp ∉ msg.allocated) →
      msg.step mem call = .ok msg' → LumpReach msg'

/-! ## What the stores change -/

/-- A lump without its link. -/
def LumpCell.data (c : LumpCell) : LumpCell := { c with next := none }

namespace LumpMsg

variable (msg : LumpMsg)

@[simp] theorem links_newCell (tmp : ℕ) (c : LumpCell) (list : ListName) :
    (msg.newCell tmp c).links list = (msg.links list).set (some tmp) c.next := by
  simp only [links, newCell, Links.set, Links.mk.injEq, true_and]
  funext a
  by_cases ha : a = tmp
  · subst ha
    simp
  · simp [update_of_ne ha]

theorem links_setLink (list : ListName) (slot v : Option ℕ) :
    (msg.setLink list slot v).links list = (msg.links list).set slot v := by
  cases slot with
  | none => simp [links, setLink, Links.set]
  | some c =>
    simp only [links, setLink, Links.set, Links.mk.injEq, true_and]
    funext a
    by_cases ha : a = c
    · subst ha
      simp
    · simp [update_of_ne ha]

theorem holds_setLink_of_ne {list list' : ListName} (hne : list' ≠ list)
    {slot v : Option ℕ} {l : List ℕ} (h : (msg.links list').Holds l)
    (hslot : ∀ c ∈ slot, c ∉ l) :
    ((msg.setLink list slot v).links list').Holds l := by
  cases slot with
  | none => simpa [links, setLink, update_of_ne hne] using h
  | some c =>
    have hlinks : (msg.setLink list (some c) v).links list' =
        (msg.setLink list' (some c) v).links list' := rfl
    rw [hlinks, links_setLink]
    exact h.set_some v (hslot c rfl)

theorem data_setLink (list : ListName) (slot v : Option ℕ) (a : ℕ) :
    ((msg.setLink list slot v).cell a).data = (msg.cell a).data := by
  cases slot with
  | none => rfl
  | some c =>
    by_cases ha : a = c
    · subst ha
      simp [setLink, LumpCell.data]
    · simp [setLink, update_of_ne ha]

theorem data_newCell_of_ne {tmp a : ℕ} (ha : a ≠ tmp) (c : LumpCell) :
    ((msg.newCell tmp c).cell a).data = (msg.cell a).data := by
  simp [newCell, update_of_ne ha]

end LumpMsg

/-! ## The invariant -/

/-- The lump has an offset of its own. -/
def LumpCell.positional (c : LumpCell) : Bool := c.op == .del || c.op == .nop

/-- Two lumps that have offsets have them in order. -/
def LumpCell.InOrder (c d : LumpCell) : Prop :=
  c.positional → d.positional → c.offset ≤ d.offset

theorem LumpCell.InOrder.congr {c d c' d' : LumpCell} (h : c.InOrder d)
    (hc : c'.data = c.data) (hd : d'.data = d.data) : c'.InOrder d' := by
  obtain ⟨_, _, _, _, _, _⟩ := c
  obtain ⟨_, _, _, _, _, _⟩ := d
  obtain ⟨_, _, _, _, _, _⟩ := c'
  obtain ⟨_, _, _, _, _, _⟩ := d'
  simp only [LumpCell.data, LumpCell.mk.injEq] at hc hd
  obtain ⟨-, rfl, rfl, -⟩ := hc
  obtain ⟨-, rfl, rfl, -⟩ := hd
  exact h

/-- `lists` are the lumps of the two lists of a message. -/
structure LumpInv (msg : LumpMsg) (lists : ListName → List ℕ) : Prop where
  holds : ∀ list, (msg.links list).Holds (lists list)
  allocated : ∀ list, ∀ a ∈ lists list, a ∈ msg.allocated
  disjoint : ∀ list list', list' ≠ list → ∀ a ∈ lists list,
    a ∉ lists list'
  sorted : ∀ list, (lists list).Pairwise
    (fun a b => (msg.cell a).InOrder (msg.cell b))

namespace LumpInv

variable {msg : LumpMsg} {lists : ListName → List ℕ}

theorem walkList_eq (h : LumpInv msg lists) (list : ListName) (stop : ℕ → Bool) :
    ∃ l₁ l₂, lists list = l₁ ++ l₂ ∧ (∀ a ∈ l₁, stop a = false) ∧ (∀ a ∈ l₂.head?, stop a = true) ∧
      msg.walkList list stop = some (l₁.getLast?, l₂.head?) := by
  have hlen : (lists list).length ≤ msg.allocated.card := by
    have hnodup := LinkSeg.nodup (h.holds list)
    rw [← toFinset_card_of_nodup hnodup]
    apply Finset.card_le_card
    intro a ha
    exact h.allocated list a (List.mem_toFinset.mp ha)
  obtain ⟨l₁, l₂, hl, h₁, h₂, hwalk⟩ :=
    @walk_of_linkChain ℕ (msg.links list).next stop (lists list) _ none
      (msg.links list).first (h.holds list) hlen
  refine ⟨l₁, l₂, hl, h₁, h₂, ?_⟩
  rw [LumpMsg.walkList, hwalk, Option.or_none]

/-- Linking a new lump in, where its offset belongs. -/
theorem link (h : LumpInv msg lists) {list : ListName} {l₁ l₂ : List ℕ}
    (hl : lists list = l₁ ++ l₂) {tmp : ℕ} (hfresh : tmp ∉ msg.allocated)
    {c : LumpCell} (hnext : c.next = l₂.head?)
    (hbefore : ∀ a ∈ l₁, (msg.cell a).InOrder c)
    (hafter : ∀ a ∈ l₂, c.InOrder (msg.cell a)) :
    LumpInv ((msg.newCell tmp c).setLink list l₁.getLast? (some tmp))
      (Function.update lists list (l₁ ++ tmp :: l₂)) := by
  have hnot : ∀ list, tmp ∉ lists list :=
    fun list' hmem => hfresh (h.allocated list' tmp hmem)
  have hmem : ∀ a, a ∈ l₁ ++ tmp :: l₂ ↔ a = tmp ∨ a ∈ lists list := by
    intro a
    rw [hl]
    simp only [mem_append, mem_cons]
    tauto
  have hslot : ∀ a ∈ l₁.getLast?, a ∈ lists list := by
    intro a ha
    rw [hl]
    exact mem_append_left _ (mem_of_getLast? ha)
  have hdata : ∀ a, a ≠ tmp →
      (((msg.newCell tmp c).setLink list l₁.getLast? (some tmp)).cell a).data =
        (msg.cell a).data := by
    intro a ha
    rw [LumpMsg.data_setLink, LumpMsg.data_newCell_of_ne _ ha]
  have hdatac : (((msg.newCell tmp c).setLink list l₁.getLast? (some tmp)).cell
        tmp).data = c.data := by
    rw [LumpMsg.data_setLink]
    simp [LumpMsg.newCell]
  constructor
  · intro list'
    by_cases hne : list' = list
    · subst hne
      have hget : (msg.links list').get l₁.getLast? = l₂.head? :=
        Links.get_getLast? (hl ▸ h.holds list')
      rw [update_self, LumpMsg.links_setLink, LumpMsg.links_newCell, hnext, ← hget]
      exact Links.holds_insert (hl ▸ h.holds list') (hl ▸ hnot list')
    · rw [update_of_ne hne]
      apply LumpMsg.holds_setLink_of_ne _ hne
      · rw [LumpMsg.links_newCell]
        exact (h.holds list').set_some _ (hnot list')
      · intro a ha
        exact h.disjoint list list' hne a (hslot a ha)
  · intro list' a ha
    have hkeep : ((msg.newCell tmp c).setLink list l₁.getLast?
        (some tmp)).allocated = insert tmp msg.allocated := by
      cases l₁.getLast? <;> rfl
    rw [hkeep, Finset.mem_insert]
    by_cases hne : list' = list
    · subst hne
      rw [update_self, hmem] at ha
      exact ha.imp id (h.allocated list' a)
    · rw [update_of_ne hne] at ha
      exact Or.inr (h.allocated list' a ha)
  · intro list₁ list₂ hne a ha ha'
    have hboth : ∀ list', a ∈ Function.update lists list (l₁ ++ tmp :: l₂)
        list' → (a = tmp ∧ list' = list) ∨ a ∈ lists list' := by
      intro list' hmem'
      by_cases hEq : list' = list
      · subst hEq
        rw [update_self, hmem] at hmem'
        exact hmem'.imp (fun hEq => ⟨hEq, rfl⟩) id
      · rw [update_of_ne hEq] at hmem'
        exact Or.inr hmem'
    rcases hboth list₁ ha with ⟨htmp, hlist⟩ | hold
    · rcases hboth list₂ ha' with ⟨-, hlist'⟩ | hold'
      · exact hne (hlist'.trans hlist.symm)
      · exact hnot list₂ (htmp ▸ hold')
    · rcases hboth list₂ ha' with ⟨htmp, -⟩ | hold'
      · exact hnot list₁ (htmp ▸ hold)
      · exact h.disjoint list₁ list₂ hne a hold hold'
  · intro list'
    have hold : (lists list').Pairwise (fun a b =>
        (((msg.newCell tmp c).setLink list l₁.getLast? (some tmp)).cell a).InOrder
          (((msg.newCell tmp c).setLink list l₁.getLast? (some tmp)).cell b)) := by
      apply (h.sorted list').imp_of_mem
      intro a b ha hb hab
      exact hab.congr (hdata a fun hEq => hnot list' (hEq ▸ ha))
        (hdata b fun hEq => hnot list' (hEq ▸ hb))
    by_cases hne : list' = list
    · subst hne
      rw [update_self]
      rw [hl] at hold
      have hntmp : ∀ a ∈ l₁ ++ l₂, a ≠ tmp :=
        fun a ha hEq => hnot list' (by rw [hl, ← hEq]; exact ha)
      obtain ⟨h₁, h₂, h₁₂⟩ := pairwise_append.mp hold
      refine pairwise_append.mpr ⟨h₁, pairwise_cons.mpr ⟨?_, h₂⟩, ?_⟩
      · intro b hb
        exact (hafter b hb).congr hdatac (hdata b (hntmp b (mem_append_right _ hb)))
      · intro a ha b hb
        rcases mem_cons.mp hb with rfl | hb
        · exact (hbefore a ha).congr (hdata a (hntmp a (mem_append_left _ ha))) hdatac
        · exact h₁₂ a ha b hb
    · rw [update_of_ne hne]
      exact hold

/-- What a call may do to a message: link in one lump, and leave the others
as they are. -/
def Grows (msg msg' : LumpMsg) (lists lists' : ListName → List ℕ) : Prop :=
  (∀ list, (lists list).Sublist (lists' list)) ∧
    ∀ list, ∀ a ∈ lists list, (msg'.cell a).data = (msg.cell a).data

theorem Grows.refl (msg : LumpMsg) (lists : ListName → List ℕ) :
    Grows msg msg lists lists :=
  ⟨fun _ => List.Sublist.refl _, fun _ _ _ => rfl⟩

theorem grows_link (h : LumpInv msg lists) {list : ListName} {l₁ l₂ : List ℕ}
    (hl : lists list = l₁ ++ l₂) {tmp : ℕ} (hfresh : tmp ∉ msg.allocated)
    (c : LumpCell) (slot : Option ℕ) :
    Grows msg ((msg.newCell tmp c).setLink list slot (some tmp)) lists
      (Function.update lists list (l₁ ++ tmp :: l₂)) := by
  constructor
  · intro list'
    by_cases hne : list' = list
    · subst hne
      rw [update_self, hl]
      exact List.Sublist.append_left (sublist_cons_self tmp l₂) l₁
    · rw [update_of_ne hne]
  · intro list' a ha
    have hne : a ≠ tmp := by
      rintro rfl
      exact hfresh (h.allocated list' a ha)
    rw [LumpMsg.data_setLink, LumpMsg.data_newCell_of_ne _ hne]

variable {mem : Option ℕ}

section

variable (h : LumpInv msg lists)
include h

theorem appendNewLump_spec (list : ListName) (newHdr : Option ℕ) (len type : ℤ)
    (hfresh : ∀ tmp ∈ mem, tmp ∉ msg.allocated) :
    ∃ msg' lists', appendNewLump msg list newHdr len type mem = .ok msg' ∧
      LumpInv msg' lists' ∧ Grows msg msg' lists lists' := by
  obtain ⟨l₁, l₂, hl, -, h₂, hwalk⟩ := h.walkList_eq list (fun _ => false)
  have hnil : l₂ = [] := by
    cases l₂ with
    | nil => rfl
    | cons a l₂ => simpa using h₂ a rfl
  subst hnil
  cases mem with
  | none =>
    refine ⟨msg, lists, ?_, h, Grows.refl msg lists⟩
    simp only [appendNewLump, hwalk]
  | some tmp =>
    refine ⟨_, _, ?_, h.link hl (hfresh tmp rfl)
      (c := ⟨type, .add, 0, newHdr, len, none⟩) rfl ?_ (by simp),
      h.grows_link hl (hfresh tmp rfl) _ _⟩
    · simp only [appendNewLump, hwalk]
    · intro a _ _ hpos
      simp [LumpCell.positional] at hpos

theorem insertNewLump_spec (list : ListName) (newHdr : Option ℕ) (len type : ℤ)
    (hfresh : ∀ tmp ∈ mem, tmp ∉ msg.allocated) :
    ∃ msg' lists', insertNewLump msg list newHdr len type mem = .ok msg' ∧
      LumpInv msg' lists' ∧ Grows msg msg' lists lists' := by
  cases mem with
  | none => exact ⟨msg, lists, rfl, h, Grows.refl msg lists⟩
  | some tmp =>
    have hl : lists list = [] ++ lists list := rfl
    have hhead : msg.head list = (lists list).head? :=
      @Links.get_getLast? ℕ (msg.links list) [] _ (h.holds list)
    refine ⟨_, _, rfl, h.link hl (hfresh tmp rfl) hhead (by simp) ?_,
      h.grows_link hl (hfresh tmp rfl) _ _⟩
    intro a _ hpos
    simp [LumpCell.positional] at hpos

theorem insertSorted_spec (op : LumpKind) (offset len type : ℤ)
    (hfresh : ∀ tmp ∈ mem, tmp ∉ msg.allocated) :
    ∃ msg' lists', insertSorted msg op offset len type mem = .ok msg' ∧
      LumpInv msg' lists' ∧ Grows msg msg' lists lists' := by
  cases mem with
  | none => exact ⟨msg, lists, rfl, h, Grows.refl msg lists⟩
  | some tmp =>
    obtain ⟨l₁, l₂, hl, h₁, h₂, hwalk⟩ :=
      h.walkList_eq (chooseList msg offset) (stopsAt msg offset)
    refine ⟨_, _, ?_, h.link hl (hfresh tmp rfl)
      (c := ⟨type, op, offset, none, len, l₂.head?⟩) rfl ?_ ?_,
      h.grows_link hl (hfresh tmp rfl) _ _⟩
    · simp only [insertSorted, hwalk]
    · intro a ha hpos _
      have hstop := h₁ a ha
      simp only [stopsAt, Bool.and_eq_false_iff, decide_eq_false_iff_not, not_lt] at hstop
      rcases hstop with hkind | hle
      · rw [LumpCell.positional, hkind] at hpos
        exact absurd hpos (by decide)
      · exact hle
    · intro a ha _ hpos
      cases l₂ with
      | nil => simp at ha
      | cons b l₂ =>
        have hstop := h₂ b rfl
        simp only [stopsAt, Bool.and_eq_true, decide_eq_true_eq] at hstop
        rcases mem_cons.mp ha with rfl | ha
        · exact hstop.2.le
        · have hsorted := h.sorted (chooseList msg offset)
          rw [hl] at hsorted
          have htail := (pairwise_append.mp hsorted).2.1
          have hba := (pairwise_cons.mp htail).1 a ha hstop.1 hpos
          exact hstop.2.le.trans hba

/-- One call: it ends, unless the offsets do not fit the message. -/
theorem step_spec (call : LumpCall) (hfresh : ∀ tmp ∈ mem, tmp ∉ msg.allocated) :
    msg.step mem call = .error .abort ∨ ∃ msg' lists', msg.step mem call = .ok msg' ∧
        LumpInv msg' lists' ∧ Grows msg msg' lists lists' := by
  cases call with
  | del offset len type =>
    rw [LumpMsg.step, delLump]
    by_cases hoff : msg.len < toUnsigned offset
    · exact Or.inl (if_pos hoff)
    · by_cases hend : msg.len < toUnsigned (offset + len)
      · exact Or.inl (by rw [if_neg hoff, if_pos hend])
      · rw [if_neg hoff, if_neg hend]
        exact Or.inr (h.insertSorted_spec .del offset len type hfresh)
  | anchor offset len type =>
    rw [LumpMsg.step, anchorLump]
    by_cases hoff : msg.len < toUnsigned offset
    · exact Or.inl (if_pos hoff)
    · rw [if_neg hoff]
      exact Or.inr (h.insertSorted_spec .nop offset len type hfresh)
  | append list newHdr len type =>
    exact Or.inr (h.appendNewLump_spec list newHdr len type hfresh)
  | insert list newHdr len type =>
    exact Or.inr (h.insertNewLump_spec list newHdr len type hfresh)

end

end LumpInv

theorem LumpReach.inv {msg : LumpMsg} (h : LumpReach msg) : ∃ lists, LumpInv msg lists := by
  induction h with
  | init hhead _ =>
    refine ⟨fun _ => [], ?_⟩
    exact
      { holds := fun list => hhead list
        allocated := by simp
        disjoint := by simp
        sorted := fun _ => List.Pairwise.nil }
  | step _ hfresh hstep ih =>
    obtain ⟨lists, hinv⟩ := ih
    rcases hinv.step_spec _ hfresh with habort | ⟨msg', lists', hok, hinv', -⟩
    · rw [habort] at hstep
      cases hstep
    · rw [hok] at hstep
      cases hstep
      exact ⟨lists', hinv'⟩

/-- Whatever lumps are added and in whatever order: both lists of the message
end, they are without cycles and have their offsets in order, and the next
call keeps every lump, its contents and the order of the lumps. -/
theorem lumpLists_wellFormed (msg : LumpMsg) (h : LumpReach msg) : ∃ lists : ListName → List ℕ,
      (∀ list, LinkChain (fun a => (msg.cell a).next) (msg.head list) (lists list)) ∧
      (∀ list, (lists list).Nodup) ∧
      (∀ list, (lists list).Pairwise (fun a b => (msg.cell a).InOrder (msg.cell b))) ∧
      ∀ (call : LumpCall) (mem : Option ℕ), (∀ tmp ∈ mem, tmp ∉ msg.allocated) →
        msg.step mem call ≠ .error .loops ∧
        ∀ msg', msg.step mem call = .ok msg' → ∃ lists' : ListName → List ℕ,
            (∀ list, LinkChain (fun a => (msg'.cell a).next) (msg'.head list) (lists' list)) ∧
            (∀ list, (lists list).Sublist (lists' list)) ∧
            ∀ list, ∀ a ∈ lists list, (msg'.cell a).data = (msg.cell a).data := by
  obtain ⟨lists, hinv⟩ := h.inv
  refine ⟨lists, hinv.holds, fun list => LinkSeg.nodup (hinv.holds list), hinv.sorted, ?_⟩
  intro call mem hfresh
  rcases hinv.step_spec call hfresh with habort | ⟨msg', lists', hok, hinv', hgrow⟩
  · rw [habort]
    constructor
    · simp
    · intro msg' hstep
      cases hstep
  · rw [hok]
    constructor
    · simp
    · rintro msg'' ⟨⟩
      exact ⟨lists', hinv'.holds, hgrow.1, hgrow.2⟩

/-- A message of 100 bytes, still without lumps. -/
def emptyLumpMsg : LumpMsg :=
  ⟨100, none, fun _ => none, fun _ => ⟨0, .nop, 0, none, 0, none⟩, ∅⟩

/-- An anchor put in front of a deletion. -/
theorem lumpLists_wellFormed_anchor : ∃ (msg : LumpMsg) (lists : ListName → List ℕ), LumpReach msg ∧
      msg.head .addRm = some 2 ∧ (msg.cell 2).next = some 1 ∧
      LinkChain (fun a => (msg.cell a).next) (msg.head .addRm) (lists .addRm) ∧
      (lists .addRm).Nodup := by
  have h₀ : LumpReach emptyLumpMsg := LumpReach.init (fun _ => rfl) rfl
  have h₁ : LumpReach ((emptyLumpMsg.newCell 1
      ⟨0, .del, 10, none, 5, none⟩).setLink .addRm none (some 1)) :=
    @LumpReach.step _ _ (some 1) (.del 10 5 0) h₀ (by decide) rfl
  have h₂ : LumpReach ((((emptyLumpMsg.newCell 1
      ⟨0, .del, 10, none, 5, none⟩).setLink .addRm none (some 1)).newCell 2
        ⟨0, .nop, 3, none, 0, some 1⟩).setLink .addRm none (some 2)) :=
    @LumpReach.step _ _ (some 2) (.anchor 3 0 0) h₁ (by decide) rfl
  obtain ⟨lists, hchain, hnodup, -⟩ := lumpLists_wellFormed _ h₂
  exact ⟨_, lists, h₂, rfl, rfl, hchain .addRm, hnodup .addRm⟩

end Msicp.Lumps
