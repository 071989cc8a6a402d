import Msicp.Lumps.LumpList
import Msicp.Support.Heap

/-!
# Lumps in the heap (`lump_struct.h`, `data_lump.c`)

The lumps of a list are linked by `next`; each of them has two chains of its
own, linked by `before` and by `after`.
-/

namespace Msicp.Lumps

open Msicp.Support List Heap

/-- `enum lump_flag`; the two bits are also set and tested apart. -/
structure LumpFlag where
  isDuped : Bool
  isShmem : Bool
  deriving DecidableEq

namespace LumpFlag

/-- `LUMPFLAG_NONE` -/
def none : LumpFlag := ⟨false, false⟩

/-- `LUMPFLAG_DUPED` -/
def duped : LumpFlag := ⟨true, false⟩

/-- `LUMPFLAG_SHMEM` -/
def shmem : LumpFlag := ⟨false, true⟩

/-- `flags & (LUMPFLAG_DUPED|LUMPFLAG_SHMEM)` -/
def shared (flags : LumpFlag) : Bool := flags.isDuped || flags.isShmem

theorem shared_eq_false {flags : LumpFlag} : flags.shared = false ↔ flags = none := by
  obtain ⟨isDuped, isShmem⟩ := flags
  cases isDuped <;> cases isShmem <;> decide

end LumpFlag

/-- The union `u` of a lump. -/
inductive LumpU where
  | offset (offset : ℤ)
  | subst (subst : LumpSubst)
  | cond (cond : LumpCond)
  | value (value : Option ℕ)

/-- `struct lump` -/
structure LumpNode where
  type : ℤ
  op : LumpKind
  u : LumpU
  len : ℤ
  before : Option ℕ
  after : Option ℕ
  next : Option ℕ
  flags : LumpFlag

/-- The lumps in memory; the texts that they point to are blocks as well. -/
abbrev LumpHeap := Heap LumpNode

namespace LumpNode

/-- A lump without its links. -/
def content (c : LumpNode) : LumpNode :=
  { c with before := none, after := none, next := none }

/-- The text that an added lump points to. -/
def text (c : LumpNode) : Option ℕ :=
  match c.op, c.u with
  | .add, .value v => v
  | _, _ => none

/-- The block of the text, if there is one. -/
def payload (c : LumpNode) : List ℕ := c.text.toList

variable (c : LumpNode) (v : Option ℕ)

end LumpNode

def freeLump (h : LumpHeap) (lmp : ℕ) : Except Fault LumpHeap := do
  let c ← h.read lmp
  match c.text with
  | none => .ok h
  | some value =>
    if c.flags.shared then .error .abort
    else do
      let h ← h.free value
      h.write lmp { c with u := .value none, len := 0 }

/-- `free_lump(foo); pkg_free(foo);` -/
def freeWhole (h : LumpHeap) (foo : ℕ) : Except Fault LumpHeap := do
  let h ← freeLump h foo
  h.free foo

/-! ## Lists with their chains -/

/-- Where a lump of a list and the lumps of its chains are. -/
structure LumpEntry where
  addr : ℕ
  before : List ℕ
  after : List ℕ

namespace LumpEntry

def nodes (e : LumpEntry) : List ℕ := e.addr :: (e.before ++ e.after)

theorem addr_mem (e : LumpEntry) : e.addr ∈ e.nodes := mem_cons_self

theorem before_mem {e : LumpEntry} {a : ℕ} (ha : a ∈ e.before) : a ∈ e.nodes :=
  mem_cons_of_mem _ (mem_append_left _ ha)

theorem after_mem {e : LumpEntry} {a : ℕ} (ha : a ∈ e.after) : a ∈ e.nodes :=
  mem_cons_of_mem _ (mem_append_right _ ha)

end LumpEntry

/-- The blocks of the lumps of a list. -/
def nodesOf (l : List LumpEntry) : List ℕ := l.flatMap LumpEntry.nodes

theorem nodesOf_cons (e : LumpEntry) (l : List LumpEntry) :
    nodesOf (e :: l) = e.nodes ++ nodesOf l := rfl

theorem mem_nodesOf {l : List LumpEntry} {e : LumpEntry} {a : ℕ} (he : e ∈ l)
    (ha : a ∈ e.nodes) : a ∈ nodesOf l :=
  mem_flatMap.mpr ⟨e, he, ha⟩

/-- The chains of a lump. -/
structure HoldsChains (h : LumpHeap) (e : LumpEntry) : Prop where
  before : h.Chain LumpNode.before (h.cell e.addr).before e.before
  after : h.Chain LumpNode.after (h.cell e.addr).after e.after

/-- The lumps of `l` are the whole list that starts at `p`, each of them in
use and in one place only. -/
structure HoldsLumps (h : LumpHeap) (p : Option ℕ) (l : List LumpEntry) :
    Prop where
  next : h.Chain LumpNode.next p (l.map LumpEntry.addr)
  chains : ∀ e ∈ l, HoldsChains h e
  live : ∀ a ∈ nodesOf l, a ∈ h.allocated
  nodup : (nodesOf l).Nodup

/-- A lump with its chains, as values. -/
structure LumpView where
  lump : LumpNode
  before : List LumpNode
  after : List LumpNode

/-- What is in the lumps of an entry, apart from their links. -/
def viewEntry (h : LumpHeap) (e : LumpEntry) : LumpView where
  lump := (h.cell e.addr).content
  before := e.before.map fun a => (h.cell a).content
  after := e.after.map fun a => (h.cell a).content

/-- The list as a value. -/
def view (h : LumpHeap) (l : List LumpEntry) : List LumpView :=
  l.map (viewEntry h)

section

variable {h h₁ : LumpHeap} {p : Option ℕ} {e : LumpEntry}
  {l : List LumpEntry}

theorem HoldsChains.congr (hc : HoldsChains h e)
    (hsame : ∀ a ∈ e.nodes, h₁.cell a = h.cell a) : HoldsChains h₁ e := by
  constructor
  · rw [hsame e.addr e.addr_mem]
    exact hc.before.congr fun a ha => hsame a (LumpEntry.before_mem ha)
  · rw [hsame e.addr e.addr_mem]
    exact hc.after.congr fun a ha => hsame a (LumpEntry.after_mem ha)

theorem viewEntry_congr (hsame : ∀ a ∈ e.nodes, (h₁.cell a).content = (h.cell a).content) :
    viewEntry h₁ e = viewEntry h e := by
  rw [viewEntry, viewEntry, hsame e.addr e.addr_mem,
    map_congr_left fun a ha => hsame a (LumpEntry.before_mem ha),
    map_congr_left fun a ha => hsame a (LumpEntry.after_mem ha)]

theorem view_congr (hsame : ∀ a ∈ nodesOf l, (h₁.cell a).content = (h.cell a).content) :
    view h₁ l = view h l :=
  map_congr_left fun _ he =>
    viewEntry_congr fun a ha => hsame a (mem_nodesOf he ha)

theorem holdsLumps_nil (h : LumpHeap) : HoldsLumps h none [] where
  next := rfl
  chains := by simp
  live := by simp [nodesOf]
  nodup := nodup_nil

theorem holdsLumps_cons : HoldsLumps h p (e :: l) ↔ p = some e.addr ∧ HoldsChains h e ∧
        HoldsLumps h (h.cell e.addr).next l ∧
        (∀ a ∈ e.nodes, a ∈ h.allocated) ∧ e.nodes.Nodup ∧
        ∀ a ∈ e.nodes, a ∉ nodesOf l := by
  constructor
  · intro hl
    obtain ⟨hp, hrest⟩ := hl.next
    have hnodup := List.nodup_append.mp hl.nodup
    refine ⟨hp, hl.chains e mem_cons_self, ⟨hrest, ?_, ?_, hnodup.2.1⟩,
      ?_, hnodup.1, fun a ha hin => hnodup.2.2 a ha a hin rfl⟩
    · exact fun e' he' => hl.chains e' (mem_cons_of_mem _ he')
    · exact fun a ha => hl.live a (mem_append_right _ ha)
    · exact fun a ha => hl.live a (mem_append_left _ ha)
  · rintro ⟨rfl, hchains, hl, hlive, hnodup, hdisj⟩
    refine ⟨⟨rfl, hl.next⟩, ?_, ?_, ?_⟩
    · intro e' he'
      rcases mem_cons.mp he' with rfl | he'
      · exact hchains
      · exact hl.chains e' he'
    · intro a ha
      rcases mem_append.mp ha with ha | ha
      · exact hlive a ha
      · exact hl.live a ha
    · refine List.nodup_append.mpr ⟨hnodup, hl.nodup, ?_⟩
      rintro a ha _ hb rfl
      exact hdisj a ha hb

theorem HoldsLumps.congr (hl : HoldsLumps h p l) (hsame : ∀ a ∈ nodesOf l, h₁.cell a = h.cell a)
    (hlive : ∀ a ∈ nodesOf l, a ∈ h₁.allocated) : HoldsLumps h₁ p l where
  next := by
    refine Heap.Chain.congr hl.next ?_
    intro a ha
    obtain ⟨e, he, rfl⟩ := List.mem_map.mp ha
    exact hsame _ (mem_nodesOf he e.addr_mem)
  chains := fun e he =>
    (hl.chains e he).congr fun a ha => hsame a (mem_nodesOf he ha)
  live := hlive
  nodup := hl.nodup

theorem HoldsLumps.grows {new : List ℕ} (hl : HoldsLumps h p l)
    (hg : h.Grows h₁ new) : HoldsLumps h₁ p l :=
  hl.congr (fun a ha => hg.same a (hl.live a ha)) fun a ha => hg.keeps (hl.live a ha)

theorem HoldsLumps.length_le (hl : HoldsLumps h p l) : (nodesOf l).length ≤ h.allocated.card := by
  rw [← toFinset_card_of_nodup hl.nodup]
  apply Finset.card_le_card
  intro a ha
  exact hl.live a (List.mem_toFinset.mp ha)

end

/-! ## Freeing one lump -/

section

variable {h : LumpHeap} {a : ℕ}

/-- A lump that may be freed goes with its text. -/
theorem freeWhole_shrinks (ha : a ∈ h.allocated)
    (hpay : ∀ b ∈ (h.cell a).payload, b ∈ h.allocated ∧ b ≠ a)
    (hflags : (h.cell a).flags = .none ∨ (h.cell a).payload = []) :
    ∃ h₁, freeWhole h a = .ok h₁ ∧ h.Shrinks h₁ (a :: (h.cell a).payload) := by
  rw [LumpNode.payload] at hpay hflags ⊢
  cases htext : (h.cell a).text with
  | none =>
    refine ⟨_, ?_, free_shrinks ha⟩
    simp only [freeWhole, freeLump, read_live ha, bind, Except.bind, htext, free_live ha]
  | some v =>
    rw [htext] at hpay hflags
    obtain ⟨hv, hne⟩ := hpay v (by simp)
    have hnone : (h.cell a).flags = .none := by
      rcases hflags with hflags | hnil
      · exact hflags
      · simp at hnil
    have ha' : a ∈ h.allocated.erase v := Finset.mem_erase.mpr ⟨hne.symm, ha⟩
    let c : LumpNode := { h.cell a with u := .value none, len := 0 }
    have hlump : freeLump h a = .ok
        { h with
          allocated := h.allocated.erase v
          cell := Function.update h.cell a c } := by
      have hshared : ¬ (h.cell a).flags.shared = true := by
        rw [hnone]
        decide
      simp only [freeLump, read_live ha, bind, Except.bind, htext,
        if_neg hshared, free_live hv]
      exact write_live ha' c
    have hrun : freeWhole h a = .ok
        { h with
          allocated := (h.allocated.erase v).erase a
          cell := Function.update h.cell a c } := by
      simp only [freeWhole, hlump, bind, Except.bind]
      exact free_live ha'
    refine ⟨_, hrun, ?_, ?_, ?_, ?_⟩
    · simpa using hne.symm
    · simpa using ⟨ha, hv⟩
    · intro b
      simp only [Finset.mem_erase, Option.toList_some, mem_cons, not_mem_nil, or_false, not_or]
      tauto
    · intro b hb
      have hba : b ≠ a := fun heq => hb (heq ▸ mem_cons_self)
      exact Function.update_of_ne hba _ _

/-- A lump that may be freed: nothing else holds its text, and it is not
flagged as shared. -/
structure Whole (h : LumpHeap) (a : ℕ) : Prop where
  flags : (h.cell a).flags = .none ∨ (h.cell a).payload = []
  text : ∀ b ∈ (h.cell a).payload, b ≠ a

theorem Whole.disposes (hw : Whole h a) :
    Heap.Disposes freeWhole h a [a] (a :: (h.cell a).payload) := by
  intro h₁ hcell hlive howned
  have hsame : h₁.cell a = h.cell a := hcell a (mem_singleton_self a)
  have hfree := freeWhole_shrinks (howned a mem_cons_self)
    (fun b hb => ⟨howned b (mem_cons_of_mem _ (hsame ▸ hb)),
      hw.text b (hsame ▸ hb)⟩) (hsame ▸ hw.flags)
  rw [hsame] at hfree
  exact hfree

end

/-! ## Freeing a lump with its chains -/

/-- The body of the loops that free a list: first the lumps of the two chains,
then the lump itself. -/
def freeWithChains (dispose : LumpHeap → ℕ → Except Fault LumpHeap)
    (h : LumpHeap) (crt : ℕ) : Except Fault LumpHeap := do
  let c ← h.read crt
  let h ← Heap.freeChain LumpNode.before dispose h.allocated.card h c.before
  let c ← h.read crt
  let h ← Heap.freeChain LumpNode.after dispose h.allocated.card h c.after
  dispose h crt

section

variable {h h₁ : LumpHeap} {e : LumpEntry} {own : ℕ → List ℕ}
  {dispose : LumpHeap → ℕ → Except Fault LumpHeap} {l₁ l₂ nodes : List ℕ}

/-- What is needed to free some lumps: they are in use with all that they own,
and none of them owns another one. -/
structure Separate (dispose : LumpHeap → ℕ → Except Fault LumpHeap)
    (h : LumpHeap) (own : ℕ → List ℕ) (nodes : List ℕ) : Prop where
  nodup : nodes.Nodup
  live : ∀ a ∈ nodes, a ∈ h.allocated
  owned : ∀ b ∈ nodes.flatMap own, b ∈ h.allocated
  ownedNodup : (nodes.flatMap own).Nodup
  sep : ∀ a ∈ nodes, ∀ b ∈ nodes, a ≠ b → b ∉ own a
  disposes : ∀ a ∈ nodes, Heap.Disposes dispose h a [a] (own a)

theorem not_mem_own (hnodup : (nodes.flatMap own).Nodup) (hself : ∀ a ∈ nodes, a ∈ own a) :
    ∀ a ∈ nodes, ∀ b ∈ nodes, a ≠ b → b ∉ own a := by
  intro a ha b hb hne hin
  have hsymm : Std.Symm (Function.onFun List.Disjoint own) :=
    ⟨fun _ _ h => List.Disjoint.symm h⟩
  have hdisj := (nodup_flatMap.mp hnodup).2.forall ha hb hne
  exact hdisj hin (hself b hb)

theorem Separate.perm (hs : Separate dispose h own l₁) (hperm : l₁.Perm l₂) :
    Separate dispose h own l₂ where
  nodup := hperm.nodup_iff.mp hs.nodup
  live := fun a ha => hs.live a (hperm.mem_iff.mpr ha)
  owned := fun b hb => hs.owned b ((hperm.flatMap_right own).mem_iff.mpr hb)
  ownedNodup := (hperm.flatMap_right own).nodup_iff.mp hs.ownedNodup
  sep := fun a ha b hb =>
    hs.sep a (hperm.mem_iff.mpr ha) b (hperm.mem_iff.mpr hb)
  disposes := fun a ha => hs.disposes a (hperm.mem_iff.mpr ha)

theorem Separate.left (hs : Separate dispose h own (l₁ ++ l₂)) : Separate dispose h own l₁ where
  nodup := (List.nodup_append.mp hs.nodup).1
  live := fun a ha => hs.live a (mem_append_left _ ha)
  owned := by
    intro b hb
    apply hs.owned
    rw [flatMap_append]
    exact mem_append_left _ hb
  ownedNodup := by
    have hall := hs.ownedNodup
    rw [flatMap_append] at hall
    exact (List.nodup_append.mp hall).1
  sep := fun a ha b hb =>
    hs.sep a (mem_append_left _ ha) b (mem_append_left _ hb)
  disposes := fun a ha => hs.disposes a (mem_append_left _ ha)

/-- Behind the lumps that have been freed, the others are as they were. -/
theorem Separate.right (hs : Separate dispose h own (l₁ ++ l₂))
    (hfreed : h.Shrinks h₁ (l₁.flatMap own)) :
    (∀ a ∈ l₂, h₁.cell a = h.cell a) ∧ Separate dispose h₁ own l₂ := by
  have hnodup := List.nodup_append.mp hs.nodup
  have hall := hs.ownedNodup
  have howned := hs.owned
  rw [flatMap_append] at hall howned
  have hnot : ∀ a ∈ l₂, a ∉ l₁.flatMap own := by
    intro a ha hin
    obtain ⟨b, hb, hab⟩ := mem_flatMap.mp hin
    exact hs.sep b (mem_append_left _ hb) a (mem_append_right _ ha) (hnodup.2.2 b hb a ha) hab
  have hsame : ∀ a ∈ l₂, h₁.cell a = h.cell a :=
    fun a ha => hfreed.same a (hnot a ha)
  refine ⟨hsame, hnodup.2.1, ?_, ?_, (List.nodup_append.mp hall).2.1, ?_, ?_⟩
  · exact fun a ha => (hfreed.mem a).mpr ⟨hs.live a (mem_append_right _ ha), hnot a ha⟩
  · intro b hb
    refine (hfreed.mem b).mpr ⟨howned b (mem_append_right _ hb), ?_⟩
    exact fun hin => (List.nodup_append.mp hall).2.2 b hin b hb rfl
  · exact fun a ha b hb => hs.sep a (mem_append_right _ ha) b (mem_append_right _ hb)
  · intro a ha
    refine (hs.disposes a (mem_append_right _ ha)).congr ?_
    intro b hb
    exact hsame b (mem_singleton.mp hb ▸ ha)

theorem Separate.freeChain_shrinks {link : LumpNode → Option ℕ}
    {p : Option ℕ} (hs : Separate dispose h own nodes)
    (hc : h.Chain link p nodes) :
    ∃ h₁, Heap.freeChain link dispose h.allocated.card h p = .ok h₁ ∧
      h.Shrinks h₁ (nodes.flatMap own) := by
  have hc' : h.Chain link p (nodes.map id) := by
    rw [List.map_id]
    exact hc
  have hsep : nodes.Pairwise fun a b => ∀ x ∈ [b], x ∉ own a := by
    refine List.Pairwise.imp_of_mem ?_ hs.nodup
    intro a b ha hb hne x hx
    rw [mem_singleton] at hx
    subst hx
    exact hs.sep a ha x hb hne
  refine @Heap.freeChain_shrinks _ _ _ _ (fun a => [a]) _ _ _ _ _ _ hc' (hc.length_le hs.live)
    ⟨?_, ?_, hs.owned, hs.ownedNodup, hsep, hs.disposes⟩
  · exact fun a _ => mem_singleton_self a
  · intro b hb
    rw [flatMap_singleton'] at hb
    exact hs.live b hb

theorem LumpEntry.nodes_perm (e : LumpEntry) :
    e.nodes.Perm (e.before ++ (e.after ++ [e.addr])) := by
  rw [nodes, ← append_assoc]
  exact (perm_append_singleton _ _).symm

theorem freeWithChains_shrinks (hc : HoldsChains h e) (hs : Separate dispose h own e.nodes) :
    ∃ h₁, freeWithChains dispose h e.addr = .ok h₁ ∧ h.Shrinks h₁ (e.nodes.flatMap own) := by
  have haddr := hs.live e.addr e.addr_mem
  replace hs := hs.perm e.nodes_perm
  obtain ⟨h₁, hrun₁, hs₁⟩ := hs.left.freeChain_shrinks hc.before
  obtain ⟨hsame₁, hrest₁⟩ := hs.right hs₁
  have haddr₁ : h₁.cell e.addr = h.cell e.addr := hsame₁ _ (by simp)
  have hafter : h₁.Chain LumpNode.after (h₁.cell e.addr).after e.after := by
    rw [haddr₁]
    exact hc.after.congr fun a ha =>
      hsame₁ a (mem_append_left _ ha)
  obtain ⟨h₂, hrun₂, hs₂⟩ := hrest₁.left.freeChain_shrinks hafter
  obtain ⟨-, hlast⟩ := hrest₁.right hs₂
  obtain ⟨h₃, hrun₃, hs₃⟩ := hlast.disposes e.addr (by simp) h₂
    (fun _ _ => rfl) hlast.live (by simpa using hlast.owned)
  refine ⟨h₃, ?_, ((hs₁.trans hs₂).trans hs₃).perm ?_⟩
  · simp only [freeWithChains, read_live haddr, bind, Except.bind, hrun₁,
      read_live (hrest₁.live e.addr (by simp)), hrun₂, hrun₃]
  · have hperm := (e.nodes_perm.flatMap_right own).symm
    simpa only [flatMap_append, flatMap_singleton, append_assoc] using hperm

theorem HoldsLumps.free_shrinks {p : Option ℕ} {l : List LumpEntry}
    (hl : HoldsLumps h p l) (hs : Separate dispose h own (nodesOf l)) :
    ∃ h₁, Heap.freeChain LumpNode.next (freeWithChains dispose) h.allocated.card h p = .ok h₁ ∧
      h.Shrinks h₁ ((nodesOf l).flatMap own) := by
  have haddr : ∀ a ∈ l.map LumpEntry.addr, a ∈ h.allocated := by
    intro a ha
    obtain ⟨e, he, rfl⟩ := List.mem_map.mp ha
    exact hl.live _ (mem_nodesOf he e.addr_mem)
  have hlen : l.length ≤ h.allocated.card := by
    simpa using hl.next.length_le haddr
  have hflat : (nodesOf l).flatMap own = l.flatMap fun e => e.nodes.flatMap own := by
    rw [nodesOf, flatMap_assoc]
  rw [hflat]
  refine @Heap.freeChain_shrinks _ _ _ _ LumpEntry.nodes _ _ _ _ _ _ hl.next hlen
    ⟨fun e _ => e.addr_mem, hl.live, hflat ▸ hs.owned, hflat ▸ hs.ownedNodup, ?_, ?_⟩
  · have hdisj : l.Pairwise fun e e' => ∀ b ∈ e'.nodes, b ∉ e.nodes := by
      refine List.Pairwise.imp ?_ (nodup_flatMap.mp hl.nodup).2
      intro e e' hd b hb hin
      exact hd hin hb
    refine List.Pairwise.imp_of_mem ?_ hdisj
    intro e e' he he' hd b hb hown
    obtain ⟨a, ha, hba⟩ := mem_flatMap.mp hown
    exact hs.sep a (mem_nodesOf he ha) b (mem_nodesOf he' hb) (fun heq => hd b hb (heq ▸ ha)) hba
  · intro e he h₁ hsame hlive howned
    have hin : ∀ a ∈ e.nodes, a ∈ nodesOf l := fun a ha => mem_nodesOf he ha
    refine freeWithChains_shrinks ((hl.chains e he).congr hsame)
      ⟨(nodup_flatMap.mp hl.nodup).1 e he, hlive, howned, ?_, ?_, ?_⟩
    · have hall := hs.ownedNodup
      rw [hflat] at hall
      exact (nodup_flatMap.mp hall).1 e he
    · exact fun a ha b hb => hs.sep a (hin a ha) b (hin b hb)
    · intro a ha
      refine (hs.disposes a (hin a ha)).congr ?_
      intro b hb
      exact hsame b (mem_singleton.mp hb ▸ ha)

end

end Msicp.Lumps
