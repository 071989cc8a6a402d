import Msicp.Support.LinkChain
import Mathlib.Data.Finset.Card
import Mathlib.Data.Finset.Lattice.Fold
import Mathlib.Data.List.Flatten
import Mathlib.Order.Lattice.Nat

/-!
# A heap that hands out and takes back

A block is an address; the blocks that are in use form a finite set.  Reading,
writing or freeing a block that is not in use is a fault, so that a program
which ends without one has freed nothing twice and used nothing it had freed.
The allocator is a parameter: it may fail at any call.
-/

namespace Msicp.Support

open List

/-- Why a program does not go on. -/
inductive Fault where
  | invalid
  | loops
  | abort

/-- The blocks in use and what they hold; `calls` counts the allocations. -/
structure Heap (α : Type*) where
  calls : ℕ
  allocated : Finset ℕ
  cell : ℕ → α

/-- What the allocator answers at its `n`-th call, with some blocks in use. -/
structure Malloc where
  pick : ℕ → Finset ℕ → Option ℕ
  fresh : ∀ {n : ℕ} {s : Finset ℕ} {a : ℕ}, pick n s = some a → a ∉ s

/-- One of the calls of the allocator fails. -/
def Malloc.Fails (m : Malloc) : Prop :=
  ∃ n s, m.pick n s = none

/-- An allocator that does not fail: the block behind those in use. -/
def Malloc.highest : Malloc where
  pick := fun _ s => some (s.sup id + 1)
  fresh := by
    intro n s a h hin
    obtain rfl := Option.some.inj h
    have hle : id (s.sup id + 1) ≤ s.sup id := Finset.le_sup hin
    exact absurd hle (Nat.not_succ_le_self _)

namespace Heap

variable {α : Type*}

def alloc (m : Malloc) (h : Heap α) : Heap α × Option ℕ :=
  match m.pick h.calls h.allocated with
  | none => ({ h with calls := h.calls + 1 }, none)
  | some a =>
    ({ h with calls := h.calls + 1, allocated := insert a h.allocated },
      some a)

def read (h : Heap α) (a : ℕ) : Except Fault α :=
  if a ∈ h.allocated then .ok (h.cell a) else .error .invalid

def write (h : Heap α) (a : ℕ) (x : α) : Except Fault (Heap α) :=
  if a ∈ h.allocated then .ok { h with cell := Function.update h.cell a x }
  else .error .invalid

def free (h : Heap α) (a : ℕ) : Except Fault (Heap α) :=
  if a ∈ h.allocated then .ok { h with allocated := h.allocated.erase a }
  else .error .invalid

variable {h h₁ h₂ : Heap α} {a : ℕ} {new new' old old' : List ℕ}

theorem read_live (ha : a ∈ h.allocated) : h.read a = .ok (h.cell a) :=
  if_pos ha

theorem write_live (ha : a ∈ h.allocated) (x : α) :
    h.write a x = .ok { h with cell := Function.update h.cell a x } :=
  if_pos ha

theorem free_live (ha : a ∈ h.allocated) :
    h.free a = .ok { h with allocated := h.allocated.erase a } :=
  if_pos ha

/-! ## Growing and shrinking -/

/-- The blocks of `new` have come into use; the others are as they were. -/
structure Grows (h h₁ : Heap α) (new : List ℕ) : Prop where
  nodup : new.Nodup
  fresh : ∀ a ∈ new, a ∉ h.allocated
  mem : ∀ a, a ∈ h₁.allocated ↔ a ∈ h.allocated ∨ a ∈ new
  same : ∀ a ∈ h.allocated, h₁.cell a = h.cell a

/-- The blocks of `old`, all of them in use, have been freed; the others are
as they were. -/
structure Shrinks (h h₁ : Heap α) (old : List ℕ) : Prop where
  nodup : old.Nodup
  live : ∀ a ∈ old, a ∈ h.allocated
  mem : ∀ a, a ∈ h₁.allocated ↔ a ∈ h.allocated ∧ a ∉ old
  same : ∀ a, a ∉ old → h₁.cell a = h.cell a

namespace Grows

theorem refl (h : Heap α) : Grows h h [] where
  nodup := nodup_nil
  fresh := by simp
  mem := by simp
  same := fun _ _ => rfl

section

variable (hg : Grows h h₁ new)
include hg

theorem live (ha : a ∈ new) : a ∈ h₁.allocated :=
  (hg.mem a).mpr (Or.inr ha)

theorem keeps (ha : a ∈ h.allocated) : a ∈ h₁.allocated :=
  (hg.mem a).mpr (Or.inl ha)

theorem trans (hg' : Grows h₁ h₂ new') : Grows h h₂ (new ++ new') where
  nodup := by
    refine List.nodup_append.mpr ⟨hg.nodup, hg'.nodup, ?_⟩
    rintro a ha _ hb rfl
    exact hg'.fresh a hb (hg.live ha)
  fresh := by
    intro a ha hold
    rcases mem_append.mp ha with ha | ha
    · exact hg.fresh a ha hold
    · exact hg'.fresh a ha (hg.keeps hold)
  mem := by
    intro a
    rw [hg'.mem, hg.mem, mem_append, or_assoc]
  same := by
    intro a ha
    rw [hg'.same a (hg.keeps ha), hg.same a ha]

theorem write (ha : a ∈ new) (x : α) :
    Grows h { h₁ with cell := Function.update h₁.cell a x } new where
  nodup := hg.nodup
  fresh := hg.fresh
  mem := hg.mem
  same := by
    intro b hb
    have hne : b ≠ a := fun heq => hg.fresh a ha (heq ▸ hb)
    exact (Function.update_of_ne hne _ _).trans (hg.same b hb)

theorem perm (hperm : new.Perm new') : Grows h h₁ new' where
  nodup := hperm.nodup_iff.mp hg.nodup
  fresh := fun a ha => hg.fresh a (hperm.mem_iff.mpr ha)
  mem := by
    intro a
    rw [hg.mem, hperm.mem_iff]
  same := hg.same

end

theorem shrink (hg : Grows h h₁ (new ++ old)) (hs : Shrinks h₁ h₂ old) : Grows h h₂ new where
  nodup := (List.nodup_append.mp hg.nodup).1
  fresh := fun a ha => hg.fresh a (mem_append_left _ ha)
  mem := by
    intro a
    rw [hs.mem, hg.mem, mem_append]
    constructor
    · rintro ⟨hold | hnew | hold, hnot⟩
      · exact Or.inl hold
      · exact Or.inr hnew
      · exact absurd hold hnot
    · rintro (hlive | hnew)
      · exact ⟨Or.inl hlive, fun hold => hg.fresh a (mem_append_right _ hold) hlive⟩
      · refine ⟨Or.inr (Or.inl hnew), fun hold => ?_⟩
        exact (List.nodup_append.mp hg.nodup).2.2 a hnew a hold rfl
  same := by
    intro a ha
    have hnot : a ∉ old :=
      fun hold => hg.fresh a (mem_append_right _ hold) ha
    rw [hs.same a hnot, hg.same a ha]

end Grows

namespace Shrinks

theorem refl (h : Heap α) : Shrinks h h [] where
  nodup := nodup_nil
  live := by simp
  mem := by simp
  same := fun _ _ => rfl

theorem trans (hs : Shrinks h h₁ old) (hs' : Shrinks h₁ h₂ old') : Shrinks h h₂ (old ++ old') where
  nodup := by
    refine List.nodup_append.mpr ⟨hs.nodup, hs'.nodup, ?_⟩
    rintro a ha _ hb rfl
    exact ((hs.mem a).mp (hs'.live a hb)).2 ha
  live := by
    intro a ha
    rcases mem_append.mp ha with ha | ha
    · exact hs.live a ha
    · exact ((hs.mem a).mp (hs'.live a ha)).1
  mem := by
    intro a
    rw [hs'.mem, hs.mem, mem_append, not_or, and_assoc]
  same := by
    intro a ha
    rw [mem_append, not_or] at ha
    rw [hs'.same a ha.2, hs.same a ha.1]

/-- What the blocks held that were freed does not count. -/
theorem congr_left (hs : Shrinks h h₁ old) (halloc : h₂.allocated = h.allocated)
    (hcell : ∀ a, a ∉ old → h₂.cell a = h.cell a) : Shrinks h₂ h₁ old where
  nodup := hs.nodup
  live := by
    rw [halloc]
    exact hs.live
  mem := by
    rw [halloc]
    exact hs.mem
  same := fun a ha => (hs.same a ha).trans (hcell a ha).symm

/-- The order in which blocks are freed does not count. -/
theorem perm (hs : Shrinks h h₁ old) (hperm : old.Perm old') : Shrinks h h₁ old' where
  nodup := hperm.nodup_iff.mp hs.nodup
  live := fun a ha => hs.live a (hperm.mem_iff.mpr ha)
  mem := by
    intro a
    rw [hs.mem, hperm.mem_iff]
  same := fun a ha => hs.same a fun hold => ha (hperm.mem_iff.mp hold)

end Shrinks

theorem free_shrinks (ha : a ∈ h.allocated) :
    Shrinks h { h with allocated := h.allocated.erase a } [a] where
  nodup := nodup_singleton a
  live := by simpa using ha
  mem := by
    intro b
    rw [Finset.mem_erase, mem_singleton, and_comm]
  same := fun _ _ => rfl

theorem alloc_cases (m : Malloc) (h : Heap α) :
    (∃ h₁, h.alloc m = (h₁, none) ∧ Grows h h₁ [] ∧ m.Fails) ∨
      ∃ h₁ a, h.alloc m = (h₁, some a) ∧ Grows h h₁ [a] := by
  rw [alloc]
  cases hpick : m.pick h.calls h.allocated with
  | none =>
    refine Or.inl ⟨_, rfl, ?_, _, _, hpick⟩
    exact ⟨nodup_nil, by simp, by simp, fun _ _ => rfl⟩
  | some a =>
    refine Or.inr ⟨_, a, rfl, nodup_singleton a, ?_, ?_, fun _ _ => rfl⟩
    · simpa using m.fresh hpick
    · intro b
      simp [Finset.mem_insert, or_comm]

/-! ## Lists of cells -/

/-- The list that starts at `p`, linked by a field of the cells. -/
abbrev Chain (h : Heap α) (link : α → Option ℕ) (p : Option ℕ) (l : List ℕ) : Prop :=
  LinkChain (fun a => link (h.cell a)) p l

theorem Chain.congr {link : α → Option ℕ} {p : Option ℕ} {l : List ℕ}
    (hc : h.Chain link p l) (hsame : ∀ a ∈ l, h₁.cell a = h.cell a) :
    h₁.Chain link p l :=
  LinkSeg.congr hc fun a ha => congrArg link (hsame a ha)

theorem Chain.length_le {link : α → Option ℕ} {p : Option ℕ} {l : List ℕ}
    (hc : h.Chain link p l) (hlive : ∀ a ∈ l, a ∈ h.allocated) :
    l.length ≤ h.allocated.card := by
  rw [← toFinset_card_of_nodup (LinkSeg.nodup hc)]
  apply Finset.card_le_card
  intro a ha
  exact hlive a (List.mem_toFinset.mp ha)

/-- `while (r) { foo = r; r = foo->link; dispose(foo); }` with at most `fuel`
turns. -/
def freeChain (link : α → Option ℕ) (dispose : Heap α → ℕ → Except Fault (Heap α)) :
    ℕ → Heap α → Option ℕ → Except Fault (Heap α)
  | _, h, none => .ok h
  | 0, _, some _ => .error .loops
  | fuel + 1, h, some foo => do
      let c ← h.read foo
      let h ← dispose h foo
      freeChain link dispose fuel h (link c)

/-- `dispose a` frees the blocks of `own` if the cells of `reads` are as in
`h`. -/
def Disposes (dispose : Heap α → ℕ → Except Fault (Heap α)) (h : Heap α)
    (a : ℕ) (reads own : List ℕ) : Prop :=
  ∀ h₁ : Heap α, (∀ b ∈ reads, h₁.cell b = h.cell b) →
    (∀ b ∈ reads, b ∈ h₁.allocated) → (∀ b ∈ own, b ∈ h₁.allocated) →
      ∃ h₂, dispose h₁ a = .ok h₂ ∧ Shrinks h₁ h₂ own

theorem Disposes.congr {dispose : Heap α → ℕ → Except Fault (Heap α)} {a : ℕ}
    {reads own : List ℕ} (hd : Disposes dispose h a reads own)
    (hsame : ∀ b ∈ reads, h₁.cell b = h.cell b) :
    Disposes dispose h₁ a reads own :=
  fun h₂ hcell => hd h₂ fun b hb => (hcell b hb).trans (hsame b hb)

theorem free_disposes (h : Heap α) (a : ℕ) : Disposes free h a [a] [a] := by
  intro h₁ _ hlive _
  have ha : a ∈ h₁.allocated := hlive a (mem_singleton_self a)
  exact ⟨_, free_live ha, free_shrinks ha⟩

variable {β : Type*} {addr : β → ℕ} {reads own : β → List ℕ}

/-- What is needed to free the things of a list one after the other: each of
them reads and owns blocks that are in use, and none owns what another reads
or owns. -/
structure Freeable (dispose : Heap α → ℕ → Except Fault (Heap α))
    (h : Heap α) (addr : β → ℕ) (reads own : β → List ℕ) (l : List β) :
    Prop where
  addr_mem : ∀ e ∈ l, addr e ∈ reads e
  live : ∀ b ∈ l.flatMap reads, b ∈ h.allocated
  owned : ∀ b ∈ l.flatMap own, b ∈ h.allocated
  nodup : (l.flatMap own).Nodup
  sep : l.Pairwise fun e e' => ∀ b ∈ reads e', b ∉ own e
  disposes : ∀ e ∈ l, Disposes dispose h (addr e) (reads e) (own e)

/-- The first thing can be freed, and then the others still can. -/
theorem Freeable.cons {dispose : Heap α → ℕ → Except Fault (Heap α)}
    {e : β} {l : List β} (hf : Freeable dispose h addr reads own (e :: l)) :
    ∃ h₁, dispose h (addr e) = .ok h₁ ∧ Shrinks h h₁ (own e) ∧
      (∀ e' ∈ l, ∀ b ∈ reads e', h₁.cell b = h.cell b) ∧
      Freeable dispose h₁ addr reads own l := by
  have hlive : ∀ e' ∈ e :: l, ∀ b ∈ reads e', b ∈ h.allocated :=
    fun e' he' b hb => hf.live b (mem_flatMap.mpr ⟨e', he', hb⟩)
  have howned := hf.owned
  have hnodup := hf.nodup
  have hsep := pairwise_cons.mp hf.sep
  rw [flatMap_cons] at howned hnodup
  obtain ⟨h₁, hrun, hs⟩ := hf.disposes e mem_cons_self h (fun _ _ => rfl) (hlive e mem_cons_self)
    fun b hb => howned b (mem_append_left _ hb)
  have hsame : ∀ e' ∈ l, ∀ b ∈ reads e', h₁.cell b = h.cell b :=
    fun e' he' b hb => hs.same b (hsep.1 e' he' b hb)
  refine ⟨h₁, hrun, hs, hsame, ?_, ?_, ?_, (List.nodup_append.mp hnodup).2.1, hsep.2, ?_⟩
  · exact fun e' he' => hf.addr_mem e' (mem_cons_of_mem _ he')
  · intro b hb
    obtain ⟨e', he', hb⟩ := mem_flatMap.mp hb
    exact (hs.mem b).mpr ⟨hlive e' (mem_cons_of_mem _ he') b hb, hsep.1 e' he' b hb⟩
  · intro b hb
    refine (hs.mem b).mpr ⟨howned b (mem_append_right _ hb), ?_⟩
    exact fun hown => (List.nodup_append.mp hnodup).2.2 b hown b hb rfl
  · intro e' he'
    exact (hf.disposes e' (mem_cons_of_mem _ he')).congr (hsame e' he')

/-- The loop frees what the things of the list own, all of it once. -/
theorem freeChain_shrinks {link : α → Option ℕ}
    {dispose : Heap α → ℕ → Except Fault (Heap α)} {fuel : ℕ} {p : Option ℕ}
    {l : List β} (hc : h.Chain link p (l.map addr)) (hfuel : l.length ≤ fuel)
    (hf : Freeable dispose h addr reads own l) :
    ∃ h₁, freeChain link dispose fuel h p = .ok h₁ ∧ Shrinks h h₁ (l.flatMap own) := by
  induction l generalizing h fuel p with
  | nil =>
    obtain rfl : p = none := hc
    refine ⟨h, ?_, Shrinks.refl h⟩
    cases fuel <;> rfl
  | cons e l ih =>
    obtain ⟨rfl, hrest⟩ := hc
    obtain ⟨fuel, rfl⟩ : ∃ n, fuel = n + 1 := by
      rw [length_cons] at hfuel
      exact ⟨fuel - 1, by omega⟩
    have ha : addr e ∈ h.allocated :=
      hf.live _ (mem_flatMap.mpr ⟨e, mem_cons_self, hf.addr_mem e mem_cons_self⟩)
    obtain ⟨h₁, hrun, hs, hsame, hf'⟩ := hf.cons
    have hrest' : h₁.Chain link (link (h.cell (addr e))) (l.map addr) := by
      refine Chain.congr hrest ?_
      intro b hb
      obtain ⟨e', he', rfl⟩ := List.mem_map.mp hb
      exact hsame e' he' _ (hf'.addr_mem e' he')
    have hfuel' : l.length ≤ fuel := by simpa using hfuel
    obtain ⟨h₂, hrun', hs'⟩ := ih hrest' hfuel' hf'
    rw [flatMap_cons]
    refine ⟨h₂, ?_, hs.trans hs'⟩
    rw [freeChain, read_live ha]
    simp only [bind, Except.bind, hrun, hrun']

end Heap

end Msicp.Support
