import Msicp.Lumps.LumpHeap

/-!
# Copies of a lump list (`dup_lump_list`, `free_duped_lump_list`)

A copy shares the texts of the lumps with the original.  When memory runs out,
what has been copied is freed on the way back, one lump with its chains at a
time.
-/

namespace Msicp.Lumps

open Msicp.Support List

/-- `enum lump_dir` -/
inductive LumpDir where
  | next
  | before
  | after
  deriving DecidableEq

namespace LumpDir

/-- The field that is followed. -/
def link : LumpDir → LumpNode → Option ℕ
  | .next => LumpNode.next
  | .before => LumpNode.before
  | .after => LumpNode.after

/-- A lump with another link. -/
def set : LumpDir → LumpNode → Option ℕ → LumpNode
  | .next, c, v => { c with next := v }
  | .before, c, v => { c with before := v }
  | .after, c, v => { c with after := v }

@[simp] theorem link_set (dir : LumpDir) (c : LumpNode) (v : Option ℕ) :
    dir.link (dir.set c v) = v := by
  cases dir <;> rfl

@[simp] theorem content_set (dir : LumpDir) (c : LumpNode) (v : Option ℕ) :
    (dir.set c v).content = c.content := by
  cases dir <;> rfl

end LumpDir

def freeShallowLump (h : LumpHeap) (l : ℕ) : Except Fault LumpHeap :=
  freeWithChains Heap.free h l

/-- The new lump after `memcpy`, with its flags and without links. -/
def LumpNode.copy (c : LumpNode) : LumpNode :=
  { c with flags := .duped, next := none, before := none, after := none }

/-- The label `deeperror` -/
def deepErrorExit (h : LumpHeap) (newLump : ℕ) : Except Fault (LumpHeap × Option ℕ × Bool) := do
  let h ← freeShallowLump h newLump
  return (h, none, true)

/-- `new_lump->link = dup_lump_list_r(..., &deep_error);
if (deep_error) goto deeperror;` for the result of the call. -/
def assignCopy (dir : LumpDir) (newLump : ℕ) (copy : LumpHeap × Option ℕ × Bool)
    (goOn : LumpHeap → Except Fault (LumpHeap × Option ℕ × Bool)) :
    Except Fault (LumpHeap × Option ℕ × Bool) := do
  let (h, p, deepError) := copy
  let c ← h.read newLump
  let h ← h.write newLump (dir.set c p)
  if deepError then deepErrorExit h newLump else goOn h

/-- The `switch (dir)` of `dup_lump_list_r`; `rec` is the recursive call. -/
def dupLinks (rec : LumpHeap → Option ℕ → LumpDir → Except Fault (LumpHeap × Option ℕ × Bool))
    (newLump : ℕ) (c : LumpNode) (dir : LumpDir) (h : LumpHeap) :
    Except Fault (LumpHeap × Option ℕ × Bool) :=
  match dir with
  | .next => do
      let before ← rec h c.before .before
      assignCopy .before newLump before fun h => do
        let after ← rec h c.after .after
        assignCopy .after newLump after fun h => do
          let next ← rec h c.next .next
          assignCopy .next newLump next fun h =>
            return (h, some newLump, false)
  | dir => do
      let copy ← rec h (dir.link c) dir
      assignCopy dir newLump copy fun h => return (h, some newLump, false)

/-- `dup_lump_list_r`, with a bound on the depth of the recursion; the flag is
what is stored in `*error`. -/
def dupLumpListR (m : Malloc) : ℕ → LumpHeap → Option ℕ → LumpDir →
      Except Fault (LumpHeap × Option ℕ × Bool)
  | _, h, none, _ => .ok (h, none, false)
  | 0, _, some _, _ => .error .loops
  | fuel + 1, h, some l, dir =>
    match h.alloc m with
    | (h, none) => .ok (h, none, true)
    | (h, some newLump) => do
        let c ← h.read l
        let h ← h.write newLump c.copy
        dupLinks (dupLumpListR m fuel) newLump c dir h

def dupLumpList (m : Malloc) (h : LumpHeap) (l : Option ℕ) :
    Except Fault (LumpHeap × Option ℕ) := do
  let (h, p, _) ← dupLumpListR m h.allocated.card h l .next
  return (h, p)

/-- What `free_duped_lump_list` does to one lump. -/
def freeDuped (h : LumpHeap) (foo : ℕ) : Except Fault LumpHeap := do
  let c ← h.read foo
  if c.flags ≠ .duped then freeWhole h foo else h.free foo

def freeDupedLumpList (h : LumpHeap) (l : Option ℕ) : Except Fault LumpHeap :=
  Heap.freeChain LumpNode.next (freeWithChains freeDuped) h.allocated.card h l

/-! ## The copy -/

/-- The copy of a list, as a value. -/
def LumpView.copy (v : LumpView) : LumpView where
  lump := v.lump.copy
  before := v.before.map LumpNode.copy
  after := v.after.map LumpNode.copy

section

variable {m : Malloc} {h h₁ h₂ : LumpHeap} {p r : Option ℕ} {l : List ℕ}
  {new : List ℕ} {n : ℕ}

theorem grows_write (hg : h.Grows h₁ new) (hn : n ∈ new) (c : LumpNode) :
    ∃ h₂, h₁.write n c = .ok h₂ ∧ h.Grows h₂ new ∧ h₂.cell n = c ∧
      (∀ a, a ≠ n → h₂.cell a = h₁.cell a) ∧
      ∀ a, a ∈ h₂.allocated ↔ a ∈ h₁.allocated := by
  refine ⟨_, Heap.write_live (hg.live hn) c, hg.write hn c, ?_, ?_, fun _ => Iff.rfl⟩
  · exact Function.update_self n c h₁.cell
  · exact fun a ha => Function.update_of_ne ha c h₁.cell

theorem deepErrorExit_grows {e : LumpEntry} (hc : HoldsChains h₁ e) (hg : h.Grows h₁ e.nodes) :
    ∃ h₂, deepErrorExit h₁ e.addr = .ok (h₂, none, true) ∧ h.Grows h₂ [] := by
  have hs : Separate Heap.free h₁ (fun a => [a]) e.nodes := by
    refine ⟨hg.nodup, fun a ha => hg.live ha, ?_, ?_, ?_, fun a _ => Heap.free_disposes h₁ a⟩
    · rw [flatMap_singleton']
      exact fun a ha => hg.live ha
    · rw [flatMap_singleton']
      exact hg.nodup
    · intro a _ b _ hne hb
      exact hne (mem_singleton.mp hb).symm
  obtain ⟨h₂, hrun, hfreed⟩ := freeWithChains_shrinks hc hs
  rw [flatMap_singleton'] at hfreed
  refine ⟨h₂, ?_, @Heap.Grows.shrink _ _ _ _ [] _ hg hfreed⟩
  simp only [deepErrorExit, freeShallowLump, hrun, bind, Except.bind, pure, Except.pure]

/-- The outcome of copying a chain: either a copy in new blocks, or nothing
because memory has run out. -/
def CopiesChain (m : Malloc) (h : LumpHeap) (dir : LumpDir) (l : List ℕ)
    (h₁ : LumpHeap) (r : Option ℕ) (err : Bool) : Prop :=
  (err = true ∧ r = none ∧ h.Grows h₁ [] ∧ m.Fails) ∨
    (err = false ∧ ∃ new, h.Grows h₁ new ∧ h₁.Chain dir.link r new ∧
      (new.map fun a => (h₁.cell a).content) = l.map fun a => (h.cell a).copy)

theorem assignCopy_write (hg : h.Grows h₁ new) (hn : n ∈ new) (dir : LumpDir) (r : Option ℕ) :
    ∃ h₂, (∀ err goOn, assignCopy dir n (h₁, r, err) goOn =
        if err then deepErrorExit h₂ n else goOn h₂) ∧
      h.Grows h₂ new ∧ h₂.cell n = dir.set (h₁.cell n) r ∧
      (∀ a, a ≠ n → h₂.cell a = h₁.cell a) := by
  obtain ⟨h₂, hrun, hg₂, hcell, hsame, -⟩ :=
    grows_write hg hn (dir.set (h₁.cell n) r)
  refine ⟨h₂, ?_, hg₂, hcell, hsame⟩
  intro err goOn
  simp only [assignCopy, Heap.read_live (hg.live hn), hrun, bind, Except.bind]

theorem dupLumpListR_some {a : ℕ} (ha : a ∈ h.allocated) (fuel : ℕ) (dir : LumpDir) :
    (∃ h₁, dupLumpListR m (fuel + 1) h (some a) dir = .ok (h₁, none, true) ∧
        h.Grows h₁ [] ∧ m.Fails) ∨
      ∃ h₁ n, dupLumpListR m (fuel + 1) h (some a) dir =
          dupLinks (dupLumpListR m fuel) n (h.cell a) dir h₁ ∧
        h.Grows h₁ [n] ∧ h₁.cell n = (h.cell a).copy := by
  rcases Heap.alloc_cases m h with ⟨h₁, halloc, hg, hfails⟩ |
    ⟨h₁, n, halloc, hg⟩
  · refine Or.inl ⟨h₁, ?_, hg, hfails⟩
    simp only [dupLumpListR, halloc]
  · obtain ⟨h₂, hrun, hg₂, hcell, -, -⟩ :=
      grows_write hg (mem_singleton_self n) (h.cell a).copy
    refine Or.inr ⟨h₂, n, ?_, hg₂, hcell⟩
    simp only [dupLumpListR, halloc, Heap.read_live (hg.keeps ha),
      hg.same a ha, hrun, bind, Except.bind]

theorem dupLinks_chain {rec : LumpHeap → Option ℕ → LumpDir →
    Except Fault (LumpHeap × Option ℕ × Bool)} {dir : LumpDir}
    (hdir : dir ≠ .next) (c : LumpNode) (h : LumpHeap) :
    dupLinks rec n c dir h = (rec h (dir.link c) dir).bind fun copy =>
      assignCopy dir n copy fun h => .ok (h, some n, false) := by
  cases dir with
  | next => exact absurd rfl hdir
  | before => rfl
  | after => rfl

/-- A chain is copied, or what has been copied is freed. -/
theorem dupLumpListR_chain {fuel : ℕ} {dir : LumpDir} (hdir : dir ≠ .next)
    (hc : h.Chain dir.link p l) (hlive : ∀ a ∈ l, a ∈ h.allocated)
    (hfuel : l.length ≤ fuel) :
    ∃ h₁ r err, dupLumpListR m fuel h p dir = .ok (h₁, r, err) ∧
      CopiesChain m h dir l h₁ r err := by
  induction l generalizing h fuel p with
  | nil =>
    obtain rfl : p = none := hc
    refine ⟨h, none, false, ?_, Or.inr ⟨rfl, [], .refl h, rfl, rfl⟩⟩
    cases fuel <;> rfl
  | cons a l ih =>
    obtain ⟨rfl, hrest⟩ := hc
    obtain ⟨fuel, rfl⟩ : ∃ n, fuel = n + 1 := by
      rw [length_cons] at hfuel
      exact ⟨fuel - 1, by omega⟩
    have hlive' : ∀ b ∈ l, b ∈ h.allocated :=
      fun b hb => hlive b (mem_cons_of_mem _ hb)
    rcases @dupLumpListR_some m h a (hlive a mem_cons_self) fuel dir with
      ⟨h₁, hrun, hg, hfails⟩ | ⟨h₁, n, hrun, hg, hcell⟩
    · exact ⟨h₁, none, true, hrun, Or.inl ⟨rfl, rfl, hg, hfails⟩⟩
    -- the rest of the chain is copied while the new lump has no link
    have hrest₁ : h₁.Chain dir.link (dir.link (h.cell a)) l :=
      Heap.Chain.congr hrest fun b hb => hg.same b (hlive' b hb)
    obtain ⟨h₂, r, err, hrun₂, hcopy⟩ := ih hrest₁
      (fun b hb => hg.keeps (hlive' b hb)) (by simpa using hfuel)
    have hsame₂ : h₂.cell n = h₁.cell n := by
      rcases hcopy with ⟨-, -, hg₂, -⟩ | ⟨-, new, hg₂, -⟩ <;>
        exact hg₂.same n (hg.live (mem_singleton_self n))
    rw [hrun, dupLinks_chain hdir, hrun₂]
    rcases hcopy with ⟨rfl, rfl, hg₂, hfails⟩ | ⟨rfl, new, hg₂, hchain, hview⟩
    · obtain ⟨h₃, hassign, hg₃, hcell₃, -⟩ :=
        assignCopy_write (hg.trans hg₂) mem_cons_self dir none
      have hcopied : h₃.cell n = (h.cell a).copy := by
        rw [hcell₃, hsame₂, hcell]
        cases dir <;> rfl
      have hchains : HoldsChains h₃ ⟨n, [], []⟩ := by
        constructor <;> exact congrArg _ hcopied
      obtain ⟨h₄, hrun₄, hg₄⟩ := deepErrorExit_grows hchains hg₃
      refine ⟨h₄, none, true, ?_, Or.inl ⟨rfl, rfl, hg₄, hfails⟩⟩
      exact (hassign true _).trans hrun₄
    · obtain ⟨h₃, hassign, hg₃, hcell₃, hsame₃⟩ :=
        assignCopy_write (hg.trans hg₂) mem_cons_self dir r
      have hsame : ∀ b ∈ new, h₃.cell b = h₂.cell b := by
        intro b hb
        refine hsame₃ b fun heq => hg₂.fresh b hb ?_
        exact heq ▸ hg.live (mem_singleton_self n)
      refine ⟨h₃, some n, false, hassign false _, Or.inr ⟨rfl, n :: new, hg₃, ⟨rfl, ?_⟩, ?_⟩⟩
      · have hlink : dir.link (h₃.cell n) = r := by
          rw [hcell₃, LumpDir.link_set]
        have hrest₃ : h₃.Chain dir.link (dir.link (h₃.cell n)) new := by
          rw [hlink]
          exact hchain.congr hsame
        exact hrest₃
      · have hview₁ : (l.map fun b => (h₁.cell b).copy) = l.map fun b => (h.cell b).copy :=
          map_congr_left fun b hb => by rw [hg.same b (hlive' b hb)]
        have hview₃ : (new.map fun b => (h₃.cell b).content) =
            new.map fun b => (h₂.cell b).content :=
          map_congr_left fun b hb => by rw [hsame b hb]
        rw [map_cons, map_cons, hview₃, hview, hview₁, hcell₃, LumpDir.content_set, hsame₂, hcell]
        rfl

/-! ## The copy of a list -/

/-- A new lump under construction, with the chains that it has so far; the
link `next` is stored last. -/
structure Building (h h₁ : LumpHeap) (v : LumpView) (e : LumpEntry) :
    Prop where
  grows : h.Grows h₁ e.nodes
  chains : HoldsChains h₁ e
  view : viewEntry h₁ e = v.copy
  next : (h₁.cell e.addr).next = none

theorem LumpDir.set_none {dir : LumpDir} {c : LumpNode}
    (h : dir.link c = none) : dir.set c none = c := by
  cases dir <;> exact congrArg (fun v => set _ c v) h.symm

/-- When a call fails, the lump under construction is freed. -/
theorem Building.fails {v : LumpView} {e : LumpEntry}
    (hb : Building h h₁ v e) (hg : h₁.Grows h₂ []) {dir : LumpDir}
    (hnone : dir.link (h₁.cell e.addr) = none) :
    ∃ h₃, (∀ goOn, assignCopy dir e.addr (h₂, none, true) goOn =
        .ok (h₃, none, true)) ∧ h.Grows h₃ [] := by
  have hgrows := hb.grows.trans hg
  rw [append_nil] at hgrows
  obtain ⟨h₃, hassign, hg₃, hcell, hsame⟩ :=
    assignCopy_write hgrows e.addr_mem dir none
  have hcells : ∀ a ∈ e.nodes, h₃.cell a = h₁.cell a := by
    intro a ha
    have hold := hg.same a (hb.grows.live ha)
    by_cases hne : a = e.addr
    · subst hne
      rw [hcell, hold, LumpDir.set_none hnone]
    · rw [hsame a hne, hold]
  obtain ⟨h₄, hrun, hg₄⟩ := deepErrorExit_grows (hb.chains.congr hcells) hg₃
  exact ⟨h₄, fun goOn => (hassign true goOn).trans hrun, hg₄⟩

/-- When a call succeeds, its result is stored; neither the chains that are
there nor what has been copied change. -/
theorem Building.stores {v : LumpView} {e : LumpEntry}
    (hb : Building h h₁ v e) (hg : h₁.Grows h₂ new) (dir : LumpDir)
    (r : Option ℕ) :
    ∃ h₃, (∀ goOn, assignCopy dir e.addr (h₂, r, false) goOn = goOn h₃) ∧
      h.Grows h₃ (e.nodes ++ new) ∧
      h₃.cell e.addr = dir.set (h₁.cell e.addr) r ∧
      (∀ a ∈ e.before ++ e.after, h₃.cell a = h₁.cell a) ∧
      ∀ a ∈ new, h₃.cell a = h₂.cell a := by
  have hgrows := hb.grows.trans hg
  obtain ⟨h₃, hassign, hg₃, hcell, hsame⟩ :=
    assignCopy_write hgrows (mem_append_left _ e.addr_mem) dir r
  have hold := hg.same e.addr (hb.grows.live e.addr_mem)
  refine ⟨h₃, hassign false, hg₃, hold ▸ hcell, ?_, ?_⟩
  · intro a ha
    have hne : a ≠ e.addr := fun heq =>
      (nodup_cons.mp hb.grows.nodup).1 (heq ▸ ha)
    rw [hsame a hne, hg.same a (hb.grows.live (mem_cons_of_mem _ ha))]
  · intro a ha
    refine hsame a fun heq => hg.fresh a ha ?_
    exact heq ▸ hb.grows.live e.addr_mem

theorem Building.before {c : LumpNode} {cs : List LumpNode}
    (hb : Building h h₁ ⟨c, [], []⟩ ⟨n, [], []⟩) (hg : h₁.Grows h₂ new)
    (hchain : h₂.Chain LumpNode.before r new)
    (hview : (new.map fun a => (h₂.cell a).content) = cs.map LumpNode.copy) :
    ∃ h₃, (∀ goOn, assignCopy .before n (h₂, r, false) goOn = goOn h₃) ∧
      Building h h₃ ⟨c, cs, []⟩ ⟨n, new, []⟩ := by
  obtain ⟨h₃, hassign, hg₃, hcell, -, hnew⟩ := hb.stores hg .before r
  have hafter : (h₁.cell n).after = none := hb.chains.after
  have hlump : (h₁.cell n).content = c.copy := congrArg LumpView.lump hb.view
  refine ⟨h₃, hassign, ?_, ⟨?_, ?_⟩, ?_, ?_⟩
  · simpa [LumpEntry.nodes] using hg₃
  · have hlink : (h₃.cell n).before = r := congrArg LumpNode.before hcell
    rw [hlink]
    exact hchain.congr hnew
  · exact (congrArg LumpNode.after hcell).trans hafter
  · rw [← map_congr_left fun a ha => congrArg _ (hnew a ha)] at hview
    simp only [viewEntry, LumpView.copy, hview, hcell, LumpDir.content_set, hlump, map_nil]
  · exact (congrArg LumpNode.next hcell).trans hb.next

theorem Building.after {c : LumpNode} {cs ds : List LumpNode} {b : List ℕ}
    (hb : Building h h₁ ⟨c, cs, []⟩ ⟨n, b, []⟩) (hg : h₁.Grows h₂ new)
    (hchain : h₂.Chain LumpNode.after r new)
    (hview : (new.map fun a => (h₂.cell a).content) = ds.map LumpNode.copy) :
    ∃ h₃, (∀ goOn, assignCopy .after n (h₂, r, false) goOn = goOn h₃) ∧
      Building h h₃ ⟨c, cs, ds⟩ ⟨n, b, new⟩ := by
  obtain ⟨h₃, hassign, hg₃, hcell, hold, hnew⟩ := hb.stores hg .after r
  rw [append_nil] at hold
  have hlump : (h₁.cell n).content = c.copy := congrArg LumpView.lump hb.view
  have hbefore : (b.map fun a => (h₁.cell a).content) =
      cs.map LumpNode.copy := congrArg LumpView.before hb.view
  refine ⟨h₃, hassign, ?_, ⟨?_, ?_⟩, ?_, ?_⟩
  · simpa [LumpEntry.nodes] using hg₃
  · have hlink : (h₃.cell n).before = (h₁.cell n).before := by
      rw [hcell]
      rfl
    rw [hlink]
    exact hb.chains.before.congr hold
  · have hlink : (h₃.cell n).after = r := congrArg LumpNode.after hcell
    rw [hlink]
    exact hchain.congr hnew
  · rw [← map_congr_left fun a ha => congrArg _ (hnew a ha)] at hview
    rw [← map_congr_left fun a ha => congrArg _ (hold a ha)] at hbefore
    simp only [viewEntry, LumpView.copy, hview, hbefore, hcell, LumpDir.content_set, hlump]
  · exact (congrArg LumpNode.next hcell).trans hb.next

theorem Building.dupChain {v : LumpView} {e : LumpEntry} {fuel : ℕ}
    (hb : Building h h₁ v e) {dir : LumpDir} (hdir : dir ≠ .next)
    (hc : h.Chain dir.link p l) (hlive : ∀ a ∈ l, a ∈ h.allocated)
    (hfuel : l.length ≤ fuel) :
    ∃ h₂ r err, dupLumpListR m fuel h₁ p dir = .ok (h₂, r, err) ∧
      ((err = true ∧ r = none ∧ h₁.Grows h₂ [] ∧ m.Fails) ∨
        (err = false ∧ ∃ new, h₁.Grows h₂ new ∧ h₂.Chain dir.link r new ∧
          (new.map fun a => (h₂.cell a).content) =
            (l.map fun a => (h.cell a).content).map LumpNode.copy)) := by
  have hsame : ∀ a ∈ l, h₁.cell a = h.cell a :=
    fun a ha => hb.grows.same a (hlive a ha)
  have hview : (l.map fun a => (h₁.cell a).copy) =
      (l.map fun a => (h.cell a).content).map LumpNode.copy := by
    rw [List.map_map]
    refine map_congr_left fun a ha => ?_
    rw [hsame a ha]
    rfl
  have hcopy := @dupLumpListR_chain m h₁ p l fuel dir hdir (hc.congr hsame)
    (fun a ha => hb.grows.keeps (hlive a ha)) hfuel
  rw [← hview]
  exact hcopy

theorem Building.dupBefore {c : LumpNode} {fuel : ℕ} (hb : Building h h₁ ⟨c, [], []⟩ ⟨n, [], []⟩)
    (hc : h.Chain LumpNode.before p l) (hlive : ∀ a ∈ l, a ∈ h.allocated)
    (hfuel : l.length ≤ fuel) :
    ∃ copy, dupLumpListR m fuel h₁ p .before = .ok copy ∧
      ((m.Fails ∧ ∃ h₂, h.Grows h₂ [] ∧
          ∀ goOn, assignCopy .before n copy goOn = .ok (h₂, none, true)) ∨
        ∃ h₂ new, Building h h₂ ⟨c, l.map fun a => (h.cell a).content, []⟩ ⟨n, new, []⟩ ∧
          ∀ goOn, assignCopy .before n copy goOn = goOn h₂) := by
  obtain ⟨h₂, r, err, hrun, hcopy⟩ :=
    @Building.dupChain m h h₁ p l _ _ fuel hb .before (by decide) hc hlive hfuel
  refine ⟨_, hrun, ?_⟩
  rcases hcopy with ⟨rfl, rfl, hg, hfails⟩ | ⟨rfl, new, hg, hchain, hview⟩
  · obtain ⟨h₃, hassign, hg₃⟩ := @Building.fails _ _ _ _ _ hb hg .before hb.chains.before
    exact Or.inl ⟨hfails, h₃, hg₃, hassign⟩
  · obtain ⟨h₃, hassign, hb₃⟩ := hb.before hg hchain hview
    exact Or.inr ⟨h₃, new, hb₃, hassign⟩

theorem Building.dupAfter {c : LumpNode} {cs : List LumpNode} {b : List ℕ}
    {fuel : ℕ} (hb : Building h h₁ ⟨c, cs, []⟩ ⟨n, b, []⟩)
    (hc : h.Chain LumpNode.after p l) (hlive : ∀ a ∈ l, a ∈ h.allocated)
    (hfuel : l.length ≤ fuel) :
    ∃ copy, dupLumpListR m fuel h₁ p .after = .ok copy ∧
      ((m.Fails ∧ ∃ h₂, h.Grows h₂ [] ∧
          ∀ goOn, assignCopy .after n copy goOn = .ok (h₂, none, true)) ∨
        ∃ h₂ new, Building h h₂ ⟨c, cs, l.map fun a => (h.cell a).content⟩ ⟨n, b, new⟩ ∧
          ∀ goOn, assignCopy .after n copy goOn = goOn h₂) := by
  obtain ⟨h₂, r, err, hrun, hcopy⟩ :=
    @Building.dupChain m h h₁ p l _ _ fuel hb .after (by decide) hc hlive hfuel
  refine ⟨_, hrun, ?_⟩
  rcases hcopy with ⟨rfl, rfl, hg, hfails⟩ | ⟨rfl, new, hg, hchain, hview⟩
  · obtain ⟨h₃, hassign, hg₃⟩ := @Building.fails _ _ _ _ _ hb hg .after hb.chains.after
    exact Or.inl ⟨hfails, h₃, hg₃, hassign⟩
  · obtain ⟨h₃, hassign, hb₃⟩ := hb.after hg hchain hview
    exact Or.inr ⟨h₃, new, hb₃, hassign⟩

/-- The outcome of copying a list: a copy in new blocks, or nothing because
memory has run out. -/
def CopiesList (m : Malloc) (h : LumpHeap) (l : List LumpEntry)
    (h₁ : LumpHeap) (r : Option ℕ) (err : Bool) : Prop :=
  (err = true ∧ r = none ∧ h.Grows h₁ [] ∧ m.Fails) ∨
    (err = false ∧ ∃ l', h.Grows h₁ (nodesOf l') ∧ HoldsLumps h₁ r l' ∧
      view h₁ l' = (view h l).map LumpView.copy)

/-- A list is copied, or what has been copied is freed. -/
theorem dupLumpListR_list {fuel : ℕ} {l : List LumpEntry}
    (hl : HoldsLumps h p l) (hfuel : (nodesOf l).length ≤ fuel) :
    ∃ h₁ r err, dupLumpListR m fuel h p .next = .ok (h₁, r, err) ∧
      CopiesList m h l h₁ r err := by
  induction l generalizing h fuel p with
  | nil =>
    obtain rfl : p = none := hl.next
    refine ⟨h, none, false, ?_, Or.inr ⟨rfl, [], .refl h, holdsLumps_nil h, rfl⟩⟩
    cases fuel <;> rfl
  | cons e l ih =>
    obtain ⟨rfl, hchains, hrest, hlive, -⟩ := holdsLumps_cons.mp hl
    obtain ⟨fuel, rfl⟩ : ∃ n, fuel = n + 1 := by
      rw [nodesOf_cons, List.length_append, LumpEntry.nodes, length_cons] at hfuel
      exact ⟨fuel - 1, by omega⟩
    have hlen : e.before.length ≤ fuel ∧ e.after.length ≤ fuel ∧ (nodesOf l).length ≤ fuel := by
      simp only [nodesOf_cons, LumpEntry.nodes, List.length_append, length_cons] at hfuel
      omega
    have haddr := hlive e.addr e.addr_mem
    rcases @dupLumpListR_some m h e.addr haddr fuel .next with
      ⟨h₁, hrun, hg, hfails⟩ | ⟨h₁, n, hrun, hg, hcell⟩
    · exact ⟨h₁, none, true, hrun, Or.inl ⟨rfl, rfl, hg, hfails⟩⟩
    have hb : Building h h₁ ⟨(h.cell e.addr).content, [], []⟩ ⟨n, [], []⟩ := by
      refine ⟨hg, ⟨?_, ?_⟩, ?_, ?_⟩
      · exact congrArg LumpNode.before hcell
      · exact congrArg LumpNode.after hcell
      · simp only [viewEntry, LumpView.copy, hcell, map_nil]
        rfl
      · exact congrArg LumpNode.next hcell
    rw [hrun]
    simp only [dupLinks, bind]
    obtain ⟨copy, hcopy, hbefore⟩ := @Building.dupBefore m h h₁ _ _ n _ fuel hb
      hchains.before (fun a ha => hlive a (LumpEntry.before_mem ha)) hlen.1
    rw [hcopy, Except.bind]
    rcases hbefore with ⟨hfails, h₂, hg₂, hassign⟩ | ⟨h₂, b, hb₂, hassign⟩
    · exact ⟨h₂, none, true, hassign _, Or.inl ⟨rfl, rfl, hg₂, hfails⟩⟩
    rw [hassign]
    obtain ⟨copy', hcopy', hafter⟩ := @Building.dupAfter m h h₂ _ _ n _ _ b fuel
      hb₂ hchains.after (fun a ha => hlive a (LumpEntry.after_mem ha)) hlen.2.1
    rw [hcopy', Except.bind]
    rcases hafter with ⟨hfails, h₃, hg₃, hassign'⟩ | ⟨h₃, d, hb₃, hassign'⟩
    · exact ⟨h₃, none, true, hassign' _, Or.inl ⟨rfl, rfl, hg₃, hfails⟩⟩
    rw [hassign']
    obtain ⟨h₄, r, err, hcopy'', hnext⟩ :=
      ih (hrest.grows hb₃.grows) hlen.2.2
    rw [hcopy'', Except.bind]
    rcases hnext with ⟨rfl, rfl, hg₄, hfails⟩ | ⟨rfl, l', hg₄, hl', hview⟩
    · obtain ⟨h₅, hassign'', hg₅⟩ := @Building.fails _ _ _ _ _ hb₃ hg₄ .next hb₃.next
      exact ⟨h₅, none, true, hassign'' _, Or.inl ⟨rfl, rfl, hg₅, hfails⟩⟩
    obtain ⟨h₅, hassign'', hg₅, hcell₅, hold, hnew⟩ := hb₃.stores hg₄ .next r
    refine ⟨h₅, some n, false, hassign'' _, Or.inr ⟨rfl, ⟨n, b, d⟩ :: l', hg₅, ?_, ?_⟩⟩
    · have hnodup := List.nodup_append.mp hg₅.nodup
      have hbefore : (h₅.cell n).before = (h₃.cell n).before := by
        rw [hcell₅]
        rfl
      have hafter : (h₅.cell n).after = (h₃.cell n).after := by
        rw [hcell₅]
        rfl
      have hnext : (h₅.cell n).next = r := by
        rw [hcell₅]
        rfl
      refine holdsLumps_cons.mpr ⟨rfl, ⟨?_, ?_⟩, ?_, ?_, hnodup.1, ?_⟩
      · rw [hbefore]
        exact hb₃.chains.before.congr fun a ha =>
          hold a (mem_append_left _ ha)
      · rw [hafter]
        exact hb₃.chains.after.congr fun a ha =>
          hold a (mem_append_right _ ha)
      · rw [hnext]
        exact hl'.congr hnew fun a ha => hg₅.live (mem_append_right _ ha)
      · exact fun a ha => hg₅.live (mem_append_left _ ha)
      · exact fun a ha hin => hnodup.2.2 a ha a hin rfl
    · have hcontents : ∀ a ∈ LumpEntry.nodes ⟨n, b, d⟩,
          (h₅.cell a).content = (h₃.cell a).content := by
        intro a ha
        rcases mem_cons.mp ha with rfl | ha
        · rw [hcell₅, LumpDir.content_set]
        · rw [hold a ha]
      have hrest₅ : view h₅ l' = view h₄ l' :=
        view_congr fun a ha => congrArg _ (hnew a ha)
      have hrest₃ : view h₃ l = view h l :=
        view_congr fun a ha => congrArg _ (hb₃.grows.same a (hrest.live a ha))
      have hhead : viewEntry h₅ ⟨n, b, d⟩ = (viewEntry h e).copy :=
        (viewEntry_congr hcontents).trans hb₃.view
      rw [view, view, map_cons, map_cons, map_cons, hhead, ← view, ← view, hrest₅, hview, hrest₃]

theorem dupLumpList_copies {l : List LumpEntry} (m : Malloc) (hl : HoldsLumps h p l) :
    ∃ h₁ r, dupLumpList m h p = .ok (h₁, r) ∧ ((r = none ∧ h.Grows h₁ [] ∧ m.Fails) ∨
        ∃ l', h.Grows h₁ (nodesOf l') ∧ HoldsLumps h₁ r l' ∧
          view h₁ l' = (view h l).map LumpView.copy) := by
  obtain ⟨h₁, r, err, hrun, hcopy⟩ :=
    @dupLumpListR_list m h p _ l hl hl.length_le
  refine ⟨h₁, r, ?_, ?_⟩
  · simp only [dupLumpList, hrun, bind, Except.bind, pure, Except.pure]
  · rcases hcopy with ⟨-, hcopy⟩ | ⟨-, hcopy⟩
    · exact Or.inl hcopy
    · exact Or.inr hcopy

/-! ## Freeing the copy -/

/-- What goes with a lump: of a copy nothing but its own memory, of a lump that
was added later the text as well. -/
def dupedOwn (h : LumpHeap) (a : ℕ) : List ℕ :=
  if (h.cell a).flags = .duped then [a] else a :: (h.cell a).payload

/-- A list of copies to which lumps were added: what was added is flagged in
no way and has texts that nothing else points to. -/
structure Added (h : LumpHeap) (nodes : List ℕ) : Prop where
  flags : ∀ a ∈ nodes, (h.cell a).flags = .duped ∨ (h.cell a).flags = .none
  texts : (nodes.flatMap (dupedOwn h)).Nodup
  live : ∀ b ∈ nodes.flatMap (dupedOwn h), b ∈ h.allocated

theorem mem_dupedOwn (h : LumpHeap) (a : ℕ) : a ∈ dupedOwn h a := by
  rw [dupedOwn]
  split
  · exact mem_singleton_self a
  · exact mem_cons_self

theorem freeDuped_disposes {a : ℕ} (hflags : (h.cell a).flags = .duped ∨ (h.cell a).flags = .none)
    (hnodup : (dupedOwn h a).Nodup) :
    Heap.Disposes freeDuped h a [a] (dupedOwn h a) := by
  intro h₁ hcell hlive howned
  have ha := hlive a (mem_singleton_self a)
  have hsame := hcell a (mem_singleton_self a)
  rw [freeDuped, Heap.read_live ha, hsame]
  by_cases hduped : (h.cell a).flags = .duped
  · rw [dupedOwn, if_pos hduped]
    refine ⟨_, ?_, Heap.free_shrinks ha⟩
    simp only [hduped, bind, Except.bind, ne_eq, not_true_eq_false, if_false]
    exact Heap.free_live ha
  · rw [dupedOwn, if_neg hduped] at hnodup howned ⊢
    have hw : Whole h a := by
      refine ⟨Or.inl (hflags.resolve_left hduped), ?_⟩
      rintro b hb rfl
      exact (nodup_cons.mp hnodup).1 hb
    simp only [hduped, bind, Except.bind, ne_eq, not_false_eq_true, if_true]
    exact hw.disposes h₁ hcell hlive howned

theorem freeDupedLumpList_shrinks {l : List LumpEntry}
    (hl : HoldsLumps h p l) (hadded : Added h (nodesOf l)) :
    ∃ h₁, freeDupedLumpList h p = .ok h₁ ∧ h.Shrinks h₁ ((nodesOf l).flatMap (dupedOwn h)) := by
  have hparts := nodup_flatMap.mp hadded.texts
  refine hl.free_shrinks ⟨hl.nodup, hl.live, hadded.live, hadded.texts, ?_, ?_⟩
  · exact not_mem_own hadded.texts fun a _ => mem_dupedOwn h a
  · exact fun a ha => freeDuped_disposes (hadded.flags a ha) (hparts.1 a ha)

/-- `dup_lump_list` copies a list or leaves nothing behind, and
`free_duped_lump_list` takes from the copies no more than their own memory. -/
theorem dup_and_free (m : Malloc) {l : List LumpEntry} (hl : HoldsLumps h p l) :
    (∃ h₁ r, dupLumpList m h p = .ok (h₁, r) ∧ HoldsLumps h₁ p l ∧ view h₁ l = view h l ∧
      ((r = none ∧ h.Grows h₁ [] ∧ m.Fails) ∨ ∃ l', h.Grows h₁ (nodesOf l') ∧ HoldsLumps h₁ r l' ∧
          view h₁ l' = (view h l).map LumpView.copy)) ∧
    (Added h (nodesOf l) → ∃ h₁, freeDupedLumpList h p = .ok h₁ ∧
        h.Shrinks h₁ ((nodesOf l).flatMap (dupedOwn h))) := by
  refine ⟨?_, freeDupedLumpList_shrinks hl⟩
  obtain ⟨h₁, r, hrun, hcopy⟩ := dupLumpList_copies m hl
  obtain ⟨new, hg⟩ : ∃ new, h.Grows h₁ new := by
    rcases hcopy with ⟨-, hg, -⟩ | ⟨l', hg, -⟩
    · exact ⟨_, hg⟩
    · exact ⟨_, hg⟩
  refine ⟨h₁, r, hrun, hl.grows hg, ?_, hcopy⟩
  exact view_congr fun a ha => congrArg _ (hg.same a (hl.live a ha))

end

/-- A copied deletion at the block 1, in front of which a header in the block
2 was added later; its text is the block 9. -/
def mixedHeap : LumpHeap where
  calls := 0
  allocated := {1, 2, 9}
  cell := fun a =>
    if a = 1 then ⟨0, .del, .offset 40, 12, some 2, none, none, .duped⟩
    else ⟨0, .add, .value (some 9), 5, none, none, none, .none⟩

theorem holds_mixedHeap : HoldsLumps mixedHeap (some 1) [⟨1, [2], []⟩] where
  next := ⟨rfl, rfl⟩
  chains := by
    intro e he
    obtain rfl := mem_singleton.mp he
    exact ⟨⟨rfl, rfl⟩, rfl⟩
  live := by decide
  nodup := by decide

theorem added_mixedHeap : Added mixedHeap (nodesOf [⟨1, [2], []⟩]) where
  flags := by decide
  texts := by decide
  live := by decide

theorem dup_and_free_mixed : (∃ h₁ r, dupLumpList .highest mixedHeap (some 1) = .ok (h₁, r) ∧
      HoldsLumps h₁ (some 1) [⟨1, [2], []⟩]) ∧
    ∃ h₁, freeDupedLumpList mixedHeap (some 1) = .ok h₁ ∧ mixedHeap.Shrinks h₁ [1, 2, 9] := by
  obtain ⟨⟨h₁, r, hrun, hl, -⟩, hfree⟩ := dup_and_free .highest holds_mixedHeap
  exact ⟨⟨h₁, r, hrun, hl⟩, hfree added_mixedHeap⟩

/-- The added header goes as well, with its text. -/
theorem freeDuped_frees_added :
    ¬ ∀ (h : LumpHeap) (p : Option ℕ) (l : List LumpEntry) (h₁ : LumpHeap),
      HoldsLumps h p l → Added h (nodesOf l) →
      freeDupedLumpList h p = .ok h₁ →
      ∀ a ∈ h.allocated, a ∈ h₁.allocated ∨ (a ∈ nodesOf l ∧ (h.cell a).flags = .duped) := by
  intro hall
  obtain ⟨h₁, hrun, hs⟩ := freeDupedLumpList_shrinks holds_mixedHeap added_mixedHeap
  rcases hall _ _ _ h₁ holds_mixedHeap added_mixedHeap hrun 2 (by decide) with
    hkept | ⟨-, hflags⟩
  · exact ((hs.mem 2).mp hkept).2 (by decide)
  · exact absurd hflags (by decide)

end Msicp.Lumps
