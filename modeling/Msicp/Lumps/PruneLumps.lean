import Msicp.Lumps.LumpHeap

/-!
# Taking lumps out of a list

The loops of `del_nonshm_lump` and `free_via_clen_lump` walk a list with the
slot that led to the current lump.  A lump is either unlinked through the slot
and freed, or it stays and the slot becomes its own link.
-/

namespace Msicp.Lumps

open Msicp.Support List

/-- `*prev = v` for a slot of the list, the head or the link of a lump. -/
def setNext (h : LumpHeap) (head slot v : Option ℕ) : Except Fault (LumpHeap × Option ℕ) :=
  match slot with
  | none => .ok (h, v)
  | some q => do
      let c ← h.read q
      let h ← h.write q { c with next := v }
      return (h, head)

/-- The loop over the list, with at most `fuel` turns: `remove` unlinks and
frees the current lump, `visit` is what is done to a lump that stays. -/
def pruneList (removes : LumpNode → Bool) (remove : LumpHeap → Option ℕ → Option ℕ → ℕ →
      Except Fault (LumpHeap × Option ℕ))
    (visit : LumpHeap → ℕ → Except Fault LumpHeap) :
    ℕ → LumpHeap → Option ℕ → Option ℕ → Option ℕ → Except Fault (LumpHeap × Option ℕ)
  | _, h, head, _, none => .ok (h, head)
  | 0, _, _, _, some _ => .error .loops
  | fuel + 1, h, head, prev, some crt => do
      let c ← h.read crt
      if removes c then
        let (h, head) ← remove h head prev crt
        pruneList removes remove visit fuel h head prev c.next
      else
        let h ← visit h crt
        let c ← h.read crt
        pruneList removes remove visit fuel h head (some crt) c.next

/-! ## Slots -/

/-- The heap after a link has been stored in a slot. -/
def relink (h : LumpHeap) (slot v : Option ℕ) : LumpHeap :=
  match slot with
  | none => h
  | some q =>
    { h with
      cell := Function.update h.cell q { h.cell q with next := v } }

/-- The head after a link has been stored in a slot. -/
def slotHead (head slot v : Option ℕ) : Option ℕ :=
  match slot with
  | none => v
  | some _ => head

section

variable {h h₁ h₂ : LumpHeap} {head slot v w : Option ℕ} {old : List ℕ}

theorem setNext_live (hslot : ∀ q ∈ slot, q ∈ h.allocated) :
    setNext h head slot v = .ok (relink h slot v, slotHead head slot v) := by
  cases slot with
  | none => rfl
  | some q =>
    have hq := hslot q rfl
    simp only [setNext, Heap.read_live hq, Heap.write_live hq, bind,
      Except.bind, pure, Except.pure, relink, slotHead]

@[simp] theorem relink_allocated : (relink h slot v).allocated = h.allocated :=
  by cases slot <;> rfl

theorem relink_cell_of_ne {a : ℕ} (ha : slot ≠ some a) : (relink h slot v).cell a = h.cell a := by
  cases slot with
  | none => rfl
  | some q =>
    exact Function.update_of_ne (fun heq => ha (congrArg some heq.symm)) _ _

theorem relink_cell_self (q : ℕ) : (relink h (some q) v).cell q = { h.cell q with next := v } :=
  Function.update_self q _ h.cell

theorem relink_content (a : ℕ) : ((relink h slot v).cell a).content = (h.cell a).content := by
  by_cases ha : slot = some a
  · subst ha
    rw [relink_cell_self]
    rfl
  · rw [relink_cell_of_ne ha]

theorem relink_before (a : ℕ) : ((relink h slot v).cell a).before = (h.cell a).before := by
  by_cases ha : slot = some a
  · subst ha
    rw [relink_cell_self]
  · rw [relink_cell_of_ne ha]

theorem relink_after (a : ℕ) : ((relink h slot v).cell a).after = (h.cell a).after := by
  by_cases ha : slot = some a
  · subst ha
    rw [relink_cell_self]
  · rw [relink_cell_of_ne ha]

theorem HoldsChains.relink {e : LumpEntry} (hc : HoldsChains h e) :
    HoldsChains (relink h slot v) e where
  before := by
    rw [relink_before]
    exact LinkSeg.congr hc.before fun a _ => relink_before a
  after := by
    rw [relink_after]
    exact LinkSeg.congr hc.after fun a _ => relink_after a

@[simp] theorem slotHead_slotHead :
    slotHead (slotHead head slot v) slot w = slotHead head slot w := by
  cases slot <;> rfl

theorem relink_eq_self (hslot : ∀ q ∈ slot, (h.cell q).next = v) : relink h slot v = h := by
  cases slot with
  | none => rfl
  | some q =>
    have hcell : { h.cell q with next := v } = h.cell q := by
      rw [← hslot q rfl]
    rw [relink, hcell, Function.update_eq_self]

@[simp] theorem relink_relink : relink (relink h slot v) slot w = relink h slot w := by
  cases slot with
  | none => rfl
  | some q => simp [relink]

theorem shrinks_relink (hs : h.Shrinks h₁ old) (hslot : ∀ q ∈ slot, q ∉ old) :
    (relink h slot w).Shrinks (relink h₁ slot w) old where
  nodup := hs.nodup
  live := by simpa using hs.live
  mem := by simpa using hs.mem
  same := by
    intro a ha
    by_cases hq : slot = some a
    · subst hq
      rw [relink_cell_self, relink_cell_self, hs.same a (hslot a rfl)]
    · rw [relink_cell_of_ne hq, relink_cell_of_ne hq, hs.same a ha]

end

/-! ## What is taken out and what stays -/

/-- The blocks of `old` have been freed; of the other lumps only links have
changed, and only those of the lumps in `nodes`. -/
structure Prunes (h h₁ : LumpHeap) (nodes old : List ℕ) : Prop where
  nodup : old.Nodup
  live : ∀ a ∈ old, a ∈ h.allocated
  mem : ∀ a, a ∈ h₁.allocated ↔ a ∈ h.allocated ∧ a ∉ old
  content : ∀ a, a ∉ old → (h₁.cell a).content = (h.cell a).content
  same : ∀ a, a ∉ nodes → a ∉ old → h₁.cell a = h.cell a

namespace Prunes

variable {h h₁ h₂ : LumpHeap} {nodes nodes' old old' : List ℕ}

theorem trans (hp : Prunes h h₁ nodes old) (hp' : Prunes h₁ h₂ nodes' old') :
    Prunes h h₂ (nodes ++ nodes') (old ++ old') where
  nodup := by
    refine List.nodup_append.mpr ⟨hp.nodup, hp'.nodup, ?_⟩
    rintro a ha _ hb rfl
    exact ((hp.mem a).mp (hp'.live a hb)).2 ha
  live := by
    intro a ha
    rcases mem_append.mp ha with ha | ha
    · exact hp.live a ha
    · exact ((hp.mem a).mp (hp'.live a ha)).1
  mem := by
    intro a
    rw [hp'.mem, hp.mem, mem_append, not_or, and_assoc]
  content := by
    intro a ha
    rw [mem_append, not_or] at ha
    rw [hp'.content a ha.2, hp.content a ha.1]
  same := by
    intro a hn ha
    rw [mem_append, not_or] at hn ha
    rw [hp'.same a hn.2 ha.2, hp.same a hn.1 ha.1]

theorem mono (hp : Prunes h h₁ nodes old) (hsub : nodes ⊆ nodes') : Prunes h h₁ nodes' old where
  nodup := hp.nodup
  live := hp.live
  mem := hp.mem
  content := hp.content
  same := fun a hn ha => hp.same a (fun hin => hn (hsub hin)) ha

theorem of_shrinks (hs : h.Shrinks h₁ old) : Prunes h h₁ [] old where
  nodup := hs.nodup
  live := hs.live
  mem := hs.mem
  content := fun a ha => congrArg _ (hs.same a ha)
  same := fun a _ ha => hs.same a ha

theorem of_relink (h : LumpHeap) (q : ℕ) (v : Option ℕ) :
    Prunes h (relink h (some q) v) [q] [] where
  nodup := nodup_nil
  live := by simp
  mem := by simp
  content := fun a _ => relink_content a
  same := by
    intro a hn _
    refine relink_cell_of_ne fun heq => hn ?_
    exact mem_singleton.mpr (Option.some.inj heq).symm

end Prunes

/-! ## The loop -/

/-- The text that is freed with a lump, if the lump is freed: that of a lump
which is flagged in no way. -/
def ownText (c : LumpNode) : List ℕ :=
  if c.flags = .none then c.payload else []

/-- The blocks of an entry: its lumps and their own texts. -/
def LumpEntry.blocks (h : LumpHeap) (e : LumpEntry) : List ℕ :=
  e.nodes.flatMap fun a => a :: ownText (h.cell a)

theorem LumpEntry.node_mem_blocks {h : LumpHeap} {e : LumpEntry} {a : ℕ}
    (ha : a ∈ e.nodes) : a ∈ e.blocks h :=
  mem_flatMap.mpr ⟨a, ha, mem_cons_self⟩

theorem ownText_congr {c d : LumpNode} (h : c.content = d.content) : ownText c = ownText d := by
  have htext := congrArg ownText h
  exact htext

theorem LumpEntry.blocks_congr {h h₁ : LumpHeap} {e : LumpEntry}
    (hsame : ∀ a ∈ e.nodes, (h₁.cell a).content = (h.cell a).content) :
    e.blocks h₁ = e.blocks h := by
  rw [blocks, blocks, flatMap_def, flatMap_def]
  congr 1
  exact map_congr_left fun a ha => by rw [ownText_congr (hsame a ha)]

/-- The lump of an entry and those of its chains are in use with their texts;
`may` says which lumps may go with which. -/
structure EntryOk (may : LumpNode → LumpNode → Prop) (h : LumpHeap)
    (e : LumpEntry) : Prop where
  chains : HoldsChains h e
  live : ∀ b ∈ e.blocks h, b ∈ h.allocated
  nodup : (e.blocks h).Nodup
  may : ∀ a ∈ e.nodes, may (h.cell e.addr) (h.cell a)

section

variable {may : LumpNode → LumpNode → Prop} {h h₁ : LumpHeap}
  {e : LumpEntry} {l : List LumpEntry}

theorem EntryOk.nodes_nodup (he : EntryOk may h e) : e.nodes.Nodup := by
  have hflat := he.nodup
  rw [LumpEntry.blocks] at hflat
  refine (List.Sublist.nodup ?_ hflat)
  have hsub : ∀ l : List ℕ, l.Sublist (l.flatMap fun a => a :: ownText (h.cell a)) := by
    intro l
    induction l with
    | nil => exact List.Sublist.slnil
    | cons a l ih =>
      rw [flatMap_cons, cons_append]
      exact (ih.trans (sublist_append_right _ _)).cons_cons a
  exact hsub e.nodes

theorem EntryOk.congr (he : EntryOk may h e) (hsame : ∀ a ∈ e.nodes, h₁.cell a = h.cell a)
    (hlive : ∀ b ∈ e.blocks h, b ∈ h₁.allocated) : EntryOk may h₁ e where
  chains := he.chains.congr hsame
  live := by
    rw [LumpEntry.blocks_congr fun a ha => congrArg _ (hsame a ha)]
    exact hlive
  nodup := by
    rw [LumpEntry.blocks_congr fun a ha => congrArg _ (hsame a ha)]
    exact he.nodup
  may := by
    intro a ha
    rw [hsame a ha, hsame e.addr e.addr_mem]
    exact he.may a ha

/-- What the two steps of a loop do: `keep` is what stays of an entry, `freed`
the blocks that go. -/
structure PruneSteps (may : LumpNode → LumpNode → Prop)
    (removes : LumpNode → Bool)
    (remove : LumpHeap → Option ℕ → Option ℕ → ℕ →
      Except Fault (LumpHeap × Option ℕ))
    (visit : LumpHeap → ℕ → Except Fault LumpHeap)
    (keep : LumpHeap → LumpEntry → LumpEntry)
    (freed : LumpHeap → LumpEntry → List ℕ) : Prop where
  freed_sub : ∀ h e, freed h e ⊆ e.blocks h
  freed_congr : ∀ {h h₁ e}, (∀ a ∈ e.nodes, h₁.cell a = h.cell a) →
    freed h₁ e = freed h e
  keep_congr : ∀ {h h₁ e}, (∀ a ∈ e.nodes, h₁.cell a = h.cell a) →
    keep h₁ e = keep h e
  keep_addr : ∀ h e, (keep h e).addr = e.addr
  keep_sub : ∀ h e, (keep h e).nodes.Sublist e.nodes
  keep_freed : ∀ {h e}, EntryOk may h e → removes (h.cell e.addr) = false →
    ∀ a ∈ (keep h e).nodes, a ∉ freed h e
  remove : ∀ {h e} (head slot : Option ℕ), EntryOk may h e →
    removes (h.cell e.addr) = true →
    (∀ q ∈ slot, q ∈ h.allocated ∧ q ∉ e.blocks h) →
      ∃ h₁, remove h head slot e.addr = .ok
          (h₁, slotHead head slot (h.cell e.addr).next) ∧
        (relink h slot (h.cell e.addr).next).Shrinks h₁ (freed h e)
  visit : ∀ {h e}, EntryOk may h e → removes (h.cell e.addr) = false →
    ∃ h₁, visit h e.addr = .ok h₁ ∧ Prunes h h₁ e.nodes (freed h e) ∧
      HoldsChains h₁ (keep h e) ∧
      (h₁.cell e.addr).next = (h.cell e.addr).next

/-- What stays of a list. -/
def keepList (removes : LumpNode → Bool) (keep : LumpHeap → LumpEntry → LumpEntry) (h : LumpHeap)
    (l : List LumpEntry) : List LumpEntry :=
  (l.filter fun e => !removes (h.cell e.addr)).map (keep h)

variable {removes : LumpNode → Bool}
  {remove : LumpHeap → Option ℕ → Option ℕ → ℕ → Except Fault (LumpHeap × Option ℕ)}
  {visit : LumpHeap → ℕ → Except Fault LumpHeap}
  {keep : LumpHeap → LumpEntry → LumpEntry}
  {freed : LumpHeap → LumpEntry → List ℕ}

theorem keepList_cons_removed (hrem : removes (h.cell e.addr) = true) :
    keepList removes keep h (e :: l) = keepList removes keep h l := by
  rw [keepList, filter_cons_of_neg (by simp [hrem]), ← keepList]

theorem keepList_cons_kept (hrem : removes (h.cell e.addr) = false) :
    keepList removes keep h (e :: l) = keep h e :: keepList removes keep h l := by
  rw [keepList, filter_cons_of_pos (by simp [hrem]), map_cons, ← keepList]

section

variable (hs : PruneSteps may removes remove visit keep freed)
include hs

theorem PruneSteps.keepList_congr (hsame : ∀ a ∈ nodesOf l, h₁.cell a = h.cell a) :
    keepList removes keep h₁ l = keepList removes keep h l := by
  induction l with
  | nil => rfl
  | cons e l ih =>
    have he : ∀ a ∈ e.nodes, h₁.cell a = h.cell a :=
      fun a ha => hsame a (mem_append_left _ ha)
    have hl := ih fun a ha => hsame a (mem_append_right _ ha)
    have haddr := he e.addr e.addr_mem
    cases hrem : removes (h.cell e.addr) with
    | true =>
      rw [keepList_cons_removed hrem, keepList_cons_removed (haddr ▸ hrem), hl]
    | false =>
      rw [keepList_cons_kept hrem, keepList_cons_kept (haddr ▸ hrem), hl, hs.keep_congr he]

theorem PruneSteps.freed_list_congr (hsame : ∀ a ∈ nodesOf l, h₁.cell a = h.cell a) :
    l.flatMap (freed h₁) = l.flatMap (freed h) := by
  rw [flatMap_def, flatMap_def]
  congr 1
  refine map_congr_left fun e he => hs.freed_congr ?_
  exact fun a ha => hsame a (mem_nodesOf he ha)

theorem PruneSteps.nodesOf_keepList_subset : nodesOf (keepList removes keep h l) ⊆ nodesOf l := by
  intro a ha
  obtain ⟨e', he', ha⟩ := mem_flatMap.mp ha
  obtain ⟨e, he, rfl⟩ := List.mem_map.mp he'
  exact mem_nodesOf (mem_of_mem_filter he) ((hs.keep_sub h e).subset ha)

end

/-- The entries of a list, no two of which share a block. -/
structure ListOk (may : LumpNode → LumpNode → Prop) (h : LumpHeap)
    (l : List LumpEntry) : Prop where
  entries : ∀ e ∈ l, EntryOk may h e
  nodup : (l.flatMap (LumpEntry.blocks h)).Nodup

theorem node_mem_blocks {a : ℕ} (ha : a ∈ nodesOf l) : a ∈ l.flatMap (LumpEntry.blocks h) := by
  obtain ⟨e, he, ha⟩ := mem_flatMap.mp ha
  exact mem_flatMap.mpr ⟨e, he, LumpEntry.node_mem_blocks ha⟩

theorem blocks_list_congr (hsame : ∀ a ∈ nodesOf l, h₁.cell a = h.cell a) :
    l.flatMap (LumpEntry.blocks h₁) = l.flatMap (LumpEntry.blocks h) := by
  rw [flatMap_def, flatMap_def]
  congr 1
  refine map_congr_left fun e he => LumpEntry.blocks_congr ?_
  exact fun a ha => congrArg _ (hsame a (mem_nodesOf he ha))

theorem listOk_cons : ListOk may h (e :: l) ↔ EntryOk may h e ∧ ListOk may h l ∧
      ∀ b ∈ e.blocks h, b ∉ l.flatMap (LumpEntry.blocks h) := by
  constructor
  · intro hok
    have hnodup := List.nodup_append.mp hok.nodup
    refine ⟨hok.entries e mem_cons_self, ⟨fun e' he' => hok.entries e' (mem_cons_of_mem _ he'),
        hnodup.2.1⟩, ?_⟩
    exact fun b hb hin => hnodup.2.2 b hb b hin rfl
  · rintro ⟨he, hok, hdisj⟩
    refine ⟨?_, List.nodup_append.mpr ⟨he.nodup, hok.nodup, ?_⟩⟩
    · intro e' he'
      rcases mem_cons.mp he' with rfl | he'
      · exact he
      · exact hok.entries e' he'
    · rintro b hb _ hin rfl
      exact hdisj b hb hin

theorem ListOk.congr (hok : ListOk may h l) (hsame : ∀ a ∈ nodesOf l, h₁.cell a = h.cell a)
    (hlive : ∀ b ∈ l.flatMap (LumpEntry.blocks h), b ∈ h₁.allocated) :
    ListOk may h₁ l where
  entries := by
    intro e he
    refine (hok.entries e he).congr (fun a ha => hsame a (mem_nodesOf he ha)) fun b hb => hlive b ?_
    exact mem_flatMap.mpr ⟨e, he, hb⟩
  nodup := by
    rw [blocks_list_congr hsame]
    exact hok.nodup

theorem ListOk.mono {may' : LumpNode → LumpNode → Prop}
    (hok : ListOk may h l) (hmay : ∀ c d, may c d → may' c d) :
    ListOk may' h l where
  entries := fun e he =>
    ⟨(hok.entries e he).chains, (hok.entries e he).live, (hok.entries e he).nodup,
      fun a ha => hmay _ _ ((hok.entries e he).may a ha)⟩
  nodup := hok.nodup

theorem ListOk.live (hok : ListOk may h l) :
    ∀ b ∈ l.flatMap (LumpEntry.blocks h), b ∈ h.allocated := by
  intro b hb
  obtain ⟨e, he, hb⟩ := mem_flatMap.mp hb
  exact (hok.entries e he).live b hb

/-- A lump that stays is linked to what stays behind it. -/
theorem holdsLumps_kept {h₂ : LumpHeap} {r : Option ℕ}
    (hchains : HoldsChains h₁ e) (hnodup : e.nodes.Nodup)
    (hcell : ∀ a ∈ e.nodes, h₂.cell a = (relink h₁ (some e.addr) r).cell a)
    (hlive : ∀ a ∈ e.nodes, a ∈ h₂.allocated) (hrest : HoldsLumps h₂ r l)
    (hdisj : ∀ a ∈ e.nodes, a ∉ nodesOf l) :
    HoldsLumps h₂ (some e.addr) (e :: l) := by
  have haddr := hcell e.addr e.addr_mem
  rw [relink_cell_self] at haddr
  have hchain : ∀ a ∈ e.before ++ e.after, h₂.cell a = h₁.cell a := by
    intro a ha
    rw [hcell a (mem_cons_of_mem _ ha)]
    refine relink_cell_of_ne fun heq => ?_
    obtain rfl := Option.some.inj heq
    exact (nodup_cons.mp hnodup).1 ha
  refine holdsLumps_cons.mpr ⟨rfl, ⟨?_, ?_⟩, ?_, hlive, hnodup, hdisj⟩
  · rw [haddr]
    exact hchains.before.congr fun a ha => hchain a (mem_append_left _ ha)
  · rw [haddr]
    exact hchains.after.congr fun a ha => hchain a (mem_append_right _ ha)
  · rw [haddr]
    exact hrest

/-- The loop takes out what it should and keeps the rest in its order. -/
theorem PruneSteps.pruneList_holds (hs : PruneSteps may removes remove visit keep freed) {fuel : ℕ}
    {head slot p : Option ℕ}
    (hc : h.Chain LumpNode.next p (l.map LumpEntry.addr))
    (hok : ListOk may h l) (hfuel : l.length ≤ fuel)
    (hslot : ∀ q ∈ slot, q ∈ h.allocated ∧ q ∉ l.flatMap (LumpEntry.blocks h) ∧ (h.cell q).next = p)
    (hhead : slot = none → head = p) :
    ∃ h₁ r, pruneList removes remove visit fuel h head slot p = .ok (h₁, slotHead head slot r) ∧
      HoldsLumps h₁ r (keepList removes keep h l) ∧
      Prunes (relink h slot r) h₁ (nodesOf l) (l.flatMap (freed h)) := by
  induction l generalizing h fuel head slot p with
  | nil =>
    obtain rfl : p = none := hc
    have hself : relink h slot none = h :=
      relink_eq_self fun q hq => (hslot q hq).2.2
    have hhead' : slotHead head slot none = head := by
      cases slot with
      | none => exact (hhead rfl).symm
      | some q => rfl
    refine ⟨h, none, ?_, holdsLumps_nil h, ?_⟩
    · rw [hhead']
      cases fuel <;> rfl
    · rw [hself]
      exact Prunes.of_shrinks (Heap.Shrinks.refl h)
  | cons e l ih =>
    obtain ⟨rfl, hrest⟩ := hc
    obtain ⟨fuel, rfl⟩ : ∃ n, fuel = n + 1 := by
      rw [length_cons] at hfuel
      exact ⟨fuel - 1, by omega⟩
    have hfuel' : l.length ≤ fuel := by simpa using hfuel
    obtain ⟨he, hokl, hdisj⟩ := listOk_cons.mp hok
    rw [flatMap_cons] at hslot
    have hslot' : ∀ q ∈ slot, q ∈ h.allocated ∧ q ∉ e.blocks h ∧
        q ∉ l.flatMap (LumpEntry.blocks h) ∧ (h.cell q).next = some e.addr := by
      intro q hq
      obtain ⟨hlive, hnot, hnext⟩ := hslot q hq
      rw [mem_append, not_or] at hnot
      exact ⟨hlive, hnot.1, hnot.2, hnext⟩
    have haddr : e.addr ∈ h.allocated :=
      he.live _ (LumpEntry.node_mem_blocks e.addr_mem)
    have hfreed : ∀ b ∈ freed h e, b ∉ l.flatMap (LumpEntry.blocks h) :=
      fun b hb => hdisj b (hs.freed_sub h e hb)
    -- the rest of the list, in a heap where the entry has been dealt with
    have hnode : ∀ a ∈ nodesOf l, a ∉ freed h e ∧ a ∉ e.nodes :=
      fun a ha => ⟨fun hin => hfreed a hin (node_mem_blocks ha),
        fun hin => hdisj a (LumpEntry.node_mem_blocks hin) (node_mem_blocks ha)⟩
    rw [pruneList, Heap.read_live haddr]
    cases hrem : removes (h.cell e.addr) with
    | true =>
      obtain ⟨h₁, hrun, hshr⟩ := hs.remove head slot he hrem
        fun q hq => ⟨(hslot' q hq).1, (hslot' q hq).2.1⟩
      have hslotfreed : ∀ q ∈ slot, q ∉ freed h e :=
        fun q hq hin => (hslot' q hq).2.1 (hs.freed_sub h e hin)
      have hsame : ∀ a ∈ nodesOf l, h₁.cell a = h.cell a := by
        intro a ha
        rw [hshr.same a (hnode a ha).1]
        refine relink_cell_of_ne fun heq => ?_
        exact (hslot' a heq).2.2.1 (node_mem_blocks ha)
      have hok₁ : ListOk may h₁ l := hokl.congr hsame fun b hb =>
        (hshr.mem b).mpr ⟨by simpa using hokl.live b hb, fun hin => hfreed b hin hb⟩
      obtain ⟨h₂, r, hrun₂, hholds, hpr⟩ := @ih h₁ fuel
        (slotHead head slot (h.cell e.addr).next) slot (h.cell e.addr).next
        (Heap.Chain.congr hrest fun a ha => by
          obtain ⟨e', he', rfl⟩ := List.mem_map.mp ha
          exact hsame _ (mem_nodesOf he' e'.addr_mem)) hok₁ hfuel'
        (fun q hq => by
          refine ⟨(hshr.mem q).mpr ⟨by simpa using (hslot' q hq).1, hslotfreed q hq⟩, ?_, ?_⟩
          · rw [blocks_list_congr hsame]
            exact (hslot' q hq).2.2.1
          · obtain rfl : slot = some q := hq
            rw [hshr.same q (hslotfreed q rfl), relink_cell_self])
        (fun hnone => by rw [hnone]; rfl)
      rw [slotHead_slotHead] at hrun₂
      rw [hs.keepList_congr hsame] at hholds
      rw [hs.freed_list_congr hsame] at hpr
      refine ⟨h₂, r, ?_, ?_, ?_⟩
      · simp only [bind, Except.bind, hrem, if_true, hrun, hrun₂]
      · rw [keepList_cons_removed hrem]
        exact hholds
      · have hshr' := shrinks_relink (w := r) hshr hslotfreed
        rw [relink_relink] at hshr'
        rw [flatMap_cons, nodesOf_cons]
        exact ((Prunes.of_shrinks hshr').trans hpr).mono (by simp)
    | false =>
      obtain ⟨h₁, hrun, hpr, hchains, hnext⟩ := hs.visit he hrem
      have hkeepfreed := hs.keep_freed he hrem
      have hsub := hs.keep_sub h e
      have hkept : e.addr ∉ freed h e := by
        have hin := (keep h e).addr_mem
        rw [hs.keep_addr] at hin
        exact hkeepfreed _ hin
      have haddrl : e.addr ∉ l.flatMap (LumpEntry.blocks h) :=
        hdisj _ (LumpEntry.node_mem_blocks e.addr_mem)
      have hsame : ∀ a ∈ nodesOf l, h₁.cell a = h.cell a :=
        fun a ha => hpr.same a (hnode a ha).2 (hnode a ha).1
      have hok₁ : ListOk may h₁ l := hokl.congr hsame fun b hb =>
        (hpr.mem b).mpr ⟨hokl.live b hb, fun hin => hfreed b hin hb⟩
      have haddr₁ : e.addr ∈ h₁.allocated := (hpr.mem _).mpr ⟨haddr, hkept⟩
      obtain ⟨h₂, r, hrun₂, hholds, hpr₂⟩ := @ih h₁ fuel head (some e.addr) (h.cell e.addr).next
        (Heap.Chain.congr hrest fun a ha => by
          obtain ⟨e', he', rfl⟩ := List.mem_map.mp ha
          exact hsame _ (mem_nodesOf he' e'.addr_mem)) hok₁ hfuel'
        (fun q hq => by
          obtain rfl : e.addr = q := Option.some.inj hq
          rw [blocks_list_congr hsame]
          exact ⟨haddr₁, haddrl, hnext⟩)
        (fun hnone => absurd hnone (by simp))
      rw [hs.keepList_congr hsame] at hholds
      rw [hs.freed_list_congr hsame] at hpr₂
      have hself : relink h slot (some e.addr) = h :=
        relink_eq_self fun q hq => (hslot' q hq).2.2.2
      have hall : Prunes h h₂ (nodesOf (e :: l)) ((e :: l).flatMap (freed h)) := by
        have htrans := (hpr.trans (Prunes.of_relink h₁ e.addr r)).trans hpr₂
        rw [append_nil] at htrans
        refine htrans.mono ?_
        intro a ha
        simp only [mem_append, mem_singleton] at ha
        rw [nodesOf_cons, mem_append]
        rcases ha with (ha | rfl) | ha
        · exact Or.inl ha
        · exact Or.inl e.addr_mem
        · exact Or.inr ha
      have hhead' : slotHead head slot (some e.addr) = head := by
        cases slot with
        | none => exact (hhead rfl).symm
        | some q => rfl
      refine ⟨h₂, some e.addr, ?_, ?_, ?_⟩
      · rw [hhead']
        simp only [bind, Except.bind, hrem, Bool.false_eq_true, if_false, hrun,
          Heap.read_live haddr₁, hnext]
        exact hrun₂
      · rw [keepList_cons_kept hrem]
        have hnot : ∀ a ∈ (keep h e).nodes, a ∉ nodesOf l ∧ a ∉ l.flatMap (freed h) := by
          intro a ha
          have hin := hdisj a (LumpEntry.node_mem_blocks (hsub.subset ha))
          refine ⟨fun hnode => hin (node_mem_blocks hnode), fun hfr => hin ?_⟩
          obtain ⟨e', he', hfr⟩ := mem_flatMap.mp hfr
          exact mem_flatMap.mpr ⟨e', he', hs.freed_sub h e' hfr⟩
        rw [← hs.keep_addr h e] at hpr₂ ⊢
        refine holdsLumps_kept hchains (he.nodes_nodup.sublist hsub) ?_ ?_ hholds ?_
        · exact fun a ha => hpr₂.same a (hnot a ha).1 (hnot a ha).2
        · intro a ha
          refine (hall.mem a).mpr ⟨he.live a (LumpEntry.node_mem_blocks (hsub.subset ha)), ?_⟩
          rw [flatMap_cons, mem_append, not_or]
          exact ⟨hkeepfreed a ha, (hnot a ha).2⟩
        · exact fun a ha hin => (hnot a ha).1 (hs.nodesOf_keepList_subset hin)
      · rw [hself]
        exact hall

theorem PruneSteps.pruneList_whole
    (hs : PruneSteps may removes remove visit keep freed) {p : Option ℕ}
    (hl : HoldsLumps h p l) (hok : ListOk may h l) :
    ∃ h₁ r, pruneList removes remove visit h.allocated.card h p none p = .ok (h₁, r) ∧
      HoldsLumps h₁ r (keepList removes keep h l) ∧
      view h₁ (keepList removes keep h l) = view h (keepList removes keep h l) ∧
      Prunes h h₁ (nodesOf l) (l.flatMap (freed h)) := by
  have hlen : l.length ≤ h.allocated.card := by
    have haddr : ∀ a ∈ l.map LumpEntry.addr, a ∈ h.allocated := by
      intro a ha
      obtain ⟨e, he, rfl⟩ := List.mem_map.mp ha
      exact hl.live _ (mem_nodesOf he e.addr_mem)
    simpa using hl.next.length_le haddr
  obtain ⟨h₁, r, hrun, hholds, hp⟩ := @PruneSteps.pruneList_holds _ _ _ _ _ _ _ _
    hs _ p none p hl.next hok hlen (by simp) fun _ => rfl
  refine ⟨h₁, r, hrun, hholds, view_congr fun a ha => hp.content a ?_, hp⟩
  exact ((hp.mem a).mp (hholds.live a ha)).2

end

end Msicp.Lumps
