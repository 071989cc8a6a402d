import Msicp.Lumps.DupLumps
import Msicp.Lumps.PruneLumps

/-!
# Lumps taken out of a list (`del_nonshm_lump`, `free_via_clen_lump`)
-/

namespace Msicp.Lumps

open Msicp.Support List Heap

def freeLumpList (h : LumpHeap) (l : Option ℕ) : Except Fault LumpHeap :=
  Heap.freeChain LumpNode.next (freeWithChains freeWhole) h.allocated.card h l

/-! ## `del_nonshm_lump` -/

/-- `flags != LUMPFLAG_SHMEM` -/
def nonshm (c : LumpNode) : Bool := c.flags != .shmem

/-- The loop over a chain of a lump that stays; `prevR` is the lump whose link
is stored when the lump behind it goes. -/
def delChainLoop (dir : LumpDir) : ℕ → LumpHeap → ℕ → Option ℕ → Except Fault LumpHeap
  | _, h, _, none => .ok h
  | 0, _, _, some _ => .error .loops
  | fuel + 1, h, prevR, some foo => do
      let c ← h.read foo
      if nonshm c then
        let p ← h.read prevR
        let h ← h.write prevR (dir.set p (dir.link c))
        let h ← freeWhole h foo
        delChainLoop dir fuel h prevR (dir.link c)
      else delChainLoop dir fuel h foo (dir.link c)

/-- One chain of the lump `crt`. -/
def delChain (dir : LumpDir) (h : LumpHeap) (crt : ℕ) :
    Except Fault LumpHeap := do
  let c ← h.read crt
  delChainLoop dir h.allocated.card h crt (dir.link c)

/-- "unlink it": the lump goes with its whole chains. -/
def delRemove (h : LumpHeap) (head prev : Option ℕ) (foo : ℕ) :
    Except Fault (LumpHeap × Option ℕ) := do
  let c ← h.read foo
  let h ← h.write foo { c with next := none }
  let (h, head) ← setNext h head prev c.next
  let h ← freeLumpList h (some foo)
  return (h, head)

/-- "check on before and prev list for non-shmem lumps" -/
def delVisit (h : LumpHeap) (crt : ℕ) : Except Fault LumpHeap := do
  let h ← delChain .after h crt
  delChain .before h crt

/-- `del_nonshm_lump`; the second component is the new `*lump_list`. -/
def delNonshmLump (h : LumpHeap) (lumpList : Option ℕ) : Except Fault (LumpHeap × Option ℕ) :=
  pruneList nonshm delRemove delVisit h.allocated.card h lumpList none lumpList

/-! ## `free_via_clen_lump` -/

def hdrVia : ℤ := 1

def hdrContentLength : ℤ := 2 ^ 11

/-- The lumps that `free_via_clen_lump` takes out. -/
def viaClen (c : LumpNode) : Bool :=
  c.type == hdrVia || c.type == hdrContentLength

/-- What is freed of a lump: the text unless it is shared, the lump unless it
is in shared memory. -/
def viaFree (h : LumpHeap) (foo : ℕ) : Except Fault LumpHeap := do
  let c ← h.read foo
  let h ← if !c.flags.shared then freeLump h foo else .ok h
  if !c.flags.isShmem then h.free foo else .ok h

def viaRemove (h : LumpHeap) (head prev : Option ℕ) (lump : ℕ) :
    Except Fault (LumpHeap × Option ℕ) := do
  let c ← h.read lump
  let h ← Heap.freeChain LumpNode.before viaFree h.allocated.card h c.before
  let c ← h.read lump
  let h ← Heap.freeChain LumpNode.after viaFree h.allocated.card h c.after
  let c ← h.read lump
  let (h, head) ← setNext h head prev c.next
  let h ← viaFree h lump
  return (h, head)

/-- `free_via_clen_lump`; the second component is the new `*list`. -/
def freeViaClenLump (h : LumpHeap) (list : Option ℕ) : Except Fault (LumpHeap × Option ℕ) :=
  pruneList viaClen viaRemove (fun h _ => .ok h) h.allocated.card h list none list

/-! ## What stays -/

/-- A lump that may be freed together with its text. -/
def mayFree (c : LumpNode) : Prop := c.flags = .none ∨ c.payload = []

/-- The lumps that `del_nonshm_lump` frees are not flagged as shared. -/
def delMay (c d : LumpNode) : Prop :=
  nonshm c = true ∨ nonshm d = true → mayFree d

/-- The lumps of a chain that stay. -/
def shmOf (h : LumpHeap) (l : List ℕ) : List ℕ :=
  l.filter fun a => !nonshm (h.cell a)

/-- The lumps of a chain that go. -/
def nonshmOf (h : LumpHeap) (l : List ℕ) : List ℕ :=
  l.filter fun a => nonshm (h.cell a)

/-- What stays of a lump with its chains. -/
def delKeep (h : LumpHeap) (e : LumpEntry) : LumpEntry where
  addr := e.addr
  before := shmOf h e.before
  after := shmOf h e.after

/-- A lump with its text. -/
def withText (h : LumpHeap) (a : ℕ) : List ℕ := a :: ownText (h.cell a)

/-- The blocks that `del_nonshm_lump` frees. -/
def delFreed (h : LumpHeap) (e : LumpEntry) : List ℕ :=
  if nonshm (h.cell e.addr) then e.blocks h
  else (nonshmOf h e.after).flatMap (withText h) ++ (nonshmOf h e.before).flatMap (withText h)

/-- The blocks that go with a lump in `free_via_clen_lump`. -/
def viaOwn (h : LumpHeap) (a : ℕ) : List ℕ :=
  if (h.cell a).flags.isShmem then [] else withText h a

/-- The blocks that `free_via_clen_lump` frees. -/
def viaFreed (h : LumpHeap) (e : LumpEntry) : List ℕ :=
  if viaClen (h.cell e.addr) then e.nodes.flatMap (viaOwn h) else []

section

variable {may : LumpNode → LumpNode → Prop} {h h₁ : LumpHeap} {e : LumpEntry}
  {a : ℕ}

theorem ownText_of_mayFree {c : LumpNode} (hc : mayFree c) : ownText c = c.payload := by
  rw [ownText]
  split
  · rfl
  · exact (hc.resolve_left ‹_›).symm

theorem withText_congr (hsame : h₁.cell a = h.cell a) : withText h₁ a = withText h a := by
  rw [withText, withText, hsame]

theorem viaOwn_sublist (h : LumpHeap) (a : ℕ) : (viaOwn h a).Sublist (withText h a) := by
  rw [viaOwn]
  split
  · exact nil_sublist _
  · exact List.Sublist.refl _

variable {l : List ℕ}

theorem flatMap_sublist {own own' : ℕ → List ℕ} (hsub : ∀ a, (own a).Sublist (own' a)) :
    (l.flatMap own).Sublist (l.flatMap own') := by
  induction l with
  | nil => exact List.Sublist.slnil
  | cons a l ih =>
    rw [flatMap_cons, flatMap_cons]
    exact (hsub a).append ih

theorem EntryOk.separate {own : ℕ → List ℕ}
    {dispose : LumpHeap → ℕ → Except Fault LumpHeap} (he : EntryOk may h e)
    (hsub : ∀ a, (own a).Sublist (withText h a))
    (hdispose : ∀ a ∈ e.nodes, Heap.Disposes dispose h a [a] (own a)) :
    Separate dispose h own e.nodes where
  nodup := he.nodes_nodup
  live := fun a ha => he.live a (LumpEntry.node_mem_blocks ha)
  owned := fun b hb => he.live b ((flatMap_sublist hsub).subset hb)
  ownedNodup := he.nodup.sublist (flatMap_sublist hsub)
  sep := by
    intro a ha b hb hne hin
    exact @not_mem_own (withText h) _ he.nodup
      (fun x _ => mem_cons_self) a ha b hb hne ((hsub a).subset hin)
  disposes := hdispose

theorem withText_nodup (he : EntryOk may h e) (ha : a ∈ e.nodes) : (withText h a).Nodup :=
  (nodup_flatMap.mp he.nodup).1 a ha

theorem freeWhole_disposes (hnodup : (withText h a).Nodup) (hfree : mayFree (h.cell a)) :
    Heap.Disposes freeWhole h a [a] (withText h a) := by
  rw [withText, ownText_of_mayFree hfree] at hnodup ⊢
  refine Whole.disposes ⟨hfree, ?_⟩
  rintro b hb rfl
  exact (nodup_cons.mp hnodup).1 hb

theorem viaFree_disposes (hnodup : (withText h a).Nodup) :
    Heap.Disposes viaFree h a [a] (viaOwn h a) := by
  intro h₁ hcell hlive howned
  have ha := hlive a (mem_singleton_self a)
  have hsame := hcell a (mem_singleton_self a)
  rw [viaFree, read_live ha, hsame]
  rw [viaOwn] at howned ⊢
  by_cases hshmem : (h.cell a).flags.isShmem = true
  · have hshared : (h.cell a).flags.shared = true := by
      rw [LumpFlag.shared, hshmem, Bool.or_true]
    rw [if_pos hshmem]
    refine ⟨h₁, ?_, Heap.Shrinks.refl h₁⟩
    simp only [bind, Except.bind, hshared, hshmem, Bool.not_true, Bool.false_eq_true, if_false]
  rw [if_neg hshmem] at howned ⊢
  by_cases hnone : (h.cell a).flags = .none
  · obtain ⟨h₂, hrun, hs⟩ := freeWhole_disposes hnodup (Or.inl hnone) h₁ hcell hlive howned
    refine ⟨h₂, ?_, hs⟩
    rw [← hrun]
    simp only [freeWhole, hnone, bind, Except.bind]
    rfl
  · have hshared : (h.cell a).flags.shared = true := by
      cases hval : (h.cell a).flags.shared with
      | true => rfl
      | false => exact absurd (LumpFlag.shared_eq_false.mp hval) hnone
    have hown : withText h a = [a] := by
      rw [withText, ownText, if_neg hnone]
    rw [hown]
    refine ⟨_, ?_, free_shrinks ha⟩
    simp only [bind, Except.bind, hshared, hshmem, Bool.not_true, Bool.false_eq_true, if_false]
    exact free_live ha

theorem viaRemove_shrinks (head slot : Option ℕ) (he : EntryOk may h e)
    (hslot : ∀ q ∈ slot, q ∈ h.allocated ∧ q ∉ e.blocks h) :
    ∃ h₁, viaRemove h head slot e.addr = .ok (h₁, slotHead head slot (h.cell e.addr).next) ∧
      (relink h slot (h.cell e.addr).next).Shrinks h₁ (e.nodes.flatMap (viaOwn h)) := by
  have hs := he.separate (viaOwn_sublist h) fun a ha => viaFree_disposes (withText_nodup he ha)
  have haddr := hs.live e.addr e.addr_mem
  replace hs := hs.perm e.nodes_perm
  obtain ⟨h₁, hrun₁, hs₁⟩ := hs.left.freeChain_shrinks he.chains.before
  obtain ⟨hsame₁, hrest₁⟩ := hs.right hs₁
  have haddr₁ : h₁.cell e.addr = h.cell e.addr := hsame₁ _ (by simp)
  have hafter : h₁.Chain LumpNode.after (h₁.cell e.addr).after e.after := by
    rw [haddr₁]
    exact he.chains.after.congr fun a ha =>
      hsame₁ a (mem_append_left _ ha)
  obtain ⟨h₂, hrun₂, hs₂⟩ := hrest₁.left.freeChain_shrinks hafter
  obtain ⟨hsame₂, hlast⟩ := hrest₁.right hs₂
  have haddr₂ : h₂.cell e.addr = h.cell e.addr :=
    (hsame₂ _ (by simp)).trans haddr₁
  -- the slot is not touched by what has been freed so far
  have hchains := hs₁.trans hs₂
  have hblocks : ∀ b ∈ e.before.flatMap (viaOwn h) ++
      e.after.flatMap (viaOwn h), b ∈ e.blocks h := by
    intro b hb
    refine (flatMap_sublist (viaOwn_sublist h)).subset ?_
    rw [LumpEntry.nodes, flatMap_cons, flatMap_append]
    exact mem_append_right _ hb
  have hslot₂ : ∀ q ∈ slot, q ∈ h₂.allocated := fun q hq =>
    (hchains.mem q).mpr ⟨(hslot q hq).1, fun hin =>
      (hslot q hq).2 (hblocks q hin)⟩
  have hne : slot ≠ some e.addr := fun heq =>
    (hslot e.addr heq).2 (LumpEntry.node_mem_blocks e.addr_mem)
  obtain ⟨h₃, hrun₃, hs₃⟩ := hlast.disposes e.addr (by simp) (relink h₂ slot (h.cell e.addr).next)
    (fun b hb => by
      obtain rfl := mem_singleton.mp hb
      exact relink_cell_of_ne hne)
    (by simpa using hlast.live) (by simpa using hlast.owned)
  refine ⟨h₃, ?_, ((shrinks_relink hchains fun q hq hin =>
    (hslot q hq).2 (hblocks q hin)).trans hs₃).perm ?_⟩
  · simp only [viaRemove, read_live haddr, bind, Except.bind, hrun₁,
      read_live (hrest₁.live e.addr (by simp)), hrun₂,
      read_live (hlast.live e.addr (by simp)), haddr₂,
      setNext_live hslot₂, hrun₃, pure, Except.pure]
  · have hperm := (e.nodes_perm.flatMap_right (viaOwn h)).symm
    simpa only [flatMap_append, flatMap_singleton, append_assoc] using hperm

theorem viaFreed_kept (hkeep : viaClen (h.cell e.addr) = false) : viaFreed h e = [] := by
  rw [viaFreed, hkeep]
  rfl

theorem viaOwn_congr (hsame : h₁.cell a = h.cell a) : viaOwn h₁ a = viaOwn h a := by
  rw [viaOwn, viaOwn, hsame, withText_congr hsame]

theorem via_steps : PruneSteps (fun _ _ => True) viaClen viaRemove (fun h _ => .ok h)
      (fun _ e => e) viaFreed where
  freed_sub := by
    intro h e b hb
    rw [viaFreed] at hb
    split at hb
    · exact (flatMap_sublist (viaOwn_sublist h)).subset hb
    · exact absurd hb (by simp)
  freed_congr := by
    intro h h₁ e hsame
    have hflat : e.nodes.flatMap (viaOwn h₁) = e.nodes.flatMap (viaOwn h) := by
      rw [flatMap_def, flatMap_def]
      congr 1
      exact map_congr_left fun a ha => viaOwn_congr (hsame a ha)
    rw [viaFreed, viaFreed, hsame e.addr e.addr_mem, hflat]
  keep_congr := fun _ => rfl
  keep_addr := fun _ _ => rfl
  keep_sub := fun _ _ => List.Sublist.refl _
  keep_freed := by
    intro h e _ hkeep a _
    rw [viaFreed_kept hkeep]
    exact not_mem_nil
  remove := by
    intro h e head slot he hrem hslot
    rw [viaFreed, if_pos hrem]
    exact viaRemove_shrinks head slot he hslot
  visit := by
    intro h e he hkeep
    rw [viaFreed_kept hkeep]
    exact ⟨h, rfl, (Prunes.of_shrinks (Heap.Shrinks.refl h)).mono (by simp), he.chains, rfl⟩

/-! ### `del_nonshm_lump` -/

theorem mayFree_congr {c d : LumpNode} (h : c.content = d.content)
    (hd : mayFree d) : mayFree c := by
  have hc : mayFree c.content = mayFree d.content := congrArg mayFree h
  exact hc.mpr hd

theorem withText_content (hsame : (h₁.cell a).content = (h.cell a).content) :
    withText h₁ a = withText h a := by
  rw [withText, withText, ownText_congr hsame]

/-- An entry in a heap in which only `next` links have changed. -/
theorem EntryOk.relinked {slot slot' v v' : Option ℕ} (he : EntryOk may h e)
    (hfree : ∀ a ∈ e.nodes, mayFree (h.cell a)) :
    EntryOk (fun _ d => mayFree d) (relink (relink h slot v) slot' v') e where
  chains := he.chains.relink.relink
  live := by
    rw [LumpEntry.blocks_congr fun a _ =>
      (relink_content a).trans (relink_content a)]
    simpa using he.live
  nodup := by
    rw [LumpEntry.blocks_congr fun a _ =>
      (relink_content a).trans (relink_content a)]
    exact he.nodup
  may := fun a ha => mayFree_congr ((relink_content a).trans (relink_content a)) (hfree a ha)

theorem delRemove_shrinks (head slot : Option ℕ) (he : EntryOk may h e)
    (hfree : ∀ a ∈ e.nodes, mayFree (h.cell a))
    (hslot : ∀ q ∈ slot, q ∈ h.allocated ∧ q ∉ e.blocks h) :
    ∃ h₁, delRemove h head slot e.addr = .ok (h₁, slotHead head slot (h.cell e.addr).next) ∧
      (relink h slot (h.cell e.addr).next).Shrinks h₁ (e.blocks h) := by
  have haddr := he.live e.addr (LumpEntry.node_mem_blocks e.addr_mem)
  have hne : slot ≠ some e.addr := fun heq =>
    (hslot e.addr heq).2 (LumpEntry.node_mem_blocks e.addr_mem)
  have hwrite : h.write e.addr { h.cell e.addr with next := none } =
      .ok (relink h (some e.addr) none) := write_live haddr _
  have hok := @EntryOk.relinked may h e (some e.addr) slot none (h.cell e.addr).next he hfree
  have hholds : HoldsLumps (relink (relink h (some e.addr) none) slot (h.cell e.addr).next)
      (some e.addr) [e] := by
    refine holdsLumps_cons.mpr ⟨rfl, hok.chains, ?_, ?_, hok.nodes_nodup, ?_⟩
    · rw [relink_cell_of_ne hne, relink_cell_self]
      exact holdsLumps_nil _
    · exact fun a ha => hok.live a (LumpEntry.node_mem_blocks ha)
    · exact fun a _ => by simp [nodesOf]
  have hsep := hok.separate (fun a => List.Sublist.refl _)
    fun a ha => freeWhole_disposes (withText_nodup hok ha) (hok.may a ha)
  have hnodes : nodesOf [e] = e.nodes := append_nil _
  obtain ⟨h₁, hrun, hs⟩ := hholds.free_shrinks (hnodes.symm ▸ hsep)
  have hblocks : (nodesOf [e]).flatMap (withText
      (relink (relink h (some e.addr) none) slot (h.cell e.addr).next)) =
        e.blocks h := by
    rw [hnodes, LumpEntry.blocks, flatMap_def, flatMap_def]
    congr 1
    exact map_congr_left fun a _ =>
      withText_content ((relink_content a).trans (relink_content a))
  rw [hblocks] at hs
  refine ⟨h₁, ?_, hs.congr_left (by simp) ?_⟩
  · simp only [delRemove, read_live haddr, bind, Except.bind, hwrite,
      freeLumpList, pure, Except.pure]
    rw [setNext_live fun q hq => by simpa using (hslot q hq).1]
    simp only [hrun]
  · intro a ha
    have hna : some e.addr ≠ some a := fun heq =>
      ha (Option.some.inj heq ▸ LumpEntry.node_mem_blocks e.addr_mem)
    by_cases hq : slot = some a
    · subst hq
      rw [relink_cell_self, relink_cell_self, relink_cell_of_ne hna]
    · rw [relink_cell_of_ne hq, relink_cell_of_ne hq, relink_cell_of_ne hna]

theorem nonshmOf_cons_of_pos (hgo : nonshm (h.cell a) = true) :
    nonshmOf h (a :: l) = a :: nonshmOf h l :=
  filter_cons_of_pos hgo

theorem nonshmOf_cons_of_neg (hstay : nonshm (h.cell a) = false) :
    nonshmOf h (a :: l) = nonshmOf h l :=
  filter_cons_of_neg (by simp [hstay])

theorem shmOf_cons_of_pos (hgo : nonshm (h.cell a) = true) : shmOf h (a :: l) = shmOf h l :=
  filter_cons_of_neg (by simp [hgo])

theorem shmOf_cons_of_neg (hstay : nonshm (h.cell a) = false) : shmOf h (a :: l) = a :: shmOf h l :=
  filter_cons_of_pos (by simp [hstay])

section

variable (hsame : ∀ a ∈ l, h₁.cell a = h.cell a)
include hsame

theorem shmOf_congr : shmOf h₁ l = shmOf h l :=
  filter_congr fun a ha => by rw [hsame a ha]

theorem nonshmOf_congr : nonshmOf h₁ l = nonshmOf h l :=
  filter_congr fun a ha => by rw [hsame a ha]

theorem withText_list_congr : l.flatMap (withText h₁) = l.flatMap (withText h) := by
  rw [flatMap_def, flatMap_def]
  congr 1
  exact map_congr_left fun a ha => withText_congr (hsame a ha)

theorem nonshm_texts_congr : (nonshmOf h₁ l).flatMap (withText h₁) =
      (nonshmOf h l).flatMap (withText h) := by
  rw [nonshmOf_congr hsame]
  exact withText_list_congr fun a ha => hsame a (mem_of_mem_filter ha)

end

/-- A chain behind the lump `prev`, all of whose blocks are in use; what goes
may be freed. -/
structure ChainOk (h : LumpHeap) (prev : ℕ) (l : List ℕ) : Prop where
  live : ∀ b ∈ l.flatMap (withText h), b ∈ h.allocated
  nodup : (l.flatMap (withText h)).Nodup
  prevLive : prev ∈ h.allocated
  notMem : prev ∉ l.flatMap (withText h)
  may : ∀ a ∈ l, nonshm (h.cell a) = true → mayFree (h.cell a)

/-- What a walk along a chain has done. -/
structure DelsChain (dir : LumpDir) (h h₁ : LumpHeap) (prev : ℕ)
    (l : List ℕ) : Prop where
  prunes : Prunes h h₁ (prev :: l) ((nonshmOf h l).flatMap (withText h))
  chain : h₁.Chain dir.link (dir.link (h₁.cell prev)) (shmOf h l)
  links : ∀ a, a ∉ (nonshmOf h l).flatMap (withText h) → ∀ d, d ≠ dir →
    d.link (h₁.cell a) = d.link (h.cell a)

theorem LumpDir.link_set_of_ne {d dir : LumpDir} (hd : d ≠ dir)
    (c : LumpNode) (v : Option ℕ) : d.link (dir.set c v) = d.link c := by
  cases d <;> cases dir <;> first | rfl | exact absurd rfl hd

theorem nonshmOf_subset (h : LumpHeap) (l : List ℕ) : ∀ b ∈ (nonshmOf h l).flatMap (withText h),
      b ∈ l.flatMap (withText h) := by
  intro b hb
  obtain ⟨a, ha, hb⟩ := mem_flatMap.mp hb
  exact mem_flatMap.mpr ⟨a, mem_of_mem_filter ha, hb⟩

theorem write_link {dir : LumpDir} {q : ℕ} {v : Option ℕ} (hq : q ∈ h.allocated) :
    ∃ h₁, h.write q (dir.set (h.cell q) v) = .ok h₁ ∧
      Prunes h h₁ [q] [] ∧ h₁.cell q = dir.set (h.cell q) v ∧
      ∀ a, a ≠ q → h₁.cell a = h.cell a := by
  have hsame : ∀ a, a ≠ q → Function.update h.cell q (dir.set (h.cell q) v) a = h.cell a :=
    fun a ha => Function.update_of_ne ha _ _
  have hself : Function.update h.cell q (dir.set (h.cell q) v) q =
      dir.set (h.cell q) v := Function.update_self q _ _
  refine ⟨_, write_live hq _, ⟨nodup_nil, by simp, by simp, ?_, ?_⟩, hself, hsame⟩
  · intro a _
    by_cases ha : a = q
    · subst ha
      exact (congrArg _ hself).trans (LumpDir.content_set _ _ _)
    · exact congrArg _ (hsame a ha)
  · exact fun a ha _ => hsame a fun heq => ha (mem_singleton.mpr heq)

theorem delChainLoop_dels {dir : LumpDir} {fuel prev : ℕ} {p : Option ℕ} (hc : h.Chain dir.link p l)
    (hprev : dir.link (h.cell prev) = p) (hok : ChainOk h prev l)
    (hfuel : l.length ≤ fuel) :
    ∃ h₁, delChainLoop dir fuel h prev p = .ok h₁ ∧
      DelsChain dir h h₁ prev l := by
  induction l generalizing h fuel prev p with
  | nil =>
    obtain rfl : p = none := hc
    refine ⟨h, ?_, (Prunes.of_shrinks (Heap.Shrinks.refl h)).mono (by simp),
      hprev, fun _ _ _ _ => rfl⟩
    cases fuel <;> rfl
  | cons foo l ih =>
    obtain ⟨rfl, hrest⟩ := hc
    obtain ⟨fuel, rfl⟩ : ∃ n, fuel = n + 1 := by
      rw [length_cons] at hfuel
      exact ⟨fuel - 1, by omega⟩
    have hfuel' : l.length ≤ fuel := by simpa using hfuel
    obtain ⟨hlive, hnodup, hprevlive, hnotmem, hmay⟩ := hok
    rw [flatMap_cons] at hlive hnodup hnotmem
    have hnodup' := List.nodup_append.mp hnodup
    rw [mem_append, not_or] at hnotmem
    have hfoo : foo ∈ withText h foo := mem_cons_self
    have hfoolive := hlive foo (mem_append_left _ hfoo)
    have hnode : ∀ a ∈ l, a ∈ l.flatMap (withText h) := fun a ha =>
      mem_flatMap.mpr ⟨a, ha, mem_cons_self⟩
    rw [delChainLoop, read_live hfoolive]
    cases hgo : nonshm (h.cell foo) with
    | true =>
      have hne : foo ≠ prev := fun heq => hnotmem.1 (heq ▸ hfoo)
      obtain ⟨h', hwrite, hp', hprev', hsame'⟩ :=
        @write_link _ dir _ (dir.link (h.cell foo)) hprevlive
      obtain ⟨h'', hfreed, hs⟩ := freeWhole_disposes hnodup'.1 (hmay foo mem_cons_self hgo) h'
        (fun b hb => by
          obtain rfl := mem_singleton.mp hb
          exact hsame' b hne)
        (fun b hb => by
          obtain rfl := mem_singleton.mp hb
          exact (hp'.mem b).mpr ⟨hfoolive, not_mem_nil⟩)
        (fun b hb => (hp'.mem b).mpr ⟨hlive b (mem_append_left _ hb), not_mem_nil⟩)
      have hsame : ∀ a ∈ l, h''.cell a = h.cell a := by
        intro a ha
        have hnot : a ∉ withText h foo := fun hin =>
          hnodup'.2.2 a hin a (hnode a ha) rfl
        rw [hs.same a hnot]
        exact hsame' a fun heq => hnotmem.2 (heq ▸ hnode a ha)
      have htexts := withText_list_congr hsame
      have hkeep : ∀ b, b ∈ h.allocated → b ∉ withText h foo → b ∈ h''.allocated := fun b hb hnot =>
        (hs.mem b).mpr ⟨(hp'.mem b).mpr ⟨hb, not_mem_nil⟩, hnot⟩
      have hprev'' : h''.cell prev = dir.set (h.cell prev) (dir.link (h.cell foo)) :=
        (hs.same prev hnotmem.1).trans hprev'
      obtain ⟨h₁, hrun, hp, hchain, hlinks⟩ := ih (Heap.Chain.congr hrest hsame)
        (by rw [hprev'', LumpDir.link_set])
        ⟨by
          rw [htexts]
          exact fun b hb => hkeep b (hlive b (mem_append_right _ hb))
            fun hin => hnodup'.2.2 b hin b hb rfl,
          htexts.symm ▸ hnodup'.2.1, hkeep prev hprevlive hnotmem.1,
          htexts.symm ▸ hnotmem.2,
          fun a ha => hsame a ha ▸ hmay a (mem_cons_of_mem _ ha)⟩ hfuel'
      rw [nonshm_texts_congr hsame] at hp hlinks
      rw [shmOf_congr hsame] at hchain
      refine ⟨h₁, ?_, ?_, ?_, ?_⟩
      · simp only [bind, Except.bind, hgo, if_true, read_live hprevlive, hwrite, hfreed, hrun]
      · rw [nonshmOf_cons_of_pos hgo, flatMap_cons]
        have hall := (hp'.trans (Prunes.of_shrinks hs)).trans hp
        rw [nil_append] at hall
        exact hall.mono (by simp)
      · rw [shmOf_cons_of_pos hgo]
        exact hchain
      · rw [nonshmOf_cons_of_pos hgo, flatMap_cons]
        intro a ha d hd
        rw [mem_append, not_or] at ha
        rw [hlinks a ha.2 d hd, hs.same a ha.1]
        by_cases hprevq : a = prev
        · subst hprevq
          rw [hprev', LumpDir.link_set_of_ne hd]
        · rw [hsame' a hprevq]
    | false =>
      obtain ⟨h₁, hrun, hp, hchain, hlinks⟩ := ih hrest rfl
        ⟨fun b hb => hlive b (mem_append_right _ hb), hnodup'.2.1,
          hfoolive, fun hin => hnodup'.2.2 foo hfoo foo hin rfl,
          fun a ha => hmay a (mem_cons_of_mem _ ha)⟩ hfuel'
      have hprev₁ : h₁.cell prev = h.cell prev := by
        refine hp.same prev ?_ fun hin =>
          hnotmem.2 (nonshmOf_subset h l prev hin)
        rw [mem_cons, not_or]
        exact ⟨fun heq => hnotmem.1 (heq ▸ hfoo), fun hin => hnotmem.2 (hnode prev hin)⟩
      refine ⟨h₁, ?_, ?_, ?_, ?_⟩
      · simp only [bind, Except.bind, hgo, Bool.false_eq_true, if_false, hrun]
      · rw [nonshmOf_cons_of_neg hgo]
        exact hp.mono (subset_cons_self _ _)
      · rw [shmOf_cons_of_neg hgo, hprev₁, hprev]
        exact ⟨rfl, hchain⟩
      · rw [nonshmOf_cons_of_neg hgo]
        exact hlinks

theorem delChain_dels {dir : LumpDir} {l : List ℕ}
    (hc : h.Chain dir.link (dir.link (h.cell a)) l) (hok : ChainOk h a l) :
    ∃ h₁, delChain dir h a = .ok h₁ ∧ DelsChain dir h h₁ a l := by
  have hlen : l.length ≤ h.allocated.card :=
    hc.length_le fun b hb =>
      hok.live b (mem_flatMap.mpr ⟨b, hb, mem_cons_self⟩)
  obtain ⟨h₁, hrun, hdels⟩ := delChainLoop_dels hc rfl hok hlen
  refine ⟨h₁, ?_, hdels⟩
  rw [delChain, read_live hok.prevLive]
  exact hrun

theorem shmOf_subset (h : LumpHeap) (l : List ℕ) : shmOf h l ⊆ l :=
  fun _ ha => mem_of_mem_filter ha

/-- A lump that stays keeps the lumps of its chains that are in shared
memory. -/
theorem delVisit_dels (he : EntryOk delMay h e) : ∃ h₁, delVisit h e.addr = .ok h₁ ∧
      Prunes h h₁ e.nodes ((nonshmOf h e.after).flatMap (withText h) ++
        (nonshmOf h e.before).flatMap (withText h)) ∧
      HoldsChains h₁ (delKeep h e) ∧
      (h₁.cell e.addr).next = (h.cell e.addr).next := by
  have hlive := he.live
  have hnodup := he.nodup
  have hmay : ∀ a ∈ e.nodes, nonshm (h.cell a) = true → mayFree (h.cell a) :=
    fun a ha hgo => he.may a ha (Or.inr hgo)
  rw [LumpEntry.blocks, LumpEntry.nodes, flatMap_cons, flatMap_append] at hlive hnodup
  change (withText h e.addr ++ (e.before.flatMap (withText h) ++
    e.after.flatMap (withText h))).Nodup at hnodup
  change ∀ b ∈ withText h e.addr ++ (e.before.flatMap (withText h) ++
    e.after.flatMap (withText h)), b ∈ h.allocated at hlive
  obtain ⟨-, hchains, haddr⟩ := List.nodup_append.mp hnodup
  obtain ⟨hbefore, hafter, hdisj⟩ := List.nodup_append.mp hchains
  have hself : e.addr ∈ withText h e.addr := mem_cons_self
  have hin : ∀ {l : List ℕ} {a}, a ∈ l → a ∈ l.flatMap (withText h) :=
    fun ha => mem_flatMap.mpr ⟨_, ha, mem_cons_self⟩
  have haddrb : e.addr ∉ e.before.flatMap (withText h) := fun hb =>
    haddr _ hself _ (mem_append_left _ hb) rfl
  have haddra : e.addr ∉ e.after.flatMap (withText h) := fun ha =>
    haddr _ hself _ (mem_append_right _ ha) rfl
  obtain ⟨h₁, hrun₁, hdels₁⟩ := @delChain_dels _ _ .after _ he.chains.after
    ⟨fun b hb => hlive b (by simp [hb]), hafter, hlive _ (by simp [hself]),
      haddra, fun a ha => hmay a (LumpEntry.after_mem ha)⟩
  -- the chain in front is as it was
  have hnot₁ : ∀ b, b ∉ e.after.flatMap (withText h) →
      b ∉ (nonshmOf h e.after).flatMap (withText h) :=
    fun b hb hgone => hb (nonshmOf_subset h e.after b hgone)
  have hkeep₁ : ∀ b, b ∈ h.allocated → b ∉ e.after.flatMap (withText h) →
      b ∈ h₁.allocated := fun b hb hnot =>
    (hdels₁.prunes.mem b).mpr ⟨hb, hnot₁ b hnot⟩
  have hsame₁ : ∀ a ∈ e.before, h₁.cell a = h.cell a := by
    intro a ha
    have hnot : a ∉ e.after.flatMap (withText h) := fun hb =>
      hdisj a (hin ha) a hb rfl
    refine hdels₁.prunes.same a ?_ (hnot₁ a hnot)
    rw [mem_cons, not_or]
    exact ⟨fun heq => haddrb (heq ▸ hin ha), fun hb => hnot (hin hb)⟩
  have hlink₁ : ∀ d, d ≠ LumpDir.after → d.link (h₁.cell e.addr) = d.link (h.cell e.addr) :=
    hdels₁.links e.addr (hnot₁ _ haddra)
  have htexts := withText_list_congr hsame₁
  obtain ⟨h₂, hrun₂, hdels₂⟩ := @delChain_dels h₁ e.addr .before e.before (by
      rw [hlink₁ .before (by decide)]
      exact he.chains.before.congr hsame₁)
    ⟨by
      rw [htexts]
      exact fun b hb => hkeep₁ b (hlive b (by simp [hb])) fun ha => hdisj b hb b ha rfl,
      htexts.symm ▸ hbefore, hkeep₁ _ (hlive _ (by simp [hself])) haddra,
      htexts.symm ▸ haddrb, fun a ha => hsame₁ a ha ▸ hmay a (LumpEntry.before_mem ha)⟩
  obtain ⟨hp₂, hchain₂, hlinks₂⟩ := hdels₂
  rw [nonshm_texts_congr hsame₁] at hp₂ hlinks₂
  rw [shmOf_congr hsame₁] at hchain₂
  have hnot₂ : ∀ b, b ∉ e.before.flatMap (withText h) →
      b ∉ (nonshmOf h e.before).flatMap (withText h) :=
    fun b hb hgone => hb (nonshmOf_subset h e.before b hgone)
  have hlink₂ := hlinks₂ e.addr (hnot₂ _ haddrb)
  refine ⟨h₂, ?_, ?_, ⟨hchain₂, ?_⟩, ?_⟩
  · simp only [delVisit, hrun₁, hrun₂, bind, Except.bind]
  · refine (hdels₁.prunes.trans hp₂).mono ?_
    intro a ha
    simp only [mem_append, mem_cons] at ha
    rw [LumpEntry.nodes, mem_cons, mem_append]
    tauto
  · have hafter₂ : (h₂.cell e.addr).after = (h₁.cell e.addr).after :=
      hlink₂ .after (by decide)
    have hkept : h₂.Chain LumpNode.after (h₂.cell e.addr).after (shmOf h e.after) := by
      rw [hafter₂]
      refine Heap.Chain.congr hdels₁.chain fun a ha => ?_
      have ha := shmOf_subset h e.after ha
      have hnot : a ∉ e.before.flatMap (withText h) := fun hb =>
        hdisj a hb a (hin ha) rfl
      refine hp₂.same a ?_ (hnot₂ a hnot)
      rw [mem_cons, not_or]
      exact ⟨fun heq => haddra (heq ▸ hin ha), fun hb => hnot (hin hb)⟩
    exact hkept
  · have hnext₁ : (h₁.cell e.addr).next = (h.cell e.addr).next :=
      hlink₁ .next (by decide)
    have hnext₂ : (h₂.cell e.addr).next = (h₁.cell e.addr).next :=
      hlink₂ .next (by decide)
    exact hnext₂.trans hnext₁

theorem delFreed_kept (hstay : nonshm (h.cell e.addr) = false) :
    delFreed h e = (nonshmOf h e.after).flatMap (withText h) ++
      (nonshmOf h e.before).flatMap (withText h) := by
  rw [delFreed, hstay]
  rfl

theorem mem_delFreed {b : ℕ} (hstay : nonshm (h.cell e.addr) = false) (hb : b ∈ delFreed h e) :
    ∃ x ∈ e.before ++ e.after, nonshm (h.cell x) = true ∧ b ∈ withText h x := by
  rw [delFreed_kept hstay, mem_append] at hb
  rcases hb with hb | hb <;> obtain ⟨x, hx, hb⟩ := mem_flatMap.mp hb <;>
    obtain ⟨hx, hgo⟩ := mem_filter.mp hx
  · exact ⟨x, mem_append_right _ hx, hgo, hb⟩
  · exact ⟨x, mem_append_left _ hx, hgo, hb⟩

theorem del_steps : PruneSteps delMay nonshm delRemove delVisit delKeep delFreed where
  freed_sub := by
    intro h e b hb
    cases hgo : nonshm (h.cell e.addr) with
    | true =>
      rw [delFreed, hgo] at hb
      exact hb
    | false =>
      obtain ⟨x, hx, -, hb⟩ := mem_delFreed hgo hb
      exact mem_flatMap.mpr ⟨x, mem_cons_of_mem _ hx, hb⟩
  freed_congr := by
    intro h h₁ e hsame
    have hbefore : ∀ a ∈ e.before, h₁.cell a = h.cell a :=
      fun a ha => hsame a (LumpEntry.before_mem ha)
    have hafter : ∀ a ∈ e.after, h₁.cell a = h.cell a :=
      fun a ha => hsame a (LumpEntry.after_mem ha)
    rw [delFreed, delFreed, hsame e.addr e.addr_mem,
      LumpEntry.blocks_congr fun a ha => congrArg _ (hsame a ha),
      nonshm_texts_congr hbefore, nonshm_texts_congr hafter]
  keep_congr := by
    intro h h₁ e hsame
    rw [delKeep, delKeep, shmOf_congr fun a ha => hsame a (LumpEntry.before_mem ha),
      shmOf_congr fun a ha => hsame a (LumpEntry.after_mem ha)]
  keep_addr := fun _ _ => rfl
  keep_sub := by
    intro h e
    exact (filter_sublist.append filter_sublist).cons_cons e.addr
  keep_freed := by
    intro h e he hstay a ha hin
    obtain ⟨x, hx, hgo, hax⟩ := mem_delFreed hstay hin
    have hkept : nonshm (h.cell a) = false := by
      rcases mem_cons.mp ha with rfl | ha
      · exact hstay
      · rcases mem_append.mp ha with ha | ha
        · simpa using (mem_filter.mp ha).2
        · simpa using (mem_filter.mp ha).2
    have hnode : a ∈ e.nodes := by
      rcases mem_cons.mp ha with rfl | ha
      · exact e.addr_mem
      · refine mem_cons_of_mem _ ?_
        rcases mem_append.mp ha with ha | ha
        · exact mem_append_left _ (shmOf_subset h _ ha)
        · exact mem_append_right _ (shmOf_subset h _ ha)
    have hne : x ≠ a := by
      rintro rfl
      rw [hkept] at hgo
      exact absurd hgo (by decide)
    exact @not_mem_own (withText h) _ he.nodup
      (fun y _ => mem_cons_self) x (mem_cons_of_mem _ hx) a hnode hne
      hax
  remove := by
    intro h e head slot he hgo hslot
    rw [delFreed, if_pos hgo]
    exact delRemove_shrinks head slot he (fun a ha => he.may a ha (Or.inl hgo)) hslot
  visit := by
    intro h e he hstay
    rw [delFreed_kept hstay]
    exact delVisit_dels he

/-- `del_nonshm_lump` leaves exactly the lumps in shared memory, and
`free_via_clen_lump` takes out exactly the Via and Content-Length lumps. -/
theorem lumps_taken_out {p : Option ℕ} {l : List LumpEntry} (hl : HoldsLumps h p l) :
    (ListOk delMay h l → ∃ h₁ r, delNonshmLump h p = .ok (h₁, r) ∧
        HoldsLumps h₁ r (keepList nonshm delKeep h l) ∧
        view h₁ (keepList nonshm delKeep h l) = view h (keepList nonshm delKeep h l) ∧
        Prunes h h₁ (nodesOf l) (l.flatMap (delFreed h))) ∧
    (ListOk (fun _ _ => True) h l → ∃ h₁ r, freeViaClenLump h p = .ok (h₁, r) ∧
        HoldsLumps h₁ r (l.filter fun e => !viaClen (h.cell e.addr)) ∧
        view h₁ (l.filter fun e => !viaClen (h.cell e.addr)) =
          view h (l.filter fun e => !viaClen (h.cell e.addr)) ∧
        Prunes h h₁ (nodesOf l) (l.flatMap (viaFreed h))) := by
  refine ⟨fun hok => del_steps.pruneList_whole hl hok, fun hok => ?_⟩
  have hkeep : keepList viaClen (fun _ e => e) h l =
      l.filter fun e => !viaClen (h.cell e.addr) := List.map_id _
  rw [← hkeep]
  exact via_steps.pruneList_whole hl hok

end

/-- A header from shared memory at the block 1, with an own addition in front
of it at 2, and behind it an own Via at 3; the texts are the blocks 8 and 9. -/
def ownAdditions : LumpHeap where
  calls := 0
  allocated := {1, 2, 3, 8, 9}
  cell := fun a =>
    if a = 1 then ⟨4, .add, .value (some 70), 5, some 2, none, some 3, .shmem⟩
    else if a = 2 then ⟨0, .add, .value (some 8), 6, none, none, none, .none⟩
    else ⟨1, .add, .value (some 9), 7, none, none, none, .none⟩

theorem holds_ownAdditions : HoldsLumps ownAdditions (some 1) [⟨1, [2], []⟩, ⟨3, [], []⟩] where
  next := ⟨rfl, rfl, rfl⟩
  chains := by
    intro e he
    rcases mem_pair.mp he with rfl | rfl
    · exact ⟨⟨rfl, rfl⟩, rfl⟩
    · exact ⟨rfl, rfl⟩
  live := by decide
  nodup := by decide

theorem listOk_ownAdditions : ListOk delMay ownAdditions [⟨1, [2], []⟩, ⟨3, [], []⟩] where
  entries := by
    intro e he
    refine ⟨holds_ownAdditions.chains e he, ?_, ?_, ?_⟩ <;> rcases mem_pair.mp he with rfl | rfl <;>
      first | decide | (unfold delMay mayFree; decide)
  nodup := by decide

theorem lumps_taken_out_own : (∃ h₁ r, delNonshmLump ownAdditions (some 1) = .ok (h₁, r) ∧
      HoldsLumps h₁ r [⟨1, [], []⟩]) ∧
    ∃ h₁ r, freeViaClenLump ownAdditions (some 1) = .ok (h₁, r) ∧
      HoldsLumps h₁ r [⟨1, [2], []⟩] := by
  obtain ⟨hdel, hvia⟩ := lumps_taken_out holds_ownAdditions
  obtain ⟨h₁, r, hrun, hholds, -⟩ := hdel listOk_ownAdditions
  obtain ⟨h₂, r', hrun', hholds', -⟩ :=
    hvia (listOk_ownAdditions.mono fun _ _ _ => trivial)
  exact ⟨⟨h₁, r, hrun, hholds⟩, h₂, r', hrun', hholds'⟩

/-- A lump that is flagged as a copy. -/
def dupedHeap : LumpHeap where
  calls := 0
  allocated := {1, 9}
  cell := fun _ => ⟨0, .add, .value (some 9), 5, none, none, none, .duped⟩

/-- A copy does not go quietly: `free_lump` aborts. -/
theorem delNonshm_aborts : HoldsLumps dupedHeap (some 1) [⟨1, [], []⟩] ∧
      delNonshmLump dupedHeap (some 1) = .error .abort := by
  refine ⟨⟨⟨rfl, rfl⟩, ?_, by decide, by decide⟩, by rfl⟩
  intro e he
  obtain rfl := mem_singleton.mp he
  exact ⟨rfl, rfl⟩

end Msicp.Lumps
