import Msicp.Mem.FMalloc
import Msicp.Support.Tiling
import Mathlib.Data.List.Perm.Subperm

/-!
# The invariant of an `f_malloc` pool

Between calls, and with the fragments in the hands of the running call counted
as taken, the fragments tile the pool and the free lists hold exactly the
fragments that are not taken.
-/

namespace Msicp.Mem

open Msicp.Support List Function

namespace FmBlock

variable (qm : FmBlock)

/-- The bytes of a fragment: header and payload. -/
def extent (f : ℕ) : ℕ := fragOverhead + (qm.frag f).size

/-! ## What the stores change -/

variable (hash f n : ℕ) (v : Option ℕ)

@[simp] theorem size_setNxt (g : ℕ) (v : Option ℕ) :
    ((qm.setNxt f v).frag g).size = (qm.frag g).size := by
  by_cases hg : g = f
  · subst hg
    simp [setNxt]
  · simp [setNxt, update_of_ne hg]

@[simp] theorem nxtFree_setNxt_self : ((qm.setNxt f v).frag f).nxtFree = v := by
  simp [setNxt]

theorem nxtFree_setNxt_of_ne {f g : ℕ} (hg : g ≠ f) (v : Option ℕ) :
    ((qm.setNxt f v).frag g).nxtFree = (qm.frag g).nxtFree := by
  simp [setNxt, update_of_ne hg]

@[simp] theorem nxtFree_setSize (g n : ℕ) :
    ((qm.setSize f n).frag g).nxtFree = (qm.frag g).nxtFree := by
  by_cases hg : g = f
  · subst hg
    simp [setSize]
  · simp [setSize, update_of_ne hg]

@[simp] theorem size_setSize_self : ((qm.setSize f n).frag f).size = n := by
  simp [setSize]

theorem size_setSize_of_ne {f g : ℕ} (hg : g ≠ f) (n : ℕ) :
    ((qm.setSize f n).frag g).size = (qm.frag g).size := by
  simp [setSize, update_of_ne hg]

@[simp] theorem size_setSlot (g : ℕ) (slot v : Option ℕ) :
    ((qm.setSlot hash slot v).frag g).size = (qm.frag g).size := by
  cases slot with
  | none => rfl
  | some c => exact size_setNxt qm c g v

@[simp] theorem no_setSlot (hash' : ℕ) (slot v : Option ℕ) :
    ((qm.setSlot hash slot v).freeHash hash').no = (qm.freeHash hash').no := by
  cases slot with
  | none =>
    by_cases hh : hash' = hash
    · subst hh
      simp [setSlot, setFirst]
    · simp [setSlot, setFirst, update_of_ne hh]
  | some c => rfl

@[simp] theorem no_setNxt : ((qm.setNxt f v).freeHash hash).no = (qm.freeHash hash).no := rfl

@[simp] theorem frag_setNo : (qm.setNo hash n).frag = qm.frag := rfl

theorem setNxt_setNo (f : ℕ) (v : Option ℕ) :
    (qm.setNo hash n).setNxt f v = (qm.setNxt f v).setNo hash n := rfl

@[simp] theorem bucket_setNxt : (qm.setNxt f v).bucket hash = (qm.bucket hash).set (some f) v := by
  simp only [bucket, Links.set, setNxt, Links.mk.injEq, true_and]
  funext g
  by_cases hg : g = f
  · subst hg
    simp
  · simp [update_of_ne hg]

@[simp] theorem bucket_setSize : (qm.setSize f n).bucket hash = qm.bucket hash := by
  simp only [bucket, nxtFree_setSize]
  rfl

@[simp] theorem bucket_setNo (hash' n : ℕ) : (qm.setNo hash n).bucket hash' = qm.bucket hash' := by
  by_cases hh : hash' = hash
  · subst hh
    simp [bucket, setNo]
  · simp [bucket, setNo, update_of_ne hh]

theorem bucket_setSlot (slot v : Option ℕ) :
    (qm.setSlot hash slot v).bucket hash = (qm.bucket hash).set slot v := by
  cases slot with
  | none => simp [setSlot, setFirst, bucket, Links.set]
  | some c => exact bucket_setNxt qm hash c v

/-- Two pools with the same layout: they differ in links and counters only. -/
structure SameShape (qm qm' : FmBlock) : Prop where
  addr : qm'.addr = qm.addr
  poolSize : qm'.size = qm.size
  firstFrag : qm'.firstFrag = qm.firstFrag
  lastFrag : qm'.lastFrag = qm.lastFrag
  size : ∀ f, (qm'.frag f).size = (qm.frag f).size
  payload : qm'.payload = qm.payload

theorem SameShape.trans {qm qm' qm'' : FmBlock} (h : SameShape qm qm')
    (h' : SameShape qm' qm'') : SameShape qm qm'' where
  addr := h'.addr.trans h.addr
  poolSize := h'.poolSize.trans h.poolSize
  firstFrag := h'.firstFrag.trans h.firstFrag
  lastFrag := h'.lastFrag.trans h.lastFrag
  size f := (h'.size f).trans (h.size f)
  payload := h'.payload.trans h.payload

theorem sameShape_setNxt : SameShape qm (qm.setNxt f v) :=
  ⟨rfl, rfl, rfl, rfl, fun g => size_setNxt qm f g v, rfl⟩

theorem sameShape_setNo : SameShape qm (qm.setNo hash n) :=
  ⟨rfl, rfl, rfl, rfl, fun _ => rfl, rfl⟩

theorem sameShape_setSlot (slot v : Option ℕ) : SameShape qm (qm.setSlot hash slot v) := by
  cases slot with
  | none => exact ⟨rfl, rfl, rfl, rfl, fun _ => rfl, rfl⟩
  | some c => exact sameShape_setNxt qm c v

theorem holds_setSlot_of_ne {hash hash' : ℕ} {l l' : List ℕ}
    {slot v : Option ℕ} (hne : hash' ≠ hash)
    (h : (qm.bucket hash').Holds l') (hslot : ∀ c ∈ slot, c ∈ l)
    (hdisj : ∀ c ∈ l, c ∉ l') :
    ((qm.setSlot hash slot v).bucket hash').Holds l' := by
  cases slot with
  | none =>
    simpa [setSlot, setFirst, bucket, update_of_ne hne] using h
  | some c =>
    rw [setSlot, bucket_setNxt]
    exact h.set_some v (hdisj c (hslot c rfl))

end FmBlock

/-! ## The invariant -/

/-- The memory from `lo` to `hi` holds the pool; `fs` are its fragments in
address order, `lists` the free lists; the fragments in `taken` are on none of
them. -/
structure PoolInv (lo hi : ℕ) (qm : FmBlock) (taken : Finset ℕ) (fs : List ℕ)
    (lists : ℕ → List ℕ) : Prop where
  low : lo ≤ qm.addr
  high : qm.addr + qm.size ≤ hi
  bound : hi < 2 ^ 64
  block : qm.addr + sizeofBlock ≤ qm.firstFrag
  last : qm.lastFrag + fragOverhead = qm.addr + qm.size
  tiles : Tiles qm.extent qm.firstFrag fs (qm.addr + qm.size)
  taken_mem : ∀ f ∈ taken, f ∈ fs
  holds : ∀ hash < hashSize, (qm.bucket hash).Holds (lists hash)
  count : ∀ hash < hashSize, (qm.freeHash hash).no = (lists hash).length
  listed : ∀ hash < hashSize, ∀ f ∈ lists hash,
    f ∈ fs ∧ f ∉ taken ∧ getHash (qm.frag f).size = hash
  free_listed : ∀ f ∈ fs, f ∉ taken → f ∈ lists (getHash (qm.frag f).size)
  sorted : ∀ hash < hashSize, optimize / roundTo ≤ hash →
    (lists hash).Pairwise (fun f g => (qm.frag f).size ≤ (qm.frag g).size)

namespace PoolInv

variable {lo hi : ℕ} {qm : FmBlock} {taken : Finset ℕ} {fs : List ℕ}
  {lists : ℕ → List ℕ}

variable {f hash : ℕ} {l₁ l₂ : List ℕ}

section

variable (h : PoolInv lo hi qm taken fs lists)
include h

theorem frag_end_le (hf : f ∈ fs) : qm.addr + sizeofBlock ≤ f ∧
      f + fragOverhead + (qm.frag f).size ≤ qm.addr + qm.size := by
  obtain ⟨hlow, hhigh⟩ := h.tiles.mem_bounds hf
  have hblock := h.block
  simp only [FmBlock.extent] at hhigh
  omega

theorem size_lt (hf : f ∈ fs) : (qm.frag f).size < 2 ^ 64 := by
  have hbound := h.bound
  have hhigh := h.high
  have hend := (h.frag_end_le hf).2
  omega

theorem getHash_lt (hf : f ∈ fs) : getHash (qm.frag f).size < hashSize :=
  Mem.getHash_lt (h.size_lt hf)

theorem fs_nodup : fs.Nodup :=
  h.tiles.nodup (fun f _ => by simp [FmBlock.extent, fragOverhead])

theorem length_lt (hhash : hash < hashSize) : (lists hash).length < qm.size := by
  have hsub : (lists hash).length ≤ fs.length := by
    apply (subperm_of_subset (LinkSeg.nodup (h.holds hash hhash)) ?_).length_le
    intro f hf
    exact (h.listed hash hhash f hf).1
  have hfs : qm.firstFrag + fragOverhead * fs.length ≤ qm.addr + qm.size :=
    h.tiles.mul_length_le (fun f _ => by simp [FmBlock.extent])
  have hblock := h.block
  simp only [fragOverhead, sizeofBlock] at hfs hblock
  omega

theorem walkBucket_eq (hhash : hash < hashSize) (stop : ℕ → Bool) :
    ∃ l₁ l₂, lists hash = l₁ ++ l₂ ∧ (∀ f ∈ l₁, stop f = false) ∧ (∀ f ∈ l₂.head?, stop f = true) ∧
      qm.walkBucket hash stop = some (l₁.getLast?, l₂.head?) := by
  obtain ⟨l₁, l₂, hl, h₁, h₂, hwalk⟩ :=
    @walk_of_linkChain ℕ (qm.bucket hash).next stop (lists hash) qm.size none
      (qm.bucket hash).first (h.holds hash hhash) (h.length_lt hhash).le
  refine ⟨l₁, l₂, hl, h₁, h₂, ?_⟩
  simpa [FmBlock.walkBucket] using hwalk

theorem lists_disjoint {hash' : ℕ} (hhash : hash < hashSize) (hhash' : hash' < hashSize)
    (hne : hash' ≠ hash) (hf : f ∈ lists hash) :
    f ∉ lists hash' := by
  intro hf'
  have h₁ := (h.listed hash hhash f hf).2.2
  have h₂ := (h.listed hash' hhash' f hf').2.2
  exact hne (h₂.symm.trans h₁)

/-- The link of a taken fragment is of no consequence. -/
theorem setNxt (hf : f ∈ taken) (v : Option ℕ) : PoolInv lo hi (qm.setNxt f v) taken fs lists where
  low := h.low
  high := h.high
  bound := h.bound
  block := h.block
  last := h.last
  tiles := h.tiles.congr (fun g _ => by simp [FmBlock.extent])
  taken_mem := h.taken_mem
  holds := by
    intro hash hhash
    rw [FmBlock.bucket_setNxt]
    apply (h.holds hash hhash).set_some
    intro hmem
    exact (h.listed hash hhash f hmem).2.1 hf
  count := h.count
  listed := by simpa using h.listed
  free_listed := by simpa using h.free_listed
  sorted := by simpa using h.sorted

/-- Replacing the list of one bucket by `l`: only that bucket's part of the
invariant is at stake. -/
theorem relist {qm' : FmBlock}
    {taken' : Finset ℕ} {l : List ℕ}
    (hshape : FmBlock.SameShape qm qm')
    (hholds : (qm'.bucket hash).Holds l)
    (hcount : (qm'.freeHash hash).no = l.length)
    (hother : ∀ hash' < hashSize, hash' ≠ hash → (qm'.bucket hash').Holds (lists hash') ∧
        (qm'.freeHash hash').no = (qm.freeHash hash').no)
    (htaken : ∀ f ∈ taken', f ∈ fs)
    (htaken_other : ∀ f ∈ fs, getHash (qm.frag f).size ≠ hash → (f ∈ taken' ↔ f ∈ taken))
    (hlisted : ∀ f ∈ l, f ∈ fs ∧ f ∉ taken' ∧ getHash (qm.frag f).size = hash)
    (hfree : ∀ f ∈ fs, f ∉ taken' → getHash (qm.frag f).size = hash → f ∈ l)
    (hsorted : optimize / roundTo ≤ hash →
      l.Pairwise (fun f g => (qm.frag f).size ≤ (qm.frag g).size)) :
    PoolInv lo hi qm' taken' fs (Function.update lists hash l) := by
  refine
    { low := by rw [hshape.addr]; exact h.low
      high := by rw [hshape.addr, hshape.poolSize]; exact h.high
      bound := h.bound
      block := by rw [hshape.addr, hshape.firstFrag]; exact h.block
      last := by
        rw [hshape.lastFrag, hshape.addr, hshape.poolSize]
        exact h.last
      tiles := ?_
      taken_mem := htaken
      holds := ?_
      count := ?_
      listed := ?_
      free_listed := ?_
      sorted := ?_ }
  · rw [hshape.firstFrag, hshape.addr, hshape.poolSize]
    exact h.tiles.congr (fun g _ => by simp only [FmBlock.extent, hshape.size])
  · intro hash' hhash'
    by_cases hne : hash' = hash
    · subst hne
      rwa [update_self]
    · rw [update_of_ne hne]
      exact (hother hash' hhash' hne).1
  · intro hash' hhash'
    by_cases hne : hash' = hash
    · subst hne
      rwa [update_self]
    · rw [update_of_ne hne, (hother hash' hhash' hne).2]
      exact h.count hash' hhash'
  · intro hash' hhash' f hf
    rw [hshape.size]
    by_cases hne : hash' = hash
    · subst hne
      rw [update_self] at hf
      exact hlisted f hf
    · rw [update_of_ne hne] at hf
      obtain ⟨hffs, hft, hfh⟩ := h.listed hash' hhash' f hf
      have hiff := htaken_other f hffs (by rwa [hfh])
      exact ⟨hffs, fun hmem => hft (hiff.mp hmem), hfh⟩
  · intro f hffs hft
    rw [hshape.size]
    by_cases hne : getHash (qm.frag f).size = hash
    · rw [hne, update_self]
      exact hfree f hffs hft hne
    · rw [update_of_ne hne]
      have hiff := htaken_other f hffs hne
      exact h.free_listed f hffs (fun hmem => hft (hiff.mpr hmem))
  · intro hash' hhash' hbig
    simp only [hshape.size]
    by_cases hne : hash' = hash
    · subst hne
      rw [update_self]
      exact hsorted hbig
    · rw [update_of_ne hne]
      exact h.sorted hash' hhash' hbig

theorem other_setSlot (hhash : hash < hashSize) (hl : lists hash = l₁ ++ l₂)
    (v : Option ℕ) (n : ℕ) (hash' : ℕ) (hhash' : hash' < hashSize)
    (hne : hash' ≠ hash) :
    (((qm.setSlot hash l₁.getLast? v).setNo hash n).bucket hash').Holds (lists hash') ∧
      (((qm.setSlot hash l₁.getLast? v).setNo hash n).freeHash hash').no =
        (qm.freeHash hash').no := by
  refine ⟨?_, ?_⟩
  · rw [FmBlock.bucket_setNo]
    refine qm.holds_setSlot_of_ne hne (h.holds hash' hhash') (l := lists hash) ?_ ?_
    · intro c hc
      rw [hl]
      exact mem_append_left _ (mem_of_getLast? hc)
    · intro c hc
      exact h.lists_disjoint hhash hhash' hne hc
  · have hkeep := qm.no_setSlot hash hash' l₁.getLast? v
    simp only [FmBlock.setNo, update_of_ne hne]
    exact hkeep

/-- Linking a taken fragment into its bucket, anywhere that keeps a big
bucket ascending. -/
theorem link (hf : f ∈ taken) (hhash : getHash (qm.frag f).size = hash) (hl : lists hash = l₁ ++ l₂)
    (hsorted : optimize / roundTo ≤ hash → (∀ g ∈ l₁, (qm.frag g).size ≤ (qm.frag f).size) ∧
      ∀ g ∈ l₂, (qm.frag f).size ≤ (qm.frag g).size) :
    PoolInv lo hi (((qm.setNxt f l₂.head?).setSlot hash l₁.getLast? (some f)).setNo hash
        (uadd 64 (qm.freeHash hash).no 1))
      (taken.erase f) fs (Function.update lists hash (l₁ ++ f :: l₂)) := by
  have hfs := h.taken_mem f hf
  have hlt : hash < hashSize := hhash ▸ h.getHash_lt hfs
  have hnot : f ∉ l₁ ++ l₂ := by
    intro hmem
    exact (h.listed hash hlt f (hl ▸ hmem)).2.1 hf
  have hcount : (qm.freeHash hash).no = (l₁ ++ l₂).length :=
    hl ▸ h.count hash hlt
  have hlen : (l₁ ++ l₂).length < qm.size := hl ▸ h.length_lt hlt
  have h' := h.setNxt hf l₂.head?
  apply h.relist
  · exact ((qm.sameShape_setNxt f _).trans (FmBlock.sameShape_setSlot _ hash _ _)).trans
      (FmBlock.sameShape_setNo _ hash _)
  · have hget : (qm.bucket hash).get l₁.getLast? = l₂.head? :=
      Links.get_getLast? (hl ▸ h.holds hash hlt)
    rw [FmBlock.bucket_setNo, FmBlock.bucket_setSlot, FmBlock.bucket_setNxt, ← hget]
    exact Links.holds_insert (hl ▸ h.holds hash hlt) hnot
  · have hbound := h.bound
    have hhigh := h.high
    rw [uadd_of_lt (by omega)]
    simp only [FmBlock.setNo, update_self, List.length_append, length_cons] at hcount ⊢
    omega
  · intro hash' hhash' hne
    exact h'.other_setSlot hlt hl (some f) _ hash' hhash' hne
  · intro g hg
    exact h.taken_mem g (Finset.mem_of_mem_erase hg)
  · intro g _ hne
    have hgf : g ≠ f := by
      rintro rfl
      exact hne hhash
    simp [hgf]
  · intro g hg
    have hg' : g = f ∨ g ∈ l₁ ++ l₂ := by
      simp only [mem_append, mem_cons] at hg ⊢
      tauto
    rcases hg' with rfl | hg'
    · exact ⟨hfs, by simp, hhash⟩
    · obtain ⟨hgfs, hgt, hgh⟩ := h.listed hash hlt g (hl ▸ hg')
      exact ⟨hgfs, fun hmem => hgt (Finset.mem_of_mem_erase hmem), hgh⟩
  · intro g hgfs hgt hgh
    by_cases hgf : g = f
    · simp [hgf]
    · have hg' := h.free_listed g hgfs (fun hmem => hgt (Finset.mem_erase.mpr ⟨hgf, hmem⟩))
      rw [hgh, hl] at hg'
      simp only [mem_append, mem_cons] at hg' ⊢
      tauto
  · intro hbig
    obtain ⟨hbefore, hafter⟩ := hsorted hbig
    obtain ⟨h₁, h₂, h₁₂⟩ :=
      pairwise_append.mp (hl ▸ h.sorted hash hlt hbig)
    refine pairwise_append.mpr ⟨h₁, pairwise_cons.mpr ⟨hafter, h₂⟩, ?_⟩
    intro x hx y hy
    rcases mem_cons.mp hy with rfl | hy
    · exact hbefore x hx
    · exact h₁₂ x hx y hy

/-- Unlinking a fragment from its bucket: it is taken from then on. -/
theorem unlink (hlt : hash < hashSize) (hl : lists hash = l₁ ++ f :: l₂) : PoolInv lo hi
      ((qm.setSlot hash l₁.getLast? (qm.frag f).nxtFree).setNo hash
        (usub 64 (qm.freeHash hash).no 1))
      (insert f taken) fs (Function.update lists hash (l₁ ++ l₂)) := by
  obtain ⟨hfs, hft, hfh⟩ := h.listed hash hlt f (by rw [hl]; simp)
  have hcount : (qm.freeHash hash).no = (l₁ ++ f :: l₂).length :=
    hl ▸ h.count hash hlt
  have hlen : (l₁ ++ f :: l₂).length < qm.size := hl ▸ h.length_lt hlt
  have hnodup : (l₁ ++ f :: l₂).Nodup :=
    hl ▸ LinkSeg.nodup (h.holds hash hlt)
  have hnot : f ∉ l₁ ++ l₂ := by
    have hcons : (f :: (l₁ ++ l₂)).Nodup :=
      perm_middle.nodup_iff.mp hnodup
    exact (nodup_cons.mp hcons).1
  apply h.relist
  · exact (qm.sameShape_setSlot hash _ _).trans (FmBlock.sameShape_setNo _ hash _)
  · rw [FmBlock.bucket_setNo, FmBlock.bucket_setSlot]
    exact Links.holds_remove (hl ▸ h.holds hash hlt)
  · have hbound := h.bound
    have hhigh := h.high
    simp only [List.length_append, length_cons] at hcount hlen
    rw [usub_of_le (by omega) (by omega)]
    simp only [FmBlock.setNo, update_self, List.length_append]
    omega
  · intro hash' hhash' hne
    exact h.other_setSlot hlt hl _ _ hash' hhash' hne
  · intro g hg
    rcases Finset.mem_insert.mp hg with rfl | hg
    · exact hfs
    · exact h.taken_mem g hg
  · intro g _ hne
    have hgf : g ≠ f := by
      rintro rfl
      exact hne hfh
    simp [hgf]
  · intro g hg
    have hgf : g ≠ f := fun hgf => hnot (hgf ▸ hg)
    obtain ⟨hgfs, hgt, hgh⟩ := h.listed hash hlt g (by
      rw [hl]
      simp only [mem_append, mem_cons] at hg ⊢
      tauto)
    exact ⟨hgfs, by simp [hgf, hgt], hgh⟩
  · intro g hgfs hgt hgh
    simp only [Finset.mem_insert, not_or] at hgt
    have hg' := h.free_listed g hgfs hgt.2
    rw [hgh, hl] at hg'
    simp only [mem_append, mem_cons] at hg' ⊢
    tauto
  · intro hbig
    have hsub : List.Sublist (l₁ ++ l₂) (l₁ ++ f :: l₂) :=
      List.Sublist.append_left (sublist_cons_self f l₂) l₁
    exact (hl ▸ h.sorted hash hlt hbig).sublist hsub

/-- Changing the layout around taken fragments: the free fragments, their
sizes and their lists stay. -/
theorem reshape {qm' : FmBlock}
    {taken' : Finset ℕ} {fs' : List ℕ}
    (haddr : qm'.addr = qm.addr) (hpool : qm'.size = qm.size)
    (hfirst : qm'.firstFrag = qm.firstFrag) (hlast : qm'.lastFrag = qm.lastFrag)
    (hhash : qm'.freeHash = qm.freeHash)
    (hnext : ∀ f, (qm'.frag f).nxtFree = (qm.frag f).nxtFree)
    (htiles : Tiles qm'.extent qm.firstFrag fs' (qm.addr + qm.size))
    (htaken : ∀ f ∈ taken', f ∈ fs')
    (hfree : ∀ f, f ∈ fs' ∧ f ∉ taken' ↔ f ∈ fs ∧ f ∉ taken)
    (hsize : ∀ f ∈ fs, f ∉ taken → (qm'.frag f).size = (qm.frag f).size) :
    PoolInv lo hi qm' taken' fs' lists := by
  have hbucket : ∀ hash, qm'.bucket hash = qm.bucket hash := by
    intro hash
    simp only [FmBlock.bucket, hhash, hnext]
  have hlsize : ∀ hash < hashSize, ∀ f ∈ lists hash, (qm'.frag f).size = (qm.frag f).size := by
    intro hash hlt f hf
    obtain ⟨hffs, hft, -⟩ := h.listed hash hlt f hf
    exact hsize f hffs hft
  refine
    { low := by rw [haddr]; exact h.low
      high := by rw [haddr, hpool]; exact h.high
      bound := h.bound
      block := by rw [haddr, hfirst]; exact h.block
      last := by rw [hlast, haddr, hpool]; exact h.last
      tiles := by rw [hfirst, haddr, hpool]; exact htiles
      taken_mem := htaken
      holds := ?_
      count := ?_
      listed := ?_
      free_listed := ?_
      sorted := ?_ }
  · intro hash hlt
    rw [hbucket]
    exact h.holds hash hlt
  · intro hash hlt
    rw [hhash]
    exact h.count hash hlt
  · intro hash hlt f hf
    obtain ⟨hffs, hft, hfh⟩ := h.listed hash hlt f hf
    obtain ⟨hffs', hft'⟩ := (hfree f).mpr ⟨hffs, hft⟩
    exact ⟨hffs', hft', by rwa [hsize f hffs hft]⟩
  · intro f hffs' hft'
    obtain ⟨hffs, hft⟩ := (hfree f).mp ⟨hffs', hft'⟩
    rw [hsize f hffs hft]
    exact h.free_listed f hffs hft
  · intro hash hlt hbig
    apply (h.sorted hash hlt hbig).imp_of_mem
    intro f g hf hg hfg
    rwa [hlsize hash hlt f hf, hlsize hash hlt g hg]

theorem nxtFree_setSlot (hlt : hash < hashSize) (hl : lists hash = l₁ ++ l₂)
    (v : Option ℕ) {g : ℕ} (hg : g ∈ taken) :
    ((qm.setSlot hash l₁.getLast? v).frag g).nxtFree = (qm.frag g).nxtFree := by
  cases hlast : l₁.getLast? with
  | none => rfl
  | some c =>
    have hc : c ∈ lists hash := by
      rw [hl]
      exact mem_append_left _ (mem_of_getLast? hlast)
    have hgc : g ≠ c := by
      rintro rfl
      exact (h.listed hash hlt g hc).2.1 hg
    exact qm.nxtFree_setNxt_of_ne hgc v

end

end PoolInv

end Msicp.Mem
