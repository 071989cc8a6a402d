import Msicp.Worksmart.ForkVisits

/-!
# Counting the leaf ranges of a nested hunt group

The requests under way and the ranges processed together make up the range of
the group.  The count of the segment is the number of leaf ranges under way, so
it comes to zero as soon as there is none, even if other requests under way
still have to be split.  In orderly runs that does not happen before the last
request.
-/

namespace Msicp.Worksmart

open List Function

open Support (Span size_of_mem_cut)

section Tree

variable {m n : ℤ} {r p : Span}

section

variable (hm : 2 ≤ m)
include hm

theorem mem_parts_of_generated (hnine : m = 2 → r.size ≠ 9)
    {fuel : ℕ} {g : Gen} (hg : handleFgrp m fuel r = some (.generated g))
    (hp : some p ∈ g.emitted) : m < r.size ∧ p ∈ parts m r := by
  have hlong : m < r.size := by
    by_contra hshort
    rw [handleFgrp_of_short (by omega)] at hg
    cases hg
  obtain ⟨g', hg', hemitted, -⟩ := handleFgrp_of_long hm
    (max fuel r.size.toNat) hlong hnine (by omega)
  have hsame := (handleFgrp_mono (le_max_left fuel r.size.toNat) hg).symm.trans hg'
  obtain rfl : g = g' := by simpa using hsame
  rw [hemitted] at hp
  exact ⟨hlong, by simpa using hp⟩

theorem Arises.part {root : Span} (hr : Arises m root r)
    (hlong : m < r.size) (hnine : m = 2 → r.size ≠ 9) (hp : p ∈ parts m r) :
    Arises m root p := by
  obtain ⟨g, hg, hemitted, -⟩ :=
    handleFgrp_of_long hm r.size.toNat hlong hnine (by omega)
  refine .split hr hg ?_
  rw [hemitted]
  exact List.mem_map_of_mem hp

theorem parts_ne_nil (hlong : m < r.size) : parts m r ≠ [] := by
  intro hnil
  have hmembers := flatMap_parts hm hlong
  have hstart : r.start ∈ r.members :=
    Span.mem_members.mpr ⟨le_rfl, by simp only [Span.size] at hlong; omega⟩
  rw [← hmembers, hnil] at hstart
  simp at hstart

/-- Every request that is not empty gives rise to a leaf range in its own. -/
theorem exists_leaf (hnine : ∀ r, Arises m (rootUri n) r → m = 2 → r.size ≠ 9) (k : ℕ)
    (hk : r.size ≤ k) (hr : Arises m (rootUri n) r) (hr0 : r.start ≤ r.stop) :
    ∃ p, IsLeaf m n p ∧ r.start ≤ p.start ∧ p.start ≤ p.stop ∧ p.stop ≤ r.stop := by
  induction k generalizing r with
  | zero =>
    simp only [Span.size] at hk
    omega
  | succ k ih =>
    rcases Int.lt_or_le m r.size with hlong | hshort
    · obtain ⟨q, hq⟩ := exists_mem_of_ne_nil _ (parts_ne_nil hm hlong)
      obtain ⟨h1, h2, h3, h4⟩ := bounds_of_mem_parts hm hlong hq
      obtain ⟨p, hp, h5, h6, h7⟩ := ih (r := q) (by push_cast at hk; omega)
        (hr.part hm hlong (hnine r hr) hq) h2
      exact ⟨p, hp, by omega, h6, by omega⟩
    · exact ⟨r, ⟨hr, hshort⟩, le_rfl, hr0, le_rfl⟩

theorem partSize_of_single (hlong : m < r.size) (hp : p ∈ parts m r) (hsingle : p.size = 1) :
    p.stop = r.stop ∧ partSize m r = m := by
  have hbounds := divUp_bounds (a := r.size) (m := m) (by omega) (by omega)
  have hsize : p.size = partSize m r ∨ _ := size_of_mem_cut (partSize_pos hm) hp
  rw [Int.toNat_of_nonneg (by omega)] at hsize
  rcases hsize with hsize | ⟨hstop, hsize⟩
  · unfold partSize at hsize
    split at hsize <;> omega
  · refine ⟨hstop, ?_⟩
    unfold partSize at hsize ⊢
    split at hsize
    · have hrest : r.size - (m - 1) * divUp r.size m ≤ p.size := hsize
      exfalso
      nlinarith [hbounds.2]
    · rename_i hle
      rw [if_neg hle]

end

end Tree

/-! ## The invariant -/

/-- The books of a group whose segment is `seg`. -/
structure Books (m n : ℤ) (sent handled forked : List Span) (seg : Segment) :
    Prop where
  cover : ((sent ++ forked).flatMap Span.members).Perm (rootUri n).members
  arises : ∀ r ∈ sent ++ handled, Arises m (rootUri n) r ∧ r.start ≤ r.stop
  processed : ∀ r, r ∈ forked ↔ r ∈ handled ∧ r.size ≤ m
  root : rootUri n ∈ sent ++ handled
  closed : ∀ r ∈ handled, m < r.size → ∀ p ∈ parts m r, p ∈ sent ++ handled
  count : sent = [] ∨ seg.count = sent.countP (fun r => r.size ≤ m) ∨
    (seg.count = 0 ∧ sent = [rootUri n])
  startMarks : ∀ i, 0 ≤ i → i < n → seg.processed i = startMark →
    ∃ f ∈ forked, f.start = i
  endMarks : ∀ i, 0 ≤ i → i < n → seg.processed i = endMark →
    ∃ f ∈ forked, f.stop - 1 = i
  marked : ∀ f ∈ forked, f.size ≠ 2 → f.start < n → seg.marked f
  singles : ∀ a ∈ sent ++ forked, ∀ b ∈ sent ++ forked, b.size = 1 →
    a.stop + 1 = b.start → a.size = m

namespace Books

variable {m n : ℤ} {sent handled forked : List Span} {seg : Segment}
  {r a b : Span}

section

variable (h : Books m n sent handled forked seg)
include h

theorem bounds (hr : r ∈ sent ++ forked) : r.start ≤ r.stop := by
  rcases mem_append.mp hr with hr | hr
  · exact (h.arises r (mem_append_left _ hr)).2
  · exact (h.arises r (mem_append_right _ ((h.processed r).mp hr).1)).2

theorem separate : (sent ++ forked).Nodup ∧ ∀ a ∈ sent ++ forked, ∀ b ∈ sent ++ forked, ∀ i,
      a.start ≤ i → i ≤ a.stop → b.start ≤ i → i ≤ b.stop → a = b :=
  Span.of_flatMap_nodup (fun _ hr => h.bounds hr) (h.cover.nodup_iff.mpr (rootUri n).members_nodup)

theorem inRange (hr : r ∈ sent ++ forked) : 0 ≤ r.start ∧ r.stop ≤ n := by
  have hbounds := h.bounds hr
  have hmem : ∀ i, r.start ≤ i → i ≤ r.stop → 0 ≤ i ∧ i ≤ n := by
    intro i h1 h2
    have hi := h.cover.mem_iff.mp (mem_flatMap.mpr ⟨r, hr, Span.mem_members.mpr ⟨h1, h2⟩⟩)
    exact Span.mem_members.mp hi
  exact ⟨(hmem r.start le_rfl hbounds).1, (hmem r.stop hbounds le_rfl).2⟩

theorem not_mem_forked (hr : r ∈ sent) : r ∉ forked := fun hf =>
  (List.nodup_append.mp h.separate.1).2.2 r hr r hf rfl

end

theorem not_marked (hn : 0 < n) (h : Books m n sent handled forked seg)
    (hr : r ∈ sent) : ¬ seg.marked r := by
  rintro ⟨hstart, hend⟩
  have hmem : r ∈ sent ++ forked := mem_append_left _ hr
  have hbounds := h.bounds hmem
  have hrange := h.inRange hmem
  have hnot := h.not_mem_forked hr
  rcases Int.lt_or_le r.start n with hlt | hge
  · obtain ⟨f, hf, hfstart⟩ := h.startMarks r.start hrange.1 hlt hstart
    have hfmem : f ∈ sent ++ forked := mem_append_right _ hf
    have hfbounds := h.bounds hfmem
    have hsame := h.separate.2 r hmem f hfmem r.start le_rfl hbounds (by omega) (by omega)
    exact hnot (hsame ▸ hf)
  · obtain ⟨f, hf, hfstop⟩ :=
      h.endMarks (r.stop - 1) (by omega) (by omega) hend
    have hfmem : f ∈ sent ++ forked := mem_append_right _ hf
    have hfbounds := h.bounds hfmem
    have hsame := h.separate.2 r hmem f hfmem r.stop hbounds le_rfl (by omega) (by omega)
    exact hnot (hsame ▸ hf)

theorem mem_erase_or {l : List Span} (hr : a ∈ l) : a = r ∨ a ∈ l.erase r := by
  by_cases hne : a = r
  · exact .inl hne
  · exact .inr ((mem_erase_of_ne hne).mpr hr)

section

variable (hm : 2 ≤ m)
include hm

theorem split (hnine : ∀ r, Arises m (rootUri n) r → m = 2 → r.size ≠ 9)
    (h : Books m n sent handled forked seg) (hr : r ∈ sent)
    (hlong : m < r.size) :
    Books m n (sent.erase r ++ parts m r) (r :: handled) forked
      { seg with
        count := seg.count + (parts m r).countP (fun p => p.size ≤ m) } where
  cover := by
    have hmembers := flatMap_parts hm hlong
    have hperm : (sent.flatMap Span.members).Perm
        (r.members ++ (sent.erase r).flatMap Span.members) := by
      rw [← flatMap_cons]
      exact (perm_cons_erase hr).flatMap_right _
    refine List.Perm.trans ?_ h.cover
    refine perm_iff_count.mpr fun i => ?_
    have hcount := hperm.count_eq i
    simp only [flatMap_append, count_append, hmembers] at hcount ⊢
    omega
  arises := by
    intro p hp
    have hrarises := h.arises r (mem_append_left _ hr)
    have hpart : ∀ p ∈ parts m r, Arises m (rootUri n) p ∧ p.start ≤ p.stop :=
      fun p hp => ⟨hrarises.1.part hm hlong (hnine r hrarises.1) hp,
        (bounds_of_mem_parts hm hlong hp).2.1⟩
    simp only [mem_append, mem_cons] at hp
    rcases hp with (hp | hp) | rfl | hp
    · exact h.arises p (mem_append_left _ (mem_of_mem_erase hp))
    · exact hpart p hp
    · exact hrarises
    · exact h.arises p (mem_append_right _ hp)
  processed := by
    intro f
    rw [h.processed f, mem_cons]
    constructor
    · exact fun hf => ⟨.inr hf.1, hf.2⟩
    · rintro ⟨rfl | hf, hle⟩
      · omega
      · exact ⟨hf, hle⟩
  root := by
    have hroot := h.root
    simp only [mem_append, mem_cons] at hroot ⊢
    rcases hroot with hroot | hroot
    · rcases mem_erase_or (r := r) hroot with heq | hroot
      · exact .inr (.inl heq)
      · exact .inl (.inl hroot)
    · exact .inr (.inr hroot)
  closed := by
    intro q hq hqlong p hp
    simp only [mem_append, mem_cons] at hq ⊢
    rcases hq with rfl | hq
    · exact .inl (.inr hp)
    · rcases mem_append.mp (h.closed q hq hqlong p hp) with hp | hp
      · rcases mem_erase_or (r := r) hp with heq | hp
        · exact .inr (.inl heq)
        · exact .inl (.inl hp)
      · exact .inr (.inr hp)
  count := by
    have hnot : ¬ r.size ≤ m := by omega
    refine .inr (.inl ?_)
    rw [countP_append]
    rcases h.count with rfl | hcount | ⟨hcount, hroot⟩
    · simp at hr
    · have herase := (perm_cons_erase hr).countP_eq (fun r => r.size ≤ m)
      rw [countP_cons_of_neg (by simpa using hnot)] at herase
      simp only [hcount, herase]
      push_cast
      rfl
    · rw [hroot] at hr ⊢
      obtain rfl := mem_singleton.mp hr
      simp [hcount]
  startMarks := h.startMarks
  endMarks := h.endMarks
  marked := h.marked
  singles := by
    have hrmem : r ∈ sent ++ forked := mem_append_left _ hr
    have hpart : ∀ a ∈ sent.erase r ++ parts m r ++ forked,
        a ∈ parts m r ∨ (a ∈ sent ++ forked ∧ a ≠ r) := by
      intro a ha
      have hnodup := (List.nodup_append.mp h.separate.1).1
      simp only [mem_append] at ha
      rcases ha with (ha | ha) | ha
      · refine .inr ⟨mem_append_left _ (mem_of_mem_erase ha), ?_⟩
        rintro rfl
        exact hnodup.not_mem_erase ha
      · exact .inl ha
      · refine .inr ⟨mem_append_right _ ha, ?_⟩
        rintro rfl
        exact h.not_mem_forked hr ha
    intro a ha b hb hsingle hnext
    rcases hpart b hb with hb | ⟨hb, hbr⟩
    · -- the last part; what stands before it is a part as well
      obtain ⟨hbstop, hm'⟩ := partSize_of_single hm hlong hb hsingle
      have hbb := bounds_of_mem_parts hm hlong hb
      rcases hpart a ha with ha | ⟨ha, har⟩
      · have hsize : a.size = partSize m r ∨ _ :=
          size_of_mem_cut (partSize_pos hm) ha
        rcases hsize with hsize | ⟨hstop, -⟩
        · exact hsize.trans hm'
        · omega
      · have hab := h.bounds ha
        have hin : r.start ≤ a.stop := by
          simp only [Span.size] at hsingle hlong
          omega
        exact absurd (h.separate.2 a ha r hrmem a.stop hab le_rfl hin (by omega)) har
    · rcases hpart a ha with ha | ⟨ha, har⟩
      · -- the part before `b` ends with the range, which would have `m` indices
        have hab := bounds_of_mem_parts hm hlong ha
        have hbb := h.bounds hb
        rcases Int.lt_or_le a.stop r.stop with hlt | hge
        · exact absurd (h.separate.2 b hb r hrmem b.start le_rfl hbb (by omega) (by omega)) hbr
        · have hsize := h.singles r hrmem b hb hsingle (by omega)
          omega
      · exact h.singles a ha b hb hsingle hnext

theorem not_single_of_next (h : Books m n sent handled forked seg)
    (ha : a ∈ sent ++ forked) (hb : b ∈ sent ++ forked)
    (hnext : a.stop + 1 = b.start) : ¬ (a.size = 1 ∧ b.size = 1) := by
  rintro ⟨hsize, hsingle⟩
  have := h.singles a ha b hb hsingle hnext
  omega

/-- The marks of a range are not touched when another one is processed. -/
theorem marked_of_ne (h : Books m n sent handled forked seg)
    (hr : r ∈ sent) (ha : a ∈ forked) (hmarked : seg.marked a) :
    (seg.mark r).marked a := by
  have hrmem : r ∈ sent ++ forked := mem_append_left _ hr
  have hamem : a ∈ sent ++ forked := mem_append_right _ ha
  have hrb := h.bounds hrmem
  have hab := h.bounds hamem
  have hne : a ≠ r := fun hne => h.not_mem_forked hr (hne ▸ ha)
  have hsep : ∀ i, a.start ≤ i → i ≤ a.stop → r.start ≤ i → i ≤ r.stop → False :=
    fun i h1 h2 h3 h4 => hne (h.separate.2 a hamem r hrmem i h1 h2 h3 h4)
  have hlow := h.not_single_of_next hm hamem hrmem
  have hhigh := h.not_single_of_next hm hrmem hamem
  simp only [Span.size] at hlow hhigh
  have hstart : a.start ≠ r.start := fun heq =>
    hsep a.start le_rfl hab (by omega) (by omega)
  have hstop : a.stop ≠ r.stop := fun heq =>
    hsep a.stop hab le_rfl (by omega) (by omega)
  -- a mark is written over only by a range of one index beside such a range
  have hover : a.start ≠ r.stop - 1 := fun heq => by
    rcases eq_or_lt_of_le hrb with hr1 | hr1
    · rcases eq_or_lt_of_le hab with ha1 | ha1
      · exact hlow (by omega) (by omega)
      · exact hsep (a.start + 1) (by omega) (by omega) (by omega) (by omega)
    · exact hsep a.start le_rfl hab (by omega) (by omega)
  have hunder : a.stop - 1 ≠ r.start := fun heq => by
    rcases eq_or_lt_of_le hab with ha1 | ha1
    · rcases eq_or_lt_of_le hrb with hr1 | hr1
      · exact hhigh (by omega) (by omega)
      · exact hsep (r.start + 1) (by omega) (by omega) (by omega) (by omega)
    · exact hsep r.start (by omega) (by omega) le_rfl hrb
  unfold Segment.marked Segment.mark at *
  dsimp only
  rw [update_of_ne hover, update_of_ne hstart, update_of_ne (by omega), update_of_ne hunder]
  exact hmarked

theorem fork (h : Books m n sent handled forked seg) (hr : r ∈ sent) (hshort : r.size ≤ m) :
    Books m n (sent.erase r) (r :: handled) (forked ++ [r]) (seg.mark r).discount where
  cover := by
    have hperm := (perm_cons_erase hr).flatMap_right Span.members
    refine List.Perm.trans ?_ h.cover
    refine perm_iff_count.mpr fun i => ?_
    have hcount := hperm.count_eq i
    simp only [flatMap_append, flatMap_cons, flatMap_nil, count_append, append_nil] at hcount ⊢
    omega
  arises := by
    intro p hp
    simp only [mem_append, mem_cons] at hp
    rcases hp with hp | rfl | hp
    · exact h.arises p (mem_append_left _ (mem_of_mem_erase hp))
    · exact h.arises p (mem_append_left _ hr)
    · exact h.arises p (mem_append_right _ hp)
  processed := by
    intro f
    simp only [mem_append, mem_cons, not_mem_nil, or_false, h.processed f]
    constructor
    · rintro (hf | rfl)
      · exact ⟨.inr hf.1, hf.2⟩
      · exact ⟨.inl rfl, hshort⟩
    · rintro ⟨rfl | hf, hle⟩
      · exact .inr rfl
      · exact .inl ⟨hf, hle⟩
  root := by
    have hroot := h.root
    simp only [mem_append, mem_cons] at hroot ⊢
    rcases hroot with hroot | hroot
    · exact (mem_erase_or (r := r) hroot).elim (fun heq => .inr (.inl heq)) .inl
    · exact .inr (.inr hroot)
  closed := by
    intro q hq hqlong p hp
    simp only [mem_append, mem_cons] at hq ⊢
    rcases hq with rfl | hq
    · omega
    · rcases mem_append.mp (h.closed q hq hqlong p hp) with hp | hp
      · exact (mem_erase_or (r := r) hp).elim (fun heq => .inr (.inl heq)) .inl
      · exact .inr (.inr hp)
  count := by
    rcases h.count with rfl | hcount | ⟨hcount, hroot⟩
    · simp at hr
    · have herase := (perm_cons_erase hr).countP_eq (fun r => r.size ≤ m)
      rw [countP_cons_of_pos (by simpa using hshort)] at herase
      refine .inr (.inl ?_)
      simp only [Segment.discount, Segment.mark, hcount, herase]
      push_cast
      omega
    · rw [hroot] at hr ⊢
      obtain rfl := mem_singleton.mp hr
      exact .inl (by simp)
  startMarks := by
    intro i h1 h2 hi
    simp only [Segment.discount, Segment.mark] at hi
    by_cases hend : i = r.stop - 1
    · rw [hend, update_self] at hi
      exact absurd hi (by decide)
    rw [update_of_ne hend] at hi
    by_cases hstart : i = r.start
    · exact ⟨r, by simp, hstart.symm⟩
    rw [update_of_ne hstart] at hi
    obtain ⟨f, hf, hfi⟩ := h.startMarks i h1 h2 hi
    exact ⟨f, mem_append_left _ hf, hfi⟩
  endMarks := by
    intro i h1 h2 hi
    simp only [Segment.discount, Segment.mark] at hi
    by_cases hend : i = r.stop - 1
    · exact ⟨r, by simp, hend.symm⟩
    rw [update_of_ne hend] at hi
    by_cases hstart : i = r.start
    · rw [hstart, update_self] at hi
      exact absurd hi (by decide)
    rw [update_of_ne hstart] at hi
    obtain ⟨f, hf, hfi⟩ := h.endMarks i h1 h2 hi
    exact ⟨f, mem_append_left _ hf, hfi⟩
  marked := by
    intro f hf hsize hlt
    rcases mem_append.mp hf with hf | hf
    · exact h.marked_of_ne hm hr hf (h.marked f hf hsize hlt)
    · obtain rfl := mem_singleton.mp hf
      have hne : f.start ≠ f.stop - 1 := by
        simp only [Span.size] at hsize
        omega
      constructor
      · simp only [Segment.discount, Segment.mark]
        rw [update_of_ne hne, update_self]
      · simp only [Segment.discount, Segment.mark]
        rw [update_self]
  singles := by
    have hback : ∀ a ∈ sent.erase r ++ (forked ++ [r]), a ∈ sent ++ forked := by
      intro a ha
      simp only [mem_append, mem_singleton] at ha ⊢
      rcases ha with ha | ha | rfl
      · exact .inl (mem_of_mem_erase ha)
      · exact .inr ha
      · exact .inl hr
    exact fun a ha b hb => h.singles a (hback a ha) b (hback b hb)

theorem leaf_mem_forked (hnine : ∀ r, Arises m (rootUri n) r → m = 2 → r.size ≠ 9)
    (h : Books m n [] handled forked seg) (hr : IsLeaf m n r) : r ∈ forked := by
  refine (h.processed r).mpr ⟨?_, hr.2⟩
  obtain ⟨harises, -⟩ := hr
  induction harises with
  | root => exact h.root
  | split harises hg hp ih =>
    obtain ⟨hlong, hpart⟩ :=
      mem_parts_of_generated hm (hnine _ harises) hg hp
    exact h.closed _ ih hlong _ hpart

theorem exists_leaf_not_forked (hnine : ∀ r, Arises m (rootUri n) r → m = 2 → r.size ≠ 9)
    (h : Books m n sent handled forked seg) (hr : r ∈ sent) :
    ∃ p, IsLeaf m n p ∧ p ∉ forked := by
  obtain ⟨harises, hr0⟩ := h.arises r (mem_append_left _ hr)
  obtain ⟨p, hp, h1, h2, h3⟩ :=
    exists_leaf (k := r.size.toNat) hm hnine (by omega) harises hr0
  refine ⟨p, hp, fun hf => ?_⟩
  have hsame := h.separate.2 p (mem_append_right _ hf) r
    (mem_append_left _ hr) p.start le_rfl h2 h1 (by omega)
  exact h.not_mem_forked hr (hsame ▸ hf)

end

end Books

end Msicp.Worksmart
