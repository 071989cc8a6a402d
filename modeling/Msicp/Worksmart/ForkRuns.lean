import Msicp.Worksmart.ForkCount

/-!
# Runs of a nested hunt group

As long as the segment is there, the books are kept and some request is under
way; once the segment has been removed in an orderly run, every leaf range has
been processed and nothing more happens to the group.
-/

namespace Msicp.Worksmart

open Option

open Support (Span Machine)

variable {m n : ℤ}

/-- The segment is there and something is under way. -/
def Group.Live (m n : ℤ) (s : Group) : Prop :=
  s.sent ≠ [] ∧ ∃ seg, s.seg = some seg ∧ Books m n s.sent s.handled s.forked seg

/-- The segment has been removed behind the last leaf range. -/
def Group.Done (m n : ℤ) (s : Group) : Prop :=
  s.seg = none ∧ (∀ r, IsLeaf m n r → r ∈ s.forked) ∧ s.forked.Nodup

variable {s s' : Group} {r : Span}

theorem Group.IsNew.live (hs : s.IsNew n) (hn : 0 < n) :
    s.Live m n := by
  obtain ⟨seg, hseg, hcount, hzero⟩ := hs.seg
  refine ⟨by simp [hs.sent], seg, hseg, ?_⟩
  rw [hs.sent, hs.handled, hs.forked]
  have hempty : ∀ {i : ℤ} {mark : ℤ}, 0 ≤ i → i < n → mark ≠ 0 → seg.processed i ≠ mark := by
    intro i mark h1 h2 hmark
    rw [hzero i h1 h2]
    exact hmark.symm
  exact {
    cover := by simp
    arises := by
      intro r hr
      obtain rfl : r = rootUri n := by simpa using hr
      exact ⟨.root, hn.le⟩
    processed := by simp
    root := by simp
    closed := by simp
    count := .inr (.inr ⟨hcount, rfl⟩)
    startMarks := fun i h1 h2 hi => absurd hi (hempty h1 h2 (by decide))
    endMarks := fun i h1 h2 hi => absurd hi (hempty h1 h2 (by decide))
    marked := by simp
    singles := by
      intro a ha b hb hsingle hnext
      obtain rfl : a = rootUri n := by simpa using ha
      obtain rfl : b = rootUri n := by simpa using hb
      simp only [rootUri] at hnext
      omega }

theorem Group.Done.handle (hs : s.Done m n) (h : s.handle m r = some s') : s'.Done m n := by
  obtain ⟨hseg, hleaf, hnodup⟩ := hs
  obtain ⟨hd, -, rfl⟩ := map_eq_some_iff.mp h
  cases hd with
  | forked =>
    simp only [Group.createForkBranches, hseg]
    exact ⟨hseg, hleaf, hnodup⟩
  | generated g =>
    exact ⟨by simp [Group.generated, hseg], hleaf, hnodup⟩

theorem Group.Done.step {s s' : Group} {l : Arrival} (hs : s.Done m n)
    (h : s.step m l = some s') : s'.Done m n := by
  cases l with
  | deliver r =>
    simp only [Group.step] at h
    split at h
    · have hs' : Group.Done m n
          { s with sent := s.sent.erase r, handled := r :: s.handled } := hs
      exact hs'.handle h
    · cases h
  | redeliver r =>
    simp only [Group.step] at h
    split at h
    · exact hs.handle h
    · cases h

theorem filterMap_id_map_some {α : Type*} (l : List α) : (l.map some).filterMap id = l := by
  induction l with
  | nil => rfl
  | cons a l ih => simp

theorem Group.Live.deliver_long (hm : 2 ≤ m)
    (hnine : ∀ r, Arises m (rootUri n) r → m = 2 → r.size ≠ 9)
    (hs : s.Live m n) (hr : r ∈ s.sent) (hlong : m < r.size)
    (h : Group.handle m r
      { s with sent := s.sent.erase r, handled := r :: s.handled } = some s') :
    s'.Live m n := by
  obtain ⟨-, seg, hseg, hbooks⟩ := hs
  have harises := (hbooks.arises r (List.mem_append_left _ hr)).1
  obtain ⟨g, hg, hemitted, hcounted⟩ := handleFgrp_of_long hm
    r.size.toNat hlong (hnine r harises) (by omega)
  simp only [Group.handle, hg, map_some, some.injEq] at h
  subst h
  have hsplit := hbooks.split hm hnine hr hlong
  simp only [Group.generated, hseg, hemitted, hcounted, filterMap_id_map_some, map_some]
  exact ⟨by simp [parts_ne_nil hm hlong], _, rfl, hsplit⟩

theorem Group.Live.deliver_short (hm : 2 ≤ m) (hn : 0 < n)
    (hnine : ∀ r, Arises m (rootUri n) r → m = 2 → r.size ≠ 9)
    (hs : s.Live m n) (hr : r ∈ s.sent) (hshort : r.size ≤ m)
    (hok : (Arrival.deliver r).Orderly m n s)
    (h : Group.handle m r
      { s with sent := s.sent.erase r, handled := r :: s.handled } = some s') :
    s'.Live m n ∨ s'.Done m n := by
  obtain ⟨-, seg, hseg, hbooks⟩ := hs
  obtain ⟨hlisted, hlast⟩ := hok seg hseg
  have hfork := hbooks.fork hm hr hshort
  simp only [Group.handle, handleFgrp_of_short hshort, map_some,
    some.injEq, Group.createForkBranches, hseg,
    if_neg (hbooks.not_marked hn hr)] at h
  subst h
  rcases Int.lt_or_le 1 seg.count with hmore | hle
  · -- another leaf range is under way, so the segment stays
    left
    have hcount : ¬ (s.listed = true ∧ seg.count - 1 < 1) := by omega
    simp only [Group.updateShmid, if_neg hcount]
    refine ⟨?_, _, rfl, hfork⟩
    have hother : 1 < s.sent.countP (fun r => r.size ≤ m) := by
      rcases hbooks.count with hnil | hcount | ⟨hcount, -⟩
      · simp [hnil] at hr
      · omega
      · omega
    intro hnil
    have hnil : s.sent.erase r = [] := hnil
    have hlen := List.countP_le_length (p := fun r : Span => r.size ≤ m) (l := s.sent)
    have herase := List.length_erase_of_mem hr
    rw [hnil] at herase
    simp only [List.length_nil] at herase
    omega
  · right
    have hcount : s.listed = true ∧ seg.count - 1 < 1 := ⟨hlisted, by omega⟩
    have hsent : s.sent.erase r = [] := by
      rw [hlast hshort hle]
      simp
    simp only [Group.updateShmid, if_pos hcount]
    rw [hsent] at hfork
    exact ⟨rfl, fun r hr => hfork.leaf_mem_forked hm hnine hr,
      (List.nodup_append.mp hfork.separate.1).2.1⟩

theorem Group.Live.redeliver (hs : s.Live m n)
    (hr : r ∈ s.handled) (hok : (Arrival.redeliver r).Orderly m n s)
    (h : s.handle m r = some s') : s'.Live m n := by
  obtain ⟨hsent, seg, hseg, hbooks⟩ := hs
  obtain ⟨-, hshort, hsize, hlt⟩ := hok seg hseg
  have hforked := (hbooks.processed r).mpr ⟨hr, hshort⟩
  simp only [Group.handle, handleFgrp_of_short hshort, map_some,
    some.injEq, Group.createForkBranches, hseg,
    if_pos (hbooks.marked r hforked hsize hlt)] at h
  subst h
  exact ⟨hsent, seg, hseg, hbooks⟩

/-- In every state of an orderly run the segment is there exactly as long as
some leaf range has not been processed, and no leaf range has created its
branches twice. -/
theorem forkGroup_sound (m n : ℤ) (hm : 2 ≤ m) (hn : maxBranches < n)
    (hnine : ∀ r, Arises m (rootUri n) r → m = 2 → r.size ≠ 9) (s : Group)
    (hs : (forkGroup m n).ReachWhen (Arrival.Orderly m n) s) : s.Sound m n := by
  have hn0 : 0 < n := by
    unfold maxBranches at hn
    omega
  have hinv : s.Live m n ∨ s.Done m n := by
    refine hs.invariant (fun s => s.Live m n ∨ s.Done m n)
      (fun s hs => .inl (Group.IsNew.live hs hn0)) ?_
    rintro l s s' (hs | hs) hok hstep
    · have hstep : s.step m l = some s' := hstep
      cases l with
      | deliver r =>
        simp only [Group.step] at hstep
        split at hstep
        · rename_i hr
          rcases Int.lt_or_le m r.size with hlong | hshort
          · exact .inl (hs.deliver_long hm hnine hr hlong hstep)
          · exact hs.deliver_short hm hn0 hnine hr hshort hok hstep
        · cases hstep
      | redeliver r =>
        simp only [Group.step] at hstep
        split at hstep
        · rename_i hr
          exact .inl (hs.redeliver hr hok hstep)
        · cases hstep
    · exact .inr (hs.step hstep)
  rcases hinv with ⟨hsent, seg, hseg, hbooks⟩ | ⟨hseg, hleaf, hnodup⟩
  · refine ⟨fun hnone => ?_, fun hall => ?_, ?_⟩
    · rw [hseg] at hnone
      cases hnone
    · obtain ⟨r, hr⟩ := List.exists_mem_of_ne_nil _ hsent
      obtain ⟨p, hp, hnot⟩ := hbooks.exists_leaf_not_forked hm hnine hr
      exact absurd (hall p hp) hnot
    · exact (List.nodup_append.mp hbooks.separate.1).2.1
  · exact ⟨fun _ => hleaf, fun _ => hseg, hnodup⟩

/-! ## A group of 31 members -/

/-- A segment without marks. -/
def unmarked (count : ℤ) : Segment := ⟨count, fun _ => 0⟩

/-- A group with the given requests. -/
def groupOf (seg : Segment) (sent handled forked : List Span) : Group where
  seg := some seg
  listed := true
  sent := sent
  handled := handled
  forked := forked

/-- A new group of `n` members. -/
abbrev newGroup (n : ℤ) : Group := groupOf (unmarked 0) [rootUri n] [] []

theorem isNew_newGroup (n : ℤ) : (newGroup n).IsNew n :=
  ⟨⟨_, rfl, rfl, fun _ _ _ => rfl⟩, rfl, rfl, rfl⟩

/-- With `m` at its default the root request splits into two leaf ranges.  The
second one is processed, and its request arrives again. -/
theorem sound_31 : (groupOf ((unmarked 2).mark ⟨20, 31⟩).discount [⟨0, 19⟩]
      [⟨20, 31⟩, rootUri 31] [⟨20, 31⟩]).Sound 20 31 := by
  have h0 : (forkGroup 20 31).ReachWhen (Arrival.Orderly 20 31) (newGroup 31) :=
    .init (isNew_newGroup 31)
  have h1 : (forkGroup 20 31).ReachWhen (Arrival.Orderly 20 31)
      (groupOf (unmarked 2) [⟨0, 19⟩, ⟨20, 31⟩] [rootUri 31] []) :=
    .step (l := .deliver (rootUri 31)) h0
      (fun seg hseg => ⟨rfl, fun hle => absurd hle (by decide)⟩) rfl
  have h2 : (forkGroup 20 31).ReachWhen (Arrival.Orderly 20 31)
      (groupOf ((unmarked 2).mark ⟨20, 31⟩).discount [⟨0, 19⟩] [⟨20, 31⟩, rootUri 31] [⟨20, 31⟩]) :=
    .step (l := .deliver ⟨20, 31⟩) h1 (fun seg hseg => ⟨rfl, fun _ hle => by
        obtain rfl := some.inj hseg
        exact absurd hle (by decide)⟩) rfl
  have h3 : (forkGroup 20 31).ReachWhen (Arrival.Orderly 20 31)
      (groupOf ((unmarked 2).mark ⟨20, 31⟩).discount [⟨0, 19⟩] [⟨20, 31⟩, rootUri 31] [⟨20, 31⟩]) :=
    .step (l := .redeliver ⟨20, 31⟩) h2 (fun seg hseg => ⟨rfl, by decide, by decide, by decide⟩) rfl
  exact forkGroup_sound 20 31 (by decide) (by decide) (fun r _ h2 => absurd h2 (by decide)) _ h3

/-- Of 31 members in ranges of three, eleven are split off as `fgrp-0-10`.  Its
last part is the only leaf range under way, and processing it removes the
segment although no other member has been rung. -/
theorem removed_too_early : ∃ s, (forkGroup 3 31).Reach s ∧ ¬ s.Sound 3 31 := by
  have hrun : ((forkGroup 3 31).run (newGroup 31)
      [.deliver (rootUri 31), .deliver ⟨0, 10⟩, .deliver ⟨8, 10⟩]).any
        (fun s => s.seg.isNone ∧ s.forked = [⟨8, 10⟩]) := by
    decide
  obtain ⟨s, hs, hearly⟩ := (Option.any_eq_true _ _).mp hrun
  obtain ⟨hseg, hforked⟩ := of_decide_eq_true hearly
  refine ⟨s, Machine.Reach.run (.init (isNew_newGroup 31)) _ hs, fun hsound => ?_⟩
  have hleaf : IsLeaf 3 31 ⟨0, 2⟩ := by
    refine ⟨?_, by decide⟩
    have h1 : Arises 3 (rootUri 31) ⟨0, 10⟩ :=
      Arises.root.part (by decide) (by decide) (by decide) (by decide)
    have h2 : Arises 3 (rootUri 31) ⟨0, 3⟩ :=
      h1.part (by decide) (by decide) (by decide) (by decide)
    exact h2.part (by decide) (by decide) (by decide) (by decide)
  have hmem := hsound.late (by simpa using hseg) _ hleaf
  rw [hforked] at hmem
  exact absurd hmem (by decide)

end Msicp.Worksmart
