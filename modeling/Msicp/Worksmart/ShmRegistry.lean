import Mathlib.Data.Finset.Basic
import Mathlib.Data.List.Perm.Basic

/-!
# The registry of fork group segments

The slots behind `shmids_ptr` say which shared memory segments of fork groups
exist, so that they can be removed after a restart.  Calls of the kernel are
taken to be answered in any way that it may answer them.
-/

namespace Msicp.Worksmart.Shm

open List

/-! ## The slots -/

/-- `SHMIDS` -/
structure Shmids where
  shmid : ℤ
  insertTime : ℤ
  inUse : ℤ

/-- `select_shmid`.  As in the source, `shmid` is the global variable, the segment of the
server state, and not the parameter. -/
def selectShmid (shmid : ℤ) (list : List Shmids) (_shmId : ℤ) : ℤ :=
  if list.any fun x => x.shmid = shmid && x.inUse = 1 then 1 else 0

/-- `insert_shmid_shm`; the flag is that the missing slot is reported. -/
def insertShmidShm (shmId now : ℤ) : List Shmids → List Shmids × Bool
  | [] => ([], true)
  | x :: list =>
    if x.inUse = 0 then (⟨shmId, now, 1⟩ :: list, false)
    else
      let r := insertShmidShm shmId now list
      (x :: r.1, r.2)

/-- The loop that changes the first slot in use with an id; the flag is that there is one. -/
def atSlot (shmid : ℤ) (f : Shmids → Shmids) : List Shmids → List Shmids × Bool
  | [] => ([], false)
  | x :: list =>
    if x.shmid = shmid ∧ x.inUse = 1 then (f x :: list, true)
    else
      let r := atSlot shmid f list
      (x :: r.1, r.2)

/-- `update_shmid`; the flag is that the segment is removed. -/
def updateShmid (shmid nCount now : ℤ) (list : List Shmids) : List Shmids × Bool :=
  if nCount < 1 then atSlot shmid (fun _ => ⟨0, now, 0⟩) list
  else ((atSlot shmid (fun x => { x with insertTime := now }) list).1, false)

/-- The loop of `f_clear_forkgroup_shared_memory`; the flag is that the segment is
removed. -/
def clearLoop (shmid : ℤ) (list : List Shmids) : List Shmids × Bool :=
  atSlot shmid (fun x => ⟨0, x.insertTime, 0⟩) list

/-! ## Runs -/

/-- The slots, the fork group segments that exist, and those of them whose missing slot
was reported. -/
structure Registry where
  slots : List Shmids
  live : Finset ℤ
  failed : Finset ℤ

/-- A call; `got` is the answer of `shmget`. -/
inductive Op where
  | create (got : Option ℤ) (now : ℤ)
  | update (shmid nCount now : ℤ)
  | clear (nKey : ℤ) (got : Option ℤ)

namespace Registry

/-- The slots after a loop, and the segment removed if the loop did so. -/
def removed (s : Registry) (shmid : ℤ) (r : List Shmids × Bool) : Registry :=
  { s with slots := r.1, live := if r.2 then s.live.erase shmid else s.live }

/-- One call: the registration in `shm_create`, `update_shmid`, or
`f_clear_forkgroup_shared_memory`. -/
def step (shmid : ℤ) (s : Registry) : Op → Registry
  | .create none _ => s
  | .create (some id) now =>
    if selectShmid shmid s.slots id = 0 then
      let r := insertShmidShm id now s.slots
      { slots := r.1
        live := insert id s.live
        failed := if r.2 then insert id s.failed else s.failed }
    else { s with live := insert id s.live }
  | .update id nCount now => s.removed id (updateShmid id nCount now s.slots)
  | .clear nKey got =>
    if nKey = 0 then s
    else match got with
      | none => s
      | some id => s.removed id (clearLoop id s.slots)

/-- A new segment has an id of its own. -/
def Admits (shmid : ℤ) (s : Registry) : Op → Prop
  | .create (some id) _ => id ∉ s.live ∧ id ≠ shmid
  | _ => True

/-- The states of runs from `noofshmsegments` units that are empty. -/
inductive Reach (shmid noofshmsegments : ℤ) : Registry → Prop
  | init : Reach shmid noofshmsegments
      ⟨List.replicate (noofshmsegments - 2).toNat ⟨0, 0, 0⟩, ∅, ∅⟩
  | step {s : Registry} {op : Op} : Reach shmid noofshmsegments s → s.Admits shmid op →
      Reach shmid noofshmsegments (s.step shmid op)

end Registry

/-- The ids that slots in use hold. -/
def idsInUse (list : List Shmids) : List ℤ :=
  (list.filter fun x => x.inUse = 1).map Shmids.shmid

/-- What the registry is for, for the segment `id`. -/
structure Registry.Right (shmid : ℤ) (s : Registry) (id : ℤ) : Prop where
  select : selectShmid shmid s.slots id = 1 ↔ id ∈ idsInUse s.slots
  registered : id ∈ s.live → (idsInUse s.slots).count id = 1 ∨ id ∈ s.failed
  reported : ∀ now, id ∉ s.live → id ≠ shmid →
    (id ∈ (s.step shmid (.create (some id) now)).failed ↔ ∀ x ∈ s.slots, x.inUse ≠ 0)
  current : id ∈ idsInUse s.slots → id ∈ s.live

/-! ## The loops -/

section Loops

variable {shmid now id : ℤ} {x : Shmids} {list : List Shmids}

theorem idsInUse_cons (x : Shmids) (list : List Shmids) : idsInUse (x :: list) =
      if x.inUse = 1 then x.shmid :: idsInUse list else idsInUse list := by
  unfold idsInUse
  rw [filter_cons]
  by_cases h : x.inUse = 1
  · rw [if_pos h, if_pos (decide_eq_true h), map_cons]
  · rw [if_neg h, if_neg (by simpa using h)]

theorem mem_idsInUse : id ∈ idsInUse list ↔ ∃ x ∈ list, x.inUse = 1 ∧ x.shmid = id := by
  simp [idsInUse, and_assoc]

theorem selectShmid_eq : selectShmid shmid list id = 1 ↔ shmid ∈ idsInUse list := by
  unfold selectShmid
  rw [mem_idsInUse]
  simp [and_comm]

theorem insertShmidShm_cons : insertShmidShm id now (x :: list) =
    if x.inUse = 0 then (⟨id, now, 1⟩ :: list, false)
    else (x :: (insertShmidShm id now list).1, (insertShmidShm id now list).2) := rfl

theorem insertShmidShm_reports :
    (insertShmidShm id now list).2 = true ↔ ∀ x ∈ list, x.inUse ≠ 0 := by
  induction list with
  | nil => simp [insertShmidShm]
  | cons x list ih =>
    rw [insertShmidShm_cons]
    split_ifs with h
    · simp [h]
    · simp [h, ih]

theorem insertShmidShm_full (h : (insertShmidShm id now list).2 = true) :
    (insertShmidShm id now list).1 = list := by
  induction list with
  | nil => rfl
  | cons x list ih =>
    rw [insertShmidShm_cons] at h ⊢
    split_ifs at h ⊢
    · dsimp only at h ⊢
      rw [ih h]

theorem idsInUse_insert (h : (insertShmidShm id now list).2 = false) :
    (idsInUse (insertShmidShm id now list).1).Perm (id :: idsInUse list) := by
  induction list with
  | nil => cases h
  | cons x list ih =>
    rw [insertShmidShm_cons] at h ⊢
    split_ifs at h ⊢ with hfree
    · rw [idsInUse_cons, if_pos rfl, idsInUse_cons, if_neg (by rw [hfree]; decide)]
    · rw [idsInUse_cons, idsInUse_cons]
      split_ifs
      · exact ((ih h).cons x.shmid).trans (List.Perm.swap id x.shmid _)
      · exact ih h

/-- The flag of the loop, and what is left when the slot is given back. -/
theorem idsInUse_release {f : Shmids → Shmids} (hf : ∀ x, (f x).inUse = 0) :
    ((atSlot id f list).2 = true ↔ id ∈ idsInUse list) ∧
      idsInUse (atSlot id f list).1 = (idsInUse list).erase id := by
  induction list with
  | nil => simp [atSlot, idsInUse]
  | cons x list ih =>
    unfold atSlot
    split_ifs with h
    · have hfree : ¬(f x).inUse = 1 := by
        rw [hf x]
        decide
      rw [idsInUse_cons (f x), if_neg hfree, idsInUse_cons, if_pos h.2, h.1]
      simp
    · dsimp only
      rw [idsInUse_cons, idsInUse_cons]
      split_ifs with huse
      · have hne : x.shmid ≠ id := fun heq => h ⟨heq, huse⟩
        rw [erase_cons_tail (by simpa using hne), ih.2, ih.1, mem_cons]
        exact ⟨⟨Or.inr, fun hmem => hmem.resolve_left (Ne.symm hne)⟩, rfl⟩
      · exact ih

theorem idsInUse_touch {f : Shmids → Shmids}
    (hf : ∀ x, (f x).inUse = x.inUse ∧ (f x).shmid = x.shmid) :
    idsInUse (atSlot id f list).1 = idsInUse list := by
  induction list with
  | nil => rfl
  | cons x list ih =>
    unfold atSlot
    split_ifs
    · rw [idsInUse_cons, idsInUse_cons, (hf x).1, (hf x).2]
    · rw [idsInUse_cons, idsInUse_cons, ih]

end Loops

/-! ## The registry over runs -/

/-- The slots in use hold the registered segments, each once. -/
structure Registry.Inv (shmid : ℤ) (s : Registry) : Prop where
  other : shmid ∉ s.live
  once : (idsInUse s.slots).Nodup
  current : ∀ id ∈ idsInUse s.slots, id ∈ s.live
  registered : ∀ id ∈ s.live, id ∈ idsInUse s.slots ∨ id ∈ s.failed
  failed : s.failed ⊆ s.live
  apart : ∀ id ∈ idsInUse s.slots, id ∉ s.failed

namespace Registry

variable {shmid noofshmsegments id : ℤ} {s : Registry}

/-- The segment of the server state is never registered, so that the look-up finds
nothing. -/
theorem Inv.select (h : Inv shmid s) : selectShmid shmid s.slots id = 0 := by
  have hnot : ¬selectShmid shmid s.slots id = 1 := fun hone =>
    h.other (h.current _ (selectShmid_eq.mp hone))
  unfold selectShmid at hnot ⊢
  split_ifs at hnot ⊢
  · exact absurd rfl hnot
  · rfl

theorem Inv.release (h : Inv shmid s) {f : Shmids → Shmids} (hf : ∀ x, (f x).inUse = 0) :
    Inv shmid (s.removed id (atSlot id f s.slots)) := by
  obtain ⟨hflag, hids⟩ := @idsInUse_release id s.slots f hf
  by_cases hin : id ∈ idsInUse s.slots
  · rw [removed, if_pos (hflag.mpr hin)]
    have hmem : ∀ i, i ∈ idsInUse (atSlot id f s.slots).1 ↔ i ≠ id ∧ i ∈ idsInUse s.slots := by
      intro i
      rw [hids, h.once.mem_erase_iff]
    refine ⟨fun hmem => h.other (Finset.mem_of_mem_erase hmem), ?_, ?_, ?_, ?_, ?_⟩
    · rw [hids]
      exact h.once.erase id
    · intro i hi
      obtain ⟨hne, hi⟩ := (hmem i).mp hi
      exact Finset.mem_erase.mpr ⟨hne, h.current i hi⟩
    · intro i hi
      obtain ⟨hne, hi⟩ := Finset.mem_erase.mp hi
      exact (h.registered i hi).imp_left fun hin => (hmem i).mpr ⟨hne, hin⟩
    · intro i hi
      refine Finset.mem_erase.mpr ⟨?_, h.failed hi⟩
      rintro rfl
      exact h.apart i hin hi
    · exact fun i hi => h.apart i ((hmem i).mp hi).2
  · rw [removed, if_neg fun hbad => hin (hflag.mp hbad)]
    rw [erase_of_not_mem hin] at hids
    exact ⟨h.other, hids ▸ h.once, hids ▸ h.current, hids ▸ h.registered, h.failed, hids ▸ h.apart⟩

/-- A new segment takes a free slot, or none is free. -/
theorem Inv.create {now : ℤ} (h : Inv shmid s) (hnew : id ∉ s.live) (hid : id ≠ shmid) :
    Inv shmid (s.step shmid (.create (some id) now)) := by
  have hfresh : id ∉ idsInUse s.slots := fun hin => hnew (h.current id hin)
  simp only [step, if_pos h.select]
  have hother : shmid ∉ insert id s.live := by
    rw [Finset.mem_insert]
    exact fun hmem => hmem.elim (Ne.symm hid) h.other
  cases hfull : (insertShmidShm id now s.slots).2 with
  | true =>
    rw [insertShmidShm_full hfull, if_pos rfl]
    refine ⟨hother, h.once, fun i hi => Finset.mem_insert_of_mem (h.current i hi), ?_,
      Finset.insert_subset_insert id h.failed, ?_⟩
    · intro i hi
      rcases Finset.mem_insert.mp hi with rfl | hi
      · exact Or.inr (Finset.mem_insert_self i _)
      · exact (h.registered i hi).imp_right Finset.mem_insert_of_mem
    · intro i hi hmem
      rcases Finset.mem_insert.mp hmem with rfl | hmem
      · exact hfresh hi
      · exact h.apart i hi hmem
  | false =>
    have hperm := idsInUse_insert hfull
    rw [if_neg Bool.false_ne_true]
    refine ⟨hother, hperm.nodup_iff.mpr (nodup_cons.mpr ⟨hfresh, h.once⟩), ?_, ?_,
      h.failed.trans (Finset.subset_insert id _), ?_⟩
    · intro i hi
      rcases mem_cons.mp (hperm.mem_iff.mp hi) with rfl | hi
      · exact Finset.mem_insert_self i _
      · exact Finset.mem_insert_of_mem (h.current i hi)
    · intro i hi
      rcases Finset.mem_insert.mp hi with rfl | hi
      · exact Or.inl (hperm.mem_iff.mpr mem_cons_self)
      · exact (h.registered i hi).imp_left fun hin =>
          hperm.mem_iff.mpr (mem_cons_of_mem id hin)
    · intro i hi hmem
      rcases mem_cons.mp (hperm.mem_iff.mp hi) with rfl | hi
      · exact hnew (h.failed hmem)
      · exact h.apart i hi hmem

theorem Inv.step {op : Op} (h : Inv shmid s) (hop : s.Admits shmid op) :
    Inv shmid (s.step shmid op) := by
  cases op with
  | create got now =>
    cases got with
    | none => exact h
    | some id => exact h.create hop.1 hop.2
  | update id nCount now =>
    simp only [Registry.step, updateShmid]
    split_ifs with hcount
    · exact h.release fun _ => rfl
    · have hids := @idsInUse_touch id s.slots (fun x => { x with insertTime := now })
        fun _ => ⟨rfl, rfl⟩
      exact ⟨h.other, hids ▸ h.once, hids ▸ h.current, hids ▸ h.registered, h.failed,
        hids ▸ h.apart⟩
  | clear nKey got =>
    simp only [Registry.step]
    split_ifs
    · exact h
    · cases got with
      | none => exact h
      | some id => exact h.release fun _ => rfl

theorem Reach.inv (h : Reach shmid noofshmsegments s) : Inv shmid s := by
  induction h with
  | init =>
    have hids : ∀ n, idsInUse (List.replicate n ⟨0, 0, 0⟩) = [] := by
      intro n
      simp [idsInUse]
    exact ⟨by simp, by simp [hids], by simp [hids], by simp, by simp, by simp [hids]⟩
  | step _ hop ih => exact ih.step hop

/-- In every state reached everything is right but for the look-up of a segment that is
registered, which is not found. -/
theorem registry_right_iff (shmid noofshmsegments : ℤ) (s : Registry)
    (hreach : Reach shmid noofshmsegments s) (id : ℤ) :
    s.Right shmid id ↔ ∀ x ∈ s.slots, x.inUse = 1 → x.shmid ≠ id := by
  have h := hreach.inv
  have hmem : (∀ x ∈ s.slots, x.inUse = 1 → x.shmid ≠ id) ↔ id ∉ idsInUse s.slots := by
    rw [mem_idsInUse]
    simp
  have hselect : ¬selectShmid shmid s.slots id = 1 := by
    have hzero : selectShmid shmid s.slots id = 0 := h.select
    rw [hzero]
    decide
  rw [hmem]
  constructor
  · exact fun hright hin => hselect (hright.select.mpr hin)
  · intro hnot
    refine ⟨iff_of_false hselect hnot, fun hlive => ?_, fun now hnew hid => ?_, h.current id⟩
    · exact (h.registered id hlive).imp_left (count_eq_one_of_mem h.once)
    · have hfailed : id ∉ s.failed := fun hin => hnew (h.failed hin)
      have hzero : selectShmid shmid s.slots id = 0 := h.select
      rw [← @insertShmidShm_reports now id]
      simp only [Registry.step, if_pos hzero]
      cases (insertShmidShm id now s.slots).2 with
      | true => simp
      | false => simpa using hfailed

/-- One slot, and the segment 7 beside that of the server state, 3. -/
theorem registry_right_seven :
    ∃ s : Registry, Reach 3 3 s ∧ s.live = {7} ∧ s.Right 3 8 ∧ ¬s.Right 3 7 := by
  have hreach : Reach 3 3 _ :=
    @Reach.step _ _ _ (.create (some 7) 0) Reach.init ⟨by simp, by decide⟩
  refine ⟨_, hreach, rfl, ?_, fun h => ?_⟩
  · exact (registry_right_iff 3 3 _ hreach 8).mpr (by decide)
  · exact absurd (h.select.mpr (by decide)) (by decide)

theorem select_misses_registered :
    ∃ s : Registry, Reach 3 3 s ∧ 7 ∈ idsInUse s.slots ∧ selectShmid 3 s.slots 7 = 0 :=
  ⟨_, @Reach.step _ _ _ (.create (some 7) 0) Reach.init ⟨by simp, by decide⟩,
    by decide, by decide⟩

end Registry

end Msicp.Worksmart.Shm
