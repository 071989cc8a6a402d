import Msicp.Support.Spans
import Msicp.Support.Machine
import Mathlib.Tactic.Positivity

/-!
# Nested hunt groups (`worksmart.c`)

A hunt group with more members than a request may have branches is forked in
several requests.  The user part of their URIs is `fgrp-start-end-site-token`:
a worker that handles one either splits the range and emits a request for each
part, or rings the members of the range.

A `Span` stands for such a URI; site and token are those of the group.  URIs
are taken to fit the buffers that they are printed to, and branches to be added
as long as some are emitted.
-/

namespace Msicp.Worksmart

open Support (Span cut)

def maxBranches : ℤ := 30

/-- What the generation of requests reads and changes: the buffer `uri`, which
is empty at first, `*nAppend`, and the emitted URIs and the calls of
`UpdateShmCounter` so far. -/
structure Gen where
  uri : Option Span := none
  append : ℕ := 0
  emitted : List (Option Span) := []
  counted : ℕ := 0

/-- `append_forkeduri`: the first URI becomes that of the request, the others
become branches. -/
def Gen.appendForkeduri (st : Gen) : Gen :=
  { st with
    append := if st.append = 0 then st.append + 1 else st.append
    emitted := st.emitted ++ [st.uri] }

/-- `UpdateShmCounter`, unless the range is too long or has no URI. -/
def Gen.updateShmCounter (m : ℤ) (r : Span) (st : Gen) : Gen :=
  if r.stop - r.start < m ∧ st.uri.isSome then
    { st with counted := st.counted + 1 }
  else st

/-- A quotient rounded up, as the code computes it. -/
def divUp (a m : ℤ) : ℤ :=
  a.tdiv m + if 0 < a.tmod m then 1 else 0

/-- The loop of `generate_forkgroup`, with `k` rounds left. -/
def generateGroups (generate : Span → Gen → Option Gen) (chunk nEnd : ℤ) : ℕ → ℤ → Gen → Option Gen
  | 0, _, st => some st
  | k + 1, nNewEnd, st =>
    if nNewEnd < nEnd then
      let nNewStart := nNewEnd + 1
      let nNewEnd := nNewStart + chunk - 1
      let nNewEnd := if nEnd < nNewEnd then nEnd else nNewEnd
      let r : Span := ⟨nNewStart, nNewEnd⟩
      (generate r { st with uri := some r }).bind
        (generateGroups generate chunk nEnd k nNewEnd)
    else some st

/-- `generate_forkgroup`; `none` means that it has not returned within `fuel`
nested calls. -/
def generateForkgroup (m nPrevSize : ℤ) : ℕ → ℤ → Span → Gen → Option Gen
  | 0, _, _, _ => none
  | fuel + 1, nVal, r, st =>
    let nSize := r.stop - r.start + 1
    let nDiff := nPrevSize - nSize
    if m < nSize then
      let nGroups := divUp nSize m
      let chunk := if m < nGroups then nGroups else m
      if nDiff < m ∧ st.uri.isSome then
        generateGroups (generateForkgroup m nPrevSize fuel 1) chunk r.stop
          m.toNat (r.start - 1) (st.updateShmCounter m r).appendForkeduri
      else
        generateGroups (generateForkgroup m nPrevSize fuel nVal) chunk r.stop
          m.toNat (r.start - 1) st
    else if nVal = 0 then
      some (st.updateShmCounter m r).appendForkeduri
    else some st

/-- What handling a `fgrp` request comes to. -/
inductive Handling
  | generated (g : Gen)
  | forked

/-- The case `FGRP` of `worksmart_get_dialplan2`. -/
def handleFgrp (m : ℤ) (fuel : ℕ) (r : Span) : Option Handling :=
  let nDiff := r.stop - r.start
  if m ≤ nDiff then
    (generateForkgroup m (divUp nDiff m) fuel 0 r {}).map .generated
  else some .forked

/-- The indices over which `create_fork_branches` loops. -/
def forkedIndices (r : Span) : List ℤ := r.members

/-- The URI that `process_nested_forking` emits for `nRows` members. -/
def rootUri (nRows : ℤ) : Span := ⟨0, nRows⟩

/-- The member indices visited by handling a request and every request that it
gives rise to; `none` means that this has not ended within `fuel` rounds. -/
def visited (m : ℤ) : ℕ → Span → Option (List ℤ)
  | 0, _ => none
  | fuel + 1, r =>
    (handleFgrp m (fuel + 1) r).bind fun
      | .forked => some (forkedIndices r)
      | .generated g =>
        (g.emitted.mapM fun uri =>
          match uri with
          | some r => visited m fuel r
          | none => some []).map List.flatten

/-- `Arises m r r'`: handling the request for `r` gives rise, in the end, to
the request for `r'`. -/
inductive Arises (m : ℤ) (r : Span) : Span → Prop
  | root : Arises m r r
  | split {r' r'' : Span} {fuel : ℕ} {g : Gen} (h : Arises m r r')
      (hsplit : handleFgrp m fuel r' = some (.generated g))
      (hr : some r'' ∈ g.emitted) : Arises m r r''

/-- A group of `n` members is rung as it should be: the recursion ends, no
run of `generate_forkgroup` emits more than `m` branches, and every member is
visited once. -/
structure RingsEveryMember (m n : ℤ) : Prop where
  ends : ∃ fuel, (visited m fuel (rootUri n)).isSome
  branches : ∀ r, Arises m (rootUri n) r → ∀ fuel g,
    handleFgrp m fuel r = some (.generated g) → (g.emitted.length : ℤ) ≤ m
  members : ∀ fuel indices, visited m fuel (rootUri n) = some indices →
    indices.Perm (⟨0, n - 1⟩ : Span).members

end Msicp.Worksmart

/-!
## The shared segment of a nested hunt group (`worksmart.c`)

The members of a group are kept in a shared segment, which the last leaf range
to be processed removes: `generate_forkgroup` counts the leaf ranges that it
emits, `create_fork_branches` discounts the one that it processes.  Two marks
at the ends of a range tell a range that has been processed already.

A step handles one request, which is under way or has been handled before.
`sent`, `handled` and `forked` record the requests that are under way, those
that have been handled, and the ranges whose branches were created, in this
order; nothing reads them but the choice of the next request.  The marks of an
index behind the group lie in the array behind `nProcessed`, where anything may
be found.
-/

namespace Msicp.Worksmart

open Support (Span Machine)
open Function (update)

/-- `nCount` and `nProcessed` of the segment. -/
structure Segment where
  count : ℤ
  processed : ℤ → ℤ

/-- A group: its segment until that is removed, and whether the segment is in
the table of segments, from which it is removed. -/
structure Group where
  seg : Option Segment
  listed : Bool
  sent : List Span
  handled : List Span
  forked : List Span

/-- The mark at the start of a range. -/
def startMark : ℤ := 0xA

/-- The mark before the end of a range. -/
def endMark : ℤ := 0x38

def Group.updateShmid (s : Group) (count : ℤ) : Group :=
  if s.listed ∧ count < 1 then { s with seg := none, listed := false } else s

/-- Both marks of a range are there. -/
def Segment.marked (seg : Segment) (r : Span) : Prop :=
  seg.processed r.start = startMark ∧ seg.processed (r.stop - 1) = endMark

instance (seg : Segment) (r : Span) : Decidable (seg.marked r) :=
  inferInstanceAs (Decidable (_ ∧ _))

/-- The segment with both marks of a range set. -/
def Segment.mark (seg : Segment) (r : Span) : Segment :=
  { seg with
    processed :=
      update (update seg.processed r.start startMark) (r.stop - 1) endMark }

/-- `nCount--` -/
def Segment.discount (seg : Segment) : Segment :=
  { seg with count := seg.count - 1 }

/-- `create_fork_branches` on the range `r`. -/
def Group.createForkBranches (s : Group) (r : Span) : Group :=
  match s.seg with
  | none => s
  | some seg =>
    if seg.marked r then s
    else
      { s with
        seg := some (seg.mark r).discount
        forked := s.forked ++ [r] }.updateShmid (seg.count - 1)

/-- What `generate_forkgroup` emits is sent, and the segment, unless it has
been removed, counts the calls of `UpdateShmCounter`. -/
def Group.generated (s : Group) (g : Gen) : Group :=
  { s with
    seg := s.seg.map fun seg => { seg with count := seg.count + g.counted }
    sent := s.sent ++ g.emitted.filterMap id }

/-- Handling the request for `r`. -/
def Group.handle (m : ℤ) (r : Span) (s : Group) : Option Group :=
  (handleFgrp m r.size.toNat r).map fun
    | .forked => s.createForkBranches r
    | .generated g => s.generated g

/-- A request arrives, for the first time or again. -/
inductive Arrival
  | deliver (r : Span)
  | redeliver (r : Span)

/-- The steps of a group. -/
def Group.step (m : ℤ) : Arrival → Group → Option Group
  | .deliver r, s =>
    if r ∈ s.sent then
      { s with sent := s.sent.erase r, handled := r :: s.handled }.handle m r
    else none
  | .redeliver r, s => if r ∈ s.handled then s.handle m r else none

/-- The state behind `shm_create` and `process_nested_forking`, for `n`
members. -/
structure Group.IsNew (n : ℤ) (s : Group) : Prop where
  seg : ∃ seg, s.seg = some seg ∧ seg.count = 0 ∧
    ∀ i, 0 ≤ i → i < n → seg.processed i = 0
  sent : s.sent = [rootUri n]
  handled : s.handled = []
  forked : s.forked = []

/-- A group of `n` members. -/
def forkGroup (m n : ℤ) : Machine Group Arrival where
  init := Group.IsNew n
  step := Group.step m

/-- A range of the group that is processed by `create_fork_branches`. -/
def IsLeaf (m n : ℤ) (r : Span) : Prop :=
  Arises m (rootUri n) r ∧ r.size ≤ m

/-- What is promised of a state: the segment is removed only after every leaf
range has been processed, and then it is; and no leaf range has created its
branches twice. -/
structure Group.Sound (m n : ℤ) (s : Group) : Prop where
  late : s.seg = none → ∀ r, IsLeaf m n r → r ∈ s.forked
  removed : (∀ r, IsLeaf m n r → r ∈ s.forked) → s.seg = none
  once : s.forked.Nodup

/-- While there is the segment, it is in the table, a leaf range that brings
the count to zero is the last request under way, and of the requests that were
handled only leaf ranges arrive again, of a length other than two and not the
range that consists of the index behind the group. -/
def Arrival.Orderly (m n : ℤ) (l : Arrival) (s : Group) : Prop :=
  ∀ seg, s.seg = some seg → s.listed ∧
    match l with
    | .deliver r => r.size ≤ m → seg.count ≤ 1 → s.sent = [r]
    | .redeliver r => r.size ≤ m ∧ r.size ≠ 2 ∧ r.start < n

end Msicp.Worksmart

/-!
## The ranges of a nested hunt group

A range of more than `m` indices is split into at most `m` parts.  A part that
is itself too long is emitted as a whole before it is split again, and the
nested calls then emit nothing: the parts of a part are so much shorter than
`nPrevSize` that none of them passes for a part of the first level.  Only nine
indices with `m = 2` are an exception.

The root URI counts its members from 0 up to and including `n`, so one index
behind the group is visited, whatever `m` and `n` are.
-/

namespace Msicp.Worksmart

open Support (Span cut bounds_of_mem_cut size_of_mem_cut flatMap_cut)

/-! ## Quotients rounded up -/

theorem divUp_bounds {a m : ℤ} (ha : 0 ≤ a) (hm : 0 < m) :
    a ≤ m * divUp a m ∧ m * divUp a m < a + m := by
  unfold divUp
  rw [Int.tdiv_eq_ediv_of_nonneg ha, Int.tmod_eq_emod_of_nonneg ha]
  have hdiv := Int.mul_ediv_add_emod a m
  have hlow := Int.emod_nonneg a hm.ne'
  have hhigh := Int.emod_lt_of_pos a hm
  split
  · constructor <;> linarith
  · have hzero : a % m = 0 := by omega
    constructor <;> linarith

theorem divUp_lt {a m : ℤ} (hm : 2 ≤ m) (hma : m < a) : divUp a m < a := by
  have hbounds := divUp_bounds (a := a) (m := m) (by omega) (by omega)
  by_contra hge
  nlinarith [hbounds.2]

/-- The length of the parts of a range. -/
def partSize (m : ℤ) (r : Span) : ℤ :=
  if m < divUp r.size m then divUp r.size m else m

/-- The parts of a range. -/
def parts (m : ℤ) (r : Span) : List Span :=
  cut (partSize m r) r.stop m.toNat r.start

section Parts

variable {m : ℤ} {r p : Span}

section

variable (hm : 2 ≤ m)
include hm

theorem partSize_pos : 0 < partSize m r := by
  unfold partSize
  split <;> omega

theorem partSize_lt (hr : m < r.size) : partSize m r < r.size := by
  unfold partSize
  split
  · exact divUp_lt hm hr
  · exact hr

theorem size_le_mul_partSize (hr : m < r.size) :
    r.stop - r.start + 1 ≤ (m.toNat : ℤ) * partSize m r := by
  have hbounds := divUp_bounds (a := r.size) (m := m) (by omega) (by omega)
  have hle : divUp r.size m ≤ partSize m r := by
    unfold partSize
    split <;> omega
  rw [Int.toNat_of_nonneg (by omega)]
  calc r.stop - r.start + 1 = r.size := rfl
    _ ≤ m * divUp r.size m := hbounds.1
    _ ≤ m * partSize m r := by nlinarith

theorem flatMap_parts (hr : m < r.size) : (parts m r).flatMap Span.members = r.members := by
  have hsize := size_le_mul_partSize hm hr
  refine flatMap_cut (partSize_pos hm) ?_ hsize
  simp only [Span.size] at hr
  omega

theorem bounds_of_mem_parts (hr : m < r.size) (hp : p ∈ parts m r) :
    r.start ≤ p.start ∧ p.start ≤ p.stop ∧ p.stop ≤ r.stop ∧ p.size < r.size := by
  obtain ⟨h1, h2, h3, h4⟩ := bounds_of_mem_cut (partSize_pos hm) hp
  exact ⟨h1, h2, h3, h4.trans_lt (partSize_lt hm hr)⟩

/-- A part passes for one of the first level, and its own parts do not; not so
for nine indices and `m = 2`. -/
theorem prevSize_of_mem_parts (hr : m < r.size) (hnine : m = 2 → r.size ≠ 9) (hp : p ∈ parts m r) :
    p.size ≤ m ∨ (divUp (r.stop - r.start) m - p.size < m ∧ (divUp p.size m ≤ m ∨
          m ≤ divUp (r.stop - r.start) m - divUp p.size m)) := by
  have hp0 := (bounds_of_mem_parts hm hr hp).2.1
  have hpieces := size_of_mem_cut (partSize_pos hm) hp
  have hsmall := (bounds_of_mem_cut (partSize_pos hm) hp).2.2.2
  unfold partSize at hpieces hsmall
  split at hpieces
  swap
  · rename_i hle
    rw [if_neg hle] at hsmall
    exact .inl hsmall
  rename_i hg
  rw [if_pos hg] at hsmall
  simp only [Span.size] at *
  have hbg := divUp_bounds (a := r.stop - r.start + 1) (m := m) (by omega) (by omega)
  have hbprev := divUp_bounds (a := r.stop - r.start) (m := m) (by omega) (by omega)
  have hbd := divUp_bounds (a := p.stop - p.start + 1) (m := m) (by omega) (by omega)
  rw [Int.toNat_of_nonneg (by omega)] at hpieces
  generalize divUp (r.stop - r.start + 1) m = g at *
  generalize divUp (r.stop - r.start) m = prev at *
  generalize divUp (p.stop - p.start + 1) m = d at *
  have hprevg : prev ≤ g := by
    by_contra hlt
    nlinarith [hbg.1, hbprev.2]
  have hgprev : g ≤ prev + 1 := by
    by_contra hlt
    nlinarith [hbg.2, hbprev.1]
  have hlow : g - (m - 1) ≤ p.stop - p.start + 1 := by
    rcases hpieces with h | ⟨-, h⟩
    · omega
    · nlinarith [hbg.2]
  refine .inr ⟨by omega, ?_⟩
  by_cases hd : d ≤ m
  · exact .inl hd
  refine .inr ?_
  rcases eq_or_lt_of_le hm with h2 | h3
  · subst h2
    have hnine := hnine rfl
    rcases hpieces with h | ⟨-, h⟩ <;> omega
  · have hd1 : m + 1 ≤ d := by omega
    have hgm : m * m < g := by nlinarith [hbd.2]
    by_contra hlt
    have hlt' : prev - d ≤ m - 1 := by omega
    nlinarith [hbd.2, hgprev, mul_le_mul_of_nonneg_left hlt' (by omega : 0 ≤ m)]

end

end Parts

/-! ## Generating the requests -/

theorem generateGroups_eq_foldlM (generate : Span → Gen → Option Gen)
    (chunk nEnd : ℤ) (k : ℕ) (a : ℤ) (st : Gen) :
    generateGroups generate chunk nEnd k (a - 1) st = (cut chunk nEnd k a).foldlM
        (fun st r => generate r { st with uri := some r }) st := by
  induction k generalizing a st with
  | zero => rfl
  | succ k ih =>
    unfold generateGroups cut
    by_cases hlt : a - 1 < nEnd
    · have hmin : (if nEnd < a + chunk - 1 then nEnd else a + chunk - 1) =
          min (a + chunk - 1) nEnd := by
        split <;> omega
      rw [if_pos hlt, if_pos (by omega), List.foldlM_cons]
      simp only [Int.sub_add_cancel, hmin]
      refine congrArg _ (funext fun st' => ?_)
      have hstep := ih (min (a + chunk - 1) nEnd + 1) st'
      rwa [Int.add_sub_cancel] at hstep
    · rw [if_neg hlt, if_neg (by omega)]
      rfl

section Generate

variable {m nPrevSize : ℤ}

theorem foldlM_silent {f : Gen → Span → Option Gen} {l : List Span}
    (hf : ∀ r ∈ l, ∀ st, ∃ uri, f st r = some { st with uri := uri })
    (st : Gen) : ∃ uri, l.foldlM f st = some { st with uri := uri } := by
  induction l generalizing st with
  | nil => exact ⟨st.uri, rfl⟩
  | cons r l ih =>
    obtain ⟨uri, hr⟩ := hf r List.mem_cons_self st
    obtain ⟨uri', hl⟩ :=
      ih (fun r hr => hf r (List.mem_cons_of_mem _ hr)) { st with uri := uri }
    refine ⟨uri', ?_⟩
    rw [List.foldlM_cons, hr]
    exact hl

/-- Once a range has been emitted its parts are not, if they are too short to
pass for parts of the first level. -/
theorem generateForkgroup_silent (hm : 2 ≤ m) (fuel : ℕ) {r : Span} (st : Gen)
    (hfuel : r.size < fuel + 1) (hpos : 0 < fuel)
    (hr : r.size ≤ m ∨ m ≤ nPrevSize - r.size) :
    ∃ uri, generateForkgroup m nPrevSize fuel 1 r st = some { st with uri := uri } := by
  induction fuel generalizing r st with
  | zero => exact absurd hpos (Nat.lt_irrefl 0)
  | succ fuel ih =>
    unfold generateForkgroup
    dsimp only
    by_cases hlong : m < r.size
    · have hnot : ¬ (nPrevSize - (r.stop - r.start + 1) < m ∧ st.uri.isSome) := by
        simp only [Span.size] at hr hlong
        omega
      rw [if_pos (show m < r.stop - r.start + 1 from hlong), if_neg hnot, generateGroups_eq_foldlM]
      refine foldlM_silent (fun p hp st => ?_) st
      obtain ⟨-, hp0, -, hlt⟩ := bounds_of_mem_parts hm hlong hp
      obtain ⟨uri, huri⟩ := ih (r := p) { st with uri := some p }
        (by push_cast at hfuel; omega) (by push_cast at hfuel; omega) (by omega)
      exact ⟨uri, huri⟩
    · rw [if_neg (show ¬ m < r.stop - r.start + 1 from hlong), if_neg (by decide)]
      exact ⟨st.uri, rfl⟩

/-- A part of the first level is emitted once. -/
theorem generateForkgroup_emits (hm : 2 ≤ m) (fuel : ℕ) {r : Span} (st : Gen)
    (hfuel : r.size < fuel + 1) (hpos : 0 < fuel) (huri : st.uri = some r)
    (hr : r.size ≤ m ∨ (nPrevSize - r.size < m ∧
      (divUp r.size m ≤ m ∨ m ≤ nPrevSize - divUp r.size m))) :
    ∃ uri, generateForkgroup m nPrevSize fuel 0 r st =
      some { (st.updateShmCounter m r).appendForkeduri with uri := uri } := by
  cases fuel with
  | zero => exact absurd hpos (Nat.lt_irrefl 0)
  | succ fuel =>
    unfold generateForkgroup
    dsimp only
    by_cases hlong : m < r.size
    · have hemits : nPrevSize - (r.stop - r.start + 1) < m ∧ st.uri.isSome := by
        simp only [Span.size] at hr hlong
        exact ⟨by omega, by rw [huri]; rfl⟩
      rw [if_pos (show m < r.stop - r.start + 1 from hlong), if_pos hemits,
        generateGroups_eq_foldlM]
      refine foldlM_silent (fun p hp st => ?_) _
      obtain ⟨-, hp0, -, hlt⟩ := bounds_of_mem_parts hm hlong hp
      have hple := (bounds_of_mem_cut (partSize_pos hm) hp).2.2.2
      have hpart : partSize m r = divUp r.size m ∨ partSize m r = m := by
        unfold partSize
        split
        · exact .inl rfl
        · exact .inr rfl
      refine generateForkgroup_silent (r := p) hm fuel
        { st with uri := some p } (by push_cast at hfuel; omega)
        (by push_cast at hfuel; omega) ?_
      change p.size ≤ partSize m r at hple
      unfold partSize at hple
      split at hple <;> omega
    · rw [if_neg (show ¬ m < r.stop - r.start + 1 from hlong), if_pos rfl]
      exact ⟨_, rfl⟩

end Generate

end Msicp.Worksmart
