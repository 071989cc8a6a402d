import Msicp.Support.DLink
import Msicp.Support.Machine
import Msicp.Support.MachineInt
import Mathlib.Data.List.Induction
import Mathlib.Data.List.Perm.Subperm
import Mathlib.Data.List.TakeWhile

/-!
# The timer lists of the transaction module (`timer.c`)

Every timer list is a doubly linked list between two sentinels, ordered by
`time_out`.  `reset_timer` deletes lazily, by storing a small marker in
`time_out`; a tick cuts the due front of a list off and hands its timers to the
handler one by one, while other processes go on setting timers.
-/

namespace Msicp.Tm

open Msicp.Support Function List

/-! ## The table of timers -/

/-- `enum lists` -/
inductive Lists
  | fr
  | frInv
  | wt
  | delete
  | rtT1To1
  | rtT1To2
  | rtT1To3
  | rtT2
  deriving DecidableEq, Repr

/-- A pointer to a timer link: null, the sentinels of a list, or a timer. -/
inductive TlPtr
  | null
  | first (id : Lists)
  | last (id : Lists)
  | tl (x : ℕ)
  deriving DecidableEq, Repr

/-- The field `timer_list`: null, `DETACHED_LIST`, or a list. -/
inductive Home
  | null
  | detached
  | list (id : Lists)
  deriving DecidableEq, Repr

/-- `struct timer_table` and the timer links, of which there are `size`. -/
structure TimerTable where
  size : ℕ
  next : TlPtr → TlPtr
  prev : TlPtr → TlPtr
  timeOut : ℕ → ℕ
  timerList : ℕ → Home

def timerDeleted : ℕ := 1

namespace TimerTable

variable (h : TimerTable)

def removeTimerUnsafe (x : ℕ) : TimerTable :=
  match h.timerList x with
  | .list _ =>
    let next := update h.next (h.prev (.tl x)) (h.next (.tl x))
    let prev := update h.prev (next (.tl x)) (h.prev (.tl x))
    { h with
      next := update next (.tl x) .null
      prev := update prev (.tl x) .null
      timerList := update h.timerList x .null }
  | _ => h

/-- The backwards scan of `insert_timer_unsafe`, which skips deleted timers;
none when a null link is followed or the steps run out. -/
def insertScan (id : Lists) (timeOut : ℕ) : ℕ → TlPtr → Option TlPtr
  | 0, ptr => if ptr = .first id then some ptr else none
  | n + 1, ptr =>
    if ptr = .first id then some ptr
    else
      match ptr with
      | .tl y =>
        if h.timeOut y ≠ timerDeleted ∧ h.timeOut y ≤ timeOut then some ptr
        else insertScan id timeOut n (h.prev ptr)
      | _ => none

/-- The new timer linked in behind `ptr`. -/
def linkBehind (x : ℕ) (ptr : TlPtr) : TimerTable :=
  let prev := update h.prev (.tl x) ptr
  let next := update h.next (.tl x) (h.next ptr)
  let next := update next (prev (.tl x)) (.tl x)
  { h with
    next := next
    prev := update prev (next (.tl x)) (.tl x) }

def insertTimerUnsafe (id : Lists) (x timeOut : ℕ) : Option TimerTable :=
  let h' := { h with
    timeOut := update h.timeOut x timeOut
    timerList := update h.timerList x (.list id) }
  (h'.insertScan id timeOut h'.size (h'.prev (.last id))).map (h'.linkBehind x)

/-- The `time_out` of a timer set at `ticks`, an unsigned int. -/
def timeOutAt (ticks timeout : ℕ) : ℕ :=
  uadd 32 ticks timeout

def setTimer (x : ℕ) (id : Lists) (ticks timeout : ℕ) : Option TimerTable :=
  if h.timerList x = .detached then some h
  else (h.removeTimerUnsafe x).insertTimerUnsafe id x (timeOutAt ticks timeout)

def set1timer (x : ℕ) (id : Lists) (ticks timeout : ℕ) : Option TimerTable :=
  if ¬ timerDeleted < h.timeOut x then
    h.insertTimerUnsafe id x (timeOutAt ticks timeout)
  else some h

def resetTimer (x : ℕ) : TimerTable :=
  { h with timeOut := update h.timeOut x timerDeleted }

/-- The loop of `check_and_split_time_list` marks the due timers as detached
and stops at the first that is not due. -/
def splitLoop (id : Lists) (time : ℕ) : ℕ → TlPtr → TimerTable → Option (TlPtr × TimerTable)
  | 0, tl, h => if tl = .last id then some (tl, h) else none
  | n + 1, tl, h =>
    if tl = .last id then some (tl, h)
    else
      match tl with
      | .tl x =>
        if h.timeOut x ≤ time then
          splitLoop id time n (h.next tl)
            { h with timerList := update h.timerList x .detached }
        else some (tl, h)
      | _ => none

/-- The list is cut in front of `tl`; what is in front of it, if anything, is
returned. -/
def cut (id : Lists) (tl : TlPtr) : TlPtr × TimerTable :=
  if h.prev tl = .first id then (.null, h)
  else
    let next := update h.next (h.prev tl) .null
    (h.next (.first id), { h with
      next := update next (.first id) tl
      prev := update h.prev tl (.first id) })

/-- `check_and_split_time_list`; its quick check without the lock is repeated
by the loop. -/
def checkAndSplitTimeList (id : Lists) (time : ℕ) : Option (TlPtr × TimerTable) :=
  (splitLoop id time h.size (h.next (.first id)) h).map fun r =>
    r.2.cut id r.1

end TimerTable

/-! ## The timer process and the others -/

/-- The table, the detached timers that `run_handler_for_each` has still to
look at, the timer whose handler runs, and the timers handed to a handler so
far. -/
structure TimerState where
  table : TimerTable
  firing : TlPtr := .null
  current : Option ℕ := none
  handed : List ℕ := []

/-- The steps: a process sets or resets a timer, the timer process splits a
list at a tick, looks at the next detached timer, and, in
`retransmission_handler`, takes the running timer off the detached list. -/
inductive TimerEvent
  | setTimer (x : ℕ) (id : Lists) (ticks timeout : ℕ)
  | set1timer (x : ℕ) (id : Lists) (ticks timeout : ℕ)
  | resetTimer (x : ℕ)
  | split (id : Lists) (time : ℕ)
  | fire
  | clear

/-- One round of `run_handler_for_each`. -/
def TimerState.fire (s : TimerState) (x : ℕ) : TimerState :=
  { table := { s.table with
      next := update s.table.next (.tl x) .null
      prev := update s.table.prev (.tl x) .null }
    firing := s.table.next (.tl x)
    current := if timerDeleted < s.table.timeOut x then some x else none
    handed := if timerDeleted < s.table.timeOut x then s.handed ++ [x]
      else s.handed }

def TimerState.step (ev : TimerEvent) (s : TimerState) : Option TimerState :=
  match ev with
  | .setTimer x id ticks timeout =>
    if x < s.table.size then
      (s.table.setTimer x id ticks timeout).map fun h => { s with table := h }
    else none
  | .set1timer x id ticks timeout =>
    if x < s.table.size then
      (s.table.set1timer x id ticks timeout).map fun h => { s with table := h }
    else none
  | .resetTimer x =>
    if x < s.table.size then some { s with table := s.table.resetTimer x }
    else none
  | .split id time =>
    if s.firing = .null then
      (s.table.checkAndSplitTimeList id time).map fun r =>
        { s with table := r.2, firing := r.1, current := none }
    else none
  | .fire =>
    match s.firing with
    | .tl x => some (s.fire x)
    | _ => none
  | .clear =>
    match s.current with
    | some x =>
      some { s with
        table := { s.table with
          timerList := update s.table.timerList x .null }
        current := none }
    | none => none

/-- The lists are empty and no timer has been set. -/
structure TimerState.Fresh (s : TimerState) : Prop where
  next : ∀ id, s.table.next (.first id) = .last id
  prev : ∀ id, s.table.prev (.last id) = .first id
  timerList : ∀ x, s.table.timerList x = .null
  firing : s.firing = .null
  current : s.current = none
  handed : s.handed = []

/-- `tm_init_timers` -/
def TimerState.start (size : ℕ) : TimerState where
  table :=
    { size
      next := fun p => match p with
        | .first id => .last id
        | _ => .null
      prev := fun p => match p with
        | .last id => .first id
        | _ => .null
      timeOut := fun _ => 0
      timerList := fun _ => .null }

theorem TimerState.start_fresh (size : ℕ) : (start size).Fresh :=
  ⟨fun _ => rfl, fun _ => rfl, fun _ => rfl, rfl, rfl, rfl⟩

def timers : Machine TimerState TimerEvent where
  init := TimerState.Fresh
  step := TimerState.step

/-! ## Well-formed lists -/

/-- Following `next` from `p` passes the timers of `l` and ends in null. -/
def Pending (next : TlPtr → TlPtr) : TlPtr → List ℕ → Prop
  | p, [] => p = .null
  | p, x :: l => p = .tl x ∧ Pending next (next (.tl x)) l

/-- Timers that are not deleted stand in the order of their `time_out`. -/
def InOrder (timeOut : ℕ → ℕ) (l : List ℕ) : Prop :=
  l.Pairwise fun x y => timeOut x ≠ timerDeleted → timeOut y ≠ timerDeleted → timeOut x ≤ timeOut y

/-- The contents of the lists and of the detached chain that starts at
`firing`. -/
structure TimerTable.Wf (h : TimerTable) (firing : TlPtr)
    (lists : Lists → List ℕ) (chain : List ℕ) : Prop where
  seg : ∀ id, DSeg h.next h.prev (.first id) ((lists id).map .tl) (.last id)
  home : ∀ id x, x ∈ lists id ↔ h.timerList x = .list id
  nodup : ∀ id, (lists id).Nodup
  size : ∀ id x, x ∈ lists id → x < h.size
  order : ∀ id, InOrder h.timeOut (lists id)
  pending : Pending h.next firing chain
  chainNodup : chain.Nodup
  detached : ∀ x ∈ chain, h.timerList x = .detached

namespace TimerTable.Wf

variable {h : TimerTable} {firing : TlPtr} {lists : Lists → List ℕ}
  {chain : List ℕ}

variable {id id' : Lists} {x : ℕ}

theorem mem_unique (hw : h.Wf firing lists chain)
    (hx : x ∈ lists id) (hx' : x ∈ lists id') : id = id' := by
  have h1 := (hw.home id x).mp hx
  have h2 := (hw.home id' x).mp hx'
  rw [h1] at h2
  exact Home.list.inj h2

/-- The places of a list: its sentinels and its timers. -/
def Place (lists : Lists → List ℕ) (id : Lists) (p : TlPtr) : Prop :=
  p = .first id ∨ p = .last id ∨ ∃ x ∈ lists id, p = .tl x

section

variable (hw : h.Wf firing lists chain)
include hw

theorem not_place (hne : id' ≠ id) {p : TlPtr} (hp : Place lists id p) :
    p ≠ .first id' ∧ p ≠ .last id' ∧ p ∉ (lists id').map .tl := by
  rcases hp with rfl | rfl | ⟨x, hx, rfl⟩
  · refine ⟨fun heq => hne (TlPtr.first.inj heq).symm, fun heq => TlPtr.noConfusion heq, ?_⟩
    simp
  · refine ⟨fun heq => TlPtr.noConfusion heq, fun heq => hne (TlPtr.last.inj heq).symm, ?_⟩
    simp
  · refine ⟨fun heq => TlPtr.noConfusion heq, fun heq => TlPtr.noConfusion heq, ?_⟩
    intro hmem
    obtain ⟨y, hy, heq⟩ := List.mem_map.mp hmem
    cases heq
    exact hne (hw.mem_unique hy hx)

/-- Changes to the links at places of one list and at an unlinked timer leave
the other lists as they are. -/
theorem seg_of_ne (hne : id' ≠ id) {next prev : TlPtr → TlPtr} (hx : x ∉ lists id')
    (hnext : ∀ p, ¬ Place lists id p → p ≠ .tl x → next p = h.next p)
    (hprev : ∀ p, ¬ Place lists id p → p ≠ .tl x → prev p = h.prev p) :
    DSeg next prev (.first id') ((lists id').map .tl) (.last id') := by
  have hx' : TlPtr.tl x ∉ (lists id').map .tl := by
    intro hmem
    obtain ⟨y, hy, heq⟩ := List.mem_map.mp hmem
    cases heq
    exact hx hy
  refine (hw.seg id').congr ?_ ?_
  · intro p hp
    apply hnext
    · intro hplace
      obtain ⟨h1, -, h3⟩ := hw.not_place hne hplace
      rcases hp with rfl | hp
      · exact h1 rfl
      · exact h3 hp
    · rcases hp with rfl | hp
      · exact fun heq => TlPtr.noConfusion heq
      · exact fun heq => hx' (heq ▸ hp)
  · intro p hp
    apply hprev
    · intro hplace
      obtain ⟨-, h2, h3⟩ := hw.not_place hne hplace
      rcases hp with hp | rfl
      · exact h3 hp
      · exact h2 rfl
    · rcases hp with hp | rfl
      · exact fun heq => hx' (heq ▸ hp)
      · exact fun heq => TlPtr.noConfusion heq

theorem map_nodup (id : Lists) : ((lists id).map TlPtr.tl).Nodup :=
  (hw.nodup id).map fun _ _ heq => TlPtr.tl.inj heq

end

theorem first_notMem (l : List ℕ) (id : Lists) : TlPtr.first id ∉ l.map TlPtr.tl := by
  simp

theorem last_notMem (l : List ℕ) (id : Lists) : TlPtr.last id ∉ l.map TlPtr.tl := by
  simp

theorem place_lastOf {l₁ l₂ : List ℕ} (hl : lists id = l₁ ++ l₂) :
    Place lists id (lastOf (.first id) (l₁.map .tl)) := by
  rcases lastOf_mem (TlPtr.first id) (l₁.map .tl) with hmem | heq
  · obtain ⟨y, hy, heq⟩ := List.mem_map.mp hmem
    exact .inr (.inr ⟨y, hl ▸ mem_append_left _ hy, heq.symm⟩)
  · exact .inl heq

theorem place_firstOf {l₁ l₂ : List ℕ} (hl : lists id = l₁ ++ l₂) :
    Place lists id (firstOf (l₂.map .tl) (.last id)) := by
  rcases firstOf_mem (l₂.map .tl) (TlPtr.last id) with hmem | heq
  · obtain ⟨y, hy, heq⟩ := List.mem_map.mp hmem
    exact .inr (.inr ⟨y, hl ▸ mem_append_right _ hy, heq.symm⟩)
  · exact .inr (.inl heq)

theorem place_ne {p : TlPtr} (hp : Place lists id p) (hx : x ∉ lists id) : p ≠ .tl x := by
  rintro rfl
  rcases hp with heq | heq | ⟨y, hy, heq⟩
  · cases heq
  · cases heq
  · exact hx (TlPtr.tl.inj heq ▸ hy)

end TimerTable.Wf

theorem Pending.congr {next next' : TlPtr → TlPtr} {p : TlPtr} {l : List ℕ}
    (h : Pending next p l) (hsame : ∀ x ∈ l, next' (.tl x) = next (.tl x)) :
    Pending next' p l := by
  induction l generalizing p with
  | nil => exact h
  | cons x l ih =>
    refine ⟨h.1, ?_⟩
    rw [hsame x mem_cons_self]
    exact ih h.2 fun y hy => hsame y (mem_cons_of_mem _ hy)

/-! ## Unlinking a timer -/

section Operations

variable {h : TimerTable} {firing : TlPtr} {lists : Lists → List ℕ}
  {chain : List ℕ}

open TimerTable

variable {id : Lists} {x : ℕ} {l l₁ l₂ : List ℕ} {timeOut : ℕ → ℕ}

theorem TimerTable.Wf.chain_not_place (hw : h.Wf firing lists chain)
     (hx : x ∈ chain) : ¬ Wf.Place lists id (.tl x) := by
  rintro (heq | heq | ⟨y, hy, heq⟩)
  · cases heq
  · cases heq
  · cases heq
    have h1 := (hw.home id x).mp hy
    rw [hw.detached x hx] at h1
    cases h1

/-- The lists without a timer. -/
def removed (lists : Lists → List ℕ) (x : ℕ) (id : Lists) : List ℕ :=
  (lists id).erase x

theorem removed_of_notMem (hx : ∀ id, x ∉ lists id) : removed lists x = lists := by
  funext id
  exact erase_of_not_mem (hx id)

section

variable (hw : h.Wf firing lists chain)
include hw

theorem notMem_removed (x : ℕ) (id : Lists) : x ∉ removed lists x id :=
  (hw.nodup id).not_mem_erase

theorem removeTimerUnsafe_of_notMem (hx : ∀ id, x ∉ lists id) : h.removeTimerUnsafe x = h := by
  simp only [removeTimerUnsafe]
  split
  · rename_i id hid
    exact absurd ((hw.home id x).mpr hid) (hx id)
  · rfl

/-- A linked timer is unlinked from its list. -/
theorem removeTimerUnsafe_mem (hx : x ∈ lists id) :
    (h.removeTimerUnsafe x).Wf firing (removed lists x) chain := by
  have hid := (hw.home id x).mp hx
  obtain ⟨l₁, l₂, hl⟩ := append_of_mem hx
  have hnodup := hw.nodup id
  rw [hl] at hnodup
  have hx₁ : x ∉ l₁ := fun hm =>
    (List.nodup_append.mp hnodup).2.2 x hm x mem_cons_self rfl
  have herase : (lists id).erase x = l₁ ++ l₂ := by
    rw [hl, erase_append_right _ hx₁, erase_cons_head]
  have hseg := hw.seg id
  have hmap := hw.map_nodup id
  rw [hl, map_append, map_cons] at hseg hmap
  have hfirst := Wf.first_notMem (l₁ ++ x :: l₂) id
  have hlast := Wf.last_notMem (l₁ ++ x :: l₂) id
  rw [map_append, map_cons] at hfirst hlast
  have hu : h.prev (.tl x) = lastOf (.first id) (l₁.map .tl) :=
    (DSeg.append.1 hseg).1.prev_last
  have hv : h.next (.tl x) = firstOf (l₂.map .tl) (.last id) :=
    (DSeg.append.1 hseg).2.next_first
  have hpu : Wf.Place lists id (h.prev (.tl x)) := by
    rw [hu]
    exact Wf.place_lastOf hl
  have hpv : Wf.Place lists id (h.next (.tl x)) := by
    rw [hv]
    have hl' : lists id = (l₁ ++ [x]) ++ l₂ := by simp [hl]
    exact Wf.place_firstOf hl'
  have hux : h.prev (.tl x) ≠ .tl x := by
    rw [hu]
    rcases lastOf_mem (TlPtr.first id) (l₁.map .tl) with hmem | heq
    · intro heq
      rw [heq] at hmem
      obtain ⟨y, hy, hyx⟩ := List.mem_map.mp hmem
      cases hyx
      exact hx₁ hy
    · rw [heq]
      exact fun hc => TlPtr.noConfusion hc
  have htable : h.removeTimerUnsafe x = { h with
      next := update (update h.next (h.prev (.tl x)) (h.next (.tl x)))
        (.tl x) .null
      prev := update (update h.prev (h.next (.tl x)) (h.prev (.tl x))) (.tl x) .null
      timerList := update h.timerList x .null } := by
    simp only [removeTimerUnsafe, hid, update_of_ne hux.symm]
  have hnext : ∀ p, ¬ Wf.Place lists id p → p ≠ .tl x →
      update (update h.next (h.prev (.tl x)) (h.next (.tl x))) (.tl x) .null p = h.next p := by
    intro p hp hpx
    have hne : p ≠ h.prev (.tl x) := by
      rintro rfl
      exact hp hpu
    rw [update_of_ne hpx, update_of_ne hne]
  have hprev : ∀ p, ¬ Wf.Place lists id p → p ≠ .tl x →
      update (update h.prev (h.next (.tl x)) (h.prev (.tl x))) (.tl x) .null p = h.prev p := by
    intro p hp hpx
    have hne : p ≠ h.next (.tl x) := by
      rintro rfl
      exact hp hpv
    rw [update_of_ne hpx, update_of_ne hne]
  rw [htable]
  refine ⟨?_, ?_, ?_, ?_, ?_, ?_, hw.chainNodup, ?_⟩
  · intro id'
    by_cases hne : id' = id
    · subst hne
      have hrem := hseg.remove hmap hfirst hlast
      simp only [removed, herase, map_append]
      have hx₂ : x ∉ l₁ ++ l₂ := by
        rw [← herase]
        exact (hw.nodup id').not_mem_erase
      have hxm : TlPtr.tl x ∉ l₁.map TlPtr.tl ++ l₂.map TlPtr.tl := by
        rw [← map_append]
        intro hmem
        obtain ⟨y, hy, heq⟩ := List.mem_map.mp hmem
        cases heq
        exact hx₂ hy
      exact (hrem.update_next (fun hc => TlPtr.noConfusion hc) hxm).update_prev
        (fun hc => TlPtr.noConfusion hc) hxm
    · have hxid' : x ∉ lists id' := fun hm => hne (hw.mem_unique hm hx)
      simp only [removed, erase_of_not_mem hxid']
      exact hw.seg_of_ne hne hxid' hnext hprev
  · intro id' y
    by_cases hyx : y = x
    · subst hyx
      simp only [update_self]
      constructor
      · intro hm
        exact absurd hm (notMem_removed hw y id')
      · intro hc
        cases hc
    · simp only [removed, update_of_ne hyx, mem_erase_of_ne hyx]
      exact hw.home id' y
  · exact fun id' => (hw.nodup id').erase x
  · exact fun id' y hy => hw.size id' y (mem_of_mem_erase hy)
  · exact fun id' => (hw.order id').sublist erase_sublist
  · apply hw.pending.congr
    intro y hy
    apply hnext _ (hw.chain_not_place hy)
    intro heq
    rw [← TlPtr.tl.inj heq, hw.detached y hy] at hid
    cases hid
  · intro y hy
    have hyx : y ≠ x := by
      intro heq
      rw [← heq, hw.detached y hy] at hid
      cases hid
    simp only [update_of_ne hyx]
    exact hw.detached y hy

theorem removeTimerUnsafe_wf (x : ℕ) :
    (h.removeTimerUnsafe x).Wf firing (removed lists x) chain := by
  by_cases hx : ∃ id, x ∈ lists id
  · obtain ⟨id, hid⟩ := hx
    exact removeTimerUnsafe_mem hw hid
  · have hnone : ∀ id, x ∉ lists id := fun id hid => hx ⟨id, hid⟩
    rw [removeTimerUnsafe_of_notMem hw hnone, removed_of_notMem hnone]
    exact hw

end

@[simp] theorem removeTimerUnsafe_timeOut (h : TimerTable) (x : ℕ) :
    (h.removeTimerUnsafe x).timeOut = h.timeOut := by
  simp only [removeTimerUnsafe]
  split <;> rfl

@[simp] theorem removeTimerUnsafe_size (h : TimerTable) (x : ℕ) :
    (h.removeTimerUnsafe x).size = h.size := by
  simp only [removeTimerUnsafe]
  split <;> rfl

/-! ## Linking a timer in -/

theorem TimerTable.Wf.length_le (hw : h.Wf firing lists chain) (id : Lists) :
    (lists id).length ≤ h.size := by
  have hsub : lists id ⊆ List.range h.size := fun x hx =>
    mem_range.mpr (hw.size id x hx)
  have hle := (subperm_of_subset (hw.nodup id) hsub).length_le
  simpa using hle

/-- A timer that the scan stops at. -/
def stopsAt (h : TimerTable) (timeOut y : ℕ) : Prop :=
  h.timeOut y ≠ timerDeleted ∧ h.timeOut y ≤ timeOut

/-- The scan passes the timers behind the cut and stops at the one before it,
or at the front. -/
theorem insertScan_spec (h : TimerTable) (id : Lists) (timeOut n : ℕ)
    {b : TlPtr} (hlen : l.length ≤ n)
    (hseg : DSeg h.next h.prev (.first id) (l.map .tl) b) :
    ∃ l₁ l₂, l = l₁ ++ l₂ ∧ h.insertScan id timeOut n (h.prev b) =
        some (lastOf (.first id) (l₁.map .tl)) ∧
      (∀ y ∈ l₁.getLast?, stopsAt h timeOut y) ∧
      ∀ y ∈ l₂, ¬ stopsAt h timeOut y := by
  induction l using List.reverseRecOn generalizing b n with
  | nil =>
    refine ⟨[], [], rfl, ?_, by simp, by simp⟩
    have hprev : h.prev b = .first id := hseg.prev_last
    rw [hprev]
    cases n <;> simp [insertScan]
  | append_singleton l y ih =>
    rw [map_append, map_cons, map_nil] at hseg
    have hprev : h.prev b = .tl y := by
      rw [hseg.prev_last]
      simp [lastOf]
    have hleft : DSeg h.next h.prev (.first id) (l.map .tl) (.tl y) :=
      (DSeg.append.1 hseg).1
    rw [List.length_append, length_singleton] at hlen
    obtain ⟨n, rfl⟩ : ∃ m, n = m + 1 := ⟨n - 1, by omega⟩
    by_cases hstop : stopsAt h timeOut y
    · refine ⟨l ++ [y], [], by simp, ?_, ?_, by simp⟩
      · have hif : h.timeOut y ≠ timerDeleted ∧ h.timeOut y ≤ timeOut := hstop
        simp [insertScan, hprev, hif, lastOf]
      · intro z hz
        have hzy : y = z := by simpa using hz
        exact hzy ▸ hstop
    · obtain ⟨l₁, l₂, rfl, hscan, hlast, hpass⟩ := ih n (by omega) hleft
      refine ⟨l₁, l₂ ++ [y], by simp, ?_, hlast, ?_⟩
      · rw [hprev, insertScan, if_neg (fun hc => TlPtr.noConfusion hc)]
        have hif : ¬ (h.timeOut y ≠ timerDeleted ∧ h.timeOut y ≤ timeOut) :=
          hstop
        simp only [if_neg hif]
        exact hscan
      · intro z hz
        rcases mem_append.mp hz with hz | hz
        · exact hpass z hz
        · rw [mem_singleton.mp hz]
          exact hstop

/-- A timer put between the entries that the scan passes and those before
them keeps the order. -/
theorem InOrder.insert (h : InOrder timeOut (l₁ ++ l₂)) (hbefore : ∀ y ∈ l₁.getLast?,
      timeOut y ≠ timerDeleted ∧ timeOut y ≤ timeOut x)
    (hbehind : ∀ y ∈ l₂, ¬ (timeOut y ≠ timerDeleted ∧ timeOut y ≤ timeOut x)) :
    InOrder timeOut (l₁ ++ x :: l₂) := by
  obtain ⟨h₁, h₂, hcross⟩ := pairwise_append.mp h
  refine pairwise_append.mpr ⟨h₁, pairwise_cons.mpr ⟨?_, h₂⟩, ?_⟩
  · intro y hy _ hlive
    have hpass := hbehind y hy
    have hgt : ¬ timeOut y ≤ timeOut x := fun hle => hpass ⟨hlive, hle⟩
    omega
  · intro y hy z hz
    rcases mem_cons.mp hz with rfl | hz
    · intro hlive _
      obtain ⟨l, u, rfl⟩ : ∃ l u, l₁ = l ++ [u] := by
        rcases eq_nil_or_concat l₁ with rfl | ⟨l, u, rfl⟩
        · cases hy
        · exact ⟨l, u, by simp⟩
      obtain ⟨hu, hle⟩ := hbefore u (by simp)
      rcases mem_append.mp hy with hy | hy
      · have hyu := (pairwise_append.mp h₁).2.2 y hy u mem_cons_self hlive hu
        exact hyu.trans hle
      · rw [mem_singleton.mp hy]
        exact hle
    · exact hcross y hy z hz

theorem InOrder.congr {timeOut' : ℕ → ℕ}
    (h : InOrder timeOut l) (hsame : ∀ x ∈ l, timeOut' x = timeOut x) :
    InOrder timeOut' l := by
  refine List.Pairwise.imp_of_mem ?_ h
  intro x y hx hy hxy
  rw [hsame x hx, hsame y hy]
  exact hxy

theorem mem_update_insert (hl : lists id = l₁ ++ l₂) (x : ℕ) {y : ℕ} {id' : Lists} :
    y ∈ update lists id (l₁ ++ x :: l₂) id' ↔ (id' = id ∧ y = x) ∨ y ∈ lists id' := by
  by_cases hne : id' = id
  · subst hne
    rw [update_self, hl, perm_middle.mem_iff, mem_cons]
    simp
  · rw [update_of_ne hne]
    simp [hne]

/-- `insert_timer_unsafe` puts an unlinked timer in its place. -/
theorem insertTimerUnsafe_wf (hw : h.Wf firing lists chain)
    (id : Lists) (timeOut : ℕ) (hx : ∀ id', x ∉ lists id') (hxc : x ∉ chain)
    (hsize : x < h.size) :
    ∃ h' l₁ l₂, h.insertTimerUnsafe id x timeOut = some h' ∧ lists id = l₁ ++ l₂ ∧
      h'.Wf firing (update lists id (l₁ ++ x :: l₂)) chain ∧
      h'.timeOut = update h.timeOut x timeOut ∧
      h'.timerList = update h.timerList x (.list id) ∧ h'.size = h.size := by
  obtain ⟨h₀, hh₀⟩ : ∃ h₀ : TimerTable, h₀ = { h with
      timeOut := update h.timeOut x timeOut
      timerList := update h.timerList x (.list id) } := ⟨_, rfl⟩
  have htime : ∀ y ≠ x, h₀.timeOut y = h.timeOut y := by
    intro y hy
    rw [hh₀]
    exact update_of_ne hy ..
  have htimex : h₀.timeOut x = timeOut := by
    rw [hh₀]
    exact update_self ..
  have hhome : ∀ y ≠ x, h₀.timerList y = h.timerList y := by
    intro y hy
    rw [hh₀]
    exact update_of_ne hy ..
  have hhomex : h₀.timerList x = .list id := by
    rw [hh₀]
    exact update_self ..
  have hsize₀ : h₀.size = h.size := by rw [hh₀]
  have hnext₀ : h₀.next = h.next := by rw [hh₀]
  have hprev₀ : h₀.prev = h.prev := by rw [hh₀]
  have hseg₀ : DSeg h₀.next h₀.prev (.first id) ((lists id).map .tl) (.last id) := by
    rw [hnext₀, hprev₀]
    exact hw.seg id
  have hlen : (lists id).length ≤ h₀.size := by
    rw [hh₀]
    exact hw.length_le id
  obtain ⟨l₁, l₂, hl, hscan, hbefore, hbehind⟩ :=
    insertScan_spec h₀ id timeOut h₀.size hlen hseg₀
  have hmem : ∀ y, y ∈ l₁ ++ l₂ → y ≠ x := by
    rintro y hy rfl
    exact hx id (hl ▸ hy)
  have hu : Wf.Place lists id (lastOf (.first id) (l₁.map .tl)) :=
    Wf.place_lastOf hl
  have hv : Wf.Place lists id (firstOf (l₂.map .tl) (.last id)) :=
    Wf.place_firstOf hl
  have hux := Wf.place_ne hu (hx id)
  have hseg := hw.seg id
  have hmap := hw.map_nodup id
  rw [hl, map_append] at hseg hmap
  have hlinks : h₀.linkBehind x (lastOf (.first id) (l₁.map .tl)) = { h₀ with
      next := update (update h.next (.tl x) (firstOf (l₂.map .tl) (.last id)))
        (lastOf (.first id) (l₁.map .tl)) (.tl x)
      prev := update (update h.prev (.tl x) (lastOf (.first id) (l₁.map .tl)))
        (firstOf (l₂.map .tl) (.last id)) (.tl x) } := by
    simp only [linkBehind, hnext₀, hprev₀, update_self, hseg.next_cut, update_of_ne hux.symm]
  have hother : ∀ (g : TlPtr → TlPtr) (v w : TlPtr) (p q : TlPtr),
      Wf.Place lists id q → ¬ Wf.Place lists id p → p ≠ .tl x →
        update (update g (.tl x) v) q w p = g p := by
    intro g v w p q hq hp hpx
    have hne : p ≠ q := by
      rintro rfl
      exact hp hq
    rw [update_of_ne hne, update_of_ne hpx]
  refine ⟨h₀.linkBehind x (lastOf (.first id) (l₁.map .tl)), l₁, l₂, ?_, hl, ?_, ?_, ?_, ?_⟩
  · have hins : h.insertTimerUnsafe id x timeOut =
        (h₀.insertScan id timeOut h₀.size (h₀.prev (.last id))).map (h₀.linkBehind x) := by
      rw [hh₀]
      rfl
    rw [hins, hscan]
    rfl
  · rw [hlinks]
    refine ⟨?_, ?_, ?_, ?_, ?_, ?_, hw.chainNodup, ?_⟩
    · intro id'
      by_cases hne : id' = id
      · subst hne
        have hfirst := Wf.first_notMem (l₁ ++ l₂) id'
        have hlast := Wf.last_notMem (l₁ ++ l₂) id'
        have hxmap : TlPtr.tl x ∉ (l₁ ++ l₂).map TlPtr.tl := by
          intro hm
          obtain ⟨y, hy, heq⟩ := List.mem_map.mp hm
          exact hmem y hy (TlPtr.tl.inj heq)
        rw [map_append] at hfirst hlast hxmap
        rw [update_self, map_append, map_cons]
        exact hseg.insert hmap hfirst hlast hxmap
          (fun hc => TlPtr.noConfusion hc) fun hc => TlPtr.noConfusion hc
      · rw [update_of_ne hne]
        exact hw.seg_of_ne hne (hx id') (fun p => hother h.next _ _ p _ hu)
          fun p => hother h.prev _ _ p _ hv
    · intro id' y
      show _ ↔ h₀.timerList y = _
      rw [mem_update_insert hl]
      by_cases hyx : y = x
      · rw [hyx, hhomex, or_iff_left (hx id')]
        constructor
        · rintro ⟨rfl, -⟩
          rfl
        · intro hc
          exact ⟨(Home.list.inj hc).symm, rfl⟩
      · rw [hhome y hyx, ← hw.home id' y, or_iff_right]
        exact fun hc => hyx hc.2
    · intro id'
      by_cases hne : id' = id
      · subst hne
        rw [update_self, nodup_middle, ← hl]
        exact nodup_cons.mpr ⟨hx id', hw.nodup id'⟩
      · rw [update_of_ne hne]
        exact hw.nodup id'
    · intro id' y hy
      show y < h₀.size
      rw [hsize₀]
      rcases (mem_update_insert hl x).mp hy with ⟨-, rfl⟩ | hy
      · exact hsize
      · exact hw.size id' y hy
    · intro id'
      by_cases hne : id' = id
      · subst hne
        rw [update_self]
        apply InOrder.insert
        · rw [← hl]
          apply (hw.order id').congr
          exact fun y hy => htime y (hmem y (hl ▸ hy))
        · intro y hy
          have hstop := hbefore y hy
          rw [htimex]
          exact hstop
        · intro y hy
          have hpass := hbehind y hy
          rw [htimex]
          exact hpass
      · rw [update_of_ne hne]
        apply (hw.order id').congr
        intro y hy
        apply htime
        rintro rfl
        exact hx id' hy
    · apply hw.pending.congr
      intro y hy
      apply hother h.next _ _ _ _ hu (hw.chain_not_place hy)
      exact fun hc => hxc (TlPtr.tl.inj hc ▸ hy)
    · intro y hy
      have hyx : y ≠ x := by
        rintro rfl
        exact hxc hy
      exact (hhome y hyx).trans (hw.detached y hy)
  · rw [hh₀]
    rfl
  · rw [hh₀]
    rfl
  · rw [hh₀]
    rfl

theorem removeTimerUnsafe_of_ne (h : TimerTable) {y : ℕ} (hne : y ≠ x) :
    (h.removeTimerUnsafe x).timerList y = h.timerList y := by
  simp only [removeTimerUnsafe]
  split
  · exact update_of_ne hne ..
  · rfl

/-- The list and the `time_out` of a timer are as before. -/
def Untouched (h h' : TimerTable) (y : ℕ) : Prop :=
  h'.timerList y = h.timerList y ∧ h'.timeOut y = h.timeOut y

section

variable (hw : h.Wf firing lists chain)
include hw

theorem setTimer_wf (id : Lists) (ticks timeout : ℕ) (hsize : x < h.size) :
    ∃ h' lists', h.setTimer x id ticks timeout = some h' ∧
      h'.Wf firing lists' chain ∧ h'.size = h.size ∧
      ∀ y, h.timerList y = .detached → Untouched h h' y := by
  by_cases hd : h.timerList x = .detached
  · exact ⟨h, lists, if_pos hd, hw, rfl, fun y _ => ⟨rfl, rfl⟩⟩
  · have hxc : x ∉ chain := fun hx => hd (hw.detached x hx)
    have hsize' : x < (h.removeTimerUnsafe x).size := by
      rw [removeTimerUnsafe_size]
      exact hsize
    obtain ⟨h', l₁, l₂, hins, -, hw', htime, hhome, hsz⟩ :=
      insertTimerUnsafe_wf (removeTimerUnsafe_wf hw x) id
        (timeOutAt ticks timeout) (notMem_removed hw x) hxc hsize'
    refine ⟨h', _, ?_, hw', ?_, ?_⟩
    · rw [setTimer, if_neg hd]
      exact hins
    · rw [hsz, removeTimerUnsafe_size]
    · intro y hy
      have hyx : y ≠ x := by
        rintro rfl
        exact hd hy
      constructor
      · rw [hhome, update_of_ne hyx, removeTimerUnsafe_of_ne h hyx]
      · rw [htime, update_of_ne hyx, removeTimerUnsafe_timeOut]

/-- `set_1timer` links an unlinked timer in; a timer that is set it leaves. -/
theorem set1timer_wf (id : Lists) (ticks timeout : ℕ) (hsize : x < h.size)
    (hok : h.timerList x = .null ∨ timerDeleted < h.timeOut x) :
    ∃ h' lists', h.set1timer x id ticks timeout = some h' ∧
      h'.Wf firing lists' chain ∧ h'.size = h.size ∧
      ∀ y, h.timerList y = .detached → Untouched h h' y := by
  by_cases hlive : timerDeleted < h.timeOut x
  · exact ⟨h, lists, if_neg (not_not.mpr hlive), hw, rfl, fun y _ => ⟨rfl, rfl⟩⟩
  · have hnull := hok.resolve_right hlive
    have hx : ∀ id', x ∉ lists id' := by
      intro id' hx
      have hid := (hw.home id' x).mp hx
      rw [hnull] at hid
      cases hid
    have hxc : x ∉ chain := by
      intro hx
      have hd := hw.detached x hx
      rw [hnull] at hd
      cases hd
    obtain ⟨h', l₁, l₂, hins, -, hw', htime, hhome, hsz⟩ :=
      insertTimerUnsafe_wf hw id (timeOutAt ticks timeout) hx hxc hsize
    refine ⟨h', _, ?_, hw', hsz, ?_⟩
    · rw [set1timer, if_pos hlive]
      exact hins
    · intro y hy
      have hyx : y ≠ x := by
        rintro rfl
        rw [hnull] at hy
        cases hy
      constructor
      · rw [hhome, update_of_ne hyx]
      · rw [htime, update_of_ne hyx]

theorem resetTimer_wf (x : ℕ) : (h.resetTimer x).Wf firing lists chain := by
  refine ⟨hw.seg, hw.home, hw.nodup, hw.size, ?_, hw.pending, hw.chainNodup, hw.detached⟩
  intro id
  refine (hw.order id).imp ?_
  intro y z hyz
  simp only [resetTimer]
  by_cases hy : y = x
  · subst hy
    rw [update_self]
    exact fun hne => absurd rfl hne
  · by_cases hz : z = x
    · subst hz
      rw [update_self]
      exact fun _ hne => absurd rfl hne
    · rw [update_of_ne hy, update_of_ne hz]
      exact hyz

end

/-! ## A tick -/

/-- The timers at the front of a list that are due. -/
def dueFront (timeOut : ℕ → ℕ) (time : ℕ) (l : List ℕ) : List ℕ :=
  l.takeWhile fun x => decide (timeOut x ≤ time)

def notDue (timeOut : ℕ → ℕ) (time : ℕ) (l : List ℕ) : List ℕ :=
  l.dropWhile fun x => decide (timeOut x ≤ time)

theorem dueFront_append_notDue (timeOut : ℕ → ℕ) (time : ℕ) (l : List ℕ) :
    dueFront timeOut time l ++ notDue timeOut time l = l :=
  takeWhile_append_dropWhile

theorem InOrder.mem_dueFront {time : ℕ} (h : InOrder timeOut l) (hx : x ∈ l)
    (hlive : timerDeleted < timeOut x) (hdue : timeOut x ≤ time) :
    x ∈ dueFront timeOut time l := by
  induction l with
  | nil => cases hx
  | cons y l ih =>
    obtain ⟨hy, hl⟩ := pairwise_cons.mp h
    have hydue : timeOut y ≤ time := by
      rcases mem_cons.mp hx with rfl | hx
      · exact hdue
      · by_cases hdel : timeOut y = timerDeleted
        · omega
        · exact (hy x hx hdel (by omega)).trans hdue
    rw [dueFront, takeWhile_cons_of_pos (by simpa using hydue)]
    rcases mem_cons.mp hx with rfl | hx
    · exact mem_cons_self
    · exact mem_cons_of_mem _ (ih hl hx)

theorem dueFront_due {time : ℕ} (hx : x ∈ dueFront timeOut time l) : timeOut x ≤ time := by
  simpa using mem_takeWhile_imp hx

/-- The loop marks the due front and stops behind it. -/
theorem splitLoop_spec (h : TimerTable) (id : Lists) (time n : ℕ) {a : TlPtr} (hlen : l.length ≤ n)
    (hseg : DSeg h.next h.prev a (l.map .tl) (.last id)) :
    splitLoop id time n (h.next a) h = some (firstOf ((notDue h.timeOut time l).map .tl) (.last id),
        { h with timerList := fun y =>
            if y ∈ dueFront h.timeOut time l then .detached
            else h.timerList y }) := by
  induction l generalizing a n h with
  | nil =>
    have hnext : h.next a = .last id := hseg.1
    cases n <;> simp [splitLoop, hnext, notDue, dueFront]
  | cons x l ih =>
    obtain ⟨hnext, hprev, hrest⟩ := hseg
    rw [length_cons] at hlen
    obtain ⟨n, rfl⟩ : ∃ m, n = m + 1 := ⟨n - 1, by omega⟩
    rw [hnext, splitLoop, if_neg (fun hc => TlPtr.noConfusion hc)]
    by_cases hdue : h.timeOut x ≤ time
    · simp only [if_pos hdue]
      have hstep := ih (h := { h with
        timerList := update h.timerList x .detached }) n (by omega) hrest
      rw [hstep, notDue, dueFront, notDue, dueFront, takeWhile_cons_of_pos (by simpa using hdue),
        dropWhile_cons_of_pos (by simpa using hdue)]
      congr 3
      funext y
      by_cases hyx : y = x
      · simp [hyx]
      · simp [hyx]
    · simp only [if_neg hdue]
      rw [notDue, dueFront, takeWhile_cons_of_neg (by simpa using hdue),
        dropWhile_cons_of_neg (by simpa using hdue)]
      simp

/-- A segment whose last link is cleared is a chain that ends in null. -/
theorem pending_of_seg {next prev : TlPtr → TlPtr} {a b : TlPtr}
    (hseg : DSeg next prev a (l.map .tl) b) (hl : l.Nodup)
    (hne : l ≠ []) :
    Pending (update next (lastOf a (l.map .tl)) .null) (next a) l := by
  induction l generalizing a with
  | nil => exact absurd rfl hne
  | cons x l ih =>
    obtain ⟨hnext, -, hrest⟩ := hseg
    obtain ⟨hxl, hl⟩ := nodup_cons.mp hl
    refine ⟨hnext, ?_⟩
    rw [map_cons, lastOf_cons]
    by_cases hnil : l = []
    · subst hnil
      exact update_self ..
    · have hxu : TlPtr.tl x ≠ lastOf (.tl x) (l.map .tl) := by
        intro heq
        rw [lastOf] at heq
        obtain ⟨l', u, rfl⟩ := (eq_nil_or_concat l).resolve_left hnil
        apply hxl
        have hxu : x = u := by simpa using heq
        simp [hxu]
      rw [update_of_ne hxu]
      exact ih hrest hl hnil

/-- The cut in front of the first timer that is not due. -/
theorem cut_wf (hw : h.Wf .null lists []) (id : Lists) (hl : lists id = l₁ ++ l₂) : ∃ h' firing',
      TimerTable.cut { h with
        timerList := fun y => if y ∈ l₁ then .detached else h.timerList y }
        id (firstOf (l₂.map .tl) (.last id)) = (firing', h') ∧
      h'.Wf firing' (update lists id l₂) l₁ ∧ h'.size = h.size ∧
      h'.timeOut = h.timeOut := by
  have hseg := hw.seg id
  have hmap := hw.map_nodup id
  have hnodup := hw.nodup id
  rw [hl] at hnodup
  rw [hl, map_append] at hseg hmap
  obtain ⟨hnodup₁, -, hdisj⟩ := List.nodup_append.mp hnodup
  have hmem₁ : ∀ y ∈ l₁, y ∈ lists id := fun y hy =>
    hl ▸ mem_append_left _ hy
  have hhome : ∀ id' y, y ∈ update lists id l₂ id' ↔
      (if y ∈ l₁ then Home.detached else h.timerList y) = .list id' := by
    intro id' y
    by_cases hy : y ∈ l₁
    · rw [if_pos hy]
      constructor
      · intro hm
        by_cases hne : id' = id
        · subst hne
          rw [update_self] at hm
          exact absurd rfl (hdisj y hy y hm)
        · rw [update_of_ne hne] at hm
          exact absurd (hw.mem_unique hm (hmem₁ y hy)) hne
      · intro hc
        cases hc
    · rw [if_neg hy, ← hw.home id' y]
      by_cases hne : id' = id
      · subst hne
        rw [update_self, hl]
        simp [hy]
      · rw [update_of_ne hne]
  have hsub : ∀ id', (update lists id l₂ id').Sublist (lists id') := by
    intro id'
    by_cases hne : id' = id
    · subst hne
      rw [update_self, hl]
      exact sublist_append_right ..
    · rw [update_of_ne hne]
  have hnod : ∀ id', (update lists id l₂ id').Nodup :=
    fun id' => (hw.nodup id').sublist (hsub id')
  have hsz : ∀ id' y, y ∈ update lists id l₂ id' → y < h.size :=
    fun id' y hy => hw.size id' y ((hsub id').subset hy)
  have hord : ∀ id', InOrder h.timeOut (update lists id l₂ id') :=
    fun id' => (hw.order id').sublist (hsub id')
  have hprev : h.prev (firstOf (l₂.map .tl) (.last id)) =
      lastOf (.first id) (l₁.map .tl) := hseg.prev_cut
  by_cases hnil : l₁ = []
  · subst hnil
    refine ⟨{ h with timerList := fun y =>
        if y ∈ ([] : List ℕ) then .detached else h.timerList y }, .null, ?_,
      ⟨?_, hhome, hnod, hsz, hord, rfl, nodup_nil, ?_⟩, rfl, rfl⟩
    · rw [TimerTable.cut]
      exact if_pos hprev
    · intro id'
      by_cases hne : id' = id
      · subst hne
        rw [update_self]
        exact hseg
      · rw [update_of_ne hne]
        exact hw.seg id'
    · exact fun y hy => absurd hy not_mem_nil
  · obtain ⟨l, u, hu⟩ := (eq_nil_or_concat l₁).resolve_left hnil
    have hlast : lastOf (TlPtr.first id) (l₁.map .tl) = .tl u := by
      rw [hu]
      simp [lastOf]
    have hul : u ∈ l₁ := by
      rw [hu]
      simp
    have hufirst : TlPtr.tl u ≠ .first id := fun hc => TlPtr.noConfusion hc
    refine ⟨{ h with
        next := update (update h.next (.tl u) .null) (.first id)
          (firstOf (l₂.map .tl) (.last id))
        prev := update h.prev (firstOf (l₂.map .tl) (.last id)) (.first id)
        timerList := fun y => if y ∈ l₁ then .detached else h.timerList y },
      h.next (.first id), ?_,
      ⟨?_, hhome, hnod, hsz, hord, ?_, hnodup₁, ?_⟩, rfl, rfl⟩
    · rw [TimerTable.cut]
      simp only [hprev, hlast, if_neg hufirst]
    · intro id'
      by_cases hne : id' = id
      · subst hne
        rw [update_self, update_comm hufirst]
        have hfirst := Wf.first_notMem (l₁ ++ l₂) id'
        have hlastm := Wf.last_notMem (l₁ ++ l₂) id'
        rw [map_append] at hfirst hlastm
        have hnil : DSeg h.next h.prev (.first id')
            ([] ++ (l₁.map .tl ++ l₂.map .tl)) (.last id') := hseg
        have hby := hnil.bypass hmap hfirst hlastm
        apply hby.update_next hufirst
        intro hm
        obtain ⟨y, hy, heq⟩ := List.mem_map.mp hm
        exact hdisj u hul y hy (TlPtr.tl.inj heq).symm
      · rw [update_of_ne hne]
        apply hw.seg_of_ne hne (x := u)
        · exact fun hm => hne (hw.mem_unique hm (hmem₁ u hul))
        · intro p hp hpu
          have hpf : p ≠ .first id := fun heq => hp (.inl heq)
          exact (update_of_ne hpf ..).trans (update_of_ne hpu ..)
        · intro p hp hpu
          have hpv : p ≠ firstOf (l₂.map .tl) (.last id) := by
            rintro rfl
            exact hp (Wf.place_firstOf hl)
          exact update_of_ne hpv ..
    · have hpend := pending_of_seg hseg.left hnodup₁ hnil
      rw [hlast] at hpend
      refine hpend.congr ?_
      intro y _
      have hy : TlPtr.tl y ≠ .first id := fun hc => TlPtr.noConfusion hc
      show update (update h.next (.tl u) .null) (.first id)
        (firstOf (l₂.map .tl) (.last id)) (.tl y) = _
      rw [update_of_ne hy]
    · exact fun y hy => if_pos hy

theorem checkAndSplitTimeList_wf (hw : h.Wf .null lists []) (id : Lists) (time : ℕ) :
    ∃ h' firing', h.checkAndSplitTimeList id time = some (firing', h') ∧
      h'.Wf firing' (update lists id (notDue h.timeOut time (lists id)))
        (dueFront h.timeOut time (lists id)) ∧
      h'.size = h.size ∧ h'.timeOut = h.timeOut := by
  obtain ⟨h', firing', hcut, hw', hsize, htime⟩ := cut_wf hw id
    (dueFront_append_notDue h.timeOut time (lists id)).symm
  refine ⟨h', firing', ?_, hw', hsize, htime⟩
  rw [checkAndSplitTimeList, splitLoop_spec h id time h.size (hw.length_le id) (hw.seg id)]
  exact congrArg some hcut

/-- A detached timer cleared out of the chain. -/
theorem fire_wf {more : List ℕ} (hw : h.Wf firing lists (x :: more)) :
    TimerTable.Wf { h with
      next := update h.next (.tl x) .null
      prev := update h.prev (.tl x) .null } (h.next (.tl x)) lists more := by
  obtain ⟨hxmore, hmore⟩ := nodup_cons.mp hw.chainNodup
  refine ⟨?_, hw.home, hw.nodup, hw.size, hw.order, ?_, hmore, ?_⟩
  · intro id
    have hx : TlPtr.tl x ∉ (lists id).map TlPtr.tl := by
      intro hm
      obtain ⟨y, hy, heq⟩ := List.mem_map.mp hm
      have hnot : ¬ Wf.Place lists id (.tl x) :=
        hw.chain_not_place mem_cons_self
      apply hnot
      exact .inr (.inr ⟨y, hy, heq.symm⟩)
    apply ((hw.seg id).update_next _ hx).update_prev _ hx
    · exact fun hc => TlPtr.noConfusion hc
    · exact fun hc => TlPtr.noConfusion hc
  · refine hw.pending.2.congr ?_
    intro y hy
    have hyx : TlPtr.tl y ≠ .tl x := by
      intro hc
      exact hxmore (TlPtr.tl.inj hc ▸ hy)
    show update h.next (.tl x) .null (.tl y) = _
    rw [update_of_ne hyx]
  · exact fun y hy => hw.detached y (mem_cons_of_mem _ hy)

theorem clear_wf (hw : h.Wf firing lists chain) (hd : h.timerList x = .detached) (hx : x ∉ chain) :
    TimerTable.Wf { h with timerList := update h.timerList x .null } firing
      lists chain := by
  refine ⟨hw.seg, ?_, hw.nodup, hw.size, hw.order, hw.pending, hw.chainNodup, ?_⟩
  · intro id y
    show _ ↔ update h.timerList x .null y = _
    rw [hw.home id y]
    by_cases hyx : y = x
    · subst hyx
      rw [update_self, hd]
      constructor
      · intro hc
        cases hc
      · intro hc
        cases hc
    · rw [update_of_ne hyx]
  · intro y hy
    have hyx : y ≠ x := by
      rintro rfl
      exact hx hy
    show update h.timerList x .null y = _
    rw [update_of_ne hyx]
    exact hw.detached y hy

end Operations

/-! ## Runs -/

/-- The table is well formed, and the timer whose handler runs has left the
detached chain. -/
structure TimerState.Wf (s : TimerState) (lists : Lists → List ℕ)
    (chain : List ℕ) : Prop where
  table : s.table.Wf s.firing lists chain
  running : ∀ x, s.current = some x →
    s.table.timerList x = .detached ∧ x ∉ chain

/-- `set_1timer` is used for a timer that is set, which it leaves alone, or
for one that is not linked. -/
def TimerEvent.guarded : TimerEvent → TimerState → Prop
  | .set1timer x _ _ _, s =>
    s.table.timerList x = .null ∨ timerDeleted < s.table.timeOut x
  | _, _ => True

/-- What a step other than a split does to the detached chain: it leaves it,
or takes its first timer off and hands it over if it is not deleted. -/
def Handles (s s' : TimerState) (chain chain' : List ℕ) : Prop :=
  (chain' = chain ∧ s'.handed = s.handed) ∨ ∃ x, chain = x :: chain' ∧ s'.handed = s.handed ++
      if timerDeleted < s.table.timeOut x then [x] else []

def TimerEvent.IsSplit : TimerEvent → Prop
  | .split _ _ => True
  | _ => False

section Runs

variable {s s' : TimerState} {lists : Lists → List ℕ} {chain : List ℕ}

theorem TimerState.Wf.of_table (hw : s.Wf lists chain) {h' : TimerTable}
    {lists' : Lists → List ℕ} (hw' : h'.Wf s.firing lists' chain)
    (hsame : ∀ y, s.table.timerList y = .detached → Untouched s.table h' y) :
    TimerState.Wf { s with table := h' } lists' chain := by
  refine ⟨hw', ?_⟩
  intro x hx
  obtain ⟨hd, hxc⟩ := hw.running x hx
  exact ⟨(hsame x hd).1.trans hd, hxc⟩

theorem step_wf {ev : TimerEvent} (hw : s.Wf lists chain)
    (hok : ev.guarded s) (hev : ¬ ev.IsSplit) (hs : s.step ev = some s') :
    ∃ lists' chain', s'.Wf lists' chain' ∧ Handles s s' chain chain' ∧
      ∀ y ∈ chain, s'.table.timeOut y = s.table.timeOut y ∨
        (ev = .resetTimer y ∧ s'.table.timeOut y = timerDeleted) := by
  cases ev with
  | setTimer x id ticks timeout =>
    simp only [TimerState.step] at hs
    obtain ⟨hx, hs⟩ := Option.ite_none_right_eq_some.mp hs
    obtain ⟨h', lists', hset, hw', -, hsame⟩ :=
      setTimer_wf hw.table id ticks timeout hx
    rw [hset] at hs
    cases hs
    refine ⟨lists', chain, hw.of_table hw' hsame, .inl ⟨rfl, rfl⟩, ?_⟩
    exact fun y hy => .inl (hsame y (hw.table.detached y hy)).2
  | set1timer x id ticks timeout =>
    simp only [TimerState.step] at hs
    obtain ⟨hx, hs⟩ := Option.ite_none_right_eq_some.mp hs
    obtain ⟨h', lists', hset, hw', -, hsame⟩ :=
      set1timer_wf hw.table id ticks timeout hx hok
    rw [hset] at hs
    cases hs
    refine ⟨lists', chain, hw.of_table hw' hsame, .inl ⟨rfl, rfl⟩, ?_⟩
    exact fun y hy => .inl (hsame y (hw.table.detached y hy)).2
  | resetTimer x =>
    simp only [TimerState.step] at hs
    obtain ⟨hx, ⟨⟩⟩ := Option.ite_none_right_eq_some.mp hs
    refine ⟨lists, chain, ⟨resetTimer_wf hw.table x, hw.running⟩, .inl ⟨rfl, rfl⟩, ?_⟩
    intro y _
    by_cases hyx : y = x
    · subst hyx
      exact .inr ⟨rfl, update_self ..⟩
    · exact .inl (update_of_ne hyx ..)
  | split id time => exact absurd trivial hev
  | fire =>
    simp only [TimerState.step] at hs
    split at hs
    case h_2 => cases hs
    case h_1 x hx =>
      cases hs
      cases chain with
      | nil =>
        have hnull : s.firing = .null := hw.table.pending
        rw [hx] at hnull
        cases hnull
      | cons z more =>
        have hz : s.firing = .tl z := hw.table.pending.1
        rw [hx] at hz
        cases hz
        have hxmore := (nodup_cons.mp hw.table.chainNodup).1
        refine ⟨lists, more, ⟨fire_wf hw.table, ?_⟩, .inr ⟨x, rfl, ?_⟩, fun y _ => .inl rfl⟩
        · intro y hy
          simp only [TimerState.fire] at hy
          split at hy
          · cases hy
            exact ⟨hw.table.detached x mem_cons_self, hxmore⟩
          · cases hy
        · simp only [TimerState.fire]
          split
          · rfl
          · simp
  | clear =>
    simp only [TimerState.step] at hs
    split at hs
    case h_2 => cases hs
    case h_1 x hx =>
      cases hs
      obtain ⟨hd, hxc⟩ := hw.running x hx
      refine ⟨lists, chain, ⟨clear_wf hw.table hd hxc, ?_⟩, .inl ⟨rfl, rfl⟩, fun y _ => .inl rfl⟩
      intro y hy
      cases hy

theorem Pending.eq_nil {next : TlPtr → TlPtr} {l : List ℕ} (h : Pending next .null l) : l = [] := by
  cases l with
  | nil => rfl
  | cons x l => exact TlPtr.noConfusion h.1

theorem step_split (hw : s.Wf lists chain) (hf : s.firing = .null) (id : Lists) (time : ℕ) :
    ∃ s', s.step (.split id time) = some s' ∧
      s'.Wf (update lists id (notDue s.table.timeOut time (lists id)))
        (dueFront s.table.timeOut time (lists id)) ∧
      s'.handed = s.handed ∧ s'.table.timeOut = s.table.timeOut := by
  have htable := hw.table
  rw [hf] at htable
  obtain rfl := htable.pending.eq_nil
  obtain ⟨h', firing', hsplit, hw', -, htime⟩ :=
    checkAndSplitTimeList_wf htable id time
  refine ⟨{ s with table := h', firing := firing', current := none }, ?_,
    ⟨hw', ?_⟩, rfl, htime⟩
  · rw [TimerState.step, if_pos hf, hsplit]
    rfl
  · intro x hx
    cases hx

theorem fresh_wf (hs : s.Fresh) : s.Wf (fun _ => []) [] := by
  refine ⟨⟨fun id => ⟨hs.next id, hs.prev id⟩, ?_, fun _ => nodup_nil, ?_,
    fun _ => List.Pairwise.nil, hs.firing, nodup_nil, ?_⟩, ?_⟩
  · intro id x
    rw [hs.timerList x]
    constructor
    · intro hx
      cases hx
    · intro hx
      cases hx
  · intro _ _ hx
    cases hx
  · intro _ hx
    cases hx
  · intro x hx
    rw [hs.current] at hx
    cases hx

theorem reach_wf (h : timers.ReachWhen TimerEvent.guarded s) : ∃ lists chain, s.Wf lists chain := by
  apply h.invariant fun s => ∃ lists chain, s.Wf lists chain
  · exact fun s hs => ⟨_, _, fresh_wf hs⟩
  · rintro ev s s' ⟨lists, chain, hw⟩ hok hs
    by_cases hev : ev.IsSplit
    · cases ev with
      | split id time =>
        have hf : s.firing = .null := by
          by_contra hf
          simp [timers, TimerState.step, hf] at hs
        obtain ⟨s₁, hsplit, hw', -⟩ := step_split hw hf id time
        have heq : s₁ = s' := Option.some.inj (hsplit.symm.trans hs)
        exact ⟨_, _, heq ▸ hw'⟩
      | _ => exact hev.elim
    · obtain ⟨lists', chain', hw', -⟩ := step_wf hw hok hev hs
      exact ⟨lists', chain', hw'⟩

/-- Between two splits the detached timers leave the chain from the front,
each once, and those that are not deleted go to the handler. -/
theorem run_handles {evs : List TimerEvent} (hw : s.Wf lists chain)
    (hok : timers.Admits (fun ev s => ev.guarded s ∧ ¬ ev.IsSplit) s evs)
    (hrun : timers.run s evs = some s') :
    ∃ lists' gone more fired, s'.Wf lists' more ∧ chain = gone ++ more ∧
      s'.handed = s.handed ++ fired ∧ fired.Sublist gone ∧
      (∀ x ∈ gone, timerDeleted < s.table.timeOut x → .resetTimer x ∉ evs → x ∈ fired) ∧
      ∀ x ∈ fired, timerDeleted < s.table.timeOut x := by
  induction evs generalizing s lists chain with
  | nil =>
    have hss' : s = s' := by simpa [Machine.run] using hrun
    subst hss'
    exact ⟨lists, [], chain, [], hw, rfl, by simp, .slnil, fun x hx => absurd hx not_mem_nil,
      fun x hx => absurd hx not_mem_nil⟩
  | cons ev evs ih =>
    obtain ⟨⟨hguard, hev⟩, hokrest⟩ := hok
    obtain ⟨u, hu, hrest⟩ := Option.bind_eq_some_iff.mp hrun
    obtain ⟨lists₁, chain₁, hw₁, hhandles, htime⟩ :=
      step_wf hw hguard hev hu
    obtain ⟨lists', gone, more, fired, hw', hchain, hhanded, hsub, hlive,
      hdead⟩ := ih hw₁ (hokrest u hu) hrest
    have hlive' : ∀ y ∈ chain, y ∈ gone → timerDeleted < s.table.timeOut y →
        .resetTimer y ∉ ev :: evs → y ∈ fired := by
      intro y hy hgone ht hreset
      obtain ⟨hev', hevs'⟩ := not_or.mp (mt mem_cons.mpr hreset)
      apply hlive y hgone _ hevs'
      rcases htime y hy with hsame | ⟨heq, -⟩
      · rw [hsame]
        exact ht
      · exact absurd heq.symm hev'
    have hdead' : ∀ y ∈ chain, y ∈ fired → timerDeleted < s.table.timeOut y := by
      intro y hy hfired
      have ht := hdead y hfired
      rcases htime y hy with hsame | ⟨-, hdel⟩
      · rw [hsame] at ht
        exact ht
      · rw [hdel] at ht
        exact absurd ht (lt_irrefl _)
    rcases hhandles with ⟨rfl, hsame⟩ | ⟨x, rfl, hfire⟩
    · refine ⟨lists', gone, more, fired, hw', hchain, ?_, hsub, ?_, ?_⟩
      · rw [hhanded, hsame]
      · exact fun y hy => hlive' y (hchain ▸ mem_append_left _ hy) hy
      · exact fun y hy => hdead' y (hchain ▸ mem_append_left _ (hsub.subset hy)) hy
    · have hin : ∀ y ∈ gone, y ∈ x :: chain₁ := fun y hy =>
        mem_cons_of_mem _ (hchain ▸ mem_append_left _ hy)
      by_cases ht : timerDeleted < s.table.timeOut x
      · refine ⟨lists', x :: gone, more, x :: fired, hw', ?_, ?_, hsub.cons_cons x, ?_, ?_⟩
        · rw [hchain, cons_append]
        · rw [hhanded, hfire, if_pos ht, append_assoc, singleton_append]
        · intro y hy hy' hreset
          rcases mem_cons.mp hy with rfl | hy
          · exact mem_cons_self
          · exact mem_cons_of_mem _ (hlive' y (hin y hy) hy hy' hreset)
        · intro y hy
          rcases mem_cons.mp hy with rfl | hy
          · exact ht
          · exact hdead' y (hin y (hsub.subset hy)) hy
      · refine ⟨lists', x :: gone, more, fired, hw', ?_, ?_, hsub.cons x, ?_, ?_⟩
        · rw [hchain, cons_append]
        · rw [hhanded, hfire, if_neg ht, append_nil]
        · intro y hy hy' hreset
          rcases mem_cons.mp hy with rfl | hy
          · exact absurd hy' ht
          · exact hlive' y (hin y hy) hy hy' hreset
        · exact fun y hy => hdead' y (hin y (hsub.subset hy)) hy

end Runs

end Msicp.Tm
