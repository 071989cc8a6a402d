import Msicp.Tm.WaitDelete

/-!
# The DELETE list

`wait_handler` puts a cell that is still referenced on the DELETE list, and
`delete_handler` frees it later.  A cell that `delete_handler` finds still
referenced is not put back: its timer is marked as detached, and `set_timer`
ignores such timers.
-/

namespace Msicp.Tm.Lifetime

open Msicp.Support Function

/-- No timer is set to a time of at most `TIMER_DELETED`, and no
`delete_handler` finds its cell referenced. -/
def Event.retried : Event → State → Prop
  | .act _ _ (.putOnWait time), _ => timerDeleted < time
  | .delete time, s =>
    match s.running with
    | some (_, .del _ .rearm) => timerDeleted < time
    | some (c, .del false .check) =>
      ∀ t, s.cells c = some t → t.refCount = 0
    | _ => True
  | _, _ => True

theorem Event.retried_onTime {ev : Event} {s : State} (h : ev.retried s) :
    ev.onTime := by
  cases ev with
  | act who c a =>
    cases a with
    | putOnWait time => exact h
    | _ => trivial
  | _ => trivial

/-- A cell for which `wait_handler` was called is freed, on the DELETE list,
or in the hands of the timer process. -/
structure Scheduled (v : View) (t : Cell) : Prop where
  late : (t.link .dele).timerList ≠ .null →
    timerDeleted < (t.link .dele).timeOut
  unlocked : v.task ≠ some (.del false .rearm)
  scheduled : 1 ≤ t.waits → v.freed ∨ (t.link .dele).linked = true ∨
    v.queued .dele ∨ v.task = some .wait ∨
      ∃ unlock st, v.task = some (.del unlock st)

namespace Scheduled

variable {s : State} {c : ℕ} {v v' : View} {t t' : Cell} {ev : Event}

theorem congr (h : Scheduled v t) (hdele : t'.link .dele = t.link .dele)
    (hwaits : t'.waits = t.waits) : Scheduled v t' := by
  refine ⟨?_, h.unlocked, ?_⟩
  · rw [hdele]
    exact h.late
  · rw [hdele, hwaits]
    exact h.scheduled

theorem stage (h : Scheduled v t) (unlock : Bool) {st : DelStage}
    (hst : unlock = false → st ≠ .rearm) :
    Scheduled { v with task := some (.del unlock st) } t := by
  refine ⟨h.late, ?_, fun _ => .inr (.inr (.inr (.inr ⟨unlock, st, rfl⟩)))⟩
  intro heq
  cases heq
  exact hst rfl rfl

theorem born (hborn : Born c ev t) (hblank : v.Blank) : Scheduled v t := by
  have hlink : t.link .dele = {} := by
    cases hborn <;> rfl
  have hwaits : t.waits = 0 := by
    cases hborn <;> rfl
  refine ⟨?_, ?_, ?_⟩
  · rw [hlink]
    exact fun hne => absurd rfl hne
  · rw [hblank.1]
    simp
  · rw [hwaits]
    exact fun hle => absurd hle (by decide)

section

variable (h : Scheduled v t)
include h

theorem act {a : Act} (ht : t.act a = some t') :
    Scheduled v t' := by
  cases a with
  | grow n =>
    simp only [Cell.act] at ht
    obtain ⟨_, ⟨⟩⟩ := Option.ite_none_right_eq_some.mp ht
    exact h.congr rfl rfl
  | setTimer k b id time =>
    simp only [Cell.act] at ht
    obtain ⟨_, ⟨⟩⟩ := Option.ite_none_right_eq_some.mp ht
    exact h.congr (setLink_buf_dele ..) rfl
  | resetTimer k b =>
    cases ht
    exact h.congr (setLink_buf_dele ..) rfl
  | putOnWait time =>
    cases ht
    exact h.congr (setLink_wait_dele ..) rfl

theorem split (hidle : v.task = none)
    (hempty : ∀ tm, ¬ v.queued tm) {id : Lists} {queued : CellTimer → Prop}
    (hhome : ∀ tm, queued tm → (t.link tm).timerList = .list id)
    (hlink : t'.link .dele = (t.link .dele).detach ∧ queued .dele ∨
      t'.link .dele = t.link .dele ∧ ¬ queued .dele)
    (hwaits : t'.waits = t.waits) :
    Scheduled { v with list := id, queued := queued } t' := by
  refine ⟨?_, h.unlocked, ?_⟩
  · rcases hlink with ⟨heq, hq⟩ | ⟨heq, -⟩
    · rw [heq]
      intro _
      apply h.late
      rw [hhome _ hq]
      simp
    · rw [heq]
      exact h.late
  · rw [hwaits]
    intro hle
    rcases h.scheduled hle with hf | hl | hq | htask | ⟨unlock, st, htask⟩
    · exact .inl hf
    · rcases hlink with ⟨-, hq⟩ | ⟨heq, -⟩
      · exact .inr (.inr (.inl hq))
      · rw [heq]
        exact .inr (.inl hl)
    · exact absurd hq (hempty _)
    · rw [hidle] at htask
      cases htask
    · rw [hidle] at htask
      cases htask

/-- A handler is called for a timer that was taken off the chain. -/
theorem fire (hc : Course v t) {tm : CellTimer}
    (hidle : v.task = none) (hq : v.queued tm) (hlink : t'.link = t.link)
    (hwaits : t'.waits = if v.list = .wt then t.waits + 1 else t.waits) :
    Scheduled { v with
      queued := fun tm' => v.queued tm' ∧ tm' ≠ tm
      task := some (handlerTask v.list tm) } t' := by
  obtain ⟨-, hfits⟩ := hc.queued tm hq
  refine ⟨?_, ?_, ?_⟩
  · rw [hlink]
    exact h.late
  · intro heq
    have htask : handlerTask v.list tm = .del false .rearm := Option.some.inj heq
    cases hl : v.list <;> cases tm <;> simp [hl, handlerTask] at htask
  · intro hle
    by_cases hwt : v.list = .wt
    · right; right; right; left
      simp [handlerTask, hwt]
    · rw [hwaits, if_neg hwt] at hle
      by_cases hdel : v.list = .delete
      · right; right; right; right
        exact ⟨false, .look, by simp [handlerTask, hdel]⟩
      · rw [hlink]
        rcases h.scheduled hle with hf | hl | hqd | htask | ⟨_, _, htask⟩
        · exact .inl hf
        · exact .inr (.inl hl)
        · have hfd := (hc.queued _ hqd).2
          cases hl : v.list <;> simp [hl, CellTimer.fits] at hfd hdel
        · rw [hidle] at htask
          cases htask
        · rw [hidle] at htask
          cases htask

theorem skip (hc : Course v t) {tm : CellTimer}
    (hq : v.queued tm) (hdead : ¬ timerDeleted < (t.link tm).timeOut) :
    Scheduled { v with queued := fun tm' => v.queued tm' ∧ tm' ≠ tm } t := by
  refine ⟨h.late, h.unlocked, ?_⟩
  intro hle
  rcases h.scheduled hle with hf | hl | hqd | htask
  · exact .inl hf
  · exact .inr (.inl hl)
  · refine .inr (.inr (.inl ⟨hqd, ?_⟩))
    rintro rfl
    apply hdead
    apply h.late
    rw [(hc.queued _ hqd).1]
    simp
  · exact .inr (.inr (.inr htask))

/-- `delete_cell`, called by `wait_handler`, links the cell in. -/
theorem rearm (hc : Course v t) {unlock : Bool}
    (htask : v.task = some (.del unlock .rearm)) {time : ℕ}
    (htime : timerDeleted < time) :
    Scheduled { v with task := none }
      (t.setLink .dele ((t.link .dele).setTimer .delete time)) := by
  have hunlock : unlock = true := by
    by_contra hne
    rw [Bool.eq_false_iff.mpr hne] at htask
    exact h.unlocked htask
  subst hunlock
  have hnull : (t.link .dele).timerList = .null := by
    by_contra hne
    exact (hc.dele hne).2.2.2 _ htask
  have hset : (t.link .dele).setTimer .delete time = ⟨.list .delete, time⟩ := by
    apply Link.setTimer_of_not_detached
    rw [hnull]
    simp
  rw [hset]
  refine ⟨?_, (by simp), ?_⟩
  · rw [setLink_link_self]
    exact fun _ => htime
  · rw [setLink_link_self]
    exact fun _ => .inr (.inl rfl)

end

theorem step (h : Scheduled (s.view c) t) (hc : Course (s.view c) t)
    (ht : s.cells c = some t) (hok : ev.retried s)
    (hs : CellStep s c ev t v' t') : Scheduled v' t' := by
  cases hs with
  | other ev t => exact h
  | uacBuilt t _ => exact h.congr rfl rfl
  | uacDone t _ => exact h.congr rfl rfl
  | uacRemove t _ => exact h.congr rfl rfl
  | uacFree t _ => exact ⟨h.late, h.unlocked, fun _ => .inl trivial⟩
  | lookup how t _ _ => exact h.congr rfl rfl
  | unref t _ _ => exact h.congr rfl rfl
  | act who a t t' _ hact => exact h.act hact
  | split id time chain t hidle hempty hhome =>
    refine h.split hidle hempty hhome ?_ rfl
    by_cases hmem : (c, CellTimer.dele) ∈ chain
    · exact .inl ⟨if_pos hmem, hmem⟩
    · exact .inr ⟨if_neg hmem, hmem⟩
  | fire tm t hidle hq _ => exact h.fire hc hidle hq rfl rfl
  | skip tm t hq hdead => exact h.skip hc hq hdead
  | clearRetr b t _ => exact h.congr (setLink_buf_dele ..) rfl
  | handlerDone k b t htask =>
    refine ⟨h.late, (by simp), ?_⟩
    intro hle
    rcases h.scheduled hle with hf | hl | hq | hwait | ⟨_, _, hdel⟩
    · exact .inl hf
    · exact .inr (.inl hl)
    · exact .inr (.inr (.inl hq))
    · rw [htask] at hwait
      cases hwait
    · rw [htask] at hdel
      cases hdel
  | waitRemove t _ =>
    have hdele : (if t.isInvite then t.cleanupLocalcancelTimers else t).link
        .dele = t.link .dele := by
      split <;> rfl
    have hwaits : (if t.isInvite then t.cleanupLocalcancelTimers else t).waits
        = t.waits := by
      split <;> rfl
    have hnew : Scheduled (s.view c)
        { (if t.isInvite then t.cleanupLocalcancelTimers else t) with
          inTable := false } := h.congr hdele hwaits
    exact hnew.stage true (by simp)
  | look unlock time t _ => exact h.stage unlock (by simp)
  | removeRetr unlock removeFr removeRetr time t _ =>
    cases removeRetr with
    | true =>
      have hnew : Scheduled (s.view c) (t.unlink .retr) := h.congr rfl rfl
      exact hnew.stage unlock (by simp)
    | false => exact h.stage unlock (by simp)
  | removeFr unlock removeFr time t _ =>
    cases removeFr with
    | true =>
      have hnew : Scheduled (s.view c) (t.unlink .fr) := h.congr rfl rfl
      exact hnew.stage unlock (by simp)
    | false => exact h.stage unlock (by simp)
  | check unlock time t htask =>
    apply h.stage
    rintro rfl
    have hrun := running_of_task htask
    simp only [Event.retried, hrun] at hok
    simp [hok t ht]
  | rearm unlock time t htask =>
    have hrun := running_of_task htask
    simp only [Event.retried, hrun] at hok
    exact h.rearm hc htask hok
  | free unlock time t _ =>
    exact ⟨h.late, (by simp), fun _ => .inl trivial⟩

end Scheduled

/-! ## Runs -/

/-- Every cell is on its course and scheduled. -/
structure OnSchedule (s : State) : Prop extends OnCourse s where
  scheduled : ∀ c t, s.cells c = some t → Scheduled (s.view c) t

theorem OnSchedule.step {s s' : State} {ev : Event} (h : OnSchedule s)
    (hok : ev.retried s) (hs : s.step ev = some s') : OnSchedule s' := by
  refine ⟨h.toOnCourse.step (Event.retried_onTime hok) hs, ?_⟩
  intro c t' hc
  rcases step_changes h.chainNodup hs c t' hc with
    ⟨hnone, hborn, hview⟩ | ⟨t, ht, hstep⟩
  · rw [hview]
    exact .born hborn (h.unborn c hnone)
  · exact (h.scheduled c t ht).step (h.course c t ht) ht hok hstep

/-- In a run in which every `delete_handler` finds its cell unreferenced, a
cell that `wait_handler` has removed is freed or on the DELETE list between
ticks. -/
theorem removed_cell_on_delete_list {s : State}
    (h : lifetimes.ReachWhen Event.retried s) (hidle : s.running = none)
    (hempty : s.chain = []) (c : ℕ) {t : Cell} (ht : s.cells c = some t)
    (hwait : 1 ≤ t.waits) (hfree : ∀ u, (c, u) ∉ s.freed) :
    (t.link .dele).timerList = .list .delete := by
  have hinv : OnSchedule s := by
    apply h.invariant OnSchedule
    · rintro s rfl
      exact ⟨onCourse_init, (by simp)⟩
    · exact fun ev s s' hs hok hstep => hs.step hok hstep
  have htask : (s.view c).task = none := by
    simp only [State.view, hidle, taskOf_none]
  rcases (hinv.scheduled c t ht).scheduled hwait with
    ⟨u, hu⟩ | hl | hq | hw | ⟨_, _, hdel⟩
  · exact absurd hu (hfree u)
  · obtain ⟨id, hid⟩ := (Link.linked_iff _).mp hl
    have hfits := (hinv.course c t ht).home _ id hid
    rw [hid]
    cases id <;> simp [CellTimer.fits] at hfits
    rfl
  · simp only [State.view, hempty] at hq
    cases hq
  · rw [htask] at hw
    cases hw
  · rw [htask] at hdel
    cases hdel

/-- A cell that is still referenced when `wait_handler` runs. -/
theorem removed_cell_on_delete_list_once :
    ∃ s t, lifetimes.ReachWhen Event.retried s ∧ s.cells 0 = some t ∧
      t.waits = 1 ∧ (t.link .dele).timerList = .list .delete := by
  have hreach : lifetimes.ReachWhen Event.retried
      ((lifetimes.run {} [.newT 0 0 false, .act .worker 0 (.putOnWait 10),
        .split .wt 10 [(0, .wait)], .fire, .waitRemove, .delete 0, .delete 0,
        .delete 0, .delete 0, .delete 12]).getD {}) := by
    apply Machine.ReachWhen.run (.init rfl) _ (rfl : lifetimes.run {} [.newT 0 0 false,
        .act .worker 0 (.putOnWait 10), .split .wt 10 [(0, .wait)], .fire,
        .waitRemove, .delete 0, .delete 0, .delete 0, .delete 0,
        .delete 12] = some _)
    exact .cons trivial rfl <| .cons (by decide : timerDeleted < 10) rfl <| .cons trivial rfl <|
      .cons trivial rfl <| .cons trivial rfl <| .cons trivial rfl <| .cons trivial rfl <|
      .cons trivial rfl <| .cons trivial rfl <|
      ⟨(by decide : timerDeleted < 12), fun _ _ => trivial⟩
  exact ⟨_, _, hreach, rfl, rfl, removed_cell_on_delete_list hreach rfl rfl 0 rfl le_rfl
      fun _ hu => List.not_mem_nil hu⟩

/-- A cell that is still referenced when `delete_handler` runs stays detached
and is not freed. -/
theorem referenced_cell_lost : ∃ s t, lifetimes.Reach s ∧ s.running = none ∧ s.chain = [] ∧
      s.cells 0 = some t ∧ t.waits = 1 ∧ t.inTable = false ∧
      s.freed.length = 0 ∧ (t.link .dele).timerList = .detached := by
  refine ⟨_, _, Machine.Reach.run (.init rfl) [.newT 0 0 false, .act .worker 0 (.putOnWait 10),
      .split .wt 10 [(0, .wait)], .fire, .waitRemove, .delete 0, .delete 0,
      .delete 0, .delete 0, .delete 12, .split .delete 12 [(0, .dele)], .fire,
      .delete 0, .delete 0, .delete 0, .delete 0, .delete 14] rfl,
    rfl, rfl, rfl, rfl, rfl, rfl, rfl⟩

end Msicp.Tm.Lifetime
