import Msicp.Tm.Lifetime

/-!
# The WAIT and the DELETE timer of a cell

`put_on_wait` sets the WAIT timer once, so `wait_handler` runs at most once
for a cell, and the DELETE timer is set behind it only.
-/

namespace Msicp.Tm.Lifetime

open Msicp.Support Function Option

/-! ## Links of a changed cell -/

section Links

variable {t : Cell}

@[simp] theorem setLink_link_self (t : Cell) (tm : CellTimer) (l : Link) :
    (t.setLink tm l).link tm = l :=
  update_self ..

@[simp] theorem setLink_link_of_ne {tm tm' : CellTimer} (hne : tm' ≠ tm)
    (t : Cell) (l : Link) : (t.setLink tm l).link tm' = t.link tm' :=
  update_of_ne hne ..

@[simp] theorem setLink_wait_dele (t : Cell) (l : Link) :
    (t.setLink .wait l).link .dele = t.link .dele := by
  simp [Cell.setLink]

@[simp] theorem setLink_wait_buf (t : Cell) (l : Link) (k : TimerKind)
    (b : Buf) : (t.setLink .wait l).link (.buf k b) = t.link (.buf k b) := by
  simp [Cell.setLink]

@[simp] theorem setLink_dele_buf (t : Cell) (l : Link) (k : TimerKind)
    (b : Buf) : (t.setLink .dele l).link (.buf k b) = t.link (.buf k b) := by
  simp [Cell.setLink]

@[simp] theorem setLink_buf_wait (t : Cell) (l : Link) (k : TimerKind)
    (b : Buf) : (t.setLink (.buf k b) l).link .wait = t.link .wait := by
  simp [Cell.setLink]

@[simp] theorem setLink_buf_dele (t : Cell) (l : Link) (k : TimerKind)
    (b : Buf) : (t.setLink (.buf k b) l).link .dele = t.link .dele := by
  simp [Cell.setLink]

@[simp] theorem setLink_waits (t : Cell) (tm : CellTimer) (l : Link) :
    (t.setLink tm l).waits = t.waits := rfl

@[simp] theorem setLink_inTable (t : Cell) (tm : CellTimer) (l : Link) :
    (t.setLink tm l).inTable = t.inTable := rfl

theorem Link.setTimer_of_detached {l : Link} (h : l.timerList = .detached)
    (id : Lists) (time : ℕ) : l.setTimer id time = l :=
  if_pos h

theorem Link.setTimer_of_not_detached {l : Link} (h : l.timerList ≠ .detached)
    (id : Lists) (time : ℕ) : l.setTimer id time = ⟨.list id, time⟩ :=
  if_neg h

theorem Link.remove_of_detached {l : Link} (h : l.timerList = .detached) : l.remove = l := by
  simp [remove, linked, h]

theorem unlink_link (t : Cell) (k k' : TimerKind) (b : Buf) : (t.unlink k).link (.buf k' b) =
      if k' = k ∧ b ∈ t.buffers then (t.link (.buf k' b)).remove
      else t.link (.buf k' b) := rfl

theorem cleanup_timerList (t : Cell) (tm : CellTimer) :
    (t.cleanupLocalcancelTimers.link tm).timerList = (t.link tm).timerList := by
  cases tm with
  | buf k b =>
    cases b with
    | localCancel i =>
      simp only [Cell.cleanupLocalcancelTimers]
      split <;> rfl
    | _ => rfl
  | _ => rfl

end Links

/-! ## The course of a cell -/

/-- Where the WAIT and DELETE timers of a cell are in the course from
`put_on_wait` to `delete_handler`. -/
structure Course (v : View) (t : Cell) : Prop where
  home : ∀ tm id, (t.link tm).timerList = .list id → tm.fits id = true
  queued : ∀ tm, v.queued tm →
    (t.link tm).timerList = .detached ∧ tm.fits v.list = true
  waits_le : t.waits ≤ 1
  fresh : (t.link .wait).timerList ≠ .detached ∨ v.queued .wait → t.waits = 0
  live : (t.link .wait).timerList ≠ .null →
    timerDeleted < (t.link .wait).timeOut
  dele : (t.link .dele).timerList ≠ .null →
    t.waits = 1 ∧ t.inTable = false ∧ v.task ≠ some .wait ∧
      ∀ st, v.task ≠ some (.del true st)
  handler : ∀ k b, v.task = some (.handler k b) → ¬ v.queued (.buf k b)
  wait : v.task = some .wait → t.waits = 1 ∧ v.list = .wt
  delWait : ∀ st, v.task = some (.del true st) →
    t.waits = 1 ∧ t.inTable = false ∧ v.list = .wt
  delDele : ∀ st, v.task = some (.del false st) →
    (t.link .dele).timerList = .detached ∧ ¬ v.queued .dele ∧
      v.list = .delete

/-- `put_on_wait` sets the WAIT timer to a time beyond `TIMER_DELETED`. -/
def Event.onTime : Event → Prop
  | .act _ _ (.putOnWait time) => timerDeleted < time
  | _ => True

namespace Course

variable {s : State} {c : ℕ} {v v' : View} {t t' : Cell} {ev : Event}

section

variable (h : Course v t)
include h

theorem congr (hwait : t'.link .wait = t.link .wait)
    (hdele : t'.link .dele = t.link .dele) (hwaits : t'.waits = t.waits)
    (hin : t.inTable = false → t'.inTable = false)
    (hbuf : ∀ k b, v.queued (.buf k b) → (t'.link (.buf k b)).timerList = .detached)
    (hhome : ∀ k b id, (t'.link (.buf k b)).timerList = .list id →
      (CellTimer.buf k b).fits id = true) : Course v t' := by
  refine ⟨?_, ?_, ?_, ?_, ?_, ?_, h.handler, ?_, ?_, ?_⟩
  · intro tm id hid
    cases tm with
    | wait =>
      rw [hwait] at hid
      exact h.home .wait id hid
    | dele =>
      rw [hdele] at hid
      exact h.home .dele id hid
    | buf k b => exact hhome k b id hid
  · intro tm hq
    obtain ⟨hd, hfits⟩ := h.queued tm hq
    refine ⟨?_, hfits⟩
    cases tm with
    | wait => rw [hwait]; exact hd
    | dele => rw [hdele]; exact hd
    | buf k b => exact hbuf k b hq
  · rw [hwaits]
    exact h.waits_le
  · rw [hwait, hwaits]
    exact h.fresh
  · rw [hwait]
    exact h.live
  · rw [hdele, hwaits]
    intro hne
    obtain ⟨h1, h2, h3⟩ := h.dele hne
    exact ⟨h1, hin h2, h3⟩
  · rw [hwaits]
    exact h.wait
  · intro st htask
    rw [hwaits]
    obtain ⟨h1, h2, h3⟩ := h.delWait st htask
    exact ⟨h1, hin h2, h3⟩
  · rw [hdele]
    exact h.delDele

theorem congr_link (hlink : t'.link = t.link) (hwaits : t'.waits = t.waits)
    (hin : t.inTable = false → t'.inTable = false) : Course v t' := by
  refine h.congr ?_ ?_ hwaits hin ?_ ?_
  · rw [hlink]
  · rw [hlink]
  · intro k b hq
    rw [hlink]
    exact (h.queued _ hq).1
  · intro k b id hid
    rw [hlink] at hid
    exact h.home _ id hid

theorem idle : Course { v with task := none } t := by
  refine ⟨h.home, h.queued, h.waits_le, h.fresh, h.live, ?_, ?_, ?_, ?_, ?_⟩
  · intro hne
    obtain ⟨h1, h2, -⟩ := h.dele hne
    exact ⟨h1, h2, (by simp), (by simp)⟩
  · simp
  · simp
  · simp
  · simp

/-- `delete_cell` goes on. -/
theorem stage {unlock : Bool} {st : DelStage}
    (htask : v.task = some (.del unlock st)) (st' : DelStage) :
    Course { v with task := some (.del unlock st') } t := by
  refine ⟨h.home, h.queued, h.waits_le, h.fresh, h.live, ?_, ?_, ?_, ?_, ?_⟩
  · intro hne
    obtain ⟨h1, h2, -, h4⟩ := h.dele hne
    refine ⟨h1, h2, (by simp), ?_⟩
    intro st'' hc
    cases hc
    exact h4 st htask
  · simp
  · simp
  · intro st'' hc
    cases hc
    exact h.delWait st htask
  · intro st'' hc
    cases hc
    exact h.delDele st htask

theorem dequeue (tm : CellTimer) :
    Course { v with queued := fun tm' => v.queued tm' ∧ tm' ≠ tm } t := by
  refine ⟨h.home, fun tm' hq => h.queued tm' hq.1, h.waits_le, ?_, h.live,
    h.dele, ?_, h.wait, h.delWait, ?_⟩
  · rintro (hne | hq)
    · exact h.fresh (.inl hne)
    · exact h.fresh (.inr hq.1)
  · exact fun k b htask hq => h.handler k b htask hq.1
  · intro st htask
    obtain ⟨h1, h2, h3⟩ := h.delDele st htask
    exact ⟨h1, fun hq => h2 hq.1, h3⟩

end

theorem born (hborn : Born c ev t) (hblank : v.Blank) : Course v t := by
  obtain ⟨htask, hqueued, -⟩ := hblank
  have hlink : ∀ tm, t.link tm = {} := by
    cases hborn <;> exact fun _ => rfl
  have hwaits : t.waits = 0 := by
    cases hborn <;> rfl
  refine ⟨?_, fun tm hq => absurd hq (hqueued tm), ?_, fun _ => hwaits, ?_, ?_, ?_, ?_, ?_, ?_⟩
  · intro tm id
    rw [hlink]
    simp
  · rw [hwaits]
    exact Nat.zero_le 1
  · rw [hlink]
    exact fun hne => absurd rfl hne
  · rw [hlink]
    exact fun hne => absurd rfl hne
  · rw [htask]
    simp
  · rw [htask]
    simp
  · rw [htask]
    simp
  · rw [htask]
    simp

section

variable (h : Course v t)
include h

theorem act {a : Act} (ht : t.act a = some t')
    (hok : ∀ time, a = .putOnWait time → timerDeleted < time) :
    Course v t' := by
  cases a with
  | grow n =>
    simp only [Cell.act] at ht
    obtain ⟨_, ⟨⟩⟩ := ite_none_right_eq_some.mp ht
    exact h.congr_link rfl rfl id
  | setTimer k b id time =>
    simp only [Cell.act] at ht
    obtain ⟨hfits, ⟨⟩⟩ := ite_none_right_eq_some.mp ht
    refine h.congr (setLink_buf_wait ..) (setLink_buf_dele ..) rfl (fun hin => hin) ?_ ?_
    · intro k' b' hq
      have hd := (h.queued _ hq).1
      by_cases heq : CellTimer.buf k' b' = .buf k b
      · rw [heq] at hd ⊢
        rw [setLink_link_self, Link.setTimer_of_detached hd]
        exact hd
      · rw [setLink_link_of_ne heq]
        exact hd
    · intro k' b' id' hid
      by_cases heq : CellTimer.buf k' b' = .buf k b
      · rw [heq] at hid ⊢
        rw [setLink_link_self, Link.setTimer] at hid
        split at hid
        · exact h.home _ id' hid
        · rw [← Home.list.inj hid]
          exact hfits.2
      · rw [setLink_link_of_ne heq] at hid
        exact h.home _ id' hid
  | resetTimer k b =>
    cases ht
    refine h.congr (setLink_buf_wait ..) (setLink_buf_dele ..) rfl (fun hin => hin) ?_ ?_
    · intro k' b' hq
      have hd := (h.queued _ hq).1
      by_cases heq : CellTimer.buf k' b' = .buf k b
      · rw [heq] at hd ⊢
        rw [setLink_link_self]
        exact hd
      · rw [setLink_link_of_ne heq]
        exact hd
    · intro k' b' id' hid
      by_cases heq : CellTimer.buf k' b' = .buf k b
      · rw [heq] at hid ⊢
        rw [setLink_link_self] at hid
        exact h.home _ id' hid
      · rw [setLink_link_of_ne heq] at hid
        exact h.home _ id' hid
  | putOnWait time =>
    cases ht
    have htime := hok time rfl
    by_cases hset : timerDeleted < (t.link .wait).timeOut
    · rw [Link.set1timer, if_neg (not_not.mpr hset)]
      refine h.congr (setLink_link_self ..) (setLink_wait_dele ..) rfl (fun hin => hin) ?_ ?_
      · intro k b hq
        rw [setLink_wait_buf]
        exact (h.queued _ hq).1
      · intro k b id hid
        rw [setLink_wait_buf] at hid
        exact h.home _ id hid
    · have hnull : (t.link .wait).timerList = .null := by
        by_contra hne
        exact hset (h.live hne)
      have hwaits : t.waits = 0 := by
        apply h.fresh
        left
        rw [hnull]
        simp
      have hq : ¬ v.queued .wait := by
        intro hq
        have hd := (h.queued _ hq).1
        rw [hnull] at hd
        cases hd
      rw [Link.set1timer, if_pos hset]
      refine ⟨?_, ?_, h.waits_le, fun _ => hwaits, ?_, ?_, h.handler, h.wait, h.delWait, ?_⟩
      · intro tm id hid
        by_cases heq : tm = .wait
        · subst heq
          rw [setLink_link_self] at hid
          rw [← Home.list.inj hid]
          rfl
        · rw [setLink_link_of_ne heq] at hid
          exact h.home tm id hid
      · intro tm htm
        have hne : tm ≠ .wait := by
          rintro rfl
          exact hq htm
        rw [setLink_link_of_ne hne]
        exact h.queued tm htm
      · rw [setLink_link_self]
        exact fun _ => htime
      · rw [setLink_wait_dele]
        exact h.dele
      · rw [setLink_wait_dele]
        exact h.delDele

/-- `check_and_split_time_list` detaches timers of the cell. -/
theorem split {id : Lists} {queued : CellTimer → Prop} (hidle : v.task = none)
    (hhome : ∀ tm, queued tm → (t.link tm).timerList = .list id)
    (hlink : ∀ tm, t'.link tm = (t.link tm).detach ∧ queued tm ∨
      t'.link tm = t.link tm ∧ ¬ queued tm)
    (hwaits : t'.waits = t.waits) (hin : t'.inTable = t.inTable) :
    Course { v with list := id, queued := queued } t' := by
  have hlist : ∀ tm id', (t'.link tm).timerList = .list id' →
      (t.link tm).timerList = .list id' := by
    intro tm id' hid
    rcases hlink tm with ⟨heq, -⟩ | ⟨heq, -⟩
    · rw [heq] at hid
      cases hid
    · rw [← heq]
      exact hid
  have hnull : ∀ tm, (t'.link tm).timerList ≠ .null → (t.link tm).timerList ≠ .null := by
    intro tm hne hc
    rcases hlink tm with ⟨-, hq⟩ | ⟨heq, -⟩
    · rw [hhome tm hq] at hc
      cases hc
    · rw [heq] at hne
      exact hne hc
  refine ⟨fun tm id' hid => h.home tm id' (hlist _ _ hid), ?_, ?_, ?_, ?_, ?_, ?_, ?_, ?_, ?_⟩
  · intro tm hq
    rcases hlink tm with ⟨heq, -⟩ | ⟨-, hnq⟩
    · rw [heq]
      exact ⟨rfl, h.home tm id (hhome tm hq)⟩
    · exact absurd hq hnq
  · rw [hwaits]
    exact h.waits_le
  · rw [hwaits]
    intro hor
    apply h.fresh
    left
    intro hd
    rcases hlink .wait with ⟨-, hq⟩ | ⟨heq, hnq⟩
    · rw [hhome _ hq] at hd
      cases hd
    · rcases hor with hne | hq
      · rw [heq] at hne
        exact hne hd
      · exact hnq hq
  · intro hne
    rcases hlink .wait with ⟨heq, -⟩ | ⟨heq, -⟩
    · rw [heq]
      exact h.live (hnull _ hne)
    · rw [heq]
      exact h.live (hnull _ hne)
  · intro hne
    rw [hwaits, hin]
    exact h.dele (hnull _ hne)
  · rw [hidle]
    simp
  · rw [hidle]
    simp
  · rw [hidle]
    simp
  · rw [hidle]
    simp

/-- A handler is called for a timer that was taken off the chain. -/
theorem fire {tm : CellTimer} (hq : v.queued tm)
    (hwaits : t'.waits = if v.list = .wt then t.waits + 1 else t.waits)
    (hlink : t'.link = t.link) (hin : t'.inTable = t.inTable) :
    Course { v with
      queued := fun tm' => v.queued tm' ∧ tm' ≠ tm
      task := some (handlerTask v.list tm) } t' := by
  obtain ⟨hd, hfits⟩ := h.queued tm hq
  have hdeq := h.dequeue tm
  by_cases hwt : v.list = .wt
  · have htm : tm = .wait := by
      rw [hwt] at hfits
      cases tm with
      | buf k b => cases k <;> cases hfits
      | wait => rfl
      | dele => cases hfits
    subst htm
    have hzero : t.waits = 0 := h.fresh (.inr hq)
    have hone : t'.waits = 1 := by
      rw [hwaits, if_pos hwt, hzero]
    have hnull : (t.link .dele).timerList = .null := by
      by_contra hne
      have hwaits' := (h.dele hne).1
      rw [hzero] at hwaits'
      cases hwaits'
    have htask : handlerTask v.list .wait = .wait := by
      rw [hwt]
      rfl
    rw [htask]
    refine ⟨?_, ?_, hone.le, ?_, ?_, ?_, (by simp), fun _ => ⟨hone, hwt⟩, (by simp), (by simp)⟩
    · rw [hlink]
      exact h.home
    · rw [hlink]
      exact hdeq.queued
    · rw [hlink]
      rintro (hne | hq')
      · exact absurd hd hne
      · exact absurd rfl hq'.2
    · rw [hlink]
      exact h.live
    · rw [hlink]
      exact fun hne => absurd hnull hne
  · have hwaits' : t'.waits = t.waits := by
      rw [hwaits, if_neg hwt]
    have hlinked := hdeq.congr_link hlink hwaits' fun hin' => hin.trans hin'
    by_cases hdel : v.list = .delete
    · have htm : tm = .dele := by
        rw [hdel] at hfits
        cases tm with
        | buf k b => cases k <;> cases hfits
        | wait => cases hfits
        | dele => rfl
      subst htm
      have htask : handlerTask v.list .dele = .del false .look := by
        rw [hdel]
        rfl
      rw [htask]
      refine ⟨hlinked.home, hlinked.queued, hlinked.waits_le, hlinked.fresh,
        hlinked.live, ?_, (by simp), (by simp), (by simp), ?_⟩
      · intro hne
        obtain ⟨h1, h2, -⟩ := hlinked.dele hne
        exact ⟨h1, h2, (by simp), (by simp)⟩
      · intro st _
        rw [hlink]
        exact ⟨hd, fun hq' => hq'.2 rfl, hdel⟩
    · obtain ⟨k, b, rfl, htask⟩ : ∃ k b, tm = .buf k b ∧ handlerTask v.list tm = .handler k b := by
        cases tm with
        | wait =>
          cases hl : v.list <;> simp [hl, CellTimer.fits] at hwt hfits
        | dele =>
          cases hl : v.list <;> simp [hl, CellTimer.fits] at hdel hfits
        | buf k b =>
          refine ⟨k, b, rfl, ?_⟩
          cases hl : v.list <;> simp_all [handlerTask]
      rw [htask]
      refine ⟨hlinked.home, hlinked.queued, hlinked.waits_le, hlinked.fresh,
        hlinked.live, ?_, ?_, (by simp), (by simp), (by simp)⟩
      · intro hne
        obtain ⟨h1, h2, -⟩ := hlinked.dele hne
        exact ⟨h1, h2, (by simp), (by simp)⟩
      · intro k' b' heq hq'
        cases heq
        exact hq'.2 rfl

theorem unlink (k : TimerKind) : Course v (t.unlink k) := by
  refine h.congr rfl rfl rfl (fun hin => hin) ?_ ?_
  · intro k' b hq
    have hd := (h.queued _ hq).1
    rw [unlink_link]
    split
    · rw [Link.remove_of_detached hd]
      exact hd
    · exact hd
  · intro k' b id hid
    rw [unlink_link, Link.remove] at hid
    split at hid
    · split at hid
      · cases hid
      · exact h.home _ id hid
    · exact h.home _ id hid

theorem clearRetr {b : Buf} (htask : v.task = some (.handler .retr b)) :
    Course v (t.setLink (.buf .retr b)
      { t.link (.buf .retr b) with timerList := .null }) := by
  refine h.congr (setLink_buf_wait ..) (setLink_buf_dele ..) rfl (fun hin => hin) ?_ ?_
  · intro k' b' hq
    have hne : CellTimer.buf k' b' ≠ .buf .retr b := by
      intro heq
      rw [heq] at hq
      exact h.handler _ _ htask hq
    rw [setLink_link_of_ne hne]
    exact (h.queued _ hq).1
  · intro k' b' id hid
    by_cases heq : CellTimer.buf k' b' = .buf .retr b
    · rw [heq, setLink_link_self] at hid
      cases hid
    · rw [setLink_link_of_ne heq] at hid
      exact h.home _ id hid

/-- `wait_handler` takes the cell out of the hash table. -/
theorem waitRemove (htask : v.task = some .wait)
    (hlink : ∀ tm, (t'.link tm).timerList = (t.link tm).timerList)
    (hwait : t'.link .wait = t.link .wait) (hwaits : t'.waits = t.waits)
    (hin : t'.inTable = false) :
    Course { v with task := some (.del true .look) } t' := by
  obtain ⟨hone, hlist⟩ := h.wait htask
  refine ⟨?_, ?_, ?_, ?_, ?_, ?_, (by simp), (by simp), ?_, (by simp)⟩
  · intro tm
    rw [hlink]
    exact h.home tm
  · intro tm
    rw [hlink]
    exact h.queued tm
  · rw [hwaits]
    exact h.waits_le
  · rw [hwait, hwaits]
    exact h.fresh
  · rw [hwait]
    exact h.live
  · rw [hlink]
    exact fun hne => absurd htask (h.dele hne).2.2.1
  · intro st _
    rw [hwaits]
    exact ⟨hone, hin, hlist⟩

/-- `delete_cell` puts the cell on the DELETE list. -/
theorem rearm {unlock : Bool} (htask : v.task = some (.del unlock .rearm)) (time : ℕ) :
    Course { v with task := none }
      (t.setLink .dele ((t.link .dele).setTimer .delete time)) := by
  have hidle := h.idle
  have hused : t.waits = 1 ∧ t.inTable = false := by
    cases unlock with
    | true =>
      obtain ⟨h1, h2, -⟩ := h.delWait _ htask
      exact ⟨h1, h2⟩
    | false =>
      have hne : (t.link .dele).timerList ≠ .null := by
        rw [(h.delDele _ htask).1]
        simp
      obtain ⟨h1, h2, -⟩ := h.dele hne
      exact ⟨h1, h2⟩
  refine ⟨?_, ?_, h.waits_le, hidle.fresh, hidle.live, ?_, (by simp), (by simp),
    (by simp), (by simp)⟩
  · intro tm id hid
    by_cases heq : tm = .dele
    · subst heq
      rw [setLink_link_self, Link.setTimer] at hid
      split at hid
      · exact h.home _ id hid
      · rw [← Home.list.inj hid]
        rfl
    · rw [setLink_link_of_ne heq] at hid
      exact h.home tm id hid
  · intro tm hq
    obtain ⟨hd, hfits⟩ := h.queued tm hq
    refine ⟨?_, hfits⟩
    by_cases heq : tm = .dele
    · subst heq
      rw [setLink_link_self, Link.setTimer_of_detached hd]
      exact hd
    · rw [setLink_link_of_ne heq]
      exact hd
  · exact fun _ => ⟨hused.1, hused.2, (by simp), (by simp)⟩

end

theorem step (h : Course (s.view c) t) (hok : ev.onTime)
    (hs : CellStep s c ev t v' t') : Course v' t' := by
  cases hs with
  | other ev t => exact h
  | uacBuilt t _ => exact h.congr_link rfl rfl id
  | uacDone t _ => exact h.congr_link rfl rfl id
  | uacRemove t _ => exact h.congr_link rfl rfl fun _ => rfl
  | uacFree t _ =>
    have hnew : Course (s.view c) { t with uac := .done } :=
      h.congr_link rfl rfl id
    exact ⟨hnew.home, hnew.queued, hnew.waits_le, hnew.fresh, hnew.live,
      hnew.dele, hnew.handler, hnew.wait, hnew.delWait, hnew.delDele⟩
  | lookup how t _ _ => exact h.congr_link rfl rfl id
  | unref t _ _ => exact h.congr_link rfl rfl id
  | act who a t t' _ ht =>
    apply h.act ht
    rintro time rfl
    exact hok
  | split id time chain t hidle _ hhome =>
    refine h.split hidle hhome ?_ rfl rfl
    intro tm
    by_cases hmem : (c, tm) ∈ chain
    · exact .inl ⟨if_pos hmem, hmem⟩
    · exact .inr ⟨if_neg hmem, hmem⟩
  | fire tm t _ hq _ => exact h.fire hq rfl rfl rfl
  | skip tm t _ _ => exact h.dequeue tm
  | clearRetr b t htask => exact h.clearRetr htask
  | handlerDone k b t _ => exact h.idle
  | waitRemove t htask =>
    apply h.waitRemove htask
    · intro tm
      by_cases hinv : t.isInvite
      · simp only [hinv, if_true]
        exact cleanup_timerList t tm
      · simp only [hinv]
        rfl
    · by_cases hinv : t.isInvite
      · simp only [hinv, if_true]
        rfl
      · simp only [hinv]
        rfl
    · by_cases hinv : t.isInvite
      · simp only [hinv, if_true]
        rfl
      · simp only [hinv]
        rfl
    · rfl
  | look unlock time t htask => exact h.stage htask _
  | removeRetr unlock removeFr removeRetr time t htask =>
    cases removeRetr with
    | true => exact (h.unlink .retr).stage htask _
    | false => exact h.stage htask _
  | removeFr unlock removeFr time t htask =>
    cases removeFr with
    | true => exact (h.unlink .fr).stage htask _
    | false => exact h.stage htask _
  | check unlock time t htask => exact h.stage htask _
  | rearm unlock time t htask => exact h.rearm htask time
  | free unlock time t _ =>
    have hnew := h.idle
    exact ⟨hnew.home, hnew.queued, hnew.waits_le, hnew.fresh, hnew.live,
      hnew.dele, hnew.handler, hnew.wait, hnew.delWait, hnew.delDele⟩

end Course

/-! ## Runs -/

/-- Only cells that were built are known to the timer process. -/
structure Frame (s : State) : Prop where
  unborn : ∀ c, s.cells c = none → (s.view c).Blank
  chainNodup : s.chain.Nodup

section Frame

variable {s s' : State} {c d : ℕ} {t t' : Cell} {ev : Event}

theorem Frame.put (h : Frame s) (d : ℕ) (t : Cell) : Frame (s.put d t) := by
  refine ⟨?_, h.chainNodup⟩
  intro c hc
  apply h.unborn c
  by_contra hne
  obtain ⟨u, hu⟩ := ne_none_iff_exists'.mp hne
  by_cases hcd : c = d
  · subst hcd
    simp [State.put] at hc
  · simp [State.put, update_of_ne hcd, hu] at hc

/-- The timer process takes up or leaves a cell that was built. -/
theorem Frame.running (h : Frame s) (ht : s.cells d ≠ none)
    {running : Option (ℕ × Task)}
    (hr : running = none ∨ ∃ task, running = some (d, task)) :
    Frame { s with running := running } := by
  refine ⟨?_, h.chainNodup⟩
  intro c hc
  obtain ⟨-, hqueued, hfreed⟩ := h.unborn c hc
  refine ⟨?_, hqueued, hfreed⟩
  rcases hr with rfl | ⟨task, rfl⟩
  · rfl
  · apply taskOf_of_ne
    rintro rfl
    exact ht hc

theorem Frame.chain {tm : CellTimer} {rest : List (ℕ × CellTimer)}
    (h : Frame s) (hchain : s.chain = (d, tm) :: rest) :
    Frame { s with chain := rest } := by
  have hnodup := h.chainNodup
  rw [hchain] at hnodup
  refine ⟨?_, (List.nodup_cons.mp hnodup).2⟩
  intro c hc
  obtain ⟨htask, hqueued, hfreed⟩ := h.unborn c hc
  refine ⟨htask, ?_, hfreed⟩
  intro tm' hmem
  apply hqueued tm'
  simp only [State.view, hchain]
  exact List.mem_cons_of_mem _ hmem

theorem Frame.freed (h : Frame s) (ht : s.cells d ≠ none) :
    Frame { s with freed := s.freed ++ [(d, t)] } := by
  refine ⟨?_, h.chainNodup⟩
  intro c hc
  obtain ⟨htask, hqueued, hfreed⟩ := h.unborn c hc
  refine ⟨htask, hqueued, ?_⟩
  rintro ⟨u, hu⟩
  rcases List.mem_append.mp hu with hu | hu
  · exact hfreed ⟨u, hu⟩
  · rw [List.mem_singleton] at hu
    cases hu
    exact ht hc

theorem put_ne_none (s : State) (c : ℕ) (t : Cell) : (s.put c t).cells c ≠ none := by
  simp [State.put]

theorem Frame.step (h : Frame s) (hs : s.step ev = some s') : Frame s' := by
  cases ev with
  | newT c hashIndex isInvite =>
    simp only [State.step] at hs
    obtain ⟨_, ⟨⟩⟩ := ite_none_right_eq_some.mp hs
    exact h.put ..
  | tUac c hashIndex isInvite =>
    simp only [State.step] at hs
    obtain ⟨_, ⟨⟩⟩ := ite_none_right_eq_some.mp hs
    exact h.put ..
  | uacFree c =>
    obtain ⟨t, ht, hif⟩ := bind_eq_some_iff.mp hs
    obtain ⟨_, ⟨⟩⟩ := ite_none_right_eq_some.mp hif
    exact (h.put c { t with uac := .done }).freed (put_ne_none _ _ _)
  | uacBuilt c | uacDone c | uacRemove c | lookup how c | unref c =>
    obtain ⟨t, -, hif⟩ := bind_eq_some_iff.mp hs
    obtain ⟨_, ⟨⟩⟩ := ite_none_right_eq_some.mp hif
    exact h.put ..
  | act who c a =>
    obtain ⟨t, -, hif⟩ := bind_eq_some_iff.mp hs
    obtain ⟨_, hif⟩ := ite_none_right_eq_some.mp hif
    obtain ⟨t', -, heq⟩ := map_eq_some_iff.mp hif
    subst heq
    exact h.put ..
  | split id time chain =>
    simp only [State.step] at hs
    obtain ⟨hif, hs⟩ := ite_none_right_eq_some.mp hs
    obtain ⟨-, -, hnodup, hdue⟩ := hif
    cases hs
    refine ⟨?_, hnodup⟩
    intro c hc
    have hnone : s.cells c = none := map_eq_none_iff.mp hc
    obtain ⟨htask, -, hfreed⟩ := h.unborn c hnone
    refine ⟨htask, ?_, hfreed⟩
    intro tm hmem
    have hp := List.all_eq_true.mp hdue (c, tm) hmem
    simp [State.due, hnone] at hp
  | fire =>
    simp only [State.step] at hs
    split at hs
    case h_2 => cases hs
    case h_1 c tm rest hrun hchain =>
      obtain ⟨t, ht, heq⟩ := map_eq_some_iff.mp hs
      subst heq
      rw [State.fire]
      split
      · have hput := h.put c { t with waits :=
          if s.list = .wt then t.waits + 1 else t.waits }
        exact (hput.chain hchain).running (put_ne_none _ _ _) (.inr ⟨_, rfl⟩)
      · exact h.chain hchain
  | clearRetr =>
    simp only [State.step] at hs
    split at hs
    case h_2 => cases hs
    case h_1 c b hrun =>
      obtain ⟨t, -, heq⟩ := map_eq_some_iff.mp hs
      subst heq
      exact h.put ..
  | handlerDone =>
    simp only [State.step] at hs
    split at hs
    case h_2 => cases hs
    case h_1 c k b hrun =>
      cases hs
      have hborn : s.cells c ≠ none := by
        intro hc
        have htask := (h.unborn c hc).1
        rw [view_task_self hrun] at htask
        cases htask
      exact h.running hborn (.inl rfl)
  | waitRemove =>
    simp only [State.step] at hs
    split at hs
    case h_2 => cases hs
    case h_1 c hrun =>
      obtain ⟨t, -, heq⟩ := map_eq_some_iff.mp hs
      subst heq
      exact (h.put ..).running (put_ne_none _ _ _) (.inr ⟨_, rfl⟩)
  | delete time =>
    simp only [State.step] at hs
    split at hs
    case h_2 => cases hs
    case h_1 c unlock st hrun =>
      obtain ⟨t, ht, heq⟩ := map_eq_some_iff.mp hs
      subst heq
      have hc : s.cells c ≠ none := by
        rw [ht]
        simp
      cases st with
      | look => exact h.running hc (.inr ⟨_, rfl⟩)
      | retr removeFr removeRetr =>
        exact (h.put ..).running (put_ne_none _ _ _) (.inr ⟨_, rfl⟩)
      | fr removeFr =>
        exact (h.put ..).running (put_ne_none _ _ _) (.inr ⟨_, rfl⟩)
      | check => exact h.running hc (.inr ⟨_, rfl⟩)
      | rearm => exact (h.put ..).running (put_ne_none _ _ _) (.inl rfl)
      | free =>
        have hfreed : Frame { s with freed := s.freed ++ [(c, t)] } :=
          h.freed hc
        exact hfreed.running hc (.inl rfl)

end Frame

/-- Every cell is on its course. -/
structure OnCourse (s : State) : Prop extends Frame s where
  course : ∀ c t, s.cells c = some t → Course (s.view c) t

theorem onCourse_init : OnCourse {} := by
  refine ⟨⟨?_, List.nodup_nil⟩, (by simp)⟩
  intro c _
  refine ⟨rfl, ?_, ?_⟩
  · intro tm hq
    cases hq
  · rintro ⟨t, ht⟩
    cases ht

theorem OnCourse.step {s s' : State} {ev : Event} (h : OnCourse s)
    (hok : ev.onTime) (hs : s.step ev = some s') : OnCourse s' := by
  refine ⟨h.toFrame.step hs, ?_⟩
  intro c t' hc
  rcases step_changes h.chainNodup hs c t' hc with
    ⟨hnone, hborn, hview⟩ | ⟨t, ht, hstep⟩
  · rw [hview]
    exact .born hborn (h.unborn c hnone)
  · exact (h.course c t ht).step hok hstep

end Msicp.Tm.Lifetime
