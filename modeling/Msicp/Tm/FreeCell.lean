import Msicp.Tm.WaitDelete

/-!
# Passing a cell to `free_cell`

`delete_cell` unlinks the timers of the buffers and then looks at the
reference count.  `delete_handler` calls it without the lock of the hash
bucket, on the assumption that nobody sets a timer of a dead transaction any
more; a process that still holds a reference does so for a late provisional
reply.
-/

namespace Msicp.Tm.Lifetime

open Msicp.Support Function List Option Link Actor

/-- `delete_cell` has looked for timers and not yet decided. -/
def DelStage.searched : DelStage → Bool
  | .look => false
  | .rearm => false
  | _ => true

/-- No timer is set behind the back of `delete_cell`: of a cell that
`delete_handler` is about to free none at all, and `t_uac`, which holds no
reference, sets none of a cell that is about to be freed or was freed.
`t_lookup_ident` does not find a cell whose request `t_uac` still builds, and
the WAIT timer is set to a time beyond `TIMER_DELETED`. -/
def Event.careful : Event → State → Prop
  | .act who c (.setTimer _ _ _ _), s =>
    (who = .uac → ∀ t, (c, t) ∉ s.freed) ∧ ∀ unlock st, s.running = some (c, .del unlock st) →
        st.searched = true → unlock = true ∧ who ≠ .uac
  | .act _ _ (.putOnWait time), _ => timerDeleted < time
  | .lookup .ident c, s => ∀ t, s.cells c = some t → t.uac ≠ .building
  | _, _ => True

theorem Event.careful_onTime {ev : Event} {s : State} (h : ev.careful s) :
    ev.onTime := by
  cases ev with
  | act who c a =>
    cases a with
    | putOnWait time => exact h
    | _ => trivial
  | _ => trivial

/-- No timer of a kind is linked. -/
def Cell.NoneLinked (t : Cell) (k : TimerKind) : Prop :=
  ∀ b, (t.link (.buf k b)).linked = false

/-- What `delete_cell` has unlinked so far. -/
def DelStage.Cleared : DelStage → Cell → Prop
  | .look, _ => True
  | .retr removeFr removeRetr, t =>
    (removeFr = false → t.NoneLinked .fr) ∧ (removeRetr = false → t.NoneLinked .retr)
  | .fr removeFr, t =>
    (removeFr = false → t.NoneLinked .fr) ∧ t.NoneLinked .retr
  | .check, t => t.NoneLinked .fr ∧ t.NoneLinked .retr
  | .rearm, _ => True
  | .free, t => t.NoneLinked .fr ∧ t.NoneLinked .retr

/-- A cell that may be freed without harm when its time comes. -/
structure Safe (v : View) (t : Cell) : Prop where
  building : t.uac = .building ∨ t.uac = .failed →
    t.refCount = 0 ∧ (∀ tm, (t.link tm).timerList = .null) ∧ ¬ v.freed ∧
      v.task = none
  built : t.uac = .building → t.isLocal = true ∧ t.nrOfOutgoings = 0
  failed : t.uac = .failed → t.inTable = false
  inUse : ∀ k b, (t.link (.buf k b)).linked = true → b ∈ t.buffers
  cleared : ∀ unlock st, v.task = some (.del unlock st) →
    unlock = false ∨ t.refCount = 0 → st.Cleared t
  unreffed : ∀ unlock, v.task = some (.del unlock .free) → t.refCount = 0
  freed : v.freed → t.refCount = 0 ∧ t.inTable = false ∧ v.task = none ∧
    ∀ tm, (t.link tm).linked = false ∧ ¬ v.queued tm

/-- What is recorded of a cell passed to `free_cell`. -/
def Cell.Dead (t : Cell) : Prop :=
  t.refCount = 0 ∧ t.inTable = false ∧ ∀ tm, (t.link tm).linked = false

section Buffers

variable {t : Cell} {k : TimerKind} {b : Buf}

theorem mem_buffers : b ∈ t.buffers ↔ b = .response ∨
    ∃ i < t.nrOfOutgoings, b = .request i ∨ b = .localCancel i := by
  simp [Cell.buffers]

theorem buffers_mono {t' : Cell} (h : t.nrOfOutgoings ≤ t'.nrOfOutgoings)
    (hb : b ∈ t.buffers) : b ∈ t'.buffers := by
  rw [mem_buffers] at hb ⊢
  rcases hb with hb | ⟨i, hi, hb⟩
  · exact .inl hb
  · exact .inr ⟨i, hi.trans_le h, hb⟩

theorem noneLinked_of_anyLinked (hin : ∀ k b, (t.link (.buf k b)).linked = true → b ∈ t.buffers)
    (h : t.anyLinked k = false) : t.NoneLinked k := by
  intro b
  by_contra hb
  rw [Bool.not_eq_false] at hb
  have hall := List.any_eq_false.mp h b (hin k b hb)
  exact hall hb

theorem remove_linked (l : Link) : l.remove.linked = false := by
  by_cases h : l.linked = true
  · rw [remove, if_pos h]
    rfl
  · rw [remove, if_neg h]
    simpa using h

theorem unlink_noneLinked (hin : ∀ k b, (t.link (.buf k b)).linked = true → b ∈ t.buffers) :
    (t.unlink k).NoneLinked k := by
  intro b
  rw [unlink_link]
  by_cases hb : b ∈ t.buffers
  · rw [if_pos ⟨rfl, hb⟩]
    exact remove_linked _
  · rw [if_neg fun hc => hb hc.2]
    by_contra hl
    rw [Bool.not_eq_false] at hl
    exact hb (hin k b hl)

theorem unlink_linked {k' : TimerKind} (h : ((t.unlink k).link (.buf k' b)).linked = true) :
    (t.link (.buf k' b)).linked = true := by
  rw [unlink_link] at h
  split at h
  · rw [remove_linked] at h
    cases h
  · exact h

theorem unlink_of_noneLinked {k' : TimerKind} (h : t.NoneLinked k') :
    (t.unlink k).NoneLinked k' := by
  intro b
  by_contra hl
  rw [Bool.not_eq_false] at hl
  have hold := unlink_linked hl
  rw [h b] at hold
  cases hold

theorem linked_congr {l l' : Link} (h : l'.timerList = l.timerList) : l'.linked = l.linked := by
  simp only [linked, h]

end Buffers

/-! ## Steps -/

section Facts

variable {v : View} {t : Cell}

theorem Course.out_of_table (h : Course v t) {unlock : Bool} {st : DelStage}
    (htask : v.task = some (.del unlock st)) :
    t.waits = 1 ∧ t.inTable = false := by
  cases unlock with
  | true =>
    obtain ⟨h1, h2, -⟩ := h.delWait st htask
    exact ⟨h1, h2⟩
  | false =>
    have hne : (t.link .dele).timerList ≠ .null := by
      rw [(h.delDele st htask).1]
      simp
    obtain ⟨h1, h2, -⟩ := h.dele hne
    exact ⟨h1, h2⟩

/-- Its WAIT and DELETE timers are not linked, and none of its timers is on
the detached chain. -/
theorem Course.unlinked (h : Course v t) {unlock : Bool} {st : DelStage}
    (htask : v.task = some (.del unlock st)) :
    (t.link .wait).linked = false ∧ (t.link .dele).linked = false ∧ ∀ tm, ¬ v.queued tm := by
  have hone := (h.out_of_table htask).1
  have hwait : (t.link .wait).timerList = .detached ∧ ¬ v.queued .wait := by
    constructor
    · by_contra hne
      rw [h.fresh (.inl hne)] at hone
      cases hone
    · intro hq
      rw [h.fresh (.inr hq)] at hone
      cases hone
  refine ⟨by simp [linked, hwait.1], ?_, ?_⟩
  · cases unlock with
    | true =>
      have hnull : (t.link .dele).timerList = .null := by
        by_contra hne
        exact (h.dele hne).2.2.2 st htask
      simp [linked, hnull]
    | false => simp [linked, (h.delDele st htask).1]
  · intro tm hq
    have hfits := (h.queued tm hq).2
    cases unlock with
    | true =>
      rw [(h.delWait st htask).2.2] at hfits
      cases tm with
      | wait => exact hwait.2 hq
      | dele => cases hfits
      | buf k b => cases k <;> cases hfits
    | false =>
      obtain ⟨-, hnq, hlist⟩ := h.delDele st htask
      rw [hlist] at hfits
      cases tm with
      | wait => cases hfits
      | dele => exact hnq hq
      | buf k b => cases k <;> cases hfits

end Facts

namespace Safe

variable {s : State} {c : ℕ} {v v' : View} {t t' : Cell} {ev : Event}

/-- What is safe stays so when links and references stay. -/
theorem congr (h : Safe v t) (hlink : ∀ tm, (t'.link tm).timerList = (t.link tm).timerList)
    (href : t'.refCount = t.refCount)
    (hin : t.inTable = false → t'.inTable = false)
    (hnr : t.nrOfOutgoings ≤ t'.nrOfOutgoings)
    (hbuilding : t'.uac = .building ∨ t'.uac = .failed → t.uac = .building ∨ t.uac = .failed)
    (hbuilt : t'.uac = .building → t'.isLocal = true ∧ t'.nrOfOutgoings = 0)
    (hfailed : t'.uac = .failed → t'.inTable = false) : Safe v t' := by
  have hlinked : ∀ tm, (t'.link tm).linked = (t.link tm).linked := fun tm =>
    linked_congr (hlink tm)
  have hnone : ∀ k, t.NoneLinked k → t'.NoneLinked k := by
    intro k hk b
    rw [hlinked]
    exact hk b
  refine ⟨?_, hbuilt, hfailed, ?_, ?_, ?_, ?_⟩
  · intro hb
    obtain ⟨h1, h2, h3⟩ := h.building (hbuilding hb)
    refine ⟨href.trans h1, ?_, h3⟩
    exact fun tm => (hlink tm).trans (h2 tm)
  · intro k b hl
    rw [hlinked] at hl
    exact buffers_mono hnr (h.inUse k b hl)
  · intro unlock st htask hor
    rw [href] at hor
    have hcl := h.cleared unlock st htask hor
    cases st with
    | look => trivial
    | retr _ _ => exact ⟨fun hf => hnone _ (hcl.1 hf), fun hr => hnone _ (hcl.2 hr)⟩
    | fr _ => exact ⟨fun hf => hnone _ (hcl.1 hf), hnone _ hcl.2⟩
    | check => exact ⟨hnone _ hcl.1, hnone _ hcl.2⟩
    | rearm => trivial
    | free => exact ⟨hnone _ hcl.1, hnone _ hcl.2⟩
  · rw [href]
    exact h.unreffed
  · intro hf
    obtain ⟨h1, h2, h3, h4⟩ := h.freed hf
    refine ⟨href.trans h1, hin h2, h3, ?_⟩
    intro tm
    rw [hlinked]
    exact h4 tm

theorem born (hborn : Born c ev t) (hblank : v.Blank) : Safe v t := by
  obtain ⟨htask, -, hfreed⟩ := hblank
  have hlink : ∀ tm, t.link tm = {} := by
    cases hborn <;> exact fun _ => rfl
  refine ⟨?_, ?_, ?_, ?_, ?_, ?_, fun hf => absurd hf hfreed⟩
  · intro hb
    refine ⟨?_, fun tm => by rw [hlink], hfreed, htask⟩
    cases hborn with
    | newT _ _ => rcases hb with hb | hb <;> cases hb
    | tUac _ _ => rfl
  · intro hb
    cases hborn with
    | newT _ _ => cases hb
    | tUac _ _ => exact ⟨rfl, rfl⟩
  · intro hb
    cases hborn <;> cases hb
  · intro k b hl
    rw [hlink] at hl
    cases hl
  · rw [htask]
    simp
  · rw [htask]
    simp

/-- A cell in use is neither being built nor freed. -/
theorem in_use (h : Safe (s.view c) t) {who : Actor} {a : Act}
    (hmay : who.mayUse s c t a = true) (hok : Event.careful (.act who c a) s) :
    ¬ (t.uac = .building ∨ t.uac = .failed) ∧ ¬ (s.view c).freed := by
  cases who with
  | worker =>
    have href : 0 < t.refCount := by simpa [mayUse] using hmay
    constructor
    · intro hb
      rw [(h.building hb).1] at href
      exact absurd href (lt_irrefl 0)
    · intro hf
      rw [(h.freed hf).1] at href
      exact absurd href (lt_irrefl 0)
  | uac =>
    cases a with
    | setTimer k b id time =>
      have hsending : t.uac = .sending := by
        cases b with
        | request i =>
          cases i with
          | zero => simpa [mayUse] using hmay
          | succ i => simp [mayUse] at hmay
        | _ => simp [mayUse] at hmay
      refine ⟨by simp [hsending], ?_⟩
      rintro ⟨u, hu⟩
      exact hok.1 rfl u hu
    | _ => simp [mayUse] at hmay
  | timer =>
    obtain ⟨k, b, htask⟩ : ∃ k b, (s.view c).task = some (.handler k b) := by
      simp only [mayUse] at hmay
      split at hmay
      · rename_i d k b hrun
        have hd : d = c := by simpa using hmay
        subst hd
        exact ⟨k, b, view_task_self hrun⟩
      · cases hmay
    constructor
    · intro hb
      rw [(h.building hb).2.2.2] at htask
      cases htask
    · intro hf
      rw [(h.freed hf).2.2.1] at htask
      cases htask

theorem act (h : Safe (s.view c) t) {who : Actor} {a : Act}
    (hmay : who.mayUse s c t a = true) (hok : Event.careful (.act who c a) s)
    (ht : t.act a = some t') : Safe (s.view c) t' := by
  obtain ⟨hnb, hnf⟩ := h.in_use hmay hok
  cases a with
  | grow n =>
    simp only [Cell.act] at ht
    obtain ⟨hle, ⟨⟩⟩ := ite_none_right_eq_some.mp ht
    exact h.congr (fun _ => rfl) rfl id hle id (fun hb => absurd (.inl hb) hnb) h.failed
  | resetTimer k b =>
    cases ht
    refine h.congr ?_ rfl (fun hin => hin) le_rfl (fun hb => hb) h.built h.failed
    intro tm
    by_cases heq : tm = .buf k b
    · rw [heq, setLink_link_self]
      rfl
    · rw [setLink_link_of_ne heq]
  | putOnWait time =>
    cases ht
    refine ⟨fun hb => absurd hb hnb, h.built, h.failed, ?_, ?_, h.unreffed, fun hf => absurd hf hnf⟩
    · intro k b hl
      rw [setLink_wait_buf] at hl
      exact h.inUse k b hl
    · intro unlock st htask hor
      have hcl := h.cleared unlock st htask hor
      cases st <;> exact hcl
  | setTimer k b id time =>
    simp only [Cell.act] at ht
    obtain ⟨hb, ⟨⟩⟩ := ite_none_right_eq_some.mp ht
    refine ⟨fun hb' => absurd hb' hnb, h.built, h.failed, ?_, ?_, h.unreffed,
      fun hf => absurd hf hnf⟩
    · intro k' b' hl
      by_cases heq : CellTimer.buf k' b' = .buf k b
      · cases heq
        exact hb.1
      · rw [setLink_link_of_ne heq] at hl
        exact h.inUse k' b' hl
    · intro unlock st htask hor
      have hrun := running_of_task htask
      by_cases hst : st.searched = true
      · obtain ⟨hu, hwho⟩ := hok.2 unlock st hrun hst
        have hzero : t.refCount = 0 := by
          rcases hor with hf | hz
          · rw [hu] at hf
            cases hf
          · exact hz
        cases who with
        | worker => simp [mayUse, hzero] at hmay
        | uac => exact absurd rfl hwho
        | timer => simp [mayUse, hrun] at hmay
      · cases st with
        | look => trivial
        | rearm => trivial
        | _ => exact absurd rfl hst

section

variable (h : Safe v t)
include h

theorem not_building {old : Task} (hold : v.task = some old) :
    ¬ (t.uac = .building ∨ t.uac = .failed) := by
  intro hb
  have hnone := (h.building hb).2.2.2
  rw [hold] at hnone
  cases hnone

theorem not_freed {old : Task} (hold : v.task = some old) : ¬ v.freed := by
  intro hf
  have hnone := (h.freed hf).2.2.1
  rw [hold] at hnone
  cases hnone

theorem task {old task : Task} (hold : v.task = some old)
    (hcleared : ∀ unlock st, task = .del unlock st → unlock = false ∨ t.refCount = 0 → st.Cleared t)
    (hunreffed : ∀ unlock, task = .del unlock .free → t.refCount = 0) :
    Safe { v with task := some task } t := by
  refine ⟨?_, h.built, h.failed, h.inUse, ?_, ?_, ?_⟩
  · exact fun hb => absurd hb (h.not_building hold)
  · exact fun unlock st heq => hcleared unlock st (some.inj heq)
  · exact fun unlock heq => hunreffed unlock (some.inj heq)
  · exact fun hf => absurd hf (h.not_freed hold)

theorem unlink {old : Task} (hold : v.task = some old) (k : TimerKind) : Safe v (t.unlink k) := by
  refine ⟨?_, h.built, h.failed, ?_, ?_, h.unreffed, ?_⟩
  · exact fun hb => absurd hb (h.not_building hold)
  · exact fun k' b hl => h.inUse k' b (unlink_linked hl)
  · intro unlock st htask hor
    have hcl := h.cleared unlock st htask hor
    cases st with
    | look => trivial
    | retr _ _ =>
      exact ⟨fun hf => unlink_of_noneLinked (hcl.1 hf), fun hr => unlink_of_noneLinked (hcl.2 hr)⟩
    | fr _ => exact ⟨fun hf => unlink_of_noneLinked (hcl.1 hf), unlink_of_noneLinked hcl.2⟩
    | check => exact ⟨unlink_of_noneLinked hcl.1, unlink_of_noneLinked hcl.2⟩
    | rearm => trivial
    | free => exact ⟨unlink_of_noneLinked hcl.1, unlink_of_noneLinked hcl.2⟩
  · exact fun hf => absurd hf (h.not_freed hold)

/-- What `delete_cell` passes to `free_cell`. -/
theorem dead (hc : Course v t) {unlock : Bool}
    (htask : v.task = some (.del unlock .free)) : t.Dead := by
  have hzero := h.unreffed unlock htask
  obtain ⟨hfr, hretr⟩ := h.cleared unlock .free htask (.inr hzero)
  obtain ⟨hwait, hdele, -⟩ := hc.unlinked htask
  refine ⟨hzero, (hc.out_of_table htask).2, ?_⟩
  intro tm
  cases tm with
  | wait => exact hwait
  | dele => exact hdele
  | buf k b =>
    cases k with
    | fr => exact hfr b
    | retr => exact hretr b

end

theorem step (h : Safe (s.view c) t) (hc : Course (s.view c) t)
    (ht : s.cells c = some t) (hok : ev.careful s)
    (hs : CellStep s c ev t v' t') : Safe v' t' := by
  cases hs with
  | other ev t => exact h
  | uacBuilt t _ =>
    exact h.congr (fun _ => rfl) rfl id (Nat.le_succ _)
      (fun hb => by rcases hb with hb | hb <;> cases hb) (by simp) (by simp)
  | uacDone t _ =>
    exact h.congr (fun _ => rfl) rfl id le_rfl
      (fun hb => by rcases hb with hb | hb <;> cases hb) (by simp) (by simp)
  | uacRemove t hu =>
    exact h.congr (fun _ => rfl) rfl (fun _ => rfl) le_rfl (fun _ => .inl hu) (by simp) fun _ => rfl
  | uacFree t hu =>
    obtain ⟨href, hnull, -, htask⟩ := h.building (.inr hu)
    have hin := h.failed hu
    refine ⟨?_, (by simp), (by simp), h.inUse, ?_, h.unreffed, ?_⟩
    · rintro (hb | hb) <;> cases hb
    · intro unlock st hdel
      have hdel' : (s.view c).task = some (.del unlock st) := hdel
      rw [htask] at hdel'
      cases hdel'
    · refine fun _ => ⟨href, hin, htask, ?_⟩
      intro tm
      refine ⟨by simp [linked, hnull tm], ?_⟩
      intro hq
      have hd := (hc.queued tm hq).1
      rw [hnull tm] at hd
      cases hd
  | lookup how t hin hfinds =>
    have hnf : ¬ (s.view c).freed := by
      intro hf
      rw [(h.freed hf).2.1] at hin
      cases hin
    have hnb : ¬ (t.uac = .building ∨ t.uac = .failed) := by
      rintro (hb | hb)
      · obtain ⟨hlocal, hnr⟩ := h.built hb
        cases how with
        | request => simp [Lookup.finds, hlocal] at hfinds
        | reply i => simp [Lookup.finds, hnr] at hfinds
        | ident => exact hok t ht hb
      · rw [h.failed hb] at hin
        cases hin
    refine ⟨fun hb => absurd hb hnb, h.built, h.failed, h.inUse, ?_, ?_, fun hf => absurd hf hnf⟩
    · intro unlock st htask _
      rw [(hc.out_of_table htask).2] at hin
      cases hin
    · intro unlock htask
      rw [(hc.out_of_table htask).2] at hin
      cases hin
  | unref t hpos hlock =>
    have hne : t.refCount ≠ 0 := hpos.ne'
    refine ⟨fun hb => absurd (h.building hb).1 hne, h.built, h.failed,
      h.inUse, ?_, fun unlock htask => absurd (h.unreffed unlock htask) hne,
      fun hf => absurd (h.freed hf).1 hne⟩
    intro unlock st htask hor
    by_cases hu : unlock = false
    · have hcl := h.cleared unlock st htask (.inl hu)
      cases st <;> exact hcl
    · rw [Bool.not_eq_false] at hu
      subst hu
      have hfree := hlock _ htask
      cases st with
      | look => trivial
      | rearm => trivial
      | free => exact absurd (h.unreffed true htask) hne
      | _ => cases hfree
  | act who a t t' hmay hact => exact h.act hmay hok hact
  | split id time chain t hidle _ hhome =>
    have hlinked : ∀ tm, ((if (c, tm) ∈ chain then (t.link tm).detach
        else t.link tm)).linked = true → (t.link tm).linked = true := by
      intro tm hl
      split at hl
      · cases hl
      · exact hl
    have hlist : ∀ tm, (c, tm) ∈ chain → (t.link tm).linked = true := by
      intro tm hmem
      simp [linked, hhome tm hmem]
    refine ⟨?_, h.built, h.failed, fun k b hl => h.inUse k b (hlinked _ hl), ?_, ?_, ?_⟩
    · intro hb
      obtain ⟨h1, h2, h3⟩ := h.building hb
      refine ⟨h1, ?_, h3⟩
      intro tm
      by_cases hmem : (c, tm) ∈ chain
      · have hhome' := hhome tm hmem
        rw [h2 tm] at hhome'
        cases hhome'
      · simp only [if_neg hmem]
        exact h2 tm
    · rw [hidle]
      simp
    · rw [hidle]
      simp
    · intro hf
      obtain ⟨h1, h2, h3, h4⟩ := h.freed hf
      refine ⟨h1, h2, h3, ?_⟩
      intro tm
      have hunlinked := (h4 tm).1
      constructor
      · by_contra hl
        rw [Bool.not_eq_false] at hl
        rw [hlinked tm hl] at hunlinked
        cases hunlinked
      · intro hmem
        rw [hlist tm hmem] at hunlinked
        cases hunlinked
  | fire tm t hidle hq _ =>
    have hd := (hc.queued tm hq).1
    have hnb : ¬ (t.uac = .building ∨ t.uac = .failed) := by
      intro hb
      rw [(h.building hb).2.1 tm] at hd
      cases hd
    have hnf : ¬ (s.view c).freed := fun hf => ((h.freed hf).2.2.2 tm).2 hq
    refine ⟨fun hb => absurd hb hnb, h.built, h.failed, h.inUse, ?_, ?_, fun hf => absurd hf hnf⟩
    · intro unlock st heq _
      have htask : handlerTask s.list tm = .del unlock st :=
        some.inj heq
      cases hl : s.list <;> cases tm <;> simp [hl, handlerTask] at htask
      all_goals
        rw [← htask.2]
        trivial
    · intro unlock heq
      have htask : handlerTask s.list tm = .del unlock .free :=
        some.inj heq
      cases hl : s.list <;> cases tm <;> simp [hl, handlerTask] at htask
  | skip tm t hq _ =>
    have hnf : ¬ (s.view c).freed := fun hf => ((h.freed hf).2.2.2 tm).2 hq
    exact ⟨h.building, h.built, h.failed, h.inUse, h.cleared, h.unreffed, fun hf => absurd hf hnf⟩
  | clearRetr b t htask =>
    refine ⟨fun hb => absurd hb (h.not_building htask), h.built, h.failed,
      ?_, ?_, h.unreffed, fun hf => absurd hf (h.not_freed htask)⟩
    · intro k b' hl
      by_cases heq : CellTimer.buf k b' = .buf .retr b
      · rw [heq, setLink_link_self] at hl
        cases hl
      · rw [setLink_link_of_ne heq] at hl
        exact h.inUse k b' hl
    · rw [htask]
      simp
  | handlerDone k b t htask =>
    exact ⟨fun hb => absurd hb (h.not_building htask), h.built, h.failed,
      h.inUse, (by simp), (by simp), fun hf => absurd hf (h.not_freed htask)⟩
  | waitRemove t htask =>
    have hnew : Safe (s.view c)
        { (if t.isInvite then t.cleanupLocalcancelTimers else t) with
          inTable := false } := by
      by_cases hinv : t.isInvite
      · simp only [hinv, if_true]
        exact h.congr (cleanup_timerList t) rfl (fun _ => rfl) le_rfl
          (fun hb => hb) h.built fun _ => rfl
      · simp only [hinv]
        exact h.congr (fun _ => rfl) rfl (fun _ => rfl) le_rfl (fun hb => hb) h.built fun _ => rfl
    apply hnew.task htask
    · intro unlock st heq _
      cases heq
      trivial
    · simp
  | look unlock time t htask =>
    apply h.task htask
    · intro unlock' st heq _
      cases heq
      exact ⟨noneLinked_of_anyLinked h.inUse, noneLinked_of_anyLinked h.inUse⟩
    · simp
  | removeRetr unlock removeFr removeRetr time t htask =>
    cases removeRetr with
    | true =>
      apply (h.unlink htask .retr).task htask
      · intro unlock' st heq hor
        cases heq
        obtain ⟨hfr, -⟩ := h.cleared unlock _ htask hor
        exact ⟨fun hf => unlink_of_noneLinked (hfr hf), unlink_noneLinked h.inUse⟩
      · simp
    | false =>
      apply h.task htask
      · intro unlock' st heq hor
        cases heq
        obtain ⟨hfr, hretr⟩ := h.cleared unlock _ htask hor
        exact ⟨hfr, hretr rfl⟩
      · simp
  | removeFr unlock removeFr time t htask =>
    cases removeFr with
    | true =>
      apply (h.unlink htask .fr).task htask
      · intro unlock' st heq hor
        cases heq
        obtain ⟨-, hretr⟩ := h.cleared unlock _ htask hor
        exact ⟨unlink_noneLinked h.inUse, unlink_of_noneLinked hretr⟩
      · simp
    | false =>
      apply h.task htask
      · intro unlock' st heq hor
        cases heq
        obtain ⟨hfr, hretr⟩ := h.cleared unlock _ htask hor
        exact ⟨hfr rfl, hretr⟩
      · simp
  | check unlock time t htask =>
    by_cases hzero : t.refCount = 0
    · rw [if_neg (not_not.mpr hzero)]
      apply h.task htask
      · intro unlock' st heq hor
        cases heq
        exact h.cleared unlock .check htask hor
      · exact fun _ _ => hzero
    · rw [if_pos hzero]
      apply h.task htask
      · intro unlock' st heq _
        cases heq
        trivial
      · simp
  | rearm unlock time t htask =>
    refine ⟨fun hb => absurd hb (h.not_building htask), h.built, h.failed,
      ?_, (by simp), (by simp), fun hf => absurd hf (h.not_freed htask)⟩
    intro k b hl
    rw [setLink_dele_buf] at hl
    exact h.inUse k b hl
  | free unlock time t htask =>
    obtain ⟨hzero, hin, hunlinked⟩ := h.dead hc htask
    exact ⟨fun hb => absurd hb (h.not_building htask), h.built, h.failed,
      h.inUse, (by simp), (by simp), fun _ => ⟨hzero, hin, rfl,
        fun tm => ⟨hunlinked tm, (hc.unlinked htask).2.2 tm⟩⟩⟩

end Safe

/-! ## Runs -/

/-- A step frees no cell, or one that `t_uac` gave up or that `delete_cell`
found unreferenced. -/
theorem step_freed {s s' : State} {ev : Event} (hs : s.step ev = some s') :
    s'.freed = s.freed ∨ ∃ c t, s'.freed = s.freed ++ [(c, t)] ∧
      s.cells c = some t ∧ (t.uac = .failed ∨
        ∃ unlock, (s.view c).task = some (.del unlock .free)) := by
  cases ev with
  | newT c hashIndex isInvite | tUac c hashIndex isInvite
  | split id time chain =>
    simp only [State.step] at hs
    obtain ⟨_, ⟨⟩⟩ := ite_none_right_eq_some.mp hs
    exact .inl rfl
  | uacFree c =>
    obtain ⟨t, ht, hif⟩ := bind_eq_some_iff.mp hs
    obtain ⟨hu, ⟨⟩⟩ := ite_none_right_eq_some.mp hif
    exact .inr ⟨c, t, rfl, ht, .inl hu⟩
  | uacBuilt c | uacDone c | uacRemove c | lookup how c | unref c =>
    obtain ⟨t, -, hif⟩ := bind_eq_some_iff.mp hs
    obtain ⟨_, ⟨⟩⟩ := ite_none_right_eq_some.mp hif
    exact .inl rfl
  | act who c a =>
    obtain ⟨t, -, hif⟩ := bind_eq_some_iff.mp hs
    obtain ⟨_, hif⟩ := ite_none_right_eq_some.mp hif
    obtain ⟨t', -, heq⟩ := map_eq_some_iff.mp hif
    subst heq
    exact .inl rfl
  | fire =>
    simp only [State.step] at hs
    split at hs
    case h_2 => cases hs
    case h_1 c tm rest hrun hchain =>
      obtain ⟨t, ht, heq⟩ := map_eq_some_iff.mp hs
      subst heq
      rw [State.fire]
      split
      · exact .inl rfl
      · exact .inl rfl
  | clearRetr | waitRemove =>
    simp only [State.step] at hs
    split at hs
    case h_2 => cases hs
    case h_1 =>
      obtain ⟨t, -, heq⟩ := map_eq_some_iff.mp hs
      subst heq
      exact .inl rfl
  | handlerDone =>
    simp only [State.step] at hs
    split at hs
    case h_2 => cases hs
    case h_1 =>
      cases hs
      exact .inl rfl
  | delete time =>
    simp only [State.step] at hs
    split at hs
    case h_2 => cases hs
    case h_1 c unlock st hrun =>
      obtain ⟨t, ht, heq⟩ := map_eq_some_iff.mp hs
      subst heq
      cases st with
      | free =>
        exact .inr ⟨c, t, rfl, ht, .inr ⟨unlock, view_task_self hrun⟩⟩
      | _ => exact .inl rfl

/-- Every cell is safe, and those freed so far were dead and are different. -/
structure AllSafe (s : State) : Prop extends OnCourse s where
  safe : ∀ c t, s.cells c = some t → Safe (s.view c) t
  once : (s.freed.map Prod.fst).Nodup
  dead : ∀ p ∈ s.freed, p.2.Dead

theorem AllSafe.step {s s' : State} {ev : Event} (h : AllSafe s)
    (hok : ev.careful s) (hs : s.step ev = some s') : AllSafe s' := by
  have hsafe : ∀ c t', s'.cells c = some t' → Safe (s'.view c) t' := by
    intro c t' hc
    rcases step_changes h.chainNodup hs c t' hc with
      ⟨hnone, hborn, hview⟩ | ⟨t, ht, hstep⟩
    · rw [hview]
      exact .born hborn (h.unborn c hnone)
    · exact (h.safe c t ht).step (h.course c t ht) ht hok hstep
  have honce : (s'.freed.map Prod.fst).Nodup ∧ ∀ p ∈ s'.freed, p.2.Dead := by
    rcases step_freed hs with heq | ⟨c, t, heq, ht, hcause⟩
    · rw [heq]
      exact ⟨h.once, h.dead⟩
    · have hs' := h.safe c t ht
      have hnew : ¬ (s.view c).freed ∧ t.Dead := by
        rcases hcause with hu | ⟨unlock, htask⟩
        · obtain ⟨href, hnull, hnf, -⟩ := hs'.building (.inr hu)
          refine ⟨hnf, href, hs'.failed hu, ?_⟩
          intro tm
          simp [linked, hnull tm]
        · refine ⟨?_, hs'.dead (h.course c t ht) htask⟩
          intro hf
          rw [(hs'.freed hf).2.2.1] at htask
          cases htask
      rw [heq]
      constructor
      · rw [map_append, List.nodup_append]
        refine ⟨h.once, nodup_singleton _, ?_⟩
        intro d hd e he
        obtain ⟨p, hp, hpd⟩ := List.mem_map.mp hd
        rw [mem_singleton.mp he]
        rintro rfl
        apply hnew.1
        exact ⟨p.2, hpd ▸ hp⟩
      · intro p hp
        rcases mem_append.mp hp with hp | hp
        · exact h.dead p hp
        · rw [mem_singleton.mp hp]
          exact hnew.2
  exact ⟨h.toOnCourse.step (Event.careful_onTime hok) hs, hsafe, honce.1, honce.2⟩

end Msicp.Tm.Lifetime
