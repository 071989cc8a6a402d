import Msicp.Racc.BillingQueue
import Mathlib.Tactic.Ring

/-!
# The steps of the billing thread keep the invariant
-/

namespace Msicp.Racc

open List Function Option

/-- Two places at which the thread has the same hold of the queue. -/
structure Consumer.Same {α : Type*} (c c' : Consumer α) : Prop where
  temp : c.temp = c'.temp
  unwritten : c.unwritten = c'.unwritten
  cutting : c.cutting = c'.cutting
  back : c.back = c'.back
  taken : c.taken = c'.taken

namespace Inv

variable {α ρ : Type*} {s : State α ρ} {q : List (α × List ρ)}

theorem goto (h : Inv s q) {c c' : Consumer α} (hc : s.consumer = c)
    (hsame : c.Same c') (hlink : ∀ p, c'.link = some p → p = oldest q) :
    Inv { s with consumer := c' } q := by
  obtain ⟨hfault, hnodup, hqueued, hhead, hsem, hrecords, htemp, hleaf, hcutting,
    -, hbuilding, hdata⟩ := h
  rw [hc] at hqueued hsem htemp hleaf hcutting hbuilding
  rw [hsame.back] at hqueued
  rw [hsame.taken] at hsem
  rw [hsame.temp, hsame.cutting] at htemp
  rw [hsame.cutting] at hleaf hcutting
  rw [hsame.temp] at hbuilding
  have hheld : ({ s with consumer := c' } : State α ρ).held = s.held := by
    unfold State.held
    rw [hc, hsame.unwritten]
  exact ⟨hfault, hnodup, hqueued, hhead, hsem, hheld ▸ hrecords, htemp, hleaf,
    hcutting, hlink, hbuilding, hdata⟩

theorem exists_oldest (h : Inv s q) (hcut : s.consumer.cutting = true) : ∃ x q', q = x :: q' := by
  cases hq : q with
  | nil => exact absurd hq (h.cutting hcut)
  | cons x q' => exact ⟨x, q', rfl⟩

theorem exists_prev (h : Inv s q) {c : Consumer α} {t : α}
    (hc : s.consumer = c) (htemp : c.temp = some t) (hcut : c.cutting = true) :
    ∃ n, s.heap t = some n ∧ n.prev = oldest q := by
  rw [← hc] at htemp hcut
  obtain ⟨-, n, hn, hprev⟩ := h.temp t htemp
  exact ⟨n, hn, hprev hcut⟩

theorem wait (h : Inv s q) (hc : s.consumer = .waiting) (hsem : s.sem ≠ 0) :
    Inv { s with sem := s.sem - 1, consumer := .locking } q := by
  obtain ⟨hfault, hnodup, hqueued, hhead, hcount, hrecords, htemp, hleaf,
    hcutting, hlink, hbuilding, hdata⟩ := h
  rw [hc] at hqueued hcount htemp hleaf hcutting hlink hbuilding
  refine ⟨hfault, hnodup, hqueued, hhead, ?_, ?_, htemp, hleaf, hcutting, hlink, hbuilding, hdata⟩
  · simp only [Consumer.taken] at hcount ⊢
    omega
  · simpa [State.held, hc, Consumer.unwritten, Consumer.temp] using hrecords

theorem logEntry_eq (h : Inv s q) (hc : s.consumer = .locking) (hq : q ≠ []) : s.logEntry = s := by
  have hleaf := h.leaf (by rw [hc]; rfl) hq
  have hqueued := h.queued
  rw [hc] at hqueued
  cases q with
  | nil => exact absurd rfl hq
  | cons x q =>
    have hcount : (x :: q).length ≤ s.inserted.length := by
      rw [h.records, List.length_append, length_map]
      omega
    have hback : ∀ k, (State.printQueueDetails s.heap k none).isSome := by
      intro k
      cases k <;> rfl
    have hprint := hqueued.print _ (hback (s.inserted.length - (x :: q).length))
    have hnone : (Consumer.locking : Consumer α).back = none := rfl
    rw [Nat.sub_add_cancel hcount, hnone, or_none, ← h.head] at hprint
    obtain ⟨k, hk⟩ := isSome_iff_exists.mp hprint
    unfold State.logEntry
    rw [hleaf]
    dsimp only [oldest, head?_cons, map_some]
    rw [State.load_eq hqueued.1, hk]

variable [DecidableEq α]

omit q in
theorem takeLeaf_eq {logs : Bool} {t : α}
    (hlog : (if logs then s.logEntry else s) = s) (hleaf : s.leaf = some t) :
    s.takeLeaf logs =
      if s.head = some t then { s with head := none, consumer := .writing t }
      else { s with consumer := .testPrev t } := by
  unfold State.takeLeaf
  dsimp only
  rw [hlog, hleaf]
  by_cases hhead : s.head = some t
  · rw [if_pos hhead.symm, if_pos hhead]
  · rw [if_neg (Ne.symm hhead), if_neg hhead]

/-- The section of `billing_thread` under the mutex: the oldest node is taken. -/
theorem takeLeaf (h : Inv s q) (hc : s.consumer = .locking) (logs : Bool) :
    ∃ t q', Inv (s.takeLeaf logs) q' ∧
      (s.takeLeaf logs = { s with head := none, consumer := .writing t } ∨
        s.takeLeaf logs = { s with consumer := .testPrev t }) := by
  have hcount := h.sem
  rw [hc] at hcount
  cases q with
  | nil => simp [Consumer.taken] at hcount
  | cons x q =>
    have hlog : (if logs then s.logEntry else s) = s := by
      split_ifs
      · exact h.logEntry_eq hc (cons_ne_nil x q)
      · rfl
    have hleaf : s.leaf = some x.1 :=
      h.leaf (by rw [hc]; rfl) (cons_ne_nil x q)
    have htake := takeLeaf_eq hlog hleaf
    have hqueued := h.queued
    rw [hc] at hqueued
    have hnodup := h.nodup
    rw [map_cons, nodup_cons] at hnodup
    have hrecords : s.inserted = s.fifo ++ [x.2] ++ q.map Prod.snd := by
      have hall := h.records
      simpa [State.held, hc, Consumer.unwritten, Consumer.temp] using hall
    have hheld : ∀ c : Consumer α, c.unwritten = some x.1 → ∀ head,
        ({ s with head := head, consumer := c } : State α ρ).held =
          [x.2] := by
      intro c hun head
      simp [State.held, hun, hqueued.1]
    have hsem : s.sem + s.producer.pending = q.length := by
      simp only [Consumer.taken, length_cons] at hcount
      omega
    have hbuilding : ∀ a, s.producer.building = some a →
        a ∉ q.map Prod.fst ∧ some x.1 ≠ some a ∧ s.heap a ≠ none := by
      intro a ha
      obtain ⟨hout, -, halloc⟩ := h.building a ha
      rw [map_cons, mem_cons, not_or] at hout
      exact ⟨hout.2, fun hsame => hout.1 (some.inj hsame).symm, halloc⟩
    have htemp : ∀ t, some x.1 = some t → t ∉ q.map Prod.fst ∧
        ∃ n, s.heap t = some n ∧ n.prev = oldest q := by
      rintro t ht
      obtain rfl := some.inj ht
      exact ⟨hnodup.1, _, hqueued.1, rfl⟩
    refine ⟨x.1, q, ?_⟩
    by_cases hhead : s.head = some x.1
    · -- the only node: the queue is empty now
      obtain rfl := eq_nil_of_newest h.nodup (h.head ▸ hhead)
      rw [htake, if_pos hhead]
      refine ⟨?_, Or.inl rfl⟩
      constructor
      · exact h.fault
      · exact nodup_nil
      · trivial
      · rfl
      · exact hsem
      · rw [hheld _ rfl]
        exact hrecords
      · intro t ht
        obtain ⟨hout, n, hn, -⟩ := htemp t ht
        exact ⟨hout, n, hn, fun hcut => by cases hcut⟩
      · exact fun _ hne => absurd rfl hne
      · intro hcut
        cases hcut
      · intro p hlink
        cases hlink
      · exact hbuilding
      · exact h.data
    · -- there is a next one, which is the newest or has a newer one
      rw [htake, if_neg hhead]
      refine ⟨?_, Or.inr rfl⟩
      have hne : q ≠ [] := by
        rintro rfl
        exact hhead (h.head.trans rfl)
      constructor
      · exact h.fault
      · exact hnodup.2
      · exact hqueued.2
      · rw [h.head]
        obtain ⟨y, q', rfl⟩ := exists_cons_of_ne_nil hne
        simp [newest]
      · exact hsem
      · rw [hheld _ rfl]
        exact hrecords
      · intro t ht
        obtain ⟨hout, n, hn, hprev⟩ := htemp t ht
        exact ⟨hout, n, hn, fun _ => hprev⟩
      · intro hcut
        cases hcut
      · exact fun _ => hne
      · intro p hlink
        cases hlink
      · exact hbuilding
      · exact h.data

/-- `temp->prev->next = NULL`: the node that was taken is cut off. -/
theorem cut (h : Inv s q) {t : α} (htemp : s.consumer.temp = some t)
    (hcut : s.consumer.cutting = true)
    (hun : s.consumer.unwritten = some t) (htaken : s.consumer.taken = 0) :
    Inv { s.clearNext (oldest q) with consumer := .readPrevLeaf t } q := by
  obtain ⟨x, q, rfl⟩ := h.exists_oldest hcut
  obtain ⟨hx, hrest⟩ := h.queued
  have hout : x.1 ∉ q.map Prod.fst := by
    have hnodup := h.nodup
    rw [map_cons, nodup_cons] at hnodup
    exact hnodup.1
  have htx : t ≠ x.1 := by
    rintro rfl
    exact (h.temp _ htemp).1 (by simp)
  have hclear : s.clearNext (oldest (x :: q)) =
      { s with
        heap := Function.update s.heap x.1 (some ⟨x.2, none, oldest q⟩) } := by
    dsimp only [State.clearNext, oldest, head?_cons, map_some]
    exact State.store_eq hx _
  rw [hclear]
  refine { h with
    queued := ?_
    sem := ?_
    records := ?_
    temp := ?_
    leaf := ?_
    cutting := ?_
    link := ?_
    building := ?_
    data := ?_ }
  · exact ⟨update_self _ _ _, hrest.update hout _⟩
  · have hsem := h.sem
    rw [htaken] at hsem
    exact hsem
  · have hheld : ({ s with
        heap := Function.update s.heap x.1 (some ⟨x.2, none, oldest q⟩)
        consumer := .readPrevLeaf t } : State α ρ).held = s.held := by
      have hnew : (Consumer.readPrevLeaf t).unwritten = some t := rfl
      simp [State.held, hun, hnew, update_of_ne htx]
    rw [hheld]
    exact h.records
  · rintro t' ht
    obtain rfl : t = t' := some.inj ht
    obtain ⟨hfree, n, hn, hprev⟩ := h.temp t htemp
    exact ⟨hfree, n, (update_of_ne htx _ _).trans hn, fun _ => hprev hcut⟩
  · intro hno
    cases hno
  · exact fun _ => cons_ne_nil x q
  · intro p hlink
    cases hlink
  · intro a ha
    obtain ⟨hfree, hne, halloc⟩ := h.building a ha
    have hax : a ≠ x.1 := by
      rintro rfl
      exact hfree (by simp)
    refine ⟨hfree, ?_, ?_⟩
    · rw [htemp] at hne
      exact hne
    · dsimp only
      rw [update_of_ne hax]
      exact halloc
  · intro a done rest hfill
    obtain ⟨n, hn, hdata⟩ := h.data a done rest hfill
    have hax : a ≠ x.1 := by
      rintro rfl
      exact (h.building _ (by rw [show s.producer = _ from hfill]; rfl)).1 (by simp)
    exact ⟨n, (update_of_ne hax _ _).trans hn, hdata⟩

omit [DecidableEq α] in
/-- `billing_data_leaf = temp->prev` -/
theorem setLeaf (h : Inv s q) {t : α} {p : Option α} (hc : s.consumer = .setLeaf t p) :
    Inv { s with leaf := p, consumer := .writing t } q := by
  obtain ⟨hfault, hnodup, hqueued, hhead, hsem, hrecords, htemp, hleaf, hcutting,
    hlink, hbuilding, hdata⟩ := h
  rw [hc] at hqueued hsem htemp hcutting hlink hbuilding
  refine ⟨hfault, hnodup, hqueued, hhead, hsem, ?_, ?_, ?_, ?_, ?_, hbuilding, hdata⟩
  · simpa [State.held, hc, Consumer.unwritten, Consumer.temp] using hrecords
  · intro t' ht
    obtain ⟨hout, n, hn, -⟩ := htemp t' ht
    exact ⟨hout, n, hn, fun hcut => by cases hcut⟩
  · exact fun _ _ => hlink p rfl
  · intro hcut
    cases hcut
  · intro p' hp'
    cases hp'

omit [DecidableEq α] in
theorem write (h : Inv s q) {t : α} {n : CallDetails α ρ}
    (hc : s.consumer = .writing t) (hn : s.heap t = some n) :
    Inv { s with fifo := s.fifo ++ [n.data], consumer := .freeing t } q := by
  obtain ⟨hfault, hnodup, hqueued, hhead, hsem, hrecords, htemp, hleaf, hcutting,
    hlink, hbuilding, hdata⟩ := h
  rw [hc] at hqueued hsem htemp hleaf hbuilding
  refine ⟨hfault, hnodup, hqueued, hhead, hsem, ?_, ?_, hleaf, ?_, ?_, hbuilding, hdata⟩
  · simpa [State.held, hc, Consumer.unwritten, Consumer.temp, hn] using hrecords
  · intro t' ht
    obtain ⟨hout, m, hm, -⟩ := htemp t' ht
    exact ⟨hout, m, hm, fun hcut => by cases hcut⟩
  · intro hcut
    cases hcut
  · intro p hp
    cases hp

theorem free (h : Inv s q) {t : α} (hc : s.consumer = .freeing t) :
    Inv { s with
      heap := Function.update s.heap t none
      consumer := .waiting } q := by
  obtain ⟨hfault, hnodup, hqueued, hhead, hsem, hrecords, htemp, hleaf, hcutting,
    hlink, hbuilding, hdata⟩ := h
  rw [hc] at hqueued hsem htemp hleaf hbuilding
  refine ⟨hfault, hnodup, hqueued.update (htemp t rfl).1 none, hhead, hsem, ?_, ?_,
    hleaf, ?_, ?_, ?_, ?_⟩
  · simpa [State.held, hc, Consumer.unwritten, Consumer.temp] using hrecords
  · intro t' ht
    cases ht
  · intro hcut
    cases hcut
  · intro p hp
    cases hp
  · intro a ha
    obtain ⟨hout, hne, halloc⟩ := hbuilding a ha
    have hat : a ≠ t := fun hsame => hne (congrArg some hsame).symm
    refine ⟨hout, by simp [Consumer.temp], ?_⟩
    dsimp only
    rw [update_of_ne hat]
    exact halloc
  · intro a done rest hfill
    obtain ⟨n, hn, hdone⟩ := hdata a done rest hfill
    dsimp only at hfill
    have hat : a ≠ t := by
      rintro rfl
      exact (hbuilding a (by rw [hfill]; rfl)).2.1 rfl
    exact ⟨n, (update_of_ne hat _ _).trans hn, hdone⟩

end Inv

/-- How far the thread is on the way from one record written to the next. -/
def Consumer.stage {α : Type*} : Consumer α → ℕ
  | .freeing _ => 0
  | .waiting => 1
  | .locking => 2
  | .testPrev _ => 3
  | .readPrev _ => 4
  | .readHead _ _ => 5
  | .readPrevNext _ => 6
  | .cutNext _ _ | .cutLocked _ => 7
  | .readPrevLeaf _ => 8
  | .setLeaf _ _ => 9
  | .writing _ => 10

/-- What the thread has done: 11 steps for a record, at most. -/
def State.progress {α ρ : Type*} (s : State α ρ) : ℕ :=
  11 * s.fifo.length + s.consumer.stage

namespace Inv

variable {α ρ : Type*} {s s' : State α ρ} {q : List (α × List ρ)} [DecidableEq α] {logs : Bool}

/-- A step of the thread, which brings it nearer to the next record. -/
theorem consume (h : Inv s q) (hs : s.consume logs = some s') :
    (∃ q', Inv s' q') ∧ s.progress < s'.progress := by
  unfold State.consume at hs
  cases hc : s.consumer with
  | waiting =>
    rw [hc] at hs
    dsimp only at hs
    split_ifs at hs with hsem
    obtain rfl := some.inj hs
    refine ⟨⟨q, h.wait hc hsem⟩, ?_⟩
    simp [State.progress, hc, Consumer.stage]
  | locking =>
    rw [hc] at hs
    obtain rfl := some.inj hs
    obtain ⟨t, q', hinv, htake | htake⟩ := h.takeLeaf hc logs
    · refine ⟨⟨q', hinv⟩, ?_⟩
      rw [htake]
      simp [State.progress, hc, Consumer.stage]
    · refine ⟨⟨q', hinv⟩, ?_⟩
      rw [htake]
      simp [State.progress, hc, Consumer.stage]
  | testPrev t =>
    rw [hc] at hs
    obtain ⟨n, hn, hprev⟩ := h.exists_prev hc rfl rfl
    obtain ⟨x, q', rfl⟩ := h.exists_oldest (by rw [hc]; rfl)
    have hsome : n.prev.isSome = true := by
      rw [hprev]
      rfl
    dsimp only at hs
    rw [State.load_eq hn, hsome, if_pos rfl] at hs
    obtain rfl := some.inj hs
    refine ⟨⟨_, h.goto hc ⟨rfl, rfl, rfl, rfl, rfl⟩ ?_⟩, ?_⟩
    · intro p hp
      cases hp
    · simp [State.progress, hc, Consumer.stage]
  | readPrev t =>
    rw [hc] at hs
    obtain ⟨n, hn, hprev⟩ := h.exists_prev hc rfl rfl
    dsimp only at hs
    rw [State.load_eq hn] at hs
    obtain rfl := some.inj hs
    refine ⟨⟨_, h.goto hc ⟨rfl, rfl, rfl, rfl, rfl⟩ ?_⟩, ?_⟩
    · intro p hp
      rw [← some.inj hp]
      exact hprev
    · simp [State.progress, hc, Consumer.stage]
  | readHead t p =>
    rw [hc] at hs
    obtain rfl := some.inj hs
    by_cases hhead : p ≠ s.head
    · rw [if_pos hhead]
      refine ⟨⟨_, h.goto hc ⟨rfl, rfl, rfl, rfl, rfl⟩ ?_⟩, ?_⟩
      · intro p' hp'
        cases hp'
      · simp [State.progress, hc, Consumer.stage]
    · rw [if_neg hhead]
      refine ⟨⟨_, h.goto hc ⟨rfl, rfl, rfl, rfl, rfl⟩ ?_⟩, ?_⟩
      · intro p' hp'
        cases hp'
      · simp [State.progress, hc, Consumer.stage]
  | readPrevNext t =>
    rw [hc] at hs
    obtain ⟨n, hn, hprev⟩ := h.exists_prev hc rfl rfl
    dsimp only at hs
    rw [State.load_eq hn] at hs
    obtain rfl := some.inj hs
    refine ⟨⟨_, h.goto hc ⟨rfl, rfl, rfl, rfl, rfl⟩ ?_⟩, ?_⟩
    · intro p hp
      rw [← some.inj hp]
      exact hprev
    · simp [State.progress, hc, Consumer.stage]
  | cutNext t p =>
    rw [hc] at hs
    obtain rfl := some.inj hs
    obtain rfl := h.link p (by rw [hc]; rfl)
    refine ⟨⟨_, h.cut (by rw [hc]; rfl) (by rw [hc]; rfl) (by rw [hc]; rfl) (by rw [hc]; rfl)⟩, ?_⟩
    simp [State.progress, hc, Consumer.stage, State.clearNext_fifo]
  | cutLocked t =>
    rw [hc] at hs
    obtain ⟨n, hn, hprev⟩ := h.exists_prev hc rfl rfl
    dsimp only at hs
    rw [State.load_eq hn, hprev] at hs
    obtain rfl := some.inj hs
    refine ⟨⟨_, h.cut (by rw [hc]; rfl) (by rw [hc]; rfl) (by rw [hc]; rfl) (by rw [hc]; rfl)⟩, ?_⟩
    simp [State.progress, hc, Consumer.stage, State.clearNext_fifo]
  | readPrevLeaf t =>
    rw [hc] at hs
    obtain ⟨n, hn, hprev⟩ := h.exists_prev hc rfl rfl
    dsimp only at hs
    rw [State.load_eq hn] at hs
    obtain rfl := some.inj hs
    refine ⟨⟨_, h.goto hc ⟨rfl, rfl, rfl, rfl, rfl⟩ ?_⟩, ?_⟩
    · intro p hp
      rw [← some.inj hp]
      exact hprev
    · simp [State.progress, hc, Consumer.stage]
  | setLeaf t p =>
    rw [hc] at hs
    obtain rfl := some.inj hs
    refine ⟨⟨_, h.setLeaf hc⟩, ?_⟩
    simp [State.progress, hc, Consumer.stage]
  | writing t =>
    rw [hc] at hs
    obtain ⟨-, n, hn, -⟩ := h.temp t (by rw [hc]; rfl)
    dsimp only at hs
    rw [State.load_eq hn] at hs
    obtain rfl := some.inj hs
    refine ⟨⟨_, h.write hc hn⟩, ?_⟩
    simp only [State.progress, hc, Consumer.stage, List.length_append, length_singleton]
    omega
  | freeing t =>
    rw [hc] at hs
    obtain ⟨-, n, hn, -⟩ := h.temp t (by rw [hc]; rfl)
    dsimp only at hs
    rw [State.load_eq hn] at hs
    obtain rfl := some.inj hs
    refine ⟨⟨_, h.free hc⟩, ?_⟩
    simp [State.progress, hc, Consumer.stage]

end Inv

end Msicp.Racc

/-!
## Every billing record is written once and in order

The process and its thread may be interleaved in any way.
-/

namespace Msicp.Racc

open Msicp.Support

variable {α ρ : Type*} [DecidableEq α] {s s' : State α ρ}
  {q : List (α × List ρ)}

/-- A step of the thread. -/
def Label.isConsume : Label α ρ → Bool
  | .consume => true
  | _ => false

namespace Inv

/-- `malloc` has returned a node that is nobody else's. -/
theorem call (h : Inv s q) {a : α} (hidle : s.producer.isIdle = true)
    (hfree : s.heap a = none) (fields : List ρ) (contents : CallDetails α ρ) :
    Inv { s with
      heap := Function.update s.heap a (some contents)
      producer := .zeroing a fields } q := by
  have hp : s.producer = .idle := by
    cases hproducer : s.producer with
    | idle => rfl
    | _ => simp [hproducer, Producer.isIdle] at hidle
  refine h.build ?_ ?_ rfl (by rw [hp]; rfl) ?_
  · exact fun ha => h.queued.allocated a ha hfree
  · intro htemp
    obtain ⟨-, n, hn, -⟩ := h.temp a htemp
    simp [hfree] at hn
  · intro a' done rest hfill
    cases hfill

/-- A step of the process, in which the thread does nothing. -/
theorem produce (h : Inv s q) (hs : s.produce = some s') :
    (∃ q', Inv s' q') ∧ s'.progress = s.progress := by
  unfold State.produce at hs
  cases hp : s.producer with
  | idle =>
    rw [hp] at hs
    cases hs
  | zeroing a fields =>
    rw [hp] at hs
    obtain rfl := Option.some.inj hs
    obtain ⟨ha, htemp, halloc⟩ := h.building a (by rw [hp]; rfl)
    obtain ⟨n, hn⟩ := Option.ne_none_iff_exists'.mp halloc
    rw [State.store_eq hn]
    refine ⟨⟨q, h.build ha htemp rfl (by rw [hp]; rfl) ?_⟩, rfl⟩
    intro a' done rest hfill
    cases hfill
    rfl
  | filling a done rest =>
    cases rest with
    | nil =>
      rw [hp] at hs
      obtain rfl := Option.some.inj hs
      refine ⟨⟨_, h.insert hp⟩, ?_⟩
      simp [State.progress, s.insert_rest a]
    | cons field rest =>
      rw [hp] at hs
      obtain rfl := Option.some.inj hs
      obtain ⟨ha, htemp, -⟩ := h.building a (by rw [hp]; rfl)
      obtain ⟨n, hn, rfl⟩ := h.data a _ _ hp
      rw [State.store_eq hn]
      refine ⟨⟨q, h.build ha htemp rfl (by rw [hp]; rfl) ?_⟩, rfl⟩
      intro a' done' rest' hfill
      cases hfill
      rfl
  | posting =>
    rw [hp] at hs
    obtain rfl := Option.some.inj hs
    refine ⟨⟨q, { h with
      sem := ?_
      building := ?_
      data := ?_ }⟩, rfl⟩
    · have hsem := h.sem
      rw [hp] at hsem
      simp only [Producer.pending] at hsem ⊢
      omega
    · intro a ha
      cases ha
    · intro a done rest hfill
      cases hfill

theorem step (h : Inv s q) {logs : Bool} {l : Label α ρ} (hs : step logs l s = some s') :
    (∃ q', Inv s' q') ∧ s.progress + (if l.isConsume then 1 else 0) ≤ s'.progress := by
  cases l with
  | call fields a contents =>
    simp only [Racc.step] at hs
    split_ifs at hs with hcall
    obtain rfl := Option.some.inj hs
    refine ⟨⟨q, h.call hcall.1 (Option.isNone_iff_eq_none.mp hcall.2) _ _⟩, ?_⟩
    exact le_of_eq rfl
  | callFailed =>
    simp only [Racc.step] at hs
    split_ifs at hs
    obtain rfl := Option.some.inj hs
    exact ⟨⟨q, h⟩, le_of_eq rfl⟩
  | produce =>
    obtain ⟨hinv, hsame⟩ := h.produce hs
    exact ⟨hinv, le_of_eq hsame.symm⟩
  | consume =>
    obtain ⟨hinv, hless⟩ := h.consume hs
    exact ⟨hinv, hless⟩

end Inv

/-! ## Runs -/

section Runs

variable {logs : Bool}

theorem exists_inv (h : (queueMachine α ρ logs).Reach s) : ∃ q, Inv s q := by
  refine h.invariant (fun s => ∃ q, Inv s q) ?_ ?_
  · rintro _ rfl
    exact ⟨[], Inv.start⟩
  · rintro l s s' ⟨q, hinv⟩ - hs
    exact (hinv.step hs).1

/-- The steps of a run that the thread takes. -/
def consumed (ls : List (Label α ρ)) : ℕ :=
  ls.countP Label.isConsume

/-- Each step of the thread counts, whatever the process does. -/
theorem progress_run (h : Inv s q) {ls : List (Label α ρ)}
    (hrun : (queueMachine α ρ logs).run s ls = some s') :
    s.progress + consumed ls ≤ s'.progress := by
  induction ls generalizing s q with
  | nil =>
    obtain rfl : s = s' := by simpa [Machine.run] using hrun
    simp [consumed]
  | cons l ls ih =>
    obtain ⟨u, hu, hrest⟩ := Option.bind_eq_some_iff.mp hrun
    obtain ⟨⟨q', hinv⟩, hfirst⟩ := h.step hu
    have hlater := ih hinv hrest
    simp only [consumed, List.countP_cons] at hlater ⊢
    omega

omit [DecidableEq α] in
theorem Consumer.stage_le (c : Consumer α) : c.stage ≤ 10 := by
  cases c <;> simp [Consumer.stage]

end Runs

theorem exists_consume (s : State α ρ) (logs : Bool) :
    (∃ s', s.consume logs = some s') ∨ s.consumer = .waiting ∧ s.sem = 0 := by
  unfold State.consume
  cases hc : s.consumer with
  | waiting =>
    by_cases hsem : s.sem = 0
    · exact Or.inr ⟨rfl, hsem⟩
    · exact Or.inl ⟨_, if_neg hsem⟩
  | _ => exact Or.inl ⟨_, rfl⟩

/-- What holds in a state `s` of a machine: no access to memory that is not
allocated; what is written to the FIFO is what was inserted, from the first
record on, once and in order; the thread is blocked only when everything is
written, or all but the record for which the process is about to post; and it
needs at most 11 steps for a record. -/
structure RecordsWritten (M : Machine (State α ρ) (Label α ρ))
    (s : State α ρ) : Prop where
  noFault : s.fault = false
  inOrder : s.fifo <+: s.inserted
  empty : s.consumer = .waiting → s.sem = 0 → s.producer ≠ .posting →
    s.head = none ∧ s.fifo = s.inserted
  alone : s.consumer = .waiting → s.sem = 0 → s.producer = .posting →
    s.head = s.leaf ∧ ∃ record, s.inserted = s.fifo ++ [record]
  goesOn : (∃ s', M.step .consume s = some s') ∨
    s.consumer = .waiting ∧ s.sem = 0
  within : ∀ ls s', M.run s ls = some s' →
    consumed ls ≤ 11 * (s'.fifo.length - s.fifo.length) + 10

theorem recordsWritten {logs : Bool} (h : (queueMachine α ρ logs).Reach s) :
    RecordsWritten (queueMachine α ρ logs) s := by
  obtain ⟨q, hinv⟩ := exists_inv h
  have hblocked : s.consumer = .waiting → s.held = [] := by
    intro hc
    simp [State.held, hc, Consumer.unwritten, Consumer.temp]
  have hcount : s.consumer = .waiting → s.sem = 0 → q.length = s.producer.pending := by
    intro hc hsem
    have hall := hinv.sem
    simp only [hc, hsem, Consumer.taken] at hall
    omega
  constructor
  · exact hinv.fault
  · exact ⟨s.held ++ q.map Prod.snd, by rw [hinv.records, List.append_assoc]⟩
  · intro hc hsem hpost
    have hzero : s.producer.pending = 0 := by
      cases hp : s.producer with
      | posting => exact absurd hp hpost
      | _ => rfl
    obtain rfl : q = [] :=
      List.eq_nil_of_length_eq_zero ((hcount hc hsem).trans hzero)
    refine ⟨hinv.head, ?_⟩
    rw [hinv.records, hblocked hc]
    simp
  · intro hc hsem hpost
    have hone : s.producer.pending = 1 := by rw [hpost]; rfl
    obtain ⟨x, rfl⟩ := List.length_eq_one_iff.mp ((hcount hc hsem).trans hone)
    have hleaf := hinv.leaf (by rw [hc]; rfl) (List.cons_ne_nil x [])
    refine ⟨?_, x.2, ?_⟩
    · rw [hinv.head, hleaf]
      rfl
    · rw [hinv.records, hblocked hc]
      simp
  · exact exists_consume s logs
  · intro ls s' hrun
    have hless := progress_run hinv hrun
    have hstage := Consumer.stage_le s'.consumer
    unfold State.progress at hless
    omega

/-- The billing records, with the log entry or without, and the STIR records. -/
theorem racc_records_written (α ρ : Type*) [DecidableEq α] :
    (∀ nEnableLogs s, (billing α ρ nEnableLogs).Reach s →
        RecordsWritten (billing α ρ nEnableLogs) s) ∧
      ∀ s, (stirBilling α ρ).Reach s → RecordsWritten (stirBilling α ρ) s :=
  ⟨fun _ _ h => recordsWritten h, fun _ h => recordsWritten h⟩

/-- Before the `sem_post` the thread is blocked and the queue is not empty. -/
theorem blocked_before_post : ∃ s, (billing ℕ ℕ 0).Reach s ∧ s.consumer = .waiting ∧ s.sem = 0 ∧
      s.head ≠ none := by
  have hrun : ((billing ℕ ℕ 0).run .start
      [.call [] 0 ⟨[], none, none⟩, .produce, .produce]).any (fun s =>
        decide (s.consumer = .waiting ∧ s.sem = 0 ∧ s.head ≠ none)) = true := by
    decide
  obtain ⟨s, hs, hblocked⟩ := Option.any_eq_true _ _ |>.mp hrun
  exact ⟨s, Machine.Reach.run (.init rfl) _ hs, of_decide_eq_true hblocked⟩

end Msicp.Racc
