import Msicp.Tm.ReplyRun

/-!
# Cancelling the branches of a transaction (`t_cancel.c`)

A branch chosen by `should_cancel_branch` is labelled busy, and its number
wanders from the bitmap of the process that chose it to the call of
`cancel_branch` and on to the CANCEL that is built.  Counting the places where
a number occurs bounds the CANCELs of a branch, and following it tells what a
busy branch waits for.
-/

namespace Msicp.Tm

open Msicp.Support List Tm.Trans Engine

/-! ## At most one CANCEL -/

/-- A branch was below 200 when it was chosen, and provisional unless the
module cancels unanswered branches as well. -/
def Uac.MarkedOpen (prm : Params) (u : Uac) : Prop :=
  ∃ r, u.markedAt = some r ∧ r < 200 ∧ (prm.cancelRetransmission = true ∨ 100 ≤ r)

/-- The places of a branch number in the bitmaps of a process, in the
scheduled calls and, counted by `o`, elsewhere. -/
def places (o : ℕ → ℕ) (x : Trans × Multiset ℕ) (b : ℕ) : ℕ :=
  x.1.cancels.count b + x.2.count b + o b

/-- A branch number has one place at most, and none while its buffer is
null. -/
structure Once (prm : Params) (o : ℕ → ℕ) (x : Trans × Multiset ℕ) :
    Prop where
  le_one : ∀ b, places o x b ≤ 1
  taken : ∀ b, 0 < places o x b → (x.1.branch b).localCancel ≠ .null
  marked : ∀ b, (x.1.branch b).localCancel ≠ .null →
    (x.1.branch b).MarkedOpen prm

variable {prm : Params} {o : ℕ → ℕ} {x y : Trans × Multiset ℕ} {b : ℕ} {c : Scope} {s s' : Engine}

theorem cancellable_null {u : Uac} (h : cancellable prm u = true) : u.localCancel = .null := by
  simp only [cancellable, Bool.and_eq_true, decide_eq_true_eq] at h
  exact h.2

theorem Uac.markedOpen_mark {u : Uac} (h : cancellable prm u = true) : u.mark.MarkedOpen prm := by
  refine ⟨u.lastReceived, rfl, ?_⟩
  simp only [cancellable, Bool.and_eq_true] at h
  cases hflag : prm.cancelRetransmission with
  | true =>
    simp only [hflag, if_true, decide_eq_true_eq] at h
    exact ⟨h.1, .inl rfl⟩
  | false =>
    simp only [hflag, Bool.false_eq_true, if_false, Bool.and_eq_true, decide_eq_true_eq] at h
    exact ⟨h.1.2, .inr h.1.1⟩

theorem Once.places_eq_zero (h : Once prm o x)
    (hnull : (x.1.branch b).localCancel = .null) : places o x b = 0 := by
  by_contra hne
  exact h.taken b (Nat.pos_of_ne_zero hne) hnull

theorem Once.of_le {o' : ℕ → ℕ} (h : Once prm o x) (hle : ∀ b, places o' y b ≤ places o x b)
    (hbuf : ∀ b, (y.1.branch b).localCancel = (x.1.branch b).localCancel ∧
      (y.1.branch b).markedAt = (x.1.branch b).markedAt) :
    Once prm o' y where
  le_one b := (hle b).trans (h.le_one b)
  taken b hb := by
    rw [(hbuf b).1]
    exact h.taken b (hb.trans_le (hle b))
  marked b hb := by
    rw [(hbuf b).1] at hb
    obtain ⟨r, hr, hopen⟩ := h.marked b hb
    exact ⟨r, (hbuf b).2.trans hr, hopen⟩

/-- Marking a branch gives its number the one place it may have. -/
theorem Once.mark {prm : Params} {o o' : ℕ → ℕ} {t : Trans}
    {w w' : Multiset ℕ} (h : Once prm o (t, w)) {b : ℕ}
    (hb : b < t.nrOfOutgoings) (hcan : cancellable prm (t.branch b) = true)
    (hplace : ∀ a, places o' (t.setBranch b Uac.mark, w') a =
      places o (t, w) a + if a = b then 1 else 0) :
    Once prm o' (t.setBranch b Uac.mark, w') := by
  have hzero := h.places_eq_zero (b := b) (cancellable_null hcan)
  refine ⟨?_, ?_, ?_⟩
  · intro a
    rw [hplace]
    by_cases hab : a = b
    · rw [if_pos hab, hab, hzero]
    · rw [if_neg hab]
      exact h.le_one a
  · intro a ha
    rw [hplace] at ha
    rw [branch_setBranch]
    by_cases hab : a = b
    · rw [if_pos ⟨hab, hb⟩]
      simp [Uac.mark]
    · rw [if_neg fun hc => hab hc.1]
      rw [if_neg hab] at ha
      exact h.taken a ha
  · intro a ha
    rw [branch_setBranch] at ha ⊢
    by_cases hab : a = b
    · rw [if_pos ⟨hab, hb⟩]
      exact Uac.markedOpen_mark hcan
    · rw [if_neg fun hc => hab hc.1] at ha ⊢
      exact h.marked a ha

theorem branch_setBranch_localCancel (t : Trans) (b : ℕ) {f : Uac → Uac}
    (hf : ∀ u, (f u).localCancel = u.localCancel ∧ (f u).markedAt = u.markedAt) (a : ℕ) :
    ((t.setBranch b f).branch a).localCancel = (t.branch a).localCancel ∧
      ((t.setBranch b f).branch a).markedAt = (t.branch a).markedAt := by
  rw [branch_setBranch]
  by_cases hab : a = b ∧ b < t.nrOfOutgoings
  · rw [if_pos hab, hab.1]
    exact hf _
  · rw [if_neg hab]
    exact ⟨rfl, rfl⟩

theorem branch_addUac_localCancel (t : Trans) (request : Bool) (a : ℕ) :
    ((addUac request t).branch a).localCancel = (t.branch a).localCancel ∧
      ((addUac request t).branch a).markedAt = (t.branch a).markedAt := by
  rw [branch_addUac]
  by_cases ha : a = t.nrOfOutgoings
  · rw [if_pos ha, t.branch_of_le (Nat.le_of_eq ha.symm)]
    exact ⟨rfl, rfl⟩
  · rw [if_neg ha]
    exact ⟨rfl, rfl⟩

theorem Move.once (hclean : ¬ c.dirty) (h : Move c x y) (hx : Once c.prm o x) : Once c.prm o y := by
  cases h with
  | @mark t w b hb hcan =>
    refine hx.mark hb hcan ?_
    intro a
    simp only [places, setBranch, Multiset.count_cons]
    omega
  | received b =>
    exact hx.of_le (fun _ => Nat.le_refl _) (branch_setBranch_localCancel _ b fun _ => ⟨rfl, rfl⟩)
  | stored b r =>
    exact hx.of_le (fun _ => Nat.le_refl _) (branch_setBranch_localCancel _ b fun _ => ⟨rfl, rfl⟩)
  | handler v => exact hx.of_le (fun _ => Nat.le_refl _) fun _ => ⟨rfl, rfl⟩
  | add request =>
    exact hx.of_le (fun _ => Nat.le_refl _) (branch_addUac_localCancel _ request)
  | locked op => exact hx.of_le (fun _ => Nat.le_refl _) fun _ => ⟨rfl, rfl⟩
  | respond code relaied sent hsent h =>
    exact hx.of_le (fun _ => Nat.le_refl _) fun _ => ⟨rfl, rfl⟩
  | schedule bs =>
    refine hx.of_le ?_ fun _ => ⟨rfl, rfl⟩
    intro a
    simp only [places, count_append, Multiset.count_add, Multiset.coe_count]
    omega
  | trim w' hle hmem =>
    refine hx.of_le ?_ fun _ => ⟨rfl, rfl⟩
    intro a
    have := Multiset.count_le_of_le a hle
    simp only [places]
    omega
  | lose h w' hle =>
    refine hx.of_le ?_ fun _ => ⟨rfl, rfl⟩
    intro a
    have := Multiset.count_le_of_le a hle
    simp only [places]
    omega
  | spoil h bs => exact absurd h hclean

theorem Moves.once (hclean : ¬ c.dirty) (h : Moves c x y) (hx : Once c.prm o x) :
    Once c.prm o y := by
  induction h with
  | refl => exact hx
  | tail _ hstep ih => exact hstep.once hclean ih

/-- The places of a branch number outside of the transaction. -/
def Engine.owed (s : Engine) (b : ℕ) : ℕ :=
  s.e2e.count b + s.retr.count b + s.building.count b + s.built.count b + s.e2eBuilt.count b

/-- `Once` for the whole engine, between two steps. -/
def Engine.Once (prm : Params) (s : Engine) : Prop :=
  Msicp.Tm.Once prm s.owed (s.t, 0)

theorem count_erase_add {l : List ℕ} (hb : b ∈ l) (a : ℕ) :
    (l.erase b).count a + (if a = b then 1 else 0) = l.count a := by
  by_cases hab : a = b
  · subst hab
    have := count_pos_iff.mpr hb
    rw [count_erase_self, if_pos rfl]
    omega
  · rw [count_erase_of_ne hab, if_neg hab]
    rfl

theorem count_cons_add (l : List ℕ) (b a : ℕ) :
    (b :: l).count a = l.count a + if a = b then 1 else 0 := by
  rw [count_cons]
  by_cases hab : a = b
  · simp [hab]
  · have hba : ¬ b = a := fun h => hab h.symm
    simp [hab, hba]

theorem Effect.once (hclean : ¬ c.dirty)
    (h : Effect c s s') (hs : s.Once c.prm) : s'.Once c.prm := by
  cases h with
  | moves hm => exact Moves.once hclean hm hs
  | @retrRelay t b hb hm =>
    refine Moves.once hclean hm (hs.of_le ?_ fun _ => ⟨rfl, rfl⟩)
    intro a
    have := count_erase_add hb a
    simp only [places, owed, Multiset.count_singleton, Multiset.count_zero]
    omega
  | test who b hb h => exact hs
  | mark who b hb h =>
    have hcan := h.resolve_right hclean
    cases who with
    | e2eCancel =>
      refine hs.mark hb hcan ?_
      intro a
      have := count_cons_add s.e2e b a
      simp only [places, owed, Engine.marked, setBranch]
      omega
    | retransmission =>
      refine hs.mark hb hcan ?_
      intro a
      have := count_cons_add s.retr b a
      simp only [places, owed, Engine.marked, setBranch]
      omega
  | e2eCancelBranch b printed hb h =>
    refine hs.of_le ?_ fun _ => ⟨rfl, rfl⟩
    intro a
    have h1 := count_erase_add hb a
    have h2 := count_cons_add s.e2eBuilt b a
    cases printed with
    | false =>
      simp only [places, owed, Bool.false_eq_true, if_false]
      omega
    | true =>
      simp only [places, owed, if_true]
      omega
  | cancelTest b hb h =>
    refine hs.of_le ?_ fun _ => ⟨rfl, rfl⟩
    intro a
    have h1 := count_erase_add hb a
    have h2 := count_cons_add s.building b a
    by_cases hlast : 100 ≤ (s.t.branch b).lastReceived
    · simp only [places, owed, if_pos hlast]
      omega
    · simp only [places, owed, if_neg hlast]
      omega
  | cancelBuild b built hb h =>
    have hplace : ∀ a, s.building.count a + s.built.count a =
        (s.building.erase b).count a + (b :: s.built).count a := by
      intro a
      have h1 := count_erase_add hb a
      have h2 := count_cons_add s.built b a
      omega
    cases built with
    | false =>
      refine hs.of_le ?_ fun _ => ⟨rfl, rfl⟩
      intro a
      have h1 := count_erase_add hb a
      simp only [places, owed, Bool.false_eq_true, if_false]
      omega
    | true =>
      have htaken : (s.t.branch b).localCancel ≠ .null := by
        apply hs.taken b
        have := count_pos_iff.mpr hb
        simp only [places, owed]
        omega
      refine ⟨?_, ?_, ?_⟩
      · intro a
        have h1 := hplace a
        have h2 := hs.le_one a
        simp only [places, owed, if_true, setBranch] at h2 ⊢
        omega
      · intro a ha
        simp only [if_true]
        rw [branch_setBranch]
        split
        · simp [Uac.install]
        · apply hs.taken a
          have h1 := hplace a
          simp only [places, owed, if_true, setBranch] at ha ⊢
          omega
      · intro a ha
        simp only [if_true] at ha ⊢
        rw [branch_setBranch] at ha ⊢
        split at ha
        · rename_i hab
          rw [if_pos hab]
          exact hs.marked b htaken
        · rename_i hab
          rw [if_neg hab]
          exact hs.marked a ha

/-- No FIFO cancel, no branch marked without the lock that has been taken in
the meantime, no use of an uninitialised bitmap, and no failure to relay a
faked reply whose branch is marked. -/
def keepsBitmaps (prm : Params) (ev : Event) (s : Engine) : Prop :=
  ev.Within (scopeOf prm True False ev s) s

theorem engine_once (h : (engine prm).ReachWhen (keepsBitmaps prm) s) : s.Once prm := by
  apply engine_invariant h fun s => s.Once prm
  · intro s hs
    have hnull : ∀ b, (s.t.branch b).localCancel = .null := by
      intro b
      rw [s.t.branch_of_le (by simp [nrOfOutgoings, hs.uac])]
    have hzero : ∀ b, places s.owed (s.t, 0) b = 0 := by
      intro b
      simp [places, owed, hs.cancels, hs.e2e, hs.retr, hs.building, hs.built, hs.e2eBuilt]
    refine ⟨?_, ?_, ?_⟩
    · intro b
      rw [hzero]
      exact Nat.zero_le 1
    · intro b hb
      rw [hzero] at hb
      exact absurd hb (Nat.lt_irrefl 0)
    · intro b hb
      exact absurd (hnull b) hb
  · intro ev s s' htest hs hev hstep
    exact (step_effect True False (.inr trivial) htest hev hstep).once (fun hf => hf) hs

/-- `cancel_branch` gets past its test with a response on record only. -/
theorem Effect.building_test (h : Effect c s s') (hb : s'.building = b :: s.building) :
    100 ≤ (s.t.branch b).lastReceived := by
  have hself : ¬ s.building = b :: s.building := fun h =>
    absurd (congrArg List.length h) (by simp)
  cases h with
  | moves hm => exact absurd hb hself
  | retrRelay a ha hm => exact absurd hb hself
  | test who a ha h => exact absurd hb hself
  | mark who a ha h => cases who <;> exact absurd hb hself
  | e2eCancelBranch a printed ha h => exact absurd hb hself
  | cancelTest a ha h =>
    by_cases hlast : 100 ≤ (s.t.branch a).lastReceived
    · simp only [if_pos hlast] at hb
      have hab : a = b := (List.cons.inj hb).1
      exact hab ▸ hlast
    · simp only [if_neg hlast] at hb
      exact absurd hb hself
  | cancelBuild a built ha h =>
    have hlen := congrArg List.length hb
    rw [length_erase_of_mem ha, length_cons] at hlen
    omega

/-- When bitmaps are kept, the CANCEL of a branch is built once at most, for a
branch that was open when it was chosen, and `cancel_branch` builds with a
response on record only. -/
theorem cancel_built_once (prm : Params) {s : Engine}
    (h : (engine prm).ReachWhen (keepsBitmaps prm) s) (b : ℕ) :
    (s.built ++ s.e2eBuilt).count b ≤ 1 ∧
      (b ∈ s.built ++ s.e2eBuilt → (s.t.branch b).MarkedOpen prm) ∧
      ∀ ev s', (engine prm).step ev s = some s' → s'.building = b :: s.building →
        100 ≤ (s.t.branch b).lastReceived := by
  have honce := engine_once h
  have hplaces : (s.built ++ s.e2eBuilt).count b ≤ places s.owed (s.t, 0) b := by
    rw [count_append]
    simp only [places, Engine.owed]
    omega
  refine ⟨hplaces.trans (honce.le_one b), ?_, ?_⟩
  · intro hb
    apply honce.marked b
    apply honce.taken b
    exact (count_pos_iff.mpr hb).trans_le hplaces
  · intro ev s' hstep
    exact (Engine.step_effect_any (engine_testsInRange h) hstep).building_test

theorem RelayEnv.within_default (c : Scope) : Within c {} where
  handlers a ha := by cases ha
  error := ⟨fun h => absurd h (by decide), fun h => absurd h (by decide)⟩

/-- The second of two ringing branches answers; the first is cancelled. -/
def answeredCancelRun : List Event :=
  [.addUac true, .addUac true, .reply 0 180 false {}, .reply 1 200 false {},
    .cancelTest 0, .cancelBuild 0 true]

theorem cancel_built_once_answered :
    ∃ s, (engine {}).run (newEngine true false) answeredCancelRun = some s ∧
      s.built = [0] ∧ (s.built ++ s.e2eBuilt).count 0 ≤ 1 ∧
      (s.t.branch 0).MarkedOpen {} := by
  have hstart : (engine {}).ReachWhen (keepsBitmaps {})
      (newEngine true false) := .init (newEngine_fresh true false)
  have hadmits : (engine {}).Admits (keepsBitmaps {}) (newEngine true false)
      answeredCancelRun := by
    exact .cons trivial rfl <| .cons trivial rfl <| .cons (RelayEnv.within_default _) rfl <|
      .cons (RelayEnv.within_default _) rfl <| .cons (.inr trivial) rfl <|
      ⟨.inr trivial, fun _ _ => trivial⟩
  have honce := cancel_built_once {} (hstart.run hadmits rfl) 0
  exact ⟨_, rfl, rfl, honce.1, honce.2.1 (by decide)⟩

/-- A branch rings and times out; its CANCEL is built behind the faked
408. -/
def timeoutCancelRun : List Event :=
  [.addUac true, .reply 0 180 false {}, .finalResponse 0 .request {}, .cancelTest 0]

theorem cancel_built_after_timeout : ∃ s s', (engine {}).Reach s ∧
      (engine {}).step (.cancelBuild 0 true) s = some s' ∧
      s'.built = [0] ∧ s.built = [] ∧
      (s.t.branch 0).lastReceived = 408 := by
  have hstart : (engine {}).Reach (newEngine true false) :=
    .init (newEngine_fresh true false)
  refine ⟨_, _, Machine.Reach.run hstart timeoutCancelRun rfl, rfl, ?_, ?_, ?_⟩
  · decide
  · decide
  · decide

/-! ## What a busy branch waits for -/

/-- The number of a busy branch has a place. -/
def Covered (o : ℕ → ℕ) (x : Trans × Multiset ℕ) : Prop :=
  ∀ b, (x.1.branch b).localCancel = .busy → 0 < places o x b

theorem Covered.of_le {o' : ℕ → ℕ} (h : Covered o x) (hle : ∀ b, places o x b ≤ places o' y b)
    (hbuf : ∀ b, (y.1.branch b).localCancel = (x.1.branch b).localCancel) :
    Covered o' y := by
  intro b hb
  rw [hbuf b] at hb
  exact (h b hb).trans_le (hle b)

theorem Covered.mark {o o' : ℕ → ℕ} {t : Trans} {w w' : Multiset ℕ} (h : Covered o (t, w)) {b : ℕ}
    (hplace : ∀ a, places o' (t.setBranch b Uac.mark, w') a =
      places o (t, w) a + if a = b then 1 else 0) :
    Covered o' (t.setBranch b Uac.mark, w') := by
  intro a ha
  rw [hplace]
  by_cases hab : a = b
  · rw [if_pos hab]
    exact Nat.succ_pos _
  · rw [branch_setBranch, if_neg fun hc => hab hc.1] at ha
    have := h a ha
    omega

theorem Move.covered (hkeep : ¬ c.lossy) (h : Move c x y) (hx : Covered o x) :
    Covered o y := by
  cases h with
  | @mark t w b hb hcan =>
    refine hx.mark ?_
    intro a
    simp only [places, setBranch, Multiset.count_cons]
    omega
  | @received t w b =>
    have hbuf := branch_setBranch_localCancel t b
      (f := fun u => { u with lastReceived := c.code }) fun _ => ⟨rfl, rfl⟩
    exact hx.of_le (fun _ => Nat.le_refl _) fun a => (hbuf a).1
  | @stored t w b r =>
    have hbuf := branch_setBranch_localCancel t b
      (f := fun u => { u with reply := r }) fun _ => ⟨rfl, rfl⟩
    exact hx.of_le (fun _ => Nat.le_refl _) fun a => (hbuf a).1
  | handler v => exact hx.of_le (fun _ => Nat.le_refl _) fun _ => rfl
  | add request =>
    exact hx.of_le (fun _ => Nat.le_refl _) fun a =>
      (branch_addUac_localCancel _ request a).1
  | locked op => exact hx.of_le (fun _ => Nat.le_refl _) fun _ => rfl
  | respond code relaied sent hsent h =>
    exact hx.of_le (fun _ => Nat.le_refl _) fun _ => rfl
  | schedule bs =>
    refine hx.of_le ?_ fun _ => rfl
    intro a
    simp only [places, count_append, Multiset.count_add, Multiset.coe_count]
    omega
  | @trim t w w' hle hmem =>
    intro b hb
    have hpos := hx b hb
    have hlt : b < t.nrOfOutgoings := by
      by_contra hge
      rw [t.branch_of_le (Nat.le_of_not_lt hge)] at hb
      cases hb
    simp only [places] at hpos ⊢
    by_cases hbw : b ∈ w
    · have := Multiset.count_pos.mpr (hmem b hbw hlt)
      omega
    · rw [Multiset.count_eq_zero_of_notMem hbw] at hpos
      omega
  | lose h w' hle => exact absurd h hkeep
  | spoil h bs =>
    refine hx.of_le ?_ fun _ => rfl
    intro a
    simp only [places, Multiset.count_add]
    omega

theorem Moves.covered (hkeep : ¬ c.lossy) (h : Moves c x y) (hx : Covered o x) :
    Covered o y := by
  induction h with
  | refl => exact hx
  | tail _ hstep ih => exact hstep.covered hkeep ih

/-- The places of the branches for which a CANCEL is on its way, or has been
sent by `e2e_cancel`. -/
def Engine.awaited (s : Engine) (b : ℕ) : ℕ :=
  s.e2e.count b + s.retr.count b + s.building.count b + s.e2eBuilt.count b

def Engine.Covered (s : Engine) : Prop :=
  Msicp.Tm.Covered s.awaited (s.t, 0)

theorem Effect.covered (hkeep : ¬ c.lossy) (h : Effect c s s') (hs : s.Covered) : s'.Covered := by
  cases h with
  | moves hm => exact Moves.covered hkeep hm hs
  | @retrRelay t b hb hm =>
    refine Moves.covered hkeep hm (hs.of_le ?_ fun _ => rfl)
    intro a
    have := count_erase_add hb a
    simp only [places, awaited, Multiset.count_singleton, Multiset.count_zero]
    omega
  | test who b hb h => exact hs
  | mark who b hb h =>
    cases who with
    | e2eCancel =>
      refine hs.mark ?_
      intro a
      have := count_cons_add s.e2e b a
      simp only [places, awaited, Engine.marked, setBranch]
      omega
    | retransmission =>
      refine hs.mark ?_
      intro a
      have := count_cons_add s.retr b a
      simp only [places, awaited, Engine.marked, setBranch]
      omega
  | e2eCancelBranch b printed hb h =>
    refine hs.of_le ?_ fun _ => rfl
    intro a
    have h1 := count_erase_add hb a
    have h2 := count_cons_add s.e2eBuilt b a
    simp only [places, awaited, h.resolve_right hkeep, if_true]
    omega
  | cancelTest b hb h =>
    refine hs.of_le ?_ fun _ => rfl
    intro a
    have h1 := count_erase_add hb a
    have h2 := count_cons_add s.building b a
    simp only [places, awaited, if_pos (h.resolve_right hkeep)]
    omega
  | cancelBuild b built hb h =>
    have hbuilt : built = true := h.resolve_right hkeep
    subst hbuilt
    intro a ha
    simp only [if_true] at ha
    rw [branch_setBranch] at ha
    by_cases hab : a = b ∧ b < s.t.nrOfOutgoings
    · rw [if_pos hab] at ha
      simp [Uac.install] at ha
    · rw [if_neg hab] at ha
      have hpos := hs a ha
      have hne : ¬ a = b := by
        intro heq
        have hge : s.t.nrOfOutgoings ≤ a := by
          by_contra hlt
          exact hab ⟨heq, heq ▸ Nat.lt_of_not_le hlt⟩
        rw [s.t.branch_of_le hge] at ha
        cases ha
      have h1 := count_erase_add hb a
      rw [if_neg hne] at h1
      simp only [places, awaited, if_true, setBranch] at hpos ⊢
      omega

/-- `cancel_branch` neither gives up on an unanswered branch nor fails to build
its CANCEL, the CANCEL of `e2e_cancel` is printed, and no provisional local
answer drops the bits it has set. -/
def deliversMarks (prm : Params) (ev : Event) (s : Engine) : Prop :=
  ev.Within (scopeOf prm False True ev s) s

theorem engine_covered (h : (engine prm).ReachWhen (deliversMarks prm) s)
    (hinv : s.t.isInvite = true) : s.Covered := by
  revert hinv
  apply engine_invariant h fun s => s.t.isInvite = true → s.Covered
  · intro s hs _ b hb
    rw [s.t.branch_of_le (by simp [nrOfOutgoings, hs.uac])] at hb
    cases hb
  · intro ev s s' htest hs hev hstep hinv'
    have hinv : s.t.isInvite = true := (engine_isInvite htest hstep) ▸ hinv'
    exact (step_effect False True (.inl hinv) htest hev hstep).covered
      (fun hf => hf) (hs hinv)

/-- A ringing branch is cancelled end to end. -/
def e2eCancelRun : List Event :=
  [.addUac true, .reply 0 180 false {}, .test .e2eCancel 0,
    .mark .e2eCancel 0, .e2eCancelBranch 0 true]

end Msicp.Tm
