import Msicp.Usrloc.Store

/-!
# The order of the contacts

Without `desc_time_order` a new contact is put behind those with at least its
q, and `lookup` takes the first valid contact for the best one.  An update
changes q where the contact stands; the list stays in order as long as the new
q lies between those of the neighbours.
-/

namespace Msicp.Usrloc

open Function (update update_self update_of_ne)
open Support (Bytes)
open URecord List

/-- No contact has a smaller q than one behind it. -/
def SortedQ (l : List CPtr) (mem : CPtr → UContact) : Prop :=
  (l.map fun p => (mem p).q).Pairwise (· ≥ ·)

/-- The configurations with `desc_time_order` off in both modules. -/
def orderedByQ (mode : DbMode) (col : Columns) : Config where
  mode := mode
  descTimeOrder := false
  registrarOrder := false
  col := col

/-- The new q lies between those of the neighbours of the contact. -/
def QBetween (s : Store) (p : CPtr) (q : ℤ) : Prop :=
  (∀ y, s.record.prev p = some y → q ≤ (s.record.mem y).q) ∧
    ∀ y, s.record.next p = some y → (s.record.mem y).q ≤ q

/-- The condition on a call: an update leaves the contact in its place among
the others. -/
def KeepsPlace : Call → Store → Prop
  | .update p b _ _ _ _ _, s => QBetween s p b.q
  | .updateBycallid p b _ _ _ _ _ _, s => QBetween s p b.q
  | _, _ => True

/-- A number fits into a decreasing sequence when it lies between its
neighbours. -/
theorem pairwise_ge_middle {A B : List ℤ} {x : ℤ} : (A ++ x :: B).Pairwise (· ≥ ·) ↔
      (A ++ B).Pairwise (· ≥ ·) ∧ (∀ y, A.getLast? = some y → x ≤ y) ∧
        ∀ y, B.head? = some y → y ≤ x := by
  constructor
  · intro h
    obtain ⟨hA, hB, hAB⟩ := pairwise_append.mp h
    refine ⟨h.sublist ?_, ?_, ?_⟩
    · exact (List.Sublist.refl A).append (sublist_cons_self x B)
    · intro y hy
      exact hAB y (mem_of_getLast? hy) x mem_cons_self
    · intro y hy
      exact (pairwise_cons.mp hB).1 y (mem_of_head? hy)
  · rintro ⟨h, hlast, hhead⟩
    obtain ⟨hA, hB, hAB⟩ := pairwise_append.mp h
    have hxB : ∀ b ∈ B, b ≤ x := by
      cases B with
      | nil => simp
      | cons y B =>
        intro b hb
        have hy : y ≤ x := hhead y rfl
        rcases mem_cons.mp hb with rfl | hb
        · exact hy
        · exact le_trans ((pairwise_cons.mp hB).1 b hb) hy
    have hAx : ∀ a ∈ A, x ≤ a := by
      rcases A.eq_nil_or_concat with rfl | ⟨A', y, rfl⟩
      · simp
      · rw [concat_eq_append] at hA hlast ⊢
        intro a ha
        have hy : x ≤ y := hlast y getLast?_concat
        rcases mem_append.mp ha with ha | ha
        · exact le_trans hy ((pairwise_append.mp hA).2.2 a ha y mem_cons_self)
        · rw [mem_singleton.mp ha]
          exact hy
    refine pairwise_append.mpr ⟨hA, pairwise_cons.mpr ⟨hxB, hB⟩, ?_⟩
    intro a ha b hb
    rcases mem_cons.mp hb with rfl | hb
    · exact hAx a ha
    · exact hAB a ha b hb

variable {s s' : Store} {l l₁ l₂ : List CPtr} {p : CPtr} {col : Columns}
  {mem : CPtr → UContact} {c : UContact} {mode : DbMode}

theorem sortedQ_middle : SortedQ (l₁ ++ p :: l₂) mem ↔ SortedQ (l₁ ++ l₂) mem ∧
        (∀ y, l₁.getLast? = some y → (mem p).q ≤ (mem y).q) ∧
        ∀ y, l₂.head? = some y → (mem y).q ≤ (mem p).q := by
  rw [SortedQ, SortedQ, map_append, map_append, map_cons,
    pairwise_ge_middle, getLast?_map, head?_map]
  simp only [Option.map_eq_some_iff, forall_exists_index, and_imp, forall_apply_eq_imp_iff₂]

theorem SortedQ.congr {mem' : CPtr → UContact} (h : SortedQ l mem)
    (hq : ∀ y ∈ l, (mem' y).q = (mem y).q) : SortedQ l mem' := by
  have heq : (l.map fun y => (mem' y).q) = l.map fun y => (mem y).q :=
    map_congr_left hq
  rw [SortedQ, heq]
  exact h

theorem SortedQ.update_same (h : SortedQ l mem) (hc : c.q = (mem p).q) :
    SortedQ l (update mem p c) := by
  apply h.congr
  intro y _
  by_cases hyp : y = p
  · rw [hyp, update_self, hc]
  · rw [update_of_ne hyp]

/-- A contact with a q of its own between two parts of the list. -/
theorem SortedQ.put (h : SortedQ (l₁ ++ l₂) mem) (hp : p ∉ l₁ ++ l₂)
    (hlast : ∀ y, l₁.getLast? = some y → c.q ≤ (mem y).q)
    (hhead : ∀ y, l₂.head? = some y → (mem y).q ≤ c.q) :
    SortedQ (l₁ ++ p :: l₂) (update mem p c) := by
  have hmem : ∀ y ∈ l₁ ++ l₂, update mem p c y = mem y := by
    intro y hy
    have hyp : y ≠ p := fun heq => hp (heq ▸ hy)
    exact update_of_ne hyp ..
  refine sortedQ_middle.mpr ⟨?_, ?_, ?_⟩
  · exact h.congr fun y hy => by rw [hmem y hy]
  · intro y hy
    rw [update_self, hmem y (mem_append_left _ (mem_of_getLast? hy))]
    exact hlast y hy
  · intro y hy
    rw [update_self, hmem y (mem_append_right _ (mem_of_head? hy))]
    exact hhead y hy

theorem SortedQ.remove (h : SortedQ (l₁ ++ p :: l₂) mem) : SortedQ (l₁ ++ l₂) mem :=
  (sortedQ_middle.mp h).1

/-! ## What the operations do to q -/

theorem stUpdateUcontact_q (mode : DbMode) (c : UContact) : (stUpdateUcontact mode c).q = c.q := by
  unfold stUpdateUcontact
  split
  · rfl
  · split <;> rfl
  · rfl

theorem stDeleteUcontact_q (mode : DbMode) (c : UContact) :
    (stDeleteUcontact mode c).1.q = c.q := by
  unfold stDeleteUcontact
  split
  · rfl
  · split <;> rfl
  · split <;> rfl

theorem timerFlush_q (cfg : Config) (ok : CPtr → Bool) (p : CPtr) (c : UContact) (rows : List Row) :
    (timerFlush cfg ok p c rows).1.q = c.q := by
  obtain ⟨mode, descTimeOrder, registrarOrder, col⟩ := cfg
  cases mode with
  | noDb => rfl
  | writeThrough => rfl
  | writeBack =>
    show (wbFlush col ok p c rows).1.q = c.q
    unfold wbFlush stFlushUcontact
    cases c.state with
    | new => rfl
    | sync => rfl
    | dirty => rfl

variable (alloc : StrField → Bool)

theorem memUpdateRest_q (c : UContact) (b : Binding) (set res : BitVec 32) :
    (memUpdateRest alloc c b set res).1.q = c.q ∨ (memUpdateRest alloc c b set res).1.q = b.q := by
  unfold memUpdateRest
  split
  · exact .inl rfl
  · split
    · exact .inl rfl
    · exact .inr rfl

theorem memUpdateUcontact_q (c : UContact) (b : Binding) (cid : Bytes) (set res : BitVec 32) :
    (memUpdateUcontact alloc c b cid set res).1.q = c.q ∨
      (memUpdateUcontact alloc c b cid set res).1.q = b.q := by
  unfold memUpdateUcontact
  split
  · exact .inl rfl
  · exact memUpdateRest_q alloc _ b set res

theorem memUpdateUcontactBycallid_q (c : UContact)
    (b : Binding) (contact : Bytes) (set res : BitVec 32) :
    (memUpdateUcontactBycallid alloc c b contact set res).1.q = c.q ∨
      (memUpdateUcontactBycallid alloc c b contact set res).1.q = b.q := by
  unfold memUpdateUcontactBycallid
  split
  · exact .inl rfl
  · exact memUpdateRest_q alloc _ b set res

/-! ## The calls -/

/-- What every run keeps. -/
def OrderKept (s : Store) : Prop :=
  ∃ l, s.record.Wf l ∧ SortedQ l s.record.mem

theorem OrderKept.update (h : OrderKept s) (hp : p ∈ s.record.shm)
    {cfg : Config} {upd : UContact × Bool} {q : ℤ} (hq : QBetween s p q)
    (hupd : upd.1.q = (s.record.mem p).q ∨ upd.1.q = q)
    (ok write byCallid : Bool) :
    OrderKept (finishUpdate cfg ok write byCallid s p upd) := by
  obtain ⟨l, hwf, hsorted⟩ := h
  obtain ⟨c, hrecord, hc⟩ : ∃ c, (finishUpdate cfg ok write byCallid s p upd).record =
        s.record.setContact p c ∧ c.q = upd.1.q := by
    unfold finishUpdate
    split
    · exact ⟨_, rfl, stUpdateUcontact_q ..⟩
    · exact ⟨_, rfl, rfl⟩
  refine ⟨l, ?_, ?_⟩
  · rw [hrecord]
    exact setContact_wf hwf
  · rw [hrecord, setContact_mem]
    rcases hupd with hsame | hnew
    · exact hsorted.update_same (hc.trans hsame)
    · obtain ⟨l₁, l₂, rfl⟩ := append_of_mem (hwf.mem_iff.mpr hp)
      obtain ⟨hprev, hnext⟩ := hq
      rw [hwf.prev_cut] at hprev
      rw [hwf.next_cut] at hnext
      rw [← hnew, ← hc] at hprev hnext
      have hp' : p ∉ l₁ ++ l₂ :=
        (nodup_cons.mp (nodup_middle.mp hwf.nodup)).1
      exact hsorted.remove.put hp' hprev hnext

theorem OrderKept.insert (h : OrderKept s) (hp : p ∉ s.record.shm) (ok : Bool) (c : UContact) :
    OrderKept (insertUcontact (orderedByQ mode col) ok s p c) := by
  obtain ⟨l, hwf, hsorted⟩ := h
  have hpl : p ∉ l := fun hin => hp (hwf.mem_iff.mp hin)
  obtain ⟨l₁, l₂, rfl, hwf', hplace⟩ := memInsertUcontact_wf hwf hpl false c
  obtain ⟨hge, hlt⟩ := hplace rfl
  obtain ⟨c', hwf'', hmem, hc⟩ : ∃ c', (insertUcontact (orderedByQ mode col) ok s p c).record.Wf
        (l₁ ++ p :: l₂) ∧
      (insertUcontact (orderedByQ mode col) ok s p c).record.mem =
        Function.update s.record.mem p c' ∧ c'.q = c.q := by
    unfold insertUcontact
    split
    · refine ⟨{ c with state := .sync }, setContact_wf hwf', ?_, rfl⟩
      rw [setContact_mem, memInsertUcontact_mem, Function.update_idem]
    · exact ⟨c, hwf', memInsertUcontact_mem .., rfl⟩
  refine ⟨l₁ ++ p :: l₂, hwf'', ?_⟩
  rw [hmem]
  apply hsorted.put hpl
  · intro y hy
    rw [hc]
    exact hge y (mem_of_getLast? hy)
  · intro y hy
    rw [hc]
    exact (hlt y hy).le

theorem OrderKept.delete (h : OrderKept s) (hp : p ∈ s.record.shm)
    (cfg : Config) (ok : Bool) : OrderKept (deleteUcontact cfg ok s p) := by
  obtain ⟨l, hwf, hsorted⟩ := h
  have hset : SortedQ l (s.record.setContact p
      (stDeleteUcontact cfg.mode (s.record.mem p)).1).mem :=
    hsorted.update_same (stDeleteUcontact_q ..)
  simp only [deleteUcontact]
  split
  · obtain ⟨l₁, l₂, rfl⟩ := append_of_mem (hwf.mem_iff.mpr hp)
    refine ⟨l₁ ++ l₂, memDeleteUcontact_wf (setContact_wf hwf), ?_⟩
    rw [memDeleteUcontact_mem]
    exact hset.remove
  · exact ⟨l, setContact_wf hwf, hset⟩

theorem OrderKept.timer (h : OrderKept s) (cfg : Config) (actTime : ℕ)
    (ok : CPtr → Bool) : OrderKept (timerUrecord cfg actTime ok s) := by
  obtain ⟨l, hwf, hsorted⟩ := h
  obtain ⟨l', hwf', hsorted'⟩ := timerUrecord_rule cfg
    (fun kept todo mem _ => SortedQ (kept ++ todo) mem)
    (fun kept p todo mem rows _ hinv _ => hinv.remove)
    (fun kept p todo mem rows _ hinv _ => by
      rw [append_assoc]
      exact hinv.update_same (timerFlush_q cfg ok p (mem p) rows))
    hwf hsorted
  rw [append_nil] at hsorted'
  exact ⟨l', hwf', hsorted'⟩

theorem OrderKept.step (h : OrderKept s) {call : Call} (hok : KeepsPlace call s)
    (hs : call.run (orderedByQ mode col) s = some s') : OrderKept s' := by
  cases call with
  | insert con contact b callid flags ok =>
    simp only [Call.run] at hs
    obtain ⟨hcon, ⟨⟩⟩ := Option.ite_none_left_eq_some.mp hs
    exact h.insert hcon ok _
  | update p b cid set res alloc ok =>
    simp only [Call.run] at hs
    obtain ⟨hp, ⟨⟩⟩ := Option.ite_none_right_eq_some.mp hs
    exact h.update hp hok (memUpdateUcontact_q ..) _ _ _
  | updateBycallid p b contact set res flag alloc ok =>
    simp only [Call.run] at hs
    obtain ⟨hp, ⟨⟩⟩ := Option.ite_none_right_eq_some.mp hs
    exact h.update hp hok (memUpdateUcontactBycallid_q ..) _ _ _
  | delete p ok =>
    simp only [Call.run] at hs
    obtain ⟨hp, ⟨⟩⟩ := Option.ite_none_right_eq_some.mp hs
    exact h.delete hp _ ok
  | moveOnTop p =>
    simp only [Call.run] at hs
    obtain ⟨hp, hs⟩ := Option.ite_none_right_eq_some.mp hs
    cases hp.1
  | timer actTime ok =>
    cases hs
    exact h.timer _ actTime ok

theorem lookup_maximal (h : SortedQ s.record.chain s.record.mem)
    {actTime : ℕ} (hp : s.record.lookup actTime = some p) :
    (s.record.mem p).valid actTime = true ∧
      ∀ y ∈ s.record.chain, (s.record.mem y).valid actTime = true →
        (s.record.mem y).q ≤ (s.record.mem p).q := by
  rw [lookup_eq] at hp
  obtain ⟨hvalid, l₁, l₂, hchain, hfront⟩ := find?_eq_some_iff_append.mp hp
  refine ⟨hvalid, ?_⟩
  intro y hy hyvalid
  rw [hchain] at h hy
  rw [SortedQ, map_append, map_cons] at h
  obtain ⟨-, hback, -⟩ := pairwise_append.mp h
  rcases mem_append.mp hy with hy | hy
  · have hinvalid := hfront y hy
    rw [hyvalid] at hinvalid
    cases hinvalid
  · rcases mem_cons.mp hy with rfl | hy
    · exact le_rfl
    · exact (pairwise_cons.mp hback).1 _ (List.mem_map_of_mem hy)

/-- In a run whose updates leave contacts in their places, the contacts of a
record are linked both ways in decreasing order of q, and the first valid one
has the greatest q. -/
theorem contacts_ordered_by_q (h : (machine (orderedByQ mode col)).ReachWhen KeepsPlace s) :
    s.record.Wf s.record.chain ∧ SortedQ s.record.chain s.record.mem ∧
      ∀ actTime p, s.record.lookup actTime = some p → (s.record.mem p).valid actTime = true ∧
          ∀ y ∈ s.record.chain, (s.record.mem y).valid actTime = true →
            (s.record.mem y).q ≤ (s.record.mem p).q := by
  have hkept : OrderKept s := by
    apply h.invariant
    · rintro s rfl
      exact ⟨[], Store.empty_wf, List.Pairwise.nil⟩
    · intro call s s' hkept hok hs
      exact hkept.step hok hs
  obtain ⟨l, hwf, hsorted⟩ := hkept
  obtain rfl := hwf.chain_eq
  exact ⟨hwf, hsorted, fun actTime p hp => lookup_maximal hsorted hp⟩

/-- Three contacts, the second of which gets another q in its place. -/
def requeueCalls : List Call :=
  [.insert 1 [97] ⟨900, 700, 1, [], none⟩ [49] 0 true,
    .insert 2 [98] ⟨900, 300, 1, [], none⟩ [50] 0 true,
    .insert 3 [99] ⟨900, 100, 1, [], none⟩ [51] 0 true,
    .update 2 ⟨950, 500, 2, [], none⟩ [50] 0 0 (fun _ => true) true,
    .delete 3 true]

theorem contacts_ordered_by_q_requeue :
    ∃ s, (machine (orderedByQ .writeThrough twoDecimals)).run Store.empty requeueCalls = some s ∧
      s.record.Wf s.record.chain ∧ SortedQ s.record.chain s.record.mem ∧
        ∀ actTime p, s.record.lookup actTime = some p → (s.record.mem p).valid actTime = true ∧
            ∀ y ∈ s.record.chain, (s.record.mem y).valid actTime = true →
              (s.record.mem y).q ≤ (s.record.mem p).q := by
  refine ⟨_, rfl, contacts_ordered_by_q (.run (.init rfl) ?_
    (rfl : (machine (orderedByQ .writeThrough twoDecimals)).run Store.empty requeueCalls = some _))⟩
  refine ⟨trivial, ?_⟩
  rintro _ ⟨⟩
  refine ⟨trivial, ?_⟩
  rintro _ ⟨⟩
  refine ⟨trivial, ?_⟩
  rintro _ ⟨⟩
  refine ⟨⟨?_, ?_⟩, ?_⟩
  · intro y hy
    have hprev : some 1 = some y := hy
    cases hprev
    decide
  · intro y hy
    have hnext : some 3 = some y := hy
    cases hnext
    decide
  rintro _ ⟨⟩
  refine ⟨trivial, ?_⟩
  rintro _ ⟨⟩
  trivial

/-- The second contact gets the greatest q and stays second; the lookup takes
the first one. -/
theorem updated_contact_not_moved :
    ∃ s, (machine (orderedByQ .writeThrough twoDecimals)).run Store.empty
        [.insert 1 [97] ⟨900, 700, 1, [], none⟩ [49] 0 true,
          .insert 2 [98] ⟨900, 300, 1, [], none⟩ [50] 0 true,
          .update 2 ⟨950, 900, 2, [], none⟩ [50] 0 0 (fun _ => true) true] =
          some s ∧
      s.record.chain.map (fun p => (s.record.mem p).q) = [700, 900] ∧
      s.record.lookup 100 = some 1 ∧ (s.record.mem 2).valid 100 = true := by
  refine ⟨_, rfl, ?_, ?_, ?_⟩ <;> decide

end Msicp.Usrloc
