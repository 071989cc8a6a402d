import Msicp.Support.Mirror
import Msicp.Usrloc.Store

/-!
# Write-through

With `db_mode` 1 every operation writes through to the database at once, and
the rows of a record are meant to be its contacts.  They are as long as no
statement addresses the row of another contact: `DELETE` and the update by
Call-ID address all rows with the Call-ID of the contact, the update by
contact all rows with its URI.
-/

namespace Msicp.Usrloc

open Function (update update_self update_of_ne update_eq_self)
open Support (Bytes Mirrors)
open URecord
open List hiding set

/-- The configuration of a server that writes through. -/
def writeThrough (descTimeOrder registrarOrder : Bool) (col : Columns) : Config where
  mode := .writeThrough
  descTimeOrder := descTimeOrder
  registrarOrder := registrarOrder
  col := col

/-- Every other contact that agrees with `c` on a key has the fields that `c`
has after the operation. -/
def OthersAgree (s : Store) (p : CPtr) (key : UContact → Bytes) (c : UContact) : Prop :=
  ∀ y ∈ s.record.chain, y ≠ p → key (s.record.mem y) = key c → (s.record.mem y).fields = c.fields

instance (s : Store) (p : CPtr) (key : UContact → Bytes) (c : UContact) :
    Decidable (OthersAgree s p key c) :=
  inferInstanceAs (Decidable (∀ y ∈ s.record.chain, _))

/-- The condition under which the rows follow a call: its statements succeed
and there is memory for it, it does not concern a contact that is kept in
memory only, the columns hold its values as they are, and no statement
addresses the row of another contact that is not to have the same values. -/
def RowsFollow (col : Columns) : Call → Store → Prop
  | .insert _ contact b callid flags ok, _ =>
    ok = true ∧ (newUcontact contact b callid flags).memOnly = false ∧
      col.Exact (newUcontact contact b callid flags)
  | .update p b cid set res alloc ok, s =>
    let c := ({ s.record.mem p with callid := cid } : UContact).refresh b set
      res
    ok = true ∧ (∀ f, alloc f = true) ∧ c.memOnly = false ∧ col.Exact c ∧
      OthersAgree s p UContact.c c
  | .updateBycallid p b contact set res flag alloc ok, s =>
    let c := ({ s.record.mem p with c := contact } : UContact).refresh b set
      res
    ok = true ∧ (∀ f, alloc f = true) ∧
      if flag = 0 then c.fields = (s.record.mem p).fields
      else c.memOnly = false ∧ col.Exact c ∧ OthersAgree s p UContact.callid c
  | .delete p ok, s =>
    ok = true ∧ ∀ y ∈ s.record.chain, y ≠ p → (s.record.mem y).callid ≠ (s.record.mem p).callid
  | .moveOnTop _, _ => True
  | .timer actTime ok, s =>
    (∀ p, ok p = true) ∧ ∀ p ∈ s.record.chain, ∀ y ∈ s.record.chain,
      (s.record.mem p).valid actTime = false →
      (s.record.mem y).valid actTime = true →
      (s.record.mem y).callid ≠ (s.record.mem p).callid

/-- The fields of the contact at an address. -/
def fieldsAt (mem : CPtr → UContact) (p : CPtr) : Row :=
  (mem p).fields

/-- The rows are the contacts of the list, none of which is kept in memory
only. -/
structure RowsAre (rows : List Row) (l : List CPtr) (mem : CPtr → UContact) :
    Prop where
  mirrors : Mirrors rows l (fieldsAt mem)
  stored : ∀ p ∈ l, (mem p).memOnly = false

variable {s s' : Store} {l l₁ l₂ : List CPtr} {p : CPtr} {col : Columns}
  {mem : CPtr → UContact} {rows : List Row} {c : UContact}
  {desc reg : Bool}

theorem memOnly_of_fields {c c' : UContact} (h : c.fields = c'.fields) :
    c.memOnly = c'.memOnly := by
  have hflags : c.flags = c'.flags := congrArg Row.flags h
  rw [UContact.memOnly, UContact.memOnly, hflags]

@[simp] theorem fieldsAt_self (mem : CPtr → UContact) (p : CPtr)
    (c : UContact) : fieldsAt (update mem p c) p = c.fields := by
  rw [fieldsAt, update_self]

theorem fieldsAt_of_ne {y : CPtr} (hy : y ≠ p) (mem : CPtr → UContact)
    (c : UContact) : fieldsAt (update mem p c) y = fieldsAt mem y := by
  rw [fieldsAt, fieldsAt, update_of_ne hy]

theorem RowsAre.insert (h : RowsAre rows (l₁ ++ l₂) mem) (hp : p ∉ l₁ ++ l₂)
    (hc : c.memOnly = false) :
    RowsAre (rows ++ [c.fields]) (l₁ ++ p :: l₂) (update mem p c) := by
  refine ⟨?_, ?_⟩
  · have hins : Mirrors (rows ++ [fieldsAt (update mem p c) p])
        (l₁ ++ p :: l₂) (fieldsAt (update mem p c)) :=
      h.mirrors.insert hp fun y hy => fieldsAt_of_ne hy mem c
    rwa [fieldsAt_self] at hins
  · intro y hy
    by_cases hyp : y = p
    · rw [hyp, update_self]
      exact hc
    · rw [update_of_ne hyp]
      apply h.stored
      have hy' : y ∈ p :: (l₁ ++ l₂) := perm_middle.mem_iff.mp hy
      exact (mem_cons.mp hy').resolve_left hyp

/-- A statement that sets the fields of one contact, and those of the others
to what they are. -/
theorem RowsAre.set (h : RowsAre rows l mem) {query : Row → Row}
    (hc : c.memOnly = false) (hp : query (fieldsAt mem p) = c.fields)
    (hother : ∀ y ∈ l, y ≠ p → query (fieldsAt mem y) = fieldsAt mem y) :
    RowsAre (rows.map query) l (update mem p c) := by
  refine ⟨?_, ?_⟩
  · apply h.mirrors.update
    intro y hy
    by_cases hyp : y = p
    · rw [hyp, fieldsAt_self]
      exact hp
    · rw [fieldsAt_of_ne hyp]
      exact hother y hy hyp
  · intro y hy
    by_cases hyp : y = p
    · rw [hyp, update_self]
      exact hc
    · rw [update_of_ne hyp]
      exact h.stored y hy

theorem RowsAre.overwrite (h : RowsAre rows l mem) {rowKey : Row → Bytes}
    {key : UContact → Bytes} (hkey : ∀ c : UContact, rowKey c.fields = key c)
    (hc : c.memOnly = false) (hexact : col.Exact c)
    (hp : key (mem p) = key c)
    (hother : ∀ y ∈ l, y ≠ p → key (mem y) = key c → (mem y).fields = c.fields) :
    RowsAre (rows.map fun row => if rowKey row = key c then col.write c else row)
      l (update mem p c) := by
  apply h.set hc
  · rw [fieldsAt, hkey, if_pos hp]
    exact hexact
  · intro y hy hyp
    rw [fieldsAt, hkey]
    split
    case isTrue heq => exact hexact.trans (hother y hy hyp heq).symm
    case isFalse => rfl

/-- A contact whose fields stay what they are. -/
theorem RowsAre.same (h : RowsAre rows l mem) (hfields : c.fields = (mem p).fields) :
    RowsAre rows l (update mem p c) := by
  refine ⟨?_, ?_⟩
  · apply h.mirrors.congr
    intro y _
    by_cases hyp : y = p
    · rw [hyp, fieldsAt_self]
      exact hfields
    · exact fieldsAt_of_ne hyp mem c
  · intro y hy
    by_cases hyp : y = p
    · rw [hyp, update_self, memOnly_of_fields hfields]
      exact h.stored p (hyp ▸ hy)
    · rw [update_of_ne hyp]
      exact h.stored y hy

theorem RowsAre.remove (h : RowsAre rows (l₁ ++ p :: l₂) mem)
    (hother : ∀ y ∈ l₁ ++ l₂, (mem y).callid ≠ (mem p).callid) :
    RowsAre (dbDeleteUcontact true (mem p) rows) (l₁ ++ l₂) mem := by
  have hp : p ∈ l₁ ++ p :: l₂ := by simp
  rw [dbDeleteUcontact_true (h.stored p hp)]
  refine ⟨?_, ?_⟩
  · apply h.mirrors.remove
    · simp [fieldsAt, UContact.fields]
    · intro y hy
      exact decide_eq_true (hother y hy)
  · intro y hy
    apply h.stored
    exact perm_middle.mem_iff.mpr (mem_cons_of_mem _ hy)

/-! ## The calls -/

theorem insertUcontact_rowsAre (h : s.record.Wf l)
    (hrows : RowsAre s.rows l s.record.mem) (hp : p ∉ s.record.shm)
    (hc : c.memOnly = false) (hexact : col.Exact c) :
    ∃ l', (insertUcontact (writeThrough desc reg col) true s p c).record.Wf l' ∧
      RowsAre (insertUcontact (writeThrough desc reg col) true s p c).rows l'
        (insertUcontact (writeThrough desc reg col) true s p c).record.mem := by
  have hpl : p ∉ l := fun hmem => hp (h.mem_iff.mp hmem)
  obtain ⟨l₁, l₂, rfl, hwf, -⟩ := memInsertUcontact_wf h hpl desc c
  have hrun : insertUcontact (writeThrough desc reg col) true s p c =
      { record := (s.record.memInsertUcontact desc p c).setContact p
          { c with state := .sync }
        rows := dbInsertUcontact col true c s.rows } := rfl
  have hinsert : dbInsertUcontact col true c s.rows =
      s.rows ++ [({ c with state := .sync } : UContact).fields] := by
    rw [dbInsertUcontact_true col hc]
    exact congrArg (s.rows ++ [·]) hexact
  rw [hrun]
  refine ⟨l₁ ++ p :: l₂, setContact_wf hwf, ?_⟩
  simp only [setContact_mem, memInsertUcontact_mem, Function.update_idem, hinsert]
  exact hrows.insert hpl hc

theorem finishUpdate_writeThrough (write byCallid : Bool) :
    finishUpdate (writeThrough desc reg col) true write byCallid s p (c, true) =
      { record := s.record.setContact p c
        rows := if write then dbUpdateUcontact col true c byCallid s.rows
          else s.rows } := by
  simp only [finishUpdate, if_true, writeThrough,
    stUpdateUcontact_of_ne (show DbMode.writeThrough ≠ .writeBack by decide),
    true_and]

theorem deleteUcontact_rowsAre (h : s.record.Wf l)
    (hrows : RowsAre s.rows l s.record.mem) (hp : p ∈ s.record.shm)
    (hother : ∀ y ∈ l, y ≠ p → (s.record.mem y).callid ≠ (s.record.mem p).callid) :
    ∃ l', (deleteUcontact (writeThrough desc reg col) true s p).record.Wf l' ∧
      RowsAre (deleteUcontact (writeThrough desc reg col) true s p).rows l'
        (deleteUcontact (writeThrough desc reg col) true s p).record.mem := by
  obtain ⟨l₁, l₂, rfl⟩ := append_of_mem (h.mem_iff.mpr hp)
  have hdel : stDeleteUcontact .writeThrough (s.record.mem p) =
      (s.record.mem p, true) := stDeleteUcontact_of_ne (by decide) _
  have hrun : deleteUcontact (writeThrough desc reg col) true s p =
      { record := (s.record.setContact p (s.record.mem p)).memDeleteUcontact p
        rows := dbDeleteUcontact true (s.record.mem p) s.rows } := by
    simp only [deleteUcontact, writeThrough, hdel, if_true]
  rw [hrun]
  refine ⟨l₁ ++ l₂, memDeleteUcontact_wf (setContact_wf h), ?_⟩
  simp only [memDeleteUcontact_mem, setContact_mem, update_eq_self]
  apply hrows.remove
  intro y hy
  apply hother y
  · exact perm_middle.mem_iff.mpr (mem_cons_of_mem _ hy)
  · intro heq
    have hnotin := (nodup_cons.mp (nodup_middle.mp h.nodup)).1
    exact hnotin (heq ▸ hy)

/-- In the middle of a run of the timer: the expired contacts still to come
have no row any more when their Call-ID was the one of a contact deleted
before. -/
def TimerInv (actTime : ℕ) (kept todo : List CPtr) (mem : CPtr → UContact)
    (rows : List Row) : Prop :=
  ∃ gone : List Bytes, RowsAre rows (kept ++ todo.filter fun p => (mem p).callid ∉ gone) mem ∧
      (∀ p ∈ kept ++ todo, (mem p).memOnly = false) ∧
      (∀ p ∈ kept ++ todo, (mem p).valid actTime = true → (mem p).callid ∉ gone) ∧
      (∀ p ∈ kept, (mem p).valid actTime = true) ∧
      ∀ p ∈ kept ++ todo, ∀ y ∈ kept ++ todo,
        (mem p).valid actTime = false → (mem y).valid actTime = true →
        (mem y).callid ≠ (mem p).callid

theorem TimerInv.expire {actTime : ℕ} {kept todo : List CPtr}
    (h : TimerInv actTime kept (p :: todo) mem rows)
    (hp : (mem p).valid actTime = false) :
    TimerInv actTime kept todo mem (dbDeleteUcontact true (mem p) rows) := by
  obtain ⟨gone, hrows, hstored, hgone, hkept, hkeys⟩ := h
  have hmem : p ∈ kept ++ p :: todo := by simp
  have hsub : ∀ y ∈ kept ++ todo, y ∈ kept ++ p :: todo := by
    intro y hy
    exact perm_middle.mem_iff.mpr (mem_cons_of_mem _ hy)
  have hne : ∀ y ∈ kept ++ p :: todo, (mem y).valid actTime = true →
      (mem y).callid ≠ (mem p).callid := fun y hy => hkeys p hmem y hy hp
  refine ⟨(mem p).callid :: gone, ⟨?_, ?_⟩, ?_, ?_, hkept, ?_⟩
  · rw [dbDeleteUcontact_true (hstored p hmem)]
    have hfilter := hrows.mirrors.filter fun row =>
      decide (row.callid ≠ (mem p).callid)
    have hlist : (kept ++ (p :: todo).filter fun y => (mem y).callid ∉ gone).filter
            (fun y => decide ((fieldsAt mem y).callid ≠ (mem p).callid)) =
        kept ++ todo.filter fun y => (mem y).callid ∉ (mem p).callid :: gone := by
      rw [filter_append, List.filter_filter,
        filter_cons_of_neg (by simp [fieldsAt, UContact.fields])]
      congr 1
      · apply filter_eq_self.mpr
        intro y hy
        exact decide_eq_true (hne y (mem_append_left _ hy) (hkept y hy))
      · apply filter_congr
        intro y _
        simp only [mem_cons, not_or, Bool.decide_and]
        rfl
    rw [hlist] at hfilter
    exact hfilter
  · intro y hy
    apply hstored
    rcases mem_append.mp hy with hy | hy
    · exact mem_append_left _ hy
    · exact hsub y (mem_append_right _ (mem_of_mem_filter hy))
  · intro y hy
    exact hstored y (hsub y hy)
  · intro y hy hvalid
    rw [mem_cons, not_or]
    exact ⟨hne y (hsub y hy) hvalid, hgone y (hsub y hy) hvalid⟩
  · intro x hx y hy
    exact hkeys x (hsub x hx) y (hsub y hy)

theorem TimerInv.keep {actTime : ℕ} {kept todo : List CPtr}
    (h : TimerInv actTime kept (p :: todo) mem rows)
    (hp : (mem p).valid actTime = true) :
    TimerInv actTime (kept ++ [p]) todo mem rows := by
  obtain ⟨gone, hrows, hstored, hgone, hkept, hkeys⟩ := h
  have hmem : p ∈ kept ++ p :: todo := by simp
  have hassoc : (kept ++ [p]) ++ todo = kept ++ p :: todo := by simp
  refine ⟨gone, ?_, ?_, ?_, ?_, ?_⟩
  · have hcons : ((p :: todo).filter fun y => (mem y).callid ∉ gone) =
        p :: todo.filter fun y => (mem y).callid ∉ gone :=
      filter_cons_of_pos (decide_eq_true (hgone p hmem hp))
    rw [hcons] at hrows
    rw [append_assoc]
    exact hrows
  · rwa [hassoc]
  · rwa [hassoc]
  · intro y hy
    rcases mem_append.mp hy with hy | hy
    · exact hkept y hy
    · rw [mem_singleton.mp hy]
      exact hp
  · rwa [hassoc]

theorem timerUrecord_rowsAre {actTime : ℕ} {ok : CPtr → Bool}
    (h : s.record.Wf l) (hrows : RowsAre s.rows l s.record.mem)
    (hok : ∀ p, ok p = true)
    (hkeys : ∀ p ∈ l, ∀ y ∈ l, (s.record.mem p).valid actTime = false →
      (s.record.mem y).valid actTime = true →
      (s.record.mem y).callid ≠ (s.record.mem p).callid) :
    ∃ l', (timerUrecord (writeThrough desc reg col) actTime ok s).record.Wf l' ∧
      RowsAre (timerUrecord (writeThrough desc reg col) actTime ok s).rows l'
        (timerUrecord (writeThrough desc reg col) actTime ok s).record.mem := by
  have hstart : TimerInv actTime [] l s.record.mem s.rows := by
    refine ⟨[], ?_, hrows.stored, by simp, by simp, hkeys⟩
    simpa using hrows
  obtain ⟨l', hwf, gone, hend, -⟩ := timerUrecord_rule
    (writeThrough desc reg col) (TimerInv actTime)
    (fun kept p todo mem rows _ hinv hp => by
      have hexp := hinv.expire hp
      rw [← hok p] at hexp
      exact hexp)
    (fun kept p todo mem rows _ hinv hp => by
      have hkeep := hinv.keep hp
      rw [← update_eq_self p mem] at hkeep
      exact hkeep) h hstart
  refine ⟨l', hwf, ?_⟩
  simpa using hend

/-- What every run keeps. -/
def RowsKept (s : Store) : Prop :=
  ∃ l, s.record.Wf l ∧ RowsAre s.rows l s.record.mem

theorem RowsKept.update (h : RowsKept s) {rowKey : Row → Bytes}
    {key : UContact → Bytes} (hkey : ∀ c : UContact, rowKey c.fields = key c)
    (hc : c.memOnly = false) (hexact : col.Exact c)
    (hp : key (s.record.mem p) = key c) (hother : OthersAgree s p key c) :
    RowsKept
      { record := s.record.setContact p c
        rows := s.rows.map fun row =>
          if rowKey row = key c then col.write c else row } := by
  obtain ⟨l, hwf, hrows⟩ := h
  rw [OthersAgree, hwf.chain_eq] at hother
  exact ⟨l, setContact_wf hwf, hrows.overwrite hkey hc hexact hp hother⟩

theorem RowsKept.step (h : RowsKept s) {call : Call} (hok : RowsFollow col call s)
    (hs : call.run (writeThrough desc reg col) s = some s') :
    RowsKept s' := by
  obtain ⟨l, hwf, hrows⟩ := h
  cases call with
  | insert con contact b callid flags ok =>
    obtain ⟨rfl, hc, hexact⟩ := hok
    simp only [Call.run] at hs
    obtain ⟨hcon, ⟨⟩⟩ := Option.ite_none_left_eq_some.mp hs
    exact insertUcontact_rowsAre hwf hrows hcon hc hexact
  | update p b cid set res alloc ok =>
    obtain ⟨rfl, halloc, hc, hexact, hother⟩ := hok
    simp only [Call.run] at hs
    obtain ⟨hp, ⟨⟩⟩ := Option.ite_none_right_eq_some.mp hs
    rw [updateUcontact, memUpdateUcontact_of_alloc halloc,
      finishUpdate_writeThrough, if_pos rfl, dbUpdateUcontact_byContact col hc]
    exact RowsKept.update ⟨l, hwf, hrows⟩ (fun _ => rfl) hc hexact rfl hother
  | updateBycallid p b contact set res flag alloc ok =>
    obtain ⟨rfl, halloc, hcond⟩ := hok
    simp only [Call.run] at hs
    obtain ⟨hp, ⟨⟩⟩ := Option.ite_none_right_eq_some.mp hs
    rw [updateUcontactBycallid, memUpdateUcontactBycallid_of_alloc halloc,
      finishUpdate_writeThrough]
    by_cases hflag : flag = 0
    · rw [if_pos hflag] at hcond
      rw [if_neg (by simpa using hflag)]
      exact ⟨l, setContact_wf hwf, hrows.same hcond⟩
    · rw [if_neg hflag] at hcond
      obtain ⟨hc, hexact, hother⟩ := hcond
      rw [if_pos (by simpa using hflag), dbUpdateUcontact_byCallid col hc]
      exact RowsKept.update ⟨l, hwf, hrows⟩ (fun _ => rfl) hc hexact rfl hother
  | delete p ok =>
    obtain ⟨rfl, hother⟩ := hok
    rw [hwf.chain_eq] at hother
    simp only [Call.run] at hs
    obtain ⟨hp, ⟨⟩⟩ := Option.ite_none_right_eq_some.mp hs
    exact deleteUcontact_rowsAre hwf hrows hp hother
  | moveOnTop p =>
    simp only [Call.run] at hs
    obtain ⟨hp, ⟨⟩⟩ := Option.ite_none_right_eq_some.mp hs
    obtain ⟨l₁, l₂, rfl⟩ := append_of_mem (hwf.mem_iff.mpr hp.2)
    refine ⟨p :: (l₁ ++ l₂), moveOnTop_wf hwf, ?_⟩
    rw [moveOnTop_mem]
    refine ⟨hrows.mirrors.of_perm perm_middle, ?_⟩
    intro y hy
    exact hrows.stored y (perm_middle.mem_iff.mpr hy)
  | timer actTime ok =>
    obtain ⟨hok, hkeys⟩ := hok
    rw [hwf.chain_eq] at hkeys
    cases hs
    exact timerUrecord_rowsAre hwf hrows hok hkeys

/-- Two contacts with Call-IDs of their own, one refreshed under a new Call-ID
and then under a new URI, the other deleted. -/
def registerCalls : List Call :=
  [.insert 1 [97] ⟨600, 500, 1, [], none⟩ [49] 0 true,
    .insert 2 [98] ⟨600, 700, 1, [], none⟩ [50] 0 true,
    .update 1 ⟨900, 500, 2, [], none⟩ [51] 0 0 (fun _ => true) true,
    .updateBycallid 1 ⟨950, 500, 3, [], none⟩ [99] 0 0 1 (fun _ => true) true,
    .delete 2 true,
    .timer 700 fun _ => true]

end Msicp.Usrloc
