import Msicp.Usrloc.UDomain

/-!
# Records in their lists

Every record of a domain is in the slot that its address of record hashes to
and in the list of all records, once in each; the counters are right, and a
record that is freed has neither contacts nor watchers.
-/

namespace Msicp.Usrloc

open List

open Function (update update_self update_of_ne)
open Support (Bytes CountedList)

namespace UDomain

/-- The slot of a record. -/
def slotOf (d : UDomain) (p : RPtr) : ℕ :=
  hashFunc d.size (d.mem p).aor

/-- The records are those of `all`, and `bucket` gives the contents of the
slots. -/
structure Consistent (d : UDomain) (all : List RPtr)
    (bucket : ℕ → List RPtr) : Prop where
  domainList : d.dList.IsList d.dLinks all
  slots : ∀ i, (d.table i).IsList d.sLinks (bucket i)
  hashed : ∀ i p, p ∈ bucket i ↔ p ∈ all ∧ d.slotOf p = i
  slot : ∀ p ∈ all, (d.mem p).slot = some (d.slotOf p)
  live : all.Perm d.live
  users : d.users = all.length
  freed : ∀ r ∈ d.freed, r.contacts.contacts = none ∧ r.watchers = []

/-- No two records have the same address of record. -/
def AorsDistinct (d : UDomain) (all : List RPtr) : Prop :=
  (all.map fun p => (d.mem p).aor).Nodup

variable {d : UDomain} {all l₁ l₂ : List RPtr} {bucket : ℕ → List RPtr}
  {p : RPtr} {aor : Bytes}

section

variable (h : d.Consistent all bucket)
include h

theorem Consistent.mem_iff : p ∈ all ↔ p ∈ d.live :=
  h.live.mem_iff

/-- The search through a slot finds the record if there is one. -/
theorem Consistent.getUrecord_eq_none :
    d.getUrecord aor = none ↔ ∀ p ∈ all, (d.mem p).aor ≠ aor := by
  rw [getUrecord, (h.slots _).find_eq, find?_eq_none]
  constructor
  · intro hnone p hp haor
    have hin : p ∈ bucket (hashFunc d.size aor) := by
      apply (h.hashed _ p).mpr
      refine ⟨hp, ?_⟩
      rw [slotOf, haor]
    exact hnone p hin (decide_eq_true haor)
  · intro hall p hp
    have hpall : p ∈ all := ((h.hashed _ p).mp hp).1
    simpa using hall p hpall

theorem Consistent.getUrecord_some
    (hget : d.getUrecord aor = some p) : p ∈ all ∧ (d.mem p).aor = aor := by
  rw [getUrecord, (h.slots _).find_eq] at hget
  have hin := mem_of_find?_eq_some hget
  have htest : decide ((d.mem p).aor = aor) = true :=
    find?_some (p := fun y => decide ((d.mem y).aor = aor)) hget
  exact ⟨((h.hashed _ p).mp hin).1, of_decide_eq_true htest⟩

theorem Consistent.notMem_bucket (hp : p ∉ all) (i : ℕ) : p ∉ bucket i :=
  fun hin => hp ((h.hashed i p).mp hin).1

theorem Consistent.disjoint {i j : ℕ} (hij : i ≠ j) : ∀ y ∈ bucket i, y ∉ bucket j := by
  intro y hi hj
  exact hij (((h.hashed i y).mp hi).2.symm.trans ((h.hashed j y).mp hj).2)

/-! ## Changes inside a record -/

theorem Consistent.content {rec : AorRecord}
    (haor : rec.aor = (d.mem p).aor) (hslot : rec.slot = (d.mem p).slot)
    (rows : Bytes → List Row) :
    Consistent { d with mem := update d.mem p rec, rows := rows } all
      bucket := by
  have hmem : ∀ y, (update d.mem p rec y).aor = (d.mem y).aor ∧
      (update d.mem p rec y).slot = (d.mem y).slot := by
    intro y
    by_cases hyp : y = p
    · rw [hyp, update_self]
      exact ⟨haor, hslot⟩
    · rw [update_of_ne hyp]
      exact ⟨rfl, rfl⟩
  refine ⟨h.domainList, h.slots, ?_, ?_, h.live, h.users, h.freed⟩
  · intro i y
    rw [h.hashed i y, slotOf, slotOf, (hmem y).1]
  · intro y hy
    rw [slotOf, (hmem y).1, (hmem y).2]
    exact h.slot y hy

end

theorem AorsDistinct.content (h : d.AorsDistinct all) {rec : AorRecord}
    (haor : rec.aor = (d.mem p).aor) (rows : Bytes → List Row) :
    AorsDistinct { d with mem := update d.mem p rec, rows := rows } all := by
  have heq : (all.map fun y => (update d.mem p rec y).aor) = all.map fun y => (d.mem y).aor := by
    apply map_congr_left
    intro y _
    by_cases hyp : y = p
    · rw [hyp, update_self, haor]
    · rw [update_of_ne hyp]
  rw [AorsDistinct, heq]
  exact h

/-! ## Insertion and removal -/

/-- The record that `mem_insert_urecord` makes. -/
def newRecord (aor : Bytes) (sl : ℕ) : AorRecord where
  aor := aor
  contacts := noContacts
  slot := some sl
  watchers := []

theorem memInsertUrecord_mem (d : UDomain) (p : RPtr) (aor : Bytes) :
    (d.memInsertUrecord p aor).mem = update d.mem p (newRecord aor (hashFunc d.size aor)) := by
  simp only [memInsertUrecord, udomainAdd, slotAdd, newUrecord, update_self, Function.update_idem]
  rfl

theorem Consistent.insert (h : d.Consistent all bucket) (hp : p ∉ all) (aor : Bytes) :
    (d.memInsertUrecord p aor).Consistent (all ++ [p]) (update bucket (hashFunc d.size aor)
        (bucket (hashFunc d.size aor) ++ [p])) := by
  have hmem := memInsertUrecord_mem d p aor
  have hslot := h.notMem_bucket hp
  have hslotOf : (d.memInsertUrecord p aor).slotOf p = hashFunc d.size aor := by
    rw [slotOf, hmem, update_self]
    rfl
  have hother : ∀ y ∈ all, (d.memInsertUrecord p aor).slotOf y =
      d.slotOf y := by
    intro y hy
    have hyp : y ≠ p := fun heq => hp (heq ▸ hy)
    rw [slotOf, slotOf, hmem, update_of_ne hyp]
    rfl
  refine ⟨?_, ?_, ?_, ?_, ?_, ?_, h.freed⟩
  · exact (h.domainList.clear hp).add hp (update_self ..) (update_self ..)
  · intro i
    by_cases hi : i = hashFunc d.size aor
    · subst hi
      have hadd := ((h.slots (hashFunc d.size aor)).clear (hslot _)).add
        (hslot _) (update_self ..) (update_self ..)
      rw [update_self]
      have htable : (d.memInsertUrecord p aor).table (hashFunc d.size aor) =
          ((d.table (hashFunc d.size aor)).add (CountedList.clear d.sLinks p) p).1 := update_self ..
      rw [htable]
      exact hadd
    · have htable : (d.memInsertUrecord p aor).table i = d.table i :=
        update_of_ne hi ..
      rw [update_of_ne hi, htable]
      exact ((h.slots (hashFunc d.size aor)).clear (hslot _)).add_other
        ((h.slots i).clear (hslot i)) (hslot i) (h.disjoint hi)
  · intro i y
    rw [mem_append, mem_singleton]
    by_cases hyp : y = p
    · subst hyp
      rw [hslotOf]
      by_cases hi : i = hashFunc d.size aor
      · subst hi
        simp
      · rw [update_of_ne hi]
        constructor
        · exact fun hin => absurd hin (hslot i)
        · exact fun hin => absurd hin.2.symm hi
    · have hin : y ∈ update bucket (hashFunc d.size aor)
          (bucket (hashFunc d.size aor) ++ [p]) i ↔ y ∈ bucket i := by
        by_cases hi : i = hashFunc d.size aor
        · subst hi
          simp [hyp]
        · rw [update_of_ne hi]
      rw [hin, h.hashed i y]
      constructor
      · rintro ⟨hy, hslotOf⟩
        exact ⟨.inl hy, (hother y hy).trans hslotOf⟩
      · rintro ⟨hy, hslotOf⟩
        have hyall := hy.resolve_right hyp
        exact ⟨hyall, (hother y hyall).symm.trans hslotOf⟩
  · intro y hy
    rcases mem_append.mp hy with hyall | hyp
    · have hne : y ≠ p := fun heq => hp (heq ▸ hyall)
      rw [hother y hyall, hmem, update_of_ne hne]
      exact h.slot y hyall
    · rw [mem_singleton.mp hyp, hslotOf, hmem, update_self]
      rfl
  · exact perm_append_singleton .. |>.trans (h.live.cons p)
  · have husers : (d.memInsertUrecord p aor).users = d.users + 1 := rfl
    rw [husers, h.users, List.length_append]
    rfl

theorem AorsDistinct.insert (h : d.AorsDistinct all) (hp : p ∉ all)
    (hnew : ∀ y ∈ all, (d.mem y).aor ≠ aor) :
    (d.memInsertUrecord p aor).AorsDistinct (all ++ [p]) := by
  have hold : (all.map fun y => ((d.memInsertUrecord p aor).mem y).aor) =
      all.map fun y => (d.mem y).aor := by
    apply map_congr_left
    intro y hy
    have hyp : y ≠ p := fun heq => hp (heq ▸ hy)
    rw [memInsertUrecord_mem, update_of_ne hyp]
  rw [AorsDistinct, map_append, hold, map_singleton, memInsertUrecord_mem, update_self]
  refine List.nodup_append.mpr ⟨h, nodup_singleton _, ?_⟩
  rintro a ha b hb rfl
  obtain ⟨y, hy, haor⟩ := List.mem_map.mp ha
  exact hnew y hy (haor.trans (mem_singleton.mp hb))

theorem memDeleteUrecord_eq (hwatchers : (d.mem p).watchers = [])
    (hn : d.dList.n ≠ 0) (hslot : (d.mem p).slot = some (d.slotOf p)) :
    d.memDeleteUrecord p =
      { d with
        table := update d.table (d.slotOf p) ((d.table (d.slotOf p)).remove d.sLinks p).1
        sLinks := ((d.table (d.slotOf p)).remove d.sLinks p).2
        dList := (d.dList.remove d.dLinks p).1
        dLinks := (d.dList.remove d.dLinks p).2
        users := d.users - 1
        mem := update d.mem p { d.mem p with slot := none }
        live := d.live.erase p
        freed := d.freed ++ [{ d.mem p with slot := none }] } := by
  simp only [memDeleteUrecord, if_pos hwatchers, udomainRemove, if_neg hn,
    slotRem, hslot, freeUrecord, update_self]

theorem mem_cut {y : RPtr} (h : (l₁ ++ p :: l₂).Nodup) :
    y ∈ l₁ ++ l₂ ↔ y ∈ l₁ ++ p :: l₂ ∧ y ≠ p := by
  have hp : p ∉ l₁ ++ l₂ :=
    (nodup_cons.mp (nodup_middle.mp h)).1
  rw [perm_middle.mem_iff, mem_cons]
  constructor
  · intro hy
    exact ⟨.inr hy, fun heq => hp (heq ▸ hy)⟩
  · rintro ⟨heq | hy, hne⟩
    · exact absurd heq hne
    · exact hy

theorem Consistent.delete (h : d.Consistent (l₁ ++ p :: l₂) bucket)
    (hcontacts : (d.mem p).contacts.contacts = none)
    (hwatchers : (d.mem p).watchers = []) :
    ∃ bucket', (d.memDeleteUrecord p).Consistent (l₁ ++ l₂) bucket' := by
  have hp : p ∈ l₁ ++ p :: l₂ := by simp
  have hn : d.dList.n ≠ 0 := by
    rw [h.domainList.length]
    simp
  have hrun := memDeleteUrecord_eq hwatchers hn (h.slot p hp)
  obtain ⟨m₁, m₂, hm⟩ : ∃ m₁ m₂, bucket (d.slotOf p) = m₁ ++ p :: m₂ :=
    append_of_mem ((h.hashed _ p).mpr ⟨hp, rfl⟩)
  have hslot := h.slots (d.slotOf p)
  rw [hm] at hslot
  have hmem : (d.memDeleteUrecord p).mem = update d.mem p { d.mem p with slot := none } := by
    rw [hrun]
  have hslotOf : ∀ y, (d.memDeleteUrecord p).slotOf y = d.slotOf y := by
    intro y
    rw [slotOf, slotOf, hmem, hrun]
    by_cases hyp : y = p
    · rw [hyp, update_self]
    · rw [update_of_ne hyp]
  have hcut : ∀ {y}, y ∈ l₁ ++ l₂ ↔ y ∈ l₁ ++ p :: l₂ ∧ y ≠ p :=
    mem_cut h.domainList.nodup
  refine ⟨update bucket (d.slotOf p) (m₁ ++ m₂), ?_, ?_, ?_, ?_, ?_, ?_, ?_⟩
  · rw [hrun]
    exact h.domainList.remove
  · intro i
    rw [hrun]
    by_cases hi : i = d.slotOf p
    · subst hi
      dsimp only
      rw [update_self, update_self]
      exact hslot.remove
    · dsimp only
      rw [update_of_ne hi, update_of_ne hi]
      refine hslot.remove_other (h.slots i) ?_
      rw [← hm]
      exact h.disjoint hi
  · intro i y
    rw [hslotOf, hcut, and_right_comm, ← h.hashed i y]
    by_cases hi : i = d.slotOf p
    · subst hi
      rw [update_self, hm]
      exact mem_cut hslot.nodup
    · rw [update_of_ne hi]
      constructor
      · intro hy
        refine ⟨hy, ?_⟩
        rintro rfl
        exact hi ((h.hashed i y).mp hy).2.symm
      · exact fun hy => hy.1
  · intro y hy
    obtain ⟨hyall, hyp⟩ := hcut.mp hy
    rw [hslotOf, hmem, update_of_ne hyp]
    exact h.slot y hyall
  · rw [hrun]
    have herase := (perm_middle.symm.trans h.live).erase p
    rwa [erase_cons_head] at herase
  · have husers : (d.memDeleteUrecord p).users = d.users - 1 := by
      rw [hrun]
    rw [husers, h.users]
    simp only [List.length_append, length_cons]
    omega
  · intro r hr
    rw [hrun] at hr
    rcases mem_append.mp hr with hr | hr
    · exact h.freed r hr
    · rw [mem_singleton.mp hr]
      exact ⟨hcontacts, hwatchers⟩

theorem AorsDistinct.delete (h : d.AorsDistinct (l₁ ++ p :: l₂))
    (haor : ∀ y, ((d.memDeleteUrecord p).mem y).aor = (d.mem y).aor) :
    (d.memDeleteUrecord p).AorsDistinct (l₁ ++ l₂) := by
  have heq : ((l₁ ++ l₂).map fun y => ((d.memDeleteUrecord p).mem y).aor) =
      (l₁ ++ l₂).map fun y => (d.mem y).aor :=
    map_congr_left fun y _ => haor y
  rw [AorsDistinct, heq]
  exact (nodup_cons.mp ((perm_middle.map _).nodup_iff.mp h)).2

theorem memDeleteUrecord_aor (d : UDomain) (p y : RPtr) :
    ((d.memDeleteUrecord p).mem y).aor = (d.mem y).aor := by
  have hremove : ∀ q, (d.udomainRemove q).mem = d.mem := by
    intro q
    unfold udomainRemove
    split <;> rfl
  unfold memDeleteUrecord
  split
  · simp only [freeUrecord, slotRem, hremove]
    cases (d.mem p).slot with
    | none => simp only [hremove]
    | some sl =>
      by_cases hyp : y = p
      · simp only [hyp, update_self]
      · simp only [update_of_ne hyp]
  · rfl

/-! ## What every call keeps -/

/-- The records are those of `all`, in their lists and with addresses of their
own. -/
def Kept (d : UDomain) (all : List RPtr) : Prop :=
  (∃ bucket, d.Consistent all bucket) ∧ d.AorsDistinct all

theorem Kept.mem_iff (h : d.Kept all) : p ∈ all ↔ p ∈ d.live := by
  obtain ⟨⟨bucket, hcons⟩, -⟩ := h
  exact hcons.mem_iff

theorem Kept.putStore (h : d.Kept all) (p : RPtr) (s : Store) : (d.putStore p s).Kept all := by
  obtain ⟨⟨bucket, hcons⟩, haors⟩ := h
  refine ⟨⟨bucket, ?_⟩, ?_⟩
  · apply hcons.content
    · rfl
    · rfl
  · apply haors.content
    rfl

theorem Kept.setWatchers (h : d.Kept all) (p : RPtr) (ws : List Watcher) :
    (d.setWatchers p ws).Kept all := by
  obtain ⟨⟨bucket, hcons⟩, haors⟩ := h
  refine ⟨⟨bucket, ?_⟩, ?_⟩
  · apply hcons.content
    · rfl
    · rfl
  · apply haors.content
    rfl

theorem Kept.insert (h : d.Kept all) (hp : p ∉ d.live) (hget : d.getUrecord aor = none) :
    (d.memInsertUrecord p aor).Kept (all ++ [p]) := by
  have hpall : p ∉ all := fun hin => hp (h.mem_iff.mp hin)
  obtain ⟨⟨bucket, hcons⟩, haors⟩ := h
  exact ⟨⟨_, hcons.insert hpall aor⟩, haors.insert hpall (hcons.getUrecord_eq_none.mp hget)⟩

/-- A record without contacts is freed, or somebody watches it and nothing
changes. -/
theorem Kept.delete (h : d.Kept (l₁ ++ p :: l₂)) (hcontacts : (d.mem p).contacts.contacts = none) :
    (d.memDeleteUrecord p).Kept (l₁ ++ l₂) ∨ d.memDeleteUrecord p = d := by
  obtain ⟨⟨bucket, hcons⟩, haors⟩ := h
  by_cases hwatchers : (d.mem p).watchers = []
  · left
    exact ⟨hcons.delete hcontacts hwatchers, haors.delete (memDeleteUrecord_aor d p)⟩
  · right
    exact if_neg hwatchers

section

variable (h : d.Kept all)
include h

theorem Kept.release (hp : p ∈ all) : ∃ all', (d.releaseUrecord p).Kept all' := by
  unfold releaseUrecord
  split
  case isTrue hcontacts =>
    obtain ⟨l₁, l₂, rfl⟩ := append_of_mem hp
    rcases h.delete hcontacts with hkept | heq
    · exact ⟨_, hkept⟩
    · rw [heq]
      exact ⟨_, h⟩
  case isFalse => exact ⟨all, h⟩

theorem Kept.getUrecord (hget : d.getUrecord aor = some p) : p ∈ all := by
  obtain ⟨⟨bucket, hcons⟩, -⟩ := h
  exact (hcons.getUrecord_some hget).1

theorem Kept.addWatcher (hp : p ∈ all) (w : Watcher)
    (alloc : Bool) : ∃ all', (d.addWatcher p w alloc).Kept all' := by
  unfold UDomain.addWatcher
  split
  · exact ⟨all, h.setWatchers p _⟩
  · exact h.release hp

theorem Kept.registerWatcher (hp : p ∉ d.live) (w : Watcher)
    (alloc : Bool) : ∃ all', (d.registerWatcher p aor w alloc).Kept all' := by
  unfold UDomain.registerWatcher
  cases hget : d.getUrecord aor with
  | some r => exact h.addWatcher (h.getUrecord hget) w alloc
  | none =>
    have hkept := h.insert hp hget
    exact hkept.addWatcher (mem_append_right _ (mem_singleton_self p)) w alloc

theorem Kept.unregisterWatcher (w : Watcher) : ∃ all', (d.unregisterWatcher aor w).Kept all' := by
  unfold UDomain.unregisterWatcher
  cases hget : d.getUrecord aor with
  | none => exact ⟨all, h⟩
  | some p => exact (h.setWatchers p _).release (h.getUrecord hget)

theorem Kept.deleteUrecord (cfg : Config)
    (ok : CPtr → Bool) : ∃ all', (d.deleteUrecord cfg ok aor).Kept all' := by
  unfold UDomain.deleteUrecord
  cases hget : d.getUrecord aor with
  | none => exact ⟨all, h⟩
  | some p => exact (h.putStore p _).release (h.getUrecord hget)

end

/-- The loop of the timer takes out records as it passes them. -/
theorem Kept.timerRecords {cfg : Config} {actTime : ℕ}
    {ok : RPtr → CPtr → Bool} {past todo : List RPtr} {n : ℕ}
    (h : d.Kept (past ++ todo)) (hn : todo.length ≤ n) :
    ∃ all', (UDomain.timerRecords cfg actTime ok n todo.head? d).Kept all' := by
  induction todo generalizing d past n with
  | nil =>
    refine ⟨past ++ [], ?_⟩
    cases n with
    | zero => exact h
    | succ n => exact h
  | cons p todo ih =>
    obtain ⟨m, rfl⟩ : ∃ m, n = m + 1 := ⟨n - 1, by simp at hn; omega⟩
    have htodo : todo.length ≤ m := by simpa using hn
    have hrec : (d.timerRecord cfg actTime (ok p) p).Kept (past ++ p :: todo) :=
      h.putStore p _
    have hnext : (d.timerRecord cfg actTime (ok p) p).dLinks.next p =
        todo.head? := by
      obtain ⟨⟨bucket, hcons⟩, -⟩ := hrec
      exact hcons.domainList.next_cut
    have hpast : (d.timerRecord cfg actTime (ok p) p).Kept ((past ++ [p]) ++ todo) := by
      rw [append_assoc]
      exact hrec
    rw [head?_cons, UDomain.timerRecords]
    simp only [hnext]
    split
    case isTrue hcontacts =>
      rcases hrec.delete hcontacts with hkept | heq
      · exact ih hkept htodo
      · rw [heq]
        exact ih hpast htodo
    case isFalse => exact ih hpast htodo

theorem Kept.timer (h : d.Kept all) (cfg : Config) (actTime : ℕ) (ok : RPtr → CPtr → Bool) :
    ∃ all', (d.timerUdomain cfg actTime ok).Kept all' := by
  have hfirst : d.dList.first = all.head? := by
    obtain ⟨⟨bucket, hcons⟩, -⟩ := h
    exact hcons.domainList.first_eq
  have hlen : all.length ≤ d.live.length := by
    obtain ⟨⟨bucket, hcons⟩, -⟩ := h
    exact hcons.live.length_eq.le
  have hall : d.Kept ([] ++ all) := h
  rw [timerUdomain, hfirst]
  exact hall.timerRecords hlen

end UDomain

open UDomain

/-- The condition on a call: a record is inserted only for an address that the
lookup does not find. -/
def LooksUpFirst : DomainCall → UDomain → Prop
  | .insertUrecord _ aor, d => d.getUrecord aor = none
  | _, _ => True

variable {cfg : Config} {size : ℕ} {d d' : UDomain}

theorem UDomain.Kept.step {all : List RPtr} (h : d.Kept all)
    {call : DomainCall} (hok : LooksUpFirst call d)
    (hs : call.run cfg d = some d') : ∃ all', d'.Kept all' := by
  cases call with
  | insertUrecord p aor =>
    simp only [DomainCall.run] at hs
    obtain ⟨hp, ⟨⟩⟩ := Option.ite_none_left_eq_some.mp hs
    exact ⟨_, h.insert hp hok⟩
  | getUrecord aor =>
    cases hs
    exact ⟨all, h⟩
  | releaseUrecord p =>
    simp only [DomainCall.run] at hs
    obtain ⟨hp, ⟨⟩⟩ := Option.ite_none_right_eq_some.mp hs
    exact h.release (h.mem_iff.mpr hp)
  | deleteUrecord aor ok =>
    cases hs
    exact h.deleteUrecord cfg ok
  | contact p call =>
    simp only [DomainCall.run] at hs
    obtain ⟨hp, hs⟩ := Option.ite_none_right_eq_some.mp hs
    obtain ⟨s, -, rfl⟩ := Option.map_eq_some_iff.mp hs
    exact ⟨all, h.putStore p s⟩
  | registerWatcher p aor w alloc =>
    simp only [DomainCall.run] at hs
    obtain ⟨hp, ⟨⟩⟩ := Option.ite_none_left_eq_some.mp hs
    exact h.registerWatcher hp w alloc
  | unregisterWatcher aor w =>
    cases hs
    exact h.unregisterWatcher w
  | timer actTime ok =>
    cases hs
    exact h.timer cfg actTime ok

/-- In a run that inserts records only after a lookup, every record is once in
the slot of its address of record, in no other one, and once in the list of
the domain, the counters count them, no two have the same address, and a
record that was freed had neither contacts nor watchers. -/
theorem records_in_lists (h : (domainMachine cfg size).ReachWhen LooksUpFirst d) :
    ∃ all bucket, d.Consistent all bucket ∧ d.AorsDistinct all := by
  have hkept : ∃ all, d.Kept all := by
    apply h.invariant
    · rintro d ⟨rows, rfl⟩
      refine ⟨[], ⟨fun _ => [], ?_⟩, nodup_nil⟩
      refine ⟨CountedList.isList_empty _, fun _ => CountedList.isList_empty _,
        ?_, ?_, .refl _, rfl, ?_⟩
      · simp
      · simp
      · intro r hr
        cases hr
    · rintro call d d' ⟨all, hkept⟩ hok hs
      exact hkept.step hok hs
  obtain ⟨all, ⟨bucket, hcons⟩, haors⟩ := hkept
  exact ⟨all, bucket, hcons, haors⟩

/-- A registration that expires and a watcher of another address. -/
def visitCalls : List DomainCall :=
  [.getUrecord [97], .insertUrecord 1 [97],
    .contact 1 (.insert 1 [98] ⟨600, 500, 1, [], none⟩ [49] 0 true),
    .releaseUrecord 1,
    .registerWatcher 2 [99] ⟨1, 1⟩ true,
    .timer 700 fun _ _ => true,
    .unregisterWatcher [99] ⟨1, 1⟩]

theorem records_in_lists_visit :
    ∃ d, (domainMachine ⟨.writeThrough, false, false, twoDecimals⟩ 512).run
        (UDomain.new 512 fun _ => []) visitCalls = some d ∧
      ∃ all bucket, d.Consistent all bucket ∧ d.AorsDistinct all := by
  refine ⟨_, rfl, records_in_lists (.run (.init ⟨_, rfl⟩) ?_
    (rfl : (domainMachine ⟨.writeThrough, false, false, twoDecimals⟩ 512).run
      (UDomain.new 512 fun _ => []) visitCalls = some _))⟩
  refine ⟨trivial, ?_⟩
  rintro _ ⟨⟩
  refine ⟨rfl, ?_⟩
  rintro _ ⟨⟩
  refine ⟨trivial, ?_⟩
  rintro _ ⟨⟩
  refine ⟨trivial, ?_⟩
  rintro _ ⟨⟩
  refine ⟨trivial, ?_⟩
  rintro _ ⟨⟩
  refine ⟨trivial, ?_⟩
  rintro _ ⟨⟩
  refine ⟨trivial, ?_⟩
  rintro _ ⟨⟩
  trivial

/-! ## The domain as a map -/

namespace UDomain

variable {all : List RPtr} {p : RPtr} {aor : Bytes}

theorem Kept.getUrecord_iff (h : d.Kept all) :
    d.getUrecord aor = some p ↔ p ∈ d.live ∧ (d.mem p).aor = aor := by
  rw [← h.mem_iff]
  obtain ⟨⟨bucket, hcons⟩, haors⟩ := h
  refine ⟨hcons.getUrecord_some, ?_⟩
  rintro ⟨hp, haor⟩
  cases hget : d.getUrecord aor with
  | none => exact absurd haor (hcons.getUrecord_eq_none.mp hget p hp)
  | some q =>
    obtain ⟨hq, haor'⟩ := hcons.getUrecord_some hget
    rw [inj_on_of_nodup_map haors hq hp (haor'.trans haor.symm)]

/-- Insertion is the update of the map. -/
theorem Kept.getUrecord_insert (h : d.Kept all) (hp : p ∉ d.live)
    (hget : d.getUrecord aor = none) (aor' : Bytes) :
    (d.memInsertUrecord p aor).getUrecord aor' =
      if aor' = aor then some p else d.getUrecord aor' := by
  have hmem := d.memInsertUrecord_mem p aor
  have hlive : (d.memInsertUrecord p aor).live = p :: d.live := rfl
  have hself : ((d.memInsertUrecord p aor).mem p).aor = aor := by
    rw [hmem, Function.update_self]
    rfl
  have hold : ∀ q ∈ d.live, ((d.memInsertUrecord p aor).mem q).aor = (d.mem q).aor := by
    intro q hq
    have hqp : q ≠ p := fun hEq => hp (hEq ▸ hq)
    rw [hmem, Function.update_of_ne hqp]
  refine Option.ext fun q => ?_
  rw [(h.insert hp hget).getUrecord_iff, hlive, mem_cons]
  split
  case isTrue heq =>
    subst heq
    constructor
    · rintro ⟨rfl | hq, haor⟩
      · rfl
      · have hfound := h.getUrecord_iff.mpr ⟨hq, (hold q hq).symm.trans haor⟩
        cases hget.symm.trans hfound
    · rintro ⟨⟩
      exact ⟨.inl rfl, hself⟩
  case isFalse hne =>
    rw [h.getUrecord_iff]
    constructor
    · rintro ⟨rfl | hq, haor⟩
      · exact absurd (haor.symm.trans hself) hne
      · exact ⟨hq, (hold q hq).symm.trans haor⟩
    · rintro ⟨hq, haor⟩
      exact ⟨.inr hq, (hold q hq).trans haor⟩

/-- So is deletion. -/
theorem Kept.getUrecord_delete (h : d.Kept all) (hget : d.getUrecord aor = some p)
    (hcontacts : (d.mem p).contacts.contacts = none) (hwatchers : (d.mem p).watchers = [])
    (aor' : Bytes) :
    (d.releaseUrecord p).getUrecord aor' = if aor' = aor then none else d.getUrecord aor' := by
  obtain ⟨hp, haor⟩ := h.getUrecord_iff.mp hget
  have hdistinct := h.2
  have hinj := fun q hq hsame => inj_on_of_nodup_map hdistinct (h.mem_iff.mpr hq)
    (h.mem_iff.mpr hp) (hsame : (d.mem q).aor = (d.mem p).aor)
  obtain ⟨l₁, l₂, rfl⟩ := append_of_mem (h.mem_iff.mpr hp)
  obtain ⟨⟨bucket, hcons⟩, -⟩ := h
  have hnodup : (l₁ ++ p :: l₂).Nodup := Nodup.of_map _ hdistinct
  obtain ⟨bucket', hcons'⟩ := hcons.delete hcontacts hwatchers
  have hkept : (d.memDeleteUrecord p).Kept (l₁ ++ l₂) :=
    ⟨⟨bucket', hcons'⟩, hdistinct.delete (d.memDeleteUrecord_aor p)⟩
  have hold : d.Kept (l₁ ++ p :: l₂) := ⟨⟨bucket, hcons⟩, hdistinct⟩
  rw [releaseUrecord, if_pos hcontacts]
  refine Option.ext fun q => ?_
  rw [hkept.getUrecord_iff, ← hkept.mem_iff, mem_cut hnodup, hold.mem_iff, memDeleteUrecord_aor]
  split
  case isTrue heq =>
    refine ⟨fun ⟨⟨hq, hne⟩, hsame⟩ => absurd (hinj q hq ?_) hne, fun hnone => by cases hnone⟩
    rw [hsame, heq, haor]
  case isFalse hne =>
    rw [hold.getUrecord_iff]
    refine ⟨fun ⟨hq, hsame⟩ => ⟨hq.1, hsame⟩, fun ⟨hq, hsame⟩ => ⟨⟨hq, ?_⟩, hsame⟩⟩
    rintro rfl
    exact hne (hsame.symm.trans haor)

end UDomain

theorem kept_of_reach (h : (domainMachine cfg size).ReachWhen LooksUpFirst d) :
    ∃ all, d.Kept all := by
  apply h.invariant
  · rintro d ⟨rows, rfl⟩
    refine ⟨[], ⟨fun _ => [], ?_⟩, nodup_nil⟩
    refine ⟨CountedList.isList_empty _, fun _ => CountedList.isList_empty _, ?_, ?_, .refl _, rfl, ?_⟩
    · simp
    · simp
    · intro r hr
      cases hr
  · rintro call d d' ⟨all, hkept⟩ hok hs
    exact hkept.step hok hs

/-- In such a run `get_urecord` is the map from the address of record to the
record that has it; inserting a record changes it at its address and nowhere
else, and so does the release of a record that nobody needs. -/
theorem domain_is_map (h : (domainMachine cfg size).ReachWhen LooksUpFirst d) (aor : Bytes)
    (p : RPtr) :
    (d.getUrecord aor = some p ↔ p ∈ d.live ∧ (d.mem p).aor = aor) ∧
      (p ∉ d.live → d.getUrecord aor = none → ∀ aor',
        (d.memInsertUrecord p aor).getUrecord aor' =
          if aor' = aor then some p else d.getUrecord aor') ∧
      (d.getUrecord aor = some p → (d.mem p).contacts.contacts = none →
        (d.mem p).watchers = [] → ∀ aor', (d.releaseUrecord p).getUrecord aor' =
          if aor' = aor then none else d.getUrecord aor') := by
  obtain ⟨all, hkept⟩ := kept_of_reach h
  exact ⟨hkept.getUrecord_iff, hkept.getUrecord_insert, hkept.getUrecord_delete⟩

/-- A record that is watched before it has contacts. -/
theorem domain_is_map_watched :
    ∃ d, (domainMachine ⟨.writeThrough, false, false, twoDecimals⟩ 512).run
        (UDomain.new 512 fun _ => []) [.registerWatcher 2 [99] ⟨1, 1⟩ true] = some d ∧
      (d.getUrecord [99] = some 2 ↔ 2 ∈ d.live ∧ (d.mem 2).aor = [99]) := by
  refine ⟨_, rfl, (domain_is_map (.run (.init ⟨_, rfl⟩) ?_
    (rfl : (domainMachine ⟨.writeThrough, false, false, twoDecimals⟩ 512).run
      (UDomain.new 512 fun _ => []) [.registerWatcher 2 [99] ⟨1, 1⟩ true] = some _)) _ _).1⟩
  exact ⟨trivial, fun _ _ => trivial⟩

/-- An insertion does not look for the address: two records have it. -/
theorem inserted_twice :
    ∃ d, (domainMachine ⟨.writeThrough, false, false, twoDecimals⟩ 512).run
        (UDomain.new 512 fun _ => [])
        [.insertUrecord 1 [97], .insertUrecord 2 [97]] = some d ∧
      d.live = [2, 1] ∧ (d.mem 1).aor = (d.mem 2).aor := by
  refine ⟨_, rfl, ?_, ?_⟩ <;> decide

end Msicp.Usrloc
