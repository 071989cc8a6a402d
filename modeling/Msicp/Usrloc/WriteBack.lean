import Msicp.Support.Mirror
import Msicp.Usrloc.Store

/-!
# Write-back

With `db_mode` 2 the contact operations change memory only and the timer
brings the database up to date.  The state of a contact says what the database
knows about it, and the Call-ID is the key by which the timer finds its row.
A contact that is deleted while it has a row is only marked, by an expiry time
of zero, and keeps its state.
-/

namespace Msicp.Usrloc

open Function (update update_self update_of_ne update_eq_self)
open Support (Mirrors)
open URecord UContact
open List hiding set

/-- The configuration of a server that writes back. -/
def writeBack (descTimeOrder registrarOrder : Bool) (col : Columns) : Config where
  mode := .writeBack
  descTimeOrder := descTimeOrder
  registrarOrder := registrarOrder
  col := col

/-- The mark of a deleted contact that the timer has not come to yet. -/
def UContact.deleted (c : UContact) : Prop :=
  c.expires = 0 ∧ c.flags &&& flPermanent = 0

/-- The row is that of the contact before it was marked as deleted. -/
def MarkedSince (c : UContact) (row : Row) : Prop :=
  c.deleted ∧ ∃ expires flags, c.flags = flags &&& ~~~flPermanent ∧
    row = { c.fields with expires := expires, flags := flags }

/-- The rows that the timer finds for a contact. -/
def ownRows (rows : List Row) (c : UContact) : List Row :=
  rows.filter fun row => row.callid = c.callid

/-- What the state of a contact says about its rows. -/
def StateFaithful (rows : List Row) (c : UContact) : Prop :=
  match c.state with
  | .new => ownRows rows c = []
  | .sync => ∃ row, ownRows rows c = [row] ∧ (row = c.fields ∨ MarkedSince c row)
  | .dirty => ∃ row, ownRows rows c = [row]

/-- The condition on a call: the statements of the timer succeed and there is
memory, no contact is kept in memory only, the columns hold the values as they
are, and the Call-IDs of contacts differ and stay what they are once the
contact has a row. -/
def StateFollows (col : Columns) : Call → Store → Prop
  | .insert _ contact b callid flags _, s =>
    let c := newUcontact contact b callid flags
    c.memOnly = false ∧ col.Exact c ∧ ∀ y ∈ s.record.chain, (s.record.mem y).callid ≠ callid
  | .update p b cid set res alloc _, s =>
    let c := ({ s.record.mem p with callid := cid } : UContact).refresh b set
      res
    (∀ f, alloc f = true) ∧ c.memOnly = false ∧ col.Exact c ∧
      if (s.record.mem p).state = .new then
        ∀ y ∈ s.record.chain, y ≠ p → (s.record.mem y).callid ≠ cid
      else cid = (s.record.mem p).callid
  | .updateBycallid p b contact set res _ alloc _, s =>
    let c := ({ s.record.mem p with c := contact } : UContact).refresh b set
      res
    (∀ f, alloc f = true) ∧ c.memOnly = false ∧ col.Exact c
  | .delete _ _, _ => True
  | .moveOnTop _, _ => True
  | .timer _ ok, _ => ∀ p, ok p = true

/-- What the timer relies on about a contact and the row it has: the Call-ID
finds the row, and a row that is not to be written again is right. -/
structure Fits (col : Columns) (c : UContact) (row : Row) : Prop where
  key : c.state ≠ .new → row.callid = c.callid
  sync : c.state = .sync → row = c.fields ∨ MarkedSince c row
  flushed : c.memOnly = false
  exact : c.state ≠ .sync → col.Exact c ∨ c.deleted

/-- The contacts of a list that have been flushed. -/
def flushedOf (mem : CPtr → UContact) (l : List CPtr) : List CPtr :=
  l.filter fun p => (mem p).state ≠ .new

/-- The rows are those of the contacts that have been flushed; `stored` is the
row of each. -/
structure Backed (col : Columns) (stored : CPtr → Row) (rows : List Row)
    (l : List CPtr) (mem : CPtr → UContact) : Prop where
  mirrors : Mirrors rows (flushedOf mem l) stored
  distinct : (l.map fun p => (mem p).callid).Nodup
  fits : ∀ p ∈ l, Fits col (mem p) (stored p)

variable {s s' : Store} {l l₁ l₂ : List CPtr} {p : CPtr} {col : Columns}
  {mem : CPtr → UContact} {rows : List Row} {c : UContact}
  {desc reg : Bool} {stored : CPtr → Row}

/-! ## Marked contacts -/

theorem deleted_not_valid (h : c.deleted) (actTime : ℕ) : c.valid actTime = false := by
  obtain ⟨hexpires, hflags⟩ := h
  simp [valid, hexpires, hflags]

/-- What `st_delete_ucontact` makes of a contact that has a row. -/
def UContact.mark (c : UContact) : UContact :=
  { c with flags := c.flags &&& ~~~flPermanent, expires := 0 }

theorem stDeleteUcontact_writeBack (hc : c.state ≠ .new) :
    stDeleteUcontact .writeBack c = (c.mark, false) := by
  cases hstate : c.state with
  | new => exact absurd hstate hc
  | sync => simp [stDeleteUcontact, hstate, mark]
  | dirty => simp [stDeleteUcontact, hstate, mark]

theorem mark_deleted (c : UContact) : c.mark.deleted := by
  refine ⟨rfl, ?_⟩
  rw [mark, BitVec.and_assoc]
  have hnone : ~~~flPermanent &&& flPermanent = 0 := by decide
  rw [hnone]
  exact BitVec.and_zero

theorem mark_memOnly (c : UContact) : c.mark.memOnly = c.memOnly := by
  have hkeep : ~~~flPermanent &&& flMem = flMem := by decide
  rw [memOnly, memOnly, mark, BitVec.and_assoc, hkeep]

variable {row : Row} {actTime : ℕ} {ok : CPtr → Bool}

theorem markedSince_mark (h : row = c.fields ∨ MarkedSince c row) : MarkedSince c.mark row := by
  refine ⟨mark_deleted c, ?_⟩
  rcases h with rfl | ⟨-, expires, flags, hflags, rfl⟩
  · exact ⟨c.expires, c.flags, rfl, rfl⟩
  · refine ⟨expires, flags, ?_, rfl⟩
    rw [mark, hflags, BitVec.and_assoc, BitVec.and_self]

/-! ## The rows of one contact -/

theorem mem_flushedOf : p ∈ flushedOf mem l ↔ p ∈ l ∧ (mem p).state ≠ .new := by
  rw [flushedOf, mem_filter, decide_eq_true_eq]

theorem flushedOf_cons_new (hp : (mem p).state = .new) : flushedOf mem (p :: l) = flushedOf mem l :=
  filter_cons_of_neg (by simp [hp])

theorem flushedOf_cons (hp : (mem p).state ≠ .new) :
    flushedOf mem (p :: l) = p :: flushedOf mem l :=
  filter_cons_of_pos (by simp [hp])

theorem flushedOf_congr {mem' : CPtr → UContact}
    (h : ∀ p ∈ l, (mem' p).state = .new ↔ (mem p).state = .new) :
    flushedOf mem' l = flushedOf mem l := by
  apply filter_congr
  intro p hp
  simp only [ne_eq, h p hp]

section

variable (h : Backed col stored rows l mem)
include h

theorem Backed.callid_inj {x y : CPtr}
    (hx : x ∈ l) (hy : y ∈ l) (heq : (mem x).callid = (mem y).callid) :
    x = y :=
  inj_on_of_nodup_map h.distinct hx hy heq

theorem Backed.ownRows_new (hp : p ∈ l)
    (hstate : (mem p).state = .new) : ownRows rows (mem p) = [] := by
  have hfilter := h.mirrors.filter fun row =>
    decide (row.callid = (mem p).callid)
  have hnone : (flushedOf mem l).filter
      (fun y => decide ((stored y).callid = (mem p).callid)) = [] := by
    apply filter_eq_nil_iff.mpr
    intro y hy
    obtain ⟨hyl, hnew⟩ := mem_flushedOf.mp hy
    rw [(h.fits y hyl).key hnew, decide_eq_true_eq]
    intro heq
    have hyp : y = p := h.callid_inj hyl hp heq
    exact hnew (hyp ▸ hstate)
  rw [hnone] at hfilter
  exact perm_nil.mp hfilter

theorem Backed.ownRows_stored (hp : p ∈ l) (hstate : (mem p).state ≠ .new) :
    ownRows rows (mem p) = [stored p] := by
  have hkeys : ((flushedOf mem l).map fun y => (stored y).callid).Nodup := by
    have heq : ((flushedOf mem l).map fun y => (stored y).callid) =
        (flushedOf mem l).map fun y => (mem y).callid := by
      apply map_congr_left
      intro y hy
      obtain ⟨hyl, hnew⟩ := mem_flushedOf.mp hy
      exact (h.fits y hyl).key hnew
    rw [heq]
    exact h.distinct.sublist (filter_sublist.map _)
  have hown := h.mirrors.filter_key hkeys (mem_flushedOf.mpr ⟨hp, hstate⟩)
  rw [(h.fits p hp).key hstate] at hown
  exact hown

theorem Backed.faithful (hp : p ∈ l) : StateFaithful rows (mem p) := by
  unfold StateFaithful
  split
  case h_1 hstate => exact h.ownRows_new hp hstate
  case h_2 hstate =>
    exact ⟨stored p, h.ownRows_stored hp (by simp [hstate]), (h.fits p hp).sync hstate⟩
  case h_3 hstate =>
    exact ⟨stored p, h.ownRows_stored hp (by simp [hstate])⟩

/-! ## Changes -/

theorem Backed.of_perm {l' : List CPtr} (hl : l.Perm l') : Backed col stored rows l' mem where
  mirrors := h.mirrors.of_perm (hl.filter _)
  distinct := (hl.map _).nodup_iff.mp h.distinct
  fits := fun p hp => h.fits p (hl.mem_iff.mpr hp)

end

/-- The Call-IDs of a list in which that of one contact is replaced. -/
theorem distinct_update (hl : l.Nodup) (h : (l.map fun y => (mem y).callid).Nodup)
    (hkey : ∀ y ∈ l, y ≠ p → (mem y).callid ≠ c.callid) :
    (l.map fun y => (update mem p c y).callid).Nodup := by
  apply (nodup_map_iff_inj_on hl).mpr
  intro x hx y hy heq
  by_cases hxp : x = p
  · by_cases hyp : y = p
    · rw [hxp, hyp]
    · rw [hxp, update_self, update_of_ne hyp] at heq
      exact absurd heq.symm (hkey y hy hyp)
  · rw [update_of_ne hxp] at heq
    by_cases hyp : y = p
    · rw [hyp, update_self] at heq
      exact absurd heq (hkey x hx hxp)
    · rw [update_of_ne hyp] at heq
      exact inj_on_of_nodup_map h hx hy heq

section

variable (h : Backed col stored rows l mem)
include h

theorem Backed.change {rows' : List Row} (hl : l.Nodup)
    (hmirrors : Mirrors rows' (flushedOf (update mem p c) l) (update stored p row))
    (hkey : ∀ y ∈ l, y ≠ p → (mem y).callid ≠ c.callid)
    (hfits : Fits col c row) :
    Backed col (update stored p row) rows' l (update mem p c) := by
  refine ⟨hmirrors, distinct_update hl h.distinct hkey, ?_⟩
  intro y hy
  by_cases hyp : y = p
  · rw [hyp, update_self, update_self]
    exact hfits
  · rw [update_of_ne hyp, update_of_ne hyp]
    exact h.fits y hy

/-- A contact gets other values and keeps its row. -/
theorem Backed.set (hl : l.Nodup) (hstate : c.state = .new ↔ (mem p).state = .new)
    (hkey : ∀ y ∈ l, y ≠ p → (mem y).callid ≠ c.callid)
    (hfits : Fits col c (stored p)) :
    Backed col stored rows l (update mem p c) := by
  have hflushed : flushedOf (update mem p c) l = flushedOf mem l := by
    apply flushedOf_congr
    intro y _
    by_cases hyp : y = p
    · rw [hyp, update_self]
      exact hstate
    · rw [update_of_ne hyp]
  have hmirrors : Mirrors rows (flushedOf (update mem p c) l) (update stored p (stored p)) := by
    rw [hflushed, update_eq_self]
    exact h.mirrors
  have hchange := h.change hl hmirrors hkey hfits
  rwa [update_eq_self] at hchange

theorem Backed.key_other (hp : p ∈ l) (hc : c.callid = (mem p).callid) :
    ∀ y ∈ l, y ≠ p → (mem y).callid ≠ c.callid := by
  intro y hy hyp heq
  exact hyp (h.callid_inj hy hp (heq.trans hc))

theorem Backed.insert (hl : (p :: l).Nodup)
    (hc : c.state = .new) (hkey : ∀ y ∈ l, (mem y).callid ≠ c.callid)
    (hfits : Fits col c (stored p)) :
    Backed col stored rows (p :: l) (update mem p c) := by
  obtain ⟨hp, hnodup⟩ := nodup_cons.mp hl
  have hmem : ∀ y ∈ l, update mem p c y = mem y := by
    intro y hy
    have hyp : y ≠ p := fun heq => hp (heq ▸ hy)
    exact update_of_ne hyp ..
  refine ⟨?_, ?_, ?_⟩
  · rw [flushedOf_cons_new (by rw [update_self]; exact hc),
      flushedOf_congr fun y hy => by rw [hmem y hy]]
    exact h.mirrors
  · have hrest : (l.map fun y => (update mem p c y).callid) = l.map fun y => (mem y).callid :=
      map_congr_left fun y hy => by rw [hmem y hy]
    rw [map_cons, hrest, update_self]
    refine nodup_cons.mpr ⟨?_, h.distinct⟩
    intro hin
    obtain ⟨y, hy, heq⟩ := List.mem_map.mp hin
    exact hkey y hy heq
  · intro y hy
    rcases mem_cons.mp hy with rfl | hy
    · rw [update_self]
      exact hfits
    · rw [hmem y hy]
      exact h.fits y hy

end

theorem Backed.drop (h : Backed col stored rows (p :: l) mem)
    (hp : (mem p).state = .new) : Backed col stored rows l mem where
  mirrors := by
    have hmirrors := h.mirrors
    rwa [flushedOf_cons_new hp] at hmirrors
  distinct := (nodup_cons.mp h.distinct).2
  fits := fun y hy => h.fits y (mem_cons_of_mem _ hy)

theorem Backed.remove (h : Backed col stored rows (p :: l) mem) (hp : (mem p).state ≠ .new) :
    Backed col stored (dbDeleteUcontact true (mem p) rows) l mem where
  mirrors := by
    have hmirrors := h.mirrors
    have hfits := h.fits p mem_cons_self
    rw [flushedOf_cons hp] at hmirrors
    rw [dbDeleteUcontact_true hfits.flushed]
    show Mirrors _ ([] ++ flushedOf mem l) stored
    apply Mirrors.remove hmirrors
    · simp [hfits.key hp]
    · intro y hy
      obtain ⟨hyl, hnew⟩ := mem_flushedOf.mp hy
      rw [(h.fits y (mem_cons_of_mem _ hyl)).key hnew]
      apply decide_eq_true
      intro heq
      have hnotin := (nodup_cons.mp h.distinct).1
      exact hnotin (List.mem_map.mpr ⟨y, hyl, heq⟩)
  distinct := (nodup_cons.mp h.distinct).2
  fits := fun y hy => h.fits y (mem_cons_of_mem _ hy)

/-! ## The timer -/

theorem exact_of_valid (h : Fits col c row)
    (hstate : c.state ≠ .sync) (hvalid : c.valid actTime = true) :
    col.Exact c := by
  rcases h.exact hstate with hexact | hdel
  · exact hexact
  · rw [deleted_not_valid hdel] at hvalid
    cases hvalid

theorem fits_written (h : c.memOnly = false) : Fits col { c with state := .sync } c.fields where
  key := fun _ => rfl
  sync := fun _ => .inl rfl
  flushed := h
  exact := fun hstate => absurd rfl hstate

theorem flushedOf_update (hl : (p :: l).Nodup) (hc : c.state ≠ .new) :
    flushedOf (update mem p c) (p :: l) = p :: flushedOf mem l := by
  have hp : p ∉ l := (nodup_cons.mp hl).1
  rw [flushedOf_cons (by rw [update_self]; exact hc)]
  congr 1
  apply flushedOf_congr
  intro y hy
  have hyp : y ≠ p := fun heq => hp (heq ▸ hy)
  rw [update_of_ne hyp]

/-- The contact in front goes through the hands of the timer. -/
theorem Backed.flush (h : Backed col stored rows (p :: l) mem) (hl : (p :: l).Nodup)
    (hok : ok p = true) (hvalid : (mem p).valid actTime = true) :
    ∃ stored', Backed col stored' (wbFlush col ok p (mem p) rows).2 (p :: l)
        (update mem p (wbFlush col ok p (mem p) rows).1) ∧
      (wbFlush col ok p (mem p) rows).1 = { mem p with state := .sync } := by
  have hp : p ∈ p :: l := mem_cons_self
  have hfits := h.fits p hp
  have hpl : p ∉ l := (nodup_cons.mp hl).1
  have hkey := h.key_other hp (show ({ mem p with state := .sync } : UContact).callid = _ from rfl)
  have hflushed : flushedOf (update mem p { mem p with state := .sync })
      (p :: l) = p :: flushedOf mem l := flushedOf_update hl (by simp)
  have hwritten : Fits col { mem p with state := .sync } (mem p).fields :=
    fits_written hfits.flushed
  cases hstate : (mem p).state with
  | new =>
    have hexact := exact_of_valid hfits (by simp [hstate]) hvalid
    have hrow : col.write { mem p with state := .sync } = (mem p).fields :=
      hexact
    have hflush : wbFlush col ok p (mem p) rows =
        ({ mem p with state := .sync }, rows ++ [(mem p).fields]) := by
      simp only [wbFlush, stFlushUcontact, hstate, hok]
      rw [dbInsertUcontact_true col hwritten.flushed, hrow]
    rw [hflush]
    refine ⟨update stored p (mem p).fields, ?_, rfl⟩
    refine h.change hl ?_ hkey hwritten
    have hold : Mirrors rows ([] ++ flushedOf mem l) stored := by
      have hmirrors := h.mirrors
      rwa [flushedOf_cons_new hstate] at hmirrors
    have hnotin : p ∉ [] ++ flushedOf mem l := fun hin =>
      hpl (mem_flushedOf.mp hin).1
    have hins : Mirrors (rows ++ [update stored p (mem p).fields p])
        ([] ++ p :: flushedOf mem l) (update stored p (mem p).fields) :=
      hold.insert hnotin fun y hy => update_of_ne hy ..
    rw [update_self] at hins
    rw [hflushed]
    exact hins
  | sync =>
    have hflush : wbFlush col ok p (mem p) rows = (mem p, rows) := by
      simp only [wbFlush, stFlushUcontact, hstate]
    have hsame : ({ mem p with state := .sync } : UContact) = mem p := by
      rw [← hstate]
    rw [hflush, hsame, update_eq_self]
    exact ⟨stored, h, rfl⟩
  | dirty =>
    have hnew : (mem p).state ≠ .new := by simp [hstate]
    have hexact := exact_of_valid hfits (by simp [hstate]) hvalid
    have hrow : col.write { mem p with state := .sync } = (mem p).fields :=
      hexact
    have hflush : wbFlush col ok p (mem p) rows =
        ({ mem p with state := .sync }, rows.map fun row =>
          if row.callid = (mem p).callid then (mem p).fields else row) := by
      simp only [wbFlush, stFlushUcontact, hstate, hok]
      rw [dbUpdateUcontact_byCallid col hwritten.flushed, hrow]
    rw [hflush]
    refine ⟨update stored p (mem p).fields, ?_, rfl⟩
    refine h.change hl ?_ hkey hwritten
    rw [hflushed, ← flushedOf_cons hnew]
    apply h.mirrors.update
    intro y hy
    obtain ⟨hyl, hynew⟩ := mem_flushedOf.mp hy
    rw [(h.fits y hyl).key hynew]
    by_cases hyp : y = p
    · rw [hyp, if_pos rfl, update_self]
    · rw [if_neg (hkey y hyl hyp), update_of_ne hyp]

/-- In the middle of a run of the timer: the contacts it kept are valid and in
step with the database. -/
def FlushInv (col : Columns) (actTime : ℕ) (kept todo : List CPtr)
    (mem : CPtr → UContact) (rows : List Row) : Prop :=
  ∃ stored, Backed col stored rows (kept ++ todo) mem ∧
    ∀ p ∈ kept, (mem p).valid actTime = true ∧ (mem p).state = .sync

theorem FlushInv.expire
    {kept todo : List CPtr} (h : FlushInv col actTime kept (p :: todo) mem rows)
    (hok : ok p = true) :
    FlushInv col actTime kept todo mem (wbExpire ok p (mem p) rows) := by
  obtain ⟨stored, hbacked, hkept⟩ := h
  have hfront : Backed col stored rows (p :: (kept ++ todo)) mem :=
    hbacked.of_perm perm_middle
  refine ⟨stored, ?_, hkept⟩
  cases hstate : (mem p).state with
  | new =>
    have hexpire : wbExpire ok p (mem p) rows = rows := by
      simp [wbExpire, stExpiredUcontact, hstate]
    rw [hexpire]
    exact hfront.drop hstate
  | sync =>
    have hexpire : wbExpire ok p (mem p) rows = dbDeleteUcontact true (mem p) rows := by
      simp [wbExpire, stExpiredUcontact, hstate, hok]
    rw [hexpire]
    exact hfront.remove (by simp [hstate])
  | dirty =>
    have hexpire : wbExpire ok p (mem p) rows = dbDeleteUcontact true (mem p) rows := by
      simp [wbExpire, stExpiredUcontact, hstate, hok]
    rw [hexpire]
    exact hfront.remove (by simp [hstate])

theorem FlushInv.flush
    {kept todo : List CPtr} (h : FlushInv col actTime kept (p :: todo) mem rows)
    (hl : (kept ++ p :: todo).Nodup) (hok : ok p = true)
    (hvalid : (mem p).valid actTime = true) :
    FlushInv col actTime (kept ++ [p]) todo (update mem p (wbFlush col ok p (mem p) rows).1)
      (wbFlush col ok p (mem p) rows).2 := by
  obtain ⟨stored, hbacked, hkept⟩ := h
  have hfront : Backed col stored rows (p :: (kept ++ todo)) mem :=
    hbacked.of_perm perm_middle
  have hnodup : (p :: (kept ++ todo)).Nodup := nodup_middle.mp hl
  obtain ⟨stored', hflush, hsync⟩ := hfront.flush hnodup hok hvalid
  refine ⟨stored', ?_, ?_⟩
  · rw [append_assoc]
    exact hflush.of_perm perm_middle.symm
  · intro y hy
    rcases mem_append.mp hy with hyk | hyp
    · have hne : y ≠ p := by
        intro heq
        have hin : p ∈ kept ++ todo := mem_append_left _ (heq ▸ hyk)
        exact (nodup_cons.mp hnodup).1 hin
      rw [update_of_ne hne]
      exact hkept y hyk
    · rw [mem_singleton.mp hyp, update_self, hsync]
      exact ⟨hvalid, rfl⟩

/-- Where all contacts are valid and in step with the database, the rows are
their fields. -/
theorem Backed.rows_of_sync (h : Backed col stored rows l mem)
    (hall : ∀ p ∈ l, (mem p).valid actTime = true ∧ (mem p).state = .sync) :
    rows.Perm (l.map fun p => (mem p).fields) := by
  have hflushed : flushedOf mem l = l := by
    apply filter_eq_self.mpr
    intro p hp
    simp [(hall p hp).2]
  have hmirrors := h.mirrors
  rw [hflushed] at hmirrors
  apply hmirrors.congr
  intro p hp
  obtain ⟨hvalid, hsync⟩ := hall p hp
  rcases (h.fits p hp).sync hsync with hrow | hmarked
  · exact hrow.symm
  · rw [deleted_not_valid hmarked.1] at hvalid
    cases hvalid

/-- After a run of the timer the contacts left are valid and in step with the
database. -/
theorem wbTimer_rows (h : s.record.Wf l) (hbacked : Backed col stored s.rows l s.record.mem)
    (hok : ∀ p, ok p = true) :
    ∃ l' stored', (timerUrecord (writeBack desc reg col) actTime ok s).record.Wf l' ∧
      Backed col stored' (timerUrecord (writeBack desc reg col) actTime ok s).rows l'
        (timerUrecord (writeBack desc reg col) actTime ok s).record.mem ∧
      ∀ p ∈ l', ((timerUrecord (writeBack desc reg col) actTime ok s).record.mem
          p).valid actTime = true ∧
        ((timerUrecord (writeBack desc reg col) actTime ok s).record.mem p).state = .sync := by
  obtain ⟨l', hwf, stored', hend, hkept⟩ := timerUrecord_rule
    (writeBack desc reg col) (FlushInv col actTime)
    (fun kept p todo mem rows _ hinv _ => hinv.expire (hok p))
    (fun kept p todo mem rows hl hinv hp => hinv.flush hl (hok p) hp) h
    ⟨stored, hbacked, by simp⟩
  rw [append_nil] at hend
  exact ⟨l', stored', hwf, hend, hkept⟩

/-! ## The calls -/

/-- What every run keeps. -/
def StateKept (col : Columns) (s : Store) : Prop :=
  ∃ l stored, s.record.Wf l ∧ Backed col stored s.rows l s.record.mem

/-- A contact with other values under the Call-ID that finds its row. -/
theorem StateKept.update (hwf : s.record.Wf l)
    (h : Backed col stored s.rows l s.record.mem) (hp : p ∈ s.record.shm)
    (hkey : ∀ y ∈ l, y ≠ p → (s.record.mem y).callid ≠ c.callid)
    (hcallid : (s.record.mem p).state ≠ .new → c.callid = (s.record.mem p).callid)
    (hstate : c.state = (s.record.mem p).state) (hmem : c.memOnly = false)
    (hexact : col.Exact c) (write byCallid ok : Bool) :
    StateKept col (finishUpdate (writeBack desc reg col) ok write byCallid s p (c, true)) := by
  have hrun : finishUpdate (writeBack desc reg col) ok write byCallid s p (c, true) =
        { record := s.record.setContact p (stUpdateUcontact .writeBack c)
          rows := s.rows } := by
    simp [finishUpdate, writeBack]
  have hfits := h.fits p (hwf.mem_iff.mpr hp)
  rw [hrun]
  refine ⟨l, stored, setContact_wf hwf, ?_⟩
  rw [setContact_mem, stUpdateUcontact_writeBack]
  by_cases hnew : (s.record.mem p).state = .new
  · rw [if_pos (hstate.trans hnew)]
    refine h.set hwf.nodup (by simp [hnew]) hkey ?_
    constructor
    · intro hne
      exact absurd rfl hne
    · intro hsync
      cases hsync
    · exact hmem
    · intro _
      exact .inl hexact
  · rw [if_neg (hstate ▸ hnew)]
    refine h.set hwf.nodup (by simp [hnew]) hkey ?_
    constructor
    · intro _
      exact (hfits.key hnew).trans (hcallid hnew).symm
    · intro hsync
      cases hsync
    · exact hmem
    · intro _
      exact .inl hexact

theorem StateKept.delete (hwf : s.record.Wf l)
    (h : Backed col stored s.rows l s.record.mem) (hp : p ∈ s.record.shm)
    (ok : Bool) :
    StateKept col (deleteUcontact (writeBack desc reg col) ok s p) := by
  have hpl : p ∈ l := hwf.mem_iff.mpr hp
  have hfits := h.fits p hpl
  by_cases hstate : (s.record.mem p).state = .new
  · obtain ⟨l₁, l₂, rfl⟩ := append_of_mem hpl
    have hrun : deleteUcontact (writeBack desc reg col) ok s p =
        { record := (s.record.setContact p (s.record.mem p)).memDeleteUcontact p
          rows := s.rows } := by
      simp [deleteUcontact, writeBack, stDeleteUcontact, hstate]
    rw [hrun]
    refine ⟨l₁ ++ l₂, stored, memDeleteUcontact_wf (setContact_wf hwf), ?_⟩
    rw [memDeleteUcontact_mem, setContact_mem, update_eq_self]
    exact (h.of_perm perm_middle).drop hstate
  · have hrun : deleteUcontact (writeBack desc reg col) ok s p =
        { s with record := s.record.setContact p (s.record.mem p).mark } := by
      simp [deleteUcontact, writeBack, stDeleteUcontact_writeBack hstate]
    rw [hrun]
    refine ⟨l, stored, setContact_wf hwf, ?_⟩
    rw [setContact_mem]
    apply h.set hwf.nodup
    · exact Iff.rfl
    · exact h.key_other hpl rfl
    · constructor
      · intro _
        exact hfits.key hstate
      · intro hsync
        exact .inr (markedSince_mark (hfits.sync hsync))
      · rw [mark_memOnly]
        exact hfits.flushed
      · intro _
        exact .inr (mark_deleted _)

theorem StateKept.step (h : StateKept col s) {call : Call} (hok : StateFollows col call s)
    (hs : call.run (writeBack desc reg col) s = some s') :
    StateKept col s' := by
  obtain ⟨l, stored, hwf, hbacked⟩ := h
  cases call with
  | insert con contact b callid flags ok =>
    obtain ⟨hmem, hexact, hkey⟩ := hok
    rw [hwf.chain_eq] at hkey
    simp only [Call.run] at hs
    obtain ⟨hcon, ⟨⟩⟩ := Option.ite_none_left_eq_some.mp hs
    have hconl : con ∉ l := fun hin => hcon (hwf.mem_iff.mp hin)
    obtain ⟨l₁, l₂, rfl, hwf', -⟩ := memInsertUcontact_wf hwf hconl desc
      (newUcontact contact b callid flags)
    refine ⟨l₁ ++ con :: l₂, stored, hwf', ?_⟩
    have hins : Backed col stored s.rows (con :: (l₁ ++ l₂)) (Function.update s.record.mem con
          (newUcontact contact b callid flags)) := by
      apply hbacked.insert (nodup_cons.mpr ⟨hconl, hwf.nodup⟩) rfl hkey
      constructor
      · intro hnew
        exact absurd rfl hnew
      · intro hsync
        cases hsync
      · exact hmem
      · intro _
        exact .inl hexact
    have hmemory : (insertUcontact (writeBack desc reg col) ok s con
          (newUcontact contact b callid flags)).record.mem =
        Function.update s.record.mem con (newUcontact contact b callid flags) :=
      memInsertUcontact_mem ..
    rw [hmemory]
    exact hins.of_perm perm_middle.symm
  | update p b cid set res alloc ok =>
    obtain ⟨halloc, hmem, hexact, hcid⟩ := hok
    simp only [Call.run] at hs
    obtain ⟨hp, ⟨⟩⟩ := Option.ite_none_right_eq_some.mp hs
    rw [updateUcontact, memUpdateUcontact_of_alloc halloc]
    rw [hwf.chain_eq] at hcid
    by_cases hstate : (s.record.mem p).state = .new
    · rw [if_pos hstate] at hcid
      refine StateKept.update hwf hbacked hp ?_ ?_ ?_ hmem hexact _ _ _
      · exact hcid
      · exact fun hnew => absurd hstate hnew
      · rfl
    · rw [if_neg hstate] at hcid
      refine StateKept.update hwf hbacked hp ?_ ?_ ?_ hmem hexact _ _ _
      · exact hbacked.key_other (hwf.mem_iff.mpr hp) hcid
      · exact fun _ => hcid
      · rfl
  | updateBycallid p b contact set res flag alloc ok =>
    obtain ⟨halloc, hmem, hexact⟩ := hok
    simp only [Call.run] at hs
    obtain ⟨hp, ⟨⟩⟩ := Option.ite_none_right_eq_some.mp hs
    rw [updateUcontactBycallid, memUpdateUcontactBycallid_of_alloc halloc]
    refine StateKept.update hwf hbacked hp ?_ ?_ ?_ hmem hexact _ _ _
    · exact hbacked.key_other (hwf.mem_iff.mpr hp) rfl
    · exact fun _ => rfl
    · rfl
  | delete p ok =>
    simp only [Call.run] at hs
    obtain ⟨hp, ⟨⟩⟩ := Option.ite_none_right_eq_some.mp hs
    exact StateKept.delete hwf hbacked hp ok
  | moveOnTop p =>
    simp only [Call.run] at hs
    obtain ⟨hp, ⟨⟩⟩ := Option.ite_none_right_eq_some.mp hs
    obtain ⟨l₁, l₂, rfl⟩ := append_of_mem (hwf.mem_iff.mpr hp.2)
    refine ⟨p :: (l₁ ++ l₂), stored, moveOnTop_wf hwf, ?_⟩
    rw [moveOnTop_mem]
    exact hbacked.of_perm perm_middle
  | timer actTime ok =>
    cases hs
    obtain ⟨l', stored', hwf', hbacked', -⟩ := wbTimer_rows hwf hbacked hok
    exact ⟨l', stored', hwf', hbacked'⟩

/-- Two contacts, flushed by the timer; then one is refreshed under a new URI,
the other deleted, and a third one added. -/
def refreshCalls : List Call :=
  [.insert 1 [97] ⟨900, 500, 1, [], none⟩ [49] 0 true,
    .insert 2 [98] ⟨900, 700, 1, [], none⟩ [50] 0 true,
    .timer 100 fun _ => true,
    .updateBycallid 1 ⟨950, 500, 2, [], none⟩ [99] 0 0 1 (fun _ => true) true,
    .delete 2 true,
    .insert 3 [100] ⟨900, 300, 1, [], none⟩ [51] 0 true]

end Msicp.Usrloc
