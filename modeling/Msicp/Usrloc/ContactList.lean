import Mathlib.Data.List.Perm.Subperm
import Msicp.Support.DLink
import Msicp.Usrloc.UContact

/-!
# The contact list of a record

`usrloc/urecord.c`: a record points to the first of its contacts, the contacts
are linked both ways, and every traversal follows the links.  `shm` holds the
addresses of the contacts that are allocated; it bounds the length of a
traversal and nothing in it is looked up.
-/

namespace Msicp.Usrloc

open Function (update)
open Support (Bytes DSeg firstOf lastOf withNull)

/-- The address of a contact. -/
abbrev CPtr := ℕ

structure URecord where
  contacts : Option CPtr
  next : CPtr → Option CPtr
  prev : CPtr → Option CPtr
  mem : CPtr → UContact
  shm : List CPtr

namespace URecord

/-- The links, the first contact being the one behind the null place. -/
def nextOf (r : URecord) : Option CPtr → Option CPtr :=
  withNull r.contacts r.next

/-- The links back.  The source keeps no pointer to the last contact; `last`
stands for it. -/
def prevOf (r : URecord) (last : Option CPtr) : Option CPtr → Option CPtr :=
  withNull last r.prev

/-- The list of a record is `l`, linked both ways. -/
structure Wf (r : URecord) (l : List CPtr) : Prop where
  seg : DSeg r.nextOf (r.prevOf (lastOf none (l.map some))) none (l.map some)
    none
  nodup : l.Nodup
  shm : l.Perm r.shm

/-- The contacts met on the way from `ptr` in at most `n` steps. -/
def walk (r : URecord) : ℕ → Option CPtr → List CPtr
  | 0, _ => []
  | _ + 1, none => []
  | n + 1, some p => p :: walk r n (r.next p)

/-- The contacts of a record in the order of its list. -/
def chain (r : URecord) : List CPtr :=
  r.walk r.shm.length r.contacts

/-! ## Insertion and removal -/

/-- `shm_malloc` and `memset` in `new_ucontact`. -/
def alloc (r : URecord) (p : CPtr) (c : UContact) : URecord :=
  { r with
    mem := update r.mem p c
    next := update r.next p none
    prev := update r.prev p none
    shm := p :: r.shm }

/-- The scan of `mem_insert_ucontact`: the first contact with a smaller q, and
the contact passed last. -/
def scanQ (r : URecord) (q : ℤ) : ℕ → Option CPtr → Option CPtr → Option CPtr × Option CPtr
  | 0, ptr, prev => (ptr, prev)
  | _ + 1, none, prev => (none, prev)
  | n + 1, some p, prev =>
    if (r.mem p).q < q then (some p, prev)
    else scanQ r q n (r.next p) (some p)

/-- The contact `con` linked in front of `ptr`, or behind `prev` when the scan
reached the end. -/
def linkIn (r : URecord) (con : CPtr) (ptr prev : Option CPtr) : URecord :=
  match ptr with
  | some p =>
    match r.prev p with
    | none =>
      { r with
        prev := update r.prev p (some con)
        next := update r.next con (some p)
        contacts := some con }
    | some before =>
      { r with
        next := update (update r.next con (some p)) before (some con)
        prev := update (update r.prev con (some before)) p (some con) }
  | none =>
    match prev with
    | some last =>
      { r with
        next := update r.next last (some con)
        prev := update r.prev con (some last) }
    | none => { r with contacts := some con }

def memInsertUcontact (descTimeOrder : Bool) (r : URecord) (con : CPtr) (c : UContact) : URecord :=
  let r := r.alloc con c
  let at_ :=
    if descTimeOrder then (r.contacts, none)
    else r.scanQ c.q r.shm.length r.contacts none
  r.linkIn con at_.1 at_.2

/-- `if (ptr) ptr->prev = v` -/
def setPrev (prev : CPtr → Option CPtr) (ptr v : Option CPtr) : CPtr → Option CPtr :=
  match ptr with
  | some p => update prev p v
  | none => prev

/-- Also `remove_cont` in `registrar/save.c`, which is the same text. -/
def memRemoveUcontact (r : URecord) (p : CPtr) : URecord :=
  match r.prev p with
  | some before =>
    { r with
      next := update r.next before (r.next p)
      prev := setPrev r.prev (r.next p) (r.prev p) }
  | none =>
    { r with
      contacts := r.next p
      prev := setPrev r.prev (r.next p) none }

def memDeleteUcontact (r : URecord) (p : CPtr) : URecord :=
  { r.memRemoveUcontact p with shm := r.shm.erase p }

/-- `move_on_top` in `registrar/save.c`. -/
def moveOnTop (r : URecord) (p : CPtr) : URecord :=
  match r.contacts, r.prev p with
  | none, _ => r
  | some _, none => r
  | some _, some _ =>
    let r := r.memRemoveUcontact p
    match r.contacts with
    | some first =>
      { r with
        next := update r.next p (some first)
        prev := update (update r.prev p none) first (some p)
        contacts := some p }
    | none => r

/-- The values of a contact changed in place. -/
def setContact (r : URecord) (p : CPtr) (c : UContact) : URecord :=
  { r with mem := update r.mem p c }

/-! ## Lookups -/

/-- The first contact from `ptr` on that satisfies a test. -/
def findFrom (r : URecord) (test : UContact → Bool) : ℕ → Option CPtr → Option CPtr
  | 0, _ => none
  | _ + 1, none => none
  | n + 1, some p =>
    if test (r.mem p) then some p else findFrom r test n (r.next p)

/-- The part of a URI in front of its parameters. -/
def uriKey (uri : Bytes) : Bytes :=
  uri.takeWhile (· ≠ 59)

/-- The contact that `lookup` in `registrar/lookup.c` rewrites the Request-URI
to: the first valid one. -/
def lookup (r : URecord) (actTime : ℕ) : Option CPtr :=
  r.findFrom (fun x => x.valid actTime) r.shm.length r.contacts

/-! ## Timers -/

/-- The loop that the three timers share.  An expired contact is dealt with by
`expire` and deleted, the others by `flush`. -/
def timerLoop {δ : Type*} (actTime : ℕ) (expire : CPtr → UContact → δ → δ)
    (flush : CPtr → UContact → δ → UContact × δ) :
    ℕ → Option CPtr → URecord → δ → URecord × δ
  | 0, _, r, db => (r, db)
  | _ + 1, none, r, db => (r, db)
  | n + 1, some p, r, db =>
    if (r.mem p).valid actTime then
      let (c, db) := flush p (r.mem p) db
      timerLoop actTime expire flush n (r.next p) (r.setContact p c) db
    else
      timerLoop actTime expire flush n (r.next p) (r.memDeleteUcontact p) (expire p (r.mem p) db)

end URecord

end Msicp.Usrloc

/-!
## What the list functions of a record do

Every function of `urecord.c` on the contact list, as an operation on the
sequence of contacts: insertion at the place the scan finds, removal, the
first contact with a property, and a rule for the timer loop.
-/

namespace Msicp.Usrloc

open Function (update update_self update_of_ne update_eq_self_iff)
open Support (Bytes DSeg firstOf lastOf withNull withNull_update withNull_end
  none_notMem nodup_map_some firstOf_map_some lastOf_map_some)

namespace URecord

variable {r : URecord} {l l₁ l₂ : List CPtr} {p con : CPtr} {c : UContact}

theorem Wf.mem_iff (h : r.Wf l) : p ∈ l ↔ p ∈ r.shm :=
  h.shm.mem_iff

theorem Wf.length_eq (h : r.Wf l) : l.length = r.shm.length :=
  h.shm.length_eq

theorem Wf.head (h : r.Wf l) : r.contacts = l.head? := by
  have hfirst := h.seg.next_first
  rwa [firstOf_map_some] at hfirst

theorem Wf.next_cut (h : r.Wf (l₁ ++ p :: l₂)) : r.next p = l₂.head? := by
  have hseg := h.seg
  rw [List.map_append, List.map_cons] at hseg
  have hnext := (DSeg.append.1 hseg).2.next_first
  rwa [firstOf_map_some] at hnext

theorem Wf.prev_cut (h : r.Wf (l₁ ++ p :: l₂)) : r.prev p = l₁.getLast? := by
  have hseg := h.seg
  rw [List.map_append, List.map_cons] at hseg
  have hprev := (DSeg.append.1 hseg).1.prev_last
  rwa [lastOf_map_some] at hprev

theorem Wf.walk (h : r.Wf (l₁ ++ l₂)) {n : ℕ} (hn : l₂.length ≤ n) : r.walk n l₂.head? = l₂ := by
  induction l₂ generalizing l₁ n with
  | nil => cases n <;> rfl
  | cons p l₂ ih =>
    obtain ⟨m, rfl⟩ : ∃ m, n = m + 1 := ⟨n - 1, by simp at hn; omega⟩
    have hrest : r.Wf ((l₁ ++ [p]) ++ l₂) := by
      rw [List.append_assoc]
      exact h
    rw [List.head?_cons, URecord.walk, h.next_cut, ih hrest (by simpa using hn)]

theorem Wf.chain_eq (h : r.Wf l) : r.chain = l := by
  have hwalk : r.Wf ([] ++ l) := h
  rw [chain, h.head]
  exact hwalk.walk h.length_eq.le

/-! ## Insertion -/

/-- A contact linked in where its neighbours are known. -/
theorem linkIn_seg (hseg : DSeg r.nextOf (r.prevOf (lastOf none ((l₁ ++ l₂).map some))) none
      ((l₁ ++ l₂).map some) none)
    (hl : (l₁ ++ l₂).Nodup) (hcon : con ∉ l₁ ++ l₂)
    (hnext : r.next con = none) (hprev : r.prev con = none) :
    DSeg (r.linkIn con l₂.head? l₁.getLast?).nextOf ((r.linkIn con l₂.head? l₁.getLast?).prevOf
        (lastOf none ((l₁ ++ con :: l₂).map some)))
      none ((l₁ ++ con :: l₂).map some) none := by
  rw [List.map_append] at hseg
  have hins := hseg.insert (x := some con) (by rw [← List.map_append]; exact nodup_map_some hl)
    (by rw [← List.map_append]; exact none_notMem _)
    (by rw [← List.map_append]; exact none_notMem _)
    (by rw [← List.map_append]; simpa using hcon) (by simp) (by simp)
  have hnextOf : update r.nextOf (some con) none = r.nextOf :=
    update_eq_self_iff.mpr hnext.symm
  have hprevOf : ∀ e, update (r.prevOf e) (some con) none = r.prevOf e :=
    fun e => update_eq_self_iff.mpr hprev.symm
  have hcut := hseg.prev_cut
  rw [List.map_append, List.map_cons]
  rw [firstOf_map_some, lastOf_map_some] at hins hcut
  rcases l₁.eq_nil_or_concat with rfl | ⟨l₁', b, rfl⟩
  · cases l₂ with
    | nil =>
      simp only [List.head?_nil, List.getLast?_nil, hnextOf, hprevOf] at hins
      simp only [linkIn, List.head?_nil, List.getLast?_nil]
      refine hins.congr ?_ ?_
      · intro y _
        rw [nextOf, nextOf, withNull_end r.contacts]
      · intro y _
        rw [prevOf, prevOf, withNull_end]
        rfl
    | cons p l₂ =>
      have hp : r.prev p = none := hcut
      simp only [List.head?_cons, List.getLast?_nil, hprevOf] at hins
      simp only [linkIn, List.head?_cons, hp]
      refine hins.congr ?_ ?_
      · intro y _
        rw [nextOf, nextOf, withNull_end r.contacts, withNull_update]
      · intro y _
        rw [prevOf, prevOf, withNull_update]
        simp
  · rw [List.concat_eq_append, List.getLast?_concat] at hins hcut
    rw [List.concat_eq_append, List.getLast?_concat]
    cases l₂ with
    | nil =>
      simp only [List.head?_nil, hnextOf] at hins
      simp only [linkIn, List.head?_nil]
      refine hins.congr ?_ ?_
      · intro y _
        rw [nextOf, nextOf, withNull_update]
      · intro y _
        rw [prevOf, prevOf, withNull_end (some b), withNull_update]
        simp [lastOf]
    | cons p l₂ =>
      have hp : r.prev p = some b := hcut
      simp only [List.head?_cons] at hins
      simp only [linkIn, List.head?_cons, hp]
      refine hins.congr ?_ ?_
      · intro y _
        rw [nextOf, nextOf, withNull_update, withNull_update]
      · intro y _
        rw [prevOf, prevOf, withNull_update, withNull_update]
        simp [lastOf]

@[simp] theorem alloc_mem (r : URecord) (p : CPtr) (c : UContact) :
    (r.alloc p c).mem = update r.mem p c := rfl

@[simp] theorem linkIn_mem (r : URecord) (con : CPtr)
    (ptr prev : Option CPtr) : (r.linkIn con ptr prev).mem = r.mem := by
  unfold linkIn
  split
  · split <;> rfl
  · split <;> rfl

@[simp] theorem linkIn_shm (r : URecord) (con : CPtr)
    (ptr prev : Option CPtr) : (r.linkIn con ptr prev).shm = r.shm := by
  unfold linkIn
  split
  · split <;> rfl
  · split <;> rfl

/-- A block outside of the list does not touch it. -/
theorem alloc_seg {e : Option CPtr}
    (h : DSeg r.nextOf (r.prevOf e) none (l.map some) none) (hcon : con ∉ l)
    (c : UContact) :
    DSeg (r.alloc con c).nextOf ((r.alloc con c).prevOf e) none (l.map some)
      none := by
  have hmem : some con ∉ l.map some := by simpa using hcon
  have hnext : (r.alloc con c).nextOf = update r.nextOf (some con) none :=
    withNull_update ..
  have hprev : (r.alloc con c).prevOf e = update (r.prevOf e) (some con) none := withNull_update ..
  rw [hnext, hprev]
  exact (h.update_next (by simp) hmem).update_prev (by simp) hmem

/-- The scan passes the contacts in front whose q is not smaller and stops at
the first one with a smaller q. -/
theorem scanQ_spec {q : ℤ} {n : ℕ}
    (hseg : ∀ m₁ p m₂, l₁ ++ l₂ = m₁ ++ p :: m₂ → r.next p = m₂.head?)
    (hn : l₂.length ≤ n) :
    ∃ k₁ k₂, l₂ = k₁ ++ k₂ ∧ r.scanQ q n l₂.head? l₁.getLast? = (k₂.head?, (l₁ ++ k₁).getLast?) ∧
      (∀ p ∈ k₁, q ≤ (r.mem p).q) ∧
      (∀ p, k₂.head? = some p → (r.mem p).q < q) := by
  induction l₂ generalizing l₁ n with
  | nil =>
    refine ⟨[], [], rfl, ?_, by simp, by simp⟩
    rw [List.append_nil]
    cases n <;> rfl
  | cons p l₂ ih =>
    obtain ⟨m, rfl⟩ : ∃ m, n = m + 1 := ⟨n - 1, by simp at hn; omega⟩
    rw [List.head?_cons, scanQ]
    by_cases hq : (r.mem p).q < q
    · rw [if_pos hq]
      refine ⟨[], p :: l₂, rfl, ?_, by simp, ?_⟩
      · rw [List.append_nil]
        rfl
      · intro x hx
        cases hx
        exact hq
    · rw [if_neg hq, hseg l₁ p l₂ rfl]
      have hseg' : ∀ m₁ x m₂, (l₁ ++ [p]) ++ l₂ = m₁ ++ x :: m₂ → r.next x = m₂.head? := by
        intro m₁ x m₂ heq
        rw [List.append_assoc] at heq
        exact hseg m₁ x m₂ heq
      obtain ⟨k₁, k₂, rfl, hscan, hge, hlt⟩ :=
        ih hseg' (by simpa using hn)
      rw [List.getLast?_concat] at hscan
      refine ⟨p :: k₁, k₂, rfl, ?_, ?_, hlt⟩
      · rw [hscan, List.append_assoc]
        rfl
      · intro x hx
        rcases List.mem_cons.mp hx with rfl | hx
        · exact not_lt.mp hq
        · exact hge x hx

/-- The new contact stands between two parts of the list; unless contacts are
ordered by time, those in front have at least its q and the one behind it has
a smaller q. -/
theorem memInsertUcontact_wf (h : r.Wf l) (hcon : con ∉ l) (desc : Bool) (c : UContact) :
    ∃ l₁ l₂, l = l₁ ++ l₂ ∧ (r.memInsertUcontact desc con c).Wf (l₁ ++ con :: l₂) ∧
      (desc = false → (∀ p ∈ l₁, c.q ≤ (r.mem p).q) ∧
        ∀ p, l₂.head? = some p → (r.mem p).q < c.q) := by
  have hseg := alloc_seg h.seg hcon c
  have hmem : ∀ p ∈ l, (r.alloc con c).mem p = r.mem p := by
    intro p hp
    apply update_of_ne
    exact fun heq => hcon (heq ▸ hp)
  have hlink : ∀ l₁ l₂, l = l₁ ++ l₂ → ((r.alloc con c).linkIn con l₂.head? l₁.getLast?).Wf
        (l₁ ++ con :: l₂) := by
    intro l₁ l₂ hl
    subst hl
    refine ⟨?_, ?_, ?_⟩
    · exact linkIn_seg hseg h.nodup hcon (update_self ..) (update_self ..)
    · exact List.nodup_middle.mpr (List.nodup_cons.mpr ⟨hcon, h.nodup⟩)
    · rw [linkIn_shm]
      exact List.perm_middle.trans (h.shm.cons con)
  have hhead : (r.alloc con c).contacts = l.head? := h.head
  cases desc with
  | true =>
    refine ⟨[], l, rfl, ?_, by simp⟩
    rw [memInsertUcontact, if_pos rfl, hhead]
    exact hlink [] l rfl
  | false =>
    have hnext : ∀ m₁ p m₂, [] ++ l = m₁ ++ p :: m₂ → (r.alloc con c).next p = m₂.head? := by
      intro m₁ p m₂ hl
      have hl' : l = m₁ ++ p :: m₂ := hl
      have hpcon : p ≠ con := fun heq => hcon (by simp [hl', heq])
      subst hl'
      exact (update_of_ne hpcon ..).trans h.next_cut
    have hlen : l.length ≤ (r.alloc con c).shm.length := by
      rw [h.length_eq]
      exact Nat.le_succ _
    obtain ⟨l₁, l₂, rfl, hscan, hge, hlt⟩ := scanQ_spec (q := c.q) hnext hlen
    refine ⟨l₁, l₂, rfl, ?_, fun _ => ⟨?_, ?_⟩⟩
    · have hat : (r.alloc con c).scanQ c.q (r.alloc con c).shm.length
          (r.alloc con c).contacts none = (l₂.head?, l₁.getLast?) := by
        rw [hhead]
        exact hscan
      simp only [memInsertUcontact, Bool.false_eq_true, if_false, hat]
      exact hlink l₁ l₂ rfl
    · intro p hp
      rw [← hmem p (List.mem_append_left _ hp)]
      exact hge p hp
    · intro p hp
      rw [← hmem p (List.mem_append_right _ (List.mem_of_head? hp))]
      exact hlt p hp

@[simp] theorem memInsertUcontact_mem (r : URecord) (desc : Bool) (con : CPtr) (c : UContact) :
    (r.memInsertUcontact desc con c).mem = update r.mem con c :=
  linkIn_mem ..

/-! ## Removal -/

theorem memRemoveUcontact_seg (h : r.Wf (l₁ ++ p :: l₂)) : DSeg (r.memRemoveUcontact p).nextOf
      ((r.memRemoveUcontact p).prevOf (lastOf none ((l₁ ++ l₂).map some)))
      none ((l₁ ++ l₂).map some) none := by
  have hseg := h.seg
  have hnodup := nodup_map_some h.nodup
  have hnone := none_notMem (l₁ ++ p :: l₂)
  rw [List.map_append, List.map_cons] at hseg hnodup hnone
  have hrem := hseg.remove hnodup hnone hnone
  rw [List.map_append]
  have hnext : (r.memRemoveUcontact p).nextOf = update r.nextOf (r.prev p) (r.next p) := by
    unfold memRemoveUcontact
    cases hp : r.prev p with
    | none => exact withNull_end ..
    | some before => exact withNull_update ..
  have hprev : (r.memRemoveUcontact p).prevOf (lastOf none (l₁.map some ++ l₂.map some)) =
      update (r.prevOf (lastOf none (l₁.map some ++ some p :: l₂.map some)))
        (r.next p) (r.prev p) := by
    have hprevs : (r.memRemoveUcontact p).prev = setPrev r.prev (r.next p) (r.prev p) := by
      unfold memRemoveUcontact
      cases hp : r.prev p with
      | none => rfl
      | some before => rfl
    rw [prevOf, hprevs, h.next_cut]
    cases l₂ with
    | nil =>
      rw [h.prev_cut, ← lastOf_map_some l₁, List.map_nil, List.append_nil]
      exact withNull_end ..
    | cons after l₂ =>
      rw [List.head?_cons, setPrev, withNull_update, prevOf]
      simp [lastOf]
  rw [hnext, hprev]
  exact hrem

@[simp] theorem memRemoveUcontact_mem (r : URecord) (p : CPtr) :
    (r.memRemoveUcontact p).mem = r.mem := by
  unfold memRemoveUcontact
  split <;> rfl

@[simp] theorem memRemoveUcontact_shm (r : URecord) (p : CPtr) :
    (r.memRemoveUcontact p).shm = r.shm := by
  unfold memRemoveUcontact
  split <;> rfl

theorem memDeleteUcontact_wf (h : r.Wf (l₁ ++ p :: l₂)) :
    (r.memDeleteUcontact p).Wf (l₁ ++ l₂) := by
  obtain ⟨hp, hnodup⟩ := List.nodup_cons.mp (List.nodup_middle.mp h.nodup)
  refine ⟨memRemoveUcontact_seg h, hnodup, ?_⟩
  have hperm : (p :: (l₁ ++ l₂)).Perm r.shm :=
    List.perm_middle.symm.trans h.shm
  have herase := hperm.erase p
  rwa [List.erase_cons_head] at herase

@[simp] theorem memDeleteUcontact_mem (r : URecord) (p : CPtr) :
    (r.memDeleteUcontact p).mem = r.mem :=
  memRemoveUcontact_mem r p

theorem moveOnTop_wf (h : r.Wf (l₁ ++ p :: l₂)) : (r.moveOnTop p).Wf (p :: (l₁ ++ l₂)) := by
  rcases l₁.eq_nil_or_concat with rfl | ⟨l₁', b, rfl⟩
  · have hprev : r.prev p = none := h.prev_cut
    have htop : r.moveOnTop p = r := by
      unfold moveOnTop
      rw [hprev]
      cases r.contacts with
      | none => rfl
      | some first => rfl
    rw [htop]
    exact h
  · rw [List.concat_eq_append] at h ⊢
    have hprev : r.prev p = some b := by
      rw [h.prev_cut, List.getLast?_concat]
    have hp : p ∉ (l₁' ++ [b]) ++ l₂ :=
      (List.nodup_cons.mp (List.nodup_middle.mp h.nodup)).1
    have hseg := memRemoveUcontact_seg h
    obtain ⟨first, rest, hfirst⟩ : ∃ first rest, (l₁' ++ [b]) ++ l₂ = first :: rest :=
      List.exists_cons_of_ne_nil (by simp)
    have hnodup : (first :: rest).Nodup :=
      hfirst ▸ (List.nodup_cons.mp (List.nodup_middle.mp h.nodup)).2
    rw [hfirst] at hp hseg ⊢
    have hhead : (r.memRemoveUcontact p).contacts = some first := by
      have hnext := hseg.next_first
      exact hnext
    obtain ⟨top, htop⟩ : ∃ top, r.contacts = some top := by
      rw [h.head]
      cases hl : (l₁' ++ [b]) ++ p :: l₂ with
      | nil => simp at hl
      | cons top rest => exact ⟨top, rfl⟩
    have hback : (r.memRemoveUcontact p).prev first = none := hseg.prev_first
    have hfirstp : first ≠ p := fun heq => hp (heq ▸ List.mem_cons_self)
    -- unlinked, the contact is as good as a new one
    have hnew : DSeg (((r.memRemoveUcontact p).alloc p (r.mem p)).linkIn p (some first) none).nextOf
        ((((r.memRemoveUcontact p).alloc p (r.mem p)).linkIn p (some first)
          none).prevOf (lastOf none ((p :: first :: rest).map some)))
        none ((p :: first :: rest).map some) none :=
      @linkIn_seg _ [] (first :: rest) p (alloc_seg hseg hp (r.mem p)) hnodup
        hp (update_self ..) (update_self ..)
    have hmove : r.moveOnTop p =
        { r.memRemoveUcontact p with
          next := update (r.memRemoveUcontact p).next p (some first)
          prev := update (update (r.memRemoveUcontact p).prev p none) first (some p)
          contacts := some p } := by
      simp only [moveOnTop, htop, hprev, hhead]
    have hlink : ((r.memRemoveUcontact p).alloc p (r.mem p)).prev first =
        none := (update_of_ne hfirstp ..).trans hback
    simp only [linkIn, hlink] at hnew
    rw [hmove]
    refine ⟨?_, ?_, ?_⟩
    · refine hnew.congr ?_ ?_
      · intro y _
        simp only [nextOf, alloc, Function.update_idem]
      · intro y _
        rfl
    · exact List.nodup_cons.mpr ⟨hp, hnodup⟩
    · rw [← hfirst]
      exact List.perm_middle.symm.trans (h.shm.trans (by simp))

@[simp] theorem moveOnTop_mem (r : URecord) (p : CPtr) : (r.moveOnTop p).mem = r.mem := by
  unfold moveOnTop
  cases r.contacts with
  | none => rfl
  | some top =>
    cases r.prev p with
    | none => rfl
    | some before =>
      simp only
      cases (r.memRemoveUcontact p).contacts with
      | none => exact memRemoveUcontact_mem r p
      | some first => exact memRemoveUcontact_mem r p

theorem setContact_wf (h : r.Wf l) : (r.setContact p c).Wf l :=
  ⟨h.seg, h.nodup, h.shm⟩

@[simp] theorem setContact_mem (r : URecord) (p : CPtr) (c : UContact) :
    (r.setContact p c).mem = update r.mem p c := rfl

/-! ## Lookups -/

theorem findFrom_eq (r : URecord) (test : UContact → Bool) (n : ℕ) (ptr : Option CPtr) :
    r.findFrom test n ptr = (r.walk n ptr).find? fun p => test (r.mem p) := by
  induction n generalizing ptr with
  | zero => rfl
  | succ n ih =>
    cases ptr with
    | none => rfl
    | some p =>
      rw [findFrom, URecord.walk, List.find?_cons]
      cases test (r.mem p) with
      | true => rfl
      | false => exact ih _

theorem lookup_eq (r : URecord) (actTime : ℕ) :
    r.lookup actTime = r.chain.find? fun p => (r.mem p).valid actTime :=
  findFrom_eq ..

/-! ## The timer loop -/

section Timer

variable {δ : Type*} {actTime : ℕ} {expire : CPtr → UContact → δ → δ}
  {flush : CPtr → UContact → δ → UContact × δ}

/-- The rule of the timer loop.  `Inv kept todo mem db` is kept by the removal
of an expired contact and by the treatment of a valid one, which joins the
contacts kept. -/
theorem timerLoop_rule (Inv : List CPtr → List CPtr → (CPtr → UContact) → δ → Prop)
    (hexpire : ∀ kept p todo mem db, (kept ++ p :: todo).Nodup →
      Inv kept (p :: todo) mem db → (mem p).valid actTime = false →
      Inv kept todo mem (expire p (mem p) db))
    (hflush : ∀ kept p todo mem db, (kept ++ p :: todo).Nodup →
      Inv kept (p :: todo) mem db → (mem p).valid actTime = true →
      Inv (kept ++ [p]) todo (update mem p (flush p (mem p) db).1) (flush p (mem p) db).2)
    {kept todo : List CPtr} {n : ℕ} {db : δ} (h : r.Wf (kept ++ todo))
    (hn : todo.length ≤ n) (hinv : Inv kept todo r.mem db) :
    ∃ l', (timerLoop actTime expire flush n todo.head? r db).1.Wf l' ∧
      Inv l' [] (timerLoop actTime expire flush n todo.head? r db).1.mem
        (timerLoop actTime expire flush n todo.head? r db).2 := by
  induction todo generalizing kept n r db with
  | nil =>
    refine ⟨kept, ?_⟩
    rw [List.append_nil] at h
    cases n with
    | zero => exact ⟨h, hinv⟩
    | succ n => exact ⟨h, hinv⟩
  | cons p todo ih =>
    obtain ⟨m, rfl⟩ : ∃ m, n = m + 1 := ⟨n - 1, by simp at hn; omega⟩
    rw [List.head?_cons, timerLoop, h.next_cut]
    cases hvalid : (r.mem p).valid actTime with
    | true =>
      have hwf : (r.setContact p (flush p (r.mem p) db).1).Wf ((kept ++ [p]) ++ todo) := by
        rw [List.append_assoc]
        exact setContact_wf h
      rw [if_pos rfl]
      exact ih hwf (by simpa using hn) (hflush kept p todo r.mem db h.nodup hinv hvalid)
    | false =>
      rw [if_neg (by simp)]
      apply ih (memDeleteUcontact_wf h) (by simpa using hn)
      rw [memDeleteUcontact_mem]
      exact hexpire kept p todo r.mem db h.nodup hinv hvalid

end Timer

end URecord

end Msicp.Usrloc
