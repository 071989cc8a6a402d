import Msicp.Registrar.Save
import Msicp.Support.Slots

/-!
# What a contact of a request does to a record

The contacts of a record fall into slots, one for each URI as `get_ucontact`
compares it.  A contact of a request touches the slot of its own URI, at the
first contact of that slot, and leaves the other slots alone.
-/

namespace Msicp.Registrar

open Msicp.Support List
open Msicp.Usrloc

/-- The part of the URI of a contact that `get_ucontact` compares. -/
def uriOf (c : UContact) : Bytes := URecord.uriKey c.c

/-- The contact goes at once when it is deleted; otherwise it stays, expired,
until the timer has removed its row. -/
def removable (mode : DbMode) (c : UContact) : Bool :=
  (stDeleteUcontact mode c).2

/-- The flag `FL_PERMANENT`. -/
def permanent (c : UContact) : Bool := c.flags &&& flPermanent != 0

/-- What a contact with the URI `uri` and the expiry `e` does to its slot. -/
inductive Touch (mode : DbMode) (uri : Bytes) (e : ℤ) :
    List UContact → List UContact → Prop
  | skipped (he : e = 0) : Touch mode uri e [] []
  | inserted {c : UContact} (he : e ≠ 0) (hc : c.c = uri)
      (hexp : c.expires = e) (hperm : permanent c = false)
      (hrem : removable mode c = true) : Touch mode uri e [] [c]
  | removed {u : UContact} {l : List UContact} (he : e = 0)
      (hrem : removable mode u = true) : Touch mode uri e (u :: l) l
  | buried {u u' : UContact} {l : List UContact} (he : e = 0)
      (hrem : removable mode u = false) (hc : u'.c = u.c)
      (hexp : u'.expires = 0) (hperm : permanent u' = false)
      (hrem' : removable mode u' = false) :
      Touch mode uri e (u :: l) (u' :: l)
  | refreshed {u u' : UContact} {l : List UContact} (he : e ≠ 0)
      (hc : u'.c = u.c) (hexp : u'.expires = e)
      (hperm : permanent u' = permanent u)
      (hrem : removable mode u' = removable mode u) :
      Touch mode uri e (u :: l) (u' :: l)

/-! ## Flags and states of one contact -/

section Contact

variable {mode : DbMode} {c u : UContact}

theorem removable_iff : removable mode c = true ↔ c.state = .new ∨ mode ≠ .writeBack := by
  unfold removable stDeleteUcontact
  cases hstate : c.state with
  | new => simp
  | sync => by_cases hmode : mode = .writeBack <;> simp [hmode]
  | dirty => by_cases hmode : mode = .writeBack <;> simp [hmode]

theorem removable_congr (h : u.state = .new ↔ c.state = .new) :
    removable mode u = removable mode c := by
  rw [Bool.eq_iff_iff, removable_iff, removable_iff, h]

theorem stDelete_of_not_removable (h : removable mode c = false) : (stDeleteUcontact mode c).1 =
      { c with flags := c.flags &&& ~~~flPermanent, expires := 0 } := by
  unfold removable stDeleteUcontact at h
  unfold stDeleteUcontact
  cases hstate : c.state with
  | new => simp [hstate] at h
  | sync =>
    by_cases hmode : mode = .writeBack
    · simp [hmode]
    · simp [hstate, hmode] at h
  | dirty =>
    by_cases hmode : mode = .writeBack
    · simp [hmode]
    · simp [hstate, hmode] at h

theorem removable_setMem (mode : DbMode) (memOnly : BitVec 32) :
    removable mode (setMem memOnly u) = removable mode u :=
  removable_congr Iff.rfl

theorem permanent_flags {f set res : BitVec 32} (hset : set &&& flPermanent = 0)
    (hres : res &&& flPermanent = 0) :
    (f ||| set) &&& ~~~res &&& flPermanent = f &&& flPermanent := by
  apply BitVec.eq_of_getLsbD_eq
  intro i _
  have hs := congrArg (fun v => v.getLsbD i) hset
  have hr := congrArg (fun v => v.getLsbD i) hres
  simp only [BitVec.getLsbD_and] at hs hr
  simp only [BitVec.getLsbD_and, BitVec.getLsbD_or, BitVec.getLsbD_not]
  grind

theorem permanent_zombie : (c.flags &&& ~~~flPermanent) &&& flPermanent = 0 := by
  rw [BitVec.and_assoc, BitVec.and_comm (~~~flPermanent)]
  simp

variable (m : Request) (entry : Entry)

theorem nated_permanent : (m.nated ||| entry.memOnly) &&& flPermanent = 0 := by
  unfold Request.nated
  cases m.natFlag <;> cases entry <;> decide

theorem reset_permanent : (~~~(m.nated ||| entry.memOnly) &&& (flNat ||| flMem)) &&& flPermanent =
      0 := by
  unfold Request.nated
  cases m.natFlag <;> cases entry <;> decide

end Contact

/-! ## The operations on the record -/

section Operations

variable {o : Order} {l l₁ l₂ : List UContact} {c u : UContact}

theorem insertUcontact_place : ∃ a b state, l = a ++ b ∧
      insertUcontact o c l = a ++ { c with state := state } :: b ∧
      (o.mode = .writeBack → state = c.state) := by
  unfold insertUcontact memInsert
  have hmode : o.mode = .writeBack →
      (if o.mode = .writeThrough then CState.sync else c.state) = c.state := by
    intro h
    simp [h]
  cases o.descTimeOrder with
  | true => exact ⟨[], l, _, rfl, rfl, hmode⟩
  | false => exact ⟨_, _, _, (takeWhile_append_dropWhile ..).symm, rfl, hmode⟩

theorem deleteUcontact_removable (h : removable o.mode u = true) :
    deleteUcontact o (l₁ ++ c :: l₂) l₁.length u = l₁ ++ l₂ := by
  have hdel : (stDeleteUcontact o.mode u).2 = true := h
  rw [deleteUcontact, if_pos hdel, eraseIdx_middle]

theorem deleteUcontact_buried (h : removable o.mode u = false) :
    deleteUcontact o (l₁ ++ c :: l₂) l₁.length u = l₁ ++ (stDeleteUcontact o.mode u).1 :: l₂ := by
  rw [deleteUcontact, if_neg (by simpa [removable] using h), set_middle]

theorem place_moved (l₁ l₂ : List UContact) (c : UContact) (b : Bool) :
    ∃ a d, a ++ d = l₁ ++ l₂ ∧ (∀ x ∈ a, x ∈ l₁) ∧
      (if b then moveOnTop (l₁ ++ c :: l₂) l₁.length else l₁ ++ c :: l₂) =
        a ++ c :: d := by
  cases b with
  | false => exact ⟨l₁, l₂, rfl, fun _ hx => hx, rfl⟩
  | true =>
    refine ⟨[], l₁ ++ l₂, rfl, by simp, ?_⟩
    rw [if_pos rfl, moveOnTop_middle]
    rfl

theorem memUpdateUcontact_key (alloc : StrField → Bool) (b : Binding)
    (cid : Bytes) (set res : BitVec 32) :
    (memUpdateUcontact alloc u b cid set res).1.c = u.c ∧
      (memUpdateUcontact alloc u b cid set res).1.state = u.state := by
  unfold memUpdateUcontact memUpdateRest
  repeat' split
  all_goals exact ⟨rfl, rfl⟩

theorem memUpdateUcontact_done {alloc : StrField → Bool} {b : Binding}
    {cid : Bytes} {set res : BitVec 32}
    (h : (memUpdateUcontact alloc u b cid set res).2 = true) :
    (memUpdateUcontact alloc u b cid set res).1 =
      ({ u with callid := cid } : UContact).refresh b set res := by
  unfold memUpdateUcontact memUpdateRest setStr at *
  split at h
  · simp at h
  · rename_i hkey
    split at h
    · simp at h
    · rename_i hua
      split at h
      · simp at h
      · rename_i hrec
        simp only [Option.ite_none_left_eq_some, Option.some.injEq] at hkey hua hrec
        rw [← hkey.2, ← hua.2, ← hrec.2]
        simp [UContact.refresh]

theorem stUpdateUcontact_spec (mode : DbMode) (u : UContact) :
    stUpdateUcontact mode u =
        { u with state := (stUpdateUcontact mode u).state } ∧
      ((stUpdateUcontact mode u).state = .new ↔ u.state = .new) := by
  obtain ⟨uri, received, expires, q, callid, cseq, state, flags, ua⟩ := u
  unfold stUpdateUcontact
  cases state with
  | new => exact ⟨rfl, Iff.rfl⟩
  | sync => by_cases hmode : mode = .writeBack <;> simp [hmode]
  | dirty => exact ⟨rfl, Iff.rfl⟩

end Operations

/-! ## One turn of the loop of `update` -/

section Update

variable {par : Params} {actTime : ℕ} {entry : Entry} {mem : Memory}
variable {m : Request} {k : ℕ} {l l' : List UContact} {c : ContactT}

theorem binding_expires {b : Binding} (h : binding par actTime m c = .ok b) :
    b.expires = calcContactExpires par actTime m c := by
  unfold binding at h
  split at h
  · simp at h
  · split at h
    · simp at h
    · exact (Except.ok.inj h).symm ▸ rfl

/-- The contacts `old` of a record, all of them with the key `K` and in front
of the others with that key, are replaced by `new`, and the rest is kept. -/
structure Splice (K : Bytes) (l l' old new : List UContact) : Prop where
  old_key : ∀ y ∈ old, uriOf y = K
  new_key : ∀ y ∈ new, uriOf y = K
  parts : ∃ l₁ l₂ a d, l = l₁ ++ (old ++ l₂) ∧ l' = a ++ (new ++ d) ∧
    a ++ d = l₁ ++ l₂ ∧ (∀ y ∈ l₁, uriOf y ≠ K) ∧ ∀ y ∈ a, uriOf y ≠ K

namespace Splice

variable {K : Bytes} {old new : List UContact}

theorem slot_all {L : List UContact} (h : ∀ y ∈ L, uriOf y = K) : slot uriOf K L = L :=
  filter_eq_self.mpr fun y hy => by simpa using h y hy

theorem frame (h : Splice K l l' old new) {K' : Bytes} (hK : K' ≠ K) :
    slot uriOf K' l' = slot uriOf K' l := by
  obtain ⟨l₁, l₂, a, d, rfl, rfl, hsame, -, -⟩ := h.parts
  have hold : slot uriOf K' old = [] :=
    slot_eq_nil.mpr fun y hy hy' => hK (hy'.symm.trans (h.old_key y hy))
  have hnew : slot uriOf K' new = [] :=
    slot_eq_nil.mpr fun y hy hy' => hK (hy'.symm.trans (h.new_key y hy))
  have hslot := congrArg (slot uriOf K') hsame
  simp only [slot_append, hold, hnew, nil_append] at hslot ⊢
  exact hslot

theorem slots (h : Splice K l l' old new) :
    ∃ L, slot uriOf K l = old ++ L ∧ slot uriOf K l' = new ++ L := by
  obtain ⟨l₁, l₂, a, d, rfl, rfl, hsame, hl₁, ha⟩ := h.parts
  have hslot := congrArg (slot uriOf K) hsame
  rw [slot_append, slot_append, slot_eq_nil.mpr hl₁, slot_eq_nil.mpr ha,
    nil_append, nil_append] at hslot
  refine ⟨slot uriOf K l₂, ?_, ?_⟩
  · rw [slot_append, slot_append, slot_eq_nil.mpr hl₁, slot_all h.old_key, nil_append]
  · rw [slot_append, slot_append, slot_eq_nil.mpr ha, slot_all h.new_key, nil_append, hslot]

end Splice

theorem updateContact_absent (hfind : getUcontact l c.uri = none)
    (h : updateContact par actTime entry.memOnly mem m k l c = (l', none)) :
    ∃ new, Splice (URecord.uriKey c.uri) l l' [] new ∧
      Touch par.order.mode c.uri (calcContactExpires par actTime m c) []
        new := by
  have hkey := getUcontact_none.mp hfind
  rw [updateContact, hfind] at h
  dsimp only at h
  by_cases he : calcContactExpires par actTime m c = 0
  · rw [if_pos he] at h
    obtain ⟨rfl, -⟩ := Prod.mk.inj h
    exact ⟨[], ⟨by simp, by simp, l, [], l, [], by simp, by simp, by simp, hkey, hkey⟩, .skipped he⟩
  · rw [if_neg he] at h
    cases hb : binding par actTime m c with
    | error err => rw [hb] at h; simp at h
    | ok b =>
      rw [hb] at h
      cases hmem : mem.contact k with
      | false => simp [hmem] at h
      | true =>
        rw [hmem] at h
        obtain ⟨rfl, -⟩ := Prod.mk.inj h
        obtain ⟨a, d, state, rfl, hins, hstate⟩ :=
          insertUcontact_place (o := par.order) (l := l)
            (c := newUcontact c.uri b m.callid (m.nated ||| entry.memOnly))
        have ha : ∀ y ∈ a, uriOf y ≠ URecord.uriKey c.uri :=
          fun y hy => hkey y (mem_append_left d hy)
        refine ⟨[{ newUcontact c.uri b m.callid (m.nated ||| entry.memOnly)
          with state := state }], ⟨by simp, ?_, a, d, a, d, rfl,
          hins, rfl, ha, ha⟩, .inserted he rfl (binding_expires hb) ?_ ?_⟩
        · intro y hy
          rw [mem_singleton.mp hy]
          rfl
        · change ((m.nated ||| entry.memOnly) &&& flPermanent != 0) = false
          rw [nated_permanent]
          rfl
        · rw [removable_iff]
          by_cases hmode : par.order.mode = .writeBack
          · exact .inl (hstate hmode)
          · exact .inr hmode

/-- A contact that is taken out of the record, or left there expired. -/
theorem deleteUcontact_splice {o : Order} {i : ℕ} {u : UContact}
    {uri : Bytes} (memOnly : BitVec 32)
    (hfind : getUcontact l uri = some (i, u)) :
    ∃ new, Splice (URecord.uriKey uri) l (deleteUcontact o l i (setMem memOnly u)) [u] new ∧
      ∀ L, Touch o.mode uri 0 (u :: L) (new ++ L) := by
  obtain ⟨l₁, l₂, rfl, rfl, hu, hne⟩ := getUcontact_some hfind
  have hold : ∀ y ∈ [u], uriOf y = URecord.uriKey uri := by
    simpa [uriOf] using hu
  cases hrem : removable o.mode u with
  | true =>
    refine ⟨[], ⟨hold, by simp, l₁, l₂, l₁, l₂, rfl, ?_, rfl, hne, hne⟩, fun L => .removed rfl hrem⟩
    exact deleteUcontact_removable ((removable_setMem _ memOnly).trans hrem)
  | false =>
    have hrem' := removable_setMem o.mode memOnly ▸ hrem
    refine ⟨[(stDeleteUcontact o.mode (setMem memOnly u)).1],
      ⟨hold, ?_, l₁, l₂, l₁, l₂, rfl, deleteUcontact_buried hrem', rfl, hne, hne⟩, fun L => ?_⟩
    · intro y hy
      rw [mem_singleton.mp hy, stDelete_of_not_removable hrem']
      exact hu
    · have hz := stDelete_of_not_removable hrem'
      apply Touch.buried rfl hrem
      · rw [hz]; rfl
      · rw [hz]
      · rw [hz, permanent, permanent_zombie]; rfl
      · rw [hz]
        refine (removable_congr ?_).trans hrem
        exact Iff.rfl

theorem updateUcontact_splice {o : Order} {i : ℕ} {u : UContact} {uri : Bytes}
    {alloc : StrField → Bool} {b : Binding} {cid : Bytes} {e : ℤ}
    (hfind : getUcontact l uri = some (i, u)) (hb : b.expires = e)
    (he : e ≠ 0)
    (hdone : (updateUcontact o alloc l i u b cid (m.nated ||| entry.memOnly)
      (~~~(m.nated ||| entry.memOnly) &&& (flNat ||| flMem))).2 = true) :
    ∃ new, Splice (URecord.uriKey uri) l (if o.registrarOrder then
          moveOnTop (updateUcontact o alloc l i u b cid (m.nated ||| entry.memOnly)
            (~~~(m.nated ||| entry.memOnly) &&& (flNat ||| flMem))).1 i
        else (updateUcontact o alloc l i u b cid (m.nated ||| entry.memOnly)
          (~~~(m.nated ||| entry.memOnly) &&& (flNat ||| flMem))).1)
        [u] new ∧
      ∀ L, Touch o.mode uri e (u :: L) (new ++ L) := by
  obtain ⟨l₁, l₂, rfl, rfl, hu, hne⟩ := getUcontact_some hfind
  have hset := nated_permanent m entry
  have hres := reset_permanent m entry
  generalize m.nated ||| entry.memOnly = set at *
  generalize ~~~set &&& (flNat ||| flMem) = res at *
  have hupd : (memUpdateUcontact alloc u b cid set res).2 = true := by
    by_contra hfail
    rw [updateUcontact, if_neg hfail] at hdone
    simp at hdone
  have hval : updateUcontact o alloc (l₁ ++ u :: l₂) l₁.length u b cid set res =
      (l₁ ++ stUpdateUcontact o.mode
        (({ u with callid := cid } : UContact).refresh b set res) :: l₂,
        true) := by
    rw [updateUcontact, if_pos hupd, memUpdateUcontact_done hupd, set_middle]
  generalize hx : stUpdateUcontact o.mode
    (({ u with callid := cid } : UContact).refresh b set res) = x at hval
  obtain ⟨hst, hnew⟩ := stUpdateUcontact_spec o.mode
    (({ u with callid := cid } : UContact).refresh b set res)
  rw [hx] at hst hnew
  obtain ⟨a, d, hsame, ha, hmove⟩ :=
    place_moved l₁ l₂ x o.registrarOrder
  refine ⟨[x], ⟨by simpa [uriOf] using hu, ?_, l₁, l₂, a, d, rfl, ?_, hsame,
    hne, fun y hy => hne y (ha y hy)⟩, fun L => ?_⟩
  · intro y hy
    rw [mem_singleton.mp hy, uriOf, hst]
    exact hu
  · rw [hval]
    exact hmove
  · apply Touch.refreshed he
    · rw [hst]; rfl
    · rw [hst]
      exact hb
    · rw [hst]
      change ((u.flags ||| set) &&& ~~~res &&& flPermanent != 0) = _
      rw [permanent_flags hset hres]
      rfl
    · exact removable_congr hnew

/-- One contact of the request, when nothing stops it. -/
theorem updateContact_splice
    (h : updateContact par actTime entry.memOnly mem m k l c = (l', none)) :
    ∃ old new, Splice (URecord.uriKey c.uri) l l' old new ∧
      ((old = [] ∧ ∀ x ∈ l, uriOf x ≠ URecord.uriKey c.uri) ∧
          Touch par.order.mode c.uri (calcContactExpires par actTime m c) [] new ∨
        ∀ L, Touch par.order.mode c.uri (calcContactExpires par actTime m c)
          (old ++ L) (new ++ L)) := by
  cases hfind : getUcontact l c.uri with
  | none =>
    obtain ⟨new, hsplice, htouch⟩ := updateContact_absent hfind h
    exact ⟨[], new, hsplice, .inl ⟨⟨rfl, getUcontact_none.mp hfind⟩, htouch⟩⟩
  | some found =>
    obtain ⟨i, u⟩ := found
    rw [updateContact, hfind] at h
    dsimp only at h
    by_cases he : calcContactExpires par actTime m c = 0
    · rw [if_pos he] at h
      obtain ⟨rfl, -⟩ := Prod.mk.inj h
      obtain ⟨new, hsplice, htouch⟩ :=
        deleteUcontact_splice (o := par.order) entry.memOnly hfind
      exact ⟨[u], new, hsplice, .inr (by rwa [he])⟩
    · rw [if_neg he] at h
      cases hb : binding par actTime m c with
      | error err => rw [hb] at h; simp at h
      | ok b =>
        rw [hb] at h
        dsimp only at h
        split at h
        · rename_i hdone
          obtain ⟨rfl, -⟩ := Prod.mk.inj h
          obtain ⟨new, hsplice, htouch⟩ := updateUcontact_splice (m := m)
            hfind (binding_expires hb) he hdone
          exact ⟨[u], new, hsplice, .inr htouch⟩
        · simp at h

theorem updateContact_slots (h : updateContact par actTime entry.memOnly mem m k l c = (l', none)) :
    Touch par.order.mode c.uri (calcContactExpires par actTime m c)
        (slot uriOf (URecord.uriKey c.uri) l)
        (slot uriOf (URecord.uriKey c.uri) l') ∧
      ∀ K, K ≠ URecord.uriKey c.uri → slot uriOf K l' = slot uriOf K l := by
  obtain ⟨old, new, hsplice, htouch⟩ := updateContact_splice h
  refine ⟨?_, fun K hK => hsplice.frame hK⟩
  obtain ⟨L, hl, hl'⟩ := hsplice.slots
  rw [hl, hl']
  obtain ⟨⟨rfl, habsent⟩, htouch⟩ | htouch := htouch
  · rw [slot_eq_nil.mpr habsent] at hl
    obtain rfl : L = [] := hl.symm
    rwa [append_nil, append_nil]
  · exact htouch L

/-- A contact that is refused leaves the URIs of the record as they are. -/
theorem updateContact_error {memOnly : BitVec 32} {err : Rerr}
    (h : updateContact par actTime memOnly mem m k l c = (l', some err)) :
    l'.map uriOf = l.map uriOf := by
  unfold updateContact at h
  dsimp only at h
  split at h
  · repeat' split at h
    all_goals first
      | (obtain ⟨rfl, -⟩ := Prod.mk.inj h; rfl)
      | simp at h
  · rename_i i u hfind
    obtain ⟨l₁, l₂, rfl, rfl, hu, hne⟩ := getUcontact_some hfind
    split at h
    · simp at h
    · split at h
      · obtain ⟨rfl, -⟩ := Prod.mk.inj h
        rfl
      · split at h
        · simp at h
        · rename_i b _ hfail
          obtain ⟨rfl, -⟩ := Prod.mk.inj h
          unfold updateUcontact at hfail ⊢
          dsimp only at hfail ⊢
          split
          · simp_all
          · rw [set_middle]
            simp [uriOf, (memUpdateUcontact_key ..).1]

end Update

end Msicp.Registrar

/-!
## A record made for a request

The loop of `insert` adds one contact after the other to a record of its own;
when one of them is refused, `delete_urecord` takes the record away again.
-/

namespace Msicp.Registrar

open Msicp.Support
open Msicp.Usrloc

/-- The contacts of an address; there are none without a record. -/
def contactsOf (r : Option Rec) : List UContact := r.elim [] Rec.contacts

/-! ## Releasing and deleting records -/

section Records

variable {o : Order} {r : Option Rec}

theorem contactsOf_release (r : Rec) : contactsOf (releaseUrecord r) = r.contacts := by
  unfold releaseUrecord
  split
  · rename_i h
    exact (List.isEmpty_iff.mp h.1).symm
  · rfl

theorem contactsOf_delete : contactsOf (deleteUrecord o r) =
      (contactsOf r).filterMap (deleteOne o.mode) := by
  cases r with
  | none => rfl
  | some r => exact contactsOf_release _

/-- What is left of a contact is the contact, expired. -/
theorem deleteOne_some {c x : UContact} (actTime : ℕ) (h : deleteOne o.mode c = some x) :
    x.c = c.c ∧ x.valid actTime = false := by
  unfold deleteOne at h
  split at h
  · simp at h
  · rename_i hrem
    have hkept : removable o.mode c = false := by simpa [removable] using hrem
    have hz := stDelete_of_not_removable hkept
    obtain rfl := Option.some.inj h
    rw [hz]
    refine ⟨rfl, ?_⟩
    simp [UContact.valid, permanent_zombie]

theorem filterMap_deleteOne_eq_nil {l : List UContact} (h : ∀ x ∈ l, removable o.mode x = true) :
    l.filterMap (deleteOne o.mode) = [] := by
  rw [List.filterMap_eq_nil_iff]
  intro x hx
  exact if_pos (h x hx)

theorem keys_delete (l : List UContact) :
    ((l.filterMap (deleteOne o.mode)).map uriOf).Sublist (l.map uriOf) := by
  induction l with
  | nil => exact .slnil
  | cons c l ih =>
    cases h : deleteOne o.mode c with
    | none =>
      rw [List.filterMap_cons_none h]
      exact ih.cons _
    | some x =>
      have hc : uriOf x = uriOf c :=
        congrArg URecord.uriKey (deleteOne_some 0 h).1
      rw [List.filterMap_cons_some h, List.map_cons, List.map_cons, hc]
      exact ih.cons_cons _

end Records

/-! ## One turn of the loop of `insert` -/

/-- What a contact of the request does to the record that is being made. -/
inductive InsertStep (par : Params) (uri : Bytes) (e : ℤ) (st : Inserting) :
    Inserting → Option Rerr → Prop
  | skipped (he : e = 0) : InsertStep par uri e st st none
  | refused {st' : Inserting} {err : Rerr} (he : e ≠ 0)
      (hrecord : contactsOf st'.record =
        (contactsOf st.record).filterMap (deleteOne par.order.mode)) :
      InsertStep par uri e st st' (some err)
  | inserted {st' : Inserting} {a b : List UContact} {x : UContact}
      (he : e ≠ 0) (hroom : par.maxContacts ≠ 0 → st.num < par.maxContacts)
      (hc : x.c = uri) (hrem : removable par.order.mode x = true)
      (hold : contactsOf st.record = a ++ b)
      (hnew : contactsOf st'.record = a ++ x :: b)
      (hnum : st'.num = st.num + 1) : InsertStep par uri e st st' none

section Loop

variable {par : Params} {actTime : ℕ} {memOnly : BitVec 32} {mem : Memory}
variable {m : Request} {k : ℕ} {st st' : Inserting} {c : ContactT}
variable {cs : List ContactT} {err : Option Rerr}

theorem insertContact_step (h : insertContact par actTime memOnly mem m k st c = (st', err)) :
    InsertStep par c.uri (calcContactExpires par actTime m c) st st' err := by
  unfold insertContact at h
  dsimp only at h
  by_cases he : calcContactExpires par actTime m c = 0
  · rw [if_pos he] at h
    obtain ⟨rfl, rfl⟩ := Prod.mk.inj h
    exact .skipped he
  rw [if_neg he] at h
  have hgetD : contactsOf (some (st.record.getD ⟨[], 0⟩)) = contactsOf st.record := by
    cases st.record <;> rfl
  by_cases hmax : par.maxContacts ≠ 0 ∧ par.maxContacts ≤ st.num
  · rw [if_pos hmax] at h
    obtain ⟨rfl, rfl⟩ := Prod.mk.inj h
    exact .refused he contactsOf_delete
  rw [if_neg hmax] at h
  by_cases hmem : st.record.isNone = true ∧ (!mem.record) = true
  · rw [if_pos hmem] at h
    obtain ⟨rfl, rfl⟩ := Prod.mk.inj h
    have hnone : st.record = none := Option.isNone_iff_eq_none.mp hmem.1
    exact .refused he (by rw [hnone]; rfl)
  rw [if_neg hmem] at h
  cases hb : binding par actTime m c with
  | error err' =>
    rw [hb] at h
    obtain ⟨rfl, rfl⟩ := Prod.mk.inj h
    exact .refused he (contactsOf_delete.trans (by rw [hgetD]))
  | ok b =>
    rw [hb] at h
    dsimp only at h
    by_cases hcontact : mem.contact k = true
    · rw [if_pos hcontact] at h
      obtain ⟨rfl, rfl⟩ := Prod.mk.inj h
      obtain ⟨a, d, state, hold, hins, hstate⟩ :=
        insertUcontact_place (o := par.order) (l := (st.record.getD ⟨[], 0⟩).contacts)
          (c := newUcontact c.uri b m.callid (m.nated ||| memOnly))
      refine .inserted he (by simpa using hmax) ?_ ?_ (hgetD ▸ hold) hins rfl
      · rfl
      · rw [removable_iff]
        by_cases hmode : par.order.mode = .writeBack
        · exact .inl (hstate hmode)
        · exact .inr hmode
    · rw [if_neg hcontact] at h
      obtain ⟨rfl, rfl⟩ := Prod.mk.inj h
      exact .refused he (contactsOf_delete.trans (by rw [hgetD]))

/-! ## The whole loop -/

/-- What holds of a record that is being made. -/
structure Making (par : Params) (st : Inserting) : Prop where
  num_eq : (contactsOf st.record).length = st.num
  num_le : par.maxContacts ≠ 0 → st.num ≤ par.maxContacts
  rem : ∀ x ∈ contactsOf st.record, removable par.order.mode x = true

theorem Making.start : Making par { record := none, num := 0 } where
  num_eq := rfl
  num_le := fun _ => Nat.zero_le _
  rem := by simp [contactsOf]

section

variable (hst : Making par st)
include hst

theorem InsertStep.making {uri : Bytes} {e : ℤ}
    (h : InsertStep par uri e st st' none) : Making par st' := by
  cases h with
  | skipped => exact hst
  | inserted he hroom hc hrem hold hnew hnum =>
    have hlen := hst.num_eq
    rw [hold, List.length_append] at hlen
    constructor
    · rw [hnew, hnum, ← hlen, List.length_append, List.length_cons]
      omega
    · intro hmax
      have := hroom hmax
      omega
    · intro x hx
      have hall := hst.rem
      rw [hold] at hall
      rw [hnew, List.mem_append, List.mem_cons] at hx
      obtain hx | rfl | hx := hx
      · exact hall x (List.mem_append_left _ hx)
      · exact hrem
      · exact hall x (List.mem_append_right _ hx)

theorem InsertStep.refused_nil {uri : Bytes} {e : ℤ} {err : Rerr}
    (h : InsertStep par uri e st st' (some err)) :
    contactsOf st'.record = [] := by
  cases h with
  | refused he hrecord =>
    rw [hrecord]
    exact filterMap_deleteOne_eq_nil hst.rem

theorem insertLoop_making (h : insertLoop par actTime memOnly mem m k st cs = (st', none)) :
    Making par st' := by
  induction cs generalizing k st with
  | nil =>
    obtain ⟨rfl, -⟩ := Prod.mk.inj h
    exact hst
  | cons c cs ih =>
    rw [insertLoop] at h
    split at h
    · rename_i st₁ hc
      exact ih ((insertContact_step hc).making hst) h
    · simp at h

theorem insertLoop_error {err : Rerr}
    (h : insertLoop par actTime memOnly mem m k st cs = (st', some err)) :
    contactsOf st'.record = [] := by
  induction cs generalizing k st with
  | nil => simp [insertLoop] at h
  | cons c cs ih =>
    rw [insertLoop] at h
    split at h
    · rename_i st₁ hc
      exact ih ((insertContact_step hc).making hst) h
    · rename_i st₁ err₁ hc
      obtain ⟨rfl, -⟩ := Prod.mk.inj h
      exact (insertContact_step hc).refused_nil hst

end

theorem insert_record (h : insertLoop par actTime memOnly mem m 0 ⟨none, 0⟩ cs = (st', err)) :
    (insert par actTime memOnly mem m cs).error = err ∧
      contactsOf (insert par actTime memOnly mem m cs).record = contactsOf st'.record := by
  rw [insert, h]
  cases err with
  | some err => exact ⟨rfl, rfl⟩
  | none =>
    cases hr : st'.record with
    | none => simp [hr]
    | some r =>
      simp only [hr]
      by_cases hempty : r.contacts.isEmpty = true
      · rw [if_pos hempty]
        refine ⟨rfl, ?_⟩
        rw [contactsOf_delete]
        simp [contactsOf, List.isEmpty_iff.mp hempty]
      · rw [if_neg hempty]
        exact ⟨rfl, rfl⟩

end Loop

end Msicp.Registrar
