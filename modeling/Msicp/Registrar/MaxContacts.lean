import Msicp.Registrar.Steps

/-!
# The limit on the contacts of an address

`test_max_contacts` adds up what the contacts of a request will do before any
of them is applied.  It counts a stored contact that is refreshed as no change,
also when it had expired, and a contact with a zero expiry as one less, also
when nothing valid goes.  What is really left can be told for each URI from
the contacts stored under it and from the expiries that the request names.
-/

namespace Msicp.Registrar

open Msicp.Support List
open Msicp.Usrloc

/-- The number of valid contacts. -/
def validCount (actTime : ℕ) (l : List UContact) : ℕ :=
  l.countP fun c => c.valid actTime

/-- What `z` deletions leave of the contacts with one URI.  A contact that is
not removable stays, expired, and is in front of the others. -/
def remaining (mode : DbMode) : ℕ → List UContact → List UContact
  | 0, l => l
  | _ + 1, [] => []
  | z + 1, u :: l =>
    if removable mode u then remaining mode z l
    else (stDeleteUcontact mode u).1 :: l

/-- The valid contacts with one URI after the first of them, or a new one, has
got the expiry `e`. -/
def refreshedCount (actTime : ℕ) (e : ℤ) : List UContact → ℕ
  | [] => if (actTime : ℤ) < e then 1 else 0
  | u :: l =>
    (if (actTime : ℤ) < e ∨ permanent u = true then 1 else 0) +
      validCount actTime l

/-- The valid contacts with one URI after a request that names it with the
expiries `es`. -/
def kept (mode : DbMode) (actTime : ℕ) (l : List UContact) (es : List ℤ) : ℕ :=
  if es.getLastD 0 = 0 then validCount actTime (remaining mode (es.count 0) l)
  else refreshedCount actTime (es.getLastD 0) (remaining mode (es.count 0) l)

/-- The expiries that the contacts of a request name for a URI. -/
def mentions (par : Params) (actTime : ℕ) (m : Request) (K : Bytes) (cs : List ContactT) : List ℤ :=
  (cs.filter fun c => URecord.uriKey c.uri = K).map (calcContactExpires par actTime m)

/-- The URIs of the contacts of a record and of a request. -/
def uris (l : List UContact) (cs : List ContactT) : Finset Bytes :=
  (l.map uriOf).toFinset ∪ (cs.map fun c => URecord.uriKey c.uri).toFinset

/-- The valid contacts that a request leaves in a record. -/
def keptContacts (par : Params) (actTime : ℕ) (m : Request)
    (l : List UContact) (cs : List ContactT) : ℕ :=
  ∑ K ∈ uris l cs, kept par.order.mode actTime (slot uriOf K l) (mentions par actTime m K cs)

/-! ## One URI -/

section Slot

variable {mode : DbMode} {actTime : ℕ} {e : ℤ} {es : List ℤ} {uri : Bytes}
variable {u u' : UContact} {l l' : List UContact} {z : ℕ}

theorem valid_iff : u.valid actTime = true ↔ (actTime : ℤ) < u.expires ∨ permanent u = true := by
  simp [UContact.valid, permanent]

/-- A contact that is expired and not permanent. -/
def Dead (u : UContact) : Prop := u.expires = 0 ∧ permanent u = false

theorem dead_delete (h : removable mode u = false) : Dead (stDeleteUcontact mode u).1 := by
  rw [stDelete_of_not_removable h]
  refine ⟨rfl, ?_⟩
  rw [permanent, permanent_zombie]
  rfl

theorem Dead.not_valid (h : Dead u) : u.valid actTime = false := by
  rw [Bool.eq_false_iff, ne_eq, valid_iff, h.1, h.2]
  simp

theorem validCount_cons : validCount actTime (u :: l) =
    (if u.valid actTime then 1 else 0) + validCount actTime l := by
  rw [validCount, countP_cons, Nat.add_comm]
  rfl

/-- Lists that count the same, now and after a refresh. -/
def Alike (actTime : ℕ) (l l' : List UContact) : Prop :=
  validCount actTime l = validCount actTime l' ∧
    ∀ e, refreshedCount actTime e l = refreshedCount actTime e l'

theorem Dead.alike (h : Dead u) (h' : Dead u') : Alike actTime (u :: l) (u' :: l) := by
  constructor
  · rw [validCount_cons, validCount_cons, h.not_valid, h'.not_valid]
  · intro e
    rw [refreshedCount, refreshedCount, h.2, h'.2]

theorem remaining_dead (h : Dead u) (hrem : removable mode u = false) (z : ℕ) :
    ∃ v, Dead v ∧ remaining mode z (u :: l) = v :: l := by
  cases z with
  | zero => exact ⟨u, h, rfl⟩
  | succ z =>
    refine ⟨_, dead_delete hrem, ?_⟩
    rw [remaining, if_neg (by simp [hrem])]

theorem remaining_nil : remaining mode z [] = [] := by
  cases z <;> rfl

theorem remaining_alike (hrem : removable mode u' = removable mode u) :
    Alike actTime (remaining mode (z + 1) (u :: l)) (remaining mode (z + 1) (u' :: l)) := by
  rw [remaining, remaining, hrem]
  cases hu : removable mode u with
  | true => exact ⟨rfl, fun _ => rfl⟩
  | false => exact (dead_delete hu).alike (dead_delete (hrem.trans hu))

theorem getLastD_ne (hes : es ≠ []) (hcount : es.count 0 = 0) : es.getLastD 0 ≠ 0 := by
  intro h
  have hlast := getLast_mem hes
  rw [getLastD_eq_getLast?, getLast?_eq_some_getLast hes, Option.getD_some] at h
  rw [h] at hlast
  exact count_eq_zero.mp hcount hlast

theorem kept_congr {es' : List ℤ} (hlast : es.getLastD 0 = es'.getLastD 0)
    (h : Alike actTime (remaining mode (es.count 0) l) (remaining mode (es'.count 0) l')) :
    kept mode actTime l es = kept mode actTime l' es' := by
  rw [kept, kept, hlast, h.1, h.2]

theorem Touch.kept_zero (h : Touch mode uri 0 l l') :
    kept mode actTime l (0 :: es) = kept mode actTime l' es := by
  refine kept_congr (by rw [getLastD_cons]) ?_
  rw [count_cons_self]
  cases h with
  | skipped =>
    rw [remaining_nil, remaining_nil]
    exact ⟨rfl, fun _ => rfl⟩
  | inserted he => exact absurd rfl he
  | removed he hrem =>
    rw [remaining, if_pos hrem]
    exact ⟨rfl, fun _ => rfl⟩
  | buried he hrem hc hexp hperm hrem' =>
    obtain ⟨v, hv, hleft⟩ := remaining_dead ⟨hexp, hperm⟩ hrem' (l := _) (es.count 0)
    rw [remaining, if_neg (by simp [hrem]), hleft]
    exact (dead_delete hrem).alike hv
  | refreshed he => exact absurd rfl he

theorem Touch.refreshed_last (he : e ≠ 0) (h : Touch mode uri e l l') :
    refreshedCount actTime e l = validCount actTime l' := by
  cases h with
  | skipped he' => exact absurd he' he
  | inserted he hc hexp hperm hrem =>
    rw [refreshedCount, validCount_cons]
    simp [valid_iff, hexp, hperm, validCount]
  | removed he' => exact absurd he' he
  | buried he' => exact absurd he' he
  | refreshed he hc hexp hperm hrem =>
    rw [refreshedCount, validCount_cons]
    simp [valid_iff, hexp, hperm]

/-- A contact with another expiry that is not the last one. -/
theorem Touch.kept_more (he : e ≠ 0) (h : Touch mode uri e l l')
    (hes : es ≠ []) : kept mode actTime l es = kept mode actTime l' es := by
  cases hz : es.count 0 with
  | zero =>
    rw [kept, kept, if_neg (getLastD_ne hes hz), if_neg (getLastD_ne hes hz),
      hz, remaining, remaining]
    cases h with
    | skipped he' => exact absurd he' he
    | inserted he hc hexp hperm hrem => simp [refreshedCount, hperm, validCount]
    | removed he' => exact absurd he' he
    | buried he' => exact absurd he' he
    | refreshed he hc hexp hperm hrem => rw [refreshedCount, refreshedCount, hperm]
  | succ z =>
    refine kept_congr rfl ?_
    rw [hz]
    cases h with
    | skipped he' => exact absurd he' he
    | inserted he hc hexp hperm hrem =>
      rw [remaining_nil]
      rw [remaining, if_pos hrem, remaining_nil]
      exact ⟨rfl, fun _ => rfl⟩
    | removed he' => exact absurd he' he
    | buried he' => exact absurd he' he
    | refreshed he hc hexp hperm hrem => exact remaining_alike hrem

/-- Each contact leaves as many as it was expected to. -/
theorem Touch.kept_cons (h : Touch mode uri e l l') :
    kept mode actTime l (e :: es) = kept mode actTime l' es := by
  by_cases he : e = 0
  · subst he
    exact h.kept_zero
  by_cases hes : es = []
  · subst hes
    have hcount : [e].count 0 = 0 := count_singleton.trans (by simp [he])
    rw [kept, kept, hcount]
    simpa [he, remaining] using h.refreshed_last he
  · rw [← h.kept_more he hes, kept, kept, count_cons_of_ne he, getLastD_cons]
    have hlast : es.getLastD e = es.getLastD 0 := by
      rw [getLastD_eq_getLast?, getLastD_eq_getLast?, getLast?_eq_some_getLast hes]
      rfl
    rw [hlast]

end Slot

/-! ## A record -/

section Record

variable {par : Params} {now : ℕ} {entry : Entry} {mem : Memory}
variable {memOnly : BitVec 32} {m : Request} {k : ℕ} {l l' : List UContact}
variable {cs : List ContactT} {c : ContactT} {K : Bytes}

theorem mentions_cons_of_eq (h : URecord.uriKey c.uri = K) : mentions par now m K (c :: cs) =
      calcContactExpires par now m c :: mentions par now m K cs := by
  rw [mentions, filter_cons_of_pos (by simpa using h), map_cons]
  rfl

theorem mentions_cons_of_ne (h : URecord.uriKey c.uri ≠ K) :
    mentions par now m K (c :: cs) = mentions par now m K cs := by
  rw [mentions, filter_cons_of_neg (by simpa using h)]
  rfl

section

variable (h : updateLoop par now entry.memOnly mem m k l cs = (l', none))
include h

theorem updateLoop_kept : kept par.order.mode now (slot uriOf K l) (mentions par now m K cs) =
      validCount now (slot uriOf K l') := by
  induction cs generalizing k l with
  | nil =>
    obtain ⟨rfl, -⟩ := Prod.mk.inj h
    rfl
  | cons c cs ih =>
    rw [updateLoop] at h
    split at h
    · rename_i l₁ hc
      obtain ⟨htouch, hframe⟩ := updateContact_slots hc
      by_cases hK : URecord.uriKey c.uri = K
      · rw [mentions_cons_of_eq hK]
        rw [hK] at htouch
        exact htouch.kept_cons.trans (ih h)
      · rw [mentions_cons_of_ne hK, ← hframe K (Ne.symm hK)]
        exact ih h
    · simp at h

/-- The contacts that the request does not name stay as they are. -/
theorem updateLoop_frame (hK : ∀ c ∈ cs, URecord.uriKey c.uri ≠ K) :
    slot uriOf K l' = slot uriOf K l := by
  induction cs generalizing k l with
  | nil =>
    obtain ⟨rfl, -⟩ := Prod.mk.inj h
    rfl
  | cons c cs ih =>
    rw [updateLoop] at h
    split at h
    · rename_i l₁ hc
      obtain ⟨-, hframe⟩ := updateContact_slots hc
      rw [ih h fun x hx => hK x (mem_cons_of_mem c hx)]
      exact hframe K (hK c (by simp)).symm
    · simp at h

theorem updateLoop_uris : ∀ x ∈ l', uriOf x ∈ uris l cs := by
  intro x hx
  rw [uris, Finset.mem_union]
  by_cases hnamed : ∃ c ∈ cs, URecord.uriKey c.uri = uriOf x
  · exact .inr (by simpa using hnamed)
  · refine .inl ?_
    have hframe := updateLoop_frame (K := uriOf x) h fun c hc hK => hnamed ⟨c, hc, hK⟩
    have hmem : x ∈ slot uriOf (uriOf x) l' := mem_slot.mpr ⟨hx, rfl⟩
    rw [hframe, mem_slot] at hmem
    exact List.mem_toFinset.mpr (List.mem_map_of_mem hmem.1)

theorem updateLoop_validCount : validCount now l' = keptContacts par now m l cs := by
  rw [validCount, countP_eq_sum_slot _ (updateLoop_uris h), keptContacts]
  exact Finset.sum_congr rfl fun K _ => (updateLoop_kept h).symm

end

theorem update_validCount (h : (update par now entry.memOnly mem m l cs).2 = none) :
    validCount now (update par now entry.memOnly mem m l cs).1 =
      keptContacts par now m l cs := by
  unfold update at h ⊢
  split
  · rename_i hmany
    rw [if_pos hmany] at h
    simp at h
  · rename_i hmany
    rw [if_neg hmany] at h
    exact updateLoop_validCount (Prod.ext rfl h)

theorem star_validCount (o : Order) (r : Option Rec) :
    validCount now (contactsOf (star o memOnly r).record) = 0 := by
  rw [validCount, countP_eq_zero]
  intro x hx
  have hdel : (star o memOnly r).record = deleteUrecord o _ := rfl
  rw [hdel, contactsOf_delete, mem_filterMap] at hx
  obtain ⟨c, -, hc⟩ := hx
  rw [(deleteOne_some now hc).2]
  simp

theorem insert_validCount (hmax : par.maxContacts ≠ 0)
    (h : (insert par now memOnly mem m cs).error = none) :
    validCount now (contactsOf (insert par now memOnly mem m cs).record) ≤
      par.maxContacts := by
  rcases hloop : insertLoop par now memOnly mem m 0 ⟨none, 0⟩ cs with ⟨st, err⟩
  obtain ⟨herr, hrecord⟩ := insert_record hloop
  obtain rfl : err = none := herr.symm.trans h
  have hmaking := insertLoop_making Making.start hloop
  rw [hrecord]
  calc validCount now (contactsOf st.record)
      ≤ (contactsOf st.record).length := countP_le_length
    _ = st.num := hmaking.num_eq
    _ ≤ par.maxContacts := hmaking.num_le hmax

end Record

/-- What a request leaves in the record of its address, if there is one, fits
into the limit or into what was there before. -/
def Fits (par : Params) (now : ℕ) (m : Request) (r : Option Rec) : Prop :=
  ∀ rec, r = some rec → contactList m.contact ≠ [] →
    keptContacts par now m rec.contacts (contactList m.contact) ≤
      max par.maxContacts (validCount now rec.contacts)

theorem process_validCount {par : Params} {now : ℕ} {entry : Entry}
    {mem : Memory} {m : Request} {isStar : Bool} {r : Option Rec}
    (hmax : par.maxContacts ≠ 0)
    (h : (process par now entry mem m isStar r).error = none) :
    validCount now (contactsOf (process par now entry mem m isStar r).record) ≤
        max par.maxContacts (validCount now (contactsOf r)) ↔
      Fits par now m r := by
  unfold process at h ⊢
  split
  · rename_i hnone
    have hfits : Fits par now m r := fun _ _ hne =>
      absurd (List.isEmpty_iff.mp hnone) hne
    refine iff_of_true ?_ hfits
    cases isStar with
    | true =>
      change validCount now (contactsOf (star _ _ r).record) ≤ _
      rw [star_validCount]
      exact Nat.zero_le _
    | false => exact le_max_right _ _
  · rename_i hsome
    rw [if_neg hsome] at h
    cases r with
    | none =>
      refine iff_of_true ?_ fun _ hr => by simp at hr
      exact (insert_validCount hmax h).trans (le_max_left _ _)
    | some rec =>
      change validCount now (contactsOf (releaseUrecord _)) ≤ _ ↔ _
      rw [contactsOf_release]
      change validCount now (update par now entry.memOnly mem m rec.contacts
        (contactList m.contact)).1 ≤ _ ↔ _
      rw [update_validCount h]
      constructor
      · rintro hle _ ⟨⟩ -
        exact hle
      · intro hfits
        exact hfits rec rfl (by simpa using hsome)

def oneContact : Params := { Params.default with maxContacts := 1 }

def registerOne (now : ℕ) (uri : Bytes) (s : State) : Result :=
  saveReal oneContact now .save .plenty (.register (ascii "a") [.expiring uri 60]) s

/-- `sip:a` has expired when `sip:b` is registered. -/
def expiredAndValid : State :=
  (registerOne 100 (ascii "sip:b") (registerOne 0 (ascii "sip:a") .fresh).state).state

end Msicp.Registrar
