import Msicp.Registrar.Steps

/-!
# No two contacts of a record are equal

`update` looks every contact up before it inserts one, so that it keeps the
contacts of a record different.  `insert` does not: a request that names a URI
twice for an address without a record leaves two equal contacts.
-/

namespace Msicp.Registrar

open Msicp.Support List
open Msicp.Usrloc

/-- No two contacts are equal for `get_ucontact`. -/
def Distinct (l : List UContact) : Prop := (l.map uriOf).Nodup

instance (l : List UContact) : Decidable (Distinct l) :=
  inferInstanceAs (Decidable (l.map uriOf).Nodup)

/-- The URIs of the contacts that a request wants to register. -/
def newUris (par : Params) (actTime : ℕ) (m : Request) (cs : List ContactT) : List Bytes :=
  (cs.filter fun c => calcContactExpires par actTime m c ≠ 0).map fun c =>
    URecord.uriKey c.uri

section Record

variable {par : Params} {actTime : ℕ} {entry : Entry} {mem : Memory}
variable {memOnly : BitVec 32} {m : Request} {k : ℕ} {l l' : List UContact}
variable {cs : List ContactT} {c : ContactT} {err : Option Rerr}

/-! ## An existing record -/

/-- A slot with at most one contact keeps at most one. -/
theorem Touch.length_le {mode : DbMode} {uri : Bytes} {e : ℤ}
    (h : Touch mode uri e l l') (hl : l.length ≤ 1) : l'.length ≤ 1 := by
  cases h with
  | skipped => exact hl
  | inserted => exact le_refl 1
  | removed he hrem => exact (Nat.le_succ _).trans hl
  | buried => exact hl
  | refreshed => exact hl

theorem updateContact_distinct (hl : Distinct l)
    (h : updateContact par actTime entry.memOnly mem m k l c = (l', err)) :
    Distinct l' := by
  cases err with
  | some err =>
    rw [Distinct, updateContact_error h]
    exact hl
  | none =>
    obtain ⟨htouch, hframe⟩ := updateContact_slots h
    have hslots := nodup_keys_iff.mp hl
    refine nodup_keys_iff.mpr fun K => ?_
    by_cases hK : K = URecord.uriKey c.uri
    · rw [hK]
      exact htouch.length_le (hslots _)
    · rw [hframe K hK]
      exact hslots K

theorem updateLoop_distinct (hl : Distinct l) :
    Distinct (updateLoop par actTime entry.memOnly mem m k l cs).1 := by
  induction cs generalizing k l with
  | nil => exact hl
  | cons c cs ih =>
    rw [updateLoop]
    split
    · rename_i l' h
      exact ih (updateContact_distinct hl h)
    · rename_i l' err h
      exact updateContact_distinct hl h

theorem update_distinct (hl : Distinct l) :
    Distinct (update par actTime entry.memOnly mem m l cs).1 := by
  unfold update
  split
  · exact hl
  · exact updateLoop_distinct hl

/-! ## A new record -/

variable {st st' : Inserting}

theorem InsertStep.distinct {uri : Bytes} {e : ℤ} {uris : List Bytes}
    (h : InsertStep par uri e st st' none)
    (hst : ((contactsOf st.record).map uriOf ++
      if e ≠ 0 then URecord.uriKey uri :: uris else uris).Nodup) :
    ((contactsOf st'.record).map uriOf ++ uris).Nodup := by
  cases h with
  | skipped he => rwa [if_neg (by simpa using he)] at hst
  | inserted he hroom hc hrem hold hnew hnum =>
    rename_i a b x
    have hx : uriOf x = URecord.uriKey uri := congrArg URecord.uriKey hc
    rw [if_pos he, hold] at hst
    rw [hnew]
    refine hst.perm ?_
    simp only [map_append, map_cons, append_assoc, hx, cons_append]
    exact perm_middle.append_left _

theorem newUris_cons : newUris par actTime m (c :: cs) =
      if calcContactExpires par actTime m c ≠ 0 then
        URecord.uriKey c.uri :: newUris par actTime m cs
      else newUris par actTime m cs := by
  unfold newUris
  by_cases he : calcContactExpires par actTime m c = 0
  · rw [filter_cons_of_neg (by simpa using he), if_neg (by simpa using he)]
  · rw [filter_cons_of_pos (by simpa using he), if_pos he, map_cons]

theorem distinct_delete (o : Order) (r : Option Rec) (h : Distinct (contactsOf r)) :
    Distinct (contactsOf (deleteUrecord o r)) := by
  rw [Distinct, contactsOf_delete]
  exact h.sublist (keys_delete _)

theorem insertLoop_distinct (memOnly : BitVec 32) (mem : Memory) (k : ℕ) (st : Inserting)
    (hst : ((contactsOf st.record).map uriOf ++ newUris par actTime m cs).Nodup) :
    Distinct (contactsOf (insertLoop par actTime memOnly mem m k st cs).1.record) := by
  induction cs generalizing k st with
  | nil =>
    change ((contactsOf st.record).map uriOf).Nodup
    exact (List.nodup_append.mp hst).1
  | cons c cs ih =>
    rw [newUris_cons] at hst
    rw [insertLoop]
    split
    · rename_i st' h
      exact ih _ st' ((insertContact_step h).distinct hst)
    · rename_i st' err h
      cases insertContact_step h with
      | refused he hrecord =>
        rw [Distinct, hrecord]
        exact (List.nodup_append.mp hst).1.sublist (keys_delete _)

theorem insert_distinct (h : (newUris par actTime m cs).Nodup) :
    Distinct (contactsOf (insert par actTime memOnly mem m cs).record) := by
  have hloop := insertLoop_distinct memOnly mem 0 ⟨none, 0⟩ h
  rw [Distinct, (insert_record rfl).2]
  exact hloop

/-! ## One request -/

theorem star_distinct {o : Order} {r : Option Rec} (h : Distinct (contactsOf r)) :
    Distinct (contactsOf (star o memOnly r).record) := by
  refine distinct_delete o _ ?_
  cases r with
  | none => exact h
  | some r =>
    change ((r.contacts.map (setMem memOnly)).map uriOf).Nodup
    rw [List.map_map]
    exact h

theorem process_distinct {isStar : Bool} {r : Option Rec} (hr : Distinct (contactsOf r))
    (hnew : r = none → (newUris par actTime m (contactList m.contact)).Nodup) :
    Distinct (contactsOf (process par actTime entry mem m isStar r).record) := by
  unfold process
  split
  · cases isStar with
    | true => exact star_distinct hr
    | false => exact hr
  · cases r with
    | none => exact insert_distinct (hnew rfl)
    | some r =>
      change Distinct (contactsOf (releaseUrecord _))
      rw [contactsOf_release]
      exact update_distinct hr

end Record

/-! ## Every run -/

/-- A request for an address that has no record registers no URI twice. -/
def Call.Separate (par : Params) (call : Call) (s : State) : Prop :=
  ∀ aor, call.request.aor = .ok aor → s.location aor = none → (newUris par call.now call.request
      (contactList call.request.contact)).Nodup

/-- The contacts of every record are different. -/
def State.Distinct (s : State) : Prop :=
  ∀ aor, Registrar.Distinct (contactsOf (s.location aor))

theorem saveReal_distinct {par : Params} {call : Call} {s : State}
    (hs : s.Distinct) (hcall : call.Separate par s) :
    (saveReal par call.now call.entry call.mem call.request s).state.Distinct := by
  generalize hresult : saveReal par call.now call.entry call.mem call.request s = result
  have h := hresult ▸ saveReal_handled par call.now call.entry call.mem call.request s
  intro aor'
  cases h with
  | refused hlocation hbuffer =>
    rw [finish_location, hlocation]
    exact hs aor'
  | processed hparsed hcheck haor =>
    rename_i isStar aor
    rw [finish_location]
    by_cases hsame : aor' = aor
    · subst hsame
      simp only [State.commit, Function.update_self]
      exact process_distinct (hs aor') fun hnone => hcall aor' haor hnone
    · simp only [State.commit, Function.update_of_ne hsame]
      exact hs aor'

/-- A request that names `sip:h` twice. -/
def twice : Call where
  entry := .save
  now := 100
  mem := .plenty
  request := .register (ascii "a") [.expiring (ascii "sip:h") 60, .expiring (ascii "sip:h") 120]

def once : Call :=
  { twice with
    request := .register (ascii "a") [.expiring (ascii "sip:h") 60] }

theorem State.fresh_distinct : fresh.Distinct :=
  fun _ => nodup_nil

end Msicp.Registrar
