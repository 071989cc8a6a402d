import Msicp.Registrar.Steps

/-!
# Requests that are answered with an error

`insert` deletes the record it has made when a contact is refused.  `update`
has nothing of the kind: the contacts in front of the refused one stay as they
have become.  A refused request therefore leaves the record alone when the
contacts in front say what is already there.
-/

namespace Msicp.Registrar

open Msicp.Support Option
open Msicp.Usrloc

/-- An update that gets no memory before it has written anything new. -/
def WritesNothing (alloc : StrField → Bool) (u : UContact) (b : Binding) (cid : Bytes) : Prop :=
  setStr (alloc .key) u.callid cid = none ∨ u.callid = cid ∧
      (setStr (alloc .userAgent) u.userAgent b.userAgent = none ∨ u.userAgent = b.userAgent ∧
          setStr (alloc .received) u.received (b.received.getD []) = none)

/-- The flags that an update clears. -/
def Request.reset (m : Request) (memOnly : BitVec 32) : BitVec 32 :=
  ~~~(m.nated ||| memOnly) &&& (flNat ||| flMem)

section Contact

variable (par : Params) (actTime : ℕ) (memOnly : BitVec 32) (mem : Memory)
variable (m : Request)

/-- The contact says what the record has. -/
def Idle (l : List UContact) (c : ContactT) : Prop :=
  match getUcontact l c.uri with
  | none => calcContactExpires par actTime m c = 0
  | some (i, u) =>
    if calcContactExpires par actTime m c = 0 then
      removable par.order.mode u = false ∧
        (stDeleteUcontact par.order.mode (setMem memOnly u)).1 = u
    else
      ∃ b, binding par actTime m c = .ok b ∧ stUpdateUcontact par.order.mode
          (({ u with callid := m.callid } : UContact).refresh b
            (m.nated ||| memOnly) (m.reset memOnly)) = u ∧
        (par.order.registrarOrder = true → i = 0)

/-- The contact is refused before anything is written. -/
def Refused (k : ℕ) (l : List UContact) (c : ContactT) : Prop :=
  calcContactExpires par actTime m c ≠ 0 ∧ ∀ b, binding par actTime m c = .ok b →
      match getUcontact l c.uri with
      | none => mem.contact k = false
      | some (_, u) => WritesNothing (mem.strings k) u b m.callid

/-- The contacts in front of the first that is refused say what the record
has. -/
def Quiet (l : List UContact) : ℕ → List ContactT → Prop
  | _, [] => True
  | k, c :: cs =>
    Refused par actTime mem m k l c ∨ Idle par actTime memOnly m l c ∧ Quiet l (k + 1) cs

/-- The record after each turn of the loop of `update`. -/
def stages : ℕ → List UContact → List ContactT → List (List UContact)
  | _, _, [] => []
  | k, l, c :: cs =>
    match updateContact par actTime memOnly mem m k l c with
    | (l', none) => l' :: stages (k + 1) l' cs
    | (l', some _) => [l']

end Contact

/-! ## One contact -/

section Turn

variable {par : Params} {actTime : ℕ} {memOnly : BitVec 32} {mem : Memory}
variable {m : Request} {k : ℕ} {l l₁ l₂ : List UContact} {u x : UContact}
variable {c : ContactT}

variable {alloc : StrField → Bool} {b : Binding} {cid : Bytes} {o : Order} {set res : BitVec 32}

theorem memUpdateUcontact_idle (set res : BitVec 32) :
    memUpdateUcontact alloc u b cid set res = (u, false) ↔
      WritesNothing alloc u b cid := by
  obtain ⟨uri, received, expires, q, callid, cseq, state, flags, ua⟩ := u
  unfold memUpdateUcontact memUpdateRest WritesNothing
  dsimp only
  cases hkey : setStr (alloc .key) callid cid with
  | none => simp
  | some callid' =>
    obtain rfl : cid = callid' := by
      simp only [setStr, ite_none_left_eq_some] at hkey
      exact some.inj hkey.2
    cases hua : setStr (alloc .userAgent) ua b.userAgent with
    | none => simp [eq_comm]
    | some ua' =>
      obtain rfl : b.userAgent = ua' := by
        simp only [setStr, ite_none_left_eq_some] at hua
        exact some.inj hua.2
      cases hrec : setStr (alloc .received) received (b.received.getD [])
        with
      | none => simp [eq_comm]
      | some received' => simp

theorem setStr_self (a : Bool) (s : Bytes) : setStr a s s = some s := by
  simp [setStr]

/-- A contact on top is where it was when it was on top before. -/
theorem cons_eq_middle {K : Bytes} (hne : ∀ y ∈ l₁, uriOf y ≠ K) (hx : uriOf x = K) :
    x :: (l₁ ++ l₂) = l₁ ++ u :: l₂ ↔ x = u ∧ l₁ = [] := by
  constructor
  · intro h
    cases l₁ with
    | nil => exact ⟨(List.cons.inj h).1, rfl⟩
    | cons y l₁ =>
      obtain ⟨rfl, -⟩ := List.cons.inj h
      exact absurd hx (hne x (by simp))
  · rintro ⟨rfl, rfl⟩
    rfl

theorem middle_inj : l₁ ++ x :: l₂ = l₁ ++ u :: l₂ ↔ x = u := by
  rw [List.append_cancel_left_eq, List.cons.injEq]
  exact and_iff_left rfl

theorem removed_ne : l₁ ++ l₂ ≠ l₁ ++ u :: l₂ := by
  intro h
  have := congrArg List.length h
  simp at this

theorem deleteUcontact_idle :
    deleteUcontact o (l₁ ++ u :: l₂) l₁.length (setMem memOnly u) = l₁ ++ u :: l₂ ↔
      removable o.mode u = false ∧ (stDeleteUcontact o.mode (setMem memOnly u)).1 = u := by
  cases hrem : removable o.mode u with
  | true =>
    have hrem' := (removable_setMem o.mode memOnly).trans hrem
    rw [deleteUcontact_removable hrem']
    exact iff_of_false removed_ne (by simp)
  | false =>
    have hrem' := (removable_setMem o.mode memOnly).trans hrem
    rw [deleteUcontact_buried hrem', middle_inj]
    exact (and_iff_right rfl).symm

theorem memUpdateUcontact_same
     {mode : DbMode}
    (h : stUpdateUcontact mode (({ u with callid := cid } : UContact).refresh b set res) = u) :
    (memUpdateUcontact alloc u b cid set res).2 = true := by
  have hst := (stUpdateUcontact_spec mode
    (({ u with callid := cid } : UContact).refresh b set res)).1
  rw [h] at hst
  have hcid : u.callid = cid := congrArg UContact.callid hst
  have hua : u.userAgent = b.userAgent := congrArg UContact.userAgent hst
  have hrec : u.received = b.received.getD [] := congrArg UContact.received hst
  rw [memUpdateUcontact, ← hcid, setStr_self]
  simp only [memUpdateRest, ← hua, ← hrec, setStr_self]

/-- A complete update that leaves the record as it is. -/
theorem updateUcontact_idle {K : Bytes}
    (hne : ∀ y ∈ l₁, uriOf y ≠ K) (hu : uriOf u = K) :
    (let upd := updateUcontact o alloc (l₁ ++ u :: l₂) l₁.length u b cid set res
      if upd.2 then
        (if o.registrarOrder then moveOnTop upd.1 l₁.length else upd.1,
          (none : Option Rerr))
      else (upd.1, some .ulUpdC)) = (l₁ ++ u :: l₂, none) ↔
      stUpdateUcontact o.mode (({ u with callid := cid } : UContact).refresh b set res) = u ∧
        (o.registrarOrder = true → l₁.length = 0) := by
  dsimp only
  rw [updateUcontact]
  by_cases hdone : (memUpdateUcontact alloc u b cid set res).2 = true
  · rw [if_pos hdone, memUpdateUcontact_done hdone]
    generalize hx : stUpdateUcontact o.mode
      (({ u with callid := cid } : UContact).refresh b set res) = x
    have hxK : uriOf x = K := by
      have hst := (stUpdateUcontact_spec o.mode
        (({ u with callid := cid } : UContact).refresh b set res)).1
      rw [hx] at hst
      rw [← hu, uriOf, hst]
      rfl
    dsimp only
    rw [if_pos rfl, set_middle, Prod.mk.injEq, and_iff_left rfl]
    cases o.registrarOrder with
    | false => simp
    | true =>
      rw [if_pos rfl, moveOnTop_middle, cons_eq_middle hne hxK]
      simp
  · refine iff_of_false ?_ fun h => hdone (memUpdateUcontact_same h.1)
    rw [if_neg hdone]
    simp

/-- An update that fails and leaves the record as it is. -/
theorem updateUcontact_refused : (∃ err,
      (let upd := updateUcontact o alloc (l₁ ++ u :: l₂) l₁.length u b cid set res
        if upd.2 then
          (if o.registrarOrder then moveOnTop upd.1 l₁.length else upd.1,
            (none : Option Rerr))
        else (upd.1, some .ulUpdC)) = (l₁ ++ u :: l₂, some err)) ↔
      WritesNothing alloc u b cid := by
  rw [← memUpdateUcontact_idle set res, updateUcontact]
  by_cases hdone : (memUpdateUcontact alloc u b cid set res).2 = true
  · rw [if_pos hdone]
    refine iff_of_false (by simp) fun h => ?_
    rw [h] at hdone
    simp at hdone
  · rw [if_neg hdone, set_middle]
    simp only [Bool.false_eq_true, if_false, Prod.mk.injEq, exists_and_left,
      middle_inj, some.injEq, exists_eq', and_true]
    constructor
    · intro h
      exact Prod.ext h (by simpa using hdone)
    · intro h
      rw [h]

/-- A contact leaves the record as it is, without an error, when it says what
the record has. -/
theorem updateContact_idle (mem : Memory) (k : ℕ) :
    updateContact par actTime memOnly mem m k l c = (l, none) ↔
      Idle par actTime memOnly m l c := by
  unfold updateContact Idle
  by_cases he : calcContactExpires par actTime m c = 0
  · cases hfind : getUcontact l c.uri with
    | none => simp [he]
    | some found =>
      obtain ⟨i, u⟩ := found
      obtain ⟨l₁, l₂, rfl, rfl, hu, hne⟩ := getUcontact_some hfind
      simp only [if_pos he, Prod.mk.injEq, and_true]
      exact deleteUcontact_idle
  · cases hb : binding par actTime m c with
    | error err => cases getUcontact l c.uri <;> simp [he]
    | ok b =>
      cases hfind : getUcontact l c.uri with
      | none =>
        simp only [if_neg he]
        refine iff_of_false (fun h => ?_) he
        split at h
        · obtain ⟨a, d, state, rfl, hins, -⟩ :=
            insertUcontact_place (o := par.order) (l := l)
              (c := newUcontact c.uri b m.callid (m.nated ||| memOnly))
          exact removed_ne ((Prod.mk.inj h).1.symm.trans hins)
        · simp at h
      | some found =>
        obtain ⟨i, u⟩ := found
        obtain ⟨l₁, l₂, rfl, rfl, hu, hne⟩ := getUcontact_some hfind
        simp only [if_neg he, Except.ok.injEq, exists_eq_left']
        exact updateUcontact_idle hne hu

/-- A contact is refused and leaves the record as it is when nothing is written
before the error. -/
theorem updateContact_refused (memOnly : BitVec 32) :
    (∃ err, updateContact par actTime memOnly mem m k l c = (l, some err)) ↔
      Refused par actTime mem m k l c := by
  unfold updateContact Refused
  by_cases he : calcContactExpires par actTime m c = 0
  · cases getUcontact l c.uri <;> simp [he]
  · cases hb : binding par actTime m c with
    | error err => cases getUcontact l c.uri <;> simp [he]
    | ok b =>
      cases hfind : getUcontact l c.uri with
      | none => cases mem.contact k <;> simp [he]
      | some found =>
        obtain ⟨i, u⟩ := found
        obtain ⟨l₁, l₂, rfl, rfl, hu, hne⟩ := getUcontact_some hfind
        simp only [Except.ok.injEq, forall_eq', ne_eq, he, not_false_eq_true, true_and]
        exact updateUcontact_refused

end Turn

/-! ## The loop -/

section Loop

variable {par : Params} {now : ℕ} {memOnly : BitVec 32} {mem : Memory}
variable {m : Request} {k : ℕ} {l : List UContact} {cs : List ContactT}

/-- The record is never changed exactly when the contacts are quiet. -/
theorem stages_quiet : (∀ l' ∈ stages par now memOnly mem m k l cs, l' = l) ↔
      Quiet par now memOnly mem m l k cs := by
  induction cs generalizing k with
  | nil => simp [stages, Quiet]
  | cons c cs ih =>
    rw [stages, Quiet, ← updateContact_idle mem k, ← updateContact_refused memOnly]
    cases h : updateContact par now memOnly mem m k l c with
    | mk l' err =>
      cases err with
      | some err => simp
      | none =>
        simp only [List.mem_cons, forall_eq_or_imp, Prod.mk.injEq,
          reduceCtorEq, and_false, exists_false, false_or, and_true]
        refine and_congr_right fun hl => ?_
        rw [hl]
        exact ih

/-- A record that is never changed is the same at the end. -/
theorem updateLoop_quiet (h : Quiet par now memOnly mem m l k cs) :
    (updateLoop par now memOnly mem m k l cs).1 = l := by
  induction cs generalizing k with
  | nil => rfl
  | cons c cs ih =>
    rw [updateLoop]
    obtain hrefused | ⟨hidle, hquiet⟩ := h
    · obtain ⟨err, herr⟩ :=
        (updateContact_refused memOnly).mpr hrefused
      rw [herr]
    · rw [(updateContact_idle mem k).mpr hidle]
      exact ih hquiet

end Loop

/-! ## A request -/

section Request

variable {par : Params} {now : ℕ} {entry : Entry} {mem : Memory}
variable {m : Request} {s : State}

theorem insert_error_nil {memOnly : BitVec 32} {cs : List ContactT}
    (h : (insert par now memOnly mem m cs).error ≠ none) :
    contactsOf (insert par now memOnly mem m cs).record = [] := by
  rcases hloop : insertLoop par now memOnly mem m 0 ⟨none, 0⟩ cs with ⟨st, err⟩
  obtain ⟨herr, hrecord⟩ := insert_record hloop
  rw [hrecord]
  cases err with
  | none => exact absurd herr h
  | some err => exact insertLoop_error Making.start hloop

/-- The request passes the test for the number of contacts. -/
def WithinLimit (par : Params) (now : ℕ) (m : Request) (l : List UContact) : Prop :=
  par.maxContacts ≠ 0 → countContacts par now m l (contactList m.contact) ≤ par.maxContacts

theorem process_error {isStar : Bool} {r : Option Rec}
    (h : (process par now entry mem m isStar r).error ≠ none)
    (hquiet : ∀ rec, r = some rec → WithinLimit par now m rec.contacts →
      Quiet par now entry.memOnly mem m rec.contacts 0 (contactList m.contact)) :
    contactsOf (process par now entry mem m isStar r).record =
      contactsOf r := by
  unfold process at h ⊢
  split
  · rename_i hnone
    rw [if_pos hnone] at h
    cases isStar <;> exact absurd rfl h
  · rename_i hsome
    rw [if_neg hsome] at h
    cases r with
    | none => exact insert_error_nil h
    | some rec =>
      change contactsOf (releaseUrecord _) = _
      rw [contactsOf_release]
      change (update par now entry.memOnly mem m rec.contacts
        (contactList m.contact)).1 = rec.contacts
      unfold update
      split
      · rfl
      · rename_i hmany
        refine updateLoop_quiet (hquiet rec rfl fun hmax => ?_)
        by_contra hlt
        exact hmany ⟨hmax, not_le.mp hlt⟩

/-- The contacts that the loop of `update` comes to, if it is entered, say what
the record has, up to the one that is refused. -/
def Undisturbed (par : Params) (now : ℕ) (entry : Entry) (mem : Memory)
    (m : Request) (s : State) : Prop :=
  ∀ aor rec isStar, m.parsed = none → checkContacts par s.actTime m = .ok isStar → m.aor = .ok aor →
    s.location aor = some rec → WithinLimit par now m rec.contacts →
    Quiet par now entry.memOnly mem m rec.contacts 0 (contactList m.contact)

/-- A request that is answered with an error leaves the contacts as they were
when it is undisturbed, and otherwise has changed some on its way. -/
theorem error_keeps_contacts (herror : (saveReal par now entry mem m s).error ≠ none) :
    (Undisturbed par now entry mem m s → ∀ aor,
      contactsOf ((saveReal par now entry mem m s).state.location aor) =
        contactsOf (s.location aor)) ∧
    (¬Undisturbed par now entry mem m s → ∃ aor rec, m.aor = .ok aor ∧ s.location aor = some rec ∧
      ∃ l ∈ stages par now entry.memOnly mem m 0 rec.contacts
        (contactList m.contact), l ≠ rec.contacts) := by
  constructor
  · intro hquiet aor
    generalize hresult : saveReal par now entry mem m s = result at herror ⊢
    have h := hresult ▸ saveReal_handled par now entry mem m s
    cases h with
    | refused hlocation hbuffer => rw [finish_location, hlocation]
    | processed hparsed hcheck haor =>
      rename_i isStar aor'
      rw [finish_error] at herror
      rw [finish_location]
      by_cases hsame : aor = aor'
      · subst hsame
        simp only [State.commit, Function.update_self]
        exact process_error herror fun rec hrec hlimit =>
          hquiet aor rec isStar hparsed hcheck haor hrec hlimit
      · simp only [State.commit, Function.update_of_ne hsame]
  · intro hloud
    simp only [Undisturbed, not_forall] at hloud
    obtain ⟨aor, rec, isStar, -, -, haor, hrec, -, hquiet⟩ := hloud
    refine ⟨aor, rec, haor, hrec, ?_⟩
    rw [← stages_quiet] at hquiet
    simpa using hquiet

end Request

/-- A contact whose q parameter is not a number. -/
def ContactT.badQ (uri : Bytes) : ContactT :=
  { ContactT.expiring uri 60 with q := some none }

def firstContact : State :=
  (saveReal .default 0 .save .plenty
    (.register (ascii "a") [.expiring (ascii "sip:a") 60]) .fresh).state

theorem error_keeps_contacts_badQ :
    (Undisturbed .default 10 .save .plenty
        (.register (ascii "a") [.badQ (ascii "sip:a")]) firstContact →
      ∀ aor, contactsOf ((saveReal .default 10 .save .plenty
            (.register (ascii "a") [.badQ (ascii "sip:a")])
            firstContact).state.location aor) =
        contactsOf (firstContact.location aor)) ∧
    (¬Undisturbed .default 10 .save .plenty
        (.register (ascii "a") [.badQ (ascii "sip:a")]) firstContact →
      ∃ aor rec, (Request.register (ascii "a") [.badQ (ascii "sip:a")]).aor = .ok aor ∧
        firstContact.location aor = some rec ∧
        ∃ l ∈ stages .default 10 Entry.save.memOnly .plenty
          (.register (ascii "a") [.badQ (ascii "sip:a")]) 0 rec.contacts
          (contactList (Request.register (ascii "a") [.badQ (ascii "sip:a")]).contact),
          l ≠ rec.contacts) :=
  error_keeps_contacts (by decide)

/-- The contact in front of one with a bad q parameter stays registered. -/
theorem partly_registered :
    ¬∀ (par : Params) (now : ℕ) (entry : Entry) (mem : Memory) (m : Request)
        (s : State), (saveReal par now entry mem m s).error ≠ none →
      ∀ aor, contactsOf ((saveReal par now entry mem m s).state.location aor) =
        contactsOf (s.location aor) := by
  intro h
  have hpart := h .default 10 .save .plenty (.register (ascii "a")
      [.expiring (ascii "sip:b") 60, .badQ (ascii "sip:c")]) firstContact
    (by decide) (ascii "a")
  revert hpart
  decide

end Msicp.Registrar
