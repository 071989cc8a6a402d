import Msicp.Registrar.Steps

/-!
# The contacts listed in a reply

The Contact header field of a reply comes from a buffer that outlives the
request.  `send_reply` empties it, `save_noreply` does not, and some requests
are answered without filling it again.  A reply lists the contacts of its own
address when the buffer is empty or filled again for it.
-/

namespace Msicp.Registrar

open Msicp.Support
open Option hiding or_self
open Msicp.Usrloc

/-! ## What is printed -/

section Built

variable {par : Params} {now : ℕ} {memOnly : BitVec 32} {entry : Entry}
variable {mem : Memory} {m : Request} {cs : List ContactT}

theorem insert_built {l : List UContact} (h : (insert par now memOnly mem m cs).built = some l) :
    contactsOf (insert par now memOnly mem m cs).record = l := by
  unfold insert at h ⊢
  repeat' split at h
  all_goals simp_all [contactsOf]

/-- What is printed are the contacts that the address has in the end. -/
theorem process_built {isStar : Bool} {r : Option Rec} {l : List UContact}
    (h : (process par now entry mem m isStar r).built = some l) :
    contactsOf (process par now entry mem m isStar r).record = l := by
  unfold process at h ⊢
  split
  · rename_i hnone
    rw [if_pos hnone] at h
    cases isStar with
    | true => simp [star] at h
    | false =>
      obtain ⟨rec, rfl, rfl⟩ := map_eq_some_iff.mp h
      rfl
  · rename_i hsome
    rw [if_neg hsome] at h
    cases r with
    | none => exact insert_built h
    | some rec =>
      obtain rfl := some.inj h
      exact contactsOf_release _

/-- Every contact that is to be inserted can be. -/
def Insertable (par : Params) (now : ℕ) (mem : Memory) (m : Request) : ℕ → ℕ → List ContactT → Prop
  | _, _, [] => True
  | k, num, c :: cs =>
    if calcContactExpires par now m c = 0 then
      Insertable par now mem m (k + 1) num cs
    else
      (par.maxContacts ≠ 0 → num < par.maxContacts) ∧ mem.record = true ∧
        (∃ b, binding par now m c = .ok b) ∧ mem.contact k = true ∧
        Insertable par now mem m (k + 1) (num + 1) cs

theorem insertContact_insertable (memOnly : BitVec 32) {k : ℕ}
    {st : Inserting} {c : ContactT}
    (he : calcContactExpires par now m c ≠ 0)
    (hroom : par.maxContacts ≠ 0 → st.num < par.maxContacts)
    (hrecord : mem.record = true) (hb : ∃ b, binding par now m c = .ok b)
    (hcontact : mem.contact k = true) :
    ∃ st', insertContact par now memOnly mem m k st c = (st', none) ∧
      st'.num = st.num + 1 ∧ contactsOf st'.record ≠ [] := by
  obtain ⟨b, hb⟩ := hb
  have hmax : ¬(par.maxContacts ≠ 0 ∧ par.maxContacts ≤ st.num) :=
    fun h => absurd (hroom h.1) (not_lt.mpr h.2)
  have hmem : ¬(st.record.isNone = true ∧ (!mem.record) = true) := by
    simp [hrecord]
  obtain ⟨a, d, state, -, hins, -⟩ := insertUcontact_place (o := par.order)
    (l := (st.record.getD ⟨[], 0⟩).contacts)
    (c := newUcontact c.uri b m.callid (m.nated ||| memOnly))
  unfold insertContact
  simp only [if_neg he, if_neg hmax, if_neg hmem, hb, if_pos hcontact]
  refine ⟨_, rfl, rfl, ?_⟩
  change insertUcontact _ _ _ ≠ []
  rw [hins]
  simp

theorem insertLoop_insertable (memOnly : BitVec 32) {k : ℕ} (st : Inserting)
    (h : Insertable par now mem m k st.num cs)
    (hsome : contactsOf st.record ≠ [] ∨ ∃ c ∈ cs, calcContactExpires par now m c ≠ 0) :
    ∃ st', insertLoop par now memOnly mem m k st cs = (st', none) ∧ contactsOf st'.record ≠ [] := by
  induction cs generalizing k st with
  | nil => exact ⟨st, rfl, by simpa using hsome⟩
  | cons c cs ih =>
    rw [insertLoop]
    by_cases he : calcContactExpires par now m c = 0
    · rw [Insertable, if_pos he] at h
      have hskip : insertContact par now memOnly mem m k st c = (st, none) := by
        rw [insertContact]
        exact if_pos he
      rw [hskip]
      exact ih st h (by simpa [he] using hsome)
    · rw [Insertable, if_neg he] at h
      obtain ⟨hroom, hrecord, hb, hcontact, hrest⟩ := h
      obtain ⟨st', hst', hnum, hne⟩ := insertContact_insertable memOnly he hroom hrecord hb hcontact
      rw [hst']
      exact ih st' (hnum ▸ hrest) (.inl hne)

theorem insert_insertable (h : Insertable par now mem m 0 0 cs)
    (hsome : ∃ c ∈ cs, calcContactExpires par now m c ≠ 0) :
    ∃ l, (insert par now memOnly mem m cs).built = some l := by
  obtain ⟨st, hloop, hne⟩ := insertLoop_insertable memOnly ⟨none, 0⟩ h (.inr hsome)
  rw [insert, hloop]
  cases hr : st.record with
  | none => simp [hr, contactsOf] at hne
  | some r =>
    rw [hr] at hne
    have hempty : ¬r.contacts.isEmpty = true :=
      fun h => hne (List.isEmpty_iff.mp h)
    exact ⟨r.contacts, by simp [hr, hempty]⟩

end Built

/-! ## One request -/

/-- The request fills the buffer for its own address. -/
def Call.Rebuilds (par : Params) (call : Call) (s : State) : Prop :=
  call.request.parsed = none ∧ ∃ isStar aor, checkContacts par s.actTime call.request = .ok isStar ∧
    call.request.aor = .ok aor ∧
    match s.location aor with
    | some _ => contactList call.request.contact ≠ [] ∨ isStar = false
    | none =>
      Insertable par call.now call.mem call.request 0 0 (contactList call.request.contact) ∧
      ∃ c ∈ contactList call.request.contact, calcContactExpires par call.now call.request c ≠ 0

/-- There is no reply, or nothing left of earlier requests gets into it. -/
def Call.Clean (par : Params) (call : Call) (s : State) : Prop :=
  call.entry.doreply = false ∨ s.buffer = [] ∨ call.Rebuilds par s

/-- A reply, with the call it answers and the state that the call leaves. -/
structure Answer where
  call : Call
  after : State
  reply : Reply

/-- The reply lists valid contacts of the address of its request. -/
def Answer.Own (a : Answer) : Prop :=
  ∀ c ∈ a.reply.contact, ∃ aor, a.call.request.aor = .ok aor ∧
    ∃ u ∈ contactsOf (a.after.location aor), u.valid a.call.now = true ∧ c = printed a.call.now u

section Call

variable {par : Params} {call : Call} {s : State}

theorem mem_buildContact {mem : Memory} {now : ℕ} {l : List UContact}
    {c : Listed} (h : c ∈ buildContact mem now l) :
    ∃ u ∈ l, u.valid now = true ∧ c = printed now u := by
  unfold buildContact at h
  split at h
  · obtain ⟨u, hu, rfl⟩ := List.mem_map.mp h
    rw [List.mem_filter] at hu
    exact ⟨u, hu.1, hu.2, rfl⟩
  · simp at h

theorem Call.Rebuilds.built {isStar : Bool} {aor : Bytes} (h : call.Rebuilds par s)
    (hcheck : checkContacts par s.actTime call.request = .ok isStar)
    (haor : call.request.aor = .ok aor) :
    ∃ l, (process par call.now call.entry call.mem call.request isStar
      (s.location aor)).built = some l := by
  obtain ⟨-, isStar', aor', hcheck', haor', h⟩ := h
  obtain rfl := Except.ok.inj (hcheck.symm.trans hcheck')
  obtain rfl := Except.ok.inj (haor.symm.trans haor')
  unfold process
  cases hr : s.location aor with
  | some rec =>
    rw [hr] at h
    dsimp only at h
    by_cases hnone : contactList call.request.contact = []
    · obtain rfl := h.resolve_left (fun hne => hne hnone)
      rw [hnone]
      exact ⟨rec.contacts, rfl⟩
    · rw [if_neg (by simpa using hnone)]
      exact ⟨_, rfl⟩
  | none =>
    rw [hr] at h
    obtain ⟨hins, c, hc, he⟩ := h
    rw [if_neg (by simpa using List.ne_nil_of_mem hc)]
    exact insert_insertable hins ⟨c, hc, he⟩

theorem saveReal_own {reply : Reply} (hclean : call.Clean par s)
    (hreply : (saveReal par call.now call.entry call.mem call.request s).reply = some reply) :
    Answer.Own
      { call := call
        after :=
          (saveReal par call.now call.entry call.mem call.request s).state
        reply := reply } := by
  intro c hc
  dsimp only at hc ⊢
  generalize hresult : saveReal par call.now call.entry call.mem call.request s = result at *
  have h := hresult ▸ saveReal_handled par call.now call.entry call.mem call.request s
  cases h with
  | refused hlocation hbuffer hwhy =>
    obtain ⟨hdoreply, hcontact⟩ := finish_reply hreply
    obtain hno | hempty | ⟨hparsed, isStar, aor, hcheck, haor, -⟩ := hclean
    · simp [hdoreply] at hno
    · rw [hbuffer, hempty, or_self] at hcontact
      simp [hcontact] at hc
    · exact absurd haor (hwhy isStar aor hparsed hcheck)
  | processed hparsed hcheck haor =>
    rename_i isStar aor
    obtain ⟨hdoreply, hcontact⟩ := finish_reply hreply
    rw [finish_location]
    refine ⟨aor, haor, ?_⟩
    have hbuffer : reply.contact = [] ∨ reply.contact =
        (State.commit { s with actTime := call.now } call.mem aor
          (process par call.now call.entry call.mem call.request isStar
            (s.location aor))).buffer := hcontact.symm
    simp only [State.commit, Function.update_self] at hbuffer ⊢
    have hprinted : ∀ l, (process par call.now call.entry call.mem
        call.request isStar (s.location aor)).built = some l → ∃ u ∈ contactsOf
          (process par call.now call.entry call.mem call.request isStar (s.location aor)).record,
        u.valid call.now = true ∧ c = printed call.now u := by
      intro l hbuilt
      rw [hbuilt] at hbuffer
      rw [process_built hbuilt]
      obtain hnil | hbuffer := hbuffer
      · simp [hnil] at hc
      · exact mem_buildContact (hbuffer ▸ hc)
    obtain hno | hempty | hrebuilds := hclean
    · simp [hdoreply] at hno
    · cases hbuilt : (process par call.now call.entry call.mem call.request
          isStar (s.location aor)).built with
      | some l => exact hprinted l hbuilt
      | none =>
        rw [hbuilt] at hbuffer
        dsimp only at hbuffer
        rw [hempty, or_self] at hbuffer
        simp [hbuffer] at hc
    · obtain ⟨l, hbuilt⟩ := hrebuilds.built hcheck haor
      exact hprinted l hbuilt

end Call

/-! ## Every run -/

/-- The process and the replies that it has sent. -/
structure Log where
  state : State
  answers : List Answer

def logging (par : Params) : Machine Log Call where
  init log := log.state.buffer = [] ∧ log.answers = []
  step call log :=
    let result :=
      saveReal par call.now call.entry call.mem call.request log.state
    some
      { state := result.state
        answers := log.answers ++ (result.reply.map fun reply =>
          { call := call, after := result.state, reply := reply }).toList }

theorem logging_step {par : Params} {ok : Call → Log → Prop} {log : Log}
    (call : Call) (h : (logging par).ReachWhen ok log) (hok : ok call log) :
    (logging par).ReachWhen ok (((logging par).step call log).get rfl) :=
  .step h hok rfl

/-- A contact of one address is registered without a reply. -/
def silent : Call where
  entry := .saveNoreply
  now := 0
  mem := .plenty
  request := .register (ascii "a") [.expiring (ascii "sip:a") 60]

/-- All contacts of another address are removed. -/
def removeAll : Call where
  entry := .save
  now := 10
  mem := .plenty
  request :=
    { Request.register (ascii "b") [] with
      contact := [{ star := true, contacts := [] }]
      expires := some (some 0) }

def Log.fresh : Log where
  state := .fresh
  answers := []

theorem Answer.Own.contact_mem {a : Answer} (h : a.Own) {aor : Bytes}
    (haor : a.call.request.aor = .ok aor) :
    ∀ c ∈ a.reply.contact, c ∈ (contactsOf (a.after.location aor)).map (printed a.call.now) := by
  intro c hc
  obtain ⟨aor', haor', u, hu, -, rfl⟩ := h c hc
  obtain rfl := Except.ok.inj (haor.symm.trans haor')
  exact List.mem_map_of_mem hu

def afterRemoveAll : Log :=
  ((logging .default).step removeAll (((logging .default).step silent .fresh).get rfl)).get rfl

end Msicp.Registrar
