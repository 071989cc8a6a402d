import Msicp.Nathelper.AllContacts

/-!
# The nathelper timer (`timer`)

The timer fetches the contacts into a buffer of the length that was enough the
last time.  When it is too short, the timer tries once more with a buffer of
twice the length that is reported.  That length is what is missing, not what is
needed, so the second buffer can be shorter than the first one.  Another
process may change the location store between the two calls.
-/

namespace Msicp.Nathelper

open Msicp.Support
open List hiding takeWhile_eq_self_iff

/-- Memory as `pkg_malloc` returns it. -/
def fresh (junk : ℕ → UInt8) (n : ℕ) : Bytes := (List.range n).map junk

/-- `cblen` for the next time, and the URIs that the loop takes from the
buffer. -/
structure Tick where
  cblen : ℕ
  uris : List Bytes

/-- The loop of `timer` up to the call of `parse_uri`. -/
def walk (cblen : ℕ) (mem : Bytes) : Except Fault Tick :=
  if mem = [] then .ok { cblen := cblen, uris := [] }
  else
    match readEntries mem (mem.length + 1) 0 with
    | some uris => .ok { cblen := cblen, uris := uris }
    | none => .error .outOfBounds

/-- `timer`, with memory left; `root'` is the location store at the second
call of `get_all_ucontacts`. -/
def timer (junk : ℕ → UInt8) (flags : BitVec 32) (cblen : ℕ)
    (root root' : Root) : Except Fault Tick := do
  let (mem, rval) ← getAllUcontacts (fresh junk cblen) flags root
  if 0 < rval then
    let cblen := (rval * 2).toNat
    let (mem, rval) ← getAllUcontacts (fresh junk cblen) flags root'
    if rval ≠ 0 then .ok { cblen := cblen, uris := [] } else walk cblen mem
  else walk cblen mem

/-- The URIs to ping. -/
def expected (flags : BitVec 32) (root : Root) : List Bytes :=
  (matching flags root).map fun c => c.uri.bytes

/-- The bytes that `get_all_ucontacts` asks for. -/
def listedNeed (flags : BitVec 32) (root : Root) : ℕ :=
  need ((listed flags root).map Text.bytes)

/-- The location store whose contacts the timer reads. -/
def readStore (flags : BitVec 32) (cblen : ℕ) (root root' : Root) : Root :=
  if listedNeed flags root ≤ cblen then root else root'

/-- `get_all_ucontacts` stays in every buffer and returns 0 exactly when the
matching contacts and the terminator fit. -/
def Fills (flags : BitVec 32) (root : Root) : Prop :=
  ∀ mem : Bytes, ∃ mem' ret, getAllUcontacts mem flags root = .ok (mem', ret) ∧
    mem'.length = mem.length ∧
    (ret = 0 ↔ need (expected flags root) ≤ mem.length)

/-- The timer takes exactly the matching contacts from the buffer. -/
def Decodes (junk : ℕ → UInt8) (flags : BitVec 32) (cblen : ℕ) (root root' : Root) : Prop :=
  ∃ cblen', timer junk flags cblen root root' =
    .ok { cblen := cblen'
          uris := expected flags (readStore flags cblen root root') }

/-- No matching contact has an empty URI. -/
def NamesContacts (flags : BitVec 32) (root : Root) : Prop :=
  ∀ c ∈ matching flags root, c.c.bytes ≠ []

/-- No matching contact has an empty `received`. -/
def NamesReceived (flags : BitVec 32) (root : Root) : Prop :=
  ∀ c ∈ matching flags root, ∀ r ∈ c.received, r.bytes ≠ []

/-- The first buffer is long enough, or twice what is missing is. -/
def BufferFits (flags : BitVec 32) (cblen : ℕ) (root root' : Root) : Prop :=
  listedNeed flags root ≤ cblen ∨ listedNeed flags root' ≤ (listedNeed flags root - cblen) * 2

instance (flags : BitVec 32) (cblen : ℕ) (root root' : Root) :
    Decidable (BufferFits flags cblen root root') :=
  inferInstanceAs (Decidable (_ ∨ _))

section Contents

variable {flags : BitVec 32} {root root' : Root} {junk : ℕ → UInt8}
variable {cblen : ℕ} {mem : Bytes}

@[simp] theorem fresh_length (junk : ℕ → UInt8) (n : ℕ) : (fresh junk n).length = n := by
  simp [fresh]

theorem listed_length_lt : ∀ x ∈ (listed flags root).map Text.bytes, x.length < 2 ^ 32 := by
  intro x hx
  obtain ⟨y, -, rfl⟩ := List.mem_map.mp hx
  exact y.length_lt.trans (by norm_num)

theorem length_le_pack (xs : List Bytes) : xs.length ≤ (pack xs).length := by
  induction xs with
  | nil => simp
  | cons x xs ih =>
    simp only [pack_cons, List.length_append, length_cons, entry_length]
    omega

/-- A buffer with all texts is read up to the first empty one. -/
theorem walk_packed {xs : List Bytes} {tail : Bytes} (hmem : mem = pack xs ++ word 0 ++ tail)
    (hlen : ∀ x ∈ xs, x.length < 2 ^ 32) :
    walk cblen mem = .ok { cblen := cblen, uris := xs.takeWhile fun x => x != [] } := by
  have hne : mem ≠ [] := by
    rw [hmem]
    simp [word]
  have hfuel : xs.length < mem.length + 1 := by
    have := length_le_pack xs
    rw [hmem]
    simp only [List.length_append]
    omega
  have hread := readEntries_pack (show mem = [] ++ pack xs ++ word 0 ++ tail from hmem) hlen hfuel
  rw [walk, if_neg hne]
  change (match readEntries mem (mem.length + 1) ([] : Bytes).length with
    | some uris => _ | none => _) = _
  rw [hread]

theorem timer_eq (junk : ℕ → UInt8) (flags : BitVec 32) (cblen : ℕ) (root root' : Root) :
    ∃ cblen', timer junk flags cblen root root' =
      .ok { cblen := cblen'
            uris :=
              if BufferFits flags cblen root root' then
                ((listed flags (readStore flags cblen root root')).map
                  Text.bytes).takeWhile fun x => x != []
              else [] } := by
  have hrest : ∀ n (store : Root), listedNeed flags store ≤ n →
      ∃ mem, getAllUcontacts (fresh junk n) flags store = .ok (mem, 0) ∧ ∀ k, walk k mem = .ok
          { cblen := k
            uris := ((listed flags store).map Text.bytes).takeWhile fun x => x != [] } := by
    intro n store hn
    obtain ⟨mem, hget, -, hpacked⟩ :=
      getAllUcontacts_packs (fresh junk n) flags store rfl
    rw [fresh_length] at hget hpacked
    obtain ⟨tail, hmem⟩ := hpacked hn
    have hzero : max 0 ((listedNeed flags store : ℤ) - n) = 0 := by omega
    refine ⟨mem, ?_, fun k => walk_packed hmem listed_length_lt⟩
    rw [hget]
    exact congrArg (fun r => Except.ok (mem, r)) hzero
  by_cases hfirst : listedNeed flags root ≤ cblen
  · obtain ⟨mem, hget, hwalk⟩ := hrest cblen root hfirst
    have hfits : BufferFits flags cblen root root' := Or.inl hfirst
    refine ⟨cblen, ?_⟩
    rw [timer, hget, readStore, if_pos hfirst, if_pos hfits]
    exact hwalk cblen
  · obtain ⟨mem, hget, -, -⟩ :=
      getAllUcontacts_packs (fresh junk cblen) flags root rfl
    rw [fresh_length] at hget
    have hmiss : max 0 ((listedNeed flags root : ℤ) - cblen) =
        (listedNeed flags root - cblen : ℕ) := by omega
    change _ = Except.ok (mem, max 0 ((listedNeed flags root : ℤ) - cblen)) at hget
    rw [hmiss] at hget
    have hpos : (0 : ℤ) < (listedNeed flags root - cblen : ℕ) := by omega
    have htwice : (((listedNeed flags root - cblen : ℕ) : ℤ) * 2).toNat =
        (listedNeed flags root - cblen) * 2 := by omega
    refine ⟨(listedNeed flags root - cblen) * 2, ?_⟩
    rw [timer, hget, readStore, if_neg hfirst]
    change (if (0 : ℤ) < (listedNeed flags root - cblen : ℕ) then _
      else _) = _
    rw [if_pos hpos, htwice]
    by_cases hsecond : listedNeed flags root' ≤ (listedNeed flags root - cblen) * 2
    · obtain ⟨mem', hget', hwalk⟩ := hrest _ root' hsecond
      have hfits : BufferFits flags cblen root root' := Or.inr hsecond
      rw [hget', if_pos hfits]
      exact hwalk _
    · obtain ⟨mem', hget', -, -⟩ := getAllUcontacts_packs
        (fresh junk ((listedNeed flags root - cblen) * 2)) flags root' rfl
      rw [fresh_length] at hget'
      have hfits : ¬BufferFits flags cblen root root' :=
        fun h => h.elim hfirst hsecond
      have hret : max 0 ((listedNeed flags root' : ℤ) -
          ((listedNeed flags root - cblen) * 2 : ℕ)) ≠ 0 := by omega
      rw [hget', if_neg hfits]
      change (if max 0 ((listedNeed flags root' : ℤ) -
        ((listedNeed flags root - cblen) * 2 : ℕ)) ≠ 0 then _ else _) = _
      rw [if_pos hret]

theorem listed_bytes : (listed flags root).map Text.bytes =
      ((matching flags root).filter fun c => c.c.bytes != []).map fun c => c.uri.bytes := by
  rw [listed, List.map_map]
  rfl

theorem listed_eq_expected (h : NamesContacts flags root) :
    (listed flags root).map Text.bytes = expected flags root := by
  rw [listed_bytes, expected, filter_eq_self.mpr]
  intro c hc
  simpa using h c hc

/-- Contacts with an empty URI are left out, and then less is needed. -/
theorem listedNeed_lt (h : ¬NamesContacts flags root) :
    listedNeed flags root < need (expected flags root) := by
  unfold NamesContacts at h
  push Not at h
  obtain ⟨c, hc, hempty⟩ := h
  obtain ⟨l₁, l₂, hsplit⟩ := append_of_mem hc
  have hle : ∀ l : List Contact, (pack ((l.filter fun c => c.c.bytes != []).map
        fun c => c.uri.bytes)).length ≤
        (pack (l.map fun c => c.uri.bytes)).length := by
    intro l
    induction l with
    | nil => exact le_rfl
    | cons d l ih =>
      rw [filter_cons]
      split_ifs <;> simp only [map_cons, pack_cons, List.length_append] <;> omega
  have h₁ := hle l₁
  have h₂ := hle l₂
  rw [listedNeed, listed_bytes, expected, need, need, hsplit,
    filter_append, filter_cons_of_neg (by simp [hempty])]
  simp only [map_append, map_cons, pack_append, pack_cons, List.length_append, entry_length]
  omega

theorem fills_iff : Fills flags root ↔ NamesContacts flags root := by
  constructor
  · intro hfills
    by_contra hnames
    have hlt := listedNeed_lt hnames
    let junk : ℕ → UInt8 := fun _ => 0
    obtain ⟨mem₁, ret, hget, -, hret⟩ :=
      hfills (fresh junk (listedNeed flags root))
    obtain ⟨mem₂, hget', -, -⟩ := getAllUcontacts_packs
      (fresh junk (listedNeed flags root)) flags root rfl
    rw [hget] at hget'
    have hzero : ret = 0 := by
      have hpair := (Prod.mk.inj (Except.ok.inj hget')).2
      rw [hpair, fresh_length]
      change max 0 ((listedNeed flags root : ℤ) - listedNeed flags root) = 0
      simp
    have hfit := hret.mp hzero
    rw [fresh_length] at hfit
    omega
  · intro hnames mem
    obtain ⟨mem', hget, hlen, -⟩ := getAllUcontacts_packs mem flags root
      (listed_eq_expected hnames).symm
    refine ⟨mem', _, hget, hlen, ?_⟩
    omega

theorem takeWhile_eq_self_iff (hnames : NamesContacts flags root) :
    ((expected flags root).takeWhile fun x => x != []) =
        expected flags root ↔ NamesReceived flags root := by
  rw [List.takeWhile_eq_self_iff]
  constructor
  · intro h c hc r hr
    have huri := h c.uri.bytes (List.mem_map.mpr ⟨c, hc, rfl⟩)
    have hr' : c.received = some r := hr
    rw [Contact.uri, hr'] at huri
    simpa using huri
  · intro h x hx
    obtain ⟨c, hc, rfl⟩ := List.mem_map.mp hx
    cases hrec : c.received with
    | none =>
      have := hnames c hc
      simpa [Contact.uri, hrec] using this
    | some r =>
      have := h c hc r hrec
      simpa [Contact.uri, hrec] using this

theorem decodes_iff (hnames : NamesContacts flags (readStore flags cblen root root')) :
    Decodes junk flags cblen root root' ↔ expected flags (readStore flags cblen root root') = [] ∨
        NamesReceived flags (readStore flags cblen root root') ∧
          BufferFits flags cblen root root' := by
  obtain ⟨cblen', htimer⟩ := timer_eq junk flags cblen root root'
  rw [listed_eq_expected hnames] at htimer
  have hdecodes : Decodes junk flags cblen root root' ↔ (if BufferFits flags cblen root root' then
        (expected flags (readStore flags cblen root root')).takeWhile fun x => x != [] else []) =
        expected flags (readStore flags cblen root root') := by
    unfold Decodes
    rw [htimer]
    constructor
    · rintro ⟨n, h⟩
      exact congrArg Tick.uris (Except.ok.inj h)
    · intro h
      exact ⟨cblen', by rw [h]⟩
  rw [hdecodes, ← takeWhile_eq_self_iff hnames]
  split_ifs with hfits
  · simp only [hfits, and_true]
    constructor
    · exact Or.inr
    · rintro (h | h)
      · rw [h]
        rfl
      · exact h
  · simp only [hfits, and_false, or_false]
    exact eq_comm

end Contents

/-- The timer takes from the buffer exactly the contacts that match, and
`get_all_ucontacts` counts them right, if and only if no matching contact has
an empty URI, and there is no matching contact, or none has an empty `received`
and the first buffer is long enough or twice what it lacks is. -/
theorem timer_delivers_iff (junk : ℕ → UInt8) (flags : BitVec 32) (cblen : ℕ) (root root' : Root) :
    (Fills flags root ∧ Fills flags root' ∧ Decodes junk flags cblen root root') ↔
      (NamesContacts flags root ∧ NamesContacts flags root') ∧
        (expected flags (readStore flags cblen root root') = [] ∨
          NamesReceived flags (readStore flags cblen root root') ∧
            BufferFits flags cblen root root') := by
  rw [fills_iff, fills_iff, and_assoc]
  refine and_congr_right fun hroot => and_congr_right fun hroot' => ?_
  apply decodes_iff
  unfold readStore
  split_ifs
  · exact hroot
  · exact hroot'

/-- A contact as `preload_udomain` makes it from a row whose `received` is an
empty string, as `db_insert_ucontact` writes it for a null pointer. -/
def preloaded : Contact where
  c := ⟨ascii "sip:h", by decide⟩
  received := some ⟨[], by decide⟩
  flags := 0

/-- A preloaded contact without `received` ends the list. -/
theorem preloaded_contact_missed : ¬(Fills 0 [[[preloaded]]] ∧ Fills 0 [[[preloaded]]] ∧
      Decodes (fun _ => 0) 0 100 [[[preloaded]]] [[[preloaded]]]) := by
  rintro ⟨-, -, cblen', htimer⟩
  have hrun : (timer (fun _ => 0) 0 100 [[[preloaded]]]
      [[[preloaded]]]).toOption.map Tick.uris = some [] := by decide
  rw [htimer] at hrun
  have hnone : expected 0 (readStore 0 100 [[[preloaded]]] [[[preloaded]]]) =
      [] := Option.some.inj hrun
  revert hnone
  decide

end Msicp.Nathelper
