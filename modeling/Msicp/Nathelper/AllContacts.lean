import Msicp.Support.Buffer

/-!
# Packing the contacts of the location store (`get_all_ucontacts`)

The contacts that have all requested flags are packed into the buffer of the
caller, each with its length before it.  A contact that does not fit any more
is counted as shortage, and the ones behind it are still tried.
-/

namespace Msicp.Nathelper

open Msicp.Support List

/-- A `str`, whose length is an `int`. -/
structure Text where
  bytes : Bytes
  length_lt : bytes.length < 2 ^ 31

/-- The fields of `ucontact_t` that are read; `received` is `none` when its
pointer is null. -/
structure Contact where
  c : Text
  received : Option Text
  flags : BitVec 32

/-- The domains behind `root`, each with its records and their contacts. -/
abbrev Root := List (List (List Contact))

/-- What stops `get_all_ucontacts` or the reader of the buffer. -/
inductive Fault
  | outOfBounds
  | abort

/-- The buffer and the local variables of `get_all_ucontacts`. -/
structure Packing where
  mem : Bytes
  cp : ℕ
  len : ℤ
  shortage : ℤ

/-- `memcpy` into the buffer. -/
def copy (mem : Bytes) (cp : ℕ) (bs : Bytes) : Except Fault Bytes :=
  match write mem cp bs with
  | some mem => .ok mem
  | none => .error .outOfBounds

/-- The two branches for `received` and for `c` do the same. -/
def packText (st : Packing) (x : Text) : Except Fault Packing :=
  if st.len ≥ 4 + x.bytes.length then do
    let mem ← copy st.mem st.cp (word x.bytes.length)
    let mem ← copy mem (st.cp + 4) x.bytes
    pure { st with
      mem := mem
      cp := st.cp + 4 + x.bytes.length
      len := st.len - (4 + x.bytes.length) }
  else pure { st with shortage := st.shortage + (4 + x.bytes.length) }

/-- The body of the loop over the contacts of a record. -/
def packContact (flags : BitVec 32) (st : Packing) (c : Contact) :
    Except Fault Packing :=
  if c.c.bytes.length ≤ 0 then pure st
  else if c.flags &&& flags ≠ flags then pure st
  else
    match c.received with
    | some received => packText st received
    | none => packText st c.c

/-- The body of the loop over the domains. -/
def packDomain (flags : BitVec 32) (st : Packing)
    (records : List (List Contact)) : Except Fault Packing :=
  if records.length ≤ 0 then pure st
  else records.foldlM (fun st r => r.foldlM (packContact flags) st) st

/-- The terminating zero length, for which space was reserved. -/
def terminate (st : Packing) : Except Fault Bytes :=
  if st.len ≥ 0 then copy st.mem st.cp [0, 0, 0, 0] else .ok st.mem

/-- `get_all_ucontacts` with the buffer `mem` of length `len`. -/
def getAllUcontacts (mem : Bytes) (flags : BitVec 32) (root : Root) : Except Fault (Bytes × ℤ) := do
  let st ← root.foldlM (packDomain flags)
    { mem := mem, cp := 0, len := mem.length - 4, shortage := 0 }
  let mem ← terminate st
  if 0 < st.shortage ∧ st.shortage < st.len then .error .abort
  else
    let shortage := st.shortage - st.len
    .ok (mem, if 0 < shortage then shortage else 0)

/-- The contacts with all requested flags. -/
def matching (flags : BitVec 32) (root : Root) : List Contact :=
  root.flatten.flatten.filter fun c => c.flags &&& flags = flags

/-- The URI to ping: `received` if it is present, else the contact. -/
def Contact.uri (c : Contact) : Text := c.received.getD c.c

/-- The texts that are packed. -/
def listed (flags : BitVec 32) (root : Root) : List Text :=
  ((matching flags root).filter fun c => c.c.bytes != []).map Contact.uri

/-- The bytes that texts and the terminator need. -/
def need (xs : List Bytes) : ℕ := (pack xs).length + 4

section Packing

variable {flags : BitVec 32} {st : Packing} {root : Root} {c : Contact}

theorem packContact_eq (flags : BitVec 32) (st : Packing) (c : Contact) : packContact flags st c =
      (listed flags [[[c]]]).foldlM packText st := by
  unfold packContact listed matching Contact.uri
  by_cases hflags : c.flags &&& flags = flags
  · cases hbytes : c.c.bytes with
    | nil => simp [hflags, hbytes]
    | cons d t =>
      cases hrec : c.received with
      | none => simp [hflags, hbytes, hrec]
      | some r => simp [hflags, hbytes, hrec]
  · simp [hflags]

theorem listed_record_cons (flags : BitVec 32) (c : Contact) (r : List Contact) :
    listed flags [[c :: r]] = listed flags [[[c]]] ++ listed flags [[r]] := by
  simp only [listed, matching, flatten_cons, flatten_nil, append_nil]
  rw [← map_append, ← filter_append, ← filter_append]
  rfl

theorem listed_domain_cons (flags : BitVec 32) (r : List Contact) (d : List (List Contact)) :
    listed flags [r :: d] = listed flags [[r]] ++ listed flags [d] := by
  simp only [listed, matching, flatten_cons, flatten_nil, append_nil]
  rw [← map_append, ← filter_append, ← filter_append]

theorem listed_cons (flags : BitVec 32) (d : List (List Contact)) (root : Root) :
    listed flags (d :: root) = listed flags [d] ++ listed flags root := by
  simp only [listed, matching, flatten_cons, flatten_nil, append_nil, flatten_append]
  rw [← map_append, ← filter_append, ← filter_append]

theorem packRecord_eq (flags : BitVec 32) (r : List Contact) (st : Packing) :
    r.foldlM (packContact flags) st = (listed flags [[r]]).foldlM packText st := by
  induction r generalizing st with
  | nil => rfl
  | cons c r ih =>
    rw [foldlM_cons, listed_record_cons, foldlM_append, packContact_eq]
    exact bind_congr fun st => ih st

theorem packDomain_eq (flags : BitVec 32) (d : List (List Contact)) (st : Packing) :
    packDomain flags st d = (listed flags [d]).foldlM packText st := by
  have hloop : d.foldlM (fun st r => r.foldlM (packContact flags) st) st =
      (listed flags [d]).foldlM packText st := by
    induction d generalizing st with
    | nil => rfl
    | cons r d ih =>
      rw [foldlM_cons, listed_domain_cons, foldlM_append, packRecord_eq]
      exact bind_congr fun st => ih st
  unfold packDomain
  split_ifs with hempty
  · obtain rfl := eq_nil_of_length_eq_zero (Nat.le_zero.mp hempty)
    rfl
  · exact hloop

theorem packAll_eq (flags : BitVec 32) (root : Root) (st : Packing) :
    root.foldlM (packDomain flags) st = (listed flags root).foldlM packText st := by
  induction root generalizing st with
  | nil => rfl
  | cons d root ih =>
    rw [foldlM_cons, listed_cons, foldlM_append, packDomain_eq]
    exact bind_congr fun st => ih st

end Packing

/-- The buffer of `size` bytes after the texts `done` were tried. -/
structure Packed (size : ℕ) (done : List Bytes) (st : Packing) : Prop where
  mem : ∃ kept rest, st.mem = pack kept ++ rest ∧
    st.cp = (pack kept).length ∧ (st.shortage = 0 → kept = done)
  length : st.mem.length = size
  len : st.len = (size : ℤ) - 4 - st.cp
  shortage : st.shortage + st.cp = (pack done).length
  nonneg : 0 ≤ st.shortage
  missing : 0 < st.shortage → size < need done

section Run

variable {size : ℕ} {done : List Bytes} {st : Packing} {x : Text}

theorem need_append (xs ys : List Bytes) : need (xs ++ ys) = (pack xs).length + need ys := by
  rw [need, need, pack_append, List.length_append, Nat.add_assoc]

theorem need_singleton (x : Bytes) : need [x] = 4 + x.length + 4 := by
  simp [need]

/-- A text that fits is written behind the texts that were kept. -/
theorem copy_entry {kept : List Bytes} {rest x : Bytes} (hrest : 4 + x.length ≤ rest.length) :
    ∃ mem, copy (pack kept ++ rest) (pack kept).length (word x.length) = .ok mem ∧
      copy mem ((pack kept).length + 4) x =
        .ok (pack (kept ++ [x]) ++ rest.drop (4 + x.length)) := by
  have hcut : rest = rest.take 4 ++ ((rest.drop 4).take x.length ++ rest.drop (4 + x.length)) := by
    rw [← drop_drop, take_append_drop, take_append_drop]
  have hword : (word x.length).length = (rest.take 4).length := by
    rw [word_length, length_take]
    omega
  have htext : x.length = ((rest.drop 4).take x.length).length := by
    rw [length_take, length_drop]
    omega
  have h₁ := write_over (a := pack kept)
    (c := (rest.drop 4).take x.length ++ rest.drop (4 + x.length)) hword
  have h₂ := write_over (a := pack kept ++ word x.length) (c := rest.drop (4 + x.length)) htext
  rw [append_assoc, ← hcut] at h₁
  rw [List.length_append, word_length] at h₂
  refine ⟨pack kept ++ word x.length ++
    ((rest.drop 4).take x.length ++ rest.drop (4 + x.length)), ?_, ?_⟩
  · rw [copy, h₁]
  · rw [copy, ← append_assoc, h₂, pack_append]
    simp [entry]

theorem packText_packed (h : Packed size done st) (x : Text) :
    ∃ st', packText st x = .ok st' ∧ Packed size (done ++ [x.bytes]) st' := by
  obtain ⟨kept, rest, hmem, hcp, hkept⟩ := h.mem
  have hlength := h.length
  have hlen := h.len
  have hshort := h.shortage
  have hnonneg := h.nonneg
  have hdone : need (done ++ [x.bytes]) = (pack done).length + (4 + x.bytes.length + 4) := by
    rw [need_append, need_singleton]
  have hpack : (pack (done ++ [x.bytes])).length = (pack done).length + (4 + x.bytes.length) := by
    rw [pack_append, List.length_append]
    simp
  have hold : need done = (pack done).length + 4 := rfl
  rw [hmem, List.length_append, ← hcp] at hlength
  by_cases hfits : st.len ≥ 4 + x.bytes.length
  · obtain ⟨mem, h₁, h₂⟩ := @copy_entry kept rest x.bytes (by omega)
    rw [← hcp, ← hmem] at h₁
    rw [← hcp] at h₂
    refine ⟨{ st with
      mem := pack (kept ++ [x.bytes]) ++ rest.drop (4 + x.bytes.length)
      cp := st.cp + 4 + x.bytes.length
      len := st.len - (4 + x.bytes.length) }, ?_, ?_⟩
    · rw [packText, if_pos hfits, h₁]
      change (copy mem (st.cp + 4) x.bytes >>= _) = _
      rw [h₂]
      rfl
    · have hkeptLen : (pack (kept ++ [x.bytes])).length = st.cp + 4 + x.bytes.length := by
        rw [pack_append, List.length_append, ← hcp]
        simp [Nat.add_assoc]
      refine ⟨⟨_, _, rfl, hkeptLen.symm, ?_⟩, ?_, ?_, ?_, hnonneg, ?_⟩
      · intro hzero
        rw [hkept hzero]
      · rw [List.length_append, hkeptLen, length_drop]
        omega
      · push_cast
        omega
      · push_cast
        omega
      · intro hmiss
        have := h.missing hmiss
        omega
  · refine ⟨{ st with shortage := st.shortage + (4 + x.bytes.length) }, ?_, ?_⟩
    · rw [packText, if_neg hfits]
      rfl
    · refine ⟨⟨kept, rest, hmem, hcp, ?_⟩, h.length, hlen, ?_, ?_, ?_⟩
      · intro hzero
        change st.shortage + (4 + x.bytes.length) = 0 at hzero
        omega
      · change st.shortage + (4 + x.bytes.length) + st.cp = _
        omega
      · change 0 ≤ st.shortage + (4 + x.bytes.length)
        omega
      · intro _
        omega

theorem packAll_packed (xs : List Text) (h : Packed size done st) :
    ∃ st', xs.foldlM packText st = .ok st' ∧ Packed size (done ++ xs.map Text.bytes) st' := by
  induction xs generalizing done st with
  | nil => exact ⟨st, rfl, by simpa using h⟩
  | cons x xs ih =>
    obtain ⟨st₁, h₁, hpacked⟩ := packText_packed h x
    obtain ⟨st₂, h₂, hall⟩ := ih hpacked
    refine ⟨st₂, ?_, by simpa using hall⟩
    rw [foldlM_cons, h₁]
    exact h₂

/-- `get_all_ucontacts` stays in its buffer.  It returns what is missing, and
when nothing is missing the buffer holds all listed texts. -/
theorem getAllUcontacts_packs (mem : Bytes) (flags : BitVec 32) (root : Root) {xs : List Bytes}
    (hxs : xs = (listed flags root).map Text.bytes) :
    ∃ mem', getAllUcontacts mem flags root = .ok (mem', max 0 ((need xs : ℤ) - mem.length)) ∧
      mem'.length = mem.length ∧
      (need xs ≤ mem.length → ∃ tail, mem' = pack xs ++ word 0 ++ tail) := by
  have hstart : Packed mem.length []
      { mem := mem, cp := 0, len := (mem.length : ℤ) - 4, shortage := 0 } :=
    ⟨⟨[], mem, rfl, rfl, fun _ => rfl⟩, rfl, by simp, rfl, le_rfl, by simp⟩
  obtain ⟨st, hrun, hpacked⟩ := packAll_packed (listed flags root) hstart
  rw [nil_append, ← hxs] at hpacked
  rw [← packAll_eq] at hrun
  obtain ⟨kept, rest, hmem, hcp, hkept⟩ := hpacked.mem
  have hlength := hpacked.length
  have hlen := hpacked.len
  have hshort := hpacked.shortage
  have hneed : need xs = (pack xs).length + 4 := rfl
  have hnonneg := hpacked.nonneg
  have hret : (if 0 < st.shortage - st.len then st.shortage - st.len else 0) =
      max 0 ((need xs : ℤ) - mem.length) := by
    split_ifs <;> omega
  have habort : ¬(0 < st.shortage ∧ st.shortage < st.len) := by
    rintro ⟨hpos, hlt⟩
    have := hpacked.missing hpos
    omega
  have hresult : ∀ mem', terminate st = .ok mem' → getAllUcontacts mem flags root =
        .ok (mem', max 0 ((need xs : ℤ) - mem.length)) := by
    intro mem' hcopy
    unfold getAllUcontacts
    rw [hrun]
    change (terminate st >>= _) = _
    rw [hcopy]
    change (if 0 < st.shortage ∧ st.shortage < st.len then _ else _) = _
    rw [if_neg habort]
    exact congrArg (fun r => Except.ok (mem', r)) hret
  by_cases hroom : st.len ≥ 0
  · have hrest : 4 ≤ rest.length := by
      rw [hmem, List.length_append, ← hcp] at hlength
      omega
    have hzero : ([0, 0, 0, 0] : Bytes).length = (rest.take 4).length := by
      rw [length_take]
      exact (Nat.min_eq_left hrest).symm
    have hcut : st.mem = pack kept ++ rest.take 4 ++ rest.drop 4 := by
      rw [hmem, append_assoc, take_append_drop]
    have hwrite := write_over (a := pack kept) (c := rest.drop 4) hzero
    rw [← hcut, ← hcp] at hwrite
    refine ⟨pack kept ++ [0, 0, 0, 0] ++ rest.drop 4, hresult _ ?_, ?_, ?_⟩
    · rw [terminate, if_pos hroom, copy, hwrite]
    · rw [← hpacked.length, hcut]
      simp only [List.length_append, hzero]
    · intro hfits
      have hnone : st.shortage = 0 := by
        by_contra hne
        have := hpacked.missing (by omega)
        omega
      exact ⟨rest.drop 4, by rw [hkept hnone]; rfl⟩
  · refine ⟨st.mem, hresult _ (if_neg hroom), hpacked.length, ?_⟩
    intro hfits
    omega

end Run

end Msicp.Nathelper
