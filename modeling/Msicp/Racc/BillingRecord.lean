import Msicp.Support.Bytes
import Mathlib.Algebra.Group.Nat.Defs

/-!
# Billing records on their way through the queue

`insert_billing_session` copies a record field by field into the node that
`billing_thread` writes to the FIFO later on.  Writer and reader of the FIFO
declare the record separately, in `racc.h` and in `wsfifo.h`.
-/

namespace Msicp.Racc.Record

open Msicp.Support List

/-! ## Structures in memory -/

section Layout

variable {F : Type*}

/-- A member of a structure. -/
structure Member (F : Type*) where
  field : F
  size : ℕ
  align : ℕ

/-- The padding in front of a member, if the ones before it end at `pos`. -/
def Member.padding (m : Member F) (pos : ℕ) : ℕ := (m.align - pos % m.align) % m.align

/-- The offsets of the members, from `pos` on. -/
def offsets : ℕ → List (Member F) → List (F × ℕ × ℕ)
  | _, [] => []
  | pos, m :: ms =>
    (m.field, pos + m.padding pos, m.size) :: offsets (pos + m.padding pos + m.size) ms

/-- The bytes of a structure; those of the padding are whatever they are. -/
def image (pad : ℕ → UInt8) (bytes : F → Bytes) : ℕ → List (Member F) → Bytes
  | _, [] => []
  | pos, m :: ms =>
    (List.range (m.padding pos)).map (fun i => pad (pos + i)) ++ bytes m.field ++
      image pad bytes (pos + m.padding pos + m.size) ms

/-- The `n` bytes at an offset. -/
def slice (s : Bytes) (offset n : ℕ) : Bytes := (s.drop offset).take n

theorem slice_image {pad : ℕ → UInt8} {bytes : F → Bytes} {ms : List (Member F)} {pos : ℕ}
    (hsize : ∀ m ∈ ms, (bytes m.field).length = m.size) {f : F} {offset n : ℕ}
    (h : (f, offset, n) ∈ offsets pos ms) :
    pos ≤ offset ∧ slice (image pad bytes pos ms) (offset - pos) n = bytes f := by
  induction ms generalizing pos with
  | nil => cases h
  | cons m ms ih =>
    have hm := hsize m mem_cons_self
    have hpad : ((List.range (m.padding pos)).map fun i => pad (pos + i)).length =
        m.padding pos := by simp
    unfold slice at ih ⊢
    rcases mem_cons.mp h with heq | hmem
    · obtain ⟨rfl, rfl, rfl⟩ : f = m.field ∧ offset = pos + m.padding pos ∧ n = m.size := by
        simpa using heq
      refine ⟨Nat.le_add_right _ _, ?_⟩
      rw [image, Nat.add_sub_cancel_left, append_assoc, drop_left' hpad, take_left' hm]
    · obtain ⟨hle, hread⟩ := ih (fun m hm => hsize m (mem_cons_of_mem _ hm)) hmem
      refine ⟨by omega, ?_⟩
      have hfront : ((List.range (m.padding pos)).map (fun i => pad (pos + i)) ++
          bytes m.field).length = m.padding pos + m.size := by
        rw [List.length_append, hpad, hm]
      have hoff : offset - pos = (m.padding pos + m.size) +
          (offset - (pos + m.padding pos + m.size)) := by omega
      rw [image, hoff, ← hfront, drop_length_add_append]
      exact hread

end Layout

/-! ## The record -/

/-- The numbers of `struct racc_call_details`. -/
inductive IntField where
  | method | phone | isDirectCall | timestamp | respCause | restype | nRoutingPlanExtFlag
  | nMissedCallFlag | nVoicmailCalleridBlock | nResCode | reasoncode | nLcrReject
  | nWSacdaacallerid

/-- Its texts. -/
inductive TextField where
  | uri | toUri | fromUri | callid | branch | fromtag | totag | contact | userAgent | macid
  | callername | dialedNumber | qName | accUser | cAgentId | cGrpName
  | cSix11extensionsitename | rpid

/-- The sizes of the arrays. -/
def TextField.size : TextField → ℕ
  | .uri => 100
  | .toUri | .fromUri | .callid | .branch | .fromtag | .totag | .contact => 200
  | .userAgent | .accUser | .cAgentId | .cGrpName | .cSix11extensionsitename => 256
  | .macid => 64
  | .callername | .dialedNumber | .qName | .rpid => 128

inductive Field where
  | int (f : IntField)
  | text (f : TextField)
  | prev
  | next

def int (f : IntField) : Member Field := ⟨.int f, 4, 4⟩

def text (f : TextField) (size : ℕ) : Member Field := ⟨.text f, size, 1⟩

/-- `struct racc_call_details` of `racc.h` -/
def raccCallDetails : List (Member Field) :=
  [int .method, int .phone, int .isDirectCall, text .uri 100, text .toUri 200,
    text .fromUri 200, text .callid 200, text .branch 200, text .fromtag 200,
    text .totag 200, text .contact 200, text .userAgent 256, int .timestamp,
    int .respCause, int .restype, text .macid 64, text .callername 128,
    text .dialedNumber 128, text .qName 128, text .accUser 256, int .nRoutingPlanExtFlag,
    text .cAgentId 256, text .cGrpName 256, int .nMissedCallFlag,
    text .cSix11extensionsitename 256, int .nVoicmailCalleridBlock, int .nResCode,
    int .reasoncode, int .nLcrReject, int .nWSacdaacallerid, text .rpid 128,
    ⟨.prev, 8, 8⟩, ⟨.next, 8, 8⟩]

/-- `struct wsacc_fifo_call_details` of `wsfifo.h` -/
def wsaccFifoCallDetails : List (Member Field) :=
  [int .method, int .phone, int .isDirectCall, text .uri 100, text .toUri 200,
    text .fromUri 200, text .callid 200, text .branch 200, text .fromtag 200,
    text .totag 200, text .contact 200, text .userAgent 256, int .timestamp,
    int .respCause, int .restype, text .macid 64, text .callername 128,
    text .dialedNumber 128, text .qName 128, text .accUser 256, int .nRoutingPlanExtFlag,
    text .cAgentId 256, text .cGrpName 256, int .nMissedCallFlag,
    text .cSix11extensionsitename 256, int .nVoicmailCalleridBlock, int .nResCode,
    int .reasoncode, int .nLcrReject, int .nWSacdaacallerid, text .rpid 128,
    ⟨.prev, 8, 8⟩, ⟨.next, 8, 8⟩]

/-- A record: numbers, arrays and links. -/
structure CallDetails where
  int : IntField → BitVec 32
  text : TextField → Bytes
  prev : BitVec 64
  next : BitVec 64
  text_length : ∀ f, (text f).length = f.size

/-- Bytes of a number, the lowest one first. -/
def littleEndian (w : ℕ) (x : BitVec w) (n : ℕ) : Bytes :=
  (List.range n).map fun i => UInt8.ofNat (x.toNat / 256 ^ i)

def CallDetails.bytes (s : CallDetails) : Field → Bytes
  | .int f => littleEndian 32 (s.int f) 4
  | .text f => s.text f
  | .prev => littleEndian 64 s.prev 8
  | .next => littleEndian 64 s.next 8

/-- What `write_to_fifo` writes. -/
def writeToFifo (pad : ℕ → UInt8) (s : CallDetails) : Bytes :=
  image pad s.bytes 0 raccCallDetails

/-! ## The copy -/

def strlen (s : Bytes) : ℕ := (s.takeWhile (· ≠ 0)).length

def strncpy (dst src : Bytes) (n : ℕ) : Bytes :=
  let s := (src.takeWhile (· ≠ 0)).take n
  s ++ List.replicate (n - s.length) 0 ++ dst.drop n

theorem strncpy_length {dst src : Bytes} {n : ℕ} (h : n ≤ dst.length) :
    (strncpy dst src n).length = dst.length := by
  simp only [strncpy, List.length_append, length_replicate, length_drop, length_take]
  omega

/-- The array of a field in the node, which `memset` has cleared. -/
def copyText (s : CallDetails) (f : TextField) : Bytes :=
  let zeros := List.replicate f.size 0
  let copied := strncpy zeros (s.text f) (f.size - 1)
  match f with
  | .cAgentId | .cGrpName => if s.int .nRoutingPlanExtFlag = 1 then copied else zeros
  | _ => if 0 < strlen (s.text f) then copied else zeros

theorem copyText_length (s : CallDetails) (f : TextField) : (copyText s f).length = f.size := by
  have hcopy : (strncpy (List.replicate f.size 0) (s.text f) (f.size - 1)).length =
      f.size := by
    rw [strncpy_length (by simp), length_replicate]
  unfold copyText
  cases f <;> dsimp only <;> split_ifs <;> first | exact hcopy | simp

/-- `insert_billing_session`: the node that `billing_thread` writes, with the links that the
queue has given it. -/
def insertBillingSession (s : CallDetails) (prev next : BitVec 64) : CallDetails where
  int
    | .isDirectCall => if s.int .isDirectCall ≠ 0 then s.int .isDirectCall else 0
    | .nRoutingPlanExtFlag =>
      if s.int .nRoutingPlanExtFlag = 1 then s.int .nRoutingPlanExtFlag else 0
    | f => s.int f
  text := copyText s
  prev := prev
  next := next
  text_length := copyText_length s

/-- A text, its terminator and zeros behind it. -/
def CallDetails.ZeroFilled (s : CallDetails) (f : TextField) : Prop :=
  ∃ t : Bytes, 0 ∉ t ∧ t.length < f.size ∧ s.text f = t ++ List.replicate (f.size - t.length) 0

/-- The routing flag is 1, or 0 with no agent and no group. -/
def CallDetails.RoutingSet (s : CallDetails) : Prop :=
  s.int .nRoutingPlanExtFlag = 1 ∨ (s.int .nRoutingPlanExtFlag = 0 ∧
    strlen (s.text .cAgentId) = 0 ∧ strlen (s.text .cGrpName) = 0)

theorem takeWhile_zeroFilled {t : Bytes} (ht : 0 ∉ t) {n : ℕ} :
    (t ++ List.replicate (n + 1) 0).takeWhile (· ≠ 0) = t := by
  refine takeWhile_token (fun x hx => ?_) (by decide)
  simpa using fun heq : x = 0 => ht (heq ▸ hx)

theorem strncpy_zeroFilled {t : Bytes} {n : ℕ} (ht : 0 ∉ t) (hlen : t.length ≤ n) :
    strncpy (List.replicate (n + 1) 0) (t ++ List.replicate (n + 1 - t.length) 0) n =
      t ++ List.replicate (n + 1 - t.length) 0 := by
  have hsplit : n + 1 - t.length = n - t.length + 1 := by omega
  have hone : (List.replicate (n + 1) (0 : UInt8)).drop n = List.replicate 1 0 := by
    rw [drop_replicate, Nat.add_sub_cancel_left]
  rw [hsplit, strncpy, takeWhile_zeroFilled ht, take_of_length_le hlen]
  rw [hone, append_assoc, replicate_append_replicate]

theorem copyText_eq {s : CallDetails} (hroute : s.RoutingSet) {f : TextField}
    (h : s.ZeroFilled f) : copyText s f = s.text f := by
  obtain ⟨t, ht, hlen, htext⟩ := h
  have hpos : f.size = f.size - 1 + 1 := by omega
  have hcopy : strncpy (List.replicate f.size 0) (s.text f) (f.size - 1) = s.text f := by
    rw [htext, hpos]
    exact strncpy_zeroFilled ht (by omega)
  have hempty : strlen (s.text f) = 0 → List.replicate f.size 0 = s.text f := by
    intro hzero
    have hsplit : f.size - t.length = f.size - t.length - 1 + 1 := by omega
    rw [htext, strlen, hsplit, takeWhile_zeroFilled ht, length_eq_zero_iff] at hzero
    rw [htext, hzero]
    rfl
  have hplain : (if 0 < strlen (s.text f) then strncpy (List.replicate f.size 0) (s.text f)
      (f.size - 1) else List.replicate f.size 0) = s.text f := by
    split_ifs with hlen
    · exact hcopy
    · exact hempty (by omega)
  -- agent and group go by the flag, all other texts by their lengths
  unfold copyText
  cases f
  case cAgentId | cGrpName =>
    dsimp only
    split_ifs with hflag
    · exact hcopy
    · obtain ⟨-, hagent, hgrp⟩ := hroute.resolve_left hflag
      first | exact hempty hagent | exact hempty hgrp
  all_goals exact hplain

theorem bytes_insertBillingSession {s : CallDetails} (hroute : s.RoutingSet)
    (htext : ∀ f, s.ZeroFilled f) (prev next : BitVec 64) {f : Field} (hprev : f ≠ .prev)
    (hnext : f ≠ .next) : (insertBillingSession s prev next).bytes f = s.bytes f := by
  cases f with
  | text f => exact copyText_eq hroute (htext f)
  | int f =>
    refine congrArg (fun x => littleEndian 32 x 4) ?_
    cases f with
    | isDirectCall =>
      simp only [insertBillingSession]
      split_ifs with h
      · rfl
      · exact (not_not.mp h).symm
    | nRoutingPlanExtFlag =>
      simp only [insertBillingSession]
      split_ifs with h
      · rfl
      · exact (hroute.resolve_left h).1.symm
    | _ => rfl
  | prev => exact absurd rfl hprev
  | next => exact absurd rfl hnext

theorem bytes_length (s : CallDetails) {m : Member Field} (h : m ∈ raccCallDetails) :
    (s.bytes m.field).length = m.size := by
  have hint : ∀ w (x : BitVec w) n, (littleEndian w x n).length = n := fun w x n => by
    simp [littleEndian]
  have htable : ∀ m ∈ raccCallDetails, m.size = match m.field with
      | .int _ => 4
      | .text f => f.size
      | .prev | .next => 8 := by
    simp [raccCallDetails, int, text, TextField.size]
  rw [htable m h]
  cases m.field with
  | int f => exact hint _ _ _
  | text f => exact s.text_length f
  | prev => exact hint _ _ _
  | next => exact hint _ _ _

/-- The record that comes through the queue is the one written directly, but for the links,
and the reader finds every field of it at the offset of its own structure. -/
theorem queued_record_read (s : CallDetails) (htext : ∀ f, s.ZeroFilled f)
    (hroute : s.RoutingSet) (prev next : BitVec 64) (pad pad' : ℕ → UInt8) :
    offsets 0 wsaccFifoCallDetails = offsets 0 raccCallDetails ∧
    ∀ f offset n, (f, offset, n) ∈ offsets 0 wsaccFifoCallDetails → f ≠ .prev → f ≠ .next →
      slice (writeToFifo pad (insertBillingSession s prev next)) offset n = s.bytes f ∧
      slice (writeToFifo pad' s) offset n = s.bytes f := by
  refine ⟨rfl, fun f offset n hmem hprev hnext => ⟨?_, ?_⟩⟩
  · have hread := (@slice_image _ pad _ _ _ (fun m hm =>
      bytes_length (insertBillingSession s prev next) hm) _ _ _ hmem).2
    exact hread.trans (bytes_insertBillingSession hroute htext prev next hprev hnext)
  · exact (@slice_image _ pad' _ _ _ (fun m hm => bytes_length s hm) _ _ _ hmem).2

theorem queued_record_read_cancelled : ∃ s : CallDetails, s.int .method = 5 ∧ ∀ prev next pad,
      slice (writeToFifo pad (insertBillingSession s prev next)) 0 4 = [5, 0, 0, 0] := by
  obtain ⟨s, hs⟩ : ∃ s : CallDetails, s = ⟨fun f => if f matches .method then 5 else 0,
    fun f => List.replicate f.size 0, 0, 0, fun f => length_replicate⟩ := ⟨_, rfl⟩
  have hzero : ∀ f, s.text f = List.replicate f.size 0 := fun f => by rw [hs]
  have htext : ∀ f, s.ZeroFilled f := fun f =>
    ⟨[], not_mem_nil, by cases f <;> decide, by rw [hzero]; rfl⟩
  have hlen : ∀ n, strlen (List.replicate n 0) = 0 := fun n => by
    cases n <;> simp [strlen, replicate_succ]
  have hroute : s.RoutingSet :=
    Or.inr ⟨by rw [hs]; rfl, by rw [hzero, hlen], by rw [hzero, hlen]⟩
  refine ⟨s, by rw [hs]; rfl, fun prev next pad => ?_⟩
  have hread := ((queued_record_read s htext hroute prev next pad pad).2 (.int .method) 0 4
    mem_cons_self (by simp) (by simp)).1
  rw [hread, hs]
  decide

end Msicp.Racc.Record
