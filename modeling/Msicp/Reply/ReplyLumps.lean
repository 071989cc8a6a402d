import Msicp.Support.Bytes
import Mathlib.Algebra.Order.Ring.Nat
import Mathlib.Data.List.Count

/-!
# Reply lumps (`data_lump_rpl.c`)

What modules want to have in the reply to a request is kept in a list: header
lumps, and at most one lump that is the body.
-/

namespace Msicp.Reply

open Msicp.Support List

/-- `struct lump_rpl` -/
structure LumpRpl where
  text : Bytes
  flags : ℕ

/-- `LUMP_RPL_HDR` -/
def LumpRpl.isHdr (l : LumpRpl) : Bool := l.flags.testBit 1

/-- `LUMP_RPL_BODY` -/
def LumpRpl.isBody (l : LumpRpl) : Bool := l.flags.testBit 2

/-- `LUMP_RPL_SHMEM` -/
def LumpRpl.isShmem (l : LumpRpl) : Bool := l.flags.testBit 5

/-- `add_lump_rpl` when there is memory; `none` when it refuses. -/
def addLumpRpl (lumps : List LumpRpl) (text : Bytes) (flags : ℕ) : Option (List LumpRpl) :=
  let lump : LumpRpl := ⟨text, flags⟩
  if lump.isHdr = lump.isBody ∨ lump.isShmem then none
  else if text = [] then none
  else if lump.isBody ∧ lumps.any LumpRpl.isBody then none
  else some (lumps ++ [lump])

/-- The copy of a lump that `sip_msg_cloner` makes: it is in shared memory, and
`LUMP_RPL_NODUP` and `LUMP_RPL_NOFREE` are off. -/
def cloneLump (l : LumpRpl) : LumpRpl :=
  { l with flags := 32 ||| (l.flags &&& (2 ^ 32 - 1 - 24)) }

/-- The lists a message can have: what `add_lump_rpl` builds,
`unlink_lump_rpl` and `del_nonshm_lump_rpl` take out of, and the cloner
copies. -/
inductive ReplyLumps : List LumpRpl → Prop
  | nil : ReplyLumps []
  | add {lumps lumps' : List LumpRpl} {text : Bytes} {flags : ℕ} :
      ReplyLumps lumps → addLumpRpl lumps text flags = some lumps' →
        ReplyLumps lumps'
  | unlink {lumps lumps' : List LumpRpl} :
      ReplyLumps lumps → lumps'.Sublist lumps → ReplyLumps lumps'
  | clone {lumps : List LumpRpl} :
      ReplyLumps lumps → ReplyLumps (lumps.map cloneLump)

theorem cloneLump_flags (l : LumpRpl) :
    (cloneLump l).isHdr = l.isHdr ∧ (cloneLump l).isBody = l.isBody := by
  have hmask : (2 ^ 32 - 1 - 24).testBit 1 = true ∧ (2 ^ 32 - 1 - 24).testBit 2 = true := by decide
  have hshmem : (32 : ℕ).testBit 1 = false ∧ (32 : ℕ).testBit 2 = false := by
    decide
  constructor
  · simp only [cloneLump, LumpRpl.isHdr, Nat.testBit_or, Nat.testBit_and,
      hmask.1, hshmem.1, Bool.false_or, Bool.and_true]
  · simp only [cloneLump, LumpRpl.isBody, Nat.testBit_or, Nat.testBit_and,
      hmask.2, hshmem.2, Bool.false_or, Bool.and_true]

namespace ReplyLumps

theorem isHdr_ne_isBody {lumps : List LumpRpl} (h : ReplyLumps lumps) :
    ∀ l ∈ lumps, l.isHdr ≠ l.isBody := by
  induction h with
  | nil => simp
  | add _ hadd ih =>
    unfold addLumpRpl at hadd
    dsimp only at hadd
    split_ifs at hadd with hflags
    obtain rfl := Option.some.inj hadd
    rw [not_or] at hflags
    intro l hl
    rcases mem_append.mp hl with hl | hl
    · exact ih l hl
    · rw [mem_singleton.mp hl]
      exact hflags.1
  | unlink _ hsub ih => exact fun l hl => ih l (hsub.subset hl)
  | clone _ ih =>
    intro l hl
    obtain ⟨l₀, hl₀, rfl⟩ := List.mem_map.mp hl
    rw [(cloneLump_flags l₀).1, (cloneLump_flags l₀).2]
    exact ih l₀ hl₀

theorem countP_isBody {lumps : List LumpRpl} (h : ReplyLumps lumps) :
    lumps.countP LumpRpl.isBody ≤ 1 := by
  induction h with
  | nil => simp
  | @add lumps _ _ _ _ hadd ih =>
    unfold addLumpRpl at hadd
    dsimp only at hadd
    split_ifs at hadd with _ _ hbody
    obtain rfl := Option.some.inj hadd
    rw [countP_append, countP_singleton]
    split_ifs with hnew
    · have hnone : lumps.countP LumpRpl.isBody = 0 := by
        rw [countP_eq_zero]
        intro l hl hl'
        exact hbody ⟨hnew, List.any_eq_true.mpr ⟨l, hl, hl'⟩⟩
      omega
    · omega
  | unlink _ hsub ih => exact (hsub.countP_le).trans ih
  | clone _ ih =>
    rw [countP_map]
    refine le_of_eq_of_le (countP_congr ?_) ih
    intro l _
    simp [(cloneLump_flags l).2]

end ReplyLumps

/-- The lump the body is taken from: the last one there is. -/
def bodyOf (lumps : List LumpRpl) : Option Bytes :=
  lumps.foldl (fun body l => if l.isBody then some l.text else body) none

/-- The texts of the header lumps, one after the other. -/
def hdrText (lumps : List LumpRpl) : Bytes :=
  (lumps.filter LumpRpl.isHdr).flatMap LumpRpl.text

theorem bodyOf_of_none {lumps : List LumpRpl} {body : Option Bytes}
    (h : ∀ l ∈ lumps, l.isBody = false) :
    lumps.foldl (fun body l => if l.isBody then some l.text else body) body =
      body := by
  induction lumps with
  | nil => rfl
  | cons l lumps ih =>
    rw [foldl_cons, h l mem_cons_self]
    exact ih fun l' hl' => h l' (mem_cons_of_mem l hl')

/-- All lumps together are the header lumps and the body. -/
theorem ReplyLumps.length_eq {lumps : List LumpRpl} (h : ReplyLumps lumps) :
    (lumps.map fun l => l.text.length).sum =
      (hdrText lumps).length + ((bodyOf lumps).getD []).length := by
  have hkind := h.isHdr_ne_isBody
  have hone := h.countP_isBody
  clear h
  unfold bodyOf hdrText
  induction lumps with
  | nil => rfl
  | cons l lumps ih =>
    have hrest : ∀ l' ∈ lumps, l'.isHdr ≠ l'.isBody :=
      fun l' hl' => hkind l' (mem_cons_of_mem l hl')
    rw [countP_cons] at hone
    have hsum := ih hrest (by omega)
    rw [map_cons, sum_cons, foldl_cons]
    cases hbody : l.isBody with
    | false =>
      have hhdr : l.isHdr = true := by
        have hne := hkind l mem_cons_self
        simpa [hbody] using hne
      rw [filter_cons_of_pos hhdr, flatMap_cons, List.length_append]
      simp only [Bool.false_eq_true, if_false]
      omega
    | true =>
      have hhdr : l.isHdr = false := by
        have hne := hkind l mem_cons_self
        simpa [hbody] using hne
      have hnone : ∀ l' ∈ lumps, l'.isBody = false := by
        have hzero : lumps.countP LumpRpl.isBody = 0 := by
          simp only [hbody, if_true] at hone
          omega
        intro l' hl'
        simpa using countP_eq_zero.mp hzero l' hl'
      rw [bodyOf_of_none hnone] at hsum ⊢
      rw [filter_cons_of_neg (by simp [hhdr])]
      simp only [if_true, Option.getD_some, Option.getD_none, length_nil, Nat.add_zero] at hsum ⊢
      omega

end Msicp.Reply
