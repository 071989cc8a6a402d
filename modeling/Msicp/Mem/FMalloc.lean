import Msicp.Support.LinkChain
import Msicp.Support.MachineInt
import Mathlib.Data.Finset.Lattice.Basic
import Mathlib.Data.Finset.Basic
import Mathlib.Data.Finset.SDiff

/-!
# The pool allocator of `mem/f_malloc.c`

The pool is one block of memory.  It starts with `struct fm_block`; behind it
lie the fragments, each a header (`struct fm_frag`) followed by its payload.
Fragments that are not handed out are linked into the free lists of
`free_hash`.

The definitions follow the 64-bit build without `DBG_F_MALLOC` and with
`MEM_FRAG_AVOIDANCE`.  Memory is read in two ways: `frag` gives the header that
starts at an address, `payload` a byte of user data.  A result `none` of an
operation stands for a loop that does not end or for `abort()`.
-/

namespace Msicp.Mem

open Msicp.Support

/-! ## Sizes and buckets -/

def roundTo : ℕ := 8

/-- `sizeof(struct fm_frag)`: the size and the `nxt_free` union. -/
def fragOverhead : ℕ := 16

/-- `F_MALLOC_OPTIMIZE_FACTOR` -/
def optimizeFactor : ℕ := 14

/-- `F_MALLOC_OPTIMIZE`: sizes up to here have buckets of their own. -/
def optimize : ℕ := 2 ^ optimizeFactor

/-- `F_HASH_SIZE` -/
def hashSize : ℕ := optimize / roundTo + (64 - optimizeFactor) + 1

/-- `sizeof(struct fm_block)`: `size`, `first_frag`, `last_frag` and the free
lists, each a pointer and a counter. -/
def sizeofBlock : ℕ := 24 + hashSize * 16

/-- `ROUNDDOWN`; as `ROUNDTO` is a power of two, the mask drops the
remainder. -/
def roundDown (s : ℕ) : ℕ := s - s % roundTo

/-- `ROUNDUP`, with the wrap-around of its addition. -/
def roundUp (s : ℕ) : ℕ := roundDown (uadd 64 s (roundTo - 1))

/-- The loop of `big_hash_idx`: shift until the highest bit is set. -/
def bigHashLoop : ℕ → ℕ → ℕ → ℕ
  | 0, _, idx => idx
  | fuel + 1, s, idx =>
    if 2 ^ 63 ≤ s then idx else bigHashLoop fuel (2 * s % 2 ^ 64) (idx - 1)

/-- `big_hash_idx`; for `s ≠ 0` fewer than 64 shifts are needed. -/
def bigHashIdx (s : ℕ) : ℕ := bigHashLoop 64 s 63

def getHash (s : ℕ) : ℕ :=
  if s ≤ optimize then s / roundTo
  else optimize / roundTo + bigHashIdx s - optimizeFactor + 1

theorem bigHashLoop_eq {fuel s idx : ℕ} (hs : s ≠ 0) (hs64 : s < 2 ^ 64)
    (hfuel : 63 ≤ fuel + Nat.log2 s) :
    bigHashLoop fuel s idx = idx - (63 - Nat.log2 s) := by
  induction fuel generalizing s idx with
  | zero =>
    have hlog : Nat.log2 s < 64 := (Nat.log2_lt hs).mpr hs64
    have hzero : 63 - Nat.log2 s = 0 := by omega
    simp [bigHashLoop, hzero]
  | succ fuel ih =>
    have hlog : Nat.log2 s < 64 := (Nat.log2_lt hs).mpr hs64
    by_cases hbit : 2 ^ 63 ≤ s
    · have h63 : 63 ≤ Nat.log2 s := (Nat.le_log2 hs).mpr hbit
      rw [bigHashLoop, if_pos hbit]
      omega
    · have hsmall : Nat.log2 s < 63 := (Nat.log2_lt hs).mpr (by omega)
      have hdouble : 2 * s % 2 ^ 64 = 2 * s := Nat.mod_eq_of_lt (by omega)
      have htwo : Nat.log2 (2 * s) = Nat.log2 s + 1 := Nat.log2_two_mul hs
      rw [bigHashLoop, if_neg hbit, hdouble, ih (by omega) (by omega) (by omega), htwo]
      omega

theorem bigHashIdx_eq_log2 {s : ℕ} (hs : s ≠ 0) (hs64 : s < 2 ^ 64) :
    bigHashIdx s = Nat.log2 s := by
  have hlog : Nat.log2 s < 64 := (Nat.log2_lt hs).mpr hs64
  rw [bigHashIdx, bigHashLoop_eq hs hs64 (by omega)]
  omega

theorem getHash_of_le {s : ℕ} (hs : s ≤ optimize) : getHash s = s / roundTo := if_pos hs

/-- Big sizes have the buckets behind the small ones, one for each power of
two. -/
theorem getHash_of_lt {s : ℕ} (hs : optimize < s) (hs64 : s < 2 ^ 64) :
    getHash s = optimize / roundTo + (Nat.log2 s - optimizeFactor) + 1 := by
  have hs0 : s ≠ 0 := by omega
  have hfactor : optimizeFactor ≤ Nat.log2 s :=
    (Nat.le_log2 hs0).mpr hs.le
  rw [getHash, if_neg (by omega), bigHashIdx_eq_log2 hs0 hs64]
  have hsmall : optimize / roundTo = 2048 := rfl
  omega

theorem getHash_lt {s : ℕ} (hs64 : s < 2 ^ 64) : getHash s < hashSize := by
  by_cases hs : s ≤ optimize
  · rw [getHash_of_le hs]
    have hdiv : s / roundTo ≤ optimize / roundTo := Nat.div_le_div_right hs
    simp only [hashSize]
    omega
  · have hlog : Nat.log2 s < 64 := (Nat.log2_lt (by omega)).mpr hs64
    rw [getHash_of_lt (by omega) hs64]
    simp only [hashSize, optimizeFactor] at *
    omega

/-- A small size in a bucket at or above the threshold is exactly the
threshold. -/
theorem eq_optimize_of_le_getHash {s : ℕ} (hs : s ≤ optimize)
    (hhash : optimize / roundTo ≤ getHash s) : s = optimize := by
  rw [getHash_of_le hs] at hhash
  simp only [optimize, optimizeFactor, roundTo] at *
  omega

/-! ## The pool -/

/-- `struct fm_frag` -/
structure FmFrag where
  size : ℕ
  nxtFree : Option ℕ

/-- `struct fm_frag_lnk` -/
structure FmFragLnk where
  first : Option ℕ
  no : ℕ

/-- `struct fm_block` at the address `addr`, with the memory behind it. -/
structure FmBlock where
  addr : ℕ
  size : ℕ
  firstFrag : ℕ
  lastFrag : ℕ
  freeHash : ℕ → FmFragLnk
  frag : ℕ → FmFrag
  payload : ℕ → UInt8

namespace FmBlock

def setNxt (qm : FmBlock) (f : ℕ) (v : Option ℕ) : FmBlock :=
  { qm with frag := Function.update qm.frag f { qm.frag f with nxtFree := v } }

def setSize (qm : FmBlock) (f size : ℕ) : FmBlock :=
  { qm with frag := Function.update qm.frag f { qm.frag f with size := size } }

def setFirst (qm : FmBlock) (hash : ℕ) (v : Option ℕ) : FmBlock :=
  { qm with
    freeHash :=
      Function.update qm.freeHash hash { qm.freeHash hash with first := v } }

def setNo (qm : FmBlock) (hash no : ℕ) : FmBlock :=
  { qm with
    freeHash :=
      Function.update qm.freeHash hash { qm.freeHash hash with no := no } }

/-- `*f = v` for a `struct fm_frag** f` that runs over the list of `hash`. -/
def setSlot (qm : FmBlock) (hash : ℕ) (slot v : Option ℕ) : FmBlock :=
  match slot with
  | none => qm.setFirst hash v
  | some c => qm.setNxt c v

/-- The free list of a bucket, as a head and the links of all headers. -/
def bucket (qm : FmBlock) (hash : ℕ) : Links ℕ :=
  ⟨(qm.freeHash hash).first, fun f => (qm.frag f).nxtFree⟩

/-- The loop `for (; *f; f = &((*f)->u.nxt_free)) if (stop) break;` over a
bucket.  A pool of `size` bytes has fewer than `size` headers to pass. -/
def walkBucket (qm : FmBlock) (hash : ℕ) (stop : ℕ → Bool) : Option (Option ℕ × Option ℕ) :=
  walk (qm.bucket hash).next stop qm.size none (qm.bucket hash).first

def fragNext (qm : FmBlock) (f : ℕ) : ℕ :=
  uadd 64 (uadd 64 f fragOverhead) (qm.frag f).size

end FmBlock

/-! ## The operations -/

def fmInsertFree (qm : FmBlock) (frag : ℕ) : Option FmBlock := do
  let size := (qm.frag frag).size
  let hash := getHash size
  let (slot, link) ←
    if optimize < size then
      qm.walkBucket hash (fun f => size ≤ (qm.frag f).size)
    else some (none, (qm.freeHash hash).first)
  let qm := (qm.setNxt frag link).setSlot hash slot (some frag)
  return qm.setNo hash (uadd 64 (qm.freeHash hash).no 1)

def fmSplitFrag (qm : FmBlock) (frag size : ℕ) : Option FmBlock :=
  let rest := usub 64 (qm.frag frag).size size
  if uadd 64 fragOverhead optimize < rest ∨ uadd 64 fragOverhead size ≤ rest then
    let qm := qm.setSize frag size
    let n := qm.fragNext frag
    fmInsertFree (qm.setSize n (usub 64 rest fragOverhead)) n
  else some qm

def initOverhead : ℕ := roundUp sizeofBlock + fragOverhead

/-- The `fm_block` that `fm_malloc_init` writes, with its first and last
fragment, on memory with arbitrary contents. -/
def fmInitBlock (frag : ℕ → FmFrag) (payload : ℕ → UInt8) (start size : ℕ) :
    FmBlock :=
  let qm : FmBlock :=
    { addr := start
      size := size
      firstFrag := uadd 64 start (roundUp sizeofBlock)
      lastFrag := usub 64 (uadd 64 start size) fragOverhead
      freeHash := fun _ => ⟨none, 0⟩
      frag := frag
      payload := payload }
  let qm := qm.setSize qm.firstFrag (usub 64 size initOverhead)
  qm.setSize qm.lastFrag 0

/-- `fm_malloc_init`; `none` when the source returns 0. -/
def fmMallocInit (frag : ℕ → FmFrag) (payload : ℕ → UInt8) (address size : ℕ) : Option FmBlock :=
  let start := roundUp address
  if size < usub 64 start address then none
  else
    let size := usub 64 size (usub 64 start address)
    if size < roundTo + fragOverhead then none
    else
      let size := roundDown size
      if size < initOverhead then none
      else
        let qm := fmInitBlock frag payload start size
        fmInsertFree qm qm.firstFrag

/-- The search of `fm_malloc` over `count` buckets from `hash` on: the bucket,
the slot and the fragment found.  The outer `none` is a list that does not
end. -/
def fmMallocSearch (qm : FmBlock) (size : ℕ) : ℕ → ℕ → Option (Option (ℕ × Option ℕ × ℕ))
  | 0, _ => some none
  | count + 1, hash =>
    match qm.walkBucket hash (fun f => size ≤ (qm.frag f).size) with
    | none => none
    | some (slot, some frag) => some (some (hash, slot, frag))
    | some (_, none) => fmMallocSearch qm size count (hash + 1)

/-- `fm_malloc`: the new pool and the pointer returned. -/
def fmMalloc (qm : FmBlock) (size : ℕ) : Option (FmBlock × Option ℕ) := do
  let size := roundUp size
  match ← fmMallocSearch qm size (hashSize - getHash size) (getHash size) with
  | none => some (qm, none)
  | some (hash, slot, frag) =>
    -- detach it from the free list and mark it as taken
    let qm := (qm.setSlot hash slot (qm.frag frag).nxtFree).setNxt frag none
    let qm := qm.setNo hash (usub 64 (qm.freeHash hash).no 1)
    let qm ← fmSplitFrag qm frag size
    return (qm, some (uadd 64 frag fragOverhead))

def fmFree (qm : FmBlock) (p : Option ℕ) : Option FmBlock :=
  match p with
  | none => some qm
  | some p => fmInsertFree qm (usub 64 p fragOverhead)

/-- `memcpy` on the payload -/
def FmBlock.memcpy (qm : FmBlock) (dst src len : ℕ) : FmBlock :=
  { qm with
    payload := fun a =>
      if dst ≤ a ∧ a < dst + len then qm.payload (a - dst + src)
      else qm.payload a }

/-- The join of `fm_realloc`: detach the free fragment `n` that follows `f`
and absorb it; `abort()` if it is not on its list. -/
def fmReallocJoin (qm : FmBlock) (f n : ℕ) : Option FmBlock := do
  let hash := getHash (qm.frag n).size
  match ← qm.walkBucket hash (fun g => g == n) with
  | (_, none) => none
  | (slot, some _) =>
    let qm := qm.setSlot hash slot (qm.frag n).nxtFree
    let qm := qm.setNo hash (usub 64 (qm.freeHash hash).no 1)
    return qm.setSize f
      (uadd 64 (qm.frag f).size (uadd 64 (qm.frag n).size fragOverhead))

/-- `fm_realloc`.  As in the source, the old block is freed when the new one
could not be found as well. -/
def fmRealloc (qm : FmBlock) (p : Option ℕ) (size : ℕ) : Option (FmBlock × Option ℕ) :=
  if size = 0 then do
    let qm ← fmFree qm p
    return (qm, none)
  else match p with
  | none => fmMalloc qm size
  | some p => do
    let f := usub 64 p fragOverhead
    let size := roundUp size
    let origSize := (qm.frag f).size
    if size < origSize then
      let qm ← fmSplitFrag qm f size
      return (qm, some p)
    else if origSize < size then
      let diff := usub 64 size origSize
      let n := qm.fragNext f
      if n < qm.lastFrag ∧ (qm.frag n).nxtFree.isSome ∧
          diff ≤ uadd 64 (qm.frag n).size fragOverhead then
        let qm ← fmReallocJoin qm f n
        if size < (qm.frag f).size then
          let qm ← fmSplitFrag qm f size
          return (qm, some p)
        else return (qm, some p)
      else
        let (qm, ptr) ← fmMalloc qm size
        let qm := match ptr with
          | some ptr => qm.memcpy ptr p origSize
          | none => qm
        let qm ← fmFree qm (some p)
        return (qm, ptr)
    else return (qm, some p)

/-! ## Histories of a pool -/

/-- A pool together with the fragments that are handed out. -/
structure FmState where
  qm : FmBlock
  live : Finset ℕ

/-- A call of one of the three entry points. -/
inductive FmOp where
  | malloc (size : ℕ)
  | free (p : Option ℕ)
  | realloc (p : Option ℕ) (size : ℕ)

/-- The fragment in front of a pointer, if there is one. -/
def fragsOf : Option ℕ → Finset ℕ
  | none => ∅
  | some p => {p - fragOverhead}

/-- A pointer that may be passed in: null, or the payload of a live
fragment. -/
def FmState.IsLive (s : FmState) (p : Option ℕ) : Prop :=
  ∀ q ∈ p, ∃ f ∈ s.live, q = f + fragOverhead

/-- Sizes are `unsigned long`; `fm_free` and `fm_realloc` are called on live
pointers only. -/
def FmOp.Admissible (s : FmState) : FmOp → Prop
  | .malloc size => size < 2 ^ 64
  | .free p => s.IsLive p
  | .realloc p size => s.IsLive p ∧ size < 2 ^ 64

/-- One call.  What the call returns becomes live, what was passed in is given
back; a `fm_realloc` that finds no new block has given the old one back to the
pool. -/
def FmState.step (s : FmState) : FmOp → Option FmState
  | .malloc size => do
      let (qm, r) ← fmMalloc s.qm size
      return ⟨qm, s.live ∪ fragsOf r⟩
  | .free p => do
      let qm ← fmFree s.qm p
      return ⟨qm, s.live \ fragsOf p⟩
  | .realloc p size => do
      let (qm, r) ← fmRealloc s.qm p size
      return ⟨qm, (s.live \ fragsOf p) ∪ fragsOf r⟩

/-- The states that a new pool can get into. -/
inductive FmReach (qm : FmBlock) : FmState → Prop
  | init : FmReach qm ⟨qm, ∅⟩
  | step {s s' : FmState} {op : FmOp} :
      FmReach qm s → op.Admissible s → s.step op = some s' → FmReach qm s'

end Msicp.Mem
