import Msicp.Mem.FMallocRealloc
import Msicp.Support.DLink

/-!
# The pool allocator of `mem/q_malloc.c`

Every fragment has a header and a tail with its size.  The free lists are circular: the
head of a bucket is a fragment without payload, whose tail lies right behind it.

The definitions follow the 64-bit build with `DBG_QM_MALLOC` and with
`MEM_FRAG_AVOIDANCE`; `QM_JOIN_FREE` is a parameter.  Rounding and hashing are those of
`mem/f_malloc.c`.  A result `none` of an operation stands for a loop that does not end
or for `abort()`.
-/

namespace Msicp.Mem

open Msicp.Support

/-! ## The pool -/

/-- `sizeof(struct qm_frag)` -/
def qmFragSize : ℕ := 48

/-- `sizeof(struct qm_frag_end)` -/
def qmEndSize : ℕ := 48

/-- `FRAG_OVERHEAD` -/
def qmOverhead : ℕ := qmFragSize + qmEndSize

/-- `sizeof(struct qm_frag_lnk)` -/
def qmLnkSize : ℕ := 104

/-- Where `free_hash` begins in `struct qm_block`. -/
def freeHashOffset : ℕ := 48

/-- `sizeof(struct qm_block)` -/
def sizeofQmBlock : ℕ := freeHashOffset + hashSize * qmLnkSize

def stCheckPattern : ℕ := 0xf0f0f0f0

def endCheckPattern1 : ℕ := 0xc0c0c0c0

def endCheckPattern2 : ℕ := 0xabcdefed

/-- `struct qm_frag`; `nxtFree` is the union with `is_free`. -/
structure QmFrag where
  size : ℕ
  nxtFree : ℕ
  check : ℕ

/-- `struct qm_frag_end` -/
structure QmFragEnd where
  check1 : ℕ
  check2 : ℕ
  size : ℕ
  prevFree : ℕ

/-- `struct qm_block` at the address `addr`, with the memory behind it. -/
structure QmBlock where
  addr : ℕ
  size : ℕ
  used : ℕ
  realUsed : ℕ
  maxRealUsed : ℕ
  firstFrag : ℕ
  lastFragEnd : ℕ
  no : ℕ → ℕ
  frag : ℕ → QmFrag
  fragEnd : ℕ → QmFragEnd
  payload : ℕ → UInt8

namespace QmBlock

variable (qm : QmBlock)

/-- `&(qm->free_hash[hash].head)` -/
def head (hash : ℕ) : ℕ := qm.addr + freeHashOffset + hash * qmLnkSize

/-- `FRAG_END` -/
def fragEndOf (f : ℕ) : ℕ := f + qmFragSize + (qm.frag f).size

def fragNext (f : ℕ) : ℕ := qm.fragEndOf f + qmEndSize

def prevFragEnd (f : ℕ) : ℕ := f - qmEndSize

def fragPrev (f : ℕ) : ℕ :=
  prevFragEnd f - (qm.fragEnd (prevFragEnd f)).size - qmFragSize

/-- `f->u.nxt_free` -/
def next (f : ℕ) : ℕ := (qm.frag f).nxtFree

/-- `FRAG_END(f)->prev_free` -/
def prev (f : ℕ) : ℕ := (qm.fragEnd (qm.fragEndOf f)).prevFree

def setSize (f size : ℕ) : QmBlock :=
  { qm with frag := Function.update qm.frag f { qm.frag f with size := size } }

def setNxt (f v : ℕ) : QmBlock :=
  { qm with frag := Function.update qm.frag f { qm.frag f with nxtFree := v } }

def setCheck (f : ℕ) : QmBlock :=
  { qm with frag := Function.update qm.frag f { qm.frag f with check := stCheckPattern } }

def setEndSize (e size : ℕ) : QmBlock :=
  { qm with fragEnd := Function.update qm.fragEnd e { qm.fragEnd e with size := size } }

def setEndCheck (e : ℕ) : QmBlock :=
  { qm with
    fragEnd := Function.update qm.fragEnd e
      { qm.fragEnd e with check1 := endCheckPattern1, check2 := endCheckPattern2 } }

/-- `FRAG_END(f)->prev_free=v` -/
def setPrev (f v : ℕ) : QmBlock :=
  { qm with
    fragEnd := Function.update qm.fragEnd (qm.fragEndOf f)
      { qm.fragEnd (qm.fragEndOf f) with prevFree := v } }

def setNo (hash no : ℕ) : QmBlock := { qm with no := Function.update qm.no hash no }

def setUsed (v : ℕ) : QmBlock := { qm with used := v }

def setReal (v : ℕ) : QmBlock := { qm with realUsed := v }

def setMaxReal (v : ℕ) : QmBlock := { qm with maxRealUsed := v }

def addReal (n : ℕ) : QmBlock := qm.setReal (uadd 64 qm.realUsed n)

def subReal (n : ℕ) : QmBlock := qm.setReal (usub 64 qm.realUsed n)

def addUsed (n : ℕ) : QmBlock := qm.setUsed (uadd 64 qm.used n)

def subUsed (n : ℕ) : QmBlock := qm.setUsed (usub 64 qm.used n)

/-- `memcpy` on the payload -/
def memcpy (dst src len : ℕ) : QmBlock :=
  { qm with
    payload := fun a =>
      if dst ≤ a ∧ a < dst + len then qm.payload (a - dst + src) else qm.payload a }

/-- The patterns of a tail are there. -/
def endChecked (e : ℕ) : Bool :=
  (qm.fragEnd e).check1 = endCheckPattern1 && (qm.fragEnd e).check2 = endCheckPattern2

/-- `qm_debug_frag` does not abort. -/
def debugFrag (f : ℕ) : Bool :=
  (qm.frag f).check = stCheckPattern && qm.endChecked (qm.fragEndOf f) &&
    (f ≤ qm.firstFrag || qm.endChecked (prevFragEnd f))

end QmBlock

/-! ## The free lists -/

def qmInsertFree (qm : QmBlock) (frag : ℕ) : Option QmBlock := do
  let size := (qm.frag frag).size
  let hash := getHash size
  let f ← walkRound qm.next (qm.head hash) (fun f => size ≤ (qm.frag f).size) qm.size
    (qm.next (qm.head hash))
  let prev := qm.prev f
  let qm := qm.setNxt prev frag
  let qm := qm.setPrev frag prev
  let qm := qm.setNxt frag f
  let qm := qm.setPrev f frag
  return qm.setNo hash (uadd 64 (qm.no hash) 1)

def qmDetachFree (qm : QmBlock) (frag : ℕ) : QmBlock :=
  let prev := qm.prev frag
  let next := qm.next frag
  (qm.setNxt prev next).setPrev next prev

/-- `qm_find_free` over `count` buckets from `hash` on: the bucket and the fragment. -/
def qmFindFree (qm : QmBlock) (size : ℕ) : ℕ → ℕ → Option (Option (ℕ × ℕ))
  | 0, _ => some none
  | count + 1, hash => do
      let f ← walkRound qm.next (qm.head hash) (fun f => size ≤ (qm.frag f).size) qm.size
        (qm.next (qm.head hash))
      if f = qm.head hash then qmFindFree qm size count (hash + 1)
      else return some (hash, f)

/-! ## `qm_malloc_init` -/

/-- `init_overhead` -/
def qmInitOverhead : ℕ := roundUp sizeofQmBlock + qmOverhead

/-- The loop that empties the first `n` buckets. -/
def QmBlock.initHash (qm : QmBlock) : ℕ → QmBlock
  | 0 => qm
  | h + 1 =>
    let qm := qm.initHash h
    let head := qm.head h
    let tail := head + qmFragSize
    let qm := qm.setNxt head head
    let qm := { qm with
      fragEnd := Function.update qm.fragEnd tail { qm.fragEnd tail with prevFree := head } }
    (qm.setSize head 0).setEndSize tail 0

/-- The `qm_block` that `qm_malloc_init` writes, on memory with arbitrary contents. -/
def qmInitBlock (frag : ℕ → QmFrag) (fragEnd : ℕ → QmFragEnd) (payload : ℕ → UInt8)
    (start size : ℕ) : QmBlock :=
  let qm : QmBlock :=
    { addr := start
      size := size
      used := 0
      realUsed := qmInitOverhead
      maxRealUsed := qmInitOverhead
      firstFrag := start + roundUp sizeofQmBlock
      lastFragEnd := start + size - qmEndSize
      no := fun _ => 0
      frag := frag
      fragEnd := fragEnd
      payload := payload }
  let qm := qm.setSize qm.firstFrag (size - qmInitOverhead)
  let qm := qm.setEndSize qm.lastFragEnd (size - qmInitOverhead)
  let qm := (qm.setCheck qm.firstFrag).setEndCheck qm.lastFragEnd
  qm.initHash hashSize

/-- `qm_malloc_init`; `none` when the source returns 0. -/
def qmMallocInit (frag : ℕ → QmFrag) (fragEnd : ℕ → QmFragEnd) (payload : ℕ → UInt8)
    (address size : ℕ) : Option QmBlock :=
  let start := roundUp address
  if size < usub 64 start address then none
  else
    let size := usub 64 size (usub 64 start address)
    if size < roundTo + qmOverhead then none
    else
      let size := roundDown size
      if size < qmInitOverhead then none
      else
        let qm := qmInitBlock frag fragEnd payload start size
        qmInsertFree qm qm.firstFrag

/-! ## The operations -/

/-- `split_frag`; the flag is that it returns 0, the fragment has been split. -/
def splitFrag (qm : QmBlock) (f newSize : ℕ) : Option (QmBlock × Bool) :=
  let rest := usub 64 (qm.frag f).size newSize
  if uadd 64 qmOverhead optimize < rest ∨ uadd 64 qmOverhead newSize ≤ rest then do
    let qm := qm.setSize f newSize
    let e := qm.fragEndOf f
    let qm := qm.setEndSize e newSize
    let n := e + qmEndSize
    let qm := qm.setSize n (usub 64 rest qmOverhead)
    let qm := qm.setEndSize (qm.fragEndOf n) (qm.frag n).size
    let qm := qm.addReal qmOverhead
    let qm := (qm.setEndCheck e).setCheck n
    let qm ← qmInsertFree qm n
    return (qm, true)
  else some (qm, false)

/-- `qm_malloc`, when a free fragment has been found. -/
def qmMallocFound (qm : QmBlock) (size hash f : ℕ) : Option (QmBlock × ℕ) :=
  if !qm.debugFrag f then none
  else do
    let qm := (qmDetachFree qm f).setNxt f 0
    let qm := qm.setNo hash (usub 64 (qm.no hash) 1)
    -- the return of split_frag is ignored
    let (qm, _) ← splitFrag qm f size
    let qm := (qm.addReal (qm.frag f).size).addUsed (qm.frag f).size
    let qm := qm.setMaxReal (max qm.maxRealUsed qm.realUsed)
    return (qm.setCheck f, f + qmFragSize)

/-- `qm_malloc`: the new pool and the pointer, which is 0 when there is no room. -/
def qmMalloc (qm : QmBlock) (size : ℕ) : Option (QmBlock × ℕ) :=
  let size := roundUp size
  if usub 64 qm.size qm.realUsed < size then some (qm, 0)
  else do
    match ← qmFindFree qm size (hashSize - getHash size) (getHash size) with
    | none => some (qm, 0)
    | some (hash, f) => qmMallocFound qm size hash f

/-- A pointer that the debugging code lets through. -/
def QmBlock.goodPointer (qm : QmBlock) (p : ℕ) : Prop :=
  p ≤ qm.lastFragEnd ∧ qm.firstFrag ≤ p

instance (qm : QmBlock) (p : ℕ) : Decidable (qm.goodPointer p) := by
  unfold QmBlock.goodPointer
  infer_instance

/-- The join of a fragment of `qm_free` with the free one behind it. -/
def joinNext (qm : QmBlock) (f size : ℕ) : Option (QmBlock × ℕ) :=
  let next := qm.fragNext f
  if next < qm.lastFragEnd ∧ qm.next next ≠ 0 then
    if !qm.debugFrag next then none
    else
      let qm := qmDetachFree qm next
      let size := uadd 64 size (uadd 64 (qm.frag next).size qmOverhead)
      let qm := qm.subReal qmOverhead
      let hash := getHash (qm.frag next).size
      some (qm.setNo hash (usub 64 (qm.no hash) 1), size)
  else some (qm, size)

/-- The join with the free one in front of it: the pool, the fragment and its size. -/
def joinPrev (qm : QmBlock) (f size : ℕ) : Option (QmBlock × ℕ × ℕ) :=
  if qm.firstFrag < f then
    let prev := qm.fragPrev f
    if !qm.debugFrag prev then none
    else if qm.next prev ≠ 0 then
      let qm := qmDetachFree qm prev
      let size := uadd 64 size (uadd 64 (qm.frag prev).size qmOverhead)
      let qm := qm.subReal qmOverhead
      let hash := getHash (qm.frag prev).size
      some (qm.setNo hash (usub 64 (qm.no hash) 1), prev, size)
    else some (qm, f, size)
  else some (qm, f, size)

/-- The joins of `qm_free`. -/
def joinFree (qm : QmBlock) (f size : ℕ) : Option (QmBlock × ℕ) := do
  let (qm, size) ← joinNext qm f size
  let (qm, f, size) ← joinPrev qm f size
  let qm := qm.setSize f size
  return (qm.setEndSize (qm.fragEndOf f) (qm.frag f).size, f)

/-- `qm_free`; the flag is `QM_JOIN_FREE`. -/
def qmFree (join : Bool) (qm : QmBlock) (p : ℕ) : Option QmBlock :=
  if ¬qm.goodPointer p then none
  else if p = 0 then some qm
  else
    let f := p - qmFragSize
    if !qm.debugFrag f then none
    else if qm.next f ≠ 0 then none
    else do
      let size := (qm.frag f).size
      let qm := (qm.subUsed size).subReal size
      let (qm, f) ← if join then joinFree qm f size else some (qm, f)
      qmInsertFree qm f

/-- The branch of `qm_realloc` for a smaller size. -/
def qmShrink (qm : QmBlock) (f size : ℕ) : Option QmBlock := do
  let origSize := (qm.frag f).size
  let (qm, split) ← splitFrag qm f size
  if split then return qm
  else
    let qm := qm.subReal (usub 64 (usub 64 origSize (qm.frag f).size) qmOverhead)
    return qm.subUsed (usub 64 origSize (qm.frag f).size)

/-- The branch of `qm_realloc` that grows into the free fragment behind. -/
def qmGrow (qm : QmBlock) (f n size : ℕ) : Option QmBlock := do
  let origSize := (qm.frag f).size
  let qm := qmDetachFree qm n
  let hash := getHash (qm.frag n).size
  let qm := qm.setNo hash (usub 64 (qm.no hash) 1)
  let qm := qm.setSize f (uadd 64 (qm.frag f).size (uadd 64 (qm.frag n).size qmOverhead))
  let qm := qm.subReal qmOverhead
  let qm := qm.setEndSize (qm.fragEndOf f) (qm.frag f).size
  let (qm, _) ← if size < (qm.frag f).size then splitFrag qm f size else some (qm, false)
  let diff := usub 64 (qm.frag f).size origSize
  return (qm.addReal diff).addUsed diff

/-- The branch of `qm_realloc` that moves the block.  As in the source, the old one is
freed when no new one has been found as well. -/
def qmMove (join : Bool) (qm : QmBlock) (p origSize size : ℕ) : Option (QmBlock × ℕ) := do
  let (qm, ptr) ← qmMalloc qm size
  let qm := if ptr ≠ 0 then qm.memcpy ptr p origSize else qm
  let qm ← qmFree join qm p
  return (qm, ptr)

/-- `qm_realloc` of a block that is not null, to a size that is not 0. -/
def qmResize (join : Bool) (qm : QmBlock) (p size : ℕ) : Option (QmBlock × ℕ) :=
  let f := p - qmFragSize
  if !qm.debugFrag f then none
  else if qm.next f ≠ 0 then none
  else
    let size := roundUp size
    if size < (qm.frag f).size then (qmShrink qm f size).map fun qm => (qm, p)
    else if (qm.frag f).size < size then
      let diff := usub 64 size (qm.frag f).size
      let n := qm.fragNext f
      if n < qm.lastFragEnd ∧ qm.next n ≠ 0 ∧
          diff ≤ uadd 64 (qm.frag n).size qmOverhead then
        (qmGrow qm f n size).map fun qm => (qm, p)
      else qmMove join qm p (qm.frag f).size size
    else some (qm, p)

def qmRealloc (join : Bool) (qm : QmBlock) (p size : ℕ) : Option (QmBlock × ℕ) :=
  if p ≠ 0 ∧ ¬qm.goodPointer p then none
  else if size = 0 then
    if p ≠ 0 then (qmFree join qm p).map fun qm => (qm, 0) else some (qm, 0)
  else if p = 0 then qmMalloc qm size
  else qmResize join qm p size

/-! ## Histories of a pool -/

/-- A pool together with the fragments that are handed out. -/
structure QmState where
  qm : QmBlock
  live : Finset ℕ

/-- A call of one of the three entry points. -/
inductive QmOp where
  | malloc (size : ℕ)
  | free (p : ℕ)
  | realloc (p size : ℕ)

/-- The fragment in front of a pointer, if it is not null. -/
def qmFragsOf (p : ℕ) : Finset ℕ := if p = 0 then ∅ else {p - qmFragSize}

/-- The payload of a fragment that is handed out. -/
def QmState.IsLive (s : QmState) (p : ℕ) : Prop := ∃ f ∈ s.live, p = f + qmFragSize

/-- Sizes are `unsigned long`; `qm_free` is called on live pointers only, `qm_realloc` on
live pointers and on null. -/
def QmOp.Admissible (s : QmState) : QmOp → Prop
  | .malloc size => size < 2 ^ 64
  | .free p => s.IsLive p
  | .realloc p size => (p = 0 ∨ s.IsLive p) ∧ size < 2 ^ 64

/-- The call makes a block smaller: the rounded size is below that of its fragment. -/
def QmOp.Shrinks (s : QmState) : QmOp → Prop
  | .malloc _ => False
  | .free _ => False
  | .realloc p size => p ≠ 0 ∧ size ≠ 0 ∧ roundUp size < (s.qm.frag (p - qmFragSize)).size

/-- One call.  What the call returns becomes live, what was passed in is given back; a
`qm_realloc` that finds no new block has given the old one back to the pool. -/
def QmState.step (join : Bool) (s : QmState) : QmOp → Option QmState
  | .malloc size => do
      let (qm, r) ← qmMalloc s.qm size
      return ⟨qm, s.live ∪ qmFragsOf r⟩
  | .free p => do
      let qm ← qmFree join s.qm p
      return ⟨qm, s.live \ qmFragsOf p⟩
  | .realloc p size => do
      let (qm, r) ← qmRealloc join s.qm p size
      return ⟨qm, (s.live \ qmFragsOf p) ∪ qmFragsOf r⟩

/-- The states that a new pool can get into by calls that are `allowed`. -/
inductive QmReach (join : Bool) (allowed : QmState → QmOp → Prop) (qm : QmBlock) :
    QmState → Prop
  | init : QmReach join allowed qm ⟨qm, ∅⟩
  | step {s s' : QmState} {op : QmOp} : QmReach join allowed qm s → op.Admissible s →
      allowed s op → s.step join op = some s' → QmReach join allowed qm s'

end Msicp.Mem
