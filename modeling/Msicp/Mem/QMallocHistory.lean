import Msicp.Mem.QMallocRealloc

/-!
# The histories of a `q_malloc` pool

`qm_malloc_init` sets up a pool in which one free fragment fills everything behind the
header.  From there the calls keep the pool in shape, and they keep its counters as long
as no `qm_realloc` makes a block smaller.
-/

namespace Msicp.Mem

open Msicp.Support List Option

/-! ## `qm_malloc_init` -/

/-- The loop over the heads of the buckets stores into these heads only. -/
structure HeadsSet (qm qm' : QmBlock) (k : ℕ) : Prop where
  pool : QmBlock.SamePool qm qm'
  books : qm'.books = qm.books
  frag : ∀ g, (∀ hash < k, g ≠ qm.head hash) → qm'.frag g = qm.frag g
  fragEnd : ∀ e, (∀ hash < k, e ≠ qm.head hash + qmFragSize) → qm'.fragEnd e = qm.fragEnd e
  size : ∀ hash < k, (qm'.frag (qm.head hash)).size = 0
  next : ∀ hash < k, qm'.next (qm.head hash) = qm.head hash
  prevFree : ∀ hash < k, (qm'.fragEnd (qm.head hash + qmFragSize)).prevFree = qm.head hash

variable {qm qm' : QmBlock} {k hash : ℕ}

theorem HeadsSet.head (h : HeadsSet qm qm' k) : qm'.head hash = qm.head hash := by
  rw [QmBlock.head, h.pool.addr, QmBlock.head]

/-- One more head. -/
def setHead (qm : QmBlock) (head : ℕ) : QmBlock :=
  let qm := qm.setNxt head head
  let qm := { qm with
    fragEnd := Function.update qm.fragEnd (head + qmFragSize)
      { qm.fragEnd (head + qmFragSize) with prevFree := head } }
  (qm.setSize head 0).setEndSize (head + qmFragSize) 0

theorem frag_setHead (qm : QmBlock) (head g : ℕ) : (setHead qm head).frag g =
      if g = head then { qm.frag head with size := 0, nxtFree := head } else qm.frag g := by
  by_cases hg : g = head
  · subst hg
    simp [setHead, QmBlock.setSize, QmBlock.setEndSize, QmBlock.setNxt]
  · simp [setHead, QmBlock.setSize, QmBlock.setEndSize, QmBlock.setNxt, hg]

theorem fragEnd_setHead (qm : QmBlock) (head e : ℕ) : (setHead qm head).fragEnd e =
      if e = head + qmFragSize then { qm.fragEnd e with size := 0, prevFree := head }
      else qm.fragEnd e := by
  by_cases he : e = head + qmFragSize
  · subst he
    simp [setHead, QmBlock.setSize, QmBlock.setEndSize, QmBlock.setNxt]
  · simp [setHead, QmBlock.setSize, QmBlock.setEndSize, QmBlock.setNxt, he]

theorem initHash_spec (qm : QmBlock) (k : ℕ) : HeadsSet qm (qm.initHash k) k := by
  induction k with
  | zero =>
    exact ⟨(QmBlock.SameShape.refl qm).samePool, rfl, fun _ _ => rfl, fun _ _ => rfl,
      fun hash hhash => absurd hhash (Nat.not_lt_zero hash),
      fun hash hhash => absurd hhash (Nat.not_lt_zero hash),
      fun hash hhash => absurd hhash (Nat.not_lt_zero hash)⟩
  | succ k ih =>
    obtain ⟨qm₁, hqm₁⟩ : ∃ qm₁, qm₁ = qm.initHash k := ⟨_, rfl⟩
    rw [← hqm₁] at ih
    have hrun : qm.initHash (k + 1) = setHead qm₁ (qm.head k) := by
      rw [QmBlock.initHash, ← hqm₁, ih.head]
      rfl
    have hhead : ∀ hash, qm.head hash = qm.head k ↔ hash = k := by
      intro hash
      constructor
      · exact QmInv.head_inj
      · rintro rfl
        rfl
    have hlast : ∀ hash, hash < k + 1 → hash ≠ k → hash < k := fun hash hlt hne => by omega
    rw [hrun]
    refine ⟨ih.pool.trans ⟨rfl, rfl, rfl, rfl, rfl⟩, ih.books, ?_, ?_, ?_, ?_, ?_⟩
    · intro g hg
      rw [frag_setHead, if_neg (hg k (Nat.lt_succ_self k))]
      exact ih.frag g fun hash hhash => hg hash (Nat.lt_succ_of_lt hhash)
    · intro e he
      rw [fragEnd_setHead, if_neg (he k (Nat.lt_succ_self k))]
      exact ih.fragEnd e fun hash hhash => he hash (Nat.lt_succ_of_lt hhash)
    · intro hash hhash
      rw [frag_setHead]
      split_ifs with hsame
      · rfl
      · exact ih.size hash (hlast hash hhash fun heq => hsame ((hhead hash).mpr heq))
    · intro hash hhash
      rw [QmBlock.next, frag_setHead]
      split_ifs with hsame
      · exact hsame.symm
      · exact ih.next hash (hlast hash hhash fun heq => hsame ((hhead hash).mpr heq))
    · intro hash hhash
      rw [fragEnd_setHead]
      split_ifs with hsame
      · exact (Nat.add_right_cancel hsame).symm
      · exact ih.prevFree hash
          (hlast hash hhash fun heq => hsame (congrArg (· + qmFragSize) ((hhead hash).mpr heq)))

variable {size address : ℕ} {s : QmState}

/-- The block written at the start holds one taken fragment. -/
theorem qmInitBlock_inv (frag : ℕ → QmFrag) (fragEnd : ℕ → QmFragEnd) (payload : ℕ → UInt8)
    {start f : ℕ} (hbound : start + size < 2 ^ 64) (hsize : qmInitOverhead ≤ size)
    (hqm : qm = qmInitBlock frag fragEnd payload start size)
    (hf : f = start + roundUp sizeofQmBlock) :
    QmInv qm {f} [f] (fun _ => []) ∧ qm.Counts ∅ 0 [f] ∧ qm.addr = start ∧ qm.size = size ∧
      qm.firstFrag = f := by
  have hover : qmInitOverhead = roundUp sizeofQmBlock + qmOverhead := rfl
  have hblock := QmInv.sizeofQmBlock_le
  have h48 : qmFragSize = 48 := rfl
  have h48' : qmEndSize = 48 := rfl
  have h96 : qmOverhead = 96 := rfl
  obtain ⟨qm₀, hqm₀⟩ : ∃ qm₀ : QmBlock, qm₀ =
    { addr := start, size := size, used := 0, realUsed := qmInitOverhead,
      maxRealUsed := qmInitOverhead, firstFrag := start + roundUp sizeofQmBlock,
      lastFragEnd := start + size - qmEndSize, no := fun _ => 0, frag := frag,
      fragEnd := fragEnd, payload := payload } := ⟨_, rfl⟩
  obtain ⟨bytes, hbytes⟩ : ∃ bytes, bytes = size - qmInitOverhead := ⟨_, rfl⟩
  obtain ⟨e, he⟩ : ∃ e, e = start + size - qmEndSize := ⟨_, rfl⟩
  obtain ⟨qm₁, hqm₁⟩ : ∃ qm₁, qm₁ =
    (((qm₀.setSize f bytes).setEndSize e bytes).setCheck f).setEndCheck e := ⟨_, rfl⟩
  have hrun : qm = qm₁.initHash hashSize := by
    rw [hqm, hqm₁, hf, hbytes, he, hqm₀]
    rfl
  have hpool₁ : QmBlock.SamePool qm₀ qm₁ := by
    rw [hqm₁]
    exact (((QmBlock.SamePool.setSize qm₀ f bytes).trans
      (QmBlock.SamePool.setEndSize _ e bytes)).trans (QmBlock.SamePool.setCheck _ f)).trans
      (QmBlock.SamePool.setEndCheck _ e)
  have hbooks₁ : qm₁.books = (0, qmInitOverhead) := by
    rw [hqm₁, QmBlock.books_setEndCheck, QmBlock.books_setCheck, QmBlock.books_setEndSize,
      QmBlock.books_setSize, hqm₀]
    rfl
  have hset := initHash_spec qm₁ hashSize
  rw [← hrun] at hset
  have haddr : qm.addr = start := by rw [hset.pool.addr, hpool₁.addr, hqm₀]
  have hpsize : qm.size = size := by rw [hset.pool.poolSize, hpool₁.poolSize, hqm₀]
  have hfirst : qm.firstFrag = f := by rw [hset.pool.firstFrag, hpool₁.firstFrag, hqm₀, hf]
  have hlast : qm.lastFragEnd = e := by rw [hset.pool.lastFragEnd, hpool₁.lastFragEnd, hqm₀, he]
  have haddr₁ : qm₁.addr = start := by rw [hpool₁.addr, hqm₀]
  have hheads : ∀ hash < hashSize, qm₁.head hash + qmLnkSize ≤ f := by
    intro hash hhash
    have hmul : (hash + 1) * qmLnkSize ≤ hashSize * qmLnkSize :=
      Nat.mul_le_mul_right qmLnkSize hhash
    rw [Nat.succ_mul] at hmul
    have hsum : freeHashOffset + hashSize * qmLnkSize ≤ roundUp sizeofQmBlock := hblock
    rw [QmBlock.head, haddr₁]
    omega
  have hlnk : qmLnkSize = 104 := rfl
  have hfrag : qm.frag f = qm₁.frag f := by
    refine hset.frag f fun hash hhash heq => ?_
    have hlow := hheads hash hhash
    omega
  have hend : qm.fragEnd e = qm₁.fragEnd e := by
    refine hset.fragEnd e fun hash hhash heq => ?_
    have hlow := hheads hash hhash
    omega
  have hfsize : (qm.frag f).size = bytes := by rw [hfrag, hqm₁]; simp
  have hof : qm.fragEndOf f = e := by
    rw [QmBlock.fragEndOf, hfsize]
    omega
  have hheadOf : ∀ hash < hashSize, qm.fragEndOf (qm.head hash) = qm₁.head hash + qmFragSize := by
    intro hash hhash
    rw [hset.head, QmBlock.fragEndOf, hset.size hash hhash, Nat.add_zero]
  refine ⟨?_, ?_, haddr, hpsize, hfirst⟩
  · refine
      { bound := by rw [haddr, hpsize]; exact hbound
        first := by rw [hfirst, haddr, hf]
        last := by rw [hlast, haddr, hpsize]; omega
        tiles := ?_
        ends := ?_
        heads := ?_
        checked := ?_
        taken_mem := ?_
        holds := ?_
        nodup := fun _ _ => nodup_nil
        listed := fun _ _ g hg => absurd hg not_mem_nil
        free_listed := ?_ }
    · refine tiles_cons.mpr ⟨hfirst, tiles_nil.mpr ?_⟩
      rw [QmBlock.extent, hfsize, haddr, hpsize]
      omega
    · intro g hg
      rw [mem_singleton.mp hg, hof, hfsize, hend, hqm₁]
      simp
    · intro hash hhash
      rw [hset.head]
      exact hset.size hash hhash
    · intro g hg
      rw [mem_singleton.mp hg, hof, hfrag, QmBlock.endChecked, hend]
      refine ⟨by rw [hqm₁]; simp, ?_⟩
      have hpattern : qm₁.endChecked e = true := by rw [hqm₁]; simp
      exact hpattern
    · intro g hg
      rw [Finset.mem_singleton.mp hg]
      exact mem_singleton_self f
    · intro hash hhash
      refine ⟨?_, ?_⟩
      · rw [hset.head]
        exact hset.next hash hhash
      · rw [QmBlock.prev, hheadOf hash hhash, hset.head]
        exact hset.prevFree hash hhash
    · intro g hg hnot
      exact absurd (Finset.mem_singleton.mpr (mem_singleton.mp hg)) hnot
  · constructor
    · rw [hset.books, hbooks₁]
      rfl
    · rw [hset.books, hbooks₁]
      rfl

theorem qmMallocInit_eq {frag : ℕ → QmFrag} {fragEnd : ℕ → QmFragEnd} {payload : ℕ → UInt8}
    {start size' : ℕ} (haddr : address + size < 2 ^ 64)
    (hstart : start = roundUp address) (hsize : size' = roundDown (size - (start - address)))
    (h : qmMallocInit frag fragEnd payload address size = some qm) :
    start + size' ≤ address + size ∧ qmInitOverhead ≤ size' ∧
      qmInsertFree (qmInitBlock frag fragEnd payload start size')
        (qmInitBlock frag fragEnd payload start size').firstFrag = some qm := by
  unfold qmMallocInit at h
  simp only at h
  by_cases hroom : size < usub 64 (roundUp address) address
  · simp [hroom] at h
  rw [if_neg hroom] at h
  have hround := roundUp_of_room haddr hroom
  rw [← hstart] at h hroom hround
  have hlt : start < 2 ^ 64 := hstart ▸ roundUp_lt address
  have hpad : usub 64 start address = start - address := usub_of_le hround.1 hlt
  rw [hpad] at h hroom
  have hsub : usub 64 size (start - address) = size - (start - address) :=
    usub_of_le (by omega) (by omega)
  rw [hsub, ← hsize] at h
  by_cases hfrag : size - (start - address) < roundTo + qmOverhead
  · simp [hfrag] at h
  rw [if_neg hfrag] at h
  by_cases hinit : size' < qmInitOverhead
  · simp [hinit] at h
  rw [if_neg hinit] at h
  have hdown : roundDown (size - (start - address)) ≤ size - (start - address) := Nat.sub_le _ _
  exact ⟨by omega, not_lt.mp hinit, h⟩

/-! ## Shape and counters between calls -/

/-- Between calls: the invariant, and no block that is handed out looks free. -/
def QmState.WellFormed (s : QmState) (fs : List ℕ) (lists : ℕ → List ℕ) : Prop :=
  QmInv s.qm s.live fs lists ∧ ∀ g ∈ s.live, s.qm.next g = 0

theorem qmMallocInit_spec {frag : ℕ → QmFrag} {fragEnd : ℕ → QmFragEnd} {payload : ℕ → UInt8}
    (haddr : address + size < 2 ^ 64)
    (h : qmMallocInit frag fragEnd payload address size = some qm) :
    ∃ f lists, QmState.WellFormed ⟨qm, ∅⟩ [f] lists ∧ qm.Counts ∅ 0 [f] ∧
      qm.size = roundDown (size - (roundUp address - address)) := by
  obtain ⟨hend, hinit, hins⟩ := qmMallocInit_eq haddr rfl rfl h
  have hbound : roundUp address + roundDown (size - (roundUp address - address)) < 2 ^ 64 := by
    omega
  obtain ⟨hinv, hcounts, -, hsize, hfirst⟩ :=
    qmInitBlock_inv frag fragEnd payload hbound hinit rfl rfl
  obtain ⟨qm', lists', hrun, hinv', -, hshape', -⟩ :=
    hinv.insertFree_spec (Finset.mem_singleton_self _)
  rw [← hfirst, hins] at hrun
  obtain rfl : qm = qm' := some.inj hrun
  rw [Finset.erase_singleton] at hinv'
  refine ⟨_, lists', ⟨hinv', fun g hg => absurd hg (Finset.notMem_empty g)⟩,
    hcounts.congr hshape'.books fun g _ => hshape'.size g, ?_⟩
  rw [hshape'.poolSize, hsize]

/-- A pool with room for its header and for one fragment is set up. -/
theorem qmMallocInit_exists (frag : ℕ → QmFrag) (fragEnd : ℕ → QmFragEnd)
    (payload : ℕ → UInt8) (haddr : address + size < 2 ^ 64)
    (hround : roundUp address = address) (hinit : qmInitOverhead ≤ roundDown size) :
    ∃ qm, qmMallocInit frag fragEnd payload address size = some qm := by
  have hsub : usub 64 address address = 0 := by
    rw [usub_of_le le_rfl (by omega), Nat.sub_self]
  have hsize : usub 64 size 0 = size := usub_of_le (Nat.zero_le size) (by omega)
  have hdown : roundDown size ≤ size := Nat.sub_le _ _
  have hover : roundTo + qmOverhead ≤ qmInitOverhead := by decide
  have hbound : address + roundDown size < 2 ^ 64 := by omega
  obtain ⟨hinv, -, -, -, hfirst⟩ := qmInitBlock_inv frag fragEnd payload hbound hinit rfl rfl
  obtain ⟨qm, -, hrun, -⟩ := hinv.insertFree_spec (Finset.mem_singleton_self _)
  refine ⟨qm, ?_⟩
  unfold qmMallocInit
  simp only [hround, hsub, hsize, Nat.not_lt_zero, if_false]
  rw [if_neg (by omega), if_neg (by omega), hfirst]
  exact hrun

@[simp] theorem qmFragsOf_add (f : ℕ) : qmFragsOf (f + qmFragSize) = {f} := by
  rw [qmFragsOf, if_neg (by simp [qmFragSize]), Nat.add_sub_cancel]

@[simp] theorem qmFragsOf_zero : qmFragsOf 0 = ∅ := rfl

theorem union_fragsOf (live : Finset ℕ) (f : ℕ) :
    live ∪ qmFragsOf (f + qmFragSize) = insert f live := by
  rw [qmFragsOf_add, Finset.union_comm, Finset.insert_eq]

theorem sdiff_fragsOf (live : Finset ℕ) (f : ℕ) :
    live \ qmFragsOf (f + qmFragSize) = live.erase f := by
  rw [qmFragsOf_add, Finset.sdiff_singleton_eq_erase]

namespace QmState.WellFormed

variable {s s' : QmState} {fs : List ℕ} {lists : ℕ → List ℕ} {op : QmOp} {size : ℕ}

section

variable (h : s.WellFormed fs lists)
include h

theorem malloc_spec (size : ℕ) :
    ∃ (r : QmBlock × ℕ) (fs' : List ℕ) (lists' : ℕ → List ℕ), qmMalloc s.qm size = some (r.1, r.2) ∧
      QmState.WellFormed ⟨r.1, s.live ∪ qmFragsOf r.2⟩ fs' lists' ∧
      (s.qm.Counts s.live 0 fs → r.1.Counts (s.live ∪ qmFragsOf r.2) 0 fs') := by
  obtain ⟨hinv, hnull⟩ := h
  rcases hinv.qmMalloc_spec size with ⟨hnone, -⟩ |
    ⟨qm', f, fs', lists', hrun, -, hinv', hframes', hnext', -, -, hcounts'⟩
  · refine ⟨(s.qm, 0), fs, lists, hnone, ?_, ?_⟩
    · rw [qmFragsOf_zero, Finset.union_empty]
      exact ⟨hinv, hnull⟩
    · rw [qmFragsOf_zero, Finset.union_empty]
      exact fun hcounts => hcounts
  · refine ⟨(qm', f + qmFragSize), fs', lists', hrun, ?_, ?_⟩
    · rw [union_fragsOf]
      refine ⟨hinv', fun g hg => ?_⟩
      rcases Finset.mem_insert.mp hg with rfl | hg
      · exact hnext'
      · exact (hframes'.next g hg).trans (hnull g hg)
    · rw [union_fragsOf]
      exact hcounts'

theorem free_spec (join : Bool) {f : ℕ} (hf : f ∈ s.live) :
    ∃ qm' fs' lists', qmFree join s.qm (f + qmFragSize) = some qm' ∧
      QmState.WellFormed ⟨qm', s.live.erase f⟩ fs' lists' ∧
      (s.qm.Counts s.live 0 fs → qm'.Counts (s.live.erase f) 0 fs') := by
  obtain ⟨hinv, hnull⟩ := h
  obtain ⟨qm', fs', lists', hrun, hinv', hframes', -, hcounts'⟩ := hinv.qmFree_spec hf hnull join
  refine ⟨qm', fs', lists', hrun, ⟨hinv', fun g hg => ?_⟩, hcounts'⟩
  exact (hframes'.next g hg).trans (hnull g (Finset.mem_of_mem_erase hg))

/-- `qm_realloc` as a call of a history. -/
theorem realloc_spec (join : Bool) {p : ℕ} (hp : p = 0 ∨ s.IsLive p) (size : ℕ) :
    ∃ (r : QmBlock × ℕ) (fs' : List ℕ) (lists' : ℕ → List ℕ),
      qmRealloc join s.qm p size = some (r.1, r.2) ∧
      QmState.WellFormed ⟨r.1, (s.live \ qmFragsOf p) ∪ qmFragsOf r.2⟩ fs' lists' ∧
      (¬QmOp.Shrinks s (.realloc p size) → s.qm.Counts s.live 0 fs →
        r.1.Counts ((s.live \ qmFragsOf p) ∪ qmFragsOf r.2) 0 fs') := by
  rcases hp with rfl | ⟨f, hf, rfl⟩
  · have hbad : ¬((0 : ℕ) ≠ 0 ∧ ¬s.qm.goodPointer 0) := fun hbad => hbad.1 rfl
    rw [qmFragsOf_zero, Finset.sdiff_empty, qmRealloc, if_neg hbad]
    by_cases hzero : size = 0
    · refine ⟨(s.qm, 0), fs, lists, ?_, ?_, ?_⟩
      · rw [if_pos hzero, if_neg (not_not.mpr rfl)]
      · rw [qmFragsOf_zero, Finset.union_empty]
        exact h
      · rw [qmFragsOf_zero, Finset.union_empty]
        exact fun _ hcounts => hcounts
    · rw [if_neg hzero, if_pos rfl]
      obtain ⟨r, fs', lists', hrun, hwf', hcounts'⟩ := h.malloc_spec size
      exact ⟨r, fs', lists', hrun, hwf', fun _ => hcounts'⟩
  · rw [sdiff_fragsOf]
    obtain ⟨hgood, hpos, hback⟩ := h.1.goodPointer (h.1.taken_mem f hf)
    by_cases hzero : size = 0
    · obtain ⟨qm', fs', lists', hrun, hwf', hcounts'⟩ := h.free_spec join hf
      refine ⟨(qm', 0), fs', lists', ?_, ?_, ?_⟩
      · rw [qmRealloc, if_neg fun hbad => hbad.2 hgood, if_pos hzero, if_pos hpos, hrun]
        rfl
      · rw [qmFragsOf_zero, Finset.union_empty]
        exact hwf'
      · rw [qmFragsOf_zero, Finset.union_empty]
        exact fun _ => hcounts'
    · rcases h.1.qmRealloc_cases hf h.2 join hzero with
        ⟨qm', fs', lists', hrun, -, hinv', hnull', hcounts'⟩ |
        ⟨qm', g, fs', lists', hrun, -, hinv', hnull', -, -, hcounts'⟩
      · refine ⟨(qm', 0), fs', lists', hrun, ?_, ?_⟩
        · rw [qmFragsOf_zero, Finset.union_empty]
          exact ⟨hinv', hnull'⟩
        · rw [qmFragsOf_zero, Finset.union_empty]
          exact fun _ => hcounts'
      · refine ⟨(qm', g + qmFragSize), fs', lists', hrun, ?_, ?_⟩
        · rw [union_fragsOf]
          exact ⟨hinv', hnull'⟩
        · rw [union_fragsOf]
          intro hshrinks
          refine hcounts' (not_lt.mp fun hlt => hshrinks ⟨hpos, hzero, ?_⟩)
          rw [hback]
          exact hlt

/-- One call: it returns and leaves the pool in shape, and the counters as well unless it
makes a block smaller. -/
theorem step_spec (join : Bool) (hop : op.Admissible s) :
    ∃ s' fs' lists', s.step join op = some s' ∧ s'.WellFormed fs' lists' ∧
      (¬op.Shrinks s → s.qm.Counts s.live 0 fs → s'.qm.Counts s'.live 0 fs') := by
  cases op with
  | malloc size =>
    obtain ⟨r, fs', lists', hrun, hwf', hcounts'⟩ := h.malloc_spec size
    exact ⟨_, fs', lists', (bind_of_eq_some hrun _).trans rfl, hwf', fun _ => hcounts'⟩
  | free p =>
    obtain ⟨f, hf, rfl⟩ := hop
    obtain ⟨qm', fs', lists', hrun, hwf', hcounts'⟩ := h.free_spec join hf
    refine ⟨⟨qm', s.live.erase f⟩, fs', lists', ?_, hwf', fun _ => hcounts'⟩
    rw [← sdiff_fragsOf]
    exact (bind_of_eq_some hrun _).trans rfl
  | realloc p size =>
    obtain ⟨r, fs', lists', hrun, hwf', hcounts'⟩ := h.realloc_spec join hop.1 size
    exact ⟨_, fs', lists', (bind_of_eq_some hrun _).trans rfl, hwf', hcounts'⟩

end

end QmState.WellFormed

theorem QmReach.wellFormed {join : Bool} {allowed : QmState → QmOp → Prop}
    (hqm : ∃ fs lists, QmState.WellFormed ⟨qm, ∅⟩ fs lists)
    (h : QmReach join allowed qm s) : ∃ fs lists, s.WellFormed fs lists := by
  induction h with
  | init => exact hqm
  | step _ hop _ hstep ih =>
    obtain ⟨fs, lists, hwf⟩ := ih
    obtain ⟨s', fs', lists', hrun, hwf', -⟩ := hwf.step_spec join hop
    rw [hrun] at hstep
    cases hstep
    exact ⟨fs', lists', hwf'⟩

theorem QmReach.counts {join : Bool}
    (hqm : ∃ fs lists, QmState.WellFormed ⟨qm, ∅⟩ fs lists ∧ qm.Counts ∅ 0 fs)
    (h : QmReach join (fun s op => ¬op.Shrinks s) qm s) :
    ∃ fs lists, s.WellFormed fs lists ∧ s.qm.Counts s.live 0 fs := by
  induction h with
  | init => exact hqm
  | step _ hop hallowed hstep ih =>
    obtain ⟨fs, lists, hwf, hcounts⟩ := ih
    obtain ⟨s', fs', lists', hrun, hwf', hcounts'⟩ := hwf.step_spec join hop
    rw [hrun] at hstep
    cases hstep
    exact ⟨fs', lists', hwf', hcounts' hallowed hcounts⟩

/-! ## Shape and counters of a history -/

namespace QmState

/-- The fragments `fs` fill the pool one behind the other, each with the same size in head
and tail, and the free ones are on the circular list of their size and on no other. -/
structure Sound (s : QmState) (fs : List ℕ) (lists : ℕ → List ℕ) : Prop where
  tiles : Tiles s.qm.extent s.qm.firstFrag fs (s.qm.addr + s.qm.size)
  tails : ∀ f ∈ fs, (s.qm.fragEnd (s.qm.fragEndOf f)).size = (s.qm.frag f).size
  live : ∀ f ∈ s.live, f ∈ fs
  marked : ∀ f ∈ fs, s.qm.next f = 0 ↔ f ∈ s.live
  rings : ∀ hash < hashSize,
    DSeg s.qm.next s.qm.prev (s.qm.head hash) (lists hash) (s.qm.head hash)
  once : ∀ hash < hashSize, (lists hash).Nodup
  listed : ∀ hash < hashSize, ∀ f, f ∈ lists hash ↔
    f ∈ fs ∧ f ∉ s.live ∧ getHash (s.qm.frag f).size = hash

/-- `used` counts the bytes of the blocks that are handed out; `real_used` counts their
overhead as well, that of the free fragments and the header of the pool. -/
structure Balanced (s : QmState) (fs : List ℕ) : Prop where
  used : s.qm.used = ∑ f ∈ s.live, (s.qm.frag f).size
  realUsed : s.qm.realUsed = roundUp sizeofQmBlock +
    ∑ f ∈ s.live, ((s.qm.frag f).size + qmOverhead) +
    qmOverhead * (fs.filter (· ∉ s.live)).length

variable {s : QmState} {fs : List ℕ} {lists : ℕ → List ℕ}

section

variable (h : s.WellFormed fs lists)
include h

theorem WellFormed.sound : s.Sound fs lists where
  tiles := h.1.tiles
  tails := h.1.ends
  live := h.1.taken_mem
  marked f hf := by
    constructor
    · intro hzero
      by_contra hfree
      exact h.1.next_ne_zero hf hfree hzero
    · exact h.2 f
  rings := h.1.holds
  once := h.1.nodup
  listed hash hhash f := by
    constructor
    · exact h.1.listed hash hhash f
    · rintro ⟨hf, hfree, rfl⟩
      exact h.1.free_listed f hf hfree

theorem WellFormed.length_eq : fs.length = s.live.card + (fs.filter (· ∉ s.live)).length := by
  have hnodup := h.1.fs_nodup
  have hlive : (fs.filter (· ∈ s.live)).length = s.live.card := by
    rw [← toFinset_card_of_nodup (hnodup.filter _), toFinset_filter]
    congr 1
    ext f
    simp only [Finset.mem_filter, List.mem_toFinset, decide_eq_true_eq]
    exact ⟨fun hf => hf.2, fun hf => ⟨h.1.taken_mem f hf, hf⟩⟩
  have hsplit := length_eq_length_filter_add (l := fs) (fun f => decide (f ∈ s.live))
  simp only [decide_not] at hsplit ⊢
  omega

theorem WellFormed.balanced_iff : s.Balanced fs ↔ s.qm.Counts s.live 0 fs := by
  have hsum : ∑ f ∈ s.live, ((s.qm.frag f).size + qmOverhead) =
      ∑ f ∈ s.live, (s.qm.frag f).size + qmOverhead * s.live.card := by
    rw [Finset.sum_add_distrib, Finset.sum_const_nat fun _ _ => rfl, Nat.mul_comm]
  have hlength := h.length_eq
  have hmul : qmOverhead * fs.length = qmOverhead * s.live.card +
      qmOverhead * (fs.filter (· ∉ s.live)).length := by
    rw [hlength, Nat.mul_add]
  constructor
  · rintro ⟨hused, hreal⟩
    rw [hsum] at hreal
    refine ⟨hused, ?_⟩
    change s.qm.realUsed = _ + s.qm.used
    omega
  · rintro ⟨hused, hreal⟩
    change s.qm.realUsed = _ + s.qm.used at hreal
    change s.qm.used = _ at hused
    refine ⟨hused, ?_⟩
    rw [hsum]
    omega

theorem WellFormed.malloc_null (hcounts : s.qm.Counts s.live 0 fs)
    {size : ℕ} (hnull : (qmMalloc s.qm size).map Prod.snd = some 0) :
    ∀ f ∈ fs, f ∉ s.live → (s.qm.frag f).size < roundUp size := by
  rcases h.1.qmMalloc_spec size with ⟨-, hwhy⟩ | ⟨qm', f, fs', lists', hrun, ⟨-, hffs, -⟩, -⟩
  · rcases hwhy with hfull | hsmall
    · intro f hf hfree
      have hroom := h.1.counted_le h.1.taken_mem hf hfree
      have hpool := h.1.size_lt_pow
      have hused := hcounts.used
      have hreal : s.qm.realUsed = _ + s.qm.books.1 := hcounts.realUsed
      rw [usub_of_le (by omega) hpool] at hfull
      omega
    · exact hsmall
  · rw [hrun] at hnull
    exact absurd (some.inj hnull) (h.1.goodPointer hffs).2.1

end

end QmState

/-- Whatever is allocated, freed and reallocated: the fragments fill the pool with sizes
that match in head and tail, each free one is on the list of its size only, and the next
call returns.  As long as no `qm_realloc` makes a block smaller, the counters are those of
the fragments, and `qm_malloc` returns null only if no free fragment is big enough. -/
theorem qm_history_balanced (join : Bool) (frag : ℕ → QmFrag) (fragEnd : ℕ → QmFragEnd)
    (payload : ℕ → UInt8) (address poolSize : ℕ) (haddr : address + poolSize < 2 ^ 64)
    (qm : QmBlock) (hinit : qmMallocInit frag fragEnd payload address poolSize = some qm) :
    (∀ s, QmReach join (fun _ _ => True) qm s → ∃ fs lists, s.Sound fs lists ∧
      ∀ op : QmOp, op.Admissible s → (s.step join op).isSome) ∧
    ∀ s, QmReach join (fun s op => ¬op.Shrinks s) qm s → ∃ fs lists, s.Sound fs lists ∧
      s.Balanced fs ∧ ∀ size, (qmMalloc s.qm size).map Prod.snd = some 0 →
        ∀ f ∈ fs, f ∉ s.live → (s.qm.frag f).size < roundUp size := by
  obtain ⟨f, lists₀, hwf₀, hcounts₀, -⟩ := qmMallocInit_spec haddr hinit
  constructor
  · intro s hreach
    obtain ⟨fs, lists, hwf⟩ := hreach.wellFormed ⟨[f], lists₀, hwf₀⟩
    refine ⟨fs, lists, hwf.sound, fun op hop => ?_⟩
    obtain ⟨s', fs', lists', hrun, -⟩ := hwf.step_spec join hop
    rw [hrun]
    rfl
  · intro s hreach
    obtain ⟨fs, lists, hwf, hcounts⟩ := hreach.counts ⟨[f], lists₀, hwf₀, hcounts₀⟩
    exact ⟨fs, lists, hwf.sound, hwf.balanced_iff.mpr hcounts, fun size => hwf.malloc_null hcounts⟩

theorem qmMallocInit_400000 :
    ∃ qm, qmMallocInit (fun _ => ⟨0, 0, 0⟩) (fun _ => ⟨0, 0, 0, 0⟩) (fun _ => 0) 4096 400000 =
      some qm :=
  qmMallocInit_exists _ _ _ (by decide) (by decide) (by decide)

theorem qm_malloc_1000 (join : Bool) {qm : QmBlock}
    (hinit : qmMallocInit (fun _ => ⟨0, 0, 0⟩) (fun _ => ⟨0, 0, 0, 0⟩) (fun _ => 0) 4096
      400000 = some qm) :
    ∃ (s : QmState) (f : ℕ), s.live = {f} ∧ 1000 ≤ (s.qm.frag f).size ∧
      s.qm.size = 400000 ∧ QmState.step join ⟨qm, ∅⟩ (.malloc 1000) = some s := by
  obtain ⟨f, lists, ⟨hinv, hnull⟩, ⟨hused, hreal⟩, hsize⟩ :=
    qmMallocInit_spec (by decide) hinit
  have hdown : roundDown (400000 - (roundUp 4096 - 4096)) = 400000 := by decide
  have hround : roundUp 1000 = 1000 := by decide
  have hblock : roundUp sizeofQmBlock = 218344 := by decide
  rw [hdown] at hsize
  have hpool := hinv.size_eq
  have hfsize : (qm.frag f).size = 181560 := by
    simp only [toFinset_cons, toFinset_nil, insert_empty_eq, Finset.sum_singleton,
      length_singleton, qmOverhead, qmFragSize, qmEndSize] at hpool
    omega
  have hreal' : qm.realUsed = 218440 := by
    change qm.realUsed = _ at hreal
    rw [hused, hblock] at hreal
    exact hreal
  have hroom : usub 64 qm.size qm.realUsed = 181560 := by
    rw [hsize, hreal']
    decide
  rcases hinv.qmMalloc_spec 1000 with ⟨-, hwhy⟩ |
    ⟨qm', g, fs', lists', hrun, -, -, hframes', -, -, hbig', -⟩
  · rcases hwhy with hfull | hsmall
    · rw [hroom, hround] at hfull
      omega
    · have hf := hsmall f (mem_singleton_self f) (Finset.notMem_empty f)
      rw [hfsize, hround] at hf
      omega
  · refine ⟨⟨qm', ∅ ∪ qmFragsOf (g + qmFragSize)⟩, g, ?_, ?_, ?_,
      (bind_of_eq_some hrun _).trans rfl⟩
    · rw [qmFragsOf_add, Finset.empty_union]
    · rw [← hround]
      exact hbig'
    · exact hframes'.pool.poolSize.trans hsize

/-- The pool after a block of 1000 bytes has been handed out. -/
theorem qm_history_balanced_1000 :
    ∃ (qm : QmBlock) (s : QmState) (f : ℕ) (fs : List ℕ) (lists : ℕ → List ℕ),
      qmMallocInit (fun _ => ⟨0, 0, 0⟩) (fun _ => ⟨0, 0, 0, 0⟩) (fun _ => 0) 4096 400000 = some qm ∧
      QmReach false (fun s op => ¬op.Shrinks s) qm s ∧ s.live = {f} ∧ s.Sound fs lists ∧
      s.Balanced fs := by
  obtain ⟨qm, hinit⟩ := qmMallocInit_400000
  obtain ⟨s, f, hlive, -, -, hstep⟩ := qm_malloc_1000 false hinit
  have hop : QmOp.Admissible ⟨qm, ∅⟩ (.malloc 1000) := by
    change 1000 < 2 ^ 64
    decide
  have hreach : QmReach false (fun s op => ¬op.Shrinks s) qm s :=
    QmReach.step QmReach.init hop (fun hbad => hbad) hstep
  obtain ⟨-, hruns⟩ := qm_history_balanced false (fun _ => ⟨0, 0, 0⟩) (fun _ => ⟨0, 0, 0, 0⟩)
    (fun _ => 0) 4096 400000 (by decide) qm hinit
  obtain ⟨fs, lists, hsound, hbalanced, -⟩ := hruns s hreach
  exact ⟨qm, s, f, fs, lists, hinit, hreach, hlive, hsound, hbalanced⟩

/-- In a new pool `real_used` is not 0, though nothing is handed out; and when the block of
1000 bytes has been made one of 8, the counters are no longer those of the fragments. -/
theorem qm_counters_drift :
    ∃ qm : QmBlock, qmMallocInit (fun _ => ⟨0, 0, 0⟩) (fun _ => ⟨0, 0, 0, 0⟩) (fun _ => 0) 4096
        400000 = some qm ∧
      qm.realUsed ≠ ∑ f ∈ (∅ : Finset ℕ), ((qm.frag f).size + qmOverhead) ∧
      ∃ s, QmReach false (fun _ _ => True) qm s ∧
        ¬∃ fs lists, s.Sound fs lists ∧ s.Balanced fs := by
  obtain ⟨qm, hinit⟩ := qmMallocInit_400000
  obtain ⟨f₀, lists₀, hwf₀, hcounts₀, -⟩ := qmMallocInit_spec (by decide) hinit
  refine ⟨qm, hinit, ?_, ?_⟩
  · have hblock : 0 < roundUp sizeofQmBlock := by decide
    have hreal : qm.realUsed = _ + qm.books.1 := hcounts₀.realUsed
    rw [Finset.sum_empty]
    omega
  obtain ⟨s, f, hlive, hbig, -, hstep⟩ := qm_malloc_1000 false hinit
  have hop : QmOp.Admissible ⟨qm, ∅⟩ (.malloc 1000) := by
    change 1000 < 2 ^ 64
    decide
  have hreach : QmReach false (fun s op => ¬op.Shrinks s) qm s :=
    QmReach.step QmReach.init hop (fun hbad => hbad) hstep
  have hreach' : QmReach false (fun _ _ => True) qm s :=
    QmReach.step QmReach.init hop trivial hstep
  obtain ⟨fs, lists, hwf, hcounts⟩ := hreach.counts ⟨[f₀], lists₀, hwf₀, hcounts₀⟩
  have hf : f ∈ s.live := by
    rw [hlive]
    exact Finset.mem_singleton_self f
  have hround : roundUp 8 = 8 := by decide
  have hshrink : roundUp 8 < (s.qm.frag f).size := by omega
  obtain ⟨qm', fs', lists', hrun, hinv', hframes', hnext', -⟩ :=
    hwf.1.qmShrink_spec hf hshrink.le
  have hdrift := hwf.1.qmShrink_drifts hf hshrink hcounts hrun hinv'
  have hcall : s.step false (.realloc (f + qmFragSize) 8) = some ⟨qm', s.live⟩ := by
    have hback : (s.live \ qmFragsOf (f + qmFragSize)) ∪ qmFragsOf (f + qmFragSize) =
        s.live := by
      rw [sdiff_fragsOf, union_fragsOf, Finset.insert_erase hf]
    rw [QmState.step, hwf.1.qmRealloc_of_shrink hf hwf.2 false (by decide) hshrink, hrun]
    simp only [map_some, bind_eq_bind, bind_some, hback]
    rfl
  have hadmissible : QmOp.Admissible s (.realloc (f + qmFragSize) 8) :=
    ⟨Or.inr ⟨f, hf, rfl⟩, by decide⟩
  refine ⟨_, QmReach.step hreach' hadmissible trivial hcall, ?_⟩
  rintro ⟨fs'', lists'', hsound, hbalanced⟩
  have hwf' : QmState.WellFormed ⟨qm', s.live⟩ fs' lists' := by
    refine ⟨hinv', fun g hg => ?_⟩
    rw [hlive] at hg
    rw [Finset.mem_singleton.mp hg]
    exact hnext'.trans (hwf.2 f hf)
  have hfs : fs'' = fs' := hsound.tiles.unique hinv'.tiles fun g => by
    simp only [QmBlock.extent, qmOverhead, qmFragSize]
    omega
  rw [hfs] at hbalanced
  exact hdrift (hwf'.balanced_iff.mp hbalanced)

/-! ## The contract of `qm_realloc` -/

/-- What `qm_realloc` owes a caller that hands it the live fragment `f`: a live block that
is big enough and carries on the old one, or null with nothing changed. -/
def QmState.ReallocKeeps (join : Bool) (s : QmState) (f size : ℕ) : Prop :=
  ∃ qm r, qmRealloc join s.qm (f + qmFragSize) size = some (qm, r) ∧ (r = 0 → qm = s.qm) ∧
    (r ≠ 0 → ∃ g fs lists, r = g + qmFragSize ∧
      QmState.Sound ⟨qm, insert g (s.live.erase f)⟩ fs lists ∧ size ≤ (qm.frag g).size ∧
      s.qm.Carries qm f g (min (s.qm.frag f).size size))

namespace QmState

variable {s : QmState} {fs : List ℕ} {lists : ℕ → List ℕ} {f size : ℕ}

/-- Without room the contract is broken: null comes back, and the block has been freed. -/
theorem WellFormed.not_keeps (h : s.WellFormed fs lists) (join : Bool) (hf : f ∈ s.live)
    (hzero : size ≠ 0) (hroom : ¬s.qm.HasRoom f (roundUp size)) :
    ¬s.ReallocKeeps join f size := by
  rintro ⟨qm', r, hrun, hnull, -⟩
  rcases h.1.qmRealloc_cases hf h.2 join hzero with ⟨qm'', fs', lists', hrun', -, hinv', -⟩ |
    ⟨qm'', g, fs', lists', -, hhas, -⟩
  · rw [hrun'] at hrun
    obtain ⟨rfl, rfl⟩ := Prod.mk.inj (some.inj hrun)
    obtain rfl := hnull rfl
    -- the fragments of the two pools are the same, but `f` is free in one of them
    have hfs : fs' = fs := hinv'.tiles.unique h.1.tiles fun g => by
      simp only [QmBlock.extent, qmOverhead, qmFragSize]
      omega
    subst hfs
    exact hinv'.next_ne_zero (h.1.taken_mem f hf) (Finset.notMem_erase f s.live) (h.2 f hf)
  · exact hroom hhas

theorem WellFormed.keeps (h : s.WellFormed fs lists) (join : Bool) (hf : f ∈ s.live)
    (hzero : size ≠ 0) (hwrap : size + roundTo ≤ 2 ^ 64)
    (hroom : s.qm.HasRoom f (roundUp size)) : s.ReallocKeeps join f size := by
  have hround := (roundUp_bounds hwrap).1
  rcases h.1.qmRealloc_cases hf h.2 join hzero with ⟨qm', fs', lists', -, hnot, -⟩ |
    ⟨qm', g, fs', lists', hrun, -, hinv', hnull', hbig', hcarry', -⟩
  · exact absurd hroom hnot
  · have hpos : g + qmFragSize ≠ 0 :=
      (hinv'.goodPointer (hinv'.taken_mem g (Finset.mem_insert_self g _))).2.1
    have hwf' : QmState.WellFormed ⟨qm', insert g (s.live.erase f)⟩ fs' lists' :=
      ⟨hinv', hnull'⟩
    refine ⟨qm', g + qmFragSize, hrun, fun hbad => absurd hbad hpos, fun _ =>
      ⟨g, fs', lists', rfl, hwf'.sound, hround.trans hbig', ?_⟩⟩
    have hle : min (s.qm.frag f).size size ≤ min (s.qm.frag f).size (roundUp size) :=
      min_le_min le_rfl hround
    exact ⟨fun i hi => hcarry'.bytes i (lt_of_lt_of_le hi hle), hcarry'.source.mono hle,
      hcarry'.target.mono hle⟩

/-- A block is smaller than the pool, so that a size that wraps around is not served. -/
theorem WellFormed.size_of_keeps (h : s.WellFormed fs lists) (join : Bool) (hf : f ∈ s.live)
    (hzero : size ≠ 0) (hroom : s.qm.HasRoom f (roundUp size))
    (hkeeps : s.ReallocKeeps join f size) : size + roundTo ≤ 2 ^ 64 := by
  obtain ⟨qm', r, hrun, -, hblock⟩ := hkeeps
  rcases h.1.qmRealloc_cases hf h.2 join hzero with ⟨qm'', fs', lists', -, hnot, -⟩ |
    ⟨qm'', g, fs', lists', hrun', -, hinv', -⟩
  · exact absurd hroom hnot
  · rw [hrun'] at hrun
    obtain ⟨rfl, rfl⟩ := Prod.mk.inj (some.inj hrun)
    have hgfs := hinv'.taken_mem g (Finset.mem_insert_self g _)
    obtain ⟨g', -, -, hsame, -, hbig, -⟩ := hblock (hinv'.goodPointer hgfs).2.1
    obtain rfl : g = g' := Nat.add_right_cancel hsame
    have hend := (hinv'.frag_bounds hgfs).2
    have hbound := hinv'.bound
    have hover : roundTo ≤ qmOverhead := by decide
    omega

end QmState

/-- `qm_realloc` keeps the contract exactly when it finds room for a size that does not wrap
around; otherwise the block is gone, although null has been returned. -/
theorem qm_realloc_keeps_iff (join : Bool) (frag : ℕ → QmFrag) (fragEnd : ℕ → QmFragEnd)
    (payload : ℕ → UInt8) (address poolSize : ℕ) (haddr : address + poolSize < 2 ^ 64)
    (qm : QmBlock) (hinit : qmMallocInit frag fragEnd payload address poolSize = some qm)
    (s : QmState) (hreach : QmReach join (fun _ _ => True) qm s) (f : ℕ) (hf : f ∈ s.live)
    (size : ℕ) (hzero : size ≠ 0) :
    s.ReallocKeeps join f size ↔ size + roundTo ≤ 2 ^ 64 ∧ s.qm.HasRoom f (roundUp size) := by
  obtain ⟨f₀, lists₀, hwf₀, -, -⟩ := qmMallocInit_spec haddr hinit
  obtain ⟨fs, lists, hwf⟩ := hreach.wellFormed ⟨[f₀], lists₀, hwf₀⟩
  constructor
  · intro hkeeps
    have hroom : s.qm.HasRoom f (roundUp size) := by
      by_contra hnot
      exact hwf.not_keeps join hf hzero hnot hkeeps
    exact ⟨hwf.size_of_keeps join hf hzero hroom hkeeps, hroom⟩
  · rintro ⟨hwrap, hroom⟩
    exact hwf.keeps join hf hzero hwrap hroom

/-- The block of 1000 bytes made one of 8. -/
theorem qm_realloc_keeps_8 : ∃ (qm : QmBlock) (s : QmState) (f : ℕ),
      qmMallocInit (fun _ => ⟨0, 0, 0⟩) (fun _ => ⟨0, 0, 0, 0⟩) (fun _ => 0) 4096 400000 = some qm ∧
      QmReach false (fun _ _ => True) qm s ∧ f ∈ s.live ∧ s.ReallocKeeps false f 8 := by
  obtain ⟨qm, hinit⟩ := qmMallocInit_400000
  obtain ⟨s, f, hlive, hbig, -, hstep⟩ := qm_malloc_1000 false hinit
  have hop : QmOp.Admissible ⟨qm, ∅⟩ (.malloc 1000) := by
    change 1000 < 2 ^ 64
    decide
  have hreach : QmReach false (fun _ _ => True) qm s :=
    QmReach.step QmReach.init hop trivial hstep
  have hf : f ∈ s.live := by
    rw [hlive]
    exact Finset.mem_singleton_self f
  have hround : roundUp 8 = 8 := by decide
  have hroom : s.qm.HasRoom f (roundUp 8) := Or.inl (by omega)
  exact ⟨qm, s, f, hinit, hreach, hf,
    (qm_realloc_keeps_iff false (fun _ => ⟨0, 0, 0⟩) (fun _ => ⟨0, 0, 0, 0⟩) (fun _ => 0) 4096
      400000 (by decide) qm hinit s hreach f hf 8 (by decide)).mpr ⟨by decide, hroom⟩⟩

/-- No block of a pool is as big as the pool. -/
theorem QmState.WellFormed.not_hasRoom {fs : List ℕ} {lists : ℕ → List ℕ}
    (h : s.WellFormed fs lists) {f : ℕ} (hf : f ∈ s.live) (hsize : s.qm.size ≤ size)
    (hsize64 : size < 2 ^ 64) : ¬s.qm.HasRoom f size := by
  have hover : qmOverhead = 96 := rfl
  have hsmall : ∀ g ∈ fs, (s.qm.frag g).size + qmOverhead + 104 ≤ s.qm.size := by
    intro g hg
    have hbounds := h.1.frag_bounds hg
    have hhead := h.1.head_lt (show 0 < hashSize by decide)
    have hlnk : qmLnkSize = 104 := rfl
    omega
  have hffs := h.1.taken_mem f hf
  rintro (hbig | ⟨hnext, -, hdiff⟩ | ⟨-, hfree⟩)
  · have hfsize := hsmall f hffs
    omega
  · obtain ⟨l₁, l₂, rfl⟩ := append_of_mem hffs
    rcases h.1.fragNext_cases with ⟨-, hend⟩ | ⟨l₃, rfl, -⟩
    · exact hend hnext
    · have hn := h.1.frag_bounds (f := s.qm.fragNext f) (by simp)
      have hfsize := hsmall f hffs
      have hfbounds := h.1.frag_bounds hffs
      have hsum : s.qm.fragNext f = f + (qmOverhead + (s.qm.frag f).size) :=
        QmInv.fragNext_eq s.qm f
      have hhead := h.1.head_lt (show 0 < hashSize by decide)
      have hbound := h.1.bound
      rw [usub_of_le (by omega) hsize64, uadd_of_lt (by omega)] at hdiff
      omega
  · obtain ⟨g, hg, -, hbig⟩ := (h.1.hasFree_iff h.2).mp hfree
    have hgsize := hsmall g hg
    omega

/-- The block of 1000 bytes, made one that is bigger than the pool: null comes back, and
the contract is broken. -/
theorem qm_realloc_lost : ∃ (qm : QmBlock) (s : QmState) (f : ℕ),
      qmMallocInit (fun _ => ⟨0, 0, 0⟩) (fun _ => ⟨0, 0, 0, 0⟩) (fun _ => 0) 4096 400000 = some qm ∧
      QmReach false (fun _ _ => True) qm s ∧ f ∈ s.live ∧
      ¬s.ReallocKeeps false f 500000 := by
  obtain ⟨qm, hinit⟩ := qmMallocInit_400000
  obtain ⟨s, f, hlive, -, hpool, hstep⟩ := qm_malloc_1000 false hinit
  obtain ⟨f₀, lists₀, hwf₀, -, -⟩ := qmMallocInit_spec (by decide) hinit
  have hop : QmOp.Admissible ⟨qm, ∅⟩ (.malloc 1000) := by
    change 1000 < 2 ^ 64
    decide
  have hreach : QmReach false (fun _ _ => True) qm s :=
    QmReach.step QmReach.init hop trivial hstep
  have hf : f ∈ s.live := by
    rw [hlive]
    exact Finset.mem_singleton_self f
  obtain ⟨fs, lists, hwf⟩ := hreach.wellFormed ⟨[f₀], lists₀, hwf₀⟩
  have hround : roundUp 500000 = 500000 := by decide
  refine ⟨qm, s, f, hinit, hreach, hf, hwf.not_keeps false hf (by decide) ?_⟩
  rw [hround]
  exact hwf.not_hasRoom hf (by omega) (by decide)

end Msicp.Mem
