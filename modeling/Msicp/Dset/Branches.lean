import Msicp.Support.FlatMemory
import Mathlib.Data.BitVec

/-!
# The destination set: `append_branch` and `next_branch`

The branches of a request are kept in one static array.  An entry has a buffer
for the URI and one for the destination URI, each with its length behind it, and
the q value.
-/

namespace Msicp.Dset

open Msicp.Support List

def maxUriSize : ℕ := 1024

def maxBranches : ℕ := 30

def eTooManyBranches : ℤ := -12

def qUnspecified : BitVec 32 := -1

/-! `struct branch`: the offsets of its fields, and its size. -/

def offUri : ℕ := 0
def offLen : ℕ := maxUriSize
def offDst : ℕ := maxUriSize + 4
def offDstLen : ℕ := 2 * maxUriSize + 4
def offQ : ℕ := 2 * maxUriSize + 8
def branchSize : ℕ := 2 * maxUriSize + 12

/-- `&branches[i]` -/
def slot (i : ℕ) : ℕ := i * branchSize

/-- The static variables; `branches` is at the address 0. -/
structure Statics where
  mem : FlatMemory
  nrBranches : ℕ
  branchIterator : ℕ
  ruriQ : BitVec 32
  serError : ℤ

/-- The URIs of a message: `new_uri` and that of the first line. -/
structure Msg where
  newUri : Option Bytes
  uri : Bytes

/-- What is handed out for an entry. -/
structure Branch where
  uri : Bytes
  dst : Bytes
  q : BitVec 32
  deriving DecidableEq

/-- The entry `i` as it stands in the array. -/
def entryAt (mem : FlatMemory) (i : ℕ) : Branch where
  uri := mem.read (slot i + offUri) (wordVal (mem.read (slot i + offLen) 4))
  dst := mem.read (slot i + offDst) (wordVal (mem.read (slot i + offDstLen) 4))
  q := BitVec.ofNat 32 (wordVal (mem.read (slot i + offQ) 4))

namespace Statics

def initBranchIterator (s : Statics) : Statics := { s with branchIterator := 0 }

def nextBranch (s : Statics) : Option Branch × Statics :=
  if s.branchIterator < s.nrBranches then
    (some (entryAt s.mem s.branchIterator),
      { s with branchIterator := s.branchIterator + 1 })
  else (none, s)

def clearBranches (s : Statics) : Statics := { s with nrBranches := 0, ruriQ := qUnspecified }

end Statics

/-- The URI that is taken for a branch. -/
def Msg.branchUri (msg : Msg) (uri : Option Bytes) : Bytes :=
  uri.getD (msg.newUri.getD msg.uri)

/-- The writes to the buffer of the URI: the text, and the zero behind it. -/
def uriWrites (n : ℕ) (uri : Bytes) : List (ℕ × Bytes) :=
  [(slot n + offUri, uri), (slot n + offUri + uri.length, [0])]

/-- The writes to the buffer of the destination URI. -/
def dstWrites (n : ℕ) (dst : Bytes) : List (ℕ × Bytes) :=
  if dst = [] then [(slot n + offDst, [0])]
  else [(slot n + offDst, dst), (slot n + offDst + dst.length, [0])]

/-- All that `append_branch` writes, in this order. -/
def writes (n : ℕ) (uri dst : Bytes) (q : BitVec 32) : List (ℕ × Bytes) :=
  uriWrites n uri ++ [(slot n + offLen, word uri.length), (slot n + offQ, word q.toNat)] ++
    dstWrites n dst ++ [(slot n + offDstLen, word dst.length)]

/-- `append_branch`; a URI that is a null pointer has the length 0, and so has a
destination URI. -/
def Statics.appendBranch (s : Statics) (msg : Msg) (uri dst : Option Bytes) (q : BitVec 32) :
    Statics × ℤ :=
  if s.nrBranches = maxBranches - 1 then ({ s with serError := eTooManyBranches }, -1)
  else if (uri.getD []).length > maxUriSize - 1 then (s, -1)
  else
    ({ s with
      mem := s.mem.writeAll (writes s.nrBranches (msg.branchUri uri) (dst.getD []) q)
      nrBranches := s.nrBranches + 1 }, 1)

/-- One `next_branch` after the other until there is no branch left. -/
def collect : ℕ → Statics → List Branch
  | 0, _ => []
  | fuel + 1, s =>
    match s.nextBranch with
    | (some b, s') => b :: collect fuel s'
    | (none, _) => []

/-- The branches that an iteration from the first one on gives. -/
def Statics.iteration (s : Statics) : List Branch :=
  collect maxBranches s.initBranchIterator

/-! ## What is to be done -/

/-- The branch that the arguments of `append_branch` describe. -/
def Msg.branch (msg : Msg) (uri dst : Option Bytes) (q : BitVec 32) : Branch :=
  ⟨msg.branchUri uri, dst.getD [], q⟩

/-- A branch that the buffers of an entry have room for, with the zeros. -/
def Branch.fits (b : Branch) : Bool :=
  b.uri.length + 1 ≤ maxUriSize && b.dst.length + 1 ≤ maxUriSize

/-- The writes stay inside the buffers of the entry `n`. -/
def Inside (n : ℕ) (uri dst : Bytes) : Prop :=
  (∀ w ∈ uriWrites n uri, slot n + offUri ≤ w.1 ∧ w.1 + w.2.length ≤ slot n + offUri + maxUriSize) ∧
    ∀ w ∈ dstWrites n dst, slot n + offDst ≤ w.1 ∧ w.1 + w.2.length ≤ slot n + offDst + maxUriSize

/-- `append_branch` rejects the branch and leaves the set as it is, or it writes
inside the buffers of a new entry and the branch is the last one of the set. -/
def AppendRight (s : Statics) (msg : Msg) (uri dst : Option Bytes) (q : BitVec 32) : Prop :=
  let b := msg.branch uri dst q
  let r := s.appendBranch msg uri dst q
  if s.nrBranches = maxBranches - 1 ∨ b.fits = false then
    r.2 = -1 ∧ r.1.mem = s.mem ∧ r.1.nrBranches = s.nrBranches
  else
    r.2 = 1 ∧ Inside s.nrBranches b.uri b.dst ∧ r.1.iteration = s.iteration ++ [b]

/-- The arguments with which `append_branch` does so: the set is full, or the URI
that is given is too long, or everything that is taken fits. -/
def Safe (n : ℕ) (msg : Msg) (uri dst : Option Bytes) (q : BitVec 32) : Prop :=
  n = maxBranches - 1 ∨ (∃ u, uri = some u ∧ maxUriSize ≤ u.length) ∨
    (msg.branch uri dst q).fits = true

/-- What is done with the set of a request. -/
inductive Op
  | append (msg : Msg) (uri dst : Option Bytes) (q : BitVec 32)
  | init
  | next
  | clear

def step (s : Statics) : Op → Statics
  | .append msg uri dst q => (s.appendBranch msg uri dst q).1
  | .init => s.initBranchIterator
  | .next => s.nextBranch.2
  | .clear => s.clearBranches

def run (s : Statics) (ops : List Op) : Statics := ops.foldl step s

/-- The branches that have been appended since the set was cleared. -/
def appended (bs : List Branch) : Op → List Branch
  | .append msg uri dst q =>
    if bs.length = maxBranches - 1 ∨ (msg.branch uri dst q).fits = false then bs
    else bs ++ [msg.branch uri dst q]
  | .init => bs
  | .next => bs
  | .clear => []

/-- Every append of the run has arguments that are safe where it stands. -/
def SafeRun : List Branch → List Op → Prop
  | _, [] => True
  | bs, op :: ops =>
    (∀ msg uri dst q, op = .append msg uri dst q → Safe bs.length msg uri dst q) ∧
      SafeRun (appended bs op) ops

/-! ## The entries -/

theorem offsets : offUri = 0 ∧ offLen = 1024 ∧ offDst = 1028 ∧ offDstLen = 2052 ∧
    offQ = 2056 ∧ branchSize = 2060 := ⟨rfl, rfl, rfl, rfl, rfl, rfl⟩

variable {b : Branch} {i n : ℕ} {w : ℕ × Bytes}

theorem Branch.fits_iff :
    b.fits = true ↔ b.uri.length < maxUriSize ∧ b.dst.length < maxUriSize := by
  simp [fits, Nat.succ_le_iff]

theorem slot_le (h : i < n) : slot i + branchSize ≤ slot n := by
  have hmul := Nat.mul_le_mul_right branchSize (Nat.succ_le_of_lt h)
  rw [Nat.succ_mul] at hmul
  exact hmul

theorem mem_dstWrites {dst : Bytes} (hw : w ∈ dstWrites n dst) (h : dst.length < maxUriSize) :
    slot n + offDst ≤ w.1 ∧ w.1 + w.2.length ≤ slot n + offDst + maxUriSize := by
  have hmax : maxUriSize = 1024 := rfl
  unfold dstWrites at hw
  split_ifs at hw with hdst
  · rw [mem_singleton] at hw
    subst hw
    simp only [length_singleton]
    omega
  · rcases mem_pair.mp hw with rfl | rfl
    · simp only
      omega
    · simp only [length_singleton]
      omega

theorem mem_uriWrites {uri : Bytes} (hw : w ∈ uriWrites n uri) (h : uri.length < maxUriSize) :
    slot n + offUri ≤ w.1 ∧ w.1 + w.2.length ≤ slot n + offUri + maxUriSize := by
  rcases mem_pair.mp hw with rfl | rfl
  · simp only
    omega
  · simp only [length_singleton]
    omega

theorem inside_of_fits {n : ℕ} {b : Branch} (h : b.fits = true) : Inside n b.uri b.dst := by
  rw [Branch.fits_iff] at h
  exact ⟨fun w hw => mem_uriWrites hw h.1, fun w hw => mem_dstWrites hw h.2⟩

theorem mem_writes (h : b.fits = true) (hw : w ∈ writes n b.uri b.dst b.q) :
    slot n ≤ w.1 ∧ w.1 + w.2.length ≤ slot n + branchSize := by
  obtain ⟨huri, hlen, hdst, hdstLen, hq, hsize⟩ := offsets
  have hmax : maxUriSize = 1024 := rfl
  have hinside := @inside_of_fits n b h
  rw [writes, mem_append, mem_append, mem_append, mem_pair, mem_singleton] at hw
  rcases hw with ((hw | rfl | rfl) | hw) | rfl
  · have := hinside.1 w hw
    omega
  · simp only [word_length]
    omega
  · simp only [word_length]
    omega
  · have := hinside.2 w hw
    omega
  · simp only [word_length]
    omega

theorem entryAt_congr {m m' : FlatMemory} (hfits : (entryAt m i).fits = true)
    (h : ∀ a n, slot i ≤ a → a + n ≤ slot i + branchSize → m'.read a n = m.read a n) :
    entryAt m' i = entryAt m i := by
  obtain ⟨huri, hlen, hdst, hdstLen, hq, hsize⟩ := offsets
  have hmax : maxUriSize = 1024 := rfl
  have hreadLen := h (slot i + offLen) 4 (by omega) (by omega)
  have hreadDstLen := h (slot i + offDstLen) 4 (by omega) (by omega)
  have hreadQ := h (slot i + offQ) 4 (by omega) (by omega)
  rw [Branch.fits_iff] at hfits
  simp only [entryAt, FlatMemory.read_length] at hfits
  have hreadUri := h (slot i + offUri) (wordVal (m.read (slot i + offLen) 4)) (by omega) (by omega)
  have hreadDst := h (slot i + offDst) (wordVal (m.read (slot i + offDstLen) 4)) (by omega)
    (by omega)
  simp only [entryAt, hreadLen, hreadDstLen, hreadQ, hreadUri, hreadDst]

theorem entryAt_writeAll_other {m : FlatMemory} (hb : b.fits = true)
    (hfits : (entryAt m i).fits = true) (hi : i ≠ n) :
    entryAt (m.writeAll (writes n b.uri b.dst b.q)) i = entryAt m i := by
  apply entryAt_congr hfits
  intro a k ha hak
  apply FlatMemory.read_writeAll_disjoint
  intro w hw
  have hwrite := mem_writes hb hw
  rcases Nat.lt_or_gt_of_ne hi with hlt | hlt
  · have := slot_le hlt
    omega
  · have := slot_le hlt
    omega

theorem read_field {m : FlatMemory} {before after : List (ℕ × Bytes)} {a n : ℕ} {bs : Bytes}
    (hn : n = bs.length) (h : ∀ w ∈ after, w.1 + w.2.length ≤ a ∨ a + n ≤ w.1) :
    (m.writeAll (before ++ (a, bs) :: after)).read a n = bs := by
  subst hn
  exact FlatMemory.read_writeAll before h

theorem read_dstLen (m : FlatMemory) (n : ℕ) (b : Branch) :
    (m.writeAll (writes n b.uri b.dst b.q)).read (slot n + offDstLen) 4 = word b.dst.length :=
  read_field rfl (by simp)

section Own

variable (m : FlatMemory) (n : ℕ) {b : Branch} (hb : b.fits = true)

include hb

theorem read_uri :
    (m.writeAll (writes n b.uri b.dst b.q)).read (slot n + offUri) b.uri.length = b.uri := by
  obtain ⟨huri, hlen, hdst, hdstLen, hq, hsize⟩ := offsets
  have hmax : maxUriSize = 1024 := rfl
  have hinside := (@inside_of_fits n b hb).2
  rw [Branch.fits_iff] at hb
  refine @read_field m []
    ((slot n + offUri + b.uri.length, [0]) :: (slot n + offLen, word b.uri.length) ::
      (slot n + offQ, word b.q.toNat) :: dstWrites n b.dst ++
        [(slot n + offDstLen, word b.dst.length)])
    (slot n + offUri) b.uri.length b.uri rfl ?_
  intro w hw
  simp only [cons_append, mem_cons, mem_append, not_mem_nil, or_false] at hw
  rcases hw with rfl | rfl | rfl | hw | rfl
  · exact .inr le_rfl
  · exact .inr (by simp only; omega)
  · exact .inr (by simp only; omega)
  · have := hinside w hw
    exact .inr (by omega)
  · exact .inr (by simp only; omega)

theorem read_len :
    (m.writeAll (writes n b.uri b.dst b.q)).read (slot n + offLen) 4 = word b.uri.length := by
  obtain ⟨huri, hlen, hdst, hdstLen, hq, hsize⟩ := offsets
  have hinside := (@inside_of_fits n b hb).2
  refine @read_field m (uriWrites n b.uri) ((slot n + offQ, word b.q.toNat) :: dstWrites n b.dst ++
      [(slot n + offDstLen, word b.dst.length)])
    (slot n + offLen) 4 (word b.uri.length) rfl ?_
  intro w hw
  simp only [cons_append, mem_cons, mem_append, not_mem_nil, or_false] at hw
  rcases hw with rfl | hw | rfl
  · exact .inr (by simp only; omega)
  · have := hinside w hw
    exact .inr (by omega)
  · exact .inr (by simp only; omega)

theorem read_q :
    (m.writeAll (writes n b.uri b.dst b.q)).read (slot n + offQ) 4 = word b.q.toNat := by
  obtain ⟨huri, hlen, hdst, hdstLen, hq, hsize⟩ := offsets
  have hmax : maxUriSize = 1024 := rfl
  have hinside := (@inside_of_fits n b hb).2
  have hwrites : writes n b.uri b.dst b.q =
      (uriWrites n b.uri ++ [(slot n + offLen, word b.uri.length)]) ++
        (slot n + offQ, word b.q.toNat) :: (dstWrites n b.dst ++
          [(slot n + offDstLen, word b.dst.length)]) := by
    simp [writes]
  rw [hwrites]
  refine read_field rfl ?_
  intro w hw
  rw [mem_append, mem_singleton] at hw
  rcases hw with hw | rfl
  · have := hinside w hw
    exact .inl (by omega)
  · exact .inl (by simp only [word_length]; omega)

theorem read_dst :
    (m.writeAll (writes n b.uri b.dst b.q)).read (slot n + offDst) b.dst.length = b.dst := by
  obtain ⟨huri, hlen, hdst, hdstLen, hq, hsize⟩ := offsets
  have hmax : maxUriSize = 1024 := rfl
  rw [Branch.fits_iff] at hb
  by_cases hempty : b.dst = []
  · rw [hempty]
    rfl
  · have hwrites : writes n b.uri b.dst b.q =
        (uriWrites n b.uri ++ [(slot n + offLen, word b.uri.length),
          (slot n + offQ, word b.q.toNat)]) ++ (slot n + offDst, b.dst) ::
            [(slot n + offDst + b.dst.length, [0]), (slot n + offDstLen, word b.dst.length)] := by
      simp [writes, dstWrites, hempty]
    rw [hwrites]
    refine read_field rfl ?_
    intro w hw
    rcases mem_pair.mp hw with rfl | rfl
    · exact .inr le_rfl
    · exact .inr (by simp only; omega)

theorem entryAt_writeAll_self : entryAt (m.writeAll (writes n b.uri b.dst b.q)) n = b := by
  have hfits := Branch.fits_iff.mp hb
  have hmax : maxUriSize = 1024 := rfl
  have huri : wordVal (word b.uri.length) = b.uri.length := wordVal_word (by omega)
  have hdst : wordVal (word b.dst.length) = b.dst.length := wordVal_word (by omega)
  have hq : wordVal (word b.q.toNat) = b.q.toNat := wordVal_word b.q.isLt
  simp only [entryAt, read_len m n hb, read_dstLen, read_q m n hb, huri, hdst, hq,
    read_uri m n hb, read_dst m n hb, BitVec.ofNat_toNat, BitVec.setWidth_eq]

end Own

/-! ## The set -/

/-- The array holds the branches, from the first entry on. -/
structure Holds (s : Statics) (bs : List Branch) : Prop where
  count : s.nrBranches = bs.length
  room : bs.length < maxBranches
  fits : ∀ b ∈ bs, b.fits = true
  entry : ∀ i (h : i < bs.length), entryAt s.mem i = bs[i]

variable {s : Statics} {bs : List Branch}

theorem Holds.nextBranch (h : Holds s bs) :
    s.nextBranch.1 = bs[s.branchIterator]? ∧ Holds s.nextBranch.2 bs := by
  unfold Statics.nextBranch
  by_cases hlt : s.branchIterator < s.nrBranches
  · rw [if_pos hlt]
    have hbs : s.branchIterator < bs.length := h.count ▸ hlt
    refine ⟨?_, h.count, h.room, h.fits, h.entry⟩
    rw [getElem?_eq_getElem hbs]
    exact congrArg some (h.entry _ hbs)
  · rw [if_neg hlt]
    refine ⟨?_, h⟩
    rw [getElem?_eq_none (h.count ▸ Nat.le_of_not_lt hlt)]

theorem Holds.collect (h : Holds s bs) {fuel : ℕ} (hfuel : bs.length < fuel + s.branchIterator) :
    collect fuel s = bs.drop s.branchIterator := by
  induction fuel generalizing s with
  | zero =>
    rw [drop_eq_nil_of_le (by omega)]
    rfl
  | succ fuel ih =>
    obtain ⟨hnext, hholds⟩ := h.nextBranch
    by_cases hlt : s.branchIterator < s.nrBranches
    · have hbs : s.branchIterator < bs.length := h.count ▸ hlt
      rw [getElem?_eq_getElem hbs] at hnext
      have hs : s.nextBranch = (some bs[s.branchIterator],
          { s with branchIterator := s.branchIterator + 1 }) := by
        rw [Statics.nextBranch, if_pos hlt] at hnext ⊢
        rw [← hnext]
      have hrest := @ih { s with branchIterator := s.branchIterator + 1 }
        ⟨h.count, h.room, h.fits, h.entry⟩ (by simp only; omega)
      rw [Dset.collect, hs, drop_eq_getElem_cons hbs]
      exact congrArg _ hrest
    · have hs : s.nextBranch = (none, s) := if_neg hlt
      rw [Dset.collect, hs, drop_eq_nil_of_le (h.count ▸ Nat.le_of_not_lt hlt)]

theorem Holds.iteration (h : Holds s bs) : s.iteration = bs := by
  have hinit : Holds s.initBranchIterator bs := ⟨h.count, h.room, h.fits, h.entry⟩
  exact hinit.collect h.room

/-- The variables behind an append that is not rejected. -/
def Statics.stored (s : Statics) (b : Branch) : Statics :=
  { s with
    mem := s.mem.writeAll (writes s.nrBranches b.uri b.dst b.q)
    nrBranches := s.nrBranches + 1 }

theorem stored_mem (s : Statics) (b : Branch) :
    (s.stored b).mem = s.mem.writeAll (writes s.nrBranches b.uri b.dst b.q) := by
  rw [Statics.stored]

theorem Holds.append (h : Holds s bs) (hfits : b.fits = true)
    (hroom : s.nrBranches ≠ maxBranches - 1) : Holds (s.stored b) (bs ++ [b]) := by
  have hlen : (bs ++ [b]).length = bs.length + 1 := List.length_append
  constructor
  · rw [hlen, ← h.count]
    rfl
  · have hroom' := h.room
    have hne := h.count ▸ hroom
    omega
  · intro x hx
    rcases mem_append.mp hx with hx | hx
    · exact h.fits x hx
    · exact mem_singleton.mp hx ▸ hfits
  · intro i hi
    rw [stored_mem]
    rcases Nat.lt_succ_iff_lt_or_eq.mp (hlen ▸ hi) with hlt | heq
    · have hentry := h.entry i hlt
      have hold : (entryAt s.mem i).fits = true := hentry ▸ h.fits _ (getElem_mem hlt)
      rw [entryAt_writeAll_other hfits hold (by rw [h.count]; omega), hentry,
        getElem_append_left hlt]
    · subst heq
      rw [getElem_concat_length rfl, ← h.count]
      exact entryAt_writeAll_self s.mem s.nrBranches hfits

theorem long_iff (uri : Option Bytes) :
    (uri.getD []).length > maxUriSize - 1 ↔ ∃ u, uri = some u ∧ maxUriSize ≤ u.length := by
  have hmax : maxUriSize = 1024 := rfl
  cases uri with
  | none => simp
  | some u => simp only [Option.getD_some, Option.some.injEq, exists_eq_left']; omega

theorem not_fits_of_long {msg : Msg} {uri dst : Option Bytes} {q : BitVec 32}
    (h : ∃ u, uri = some u ∧ maxUriSize ≤ u.length) : (msg.branch uri dst q).fits = false := by
  obtain ⟨u, rfl, hu⟩ := h
  rw [← Bool.not_eq_true, Branch.fits_iff]
  intro hfits
  exact absurd hu (Nat.not_le_of_lt hfits.1)

variable (msg : Msg) (uri dst : Option Bytes) (q : BitVec 32)

theorem appendBranch_stored (hroom : s.nrBranches ≠ maxBranches - 1)
    (hlong : ¬∃ u, uri = some u ∧ maxUriSize ≤ u.length) :
    s.appendBranch msg uri dst q = (s.stored (msg.branch uri dst q), 1) := by
  rw [Statics.appendBranch, if_neg hroom, if_neg (mt (long_iff uri).mp hlong)]
  rfl

theorem Holds.appendRight_iff (h : Holds s bs) :
    AppendRight s msg uri dst q ↔ Safe s.nrBranches msg uri dst q := by
  unfold AppendRight Safe
  dsimp only
  by_cases hfull : s.nrBranches = maxBranches - 1
  · have hrun : s.appendBranch msg uri dst q = ({ s with serError := eTooManyBranches }, -1) :=
      if_pos hfull
    rw [if_pos (.inl hfull), hrun]
    exact iff_of_true ⟨rfl, rfl, rfl⟩ (.inl hfull)
  by_cases hlong : ∃ u, uri = some u ∧ maxUriSize ≤ u.length
  · have hrun : s.appendBranch msg uri dst q = (s, -1) := by
      rw [Statics.appendBranch, if_neg hfull, if_pos ((long_iff uri).mpr hlong)]
    rw [if_pos (.inr (not_fits_of_long hlong)), hrun]
    exact iff_of_true ⟨rfl, rfl, rfl⟩ (.inr (.inl hlong))
  have hrun := appendBranch_stored msg uri dst q hfull hlong
  cases hfits : (msg.branch uri dst q).fits with
  | true =>
    have hnew := h.append hfits hfull
    rw [if_neg (by simp [hfull])]
    refine iff_of_true ⟨congrArg Prod.snd hrun, inside_of_fits hfits, ?_⟩ (.inr (.inr rfl))
    rw [hrun, hnew.iteration, h.iteration]
  | false =>
    rw [if_pos (.inr rfl)]
    have hret : (s.appendBranch msg uri dst q).2 = 1 := congrArg Prod.snd hrun
    refine iff_of_false (fun hright => ?_) ?_
    · exact absurd (hret.symm.trans hright.1) (by decide)
    · rintro (h | h | h)
      · exact hfull h
      · exact hlong h
      · exact Bool.false_ne_true h

theorem holds_clear (s : Statics) : Holds s.clearBranches [] :=
  ⟨rfl, by decide, nofun, nofun⟩

theorem Holds.stepAppend (h : Holds s bs) (hsafe : Safe bs.length msg uri dst q) :
    Holds (s.appendBranch msg uri dst q).1 (appended bs (.append msg uri dst q)) := by
  rw [appended]
  by_cases hfull : s.nrBranches = maxBranches - 1
  · rw [if_pos (.inl (h.count ▸ hfull)), Statics.appendBranch, if_pos hfull]
    exact ⟨h.count, h.room, h.fits, h.entry⟩
  by_cases hlong : ∃ u, uri = some u ∧ maxUriSize ≤ u.length
  · rw [if_pos (.inr (not_fits_of_long hlong)), Statics.appendBranch, if_neg hfull,
      if_pos ((long_iff uri).mpr hlong)]
    exact h
  have hfits : (msg.branch uri dst q).fits = true := by
    rcases hsafe with hsafe | hsafe | hsafe
    · exact absurd (h.count.trans hsafe) hfull
    · exact absurd hsafe hlong
    · exact hsafe
  rw [appendBranch_stored msg uri dst q hfull hlong, if_neg]
  · exact h.append hfits hfull
  · rw [hfits, ← h.count]
    simp [hfull]

theorem Holds.step (h : Holds s bs) {op : Op}
    (hsafe : ∀ msg uri dst q, op = .append msg uri dst q → Safe bs.length msg uri dst q) :
    Holds (step s op) (appended bs op) := by
  cases op with
  | init => exact ⟨h.count, h.room, h.fits, h.entry⟩
  | next => exact h.nextBranch.2
  | clear => exact holds_clear s
  | append msg uri dst q => exact h.stepAppend msg uri dst q (hsafe msg uri dst q rfl)

theorem Holds.run (h : Holds s bs) {ops : List Op} (hsafe : SafeRun bs ops) :
    Holds (run s ops) (ops.foldl appended bs) := by
  induction ops generalizing s bs with
  | nil => exact h
  | cons op ops ih => exact ih (h.step hsafe.1) hsafe.2

/-- From any cleared state, after any run of which every append is safe, an
iteration gives exactly the branches that have been appended, in order and as they
were given; each `next_branch` gives the one at which the iterator stands; and the
next append is right if and only if it is safe: if the set is full, if the URI
that is given is too long, or if the URI that is taken and the destination URI
both fit. -/
theorem append_branch_right_iff (s : Statics) (ops : List Op) (hsafe : SafeRun [] ops) :
    (run s.clearBranches ops).iteration = ops.foldl appended [] ∧
      (run s.clearBranches ops).nextBranch.1 =
        (ops.foldl appended [])[(run s.clearBranches ops).branchIterator]? ∧
      ∀ msg uri dst q, AppendRight (run s.clearBranches ops) msg uri dst q ↔
        Safe (ops.foldl appended []).length msg uri dst q := by
  have hholds := (holds_clear s).run hsafe
  refine ⟨hholds.iteration, hholds.nextBranch.1, ?_⟩
  intro msg uri dst q
  rw [← hholds.count]
  exact hholds.appendRight_iff msg uri dst q

/-- The variables when a process starts. -/
def Statics.start : Statics := ⟨fun _ => 0, 0, 0, qUnspecified, -1⟩

/-- `append_branch()` in a script. -/
def ownBranch : Op := .append ⟨none, ascii "sip:a@b"⟩ none none qUnspecified

theorem ownBranch_right :
    (run Statics.start.clearBranches [ownBranch]).iteration =
        [⟨ascii "sip:a@b", [], qUnspecified⟩] ∧
      AppendRight (run Statics.start.clearBranches [ownBranch]) ⟨none, ascii "sip:a@b"⟩
        (some (ascii "sip:c@d")) none 500 := by
  have hsafe : SafeRun [] [ownBranch] := by
    refine ⟨?_, trivial⟩
    rintro msg uri dst q ⟨⟩
    exact .inr (.inr (by decide))
  obtain ⟨hiteration, -, happend⟩ := append_branch_right_iff Statics.start [ownBranch] hsafe
  refine ⟨hiteration.trans (by decide), ?_⟩
  exact (happend _ _ _ _).mpr (.inr (.inr (by decide)))

/-- A destination URI of 2000 bytes is accepted. -/
theorem appendBranch_long_dst : ¬ ∀ (s : Statics) (ops : List Op) msg uri dst q, SafeRun [] ops →
      AppendRight (run s.clearBranches ops) msg uri dst q := by
  intro h
  obtain ⟨dst, hdst⟩ : ∃ dst : Bytes, dst.length = 2000 :=
    ⟨List.replicate 2000 97, length_replicate⟩
  have hsafe := ((holds_clear Statics.start).appendRight_iff ⟨none, ascii "sip:a@b"⟩
    (some (ascii "sip:c@d")) (some dst) qUnspecified).mp (h Statics.start [] _ _ _ _ trivial)
  rcases hsafe with hsafe | ⟨u, hu, hlong⟩ | hsafe
  · have hempty : (0 : ℕ) = maxBranches - 1 := hsafe
    exact absurd hempty (by decide)
  · rw [Option.some.injEq] at hu
    have hlen : (ascii "sip:c@d").length = 7 := by decide
    rw [← hu, hlen, maxUriSize] at hlong
    omega
  · rw [Branch.fits_iff] at hsafe
    have hlen : dst.length < maxUriSize := hsafe.2
    rw [hdst] at hlen
    exact absurd hlen (by decide)

end Msicp.Dset
