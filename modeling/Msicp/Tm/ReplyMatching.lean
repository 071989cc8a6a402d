import Msicp.Tm.Branch
import Mathlib.Data.List.Nodup

/-!
# Matching a reply to its transaction (`t_reply_matching`)

The branch parameter of a reply is split into the pieces that
`branch_builder` put together, and the slot of the hash table is searched for
the first cell they fit.
-/

namespace Msicp.Tm

open Msicp.Support List Option

/-! ## Splitting the parameter of a reply -/

/-- The bytes at which `eat_token2_end` goes on. -/
def inToken2 (delim c : UInt8) : Bool :=
  c != delim && c != 10 && c != 13

/-- The bytes at which `eat_token_end` goes on. -/
def inToken (c : UInt8) : Bool :=
  c != 32 && c != 9 && c != 10 && c != 13

/-- A piece that ends at a separator, with one more byte behind it. -/
def cutPiece (p : Bytes) : Option (Bytes × Bytes) :=
  let piece := p.takeWhile (inToken2 branchSeparator)
  let n := p.drop piece.length
  if piece = [] ∨ n.length < 2 ∨ n.head? ≠ some branchSeparator then none
  else some (piece, n.tail)

/-- The second piece: `entry_label`, or the MD5 characters. -/
inductive SynKey
  | label (entryLabel : ℕ)
  | md5 (loopi : Bytes)

/-- The parameter split into hash index, synonym and branch, the first half of
`t_reply_matching`. -/
def splitBranch (synBranch : Bool) (value : Bytes) : Option (ℕ × SynKey × ℕ) := do
  if value.length ≤ mcookie.length then none
  if value.take mcookie.length ≠ mcookie then none
  let (hashi, p) ← cutPiece (value.drop mcookie.length)
  let (syni, p) ← cutPiece p
  let branchi := p.takeWhile inToken
  if branchi = [] then none
  let hashIndex ← reverseHex2int hashi
  if tableEntries ≤ hashIndex then none
  let branchId ← reverseHex2int branchi
  if maxBranches ≤ branchId then none
  if synBranch then
    let entryLabel ← reverseHex2int syni
    return (hashIndex, .label entryLabel, branchId)
  else if syni.length ≠ md5Len then none
  else return (hashIndex, .md5 syni, branchId)

/-- What `t_reply_matching` reads of a reply. -/
structure Reply where
  viaBranch : Option Bytes
  cseqMethod : Bytes
  status : ℕ

/-- `CANCEL` -/
def cancelMethod : Bytes := ascii "CANCEL"

/-- The label or the MD5 value of the cell is the one in the parameter. -/
def SynKey.isOf (key : SynKey) (pCell : Cell) : Bool :=
  match key with
  | .label entryLabel => pCell.label == entryLabel
  | .md5 loopi => pCell.md5.chars == loopi

/-- The disqualifying factors of the search, none of which may hold. -/
def Cell.matches (pCell : Cell) (key : SynKey) (branchId : ℕ) (cseqMethod : Bytes) : Bool :=
  key.isOf pCell && branchId < pCell.nrOfOutgoings && (cseqMethod == pCell.method ||
      (cseqMethod == cancelMethod && pCell.isInvite && pCell.localCancelLen branchId != 0))

/-- The outcome of a match: where the cell is, the branch, the cell with the
reference added, and the flag `ws_no_stateless_fwd` if it was set. -/
structure Matched where
  hashIndex : ℕ
  position : ℕ
  branch : ℕ
  cell : Cell
  noStatelessFwd : Bool

/-- The bookkeeping on the cell that was matched: the branch of the first 2xx
to an INVITE is kept, a 2xx of another branch sets the flag. -/
def settleMatch (pCell : Cell) (branchId : ℕ) (pMsg : Reply) : Cell × Bool :=
  let cell := { pCell with refCount := pCell.refCount + 1 }
  if pCell.isInvite ∧ 200 ≤ pMsg.status ∧ pMsg.status < 300 ∧
      pMsg.cseqMethod ≠ cancelMethod then
    if pCell.confirmed then (cell, pCell.dialogBranch != branchId)
    else ({ cell with dialogBranch := branchId, confirmed := true }, false)
  else (cell, false)

/-- `t_reply_matching`; `none` when no transaction is found. -/
def tReplyMatching (synBranch : Bool) (entrys : ℕ → List Cell) (pMsg : Reply) : Option Matched := do
  let value ← pMsg.viaBranch
  let (hashIndex, key, branchId) ← splitBranch synBranch value
  let slot := entrys hashIndex
  let position ← slot.findIdx? (·.matches key branchId pMsg.cseqMethod)
  let pCell ← slot[position]?
  let (cell, noStatelessFwd) := settleMatch pCell branchId pMsg
  return ⟨hashIndex, position, branchId, cell, noStatelessFwd⟩

/-! ## The pieces are found again -/

theorem IsHexDigit.inToken2 {c : UInt8} (h : IsHexDigit c) : inToken2 branchSeparator c = true := by
  have hall : ∀ d ∈ List.range 16, Tm.inToken2 branchSeparator (hexDigit d) = true := by decide
  obtain ⟨d, hd, rfl⟩ := h
  exact hall d (mem_range.mpr hd)

theorem IsHexDigit.inToken {c : UInt8} (h : IsHexDigit c) : inToken c = true := by
  have hall : ∀ d ∈ List.range 16, Tm.inToken (hexDigit d) = true := by decide
  obtain ⟨d, hd, rfl⟩ := h
  exact hall d (mem_range.mpr hd)

theorem cutPiece_piece {piece p : Bytes} (hne : piece ≠ [])
    (hhex : ∀ c ∈ piece, IsHexDigit c) (hp : p ≠ []) :
    cutPiece (piece ++ branchSeparator :: p) = some (piece, p) := by
  have htake : (piece ++ branchSeparator :: p).takeWhile (inToken2 branchSeparator) = piece :=
    takeWhile_token (fun x hx => (hhex x hx).inToken2) (by decide)
  have hlen : 0 < p.length := length_pos_iff.mpr hp
  have hguard : ¬ (piece = [] ∨ (branchSeparator :: p).length < 2 ∨
      (branchSeparator :: p).head? ≠ some branchSeparator) := by
    rintro (hnil | hshort | hhead)
    · exact hne hnil
    · rw [length_cons] at hshort
      omega
    · exact hhead rfl
  rw [cutPiece, htake, drop_left, if_neg hguard]
  rfl

/-- A parameter made of three pieces is split into them. -/
theorem splitBranch_pieces {synBranch : Bool} {hashi syni branchi : Bytes}
    {hashIndex b : ℕ} (hhash : hashIndex < tableEntries)
    (hb : b < maxBranches) (hhashi : IsNumeral hashi hashIndex)
    (hsyni : syni ≠ []) (hsynHex : ∀ c ∈ syni, IsHexDigit c)
    (hbranchi : IsNumeral branchi b) :
    splitBranch synBranch (mcookie ++ (hashi ++ branchSeparator ::
        (syni ++ branchSeparator :: branchi))) =
      if synBranch then
        (reverseHex2int syni).map (fun l => (hashIndex, .label l, b))
      else if syni.length ≠ md5Len then none
      else some (hashIndex, .md5 syni, b) := by
  have hlen : ¬ (mcookie ++ (hashi ++ branchSeparator ::
      (syni ++ branchSeparator :: branchi))).length ≤ mcookie.length := by
    simp only [List.length_append, length_cons]
    omega
  have htoken : branchi.takeWhile inToken = branchi :=
    takeWhile_all fun x hx => (hbranchi.hex x hx).inToken
  have hfirst := cutPiece_piece hhashi.ne_nil hhashi.hex
    (p := syni ++ branchSeparator :: branchi) (by simp [hsyni])
  have hsecond := cutPiece_piece hsyni hsynHex hbranchi.ne_nil
  rw [splitBranch, if_neg hlen, take_left, drop_left, hfirst]
  simp only [ne_eq, not_true_eq_false, if_false, bind_eq_bind,
    bind_some, hsecond, htoken, hbranchi.ne_nil, hhashi.value,
    hbranchi.value, Nat.not_le.mpr hhash, Nat.not_le.mpr hb]
  cases synBranch
  · rfl
  · cases reverseHex2int syni <;> rfl

/-- The synonym that the cell is found by. -/
def Cell.synKey (synBranch : Bool) (cell : Cell) : SynKey :=
  if synBranch then .label cell.label else .md5 cell.md5.chars

variable {hashIndex b n : ℕ} {synBranch : Bool} {cseqMethod : Bytes} {e : Entry} {cell : Cell}

/-- The parameter of a cell fits, and splits into what it was made of; in the
other mode it is not accepted with an MD5 value of another cell. -/
theorem tCalcBranch_split (synBranch : Bool) (cell : Cell)
    (hhash : hashIndex < tableEntries) (hlabel : cell.label < 2 ^ 32)
    (hb : b < maxBranches) :
    ∃ str size, tCalcBranch synBranch hashIndex cell b = some (str, size) ∧
      0 < size ∧ str.length + size = maxBranchParamLen ∧
      splitBranch synBranch str = some (hashIndex, cell.synKey synBranch, b) ∧
      ((splitBranch false str).isSome ↔ synBranch = false) := by
  cases synBranch with
  | true =>
    obtain ⟨hashi, syni, branchi, size, hbuild, hsize, hlen, hhashi, hsyni,
      hsynLen, hbranchi⟩ := branchBuilder_label hhash hlabel hb
    have hsplit := fun syn => @splitBranch_pieces syn _ _ _ _ _ hhash hb
      hhashi hsyni.ne_nil hsyni.hex hbranchi
    have hshort : syni.length ≠ md5Len := by
      have : md5Len = 32 := rfl
      omega
    refine ⟨_, size, hbuild, hsize, ?_, ?_, ?_⟩
    · simp only [List.length_append, length_cons]
      omega
    · rw [hsplit, if_pos rfl, hsyni.value]
      rfl
    · rw [hsplit, if_neg Bool.false_ne_true, if_pos hshort]
      simp
  | false =>
    obtain ⟨hashi, branchi, size, hbuild, hsize, hlen, hhashi, hbranchi⟩ :=
      @branchBuilder_md5 hashIndex 0 b cell.md5 hhash hb
    have hne : cell.md5.chars ≠ [] := by
      intro hnil
      have hmd5 := cell.md5.length_eq
      rw [hnil] at hmd5
      exact absurd hmd5 (by decide)
    have hsplit := @splitBranch_pieces false _ _ _ _ _ hhash hb hhashi hne cell.md5.hex hbranchi
    rw [if_neg Bool.false_ne_true, if_neg (not_not.mpr cell.md5.length_eq)] at hsplit
    refine ⟨_, size, hbuild, hsize, ?_, hsplit, ?_⟩
    · simp only [List.length_append, length_cons]
      omega
    · simp [hsplit]

/-! ## The search -/

/-- Where the cell is that a reply selects, and the branch. -/
def Matched.place (m : Matched) : ℕ × ℕ × ℕ :=
  (m.hashIndex, m.position, m.branch)

/-- A reply whose parameter was split selects the first cell of the slot that
it fits. -/
theorem tReplyMatching_place {entrys : ℕ → List Cell}
    {value : Bytes} {status branchId : ℕ} {key : SynKey}
    (hsplit : splitBranch synBranch value = some (hashIndex, key, branchId)) :
    (tReplyMatching synBranch entrys ⟨some value, cseqMethod, status⟩).map Matched.place =
      ((entrys hashIndex).findIdx? (·.matches key branchId cseqMethod)).map
          fun i => (hashIndex, i, branchId) := by
  cases hfind : (entrys hashIndex).findIdx?
      (·.matches key branchId cseqMethod) with
  | none => simp [tReplyMatching, hsplit, hfind]
  | some i =>
    have hi : i < (entrys hashIndex).length := by
      rw [findIdx?_eq_some_iff_getElem] at hfind
      exact hfind.1
    simp [tReplyMatching, hsplit, hfind, hi, Matched.place]

/-! ## The slot of the table -/

/-- An entry of the hash table: the cells from `first_cell` on, and the label
for the next one. -/
structure Entry where
  cells : List Cell
  nextLabel : ℕ

/-- `insert_into_hash_table_unsafe` -/
def insertIntoHashTable (pEntry : Entry) (pCell : Cell) : Entry where
  cells := pEntry.cells ++ [{ pCell with label := pEntry.nextLabel }]
  nextLabel := (pEntry.nextLabel + 1) % 2 ^ 32

/-- `remove_from_hash_table_unsafe` -/
def removeFromHashTable (pEntry : Entry) (position : ℕ) : Entry :=
  { pEntry with cells := pEntry.cells.eraseIdx position }

/-- The entry after a run in which some number of cells were inserted, others
removed, and the rest worked on. -/
inductive Entry.Run : ℕ → Entry → Prop
  | init {nextLabel : ℕ} (h : nextLabel < 2 ^ 32) : Run 0 ⟨[], nextLabel⟩
  | insert {n : ℕ} {e : Entry} (pCell : Cell) (h : Run n e) :
      Run (n + 1) (insertIntoHashTable e pCell)
  | remove {n : ℕ} {e : Entry} (position : ℕ) (h : Run n e) :
      Run n (removeFromHashTable e position)
  | work {n : ℕ} {e : Entry} (cells : List Cell) (h : Run n e)
      (hlabels : cells.map Cell.label = e.cells.map Cell.label) :
      Run n { e with cells := cells }

/-- The labels in an entry into which `n` cells were inserted: they were
counted up from the first one. -/
structure LabelInv (start n : ℕ) (e : Entry) : Prop where
  next : e.nextLabel = (start + n) % 2 ^ 32
  counted : ∀ l ∈ e.cells.map Cell.label,
    ∃ i < n, l = (start + i) % 2 ^ 32
  nodup : n ≤ 2 ^ 32 → (e.cells.map Cell.label).Nodup

theorem LabelInv.insert {start : ℕ} (h : LabelInv start n e)
    (pCell : Cell) : LabelInv start (n + 1) (insertIntoHashTable e pCell) := by
  have hmap : (insertIntoHashTable e pCell).cells.map Cell.label =
      e.cells.map Cell.label ++ [e.nextLabel] := by
    simp [insertIntoHashTable]
  constructor
  · change (e.nextLabel + 1) % 2 ^ 32 = (start + (n + 1)) % 2 ^ 32
    rw [h.next]
    omega
  · intro l hl
    rw [hmap, mem_append, mem_singleton] at hl
    rcases hl with hl | rfl
    · obtain ⟨i, hi, rfl⟩ := h.counted l hl
      exact ⟨i, by omega, rfl⟩
    · exact ⟨n, by omega, h.next⟩
  · intro hn
    rw [hmap, List.nodup_append]
    refine ⟨h.nodup (by omega), nodup_singleton _, ?_⟩
    intro l hl l' hl' heq
    obtain ⟨i, hi, rfl⟩ := h.counted l hl
    rw [mem_singleton.mp hl', h.next] at heq
    omega

theorem LabelInv.remove {start : ℕ} (h : LabelInv start n e) (position : ℕ) :
    LabelInv start n (removeFromHashTable e position) := by
  have hsub : ((removeFromHashTable e position).cells.map Cell.label).Sublist
      (e.cells.map Cell.label) :=
    (eraseIdx_sublist _ _).map Cell.label
  exact ⟨h.next, fun l hl => h.counted l (hsub.subset hl), fun hn => (h.nodup hn).sublist hsub⟩

theorem Entry.Run.labelInv (h : Entry.Run n e) : ∃ start, LabelInv start n e := by
  induction h with
  | init hlt =>
    exact ⟨_, (Nat.mod_eq_of_lt hlt).symm, by simp, by simp⟩
  | insert pCell _ ih =>
    obtain ⟨start, hinv⟩ := ih
    exact ⟨start, hinv.insert pCell⟩
  | remove position _ ih =>
    obtain ⟨start, hinv⟩ := ih
    exact ⟨start, hinv.remove position⟩
  | work cells _ hlabels ih =>
    obtain ⟨start, hinv⟩ := ih
    exact ⟨start, hinv.next, hlabels ▸ hinv.counted, hlabels ▸ hinv.nodup⟩

/-- The cell is the one a reply with its own parameter is for: it has sent the
request on that branch, or a CANCEL for it. -/
structure Cell.Sent (cell : Cell) (b : ℕ) (cseqMethod : Bytes) : Prop where
  branch : b < cell.nrOfOutgoings
  method : cseqMethod = cell.method ∨ cseqMethod = cancelMethod ∧
    cell.isInvite = true ∧ cell.localCancelLen b ≠ 0

theorem Cell.matches_iff {key : SynKey} : cell.matches key b cseqMethod = true ↔
      key.isOf cell = true ∧ cell.Sent b cseqMethod := by
  constructor
  · intro h
    simp only [Cell.matches, Bool.and_eq_true, Bool.or_eq_true,
      decide_eq_true_eq, beq_iff_eq, bne_iff_ne] at h
    exact ⟨h.1.1, h.1.2, h.2.imp_right fun h => ⟨h.1.1, h.1.2, h.2⟩⟩
  · rintro ⟨hkey, hb, hmethod⟩
    simp only [Cell.matches, Bool.and_eq_true, Bool.or_eq_true,
      decide_eq_true_eq, beq_iff_eq, bne_iff_ne]
    exact ⟨⟨hkey, hb⟩, hmethod.imp_right fun h => ⟨⟨h.1, h.2.1⟩, h.2.2⟩⟩

theorem SynKey.isOf_self (synBranch : Bool) (cell : Cell) :
    (cell.synKey synBranch).isOf cell = true := by
  cases synBranch <;> simp [Cell.synKey, SynKey.isOf]

theorem SynKey.isOf_label {pCell : Cell} :
    (cell.synKey true).isOf pCell = true ↔ pCell.label = cell.label := by
  simp [Cell.synKey, SynKey.isOf]

theorem findIdx?_sender {slot : List Cell}
    {pos : ℕ} (hpos : slot[pos]? = some cell)
    (hsent : cell.Sent b cseqMethod)
    (hfront : ∀ i < pos, ∀ pCell, slot[i]? = some pCell →
      pCell.matches (cell.synKey synBranch) b cseqMethod = false) :
    slot.findIdx? (·.matches (cell.synKey synBranch) b cseqMethod) =
      some pos := by
  obtain ⟨hlt, hget⟩ := List.getElem?_eq_some_iff.mp hpos
  rw [findIdx?_eq_some_iff_getElem]
  refine ⟨hlt, ?_, ?_⟩
  · rw [hget]
    exact Cell.matches_iff.mpr ⟨SynKey.isOf_self synBranch cell, hsent⟩
  · intro i hi
    rw [hfront i hi _ (getElem?_eq_getElem (hi.trans hlt))]
    exact Bool.false_ne_true

/-- With labels the sender is the only cell that its parameter fits, as long
as the labels have not come round. -/
theorem label_front {pos : ℕ} (hrun : Entry.Run n e) (hn : n ≤ 2 ^ 32)
    (hpos : e.cells[pos]? = some cell) :
    ∀ i < pos, ∀ pCell, e.cells[i]? = some pCell →
      pCell.matches (cell.synKey true) b cseqMethod = false := by
  intro i hi pCell hget
  obtain ⟨start, hinv⟩ := hrun.labelInv
  have hne : pCell.label ≠ cell.label := by
    intro heq
    have hlt : i < (e.cells.map Cell.label).length := by
      rw [length_map]
      exact (List.getElem?_eq_some_iff.mp hget).1
    have hsame : (e.cells.map Cell.label)[i]? = (e.cells.map Cell.label)[pos]? := by
      rw [getElem?_map, getElem?_map, hget, hpos]
      exact congrArg some heq
    have hindex := (getElem?_inj hlt (hinv.nodup hn)).mp hsame
    omega
  rw [Bool.eq_false_iff]
  intro hmatch
  exact hne (SynKey.isOf_label.mp (Cell.matches_iff.mp hmatch).1)

/-- Two parameters are equal only if they were made of the same slot, the same
label or MD5 value and the same branch. -/
theorem tCalcBranch_inj {synBranch' : Bool} {cell' : Cell}
    {hashIndex' b' size size' : ℕ} {str : Bytes}
    (hhash : hashIndex < tableEntries) (hlabel : cell.label < 2 ^ 32)
    (hb : b < maxBranches) (hhash' : hashIndex' < tableEntries)
    (hlabel' : cell'.label < 2 ^ 32) (hb' : b' < maxBranches)
    (h : tCalcBranch synBranch hashIndex cell b = some (str, size))
    (h' : tCalcBranch synBranch' hashIndex' cell' b' = some (str, size')) :
    (hashIndex', cell'.synKey synBranch', b') = (hashIndex, cell.synKey synBranch, b) := by
  obtain ⟨str₁, _, hstr, _, _, hsplit, hmode⟩ :=
    tCalcBranch_split synBranch cell hhash hlabel hb
  obtain ⟨str₂, _, hstr', _, _, hsplit', hmode'⟩ :=
    tCalcBranch_split synBranch' cell' hhash' hlabel' hb'
  obtain ⟨rfl, -⟩ := Prod.mk.inj (some.inj (hstr.symm.trans h))
  obtain ⟨rfl, -⟩ := Prod.mk.inj (some.inj (hstr'.symm.trans h'))
  have hsame : synBranch' = synBranch := by
    cases synBranch <;> cases synBranch' <;> simp_all
  subst hsame
  exact some.inj (hsplit'.symm.trans hsplit)

/-- The parameter of a branch is split back into the slot, the label or MD5
value and the branch; a reply with it selects the first cell of the slot that
has this label or MD5 value, this branch and the method of the reply, so the
sender unless such a cell is in front of it; with labels there is none.
Different triples give different parameters. -/
theorem replyMatching_inverts_branchBuilder (synBranch : Bool)
    (hashIndex : ℕ) (cell : Cell) (b : ℕ) (hhash : hashIndex < tableEntries)
    (hlabel : cell.label < 2 ^ 32) (hb : b < maxBranches) :
    ∃ str size, tCalcBranch synBranch hashIndex cell b = some (str, size) ∧
      0 < size ∧ str.length + size = maxBranchParamLen ∧
      splitBranch synBranch str = some (hashIndex, cell.synKey synBranch, b) ∧
      (∀ (entrys : ℕ → List Cell) (cseqMethod : Bytes) (status : ℕ),
        (tReplyMatching synBranch entrys ⟨some str, cseqMethod, status⟩).map Matched.place =
          ((entrys hashIndex).findIdx? (·.matches (cell.synKey synBranch) b cseqMethod)).map
              fun i => (hashIndex, i, b)) ∧
      (∀ (entrys : ℕ → List Cell) (cseqMethod : Bytes) (status pos : ℕ),
        (entrys hashIndex)[pos]? = some cell → cell.Sent b cseqMethod →
        (∀ i < pos, ∀ pCell, (entrys hashIndex)[i]? = some pCell →
          pCell.matches (cell.synKey synBranch) b cseqMethod = false) →
        (tReplyMatching synBranch entrys ⟨some str, cseqMethod, status⟩).map Matched.place =
          some (hashIndex, pos, b)) ∧
      (synBranch = true → ∀ (n : ℕ) (e : Entry), Entry.Run n e → n ≤ 2 ^ 32 →
        ∀ (entrys : ℕ → List Cell) (cseqMethod : Bytes) (status pos : ℕ),
        entrys hashIndex = e.cells → e.cells[pos]? = some cell →
        cell.Sent b cseqMethod →
        (tReplyMatching synBranch entrys ⟨some str, cseqMethod, status⟩).map Matched.place =
          some (hashIndex, pos, b)) ∧
      (∀ (synBranch' : Bool) (hashIndex' : ℕ) (cell' : Cell) (b' size' : ℕ),
        hashIndex' < tableEntries → cell'.label < 2 ^ 32 →
        b' < maxBranches →
        tCalcBranch synBranch' hashIndex' cell' b' = some (str, size') →
        (hashIndex', cell'.synKey synBranch', b') = (hashIndex, cell.synKey synBranch, b)) := by
  obtain ⟨str, size, hstr, hsize, hlen, hsplit, -⟩ :=
    tCalcBranch_split synBranch cell hhash hlabel hb
  have hsender : ∀ (entrys : ℕ → List Cell) (cseqMethod : Bytes)
      (status pos : ℕ), (entrys hashIndex)[pos]? = some cell →
      cell.Sent b cseqMethod →
      (∀ i < pos, ∀ pCell, (entrys hashIndex)[i]? = some pCell →
        pCell.matches (cell.synKey synBranch) b cseqMethod = false) →
      (tReplyMatching synBranch entrys ⟨some str, cseqMethod, status⟩).map Matched.place =
        some (hashIndex, pos, b) := by
    intro entrys cseqMethod status pos hpos hsent hfront
    rw [tReplyMatching_place hsplit, findIdx?_sender hpos hsent hfront]
    rfl
  refine ⟨str, size, hstr, hsize, hlen, hsplit, ?_, hsender, ?_, ?_⟩
  · intro entrys cseqMethod status
    exact tReplyMatching_place hsplit
  · rintro rfl n e hrun hn entrys cseqMethod status pos hslot hpos hsent
    refine hsender entrys cseqMethod status pos (hslot ▸ hpos) hsent ?_
    rw [hslot]
    exact label_front hrun hn hpos
  · intro synBranch' hashIndex' cell' b' size' hhash' hlabel' hb' h'
    exact tCalcBranch_inj hhash hlabel hb hhash' hlabel' hb' hstr h'

/-- A locally generated OPTIONS with one branch. -/
def optionsCell (myrand label : ℕ) : Cell where
  label := label
  md5 := Md5.ofRand myrand
  method := ascii "OPTIONS"
  isInvite := false
  nrOfOutgoings := 1
  localCancelLen := fun _ => 0
  confirmed := false
  dialogBranch := 0
  refCount := 0

theorem replyMatching_inverts_branchBuilder_options :
    7 < tableEntries ∧ (optionsCell 5 3).label < 2 ^ 32 ∧ 0 < maxBranches ∧ ∃ str size,
        tCalcBranch true 7 (optionsCell 5 3) 0 = some (str, size) ∧
        splitBranch true str = some (7, .label 3, 0) := by
  obtain ⟨str, size, hstr, -, -, hsplit, -⟩ :=
    replyMatching_inverts_branchBuilder true 7 (optionsCell 5 3) 0
      (by decide) (by decide) (by decide)
  exact ⟨by decide, by decide, by decide, str, size, hstr, hsplit⟩

/-- Two locally generated requests with one random number in one slot: the
reply to the second selects the first. -/
theorem equalMd5_selects_first : Entry.Run 2 ⟨[optionsCell 5 3, optionsCell 5 4], 5⟩ ∧
    (optionsCell 5 4).Sent 0 (ascii "OPTIONS") ∧
    ∃ str size, tCalcBranch false 7 (optionsCell 5 4) 0 = some (str, size) ∧
      (tReplyMatching false (fun _ => [optionsCell 5 3, optionsCell 5 4])
          ⟨some str, ascii "OPTIONS", 200⟩).map Matched.place =
        some (7, 0, 0) := by
  refine ⟨?_, ⟨by decide, Or.inl rfl⟩, _, _, rfl, by decide⟩
  have hinit : Entry.Run 0 ⟨[], 3⟩ := Entry.Run.init (by decide)
  exact (hinit.insert (optionsCell 5 0)).insert (optionsCell 5 0)

end Msicp.Tm
