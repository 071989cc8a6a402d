import Msicp.Rr.RouteSet

/-!
# Loose routing (`loose.c`)

The functions work on a message without lumps, whose Request-URI and
destination have not been set.  Memory is not exhausted.
-/

namespace Msicp.Rr

open Msicp.Support
open Msicp.Lumps (Lump LumpOp)

/-- How much of the message the pieces take. -/
def size (ps : List Piece) : ℕ := (ps.flatMap Piece.text).length

/-! ## Walking along the routes -/

/-- A URI with the comma behind it. -/
def passedPieces (x : Route × Text) : List Piece := [.route x.1, .comma x.2]

/-- `rt`, a URI of a Route header field, with those in front of it and those
that follow. -/
structure Place (hdr : RouteHf) where
  passed : List (Route × Text)
  rt : Route
  rest : List (Text × Route)
  whole : hdr.uriPieces =
    passed.flatMap passedPieces ++ .route rt :: rest.flatMap nextPieces

/-- `hdr` and `rt`, with the header fields around `hdr`. -/
structure Cursor where
  before : List Field
  hdr : RouteHf
  place : Place hdr
  after : List Field

/-- `hdr->parsed` -/
def Place.parsed (hdr : RouteHf) : Place hdr where
  passed := []
  rt := hdr.first
  rest := hdr.rest
  whole := rfl

/-- The loop to the last URI of a header field. -/
def Place.last (hdr : RouteHf) : (rest : List (Text × Route)) →
    (passed : List (Route × Text)) → (rt : Route) →
    hdr.uriPieces = passed.flatMap passedPieces ++ .route rt :: rest.flatMap nextPieces →
    Place hdr
  | [], passed, rt, whole => ⟨passed, rt, [], whole⟩
  | (comma, next) :: rest, passed, rt, whole =>
    Place.last hdr rest (passed ++ [(rt, comma)]) next
      (by simpa [passedPieces, nextPieces] using whole)

/-- The first Route header field, from some header field on. -/
def findRoute : List Field → List Field → Option Cursor
  | _, [] => none
  | before, .route hdr :: after =>
    some { before, hdr, place := Place.parsed hdr, after }
  | before, .other text :: after => findRoute (before ++ [.other text]) after

/-- The last Route header field and its last URI, from some header field on. -/
def lastRoute : List Field → List Field → Option Cursor
  | _, [] => none
  | before, .route hdr :: after =>
    match lastRoute (before ++ [.route hdr]) after with
    | some c => some c
    | none =>
      let first := Place.parsed hdr
      some
        { before, hdr, after
          place := Place.last hdr first.rest first.passed first.rt first.whole }
  | before, .other text :: after => lastRoute (before ++ [.other text]) after

def findFirstRoute (m : Request) : Option Cursor := findRoute [] m.fields

def findNextRoute (c : Cursor) : Option Cursor :=
  findRoute (c.before ++ [.route c.hdr]) c.after

def findRemTarget (m : Request) : Option Cursor := lastRoute [] m.fields

namespace Cursor

variable (m : Request) (c : Cursor)

/-- `hdr->name.s` -/
def hdrName : ℕ := size (.other m.front :: fieldPieces c.before)

/-- `hdr->len` -/
def hdrLen : ℕ := size c.hdr.pieces

/-- `hdr->body.s` -/
def hdrBody : ℕ := c.hdrName m + c.hdr.name.1.length

/-- `rt->nameaddr.name.s` -/
def rtName : ℕ := c.hdrBody m + size (c.place.passed.flatMap passedPieces)

end Cursor

/-! ## Lumps -/

/-- The search for the place of an offset goes on behind the lump. -/
def goesOn (offset : ℕ) (t : Lump) : Bool :=
  match t.op with
  | .del o _ | .nop o => !(offset < o)
  | .add _ => true

/-- A lump goes in front of the first one with a greater offset. -/
def insertSorted (offset : ℕ) (lump : Lump) (lumps : List Lump) : List Lump :=
  lumps.takeWhile (goesOn offset) ++ lump :: lumps.dropWhile (goesOn offset)

def delLump (offset len : ℕ) (lumps : List Lump) : List Lump :=
  insertSorted offset { op := .del offset len, before := [], after := [] }
    lumps

/-- `anchor_lump` and `insert_new_lump_before` -/
def anchorBefore (offset : ℕ) (value : Bytes) (lumps : List Lump) :
    List Lump :=
  insertSorted offset
    { op := .nop offset, before := [.value value], after := [] } lumps

def rrDriven : ℤ := 1

def notRrDriven : ℤ := -1

/-- What `loose_route` returns and leaves: the lumps, `new_uri` and
`dst_uri`. -/
structure Out where
  ret : ℤ
  lumps : List Lump
  newUri : Option Bytes
  dstUri : Option Bytes

section

variable (cfg : Config) (m : Request)

/-- A URI of the process itself is left; with the last of a header field the
header field goes. -/
def leaveRoute (c : Cursor) (lumps : List Lump) : List Lump × Option Cursor :=
  match h : c.place.rest with
  | [] => (delLump (c.hdrName m) c.hdrLen lumps, findNextRoute c)
  | (comma, next) :: rest =>
    (lumps, some
      { c with
        place :=
          { passed := c.place.passed ++ [(c.place.rt, comma)]
            rt := next
            rest := rest
            whole := by
              rw [c.place.whole, h]
              simp [passedPieces, nextPieces] } })

/-- The URI that has become the Request-URI is removed. -/
def removeTop (c : Cursor) (lumps : List Lump) : List Lump :=
  match c.place.rest with
  | (comma, _) :: _ =>
    let nextName := c.rtName m + c.place.rt.text.1.length + comma.1.length
    delLump (c.hdrBody m) (nextName - c.hdrBody m) lumps
  | [] => delLump (c.hdrName m) c.hdrLen lumps

/-- The URIs of the process in front of `rt` are removed. -/
def removePassed (c : Cursor) (lumps : List Lump) : List Lump :=
  match c.place.passed with
  | [] => lumps
  | _ :: _ => delLump (c.hdrBody m) (c.rtName m - c.hdrBody m) lumps

/-- The last URI is removed with the comma in front of it, or with the whole
header field. -/
def removeLast (c : Cursor) (lumps : List Lump) : List Lump :=
  match c.place.passed.getLast? with
  | some (_, comma) =>
    let remOff := c.rtName m - comma.1.length
    delLump remOff (c.rtName m + c.place.rt.text.1.length - remOff) lumps
  | none => delLump (c.hdrName m) c.hdrLen lumps

def saveRuri (lumps : List Lump) : List Lump :=
  anchorBefore (size (.other m.front :: fieldPieces m.fields)) (savedHf m.uri) lumps

def handleSr (c : Cursor) (lumps : List Lump) : Out where
  ret := rrDriven
  lumps := removeTop m c (saveRuri m lumps)
  newUri := some c.place.rt.uri
  dstUri := none

/-- The end of `after_strict`. -/
def strictNext (c : Cursor) (lumps : List Lump) : Option Out :=
  if cfg.strict c.place.rt.uri then
    some
      { ret := rrDriven
        lumps := removeTop m c lumps
        newUri := some c.place.rt.uri
        dstUri := none }
  else
    let lumps := removePassed m c lumps
    match findRemTarget m with
    | none => none
    | some l =>
      some
        { ret := rrDriven
          lumps := removeLast m l lumps
          newUri := some l.place.rt.uri
          dstUri := some c.place.rt.uri }

/-- `after_strict`; the second test of `parse_uri` is for `-1`, which is none of
its errors. -/
def afterStrict (c : Cursor) : Option Out :=
  if badUri c.place.rt.uri then none
  else
    let (lumps, next) :=
      if cfg.own c.place.rt.uri then leaveRoute m c [] else ([], some c)
    match next with
    | none =>
      some { ret := notRrDriven, lumps, newUri := none, dstUri := none }
    | some c => strictNext cfg m c lumps

/-- The end of `after_loose`. -/
def looseNext (c : Cursor) (lumps : List Lump) : Out :=
  if cfg.strict c.place.rt.uri then handleSr m c lumps
  else
    { ret := rrDriven
      lumps := removePassed m c lumps
      newUri := none
      dstUri := some c.place.rt.uri }

def afterLoose (preloaded : Bool) (c : Cursor) : Option Out :=
  if badUri c.place.rt.uri then none
  else if cfg.own c.place.rt.uri then
    let (lumps, next) := leaveRoute m c []
    let (lumps, next) :=
      match next with
      | none => (lumps, none)
      | some c' =>
        if cfg.double c.place.rt.uri then leaveRoute m c' lumps
        else (lumps, some c')
    match next with
    | none =>
      some
        { ret := if preloaded then notRrDriven else rrDriven
          lumps, newUri := none, dstUri := none }
    | some c =>
      if badUri c.place.rt.uri then none else some (looseNext cfg m c lumps)
  else some (looseNext cfg m c [])

/-- `loose_route`; none is an error. -/
def looseRoute : Option Out :=
  match findFirstRoute m with
  | none =>
    some { ret := notRrDriven, lumps := [], newUri := none, dstUri := none }
  | some c =>
    if badUri m.uri then none
    else
      match m.tag with
      | none => none
      | some false => afterLoose cfg m true c
      | some true =>
        if cfg.own m.uri then afterStrict cfg m c
        else afterLoose cfg m false c

end

end Msicp.Rr

/-!
## Requests cut into blocks

The lumps of a request, as `del_lump` and `anchor_lump` leave them, are those
of blocks of its pieces.  Each call changes one block.
-/

namespace Msicp.Rr

open Msicp.Support
open Msicp.Lumps

variable {bs bs' : List (Block Piece)} {ps x : List Piece} {o : ℕ}

@[simp] theorem size_nil : size [] = 0 := rfl

@[simp] theorem size_cons (p : Piece) : size (p :: ps) = p.text.length + size ps := by
  simp [size]

@[simp] theorem size_append (ps qs : List Piece) : size (ps ++ qs) = size ps + size qs := by
  simp [size]

/-- The lumps for blocks from the offset `o` on. -/
def lumpsFrom (o : ℕ) (bs : List (Block Piece)) : List Lump :=
  blockLumps o (bs.map (Block.flatten Piece.text))

/-- The lumps for a message cut into blocks. -/
def lumpsOf (bs : List (Block Piece)) : List Lump := lumpsFrom 0 bs

/-- Pieces that stay, each a block of its own. -/
def keeps (ps : List Piece) : List (Block Piece) := ps.map fun p => .keep [p]

theorem blockSource_flatten (bs : List (Block Piece)) :
    blockSource (bs.map (Block.flatten Piece.text)) = (blockSource bs).flatMap Piece.text := by
  simp [blockSource, List.flatMap_map, List.flatMap_assoc]

theorem blockTarget_flatten (bs : List (Block Piece)) :
    blockTarget (bs.map (Block.flatten Piece.text)) = (blockTarget bs).flatMap Piece.text := by
  simp [blockTarget, List.flatMap_map, List.flatMap_assoc]

@[simp] theorem blockSource_append :
    blockSource (bs ++ bs') = blockSource bs ++ blockSource bs' := by
  simp [blockSource]

@[simp] theorem blockTarget_append :
    blockTarget (bs ++ bs') = blockTarget bs ++ blockTarget bs' := by
  simp [blockTarget]

@[simp] theorem blockSource_keeps (ps : List Piece) : blockSource (keeps ps) = ps := by
  simp [blockSource, keeps, Block.source, List.flatMap_map]

@[simp] theorem blockTarget_keeps (ps : List Piece) : blockTarget (keeps ps) = ps := by
  simp [blockTarget, keeps, Block.target, List.flatMap_map]

@[simp] theorem blockSource_cut : blockSource (.cut x :: bs) = x ++ blockSource bs := by
  simp [blockSource, Block.source]

@[simp] theorem blockTarget_cut : blockTarget (.cut x :: bs) = blockTarget bs := by
  simp [blockTarget, Block.target]

@[simp] theorem blockSource_add : blockSource (.add x :: bs) = blockSource bs := by
  simp [blockSource, Block.source]

@[simp] theorem blockTarget_add : blockTarget (.add x :: bs) = x ++ blockTarget bs := by
  simp [blockTarget, Block.target]

@[simp] theorem keeps_append (ps qs : List Piece) : keeps (ps ++ qs) = keeps ps ++ keeps qs := by
  simp [keeps]

theorem lumpsFrom_append : lumpsFrom o (bs ++ bs') =
      lumpsFrom o bs ++ lumpsFrom (o + size (blockSource bs)) bs' := by
  rw [lumpsFrom, List.map_append, blockLumps_append, blockSource_flatten]
  rfl

theorem lumpsOf_append : lumpsOf (bs ++ bs') =
    lumpsOf bs ++ lumpsFrom (size (blockSource bs)) bs' := by
  rw [lumpsOf, lumpsFrom_append, Nat.zero_add]
  rfl

theorem lumpsFrom_keeps (ps : List Piece) : lumpsFrom o (keeps ps) = [] := by
  induction ps generalizing o with
  | nil => rfl
  | cons p ps ih => exact ih

theorem lumpsFrom_region {t : Lump} (h : t ∈ lumpsFrom o bs) :
    ∃ r, t.op.region = some r ∧ o ≤ r.1 ∧ r.1 ≤ r.2 ∧ r.2 ≤ o + size (blockSource bs) := by
  have hregion := blockLumps_region h
  rwa [blockSource_flatten] at hregion

/-! ## One call -/

theorem goesOn_eq {t : Lump} {r : ℕ × ℕ} (h : t.op.region = some r) :
    goesOn o t = !decide (o < r.1) := by
  cases hop : t.op with
  | del offset len =>
    rw [hop] at h
    simp only [LumpOp.region, Option.some.injEq] at h
    simp [goesOn, hop, ← h]
  | nop offset =>
    rw [hop] at h
    simp only [LumpOp.region, Option.some.injEq] at h
    simp [goesOn, hop, ← h]
  | add what =>
    rw [hop] at h
    simp [LumpOp.region] at h

theorem insertSorted_middle {lump : Lump} {ls ls' : List Lump}
    (hfront : ∀ t ∈ ls, goesOn o t = true)
    (hback : ∀ t ∈ ls', goesOn o t = false) :
    insertSorted o lump (ls ++ ls') = ls ++ lump :: ls' := by
  have hstop : ls'.takeWhile (goesOn o) = [] ∧ ls'.dropWhile (goesOn o) = ls' := by
    cases ls' with
    | nil => exact ⟨rfl, rfl⟩
    | cons t ts =>
      have ht : goesOn o t = false := hback t List.mem_cons_self
      simp [ht]
  rw [insertSorted, List.takeWhile_append_of_pos hfront,
    List.dropWhile_append_of_pos hfront, hstop.1, hstop.2, List.append_nil]

theorem goesOn_front {t : Lump} (h : t ∈ lumpsOf bs) : goesOn (size (blockSource bs)) t = true := by
  obtain ⟨r, hr, -, hle, hhigh⟩ := lumpsFrom_region h
  rw [goesOn_eq hr]
  simp only [Bool.not_eq_true', decide_eq_false_iff_not]
  omega

theorem delLump_keeps (hx : 0 < size x) :
    delLump (size (blockSource bs)) (size x) (lumpsOf (bs ++ keeps x ++ bs')) =
      lumpsOf (bs ++ .cut x :: bs') := by
  have hsplit : lumpsOf (bs ++ keeps x ++ bs') =
      lumpsOf bs ++ lumpsFrom (size (blockSource bs) + size x) bs' := by
    rw [List.append_assoc, lumpsOf_append, lumpsFrom_append, lumpsFrom_keeps,
      blockSource_keeps, List.nil_append]
  have hback : ∀ t ∈ lumpsFrom (size (blockSource bs) + size x) bs',
      goesOn (size (blockSource bs)) t = false := by
    intro t ht
    obtain ⟨r, hr, hlow, -, -⟩ := lumpsFrom_region ht
    rw [goesOn_eq hr]
    simp only [Bool.not_eq_false', decide_eq_true_eq]
    omega
  rw [hsplit, delLump, insertSorted_middle (fun t ht => goesOn_front ht) hback, lumpsOf_append]
  rfl

theorem anchorBefore_keeps (v : Bytes) :
    anchorBefore (size (blockSource bs)) v (lumpsOf (bs ++ keeps x)) =
      lumpsOf (bs ++ .add [.added v] :: keeps x) := by
  have hsplit : lumpsOf (bs ++ keeps x) = lumpsOf bs ++ [] := by
    rw [lumpsOf_append, lumpsFrom_keeps]
  have hadd : lumpsFrom (size (blockSource bs)) (.add [.added v] :: keeps x) =
      [{ op := .nop (size (blockSource bs)), before := [.value v],
         after := [] }] := by
    have hnone := @lumpsFrom_keeps (size (blockSource bs)) x
    simpa [lumpsFrom, blockLumps, Block.flatten, Block.lumps, Block.source, Piece.text] using hnone
  rw [hsplit, anchorBefore, insertSorted_middle (fun t ht => goesOn_front ht)
    (fun t ht => absurd ht List.not_mem_nil), lumpsOf_append, hadd]

/-! ## The message that is sent -/

theorem buildBuf_lumpsOf {msg : SipMsg} {sendSock : Option SocketInfo}
    (hbuf : msg.buf = (blockSource bs).flatMap Piece.text) (rands : Rands) :
    (buildBuf msg sendSock none (lumpsOf bs) [] rands).1 = (blockTarget bs).flatMap Piece.text := by
  rw [← blockSource_flatten] at hbuf
  rw [lumpsOf, lumpsFrom, buildBuf_blocks hbuf, blockTarget_flatten]

/-! ## The pieces that are left -/

variable {ls ls' : List Lump} {q : ℕ}

@[simp] theorem deletedAt_append :
    deletedAt (ls ++ ls') q = (deletedAt ls q || deletedAt ls' q) := by
  simp [deletedAt]

@[simp] theorem addedAt_append : addedAt (ls ++ ls') q = addedAt ls q ++ addedAt ls' q := by
  simp [addedAt]

theorem deletedAt_front (h : q < o) : deletedAt (lumpsFrom o bs) q = false := by
  by_contra hne
  rw [Bool.not_eq_false, deletedAt_iff] at hne
  obtain ⟨r, hr, hlow, -⟩ := hne
  obtain ⟨t, ht, hregion⟩ := List.mem_filterMap.mp hr
  obtain ⟨r', hr', hlow', -, -⟩ := lumpsFrom_region ht
  rw [hregion, Option.some.injEq] at hr'
  subst hr'
  omega

theorem addedAt_front (h : q < o) : addedAt (lumpsFrom o bs) q = [] := by
  rw [addedAt, List.flatMap_eq_nil_iff]
  intro t ht
  obtain ⟨r, hr, hlow, -, -⟩ := lumpsFrom_region ht
  cases hop : t.op with
  | nop offset =>
    rw [hop] at hr
    simp only [LumpOp.region, Option.some.injEq] at hr
    have hne : offset ≠ q := by
      rw [← hr] at hlow
      exact fun he => by omega
    simp [hne]
  | del offset len => rfl
  | add what => rfl

/-- One block is read: all of it goes or all of it stays. -/
theorem readFrom_block {d : Bool} (ps : List Piece) (hx : x ≠ []) (htext : ∀ p ∈ x, p.text ≠ [])
    (hdel : ∀ q, o ≤ q → q < o + size x → deletedAt ls q = d)
    (hadd : ∀ q, o < q → q < o + size x → addedAt ls q = []) :
    readFrom ls o (x ++ ps) = addedAt ls o ++ (if d then [] else x) ++
        readFrom ls (o + size x) ps := by
  induction x generalizing o with
  | nil => exact absurd rfl hx
  | cons p x ih =>
    have hp : 0 < p.text.length :=
      List.length_pos_iff.mpr (htext p List.mem_cons_self)
    have hlen : o + size (p :: x) = o + p.text.length + size x := by
      rw [size_cons, Nat.add_assoc]
    have hfirst : deletedAt ls o = d :=
      hdel o (le_refl _) (by omega)
    rw [List.cons_append, readFrom, hfirst, hlen]
    cases x with
    | nil => cases d <;> simp
    | cons p' x =>
      have hp' : 0 < p'.text.length :=
        List.length_pos_iff.mpr (htext p' (by simp))
      have hnone : addedAt ls (o + p.text.length) = [] :=
        hadd _ (by omega) (by simp only [size_cons]; omega)
      have hrest := @ih (o + p.text.length) (by simp)
        (fun p'' hp'' => htext p'' (List.mem_cons_of_mem p hp''))
        (fun q hlow hhigh => hdel q (by omega) (by omega))
        (fun q hlow hhigh => hadd q (by omega) (by omega))
      rw [hrest, hnone]
      cases d <;> simp

theorem size_pos (hx : x ≠ []) (htext : ∀ p ∈ x, p.text ≠ []) : 0 < size x := by
  cases x with
  | nil => exact absurd rfl hx
  | cons p x =>
    have hp : 0 < p.text.length :=
      List.length_pos_iff.mpr (htext p List.mem_cons_self)
    rw [size_cons]
    omega

/-- The lump that `del_lump` makes. -/
def cutLump (offset len : ℕ) : Lump :=
  { op := .del offset len, before := [], after := [] }

/-- The lumps that `save_ruri` makes. -/
def addLump (offset : ℕ) (value : Bytes) : Lump :=
  { op := .nop offset, before := [.value value], after := [] }

theorem deletedAt_cutLump (offset len : ℕ) : deletedAt [cutLump offset len] q =
      (decide (offset ≤ q) && decide (q < offset + len)) := by
  simp [deletedAt, cutLump]

/-- All that is read from an offset on, with lumps in front of it. -/
theorem readFrom_lumpsFrom (htext : ∀ p ∈ blockSource bs, p.text ≠ [])
    (hadds : ∀ y, .add y ∈ bs → ∃ v, y = [.added v])
    (hdel : ∀ q, o ≤ q → deletedAt ls q = false)
    (hadd : ∀ q, o < q → addedAt ls q = []) :
    readFrom (ls ++ lumpsFrom o bs) o (blockSource bs) = addedAt ls o ++ blockTarget bs := by
  induction bs generalizing ls o with
  | nil =>
    have hnone : lumpsFrom o [] = [] := rfl
    simp [hnone, readFrom, blockSource, blockTarget]
  | cons b bs ih =>
    have hsource : blockSource (b :: bs) = b.source ++ blockSource bs := by
      simp [blockSource]
    have htarget : blockTarget (b :: bs) = b.target ++ blockTarget bs := by
      simp [blockTarget]
    have htext' : ∀ p ∈ blockSource bs, p.text ≠ [] := fun p hp =>
      htext p (by rw [hsource]; exact List.mem_append_right _ hp)
    have hadds' : ∀ y, .add y ∈ bs → ∃ v, y = [.added v] := fun y hy =>
      hadds y (List.mem_cons_of_mem b hy)
    have hblock : ∀ p ∈ b.source, p.text ≠ [] := fun p hp =>
      htext p (by rw [hsource]; exact List.mem_append_left _ hp)
    rw [hsource, htarget]
    cases b with
    | keep x =>
      have hlumps : lumpsFrom o (.keep x :: bs) = lumpsFrom (o + size x) bs := rfl
      have hrest := @ih (o + size x) ls htext' hadds'
        (fun q hq => hdel q (by omega)) (fun q hq => hadd q (by omega))
      rw [hlumps]
      by_cases hx : x = []
      · subst hx
        exact hrest
      · have hpos := size_pos hx hblock
        have hread := @readFrom_block x o
          (ls ++ lumpsFrom (o + size x) bs) false (blockSource bs) hx
          hblock
          (fun q hlow hhigh => by simp [hdel q hlow, deletedAt_front hhigh])
          (fun q hlow hhigh => by simp [hadd q hlow, addedAt_front hhigh])
        have hfirst : addedAt (lumpsFrom (o + size x) bs) o = [] :=
          addedAt_front (by omega)
        rw [hadd (o + size x) (by omega), List.nil_append] at hrest
        rw [Block.source, hread, hrest, addedAt_append, hfirst]
        simp [Block.target]
    | cut x =>
      have hlumps : ls ++ lumpsFrom o (.cut x :: bs) =
          ls ++ [cutLump o (size x)] ++ lumpsFrom (o + size x) bs := by
        simp [lumpsFrom, blockLumps, Block.flatten, Block.lumps, Block.source, cutLump, size]
      have hcut : ∀ q, o + size x ≤ q →
          deletedAt (ls ++ [cutLump o (size x)]) q = false := fun q hq => by
        simp [hdel q (by omega), deletedAt_cutLump, hq]
      have hnone : ∀ q, addedAt [cutLump o (size x)] q = [] := fun q => rfl
      have hrest := ih htext' hadds' hcut
        (fun q hq => by rw [addedAt_append, hnone, hadd q (by omega)]; rfl)
      rw [hlumps]
      by_cases hx : x = []
      · subst hx
        rw [addedAt_append, hnone, List.append_nil] at hrest
        exact hrest
      · have hpos := size_pos hx hblock
        have hread := @readFrom_block x o
          (ls ++ [cutLump o (size x)] ++ lumpsFrom (o + size x) bs) true
          (blockSource bs) hx hblock
          (fun q hlow hhigh => by
            rw [deletedAt_append, deletedAt_append, deletedAt_cutLump]
            simp [hlow, hhigh])
          (fun q hlow hhigh => by
            rw [addedAt_append, addedAt_append, hadd q hlow, hnone, addedAt_front hhigh]
            rfl)
        have hfirst : addedAt (lumpsFrom (o + size x) bs) o = [] :=
          addedAt_front (by omega)
        rw [addedAt_append, hnone, hadd (o + size x) (by omega),
          List.nil_append, List.nil_append] at hrest
        rw [Block.source, hread, hrest, addedAt_append, addedAt_append, hfirst, hnone]
        simp [Block.target]
    | add x =>
      obtain ⟨v, rfl⟩ := hadds x List.mem_cons_self
      have hlumps : ls ++ lumpsFrom o (.add [.added v] :: bs) =
          ls ++ [addLump o v] ++ lumpsFrom o bs := by
        simp [lumpsFrom, blockLumps, Block.flatten, Block.lumps, Block.source, addLump, Piece.text]
      have hnone : ∀ q, deletedAt [addLump o v] q = false := fun q => rfl
      have hlater : ∀ q, o < q → addedAt [addLump o v] q = [] := by
        intro q hq
        have hne : o ≠ q := fun he => by omega
        simp [addedAt, addLump, hne]
      have hhere : addedAt [addLump o v] o = [.added v] := by
        simp [addedAt, addLump]
      have hrest := @ih o (ls ++ [addLump o v]) htext' hadds'
        (fun q hq => by simp [hdel q hq, hnone])
        (fun q hq => by simp [hadd q hq, hlater q hq])
      rw [hlumps, Block.source, List.nil_append, hrest, addedAt_append, hhere]
      simp [Block.target]

theorem read_lumpsOf {m : Request} (hsource : blockSource bs = m.pieces)
    (htext : ∀ p ∈ m.pieces, p.text ≠ [])
    (hadds : ∀ y, .add y ∈ bs → ∃ v, y = [.added v]) :
    m.read (lumpsOf bs) = blockTarget bs := by
  have hread := @readFrom_lumpsFrom bs 0 [] (by rwa [hsource]) hadds
    (fun q _ => rfl) (fun q _ => rfl)
  rwa [hsource] at hread

end Msicp.Rr
