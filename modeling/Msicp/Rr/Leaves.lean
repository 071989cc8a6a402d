import Msicp.Rr.Edits

/-!
# What is removed from a request

The URIs of the process itself are left from the top on, header field by header
field; then at most one URI is taken from the top and one from the end.
-/

namespace Msicp.Rr

open Msicp.Support List
open Msicp.Lumps

variable {m : Request} {c c' : Cursor} {lumps lumps' : List Lump}
variable {bs bs' : List (Block Piece)} {before fs : List Field}

/-- Header fields other than Route. -/
def others (ts : List Text) : List Field := ts.map Field.other

@[simp] theorem fieldPieces_append (fs fs' : List Field) :
    fieldPieces (fs ++ fs') = fieldPieces fs ++ fieldPieces fs' := by
  simp [fieldPieces]

@[simp] theorem fieldPieces_cons (f : Field) (fs : List Field) :
    fieldPieces (f :: fs) = f.pieces ++ fieldPieces fs := by
  simp [fieldPieces]

@[simp] theorem uris_others (ts : List Text) : (others ts).flatMap Field.uris = [] := by
  simp [others, Field.uris, flatMap_map]

/-- The header fields without those for Route. -/
def withoutRoutes : List Field → List Field
  | [] => []
  | .route _ :: fs => withoutRoutes fs
  | .other text :: fs => .other text :: withoutRoutes fs

theorem uris_withoutRoutes (fs : List Field) : (withoutRoutes fs).flatMap Field.uris = [] := by
  induction fs with
  | nil => rfl
  | cons f fs ih => cases f <;> simpa [withoutRoutes, Field.uris] using ih

/-- Every Route header field is cut out. -/
def cutRoutes (fs : List Field) : List (Block Piece) :=
  fs.flatMap fun
    | .route h => [.cut h.pieces]
    | .other text => keeps [.other text]

@[simp] theorem cutRoutes_append (fs fs' : List Field) :
    cutRoutes (fs ++ fs') = cutRoutes fs ++ cutRoutes fs' := by
  simp [cutRoutes]

@[simp] theorem blockSource_cutRoutes (fs : List Field) :
    blockSource (cutRoutes fs) = fieldPieces fs := by
  induction fs with
  | nil => rfl
  | cons f fs ih =>
    have hcons : cutRoutes (f :: fs) = cutRoutes [f] ++ cutRoutes fs :=
      cutRoutes_append [f] fs
    rw [hcons, blockSource_append, ih, fieldPieces_cons]
    cases f <;> simp [cutRoutes, blockSource, Block.source, Field.pieces,
      keeps]

@[simp] theorem blockTarget_cutRoutes (fs : List Field) :
    blockTarget (cutRoutes fs) = fieldPieces (withoutRoutes fs) := by
  induction fs with
  | nil => rfl
  | cons f fs ih =>
    have hcons : cutRoutes (f :: fs) = cutRoutes [f] ++ cutRoutes fs :=
      cutRoutes_append [f] fs
    rw [hcons, blockTarget_append, ih]
    cases f <;> simp [cutRoutes, blockTarget, Block.target, withoutRoutes,
      Field.pieces, keeps]

theorem cutRoutes_others (ts : List Text) :
    cutRoutes (others ts) = keeps (fieldPieces (others ts)) := by
  induction ts with
  | nil => rfl
  | cons text ts ih =>
    have hcons : others (text :: ts) = [Field.other text] ++ others ts := rfl
    rw [hcons, cutRoutes_append, fieldPieces_append, keeps_append, ih]
    rfl

theorem lumpsOf_keeps (ps : List Piece) : lumpsOf (bs ++ keeps ps) = lumpsOf bs := by
  rw [lumpsOf_append, lumpsFrom_keeps, append_nil]

/-! ## Finding Route header fields -/

theorem findRoute_some (h : findRoute before fs = some c) : ∃ ts, c.before = before ++ others ts ∧
      fs = others ts ++ .route c.hdr :: c.after ∧
      c.place = Place.parsed c.hdr := by
  induction fs generalizing before with
  | nil => cases h
  | cons f fs ih =>
    cases f with
    | route hdr =>
      cases h
      exact ⟨[], by simp [others], rfl, rfl⟩
    | other text =>
      obtain ⟨ts, hbefore, hfs, hplace⟩ := ih h
      refine ⟨text :: ts, ?_, ?_, hplace⟩
      · rw [hbefore]
        simp [others]
      · rw [hfs]
        rfl

theorem findRoute_none (h : findRoute before fs = none) : ∃ ts, fs = others ts := by
  induction fs generalizing before with
  | nil => exact ⟨[], rfl⟩
  | cons f fs ih =>
    cases f with
    | route hdr => cases h
    | other text =>
      obtain ⟨ts, hts⟩ := ih h
      exact ⟨text :: ts, by rw [hts]; rfl⟩

theorem lastRoute_none (h : lastRoute before fs = none) : ∃ ts, fs = others ts := by
  induction fs generalizing before with
  | nil => exact ⟨[], rfl⟩
  | cons f fs ih =>
    cases f with
    | route hdr =>
      rw [lastRoute] at h
      split at h <;> cases h
    | other text =>
      obtain ⟨ts, hts⟩ := ih h
      exact ⟨text :: ts, by rw [hts]; rfl⟩

theorem lastRoute_some (h : lastRoute before fs = some c) :
    ∃ mid ts, c.before = before ++ mid ∧ c.after = others ts ∧ fs = mid ++ .route c.hdr :: c.after ∧
      c.place = Place.last c.hdr c.hdr.rest [] c.hdr.first rfl := by
  induction fs generalizing before with
  | nil => cases h
  | cons f fs ih =>
    cases f with
    | route hdr =>
      rw [lastRoute] at h
      cases hlast : lastRoute (before ++ [Field.route hdr]) fs with
      | some l =>
        rw [hlast] at h
        cases h
        obtain ⟨mid, ts, hbefore, hafter, hfs, hplace⟩ := ih hlast
        refine ⟨.route hdr :: mid, ts, ?_, hafter, ?_, hplace⟩
        · rw [hbefore]
          simp
        · rw [hfs]
          rfl
      | none =>
        rw [hlast] at h
        cases h
        obtain ⟨ts, hts⟩ := lastRoute_none hlast
        exact ⟨[], ts, by simp, hts, rfl, rfl⟩
    | other text =>
      obtain ⟨mid, ts, hbefore, hafter, hfs, hplace⟩ := ih h
      refine ⟨.other text :: mid, ts, ?_, hafter, ?_, hplace⟩
      · rw [hbefore]
        simp
      · rw [hfs]
        rfl

/-! ## URIs of the process itself -/

/-- The part of the route set that is not left yet. -/
def Cursor.routes (c : Cursor) : List Bytes :=
  c.place.rt.uri :: c.place.rest.map (fun x => x.2.uri) ++ c.after.flatMap Field.uris

/-- The message up to a Route header field, with all of these cut out. -/
def frontBlocks (m : Request) (before : List Field) : List (Block Piece) :=
  keeps [.other m.front] ++ cutRoutes before

@[simp] theorem blockSource_frontBlocks (m : Request) (before : List Field) :
    blockSource (frontBlocks m before) = .other m.front :: fieldPieces before := by
  simp [frontBlocks]

/-- All in front of the cursor has been left. -/
structure Left (m : Request) (c : Cursor) (lumps : List Lump) : Prop where
  fields : m.fields = c.before ++ .route c.hdr :: c.after
  lumps : lumps = lumpsOf (frontBlocks m c.before)

theorem pieces_size_pos (h : RouteHf) : 0 < size h.pieces := by
  have hname : 0 < h.name.1.length := length_pos_iff.mpr h.name.2
  simp only [RouteHf.pieces, cons_append, size_cons, Piece.text]
  omega

theorem delLump_hdr {hdr : RouteHf} (h : blockSource bs =
      .other m.front :: fieldPieces before) (bs' : List (Block Piece)) :
    delLump (size (Piece.other m.front :: fieldPieces before)) (size hdr.pieces)
        (lumpsOf (bs ++ keeps hdr.pieces ++ bs')) =
      lumpsOf (bs ++ .cut hdr.pieces :: bs') := by
  rw [← h]
  exact delLump_keeps (pieces_size_pos hdr)

/-- With a Route header field all up to the next one is left. -/
theorem delLump_front (m : Request) (before : List Field) (hdr : RouteHf) (ts : List Text) :
    delLump (size (Piece.other m.front :: fieldPieces before)) (size hdr.pieces)
        (lumpsOf (frontBlocks m before)) =
      lumpsOf (frontBlocks m (before ++ .route hdr :: others ts)) := by
  have hcut := @delLump_hdr m (frontBlocks m before) before hdr
    (blockSource_frontBlocks m before) []
  have hcons : cutRoutes (.route hdr :: others ts) =
      [Block.cut hdr.pieces] ++ keeps (fieldPieces (others ts)) := by
    rw [← cutRoutes_others]
    rfl
  have hfront : frontBlocks m (before ++ .route hdr :: others ts) =
      frontBlocks m before ++ [Block.cut hdr.pieces] ++ keeps (fieldPieces (others ts)) := by
    rw [frontBlocks, cutRoutes_append, hcons, frontBlocks]
    simp only [append_assoc]
  rw [append_nil, lumpsOf_keeps] at hcut
  rw [hcut, hfront, lumpsOf_keeps]

theorem findFirstRoute_left (h : findFirstRoute m = some c) :
    Left m c [] ∧ c.routes = m.routes ∧ c.place = Place.parsed c.hdr := by
  obtain ⟨ts, hbefore, hfs, hplace⟩ := findRoute_some h
  refine ⟨⟨by rw [hfs, hbefore]; rfl, ?_⟩, ?_, hplace⟩
  · rw [hbefore, nil_append, frontBlocks, cutRoutes_others, ← keeps_append]
    exact (lumpsFrom_keeps _).symm
  · rw [Request.routes, hfs, flatMap_append, uris_others, Cursor.routes, hplace]
    rfl

theorem findFirstRoute_none (h : findFirstRoute m = none) :
    m.routes = [] ∧ ∃ ts, m.fields = others ts := by
  obtain ⟨ts, hfs⟩ := findRoute_none h
  refine ⟨?_, ts, hfs⟩
  rw [Request.routes, hfs, uris_others]

theorem leaveRoute_some (hleft : Left m c lumps) (h : leaveRoute m c lumps = (lumps', some c')) :
    Left m c' lumps' ∧ c.routes = c.place.rt.uri :: c'.routes := by
  unfold leaveRoute at h
  split at h
  · rename_i hrest
    rw [Prod.mk.injEq] at h
    obtain ⟨hlumps, hnext⟩ := h
    obtain ⟨ts, hbefore, hfs, hplace⟩ := findRoute_some hnext
    refine ⟨⟨?_, ?_⟩, ?_⟩
    · rw [hleft.fields, hfs, hbefore]
      simp
    · rw [← hlumps, hleft.lumps, hbefore, append_assoc]
      exact delLump_front m c.before c.hdr ts
    · rw [Cursor.routes, Cursor.routes, hrest, hfs, hplace]
      simp [Place.parsed, Field.uris, RouteHf.uris]
  · rename_i comma next rest hrest
    rw [Prod.mk.injEq, Option.some.injEq] at h
    obtain ⟨rfl, rfl⟩ := h
    refine ⟨⟨hleft.fields, hleft.lumps⟩, ?_⟩
    simp [Cursor.routes, hrest]

/-- URIs of the header field are passed if there have been others in it. -/
theorem leaveRoute_passed (h : leaveRoute m c lumps = (lumps', some c')) :
    c'.place.passed = [] ↔ c.place.rest = [] := by
  unfold leaveRoute at h
  split at h
  · rename_i hrest
    rw [Prod.mk.injEq] at h
    obtain ⟨ts, -, -, hplace⟩ := findRoute_some h.2
    rw [hplace]
    exact iff_of_true rfl hrest
  · rename_i comma next rest hrest
    rw [Prod.mk.injEq, Option.some.injEq] at h
    obtain ⟨-, rfl⟩ := h
    refine iff_of_false (by simp) ?_
    rw [hrest]
    exact cons_ne_nil _ _

theorem leaveRoute_none (hleft : Left m c lumps) (h : leaveRoute m c lumps = (lumps', none)) :
    lumps' = lumpsOf (frontBlocks m m.fields) ∧ c.routes = [c.place.rt.uri] := by
  unfold leaveRoute at h
  split at h
  · rename_i hrest
    rw [Prod.mk.injEq] at h
    obtain ⟨hlumps, hnext⟩ := h
    obtain ⟨ts, hfs⟩ := findRoute_none hnext
    constructor
    · rw [← hlumps, hleft.lumps, hleft.fields, hfs]
      exact delLump_front m c.before c.hdr ts
    · rw [Cursor.routes, hrest, hfs, uris_others]
      rfl
  · rw [Prod.mk.injEq] at h
    cases h.2

end Msicp.Rr

/-!
## What is left of a request

With the lumps applied, the request is again one whose Route header fields all
have a URI, and which URIs these are is what the routing has decided on.
-/

namespace Msicp.Rr

open Msicp.Support
open Msicp.Lumps

variable {m : Request} {c l : Cursor} {lumps : List Lump}
variable {bs bs' : List (Block Piece)} {fields : List Field}
variable {saved : List Bytes}

/-- The lumps leave the header fields, and behind them a Route header field for
each saved URI; the builders write the text of that, the Request-URI apart. -/
structure Leaves (m : Request) (lumps : List Lump) (fields : List Field)
    (saved : List Bytes) : Prop where
  read : m.read lumps =
    .other m.front :: fieldPieces fields ++
      saved.map (fun uri => .added (savedHf uri)) ++ [.other m.back]
  text : ∀ (msg : SipMsg) (sendSock : Option SocketInfo) (rands : Rands),
    msg.buf = m.buf →
      (buildBuf msg sendSock none lumps [] rands).1 =
        (m.read lumps).flatMap Piece.text

theorem savedUri_savedHf (uri : Bytes) : savedUri (savedHf uri) = uri := by
  have hlen : (savedHf uri).length - routePrefix.length - routeSuffix.length =
      uri.length := by
    simp only [savedHf, List.length_append]
    omega
  rw [savedUri, hlen, savedHf, List.append_assoc, List.drop_left, List.take_left]

theorem uris_pieces (f : Field) : f.pieces.flatMap Piece.uris = f.uris := by
  cases f with
  | other text => rfl
  | route h =>
    have hrest : (h.rest.flatMap nextPieces).flatMap Piece.uris = h.rest.map fun x => x.2.uri := by
      induction h.rest with
      | nil => rfl
      | cons x xs ih =>
        rw [List.flatMap_cons, List.flatMap_append, ih]
        rfl
    simp [Field.pieces, RouteHf.pieces, RouteHf.uriPieces, Piece.uris, hrest,
      Field.uris, RouteHf.uris]

theorem Leaves.uris (h : Leaves m lumps fields saved) :
    (m.read lumps).flatMap Piece.uris = fields.flatMap Field.uris ++ saved := by
  have hfields : (fieldPieces fields).flatMap Piece.uris = fields.flatMap Field.uris := by
    rw [fieldPieces, List.flatMap_assoc]
    exact List.flatMap_congr fun f _ => uris_pieces f
  have hsaved : (saved.map fun uri => Piece.added (savedHf uri)).flatMap Piece.uris = saved := by
    simp [List.flatMap_map, Piece.uris, savedUri_savedHf]
  rw [h.read]
  simp [hfields, hsaved, Piece.uris]

theorem text_ne_nil {p : Piece} (h : p ∈ m.pieces) : p.text ≠ [] := by
  have hrest : ∀ xs : List (Text × Route), p ∈ xs.flatMap nextPieces → p.text ≠ [] := by
    intro xs hp
    obtain ⟨x, -, hp⟩ := List.mem_flatMap.mp hp
    simp only [nextPieces, List.mem_cons, List.not_mem_nil, or_false] at hp
    rcases hp with rfl | rfl
    · exact x.1.2
    · exact x.2.text.2
  have hfields : p ∈ fieldPieces m.fields → p.text ≠ [] := by
    intro hp
    obtain ⟨f, -, hp⟩ := List.mem_flatMap.mp hp
    cases f with
    | other text =>
      rw [List.mem_singleton.mp hp]
      exact text.2
    | route hdr =>
      simp only [Field.pieces, RouteHf.pieces, RouteHf.uriPieces,
        List.cons_append, List.mem_cons, List.mem_append,
        List.not_mem_nil, or_false] at hp
      rcases hp with rfl | rfl | hp | rfl
      · exact hdr.name.2
      · exact hdr.first.text.2
      · exact hrest hdr.rest hp
      · exact hdr.tail.2
  simp only [Request.pieces, List.cons_append, List.mem_cons, List.mem_append,
    List.not_mem_nil, or_false] at h
  rcases h with rfl | hp | rfl
  · exact m.front.2
  · exact hfields hp
  · exact m.back.2

theorem leaves_lumpsOf (hsource : blockSource bs = m.pieces)
    (hadds : ∀ y, .add y ∈ bs → ∃ v, y = [.added v])
    (htarget : blockTarget bs = .other m.front :: fieldPieces fields ++
      saved.map (fun uri => .added (savedHf uri)) ++ [Piece.other m.back]) :
    Leaves m (lumpsOf bs) fields saved := by
  have hread := read_lumpsOf hsource (fun p hp => text_ne_nil hp) hadds
  refine ⟨hread.trans htarget, fun msg sendSock rands hbuf => ?_⟩
  have hmsg : msg.buf = (blockSource bs).flatMap Piece.text := by
    rw [hbuf, hsource]
    rfl
  rw [hread]
  exact buildBuf_lumpsOf hmsg rands

/-! ## Blocks of a header field -/

@[simp] theorem add_mem_keeps {y ps : List Piece} : .add y ∉ keeps ps := by
  simp [keeps]

@[simp] theorem add_mem_cutRoutes {y : List Piece} {fs : List Field} : .add y ∉ cutRoutes fs := by
  intro h
  obtain ⟨f, -, hf⟩ := List.mem_flatMap.mp h
  cases f with
  | route hdr => cases List.mem_singleton.mp hf
  | other text => exact add_mem_keeps hf

/-- Pieces that go, if there are any. -/
def cuts (ps : List Piece) : List (Block Piece) :=
  match ps with
  | [] => []
  | p :: ps => [.cut (p :: ps)]

@[simp] theorem add_mem_cuts {y ps : List Piece} : .add y ∉ cuts ps := by
  cases ps <;> simp [cuts]

@[simp] theorem blockSource_cuts (ps : List Piece) : blockSource (cuts ps) = ps := by
  cases ps <;> simp [cuts, blockSource, Block.source]

@[simp] theorem blockTarget_cuts (ps : List Piece) : blockTarget (cuts ps) = [] := by
  cases ps <;> simp [cuts, blockTarget, Block.target]

@[simp] theorem add_mem_frontBlocks {y : List Piece} {before : List Field} :
    .add y ∉ frontBlocks m before := by
  simp [frontBlocks]

@[simp] theorem blockTarget_frontBlocks (m : Request) (before : List Field) :
    blockTarget (frontBlocks m before) = .other m.front :: fieldPieces (withoutRoutes before) := by
  simp [frontBlocks]

namespace Cursor

variable (c : Cursor)

def passed : List Piece := c.place.passed.flatMap passedPieces

/-- The pieces from `rt` on. -/
def onward : List Piece :=
  .route c.place.rt :: c.place.rest.flatMap nextPieces ++ [.tail c.hdr.tail]

theorem hdr_pieces : c.hdr.pieces = .name c.hdr.name :: c.passed ++ c.onward := by
  rw [RouteHf.pieces, c.place.whole, passed, onward]
  simp

/-- The header field without the URIs in front of `rt`. -/
def rtHdr : RouteHf :=
  { c.hdr with first := c.place.rt, rest := c.place.rest }

theorem rtHdr_pieces : c.rtHdr.pieces = .name c.hdr.name :: c.onward := rfl

end Cursor

/-! ## One removal -/

section

variable (hbs : blockSource bs = .other m.front :: fieldPieces c.before)
include hbs

theorem hdrBody_eq : c.hdrBody m = size (blockSource (bs ++ keeps [Piece.name c.hdr.name])) := by
  rw [blockSource_append, blockSource_keeps, hbs, size_append, Cursor.hdrBody, Cursor.hdrName]
  simp [Piece.text]

theorem removePassed_eq : removePassed m c (lumpsOf (bs ++ keeps c.hdr.pieces ++ bs')) =
      lumpsOf (bs ++ keeps [Piece.name c.hdr.name] ++ cuts c.passed ++ keeps c.onward ++ bs') := by
  have hsplit : bs ++ keeps c.hdr.pieces ++ bs' =
      bs ++ keeps [Piece.name c.hdr.name] ++ keeps c.passed ++ (keeps c.onward ++ bs') := by
    rw [c.hdr_pieces, ← List.singleton_append, keeps_append, keeps_append]
    simp only [List.append_assoc]
  have hbody := hdrBody_eq hbs
  rw [hsplit, removePassed]
  cases hpassed : c.place.passed with
  | nil =>
    have hnone : c.passed = [] := by
      rw [Cursor.passed, hpassed]
      rfl
    simp only [hnone, List.append_assoc]
    rfl
  | cons x xs =>
    have hcuts : cuts c.passed = [Block.cut c.passed] := by
      rw [Cursor.passed, hpassed]
      rfl
    have hpos : 0 < size c.passed := by
      have hfirst : 0 < x.1.text.1.length :=
        List.length_pos_iff.mpr x.1.text.2
      rw [Cursor.passed, hpassed]
      simp only [List.flatMap_cons, passedPieces, List.cons_append, size_cons, Piece.text]
      omega
    have hlen : c.rtName m - c.hdrBody m = size c.passed :=
      Nat.add_sub_cancel_left _ _
    simp only []
    rw [hlen, hbody, delLump_keeps hpos, hcuts]
    simp only [List.append_assoc, List.cons_append, List.nil_append]

theorem removeTop_nil (hrest : c.place.rest = []) :
    removeTop m c (lumpsOf (bs ++ keeps c.hdr.pieces ++ bs')) =
      lumpsOf (bs ++ .cut c.hdr.pieces :: bs') := by
  rw [removeTop, hrest]
  exact delLump_hdr hbs bs'

theorem removeTop_cons {comma : Text} {next : Route}
    {rest : List (Text × Route)}
    (hrest : c.place.rest = (comma, next) :: rest) :
    removeTop m c (lumpsOf (bs ++ keeps c.hdr.pieces ++ bs')) =
      lumpsOf (bs ++ keeps [Piece.name c.hdr.name] ++
        Block.cut (c.passed ++ [Piece.route c.place.rt, .comma comma]) ::
        (keeps (Piece.route next :: rest.flatMap nextPieces ++
          [Piece.tail c.hdr.tail]) ++ bs')) := by
  have hpieces : c.hdr.pieces = [Piece.name c.hdr.name] ++
      (c.passed ++ [Piece.route c.place.rt, .comma comma]) ++
      (.route next :: rest.flatMap nextPieces ++ [Piece.tail c.hdr.tail]) := by
    rw [c.hdr_pieces, Cursor.onward, hrest]
    simp [nextPieces]
  have hsplit : bs ++ keeps c.hdr.pieces ++ bs' = bs ++ keeps [Piece.name c.hdr.name] ++
        keeps (c.passed ++ [Piece.route c.place.rt, .comma comma]) ++
        (keeps (Piece.route next :: rest.flatMap nextPieces ++
          [Piece.tail c.hdr.tail]) ++ bs') := by
    rw [hpieces, keeps_append, keeps_append]
    simp only [List.append_assoc]
  have hbody := hdrBody_eq hbs
  have hrt : 0 < c.place.rt.text.1.length :=
    List.length_pos_iff.mpr c.place.rt.text.2
  have hsize : size (c.passed ++ [Piece.route c.place.rt, .comma comma]) =
      size c.passed + (c.place.rt.text.1.length + comma.1.length) := by
    simp [Piece.text]
  have hlen : c.rtName m + c.place.rt.text.1.length + comma.1.length -
      c.hdrBody m = size (c.passed ++ [Piece.route c.place.rt, .comma comma]) := by
    rw [hsize, Cursor.rtName, Cursor.passed]
    omega
  rw [hsplit, removeTop, hrest]
  simp only []
  rw [hlen, hbody, delLump_keeps (by omega)]

end

/-- Where the last URI is not alone in its header field, it goes with the comma
in front of it. -/
theorem removeLast_some {prev : Route} {comma : Text}
    (hlast : l.place.passed.getLast? = some (prev, comma))
    (hbs : size (blockSource bs) + comma.1.length = l.rtName m) :
    removeLast m l (lumpsOf (bs ++ keeps [Piece.comma comma, .route l.place.rt] ++ bs')) =
      lumpsOf (bs ++ .cut [.comma comma, .route l.place.rt] :: bs') := by
  have hrt : 0 < l.place.rt.text.1.length :=
    List.length_pos_iff.mpr l.place.rt.text.2
  have hsize : size [Piece.comma comma, .route l.place.rt] =
      comma.1.length + l.place.rt.text.1.length := by
    simp [Piece.text]
  have hoff : l.rtName m - comma.1.length = size (blockSource bs) := by omega
  have hlen : l.rtName m + l.place.rt.text.1.length - size (blockSource bs) =
      size [Piece.comma comma, .route l.place.rt] := by
    omega
  rw [removeLast, hlast]
  simp only []
  rw [hoff, hlen, delLump_keeps (by omega)]

theorem removeLast_none (hbs : blockSource bs = .other m.front :: fieldPieces l.before)
    (hlast : l.place.passed = []) :
    removeLast m l (lumpsOf (bs ++ keeps l.hdr.pieces ++ bs')) =
      lumpsOf (bs ++ .cut l.hdr.pieces :: bs') := by
  rw [removeLast, hlast]
  exact delLump_hdr hbs bs'

end Msicp.Rr
