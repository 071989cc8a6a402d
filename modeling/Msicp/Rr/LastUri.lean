import Msicp.Rr.Leaves

/-!
# Removals at the top and at the end

What the request is when `loose_route` has made its removals, for each of the
ways it can end.
-/

namespace Msicp.Rr

open Msicp.Support List
open Msicp.Lumps

variable {m : Request} {c l : Cursor} {lumps : List Lump}
variable {bs bs' : List (Block Piece)} {saved : List Bytes}

theorem leaves_none : Leaves m (lumpsOf (frontBlocks m m.fields)) (withoutRoutes m.fields) [] := by
  have hlumps := @lumpsOf_keeps (frontBlocks m m.fields) [.other m.back]
  rw [← hlumps]
  refine leaves_lumpsOf ?_ (fun y hy => absurd hy (by simp)) ?_
  · simp [Request.pieces]
  · simp

section

variable (hleft : Left m c lumps)
include hleft

theorem Left.lumps_eq : lumps = lumpsOf (frontBlocks m c.before ++ keeps c.hdr.pieces ++
      keeps (fieldPieces c.after ++ [Piece.other m.back])) := by
  rw [lumpsOf_keeps, lumpsOf_keeps]
  exact hleft.lumps

theorem Left.pieces : m.pieces = .other m.front :: fieldPieces c.before ++ c.hdr.pieces ++
      (fieldPieces c.after ++ [Piece.other m.back]) := by
  rw [Request.pieces, hleft.fields]
  simp [Field.pieces]

/-! ## At the top -/

theorem Left.removePassed_eq : removePassed m c lumps =
      lumpsOf (frontBlocks m c.before ++ keeps [Piece.name c.hdr.name] ++
        cuts c.passed ++ keeps c.onward ++
        keeps (fieldPieces c.after ++ [Piece.other m.back])) := by
  rw [hleft.lumps_eq]
  exact Rr.removePassed_eq (blockSource_frontBlocks m c.before)

theorem leaves_removePassed : Leaves m (removePassed m c lumps)
      (withoutRoutes c.before ++ .route c.rtHdr :: c.after) [] := by
  rw [hleft.removePassed_eq]
  refine leaves_lumpsOf ?_ (fun y hy => absurd hy (by simp)) ?_
  · rw [hleft.pieces, c.hdr_pieces]
    simp
  · simp [Field.pieces, c.rtHdr_pieces]

end

theorem rtHdr_uris (c : Cursor) :
    (withoutRoutes c.before ++ .route c.rtHdr :: c.after).flatMap Field.uris =
      c.routes := by
  rw [flatMap_append, uris_withoutRoutes]
  rfl

/-- What is left of the header field without `rt`. -/
def Cursor.nextFields (c : Cursor) : List Field :=
  match c.place.rest with
  | [] => []
  | (_, next) :: rest => [.route { c.hdr with first := next, rest := rest }]

theorem leaves_removeTop_blocks (hleft : Left m c lumps)
    (hsource : blockSource bs' = fieldPieces c.after ++ [Piece.other m.back])
    (hadds : ∀ y, .add y ∈ bs' → ∃ v, y = [.added v])
    (htarget : blockTarget bs' = fieldPieces c.after ++
      saved.map (fun uri => .added (savedHf uri)) ++ [Piece.other m.back]) :
    Leaves m (removeTop m c (lumpsOf (frontBlocks m c.before ++ keeps c.hdr.pieces ++ bs')))
      (withoutRoutes c.before ++ c.nextFields ++ c.after) saved := by
  have hbs := blockSource_frontBlocks m c.before
  cases hrest : c.place.rest with
  | nil =>
    rw [removeTop_nil hbs hrest]
    refine leaves_lumpsOf ?_ (fun y hy => hadds y (by simpa using hy)) ?_
    · rw [hleft.pieces, ← hsource]
      simp
    · simp [htarget, Cursor.nextFields, hrest]
  | cons x rest =>
    obtain ⟨comma, next⟩ := x
    rw [removeTop_cons hbs hrest]
    refine leaves_lumpsOf ?_ (fun y hy => hadds y (by simpa using hy)) ?_
    · rw [hleft.pieces, ← hsource, c.hdr_pieces, Cursor.onward, hrest]
      simp [nextPieces]
    · simp [htarget, Cursor.nextFields, hrest, Field.pieces, RouteHf.pieces, RouteHf.uriPieces]

theorem leaves_removeTop (hleft : Left m c lumps) : Leaves m (removeTop m c lumps)
      (withoutRoutes c.before ++ c.nextFields ++ c.after) [] := by
  rw [hleft.lumps_eq]
  exact leaves_removeTop_blocks hleft (blockSource_keeps _)
    (fun y hy => absurd hy (by simp)) (by simp)

/-- `rt` has become the Request-URI, and that has become the last URI. -/
theorem leaves_handleSr (hleft : Left m c lumps) : Leaves m (handleSr m c lumps).lumps
      (withoutRoutes c.before ++ c.nextFields ++ c.after) [m.uri] := by
  have hlumps : lumps = lumpsOf (frontBlocks m c.before ++
      keeps c.hdr.pieces ++ keeps (fieldPieces c.after) ++
      keeps [Piece.other m.back]) := by
    rw [hleft.lumps_eq, keeps_append]
    simp only [append_assoc]
  have hoffset : size (Piece.other m.front :: fieldPieces m.fields) =
      size (blockSource (frontBlocks m c.before ++ keeps c.hdr.pieces ++
        keeps (fieldPieces c.after))) := by
    rw [hleft.fields]
    simp [Field.pieces]
  have hsave : saveRuri m lumps = lumpsOf (frontBlocks m c.before ++
      keeps c.hdr.pieces ++ (keeps (fieldPieces c.after) ++
        .add [.added (savedHf m.uri)] :: keeps [Piece.other m.back])) := by
    rw [saveRuri, hlumps, hoffset, anchorBefore_keeps]
    simp only [append_assoc]
  have hadds : ∀ y, .add y ∈ keeps (fieldPieces c.after) ++
      .add [.added (savedHf m.uri)] :: keeps [Piece.other m.back] →
      ∃ v, y = [.added v] := by
    intro y hy
    have hy' : y = [.added (savedHf m.uri)] := by simpa using hy
    exact ⟨savedHf m.uri, hy'⟩
  rw [handleSr, hsave]
  exact leaves_removeTop_blocks hleft (by simp) hadds (by simp)

theorem nextFields_uris (c : Cursor) : c.place.rt.uri :: (withoutRoutes c.before ++ c.nextFields ++
      c.after).flatMap Field.uris = c.routes := by
  rw [flatMap_append, flatMap_append, uris_withoutRoutes, Cursor.routes, Cursor.nextFields]
  cases c.place.rest with
  | nil => rfl
  | cons x rest => simp [Field.uris, RouteHf.uris]

/-! ## At the end -/

theorem Place.last_nil {hdr : RouteHf} {rest : List (Text × Route)}
    {passed : List (Route × Text)} {rt : Route}
    (whole : hdr.uriPieces = passed.flatMap passedPieces ++ .route rt :: rest.flatMap nextPieces)
    (hrest : rest = []) :
    (Place.last hdr rest passed rt whole).passed = passed ∧
      (Place.last hdr rest passed rt whole).rt = rt := by
  subst hrest
  exact ⟨rfl, rfl⟩

theorem Place.last_concat {hdr : RouteHf} {rest rest₀ : List (Text × Route)}
    {passed : List (Route × Text)} {rt last : Route} {comma : Text}
    (whole : hdr.uriPieces = passed.flatMap passedPieces ++ .route rt :: rest.flatMap nextPieces)
    (hrest : rest = rest₀ ++ [(comma, last)]) :
    (Place.last hdr rest passed rt whole).rt = last ∧
      (∃ prev, (Place.last hdr rest passed rt whole).passed.getLast? = some (prev, comma)) ∧
      (Place.last hdr rest passed rt whole).passed.flatMap passedPieces =
        passed.flatMap passedPieces ++ .route rt :: rest₀.flatMap nextPieces ++
          [Piece.comma comma] := by
  induction rest₀ generalizing rest passed rt with
  | nil =>
    subst hrest
    refine ⟨rfl, ⟨rt, ?_⟩, ?_⟩
    · simp [Place.last]
    · simp [Place.last, passedPieces]
  | cons x rest₀ ih =>
    subst hrest
    obtain ⟨hrt, hprev, hpassed⟩ := @ih (rest₀ ++ [(comma, last)]) (passed ++ [(rt, x.1)]) x.2
      (by simpa [passedPieces, nextPieces] using whole) rfl
    refine ⟨hrt, hprev, hpassed.trans ?_⟩
    simp [passedPieces, nextPieces]

/-- The last URI is behind the header field of the cursor, or in it. -/
theorem remTarget_cases (hleft : Left m c lumps) (hl : findRemTarget m = some l) :
    (∃ mid ts, l.before = c.before ++ .route c.hdr :: mid ∧
      c.after = mid ++ .route l.hdr :: others ts ∧ l.after = others ts) ∨
    (l.before = c.before ∧ l.hdr = c.hdr ∧ ∃ ts, c.after = others ts) := by
  obtain ⟨mid, ts, hbefore, hafter, hfields, -⟩ := lastRoute_some hl
  rw [nil_append] at hbefore
  subst hbefore
  rw [hleft.fields, hafter, append_eq_append_iff] at hfields
  rcases hfields with ⟨x, hmid, hx⟩ | ⟨x, hmid, hx⟩
  · cases x with
    | nil =>
      rw [nil_append, List.cons.injEq, Field.route.injEq] at hx
      rw [append_nil] at hmid
      exact .inr ⟨hmid, hx.1.symm, ts, hx.2⟩
    | cons f x =>
      rw [cons_append, List.cons.injEq] at hx
      exact .inl ⟨x, ts, by rw [hmid, hx.1], hx.2, hafter⟩
  · cases x with
    | nil =>
      rw [nil_append, List.cons.injEq, Field.route.injEq] at hx
      rw [append_nil] at hmid
      exact .inr ⟨hmid.symm, hx.1, ts, hx.2.symm⟩
    | cons f x =>
      rw [cons_append, List.cons.injEq] at hx
      have hmem : Field.route c.hdr ∈ others ts := by
        rw [hx.2]
        simp
      simp [others] at hmem

theorem findRemTarget_uri (hl : findRemTarget m = some l) :
    m.routes.getLast? = some l.place.rt.uri := by
  obtain ⟨mid, ts, -, hafter, hfields, hplace⟩ := lastRoute_some hl
  have hroutes : m.routes = mid.flatMap Field.uris ++ l.hdr.uris := by
    rw [Request.routes, hfields, hafter]
    simp [Field.uris]
  rcases eq_nil_or_concat l.hdr.rest with hrest | ⟨rest₀, x, hrest⟩
  · obtain ⟨-, hrt⟩ := @Place.last_nil l.hdr l.hdr.rest [] l.hdr.first rfl hrest
    rw [hroutes, hplace, hrt, RouteHf.uris, hrest]
    simp
  · obtain ⟨comma, last⟩ := x
    rw [concat_eq_append] at hrest
    obtain ⟨hrt, -, -⟩ := @Place.last_concat l.hdr l.hdr.rest rest₀ []
      l.hdr.first last comma rfl hrest
    rw [hroutes, hplace, hrt, RouteHf.uris, hrest, map_append, ← cons_append, ← append_assoc]
    exact getLast?_concat

/-- The pieces of a header field up to the comma in front of the last URI. -/
def RouteHf.upTo (hdr : RouteHf) (rest₀ : List (Text × Route)) : List Piece :=
  .route hdr.first :: rest₀.flatMap nextPieces

variable {rest₀ : List (Text × Route)} {comma : Text} {last : Route} {o : ℕ} {ls : List Lump}

theorem pieces_concat {hdr : RouteHf}
    
    (hrest : hdr.rest = rest₀ ++ [(comma, last)]) :
    hdr.pieces = .name hdr.name :: hdr.upTo rest₀ ++
      [Piece.comma comma, .route last] ++ [Piece.tail hdr.tail] := by
  rw [RouteHf.pieces, RouteHf.uriPieces, hrest, RouteHf.upTo]
  simp [nextPieces]

theorem removeLast_concat (hl : findRemTarget m = some l)
    (hbs : blockSource bs = .other m.front :: fieldPieces l.before)
    (hrest : l.hdr.rest = rest₀ ++ [(comma, last)]) :
    removeLast m l (lumpsOf (bs ++ keeps l.hdr.pieces ++ bs')) =
      lumpsOf (bs ++ keeps (Piece.name l.hdr.name :: l.hdr.upTo rest₀) ++
        Block.cut [.comma comma, .route last] :: (keeps [Piece.tail l.hdr.tail] ++ bs')) := by
  obtain ⟨-, -, -, -, -, hplace⟩ := lastRoute_some hl
  obtain ⟨hrt, ⟨prev, hprev⟩, hpassed⟩ := @Place.last_concat l.hdr l.hdr.rest
    rest₀ [] l.hdr.first last comma rfl hrest
  rw [← hplace] at hprev hpassed hrt
  have hsize : size (blockSource (bs ++
      keeps (Piece.name l.hdr.name :: l.hdr.upTo rest₀))) + comma.1.length =
      l.rtName m := by
    rw [blockSource_append, hbs, blockSource_keeps, Cursor.rtName,
      Cursor.hdrBody, Cursor.hdrName, hpassed, RouteHf.upTo]
    simp only [size_append, size_cons, size_nil, flatMap_nil, nil_append, Piece.text]
    omega
  have hsplit : bs ++ keeps l.hdr.pieces ++ bs' =
      bs ++ keeps (Piece.name l.hdr.name :: l.hdr.upTo rest₀) ++
        keeps [Piece.comma comma, .route l.place.rt] ++
        (keeps [Piece.tail l.hdr.tail] ++ bs') := by
    rw [pieces_concat hrest, hrt]
    simp only [keeps_append, append_assoc]
  rw [hsplit, removeLast_some hprev hsize, hrt]

/-- The last URI goes from a header field behind the cursor. -/
theorem leaves_removeLast_behind {mid : List Field} {ts : List Text}
    (hleft : Left m c lumps) (hl : findRemTarget m = some l)
    (hbefore : l.before = c.before ++ .route c.hdr :: mid)
    (hafter : c.after = mid ++ .route l.hdr :: others ts) :
    ∃ fields, Leaves m (removeLast m l (removePassed m c lumps)) fields [] ∧
      fields.flatMap Field.uris ++ [l.place.rt.uri] = c.routes := by
  obtain ⟨-, -, -, -, -, hplace⟩ := lastRoute_some hl
  have hlumps : removePassed m c lumps =
      lumpsOf (frontBlocks m c.before ++ keeps [Piece.name c.hdr.name] ++
        cuts c.passed ++ keeps c.onward ++ keeps (fieldPieces mid) ++
        keeps l.hdr.pieces ++
        keeps (fieldPieces (others ts) ++ [Piece.other m.back])) := by
    rw [hleft.removePassed_eq, hafter]
    simp [Field.pieces]
  have hroutes : c.routes = c.place.rt.uri ::
      c.place.rest.map (fun x => x.2.uri) ++ mid.flatMap Field.uris ++
        l.hdr.uris := by
    rw [Cursor.routes, hafter, flatMap_append, flatMap_cons, uris_others]
    simp [Field.uris]
  have hsource : blockSource (frontBlocks m c.before ++
      keeps [Piece.name c.hdr.name] ++ cuts c.passed ++ keeps c.onward ++
      keeps (fieldPieces mid)) = .other m.front :: fieldPieces l.before := by
    rw [hbefore]
    simp [Field.pieces, c.hdr_pieces]
  have hpieces : m.pieces = .other m.front :: fieldPieces l.before ++
      l.hdr.pieces ++ (fieldPieces (others ts) ++ [Piece.other m.back]) := by
    rw [hleft.pieces, hbefore, hafter]
    simp [Field.pieces]
  rw [hlumps]
  rcases eq_nil_or_concat l.hdr.rest with hrest | ⟨rest₀, x, hrest⟩
  · obtain ⟨hpassed, hrt⟩ :=
      @Place.last_nil l.hdr l.hdr.rest [] l.hdr.first rfl hrest
    rw [← hplace] at hpassed hrt
    refine ⟨withoutRoutes c.before ++ .route c.rtHdr :: (mid ++ others ts), ?_, ?_⟩
    · rw [removeLast_none hsource hpassed]
      refine leaves_lumpsOf ?_ (fun y hy => absurd hy (by simp)) ?_
      · rw [blockSource_append, hsource, hpieces]
        simp
      · simp [Field.pieces, c.rtHdr_pieces]
    · rw [hroutes, hrt, RouteHf.uris, hrest, flatMap_append,
        flatMap_cons, flatMap_append, uris_withoutRoutes, uris_others]
      simp [Field.uris, RouteHf.uris, Cursor.rtHdr]
  · obtain ⟨comma, last⟩ := x
    rw [concat_eq_append] at hrest
    obtain ⟨hrt, -, -⟩ := @Place.last_concat l.hdr l.hdr.rest rest₀ []
      l.hdr.first last comma rfl hrest
    rw [← hplace] at hrt
    refine ⟨withoutRoutes c.before ++ .route c.rtHdr ::
      (mid ++ .route { l.hdr with rest := rest₀ } :: others ts), ?_, ?_⟩
    · rw [removeLast_concat hl hsource hrest]
      refine leaves_lumpsOf ?_ (fun y hy => absurd hy (by simp)) ?_
      · rw [blockSource_append, blockSource_append, hsource, hpieces, pieces_concat hrest]
        simp
      · simp [Field.pieces, RouteHf.pieces, RouteHf.uriPieces, RouteHf.upTo,
          Cursor.rtHdr, Cursor.onward]
    · rw [hroutes, hrt, RouteHf.uris, hrest, flatMap_append,
        flatMap_cons, flatMap_append, flatMap_cons,
        uris_withoutRoutes, uris_others]
      simp [Field.uris, RouteHf.uris, Cursor.rtHdr]

theorem upTo_eq (hrest : c.place.rest = rest₀ ++ [(comma, last)]) :
    ∃ rest, c.hdr.rest = rest ++ [(comma, last)] ∧ c.hdr.upTo rest =
        c.passed ++ .route c.place.rt :: rest₀.flatMap nextPieces := by
  have hwhole : c.hdr.uriPieces = (c.passed ++ .route c.place.rt :: rest₀.flatMap nextPieces) ++
        [Piece.comma comma, .route last] := by
    rw [c.place.whole, hrest, Cursor.passed]
    simp [nextPieces]
  rcases eq_nil_or_concat c.hdr.rest with hnil | ⟨rest, x, hconcat⟩
  · have hlen := congrArg List.length hwhole
    simp only [RouteHf.uriPieces, hnil, flatMap_nil, List.length_append,
      length_cons, length_nil] at hlen
    omega
  · obtain ⟨comma', last'⟩ := x
    rw [concat_eq_append] at hconcat
    have hsplit : c.hdr.uriPieces = c.hdr.upTo rest ++ [Piece.comma comma', .route last'] := by
      rw [RouteHf.uriPieces, hconcat, RouteHf.upTo]
      simp [nextPieces]
    obtain ⟨hfirst, hlast⟩ := append_inj' (hsplit.symm.trans hwhole) rfl
    simp only [List.cons.injEq, Piece.comma.injEq, Piece.route.injEq, and_true] at hlast
    obtain ⟨rfl, rfl⟩ := hlast
    exact ⟨rest, hconcat, hfirst⟩

section

variable (hleft : Left m c lumps)
include hleft

/-- The last URI goes from the header field of the cursor. -/
theorem leaves_removeLast_here {ts : List Text} (hl : findRemTarget m = some l)
    (hbefore : l.before = c.before) (hhdr : l.hdr = c.hdr)
    (hafter : c.after = others ts) (hmore : c.place.rest ≠ []) :
    ∃ fields, Leaves m (removeLast m l (removePassed m c lumps)) fields [] ∧
      fields.flatMap Field.uris ++ [l.place.rt.uri] = c.routes := by
  obtain ⟨-, -, -, -, -, hplace⟩ := lastRoute_some hl
  rcases eq_nil_or_concat c.place.rest with hnil | ⟨rest₀, x, hrest⟩
  · exact absurd hnil hmore
  obtain ⟨comma, last⟩ := x
  rw [concat_eq_append] at hrest
  obtain ⟨rest, hconcat, hupTo⟩ := upTo_eq hrest
  rw [← hhdr] at hconcat
  obtain ⟨hrt, ⟨prev, hprev⟩, hpassed⟩ := @Place.last_concat l.hdr l.hdr.rest
    rest [] l.hdr.first last comma rfl hconcat
  rw [← hplace] at hprev hpassed hrt
  have hpassed' : l.place.passed.flatMap passedPieces =
      c.passed ++ .route c.place.rt :: rest₀.flatMap nextPieces ++ [Piece.comma comma] := by
    rw [hpassed, ← hupTo, hhdr]
    rfl
  have hsize : size (blockSource (frontBlocks m c.before ++
      keeps [Piece.name c.hdr.name] ++ cuts c.passed ++
      keeps (Piece.route c.place.rt :: rest₀.flatMap nextPieces))) +
      comma.1.length = l.rtName m := by
    rw [Cursor.rtName, Cursor.hdrBody, Cursor.hdrName, hpassed', hbefore, hhdr]
    simp [Piece.text]
    omega
  have honward : c.onward = .route c.place.rt :: rest₀.flatMap nextPieces ++
      [Piece.comma comma, .route l.place.rt] ++ [Piece.tail c.hdr.tail] := by
    rw [Cursor.onward, hrest, hrt]
    simp [nextPieces]
  have hsplit : frontBlocks m c.before ++ keeps [Piece.name c.hdr.name] ++
      cuts c.passed ++ keeps c.onward ++
      keeps (fieldPieces c.after ++ [Piece.other m.back]) =
    frontBlocks m c.before ++ keeps [Piece.name c.hdr.name] ++ cuts c.passed ++
      keeps (Piece.route c.place.rt :: rest₀.flatMap nextPieces) ++
      keeps [Piece.comma comma, .route l.place.rt] ++
      keeps ([Piece.tail c.hdr.tail] ++ (fieldPieces c.after ++ [Piece.other m.back])) := by
    rw [honward]
    simp only [keeps_append, append_assoc]
  rw [hleft.removePassed_eq, hsplit, removeLast_some hprev hsize]
  refine ⟨withoutRoutes c.before ++ .route { c.rtHdr with rest := rest₀ } :: c.after, ?_, ?_⟩
  · refine leaves_lumpsOf ?_ (fun y hy => absurd hy (by simp)) ?_
    · rw [hleft.pieces, c.hdr_pieces, honward]
      simp
    · simp [Field.pieces, RouteHf.pieces, RouteHf.uriPieces, Cursor.rtHdr]
  · rw [Cursor.routes, hrest, hrt, hafter, flatMap_append,
      flatMap_cons, uris_withoutRoutes, uris_others]
    simp [Field.uris, RouteHf.uris, Cursor.rtHdr]

theorem leaves_removeLast (hl : findRemTarget m = some l) (hmore : c.routes ≠ [c.place.rt.uri]) :
    ∃ fields, Leaves m (removeLast m l (removePassed m c lumps)) fields [] ∧
      fields.flatMap Field.uris ++ [l.place.rt.uri] = c.routes := by
  rcases remTarget_cases hleft hl with
    ⟨mid, ts, hbefore, hafter, -⟩ | ⟨hbefore, hhdr, ts, hafter⟩
  · exact leaves_removeLast_behind hleft hl hbefore hafter
  · have hrest : c.place.rest ≠ [] := by
      intro hnil
      apply hmore
      rw [Cursor.routes, hnil, hafter, uris_others]
      rfl
    exact leaves_removeLast_here hleft hl hbefore hhdr hafter hrest

/-! ## The last URI at the cursor -/

theorem remTarget_last (hl : findRemTarget m = some l) (hone : c.routes = [c.place.rt.uri]) :
    l.before = c.before ∧ l.hdr = c.hdr ∧ c.place.rest = [] ∧ ∃ ts, c.after = others ts := by
  rw [Cursor.routes, cons_append, List.cons.injEq, append_eq_nil_iff, map_eq_nil_iff] at hone
  obtain ⟨-, hrest, hafter⟩ := hone
  rcases remTarget_cases hleft hl with
    ⟨mid, ts, -, hbehind, -⟩ | ⟨hbefore, hhdr, hts⟩
  · rw [hbehind] at hafter
    simp [Field.uris, RouteHf.uris] at hafter
  · exact ⟨hbefore, hhdr, hrest, hts⟩

/-- The header field goes as a whole when the last URI is alone in it. -/
theorem leaves_removeLast_alone (hl : findRemTarget m = some l) (hone : c.routes = [c.place.rt.uri])
    (hpassed : c.place.passed = []) :
    ∃ fields, Leaves m (removeLast m l (removePassed m c lumps)) fields [] ∧
      fields.flatMap Field.uris = [] := by
  obtain ⟨hbefore, hhdr, hrest, ts, hafter⟩ := remTarget_last hleft hl hone
  obtain ⟨-, -, -, -, -, hplace⟩ := lastRoute_some hl
  have hnone : l.hdr.rest = [] := by
    have hwhole := congrArg List.length c.place.whole
    rw [hpassed, hrest] at hwhole
    rw [hhdr]
    simpa [RouteHf.uriPieces, nextPieces] using hwhole
  obtain ⟨hlast, -⟩ := @Place.last_nil l.hdr l.hdr.rest [] l.hdr.first rfl hnone
  rw [← hplace] at hlast
  have hfront : blockSource (frontBlocks m c.before) = .other m.front :: fieldPieces l.before := by
    rw [blockSource_frontBlocks, hbefore]
  have hsame : removePassed m c lumps = lumps := by
    rw [removePassed, hpassed]
  refine ⟨withoutRoutes c.before ++ others ts, ?_, ?_⟩
  · rw [hsame, hleft.lumps_eq, ← hhdr, removeLast_none hfront hlast]
    refine leaves_lumpsOf ?_ (fun y hy => absurd hy (by simp)) ?_
    · rw [hleft.pieces, hhdr]
      simp
    · simp [hafter]
  · rw [flatMap_append, uris_withoutRoutes, uris_others]
    rfl

end

theorem deletedAt_insertSorted {q : ℕ} {lump : Lump} : deletedAt (insertSorted o lump ls) q =
      (deletedAt [lump] q || deletedAt ls q) := by
  have hsplit : deletedAt ls q = (deletedAt (ls.takeWhile (goesOn o)) q ||
        deletedAt (ls.dropWhile (goesOn o)) q) := by
    rw [← deletedAt_append, takeWhile_append_dropWhile]
  rw [insertSorted, ← singleton_append, deletedAt_append, deletedAt_append, hsplit]
  exact Bool.or_left_comm _ _ _

theorem delLump_spares {n q : ℕ} (h : q < o) : deletedAt (delLump o n ls) q = deletedAt ls q := by
  have hnot : deletedAt [cutLump o n] q = false := by
    rw [deletedAt_cutLump, decide_eq_false (not_le.mpr h), Bool.false_and]
  rw [delLump, deletedAt_insertSorted]
  exact (congrArg (· || deletedAt ls q) hnot).trans (Bool.false_or _)

theorem mem_readFrom {xs ys : List Piece} {p : Piece} (h : deletedAt ls (o + size xs) = false) :
    p ∈ readFrom ls o (xs ++ p :: ys) := by
  induction xs generalizing o with
  | nil =>
    have hkeep : deletedAt ls o = false := h
    simp [readFrom, hkeep]
  | cons x xs ih =>
    rw [size_cons, ← Nat.add_assoc] at h
    rw [cons_append, readFrom]
    exact mem_append_right _ (ih h)

/-- The name of the header field stays when the last URI is at the cursor and
others have been in front of it. -/
theorem name_mem_read (hleft : Left m c lumps)
    (hl : findRemTarget m = some l) (hone : c.routes = [c.place.rt.uri])
    (hpassed : c.place.passed ≠ []) :
    .name c.hdr.name ∈ m.read (removeLast m l (removePassed m c lumps)) := by
  obtain ⟨hbefore, hhdr, hrest, -⟩ := remTarget_last hleft hl hone
  obtain ⟨-, -, -, -, -, hplace⟩ := lastRoute_some hl
  have hname : 0 < c.hdr.name.1.length :=
    length_pos_iff.mpr c.hdr.name.2
  have hfirst : deletedAt lumps (c.hdrName m) = false := by
    by_contra hne
    rw [Bool.not_eq_false, deletedAt_iff, hleft.lumps] at hne
    obtain ⟨r, hr, hlow, hhigh⟩ := hne
    obtain ⟨t, ht, hregion⟩ := mem_filterMap.mp hr
    obtain ⟨r', hr', -, -, hend⟩ := lumpsFrom_region ht
    rw [hregion, Option.some.injEq] at hr'
    subst hr'
    rw [blockSource_frontBlocks, Nat.zero_add] at hend
    exact absurd (hhigh.trans_le hend) (lt_irrefl _)
  have hpass : deletedAt (removePassed m c lumps) (c.hdrName m) = false := by
    rw [removePassed]
    split
    · exact hfirst
    · rw [delLump_spares (by rw [Cursor.hdrBody]; omega)]
      exact hfirst
  have hmore : l.hdr.rest ≠ [] := by
    intro hnil
    obtain ⟨x, xs, hx⟩ := exists_cons_of_ne_nil hpassed
    have hwhole := congrArg List.length c.place.whole
    rw [hhdr] at hnil
    simp only [RouteHf.uriPieces, hnil, hx, flatMap_cons, passedPieces,
      List.length_append, length_cons, flatMap_nil,
      length_nil] at hwhole
    omega
  have hlast : deletedAt (removeLast m l (removePassed m c lumps)) (c.hdrName m) = false := by
    rcases eq_nil_or_concat l.hdr.rest with hnil | ⟨rest, x, hconcat⟩
    · exact absurd hnil hmore
    · obtain ⟨comma, last⟩ := x
      rw [concat_eq_append] at hconcat
      obtain ⟨-, ⟨prev, hprev⟩, hbody⟩ := @Place.last_concat l.hdr l.hdr.rest
        rest [] l.hdr.first last comma rfl hconcat
      rw [← hplace] at hprev hbody
      have hbehind : c.hdrName m < l.rtName m - comma.1.length := by
        rw [Cursor.rtName, Cursor.hdrBody, hbody, hhdr, Cursor.hdrName, Cursor.hdrName, hbefore]
        simp only [size_append, size_cons, size_nil, Piece.text]
        omega
      rw [removeLast, hprev]
      simp only []
      rw [delLump_spares hbehind]
      exact hpass
  have hpieces : m.pieces = (.other m.front :: fieldPieces c.before) ++
      .name c.hdr.name :: (c.passed ++ c.onward ++
        (fieldPieces c.after ++ [Piece.other m.back])) := by
    rw [hleft.pieces, c.hdr_pieces]
    simp
  rw [Request.read, hpieces]
  refine mem_readFrom ?_
  rw [Nat.zero_add]
  exact hlast

end Msicp.Rr
