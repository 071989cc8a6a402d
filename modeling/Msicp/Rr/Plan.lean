import Msicp.Rr.LastUri

/-!
# The plan of loose routing

`loose_route` follows a plan that reads the route set as a list, whatever header
fields it is spread over.
-/

namespace Msicp.Rr

open Msicp.Support List
open Msicp.Lumps

variable {cfg : Config} {m : Request} {c : Cursor} {out : Out}
variable {lumps : List Lump} {plan : Target} {apart apart' : Prop}

/-- What `after_strict` decides, with the URIs from `rt` on. -/
def strictHop (cfg : Config) (m : Request) : List Bytes → Target
  | [] => { uri := m.uri, dst := none, routes := [] }
  | x :: xs =>
    if cfg.strict x then { uri := x, dst := none, routes := xs }
    else
      { uri := m.routes.getLastD m.uri
        dst := some x
        routes := (x :: xs).dropLast }

/-- The URIs that `after_strict` keeps. -/
def strictRoutes (cfg : Config) : List Bytes → List Bytes
  | [] => []
  | r :: rs => if cfg.own r then rs else r :: rs

/-- The URIs that `after_loose` keeps. -/
def looseRoutes (cfg : Config) : List Bytes → List Bytes
  | [] => []
  | r :: rs =>
    if cfg.own r then if cfg.double r then rs.tail else rs else r :: rs

def planOf (cfg : Config) (m : Request) : Target :=
  if afterStrictRouter cfg m then
    strictHop cfg m (strictRoutes cfg m.routes)
  else nextHop cfg m.uri (looseRoutes cfg m.routes)

/-- The outcome is that of a plan, the text of the message only if its
removals are `apart`. -/
structure Follows (m : Request) (out : Out) (plan : Target) (apart : Prop) :
    Prop where
  uri : out.newUri.getD m.uri = plan.uri
  dst : out.dstUri = plan.dst
  leaves : apart → ∃ fields saved, Leaves m out.lumps fields saved ∧
    fields.flatMap Field.uris ++ saved = plan.routes

theorem Follows.mono (h : Follows m out plan apart) (himp : apart' → apart) :
    Follows m out plan apart' :=
  ⟨h.uri, h.dst, fun hapart => h.leaves (himp hapart)⟩

theorem follows_none {ret : ℤ} (h : lumps = lumpsOf (frontBlocks m m.fields)) :
    Follows m ⟨ret, lumps, none, none⟩ ⟨m.uri, none, []⟩ apart where
  uri := rfl
  dst := rfl
  leaves _ := by
    refine ⟨withoutRoutes m.fields, [], ?_, ?_⟩
    · rw [h]
      exact leaves_none
    · rw [uris_withoutRoutes]
      rfl

theorem strictNext_follows (hleft : Left m c lumps) (h : strictNext cfg m c lumps = some out) :
    Follows m out (strictHop cfg m c.routes)
      (c.place.passed = [] ∨ cfg.strict c.place.rt.uri = true ∨ c.routes ≠ [c.place.rt.uri]) := by
  have hroutes := nextFields_uris c
  obtain ⟨xs, hxs⟩ : ∃ xs, c.routes = c.place.rt.uri :: xs := ⟨_, rfl⟩
  unfold strictNext at h
  split at h
  · rename_i hstrict
    cases h
    have hplan : strictHop cfg m c.routes =
        { uri := c.place.rt.uri, dst := none, routes := xs } := by
      rw [hxs, strictHop, if_pos hstrict]
    rw [hplan]
    refine ⟨rfl, rfl, fun _ => ⟨_, [], leaves_removeTop hleft, ?_⟩⟩
    rw [hxs, List.cons.injEq] at hroutes
    rw [append_nil, hroutes.2]
  · rename_i hstrict
    cases hl : findRemTarget m with
    | none =>
      simp only [hl] at h
      cases h
    | some l =>
      simp only [hl] at h
      cases h
      have hplan : strictHop cfg m c.routes =
          { uri := m.routes.getLastD m.uri, dst := some c.place.rt.uri,
            routes := c.routes.dropLast } := by
        rw [hxs, strictHop, if_neg hstrict]
      rw [hplan]
      refine ⟨?_, rfl, fun hmore => ?_⟩
      · rw [getLastD_eq_getLast?, findRemTarget_uri hl]
      · by_cases hone : c.routes = [c.place.rt.uri]
        · have hpassed : c.place.passed = [] := by
            rcases hmore with hpassed | hpos | hne
            · exact hpassed
            · exact absurd hpos hstrict
            · exact absurd hone hne
          obtain ⟨fields, hleaves, huris⟩ :=
            leaves_removeLast_alone hleft hl hone hpassed
          refine ⟨fields, [], hleaves, ?_⟩
          rw [append_nil, huris, hone]
          rfl
        · obtain ⟨fields, hleaves, huris⟩ := leaves_removeLast hleft hl hone
          refine ⟨fields, [], hleaves, ?_⟩
          rw [append_nil]
          exact (dropLast_concat).symm.trans (congrArg List.dropLast huris)

/-- The only two URIs are in one header field, the first is of the process
itself and the second has a loose router. -/
def Overlap (cfg : Config) (m : Request) : Prop :=
  ∃ r r', m.routes = [r, r'] ∧ cfg.own r = true ∧ ¬cfg.strict r' = true ∧
    ∃ f ∈ m.fields, f.uris = [r, r']

theorem routes_parsed (hplace : c.place = Place.parsed c.hdr) :
    c.routes = c.hdr.uris ++ c.after.flatMap Field.uris := by
  rw [Cursor.routes, hplace]
  rfl

/-- The only two URIs are in one header field when the first has another one
behind it. -/
theorem uris_two {r r' : Bytes} (hplace : c.place = Place.parsed c.hdr)
    (htwo : c.routes = [r, r']) :
    c.place.rest ≠ [] ↔ c.hdr.uris = [r, r'] := by
  have hrest : c.place.rest = c.hdr.rest := by
    rw [hplace]
    rfl
  rw [routes_parsed hplace] at htwo
  rw [hrest]
  constructor
  · intro hne
    obtain ⟨x, xs, hx⟩ := exists_cons_of_ne_nil hne
    rw [RouteHf.uris, hx] at htwo ⊢
    simp only [map_cons, cons_append, List.cons.injEq, append_eq_nil_iff] at htwo
    obtain ⟨rfl, rfl, hnil, -⟩ := htwo
    rw [map_cons, hnil]
  · intro huris hnil
    rw [RouteHf.uris, hnil] at huris
    cases huris

theorem afterStrict_follows (hleft : Left m c [])
    (hroutes : c.routes = m.routes) (hplace : c.place = Place.parsed c.hdr)
    (h : afterStrict cfg m c = some out) :
    Follows m out (strictHop cfg m (strictRoutes cfg m.routes)) (¬Overlap cfg m) := by
  obtain ⟨xs, hxs⟩ : ∃ xs, c.routes = c.place.rt.uri :: xs := ⟨_, rfl⟩
  rw [← hroutes, hxs, strictRoutes]
  unfold afterStrict at h
  obtain ⟨_, h⟩ := Option.ite_none_left_eq_some.mp h
  by_cases hown : cfg.own c.place.rt.uri = true
  · simp only [if_pos hown] at h ⊢
    cases hleave : leaveRoute m c [] with
    | mk lumps next =>
      rw [hleave] at h
      cases next with
      | none =>
        obtain ⟨hlumps, hone⟩ := leaveRoute_none hleft hleave
        rw [hxs, List.cons.injEq] at hone
        cases h
        rw [hone.2]
        exact follows_none hlumps
      | some c' =>
        obtain ⟨hleft', hnext⟩ := leaveRoute_some hleft hleave
        have hafter := strictNext_follows hleft' h
        rw [hxs, List.cons.injEq] at hnext
        rw [hnext.2]
        refine hafter.mono fun hapart => ?_
        by_contra hcon
        rw [not_or, not_or, not_not] at hcon
        obtain ⟨hpassed, hstrict, hone⟩ := hcon
        rw [leaveRoute_passed hleave] at hpassed
        have htwo : c.routes = [c.place.rt.uri, c'.place.rt.uri] := by
          rw [hxs, hnext.2, hone]
        refine hapart ⟨c.place.rt.uri, c'.place.rt.uri, ?_, hown,
          hstrict, .route c.hdr, ?_, (uris_two hplace htwo).mp hpassed⟩
        · rw [← hroutes, htwo]
        · rw [hleft.fields]
          simp
  · simp only [if_neg hown] at h ⊢
    rw [← hxs]
    refine (strictNext_follows hleft h).mono fun _ => .inl ?_
    rw [hplace]
    rfl

theorem looseNext_follows (hleft : Left m c lumps) :
    Follows m (looseNext cfg m c lumps) (nextHop cfg m.uri c.routes)
      apart := by
  have hroutes := nextFields_uris c
  obtain ⟨xs, hxs⟩ : ∃ xs, c.routes = c.place.rt.uri :: xs := ⟨_, rfl⟩
  rw [looseNext]
  split
  · rename_i hstrict
    have hplan : nextHop cfg m.uri c.routes =
        { uri := c.place.rt.uri, dst := none, routes := xs ++ [m.uri] } := by
      rw [hxs, nextHop, if_pos hstrict]
    rw [hplan]
    refine ⟨rfl, rfl, fun _ => ⟨_, [m.uri], leaves_handleSr hleft, ?_⟩⟩
    rw [hxs, List.cons.injEq] at hroutes
    rw [hroutes.2]
  · rename_i hstrict
    have hplan : nextHop cfg m.uri c.routes =
        { uri := m.uri, dst := some c.place.rt.uri, routes := c.routes } := by
      rw [hxs, nextHop, if_neg hstrict]
    rw [hplan]
    refine ⟨rfl, rfl, fun _ => ⟨_, [], leaves_removePassed hleft, ?_⟩⟩
    rw [rtHdr_uris, append_nil]

theorem afterLoose_follows {preloaded : Bool} (hleft : Left m c []) (hroutes : c.routes = m.routes)
    (h : afterLoose cfg m preloaded c = some out) :
    Follows m out (nextHop cfg m.uri (looseRoutes cfg m.routes)) apart := by
  obtain ⟨xs, hxs⟩ : ∃ xs, c.routes = c.place.rt.uri :: xs := ⟨_, rfl⟩
  rw [← hroutes, hxs, looseRoutes]
  unfold afterLoose at h
  obtain ⟨_, h⟩ := Option.ite_none_left_eq_some.mp h
  by_cases hown : cfg.own c.place.rt.uri = true
  · simp only [if_pos hown] at h ⊢
    cases hleave : leaveRoute m c [] with
    | mk lumps next =>
      rw [hleave] at h
      cases next with
      | none =>
        obtain ⟨hlumps, hone⟩ := leaveRoute_none hleft hleave
        rw [hxs, List.cons.injEq] at hone
        cases h
        rw [hone.2]
        simp only [tail_nil, ite_self]
        exact follows_none hlumps
      | some c' =>
        obtain ⟨hleft', hnext⟩ := leaveRoute_some hleft hleave
        rw [hxs, List.cons.injEq] at hnext
        rw [hnext.2]
        by_cases hdouble : cfg.double c.place.rt.uri = true
        · simp only [if_pos hdouble] at h ⊢
          cases hleave' : leaveRoute m c' lumps with
          | mk lumps' next' =>
            rw [hleave'] at h
            cases next' with
            | none =>
              obtain ⟨hlumps, hone⟩ := leaveRoute_none hleft' hleave'
              cases h
              rw [hone]
              exact follows_none hlumps
            | some c'' =>
              obtain ⟨hleft'', hnext'⟩ :=
                leaveRoute_some hleft' hleave'
              rw [hnext', tail_cons]
              simp only [] at h
              obtain ⟨_, ⟨⟩⟩ := Option.ite_none_left_eq_some.mp h
              exact looseNext_follows hleft''
        · simp only [if_neg hdouble] at h ⊢
          obtain ⟨_, ⟨⟩⟩ := Option.ite_none_left_eq_some.mp h
          exact looseNext_follows hleft'
  · simp only [if_neg hown] at h ⊢
    cases h
    rw [← hxs]
    exact looseNext_follows hleft

/-- `loose_route` follows the plan. -/
theorem looseRoute_follows (h : looseRoute cfg m = some out) : Follows m out (planOf cfg m)
      (afterStrictRouter cfg m → ¬Overlap cfg m) := by
  unfold looseRoute at h
  rw [planOf]
  cases hfirst : findFirstRoute m with
  | none =>
    rw [hfirst] at h
    cases h
    obtain ⟨hroutes, ts, hfields⟩ := findFirstRoute_none hfirst
    have hlumps : ([] : List Lump) = lumpsOf (frontBlocks m m.fields) := by
      rw [hfields, frontBlocks, cutRoutes_others, ← keeps_append]
      exact (lumpsFrom_keeps _).symm
    rw [hroutes]
    split <;> exact follows_none hlumps
  | some c =>
    rw [hfirst] at h
    obtain ⟨hleft, hroutes, hplace⟩ := findFirstRoute_left hfirst
    simp only [] at h
    obtain ⟨_, h⟩ := Option.ite_none_left_eq_some.mp h
    cases htag : m.tag with
    | none =>
      rw [htag] at h
      cases h
    | some tag =>
      rw [htag] at h
      cases tag with
      | false =>
        have hnot : ¬afterStrictRouter cfg m := by
          rintro ⟨htrue, -⟩
          rw [htag] at htrue
          cases htrue
        rw [if_neg hnot]
        exact afterLoose_follows hleft hroutes h
      | true =>
        by_cases hown : cfg.own m.uri = true
        · simp only [if_pos hown] at h
          rw [if_pos ⟨htag, hown⟩]
          exact (afterStrict_follows hleft hroutes hplace h).mono
            fun hapart => hapart ⟨htag, hown⟩
        · simp only [if_neg hown] at h
          rw [if_neg (fun hafter => hown hafter.2)]
          exact afterLoose_follows hleft hroutes h

end Msicp.Rr
