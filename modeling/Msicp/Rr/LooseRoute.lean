import Msicp.Rr.Plan

/-!
# Loose routing and the procedure of RFC 3261

What is sent is as in RFC 3261 where the plan is and where no two removals
overlap, and only there.
-/

namespace Msicp.Rr

open Msicp.Support List
open Msicp.Lumps

variable {cfg : Config} {m : Request} {c : Cursor} {out : Out}

/-- The request as it is sent is one with the Request-URI, destination and
route set of the procedure, and none of its Route header fields is empty. -/
structure Conforms (cfg : Config) (m : Request) (out : Out) : Prop where
  uri : out.newUri.getD m.uri = (reference cfg m).uri
  dest : out.dstUri.getD (out.newUri.getD m.uri) = (reference cfg m).dest
  routes : (m.read out.lumps).flatMap Piece.uris = (reference cfg m).routes
  fields : ∃ fields saved, Leaves m out.lumps fields saved

/-! ## The plan and the procedure -/

/-- Request-URI, destination and route set are the same. -/
structure Target.Same (t t' : Target) : Prop where
  uri : t.uri = t'.uri
  dest : t.dest = t'.dest
  routes : t.routes = t'.routes

theorem Target.Same.refl (t : Target) : t.Same t := ⟨rfl, rfl, rfl⟩

/-- With a request from a strict router: the restored URI is not one that the
process takes for its own, and no two URIs recorded together are at the top. -/
def StrictRegular (cfg : Config) (m : Request) : List Bytes → Prop
  | [] => True
  | [r] => cfg.own r = true → m.uri = r
  | r :: r' :: rs =>
    cfg.own r = true → cfg.double r = true → cfg.own r' = true → cfg.double m.uri = true ∨ rs = []

/-- With any other request: the second of two URIs that were recorded together
is one of the process itself. -/
def LooseRegular (cfg : Config) : List Bytes → Prop
  | r :: r' :: _ =>
    cfg.own r = true → cfg.double r = true → cfg.own r' = true
  | _ => True

/-- The plan is that of the procedure, and the removals do not overlap. -/
def Regular (cfg : Config) (m : Request) : Prop :=
  if afterStrictRouter cfg m then
    StrictRegular cfg m m.routes ∧ ¬Overlap cfg m
  else LooseRegular cfg m.routes

theorem nextHop_length (cfg : Config) (uri : Bytes) (rs : List Bytes) :
    (nextHop cfg uri rs).routes.length = rs.length := by
  cases rs with
  | nil => rfl
  | cons r rs =>
    rw [nextHop]
    split <;> simp

theorem not_same_cons (cfg : Config) (uri r : Bytes) (rs : List Bytes) :
    ¬(nextHop cfg uri (r :: rs)).Same (nextHop cfg uri rs) := by
  intro hsame
  have hlen := congrArg List.length hsame.routes
  simp only [nextHop_length, length_cons] at hlen
  omega

theorem reference_concat {rs : List Bytes} {last : Bytes}
    (hafter : afterStrictRouter cfg m) (hroutes : m.routes = rs ++ [last]) :
    reference cfg m = nextHop cfg last (removeOwn cfg (cfg.double m.uri) rs) := by
  have hsplit : splitPair cfg m = cfg.double m.uri := by
    rw [splitPair, decide_eq_true hafter, Bool.true_and]
  have hrestore : restoreUri cfg m = (last, rs) := by
    rw [restoreUri, if_pos hafter, hroutes, getLast?_concat, dropLast_concat]
  rw [reference, hrestore, hsplit]

theorem reference_not_strict (hafter : ¬afterStrictRouter cfg m) :
    reference cfg m = nextHop cfg m.uri (removeOwn cfg false m.routes) := by
  have hsplit : splitPair cfg m = false := by
    rw [splitPair, decide_eq_false hafter, Bool.false_and]
  have hrestore : restoreUri cfg m = (m.uri, m.routes) := if_neg hafter
  rw [reference, hrestore, hsplit]

theorem looseRoutes_iff (rs : List Bytes) :
    (nextHop cfg m.uri (looseRoutes cfg rs)).Same (nextHop cfg m.uri (removeOwn cfg false rs)) ↔
      LooseRegular cfg rs := by
  match rs with
  | [] => exact iff_of_true (Target.Same.refl _) trivial
  | [r] =>
    have hrest : looseRoutes cfg [r] = removeOwn cfg false [r] := by
      simp [looseRoutes, removeOwn]
    rw [hrest]
    exact iff_of_true (Target.Same.refl _) trivial
  | r :: r' :: rs =>
    rw [LooseRegular, looseRoutes, removeOwn]
    by_cases hown : cfg.own r = true
    · by_cases hdouble : cfg.double r = true
      · by_cases hown' : cfg.own r' = true
        · simpa [hown, hdouble, hown'] using Target.Same.refl _
        · have hne : ¬(nextHop cfg m.uri rs).Same (nextHop cfg m.uri (r' :: rs)) := fun hsame =>
            not_same_cons cfg m.uri r' rs ⟨hsame.uri.symm, hsame.dest.symm, hsame.routes.symm⟩
          simp [hown, hdouble, hown', hne]
      · simpa [hown, hdouble] using Target.Same.refl _
    · simpa [hown] using Target.Same.refl _

theorem strictHop_concat {rs front : List Bytes} {x last : Bytes}
    (hroutes : m.routes = front ++ [last]) :
    strictHop cfg m (x :: (rs ++ [last])) = nextHop cfg last (x :: rs) := by
  rw [strictHop, nextHop, hroutes, getLastD_eq_getLast?,
    getLast?_concat, ← cons_append, dropLast_concat]
  rfl

theorem strictHop_one {front : List Bytes} {x : Bytes} (hroutes : m.routes = front ++ [x]) :
    (strictHop cfg m [x]).Same { uri := x, dst := none, routes := [] } := by
  rw [strictHop, hroutes, getLastD_eq_getLast?, getLast?_concat]
  split
  · exact Target.Same.refl _
  · exact ⟨rfl, rfl, rfl⟩

theorem strictRoutes_iff (hafter : afterStrictRouter cfg m) :
    (strictHop cfg m (strictRoutes cfg m.routes)).Same (reference cfg m) ↔
      StrictRegular cfg m m.routes := by
  match hroutes : m.routes with
  | [] =>
    have href : reference cfg m = ⟨m.uri, none, []⟩ := by
      rw [reference, restoreUri, if_pos hafter, hroutes]
      rfl
    rw [href]
    exact iff_of_true (Target.Same.refl _) trivial
  | [r] =>
    have href : reference cfg m = ⟨r, none, []⟩ :=
      @reference_concat cfg m [] r hafter hroutes
    rw [href, strictRoutes, StrictRegular]
    by_cases hown : cfg.own r = true
    · rw [if_pos hown]
      constructor
      · exact fun hsame _ => hsame.uri
      · intro huri
        rw [strictHop, huri hown]
        exact Target.Same.refl _
    · rw [if_neg hown]
      exact iff_of_true (@strictHop_one cfg m [] r hroutes) (fun h => absurd h hown)
  | r :: r' :: rs =>
    rw [strictRoutes, StrictRegular]
    rcases eq_nil_or_concat rs with rfl | ⟨rs₀, last, hrs⟩
    · have href := @reference_concat cfg m [r] r' hafter hroutes
      rw [href, removeOwn]
      by_cases hown : cfg.own r = true
      · rw [if_pos hown, if_pos hown]
        exact iff_of_true (@strictHop_one cfg m [r] r' hroutes) (fun _ _ _ => .inr rfl)
      · have hlast := @strictHop_concat cfg m [] [r] r r' hroutes
        rw [nil_append] at hlast
        rw [if_neg hown, if_neg hown, hlast]
        exact iff_of_true (Target.Same.refl _) (fun h => absurd h hown)
    · rw [concat_eq_append] at hrs
      subst hrs
      have href := @reference_concat cfg m (r :: r' :: rs₀) last hafter hroutes
      rw [href, removeOwn]
      by_cases hown : cfg.own r = true
      · have hlast := @strictHop_concat cfg m rs₀ (r :: r' :: rs₀) r' last hroutes
        rw [if_pos hown, if_pos hown, hlast]
        by_cases hpair : (!cfg.double m.uri && cfg.double r && cfg.own r') = true
        · simp only [if_pos hpair]
          simp only [Bool.and_eq_true, Bool.not_eq_true'] at hpair
          refine iff_of_false (not_same_cons cfg last r' rs₀) fun h => ?_
          have huri := h hown hpair.1.2 hpair.2
          simp [hpair.1.1] at huri
        · simp only [if_neg hpair]
          refine iff_of_true (Target.Same.refl _) fun _ hdouble hown' => ?_
          rw [hdouble, hown', Bool.and_true, Bool.and_true,
            Bool.not_eq_true', Bool.not_eq_false] at hpair
          exact .inl hpair
      · have hlast := @strictHop_concat cfg m (r' :: rs₀) (r :: r' :: rs₀) r last hroutes
        rw [cons_append] at hlast
        rw [if_neg hown, if_neg hown, hlast]
        exact iff_of_true (Target.Same.refl _) (fun h => absurd h hown)

theorem planOf_iff : (planOf cfg m).Same (reference cfg m) ↔
    if afterStrictRouter cfg m then StrictRegular cfg m m.routes
    else LooseRegular cfg m.routes := by
  rw [planOf]
  by_cases hafter : afterStrictRouter cfg m
  · rw [if_pos hafter, if_pos hafter]
    exact strictRoutes_iff hafter
  · rw [if_neg hafter, if_neg hafter, reference_not_strict hafter]
    exact looseRoutes_iff m.routes

/-! ## Removals that overlap -/

theorem name_mem_pieces {name : Text} {fields : List Field} (h : .name name ∈ fieldPieces fields) :
    fields.flatMap Field.uris ≠ [] := by
  obtain ⟨f, hf, hname⟩ := mem_flatMap.mp h
  cases f with
  | other text => cases mem_singleton.mp hname
  | route hdr =>
    have huri : hdr.first.uri ∈ fields.flatMap Field.uris :=
      mem_flatMap.mpr ⟨.route hdr, hf, mem_cons_self⟩
    exact ne_nil_of_mem huri

/-- A header field with all URIs of the route set is the first one for Route. -/
theorem hdr_uris_of_mem {r r' : Bytes} {f : Field} {lumps : List Lump}
    (hleft : Left m c lumps) (hplace : c.place = Place.parsed c.hdr)
    (hroutes : m.routes = [r, r']) (hcroutes : c.routes = [r, r'])
    (hf : f ∈ m.fields) (huris : f.uris = [r, r']) :
    c.hdr.uris = [r, r'] := by
  have hparsed := routes_parsed hplace
  rw [hcroutes] at hparsed
  have hlen := congrArg List.length hparsed
  have hhdr : c.hdr.uris.length = c.hdr.rest.length + 1 := by
    simp [RouteHf.uris]
  have hsplit : m.routes = c.before.flatMap Field.uris ++ [r, r'] := by
    rw [Request.routes, hleft.fields, flatMap_append, flatMap_cons, hparsed]
    rfl
  rw [hroutes] at hsplit
  have hnone : c.before.flatMap Field.uris = [] :=
    (self_eq_append_left.mp hsplit)
  rw [hleft.fields, mem_append, mem_cons] at hf
  rcases hf with hbefore | rfl | hbehind
  · rw [flatMap_eq_nil_iff.mp hnone f hbefore] at huris
    cases huris
  · exact huris
  · obtain ⟨xs, ys, hxs⟩ := append_of_mem hbehind
    rw [hxs, flatMap_append, flatMap_cons, huris] at hlen
    simp only [List.length_append, length_cons, length_nil] at hlen
    omega

/-- The Route header field that the two URIs were in is left without any. -/
theorem overlap_not_conforms (hafter : afterStrictRouter cfg m)
    (hover : Overlap cfg m) (h : looseRoute cfg m = some out) :
    ¬Conforms cfg m out := by
  obtain ⟨r, r', hroutes, hown, hstrict, f, hf, huris⟩ := hover
  intro hconf
  have href : reference cfg m = ⟨r', none, []⟩ := by
    have hrest := @reference_concat cfg m [r] r' hafter hroutes
    rw [removeOwn, if_pos hown] at hrest
    exact hrest
  unfold looseRoute at h
  cases hfirst : findFirstRoute m with
  | none =>
    obtain ⟨hnil, -⟩ := findFirstRoute_none hfirst
    rw [hroutes] at hnil
    cases hnil
  | some c =>
    obtain ⟨hleft, hcroutes, hplace⟩ := findFirstRoute_left hfirst
    rw [hroutes] at hcroutes
    have hrest : c.place.rest ≠ [] := (uris_two hplace hcroutes).mpr
      (hdr_uris_of_mem hleft hplace hroutes hcroutes hf huris)
    have hrt : c.place.rt.uri = r := (List.cons.inj hcroutes).1
    simp only [hfirst, hafter.1, if_pos hafter.2] at h
    split at h
    · cases h
    unfold afterStrict at h
    simp only [hrt, if_pos hown] at h
    split at h
    · cases h
    cases hleave : leaveRoute m c [] with
    | mk lumps next =>
      rw [hleave] at h
      cases next with
      | none =>
        obtain ⟨-, hone⟩ := leaveRoute_none hleft hleave
        rw [hcroutes] at hone
        cases hone
      | some c' =>
        obtain ⟨hleft', hnext⟩ := leaveRoute_some hleft hleave
        have hpassed : c'.place.passed ≠ [] := fun hnil =>
          hrest ((leaveRoute_passed hleave).mp hnil)
        rw [hcroutes, hrt, List.cons.injEq] at hnext
        have hrt' : c'.place.rt.uri = r' :=
          (List.cons.inj hnext.2.symm).1
        have hone : c'.routes = [c'.place.rt.uri] := by
          rw [← hnext.2, hrt']
        simp only [strictNext, hrt', if_neg hstrict] at h
        cases hl : findRemTarget m with
        | none =>
          rw [hl] at h
          cases h
        | some l =>
          rw [hl] at h
          cases h
          have hname := name_mem_read hleft' hl hone hpassed
          obtain ⟨fields, saved, hleaves⟩ := hconf.fields
          have hnone := hleaves.uris.symm.trans hconf.routes
          rw [href, append_eq_nil_iff] at hnone
          have hmem := hleaves.read ▸ hname
          have hpieces : .name c'.hdr.name ∈ fieldPieces fields := by
            simpa using hmem
          exact name_mem_pieces hpieces hnone.1

/-- A process with the address `p`. -/
def demoConfig : Config where
  enableDoubleRr := true
  checkSelf host port := host = ascii "p" && port = 5060
  badParams _ := []

def demoText (s : String) (h : ascii s ≠ [] := by decide) : Text := ⟨ascii s, h⟩

/-- A request along `p` and `q`. -/
def routedRequest : Request where
  front := demoText "BYE sip:b SIP/2.0\r\n"
  uri := ascii "sip:b"
  fields :=
    [.route
      { name := demoText "Route: "
        first := { text := demoText "<sip:p;lr>", uri := ascii "sip:p;lr" }
        rest := [(demoText ",",
          { text := demoText "<sip:q;lr>", uri := ascii "sip:q;lr" })]
        tail := demoText "\r\n" }]
  back := demoText "\r\n"
  tag := some true

/-- The same from a strict router. -/
def overlapRequest : Request :=
  { routedRequest with
    front := demoText "BYE sip:p SIP/2.0\r\n", uri := ascii "sip:p" }

end Msicp.Rr
