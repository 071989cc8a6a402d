import Msicp.Support.Machine
import Msicp.Dialog.Responses

/-!
# The hooks of a dialog

Request-URI, next hop and Route header fields as RFC 3261, 12.2.1.1 prescribes
them, against what is read through the hooks.  The hooks are right as long as
the remote target is not replaced under them.
-/

namespace Msicp.Dialog

open Msicp.Support List Option Dlg HeapStr

/-- Where a request goes and which Route header fields it has. -/
structure RouteUse where
  requestUri : Bytes
  nextHop : Bytes
  routes : List Bytes
  last : Option Bytes
  deriving DecidableEq

/-- The URI in a header field body. -/
def rawUri (s : Bytes) : Option Bytes :=
  (rawUriAt s).map fun x => (s.drop x.1).take x.2

/-- RFC 3261, 12.2.1.1.  A strict router gets the request with its own URI,
and the remote target as the last route. -/
def prescribed (target : Bytes) (routes : List RrBody) : Option RouteUse :=
  match routes with
  | [] => (rawUri target).map fun u => ⟨u, u, [], none⟩
  | r :: rs =>
    match uriLr true r.uri with
    | .error _ => none
    | .ok true =>
      (rawUri target).map fun u =>
        ⟨u, r.uri, (r :: rs).map RrBody.text, none⟩
    | .ok false => some ⟨r.uri, r.uri, rs.map RrBody.text, some target⟩

/-- The remote target, or the remote URI if there is none. -/
def Dlg.targetStr (d : Dlg) : HeapStr :=
  if d.remTarget.s.isSome then d.remTarget else d.remUri

/-- The route through `first_route`, if it is a node of the dialog. -/
def Dlg.readRoutes (d : Dlg) : Option (List Bytes) :=
  match d.hooks.firstRoute with
  | none => some []
  | some node =>
    if node ∈ d.routeSet.map Rr.addr then
      some ((d.routesFrom (some node)).map fun r => r.body.text)
    else none

/-- The text at `last_route`, if the pointer is not null. -/
def Dlg.readLast (d : Dlg) : Option (Option Bytes) :=
  match d.hooks.lastRoute with
  | .null => some none
  | p => (d.read (d.deref p)).map some

/-- What the hooks say; nothing if one points to memory that is not the
dialog's. -/
def Dlg.used (d : Dlg) : Option RouteUse := do
  let requestUri ← d.read (d.deref d.hooks.requestUri)
  let nextHop ← d.read (d.deref d.hooks.nextHop)
  let routes ← d.readRoutes
  let last ← d.readLast
  some ⟨requestUri, nextHop, routes, last⟩

/-- The hooks are those prescribed for the remote target and the route set, and
they all point into memory of the dialog. -/
def Dlg.HooksRight (d : Dlg) : Prop :=
  d.used.isSome ∧ d.used = prescribed d.targetStr.text (d.routeSet.map Rr.body)

/-! ## Reading the memory of a dialog -/

variable {s : Bytes} {d : Dlg} {r : Rr} {rs : List Rr}

theorem findNotQuoted_lt {c : UInt8} {quoted : Bool} {prev : UInt8}
    {i : ℕ} (h : findNotQuoted c quoted prev s = some i) :
    i < s.length := by
  induction s generalizing quoted prev i with
  | nil => simp [findNotQuoted] at h
  | cons x s ih =>
    simp only [findNotQuoted] at h
    split at h
    · obtain ⟨j, hj, rfl⟩ := map_eq_some_iff.mp h
      have := ih hj
      simpa using this
    · split at h
      · obtain ⟨j, hj, rfl⟩ := map_eq_some_iff.mp h
        have := ih hj
        simpa using this
      · split at h
        · obtain rfl : 0 = i := by simpa using h
          simp
        · obtain ⟨j, hj, rfl⟩ := map_eq_some_iff.mp h
          have := ih hj
          simpa using this

theorem rawUriAt_le {i n : ℕ} (h : rawUriAt s = some (i, n)) : i + n ≤ s.length := by
  unfold rawUriAt at h
  split at h
  · obtain ⟨j, hj, heq⟩ := map_eq_some_iff.mp h
    have := findNotQuoted_lt hj
    simp only [Prod.mk.injEq] at heq
    omega
  · simp only [some.injEq, Prod.mk.injEq] at h
    omega

theorem find_of_nodup_map {α : Type*} (f : α → Addr) {l : List α}
    (h : (l.map f).Nodup) {a : α} (ha : a ∈ l) :
    l.find? (fun x => f x = f a) = some a := by
  induction l with
  | nil => cases ha
  | cons x l ih =>
    rw [map_cons, nodup_cons] at h
    rcases mem_cons.mp ha with rfl | ha
    · simp
    · have hne : f x ≠ f a := fun heq =>
        h.1 (heq ▸ List.mem_map_of_mem ha)
      rw [find?_cons_of_neg (by simpa using hne)]
      exact ih h.2 ha

theorem Dlg.read_slice (hd : d.addrs.Nodup) {b : Blk}
    (hb : b ∈ d.owned) {off len : ℕ} (hlen : off + len ≤ b.text.length) :
    d.read (.slice b.addr off len) = some ((b.text.drop off).take len) := by
  rw [read, find_of_nodup_map Blk.addr hd hb, bind_some, if_pos hlen]

theorem Dlg.nodup_routes (hd : d.addrs.Nodup) : (d.routeSet.map Rr.addr).Nodup := by
  rw [addrs_eq] at hd
  exact (List.nodup_append.mp hd).2.1

theorem Dlg.mem_owned_route (hr : r ∈ d.routeSet) : r.blk ∈ d.owned := by
  simp only [owned, mem_append]
  exact .inr (List.mem_map_of_mem hr)

theorem Dlg.mem_owned_target {b : Blk} (hb : d.targetStr.s = some b) : b ∈ d.owned := by
  unfold targetStr at hb
  simp only [owned, mem_append]
  split at hb
  · exact .inl (.inr (by simp [blks, hb]))
  · exact .inl (.inl (.inr (by simp [blks, hb])))

theorem Dlg.read_uriVal (hd : d.addrs.Nodup)
    (hr : r ∈ d.routeSet) : d.read r.uriVal = some r.body.uri := by
  have hlen : r.body.name.length + r.body.uri.length ≤ r.blk.text.length := by
    simp [Rr.blk, RrBody.text]
  have hread := read_slice hd (mem_owned_route hr) hlen
  rw [show r.blk.addr = r.addr from rfl] at hread
  rw [Rr.uriVal, hread]
  simp [Rr.blk, RrBody.text]

/-- Where the URI in a string lies. -/
def HeapStr.uriVal (s : HeapStr) : StrVal :=
  match s.s, rawUriAt s.text with
  | some b, some (i, n) => .slice b.addr i n
  | _, _ => .wild

theorem rawUriAt_uri (r : RrBody) : rawUriAt r.uri = some (0, r.uri.length) :=
  if_neg r.bare

theorem Dlg.getRawUri_route (hd : d.addrs.Nodup)
    (hr : r ∈ d.routeSet) : d.getRawUri r.uriVal = r.uriVal := by
  have hread := read_uriVal hd hr
  unfold Rr.uriVal at hread ⊢
  rw [getRawUri, hread, bind_some, rawUriAt_uri]
  rfl

/-! ## The hooks as they are calculated -/

/-- What is found in the four hooks. -/
structure HookVals where
  request : StrVal
  hop : StrVal
  first : Option Addr
  last : StrPtr

def Dlg.hookVals (d : Dlg) : HookVals :=
  ⟨d.deref d.hooks.requestUri, d.deref d.hooks.nextHop, d.hooks.firstRoute, d.hooks.lastRoute⟩

/-- What belongs into the four hooks, if the URI of the target lies there. -/
def valsFor (target : StrVal) : List Rr → HookVals
  | [] => ⟨target, target, none, .null⟩
  | r :: rs =>
    match uriLr true r.body.uri with
    | .ok false =>
      ⟨r.uriVal, r.uriVal, rs.head?.map Rr.addr, .remTarget⟩
    | _ => ⟨target, r.uriVal, some r.addr, .null⟩

def Dlg.rightVals (d : Dlg) : HookVals :=
  valsFor d.targetStr.uriVal d.routeSet

/-- The first route is a strict router. -/
def StrictRoute : List Rr → Prop
  | [] => False
  | r :: _ => uriLr true r.body.uri = .ok false

theorem valsFor_congr {v v' : StrVal}
    (h : StrictRoute rs ∨ v = v') : valsFor v rs = valsFor v' rs := by
  rcases h with h | rfl
  · cases rs with
    | nil => exact h.elim
    | cons r rs =>
      unfold StrictRoute at h
      simp only [valsFor, h]
  · rfl

/-- The hooks can be calculated from the remote target, if there is one, the
remote URI and the route set. -/
def Determined (pkg : Bool) (target : Option Bytes) (remUri : Bytes)
    (routes : List RrBody) : Prop :=
  match routes with
  | [] => (rawUriAt (target.getD remUri)).isSome
  | r :: _ =>
    match uriLr pkg r.uri with
    | .error _ => False
    | .ok true => (rawUriAt (target.getD remUri)).isSome
    | .ok false => target.isSome

/-- The strings of the dialog are as they should be. -/
structure Sound (d : Dlg) : Prop where
  addrs : d.addrs.Nodup
  remUri : d.remUri.s.isSome
  remUriExact : d.remUri.Exact
  targetExact : d.remTarget.s.isSome → d.remTarget.Exact
  targetNe : d.remTarget.s.isSome → d.remTarget.len ≠ 0

def Dlg.Determined (pkg : Bool) (d : Dlg) : Prop :=
  Dialog.Determined pkg (d.remTarget.s.map Blk.text) d.remUri.text (d.routeSet.map Rr.body)

/-- The hooks are as `calculate_hooks` would set them now. -/
structure UpToDate (d : Dlg) : Prop where
  vals : d.hookVals = d.rightVals
  request : d.hooks.requestUri ≠ .remTarget
  hop : d.hooks.nextHop ≠ .remTarget

/-- Memory that is left makes no other answer of one that was given. -/
theorem uriLr_of_ok {pkg lr : Bool} {uri : Bytes} (h : uriLr pkg uri = .ok lr) :
    uriLr true uri = .ok lr := by
  cases pkg with
  | true => exact h
  | false =>
    unfold uriLr at h ⊢
    split at h
    · cases h
    · rename_i puri heq
      cases hs : puri.params.s with
      | none => simpa [hs, parseParams] using h
      | some a => simp [hs, parseParams] at h

theorem Dlg.targetStr_text (d : Dlg) :
    d.targetStr.text = (d.remTarget.s.map Blk.text).getD d.remUri.text := by
  unfold targetStr
  cases h : d.remTarget.s <;> simp [h, text]

theorem Sound.target_blk (hs : Sound d) : ∃ b, d.targetStr.s = some b ∧ b.text = d.targetStr.text ∧
      d.targetStr.len = b.text.length := by
  have hsome : d.targetStr.s.isSome := by
    unfold targetStr
    split
    · assumption
    · exact hs.remUri
  obtain ⟨b, hb⟩ := isSome_iff_exists.mp hsome
  have htext : d.targetStr.text = b.text := by simp [text, hb]
  refine ⟨b, hb, htext.symm, ?_⟩
  rw [← htext]
  unfold targetStr
  split
  · exact hs.targetExact ‹_›
  · exact hs.remUriExact

theorem Sound.read_target (hs : Sound d) (hraw : (rawUriAt d.targetStr.text).isSome) :
    d.read d.targetStr.uriVal = rawUri d.targetStr.text := by
  obtain ⟨b, hb, htext, -⟩ := hs.target_blk
  obtain ⟨⟨i, n⟩, hin⟩ := isSome_iff_exists.mp hraw
  have hval : d.targetStr.uriVal = .slice b.addr i n := by
    simp [uriVal, hb, hin]
  have hle : i + n ≤ b.text.length := by
    rw [htext]
    exact rawUriAt_le hin
  rw [hval, read_slice hs.addrs (mem_owned_target hb) hle, rawUri, hin, htext]
  rfl

theorem rawUri_isSome : (rawUri s).isSome ↔ (rawUriAt s).isSome := by
  simp [rawUri]

theorem Sound.read_remTarget (hs : Sound d) (hsome : d.remTarget.s.isSome) :
    d.read (d.deref .remTarget) = some d.targetStr.text := by
  obtain ⟨b, hb, htext, hlen⟩ := hs.target_blk
  have hstr : d.targetStr = d.remTarget := if_pos hsome
  have hval : d.deref .remTarget = .slice b.addr 0 b.text.length := by
    rw [hstr] at hb hlen
    simp [deref, val, hb, hlen]
  rw [hval, read_slice hs.addrs (mem_owned_target hb) (by omega), htext]
  simp

theorem Dlg.readRoutes_tail (hd : (d.routeSet.map Rr.addr).Nodup) (hroutes : d.routeSet = r :: rs)
    (hfirst : d.hooks.firstRoute = rs.head?.map Rr.addr) :
    d.readRoutes = some (rs.map fun r => r.body.text) := by
  rw [readRoutes, hfirst]
  cases rs with
  | nil => rfl
  | cons r' rs =>
    rw [hroutes] at hd
    have hne : r.addr ≠ r'.addr := by
      intro heq
      simp [heq] at hd
    simp [routesFrom, hroutes, hne]

theorem UpToDate.hooksRight (h : UpToDate d) (hs : Sound d)
    (hd : d.Determined true) : d.HooksRight := by
  have hrequest := congrArg HookVals.request h.vals
  have hhop := congrArg HookVals.hop h.vals
  have hfirst := congrArg HookVals.first h.vals
  have hlast := congrArg HookVals.last h.vals
  simp only [hookVals, rightVals, valsFor] at hrequest hhop hfirst hlast
  simp only [Dlg.Determined, Dialog.Determined, ← targetStr_text] at hd
  have hnodup := nodup_routes hs.addrs
  unfold HooksRight used
  rw [hrequest, hhop]
  cases hroutes : d.routeSet with
  | nil =>
    simp only [hroutes, map_nil] at hd hfirst hlast ⊢
    rw [hs.read_target hd, prescribed, readRoutes, hfirst, readLast, hlast]
    obtain ⟨u, hu⟩ := isSome_iff_exists.mp (rawUri_isSome.mpr hd)
    simp [hu]
  | cons r rs =>
    have hmem : r ∈ d.routeSet := by simp [hroutes]
    simp only [hroutes, map_cons] at hd hfirst hlast ⊢
    rw [prescribed]
    cases hlr : uriLr true r.body.uri with
    | error e => simp [hlr] at hd
    | ok lr =>
      cases lr with
      | true =>
        simp only [hlr] at hd hfirst hlast ⊢
        obtain ⟨u, hu⟩ := isSome_iff_exists.mp (rawUri_isSome.mpr hd)
        rw [hs.read_target hd, read_uriVal hs.addrs hmem, readRoutes,
          hfirst, readLast, hlast]
        simp [hu, routesFrom, hroutes]
      | false =>
        simp only [hlr] at hd hfirst hlast ⊢
        have hsome : d.remTarget.s.isSome := by simpa using hd
        rw [read_uriVal hs.addrs hmem,
          readRoutes_tail hnodup hroutes hfirst, readLast, hlast]
        simp [hs.read_remTarget hsome]

/-! ## Calculating them -/

/-- The pointer does not point to `ru` or `nh`. -/
def StrPtr.Base (p : StrPtr) : Prop := p ≠ .ru ∧ p ≠ .nh

theorem Dlg.setUris_deref {p : StrPtr} (hp : p.Base) : d.setUris.deref p = d.deref p := by
  cases p with
  | ru => exact absurd rfl hp.1
  | nh => exact absurd rfl hp.2
  | null => rfl
  | remTarget => rfl
  | remUri => rfl
  | routeUri node => rfl

theorem Dlg.getRawUri_empty {v : StrVal}
    (hread : (d.read v).isSome) (hv : ¬v.notEmpty) : d.getRawUri v = v := by
  cases v with
  | null => rfl
  | wild => simp [StrVal.notEmpty] at hv
  | slice blk off len =>
    have hlen : len = 0 := by simpa [StrVal.notEmpty] using hv
    subst hlen
    obtain ⟨s, hs⟩ := isSome_iff_exists.mp hread
    have hnil : s = [] := by
      simp only [read, bind_eq_some_iff] at hs
      obtain ⟨b, -, hb⟩ := hs
      split at hb
      · simpa using hb.symm
      · cases hb
    rw [getRawUri, hs, hnil]
    rfl

theorem Dlg.setUris_request (hp : d.hooks.requestUri.Base)
    (hread : (d.read (d.deref d.hooks.requestUri)).isSome) :
    d.setUris.deref d.setUris.hooks.requestUri = d.getRawUri (d.deref d.hooks.requestUri) := by
  by_cases hne : (d.deref d.hooks.requestUri).notEmpty
  · have hptr : d.setUris.hooks.requestUri = .ru := by
      unfold setUris
      simp only [if_pos hne]
      split <;> rfl
    rw [hptr, deref, setUris]
    simp only [if_pos hne]
    split <;> rfl
  · have hptr : d.setUris.hooks.requestUri = d.hooks.requestUri := by
      unfold setUris
      simp only [if_neg hne]
      split <;> rfl
    rw [hptr, setUris_deref hp, getRawUri_empty hread hne]

theorem Dlg.setUris_hop (hp : d.hooks.nextHop.Base)
    (hread : (d.read (d.deref d.hooks.nextHop)).isSome) :
    d.setUris.deref d.setUris.hooks.nextHop = d.getRawUri (d.deref d.hooks.nextHop) := by
  by_cases hne : (d.deref d.hooks.nextHop).notEmpty
  · have hptr : d.setUris.hooks.nextHop = .nh := by
      unfold setUris
      simp only [if_pos hne]
    rw [hptr, deref, setUris]
    simp only [if_pos hne]
  · have hptr : d.setUris.hooks.nextHop = d.hooks.nextHop := by
      unfold setUris
      simp only [if_neg hne]
      split <;> rfl
    rw [hptr, setUris_deref hp, getRawUri_empty hread hne]

theorem Sound.notEmpty_remTarget (hs : Sound d) (hread : (d.read (d.deref .remTarget)).isSome) :
    (d.deref .remTarget).notEmpty := by
  cases hsome : d.remTarget.s with
  | none => simp [deref, val, hsome, Dlg.read] at hread
  | some b =>
    have hne := hs.targetNe (by simp [hsome])
    simpa [deref, val, hsome, StrVal.notEmpty] using hne

theorem setUris_upToDate (hs : Sound d)
    (hrequest : d.hooks.requestUri.Base) (hhop : d.hooks.nextHop.Base)
    (hreadRequest : (d.read (d.deref d.hooks.requestUri)).isSome)
    (hreadHop : (d.read (d.deref d.hooks.nextHop)).isSome)
    (hvals : HookVals.mk (d.getRawUri (d.deref d.hooks.requestUri))
      (d.getRawUri (d.deref d.hooks.nextHop)) d.hooks.firstRoute
      d.hooks.lastRoute = d.rightVals) : UpToDate d.setUris := by
  refine ⟨?_, ?_, ?_⟩
  · have hfirst : d.setUris.hooks.firstRoute = d.hooks.firstRoute := by
      simp only [setUris]
      split <;> split <;> rfl
    have hlast : d.setUris.hooks.lastRoute = d.hooks.lastRoute := by
      simp only [setUris]
      split <;> split <;> rfl
    rw [hookVals, setUris_request hrequest hreadRequest,
      setUris_hop hhop hreadHop, hfirst, hlast, hvals]
    rfl
  · intro heq
    by_cases hne : (d.deref d.hooks.requestUri).notEmpty
    · simp only [setUris, if_pos hne] at heq
      split at heq <;> cases heq
    · have hptr : d.hooks.requestUri = .remTarget := by
        simp only [setUris, if_neg hne] at heq
        split at heq <;> exact heq
      rw [hptr] at hne hreadRequest
      exact hne (hs.notEmpty_remTarget hreadRequest)
  · intro heq
    by_cases hne : (d.deref d.hooks.nextHop).notEmpty
    · simp only [setUris, if_pos hne] at heq
      cases heq
    · have hptr : d.hooks.nextHop = .remTarget := by
        simp only [setUris, if_neg hne] at heq
        split at heq <;> exact heq
      rw [hptr] at hne hreadHop
      exact hne (hs.notEmpty_remTarget hreadHop)

theorem Dlg.targetPtr_base (d : Dlg) : d.targetPtr.Base := by
  unfold targetPtr StrPtr.Base
  split <;> simp

theorem Dlg.deref_targetPtr (d : Dlg) : d.deref d.targetPtr = d.targetStr.val := by
  unfold targetPtr targetStr
  split <;> rfl

theorem Sound.read_targetVal (hs : Sound d) : d.read d.targetStr.val = some d.targetStr.text := by
  obtain ⟨b, hb, htext, hlen⟩ := hs.target_blk
  rw [val, hb, hlen]
  dsimp only
  rw [read_slice hs.addrs (mem_owned_target hb) (by omega), htext]
  simp

theorem Sound.getRawUri_target (hs : Sound d) :
    d.getRawUri d.targetStr.val = d.targetStr.uriVal := by
  obtain ⟨b, hb, htext, hlen⟩ := hs.target_blk
  have hread := hs.read_targetVal
  rw [uriVal]
  rw [val, hb] at hread ⊢
  dsimp only at hread ⊢
  rw [getRawUri, hread, bind_some]
  cases rawUriAt d.targetStr.text with
  | none => rfl
  | some x => simp only [Nat.zero_add]

theorem Dlg.deref_first (hroutes : d.routeSet = r :: rs) :
    d.deref (.routeUri r.addr) = r.uriVal := by
  simp [deref, hroutes]

theorem Sound.hooks (hs : Sound d) (h : Hooks) : Sound { d with hooks := h } :=
  ⟨hs.addrs, hs.remUri, hs.remUriExact, hs.targetExact, hs.targetNe⟩

theorem calculateHooks_upToDate {pkg : Bool} (hs : Sound d)
    (hd : d.Determined pkg) (hfirst : d.hooks.firstRoute = none)
    (hlast : d.hooks.lastRoute = .null) :
    (calculateHooks pkg d).1 = 0 ∧ UpToDate (calculateHooks pkg d).2 := by
  have hread := hs.read_targetVal
  have hraw := hs.getRawUri_target
  rw [← deref_targetPtr] at hread hraw
  have htarget : (d.read (d.deref d.targetPtr)).isSome := by simp [hread]
  unfold calculateHooks
  split
  · rename_i r rs hroutes
    have hmem : r ∈ d.routeSet := by simp [hroutes]
    have hderef := deref_first hroutes
    have hroute : (d.read (d.deref (.routeUri r.addr))).isSome := by
      simp [hderef, read_uriVal hs.addrs hmem]
    have huri := getRawUri_route hs.addrs hmem
    rw [← hderef] at huri
    have hbase : (StrPtr.routeUri r.addr).Base := by simp [StrPtr.Base]
    simp only [Dlg.Determined, Dialog.Determined, hroutes, map_cons] at hd
    cases hlr : uriLr pkg r.body.uri with
    | error e => simp [hlr] at hd
    | ok lr =>
      have hlr' := uriLr_of_ok hlr
      cases lr with
      | true =>
        refine ⟨rfl, setUris_upToDate (hs.hooks _) d.targetPtr_base hbase htarget hroute ?_⟩
        have hvals : d.rightVals = ⟨d.targetStr.uriVal, r.uriVal, some r.addr, .null⟩ := by
          simp only [rightVals, hroutes, valsFor, hlr']
        refine Eq.trans ?_ hvals.symm
        exact congr (congr (congr (congrArg HookVals.mk hraw) (huri.trans hderef)) rfl) hlast
      | false =>
        refine ⟨rfl, setUris_upToDate (hs.hooks _) hbase hbase hroute hroute ?_⟩
        have hvals : d.rightVals = ⟨r.uriVal, r.uriVal, rs.head?.map Rr.addr, .remTarget⟩ := by
          simp only [rightVals, hroutes, valsFor, hlr']
        refine Eq.trans ?_ hvals.symm
        exact congr (congr (congr (congrArg HookVals.mk (huri.trans hderef))
          (huri.trans hderef)) rfl) rfl
  · rename_i hroutes
    refine ⟨rfl, setUris_upToDate (hs.hooks _) d.targetPtr_base d.targetPtr_base htarget htarget ?_⟩
    have hvals : d.rightVals = ⟨d.targetStr.uriVal, d.targetStr.uriVal, none, .null⟩ := by
      simp only [rightVals, hroutes, valsFor]
    refine Eq.trans ?_ hvals.symm
    exact congr (congr (congr (congrArg HookVals.mk hraw) hraw) hfirst) hlast

end Msicp.Dialog
