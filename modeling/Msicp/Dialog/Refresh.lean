import Msicp.Dialog.Hooks

/-!
# Creating a dialog

What a dialog is made of when its hooks are calculated for the first time.
-/

namespace Msicp.Dialog

open Msicp.Support List

/-- The remote target that a contact stands for. -/
def contactTarget (contact : Bytes) : Option Bytes :=
  if contact = [] then none else some contact

variable {s : HeapStr} {d : Dlg} {shm : Shm}

theorem HeapStr.addrs_of_none (h : s.s = none) : s.addrs = [] := by
  simp [HeapStr.addrs, HeapStr.blks, h]

theorem IsCopy.nodup_addrs {d' : Dlg} {src : Bytes} (hs : IsCopy d.addrs src s) (hd : d.addrs.Nodup)
    (hcount : ∀ a, d'.addrs.count a = (d.addrs ++ s.addrs).count a) :
    d'.addrs.Nodup :=
  (perm_iff_count.mpr hcount).nodup_iff.mpr (hs.nodup_append hd)

theorem HeapStr.map_text (h : s.s.isSome ↔ s.text ≠ []) :
    s.s.map Blk.text = contactTarget s.text := by
  unfold contactTarget
  cases hs : s.s with
  | none =>
    have hnil : s.text = [] := by simp [HeapStr.text, hs]
    simp [hnil]
  | some b =>
    have hne : s.text ≠ [] := h.mp (by simp [hs])
    have hb : s.text = b.text := by simp [HeapStr.text, hs]
    rw [if_neg hne, hb]
    rfl

/-- A dialog just before its hooks are calculated. -/
structure Unhooked (d : Dlg) : Prop where
  sound : Sound d
  first : d.hooks.firstRoute = none
  last : d.hooks.lastRoute = .null

theorem newDlgUac_cases {cid ltag luri ruri : Bytes} {lseq : ℕ} {pkg : Bool}
    
    (h : newDlgUac cid ltag lseq luri ruri pkg shm = some d) :
    ∃ d₀, Unhooked d₀ ∧ Blank d₀ ∧ d₀.remUri.text = ruri ∧ d = (calculateHooks pkg d₀).2 := by
  unfold newDlgUac at h
  split at h
  · cases h
  rename_i s₁ shm₁ h₁
  dsimp only at h
  split at h
  · cases h
  rename_i s₂ shm₂ h₂
  split at h
  · cases h
  rename_i s₃ shm₃ h₃
  split at h
  · cases h
  rename_i s₄ shm₄ h₄
  split at h
  · cases h
  injection h with h
  obtain ⟨c₁, -⟩ := strDuplicate_ok h₁
  obtain ⟨c₂, -⟩ := strDuplicate_ok h₂
  obtain ⟨c₃, -⟩ := strDuplicate_ok h₃
  obtain ⟨c₄, hsome⟩ := strDuplicate_ok h₄
  refine ⟨_, ⟨⟨?_, hsome, c₄.exact, by simp, by simp⟩, rfl, rfl⟩, ⟨rfl, rfl, rfl⟩, c₄.text, h.symm⟩
  refine c₄.nodup_addrs (c₃.nodup_addrs (c₂.nodup_addrs ?_ ?_) ?_) ?_
  · simpa [Dlg.addrs_eq] using c₁.addrs
  all_goals
    intro a
    simp only [Dlg.addrs_eq, HeapStr.addrs_null, count_append, count_nil, map_nil]
    omega

theorem getDlgUri_ok {used : List Addr} {uri : Option Bytes}
    {shm' : Shm} (h : getDlgUri used uri shm = (true, s, shm')) :
    ∃ u, uri = some u ∧ IsCopy used u s ∧ s.s.isSome := by
  unfold getDlgUri at h
  split at h
  · cases h
  · exact ⟨_, rfl, strDuplicate_ok h⟩

/-- The remote data of the dialog are those of the request. -/
structure FromRequest (m : Msg) (d : Dlg) : Prop where
  target : ∃ contact, getContactUri m = some contact ∧
    d.remTarget.s.map Blk.text = contactTarget contact
  remUri : m.fromUri = some d.remUri.text
  routes : ∃ bodies : List (List RrBody), m.recordRoute = bodies.map some ∧
    d.routeSet.map Rr.body = bodies.flatten

theorem request2dlg_ok {m : Msg} {shm' : Shm} (h : request2dlg m shm = some (d, shm')) :
    FromRequest m d ∧ Sound d ∧ d.id.locTag = {} ∧ d.hooks = {} := by
  unfold request2dlg at h
  split at h
  · cases h
  obtain ⟨contact, hcontact, h⟩ := Option.bind_eq_some_iff.mp h
  split at h
  · cases h
  rename_i s₁ shm₁ h₁
  dsimp only at h
  obtain ⟨rtag, hrtag, h⟩ := Option.bind_eq_some_iff.mp h
  split at h
  · cases h
  rename_i s₂ shm₂ h₂
  obtain ⟨callid, hcallid, h⟩ := Option.bind_eq_some_iff.mp h
  split at h
  · cases h
  rename_i s₃ shm₃ h₃
  obtain ⟨cseq, hcseq, h⟩ := Option.bind_eq_some_iff.mp h
  split at h
  · cases h
  rename_i s₄ shm₄ h₄
  split at h
  · cases h
  rename_i s₅ shm₅ h₅
  split at h
  · cases h
  rename_i rs shm₆ hrs
  injection h with h
  injection h with hd hshm
  obtain ⟨c₁, htarget⟩ := dupUnlessEmpty_ok h₁
  rw [← c₁.text] at htarget
  obtain ⟨c₂, -⟩ := dupUnlessEmpty_ok h₂
  obtain ⟨c₃, -⟩ := dupUnlessEmpty_ok h₃
  obtain ⟨u, hu, c₄, hremUri⟩ := getDlgUri_ok h₄
  obtain ⟨_, -, c₅, -⟩ := getDlgUri_ok h₅
  obtain ⟨⟨bodies, hbodies, hbody⟩, hroutes⟩ := getRouteSet_ok hrs
  subst hd
  refine ⟨⟨⟨contact, hcontact, c₁.text ▸ HeapStr.map_text htarget⟩,
    hu.trans (congrArg some c₄.text.symm),
    ⟨bodies, hbodies, by simpa [Order.join] using hbody⟩⟩,
    ⟨?_, hremUri, c₄.exact, fun _ => c₁.exact, ?_⟩, rfl, rfl⟩
  · rw [map_nil, nil_append] at hroutes
    refine (List.Perm.nodup_iff (perm_iff_count.mpr ?_)).mp (hroutes
      (c₅.nodup_addrs (c₄.nodup_addrs (c₃.nodup_addrs (c₂.nodup_addrs ?_ ?_) ?_) ?_) ?_))
    rotate_left
    · simpa [Dlg.addrs_eq] using c₁.addrs
    all_goals
      intro a
      simp only [Dlg.addrs_eq, HeapStr.addrs_null, count_append, count_nil, map_nil]
      omega
  · intro hsome
    have hlen : s₁.len = s₁.text.length := c₁.exact
    have hne := htarget.mp hsome
    simpa [hlen] using hne

theorem newDlgUas_cases {m : Msg} {code : ℕ} {tag : Bytes} {pkg : Bool}
     (h : newDlgUas m code tag pkg shm = some d) :
    ∃ d₀, FromRequest m d₀ ∧ Unhooked d₀ ∧ d₀.state = .confirmed ∧
      d = (calculateHooks pkg d₀).2 := by
  unfold newDlgUas at h
  split at h
  · cases h
  split at h
  · cases h
  rename_i d₁ shm₁ h₁
  split at h
  · cases h
  rename_i s shm₂ h₂
  dsimp only at h
  split at h
  · cases h
  injection h with h
  obtain ⟨hreq, hsound, htag, hhooks⟩ := request2dlg_ok h₁
  obtain ⟨hcopy, -⟩ := strDuplicate_ok h₂
  refine ⟨{ d₁ with id := { d₁.id with locTag := s }, state := .confirmed },
    ⟨hreq.target, hreq.remUri, hreq.routes⟩,
    ⟨⟨?_, hsound.remUri, hsound.remUriExact, hsound.targetExact,
      hsound.targetNe⟩, ?_, ?_⟩, rfl, h.symm⟩
  · refine hcopy.nodup_addrs hsound.addrs fun a => ?_
    simp only [Dlg.addrs_eq, htag, HeapStr.addrs_null, count_append, count_nil]
    omega
  · exact congrArg Hooks.firstRoute hhooks
  · exact congrArg Hooks.lastRoute hhooks

end Msicp.Dialog

/-!
## Runs of a dialog

The hooks are calculated when a dialog is created and when it is confirmed, but
not when a request or a response within it brings a new remote target.
-/

namespace Msicp.Dialog

open Msicp.Support

/-- What is done with a dialog. -/
inductive Call
  | newUac (cid ltag : Bytes) (lseq : ℕ) (luri ruri : Bytes) (pkg : Bool)
      (shm : Shm)
  | newUas (m : Msg) (code : ℕ) (tag : Bytes) (pkg : Bool) (shm : Shm)
  | response (r : Response)
  | request (m : Msg) (shm : Shm)

/-- A dialog is created, and then gets responses and requests. -/
def dialogs : Machine (Option Dlg) Call where
  init s := s = none
  step
    | .newUac cid ltag lseq luri ruri pkg shm, none =>
      some (newDlgUac cid ltag lseq luri ruri pkg shm)
    | .newUas m code tag pkg shm, none => some (newDlgUas m code tag pkg shm)
    | .response r, some d => some (some (respond r d).2)
    | .request m shm, some d => some (some (dlgRequestUas m shm d).2)
    | _, _ => none

/-- A new INVITE within the dialog brings a remote target. -/
structure Retargets (m : Msg) (d : Dlg) (contact : Bytes) : Prop where
  headers : m.cseqHf ∧ m.contactHf
  cseq : ∃ cseq, m.cseqValue = some cseq ∧
    (d.remSeq.isSet → d.remSeq.value < cseq)
  invite : m.isInvite
  found : getContactUri m = some contact
  notEmpty : contact ≠ []

/-- Replacing the remote target leaves the hooks right: where the first route is
strict and there is memory, or where the new target gets the block of the old
one and has its URI in the same place.  Without memory it does if there was no
remote target. -/
def RefreshSafe (d : Dlg) (contact : Bytes) (shm : Shm) : Prop :=
  let used := { d with remTarget := { d.remTarget with s := none } }.addrs
  match (shmMalloc used shm).1 with
  | none => d.remTarget.s = none
  | some a =>
    StrictRoute d.routeSet ∨ ∃ b, d.remTarget.s = some b ∧ a = b.addr ∧
      rawUriAt contact = rawUriAt b.text

/-- The condition for a call: what is created or confirmed determines the hooks,
and what is refreshed keeps them. -/
def Call.Keeps : Call → Option Dlg → Prop
  | .newUac _ _ _ _ ruri _ _, _ => (rawUriAt ruri).isSome
  | .newUas m _ _ pkg _, _ =>
    ∀ contact remUri, ∀ bodies : List (List RrBody),
      getContactUri m = some contact → m.fromUri = some remUri →
      m.recordRoute = bodies.map some →
      Determined pkg (contactTarget contact) remUri bodies.flatten
  | .response r, some d =>
    (d.Waiting → d.accepts r.msg.statusCode → ∀ contact,
      ∀ bodies : List (List RrBody), getContactUri r.msg = some contact →
      r.msg.recordRoute = bodies.map some →
      Determined r.pkg (contactTarget contact) d.remUri.text bodies.flatten.reverse) ∧
    (d.state = .confirmed → ∀ contact, Refreshes r.msg contact → RefreshSafe d contact r.shm)
  | .request m shm, some d =>
    ∀ contact, Retargets m d contact → RefreshSafe d contact shm
  | _, none => True

/-- What every call that meets the condition keeps. -/
structure Good (d : Dlg) : Prop where
  sound : Sound d
  upToDate : UpToDate d
  determined : d.Determined true
  blank : d.Waiting → Blank d

variable {pkg : Bool} {target : Option Bytes} {remUri : Bytes} {d : Dlg} {shm : Shm}

theorem Determined.mono
    {routes : List RrBody} (h : Determined pkg target remUri routes) :
    Determined true target remUri routes := by
  cases routes with
  | nil => exact h
  | cons r rs =>
    unfold Determined at h ⊢
    cases hlr : uriLr pkg r.uri with
    | error e => simp [hlr] at h
    | ok lr =>
      simp only [hlr, uriLr_of_ok hlr] at h ⊢
      exact h

theorem Determined.raw
    {routes : List Rr}
    (h : Determined true target remUri (routes.map Rr.body)) :
    StrictRoute routes ∨ (rawUriAt (target.getD remUri)).isSome := by
  cases routes with
  | nil => exact .inr h
  | cons r rs =>
    simp only [Determined, List.map_cons, StrictRoute] at h ⊢
    cases hlr : uriLr true r.body.uri with
    | error e => simp [hlr] at h
    | ok lr =>
      cases lr with
      | true => exact .inr (by simpa [hlr] using h)
      | false => exact .inl rfl

/-- Another target determines the hooks too, if its URI can be found or is not
needed. -/
theorem Determined.retarget {new : Bytes}
    {routes : List Rr}
    (h : Determined true target remUri (routes.map Rr.body))
    (hnew : StrictRoute routes ∨ (rawUriAt new).isSome) :
    Determined true (some new) remUri (routes.map Rr.body) := by
  cases routes with
  | nil => simpa [StrictRoute, Determined] using hnew
  | cons r rs =>
    simp only [Determined, List.map_cons, StrictRoute] at h hnew ⊢
    cases hlr : uriLr true r.body.uri with
    | error e => simp [hlr] at h
    | ok lr =>
      cases lr with
      | true => simpa [hlr] using hnew
      | false => rfl

theorem Unhooked.good (hu : Unhooked d) (hd : d.Determined pkg) (hblank : d.Waiting → Blank d) :
    Good (calculateHooks pkg d).2 := by
  obtain ⟨-, hdate⟩ := calculateHooks_upToDate hu.sound hd hu.first hu.last
  have hrest := calculateHooks_rest pkg d
  generalize (calculateHooks pkg d).2.hooks = hooks at hrest
  rw [hrest] at hdate ⊢
  refine ⟨hu.sound.hooks hooks, hdate, hd.mono, fun hwait => ?_⟩
  obtain ⟨htarget, htag, hroutes⟩ := hblank hwait
  exact ⟨htarget, htag, hroutes⟩

/-! ## A new remote target -/

theorem Dlg.deref_of_ne (s : HeapStr) {p : StrPtr} (hp : p ≠ .remTarget) :
    { d with remTarget := s }.deref p = d.deref p := by
  cases p with
  | remTarget => exact absurd rfl hp
  | null => rfl
  | ru => rfl
  | nh => rfl
  | remUri => rfl
  | routeUri node => rfl

/-- The target is the block at `a` now. -/
theorem Good.retarget {contact : Bytes} {a : Addr} (hd : Good d) (hne : contact ≠ []) (hfresh :
      a ∉ { d with remTarget := { d.remTarget with s := none } }.addrs)
    (hsafe : StrictRoute d.routeSet ∨ ∃ b, d.remTarget.s = some b ∧ a = b.addr ∧
      rawUriAt contact = rawUriAt b.text) :
    Good { d with remTarget := ⟨some ⟨a, contact⟩, contact.length⟩ } := by
  refine ⟨⟨?_, hd.sound.remUri, hd.sound.remUriExact, fun _ => rfl, fun _ => ?_⟩,
    ⟨?_, hd.upToDate.request, hd.upToDate.hop⟩, ?_, fun hwait => ?_⟩
  · have hcopy : IsCopy
        { d with remTarget := { d.remTarget with s := none } }.addrs contact
        ⟨some ⟨a, contact⟩, contact.length⟩ :=
      ⟨rfl, rfl, by simp [HeapStr.addrs, HeapStr.blks], by
        simpa [HeapStr.addrs, HeapStr.blks] using hfresh⟩
    refine hcopy.nodup_addrs ?_ fun x => ?_
    · refine hd.sound.addrs.sublist ?_
      simp only [Dlg.addrs_eq]
      refine List.Sublist.append_right (List.Sublist.append_left ?_ _) _
      exact List.nil_sublist _
    · simp only [Dlg.addrs_eq, List.count_append]
      rw [HeapStr.addrs_of_none (s := { d.remTarget with s := none }) rfl,
        List.count_nil]
      omega
  · simpa using hne
  · refine Eq.trans ?_ (hd.upToDate.vals.trans (valsFor_congr ?_))
    · simp only [Dlg.hookVals, Dlg.deref_of_ne _ hd.upToDate.request,
        Dlg.deref_of_ne _ hd.upToDate.hop]
    · refine hsafe.imp_right fun hfound => ?_
      obtain ⟨b, hb, ha, hraw⟩ := hfound
      simp only [Dlg.targetStr, HeapStr.uriVal, HeapStr.text, hb, ha, hraw,
        Option.isSome_some, if_true, Option.map_some, Option.getD_some]
      cases rawUriAt b.text <;> rfl
  · refine Determined.retarget hd.determined ?_
    rcases hsafe with hstrict | ⟨b, hb, -, hraw⟩
    · exact .inl hstrict
    · have hold := Determined.raw hd.determined
      simpa only [hb, Option.map_some, Option.getD_some, ← hraw] using hold
  · obtain ⟨htarget, -, hroutes⟩ := hd.blank hwait
    rcases hsafe with hstrict | ⟨b, hb, -⟩
    · simp [hroutes, StrictRoute] at hstrict
    · simp [htarget] at hb

theorem Good.setTarget {d : Dlg} {contact : Bytes} {shm : Shm} (hd : Good d)
    (hne : contact ≠ []) (hsafe : RefreshSafe d contact shm) :
    Good (setTarget contact shm d).2 := by
  unfold RefreshSafe at hsafe
  unfold Dialog.setTarget strDuplicate
  dsimp only at hsafe ⊢
  generalize hres : shmMalloc _ shm = res at hsafe ⊢
  obtain ⟨answer, shm'⟩ := res
  cases answer with
  | none =>
    have hnone : d.remTarget.s = none := hsafe
    have hsame : { d.remTarget with s := none } = d.remTarget := by
      rw [← hnone]
    simpa only [hsame] using hd
  | some a => exact hd.retarget hne (shmMalloc_fresh hres) hsafe

/-! ## Every call -/

theorem good_newDlgUac {cid ltag luri ruri : Bytes} {lseq : ℕ} (hruri : (rawUriAt ruri).isSome)
    (h : newDlgUac cid ltag lseq luri ruri pkg shm = some d) : Good d := by
  obtain ⟨d₀, hunhooked, hblank, htext, rfl⟩ := newDlgUac_cases h
  refine hunhooked.good ?_ fun _ => hblank
  unfold Dlg.Determined
  rw [hblank.target, hblank.routes, htext]
  exact hruri

theorem good_newDlgUas {m : Msg} {code : ℕ} {tag : Bytes}
    
    (hkeep : ∀ contact remUri, ∀ bodies : List (List RrBody),
      getContactUri m = some contact → m.fromUri = some remUri →
      m.recordRoute = bodies.map some →
      Determined pkg (contactTarget contact) remUri bodies.flatten)
    (h : newDlgUas m code tag pkg shm = some d) : Good d := by
  obtain ⟨d₀, hreq, hunhooked, hstate, rfl⟩ := newDlgUas_cases h
  obtain ⟨contact, hcontact, htarget⟩ := hreq.target
  obtain ⟨bodies, hbodies, hroutes⟩ := hreq.routes
  refine hunhooked.good ?_ fun hwait =>
    absurd hwait (Dlg.not_waiting_of_confirmed hstate)
  unfold Dlg.Determined
  rw [htarget, hroutes]
  exact hkeep contact _ bodies hcontact hreq.remUri hbodies

theorem Good.congr (hd : Good d) (remSeq : DlgSeq) (state : DlgState)
    (hstate : state = d.state ∨ state = .destroyed) :
    Good { d with remSeq := remSeq, state := state } := by
  refine ⟨⟨hd.sound.addrs, hd.sound.remUri, hd.sound.remUriExact,
    hd.sound.targetExact, hd.sound.targetNe⟩,
    ⟨hd.upToDate.vals, hd.upToDate.request, hd.upToDate.hop⟩, hd.determined,
    fun hwait => ?_⟩
  rcases hstate with rfl | rfl
  · obtain ⟨htarget, htag, hroutes⟩ := hd.blank hwait
    exact ⟨htarget, htag, hroutes⟩
  · exact absurd hwait (Dlg.not_waiting_of_destroyed rfl)

/-- The dialog is confirmed with the data of the response. -/
theorem Good.confirm {r : Response} (hd : Good d) (hblank : Blank d)
    (hkeep : ∀ contact, ∀ bodies : List (List RrBody), getContactUri r.msg = some contact →
      r.msg.recordRoute = bodies.map some →
      Determined r.pkg (contactTarget contact) d.remUri.text bodies.flatten.reverse) :
    Good (confirm r.msg r.pkg r.shm d).2 := by
  have hcases := response2dlg_cases r.msg r.shm hblank
  unfold Dialog.confirm
  generalize response2dlg r.msg r.shm d = res at hcases ⊢
  obtain ⟨ret, d'⟩ := res
  rcases hcases with ⟨hneg, rfl⟩ | ⟨rfl, hfill⟩
  · dsimp only at hneg ⊢
    rwa [if_pos hneg]
  · obtain ⟨bodies, hbodies, hroutes⟩ := hfill.routes
    have hvals := hd.upToDate.vals
    have hremUri : d'.remUri = d.remUri :=
      (congrArg Dlg.remUri hfill.rest).trans rfl
    have hhooks : d'.hooks = d.hooks :=
      (congrArg Dlg.hooks hfill.rest).trans rfl
    rw [Dlg.rightVals, hblank.routes] at hvals
    have hunhooked : Unhooked { d' with state := .confirmed } := by
      refine ⟨⟨hfill.addrs hd.sound.addrs, hremUri ▸ hd.sound.remUri,
        hremUri ▸ hd.sound.remUriExact, fun _ => hfill.targetExact,
        fun hsome => ?_⟩, ?_, ?_⟩
      · have hlen : d'.remTarget.len = d'.remTarget.text.length :=
          hfill.targetExact
        have hne := hfill.targetSome.mp hsome
        simpa [hlen] using hne
      · exact hhooks ▸ congrArg HookVals.first hvals
      · exact hhooks ▸ congrArg HookVals.last hvals
    have hdet : Dlg.Determined r.pkg { d' with state := .confirmed } := by
      have htarget := HeapStr.map_text hfill.targetSome
      unfold Dlg.Determined
      dsimp only
      rw [htarget, hremUri, hroutes]
      exact hkeep _ bodies hfill.target hbodies
    have hgood := hunhooked.good hdet fun hwait =>
      absurd hwait (Dlg.not_waiting_of_confirmed rfl)
    dsimp only
    rw [if_neg (lt_irrefl 0)]
    split <;> exact hgood

theorem Good.response {r : Response} (hd : Good d)
    (hkeep : Call.Keeps (.response r) (some d)) : Good (respond r d).2 := by
  rcases d.state_cases with hwait | hconf | hdest
  · rcases respond_waiting hwait with
      ⟨-, heq⟩ | ⟨hcode, heq⟩ | ⟨-, -, heq⟩
    · rwa [heq]
    · rw [heq]
      exact hd.confirm (hd.blank hwait) (hkeep.1 hwait hcode)
    · rw [heq]
      exact hd.congr d.remSeq .destroyed (.inr rfl)
  · rw [respond_confirmed hconf]
    rcases dlgConfirmedRespUac_cases r.msg r.shm d with
      ⟨-, heq⟩ | ⟨-, heq | ⟨contact, hrefresh, heq, -⟩⟩
    · rw [heq]
      exact hd.congr d.remSeq .destroyed (.inr rfl)
    · rwa [heq]
    · rw [heq]
      exact hd.setTarget hrefresh.notEmpty (hkeep.2 hconf contact hrefresh)
  · rwa [respond_destroyed hdest]

theorem Good.request {m : Msg} (hd : Good d) (hkeep : Call.Keeps (.request m shm) (some d)) :
    Good (dlgRequestUas m shm d).2 := by
  unfold dlgRequestUas
  split
  · exact hd
  rename_i hcseqHf
  split
  · exact hd
  rename_i cseq hcseq
  split
  · exact hd
  rename_i hnewer
  have hseq := hd.congr ⟨cseq, true⟩ d.state (.inl rfl)
  dsimp only
  split
  · rename_i hinvite
    split
    · exact hseq
    rename_i hcontactHf
    split
    · exact hseq
    rename_i contact hcontact
    split
    · exact hseq
    rename_i hne
    have hretargets : Retargets m d contact :=
      ⟨⟨by simpa using hcseqHf, by simpa using hcontactHf⟩,
        ⟨cseq, hcseq, fun hset => by simpa [hset] using hnewer⟩, hinvite,
        hcontact, hne⟩
    have hgood := @Good.setTarget _ contact _ hseq hne (hkeep contact hretargets)
    generalize Dialog.setTarget contact shm _ = res at hgood ⊢
    obtain ⟨ok, d'⟩ := res
    cases ok with
    | false => exact hgood
    | true => exact hgood
  · exact hseq

/-- In every run whose calls all meet the condition the hooks are right. -/
theorem hooks_right {d : Dlg} (h : dialogs.ReachWhen Call.Keeps (some d)) : d.HooksRight := by
  have hgood : ∀ d', some d = some d' → Good d' := by
    refine h.invariant (fun s => ∀ d', s = some d' → Good d') ?_ ?_
    · rintro s rfl d' hd'
      cases hd'
    · rintro call s s' hinv hkeep hstep d' rfl
      cases call with
      | newUac cid ltag lseq luri ruri pkg shm =>
        cases s with
        | some d => cases hstep
        | none => exact good_newDlgUac hkeep (Option.some.inj hstep)
      | newUas m code tag pkg shm =>
        cases s with
        | some d => cases hstep
        | none => exact good_newDlgUas hkeep (Option.some.inj hstep)
      | response r =>
        cases s with
        | none => cases hstep
        | some d =>
          obtain rfl := Option.some.inj (Option.some.inj hstep)
          exact (hinv d rfl).response hkeep
      | request m shm =>
        cases s with
        | none => cases hstep
        | some d =>
          obtain rfl := Option.some.inj (Option.some.inj hstep)
          exact (hinv d rfl).request hkeep
  have hd := hgood d rfl
  exact hd.upToDate.hooksRight hd.sound hd.determined

/-! ## A call with a re-INVITE -/

instance (d : Dlg) : Decidable d.HooksRight :=
  inferInstanceAs (Decidable (_ ∧ _))

def calling : Call :=
  .newUac (ascii "c1") (ascii "t1") 1 (ascii "sip:a@h") (ascii "sip:b@h") true
    [some 1, some 2, some 3, some 4]

/-- The 200 for a re-INVITE, with a Contact that is duplicated to `a`. -/
def reinvited (contact : Bytes) (a : Addr) : Response where
  msg := {
    statusCode := 200
    cseqMethod := some (ascii "INVITE")
    contact := .uri contact }
  shm := [some a]

def inCall : Dlg := (respond answered called).2

/-- The same Contact again, in the block of the first. -/
theorem hooks_right_reinvited : (respond (reinvited (ascii "sip:b@p") 5) inCall).2.HooksRight := by
  refine hooks_right (.step (.step (.step (s := none) (l := calling) (.init rfl)
    ?_ ?_) (s := some called) (l := .response answered) ?_ rfl) (s := some inCall)
    (l := .response (reinvited (ascii "sip:b@p") 5)) ?_ rfl)
  · show (rawUriAt (ascii "sip:b@h")).isSome
    decide
  · show some (newDlgUac _ _ _ _ _ _ _) = some (some called)
    decide
  · refine ⟨fun _ _ contact bodies hcontact hbodies => ?_, fun hconf => ?_⟩
    · obtain rfl : bodies = [] := by simpa [answered] using hbodies
      obtain rfl : ascii "sip:b@p" = contact := by
        simpa [answered, getContactUri] using hcontact
      show (rawUriAt ((contactTarget (ascii "sip:b@p")).getD _)).isSome
      decide
    · exact absurd hconf (by decide)
  · refine ⟨fun hwait => ?_, fun _ contact hrefresh => ?_⟩
    · exact absurd hwait (Dlg.not_waiting_of_confirmed (by decide))
    · obtain rfl : ascii "sip:b@p" = contact := by
        simpa [reinvited, getContactUri] using hrefresh.found
      have hmalloc : (shmMalloc { inCall with remTarget :=
          { inCall.remTarget with s := none } }.addrs [some 5]).1 = some 5 := by
        decide
      simp only [RefreshSafe, reinvited, hmalloc]
      exact .inr ⟨⟨5, ascii "sip:b@p"⟩, by decide, rfl, rfl⟩

/-- After another Contact the hooks point to a block that has been freed. -/
theorem hooks_dangle :
    let moved := (respond (reinvited (ascii "sip:b@q") 7) inCall).2
    dialogs.run none [calling, .response answered,
        .response (reinvited (ascii "sip:b@q") 7)] = some (some moved) ∧
      moved.used = none ∧ ¬moved.HooksRight := by
  decide

end Msicp.Dialog
