import Msicp.Dialog.Dlg
import Mathlib.Data.List.Induction

/-!
# What is taken over from a message

A duplicate has the text of its original and a block that the dialog does not
have yet.  A dialog without remote data is filled from a response completely,
or is left as it was.
-/

namespace Msicp.Dialog

open Msicp.Support List

/-- The text of a string; none for the null pointer. -/
def HeapStr.text (s : HeapStr) : Bytes := (s.s.map Blk.text).getD []

def HeapStr.addrs (s : HeapStr) : List Addr := s.blks.map Blk.addr

/-- The length of a string is that of its text. -/
def HeapStr.Exact (s : HeapStr) : Prop := s.len = s.text.length

theorem Dlg.addrs_eq (d : Dlg) :
    d.addrs = d.id.callId.addrs ++ d.id.remTag.addrs ++ d.id.locTag.addrs ++
      d.locUri.addrs ++ d.remUri.addrs ++ d.remTarget.addrs ++
      d.routeSet.map Rr.addr := by
  simp [addrs, owned, HeapStr.addrs, Function.comp_def, Rr.blk]

@[simp] theorem HeapStr.addrs_null : ({} : HeapStr).addrs = [] := rfl

/-! ## Duplicates -/

variable {used : List Addr} {shm shm' : Shm} {src : Bytes} {s : HeapStr}

theorem shmMalloc_fresh {a : Addr} (h : shmMalloc used shm = (some a, shm')) : a ∉ used := by
  cases shm with
  | nil => simp [shmMalloc] at h
  | cons x shm =>
    simp only [shmMalloc, Prod.mk.injEq, Option.filter_eq_some_iff] at h
    simpa using h.1.2

/-- A duplicate of `src` in a block of its own. -/
structure IsCopy (used : List Addr) (src : Bytes) (s : HeapStr) : Prop where
  text : s.text = src
  exact : s.Exact
  addrs : s.addrs.Nodup
  fresh : ∀ a ∈ s.addrs, a ∉ used

theorem IsCopy.null (used : List Addr) : IsCopy used [] {} where
  text := rfl
  exact := rfl
  addrs := nodup_nil
  fresh := by simp [HeapStr.addrs, HeapStr.blks]

theorem IsCopy.nodup_append
    (hs : IsCopy used src s) (h : used.Nodup) : (used ++ s.addrs).Nodup := by
  refine perm_append_comm.nodup_iff.mp (List.nodup_append.mpr ⟨hs.addrs, h, ?_⟩)
  intro a ha b hb hab
  exact hs.fresh a ha (hab ▸ hb)

theorem IsCopy.nodup_insert {l r : List Addr} (hs : IsCopy (l ++ r) src s) (h : (l ++ r).Nodup) :
    (l ++ s.addrs ++ r).Nodup := by
  have hperm : (l ++ r ++ s.addrs).Perm (l ++ s.addrs ++ r) := by
    simp only [append_assoc]
    exact perm_append_comm.append_left l
  exact hperm.nodup_iff.mp (hs.nodup_append h)

theorem strDuplicate_ok {dst : HeapStr} (h : strDuplicate used dst src shm = (true, s, shm')) :
    IsCopy used src s ∧ s.s.isSome := by
  unfold strDuplicate at h
  split at h
  · cases h
  · rename_i a shm₁ ha
    cases h
    refine ⟨⟨rfl, rfl, by simp [HeapStr.addrs, HeapStr.blks], ?_⟩, rfl⟩
    intro x hx
    rw [show x = a by simpa [HeapStr.addrs, HeapStr.blks] using hx]
    exact shmMalloc_fresh ha

theorem strDuplicate_fail {dst : HeapStr} (h : strDuplicate used dst src shm = (false, s, shm')) :
    s = { dst with s := none } := by
  unfold strDuplicate at h
  split at h
  · cases h
    rfl
  · cases h

theorem dupUnlessEmpty_ok (h : dupUnlessEmpty used {} src shm = (true, s, shm')) :
    IsCopy used src s ∧ (s.s.isSome ↔ src ≠ []) := by
  unfold dupUnlessEmpty at h
  split at h
  · rename_i hsrc
    cases h
    exact ⟨hsrc ▸ .null used, by simp [hsrc]⟩
  · rename_i hsrc
    obtain ⟨hcopy, hsome⟩ := strDuplicate_ok h
    exact ⟨hcopy, iff_of_true hsome hsrc⟩

theorem dupUnlessEmpty_fail (h : dupUnlessEmpty used {} src shm = (false, s, shm')) : s = {} := by
  unfold dupUnlessEmpty at h
  split at h
  · cases h
  · exact strDuplicate_fail h

/-! ## The route set -/

theorem shmDuplicateRr_head {p : RrBody}
    {ps : List RrBody} {t : Rr} {ts : List Rr}
    (h : shmDuplicateRr used (p :: ps) shm = (some (t :: ts), shm')) :
    t.body = p ∧ t.addr ∉ used := by
  rw [shmDuplicateRr] at h
  split at h
  · cases h
  · rename_i a shm₁ ha
    simp only [Prod.mk.injEq, Option.map_eq_some_iff, List.cons.injEq] at h
    obtain ⟨⟨copies, -, rfl, -⟩, -⟩ := h
    exact ⟨rfl, shmMalloc_fresh ha⟩

/-- The bodies of a route set that is put together from `rs` and `ps`. -/
def Order.join (order : Order) (rs ps : List RrBody) : List RrBody :=
  match order with
  | .normal => rs ++ ps
  | .reverse => ps.reverse ++ rs

theorem Order.join_append (order : Order) (rs ps qs : List RrBody) :
    order.join (order.join rs ps) qs = order.join rs (ps ++ qs) := by
  cases order <;> simp [join]

theorem Order.join_nil (order : Order) (rs : List RrBody) : order.join rs [] = rs := by
  cases order <;> simp [join]

theorem addRoutes_ok {order : Order} {ps : List RrBody}
    {rs rs' : List Rr}
    (h : addRoutes order used ps rs shm = (some rs', shm')) :
    rs'.map Rr.body = order.join (rs.map Rr.body) ps ∧
      ((rs.map Rr.addr ++ used).Nodup → (rs'.map Rr.addr ++ used).Nodup) := by
  induction ps generalizing rs shm with
  | nil =>
    simp only [addRoutes, Prod.mk.injEq, Option.some.injEq] at h
    rw [← h.1, Order.join_nil]
    exact ⟨rfl, id⟩
  | cons p ps ih =>
    rw [addRoutes] at h
    split at h
    · rename_i t ts shm₁ hcopy
      obtain ⟨rfl, hfresh⟩ := shmDuplicateRr_head hcopy
      have hcons : (rs.map Rr.addr ++ used).Nodup →
          ((t :: rs).map Rr.addr ++ used).Nodup := fun hrs => by
        simpa using ⟨by simpa using hfresh, hrs⟩
      cases order with
      | normal =>
        have hperm : ((t :: rs).map Rr.addr ++ used).Perm ((rs ++ [t]).map Rr.addr ++ used) := by
          simp only [map_cons, map_append, map_nil, append_assoc]
          exact perm_middle.symm
        obtain ⟨hbody, hnodup⟩ := ih h
        exact ⟨by simpa [Order.join] using hbody,
          fun hrs => hnodup (hperm.nodup_iff.mp (hcons hrs))⟩
      | reverse =>
        obtain ⟨hbody, hnodup⟩ := ih h
        exact ⟨by simpa [Order.join] using hbody, fun hrs => hnodup (hcons hrs)⟩
    · cases h

theorem getRouteSet_ok {order : Order}
    {hfs : List (Option (List RrBody))} {rs rs' : List Rr}
    (h : getRouteSet order used hfs rs shm = (some rs', shm')) :
    (∃ bodies : List (List RrBody), hfs = bodies.map some ∧
        rs'.map Rr.body = order.join (rs.map Rr.body) bodies.flatten) ∧
      ((rs.map Rr.addr ++ used).Nodup → (rs'.map Rr.addr ++ used).Nodup) := by
  induction hfs generalizing rs shm with
  | nil =>
    simp only [getRouteSet, Prod.mk.injEq, Option.some.injEq] at h
    rw [← h.1]
    exact ⟨⟨[], rfl, by simp [Order.join_nil]⟩, id⟩
  | cons hf hfs ih =>
    cases hf with
    | none => simp [getRouteSet] at h
    | some body =>
      rw [getRouteSet] at h
      split at h
      · rename_i rs₁ shm₁ hadd
        obtain ⟨hbody₁, hnodup₁⟩ := addRoutes_ok hadd
        obtain ⟨⟨bodies, rfl, hbody⟩, hnodup⟩ := ih h
        refine ⟨⟨body :: bodies, rfl, ?_⟩, fun hrs => hnodup (hnodup₁ hrs)⟩
        rw [hbody, hbody₁, Order.join_append, flatten_cons]
      · cases h

/-! ## Filling a dialog from a response -/

/-- There are no remote data yet. -/
structure Blank (d : Dlg) : Prop where
  target : d.remTarget = {}
  tag : d.id.remTag = {}
  routes : d.routeSet = []

/-- The remote data of `d'` are those of the response; the rest is as in `d`. -/
structure Filled (m : Msg) (d d' : Dlg) : Prop where
  rest : d' = { d with
    remTarget := d'.remTarget
    id := { d.id with remTag := d'.id.remTag }
    routeSet := d'.routeSet }
  target : getContactUri m = some d'.remTarget.text
  targetExact : d'.remTarget.Exact
  targetSome : d'.remTarget.s.isSome ↔ d'.remTarget.text ≠ []
  tag : m.toTag = some d'.id.remTag.text
  routes : ∃ bodies : List (List RrBody), m.recordRoute = bodies.map some ∧
    d'.routeSet.map Rr.body = bodies.flatten.reverse
  addrs : d.addrs.Nodup → d'.addrs.Nodup

theorem response2dlg_cases (m : Msg) (shm : Shm) {d : Dlg} (hd : Blank d) :
    ((response2dlg m shm d).1 < 0 ∧ (response2dlg m shm d).2 = d) ∨
      ((response2dlg m shm d).1 = 0 ∧ Filled m d (response2dlg m shm d).2) := by
  have hminus : ∀ n : ℕ, -((n : ℤ) + 1) < 0 := by omega
  obtain ⟨id, locSeq, remSeq, locUri, remUri, remTarget, state, routeSet, hooks⟩ := d
  obtain ⟨callId, remTag, locTag⟩ := id
  obtain ⟨rfl, rfl, rfl⟩ := hd
  unfold response2dlg
  split
  · exact .inl ⟨hminus 0, rfl⟩
  split
  · exact .inl ⟨hminus 1, rfl⟩
  rename_i contact hcontact
  split
  · rename_i target shm₁ hdup
    rw [dupUnlessEmpty_fail hdup]
    exact .inl ⟨hminus 2, rfl⟩
  rename_i target shm₁ htarget
  simp only
  split
  · exact .inl ⟨hminus 3, rfl⟩
  rename_i rtag hrtag
  split
  · rename_i tag shm₂ hdup
    rw [dupUnlessEmpty_fail hdup]
    exact .inl ⟨hminus 3, rfl⟩
  rename_i tag shm₂ htag
  split
  · exact .inl ⟨hminus 3, rfl⟩
  rename_i rs shm₃ hrs
  obtain ⟨hcopy₁, hsome⟩ := dupUnlessEmpty_ok htarget
  obtain ⟨hcopy₂, -⟩ := dupUnlessEmpty_ok htag
  obtain ⟨hroutes, hnodup₃⟩ := getRouteSet_ok hrs
  simp only [Dlg.addrs_eq, HeapStr.addrs_null, map_nil, append_nil] at hcopy₁ hcopy₂ hnodup₃
  refine .inr ⟨rfl, rfl, ?_, hcopy₁.exact, ?_, ?_, ?_, ?_⟩
  · exact hcontact.trans (congrArg some hcopy₁.text.symm)
  · rw [hcopy₁.text]
    exact hsome
  · exact hrtag.trans (congrArg some hcopy₂.text.symm)
  · obtain ⟨bodies, hbodies, hbody⟩ := hroutes
    exact ⟨bodies, hbodies, by simpa [Order.join] using hbody⟩
  · intro hnodup
    simp only [Dlg.addrs_eq, HeapStr.addrs_null, map_nil, append_nil] at hnodup ⊢
    have htarget := hcopy₁.nodup_append hnodup
    have hsplit : callId.addrs ++ locTag.addrs ++ locUri.addrs ++ remUri.addrs ++
        target.addrs = callId.addrs ++
          (locTag.addrs ++ locUri.addrs ++ remUri.addrs ++ target.addrs) := by
      simp only [append_assoc]
    rw [hsplit] at hcopy₂ htarget
    have htag := hcopy₂.nodup_insert htarget
    refine perm_append_comm.nodup_iff.mp (hnodup₃ ?_)
    simpa only [nil_append, append_assoc] using htag

end Msicp.Dialog

/-!
## The responses to a dialog

Up to the response that confirms or destroys it, a dialog of the calling side
stays as it was created.  From then on its remote tag and its route set are
those of the confirming response.
-/

namespace Msicp.Dialog

open Msicp.Support

/-- A call of `dlg_response_uac`. -/
structure Response where
  msg : Msg
  pkg : Bool := true
  shm : Shm := []

/-- The value returned and the dialog after the call. -/
def respond (r : Response) (d : Dlg) : ℤ × Dlg :=
  dlgResponseUac r.msg r.pkg r.shm d

def respondAll (d : Dlg) (rs : List Response) : Dlg :=
  rs.foldl (fun d r => (respond r d).2) d

/-- The dialog is neither confirmed nor destroyed. -/
def Dlg.Waiting (d : Dlg) : Prop := d.state = .new ∨ d.state = .early

/-- The remote data of the dialog are those of the message. -/
structure Taken (m : Msg) (d : Dlg) : Prop where
  target : getContactUri m = some d.remTarget.text
  tag : m.toTag = some d.id.remTag.text
  routes : ∃ bodies : List (List RrBody), m.recordRoute = bodies.map some ∧
    d.routeSet.map Rr.body = bodies.flatten.reverse

/-- A final response to an INVITE in the dialog that brings a new remote
target. -/
structure Refreshes (m : Msg) (contact : Bytes) : Prop where
  low : 200 ≤ m.statusCode
  high : m.statusCode < 300
  invite : m.cseqMethod = some (ascii "INVITE")
  headers : m.contactHf
  found : getContactUri m = some contact
  notEmpty : contact ≠ []

/-- What a response does to the dialog `d`, which was `d₀` at first. -/
structure Lawful (d₀ d : Dlg) (r : Response) : Prop where
  waiting : d.Waiting → d = d₀
  confirmed : d.Waiting →
    ((respond r d).2.state = .confirmed ↔
      200 ≤ r.msg.statusCode ∧ r.msg.statusCode ≤ 299 ∧
        0 ≤ (response2dlg r.msg r.shm d).1)
  destroyed : (respond r d).2.state = .destroyed ↔
    d.state = .destroyed ∨ (d.Waiting ∧ 300 ≤ r.msg.statusCode) ∨
      (d.state = .confirmed ∧ r.msg.statusCode = 481)
  unchanged : (respond r d).2.Waiting → (respond r d).2 = d
  taken : d.Waiting → (respond r d).2.state = .confirmed →
    Taken r.msg (respond r d).2
  kept : ¬d.Waiting → (respond r d).2.id = d.id ∧
    (respond r d).2.routeSet = d.routeSet
  target : ¬d.Waiting → (respond r d).2.remTarget ≠ d.remTarget →
    ∃ contact, Refreshes r.msg contact
  error : (respond r d).1 < 0 → (d.Waiting → (respond r d).1 ≠ -2) →
    (d.state = .confirmed → (respond r d).1 ≠ -4) → (respond r d).2 = d

/-! ## What a call can do -/

variable (pkg : Bool)

theorem calculateHooks_rest (d : Dlg) : (calculateHooks pkg d).2 =
      { d with hooks := (calculateHooks pkg d).2.hooks } := by
  unfold calculateHooks
  split
  · split <;> rfl
  · rfl

theorem calculateHooks_id (d : Dlg) : (calculateHooks pkg d).2.id = d.id := by
  rw [calculateHooks_rest]

theorem calculateHooks_state (d : Dlg) : (calculateHooks pkg d).2.state = d.state := by
  rw [calculateHooks_rest]

theorem calculateHooks_remTarget (d : Dlg) : (calculateHooks pkg d).2.remTarget = d.remTarget := by
  rw [calculateHooks_rest]

theorem calculateHooks_routeSet (d : Dlg) : (calculateHooks pkg d).2.routeSet = d.routeSet := by
  rw [calculateHooks_rest]

variable {d d₀ : Dlg} {r : Response}

/-- The data cannot be taken, or the dialog is confirmed with them. -/
theorem confirm_cases (m : Msg) (pkg : Bool) (shm : Shm) (hd : Blank d) :
    ((response2dlg m shm d).1 < 0 ∧ confirm m pkg shm d = (-1, d)) ∨ (0 ≤ (response2dlg m shm d).1 ∧
        (confirm m pkg shm d).2.state = .confirmed ∧
        Taken m (confirm m pkg shm d).2 ∧
        ((confirm m pkg shm d).1 = 0 ∨ (confirm m pkg shm d).1 = -2)) := by
  have hcases := response2dlg_cases m shm hd
  unfold confirm
  generalize response2dlg m shm d = res at hcases ⊢
  obtain ⟨ret, d'⟩ := res
  rcases hcases with ⟨hneg, rfl⟩ | ⟨rfl, hfill⟩
  · exact .inl ⟨hneg, if_pos hneg⟩
  · right
    have hstate := calculateHooks_state pkg { d' with state := .confirmed }
    have htaken : Taken m (calculateHooks pkg { d' with state := .confirmed }).2 := by
      constructor
      · rw [calculateHooks_remTarget]
        exact hfill.target
      · rw [calculateHooks_id]
        exact hfill.tag
      · rw [calculateHooks_routeSet]
        exact hfill.routes
    dsimp only
    rw [if_neg (lt_irrefl 0)]
    split
    · exact ⟨le_rfl, hstate, htaken, .inr rfl⟩
    · exact ⟨le_rfl, hstate, htaken, .inl rfl⟩

/-- Final responses that are not negative, as the two handlers see them. -/
def Dlg.accepts (d : Dlg) (code : ℕ) : Prop :=
  200 ≤ code ∧ (if d.state = .new then code < 299 else code ≤ 299)

theorem respond_waiting {r : Response} {d : Dlg} (hd : d.Waiting) :
    (r.msg.statusCode < 200 ∧ respond r d = (0, d)) ∨ (d.accepts r.msg.statusCode ∧
        respond r d = confirm r.msg r.pkg r.shm d) ∨
      (200 ≤ r.msg.statusCode ∧ ¬d.accepts r.msg.statusCode ∧
        respond r d = (1, { d with state := .destroyed })) := by
  rcases hd with hnew | hearly
  · simp only [respond, dlgResponseUac, hnew, dlgNewRespUac, Dlg.accepts, if_true]
    split
    · exact .inl ⟨‹_›, rfl⟩
    · split
      · exact .inr (.inl ⟨‹_›, rfl⟩)
      · exact .inr (.inr ⟨by omega, ‹_›, rfl⟩)
  · simp only [respond, dlgResponseUac, hearly, dlgEarlyRespUac, Dlg.accepts,
      reduceCtorEq, if_false]
    split
    · exact .inl ⟨‹_›, rfl⟩
    · split
      · exact .inr (.inl ⟨‹_›, rfl⟩)
      · exact .inr (.inr ⟨by omega, ‹_›, rfl⟩)

theorem setTarget_rest (contact : Bytes) (shm : Shm) (d : Dlg) : (setTarget contact shm d).2 =
      { d with remTarget := (setTarget contact shm d).2.remTarget } := rfl

/-- Within a dialog a response ends it, or at most changes the target. -/
theorem dlgConfirmedRespUac_cases (m : Msg) (shm : Shm) (d : Dlg) :
    (m.statusCode = 481 ∧ dlgConfirmedRespUac m shm d = (1, { d with state := .destroyed })) ∨
      (m.statusCode ≠ 481 ∧ ((dlgConfirmedRespUac m shm d).2 = d ∨ ∃ contact, Refreshes m contact ∧
            (dlgConfirmedRespUac m shm d).2 = (setTarget contact shm d).2 ∧
            ((dlgConfirmedRespUac m shm d).1 = 0 ∨ (dlgConfirmedRespUac m shm d).1 = -4))) := by
  unfold dlgConfirmedRespUac
  split
  · exact .inl ⟨‹_›, rfl⟩
  rename_i hcode
  right
  refine ⟨hcode, ?_⟩
  split
  · exact .inl rfl
  rename_i hfinal
  split
  · exact .inl rfl
  rename_i method hmethod
  split
  · rename_i hinvite
    split
    · exact .inl rfl
    rename_i hheaders
    split
    · exact .inl rfl
    rename_i contact hcontact
    split
    · exact .inl rfl
    rename_i hne
    right
    refine ⟨contact, ⟨by omega, by omega, hinvite ▸ hmethod,
      by simpa using hheaders, hcontact, hne⟩, ?_⟩
    rcases setTarget contact shm d with ⟨ok, d'⟩
    cases ok with
    | false => exact ⟨rfl, .inr rfl⟩
    | true => exact ⟨rfl, .inl rfl⟩
  · exact .inl rfl

theorem respond_confirmed (hd : d.state = .confirmed) :
    respond r d = dlgConfirmedRespUac r.msg r.shm d := by
  rw [respond, dlgResponseUac, hd]

theorem respond_destroyed (hd : d.state = .destroyed) : respond r d = (-2, d) := by
  rw [respond, dlgResponseUac, hd]

/-! ## Runs -/

theorem Dlg.not_waiting_of_confirmed (h : d.state = .confirmed) : ¬d.Waiting := by
  simp [Waiting, h]

theorem Dlg.not_waiting_of_destroyed (h : d.state = .destroyed) : ¬d.Waiting := by
  simp [Waiting, h]

theorem Dlg.state_cases (d : Dlg) : d.Waiting ∨ d.state = .confirmed ∨ d.state = .destroyed := by
  cases h : d.state <;> simp [Waiting, h]

/-- A response after which the dialog still waits has not changed it. -/
theorem respond_eq_of_waiting (hblank : d.Waiting → Blank d) (h : (respond r d).2.Waiting) :
    (respond r d).2 = d := by
  rcases d.state_cases with hd | hd | hd
  · rcases respond_waiting hd with ⟨-, heq⟩ | ⟨-, heq⟩ | ⟨-, -, heq⟩
    · rw [heq]
    · rcases confirm_cases r.msg r.pkg r.shm (hblank hd) with
        ⟨-, hsame⟩ | ⟨-, hstate, -⟩
      · rw [heq, hsame]
      · rw [heq] at h
        exact absurd h (Dlg.not_waiting_of_confirmed hstate)
    · rw [heq] at h
      exact absurd h (Dlg.not_waiting_of_destroyed rfl)
  · rw [respond_confirmed hd] at h ⊢
    rcases dlgConfirmedRespUac_cases r.msg r.shm d with
      ⟨-, heq⟩ | ⟨-, heq | ⟨contact, -, heq, -⟩⟩
    · rw [heq] at h
      exact absurd h (Dlg.not_waiting_of_destroyed rfl)
    · exact heq
    · rw [heq] at h
      exact absurd h (Dlg.not_waiting_of_confirmed hd)
  · rw [respond_destroyed hd]

theorem respondAll_append (d : Dlg) (rs : List Response) (r : Response) :
    respondAll d (rs ++ [r]) = (respond r (respondAll d rs)).2 := by
  simp [respondAll]

theorem respondAll_waiting (h₀ : Blank d₀) (rs : List Response)
    (h : (respondAll d₀ rs).Waiting) : respondAll d₀ rs = d₀ := by
  induction rs using List.reverseRecOn with
  | nil => rfl
  | append_singleton rs r ih =>
    rw [respondAll_append] at h ⊢
    have hblank : (respondAll d₀ rs).Waiting → Blank (respondAll d₀ rs) :=
      fun hwait => (ih hwait).symm ▸ h₀
    have hsame := respond_eq_of_waiting hblank h
    rw [hsame] at h ⊢
    exact ih h

/-- A dialog as `new_dlg_uac` creates it, or one in the early state. -/
def OfUac (d : Dlg) : Prop :=
  ∃ cid ltag lseq luri ruri pkg shm d', newDlgUac cid ltag lseq luri ruri pkg shm = some d' ∧
      (d = d' ∨ d = { d' with state := .early })

theorem newDlgUac_blank {cid ltag luri ruri : Bytes} {lseq : ℕ} {pkg : Bool}
    {shm : Shm}
    (h : newDlgUac cid ltag lseq luri ruri pkg shm = some d) :
    Blank d ∧ d.state = .new := by
  unfold newDlgUac at h
  split at h
  · cases h
  dsimp only at h
  split at h
  · cases h
  split at h
  · cases h
  split at h
  · cases h
  split at h
  · cases h
  · injection h with h
    rw [← h]
    refine ⟨⟨?_, ?_, ?_⟩, ?_⟩
    · rw [calculateHooks_remTarget]
    · rw [calculateHooks_id]
    · rw [calculateHooks_routeSet]
    · rw [calculateHooks_state]

theorem OfUac.blank {d : Dlg} (h : OfUac d) : Blank d := by
  obtain ⟨_, _, _, _, _, _, _, d', hd', heq⟩ := h
  obtain ⟨⟨htarget, htag, hroutes⟩, -⟩ := newDlgUac_blank hd'
  rcases heq with rfl | rfl
  · exact ⟨htarget, htag, hroutes⟩
  · exact ⟨htarget, htag, hroutes⟩

theorem Dlg.accepts_iff {code : ℕ} (hr : d.state = .new → code ≠ 299) :
    d.accepts code ↔ 200 ≤ code ∧ code ≤ 299 := by
  unfold accepts
  split
  · have := hr ‹_›
    omega
  · rfl

theorem respond_outcomes (hblank : Blank d)
    (hd : d.Waiting) (hr : d.state = .new → r.msg.statusCode ≠ 299) :
    (r.msg.statusCode < 300 ∧ (respond r d).2 = d ∧
        (200 ≤ r.msg.statusCode → (response2dlg r.msg r.shm d).1 < 0)) ∨
      (200 ≤ r.msg.statusCode ∧ r.msg.statusCode < 300 ∧ 0 ≤ (response2dlg r.msg r.shm d).1 ∧
        (respond r d).2.state = .confirmed ∧ Taken r.msg (respond r d).2 ∧
        ((respond r d).1 = 0 ∨ (respond r d).1 = -2)) ∨
      (300 ≤ r.msg.statusCode ∧ respond r d = (1, { d with state := .destroyed })) := by
  have haccepts := Dlg.accepts_iff hr
  rcases @respond_waiting r d hd with
    ⟨hcode, heq⟩ | ⟨hcode, heq⟩ | ⟨hcode, hrej, heq⟩
  · exact .inl ⟨by omega, by rw [heq], by omega⟩
  · obtain ⟨hlow, hhigh⟩ := haccepts.mp hcode
    rcases confirm_cases r.msg r.pkg r.shm hblank with
      ⟨hneg, hsame⟩ | ⟨hpos, hstate, htaken, hret⟩
    · exact .inl ⟨by omega, by rw [heq, hsame], fun _ => hneg⟩
    · rw [heq]
      exact .inr (.inl ⟨hlow, by omega, hpos, hstate, htaken, hret⟩)
  · rw [haccepts] at hrej
    exact .inr (.inr ⟨by omega, heq⟩)

theorem Lawful.of_waiting (hblank : Blank d)
    (hd : d.Waiting) (hr : d.state = .new → r.msg.statusCode ≠ 299) :
    Lawful d d r := by
  have hnc : d.state ≠ .confirmed := fun h => Dlg.not_waiting_of_confirmed h hd
  have hnd : d.state ≠ .destroyed := fun h => Dlg.not_waiting_of_destroyed h hd
  have hsame : (respond r d).2.Waiting → (respond r d).2 = d :=
    respond_eq_of_waiting fun _ => hblank
  rcases respond_outcomes hblank hd hr with
    ⟨hcode, heq, hneg⟩ | ⟨hlow, hcode, hpos, hstate, htaken, hret⟩ |
      ⟨hcode, heq⟩
  · refine ⟨fun _ => rfl, fun _ => ?_, ?_, hsame, ?_, (absurd hd ·),
      (absurd hd ·), fun _ _ _ => heq⟩
    · rw [heq]
      refine iff_of_false hnc fun ⟨hlow, _, hpos⟩ => ?_
      have := hneg hlow
      omega
    · rw [heq]
      refine iff_of_false hnd fun h => ?_
      rcases h with h | ⟨_, h⟩ | ⟨h, _⟩
      · exact hnd h
      · omega
      · exact hnc h
    · intro _ h
      rw [heq] at h
      exact absurd h hnc
  · refine ⟨fun _ => rfl, fun _ => ?_, ?_, hsame, fun _ _ => htaken,
      (absurd hd ·), (absurd hd ·), ?_⟩
    · exact iff_of_true hstate ⟨hlow, by omega, hpos⟩
    · rw [hstate]
      refine iff_of_false (by decide) fun h => ?_
      rcases h with h | ⟨_, h⟩ | ⟨h, _⟩
      · exact hnd h
      · omega
      · exact hnc h
    · intro hneg hhooks _
      rcases hret with hret | hret
      · omega
      · exact absurd hret (hhooks hd)
  · refine ⟨fun _ => rfl, fun _ => ?_, ?_, hsame, ?_, (absurd hd ·), (absurd hd ·), ?_⟩
    · rw [heq]
      exact iff_of_false (by simp) fun h => by omega
    · rw [heq]
      exact iff_of_true rfl (.inr (.inl ⟨hd, hcode⟩))
    · intro _ h
      rw [heq] at h
      cases h
    · intro hneg
      rw [heq] at hneg
      exact absurd hneg (by simp)

theorem Lawful.of_confirmed (hd : d.state = .confirmed) : Lawful d₀ d r := by
  have hnot := Dlg.not_waiting_of_confirmed hd
  rcases dlgConfirmedRespUac_cases r.msg r.shm d with
    ⟨hcode, heq⟩ | ⟨hcode, heq | ⟨contact, hrefresh, heq, hret⟩⟩
  all_goals rw [← respond_confirmed hd] at heq
  · refine ⟨(absurd · hnot), (absurd · hnot), ?_, ?_, (absurd · hnot), ?_, ?_, ?_⟩
    · rw [heq]
      exact iff_of_true rfl (.inr (.inr ⟨hd, hcode⟩))
    · intro hwait
      rw [heq] at hwait
      exact absurd hwait (Dlg.not_waiting_of_destroyed rfl)
    · rw [heq]
      exact fun _ => ⟨rfl, rfl⟩
    · intro _ hne
      rw [heq] at hne
      exact absurd rfl hne
    · intro hneg
      rw [heq] at hneg
      exact absurd hneg (by simp)
  · refine ⟨(absurd · hnot), (absurd · hnot), ?_, fun _ => heq,
      (absurd · hnot), ?_, ?_, fun _ _ _ => heq⟩
    · rw [heq]
      simp [hd, hnot, hcode]
    · rw [heq]
      exact fun _ => ⟨rfl, rfl⟩
    · intro _ hne
      rw [heq] at hne
      exact absurd rfl hne
  · rw [← respond_confirmed hd] at hret
    rw [setTarget_rest] at heq
    refine ⟨(absurd · hnot), (absurd · hnot), ?_, ?_, (absurd · hnot), ?_,
      fun _ _ => ⟨contact, hrefresh⟩, ?_⟩
    · rw [heq]
      simp [hd, hnot, hcode]
    · intro hwait
      rw [heq] at hwait
      exact absurd hwait (Dlg.not_waiting_of_confirmed hd)
    · rw [heq]
      exact fun _ => ⟨rfl, rfl⟩
    · intro hneg _ hmem
      rcases hret with hret | hret
      · omega
      · exact absurd hret (hmem hd)

theorem Lawful.of_destroyed (hd : d.state = .destroyed) : Lawful d₀ d r := by
  have hnot := Dlg.not_waiting_of_destroyed hd
  have hres := respond_destroyed (r := r) hd
  constructor
  · exact fun hwait => absurd hwait hnot
  · exact fun hwait => absurd hwait hnot
  · rw [hres]
    exact iff_of_true hd (.inl hd)
  · exact fun _ => by rw [hres]
  · exact fun hwait => absurd hwait hnot
  · exact fun _ => by simp [hres]
  · intro _ hne
    rw [hres] at hne
    exact absurd rfl hne
  · exact fun _ _ _ => by rw [hres]

/-- Whatever responses a dialog of the calling side has got, the next one
obeys the law; of a 299 for a new dialog nothing is said. -/
theorem responses_lawful {d₀ : Dlg} (h₀ : OfUac d₀) (rs : List Response) (r : Response)
    (hr : (respondAll d₀ rs).state = .new → r.msg.statusCode ≠ 299) :
    Lawful d₀ (respondAll d₀ rs) r := by
  rcases (respondAll d₀ rs).state_cases with hd | hd | hd
  · have hsame := respondAll_waiting h₀.blank rs hd
    rw [hsame] at hd hr ⊢
    exact .of_waiting h₀.blank hd hr
  · exact .of_confirmed hd
  · exact .of_destroyed hd

/-! ## A call -/

/-- A dialog for a call from `a` to `b`. -/
def called : Dlg :=
  (newDlgUac (ascii "c1") (ascii "t1") 1 (ascii "sip:a@h") (ascii "sip:b@h")
    true [some 1, some 2, some 3, some 4]).getD {}

theorem called_ofUac : OfUac called :=
  ⟨ascii "c1", ascii "t1", 1, ascii "sip:a@h", ascii "sip:b@h", true,
    [some 1, some 2, some 3, some 4], called, by decide, .inl rfl⟩

/-- A 180 with a To tag. -/
def ringing : Response where
  msg := { statusCode := 180, toTag := some (ascii "t2") }

/-- A 200 with To tag and Contact. -/
def answered : Response where
  msg := {
    statusCode := 200
    toTag := some (ascii "t2")
    contact := .uri (ascii "sip:b@p") }
  shm := [some 5, some 6]

theorem responses_lawful_answered : Lawful called (respondAll called [ringing]) answered :=
  responses_lawful called_ofUac [ringing] answered (by decide)

/-- A provisional response with a To tag leaves a new dialog new. -/
theorem ringing_keeps_new : called.state = .new ∧ 100 < ringing.msg.statusCode ∧
      ringing.msg.statusCode < 200 ∧ ringing.msg.toTag = some (ascii "t2") ∧
      (respond ringing called).2.state = .new := by
  decide

end Msicp.Dialog
