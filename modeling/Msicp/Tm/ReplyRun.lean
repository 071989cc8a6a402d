import Msicp.Support.Machine
import Msicp.Tm.ReplyMoves

/-!
# Runs of the reply engine

The events of a transaction: a reply arrives, a final response timer expires, a
script answers the transaction or adds a branch, an end-to-end CANCEL is
processed, a retransmission fails, a scheduled `cancel_branch` is executed.
What the code does under the reply lock is one step; `cancel_branch`, the
marking by `e2e_cancel` and the marking by `retransmission_handler`, which are
done without it, take several.
-/

namespace Msicp.Tm

open Msicp.Support List

/-- Who tests a branch without the reply lock. -/
inductive Marker
  | e2eCancel
  | retransmission
  deriving DecidableEq

/-- The transaction, and how far the processes outside of the reply lock have
come: the branches tested for cancellation, those marked by `e2e_cancel` or by
`retransmission_handler`, the calls of `cancel_branch` behind their test, and
the CANCELs built by `cancel_branch` and by `e2e_cancel_branch`. -/
structure Engine where
  t : Trans
  testing : List (Marker × ℕ) := []
  e2e : List ℕ := []
  retr : List ℕ := []
  building : List ℕ := []
  built : List ℕ := []
  e2eBuilt : List ℕ := []

inductive Event
  | reply (branch code : ℕ) (cseqCancel : Bool) (e : RelayEnv)
  | finalResponse (branch : ℕ) (activType : ActivType) (e : RelayEnv)
  | answer (code : ℕ) (e : LightEnv)
  | addUac (request : Bool)
  | onFailure (installed : Bool)
  | test (who : Marker) (branch : ℕ)
  | mark (who : Marker) (branch : ℕ)
  | e2eCancelBranch (branch : ℕ) (printed : Bool)
  | e2eRound (branch : ℕ) (tmpBm : Bitmap) (e : RelayEnv)
  | retrRelay (doCancelBranch : Bool) (branch : ℕ) (e : RelayEnv)
  | cancelTest (branch : ℕ)
  | cancelBuild (branch : ℕ) (built : Bool)
  | fifoCancel

/-- The branch is installed as a CANCEL buffer. -/
def Uac.install (u : Uac) : Uac :=
  { u with localCancel := .cancel }

/-- The list that keeps the branches marked by one of the unlocked callers. -/
def Engine.marked (s : Engine) (who : Marker) (branch : ℕ) : Engine :=
  match who with
  | .e2eCancel => { s with e2e := branch :: s.e2e }
  | .retransmission => { s with retr := branch :: s.retr }

/-- The transaction after a section; a crash ends the run. -/
def Engine.section (s : Engine) (r : Except Trans Trans) : Option Engine :=
  match r with
  | .ok t => some { s with t := t }
  | .error _ => none

/-- One step of a transaction. -/
def Engine.step (prm : Params) (ev : Event) (s : Engine) : Option Engine :=
  match ev with
  | .reply branch code cseqCancel e =>
    if branch < s.t.nrOfOutgoings then
      s.section (replyReceived prm e cseqCancel branch code s.t)
    else none
  | .finalResponse branch activType e =>
    if branch < s.t.nrOfOutgoings then
      s.section (finalResponseHandler prm e activType branch s.t)
    else none
  | .answer code e => some { s with t := tReply prm e code s.t }
  | .addUac request => some { s with t := Msicp.Tm.addUac request s.t }
  | .onFailure installed =>
    some { s with t := { s.t with onFailure := installed } }
  | .test who branch =>
    if branch < s.t.nrOfOutgoings ∧ cancellable prm (s.t.branch branch) then
      some { s with testing := (who, branch) :: s.testing }
    else none
  | .mark who branch =>
    if (who, branch) ∈ s.testing then
      some ({ s with
        t := s.t.setBranch branch Uac.mark
        testing := s.testing.erase (who, branch) }.marked who branch)
    else none
  | .e2eCancelBranch branch printed =>
    if branch ∈ s.e2e then
      some { s with
        e2e := s.e2e.erase branch
        e2eBuilt := if printed then branch :: s.e2eBuilt else s.e2eBuilt }
    else none
  | .e2eRound branch tmpBm e =>
    if branch < s.t.nrOfOutgoings then
      s.section ((e2eCancelRound prm e tmpBm branch s.t).map Prod.snd)
    else none
  | .retrRelay doCancelBranch branch e =>
    if branch < s.t.nrOfOutgoings ∧
        (doCancelBranch = true → branch ∈ s.retr) then
      { s with
        retr := if doCancelBranch then s.retr.erase branch
          else s.retr }.section
        (fakeReplyRelay prm e doCancelBranch branch 503 s.t)
    else none
  | .cancelTest branch =>
    if branch ∈ s.t.cancels then
      some { s with
        t := { s.t with cancels := s.t.cancels.erase branch }
        building := if 100 ≤ (s.t.branch branch).lastReceived then
            branch :: s.building
          else s.building }
    else none
  | .cancelBuild branch built =>
    if branch ∈ s.building then
      some { s with
        building := s.building.erase branch
        t := if built then s.t.setBranch branch Uac.install else s.t
        built := if built then branch :: s.built else s.built }
    else none
  | .fifoCancel =>
    some { s with
      t := cancelUacs (Finset.range s.t.nrOfOutgoings) s.t }

/-- A transaction that has just been created. -/
structure Engine.Fresh (s : Engine) : Prop where
  uasStatus : s.t.uasStatus = 0
  uac : s.t.uac = []
  upstream : s.t.upstream = []
  cancels : s.t.cancels = []
  testing : s.testing = []
  e2e : s.e2e = []
  retr : s.retr = []
  building : s.building = []
  built : s.built = []
  e2eBuilt : s.e2eBuilt = []

/-- The transaction as a machine. -/
def engine (prm : Params) : Machine Engine Event where
  init := Engine.Fresh
  step := Engine.step prm

/-- A new transaction. -/
def newEngine (isInvite isLocal : Bool) : Engine :=
  { t := { isInvite := isInvite, isLocal := isLocal } }

theorem newEngine_fresh (isInvite isLocal : Bool) : (newEngine isInvite isLocal).Fresh :=
  ⟨rfl, rfl, rfl, rfl, rfl, rfl, rfl, rfl, rfl, rfl⟩

/-! ## Conditions on a step -/

/-- The status code that a section processes. -/
def Event.code : Event → ℕ
  | .reply _ code _ _ => code
  | .finalResponse _ _ _ => 408
  | .e2eRound _ _ _ => 487
  | .retrRelay _ _ _ => 503
  | _ => 0

/-- The scope of a step taken in a state. -/
def scopeOf (prm : Params) (lossy dirty : Prop) (ev : Event) (s : Engine) :
    Scope :=
  { prm := prm, code := ev.code, thru := 200 ≤ s.t.uasStatus,
    lossy := lossy, dirty := dirty }

/-- A faked reply is relayed without running out of memory. -/
def RelayEnv.Sends (e : RelayEnv) : Prop :=
  e.built = true ∧ e.resized = true

/-- What a step has to keep to for its marks to be neither dropped nor made
up: the calls out of a section stay within the scope, a branch is marked as it
was tested, and the CANCEL of a marked branch is built. -/
def Event.Within (c : Scope) (s : Engine) : Event → Prop
  | .reply _ _ _ e => e.Within c
  | .finalResponse _ _ e => e.Within c ∧ (e.Sends ∨ c.dirty)
  | .answer code e => e.Within c code
  | .mark _ branch => cancellable c.prm (s.t.branch branch) ∨ c.dirty
  | .e2eCancelBranch _ printed => printed = true ∨ c.lossy
  | .e2eRound _ _ e => e.Within c ∧ (e.Sends ∨ c.dirty)
  | .retrRelay doCancelBranch _ e =>
    e.Within c ∧ (doCancelBranch = true → e.Sends ∨ c.dirty)
  | .cancelTest branch => 100 ≤ (s.t.branch branch).lastReceived ∨ c.lossy
  | .cancelBuild _ built => built = true ∨ c.lossy
  | .fifoCancel => c.dirty
  | _ => True

variable {c : Scope} {s s' : Engine} {prm : Params} {ev : Event} {x y : Trans × Multiset ℕ}
  {t : Trans}

theorem LightEnv.within_of_true (hl : c.lossy) (hd : c.dirty)
    (e : LightEnv) (code : ℕ) : e.Within c code :=
  ⟨fun _ _ => hd, fun _ => hl⟩

theorem RelayEnv.within_of_true (hl : c.lossy) (hd : c.dirty) (e : RelayEnv) : e.Within c where
  handlers a _ := by
    cases a with
    | tReply code e => exact e.within_of_true hl hd code
    | addUac request => trivial
  error := e.error.within_of_true hl hd 500

/-- Without a condition on the marks every step qualifies. -/
theorem Event.within_of_true (hl : c.lossy) (hd : c.dirty)
    (s : Engine) (ev : Event) : ev.Within c s := by
  cases ev with
  | reply branch code cseqCancel e => exact e.within_of_true hl hd
  | finalResponse branch activType e =>
    exact ⟨e.within_of_true hl hd, .inr hd⟩
  | answer code e => exact e.within_of_true hl hd code
  | mark who branch => exact .inr hd
  | e2eCancelBranch branch printed => exact .inr hl
  | e2eRound branch tmpBm e => exact ⟨e.within_of_true hl hd, .inr hd⟩
  | retrRelay doCancelBranch branch e =>
    exact ⟨e.within_of_true hl hd, fun _ => .inr hd⟩
  | cancelTest branch => exact .inr hl
  | cancelBuild branch built => exact .inr hl
  | fifoCancel => exact hd
  | addUac request => trivial
  | onFailure installed => trivial
  | test who branch => trivial

/-! ## What a step does -/

/-- The effect of one step: moves on the transaction, or a change in what the
processes outside of the reply lock have done. -/
inductive Effect (c : Scope) (s : Engine) : Engine → Prop
  | moves {t : Trans} (h : Moves c (s.t, 0) (t, 0)) :
      Effect c s { s with t := t }
  | retrRelay {t : Trans} (b : ℕ) (hb : b ∈ s.retr)
      (h : Moves c (s.t, {b}) (t, 0)) :
      Effect c s { s with t := t, retr := s.retr.erase b }
  | test (who : Marker) (b : ℕ) (hb : b < s.t.nrOfOutgoings)
      (h : cancellable c.prm (s.t.branch b)) :
      Effect c s { s with testing := (who, b) :: s.testing }
  | mark (who : Marker) (b : ℕ) (hb : b < s.t.nrOfOutgoings)
      (h : cancellable c.prm (s.t.branch b) ∨ c.dirty) :
      Effect c s ({ s with
        t := s.t.setBranch b Uac.mark
        testing := s.testing.erase (who, b) }.marked who b)
  | e2eCancelBranch (b : ℕ) (printed : Bool) (hb : b ∈ s.e2e)
      (h : printed = true ∨ c.lossy) :
      Effect c s { s with
        e2e := s.e2e.erase b
        e2eBuilt := if printed then b :: s.e2eBuilt else s.e2eBuilt }
  | cancelTest (b : ℕ) (hb : b ∈ s.t.cancels)
      (h : 100 ≤ (s.t.branch b).lastReceived ∨ c.lossy) :
      Effect c s { s with
        t := { s.t with cancels := s.t.cancels.erase b }
        building := if 100 ≤ (s.t.branch b).lastReceived then b :: s.building
          else s.building }
  | cancelBuild (b : ℕ) (built : Bool) (hb : b ∈ s.building)
      (h : built = true ∨ c.lossy) :
      Effect c s { s with
        building := s.building.erase b
        t := if built then s.t.setBranch b Uac.install else s.t
        built := if built then b :: s.built else s.built }

/-- Only existing branches are tested. -/
def Engine.TestsInRange (s : Engine) : Prop :=
  ∀ p ∈ s.testing, p.2 < s.t.nrOfOutgoings

theorem Engine.section_some {r : Except Trans Trans}
    (h : s.section r = some s') : ∃ t, r = .ok t ∧ s' = { s with t := t } := by
  cases r with
  | error t => cases h
  | ok t =>
    cases h
    exact ⟨t, rfl, rfl⟩

/-- What one step does, said once for all invariants. -/
theorem Engine.step_effect (lossy dirty : Prop) (hinv : s.t.isInvite = true ∨ lossy)
    (htest : s.TestsInRange)
    (hw : ev.Within (scopeOf prm lossy dirty ev s) s)
    (h : s.step prm ev = some s') :
    Effect (scopeOf prm lossy dirty ev s) s s' := by
  have hthru : 200 ≤ s.t.uasStatus → (scopeOf prm lossy dirty ev s).thru := fun hs => hs
  cases ev with
  | reply branch code cseqCancel e =>
    simp only [Engine.step] at h
    split at h
    · obtain ⟨t, hr, rfl⟩ := Engine.section_some h
      exact .moves (replyReceived_moves hw hinv hthru hr)
    · cases h
  | finalResponse branch activType e =>
    simp only [Engine.step] at h
    split at h
    · rename_i hb
      obtain ⟨t, hr, rfl⟩ := Engine.section_some h
      exact .moves (finalResponseHandler_moves hw.1 hinv hb hthru rfl hw.2 hr)
    · cases h
  | answer code e =>
    cases h
    exact .moves (replyLight_moves hw true s.t)
  | addUac request =>
    cases h
    exact .moves (.single (.add request))
  | onFailure installed =>
    cases h
    exact .moves (.single (.handler installed))
  | test who branch =>
    simp only [Engine.step] at h
    split at h
    · rename_i hcan
      cases h
      exact .test who branch hcan.1 hcan.2
    · cases h
  | mark who branch =>
    simp only [Engine.step] at h
    split at h
    · rename_i hmem
      cases h
      exact .mark who branch (htest _ hmem) hw
    · cases h
  | e2eCancelBranch branch printed =>
    simp only [Engine.step] at h
    split at h
    · rename_i hmem
      cases h
      exact .e2eCancelBranch branch printed hmem hw
    · cases h
  | e2eRound branch tmpBm e =>
    simp only [Engine.step] at h
    split at h
    · obtain ⟨t, hr, rfl⟩ := Engine.section_some h
      obtain ⟨⟨failed, u⟩, hround, hu⟩ := exceptMap_ok hr
      have htu : u = t := hu
      subst htu
      exact .moves (e2eCancelRound_moves hw.1 hinv hthru rfl hw.2 hround)
    · cases h
  | retrRelay doCancelBranch branch e =>
    simp only [Engine.step] at h
    split at h
    · rename_i hb
      obtain ⟨t, hr, rfl⟩ := Engine.section_some h
      have hmoves := fakeReplyRelay_moves
        (c := scopeOf prm lossy dirty (.retrRelay doCancelBranch branch e) s)
        hw.1 hinv hthru (show 302 < 503 by decide) hw.2 hr
      cases doCancelBranch with
      | false => exact .moves hmoves
      | true => exact .retrRelay branch (hb.2 rfl) hmoves
    · cases h
  | cancelTest branch =>
    simp only [Engine.step] at h
    split at h
    · rename_i hmem
      cases h
      exact .cancelTest branch hmem hw
    · cases h
  | cancelBuild branch built =>
    simp only [Engine.step] at h
    split at h
    · rename_i hmem
      cases h
      exact .cancelBuild branch built hmem hw
    · cases h
  | fifoCancel =>
    cases h
    have hspoil := Move.spoil (c := scopeOf prm lossy dirty .fifoCancel s)
      (t := s.t) (w := 0) hw (Finset.range s.t.nrOfOutgoings).val
    exact .moves (.head (by simpa using hspoil) (Moves.cancelUacs_zero _ _))

theorem Engine.step_effect_any (htest : s.TestsInRange) (h : s.step prm ev = some s') :
    Effect (scopeOf prm True True ev s) s s' :=
  Engine.step_effect True True (.inr trivial) htest
    (Event.within_of_true (c := scopeOf prm True True ev s) trivial trivial s ev) h

/-! ## What no step changes -/

theorem Move.nrOfOutgoings_le (h : Move c x y) : x.1.nrOfOutgoings ≤ y.1.nrOfOutgoings := by
  cases h with
  | mark b hb h => simp
  | received b => simp [Trans.setLastReceived]
  | stored b r => simp
  | add request => simp
  | handler v => exact Nat.le_refl _
  | locked op => exact Nat.le_refl _
  | respond code relaied sent hsent h => exact Nat.le_refl _
  | schedule bs => exact Nat.le_refl _
  | trim w' hle hmem => exact Nat.le_refl _
  | lose h w' hle => exact Nat.le_refl _
  | spoil h bs => exact Nat.le_refl _

theorem Moves.nrOfOutgoings_le (h : Moves c x y) : x.1.nrOfOutgoings ≤ y.1.nrOfOutgoings := by
  induction h with
  | refl => exact Nat.le_refl _
  | tail _ hstep ih => exact ih.trans hstep.nrOfOutgoings_le

theorem Effect.isInvite (h : Effect c s s') : s'.t.isInvite = s.t.isInvite := by
  cases h with
  | moves h => exact h.isInvite.1
  | retrRelay b hb h => exact h.isInvite.1
  | test who b hb h => rfl
  | mark who b hb h => cases who <;> rfl
  | e2eCancelBranch b printed hb h => rfl
  | cancelTest b hb h => rfl
  | cancelBuild b built hb h => cases built <;> rfl

theorem Engine.step_testsInRange (htest : s.TestsInRange) (h : s.step prm ev = some s') :
    s'.TestsInRange := by
  have heff := Engine.step_effect_any htest h
  cases heff with
  | moves hm => exact fun p hp => (htest p hp).trans_le hm.nrOfOutgoings_le
  | retrRelay b hb hm =>
    exact fun p hp => (htest p hp).trans_le hm.nrOfOutgoings_le
  | test who b hb hc =>
    intro p hp
    rcases mem_cons.mp hp with rfl | hp
    · exact hb
    · exact htest p hp
  | mark who b hb hc =>
    intro p hp
    have hmem : p ∈ s.testing := by
      cases who <;> exact mem_of_mem_erase hp
    have hlt := htest p hmem
    cases who <;> simpa [Engine.marked] using hlt
  | e2eCancelBranch b printed hb hc => exact htest
  | cancelTest b hb hc => exact htest
  | cancelBuild b built hb hc =>
    intro p hp
    have hlt := htest p hp
    cases built <;> simpa using hlt

theorem Engine.Fresh.testsInRange (hs : s.Fresh) :
    s.TestsInRange := by
  intro p hp
  rw [hs.testing] at hp
  cases hp

theorem engine_testsInRange {ok : Event → Engine → Prop}
    (h : (engine prm).ReachWhen ok s) : s.TestsInRange := by
  apply h.invariant Engine.TestsInRange
  · exact fun s hs => Engine.Fresh.testsInRange hs
  · intro ev s s' hs _ hstep
    exact Engine.step_testsInRange hs hstep

theorem engine_invariant {ok : Event → Engine → Prop}
    (h : (engine prm).ReachWhen ok s) (inv : Engine → Prop)
    (h0 : ∀ s, Engine.Fresh s → inv s)
    (hstep : ∀ ev s s', s.TestsInRange → inv s → ok ev s →
      s.step prm ev = some s' → inv s') : inv s := by
  have hboth : s.TestsInRange ∧ inv s := by
    apply h.invariant fun s => s.TestsInRange ∧ inv s
    · exact fun s hs => ⟨Engine.Fresh.testsInRange hs, h0 s hs⟩
    · intro ev s s' hs hok hs'
      exact ⟨Engine.step_testsInRange hs.1 hs', hstep ev s s' hs.1 hs.2 hok hs'⟩
  exact hboth.2

/-! ## Final answers -/

/-- A 2xx status. -/
def success (code : ℕ) : Prop :=
  200 ≤ code ∧ code < 300

instance (code : ℕ) : Decidable (success code) :=
  inferInstanceAs (Decidable (_ ∧ _))

/-- Behind a final answer nothing but 2xx has gone upstream, and a final
answer is on record once one has been sent. -/
structure Trans.Answered (t : Trans) : Prop where
  order : t.upstream.Pairwise fun a b => 200 ≤ a → success b
  final : ∀ a ∈ t.upstream, 200 ≤ a → 200 ≤ t.uasStatus

/-- The status moves to a final one and stays, and leaves 2xx never. -/
structure StatusForward (t t' : Trans) : Prop where
  final : 200 ≤ t.uasStatus → 200 ≤ t'.uasStatus
  success : success t.uasStatus → success t'.uasStatus

theorem StatusForward.of_eq {t' : Trans} (h : t'.uasStatus = t.uasStatus) :
    StatusForward t t' :=
  ⟨fun hf => h ▸ hf, fun hs => h ▸ hs⟩

theorem StatusForward.trans {u v : Trans} (h : StatusForward t u)
    (h' : StatusForward u v) : StatusForward t v :=
  ⟨fun hf => h'.final (h.final hf), fun hs => h'.success (h.success hs)⟩

theorem Trans.Answered.of_eq {t' : Trans} (h : t.Answered)
    (hs : t'.uasStatus = t.uasStatus) (hu : t'.upstream = t.upstream) :
    t'.Answered :=
  ⟨hu ▸ h.order, by rw [hs, hu]; exact h.final⟩

/-- A reply goes out while the transaction is open, or is a 2xx. -/
theorem Trans.Answered.respond (h : t.Answered) {code : ℕ}
    {sent : List ℕ} (hsent : sent = [] ∨ sent = [code]) (relaied : ℤ)
    (hcode : t.uasStatus < 200 ∨ success code) :
    Trans.Answered { t with
        uasStatus := code
        relaiedReplyBranch := relaied
        upstream := t.upstream ++ sent } ∧
      StatusForward t { t with
        uasStatus := code
        relaiedReplyBranch := relaied
        upstream := t.upstream ++ sent } := by
  have hlast : ∀ a ∈ t.upstream, 200 ≤ a → success code := by
    intro a ha hfin
    rcases hcode with hopen | hsucc
    · have := h.final a ha hfin
      omega
    · exact hsucc
  refine ⟨⟨?_, ?_⟩, ⟨?_, ?_⟩⟩
  · rw [pairwise_append]
    refine ⟨h.order, ?_, ?_⟩
    · rcases hsent with rfl | rfl
      · exact List.Pairwise.nil
      · exact pairwise_singleton _ _
    · intro a ha b hb hfin
      rcases hsent with rfl | rfl
      · cases hb
      · rw [mem_singleton.mp hb]
        exact hlast a ha hfin
  · intro a ha hfin
    rcases mem_append.mp ha with hold | hnew
    · exact (hlast a hold hfin).1
    · rcases hsent with rfl | rfl
      · cases hnew
      · rw [mem_singleton.mp hnew] at hfin
        exact hfin
  · intro hfin
    rcases hcode with hopen | hsucc
    · omega
    · exact hsucc.1
  · intro hfin
    rcases hcode with hopen | hsucc
    · have := hfin.1
      omega
    · exact hsucc

theorem Move.answered (hlate : c.thru → ¬ (300 ≤ c.code ∧ c.code ≤ 302)) (h : Move c x y)
    (hx : x.1.Answered) : y.1.Answered ∧ StatusForward x.1 y.1 := by
  cases h with
  | respond code relaied sent hsent h =>
    refine hx.respond hsent relaied ?_
    rcases h with hopen | ⟨hthru, hcode, hlow, hhigh⟩
    · exact .inl hopen
    · have := hlate hthru
      exact .inr ⟨hlow, by omega⟩
  | mark b hb h => exact ⟨hx.of_eq rfl rfl, .of_eq rfl⟩
  | received b => exact ⟨hx.of_eq rfl rfl, .of_eq rfl⟩
  | stored b r => exact ⟨hx.of_eq rfl rfl, .of_eq rfl⟩
  | handler v => exact ⟨hx.of_eq rfl rfl, .of_eq rfl⟩
  | add request => exact ⟨hx.of_eq rfl rfl, .of_eq rfl⟩
  | locked op => exact ⟨hx.of_eq rfl rfl, .of_eq rfl⟩
  | schedule bs => exact ⟨hx.of_eq rfl rfl, .of_eq rfl⟩
  | trim w' hle hmem => exact ⟨hx, .of_eq rfl⟩
  | lose h w' hle => exact ⟨hx, .of_eq rfl⟩
  | spoil h bs => exact ⟨hx, .of_eq rfl⟩

theorem Moves.answered (hlate : c.thru → ¬ (300 ≤ c.code ∧ c.code ≤ 302)) (h : Moves c x y)
    (hx : x.1.Answered) : y.1.Answered ∧ StatusForward x.1 y.1 := by
  induction h with
  | refl => exact ⟨hx, .of_eq rfl⟩
  | tail _ hstep ih =>
    obtain ⟨hmid, hfwd⟩ := ih
    obtain ⟨hend, hfwd'⟩ := hstep.answered hlate hmid
    exact ⟨hend, hfwd.trans hfwd'⟩

/-- No reply to the INVITE with a status from 300 to 302 is processed behind
the final answer. -/
def noLateRedirect (ev : Event) (s : Engine) : Prop :=
  match ev with
  | .reply _ code false _ =>
    200 ≤ s.t.uasStatus → ¬ (300 ≤ code ∧ code ≤ 302)
  | _ => True

theorem Effect.answered (h : Effect c s s') (hlate : c.thru → ¬ (300 ≤ c.code ∧ c.code ≤ 302))
    (hs : s.t.Answered) : s'.t.Answered ∧ StatusForward s.t s'.t := by
  cases h with
  | moves hm => exact Moves.answered hlate hm hs
  | retrRelay b hb hm => exact Moves.answered hlate hm hs
  | test who b hb h => exact ⟨hs, .of_eq rfl⟩
  | mark who b hb h =>
    cases who <;> exact ⟨hs.of_eq rfl rfl, .of_eq rfl⟩
  | e2eCancelBranch b printed hb h => exact ⟨hs, .of_eq rfl⟩
  | cancelTest b hb h => exact ⟨hs.of_eq rfl rfl, .of_eq rfl⟩
  | cancelBuild b built hb h =>
    cases built <;> exact ⟨hs.of_eq rfl rfl, .of_eq rfl⟩

theorem Engine.step_answered (hinv : s.t.isInvite = true) (htest : s.TestsInRange)
    (hs : s.t.Answered) (hev : noLateRedirect ev s)
    (h : s.step prm ev = some s') :
    s'.t.Answered ∧ StatusForward s.t s'.t := by
  have heff := Engine.step_effect_any htest h
  cases ev with
  | reply branch code cseqCancel e =>
    cases cseqCancel with
    | false => exact heff.answered hev hs
    | true =>
      simp only [Engine.step] at h
      split at h
      · obtain ⟨t, hr, rfl⟩ := Engine.section_some h
        simp only [replyReceived, if_pos (And.intro trivial hinv)] at hr
        cases hr
        exact ⟨hs, .of_eq rfl⟩
      · cases h
  | _ =>
    refine heff.answered ?_ hs
    intro _
    simp [scopeOf, Event.code]

theorem engine_isInvite (htest : s.TestsInRange) (h : s.step prm ev = some s') :
    s'.t.isInvite = s.t.isInvite :=
  (Engine.step_effect_any htest h).isInvite

theorem engine_answered (h : (engine prm).ReachWhen noLateRedirect s)
    (hinv : s.t.isInvite = true) : s.t.Answered := by
  revert hinv
  apply engine_invariant h fun s => s.t.isInvite = true → s.t.Answered
  · intro s hs _
    constructor
    · rw [hs.upstream]
      exact List.Pairwise.nil
    · intro a ha
      rw [hs.upstream] at ha
      cases ha
  · intro ev s s' htest hs hev hstep hinv'
    have hinv : s.t.isInvite = true := (engine_isInvite htest hstep) ▸ hinv'
    exact (Engine.step_answered hinv htest (hs hinv) hev hstep).1

/-- Two negative finals would not be in order. -/
theorem Trans.Answered.negative_le_one (h : t.Answered) :
    (t.upstream.filter fun c => 200 ≤ c ∧ ¬ success c).length ≤ 1 := by
  have hpair := h.order.filter fun c => decide (200 ≤ c ∧ ¬ success c)
  have hneg : ∀ a ∈ t.upstream.filter fun c => 200 ≤ c ∧ ¬ success c, 200 ≤ a ∧ ¬ success a := by
    intro a ha
    simpa using (mem_filter.mp ha).2
  generalize (t.upstream.filter fun c => 200 ≤ c ∧ ¬ success c) = l at hpair hneg ⊢
  match l, hpair, hneg with
  | [], _, _ => exact Nat.zero_le 1
  | [_], _, _ => exact Nat.le_refl 1
  | a :: b :: _, hpair, hneg =>
    have hab : 200 ≤ a → success b :=
      (pairwise_cons.mp hpair).1 b mem_cons_self
    have ha := hneg a mem_cons_self
    have hb := hneg b (mem_cons_of_mem _ mem_cons_self)
    exact absurd (hab ha.1) hb.2

/-- In a run without late redirects at most one negative final answer goes
upstream, nothing but 2xx follows a final answer, a final status stays final,
and 2xx is not replaced. -/
theorem upstream_final_once (prm : Params) {s : Engine}
    (h : (engine prm).ReachWhen noLateRedirect s)
    (hinv : s.t.isInvite = true) :
    (s.t.upstream.filter fun c => 200 ≤ c ∧ ¬ success c).length ≤ 1 ∧
      (s.t.upstream.Pairwise fun a b => 200 ≤ a → success b) ∧
      ∀ ev s', noLateRedirect ev s → (engine prm).step ev s = some s' →
        (200 ≤ s.t.uasStatus → 200 ≤ s'.t.uasStatus) ∧
          (success s.t.uasStatus → success s'.t.uasStatus) := by
  have hans := engine_answered h hinv
  refine ⟨hans.negative_le_one, hans.order, ?_⟩
  intro ev s' hev hstep
  have hfwd := (Engine.step_answered hinv (engine_testsInRange h) hans hev hstep).2
  exact ⟨hfwd.final, hfwd.success⟩

/-- Two branches, one of them answered by a 180 and a 200. -/
def answeredRun : List Event :=
  [.addUac true, .addUac true, .reply 0 180 false {}, .reply 0 200 false {}]

theorem upstream_final_once_answered :
    ∃ s, (engine {}).run (newEngine true false) answeredRun = some s ∧ s.t.upstream = [180, 200] ∧
      (s.t.upstream.filter fun c => 200 ≤ c ∧ ¬ success c).length ≤ 1 := by
  have hadmits : (engine {}).Admits noLateRedirect (newEngine true false)
      answeredRun := by
    exact .cons trivial rfl <| .cons trivial rfl <| .cons (fun h => absurd h (by decide)) rfl <|
      ⟨fun h => absurd h (by decide), fun _ _ => trivial⟩
  have hstart : (engine {}).ReachWhen noLateRedirect (newEngine true false) :=
    .init (newEngine_fresh true false)
  exact ⟨_, rfl, rfl, (upstream_final_once {} (hstart.run hadmits rfl) rfl).1⟩

/-- A 302 on the other branch follows the 200 upstream and replaces its
status. -/
theorem upstream_late_redirect : ∃ s s', (engine {}).Reach s ∧ s.t.isInvite = true ∧
      s.t.isLocal = false ∧
      (engine {}).step (.reply 1 302 false {}) s = some s' ∧
      ¬ (s'.t.upstream.Pairwise fun a b => 200 ≤ a → success b) ∧
      success s.t.uasStatus ∧ ¬ success s'.t.uasStatus := by
  have hstart : (engine {}).Reach (newEngine true false) :=
    .init (newEngine_fresh true false)
  refine ⟨_, _, Machine.Reach.run hstart answeredRun rfl, rfl, rfl, rfl, ?_, ?_, ?_⟩
  · decide
  · decide
  · decide

/-! ## Successful answers -/

/-- What becomes of a 2xx depends on the final status of the transaction and
on what its branch has on record. -/
theorem Trans.success_relay (prm : Params) (t : Trans)
    (hinv : t.isInvite = true) (e : RelayEnv) {code branch : ℕ}
    (hcode : success code) (bm : Bitmap) :
    (tShouldRelayResponse prm e t code branch bm).shouldRelay = branch ↔
      200 ≤ t.uasStatus ∨ (t.branch branch).lastReceived ≤ 302 := by
  obtain ⟨hlow, hhigh⟩ := hcode
  have hthru : invThrough t code = true := by
    simp only [invThrough, hinv, Bool.and_true, Bool.and_eq_true, decide_eq_true_eq]
    omega
  simp only [tShouldRelayResponse, hthru]
  by_cases hfinal : 200 ≤ t.uasStatus
  · simp [hfinal]
  · by_cases hlast : (t.branch branch).lastReceived ≤ 302
    · have h1 : ¬ 302 < code := by omega
      have h2 : 100 ≤ code := by omega
      have h3 : code ≠ 100 := by omega
      simp [hfinal, hlast, h1, h2, h3, hlow]
    · have h1 : 200 ≤ (t.branch branch).lastReceived := by omega
      simp [hfinal, hlast, h1, discard]

/-- One branch rings, the other has timed out. -/
def timedOutRun : List Event :=
  [.addUac true, .addUac true, .reply 0 180 false {}, .reply 1 180 false {},
    .finalResponse 0 .request {}]

end Msicp.Tm
