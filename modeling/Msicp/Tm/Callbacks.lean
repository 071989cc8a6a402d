import Mathlib.Algebra.Group.Nat.Defs
import Mathlib.Data.List.Basic

/-!
# The callbacks of a transaction

`run_trans_callbacks` passes the parameters of an event in one static structure
and makes the AVP list of the transaction current.  What a callback does is up to
it: it may register callbacks and trigger events, which run inside of it.
-/

namespace Msicp.Tm.Callbacks

open List

/-! ## Registration -/

/-- `struct tm_callback` -/
structure TmCallback where
  id : ℕ
  types : ℕ
  callback : ℕ
  param : ℕ

/-- `struct tmcb_head_list`: the types are those of the callbacks, and the newest one comes
first. -/
structure TmcbHeadList where
  first : List TmCallback
  regTypes : ℕ
  covers : ∀ cb ∈ first, ∀ type, cb.types &&& type ≠ 0 → regTypes &&& type ≠ 0
  newest : first.Pairwise fun a b => b.id < a.id

/-- `insert_tmcb`, when the memory suffices -/
def insertTmcb (cbList : TmcbHeadList) (types f param : ℕ) : TmcbHeadList where
  first := ⟨cbList.first.head?.elim 0 fun next => next.id + 1, types, f, param⟩ :: cbList.first
  regTypes := cbList.regTypes ||| types
  covers := by
    intro cb hcb type h
    rw [Nat.and_or_distrib_right, ne_eq, Nat.or_eq_zero_iff, not_and_or]
    rcases List.mem_cons.mp hcb with rfl | hcb
    · exact Or.inr h
    · exact Or.inl (cbList.covers cb hcb type h)
  newest := by
    have hold := cbList.newest
    refine List.pairwise_cons.mpr ⟨fun b hb => ?_, hold⟩
    cases hfirst : cbList.first with
    | nil => simp [hfirst] at hb
    | cons a l =>
      rw [hfirst] at hb hold
      rcases List.mem_cons.mp hb with rfl | hb
      · exact Nat.lt_succ_self _
      · exact Nat.lt_succ_of_lt ((List.pairwise_cons.mp hold).1 b hb)

def tmcbRequestIn : ℕ := 1

def tmcbMax : ℕ := 2 ^ 9 - 1

/-- `register_tmcb` for the list of a transaction -/
def registerTmcb (cbList : TmcbHeadList) (types f param : ℕ) : Option TmcbHeadList :=
  if tmcbMax < types then none
  else if f = 0 then none
  else if types &&& tmcbRequestIn ≠ 0 then none
  else some (insertTmcb cbList types f param)

/-! ## Events -/

/-- What all callbacks of an event are told. -/
structure Args where
  req : ℕ
  rpl : ℕ
  code : ℤ

structure Event where
  type : ℕ
  trans : ℕ
  args : Args

/-- `struct tmcb_params` -/
structure TmcbParams where
  args : Args
  param : ℕ

/-- The static parameters, the transaction whose AVP list is current (or none for the
global list), and the callbacks of the transactions. -/
structure State where
  params : TmcbParams
  crtAvps : Option ℕ
  hooks : ℕ → TmcbHeadList

/-- The call of a callback: what it is passed, the AVP list that is current, and the events
that start inside of it, in this order. -/
structure Call where
  cb : TmCallback
  params : TmcbParams
  crtAvps : Option ℕ
  started : List Event

/-- What runs: the body of a callback, `run_trans_callbacks`, or its loop. -/
inductive Code where
  | body
  | event (e : Event)
  | loop (e : Event) (cbs : List TmCallback)

/-- `run_trans_callbacks` returns at once. -/
def State.Skips (s : State) (e : Event) : Prop :=
  (s.hooks e.trans).first = [] ∨ (s.hooks e.trans).regTypes &&& e.type = 0

instance (s : State) (e : Event) : Decidable (s.Skips e) :=
  inferInstanceAs (Decidable (_ ∨ _))

/-- `params.req = req; params.rpl = rpl; params.code = code` -/
def State.fill (s : State) (e : Event) : State :=
  { s with params := { s.params with args := e.args } }

/-- A run, with the calls that the event makes itself and all events that start in it. -/
inductive Exec : State → Code → List Call → List Event → State → Prop
  | done (s : State) : Exec s .body [] [] s
  | register {s s' : State} {trans types f param : ℕ} {l : TmcbHeadList} {es : List Event} :
      registerTmcb (s.hooks trans) types f param = some l →
      Exec { s with hooks := Function.update s.hooks trans l } .body [] es s' →
      Exec s .body [] es s'
  | trigger {s s₁ s' : State} {e : Event} {calls : List Call} {es es' : List Event} :
      Exec s (.event e) calls es s₁ → Exec s₁ .body [] es' s' →
      Exec s .body [] (e :: es ++ es') s'
  | skip {s : State} {e : Event} : s.Skips e → Exec s (.event e) [] [] (s.fill e)
  | fire {s s' : State} {e : Event} {calls : List Call} {es : List Event} : ¬s.Skips e →
      Exec { s.fill e with crtAvps := some e.trans } (.loop e (s.hooks e.trans).first)
        calls es s' →
      Exec s (.event e) calls es { s' with crtAvps := s.crtAvps }
  | nil {s : State} {e : Event} : Exec s (.loop e []) [] [] s
  | pass {s s' : State} {e : Event} {cb : TmCallback} {cbs : List TmCallback}
      {calls : List Call} {es : List Event} : cb.types &&& e.type = 0 →
      Exec s (.loop e cbs) calls es s' → Exec s (.loop e (cb :: cbs)) calls es s'
  | call {s s₁ s' : State} {e : Event} {cb : TmCallback} {cbs : List TmCallback}
      {calls : List Call} {es es' : List Event} : cb.types &&& e.type ≠ 0 →
      Exec { s with params := { s.params with param := cb.param } } .body [] es s₁ →
      Exec s₁ (.loop e cbs) calls es' s' →
      Exec s (.loop e (cb :: cbs))
        (⟨cb, { s.params with param := cb.param }, s.crtAvps, es⟩ :: calls) (es ++ es') s'

/-- What an event should do. -/
structure Right (s : State) (e : Event) (calls : List Call) (s' : State) : Prop where
  once : calls.map Call.cb =
    (s.hooks e.trans).first.filter fun cb => cb.types &&& e.type ≠ 0
  newest : (calls.map Call.cb).Pairwise fun a b => b.id < a.id
  params : ∀ c ∈ calls, c.params = ⟨e.args, c.cb.param⟩
  avps : ∀ c ∈ calls, c.crtAvps = some e.trans
  restored : s'.crtAvps = s.crtAvps

/-! ## What a run leaves -/

/-- The arguments of the last event, or what was there before. -/
def lastArgs (a : Args) (es : List Event) : Args := (es.getLast?.map Event.args).getD a

theorem lastArgs_cons (a : Args) (e : Event) (es : List Event) :
    lastArgs a (e :: es) = lastArgs e.args es := by
  unfold lastArgs
  rw [getLast?_cons]
  cases es.getLast? with
  | none => rfl
  | some e' => rfl

theorem lastArgs_append (a : Args) (es es' : List Event) :
    lastArgs a (es ++ es') = lastArgs (lastArgs a es) es' := by
  unfold lastArgs
  rw [getLast?_append]
  cases es'.getLast? with
  | none => rfl
  | some e => rfl

/-- The arguments at the start. -/
def Code.args (s : State) : Code → Args
  | .body => s.params.args
  | .event e => e.args
  | .loop _ _ => s.params.args

theorem Exec.leaves {s s' : State} {code : Code} {calls : List Call} {es : List Event}
    (h : Exec s code calls es s') :
    s'.crtAvps = s.crtAvps ∧ s'.params.args = lastArgs (code.args s) es := by
  induction h with
  | done s => exact ⟨rfl, rfl⟩
  | register _ _ ih => exact ih
  | trigger _ _ ih₁ ih₂ =>
    refine ⟨ih₂.1.trans ih₁.1, ?_⟩
    rw [cons_append, lastArgs_cons, lastArgs_append, ih₂.2, Code.args, ih₁.2]
    rfl
  | skip _ => exact ⟨rfl, rfl⟩
  | fire _ _ ih => exact ⟨rfl, ih.2⟩
  | nil => exact ⟨rfl, rfl⟩
  | pass _ _ ih => exact ih
  | call _ _ _ ih₁ ih₂ =>
    refine ⟨ih₂.1.trans ih₁.1, ?_⟩
    rw [lastArgs_append, ih₂.2, Code.args, ih₁.2]
    rfl

/-! ## The loop -/

/-- No call but the last one ends with other arguments than the event's. -/
def Clean (e : Event) (calls : List Call) : Prop :=
  ∀ c ∈ calls.dropLast, ∀ a ∈ c.started.getLast?, a.args = e.args

theorem lastArgs_eq_iff {a : Args} {es : List Event} :
    lastArgs a es = a ↔ ∀ e ∈ es.getLast?, e.args = a := by
  unfold lastArgs
  cases es.getLast? with
  | none => simp
  | some e => simp

theorem Exec.loop {e : Event} {cbs : List TmCallback} :
    ∀ {s s' : State} {calls : List Call} {es : List Event}, Exec s (.loop e cbs) calls es s' →
      calls.map Call.cb = cbs.filter (fun cb => cb.types &&& e.type ≠ 0) ∧
      (∀ c ∈ calls, c.crtAvps = s.crtAvps ∧ c.params.param = c.cb.param) ∧
      (∀ c ∈ calls.head?, c.params.args = s.params.args) ∧
      (s.params.args = e.args → ((∀ c ∈ calls, c.params.args = e.args) ↔ Clean e calls)) := by
  induction cbs with
  | nil =>
    intro s s' calls es h
    cases h
    simp [Clean]
  | cons cb cbs ih =>
    intro s s' calls es h
    cases h with
    | pass hmask h =>
      obtain ⟨hcbs, hrest⟩ := ih h
      refine ⟨?_, hrest⟩
      rw [hcbs, filter_cons_of_neg (by simpa using hmask)]
    | @call _ s₁ _ _ _ _ calls es _ hmask hbody h =>
      obtain ⟨hcbs, hself, hhead, hclean⟩ := ih h
      obtain ⟨havps, hlast⟩ := hbody.leaves
      refine ⟨?_, ?_, ?_, fun hargs => ?_⟩
      · rw [map_cons, hcbs, filter_cons_of_pos (by simpa using hmask)]
      · intro c hc
        rcases mem_cons.mp hc with rfl | hc
        · exact ⟨rfl, rfl⟩
        · exact ⟨(hself c hc).1.trans havps, (hself c hc).2⟩
      · intro c hc
        obtain rfl := Option.mem_some_iff.mp hc
        rfl
      · rw [forall_mem_cons, and_iff_right hargs]
        cases calls with
        | nil => simp [Clean]
        | cons d calls =>
          have hrest : Clean e (⟨cb, { s.params with param := cb.param }, s.crtAvps, es⟩ ::
              d :: calls) ↔ (∀ a ∈ es.getLast?, a.args = e.args) ∧ Clean e (d :: calls) := by
            unfold Clean
            rw [dropLast_cons_cons, forall_mem_cons]
          rw [hrest]
          -- the next call is told what the last event inside of this one has left
          have hnext : s₁.params.args = e.args ↔ ∀ a ∈ es.getLast?, a.args = e.args := by
            rw [hlast, ← lastArgs_eq_iff]
            change lastArgs s.params.args es = e.args ↔ _
            rw [hargs]
          by_cases hsame : s₁.params.args = e.args
          · rw [hclean hsame, and_iff_right (hnext.mp hsame)]
          · refine iff_of_false (fun hall => hsame ?_) fun hc => hsame (hnext.mpr hc.1)
            rw [← hhead d rfl]
            exact hall d mem_cons_self

/-- An event of any run is handled right if and only if no callback that another one of
the event follows ends with an event of another request, reply or code. -/
theorem run_trans_callbacks_right_iff (s : State) (e : Event) (calls : List Call)
    (es : List Event) (s' : State) (hrun : Exec s (.event e) calls es s') :
    Right s e calls s' ↔ ∀ c ∈ calls.dropLast, ∀ a ∈ c.started.getLast?, a.args = e.args := by
  have hrestored := hrun.leaves.1
  cases hrun with
  | skip hskip =>
    refine iff_of_true ⟨?_, List.Pairwise.nil, by simp, by simp, rfl⟩ (by simp)
    -- no callback of the list is for the event
    refine (filter_eq_nil_iff.mpr fun cb hcb => ?_).symm
    rcases hskip with hnil | hmask
    · rw [hnil] at hcb
      exact absurd hcb not_mem_nil
    · have hcovers := (s.hooks e.trans).covers cb hcb e.type
      simpa using fun hne => hcovers hne hmask
  | fire hskip hloop =>
    obtain ⟨hcbs, hself, -, hclean⟩ := hloop.loop
    refine Iff.trans ⟨fun h c hc => ?_, fun h => ⟨hcbs, ?_, fun c hc => ?_, ?_, hrestored⟩⟩
      (hclean rfl)
    · rw [h.params c hc]
    · rw [hcbs]
      exact (s.hooks e.trans).newest.filter _
    · have hparam := (hself c hc).2
      rw [← h c hc, ← hparam]
    · exact fun c hc => (hself c hc).1

/-! ## A leak -/

def noHooks : TmcbHeadList := ⟨[], 0, by simp, List.Pairwise.nil⟩

/-- Transaction 1 has `n` callbacks for replies that are sent out. -/
def replyHooks (n : ℕ) : State where
  params := ⟨⟨0, 0, 0⟩, 0⟩
  crtAvps := none
  hooks := Function.update (fun _ => noHooks) 1
    ((List.replicate n 128).foldl (fun l types => insertTmcb l types 9 5) noHooks)

theorem run_trans_callbacks_one :
    ∃ calls s', Exec (replyHooks 1) (.event ⟨128, 1, 7, 8, 200⟩) calls [] s' ∧
      calls.length = 1 ∧ Right (replyHooks 1) ⟨128, 1, 7, 8, 200⟩ calls s' := by
  have hrun := Exec.fire (s := replyHooks 1) (e := ⟨128, 1, 7, 8, 200⟩) (by decide)
    (Exec.call (by decide) (Exec.done _) Exec.nil)
  exact ⟨_, _, hrun, rfl, (run_trans_callbacks_right_iff _ _ _ _ _ hrun).mpr (by simp)⟩

/-- The newest of two callbacks triggers an event of transaction 2, and the other one is
told the request of that. -/
theorem run_trans_callbacks_leaks :
    ∃ calls es s', Exec (replyHooks 2) (.event ⟨128, 1, 7, 8, 200⟩) calls es s' ∧
      calls.map (fun c => c.params.args.req) = [7, 20] ∧
      ¬Right (replyHooks 2) ⟨128, 1, 7, 8, 200⟩ calls s' := by
  have hinner : ∀ s : State, s.hooks 2 = noHooks →
      Exec s .body [] [⟨256, 2, 20, 0, 487⟩] (s.fill ⟨256, 2, 20, 0, 487⟩) := fun s hs =>
    Exec.trigger (Exec.skip (Or.inl (by rw [hs]; rfl))) (Exec.done _)
  have hrun := Exec.fire (s := replyHooks 2) (e := ⟨128, 1, 7, 8, 200⟩) (by decide)
    (Exec.call (by decide) (hinner _ rfl) (Exec.call (by decide) (Exec.done _) Exec.nil))
  refine ⟨_, _, _, hrun, rfl, fun h => ?_⟩
  have hlast := h.params _ (mem_cons_of_mem _ mem_cons_self)
  exact absurd (congrArg (fun p => p.args.req) hlast) (by decide)

end Msicp.Tm.Callbacks
