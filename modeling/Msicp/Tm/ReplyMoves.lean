import Msicp.Tm.Reply
import Mathlib.Logic.Relation

/-!
# What one section of the reply engine does

Every function of the reply engine is a sequence of elementary moves on the
transaction.  Beside the transaction a move sees the branches that the process
has marked busy without scheduling their cancellation yet: the bits of its live
bitmaps.  Invariants are checked on the moves only.
-/

namespace Msicp.Tm

open Relation List

namespace Trans

variable (t : Trans)

@[simp] theorem nrOfOutgoings_setBranch (b : ℕ) (f : Uac → Uac) :
    (t.setBranch b f).nrOfOutgoings = t.nrOfOutgoings := by
  simp [nrOfOutgoings, setBranch]

theorem branch_setBranch (b c : ℕ) (f : Uac → Uac) : (t.setBranch b f).branch c =
      if c = b ∧ b < t.nrOfOutgoings then f (t.branch b) else t.branch c := by
  simp only [branch, setBranch, nrOfOutgoings, getD_eq_getElem?_getD, getElem?_modify]
  by_cases hcb : c = b
  · subst hcb
    by_cases hlt : c < t.uac.length
    · simp [hlt]
    · simp [hlt]
  · have hbc : ¬ b = c := fun h => hcb h.symm
    simp [hcb, hbc]

theorem branch_of_le {b : ℕ} (h : t.nrOfOutgoings ≤ b) : t.branch b = { request := false } := by
  have hnone : t.uac[b]? = none := getElem?_eq_none h
  simp [branch, getD_eq_getElem?_getD, hnone]

theorem branch_addUac (request : Bool) (c : ℕ) : (addUac request t).branch c =
      if c = t.nrOfOutgoings then { request := request } else t.branch c := by
  simp only [branch, addUac, nrOfOutgoings, getD_eq_getElem?_getD]
  rcases Nat.lt_trichotomy c t.uac.length with hlt | heq | hgt
  · rw [getElem?_append_left hlt, if_neg (by omega)]
  · subst heq
    simp
  · have hlong : (t.uac ++ [{ request := request }])[c]? = none := by
      apply getElem?_eq_none
      simp
      omega
    have hnone : t.uac[c]? = none := getElem?_eq_none (by omega)
    rw [hlong, hnone, if_neg (by omega)]

@[simp] theorem nrOfOutgoings_addUac (request : Bool) :
    (addUac request t).nrOfOutgoings = t.nrOfOutgoings + 1 := by
  simp [nrOfOutgoings, addUac]

end Trans

/-! ## Moves -/

/-- What a section may do: the status code it processes, whether the
transaction had its final answer when it was entered, and whether marks may be
dropped or made up. -/
structure Scope where
  prm : Params
  code : ℕ
  thru : Prop
  lossy : Prop
  dirty : Prop

/-- The elementary moves, on the transaction and the marked branches for which
no cancellation is scheduled. -/
inductive Move (c : Scope) : Trans × Multiset ℕ → Trans × Multiset ℕ → Prop
  | mark {t w} (b : ℕ) (hb : b < t.nrOfOutgoings)
      (h : cancellable c.prm (t.branch b)) :
      Move c (t, w) (t.setBranch b Uac.mark, b ::ₘ w)
  | received {t w} (b : ℕ) : Move c (t, w) (t.setLastReceived b c.code, w)
  | stored {t w} (b : ℕ) (r : Option Rpl) :
      Move c (t, w) (t.setBranch b fun u => { u with reply := r }, w)
  | handler {t w} (v : Bool) : Move c (t, w) ({ t with onFailure := v }, w)
  | add {t w} (request : Bool) : Move c (t, w) (addUac request t, w)
  | locked {t w} (op : LockOp) : Move c (t, w) (t.lockOp op, w)
  | respond {t w} (code : ℕ) (relaied : ℤ) (sent : List ℕ)
      (hsent : sent = [] ∨ sent = [code])
      (h : t.uasStatus < 200 ∨
        (c.thru ∧ code = c.code ∧ 200 ≤ code ∧ code ≤ 302)) :
      Move c (t, w) ({ t with
        uasStatus := code
        relaiedReplyBranch := relaied
        upstream := t.upstream ++ sent }, w)
  | schedule {t w} (bs : List ℕ) :
      Move c (t, ↑bs + w) ({ t with cancels := t.cancels ++ bs }, w)
  | trim {t w} (w' : Multiset ℕ) (hle : w' ≤ w)
      (hmem : ∀ b ∈ w, b < t.nrOfOutgoings → b ∈ w') :
      Move c (t, w) (t, w')
  | lose {t w} (h : c.lossy) (w' : Multiset ℕ) (hle : w' ≤ w) :
      Move c (t, w) (t, w')
  | spoil {t w} (h : c.dirty) (bs : Multiset ℕ) :
      Move c (t, w) (t, bs + w)

/-- Any number of moves. -/
abbrev Moves (c : Scope) : Trans × Multiset ℕ → Trans × Multiset ℕ → Prop :=
  ReflTransGen (Move c)

variable {c : Scope}

variable {x y : Trans × Multiset ℕ} {t t' : Trans} {e : RelayEnv} {prm : Params}
  {newCode branch msgStatus : ℕ} {bm bm' : Bitmap} {P : Decision → Prop} {pMsg : Rpl} {d : Decision}
  {st : Rps}

/-- Marks held elsewhere in the process do not matter to a move. -/
theorem Move.frame (h : Move c x y) (f : Multiset ℕ) : Move c (x.1, x.2 + f) (y.1, y.2 + f) := by
  cases h with
  | mark b hb h =>
    simp only [Multiset.cons_add]
    exact .mark b hb h
  | received b => exact .received b
  | stored b r => exact .stored b r
  | handler v => exact .handler v
  | add request => exact .add request
  | locked op => exact .locked op
  | respond code relaied sent hsent h => exact .respond code relaied sent hsent h
  | schedule bs =>
    simp only [Multiset.add_assoc]
    exact .schedule bs
  | trim w' hle hmem =>
    refine .trim (w' + f) (Multiset.add_le_add_right hle) ?_
    intro b hb hlt
    rcases Multiset.mem_add.mp hb with hw | hf
    · exact Multiset.mem_add.mpr (.inl (hmem b hw hlt))
    · exact Multiset.mem_add.mpr (.inr hf)
  | lose h w' hle => exact .lose h (w' + f) (Multiset.add_le_add_right hle)
  | spoil h bs =>
    simp only [Multiset.add_assoc]
    exact .spoil h bs

theorem Moves.frame (h : Moves c x y) (f : Multiset ℕ) : Moves c (x.1, x.2 + f) (y.1, y.2 + f) := by
  induction h with
  | refl => exact .refl
  | tail _ hstep ih => exact .tail ih (hstep.frame f)

theorem Moves.frame_zero (h : Moves c (t, 0) (t', 0))
    (f : Multiset ℕ) : Moves c (t, f) (t', f) := by
  simpa using h.frame f

theorem Move.isInvite (h : Move c x y) :
    y.1.isInvite = x.1.isInvite ∧ y.1.isLocal = x.1.isLocal := by
  cases h <;> exact ⟨rfl, rfl⟩

theorem Moves.isInvite (h : Moves c x y) :
    y.1.isInvite = x.1.isInvite ∧ y.1.isLocal = x.1.isLocal := by
  induction h with
  | refl => exact ⟨rfl, rfl⟩
  | tail _ hstep ih =>
    exact ⟨hstep.isInvite.1.trans ih.1, hstep.isInvite.2.trans ih.2⟩

theorem Moves.invite (h : Moves c x y) (hinv : x.1.isInvite = true ∨ c.lossy) :
    y.1.isInvite = true ∨ c.lossy := by
  rw [h.isInvite.1]
  exact hinv

theorem Moves.lockOpIf (lock : Bool) (op : LockOp) (t : Trans)
    (w : Multiset ℕ) : Moves c (t, w) (t.lockOpIf lock op, w) := by
  cases lock with
  | false => exact .refl
  | true => exact .single (.locked op)

/-- Scheduling the cancellations of a bitmap uses its marks up. -/
theorem Moves.cancelUacs (bm : Bitmap) (t : Trans) (f : Multiset ℕ) :
    Moves c (t, bm.val + f) (cancelUacs bm t, f) := by
  have hnodup : ((List.range t.nrOfOutgoings).filter
      fun i => decide (i ∈ bm)).Nodup := nodup_range.filter _
  have hsub : (((List.range t.nrOfOutgoings).filter
      fun i => decide (i ∈ bm) : List ℕ) : Multiset ℕ) ≤ bm.val := by
    rw [Multiset.le_iff_subset (Multiset.coe_nodup.mpr hnodup)]
    intro b hb
    have hb' := Multiset.mem_coe.mp hb
    simpa using (mem_filter.mp hb').2
  refine .tail (.single (.trim _ (Multiset.add_le_add_right hsub) ?_)) (.schedule _)
  intro b hb hlt
  rcases Multiset.mem_add.mp hb with hbm | hf
  · apply Multiset.mem_add.mpr
    left
    apply Multiset.mem_coe.mpr
    apply mem_filter.mpr
    exact ⟨mem_range.mpr hlt, by simpa using hbm⟩
  · exact Multiset.mem_add.mpr (.inr hf)

theorem Moves.cancelUacs_zero (bm : Bitmap) (t : Trans) :
    Moves c (t, bm.val) (Msicp.Tm.cancelUacs bm t, 0) := by
  simpa using Moves.cancelUacs bm t 0

/-! ## Marking -/

theorem shouldCancelBranch_moves (t : Trans) (w : Multiset ℕ) (b : ℕ) (hb : b < t.nrOfOutgoings) :
    Moves c (t, w) ((shouldCancelBranch c.prm t b).2,
      if (shouldCancelBranch c.prm t b).1 then b ::ₘ w else w) := by
  by_cases hcan : cancellable c.prm (t.branch b)
  · simp only [shouldCancelBranch, hcan, if_true]
    exact .single (.mark b hb hcan)
  · simp only [shouldCancelBranch, if_neg hcan]
    exact .refl

theorem whichCancelStep_moves (acc : Bitmap × Trans) (i : ℕ) (hi : i < acc.2.nrOfOutgoings) :
    Moves c (acc.2, acc.1.val) ((whichCancelStep c.prm acc i).2,
      (whichCancelStep c.prm acc i).1.val) := by
  by_cases hsh : (shouldCancelBranch c.prm acc.2 i).1
  · have hmoves := shouldCancelBranch_moves (c := c) acc.2 acc.1.val i hi
    simp only [hsh, if_true] at hmoves
    simp only [whichCancelStep, hsh, if_true]
    refine hmoves.tail (.trim _ ?_ ?_)
    · rw [Finset.insert_val]
      exact Multiset.ndinsert_le.mpr ⟨Multiset.le_cons_self _ _, Multiset.mem_cons_self _ _⟩
    · intro b hb _
      rw [Finset.insert_val, Multiset.mem_ndinsert]
      exact Multiset.mem_cons.mp hb
  · simp only [whichCancelStep, if_neg hsh]
    exact .refl

theorem nrOfOutgoings_whichCancelStep (prm : Params) (acc : Bitmap × Trans)
    (i : ℕ) : (whichCancelStep prm acc i).2.nrOfOutgoings =
      acc.2.nrOfOutgoings := by
  simp only [whichCancelStep, shouldCancelBranch]
  split <;> split <;> simp

theorem whichCancel_moves (bm : Bitmap) (t : Trans) :
    Moves c (t, bm.val) ((whichCancel c.prm bm t).2, (whichCancel c.prm bm t).1.val) := by
  suffices hfold : ∀ (l : List ℕ) (acc : Bitmap × Trans), (∀ i ∈ l, i < acc.2.nrOfOutgoings) →
      Moves c (acc.2, acc.1.val) ((l.foldl (whichCancelStep c.prm) acc).2,
        (l.foldl (whichCancelStep c.prm) acc).1.val) by
    apply hfold _ (bm, t)
    intro i hi
    exact mem_range.mp hi
  intro l
  induction l with
  | nil =>
    intro acc _
    exact .refl
  | cons i l ih =>
    intro acc hl
    rw [foldl_cons]
    have hstep := whichCancelStep_moves (c := c) acc i (hl i mem_cons_self)
    refine hstep.trans (ih _ ?_)
    intro j hj
    rw [nrOfOutgoings_whichCancelStep]
    exact hl j (mem_cons_of_mem _ hj)

theorem whichCancel_uac (prm : Params) (bm : Bitmap) (t : Trans) : (whichCancel prm bm t).2 =
      { t with uac := (whichCancel prm bm t).2.uac } := by
  suffices hfold : ∀ (l : List ℕ) (acc : Bitmap × Trans), (l.foldl (whichCancelStep prm) acc).2 =
        { acc.2 with uac := (l.foldl (whichCancelStep prm) acc).2.uac } by
    exact hfold _ (bm, t)
  intro l
  induction l with
  | nil =>
    intro acc
    rfl
  | cons i l ih =>
    intro acc
    rw [foldl_cons, ih]
    simp only [whichCancelStep, shouldCancelBranch]
    split <;> split <;> rfl

theorem whichCancel_uasStatus (prm : Params) (bm : Bitmap) (t : Trans) :
    (whichCancel prm bm t).2.uasStatus = t.uasStatus := by
  rw [whichCancel_uac]

/-! ## Local answers -/

/-- The calls of `_reply_light` stay within the scope: no made-up bits, no
provisional answer that drops its bits. -/
def LightEnv.Within (c : Scope) (e : LightEnv) (code : ℕ) : Prop :=
  (e.built = false → e.garbage ≠ ∅ → c.dirty) ∧ (code < 200 → c.lossy)

theorem replyLight_moves {e : LightEnv} {code : ℕ} (he : e.Within c code)
    (lock : Bool) (t : Trans) :
    Moves c (t, 0) (replyLight c.prm e code lock t, 0) := by
  by_cases hb : e.built = false
  · have hstart : Moves c (t, 0) (t, e.garbage.val) := by
      by_cases hg : e.garbage = ∅
      · rw [hg]
        exact .refl
      · have hspoil := Move.spoil (c := c) (t := t) (w := 0) (he.1 hb hg) e.garbage.val
        simpa using ReflTransGen.single hspoil
    simp only [replyLight, if_pos hb]
    split
    · refine hstart.trans ((Moves.lockOpIf lock .lock t _).trans ?_)
      refine (whichCancel_moves e.garbage _).trans ?_
      exact (Moves.lockOpIf lock .unlock _ _).trans (Moves.cancelUacs_zero _ _)
    · exact .refl
  · have hlock := Moves.lockOpIf (c := c) lock .lock t 0
    have hmark : Moves c (t, 0)
        ((if (t.lockOpIf lock .lock).isInvite then
            whichCancel c.prm ∅ (t.lockOpIf lock .lock)
          else (∅, t.lockOpIf lock .lock)).2,
        (if (t.lockOpIf lock .lock).isInvite then
            whichCancel c.prm ∅ (t.lockOpIf lock .lock)
          else (∅, t.lockOpIf lock .lock)).1.val) := by
      split
      · exact hlock.trans (whichCancel_moves ∅ _)
      · exact hlock
    simp only [replyLight, if_neg hb]
    refine hmark.trans ?_
    generalize (if (t.lockOpIf lock .lock).isInvite then
        whichCancel c.prm ∅ (t.lockOpIf lock .lock)
      else (∅, t.lockOpIf lock .lock)) = w
    by_cases hfinal : 200 ≤ w.2.uasStatus
    · rw [if_pos hfinal]
      exact (Moves.lockOpIf lock .unlock _ _).trans (Moves.cancelUacs_zero _ _)
    · have hopen : w.2.uasStatus < 200 := by omega
      rw [if_neg hfinal]
      by_cases hr : e.resized = false
      · rw [if_pos hr]
        have hresp := Move.respond (c := c) (t := w.2) (w := w.1.val) code
          w.2.relaiedReplyBranch [] (.inl rfl) (.inl hopen)
        simp only [append_nil] at hresp
        exact (ReflTransGen.single hresp).trans ((Moves.lockOpIf lock .unlock _ _).trans
            (Moves.cancelUacs_zero _ _))
      · rw [if_neg hr]
        have hresp := Move.respond (c := c) (t := w.2) (w := w.1.val) code
          (-2) (if e.resolved then [code] else [])
          (by cases e.resolved <;> simp) (.inl hopen)
        refine (ReflTransGen.single hresp).trans ((Moves.lockOpIf lock .unlock _ _).trans ?_)
        by_cases hcode : 200 ≤ code
        · rw [if_pos hcode]
          exact Moves.cancelUacs_zero _ _
        · rw [if_neg hcode]
          exact .single (.lose (he.2 (by omega)) 0 (Multiset.zero_le _))

/-! ## Failure handlers -/

/-- The handlers stay within the scope. -/
def HandlerAction.Within (c : Scope) : HandlerAction → Prop
  | .tReply code e => e.Within c code
  | .addUac _ => True

theorem runFailureHandlers_moves {actions : List HandlerAction}
    (hact : ∀ a ∈ actions, a.Within c) (onNegative : Bool) (t : Trans) :
    Moves c (t, 0) (runFailureHandlers c.prm actions onNegative t, 0) := by
  suffices hfold : ∀ (l : List HandlerAction) (t : Trans), (∀ a ∈ l, a.Within c) →
      Moves c (t, 0) (l.foldl (handlerAction c.prm) t, 0) by
    exact (ReflTransGen.single (.handler onNegative)).trans (hfold _ _ hact)
  intro l
  induction l with
  | nil =>
    intro t _
    exact .refl
  | cons a l ih =>
    intro t hl
    rw [foldl_cons]
    have hstep : Moves c (t, 0) (handlerAction c.prm t a, 0) := by
      cases a with
      | tReply code e =>
        exact replyLight_moves (hl _ mem_cons_self) false t
      | addUac request => exact .single (.add request)
    exact hstep.trans (ih _ fun a ha => hl a (mem_cons_of_mem _ ha))

/-! ## The decision -/

/-- Handlers and error answer stay within the scope. -/
structure RelayEnv.Within (c : Scope) (e : RelayEnv) : Prop where
  handlers : ∀ a ∈ e.handlers, a.Within c
  error : e.error.Within c 500

/-- What `t_should_relay_response` hands back for a negative reply. -/
theorem negativeResponse_cases
    
    (hdiscard : (tPickBranch branch newCode (t.setLastReceived branch newCode)).1 = -1 →
      P (discard bm (t.setLastReceived branch newCode)))
    (hstore : ∀ t', (t' = t.setLastReceived branch newCode ∨
        t' = runFailureHandlers prm e.handlers e.onNegative (t.setLastReceived branch newCode)) →
      P { status := .store, shouldStore := true, shouldRelay := -1,
          cancelBitmap := bm, t := t' })
    (hanswered : ∀ t', (t' = t.setLastReceived branch newCode ∨
        t' = runFailureHandlers prm e.handlers e.onNegative
          (t.setLastReceived branch newCode)) → 200 ≤ t'.uasStatus →
      P { status := .completed, shouldStore := false, shouldRelay := -1,
          cancelBitmap := bm, t := t' })
    (hpick : ∀ t', (t' = t.setLastReceived branch newCode ∨
        t' = runFailureHandlers prm e.handlers e.onNegative
          (t.setLastReceived branch newCode)) → t'.uasStatus < 200 →
      t'.nrOfOutgoings ≤ t.nrOfOutgoings →
      (tPickBranch branch newCode (t.setLastReceived branch newCode)).1 ≠ -2 →
      (tPickBranch branch newCode (t.setLastReceived branch newCode)).1 ≠ -1 →
      P { status := .completed, shouldStore := false,
          shouldRelay := (tPickBranch branch newCode (t.setLastReceived branch newCode)).1,
          cancelBitmap := bm, t := t' }) :
    P (negativeResponse prm e t newCode branch bm) := by
  have hrun := (ite_eq_or_eq (t.setLastReceived branch newCode).onFailure
    (runFailureHandlers prm e.handlers e.onNegative (t.setLastReceived branch newCode))
    (t.setLastReceived branch newCode)).symm
  have hcount : (t.setLastReceived branch newCode).nrOfOutgoings =
      t.nrOfOutgoings := Trans.nrOfOutgoings_setBranch t branch _
  simp only [negativeResponse]
  generalize (if (t.setLastReceived branch newCode).onFailure then
      runFailureHandlers prm e.handlers e.onNegative (t.setLastReceived branch newCode)
    else t.setLastReceived branch newCode) = t' at hrun ⊢
  by_cases h2 : (tPickBranch branch newCode (t.setLastReceived branch newCode)).1 = -2
  · rw [if_pos h2]
    exact hstore _ (Or.inl rfl)
  · rw [if_neg h2]
    by_cases h1 : (tPickBranch branch newCode (t.setLastReceived branch newCode)).1 = -1
    · rw [if_pos h1]
      exact hdiscard h1
    · rw [if_neg h1]
      by_cases hfinal : 200 ≤ t'.uasStatus
      · rw [if_pos hfinal]
        exact hanswered t' hrun hfinal
      · rw [if_neg hfinal]
        by_cases hadded : (t.setLastReceived branch newCode).nrOfOutgoings < t'.nrOfOutgoings
        · rw [if_pos hadded]
          exact hstore t' hrun
        · rw [if_neg hadded]
          exact hpick t' hrun (Nat.lt_of_not_le hfinal) (hcount ▸ Nat.le_of_not_lt hadded) h2 h1

/-- The cases without what is known of the pick. -/
theorem negativeResponse_rule
    
    (hdiscard : P (discard bm (t.setLastReceived branch newCode)))
    (hstore : ∀ t', (t' = t.setLastReceived branch newCode ∨
        t' = runFailureHandlers prm e.handlers e.onNegative (t.setLastReceived branch newCode)) →
      P { status := .store, shouldStore := true, shouldRelay := -1,
          cancelBitmap := bm, t := t' })
    (hpick : ∀ t' relay, (t' = t.setLastReceived branch newCode ∨
        t' = runFailureHandlers prm e.handlers e.onNegative (t.setLastReceived branch newCode)) →
      (0 ≤ relay → t'.uasStatus < 200) →
      P { status := .completed, shouldStore := false, shouldRelay := relay,
          cancelBitmap := bm, t := t' }) :
    P (negativeResponse prm e t newCode branch bm) := by
  apply negativeResponse_cases
  · intro hnone
    exact hdiscard
  · exact hstore
  · intro t' hrun hfinal
    exact hpick t' (-1) hrun (by omega)
  · intro t' hrun hopen hcount h2 h1
    exact hpick t' _ hrun fun _ => hopen

/-- What `t_should_relay_response` can hand back. -/
theorem tShouldRelayResponse_cases
    
    (hdiscard : P (discard bm t))
    (hpushed : 200 ≤ t.uasStatus → invThrough t newCode →
      P { status := .pushedAfterCompletion, shouldStore := false,
          shouldRelay := branch, cancelBitmap := bm,
          t := t.setLastReceived branch newCode })
    (hnegative : t.uasStatus < 200 → 302 < newCode → P (negativeResponse prm e t newCode branch bm))
    (hcompleted : t.uasStatus < 200 → 200 ≤ newCode → newCode ≤ 302 →
      P { status := .completed, shouldStore := false, shouldRelay := branch,
          cancelBitmap :=
            (whichCancel prm bm (t.setLastReceived branch newCode)).1,
          t := (whichCancel prm bm (t.setLastReceived branch newCode)).2 })
    (hprovisional : t.uasStatus < 200 → newCode < 200 →
      P { status := .provisional, shouldStore := false,
          shouldRelay := if newCode = 100 then -1 else branch,
          cancelBitmap := bm, t := t.setLastReceived branch newCode }) :
    P (tShouldRelayResponse prm e t newCode branch bm) := by
  simp only [tShouldRelayResponse]
  by_cases hfinal : 200 ≤ t.uasStatus
  · rw [if_pos hfinal]
    by_cases hthru : invThrough t newCode
    · rw [if_pos hthru]
      exact hpushed hfinal hthru
    · rw [if_neg hthru]
      exact hdiscard
  · have hopen : t.uasStatus < 200 := Nat.lt_of_not_le hfinal
    rw [if_neg hfinal]
    by_cases hlast : 200 ≤ (t.branch branch).lastReceived ∧
        ¬ (invThrough t newCode ∧ (t.branch branch).lastReceived ≤ 302)
    · rw [if_pos hlast]
      exact hdiscard
    · rw [if_neg hlast]
      by_cases hneg : 302 < newCode
      · rw [if_pos hneg]
        exact hnegative hopen hneg
      · rw [if_neg hneg]
        by_cases h100 : 100 ≤ newCode
        · rw [if_pos h100]
          by_cases h200 : 200 ≤ newCode
          · have hne : newCode ≠ 100 := by omega
            rw [if_pos h200, if_neg hne]
            exact hcompleted hopen h200 (Nat.le_of_not_lt hneg)
          · rw [if_neg h200]
            exact hprovisional hopen (Nat.lt_of_not_le h200)
        · rw [if_neg h100]
          exact hdiscard

/-- The cases without what is known of the status. -/
theorem tShouldRelayResponse_rule
    
    (hdiscard : P (discard bm t))
    (hpushed : 200 ≤ t.uasStatus → invThrough t newCode →
      P { status := .pushedAfterCompletion, shouldStore := false,
          shouldRelay := branch, cancelBitmap := bm,
          t := t.setLastReceived branch newCode })
    (hnegative : 302 < newCode → P (negativeResponse prm e t newCode branch bm))
    (hcompleted : t.uasStatus < 200 → ∀ relay,
      P { status := .completed, shouldStore := false, shouldRelay := relay,
          cancelBitmap :=
            (whichCancel prm bm (t.setLastReceived branch newCode)).1,
          t := (whichCancel prm bm (t.setLastReceived branch newCode)).2 })
    (hprovisional : t.uasStatus < 200 → ∀ relay,
      P { status := .provisional, shouldStore := false,
          shouldRelay := relay, cancelBitmap := bm,
          t := t.setLastReceived branch newCode }) :
    P (tShouldRelayResponse prm e t newCode branch bm) :=
  tShouldRelayResponse_cases hdiscard hpushed (fun _ => hnegative)
    (fun hopen _ _ => hcompleted hopen _)
    fun hopen _ => hprovisional hopen _

theorem negativeResponse_moves (he : e.Within c) (t : Trans) (branch : ℕ) (bm : Bitmap) :
    Moves c (t, bm.val) ((negativeResponse c.prm e t c.code branch bm).t,
        (negativeResponse c.prm e t c.code branch bm).cancelBitmap.val) := by
  have hrec : Moves c (t, bm.val) (t.setLastReceived branch c.code, bm.val) :=
    .single (.received branch)
  have hrun : ∀ t', (t' = t.setLastReceived branch c.code ∨
      t' = runFailureHandlers c.prm e.handlers e.onNegative (t.setLastReceived branch c.code)) →
      Moves c (t, bm.val) (t', bm.val) := by
    rintro t' (rfl | rfl)
    · exact hrec
    · exact hrec.trans ((runFailureHandlers_moves he.handlers e.onNegative
        (t.setLastReceived branch c.code)).frame_zero _)
  apply negativeResponse_rule (P := fun d =>
    Moves c (t, bm.val) (d.t, d.cancelBitmap.val))
  · exact hrec
  · intro t' ht'
    exact hrun t' ht'
  · intro t' relay ht' hopen
    exact hrun t' ht'

theorem tShouldRelayResponse_moves (he : e.Within c) (t : Trans) (branch : ℕ) (bm : Bitmap) :
    Moves c (t, bm.val) ((tShouldRelayResponse c.prm e t c.code branch bm).t,
        (tShouldRelayResponse c.prm e t c.code branch bm).cancelBitmap.val) := by
  have hrec : Moves c (t, bm.val) (t.setLastReceived branch c.code, bm.val) :=
    .single (.received branch)
  apply tShouldRelayResponse_rule (P := fun d =>
    Moves c (t, bm.val) (d.t, d.cancelBitmap.val))
  · exact .refl
  · intro hfinal hthru
    exact hrec
  · intro hneg
    exact negativeResponse_moves he t branch bm
  · intro hopen relay
    exact hrec.trans (whichCancel_moves bm _)
  · intro hopen relay
    exact hrec

theorem unset_relay : ¬ (0 : ℤ) ≤ -1 := by decide

theorem tShouldRelayResponse_cancelBitmap (prm : Params) (e : RelayEnv)
    (t : Trans) (newCode branch : ℕ) (bm : Bitmap) :
    (tShouldRelayResponse prm e t newCode branch bm).status = .completed ∨
      (tShouldRelayResponse prm e t newCode branch bm).cancelBitmap = bm := by
  apply tShouldRelayResponse_rule (P := fun d =>
    d.status = .completed ∨ d.cancelBitmap = bm)
  · exact Or.inr rfl
  · intro hfinal hthru
    exact Or.inr rfl
  · intro hneg
    apply negativeResponse_rule (P := fun d =>
      d.status = .completed ∨ d.cancelBitmap = bm)
    · exact Or.inr rfl
    · intro t' ht'
      exact Or.inr rfl
    · intro t' relay ht' hopen
      exact Or.inl rfl
  · intro hopen relay
    exact Or.inl rfl
  · intro hopen relay
    exact Or.inr rfl

theorem negativeResponse_bitmap (prm : Params) (e : RelayEnv) (t : Trans)
    (newCode branch : ℕ) (bm : Bitmap) :
    negativeResponse prm e t newCode branch bm =
      { negativeResponse prm e t newCode branch ∅ with
        cancelBitmap := bm } := by
  simp only [negativeResponse, discard]
  generalize (if (t.setLastReceived branch newCode).onFailure then
      runFailureHandlers prm e.handlers e.onNegative (t.setLastReceived branch newCode)
    else t.setLastReceived branch newCode) = t'
  split
  · rfl
  · split
    · rfl
    · split
      · rfl
      · split
        · rfl
        · rfl

theorem tShouldRelayResponse_negative (prm : Params) (e : RelayEnv)
    (t : Trans) (newCode branch : ℕ) (bm : Bitmap) (h : 302 < newCode) :
    tShouldRelayResponse prm e t newCode branch bm =
      { tShouldRelayResponse prm e t newCode branch ∅ with
        cancelBitmap := bm } := by
  have hbm := negativeResponse_bitmap prm e t newCode branch bm
  simp only [tShouldRelayResponse, discard, if_pos h]
  split
  · split
    · rfl
    · rfl
  · split
    · rfl
    · exact hbm

/-- A reply is relayed at once or stored, never both. -/
theorem tShouldRelayResponse_store (prm : Params) (e : RelayEnv) (t : Trans)
    (newCode branch : ℕ) (bm : Bitmap)
    (h : 0 ≤ (tShouldRelayResponse prm e t newCode branch bm).shouldRelay) :
    (tShouldRelayResponse prm e t newCode branch bm).shouldStore = false := by
  revert h
  apply tShouldRelayResponse_rule (P := fun d =>
    0 ≤ d.shouldRelay → d.shouldStore = false)
  · intro h
    rfl
  · intro hfinal hthru h
    rfl
  · intro hneg
    apply negativeResponse_rule (P := fun d =>
      0 ≤ d.shouldRelay → d.shouldStore = false)
    · intro h
      rfl
    · intro t' ht' h
      exact absurd h unset_relay
    · intro t' relay ht' hopen h
      rfl
  · intro hopen relay h
    rfl
  · intro hopen relay h
    rfl

theorem tShouldRelayResponse_status (prm : Params) (e : RelayEnv)
    (t : Trans) (newCode branch : ℕ) (bm : Bitmap) :
    (tShouldRelayResponse prm e t newCode branch bm).status ≠ .error := by
  apply tShouldRelayResponse_rule (P := fun d => d.status ≠ .error)
  · exact Rps.noConfusion
  · intro hfinal hthru
    exact Rps.noConfusion
  · intro hneg
    apply negativeResponse_rule (P := fun d => d.status ≠ .error)
    · exact Rps.noConfusion
    · intro t' ht'
      exact Rps.noConfusion
    · intro t' relay ht' hopen
      exact Rps.noConfusion
  · intro hopen relay
    exact Rps.noConfusion
  · intro hopen relay
    exact Rps.noConfusion

/-- What is relayed is relayed before any final answer, or is the reply at
hand, let through after it. -/
theorem tShouldRelayResponse_relay (prm : Params) (e : RelayEnv) (t : Trans)
    (newCode branch : ℕ) (bm : Bitmap)
    (h : 0 ≤ (tShouldRelayResponse prm e t newCode branch bm).shouldRelay) :
    (tShouldRelayResponse prm e t newCode branch bm).t.uasStatus < 200 ∨
      (200 ≤ t.uasStatus ∧ invThrough t newCode ∧
        (tShouldRelayResponse prm e t newCode branch bm).shouldRelay = branch) := by
  revert h
  apply tShouldRelayResponse_rule (P := fun d => 0 ≤ d.shouldRelay → d.t.uasStatus < 200 ∨
      (200 ≤ t.uasStatus ∧ invThrough t newCode ∧ d.shouldRelay = branch))
  · intro h
    exact absurd h unset_relay
  · intro hfinal hthru h
    exact Or.inr ⟨hfinal, hthru, rfl⟩
  · intro hneg
    apply negativeResponse_rule (P := fun d => 0 ≤ d.shouldRelay → d.t.uasStatus < 200 ∨
        (200 ≤ t.uasStatus ∧ invThrough t newCode ∧ d.shouldRelay = branch))
    · intro h
      exact absurd h unset_relay
    · intro t' ht' h
      exact absurd h unset_relay
    · intro t' relay ht' hopen h
      exact Or.inl (hopen h)
  · intro hopen relay h
    left
    rw [whichCancel_uasStatus]
    exact hopen
  · intro hopen relay h
    exact Or.inl hopen

/-! ## Carrying the decision out -/

theorem cancelUacs_invite_moves (bm : Bitmap) (t : Trans) (hinv : t.isInvite = true ∨ c.lossy) :
    Moves c (t, bm.val) (if t.isInvite then cancelUacs bm t else t, 0) := by
  by_cases hi : t.isInvite = true
  · rw [if_pos hi]
    exact Moves.cancelUacs_zero bm t
  · rw [if_neg hi]
    exact .single (.lose (hinv.resolve_left hi) 0 (Multiset.zero_le _))

theorem relayError_moves (he : e.Within c) (bm : Bitmap)
    (t : Trans) (hinv : t.isInvite = true ∨ c.lossy) :
    Moves c (t, bm.val) (relayError c.prm e bm t, 0) := by
  have hreply : Moves c (t, bm.val) ((tReplyUnsafe c.prm e.error 500 t).lockOp .unlock, bm.val) :=
    .tail ((replyLight_moves he.error false t).frame_zero bm.val) (.locked .unlock)
  exact hreply.trans (cancelUacs_invite_moves bm _ (Moves.invite hreply hinv))

theorem relayedCode_self {m : Rpl} (hmsg : pMsg = .faked ∨ pMsg = .msg msgStatus)
    (hm : relayedMsg pMsg t branch branch = some m) :
    relayedCode m t branch msgStatus branch = msgStatus := by
  have hself : pMsg = m := by simpa [relayedMsg] using hm
  subst hself
  rcases hmsg with rfl | rfl
  · simp [relayedCode]
  · rfl

theorem storeReply_moves {stored : Bool} (w : Multiset ℕ)
    (h : (if d.shouldStore then storeReply stored branch pMsg d.t
      else some d.t) = some t) :
    Moves c (d.t, w) (t, w) := by
  by_cases hst : d.shouldStore
  · simp only [if_pos hst, storeReply] at h
    split at h
    · cases h
      exact .single (.stored branch _)
    · cases h
  · simp only [if_neg hst] at h
    cases h
    exact .refl

theorem storeReply_relay {stored : Bool} (hd : d.shouldStore = false)
    (h : (if d.shouldStore then storeReply stored branch pMsg d.t
      else some d.t) = some t) : t = d.t := by
  rw [hd] at h
  exact (Option.some.inj h).symm

/-- The move that sends a reply upstream, or that only notes its code. -/
theorem respond_moves
    {m : Rpl} (hthru : 200 ≤ t.uasStatus → c.thru)
    (hmsg : pMsg = .faked ∨ pMsg = .msg c.code)
    (hd : d = tShouldRelayResponse c.prm e t c.code branch bm)
    (hrelay : 0 ≤ d.shouldRelay)
    (hm : relayedMsg pMsg d.t branch d.shouldRelay = some m)
    (relaied : ℤ) (sent : List ℕ)
    (hsent : sent = [] ∨ sent = [relayedCode m d.t branch c.code d.shouldRelay])
    (w : Multiset ℕ) :
    Moves c (d.t, w) ({ d.t with
      uasStatus := relayedCode m d.t branch c.code d.shouldRelay
      relaiedReplyBranch := relaied
      upstream := d.t.upstream ++ sent }, w) := by
  refine .single (.respond _ relaied sent hsent ?_)
  rw [hd] at hrelay
  rcases tShouldRelayResponse_relay _ _ _ _ _ _ hrelay with hopen | hthrough
  · left
    rw [hd]
    exact hopen
  · right
    obtain ⟨hfinal, hinv, hself⟩ := hthrough
    rw [← hd] at hself
    rw [hself] at hm ⊢
    rw [relayedCode_self hmsg hm]
    simp only [invThrough, Bool.and_eq_true, decide_eq_true_eq] at hinv
    exact ⟨hthru hfinal, rfl, hinv.1.1, hinv.1.2⟩

/-- `relay_reply` is a sequence of moves; on an error its bits have been
scheduled. -/
theorem relayReply_moves (he : e.Within c)
    
    (hinv : t.isInvite = true ∨ c.lossy) (hthru : 200 ≤ t.uasStatus → c.thru)
    (hmsg : pMsg = .faked ∨ pMsg = .msg c.code)
    (h : relayReply c.prm e t pMsg branch c.code bm = .ok (st, bm', t')) :
    Moves c (t, bm.val) (t', if st = .error then 0 else bm'.val) := by
  have henter : Moves c (t, bm.val) (t.lockOp .enter, bm.val) :=
    .single (.locked .enter)
  have hdec := henter.trans (tShouldRelayResponse_moves he (t.lockOp .enter) branch bm)
  have hinv' := Moves.invite hdec hinv
  simp only [relayReply] at h
  generalize hd : tShouldRelayResponse c.prm e (t.lockOp .enter) c.code
    branch bm = d at h hdec hinv'
  split at h
  · cases h
    rw [if_pos rfl]
    exact hdec.trans (relayError_moves he _ _ hinv')
  · rename_i u hstore
    have hstored := hdec.trans (storeReply_moves (c := c) d.cancelBitmap.val hstore)
    have hinvu : u.isInvite = true ∨ c.lossy := Moves.invite hstored hinv
    by_cases hrelay : 0 ≤ d.shouldRelay
    · rw [if_pos hrelay] at h
      have hst : d.shouldStore = false := by
        rw [← hd] at hrelay ⊢
        exact tShouldRelayResponse_store _ _ _ _ _ _ hrelay
      have hu : u = d.t := storeReply_relay hst hstore
      split at h
      · cases h
      · rename_i m hm
        simp only [hst, Bool.false_eq_true, if_false] at h
        split at h
        · cases h
          rw [if_pos rfl]
          exact hstored.trans (relayError_moves he _ _ hinvu)
        · cases h
          have hne : ¬ d.status = .error := by
            rw [← hd]
            exact tShouldRelayResponse_status _ _ _ _ _ _
          rw [if_neg hne]
          subst hu
          have hresp := respond_moves (c := c) (t := t.lockOp .enter)
            hthru hmsg hd.symm hrelay hm d.shouldRelay _ (.inr rfl)
            d.cancelBitmap.val
          exact hdec.trans (hresp.tail (.locked .unlock))
    · rw [if_neg hrelay] at h
      cases h
      have hne : ¬ d.status = .error := by
        rw [← hd]
        exact tShouldRelayResponse_status _ _ _ _ _ _
      rw [if_neg hne]
      exact hstored.tail (.locked .unlock)

/-- `local_reply` is a sequence of moves; on an error its bits have been
scheduled. -/
theorem localReply_moves (he : e.Within c)
    
    (hinv : t.isInvite = true ∨ c.lossy) (hthru : 200 ≤ t.uasStatus → c.thru)
    (hmsg : pMsg = .faked ∨ pMsg = .msg c.code)
    (h : localReply c.prm e t pMsg branch c.code = .ok (st, bm', t')) :
    Moves c (t, 0) (t', if st = .error then 0 else bm'.val) := by
  have henter : Moves c (t, 0) (t.lockOp .enter, (∅ : Bitmap).val) :=
    .single (.locked .enter)
  have hdec := henter.trans (tShouldRelayResponse_moves he (t.lockOp .enter) branch ∅)
  have hinv' := Moves.invite hdec hinv
  simp only [localReply] at h
  generalize hd : tShouldRelayResponse c.prm e (t.lockOp .enter) c.code branch ∅ = d at h hdec hinv'
  have hne : ¬ d.status = .error := by
    rw [← hd]
    exact tShouldRelayResponse_status _ _ _ _ _ _
  split at h
  · have hmark := hdec.trans (whichCancel_moves d.cancelBitmap d.t)
    cases h
    rw [if_pos rfl]
    exact hmark.trans (.head (.locked .unlock)
      (cancelUacs_invite_moves _ _ (Moves.invite hmark hinv)))
  · rename_i u hstore
    have hstored := hdec.trans (storeReply_moves (c := c) d.cancelBitmap.val hstore)
    by_cases hrelay : 0 ≤ d.shouldRelay
    · rw [if_pos hrelay] at h
      have hst : d.shouldStore = false := by
        rw [← hd] at hrelay ⊢
        exact tShouldRelayResponse_store _ _ _ _ _ _ hrelay
      have hu : u = d.t := storeReply_relay hst hstore
      split at h
      · cases h
      · rename_i m hm
        cases h
        rw [if_neg hne]
        subst hu
        have hresp := respond_moves (c := c) (t := t.lockOp .enter)
          hthru hmsg hd.symm hrelay hm d.t.relaiedReplyBranch [] (.inl rfl)
          d.cancelBitmap.val
        simp only [append_nil] at hresp
        exact hdec.trans (hresp.tail (.locked .unlock))
    · rw [if_neg hrelay] at h
      cases h
      rw [if_neg hne]
      exact hstored.tail (.locked .unlock)

theorem relayReply_ok
    
    (h : relayReply prm e t pMsg branch msgStatus bm = .ok (st, bm', t')) :
    bm' = (tShouldRelayResponse prm e (t.lockOp .enter) msgStatus branch bm).cancelBitmap ∧
      (st = .error ∨ st = (tShouldRelayResponse prm e (t.lockOp .enter)
        msgStatus branch bm).status) := by
  simp only [relayReply] at h
  split at h
  · cases h
    exact ⟨rfl, .inl rfl⟩
  · split at h
    · split at h
      · cases h
      · split at h
        · cases h
          exact ⟨rfl, .inl rfl⟩
        · cases h
          exact ⟨rfl, .inr rfl⟩
    · cases h
      exact ⟨rfl, .inr rfl⟩

/-- The bitmap plays no part in relaying a reply above 302. -/
theorem relayReply_negative
    
    (hneg : 302 < msgStatus) (hst : st ≠ .error)
    (h : relayReply prm e t pMsg branch msgStatus bm = .ok (st, bm', t')) :
    relayReply prm e t pMsg branch msgStatus ∅ = .ok (st, ∅, t') := by
  simp only [relayReply] at h ⊢
  rw [tShouldRelayResponse_negative _ _ _ _ _ bm hneg] at h
  rw [tShouldRelayResponse_negative _ _ _ _ _ ∅ hneg]
  generalize tShouldRelayResponse prm e (t.lockOp .enter) msgStatus branch ∅ = d at h ⊢
  split at h
  · cases h
    exact absurd rfl hst
  · rename_i u hstore
    rw [hstore]
    split at h
    · rename_i hrelay
      simp only [if_pos hrelay]
      split at h
      · cases h
      · rename_i m hmsg
        rw [hmsg]
        split at h
        · cases h
          exact absurd rfl hst
        · rename_i hbuilt
          simp only [if_neg hbuilt]
          cases h
          rfl
    · rename_i hrelay
      simp only [if_neg hrelay]
      cases h
      rfl

/-- A faked reply is stored without memory, so that only building and
allocating the answer can fail. -/
theorem relayReply_faked
    
    (hbuilt : e.built = true) (hresized : e.resized = true)
    (h : relayReply prm e t .faked branch msgStatus bm = .ok (st, bm', t')) :
    st ≠ .error := by
  have hst := tShouldRelayResponse_status prm e (t.lockOp .enter) msgStatus branch bm
  simp only [relayReply, storeReply, true_or, if_true] at h
  generalize tShouldRelayResponse prm e (t.lockOp .enter) msgStatus branch bm = d at h hst
  split at h
  · rename_i hnone
    split at hnone <;> cases hnone
  · split at h
    · split at h
      · cases h
      · rw [if_neg (by simp [hbuilt, hresized])] at h
        cases h
        exact hst
    · cases h
      exact hst

theorem localReply_ok
    
    (h : localReply prm e t pMsg branch msgStatus = .ok (st, bm', t')) :
    st = .error ∨ (bm' = (tShouldRelayResponse prm e (t.lockOp .enter) msgStatus branch
        ∅).cancelBitmap ∧
        st = (tShouldRelayResponse prm e (t.lockOp .enter) msgStatus branch ∅).status) := by
  simp only [localReply] at h
  split at h
  · cases h
    exact .inl rfl
  · split at h
    · split at h
      · cases h
      · cases h
        exact .inr ⟨rfl, rfl⟩
    · cases h
      exact .inr ⟨rfl, rfl⟩

/-! ## The entry points -/

theorem exceptMap_ok {ε α β : Type*} {x : Except ε α} {f : α → β} {y : β}
    (h : x.map f = .ok y) : ∃ a, x = .ok a ∧ f a = y := by
  cases x with
  | error e => cases h
  | ok a =>
    cases h
    exact ⟨a, rfl, rfl⟩

/-- The bits of a finished section are scheduled on completion; there are none
otherwise. -/
theorem finish_moves (hmoves : Moves c (t, 0) (t', if st = .error then 0 else bm.val))
    (hbm : st = .error ∨ st = .completed ∨ bm = ∅)
    (hinv : t.isInvite = true ∨ c.lossy) :
    Moves c (t, 0) (if st = .completed ∧ t'.isInvite then cancelUacs bm t' else t', 0) := by
  have hinv' := Moves.invite hmoves hinv
  by_cases hst : st = .completed
  · rw [if_neg (by simp [hst])] at hmoves
    simp only [hst, true_and]
    exact hmoves.trans (cancelUacs_invite_moves bm t' hinv')
  · rw [if_neg fun h => hst h.1]
    rcases hbm with herr | hcomp | hempty
    · rw [if_pos herr] at hmoves
      exact hmoves
    · exact absurd hcomp hst
    · rw [hempty] at hmoves
      simpa using hmoves

section

variable (he : e.Within c)
include he

theorem replyReceived_moves
    {cseqCancel : Bool} (hinv : t.isInvite = true ∨ c.lossy)
    (hthru : 200 ≤ t.uasStatus → c.thru)
    (h : replyReceived c.prm e cseqCancel branch c.code t = .ok t') :
    Moves c (t, 0) (t', 0) := by
  have hlock : Moves c (t, 0) (t.lockOp .lock, 0) := .single (.locked .lock)
  simp only [replyReceived] at h
  split at h
  · cases h
    exact .refl
  · split at h
    · obtain ⟨⟨st, bm, u⟩, hr, hu⟩ := exceptMap_ok h
      subst hu
      have hmoves := hlock.trans
        (localReply_moves (t := t.lockOp .lock) he hinv hthru (.inr rfl) hr)
      refine finish_moves hmoves ?_ hinv
      rcases localReply_ok hr with herr | ⟨hbm, hst⟩
      · exact .inl herr
      · right
        rw [hbm, hst]
        exact tShouldRelayResponse_cancelBitmap _ _ _ _ _ _
    · obtain ⟨⟨st, bm, u⟩, hr, hu⟩ := exceptMap_ok h
      subst hu
      have hmoves := hlock.trans
        (relayReply_moves (t := t.lockOp .lock) he hinv hthru (.inr rfl) hr)
      refine finish_moves hmoves ?_ hinv
      obtain ⟨hbm, hst⟩ := relayReply_ok hr
      rcases hst with herr | hst
      · exact .inl herr
      · right
        rw [hbm, hst]
        exact tShouldRelayResponse_cancelBitmap _ _ _ _ _ _

/-- `relay_reply` on a reply above 302 makes no use of marks unless it
fails. -/
theorem relayReply_negative_moves
    
    (hinv : t.isInvite = true ∨ c.lossy) (hthru : 200 ≤ t.uasStatus → c.thru)
    (hmsg : pMsg = .faked ∨ pMsg = .msg c.code) (hneg : 302 < c.code)
    (hbm : bm = ∅ ∨ st ≠ .error ∨ c.dirty)
    (h : relayReply c.prm e t pMsg branch c.code bm = .ok (st, bm', t')) :
    Moves c (t, 0) (t', 0) := by
  by_cases hst : st = .error
  · have hmoves := relayReply_moves he hinv hthru hmsg h
    rw [if_pos hst] at hmoves
    rcases hbm with hempty | hne | hdirty
    · rw [hempty] at hmoves
      exact hmoves
    · exact absurd hst hne
    · have hspoil := Move.spoil (c := c) (t := t) (w := 0) hdirty bm.val
      exact .head (by simpa using hspoil) hmoves
  · have hmoves := relayReply_moves he hinv hthru hmsg (relayReply_negative hneg hst h)
    simpa [hst] using hmoves

/-- `fake_reply` behind its mark; the mark of the branch is used up by its own
`cancel_branch`.  With a mark, a failure of `relay_reply` schedules the branch
twice. -/
theorem fakeReplyRelay_moves
    {doCancelBranch : Bool} (hinv : t.isInvite = true ∨ c.lossy)
    (hthru : 200 ≤ t.uasStatus → c.thru) (hneg : 302 < c.code)
    (hfail : doCancelBranch = true → (e.built = true ∧ e.resized = true) ∨ c.dirty)
    (h : fakeReplyRelay c.prm e doCancelBranch branch c.code t = .ok t') :
    Moves c (t, if doCancelBranch then {branch} else 0) (t', 0) := by
  simp only [fakeReplyRelay] at h
  obtain ⟨⟨st, bm, u⟩, hr, hu⟩ := exceptMap_ok h
  have hrelay : Moves c (t, 0) (u, 0) := by
    split at hr
    · have hmoves := localReply_moves he hinv hthru (.inl rfl) hr
      rcases localReply_ok hr with herr | ⟨hbm, -⟩
      · rw [if_pos herr] at hmoves
        exact hmoves
      · rw [tShouldRelayResponse_negative _ _ _ _ _ _ hneg] at hbm
        rw [hbm] at hmoves
        simpa using hmoves
    · refine relayReply_negative_moves he hinv hthru (.inl rfl) hneg ?_ hr
      cases doCancelBranch with
      | false => exact .inl rfl
      | true =>
        right
        rcases hfail rfl with hgood | hdirty
        · exact .inl (relayReply_faked hgood.1 hgood.2 hr)
        · exact .inr hdirty
  cases doCancelBranch with
  | false =>
    have htu : u = t' := by simpa using hu
    simpa [htu] using hrelay
  | true =>
    have htu : { u with cancels := u.cancels ++ [branch] } = t' := by
      simpa using hu
    rw [← htu]
    have hsched := Move.schedule (c := c) (t := u) (w := 0) [branch]
    refine (hrelay.frame_zero {branch}).tail ?_
    simpa using hsched

theorem fakeReply_moves (hinv : t.isInvite = true ∨ c.lossy) (hb : branch < t.nrOfOutgoings)
    (hthru : 200 ≤ t.uasStatus → c.thru) (hneg : 302 < c.code)
    (hfail : (e.built = true ∧ e.resized = true) ∨ c.dirty)
    (h : fakeReply c.prm e branch c.code t = .ok t') :
    Moves c (t, 0) (t', 0) := by
  simp only [fakeReply] at h
  split at h
  · have hmark := shouldCancelBranch_moves (c := c) t 0 branch hb
    refine hmark.trans ?_
    have hrelay := fakeReplyRelay_moves he (Moves.invite hmark hinv)
      (fun hs => hthru ?_) hneg (fun _ => hfail) h
    · simpa using hrelay
    · simp only [shouldCancelBranch] at hs
      split at hs <;> exact hs
  · exact fakeReplyRelay_moves he hinv hthru hneg (fun _ => hfail) h

theorem finalResponseHandler_moves
    {activType : ActivType}
    (hinv : t.isInvite = true ∨ c.lossy) (hb : branch < t.nrOfOutgoings)
    (hthru : 200 ≤ t.uasStatus → c.thru) (hcode : c.code = 408)
    (hfail : (e.built = true ∧ e.resized = true) ∨ c.dirty)
    (h : finalResponseHandler c.prm e activType branch t = .ok t') :
    Moves c (t, 0) (t', 0) := by
  have hlock : Moves c (t, 0) (t.lockOp .lock, 0) := .single (.locked .lock)
  cases activType with
  | localCancel =>
    cases h
    exact .refl
  | reply =>
    cases h
    exact .refl
  | request =>
    simp only [finalResponseHandler] at h
    split at h
    · cases h
      exact hlock.tail (.locked .unlock)
    · rw [← hcode] at h
      refine hlock.trans (fakeReply_moves (t := t.lockOp .lock) he hinv hb hthru ?_ hfail h)
      omega

theorem e2eCancelRound_moves
    {tmpBm : Bitmap} {failed : Bool}
    (hinv : t.isInvite = true ∨ c.lossy) (hthru : 200 ≤ t.uasStatus → c.thru)
    (hcode : c.code = 487)
    (hfail : (e.built = true ∧ e.resized = true) ∨ c.dirty)
    (h : e2eCancelRound c.prm e tmpBm branch t = .ok (failed, t')) :
    Moves c (t, 0) (t', 0) := by
  have hlock : Moves c (t, 0) (t.lockOp .lock, 0) := .single (.locked .lock)
  simp only [e2eCancelRound] at h
  split at h
  · obtain ⟨⟨st, bm, u⟩, hr, hu⟩ := exceptMap_ok h
    have htu : u = t' := congrArg Prod.snd hu
    subst htu
    rw [← hcode] at hr
    refine hlock.trans (relayReply_negative_moves (t := t.lockOp .lock) he
      hinv hthru (.inl rfl) (by omega) (.inr ?_) hr)
    rcases hfail with hgood | hdirty
    · exact .inl (relayReply_faked hgood.1 hgood.2 hr)
    · exact .inr hdirty
  · cases h
    exact .refl

end

end Msicp.Tm
