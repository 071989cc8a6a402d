import Msicp.TcpMain.PassingMain

/-!
# Runs of all processes

Where every message to main arrives, and every connection that is handed over,
the references, the reader and the busy counts are right throughout.
-/

namespace Msicp.TcpMain.Passing

open Msicp.Support Function Option

variable {P : Type} {n : ℕ} {s s' : Procs P n} {l : Label P n} {c : Addr}

/-- No message that takes a reference along is lost, the descriptor behind
`CONN_NEW` is sent, and the answer to `CONN_GET_FD` is the one asked for. -/
def Kept : Label P n → Procs P n → Prop
  | .send2child sent, _ => sent = true
  | .childReceive _ _ sent, _ => sent = true
  | .childBad _ _ sent, _ => sent = true
  | .childRead _ _ _ _ sent, _ => sent = true
  | .childTimeout _ _ sent, _ => sent = true
  | .receiveFd p received, s => received = true → (s.sender p).answers.head? = (s.sender p).pc.conn
  | .announce _ sent fdSent, _ => sent = true → fdSent = true
  | .report _ sent, _ => sent = true
  | _, _ => True

/-! ## Every step -/

section

variable [Fintype P]

theorem Inv.childStep (h : Inv s) (hkept : Kept l s)
    (hstep : childStep s l = some s') : Inv s' := by
  unfold Passing.childStep at hstep
  split at hstep
  case h_1 r fd sent =>
    have hsent : sent = true := hkept
    subst hsent
    split at hstep
    · cases hstep
    · rename_i c rest hin
      dsimp only at hstep
      split at hstep
      · cases hstep
        exact (h.setState c .bad).refuse .error hin
      · have hkeep := h.setTimeout c (s.ticks + tcpChildTimeout)
        split at hstep
        · cases hstep
          exact hkeep.refuse .error hin
        · cases hstep
          exact hkeep.take hin
  case h_2 r c sent =>
    have hsent : sent = true := hkept
    subst hsent
    dsimp only at hstep
    split at hstep
    · rename_i hmem
      cases hstep
      exact (h.setState c .bad).giveBack .error hmem.1
    · cases hstep
  case h_3 r c eof resp sent =>
    have hsent : sent = true := hkept
    subst hsent
    dsimp only at hstep
    split at hstep
    · rename_i hmem
      -- the end of the stream is noted first, or not
      generalize hu : (if eof = true then s.upd c fun k => { k with state := .eof }
        else s) = u at hstep
      have hinv : Inv u := by
        rw [← hu]
        split
        · exact h.setState c .eof
        · exact h
      have hlist : c ∈ (u.child r).list := by
        rw [← hu]
        split <;> exact hmem
      have hchild : s.child r = u.child r := by
        rw [← hu]
        split <;> rfl
      rw [hchild] at hstep
      split at hstep
      · cases hstep
        exact hinv.setTimeout c _
      · cases hstep
        exact (hinv.setState c .bad).giveBack resp hlist
    · cases hstep
  case h_4 r c sent =>
    have hsent : sent = true := hkept
    subst hsent
    dsimp only at hstep
    split at hstep
    · rename_i hmem
      cases hstep
      exact h.giveBack .release hmem.1
    · cases hstep
  case h_5 => cases hstep

variable [DecidableEq P]

theorem Inv.senderStep (h : Inv s) (hkept : Kept l s)
    (hstep : senderStep s l = some s') : Inv s' := by
  unfold Passing.senderStep at hstep
  split at hstep
  case h_1 p c =>
    split at hstep
    · rename_i k hpc hk
      split at hstep
      · rename_i hfound
        cases hstep
        refine h.find hpc ?_ (by rw [hk]; exact some_ne_none k)
        unfold Listed
        rw [hk]
        exact hfound.1
      · cases hstep
    · cases hstep
  case h_2 p c =>
    split at hstep
    · rename_i hnew
      cases hstep
      exact h.connect hnew.1 hnew.2
    · cases hstep
  case h_3 p sent =>
    dsimp only at hstep
    split at hstep
    · rename_i c hpc
      split at hstep
      · cases hstep
        exact h.askFd hpc
      · cases hstep
        exact h.put (by rw [hpc]; rfl) rfl rfl
    · cases hstep
  case h_4 p received =>
    dsimp only at hstep
    split at hstep
    · rename_i tmp hpc
      split at hstep
      · rename_i hreceived
        split at hstep
        · cases hstep
        · rename_i c rest hanswers
          have hhead := hkept hreceived
          rw [hanswers, hpc] at hhead
          have hsame : c = tmp := some.inj hhead
          rw [if_pos hsame] at hstep
          cases hstep
          refine h.sender_same ?_
          unfold Sender.all
          rw [hpc, hsame]
          rfl
      · cases hstep
        exact h.put (by rw [hpc]; rfl) rfl rfl
    · cases hstep
  case h_5 p sent fdSent =>
    dsimp only at hstep
    split at hstep
    · rename_i c hpc
      split at hstep
      · rename_i hsent
        rw [if_pos (hkept hsent)] at hstep
        cases hstep
        refine h.sender_same ?_
        unfold Sender.all
        rw [hpc, SendPc.pending, SendPc.pending, List.append_assoc]
        rfl
      · cases hstep
        exact h.put (by rw [hpc]; rfl) rfl rfl
    · cases hstep
  case h_6 p written =>
    dsimp only at hstep
    split at hstep
    · rename_i c hpc
      split at hstep
      · cases hstep
        exact h.put (by rw [hpc]; rfl) rfl rfl
      · cases hstep
        have hmarked : Inv (s.upd c fun k =>
            { k with state := .bad, timeout := 0 }) :=
          h.touch fun k => ⟨rfl, rfl⟩
        refine hmarked.sender_same ?_
        unfold Sender.all Procs.upd
        dsimp only
        rw [hpc]
        rfl
    · cases hstep
  case h_7 p sent =>
    dsimp only at hstep
    split at hstep
    · rename_i c hpc
      have hsent : sent = true := hkept
      subst hsent
      cases hstep
      refine h.sender_same ?_
      unfold Sender.all
      rw [hpc, SendPc.pending, SendPc.pending, List.append_nil]
      rfl
    · cases hstep
  case h_8 => cases hstep

theorem Inv.mainStep [NeZero n] (h : Inv s) (hkept : Kept l s)
    (hstep : mainStep s l = some s') : Inv s' := by
  unfold Passing.mainStep at hstep
  split at hstep
  case h_1 c =>
    split at hstep
    · rename_i hnew
      cases hstep
      exact h.accept hnew.1 hnew.2
    · cases hstep
  case h_2 c =>
    split at hstep
    · cases hstep
    · split at hstep
      · rename_i hready
        cases hstep
        exact h.dataAvailable hready.1 hready.2.2.2
      · cases hstep
  case h_3 =>
    split at hstep
    · rename_i c hmain
      cases hstep
      exact h.ref hmain
    · cases hstep
  case h_4 sent =>
    have hsent : sent = true := hkept
    subst hsent
    split at hstep
    · rename_i c hmain
      cases hstep
      exact h.send2child hmain
    · cases hstep
  case h_5 r =>
    split at hstep
    · rename_i c cmd rest hidle hout
      dsimp only at hstep
      split at hstep
      · cases hstep
        refine h.fromChild hidle hout rfl rfl rfl ?_ (.inl rfl)
        dsimp only
        split
        · exact .inr rfl
        · exact .inl rfl
      all_goals
        cases hstep
        exact h.fromChild hidle hout rfl rfl rfl (.inr rfl) (.inr rfl)
    · cases hstep
  case h_6 =>
    split at hstep
    · rename_i c hmain
      cases hstep
      exact h.release hmain
    · cases hstep
  case h_7 =>
    split at hstep
    · rename_i c hmain
      cases hstep
      exact h.destroy hmain
    · cases hstep
  case h_8 p answered =>
    split at hstep
    · rename_i req rest hidle hqueue
      dsimp only at hstep
      split at hstep
      · cases hstep
        exact h.fromSender_error hidle hqueue
      · cases hstep
        exact h.fromSender_getFd hqueue
      · cases hstep
        exact h.fromSender_new hidle hqueue
      · cases hstep
    · cases hstep
  case h_9 c =>
    split at hstep
    · cases hstep
    · rename_i k hk
      split at hstep
      · rename_i hold
        cases hstep
        exact h.timeout hold.1 hk hold.2.1 hold.2.2.1
      · cases hstep
  case h_10 => cases hstep

theorem Inv.step [NeZero n] (h : Inv s) (hkept : Kept l s)
    (hstep : step l s = some s') : Inv s' := by
  unfold Passing.step at hstep
  split at hstep
  case h_1 =>
    cases hstep
    exact ⟨h.count, h.single, h.listed, h.news, h.fresh, h.known, h.cleared, h.busy⟩
  all_goals first
    | exact h.mainStep hkept hstep
    | exact h.childStep hkept hstep
    | exact h.senderStep hkept hstep

theorem inv_init [NeZero n] (h : (procs P n).init s) : Inv s := by
  obtain ⟨hconn, hset, hmain, hchild, hsender⟩ := h
  have hholders : ∀ c, s.holders c = 0 := by
    intro c
    unfold Procs.holders
    simp [hmain, hchild, hsender, MainPc.refs, Child.refs, Sender.refs, SendPc.conn]
  have hreaders : ∀ c, s.readers c = 0 := by
    intro c
    unfold Procs.readers
    simp [hmain, hchild, hset, MainPc.reads, Child.refs]
  have hnews : ∀ c, s.news c = 0 := by
    intro c
    unfold Procs.news
    simp [hsender, Sender.news, Sender.all, SendPc.pending]
  refine ⟨fun c => ?_, fun c => ?_, fun c hc => ?_, fun c => ?_, fun c hc => ?_,
    fun p => ?_, fun c hc => ?_, fun r => ?_⟩
  · rw [hholders c, refcntOf, hconn c]
    rfl
  · rw [hreaders c]
    decide
  · rw [hreaders c] at hc
    exact absurd hc (lt_irrefl 0)
  · rw [hnews c]
    decide
  · rw [hnews c] at hc
    exact absurd hc (lt_irrefl 0)
  · rw [hsender p]
    trivial
  · rw [hmain] at hc
    cases hc
  · rw [hchild r]
    rfl

end

/-! ## Where a connection is freed -/

variable {a : Addr} {k : Conn}

theorem tcpconnNew_ne_none {state : ConnState} {inHash : Bool} (hc : s.conn c ≠ none) :
    (s.tcpconnNew a state inHash).conn c ≠ none := by
  unfold Procs.tcpconnNew
  dsimp only
  by_cases ha : c = a
  · rw [ha, update_self]
    exact some_ne_none _
  · rw [update_of_ne ha]
    exact hc

theorem tcpconnDestroy_frees (hk : s.conn c = some k)
    (hfree : (s.tcpconnDestroy a).conn c = none) : c = a ∧ k.refcnt = 1 := by
  unfold Procs.tcpconnDestroy at hfree
  have hc : s.conn c ≠ none := by
    rw [hk]
    exact some_ne_none k
  split at hfree
  · exact absurd hfree hc
  · rename_i k' hk'
    split at hfree
    · rename_i hlast
      by_cases ha : c = a
      · subst ha
        cases hk.symm.trans hk'
        exact ⟨rfl, by omega⟩
      · unfold Procs.rm at hfree
        dsimp only at hfree
        rw [update_of_ne ha] at hfree
        exact absurd hfree hc
    · exact absurd hfree (upd_ne_none.mpr hc)

theorem notHanded_frees (hk : s.conn c = some k)
    (hfree : (s.notHanded a).conn c = none) : c = a ∧ k.refcnt = 1 := by
  unfold Procs.notHanded at hfree
  have hc : s.conn c ≠ none := by
    rw [hk]
    exact some_ne_none k
  split at hfree
  · exact absurd hfree hc
  · rename_i k' hk'
    split at hfree
    · rename_i hlast
      by_cases ha : c = a
      · subst ha
        cases hk.symm.trans hk'
        exact ⟨rfl, by omega⟩
      · unfold Procs.rm at hfree
        dsimp only at hfree
        rw [update_of_ne ha] at hfree
        exact absurd hfree hc
    · exact absurd hfree (upd_ne_none.mpr hc)

theorem childStep_conn (hstep : childStep s l = some s')
    (hc : s.conn c ≠ none) : s'.conn c ≠ none := by
  unfold childStep at hstep
  split at hstep
  all_goals try dsimp only at hstep
  all_goals repeat' split at hstep
  all_goals cases hstep
  all_goals first
    | exact hc
    | exact upd_ne_none.mpr hc
    | exact upd_ne_none.mpr (upd_ne_none.mpr hc)

variable [DecidableEq P]

theorem senderStep_conn (hstep : senderStep s l = some s')
    (hc : s.conn c ≠ none) : s'.conn c ≠ none := by
  unfold senderStep at hstep
  split at hstep
  all_goals try dsimp only at hstep
  all_goals repeat' split at hstep
  all_goals cases hstep
  all_goals first
    | exact hc
    | exact upd_ne_none.mpr hc
    | exact tcpconnNew_ne_none hc

/-- A connection is freed only where no reference is left but the one that main
drops. -/
theorem mainStep_frees [NeZero n] (hstep : mainStep s l = some s')
    (hk : s.conn c = some k) (hfree : s'.conn c = none) :
    k.refcnt = s.main.refs c := by
  have hc : s.conn c ≠ none := by
    rw [hk]
    exact some_ne_none k
  unfold mainStep at hstep
  split at hstep
  case h_1 a =>
    split at hstep
    · cases hstep
      exact absurd hfree (tcpconnNew_ne_none hc)
    · cases hstep
  case h_4 sent =>
    split at hstep
    · rename_i a hmain
      cases hstep
      cases sent with
      | true => exact absurd hfree hc
      | false =>
        obtain ⟨rfl, hone⟩ := notHanded_frees
          (s := { s.send2child a false with main := .idle }) hk hfree
        rw [hone, hmain, MainPc.refs, if_pos rfl]
    · cases hstep
  case h_7 =>
    split at hstep
    · rename_i a hmain
      cases hstep
      obtain ⟨rfl, hone⟩ := tcpconnDestroy_frees hk hfree
      rw [hone, hmain, MainPc.refs, if_pos rfl]
    · cases hstep
  case h_9 a =>
    split at hstep
    · cases hstep
    · rename_i k' hk'
      split at hstep
      · rename_i hold
        cases hstep
        by_cases ha : c = a
        · subst ha
          cases hk.symm.trans hk'
          rw [hold.1, hold.2.2.1, MainPc.refs]
        · unfold Procs.rm at hfree
          dsimp only at hfree
          rw [update_of_ne ha] at hfree
          exact absurd hfree hc
      · cases hstep
  all_goals repeat' split at hstep
  all_goals cases hstep
  all_goals first
    | exact absurd hfree hc
    | exact absurd hfree (upd_ne_none.mpr hc)
    | exact absurd hfree (upd_ne_none.mpr (upd_ne_none.mpr hc))

theorem step_frees [NeZero n] (hstep : step l s = some s')
    (hk : s.conn c = some k) (hfree : s'.conn c = none) :
    k.refcnt = s.main.refs c := by
  have hc : s.conn c ≠ none := by
    rw [hk]
    exact some_ne_none k
  unfold step at hstep
  split at hstep
  case h_1 =>
    cases hstep
    exact absurd hfree hc
  all_goals first
    | exact mainStep_frees hstep hk hfree
    | exact absurd hfree (childStep_conn hstep hc)
    | exact absurd hfree (senderStep_conn hstep hc)

/-! ## What holds throughout -/

/-- The number of references of a connection is that of its holders, and nobody
holds a freed one; at most one party is to read it; a reader is as busy as main
takes it to be. -/
structure Right [Fintype P] (s : Procs P n) : Prop where
  refcnt : ∀ c k, s.conn c = some k → k.refcnt = s.holders c
  freed : ∀ c, s.conn c = none → s.holders c = 0
  reader : ∀ c, s.readers c ≤ 1
  busy : ∀ r, (s.child r).busy = (s.child r).handed

/-- In every run in which no message is lost the references, the readers and
the busy counts are right, and a connection is freed only when its last
reference is dropped. -/
theorem references_held [Fintype P] [NeZero n] (h : (procs P n).ReachWhen Kept s) :
    Right s ∧ ∀ l s' c k, (procs P n).step l s = some s' →
      s.conn c = some k → s'.conn c = none → k.refcnt = s.main.refs c := by
  have hinv : Inv s := by
    refine h.invariant Inv (fun s hs => inv_init hs) fun l s s' hs hok hstep => ?_
    exact hs.step hok hstep
  refine ⟨⟨fun c k hk => ?_, fun c hc => ?_, hinv.single, hinv.busy⟩, fun l s' c k => step_frees⟩
  · have hcount := hinv.count c
    rw [refcntOf, hk] at hcount
    exact hcount.symm
  · have hcount := hinv.count c
    rw [refcntOf, hc] at hcount
    exact hcount

/-- One reader and one sender. -/
def atStart : Procs Unit 1 where
  conn _ := none
  masterSet := ∅
  main := .idle
  child _ := ⟨0, [], [], []⟩
  sender _ := ⟨.idle, [], []⟩
  ticks := 0

theorem atStart_init : (procs Unit 1).init atStart :=
  ⟨fun _ => rfl, rfl, rfl, fun _ => rfl, fun _ => rfl⟩

/-- A connection is handed to the reader, found by the sender, and given back
with an error. -/
def handedAndFound : List (Label Unit 1) :=
  [.accept 7, .send2child true, .childReceive 0 true true, .find () 7,
    .childRead 0 7 false .error true, .fromChild 0, .destroy]

theorem references_held_handedAndFound :
    ((procs Unit 1).run atStart handedAndFound).elim False Right := by
  have hadmits : (procs Unit 1).Admits Kept atStart handedAndFound :=
    ⟨trivial, fun _ _ => ⟨rfl, fun _ _ => ⟨rfl, fun _ _ => ⟨trivial,
      fun _ _ => ⟨rfl, fun _ _ => ⟨trivial, fun _ _ => ⟨trivial, fun _ _ => trivial⟩⟩⟩⟩⟩⟩⟩
  have hsome : ((procs Unit 1).run atStart handedAndFound).isSome := by
    decide
  obtain ⟨s, hrun⟩ := isSome_iff_exists.mp hsome
  rw [hrun]
  exact (references_held ((Machine.ReachWhen.init atStart_init).run hadmits hrun)).1

/-- Where `send2child` fails, the reader stays busy with what it has not been
handed; where `CONN_ERROR` is lost, its reference stays. -/
theorem busy_and_reference_lost : (procs Unit 1).init atStart ∧
    ((procs Unit 1).run atStart [.accept 7, .send2child false]).any (fun s =>
      (s.child 0).busy = 1 ∧ (s.child 0).handed = 0 ∧ s.conn 7 = none) ∧
    ((procs Unit 1).run atStart [.connect () 7, .announce () true true,
      .fromSender () true, .write () false, .report () false]).any (fun s =>
        refcntOf s.conn 7 = 1 ∧ s.holders 7 = 0) :=
  ⟨atStart_init, by decide, by decide⟩

end Msicp.TcpMain.Passing
