import Msicp.TcpMain.Passing

/-!
# Every step keeps the references

A step moves a reference from one holder to another, takes one or drops one,
and the number in the connection goes with it.
-/

namespace Msicp.TcpMain.Passing

open Msicp.Support Function
open List hiding sum_nonneg

variable {P : Type} [Fintype P] {n : ℕ} {s : Procs P n} {c : Addr}

/-! ## Senders -/

section

variable [DecidableEq P] {p : P} {x : Sender}

section

variable (h : Inv s)
include h

/-- One sender changes, and the numbers in the connections go with it. -/
theorem Inv.sender {conn' : Addr → Option Conn} (hcount : ∀ a, refcntOf conn' a =
      refcntOf s.conn a + (x.refs a - (s.sender p).refs a))
    (hlisted : Listed conn' = Listed s.conn)
    (hsome : ∀ a, s.conn a ≠ none → conn' a ≠ none)
    (hnews : ∀ a, x.news a ≤ (s.sender p).news a)
    (hknown : Known (Listed s.conn) x.all) :
    Inv { s with conn := conn', sender := update s.sender p x } := by
  have hmessages := news_of_sender s
    { s with conn := conn', sender := update s.sender p x } rfl
  have hholders := holders_of_sender s
    { s with conn := conn', sender := update s.sender p x } rfl rfl
  refine ⟨fun a => ?_, h.single, fun a ha => ?_, fun a => ?_, fun a ha => ?_,
    fun q => ?_, fun a ha => ?_, h.busy⟩
  · have hold := h.count a
    have hnew := hcount a
    have hsum := hholders a
    dsimp only at hsum ⊢
    omega
  · rw [hlisted]
    exact h.listed a ha
  · have hone := h.news a
    have hle := hnews a
    have hsum := hmessages a
    omega
  · have hle := hnews a
    have hsum := hmessages a
    obtain ⟨hconn, hno⟩ := h.fresh a (by omega)
    rw [hlisted]
    exact ⟨hsome a hconn, hno⟩
  · rw [hlisted]
    by_cases hq : q = p
    · rw [hq]
      dsimp only
      rw [update_self]
      exact hknown
    · dsimp only
      rw [update_of_ne hq]
      exact h.known q
  · rw [hlisted]
    exact h.cleared a ha

theorem Inv.sender_same (hall : x.all = (s.sender p).all) : Inv (s.setSender p x) := by
  refine h.sender (fun a => ?_) rfl (fun a => id) (fun a => ?_) (hall ▸ h.known p)
  · rw [Sender.refs_eq, Sender.refs_eq, hall, sub_self, add_zero]
  · unfold Sender.news
    rw [hall]

/-- `tcpconn_put` -/
theorem Inv.put (hpc : (s.sender p).pc.conn = some c)
    (hidle : x.pc = .idle) (hqueue : x.queue = (s.sender p).queue) :
    Inv ((s.put c).setSender p x) := by
  have hrefs : ∀ a, x.refs a - (s.sender p).refs a =
      if c = a then -1 else 0 := by
    intro a
    unfold Sender.refs
    rw [hidle, hqueue, hpc]
    by_cases ha : c = a
    · simp [SendPc.conn, ha]
    · simp [SendPc.conn, ha]
  have hpos : 0 < (s.sender p).refs c := by
    have hself := hrefs c
    have hnonneg := x.refs_nonneg c
    rw [if_pos rfl] at hself
    omega
  have hall : (s.sender p).all = x.all ++ (s.sender p).pc.pending := by
    unfold Sender.all
    rw [hidle, hqueue, SendPc.pending, append_nil]
  refine h.sender (fun a => ?_) (listed_upd fun k => rfl)
    (fun a => upd_ne_none.mpr) (fun a => ?_) ?_
  · rw [hrefs]
    exact refcntOf_upd (h.ne_none (holders_sender_pos hpos)) (fun k => rfl) a
  · unfold Sender.news
    rw [hall, countP_append]
    omega
  · have hknown := h.known p
    rw [hall] at hknown
    exact (known_append.mp hknown).1

/-- `tcpconn_get` -/
theorem Inv.find (hidle : (s.sender p).pc = .idle)
    (hlisted : Listed s.conn c) (hconn : s.conn c ≠ none) {timeout : ℤ} :
    Inv ((s.upd c fun k => { k with
      refcnt := k.refcnt + 1, timeout := timeout }).setSender p
        { s.sender p with pc := .found c }) := by
  have hall : ({ s.sender p with pc := .found c } : Sender).all =
      (s.sender p).all ++ [Request.error c] := by
    unfold Sender.all
    rw [hidle, SendPc.pending, SendPc.pending, append_nil]
  refine h.sender (fun a => ?_) (listed_upd fun k => rfl)
    (fun a => upd_ne_none.mpr) (fun a => ?_) ?_
  · refine (refcntOf_upd hconn (fun k => rfl) a).trans ?_
    rw [Sender.refs_eq, Sender.refs_eq, hall, count_append]
    by_cases ha : c = a <;> simp [ha]
  · unfold Sender.news
    rw [hall, countP_append]
    simp [Request.isNew]
  · rw [hall]
    exact known_append.mpr ⟨h.known p, .inl hlisted, trivial⟩

/-- `CONN_GET_FD` -/
theorem Inv.askFd (hpc : (s.sender p).pc = .found c) :
    Inv (s.setSender p { s.sender p with
      pc := .waiting c
      queue := (s.sender p).queue ++ [.getFd c] }) := by
  have hold : (s.sender p).all = (s.sender p).queue ++ [Request.error c] := by
    unfold Sender.all
    rw [hpc, SendPc.pending]
  have hall : ({ s.sender p with
      pc := .waiting c
      queue := (s.sender p).queue ++ [.getFd c] } : Sender).all =
      (s.sender p).queue ++ [Request.getFd c, .error c] := by
    unfold Sender.all
    rw [SendPc.pending, append_assoc]
    rfl
  refine h.sender (fun a => ?_) rfl (fun a => id) (fun a => ?_) ?_
  · rw [Sender.refs_eq, Sender.refs_eq, hall, hold, count_append, count_append, count_cons]
    simp
  · unfold Sender.news
    rw [hall, hold, countP_append, countP_append]
    simp [Request.isNew]
  · have hknown := h.known p
    rw [hold] at hknown
    rw [hall]
    exact known_append.mpr ⟨(known_append.mp hknown).1, (known_append.mp hknown).2⟩

/-- `tcpconn_connect` -/
theorem Inv.connect (hidle : (s.sender p).pc = .idle) (hnone : s.conn c = none) :
    Inv ((s.tcpconnNew c .connect false).setSender p
      { s.sender p with pc := .opened c }) := by
  set x' : Sender := { s.sender p with pc := .opened c } with hx'
  have hall : x'.all = (s.sender p).all ++ [Request.new c true, .error c] := by
    rw [hx']
    unfold Sender.all
    rw [hidle, SendPc.pending, SendPc.pending, append_nil]
  have hlisted : Listed ((s.tcpconnNew c .connect false).conn) = Listed s.conn := by
    funext a
    unfold Listed Procs.tcpconnNew
    by_cases ha : a = c
    · subst ha
      simp [hnone]
    · simp [ha]
  have hzero : s.news c = 0 := by
    have hnonneg := sum_nonneg (Sender.news_nonneg c) s.sender
    have hno : ¬ 0 < s.news c := fun hpos => (h.fresh c hpos).1 hnone
    unfold Procs.news at hno ⊢
    omega
  have hnews : ∀ a, x'.news a = (s.sender p).news a + if c = a then 1 else 0 := by
    intro a
    unfold Sender.news
    rw [hall, countP_append]
    by_cases ha : c = a <;> simp [Request.isNew, ha]
  have hmessages := news_of_sender s ((s.tcpconnNew c .connect false).setSender p x') rfl
  have hholders := holders_of_sender s ((s.tcpconnNew c .connect false).setSender p x') rfl rfl
  refine ⟨fun a => ?_, h.single, fun a ha => ?_, fun a => ?_, fun a ha => ?_,
    fun q => ?_, fun a ha => ?_, h.busy⟩
  · rw [hholders a, h.count a, Sender.refs_eq, Sender.refs_eq, hall, count_append]
    unfold refcntOf Procs.setSender Procs.tcpconnNew
    dsimp only
    by_cases ha : a = c
    · subst ha
      simp [hnone]
    · have hne : c ≠ a := fun heq => ha heq.symm
      simp [ha, hne]
  · exact hlisted ▸ h.listed a ha
  · have hone := h.news a
    have hsum := hmessages a
    have hstep := hnews a
    by_cases ha : c = a
    · subst ha
      rw [if_pos rfl] at hstep
      omega
    · rw [if_neg ha] at hstep
      omega
  · change _ ≠ none ∧ ¬ Listed ((s.tcpconnNew c .connect false).conn) a
    rw [hlisted]
    unfold Procs.setSender Procs.tcpconnNew
    dsimp only
    by_cases hac : a = c
    · subst hac
      simp [Listed, hnone]
    · have hsum := hmessages a
      have hstep := hnews a
      rw [if_neg fun heq => hac heq.symm] at hstep
      rw [update_of_ne hac]
      exact h.fresh a (by omega)
  · change Known (Listed ((s.tcpconnNew c .connect false).conn)) _
    rw [hlisted]
    by_cases hq : q = p
    · subst hq
      unfold Procs.setSender
      dsimp only
      rw [update_self, hall]
      exact known_append.mpr ⟨h.known q, .inl rfl, trivial⟩
    · unfold Procs.setSender
      dsimp only
      rw [update_of_ne hq]
      exact h.known q
  · have hclear := h.cleared a ha
    exact ⟨hclear.1, hlisted ▸ hclear.2⟩

end

end

/-! ## Readers -/

theorem Inv.touch (h : Inv s) {f : Conn → Conn}
    (hf : ∀ k, (f k).refcnt = k.refcnt ∧ (f k).inHash = k.inHash) :
    Inv (s.upd c f) := by
  have hlisted := listed_upd (s := s) (c := c) fun k => (hf k).2
  refine ⟨fun a => ?_, h.single, fun a ha => ?_, h.news, fun a ha => ?_,
    fun p => ?_, fun a ha => ?_, h.busy⟩
  · exact (h.count a).trans (refcntOf_upd_same (fun k => (hf k).1) a).symm
  · exact hlisted ▸ h.listed a ha
  · exact ⟨upd_ne_none.mpr (h.fresh a ha).1, hlisted ▸ (h.fresh a ha).2⟩
  · exact hlisted ▸ h.known p
  · exact ⟨(h.cleared a ha).1, hlisted ▸ (h.cleared a ha).2⟩

theorem Inv.setState (h : Inv s) (c : Addr) (state : ConnState) :
    Inv (s.upd c fun k => { k with state := state }) :=
  h.touch fun _ => ⟨rfl, rfl⟩

theorem Inv.setTimeout (h : Inv s) (c : Addr) (timeout : ℤ) :
    Inv (s.upd c fun k => { k with timeout := timeout }) :=
  h.touch fun _ => ⟨rfl, rfl⟩

theorem Inv.child (h : Inv s) {r : Fin n} {x : Child}
    (hrefs : ∀ a, x.refs a = (s.child r).refs a) (hbusy : x.busy = x.handed) :
    Inv (s.setChild r x) := by
  have hholders := holders_of_child s (s.setChild r x) rfl rfl
  have hreaders := readers_of_child s (s.setChild r x) rfl
  have hsame : ∀ a, (s.setChild r x).readers a = s.readers a := by
    intro a
    rw [hreaders a, hrefs a]
    unfold Procs.setChild
    dsimp only
    omega
  refine ⟨fun a => ?_, fun a => ?_, fun a ha => ?_, h.news, h.fresh, h.known,
    h.cleared, fun q => ?_⟩
  · rw [hholders a, hrefs a]
    have hcount := h.count a
    unfold Procs.setChild
    dsimp only
    omega
  · rw [hsame a]
    exact h.single a
  · rw [hsame a] at ha
    exact h.listed a ha
  · unfold Procs.setChild
    dsimp only
    by_cases hq : q = r
    · rw [hq, update_self]
      exact hbusy
    · rw [update_of_ne hq]
      exact h.busy q

section

variable {x : Child}

theorem refs_release (x : Child) (c : Addr) (cmd : Cmd) (a : Addr) :
    (x.release c cmd true).refs a = x.refs a + if c = a then 1 else 0 := by
  unfold Child.release Child.refs
  by_cases ha : c = a <;> simp [ha, add_assoc]

theorem handed_release (x : Child) (c : Addr) (cmd : Cmd) :
    (x.release c cmd true).handed = x.handed + 1 := by
  unfold Child.release Child.handed
  simp [add_assoc]

theorem refs_listrm (hmem : c ∈ x.list) (a : Addr) :
    (x.listrm c).refs a = x.refs a - if c = a then 1 else 0 := by
  unfold Child.listrm Child.refs
  dsimp only
  rw [count_erase]
  by_cases ha : c = a
  · subst ha
    have hpos := count_pos_iff.mpr hmem
    simp
    omega
  · simp [ha]

theorem handed_listrm (hmem : c ∈ x.list) : (x.listrm c).handed = x.handed - 1 := by
  unfold Child.listrm Child.handed
  dsimp only
  rw [length_erase_of_mem hmem]
  have hpos := length_pos_of_mem hmem
  omega

theorem refs_inbox {rest : List Addr} (hin : x.inbox = c :: rest) (a : Addr) :
    ({ x with inbox := rest } : Child).refs a =
      x.refs a - if c = a then 1 else 0 := by
  unfold Child.refs
  rw [hin, count_cons]
  by_cases ha : c = a
  · simp [ha]
    omega
  · simp [ha]

theorem handed_inbox {rest : List Addr} (hin : x.inbox = c :: rest) :
    ({ x with inbox := rest } : Child).handed = x.handed - 1 := by
  unfold Child.handed
  rw [hin, length_cons]
  dsimp only
  omega

end

/-- `release_tcpconn` of a connection that has just come. -/
theorem Inv.refuse (h : Inv s) {r : Fin n} {rest : List Addr} (cmd : Cmd)
    (hin : (s.child r).inbox = c :: rest) :
    Inv (s.setChild r (({ s.child r with inbox := rest } : Child).release c cmd true)) := by
  refine h.child (fun a => ?_) ?_
  · rw [refs_release, refs_inbox hin]
    omega
  · rw [handed_release, handed_inbox hin, sub_add_cancel]
    exact h.busy r

theorem Inv.take (h : Inv s) {r : Fin n} {rest : List Addr} (hin : (s.child r).inbox = c :: rest) :
    Inv (s.setChild r
      { s.child r with inbox := rest, list := c :: (s.child r).list }) := by
  refine h.child (fun a => ?_) ?_
  · unfold Child.refs
    rw [hin, count_cons, count_cons]
    dsimp only
    omega
  · have hbusy := h.busy r
    unfold Child.handed at hbusy ⊢
    rw [hin, length_cons] at hbusy
    dsimp only
    rw [length_cons]
    omega

theorem Inv.giveBack (h : Inv s) {r : Fin n} (cmd : Cmd) (hmem : c ∈ (s.child r).list) :
    Inv (s.setChild r (((s.child r).listrm c).release c cmd true)) := by
  refine h.child (fun a => ?_) ?_
  · rw [refs_release, refs_listrm hmem]
    omega
  · rw [handed_release, handed_listrm hmem, sub_add_cancel]
    exact h.busy r

end Msicp.TcpMain.Passing
