import Msicp.TcpMain.PassingSteps

/-!
# What main does with a connection

Main alone adds connections to the tables and frees them, and it does one thing
at a time.
-/

namespace Msicp.TcpMain.Passing

open Msicp.Support Function
open List hiding sum_nonneg

variable {P : Type} [Fintype P] {n : ℕ} {s : Procs P n} {c : Addr}

theorem readers_children (s : Procs P n) (c : Addr) : ∑ r, (s.child r).refs c ≤ s.readers c ∧
      ∑ r, (s.child r).refs c ≤ s.holders c - s.main.refs c := by
  have h1 := sum_nonneg (Sender.refs_nonneg c) s.sender
  have h2 := s.main.reads_nonneg c
  unfold Procs.readers Procs.holders
  constructor
  · split <;> omega
  · omega

theorem readers_nonneg (s : Procs P n) (c : Addr) : 0 ≤ s.readers c := by
  have h1 := sum_nonneg (Child.refs_nonneg c) s.child
  have h2 := (readers_children s c).1
  omega

theorem Inv.unlisted (h : Inv s) (hno : ¬ Listed s.conn c) : s.readers c = 0 := by
  have hnonneg := readers_nonneg s c
  have hpos : ¬ 0 < s.readers c := fun hpos => hno (h.listed c hpos)
  omega

theorem not_mem_all (h : s.holders c = 0) (p : P) : .error c ∉ (s.sender p).all := by
  intro hmem
  have hpos : 0 < (s.sender p).refs c := by
    rw [Sender.refs_eq]
    exact_mod_cast count_pos_iff.mpr hmem
  have hholders := holders_sender_pos hpos
  omega

section

variable (h : Inv s)
include h

theorem Inv.free {s' : Procs P n} (hlisted : Listed s.conn c)
    (hconn : s'.conn = (s.rm c).conn) (hsender : s'.sender = s.sender)
    (hchild : s'.child = s.child) (hidle : s'.main = .idle)
    (hset : s'.masterSet = s.masterSet.erase c)
    (hothers : ∀ a ≠ c, s.main.refs a = 0 ∧ s.main.reads a = 0)
    (hnobody : s'.holders c = 0) : Inv s' := by
  have hholders := holders_of_main s s' hsender hchild
  have hreaders := readers_of_main s s' hchild
  have hnews : s'.news = s.news := by
    unfold Procs.news
    rw [hsender]
  have hzero : s'.readers c = 0 := by
    have h1 := (readers_children s' c).2
    have h2 := sum_nonneg (Child.refs_nonneg c) s'.child
    have h3 := readers_nonneg s' c
    rw [hidle, hnobody] at h1
    unfold Procs.readers
    rw [hidle, hset, if_neg (Finset.notMem_erase c _)]
    simp only [MainPc.refs, MainPc.reads] at h1 ⊢
    omega
  have hsame : ∀ a ≠ c, s'.readers a = s.readers a := by
    intro a ha
    rw [hreaders a, hidle, hset, (hothers a ha).2]
    simp [MainPc.reads, ha]
  refine ⟨fun a => ?_, fun a => ?_, fun a ha => ?_, fun a => ?_,
    fun a ha => ?_, fun p => ?_, fun a ha => ?_, fun r => ?_⟩
  · rw [hconn, refcntOf_rm]
    by_cases ha : c = a
    · rw [if_pos ha, ← ha, hnobody]
    · have hne : a ≠ c := fun heq => ha heq.symm
      rw [if_neg ha, hholders a, hidle, (hothers a hne).1, ← h.count a]
      simp [MainPc.refs]
  · by_cases ha : a = c
    · rw [ha, hzero]
      decide
    · rw [hsame a ha]
      exact h.single a
  · have hne : a ≠ c := by
      rintro rfl
      omega
    rw [hconn, listed_rm]
    exact ⟨hne, h.listed a (hsame a hne ▸ ha)⟩
  · rw [hnews]
    exact h.news a
  · rw [hnews] at ha
    have hne : a ≠ c := by
      rintro rfl
      exact (h.fresh a ha).2 hlisted
    rw [hconn, listed_rm]
    refine ⟨?_, fun hin => (h.fresh a ha).2 hin.2⟩
    unfold Procs.rm
    dsimp only
    rw [update_of_ne hne]
    exact (h.fresh a ha).1
  · rw [hsender]
    have hno := not_mem_all hnobody p
    rw [hsender] at hno
    refine (h.known p).mono fun a ha hin => ?_
    rw [hconn, listed_rm]
    refine ⟨?_, hin⟩
    rintro rfl
    exact hno ha
  · rw [hidle] at ha
    cases ha
  · rw [hchild]
    exact h.busy r

/-- `tcpconn_destroy` -/
theorem Inv.destroy (hmain : s.main = .destroying c) :
    Inv { s.tcpconnDestroy c with main := .idle } := by
  obtain ⟨hset, hlisted⟩ := h.cleared c hmain
  have hcount := h.count c
  obtain ⟨k, hk⟩ : ∃ k, s.conn c = some k := by
    unfold Listed at hlisted
    cases hc : s.conn c with
    | none =>
      rw [hc] at hlisted
      cases hlisted
    | some k => exact ⟨k, rfl⟩
  have hothers : ∀ a ≠ c, s.main.refs a = 0 ∧ s.main.reads a = 0 := by
    intro a ha
    rw [hmain]
    simp only [MainPc.refs, MainPc.reads, and_true]
    exact if_neg fun heq => ha heq.symm
  have hself : s.main.refs c = 1 := by
    rw [hmain]
    simp [MainPc.refs]
  rw [refcntOf, hk, Option.elim_some] at hcount
  unfold Procs.tcpconnDestroy
  rw [hk]
  dsimp only
  by_cases hlast : k.refcnt - 1 = 0
  · rw [if_pos hlast]
    refine h.free hlisted rfl rfl rfl rfl (Finset.erase_eq_of_notMem hset).symm hothers ?_
    have hsum := holders_of_main s { s.rm c with main := .idle } rfl rfl c
    rw [hself] at hsum
    simp only [MainPc.refs] at hsum
    omega
  · rw [if_neg hlast]
    set s' : Procs P n := { s.upd c fun k =>
      { k with refcnt := k.refcnt - 1, timeout := 0, state := .bad } with
      main := .idle } with hs'
    have hholders := holders_of_main s s' rfl rfl
    have hreaders := readers_of_main s s' rfl
    have hsame : Listed s'.conn = Listed s.conn := listed_upd fun k => rfl
    have hnum : ∀ a, refcntOf s'.conn a = refcntOf s.conn a + if c = a then -1 else 0 :=
      refcntOf_upd (by rw [hk]; exact Option.some_ne_none k) fun k => rfl
    have hreads : ∀ a, s'.readers a = s.readers a := by
      intro a
      rw [hreaders a, hmain]
      simp [hs', Procs.upd, MainPc.reads]
    refine ⟨fun a => ?_, fun a => ?_, fun a ha => ?_, h.news, fun a ha => ?_,
      fun p => ?_, fun a ha => ?_, h.busy⟩
    · rw [hholders a, hnum a, h.count a]
      by_cases ha : c = a
      · rw [if_pos ha, ← ha, hself]
        simp [hs', MainPc.refs]
      · rw [if_neg ha, (hothers a fun heq => ha heq.symm).1]
        simp [hs', MainPc.refs]
    · rw [hreads a]
      exact h.single a
    · rw [hreads a] at ha
      exact hsame ▸ h.listed a ha
    · exact ⟨upd_ne_none.mpr (h.fresh a ha).1, hsame ▸ (h.fresh a ha).2⟩
    · rw [hsame]
      exact h.known p
    · cases ha

theorem Inv.timeout {k : Conn} (hidle : s.main = .idle)
    (hk : s.conn c = some k) (hin : k.inHash = true) (hzero : k.refcnt = 0) :
    Inv { s.rm c with masterSet := s.masterSet.erase c } := by
  have hlisted : Listed s.conn c := by
    unfold Listed
    rw [hk]
    exact hin
  refine h.free hlisted rfl rfl rfl hidle rfl (fun a _ => ?_) ?_
  · rw [hidle]
    exact ⟨rfl, rfl⟩
  · have hcount := h.count c
    rw [refcntOf, hk, Option.elim_some, hzero] at hcount
    exact hcount

/-! ## Handing over and taking back -/

/-- A connection goes from one place to another, and the tables stay. -/
theorem Inv.move {s' : Procs P n} (hsender : s'.sender = s.sender)
    (hcount : ∀ a, s'.holders a = refcntOf s'.conn a)
    (hreaders : ∀ a, s'.readers a ≤ s.readers a)
    (hlisted : Listed s'.conn = Listed s.conn)
    (hsome : ∀ a, s.conn a ≠ none → s'.conn a ≠ none)
    (hcleared : ∀ a, s'.main = .destroying a → a ∉ s'.masterSet ∧ Listed s.conn a)
    (hbusy : ∀ r, (s'.child r).busy = (s'.child r).handed) : Inv s' := by
  have hnews : s'.news = s.news := by
    unfold Procs.news
    rw [hsender]
  refine ⟨hcount, fun a => (hreaders a).trans (h.single a), fun a ha => ?_,
    fun a => ?_, fun a ha => ?_, fun p => ?_, fun a ha => ?_, hbusy⟩
  · rw [hlisted]
    exact h.listed a (ha.trans_le (hreaders a))
  · rw [hnews]
    exact h.news a
  · rw [hnews] at ha
    rw [hlisted]
    exact ⟨hsome a (h.fresh a ha).1, (h.fresh a ha).2⟩
  · rw [hsender, hlisted]
    exact h.known p
  · rw [hlisted]
    exact hcleared a ha

/-- `handle_new_connect`, up to `send2child` -/
theorem Inv.accept (hidle : s.main = .idle) (hnone : s.conn c = none) :
    Inv { s.tcpconnNew c .accept true with main := .handing c } := by
  set s' : Procs P n :=
    { s.tcpconnNew c .accept true with main := .handing c } with hs'
  have hholders := holders_of_main s s' rfl rfl
  have hreaders := readers_of_main s s' rfl
  have hconn : s'.conn c ≠ none := by simp [hs', Procs.tcpconnNew]
  have hsame : ∀ a ≠ c, s'.conn a = s.conn a := by
    intro a ha
    simp [hs', Procs.tcpconnNew, ha]
  have hno : ¬ Listed s.conn c := by simp [Listed, hnone]
  have hmore : ∀ a, Listed s.conn a → Listed s'.conn a := by
    intro a ha
    have hne : a ≠ c := by
      rintro rfl
      exact hno ha
    unfold Listed
    rw [hsame a hne]
    exact ha
  have hthis : Listed s'.conn c := by simp [Listed, hs', Procs.tcpconnNew]
  refine ⟨fun a => ?_, fun a => ?_, fun a ha => ?_, h.news, fun a ha => ?_,
    fun p => ?_, fun a ha => ?_, h.busy⟩
  · rw [hholders a, h.count a, hidle]
    by_cases ha : a = c
    · subst ha
      simp [refcntOf, hnone, hs', Procs.tcpconnNew, MainPc.refs]
    · have hne : c ≠ a := fun heq => ha heq.symm
      unfold refcntOf
      rw [hsame a ha]
      simp [hs', MainPc.refs, hne]
  · rw [hreaders a, hidle]
    by_cases ha : a = c
    · rw [ha, h.unlisted hno]
      simp [hs', Procs.tcpconnNew, MainPc.reads]
    · have hne : c ≠ a := fun heq => ha heq.symm
      have hone := h.single a
      simp [hs', Procs.tcpconnNew, MainPc.reads, hne]
      exact hone
  · by_cases hac : a = c
    · exact hac ▸ hthis
    · have hne : c ≠ a := fun heq => hac heq.symm
      rw [hreaders a, hidle] at ha
      simp only [hs', Procs.tcpconnNew, MainPc.reads, if_neg hne, sub_self, add_zero] at ha
      exact hmore a (h.listed a ha)
  · have hne : a ≠ c := by
      rintro rfl
      exact (h.fresh a ha).1 hnone
    unfold Listed
    rw [hsame a hne]
    exact h.fresh a ha
  · exact (h.known p).mono fun a _ => hmore a
  · cases ha

theorem Inv.dataAvailable (hidle : s.main = .idle) (hset : c ∈ s.masterSet) :
    Inv { s with masterSet := s.masterSet.erase c, main := .ready c } := by
  set s' : Procs P n :=
    { s with masterSet := s.masterSet.erase c, main := .ready c } with hs'
  have hholders := holders_of_main s s' rfl rfl
  have hreaders := readers_of_main s s' rfl
  refine h.move rfl (fun a => ?_) (fun a => ?_) rfl (fun a => id) (fun a ha => ?_) h.busy
  · rw [hholders a, hidle]
    simp only [hs', MainPc.refs, sub_self, add_zero]
    exact h.count a
  · rw [hreaders a, hidle]
    by_cases ha : a = c
    · subst ha
      simp [hs', MainPc.reads, hset]
    · have hne : c ≠ a := fun heq => ha heq.symm
      simp [hs', MainPc.reads, ha, hne]
  · cases ha

/-- `tcpconn_ref`, of a connection that is out of the set -/
theorem Inv.ref (hmain : s.main = .ready c) : Inv { s.ref c with main := .handing c } := by
  set s' : Procs P n := { s.ref c with main := .handing c } with hs'
  have hholders := holders_of_main s s' rfl rfl
  have hreaders := readers_of_main s s' rfl
  have hlisted : Listed s.conn c := by
    refine h.listed c ?_
    have hsum := sum_nonneg (Child.refs_nonneg c) s.child
    unfold Procs.readers
    rw [hmain]
    simp only [MainPc.reads, if_true]
    split <;> omega
  have hne : s.conn c ≠ none := by
    intro hnone
    rw [Listed, hnone] at hlisted
    cases hlisted
  refine h.move rfl (fun a => ?_) (fun a => ?_) (listed_upd fun k => rfl)
    (fun a => upd_ne_none.mpr) (fun a ha => ?_) h.busy
  · rw [hholders a, hmain, h.count a]
    refine Eq.trans ?_ (refcntOf_upd hne (fun k => rfl) a).symm
    simp [hs', MainPc.refs]
  · rw [hreaders a, hmain]
    simp [hs', Procs.ref, Procs.upd, MainPc.reads]
  · cases ha

/-- `send2child` -/
theorem Inv.send2child [NeZero n] (hmain : s.main = .handing c) :
    Inv { s.send2child c true with main := .idle } := by
  set s' : Procs P n := { s.send2child c true with main := .idle } with hs'
  set idx := leastBusy (fun i => (s.child i).busy) (List.finRange n) (s.child 0).busy 0 with hidx
  set x : Child := { s.child idx with
    busy := (s.child idx).busy + 1
    inbox := (s.child idx).inbox ++ [c] } with hx
  have hchild : s'.child = update s.child idx x := rfl
  have hholders := holders_of_child s s' hchild rfl
  have hreaders := readers_of_child s s' hchild
  have hrefs : ∀ a, x.refs a = (s.child idx).refs a + if c = a then 1 else 0 := by
    intro a
    unfold Child.refs
    rw [hx]
    dsimp only
    rw [count_append]
    by_cases ha : c = a
    · simp [ha]
      omega
    · simp [ha]
  refine h.move rfl (fun a => ?_) (fun a => ?_) rfl (fun a => id) (fun a ha => ?_) (fun r => ?_)
  · rw [hholders a, hmain, hrefs a, h.count a]
    simp only [hs', MainPc.refs]
    unfold Procs.send2child Procs.setChild
    dsimp only
    omega
  · rw [hreaders a, hmain, hrefs a]
    simp only [hs', MainPc.reads]
    unfold Procs.send2child Procs.setChild
    dsimp only
    omega
  · cases ha
  · rw [hchild]
    by_cases hr : r = idx
    · rw [hr, update_self]
      have hbusy := h.busy idx
      unfold Child.handed at hbusy ⊢
      rw [hx]
      dsimp only
      rw [List.length_append, length_singleton]
      omega
    · rw [update_of_ne hr]
      exact h.busy r

/-- A message of a reader is read: its connection is now with main. -/
theorem Inv.fromChild {r : Fin n} {cmd : Cmd}
    {rest : List (Addr × Cmd)} (hidle : s.main = .idle)
    (hout : (s.child r).outbox = (c, cmd) :: rest) {s' : Procs P n}
    (hconn : s'.conn = s.conn) (hsender : s'.sender = s.sender)
    (hchild : s'.child = update s.child r { s.child r with
      busy := (s.child r).busy - 1, outbox := rest })
    (hmain : s'.main = .releasing c ∨ s'.main = .destroying c)
    (hset : s'.masterSet = s.masterSet ∨ s'.masterSet = s.masterSet.erase c) :
    Inv s' := by
  have hholders := holders_of_child s s' hchild hsender
  have hreaders := readers_of_child s s' hchild
  have hrefs : ∀ a, Child.refs a { s.child r with
      busy := (s.child r).busy - 1, outbox := rest } =
      (s.child r).refs a - if c = a then 1 else 0 := by
    intro a
    unfold Child.refs
    rw [hout, map_cons, count_cons]
    by_cases ha : c = a
    · simp [ha]
      omega
    · simp [ha]
  have hpos : 0 < ∑ q, (s.child q).refs c := by
    have hself := hrefs c
    rw [if_pos rfl] at hself
    have hnonneg := Child.refs_nonneg c { s.child r with
      busy := (s.child r).busy - 1, outbox := rest }
    have hle := le_sum (Child.refs_nonneg c) s.child r
    omega
  have hlisted : Listed s.conn c := by
    have hsum := (readers_children s c).1
    exact h.listed c (by omega)
  -- main does not wait on what a reader has
  have hnotin : c ∉ s.masterSet := by
    intro hin
    have hone := h.single c
    have hreads := s.main.reads_nonneg c
    unfold Procs.readers at hone
    rw [if_pos hin] at hone
    omega
  replace hset : s'.masterSet = s.masterSet := by
    rcases hset with hset | hset
    · exact hset
    · rw [hset, Finset.erase_eq_of_notMem hnotin]
  refine h.move hsender (fun a => ?_) (fun a => ?_) (by rw [hconn])
    (fun a => by rw [hconn]; exact id) (fun a ha => ?_) (fun q => ?_)
  · rw [hholders a, hidle, hrefs a, h.count a, hconn]
    rcases hmain with hmain | hmain <;> rw [hmain] <;> simp only [MainPc.refs] <;> omega
  · rw [hreaders a, hidle, hrefs a, hset]
    rcases hmain with hmain | hmain <;> rw [hmain] <;> simp only [MainPc.reads] <;> split <;> omega
  · rcases hmain with hmain | hmain
    · rw [hmain] at ha
      cases ha
    · rw [hmain] at ha
      cases ha
      rw [hset]
      exact ⟨hnotin, hlisted⟩
  · rw [hchild]
    by_cases hq : q = r
    · rw [hq, update_self]
      have hbusy := h.busy r
      unfold Child.handed at hbusy ⊢
      rw [hout, length_cons] at hbusy
      dsimp only
      omega
    · rw [update_of_ne hq]
      exact h.busy q

/-- `CONN_RELEASE`, of a connection that is not bad -/
theorem Inv.release (hmain : s.main = .releasing c)
    {timeout : ℤ} :
    Inv { (s.upd c fun k => { k with timeout := timeout }).put c with
      masterSet := insert c s.masterSet
      main := .idle } := by
  set u := s.upd c fun k => { k with timeout := timeout } with hu
  have hinv : Inv u := h.touch fun k => ⟨rfl, rfl⟩
  set s' : Procs P n := { u.put c with
    masterSet := insert c s.masterSet, main := .idle } with hs'
  have hholders := holders_of_main u s' rfl rfl
  have hreaders := readers_of_main u s' rfl
  have humain : u.main = .releasing c := hmain
  have huset : u.masterSet = s.masterSet := rfl
  have hne : u.conn c ≠ none := by
    refine hinv.ne_none ?_
    have h1 := sum_nonneg (Sender.refs_nonneg c) u.sender
    have h2 := sum_nonneg (Child.refs_nonneg c) u.child
    unfold Procs.holders
    rw [humain]
    simp only [MainPc.refs, if_true]
    omega
  refine hinv.move rfl (fun a => ?_) (fun a => ?_) (listed_upd fun k => rfl)
    (fun a => upd_ne_none.mpr) (fun a ha => ?_) hinv.busy
  · rw [hholders a, humain, hinv.count a]
    refine Eq.trans ?_ (refcntOf_upd hne (fun k => rfl) a).symm
    by_cases ha : c = a <;> simp [hs', MainPc.refs, ha]
  · rw [hreaders a, humain]
    by_cases ha : c = a
    · subst ha
      simp [hs', MainPc.reads]
      split <;> omega
    · have hne : a ≠ c := fun heq => ha heq.symm
      simp [hs', MainPc.reads, ha, hne, huset]
  · cases ha

end

/-! ## Messages of senders -/

section

variable [DecidableEq P] {p : P} {rest : List Request}

theorem Inv.fromSender_getFd (h : Inv s) {answers : List Addr}
    (hqueue : (s.sender p).queue = .getFd c :: rest) :
    Inv (s.setSender p { s.sender p with queue := rest, answers := answers }) := by
  have hall : (s.sender p).all = .getFd c ::
      Sender.all { s.sender p with queue := rest, answers := answers } := by
    unfold Sender.all
    rw [hqueue]
    rfl
  refine h.sender (fun a => ?_) rfl (fun a => id) (fun a => ?_) ?_
  · rw [Sender.refs_eq, Sender.refs_eq, hall, count_cons]
    simp
  · unfold Sender.news
    rw [hall, countP_cons]
    simp [Request.isNew]
  · have hknown := h.known p
    rw [hall] at hknown
    exact hknown

/-- `CONN_ERROR` is read: main has the reference now. -/
theorem Inv.fromSender_error (h : Inv s) (hidle : s.main = .idle)
    (hqueue : (s.sender p).queue = .error c :: rest) :
    Inv { s.setSender p { s.sender p with queue := rest } with
      masterSet := s.masterSet.erase c
      main := .destroying c } := by
  set x : Sender := { s.sender p with queue := rest } with hx
  set s' : Procs P n := { s.setSender p x with
    masterSet := s.masterSet.erase c, main := .destroying c } with hs'
  have hall : (s.sender p).all = .error c :: x.all := by
    unfold Sender.all
    rw [hqueue]
    rfl
  have hknown := h.known p
  rw [hall] at hknown
  have hnews : s'.news = s.news := by
    funext a
    rw [news_of_sender s s' rfl]
    unfold Sender.news
    rw [hall, countP_cons]
    simp [Request.isNew]
  have hholders := holders_of_sender s s' rfl rfl
  have hreaders : ∀ a, s'.readers a ≤ s.readers a := by
    intro a
    rw [readers_of_main s s' rfl, hidle]
    by_cases ha : a = c
    · subst ha
      simp [hs', MainPc.reads]
      split <;> omega
    · simp [hs', MainPc.reads, ha, Procs.setSender]
  refine ⟨fun a => ?_, fun a => (hreaders a).trans (h.single a), fun a ha => ?_,
    fun a => ?_, fun a ha => ?_, fun q => ?_, fun a ha => ?_, h.busy⟩
  · rw [hholders a, h.count a, hidle, Sender.refs_eq, Sender.refs_eq, hall, count_cons]
    by_cases ha : c = a <;> simp [hs', MainPc.refs, ha, Procs.setSender]
  · exact h.listed a (ha.trans_le (hreaders a))
  · rw [hnews]
    exact h.news a
  · rw [hnews] at ha
    exact h.fresh a ha
  · by_cases hq : q = p
    · rw [hq, hs']
      unfold Procs.setSender
      dsimp only
      rw [update_self]
      exact hknown.2
    · rw [hs']
      unfold Procs.setSender
      dsimp only
      rw [update_of_ne hq]
      exact h.known q
  · cases ha
    exact ⟨Finset.notMem_erase c _, hknown.1⟩

/-- `CONN_NEW` is read: the connection is put in the tables, and main waits on
it. -/
theorem Inv.fromSender_new (h : Inv s) (hidle : s.main = .idle)
    (hqueue : (s.sender p).queue = .new c true :: rest) {timeout : ℤ} :
    Inv { (s.setSender p { s.sender p with queue := rest }).upd c fun k =>
        { k with inHash := true, timeout := timeout } with
      masterSet := insert c s.masterSet } := by
  set x : Sender := { s.sender p with queue := rest } with hx
  set s' : Procs P n := { (s.setSender p x).upd c fun k =>
    { k with inHash := true, timeout := timeout } with
    masterSet := insert c s.masterSet } with hs'
  have hall : (s.sender p).all = .new c true :: x.all := by
    unfold Sender.all
    rw [hqueue]
    rfl
  have hnews : ∀ a, (s.sender p).news a = x.news a + if c = a then 1 else 0 := by
    intro a
    unfold Sender.news
    rw [hall, countP_cons]
    by_cases ha : c = a <;> simp [Request.isNew, ha]
  have hmessages := news_of_sender s s' rfl
  have hpos : 0 < s.news c := by
    have hself := hnews c
    rw [if_pos rfl] at hself
    have hnonneg := x.news_nonneg c
    have hle := le_sum (Sender.news_nonneg c) s.sender p
    unfold Procs.news
    omega
  obtain ⟨hconn, hno⟩ := h.fresh c hpos
  have hlisted : ∀ a, Listed s'.conn a ↔ a = c ∨ Listed s.conn a := by
    intro a
    obtain ⟨k, hk⟩ := Option.ne_none_iff_exists'.mp hconn
    by_cases ha : a = c <;> simp [hs', Listed, Procs.upd, Procs.setSender, ha, hk]
  have hholders := holders_of_sender s s' rfl rfl
  have hreaders := readers_of_main s s' rfl
  have hsame : ∀ a ≠ c, s'.readers a = s.readers a := by
    intro a ha
    rw [hreaders a]
    simp [hs', Procs.upd, Procs.setSender, ha]
  have hself : s'.readers c ≤ 1 := by
    rw [hreaders c, h.unlisted hno]
    simp [hs', Procs.upd, Procs.setSender]
    split <;> omega
  refine ⟨fun a => ?_, fun a => ?_, fun a ha => ?_, fun a => ?_,
    fun a ha => ?_, fun q => ?_, fun a ha => ?_, h.busy⟩
  · rw [hholders a, h.count a, Sender.refs_eq, Sender.refs_eq, hall, count_cons]
    have hnum : refcntOf s'.conn a = refcntOf s.conn a :=
      refcntOf_upd_same (s := s.setSender p x)
        (f := fun k => { k with inHash := true, timeout := timeout })
        (fun k => rfl) a
    rw [hnum]
    simp [hs', Procs.upd, Procs.setSender]
  · by_cases ha : a = c
    · rw [ha]
      exact hself
    · rw [hsame a ha]
      exact h.single a
  · rw [hlisted]
    by_cases hac : a = c
    · exact .inl hac
    · exact .inr (h.listed a (hsame a hac ▸ ha))
  · have hone := h.news a
    have hsum := hmessages a
    have hstep := hnews a
    split at hstep <;> omega
  · have hsum := hmessages a
    have hstep := hnews a
    have hone := h.news a
    have hne : c ≠ a := by
      intro heq
      rw [if_pos heq] at hstep
      omega
    rw [if_neg hne] at hstep
    obtain ⟨hsome, hout⟩ := h.fresh a (by omega)
    rw [hlisted]
    refine ⟨upd_ne_none.mpr hsome, ?_⟩
    rintro (heq | hin)
    · exact hne heq.symm
    · exact hout hin
  · by_cases hq : q = p
    · have hknown : Known (fun a => a = c ∨ Listed s.conn a) x.all := by
        have hold := h.known p
        rw [hall] at hold
        exact hold
      rw [hq, hs']
      unfold Procs.upd Procs.setSender
      dsimp only
      rw [update_self]
      exact hknown.mono fun a _ hin => (hlisted a).mpr hin
    · have hsender : s'.sender q = s.sender q := update_of_ne hq _ _
      rw [hsender]
      exact (h.known q).mono fun a _ hin => (hlisted a).mpr (.inr hin)
  · rw [show s'.main = .idle from hidle] at ha
    cases ha

end

end Msicp.TcpMain.Passing
