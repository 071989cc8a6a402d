import Msicp.Tm.Newtran

/-!
# One cell for each request

No cell of the table would have been accepted by the lookup of a request that
was inserted behind it.  Hence a retransmission finds the cell of its original,
and two cells are accepted for one request only where the comparison is not an
equivalence: for ACKs without the magic cookie, and, when `via1_matching` is
off, for requests without the cookie.
-/

namespace Msicp.Tm.Newtran

open Msicp.Support Function List

section Accepts

variable (prm : Params)

/-- The test that a cell of the bucket has to pass to be found. -/
def acceptsRequest (p t : Request) (cell : Cell) : Bool :=
  if (cookieBranch prm p).isSome then
    skipMethod p &&& t.method.bits = 0 ∧
      ¬ (p.method = .ack ∧ cell.status < 300) ∧ viaMatching prm t p = true
  else if p.method ≠ .ack then headersMatch prm t p
  else
    ackHeadersMatch t p ∧
      if cell.status < 300 then
        cell.relaiedReplyBranch = -2 ∧ dlgMatching cell p = true
      else negativeAckMatches prm t p = true

/-- `t_lookup_request` would accept the cell for the request. -/
def accepts (p : Request) (cell : Cell) : Bool :=
  cell.hashIndex = p.hashIndex ∧ cell.request.any fun t => acceptsRequest prm p t cell

variable {prm} {p q : Request} {table : List (ℕ × Cell)} {cell cell' : Cell}

theorem skipMethod_and_bits (p t : Request) : skipMethod p &&& t.method.bits = 0 ↔
      t.method = if p.method = .ack then .invite else p.method := by
  cases hp : p.method <;> cases t.method <;>
    simp [skipMethod, Method.bits, hp]

/-- Without ACKs the loop over the cookie's cells takes the first match. -/
theorem matching3261_eq_find (hp : p.method ≠ .ack) (hcookie : (cookieBranch prm p).isSome = true) :
    matching3261 prm p (skipMethod p) table = (table.find? fun e => e.2.request.any fun t =>
        acceptsRequest prm p t e.2).map Prod.fst := by
  induction table with
  | nil => rfl
  | cons e rest ih =>
    obtain ⟨c, cell⟩ := e
    cases hreq : cell.request with
    | none =>
      rw [matching3261, hreq, find?_cons_of_neg (by simp [hreq])]
      exact ih
    | some t =>
      have hack : ¬ (p.method = .ack ∧ cell.status < 300) := fun h => hp h.1
      have hacc : acceptsRequest prm p t cell = decide (skipMethod p &&& t.method.bits = 0 ∧
            viaMatching prm t p = true) := by
        simp [acceptsRequest, hcookie, hp]
      rw [matching3261, hreq]
      simp only [if_neg hack]
      by_cases hskip : skipMethod p &&& t.method.bits = 0
      · rw [if_neg (not_not.mpr hskip)]
        by_cases hvia : viaMatching prm t p = true
        · rw [if_pos hvia, find?_cons_of_pos (by
            simp [hreq, hacc, hskip, hvia])]
          rfl
        · rw [if_neg hvia, find?_cons_of_neg (by
            simp [hreq, hacc, hskip, hvia])]
          exact ih
      · have hno : acceptsRequest prm p t cell = false := by
          rw [hacc]
          exact decide_eq_false fun h => hskip h.1
        rw [if_pos hskip, find?_cons_of_neg (by simp [hreq, hno])]
        exact ih

theorem preMatching_eq_find (hp : p.method ≠ .ack)
    (hcookie : ¬ (cookieBranch prm p).isSome = true) :
    preMatching prm p none table =
      match table.find? fun e => e.2.request.any fun t =>
        acceptsRequest prm p t e.2 with
      | some e => .found e.1
      | none => .notfound := by
  induction table with
  | nil => rfl
  | cons e rest ih =>
    obtain ⟨c, cell⟩ := e
    cases hreq : cell.request with
    | none =>
      rw [preMatching, hreq, find?_cons_of_neg (by simp [hreq])]
      exact ih
    | some t =>
      have hacc : acceptsRequest prm p t cell = headersMatch prm t p := by
        simp [acceptsRequest, hcookie, hp]
      rw [preMatching, hreq]
      simp only [if_pos hp]
      by_cases hheaders : headersMatch prm t p = true
      · rw [if_pos hheaders, find?_cons_of_pos (by
          simp [hreq, hacc, hheaders])]
      · rw [if_neg hheaders, find?_cons_of_neg (by
          simp [hreq, hacc, hheaders])]
        exact ih

theorem tLookupRequest_eq_find (hp : p.method ≠ .ack) : tLookupRequest prm table p =
      match table.find? fun e => accepts prm p e.2 with
      | some e => .found e.1
      | none => .notfound := by
  have hfind : (table.filter fun e => e.2.hashIndex = p.hashIndex).find?
      (fun e => e.2.request.any fun t => acceptsRequest prm p t e.2) =
      table.find? fun e => accepts prm p e.2 := by
    rw [find?_filter]
    congr 1
    funext e
    simp [accepts]
  rw [tLookupRequest]
  by_cases hcookie : (cookieBranch prm p).isSome = true
  · simp only [if_pos hcookie, matching3261_eq_find hp hcookie, hfind]
    cases table.find? fun e => accepts prm p e.2 <;> rfl
  · simp only [if_neg hcookie, preMatching_eq_find hp hcookie, hfind]

theorem viaMatching_iff {t : Request} : viaMatching prm t p = true ↔ tid prm t = tid prm p ∧
      (prm.parseVia t.via1).host = (prm.parseVia p.via1).host ∧
      (prm.parseVia t.via1).port = (prm.parseVia p.via1).port ∧
      (prm.parseVia t.via1).transport = (prm.parseVia p.via1).transport := by
  simp [viaMatching]

theorem headersMatch_iff {t : Request} : headersMatch prm t p = true ↔
    t.callid = p.callid ∧ t.cseq = p.cseq ∧ t.fromBody = p.fromBody ∧
      t.toBody = p.toBody ∧ (prm.ruriMatching = true → t.ruri = p.ruri) ∧
      (prm.via1Matching = true → t.via1 = p.via1) := by
  rw [headersMatch, decide_eq_true_eq]

theorem tid_ne_nil : tid prm p ≠ [] ↔ (cookieBranch prm p).isSome = true := by
  rw [tid]
  cases hb : cookieBranch prm p with
  | none => simp
  | some value =>
    obtain ⟨-, hlen⟩ := Option.filter_eq_some_iff.mp hb
    have hlong : mcookie.length < value.length ∧
        value.take mcookie.length = mcookie := by simpa using hlen
    simp only [ne_eq, drop_eq_nil_iff, not_le, Option.isSome_some, iff_true]
    exact hlong.1

theorem accepts_iff : accepts prm p cell = true ↔ cell.hashIndex = p.hashIndex ∧
      ∃ t, cell.request = some t ∧ acceptsRequest prm p t cell = true := by
  simp [accepts, Option.any_eq_true]

theorem acceptsRequest_iff {t : Request} (hp : p.method ≠ .ack) :
    acceptsRequest prm p t cell = true ↔
      if (cookieBranch prm p).isSome then
        t.method = p.method ∧ viaMatching prm t p = true
      else headersMatch prm t p = true := by
  by_cases hcookie : (cookieBranch prm p).isSome = true
  · have hskip := skipMethod_and_bits p t
    rw [if_neg hp] at hskip
    simp only [acceptsRequest, hcookie, if_true, hskip, hp, false_and,
      not_false_eq_true, true_and, decide_eq_true_eq]
  · simp [acceptsRequest, hcookie, hp]

theorem accepts_self (hq : q.method ≠ .ack) (hreq : cell.request = some q)
    (hhash : cell.hashIndex = q.hashIndex) : accepts prm q cell = true := by
  refine accepts_iff.2 ⟨hhash, q, hreq, ?_⟩
  rw [acceptsRequest_iff hq]
  split
  · exact ⟨rfl, viaMatching_iff.mpr ⟨rfl, rfl, rfl, rfl⟩⟩
  · exact headersMatch_iff.mpr ⟨rfl, rfl, rfl, rfl, fun _ => rfl, fun _ => rfl⟩

/-- Where the comparison is an equivalence: two cells that accept one request
accept each other's. -/
theorem accepts_trans (hp : (cookieBranch prm p).isSome = true ∨
      (prm.via1Matching = true ∧ p.method ≠ .ack))
    (h : accepts prm p cell = true) (h' : accepts prm p cell' = true)
    (hreq : cell'.request = some q) (hq : q.method ≠ .ack)
    (hhash : cell'.hashIndex = q.hashIndex) : accepts prm q cell = true := by
  obtain ⟨hidx, t, ht, hacc⟩ := accepts_iff.1 h
  obtain ⟨hidx', t', ht', hacc'⟩ := accepts_iff.1 h'
  have htq : t' = q := Option.some.inj (ht'.symm.trans hreq)
  subst htq
  refine accepts_iff.2 ⟨?_, t, ht, ?_⟩
  · rw [hidx, ← hidx', hhash]
  · rw [acceptsRequest_iff hq]
    by_cases hcookie : (cookieBranch prm p).isSome = true
    · simp only [acceptsRequest, hcookie, if_true, decide_eq_true_eq] at hacc hacc'
      obtain ⟨hskip, -, hvia⟩ := hacc
      obtain ⟨hskip', -, hvia'⟩ := hacc'
      rw [skipMethod_and_bits] at hskip hskip'
      obtain ⟨htid, hhost, hport, htransport⟩ := viaMatching_iff.mp hvia
      obtain ⟨htid', hhost', hport', htransport'⟩ := viaMatching_iff.mp hvia'
      have hcookie' : (cookieBranch prm t').isSome = true := by
        rw [← tid_ne_nil, htid', tid_ne_nil]
        exact hcookie
      rw [if_pos hcookie']
      refine ⟨hskip.trans hskip'.symm, viaMatching_iff.mpr ⟨?_, ?_, ?_, ?_⟩⟩
      · exact htid.trans htid'.symm
      · exact hhost.trans hhost'.symm
      · exact hport.trans hport'.symm
      · exact htransport.trans htransport'.symm
    · obtain ⟨hvia1, hack⟩ := hp.resolve_left hcookie
      rw [acceptsRequest_iff hack, if_neg hcookie] at hacc hacc'
      obtain ⟨h1, h2, h3, h4, h5, h6⟩ := headersMatch_iff.mp hacc
      obtain ⟨h1', h2', h3', h4', h5', h6'⟩ := headersMatch_iff.mp hacc'
      have hcookie' : ¬ (cookieBranch prm t').isSome = true := by
        rw [cookieBranch, h6' hvia1]
        exact hcookie
      rw [if_neg hcookie']
      refine headersMatch_iff.mpr ⟨?_, ?_, ?_, ?_, ?_, ?_⟩
      · exact h1.trans h1'.symm
      · exact h2.trans h2'.symm
      · exact h3.trans h3'.symm
      · exact h4.trans h4'.symm
      · exact fun hr => (h5 hr).trans (h5' hr).symm
      · exact fun hv => (h6 hv).trans (h6' hv).symm

theorem accepts_congr (hp : p.method ≠ .ack) (hreq : cell'.request = cell.request)
    (hhash : cell'.hashIndex = cell.hashIndex) :
    accepts prm p cell' = accepts prm p cell := by
  have hiff : accepts prm p cell' = true ↔ accepts prm p cell = true := by
    rw [accepts_iff, accepts_iff, hreq, hhash]
    simp only [acceptsRequest_iff hp]
  exact Bool.eq_iff_iff.mpr hiff

end Accepts

/-! ## Runs -/

/-- No cell would have been accepted for a request inserted behind it. -/
structure Unmatched (prm : Params) (table : List (ℕ × Cell)) : Prop where
  own : ∀ e ∈ table, ∀ q, e.2.request = some q →
    q.method ≠ .ack ∧ e.2.hashIndex = q.hashIndex
  unmatched : table.Pairwise fun e e' =>
    ∀ q, e'.2.request = some q → accepts prm q e.2 = false
  nodup : (table.map Prod.fst).Nodup

section Runs

variable {prm : Params} {s s' : State} {table : List (ℕ × Cell)} {ev : Event}

theorem Unmatched.append (h : Unmatched prm table) {c : ℕ} {cell : Cell}
    (hc : c ∉ table.map Prod.fst)
    (hown : ∀ q, cell.request = some q → q.method ≠ .ack ∧ cell.hashIndex = q.hashIndex)
    (hnew : ∀ q, cell.request = some q → ∀ e ∈ table, accepts prm q e.2 = false) :
    Unmatched prm (table ++ [(c, cell)]) := by
  refine ⟨?_, ?_, ?_⟩
  · intro e he q hq
    rcases mem_append.mp he with he | he
    · exact h.own e he q hq
    · rw [mem_singleton.mp he] at hq ⊢
      exact hown q hq
  · refine pairwise_append.mpr ⟨h.unmatched, pairwise_singleton .., ?_⟩
    intro e he e' he' q hq
    rw [mem_singleton.mp he'] at hq
    exact hnew q hq e he
  · rw [map_append, List.nodup_append]
    refine ⟨h.nodup, nodup_singleton _, ?_⟩
    intro d hd e he heq
    rw [map_singleton, mem_singleton] at he
    rw [heq, he] at hd
    exact hc hd

theorem Unmatched.sublist (h : Unmatched prm table)
    {table' : List (ℕ × Cell)} (hsub : table'.Sublist table) :
    Unmatched prm table' :=
  ⟨fun e he => h.own e (hsub.subset he), h.unmatched.sublist hsub, h.nodup.sublist (hsub.map _)⟩

theorem Unmatched.map (h : Unmatched prm table) (f : ℕ × Cell → ℕ × Cell)
    (hfst : ∀ e, (f e).1 = e.1)
    (hreq : ∀ e, (f e).2.request = e.2.request)
    (hhash : ∀ e, (f e).2.hashIndex = e.2.hashIndex) :
    Unmatched prm (table.map f) := by
  refine ⟨?_, ?_, ?_⟩
  · intro e' he' q hq
    obtain ⟨e, he, rfl⟩ := List.mem_map.mp he'
    rw [hreq] at hq
    rw [hhash]
    exact h.own e he q hq
  · apply pairwise_map.mpr
    refine List.Pairwise.imp_of_mem ?_ h.unmatched
    intro e e' _ he' hpair q hq
    rw [hreq] at hq
    rw [accepts_congr (h.own e' he' q hq).1 (hreq e) (hhash e)]
    exact hpair q hq
  · have hmap : (table.map f).map Prod.fst = table.map Prod.fst := by
      rw [List.map_map]
      apply map_congr_left
      exact fun e _ => hfst e
    rw [hmap]
    exact h.nodup

theorem tNewtran_table (who : ℕ) (p : Request) (c : ℕ) (built : Bool) :
    (tNewtran prm s who p c built).2.table = s.table ∨
      (p.method ≠ .ack ∧ tLookupRequest prm s.table p = .notfound ∧
        (tNewtran prm s who p c built).2.table = s.table ++
          [(c, { request := some p, hashIndex := p.hashIndex })]) := by
  rw [tNewtran]
  split
  · exact .inl rfl
  · split
    · exact .inl rfl
    · exact .inl rfl
    · rename_i hnot
      split
      · exact .inl rfl
      · rename_i hack
        split
        · exact .inr ⟨hack, hnot, rfl⟩
        · exact .inl rfl

theorem Unmatched.step (h : Unmatched prm s.table)
    (hs : s.step prm ev = some s') : Unmatched prm s'.table := by
  cases ev with
  | newtran who p c built =>
    simp only [State.step] at hs
    obtain ⟨hc, ⟨⟩⟩ := Option.ite_none_left_eq_some.mp hs
    have htable : (tNewtran prm s who p c built).2.table = s.table ∨ _ :=
      tNewtran_table who p c built
    rcases htable with heq | ⟨hack, hnot, heq⟩
    · rw [heq]
      exact h
    · rw [heq]
      apply h.append hc
      · intro q hq
        cases hq
        exact ⟨hack, rfl⟩
      · intro q hq e he
        cases hq
        rw [tLookupRequest_eq_find hack] at hnot
        split at hnot
        · cases hnot
        · rename_i hfind
          have hno := find?_eq_none.mp hfind e he
          simpa using hno
  | check who p =>
    simp only [State.step] at hs
    split at hs <;> (cases hs; exact h)
  | unref who =>
    cases hs
    exact h
  | uac c hashIndex =>
    simp only [State.step] at hs
    obtain ⟨hc, ⟨⟩⟩ := Option.ite_none_left_eq_some.mp hs
    apply h.append hc
    · intro q hq
      cases hq
    · intro q hq
      cases hq
  | remove c =>
    cases hs
    exact h.sublist filter_sublist
  | reply c status branch totag =>
    cases hs
    apply h.map
    · intro e
      split <;> rfl
    · intro e
      split <;> rfl
    · intro e
      split <;> rfl

theorem reach_unmatched (h : (newtrans prm).Reach s) : Unmatched prm s.table := by
  apply h.invariant fun s => Unmatched prm s.table
  · rintro s rfl
    exact ⟨fun e he => absurd he not_mem_nil, List.Pairwise.nil, nodup_nil⟩
  · exact fun ev s s' hs _ hstep => hs.step hstep

/-- One of two cells stands behind the other. -/
theorem Unmatched.either (h : Unmatched prm table) {e e' : ℕ × Cell}
    (he : e ∈ table) (he' : e' ∈ table) (hne : e ≠ e') :
    (∀ q, e'.2.request = some q → accepts prm q e.2 = false) ∨
      ∀ q, e.2.request = some q → accepts prm q e'.2 = false := by
  obtain ⟨before, behind, heq⟩ := append_of_mem he
  have hpair := h.unmatched
  rw [heq] at he' hpair
  obtain ⟨-, hright, hcross⟩ := pairwise_append.mp hpair
  rcases mem_append.mp he' with hmem | hmem
  · exact .inr (hcross e' hmem e mem_cons_self)
  · rcases mem_cons.mp hmem with hmem | hmem
    · exact absurd hmem.symm hne
    · exact .inl ((pairwise_cons.mp hright).1 e' hmem)

/-- The lookup of a retransmission finds the cell of its original. -/
theorem Unmatched.lookup (h : Unmatched prm table) {e : ℕ × Cell}
    (he : e ∈ table) {q : Request} (hq : e.2.request = some q) :
    tLookupRequest prm table q = .found e.1 := by
  obtain ⟨hack, hhash⟩ := h.own e he q hq
  rw [tLookupRequest_eq_find hack]
  cases hfind : table.find? fun e => accepts prm q e.2 with
  | none =>
    have hno := find?_eq_none.mp hfind e he
    rw [accepts_self hack hq hhash] at hno
    exact absurd rfl hno
  | some d =>
    obtain ⟨hd, before, behind, heq, hbefore⟩ :=
      find?_eq_some_iff_append.mp hfind
    have hde : d = e := by
      subst heq
      rcases mem_append.mp he with hmem | hmem
      · have hno := hbefore e hmem
        rw [accepts_self hack hq hhash] at hno
        cases hno
      · rcases mem_cons.mp hmem with hmem | hmem
        · exact hmem.symm
        · have hpair := (pairwise_append.mp h.unmatched).2.1
          have hno := (pairwise_cons.mp hpair).1 e hmem q hq
          rw [hd] at hno
          cases hno
    rw [hde]

/-- The table never holds two cells that the lookup would accept for one
request, if the request has the cookie, or `via1_matching` is on and it is not
an ACK; and every retransmission finds the cell of its original. -/
theorem one_cell_per_request (h : (newtrans prm).Reach s) :
    (∀ p, (cookieBranch prm p).isSome = true ∨ (prm.via1Matching = true ∧ p.method ≠ .ack) →
      ∀ e ∈ s.table, ∀ e' ∈ s.table, accepts prm p e.2 = true →
        accepts prm p e'.2 = true → e = e') ∧
    ∀ e ∈ s.table, ∀ q, e.2.request = some q → ∀ who c built, (∀ d, s.t who ≠ .cell d) →
      tNewtran prm s who q c built =
        (.retransmission, { s with t := update s.t who (.cell e.1) }) := by
  have hinv := reach_unmatched h
  constructor
  · intro p hp e he e' he' hacc hacc'
    by_contra hne
    obtain ⟨-, t, ht, -⟩ := accepts_iff.1 hacc
    obtain ⟨-, t', ht', -⟩ := accepts_iff.1 hacc'
    obtain ⟨hack, hhash⟩ := hinv.own e he t ht
    obtain ⟨hack', hhash'⟩ := hinv.own e' he' t' ht'
    rcases hinv.either he he' hne with hno | hno
    · have hyes := accepts_trans hp hacc hacc' ht' hack' hhash'
      rw [hno t' ht'] at hyes
      cases hyes
    · have hyes := accepts_trans hp hacc' hacc ht hack hhash
      rw [hno t ht] at hyes
      cases hyes
  · intro e he q hq who c built hwho
    have hlookup := hinv.lookup he hq
    rw [tNewtran]
    split
    · rename_i d hd
      exact absurd hd (hwho d)
    · rw [hlookup]

/-- A Via of the form `SIP/2.0/UDP h;branch=…`. -/
def branchVia (branch : String) : Bytes :=
  ascii "SIP/2.0/UDP h;branch=" ++ ascii branch

/-- Parameters for such Vias. -/
def branchParams (via1Matching : Bool) : Params where
  via1Matching
  parseVia text :=
    { branch := some (text.drop 21)
      host := ascii "h"
      port := 0
      transport := ascii "UDP" }

/-- A request that differs from others in method, To and Via only. -/
def dialogRequest (method : Method) (toText branch : String) : Request where
  method
  callid := ascii "c"
  cseq := ascii "1 INVITE"
  cseqNumber := ascii "1"
  fromBody := ascii "<sip:a>;tag=1"
  toBody := ascii toText
  toUri := ascii "sip:b"
  toTag := []
  ruri := ascii "sip:b"
  via1 := branchVia branch
  dlg := true

/-- A request and its retransmission to another process. -/
theorem one_cell_per_request_again : ∃ s s', (newtrans (branchParams true)).Reach s ∧
      tNewtran (branchParams true) s 1 (dialogRequest .invite "<sip:b>" "z9hG4bK1") 8 true =
        (.retransmission, s') ∧ s'.t 1 = .cell 7 := by
  have hreach : (newtrans (branchParams true)).Reach
      (((newtrans (branchParams true)).run {} [.newtran 0
        (dialogRequest .invite "<sip:b>" "z9hG4bK1") 7 true]).getD {}) :=
    Machine.Reach.run (.init rfl) [.newtran 0
      (dialogRequest .invite "<sip:b>" "z9hG4bK1") 7 true] rfl
  obtain ⟨-, hagain⟩ := one_cell_per_request hreach
  have hmem := hagain (7, {
    request := some (dialogRequest .invite "<sip:b>" "z9hG4bK1")
    hashIndex := (dialogRequest .invite "<sip:b>" "z9hG4bK1").hashIndex })
    mem_cons_self _ rfl 1 8 true fun d hd => TPtr.noConfusion hd
  exact ⟨_, _, hreach, hmem, rfl⟩

/-- Without `via1_matching` two cells of requests with the cookie are accepted
for one request without it, and in any case two cells of INVITEs without the
cookie for one ACK. -/
theorem two_cells_per_request : (∃ s p e e', (newtrans (branchParams false)).Reach s ∧
      p.method ≠ .ack ∧ e ∈ s.table ∧ e' ∈ s.table ∧ e ≠ e' ∧
      accepts (branchParams false) p e.2 = true ∧
      accepts (branchParams false) p e'.2 = true) ∧
    ∃ s p e e', (newtrans (branchParams true)).Reach s ∧ e ∈ s.table ∧ e' ∈ s.table ∧ e ≠ e' ∧
      accepts (branchParams true) p e.2 = true ∧
      accepts (branchParams true) p e'.2 = true := by
  constructor
  · refine ⟨_, dialogRequest .invite "<sip:b>" "1",
      (7, { request := some (dialogRequest .invite "<sip:b>" "z9hG4bK1")
            hashIndex :=
              (dialogRequest .invite "<sip:b>" "z9hG4bK1").hashIndex }),
      (8, { request := some (dialogRequest .invite "<sip:b>" "z9hG4bK2")
            hashIndex :=
              (dialogRequest .invite "<sip:b>" "z9hG4bK2").hashIndex }),
      Machine.Reach.run (.init rfl) [.newtran 0 (dialogRequest .invite "<sip:b>" "z9hG4bK1") 7 true,
          .newtran 1 (dialogRequest .invite "<sip:b>" "z9hG4bK2") 8 true] rfl,
      ?_, ?_, ?_, ?_, ?_, ?_⟩ <;> decide
  · refine ⟨_, dialogRequest .ack "<sip:b>;tag=2" "1",
      (7, { request := some (dialogRequest .invite "<sip:b>" "1")
            hashIndex := (dialogRequest .invite "<sip:b>" "1").hashIndex
            status := 486 }),
      (8, { request := some (dialogRequest .invite "<sip:b>;tag=2" "1")
            hashIndex := (dialogRequest .invite "<sip:b>;tag=2" "1").hashIndex
            status := 486 }),
      Machine.Reach.run (.init rfl) [.newtran 0 (dialogRequest .invite "<sip:b>" "1") 7 true,
          .newtran 1 (dialogRequest .invite "<sip:b>;tag=2" "1") 8 true,
          .reply 7 486 (-1) [], .reply 8 486 (-1) []] rfl,
      ?_, ?_, ?_, ?_, ?_⟩ <;> decide

end Runs

end Msicp.Tm.Newtran
