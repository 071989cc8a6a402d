import Msicp.TcpMain.Connections

/-!
# `tcp_send`

A message is sent on a connection that is found, or on one that is opened.
What the system calls do is given; what `tcp_send` does to the connection, to
"tcp main" and to descriptors is written down in order.
-/

namespace Msicp.TcpMain.Send

open List

/-- The commands to main that `tcp_send` uses. -/
inductive Cmd
  | error
  | getFd
  | new
  deriving DecidableEq

/-- What `tcp_send` does.  A message to main, the descriptor behind it and the
write on the stream come with what the call has returned. -/
inductive Effect
  | ref (c : Addr)
  | put (c : Addr)
  | bad (c : Addr)
  | message (c : Addr) (cmd : Cmd) (n : ℤ)
  | passFd (fd n : ℤ)
  | takeFd (fd : ℤ)
  | close (fd : ℤ)
  | write (fd n : ℤ)
  deriving DecidableEq

/-- What `receive_fd` returns, and leaves in `c` and in `fd`. -/
structure Received where
  n : ℤ
  c : Addr
  fd : ℤ

/-- What the calls of `tcp_send` return: two searches, `tcpconn_connect` with
the socket, `send_all` and `send_fd` for a new connection, `send_all` and
`receive_fd` for one that is there, `tsend_stream`, and `send_all` behind a
failure. -/
structure Outcomes where
  found : Option Addr
  foundByAddr : Option Addr
  connected : Option (Addr × ℤ)
  sentNew : ℤ
  sentFd : ℤ
  sentGetFd : ℤ
  received : Received
  written : ℤ
  sentError : ℤ

/-- `sizeof(response)` -/
def responseSize : ℤ := 16

def releaseC (c : Addr) (n : ℤ) : List Effect × ℤ := ([.put c], n)

/-- `end` -/
def finish (c : Addr) (fd n : ℤ) : List Effect × ℤ := ([.close fd, .put c], n)

/-- Something is done first. -/
def after (es : List Effect) (out : List Effect × ℤ) : List Effect × ℤ :=
  (es ++ out.1, out.2)

def sendIt (o : Outcomes) (c : Addr) (fd : ℤ) : List Effect × ℤ :=
  after [.write fd o.written] (if o.written < 0 then
      ([.bad c, .message c .error o.sentError, .close fd],
        if o.sentError ≤ 0 then -1 else o.sentError)
    else finish c fd o.written)

def getFd (o : Outcomes) (c : Addr) : List Effect × ℤ :=
  after [.message c .getFd o.sentGetFd] (if o.sentGetFd ≤ 0 then releaseC c (-1)
    else if o.received.n ≤ 0 then releaseC o.received.c (-1)
    else after [.takeFd o.received.fd]
      (if o.received.c ≠ c then finish o.received.c o.received.fd (-1)
      else sendIt o c o.received.fd))

/-- `no_id`, where no connection is open. -/
def openNew (o : Outcomes) : List Effect × ℤ :=
  match o.connected with
  | none => ([], -1)
  | some (c, s) =>
    after [.ref c, .takeFd s, .message c .new o.sentNew] (if o.sentNew ≤ 0 then finish c s (-1)
      else after [.passFd s o.sentFd] (if o.sentFd ≤ 0 then finish c s (-1) else sendIt o c s))

def noId (o : Outcomes) (c : Option Addr) : List Effect × ℤ :=
  match c with
  | none => openNew o
  | some c => getFd o c

/-- `tcpconn_get` takes a reference to what it has found. -/
def get (c : Option Addr) : List Effect := (c.map Effect.ref).toList

/-- `tcp_send` to an address, by an id if it is not 0, or by an id only. -/
def tcpSend (o : Outcomes) (dst : Option (Ip × BitVec 16)) (id : ℤ) : List Effect × ℤ :=
  if dst = none ∧ id = 0 then ([], -1)
  else after (get o.found) (if id = 0 then noId o o.found
    else match o.found with
    | some c => getFd o c
    | none =>
      if dst = none then ([], -1)
      else after (get o.foundByAddr) (noId o o.foundByAddr))

/-! ## What is asked of it -/

/-- The references to a connection that have been taken. -/
def taken (c : Addr) (es : List Effect) : ℕ := es.count (.ref c)

/-- The references that have been given back, by `tcpconn_put` or by a
`CONN_ERROR` that main has got. -/
def givenBack (c : Addr) (es : List Effect) : ℕ :=
  es.count (.put c) + es.count (.message c .error responseSize)

/-- The message has been written completely. -/
def Written (es : List Effect) : Prop := ∃ fd n, .write fd n ∈ es ∧ 0 ≤ n

/-- The result is negative unless the message has been written, each reference
is given back exactly once, and each descriptor is closed exactly once. -/
structure Right (out : List Effect × ℤ) : Prop where
  result : ¬ Written out.1 → out.2 < 0
  refs : ∀ c, givenBack c out.1 = taken c out.1 ∧ taken c out.1 ≤ 1
  fds : ∀ fd ≠ -1, out.1.count (.close fd) = out.1.count (.takeFd fd) ∧
    out.1.count (.takeFd fd) ≤ 1

/-- The connection that is used, if one is open. -/
def used (o : Outcomes) (dst : Option (Ip × BitVec 16)) (id : ℤ) : Option Addr :=
  if id ≠ 0 ∧ o.found = none ∧ dst ≠ none then o.foundByAddr else o.found

/-- A write that is reached does not fail, and main answers with the connection
that it has been asked for. -/
def Smooth (o : Outcomes) (dst : Option (Ip × BitVec 16)) (id : ℤ) : Prop :=
  match used o dst id with
  | some c => dst = none ∧ id = 0 ∨
      (0 < o.sentGetFd → o.received.c = c ∧ (0 < o.received.n → 0 ≤ o.written))
  | none => dst = none ∨ o.connected = none ∨ (0 < o.sentNew → 0 < o.sentFd → 0 ≤ o.written)

/-! ## A reference and a descriptor that are held -/

variable {o : Outcomes} {c : Addr} {fd n : ℤ} {es : List Effect}

/-- So far a reference to `c` has been taken, and the descriptor `fd`. -/
structure Holds (es : List Effect) (c : Addr) (fd : Option ℤ) : Prop where
  refs : ∀ x, taken x es = if x = c then 1 else 0
  back : ∀ x, givenBack x es = 0
  fds : ∀ x, es.count (.takeFd x) = if fd = some x then 1 else 0
  closed : ∀ x, es.count (.close x) = 0

theorem written_append {es es' : List Effect} : Written (es ++ es') ↔ Written es ∨ Written es' := by
  simp only [Written, mem_append, or_and_right, exists_or]

theorem holds_ref (c : Addr) : Holds [.ref c] c none := by
  refine ⟨fun x => ?_, fun x => ?_, fun x => ?_, fun x => ?_⟩
  · simp only [taken, count_singleton, beq_iff_eq, Effect.ref.injEq]
    exact if_congr eq_comm rfl rfl
  · simp [givenBack]
  · simp
  · simp

theorem Holds.request {fd : Option ℤ} (h : Holds es c fd) {e : Effect}
    (he : (∃ x cmd n, cmd ≠ .error ∧ e = .message x cmd n) ∨ ∃ x n, e = .passFd x n) :
    Holds (es ++ [e]) c fd := by
  obtain ⟨hrefs, hback, hfds, hclosed⟩ := h
  rcases he with ⟨x, cmd, n, hcmd, rfl⟩ | ⟨x, n, rfl⟩
  · refine ⟨fun y => ?_, fun y => ?_, fun y => ?_, fun y => ?_⟩
    · simpa [taken] using hrefs y
    · simpa [givenBack, count_singleton, hcmd] using hback y
    · simpa using hfds y
    · simpa using hclosed y
  · refine ⟨fun y => ?_, fun y => ?_, fun y => ?_, fun y => ?_⟩
    · simpa [taken] using hrefs y
    · simpa [givenBack] using hback y
    · simpa using hfds y
    · simpa using hclosed y

theorem Holds.takeFd (h : Holds es c none) (fd : ℤ) : Holds (es ++ [.takeFd fd]) c (some fd) := by
  obtain ⟨hrefs, hback, hfds, hclosed⟩ := h
  refine ⟨fun y => ?_, fun y => ?_, fun y => ?_, fun y => ?_⟩
  · simpa [taken] using hrefs y
  · simpa [givenBack] using hback y
  · simpa [count_singleton] using hfds y
  · simpa using hclosed y

theorem after_after (es es' : List Effect) (out : List Effect × ℤ) :
    after es (after es' out) = after (es ++ es') out := by
  simp [after]

/-! ## The ends -/

theorem taken_append (x : Addr) (es es' : List Effect) :
    taken x (es ++ es') = taken x es + taken x es' :=
  count_append

theorem givenBack_append (x : Addr) (es es' : List Effect) :
    givenBack x (es ++ es') = givenBack x es + givenBack x es' := by
  simp only [givenBack, count_append]
  omega

/-- A path that has only a reference gives it back. -/
theorem Holds.right_releaseC (h : Holds es c none) (hn : n < 0) :
    Right (after es (releaseC c n)) := by
  refine ⟨fun _ => hn, fun x => ?_, fun x _ => ?_⟩
  · change givenBack x (es ++ [Effect.put c]) = taken x (es ++ [Effect.put c]) ∧
      taken x (es ++ [Effect.put c]) ≤ 1
    rw [givenBack_append, taken_append, h.back, h.refs]
    by_cases hx : c = x
    · simp [hx, givenBack, taken]
    · simp [hx, Ne.symm hx, givenBack, taken]
  · simp [after, releaseC, h.fds, h.closed]

/-- A path that has a descriptor as well closes it. -/
theorem Holds.right_finish (h : Holds es c (some fd))
    (hn : ¬ Written es → n < 0) : Right (after es (finish c fd n)) := by
  refine ⟨fun hw => hn fun hes => hw (written_append.mpr (.inl hes)), fun x => ?_, fun x _ => ?_⟩
  · change givenBack x (es ++ [Effect.close fd, .put c]) =
      taken x (es ++ [Effect.close fd, .put c]) ∧ taken x (es ++ [Effect.close fd, .put c]) ≤ 1
    rw [givenBack_append, taken_append, h.back, h.refs]
    by_cases hx : c = x
    · simp [hx, givenBack, taken]
    · simp [hx, Ne.symm hx, givenBack, taken]
  · by_cases hx : fd = x <;> simp [after, finish, h.fds, h.closed, hx]

theorem Holds.not_right_put {f : Option ℤ} (h : Holds es c f)
    {out : List Effect × ℤ} {x : Addr} (hx : x ≠ c)
    (hout : taken x out.1 < givenBack x out.1) : ¬ Right (after es out) := by
  rintro ⟨-, hrefs, -⟩
  have heq : givenBack x (es ++ out.1) = taken x (es ++ out.1) := (hrefs x).1
  rw [givenBack_append, taken_append, h.back, h.refs, if_neg hx] at heq
  omega

theorem Holds.write (h : Holds es c (some fd)) (n : ℤ) :
    Holds (es ++ [.write fd n]) c (some fd) := by
  obtain ⟨hrefs, hback, hfds, hclosed⟩ := h
  refine ⟨fun y => ?_, fun y => ?_, fun y => ?_, fun y => ?_⟩
  · simpa [taken] using hrefs y
  · simpa [givenBack] using hback y
  · simpa using hfds y
  · simpa using hclosed y

/-- On a failed write either the result is what the notice of it has returned,
or the reference is lost. -/
theorem Holds.right_sendIt_iff (h : Holds es c (some fd)) (hes : ¬ Written es) :
    Right (after es (sendIt o c fd)) ↔ 0 ≤ o.written := by
  constructor
  · rintro ⟨hresult, hrefs, -⟩
    by_contra hfail
    have hneg : o.written < 0 := by omega
    simp only [after, sendIt, if_pos hneg] at hresult hrefs
    have hunwritten : ¬ Written (es ++ ([Effect.write fd o.written] ++
        [Effect.bad c, .message c .error o.sentError, .close fd])) := by
      rw [written_append]
      rintro (hw | ⟨fd', n, hmem, hn⟩)
      · exact hes hw
      · simp only [cons_append, nil_append, mem_cons,
          not_mem_nil, Effect.write.injEq, reduceCtorEq, or_false] at hmem
        omega
    have hsent : ¬ 0 < o.sentError := by
      intro hpos
      have hlt := hresult hunwritten
      rw [if_neg (by omega)] at hlt
      omega
    have hlost : o.sentError ≠ responseSize := by
      intro heq
      rw [heq] at hsent
      exact hsent (by decide)
    have hrefsc := (hrefs c).1
    rw [givenBack_append, taken_append, h.back, h.refs, if_pos rfl] at hrefsc
    simp [givenBack, taken, hlost] at hrefsc
  · intro hok
    have hlt : ¬ o.written < 0 := by omega
    rw [sendIt, if_neg hlt, after_after]
    refine (h.write o.written).right_finish fun hw => absurd ?_ hw
    exact written_append.mpr (.inr ⟨fd, o.written, by simp, hok⟩)

/-! ## The paths -/

theorem right_nothing : Right ([], -1) := by
  refine ⟨fun _ => by decide, fun c => ?_, fun fd _ => ?_⟩
  · simp [givenBack, taken]
  · simp

/-- The path on which a descriptor is asked for. -/
theorem right_getFd_iff (o : Outcomes) (c : Addr) : Right (after [.ref c] (getFd o c)) ↔
      (0 < o.sentGetFd → o.received.c = c ∧ (0 < o.received.n → 0 ≤ o.written)) := by
  have hasked : Holds ([Effect.ref c] ++ [Effect.message c .getFd o.sentGetFd]) c none :=
    (holds_ref c).request (.inl ⟨c, .getFd, _, by decide, rfl⟩)
  rw [getFd, after_after]
  by_cases hsent : o.sentGetFd ≤ 0
  · rw [if_pos hsent]
    exact iff_of_true (hasked.right_releaseC (by decide)) (by omega)
  rw [if_neg hsent]
  by_cases hsame : o.received.c = c
  · by_cases hgot : o.received.n ≤ 0
    · rw [if_pos hgot, hsame]
      exact iff_of_true (hasked.right_releaseC (by decide))
        fun _ => ⟨rfl, fun hpos => absurd hpos (by omega)⟩
    · have hholds := hasked.takeFd o.received.fd
      rw [if_neg hgot, if_neg (not_not.mpr hsame), after_after,
        hholds.right_sendIt_iff (by simp [Written])]
      simp only [hsame, true_and]
      omega
  · refine iff_of_false ?_ fun h => hsame (h (by omega)).1
    by_cases hgot : o.received.n ≤ 0
    · rw [if_pos hgot]
      exact hasked.not_right_put hsame (by simp [releaseC, givenBack, taken])
    · rw [if_neg hgot, if_pos hsame, after_after]
      exact (hasked.takeFd o.received.fd).not_right_put hsame (by simp [finish, givenBack, taken])

theorem right_openNew_iff (o : Outcomes) : Right (openNew o) ↔ (o.connected = none ∨
      (0 < o.sentNew → 0 < o.sentFd → 0 ≤ o.written)) := by
  rw [openNew]
  cases hconn : o.connected with
  | none =>
    exact iff_of_true right_nothing (.inl rfl)
  | some p =>
    obtain ⟨c, s⟩ := p
    have hopened : Holds ([Effect.ref c] ++ [Effect.takeFd s] ++
        [Effect.message c .new o.sentNew]) c (some s) :=
      ((holds_ref c).takeFd s).request (.inl ⟨c, .new, _, by decide, rfl⟩)
    simp only [reduceCtorEq, false_or]
    change Right (after ([Effect.ref c] ++ [Effect.takeFd s] ++
      [Effect.message c .new o.sentNew]) _) ↔ _
    by_cases hnew : o.sentNew ≤ 0
    · rw [if_pos hnew]
      exact iff_of_true (hopened.right_finish fun _ => by decide) (by omega)
    rw [if_neg hnew, after_after]
    have hpassed := hopened.request (.inr ⟨s, o.sentFd, rfl⟩)
    by_cases hfd : o.sentFd ≤ 0
    · rw [if_pos hfd]
      exact iff_of_true (hpassed.right_finish fun _ => by decide) (by omega)
    rw [if_neg hfd, hpassed.right_sendIt_iff (by simp [Written])]
    omega

theorem right_noId_iff (o : Outcomes) (f : Option Addr) : Right (after (get f) (noId o f)) ↔
      match f with
      | some c => 0 < o.sentGetFd → o.received.c = c ∧ (0 < o.received.n → 0 ≤ o.written)
      | none => o.connected = none ∨ (0 < o.sentNew → 0 < o.sentFd → 0 ≤ o.written) := by
  cases f with
  | none => exact right_openNew_iff o
  | some c => exact right_getFd_iff o c

/-- `tcp_send` keeps its word on every path on which the write, if it is
reached, does not fail, and main answers with the connection it has been asked
for; on no other path does it. -/
theorem tcpSend_right_iff (o : Outcomes) (dst : Option (Ip × BitVec 16))
    (id : ℤ) : Right (tcpSend o dst id) ↔ Smooth o dst id := by
  unfold tcpSend Smooth used
  cases hfound : o.found with
  | some c =>
    simp only [reduceCtorEq, false_and, and_false, if_false]
    by_cases hbug : dst = none ∧ id = 0
    · rw [if_pos hbug]
      exact iff_of_true right_nothing (.inl hbug)
    · simp only [hbug, if_false, false_or]
      split_ifs
      · exact right_noId_iff o (some c)
      · exact right_getFd_iff o c
  | none =>
    by_cases hdst : dst = none
    · simp only [hdst, true_and, true_or, ne_eq, not_true_eq_false, and_false, if_false, iff_true]
      split_ifs
      · exact right_nothing
      · exact right_nothing
    · simp only [hdst, false_and, false_or, if_false, ne_eq, not_false_eq_true, and_true]
      by_cases hid : id = 0
      · rw [if_pos hid, if_neg (not_not.mpr hid)]
        exact right_noId_iff o none
      · rw [if_neg hid, if_pos hid]
        exact right_noId_iff o o.foundByAddr

/-- The write fails, and main is told so: the result is 16. -/
theorem tcpSend_write_fails : ¬ ∀ o dst id, Right (tcpSend o dst id) := by
  intro h
  have hright := h ⟨some 1, none, none, 0, 0, 16, ⟨8, 1, 5⟩, -1, 16⟩ none 3
  exact absurd (hright.result (by
    rintro ⟨fd, n, hmem, hn⟩
    have hwrite : n = -1 := by
      simp [tcpSend, getFd, sendIt, after, get] at hmem
      exact hmem.2
    omega)) (by decide)

end Msicp.TcpMain.Send
