import Msicp.Tcp.ReadReq

/-!
# The reads of a stream do not matter

What becomes of a connection is a function of its stream: `outcome` cuts the
requests off the front of the stream without reading it piece by piece.  Every
call of `tcp_read_req` keeps the outcome of what is in the buffer and still to
be read.
-/

namespace Msicp.Tcp

open Msicp.Support List

/-- The scan of the bytes since the last request. -/
def scanOf (buf : Bytes) : Scan := readHeadersLoop Scan.init 0 buf

/-- The request at the front of a stream, as far as the buffer holds it. -/
def firstReq (stream : Bytes) : TcpReq :=
  ⟨stream.take tcpBufSize, scanOf (stream.take tcpBufSize)⟩

/-- What is delivered of a stream and how the connection ends: with an error
at a bad request or when the buffer is full, with the end of the stream, or
alive. -/
def outcome (handle : List Bytes → Bytes → ℤ) (closed : Bool)
    (before : List Bytes) (stream : Bytes) : List Bytes × Resp :=
  if (firstReq stream).scan.error ≠ .ok then (before, .error)
  else if (firstReq stream).scan.complete = true then
    if (firstReq stream).scan.hasContentLen = false then (before, .error)
    else if (firstReq stream).scan.parsed < (firstReq stream).scan.start then
      (before, .fault)
    else if receiveMsg handle before (firstReq stream).msg < 0 then
      (before ++ [(firstReq stream).msg], .error)
    else
      outcome handle closed (before ++ [(firstReq stream).msg])
        (stream.drop (firstReq stream).scan.parsed.toNat)
  else if tcpBufSize < stream.length then (before, .error)
  else if closed = true then
    (before, if stream.length = tcpBufSize then .error else .eof)
  else (before, .release)
termination_by stream.length
decreasing_by
  rename_i hreceive
  have hnext := length_next_of_receiveMsg hreceive
  have htake : (firstReq stream).buf.length ≤ stream.length := by
    rw [firstReq, List.length_take]
    omega
  rw [TcpReq.next, List.length_drop] at hnext
  rw [List.length_drop]
  omega

theorem Scan.init_open : init.Open := ⟨rfl, rfl⟩

/-- The outcome of what the connection has not delivered yet. -/
def Conn.outcome (handle : List Bytes → Bytes → ℤ) (c : Conn) :
    List Bytes × Resp :=
  Tcp.outcome handle c.closed c.delivered (c.req.buf ++ c.socket)

/-- The bytes in the buffer were all scanned, and the scan wants more. -/
structure Conn.Resting (c : Conn) : Prop where
  scan : c.req.scan = scanOf c.req.buf
  scanOpen : c.req.scan.Open
  bound : c.req.buf.length ≤ tcpBufSize
  connEof : c.connEof = false

/-- The bytes in the buffer are there to be scanned. -/
structure Conn.Unscanned (c : Conn) : Prop where
  scan : c.req.scan = Scan.init
  nonempty : c.req.buf ≠ []
  bound : c.req.buf.length ≤ tcpBufSize
  connEof : c.connEof = false

/-- A call or a turn keeps the outcome: it answers with it, or leaves it to the
bytes still there. -/
structure Keeps (handle : List Bytes → Bytes → ℤ) (c c' : Conn)
    (resp : Resp) : Prop where
  dead : resp ≠ .release → c.outcome handle = (c'.delivered, resp)
  alive : resp = .release → c'.Resting ∧
    c'.outcome handle = c.outcome handle ∧ c'.closed = c.closed ∧
      c'.socket.length ≤ c.socket.length

/-- The part of the buffer that stops the scan decides about the first
request. -/
theorem firstReq_of_stop {buf socket : Bytes}
    (hbound : buf.length ≤ tcpBufSize) (hstop : ¬ (scanOf buf).Open) :
    (firstReq (buf ++ socket)).scan = scanOf buf ∧
      (firstReq (buf ++ socket)).msg = TcpReq.msg ⟨buf, scanOf buf⟩ := by
  have hscan : (firstReq (buf ++ socket)).scan = scanOf buf := by
    rw [firstReq, take_append, take_of_length_le hbound]
    exact readHeadersLoop_stop _ Scan.init_open hstop
  have hparsed : (scanOf buf).parsed.toNat ≤ buf.length := by
    have hle := @readHeadersLoop_parsed_le Scan.init 0 buf
    rw [Nat.zero_add] at hle
    exact Int.toNat_le.mpr hle
  refine ⟨hscan, ?_⟩
  rw [TcpReq.msg, TcpReq.msg, hscan]
  congr 1
  rw [firstReq, take_append, take_of_length_le hbound]
  exact take_append_of_le_length hparsed

/-- The connection after a request was taken. -/
def Conn.taken (c : Conn) : Conn :=
  { c with delivered := c.delivered ++ [c.req.msg], req := c.req.next }

variable {handle : List Bytes → Bytes → ℤ} {c : Conn} {n : ℕ}

/-- What is left of the stream behind a request that was taken. -/
theorem outcome_taken
    (hscan : c.req.scan = scanOf c.req.buf)
    (hbound : c.req.buf.length ≤ tcpBufSize)
    (hok : c.req.scan.error = .ok) (hcomplete : c.req.scan.complete = true)
    (hlen : c.req.scan.hasContentLen ≠ false)
    (hstart : ¬ c.req.scan.parsed < c.req.scan.start)
    (hreceive : ¬ receiveMsg handle c.delivered c.req.msg < 0) :
    c.outcome handle = c.taken.outcome handle := by
  have hstop : ¬ (scanOf c.req.buf).Open := by
    intro hopen
    rw [← hscan] at hopen
    exact absurd hopen.complete (by simp [hcomplete])
  obtain ⟨hfirst, hmsg⟩ := @firstReq_of_stop _ c.socket hbound hstop
  rw [← hscan] at hfirst hmsg
  have hparsed : c.req.scan.parsed.toNat ≤ c.req.buf.length := by
    have hle := @readHeadersLoop_parsed_le Scan.init 0 c.req.buf
    rw [Nat.zero_add] at hle
    rw [hscan]
    exact Int.toNat_le.mpr hle
  have hfirstMsg : (firstReq (c.req.buf ++ c.socket)).msg = c.req.msg := hmsg
  rw [Conn.outcome, outcome, hfirst, hfirstMsg, if_neg (not_not.mpr hok),
    if_pos hcomplete, if_neg hlen, if_neg hstart, if_neg hreceive,
    drop_append_of_le_length hparsed]
  rfl

/-- The rest of a call after the bytes in the buffer were scanned. -/
theorem checkComplete_keeps {handle : List Bytes → Bytes → ℤ} {c : Conn}
    (hscan : c.req.scan = scanOf c.req.buf)
    (hbound : c.req.buf.length ≤ tcpBufSize) (heof : c.connEof = false) :
    (∀ resp, (checkComplete handle c).2 = some resp →
      Keeps handle c (checkComplete handle c).1 resp) ∧
    ((checkComplete handle c).2 = none →
      (checkComplete handle c).1 = c.taken ∧ c.taken.Unscanned ∧
      c.taken.outcome handle = c.outcome handle) := by
  by_cases hopen : c.req.scan.Open
  · have hcheck : checkComplete handle c = (c, some .release) := by
      rw [checkComplete, if_neg (not_not.mpr hopen.error), if_neg (by
        simp [hopen.complete])]
    rw [hcheck]
    constructor
    · intro resp hresp
      obtain rfl : Resp.release = resp := Option.some.inj hresp
      exact ⟨fun h => absurd rfl h,
        fun _ => ⟨⟨hscan, hopen, hbound, heof⟩, rfl, rfl, le_rfl⟩⟩
    · intro hnone
      cases hnone
  · have hstop : ¬ (scanOf c.req.buf).Open := hscan ▸ hopen
    obtain ⟨hfirst, hmsg⟩ := @firstReq_of_stop _ c.socket hbound hstop
    rw [← hscan] at hfirst hmsg
    have hfirstMsg : (firstReq (c.req.buf ++ c.socket)).msg = c.req.msg :=
      hmsg
    have hout : c.outcome handle =
        outcome handle c.closed c.delivered (c.req.buf ++ c.socket) := rfl
    rw [outcome, hfirst, hfirstMsg] at hout
    have dead : ∀ {c' : Conn} {resp : Resp}, resp ≠ .release →
        c.outcome handle = (c'.delivered, resp) →
        (∀ resp', (some resp = some resp') → Keeps handle c c' resp') ∧
        ((some resp : Option Resp) = none → c' = c.taken ∧
          c.taken.Unscanned ∧ c.taken.outcome handle = c.outcome handle) := by
      intro c' resp hresp hc'
      constructor
      · intro resp' heq
        obtain rfl := Option.some.inj heq
        exact ⟨fun _ => hc', fun h => absurd h hresp⟩
      · intro hnone
        cases hnone
    rw [checkComplete]
    by_cases hok : c.req.scan.error = .ok
    · rw [if_neg (not_not.mpr hok)] at hout ⊢
      have hcomplete : c.req.scan.complete = true := by
        by_contra hfalse
        exact hopen ⟨hok, by simpa using hfalse⟩
      rw [if_pos hcomplete] at hout ⊢
      by_cases hlen : c.req.scan.hasContentLen = false
      · rw [if_pos hlen] at hout ⊢
        exact dead (by decide) hout
      · rw [if_neg hlen] at hout ⊢
        by_cases hstart : c.req.scan.parsed < c.req.scan.start
        · rw [if_pos hstart] at hout ⊢
          exact dead (by decide) hout
        · rw [if_neg hstart] at hout ⊢
          by_cases hreceive : receiveMsg handle c.delivered c.req.msg < 0
          · rw [if_pos hreceive] at hout ⊢
            exact dead (by decide) hout
          · rw [if_neg hreceive]
            have htaken := outcome_taken hscan hbound hok hcomplete hlen hstart
              hreceive
            have hnext : c.req.next.buf.length ≤ tcpBufSize := by
              simp only [TcpReq.next, length_drop]
              omega
            by_cases hleft : c.req.next.buf = []
            · simp only [hleft, heof, ne_eq, not_true_eq_false, if_false,
                Bool.false_eq_true]
              constructor
              · intro resp hresp
                obtain rfl : Resp.release = resp := Option.some.inj hresp
                refine ⟨fun h => absurd rfl h, fun _ => ⟨?_, htaken.symm, rfl,
                  le_rfl⟩⟩
                refine ⟨?_, Scan.init_open, hnext, rfl⟩
                change Scan.init = scanOf c.req.next.buf
                rw [hleft]
                rfl
              · intro hnone
                cases hnone
            · simp only [ne_eq, hleft, not_false_eq_true, if_true]
              constructor
              · intro resp hresp
                cases hresp
              · intro _
                exact ⟨rfl, ⟨rfl, hleft, hnext, heof⟩, htaken.symm⟩
    · rw [if_pos hok] at hout ⊢
      exact dead (by decide) hout

theorem readReqTurn_unscanned {handle : List Bytes → Bytes → ℤ} {n : ℕ}
    {c : Conn} (hc : c.Unscanned) :
    readReqTurn handle n c = checkComplete handle (scanUnparsed c) ∧
      (scanUnparsed c).req.scan = scanOf c.req.buf := by
  have hscan : (scanUnparsed c).req.scan = scanOf c.req.buf := by
    simp only [scanUnparsed, hc.scan]
    rfl
  have hparsed : c.req.scan.parsed < c.req.buf.length := by
    have hpos : 0 < c.req.buf.length := length_pos_iff.mpr hc.nonempty
    rw [hc.scan]
    change (0 : ℤ) < c.req.buf.length
    omega
  have heof : ¬ ((scanUnparsed c).connEof = true ∧
      (scanUnparsed c).req.scan.complete = false) := by
    rintro ⟨h, -⟩
    have hfalse : (scanUnparsed c).connEof = false := hc.connEof
    rw [hfalse] at h
    cases h
  refine ⟨?_, hscan⟩
  rw [readReqTurn, if_pos (by rw [hc.scan]; rfl), tcpReadHeaders,
    if_pos hparsed]
  dsimp only
  rw [if_neg (by decide), if_neg heof]

theorem Conn.Resting.parsed (hc : c.Resting) :
    c.req.scan.parsed = c.req.buf.length := by
  have hopen := hc.scanOpen
  rw [hc.scan] at hopen ⊢
  have h := readHeadersLoop_parsed Scan.init_open hopen
  rw [Nat.zero_add] at h
  exact h

/-- The stream ends or goes on behind a buffer that is full or was scanned. -/
theorem outcome_resting
    (hc : c.Resting) (hend : c.socket = [] ∨ c.req.buf.length = tcpBufSize) :
    c.outcome handle =
      if tcpBufSize < (c.req.buf ++ c.socket).length then
        (c.delivered, .error)
      else if c.closed = true then
        (c.delivered, if (c.req.buf ++ c.socket).length = tcpBufSize then
          .error else .eof)
      else (c.delivered, .release) := by
  have htake : (c.req.buf ++ c.socket).take tcpBufSize = c.req.buf := by
    rcases hend with hend | hend
    · rw [hend, append_nil]
      exact take_of_length_le hc.bound
    · rw [← hend, take_left]
  have hfirst : (firstReq (c.req.buf ++ c.socket)).scan = c.req.scan := by
    rw [firstReq, htake, hc.scan]
  rw [Conn.outcome, outcome, hfirst,
    if_neg (not_not.mpr hc.scanOpen.error),
    if_neg (by simp [hc.scanOpen.complete])]

/-- The connection after a read of some bytes. -/
def Conn.fed (c : Conn) (n : ℕ) : Conn :=
  let bytes := c.socket.take (min (n + 1) (tcpBufSize - c.req.buf.length))
  { c with
    req := { c.req with buf := c.req.buf ++ bytes }
    socket := c.socket.drop bytes.length }

/-- Nothing was read, scanned or delivered. -/
structure Conn.Same (c c' : Conn) : Prop where
  delivered : c'.delivered = c.delivered
  visited : c'.visited = c.visited
  buf : c'.req.buf = c.req.buf
  start : c'.req.scan.start = c.req.scan.start
  parsed : c'.req.scan.parsed = c.req.scan.parsed
  bytesToGo : c'.req.scan.bytesToGo = c.req.scan.bytesToGo

/-- A call on a connection at rest reads: it ends when the buffer is full or
the stream is at its end, and scans the new bytes otherwise. -/
theorem readReqTurn_resting {handle : List Bytes → Bytes → ℤ} {n : ℕ}
    {c : Conn} (hc : c.Resting) (hread : c.socket ≠ [] ∨ c.closed = true) :
    (∃ c' resp, readReqTurn handle n c = (c', some resp) ∧
      resp ≠ .release ∧ c.outcome handle = (c'.delivered, resp) ∧
      c.Same c') ∨
    (c.req.buf.length < tcpBufSize ∧ c.socket ≠ [] ∧
      readReqTurn handle n c = checkComplete handle (scanUnparsed (c.fed n)) ∧
      (scanUnparsed (c.fed n)).req.scan = scanOf (c.fed n).req.buf) := by
  have hparsed := hc.parsed
  have hnot : ¬ c.req.scan.parsed < c.req.buf.length := by omega
  rw [readReqTurn, if_pos hc.scanOpen.error, tcpReadHeaders, if_neg hnot,
    tcpRead]
  by_cases hfull : tcpBufSize - c.req.buf.length = 0
  · have hlen : c.req.buf.length = tcpBufSize := by
      have hbound := hc.bound
      omega
    left
    refine ⟨{ c with req := { c.req with
        scan := { c.req.scan with error := .overrun } } }, .error,
      by simp [hfull], by decide, ?_, ⟨rfl, rfl, rfl, rfl, rfl, rfl⟩⟩
    rw [outcome_resting hc (Or.inr hlen), List.length_append, hlen]
    by_cases hsocket : c.socket = []
    · have hclosed := hread.resolve_left (not_not.mpr hsocket)
      simp [hsocket, hclosed]
    · have hpos := length_pos_iff.mpr hsocket
      rw [if_pos (by omega)]
  · have hlt : c.req.buf.length < tcpBufSize := by omega
    by_cases hsocket : c.socket = []
    · have hclosed := hread.resolve_left (not_not.mpr hsocket)
      left
      refine ⟨{ c with connEof := true }, .eof, ?_, by decide, ?_,
        ⟨rfl, rfl, rfl, rfl, rfl, rfl⟩⟩
      · simp [hfull, hsocket, hclosed, hc.scanOpen.complete]
      · rw [outcome_resting hc (Or.inl hsocket), hsocket, append_nil,
          if_neg (by omega), if_pos hclosed, if_neg (by omega)]
    · right
      have hscan : (scanUnparsed (c.fed n)).req.scan =
          scanOf (c.fed n).req.buf := by
        have hopen := hc.scanOpen
        rw [hc.scan] at hopen
        have happend := readHeadersLoop_append
          (c.socket.take (min (n + 1) (tcpBufSize - c.req.buf.length)))
          Scan.init_open hopen
        rw [Nat.zero_add] at happend
        simp only [scanUnparsed, Conn.fed, hparsed, Int.toNat_natCast,
          drop_left, scanOf]
        rw [happend, hc.scan]
        rfl
      refine ⟨hlt, hsocket, ?_, hscan⟩
      have hsome : ¬ ((c.socket.take (min (n + 1)
          (tcpBufSize - c.req.buf.length))).length : ℤ) ≤ 0 := by
        have hpos := length_pos_iff.mpr hsocket
        rw [length_take]
        omega
      have heof : (scanUnparsed (c.fed n)).connEof = false := hc.connEof
      rw [if_neg hfull, if_neg hsocket]
      dsimp only
      rw [if_neg hsome]
      dsimp only
      rw [if_neg (by omega), if_neg (by
        rintro ⟨h, -⟩
        exact absurd (heof.symm.trans h) Bool.false_ne_true)]
      rfl

theorem tcpReadReq_some
    {c' : Conn} {resp : Resp}
    (h : readReqTurn handle n c = (c', some resp)) :
    tcpReadReq handle n c = (c', resp) := by
  rw [tcpReadReq]
  split
  · next resp' hresp =>
      rw [h] at hresp
      obtain rfl : resp = resp' := Option.some.inj hresp
      rw [h]
  · next hnone =>
      rw [h] at hnone
      cases hnone

theorem tcpReadReq_none
    {c' : Conn} (h : readReqTurn handle n c = (c', none)) :
    tcpReadReq handle n c = tcpReadReq handle n c' := by
  rw [tcpReadReq]
  split
  · next resp hresp =>
      rw [h] at hresp
      cases hresp
  · rw [h]

/-- A call whose turns all keep the outcome keeps it: the turn that has scanned
the buffer, and the turns on what is left of it. -/
theorem tcpReadReq_of_scanned
    {c₁ : Conn} (hturn : readReqTurn handle n c = checkComplete handle c₁)
    (hscan : c₁.req.scan = scanOf c₁.req.buf)
    (hbound : c₁.req.buf.length ≤ tcpBufSize) (heof : c₁.connEof = false)
    (hnext : c₁.taken.Unscanned → c₁.taken.pending < c₁.pending →
      Keeps handle c₁.taken (tcpReadReq handle n c₁.taken).1
        (tcpReadReq handle n c₁.taken).2) :
    Keeps handle c₁ (tcpReadReq handle n c).1 (tcpReadReq handle n c).2 := by
  obtain ⟨hsome, hnone⟩ := @checkComplete_keeps handle c₁ hscan hbound heof
  cases hresp : (checkComplete handle c₁).2 with
  | some resp =>
    have heq : readReqTurn handle n c =
        ((checkComplete handle c₁).1, some resp) := by
      rw [hturn, ← hresp]
    rw [tcpReadReq_some heq]
    exact hsome resp hresp
  | none =>
    obtain ⟨htaken, hunscanned, houtcome⟩ := hnone hresp
    have heq : readReqTurn handle n c = (c₁.taken, none) := by
      rw [hturn, ← hresp, ← htaken]
    have hless := pending_checkComplete hresp
    rw [htaken] at hless
    have hkeeps := hnext hunscanned hless
    rw [tcpReadReq_none heq]
    constructor
    · intro hdead
      rw [← houtcome]
      exact hkeeps.dead hdead
    · intro halive
      obtain ⟨hrest, hout, hclosed, hsocket⟩ := hkeeps.alive halive
      exact ⟨hrest, hout.trans houtcome, hclosed, hsocket⟩

theorem tcpReadReq_unscanned
    (hc : c.Unscanned) :
    Keeps handle c (tcpReadReq handle n c).1 (tcpReadReq handle n c).2 := by
  induction hk : c.pending using Nat.strong_induction_on generalizing c with
  | _ k ih =>
    obtain ⟨hturn, hscan⟩ := @readReqTurn_unscanned handle n c hc
    subst hk
    have hkeeps := tcpReadReq_of_scanned hturn hscan hc.bound hc.connEof
      fun hunscanned hless => ih _ hless hunscanned rfl
    exact ⟨hkeeps.dead, hkeeps.alive⟩

/-- A call on a connection at rest keeps the outcome, and is its last one or
has read some bytes. -/
theorem tcpReadReq_resting {handle : List Bytes → Bytes → ℤ} {n : ℕ}
    {c : Conn} (hc : c.Resting) (hread : c.socket ≠ [] ∨ c.closed = true) :
    Keeps handle c (tcpReadReq handle n c).1 (tcpReadReq handle n c).2 ∧
      ((tcpReadReq handle n c).2 = .release →
        (tcpReadReq handle n c).1.socket.length < c.socket.length) := by
  rcases @readReqTurn_resting handle n c hc hread with
    ⟨c', resp, hturn, hresp, hout, -⟩ | ⟨hlt, hsocket, hturn, hscan⟩
  · rw [tcpReadReq_some hturn]
    exact ⟨⟨fun _ => hout, fun h => absurd h hresp⟩,
      fun h => absurd h hresp⟩
  · have hbound : (c.fed n).req.buf.length ≤ tcpBufSize := by
      simp only [Conn.fed, List.length_append, length_take]
      omega
    have hkeeps := tcpReadReq_of_scanned hturn hscan hbound hc.connEof
      fun hunscanned _ => tcpReadReq_unscanned hunscanned
    have hout : (scanUnparsed (c.fed n)).outcome handle =
        c.outcome handle := by
      simp only [Conn.outcome, scanUnparsed, Conn.fed, append_assoc,
        length_take]
      congr 2
      conv_rhs => rw [← take_append_drop
        (min (n + 1) (tcpBufSize - c.req.buf.length)) c.socket]
      congr 1
      by_cases hle : min (n + 1) (tcpBufSize - c.req.buf.length) ≤
          c.socket.length
      · rw [min_eq_left hle]
      · rw [min_eq_right (by omega), drop_length,
          drop_of_length_le (by omega)]
    have hshort : (scanUnparsed (c.fed n)).socket.length <
        c.socket.length := by
      have hpos := length_pos_iff.mpr hsocket
      simp only [scanUnparsed, Conn.fed, length_drop, length_take]
      omega
    refine ⟨⟨?_, ?_⟩, ?_⟩
    · intro hdead
      rw [← hout]
      exact hkeeps.dead hdead
    · intro halive
      obtain ⟨hrest, hout', hclosed, hle⟩ := hkeeps.alive halive
      exact ⟨hrest, hout'.trans hout, hclosed, hle.trans hshort.le⟩
    · intro halive
      obtain ⟨-, -, -, hle⟩ := hkeeps.alive halive
      exact hle.trans_lt hshort

/-- A connection that is alive is at rest, and its deliveries and end are still
those of the stream; a dead one has them. -/
structure Conn.Heads (handle : List Bytes → Bytes → ℤ) (c : Conn)
    (result : List Bytes × Resp) : Prop where
  dead : c.resp ≠ .release → (c.delivered, c.resp) = result
  alive : c.resp = .release → c.Resting ∧ c.outcome handle = result

theorem run_heads {handle : List Bytes → Bytes → ℤ}
    {result : List Bytes × Resp} {ns : List ℕ} {c : Conn}
    (h : c.Heads handle result) : (run handle c ns).Heads handle result := by
  induction ns generalizing c with
  | nil => exact h
  | cons n ns ih =>
    rw [run]
    by_cases hread : c.Readable
    · rw [if_pos hread]
      obtain ⟨hrest, hout⟩ := h.alive hread.1
      obtain ⟨hkeeps, -⟩ :=
        @tcpReadReq_resting handle n c hrest hread.2
      refine ih ⟨?_, ?_⟩
      · intro hdead
        exact (hkeeps.dead hdead).symm.trans hout
      · intro halive
        obtain ⟨hrest', hout', -, -⟩ := hkeeps.alive halive
        exact ⟨⟨hrest'.scan, hrest'.scanOpen, hrest'.bound,
          hrest'.connEof⟩, hout'.trans hout⟩
    · rw [if_neg hread]
      exact h

theorem init_heads (handle : List Bytes → Bytes → ℤ) (stream : Bytes)
    (closed : Bool) :
    (Conn.init stream closed).Heads handle
      (outcome handle closed [] stream) := by
  refine ⟨fun h => absurd rfl h, fun _ => ⟨?_, rfl⟩⟩
  exact ⟨rfl, Scan.init_open, Nat.zero_le _, rfl⟩

theorem Conn.Heads.finished
    {result : List Bytes × Resp} (h : c.Heads handle result)
    (hfinished : ¬ c.Readable) : (c.delivered, c.resp) = result := by
  by_cases hresp : c.resp = .release
  · obtain ⟨hrest, hout⟩ := h.alive hresp
    have hnone : c.socket = [] ∧ c.closed = false := by
      constructor
      · by_contra hsocket
        exact hfinished ⟨hresp, Or.inl hsocket⟩
      · by_contra hclosed
        exact hfinished ⟨hresp, Or.inr (by simpa using hclosed)⟩
    have hlen : ¬ tcpBufSize < c.req.buf.length :=
      Nat.not_lt.mpr hrest.bound
    rw [← hout, outcome_resting hrest (Or.inl hnone.1), hnone.1,
      append_nil, if_neg hlen, hnone.2, if_neg Bool.false_ne_true, hresp]
  · exact h.dead hresp

theorem run_finishes {handle : List Bytes → Bytes → ℤ}
    {result : List Bytes × Resp} {ns : List ℕ} {c : Conn}
    (h : c.Heads handle result) (hns : c.socket.length < ns.length) :
    ¬ (run handle c ns).Readable := by
  induction ns generalizing c with
  | nil => simp at hns
  | cons n ns ih =>
    rw [run]
    by_cases hread : c.Readable
    · rw [if_pos hread]
      have hhead := @run_heads _ _ [n] _ h
      rw [run, if_pos hread] at hhead
      obtain ⟨hrest, -⟩ := h.alive hread.1
      obtain ⟨-, hshort⟩ :=
        @tcpReadReq_resting handle n c hrest hread.2
      by_cases halive : (tcpReadReq handle n c).2 = .release
      · refine ih hhead ?_
        have hless := hshort halive
        rw [length_cons] at hns
        change (tcpReadReq handle n c).1.socket.length < ns.length
        omega
      · intro hmore
        have hstay : ∀ (ns : List ℕ) (c : Conn), c.resp ≠ .release →
            run handle c ns = c := by
          intro ns c hdead
          cases ns with
          | nil => rfl
          | cons n ns => rw [run, if_neg fun h => hdead h.1]
        rw [hstay _ _ halive] at hmore
        exact halive hmore.1
    · rw [if_neg hread]
      exact hread

/-- Two ways of reading a stream to its end deliver the same messages and
leave the connection with the same status. -/
theorem reads_independent (handle : List Bytes → Bytes → ℤ) (stream : Bytes)
    (closed : Bool) (ns ns' : List ℕ)
    (h : ¬ (run handle (Conn.init stream closed) ns).Readable)
    (h' : ¬ (run handle (Conn.init stream closed) ns').Readable) :
    (run handle (Conn.init stream closed) ns).delivered =
        (run handle (Conn.init stream closed) ns').delivered ∧
      (run handle (Conn.init stream closed) ns).resp =
        (run handle (Conn.init stream closed) ns').resp := by
  have hone := (run_heads (init_heads handle stream closed)).finished h
  have htwo := (run_heads (init_heads handle stream closed)).finished h'
  exact Prod.mk.inj (hone.trans htwo.symm)

/-- A request with a body of two bytes, and the start of another. -/
def sampleStream : Bytes := ascii "OPTIONS sip:a SIP/2.0\nl: 2\n\nhiACK"

/-- The sample read by at most `n + 1` bytes at a time. -/
def sampleRun (n : ℕ) : Conn :=
  run (fun _ _ => 0) (Conn.init sampleStream true) (List.replicate 40 n)

theorem reads_independent_sample :
    ¬ (sampleRun 0).Readable ∧ ¬ (sampleRun 9).Readable ∧
      (sampleRun 0).delivered = (sampleRun 9).delivered ∧
      (sampleRun 0).resp = (sampleRun 9).resp := by
  have hheads := init_heads (fun _ _ => 0) sampleStream true
  have hone := @run_finishes _ _ (List.replicate 40 0) _ hheads (by decide)
  have htwo := @run_finishes _ _ (List.replicate 40 9) _ hheads (by decide)
  exact ⟨hone, htwo, reads_independent (fun _ _ => 0) sampleStream true
    (List.replicate 40 0) (List.replicate 40 9) hone htwo⟩

end Msicp.Tcp
