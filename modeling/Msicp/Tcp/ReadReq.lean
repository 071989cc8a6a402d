import Msicp.Tcp.ReadHeaders

/-!
# Reading the requests of a connection (`tcp_read`, `tcp_read_req`)

The kernel holds the bytes that arrived and were not read yet.  Every time the
connection is readable one `read` moves some of them behind the bytes of the
buffer, the scan goes on, and each request that is complete is handed to
`receive_msg`; what is left is moved to the front of the buffer.
-/

namespace Msicp.Tcp

open Msicp.Support

def tcpBufSize : ℕ := 65535

/-- `struct tcp_req`; `buf` holds the bytes up to `pos`. -/
structure TcpReq where
  buf : Bytes
  scan : Scan

/-- The answer of `tcp_read_req`: `CONN_RELEASE`, `CONN_EOF` or `CONN_ERROR`.
`fault` stands for a request whose end lies in front of its start, for which
`receive_msg` is given a negative length. -/
inductive Resp
  | release
  | eof
  | error
  | fault
  deriving DecidableEq

/-- A connection: the request being read, whether the end of the stream was
seen (`S_CONN_EOF`), the bytes the kernel holds and whether the peer has closed
the stream behind them.  `delivered` lists what was handed to `receive_msg`,
`visited` the points the scan went through, and `resp` is the last answer of
`tcp_read_req`. -/
structure Conn where
  req : TcpReq
  connEof : Bool
  socket : Bytes
  closed : Bool
  delivered : List Bytes
  visited : List Point
  resp : Resp

/-- A connection on which the stream is still to be read. -/
def Conn.init (stream : Bytes) (closed : Bool) : Conn where
  req := ⟨[], Scan.init⟩
  connEof := false
  socket := stream
  closed := closed
  delivered := []
  visited := []
  resp := .release

/-- `tcp_read`, where `read` returns at most `n + 1` bytes: the number of bytes
read, 0 at the end of the stream or when `read` would block, -1 for an
error. -/
def tcpRead (n : ℕ) (c : Conn) : Conn × ℤ :=
  let bytesFree := tcpBufSize - c.req.buf.length
  if bytesFree = 0 then
    ({ c with req := { c.req with
        scan := { c.req.scan with error := .overrun } } }, -1)
  else if c.socket = [] then
    ({ c with connEof := c.connEof || c.closed }, 0)
  else
    let bytes := c.socket.take (min (n + 1) bytesFree)
    ({ c with
      req := { c.req with buf := c.req.buf ++ bytes }
      socket := c.socket.drop bytes.length }, bytes.length)

/-- The loop of `tcp_read_headers`, from `parsed` to `pos`. -/
def scanUnparsed (c : Conn) : Conn :=
  let p := c.req.scan.parsed.toNat
  { c with
    req := { c.req with
      scan := readHeadersLoop c.req.scan p (c.req.buf.drop p) }
    visited := c.visited ++ readHeadersPoints c.req.scan p (c.req.buf.drop p) }

def tcpReadHeaders (n : ℕ) (c : Conn) : Conn × ℤ :=
  if c.req.scan.parsed < c.req.buf.length then (scanUnparsed c, 0)
  else
    let (c, bytes) := tcpRead n c
    if bytes ≤ 0 then (c, bytes) else (scanUnparsed c, bytes)

/-- `receive_msg`.  `parse_first_line` refuses a message of at most 16 bytes;
what becomes of a longer one is up to `handle`, which may depend on the
messages before. -/
def receiveMsg (handle : List Bytes → Bytes → ℤ) (before : List Bytes) (msg : Bytes) : ℤ :=
  if msg.length ≤ 16 then -1 else handle before msg

/-- The bytes from `start` to `parsed`. -/
def TcpReq.msg (req : TcpReq) : Bytes :=
  (req.buf.take req.scan.parsed.toNat).drop req.scan.start

/-- The preparation for the next request: the bytes behind `parsed` are kept,
everything else is reset. -/
def TcpReq.next (req : TcpReq) : TcpReq :=
  ⟨req.buf.drop req.scan.parsed.toNat, Scan.init⟩

/-- The part of `tcp_read_req` behind the eof check: the connection, and the
answer unless the label `again` is gone back to. -/
def checkComplete (handle : List Bytes → Bytes → ℤ) (c : Conn) : Conn × Option Resp :=
  if c.req.scan.error ≠ .ok then (c, some .error)
  else if c.req.scan.complete = true then
    if c.req.scan.hasContentLen = false then
      ({ c with req := { c.req with
          scan := { c.req.scan with error := .badLen } } }, some .error)
    else if c.req.scan.parsed < c.req.scan.start then (c, some .fault)
    else if receiveMsg handle c.delivered c.req.msg < 0 then
      ({ c with delivered := c.delivered ++ [c.req.msg] }, some .error)
    else
      ({ c with
        delivered := c.delivered ++ [c.req.msg]
        req := c.req.next },
        if c.req.next.buf ≠ [] then none
        else if c.connEof then some .eof else some .release)
  else (c, some .release)

/-- One turn of `tcp_read_req` from the label `again`. -/
def readReqTurn (handle : List Bytes → Bytes → ℤ) (n : ℕ) (c : Conn) : Conn × Option Resp :=
  if c.req.scan.error = .ok then
    let (c, bytes) := tcpReadHeaders n c
    if bytes = -1 then (c, some .error)
    else if c.connEof = true ∧ c.req.scan.complete = false then
      (c, some .eof)
    else checkComplete handle c
  else checkComplete handle c

/-- The bytes that are in the buffer or still to be read. -/
def Conn.pending (c : Conn) : ℕ := c.req.buf.length + c.socket.length

theorem pending_tcpRead (n : ℕ) (c : Conn) : (tcpRead n c).1.pending = c.pending := by
  simp only [tcpRead]
  split_ifs with hfull hnone
  · rfl
  · rfl
  · simp only [Conn.pending, List.length_append, List.length_drop, List.length_take]
    omega

theorem pending_tcpReadHeaders (n : ℕ) (c : Conn) : (tcpReadHeaders n c).1.pending = c.pending := by
  have hread := pending_tcpRead n c
  rw [tcpReadHeaders]
  split_ifs with hparsed
  · rfl
  · dsimp only
    split_ifs with hbytes
    · exact hread
    · exact hread

variable {handle : List Bytes → Bytes → ℤ}

theorem length_next_of_receiveMsg
    {before : List Bytes} {req : TcpReq}
    (h : ¬ receiveMsg handle before req.msg < 0) :
    req.next.buf.length < req.buf.length := by
  have hlen : 16 < req.msg.length := by
    by_contra hle
    rw [receiveMsg, if_pos (by omega)] at h
    omega
  simp only [TcpReq.msg, List.length_drop, List.length_take] at hlen
  simp only [TcpReq.next, List.length_drop]
  omega

/-- A request that was taken has used up some bytes. -/
theorem pending_checkComplete {c : Conn} (h : (checkComplete handle c).2 = none) :
    (checkComplete handle c).1.pending < c.pending := by
  rw [checkComplete] at h ⊢
  split_ifs at h ⊢ with _ _ _ _ hreceive hleft
  have hnext := length_next_of_receiveMsg hreceive
  simp only [Conn.pending]
  omega

theorem pending_readReqTurn {n : ℕ}
    {c : Conn} (h : (readReqTurn handle n c).2 = none) :
    (readReqTurn handle n c).1.pending < c.pending := by
  rw [readReqTurn] at h ⊢
  by_cases hok : c.req.scan.error = .ok
  · rw [if_pos hok] at h ⊢
    have hread := pending_tcpReadHeaders n c
    dsimp only at h ⊢
    split_ifs at h ⊢
    rw [← hread]
    exact pending_checkComplete h
  · rw [if_neg hok] at h ⊢
    exact pending_checkComplete h

/-- `tcp_read_req`: the connection after the call and the answer. -/
def tcpReadReq (handle : List Bytes → Bytes → ℤ) (n : ℕ) (c : Conn) : Conn × Resp :=
  match _h : (readReqTurn handle n c).2 with
  | some resp => ((readReqTurn handle n c).1, resp)
  | none => tcpReadReq handle n (readReqTurn handle n c).1
termination_by c.pending
decreasing_by exact pending_readReqTurn _h

/-- The connection is worth a call: it is alive, and there are bytes or the end
of the stream to read. -/
def Conn.Readable (c : Conn) : Prop :=
  c.resp = .release ∧ (c.socket ≠ [] ∨ c.closed = true)

instance (c : Conn) : Decidable c.Readable :=
  inferInstanceAs (Decidable (_ ∧ _))

/-- The reads of a connection by `tcp_receive_loop`, where each `read` returns
at most the given number of bytes. -/
def run (handle : List Bytes → Bytes → ℤ) : Conn → List ℕ → Conn
  | c, [] => c
  | c, n :: ns =>
    if c.Readable then
      let r := tcpReadReq handle n c
      run handle { r.1 with resp := r.2 } ns
    else c

end Msicp.Tcp
