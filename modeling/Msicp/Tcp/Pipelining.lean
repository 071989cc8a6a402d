import Msicp.Tcp.Chunking

/-!
# The messages of a stream

What a connection delivers are pieces of its stream, in their order and without
overlap.  Requests that follow each other at once are all delivered, whatever
comes behind them and however the stream is read.
-/

namespace Msicp.Tcp

open Msicp.Support List

variable {handle : List Bytes → Bytes → ℤ} {closed : Bool} {before ms ms' : List Bytes}
  {m stream rest : Bytes}

/-- The messages stand in the stream one behind the other. -/
def InOrder : List Bytes → Bytes → Prop
  | [], _ => True
  | m :: ms, stream => ∃ gap rest, stream = gap ++ m ++ rest ∧ InOrder ms rest

theorem InOrder.of_drop {n : ℕ} (h : InOrder ms (stream.drop n)) : InOrder ms stream := by
  cases ms with
  | nil => trivial
  | cons m ms =>
    obtain ⟨gap, rest, hcut, hrest⟩ := h
    refine ⟨stream.take n ++ gap, rest, ?_, hrest⟩
    rw [append_assoc, append_assoc, ← append_assoc gap, ← hcut, take_append_drop]

theorem InOrder.of_append (h : InOrder (ms ++ ms') stream) : InOrder ms stream := by
  induction ms generalizing stream with
  | nil => trivial
  | cons m ms ih =>
    obtain ⟨gap, rest, hcut, hrest⟩ := h
    exact ⟨gap, rest, hcut, ih hrest⟩

/-- The first request and what is in order behind it. -/
theorem InOrder.firstReq
    (h : InOrder ms (stream.drop (firstReq stream).scan.parsed.toNat)) :
    InOrder ((Tcp.firstReq stream).msg :: ms) stream := by
  set n := (Tcp.firstReq stream).scan.parsed.toNat with hn
  set k := min n tcpBufSize with hk
  refine ⟨(stream.take k).take (Tcp.firstReq stream).scan.start, stream.drop k, ?_, ?_⟩
  · have hmsg : (Tcp.firstReq stream).msg =
        (stream.take k).drop (Tcp.firstReq stream).scan.start := by
      rw [hk, ← take_take]
      rfl
    rw [hmsg, take_append_drop, take_append_drop]
  · have hdrop : stream.drop n = (stream.drop k).drop (n - k) := by
      rw [drop_drop, Nat.add_sub_cancel' (Nat.min_le_left n tcpBufSize)]
    exact (hdrop ▸ h).of_drop

theorem outcome_inOrder (handle : List Bytes → Bytes → ℤ) (closed : Bool) (before : List Bytes)
    (stream : Bytes) :
    ∃ ms, (outcome handle closed before stream).1 = before ++ ms ∧ InOrder ms stream := by
  have hnone : ∃ ms, before = before ++ ms ∧ InOrder ms stream := ⟨[], by simp, trivial⟩
  fun_induction outcome handle closed before stream with
  | case4 before stream => exact ⟨[(firstReq stream).msg], rfl, InOrder.firstReq trivial⟩
  | case5 before stream _ _ _ _ _ ih =>
    obtain ⟨ms, hout, hms⟩ := ih ⟨[], by simp, trivial⟩
    exact ⟨(firstReq stream).msg :: ms, by rw [hout]; simp, hms.firstReq⟩
  | case1 => exact hnone
  | case2 => exact hnone
  | case3 => exact hnone
  | case6 => exact hnone
  | case7 => exact hnone
  | case8 => exact hnone

/-- At every point of every run the messages delivered so far are pieces of the
stream, in their order: no byte is delivered twice. -/
theorem delivered_inOrder (handle : List Bytes → Bytes → ℤ) (stream : Bytes) (closed : Bool)
    (ns : List ℕ) : InOrder (run handle (Conn.init stream closed) ns).delivered stream := by
  obtain ⟨ms, hout, hms⟩ := outcome_inOrder handle closed [] stream
  have hheads := @run_heads _ _ ns _ (init_heads handle stream closed)
  set c := run handle (Conn.init stream closed) ns
  by_cases hresp : c.resp = .release
  · obtain ⟨-, hrest⟩ := hheads.alive hresp
    obtain ⟨ms', hout', -⟩ := outcome_inOrder handle c.closed c.delivered (c.req.buf ++ c.socket)
    have hfront : c.delivered ++ ms' = ms := hout'.symm.trans ((congrArg Prod.fst hrest).trans hout)
    exact (hfront ▸ hms).of_append
  · have hall : c.delivered = ms := (congrArg Prod.fst (hheads.dead hresp)).trans hout
    exact hall ▸ hms

/-! ## Requests behind each other -/

/-- The scan takes the text for one request that begins with its first byte and
ends with its last. -/
structure Whole (m : Bytes) : Prop where
  bound : m.length ≤ tcpBufSize
  error : (scanOf m).error = .ok
  complete : (scanOf m).complete = true
  length : (scanOf m).hasContentLen = true
  start : (scanOf m).start = 0
  parsed : (scanOf m).parsed = m.length

/-- `receive_msg` takes the messages one after the other. -/
def Accepts (handle : List Bytes → Bytes → ℤ) : List Bytes → List Bytes → Prop
  | _, [] => True
  | before, m :: ms => 0 ≤ receiveMsg handle before m ∧ Accepts handle (before ++ [m]) ms

theorem outcome_whole (h : Whole m) (hreceive : 0 ≤ receiveMsg handle before m) :
    outcome handle closed before (m ++ rest) = outcome handle closed (before ++ [m]) rest := by
  have hstop : ¬ (scanOf m).Open := by
    intro hopen
    exact absurd (h.complete.symm.trans hopen.complete) (by decide)
  obtain ⟨hscan, hmsg⟩ := @firstReq_of_stop _ rest h.bound hstop
  have hparsed : (scanOf m).parsed.toNat = m.length := by
    rw [h.parsed, Int.toNat_natCast]
  have hm : (firstReq (m ++ rest)).msg = m := by
    rw [hmsg, TcpReq.msg]
    change (m.take (scanOf m).parsed.toNat).drop (scanOf m).start = m
    rw [hparsed, h.start, take_length, drop_zero]
  have horder : ¬ (scanOf m).parsed < (scanOf m).start := by
    rw [h.parsed, h.start]
    omega
  rw [outcome, hscan, hm, if_neg (not_not.mpr h.error), if_pos h.complete,
    if_neg (by simp [h.length]), if_neg horder, if_neg (not_lt.mpr hreceive), hparsed, drop_left]

theorem outcome_flatten (hwhole : ∀ m ∈ ms, Whole m) (h : Accepts handle before ms) :
    outcome handle closed before (ms.flatten ++ rest) =
      outcome handle closed (before ++ ms) rest := by
  induction ms generalizing before with
  | nil => simp
  | cons m ms ih =>
    obtain ⟨hreceive, hms⟩ := h
    rw [flatten_cons, append_assoc, outcome_whole (hwhole m mem_cons_self) hreceive,
      ih (fun x hx => hwhole x (mem_cons_of_mem m hx)) hms, append_assoc]
    rfl

/-- Requests that `receive_msg` takes are all delivered, as they are and in
their order, before anything that comes behind them. -/
theorem pipelined_delivered (handle : List Bytes → Bytes → ℤ) (closed : Bool) (ms : List Bytes)
    (rest : Bytes) (hwhole : ∀ m ∈ ms, Whole m) (haccept : Accepts handle [] ms) (ns : List ℕ)
    (hread : ¬ (run handle (Conn.init (ms.flatten ++ rest) closed) ns).Readable) :
    ∃ ms', (run handle (Conn.init (ms.flatten ++ rest) closed) ns).delivered = ms ++ ms' ∧
      InOrder ms' rest ∧ (rest = [] → ms' = []) := by
  have hend := (run_heads (init_heads handle (ms.flatten ++ rest) closed)).finished hread
  rw [outcome_flatten hwhole haccept, nil_append] at hend
  obtain ⟨ms', hout, hms'⟩ := outcome_inOrder handle closed ms rest
  refine ⟨ms', (congrArg Prod.fst hend).trans hout, hms', ?_⟩
  rintro rfl
  rw [outcome] at hout
  have hempty : (firstReq []).scan = Scan.init := rfl
  rw [hempty] at hout
  cases closed with
  | false => simpa [Scan.init] using hout
  | true => simpa [Scan.init] using hout

def sampleRequest : Bytes := ascii "OPTIONS sip:a SIP/2.0\nl: 2\n\nhi"

/-- Two requests in one stream that is read byte by byte. -/
theorem pipelined_delivered_two : ∃ ms',
    (run (fun _ _ => 0) (Conn.init ([sampleRequest, sampleRequest].flatten ++ ascii "ACK") true)
      (replicate 70 0)).delivered = [sampleRequest, sampleRequest] ++ ms' := by
  have hwhole : Whole sampleRequest := ⟨by decide, by decide, by decide, by decide, by decide,
    by decide⟩
  have hread := @run_finishes _ _ (replicate 70 0) _ (init_heads (fun _ _ => 0)
    ([sampleRequest, sampleRequest].flatten ++ ascii "ACK") true) (by decide)
  obtain ⟨ms', hdelivered, -⟩ := pipelined_delivered (fun _ _ => 0) true
    [sampleRequest, sampleRequest] (ascii "ACK") (by simp [hwhole])
    ⟨by decide, by decide, trivial⟩ _ hread
  exact ⟨ms', hdelivered⟩

end Msicp.Tcp
