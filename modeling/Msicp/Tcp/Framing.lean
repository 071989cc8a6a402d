import Msicp.Tcp.Chunking
import Msicp.Tcp.Message

/-!
# The buffer and the messages cut out of it

As long as no Content-Length is too large for an `int`, the pointers into the
buffer stay in order and every message is a header block with its body.
-/

namespace Msicp.Tcp

open Msicp.Support List

/-- `buf <= start <= p <= pos <= buf + TCP_BUF_SIZE` and
`0 <= bytes_to_go`. -/
structure Point.Ok (pt : Point) : Prop where
  start : pt.r.start ≤ pt.p
  parsed : pt.p ≤ pt.pos
  bound : pt.pos ≤ tcpBufSize
  bytesToGo : 0 ≤ pt.r.bytesToGo

/-- The same for the pointers of a request between two scans. -/
structure TcpReq.Ok (req : TcpReq) : Prop where
  start : req.scan.start ≤ req.scan.parsed
  parsed : req.scan.parsed ≤ req.buf.length
  bound : req.buf.length ≤ tcpBufSize
  bytesToGo : 0 ≤ req.scan.bytesToGo

/-- The pointers and the counters of a scan at `p`. -/
structure ScanInv (r : Scan) (p : ℤ) : Prop where
  start : r.start ≤ p
  contentLen : 0 ≤ r.contentLen
  bytesToGo : 0 ≤ r.bytesToGo

variable {r : Scan} {p n : ℕ} {c : Conn} {a : Bytes} {handle : List Bytes → Bytes → ℤ}

theorem foundEmptyLine_inv (h : ScanInv r p) : ScanInv (foundEmptyLine r p) (p + 1 : ℕ) := by
  have hstart := h.start
  rw [foundEmptyLine]
  split_ifs
  · exact ⟨by dsimp only; omega, h.contentLen, h.contentLen⟩
  · exact ⟨by dsimp only; omega, h.contentLen, h.bytesToGo⟩

theorem ScanInv.mono {p q : ℤ} (h : ScanInv r p) (hle : p ≤ q) :
    ScanInv r q :=
  ⟨h.start.trans hle, h.contentLen, h.bytesToGo⟩

/-- One turn of the loop keeps the pointers in order, unless a digit is too
much. -/
theorem headerStep_inv {c : UInt8} (h : ScanInv r p)
    (hfits : r.state = .contLenBodyParse → isDigit c = true →
      r.contentLen * 10 + digitVal c < 2 ^ 31) :
    ScanInv (headerStep r p c) (p + 1 : ℕ) := by
  have hsame : ∀ r' : Scan, (r'.start = r.start ∨ r'.start = p) →
      r'.contentLen = r.contentLen → r'.bytesToGo = r.bytesToGo →
      ScanInv r' (p + 1 : ℕ) := by
    intro r' hstart hlen hgo
    have hs := h.start
    refine ⟨?_, hlen ▸ h.contentLen, hgo ▸ h.bytesToGo⟩
    rcases hstart with hstart | hstart
    · rw [hstart]
      omega
    · rw [hstart]
      omega
  have hempty := foundEmptyLine_inv h
  cases hstate : r.state
  case contLenBody =>
    simp only [headerStep, hstate]
    split_ifs
    · exact hsame _ (Or.inl rfl) rfl rfl
    · exact ⟨by have hs := h.start; dsimp only; omega, Int.natCast_nonneg _, h.bytesToGo⟩
    · exact hsame _ (Or.inl rfl) rfl rfl
  case contLenBodyParse =>
    simp only [headerStep, hstate]
    split_ifs with hdigit
    · have hlt := hfits hstate hdigit
      have hpos := h.contentLen
      have hvalue : toInt (r.contentLen * 10 + digitVal c) = r.contentLen * 10 + digitVal c :=
        Int.bmod_eq_of_le (by omega) (by omega)
      refine ⟨by have hs := h.start; dsimp only; omega, ?_, h.bytesToGo⟩
      dsimp only
      rw [hvalue]
      omega
    all_goals exact hsame _ (Or.inl rfl) rfl rfl
  all_goals
    simp only [headerStep, hstate]
    (try split_ifs)
    all_goals
      first
        | exact hempty
        | exact hsame _ (Or.inl rfl) rfl rfl
        | exact hsame _ (Or.inr rfl) rfl rfl

theorem bodyStep_inv {r : Scan} {p n : ℕ} (h : ScanInv r p) :
    ScanInv (bodyStep r p n) (bodyStep r p n).parsed := by
  have hstart := h.start
  have hgo := h.bytesToGo
  refine ⟨?_, h.contentLen, ?_⟩
  · simp only [bodyStep]
    omega
  · simp only [bodyStep]
    omega

/-- The points of the loop are in order, and so is what it leaves. -/
theorem readHeadersLoop_inv (h : ScanInv r p) (hclean : Clean r p a)
    (hbound : p + a.length ≤ tcpBufSize) :
    (∀ pt ∈ readHeadersPoints r p a, pt.Ok) ∧
      ScanInv (readHeadersLoop r p a) (readHeadersLoop r p a).parsed := by
  induction a generalizing r p with
  | nil =>
    refine ⟨?_, ⟨h.start, h.contentLen, h.bytesToGo⟩⟩
    intro pt hpt
    obtain rfl := mem_singleton.mp hpt
    exact ⟨h.start, le_rfl, hbound, h.bytesToGo⟩
  | cons c a ih =>
    have hlen : p + (a.length + 1) ≤ tcpBufSize := hbound
    have hhead : Point.Ok ⟨r, p, p + (a.length + 1), some c⟩ :=
      ⟨h.start, by dsimp only; omega, hlen, h.bytesToGo⟩
    have hfits : r.state = .contLenBodyParse → isDigit c = true →
        r.contentLen * 10 + digitVal c < 2 ^ 31 := by
      intro hstate hdigit
      by_contra hle
      refine hclean ⟨r, p, p + (a.length + 1), some c⟩ ?_
        ⟨hstate, c, rfl, hdigit, Int.not_lt.mp hle⟩
      rw [readHeadersPoints]
      exact mem_cons_self
    have hnext := headerStep_inv h hfits
    rw [Clean, readHeadersPoints] at hclean
    rw [readHeadersPoints, readHeadersLoop]
    dsimp only at hclean ⊢
    by_cases herror : r.error ≠ .ok
    · rw [if_pos herror, if_pos herror]
      refine ⟨?_, ⟨h.start, h.contentLen, h.bytesToGo⟩⟩
      intro pt hpt
      obtain rfl := mem_singleton.mp hpt
      exact hhead
    · rw [if_neg herror] at hclean
      rw [if_neg herror, if_neg herror]
      by_cases hbody : r.state = .body
      · rw [if_pos hbody, if_pos hbody]
        have hinv := @bodyStep_inv r p (a.length + 1) h
        refine ⟨?_, hinv⟩
        intro pt hpt
        rcases mem_cons.mp hpt with rfl | hpt
        · exact hhead
        · obtain rfl := mem_singleton.mp hpt
          refine ⟨hinv.start, ?_, hlen, hinv.bytesToGo⟩
          simp only [bodyStep]
          omega
      · rw [if_neg hbody] at hclean
        rw [if_neg hbody, if_neg hbody]
        by_cases hcomplete : (headerStep r p c).complete = true
        · rw [if_pos hcomplete, if_pos hcomplete]
          refine ⟨?_, ⟨?_, hnext.contentLen, hnext.bytesToGo⟩⟩
          · intro pt hpt
            rcases mem_cons.mp hpt with rfl | hpt
            · exact hhead
            · obtain rfl := mem_singleton.mp hpt
              exact ⟨hnext.start, by dsimp only; omega, hlen, hnext.bytesToGo⟩
          · have hs := hnext.start
            dsimp only
            omega
        · rw [if_neg hcomplete] at hclean
          rw [if_neg hcomplete, if_neg hcomplete]
          obtain ⟨hpoints, hinv⟩ := ih hnext (fun pt hpt => hclean pt (mem_cons_of_mem _ hpt))
            (by omega)
          refine ⟨?_, hinv⟩
          intro pt hpt
          rcases mem_cons.mp hpt with rfl | hpt
          · exact hhead
          · exact hpoints pt hpt

/-! ## The bytes since the last request -/

theorem clean_nil : Clean r p [] := by
  intro pt hpt
  obtain rfl := mem_singleton.mp hpt
  rintro ⟨-, c, hc, -⟩
  cases hc

theorem clean_cons_iff {c : UInt8} : Clean r p (c :: a) ↔
      ¬ (r.state = .contLenBodyParse ∧ isDigit c = true ∧ 2 ^ 31 ≤ r.contentLen * 10 + digitVal c) ∧
      (r.error = .ok → r.state ≠ .body → (headerStep r p c).complete = false →
        Clean (headerStep r p c) (p + 1) a) := by
  have hlast : ∀ (r' : Scan) (q : ℤ) (pos : ℕ), ¬ Point.Overflows ⟨r', q, pos, none⟩ := by
    rintro r' q pos ⟨-, c, hc, -⟩
    cases hc
  constructor
  · intro h
    constructor
    · rintro ⟨hstate, hdigit, hle⟩
      refine h ⟨r, p, p + (a.length + 1), some c⟩ ?_ ⟨hstate, c, rfl, hdigit, hle⟩
      rw [readHeadersPoints]
      exact mem_cons_self
    · intro herror hbody hcomplete pt hpt
      refine h pt ?_
      rw [readHeadersPoints]
      simp only [herror, hbody, hcomplete, ne_eq, not_true_eq_false, if_false, Bool.false_eq_true]
      exact mem_cons_of_mem _ hpt
  · rintro ⟨hhead, htail⟩ pt hpt
    rw [readHeadersPoints] at hpt
    rcases mem_cons.mp hpt with rfl | hpt
    · rintro ⟨hstate, c', hc', hdigit, hle⟩
      obtain rfl := Option.some.inj hc'
      exact hhead ⟨hstate, hdigit, hle⟩
    · dsimp only at hpt
      split_ifs at hpt with herror hbody hcomplete
      · cases hpt
      · obtain rfl := mem_singleton.mp hpt
        exact hlast _ _ _
      · obtain rfl := mem_singleton.mp hpt
        exact hlast _ _ _
      · exact htail (not_not.mp herror) hbody (by simpa using hcomplete) pt hpt

theorem Clean.setParsed {q : ℤ} (h : Clean { r with parsed := q } p a) : Clean r p a := by
  induction a generalizing r p with
  | nil => exact clean_nil
  | cons c a ih =>
    obtain ⟨hhead, htail⟩ := clean_cons_iff.1 h
    rw [headerStep_setParsed] at htail
    exact clean_cons_iff.2 ⟨hhead, fun herror hbody hcomplete =>
      ih (htail herror hbody hcomplete)⟩

/-- Bytes read at different times are clean together. -/
theorem Clean.append {d : Bytes} (h : Clean r p a)
    (hopen : r.Open) (hafter : (readHeadersLoop r p a).Open)
    (hd : Clean (readHeadersLoop r p a) (p + a.length) d) :
    Clean r p (a ++ d) := by
  induction a generalizing r p with
  | nil => exact hd.setParsed
  | cons c a ih =>
    obtain ⟨hhead, htail⟩ := clean_cons_iff.1 h
    refine clean_cons_iff.2 ⟨hhead, ?_⟩
    intro herror hbody hcomplete
    have hloop : readHeadersLoop r p (c :: a) = readHeadersLoop (headerStep r p c) (p + 1) a := by
      rw [readHeadersLoop_cons hopen, if_neg hbody, if_neg (by simp [hcomplete])]
    rw [hloop] at hafter hd
    have hstep : (headerStep r p c).Open := by
      refine ⟨?_, hcomplete⟩
      by_contra hbad
      rw [readHeadersLoop_error hbad] at hafter
      exact hbad hafter.error
    refine ih (htail herror hbody hcomplete) hstep hafter ?_
    have hlen : p + 1 + a.length = p + (c :: a).length := by
      rw [length_cons]
      omega
    rw [hlen]
    exact hd

/-! ## Every call and every run -/

/-- No digit that was scanned is too much. -/
def Conn.NoOverflow (c : Conn) : Prop := ∀ pt ∈ c.visited, ¬ pt.Overflows

/-- At every point the pointers are in order, and what was delivered are
messages. -/
structure Conn.Safe (c : Conn) : Prop where
  points : ∀ pt ∈ c.visited, pt.Ok
  messages : ∀ m ∈ c.delivered, IsMessage m
  req : c.req.Ok

/-- A safe connection at rest. -/
structure Conn.Framed (c : Conn) : Prop where
  safe : c.Safe
  inv : ScanInv c.req.scan c.req.buf.length
  clean : Clean Scan.init 0 c.req.buf

theorem init_inv : ScanInv Scan.init 0 := ⟨le_rfl, le_rfl, le_rfl⟩

theorem msg_isMessage {req : TcpReq} (hscan : req.scan = scanOf req.buf)
    (hclean : Clean Scan.init 0 req.buf) (hdone : req.scan.Done) :
    IsMessage req.msg := by
  rw [hscan] at hdone
  obtain ⟨blanks, m, rest, hbuf, hm, hstart, hparsed⟩ :=
    message_done Scan.init_open rfl rfl hclean hdone
  change (scanOf req.buf).start = _ at hstart
  change (scanOf req.buf).parsed = _ at hparsed
  have hmsg : req.msg = m := by
    rw [TcpReq.msg, hscan, hstart, hparsed, Int.toNat_natCast, hbuf,
      Nat.zero_add, ← List.length_append, take_left, drop_left]
  rw [hmsg]
  exact hm

theorem scanUnparsed_safe (hsafe : c.Safe) (hinv : ScanInv c.req.scan c.req.scan.parsed.toNat)
    (hclean : (scanUnparsed c).NoOverflow) :
    (scanUnparsed c).Safe ∧ ScanInv (scanUnparsed c).req.scan (scanUnparsed c).req.scan.parsed ∧
      Clean c.req.scan c.req.scan.parsed.toNat (c.req.buf.drop c.req.scan.parsed.toNat) := by
  have hp : c.req.scan.parsed.toNat ≤ c.req.buf.length :=
    Int.toNat_le.mpr hsafe.req.parsed
  have hnew : Clean c.req.scan c.req.scan.parsed.toNat (c.req.buf.drop c.req.scan.parsed.toNat) :=
    fun pt hpt => hclean pt (mem_append_right _ hpt)
  have hbound : c.req.scan.parsed.toNat +
      (c.req.buf.drop c.req.scan.parsed.toNat).length ≤ tcpBufSize := by
    have h := hsafe.req.bound
    rw [length_drop]
    omega
  obtain ⟨hpoints, hafter⟩ := readHeadersLoop_inv hinv hnew hbound
  refine ⟨⟨?_, hsafe.messages, ?_⟩, hafter, hnew⟩
  · intro pt hpt
    rcases mem_append.mp hpt with hpt | hpt
    · exact hsafe.points pt hpt
    · exact hpoints pt hpt
  · refine ⟨hafter.start, ?_, hsafe.req.bound, hafter.bytesToGo⟩
    have hle := @readHeadersLoop_parsed_le c.req.scan c.req.scan.parsed.toNat
      (c.req.buf.drop c.req.scan.parsed.toNat)
    have hlen : c.req.scan.parsed.toNat + (c.req.buf.drop c.req.scan.parsed.toNat).length =
          c.req.buf.length := by
      rw [length_drop]
      omega
    rw [hlen] at hle
    exact hle

theorem checkComplete_visited (handle : List Bytes → Bytes → ℤ) (c : Conn) :
    (checkComplete handle c).1.visited = c.visited := by
  rw [checkComplete]
  split_ifs <;> rfl

/-- Delivering the request in the buffer is safe. -/
theorem checkComplete_safe {handle : List Bytes → Bytes → ℤ} {c : Conn}
    (hsafe : c.Safe) (hinv : ScanInv c.req.scan c.req.scan.parsed)
    (hscan : c.req.scan = scanOf c.req.buf)
    (hclean : Clean Scan.init 0 c.req.buf) :
    (checkComplete handle c).1.Safe ∧ ((checkComplete handle c).2 = some .release →
        (checkComplete handle c).1.Framed) := by
  have hrest : c.Framed := ⟨hsafe, hinv.mono hsafe.req.parsed, hclean⟩
  rw [checkComplete]
  by_cases hok : c.req.scan.error = .ok
  · rw [if_neg (not_not.mpr hok)]
    by_cases hcomplete : c.req.scan.complete = true
    · rw [if_pos hcomplete]
      have hmsg := msg_isMessage hscan hclean ⟨hok, hcomplete⟩
      have hmessages : ∀ m ∈ c.delivered ++ [c.req.msg], IsMessage m := by
        intro m hm
        rcases mem_append.mp hm with hm | hm
        · exact hsafe.messages m hm
        · rw [mem_singleton.mp hm]
          exact hmsg
      have hnext : c.req.next.Ok := by
        refine ⟨le_rfl, Int.natCast_nonneg _, ?_, le_rfl⟩
        have h := hsafe.req.bound
        simp only [TcpReq.next, length_drop]
        omega
      by_cases hlen : c.req.scan.hasContentLen = false
      · rw [if_pos hlen]
        refine ⟨⟨hsafe.points, hsafe.messages, ?_⟩, fun h => by cases h⟩
        exact ⟨hsafe.req.start, hsafe.req.parsed, hsafe.req.bound, hsafe.req.bytesToGo⟩
      · rw [if_neg hlen]
        by_cases hstart : c.req.scan.parsed < c.req.scan.start
        · rw [if_pos hstart]
          exact ⟨hsafe, fun h => by cases h⟩
        · rw [if_neg hstart]
          by_cases hreceive : receiveMsg handle c.delivered c.req.msg < 0
          · rw [if_pos hreceive]
            exact ⟨⟨hsafe.points, hmessages, hsafe.req⟩, fun h => by cases h⟩
          · rw [if_neg hreceive]
            refine ⟨⟨hsafe.points, hmessages, hnext⟩, ?_⟩
            intro hrelease
            have hempty : c.req.next.buf = [] := by
              by_contra hleft
              dsimp only at hrelease
              rw [if_pos hleft] at hrelease
              cases hrelease
            refine ⟨⟨hsafe.points, hmessages, hnext⟩, ?_, ?_⟩
            · exact init_inv.mono (Int.natCast_nonneg _)
            · dsimp only
              rw [hempty]
              exact clean_nil
    · rw [if_neg hcomplete]
      exact ⟨hsafe, fun _ => hrest⟩
  · rw [if_pos hok]
    exact ⟨hsafe, fun h => by cases h⟩

theorem tcpReadHeaders_visited (n : ℕ) (c : Conn) : c.visited ⊆ (tcpReadHeaders n c).1.visited := by
  have hread : (tcpRead n c).1.visited = c.visited := by
    simp only [tcpRead]
    split_ifs <;> rfl
  rw [tcpReadHeaders]
  split_ifs
  · exact subset_append_left _ _
  · dsimp only
    split_ifs
    · exact hread ▸ List.Subset.refl _
    · exact fun pt hpt => mem_append_left _ (hread.symm ▸ hpt)

theorem readReqTurn_visited (handle : List Bytes → Bytes → ℤ) (n : ℕ)
    (c : Conn) : c.visited ⊆ (readReqTurn handle n c).1.visited := by
  have hheaders := tcpReadHeaders_visited n c
  rw [readReqTurn]
  split_ifs
  · dsimp only
    split_ifs
    · exact hheaders
    · exact hheaders
    · rw [checkComplete_visited]
      exact hheaders
  · rw [checkComplete_visited]
    exact List.Subset.refl _

/-- The points of earlier turns are among those of the call. -/
theorem tcpReadReq_visited (handle : List Bytes → Bytes → ℤ) (n : ℕ) (c : Conn) :
    (readReqTurn handle n c).1.visited ⊆ (tcpReadReq handle n c).1.visited := by
  induction hk : c.pending using Nat.strong_induction_on generalizing c with
  | _ k ih =>
    subst hk
    cases hresp : (readReqTurn handle n c).2 with
    | some resp =>
      have hturn : readReqTurn handle n c = ((readReqTurn handle n c).1, some resp) := by
        rw [← hresp]
      rw [tcpReadReq_some hturn]
      exact List.Subset.refl _
    | none =>
      have hturn : readReqTurn handle n c = ((readReqTurn handle n c).1, none) := by
        rw [← hresp]
      have hless := pending_readReqTurn hresp
      rw [tcpReadReq_none hturn]
      exact List.Subset.trans (readReqTurn_visited handle n _) (ih _ hless _ rfl)

/-- A call whose first turn has scanned the buffer is safe if the turns on what
is left are. -/
theorem tcpReadReq_safe_of_scanned
    {c₁ : Conn} (hturn : readReqTurn handle n c = checkComplete handle c₁)
    (hsafe : c₁.Safe) (hinv : ScanInv c₁.req.scan c₁.req.scan.parsed)
    (hscan : c₁.req.scan = scanOf c₁.req.buf) (heof : c₁.connEof = false)
    (hclean : Clean Scan.init 0 c₁.req.buf)
    (hnext : c₁.taken.Unscanned → c₁.taken.Safe → c₁.taken.pending < c₁.pending →
      tcpReadReq handle n c = tcpReadReq handle n c₁.taken →
      (tcpReadReq handle n c₁.taken).1.Safe ∧ ((tcpReadReq handle n c₁.taken).2 = .release →
          (tcpReadReq handle n c₁.taken).1.Framed)) :
    (tcpReadReq handle n c).1.Safe ∧ ((tcpReadReq handle n c).2 = .release →
        (tcpReadReq handle n c).1.Framed) := by
  obtain ⟨hsafe', hframed⟩ :=
    @checkComplete_safe handle c₁ hsafe hinv hscan hclean
  cases hresp : (checkComplete handle c₁).2 with
  | some resp =>
    have heq : readReqTurn handle n c = ((checkComplete handle c₁).1, some resp) := by
      rw [hturn, ← hresp]
    rw [tcpReadReq_some heq]
    refine ⟨hsafe', fun h => hframed ?_⟩
    rw [hresp]
    exact congrArg some h
  | none =>
    obtain ⟨-, hnone⟩ :=
      @checkComplete_keeps handle c₁ hscan hsafe.req.bound heof
    obtain ⟨htaken, hunscanned, -⟩ := hnone hresp
    have heq : readReqTurn handle n c = (c₁.taken, none) := by
      rw [hturn, ← hresp, ← htaken]
    have hless := pending_checkComplete hresp
    rw [htaken] at hless hsafe'
    have hsame := tcpReadReq_none heq
    rw [hsame]
    exact hnext hunscanned hsafe' hless hsame

/-- A call that starts with unscanned bytes is safe. -/
theorem tcpReadReq_safe_unscanned (hc : c.Unscanned) (hsafe : c.Safe)
    (hfits : (tcpReadReq handle n c).1.NoOverflow) :
    (tcpReadReq handle n c).1.Safe ∧ ((tcpReadReq handle n c).2 = .release →
        (tcpReadReq handle n c).1.Framed) := by
  induction hk : c.pending using Nat.strong_induction_on generalizing c with
  | _ k ih =>
    subst hk
    obtain ⟨hturn, hscan⟩ := @readReqTurn_unscanned handle n c hc
    have hvisited := tcpReadReq_visited handle n c
    rw [hturn, checkComplete_visited] at hvisited
    have hinv : ScanInv c.req.scan c.req.scan.parsed.toNat := by
      rw [hc.scan]
      exact init_inv
    obtain ⟨hsafe₁, hinv₁, hnew⟩ := scanUnparsed_safe hsafe hinv
      fun pt hpt => hfits pt (hvisited hpt)
    have hclean : Clean Scan.init 0 c.req.buf := by
      rw [hc.scan] at hnew
      exact hnew
    refine tcpReadReq_safe_of_scanned hturn hsafe₁ hinv₁ hscan hc.connEof hclean ?_
    intro hunscanned hsafe' hless hsame
    refine ih _ hless hunscanned hsafe' ?_ rfl
    rw [← hsame]
    exact hfits

/-- A call on a connection at rest is safe, and leaves it so. -/
theorem tcpReadReq_safe (hc : c.Resting) (hframed : c.Framed)
    (hread : c.socket ≠ [] ∨ c.closed = true)
    (hfits : (tcpReadReq handle n c).1.NoOverflow) :
    (tcpReadReq handle n c).1.Safe ∧ ((tcpReadReq handle n c).2 = .release →
        (tcpReadReq handle n c).1.Framed) := by
  rcases @readReqTurn_resting handle n c hc hread with
    ⟨c', resp, hturn, hresp, -, hsame⟩ | ⟨hlt, hsocket, hturn, hscan⟩
  · rw [tcpReadReq_some hturn]
    refine ⟨⟨?_, ?_, ?_⟩, fun h => absurd h hresp⟩
    · rw [hsame.visited]
      exact hframed.safe.points
    · rw [hsame.delivered]
      exact hframed.safe.messages
    · have hreq := hframed.safe.req
      refine ⟨?_, ?_, ?_, ?_⟩
      · rw [hsame.start, hsame.parsed]
        exact hreq.start
      · rw [hsame.parsed, hsame.buf]
        exact hreq.parsed
      · rw [hsame.buf]
        exact hreq.bound
      · rw [hsame.bytesToGo]
        exact hreq.bytesToGo
  · have hvisited := tcpReadReq_visited handle n c
    rw [hturn, checkComplete_visited] at hvisited
    have hparsed : (c.fed n).req.scan.parsed = c.req.buf.length := hc.parsed
    have hsafe : (c.fed n).Safe := by
      have hreq := hframed.safe.req
      refine ⟨hframed.safe.points, hframed.safe.messages, hreq.start, ?_, ?_, hreq.bytesToGo⟩
      · rw [hparsed]
        simp only [Conn.fed, List.length_append]
        omega
      · simp only [Conn.fed, List.length_append, length_take]
        omega
    have hinv : ScanInv (c.fed n).req.scan (c.fed n).req.scan.parsed.toNat := by
      rw [hparsed]
      exact hframed.inv
    obtain ⟨hsafe₁, hinv₁, hnew⟩ := scanUnparsed_safe hsafe hinv
      fun pt hpt => hfits pt (hvisited hpt)
    have hclean : Clean Scan.init 0 (c.fed n).req.buf := by
      rw [hparsed, Int.toNat_natCast] at hnew
      have hopen := hc.scanOpen
      have hold : (c.fed n).req.scan = scanOf c.req.buf := hc.scan
      rw [hc.scan] at hopen
      refine hframed.clean.append Scan.init_open hopen ?_
      rw [hold] at hnew
      simp only [Conn.fed, drop_left] at hnew
      rw [Nat.zero_add]
      exact hnew
    refine tcpReadReq_safe_of_scanned hturn hsafe₁ hinv₁ hscan hc.connEof hclean ?_
    intro hunscanned hsafe' _ hsame
    refine tcpReadReq_safe_unscanned hunscanned hsafe' ?_
    rw [← hsame]
    exact hfits

theorem run_visited (handle : List Bytes → Bytes → ℤ) (c : Conn)
    (ns : List ℕ) : c.visited ⊆ (run handle c ns).visited := by
  induction ns generalizing c with
  | nil => exact List.Subset.refl _
  | cons n ns ih =>
    rw [run]
    split_ifs
    · have hcall := List.Subset.trans (readReqTurn_visited handle n c)
        (tcpReadReq_visited handle n c)
      have hlater := ih { (tcpReadReq handle n c).1 with
        resp := (tcpReadReq handle n c).2 }
      exact List.Subset.trans hcall hlater
    · exact List.Subset.refl _

theorem run_safe {ns : List ℕ}
    {result : List Bytes × Resp} (hheads : c.Heads handle result)
    (hsafe : c.Safe) (hframed : c.resp = .release → c.Framed)
    (hfits : (run handle c ns).NoOverflow) : (run handle c ns).Safe := by
  induction ns generalizing c with
  | nil => exact hsafe
  | cons n ns ih =>
    have hhead := @run_heads _ _ [n] _ hheads
    rw [run] at hfits hhead ⊢
    by_cases hread : c.Readable
    · rw [if_pos hread] at hfits hhead ⊢
      obtain ⟨hrest, -⟩ := hheads.alive hread.1
      have hcall : (tcpReadReq handle n c).1.NoOverflow :=
        fun pt hpt => hfits pt (run_visited handle _ ns hpt)
      obtain ⟨hsafe', hframed'⟩ :=
        tcpReadReq_safe hrest (hframed hread.1) hread.2 hcall
      refine ih hhead ?_ ?_ hfits
      · exact ⟨hsafe'.points, hsafe'.messages, hsafe'.req⟩
      · intro halive
        obtain ⟨_, hinv, hclean⟩ := hframed' halive
        exact ⟨⟨hsafe'.points, hsafe'.messages, hsafe'.req⟩, hinv, hclean⟩
    · rw [if_neg hread]
      exact hsafe

/-- In every run in which no Content-Length is too large for an `int`, the
pointers are in order at every point, and everything delivered is a header
block with as many bytes behind it as its Content-Length says. -/
theorem framing_of_noOverflow (handle : List Bytes → Bytes → ℤ)
    (stream : Bytes) (closed : Bool) (ns : List ℕ)
    (hfits : (run handle (Conn.init stream closed) ns).NoOverflow) :
    (∀ pt ∈ (run handle (Conn.init stream closed) ns).visited, pt.Ok) ∧
      (run handle (Conn.init stream closed) ns).req.Ok ∧
      ∀ m ∈ (run handle (Conn.init stream closed) ns).delivered,
        IsMessage m := by
  have hreq : (Conn.init stream closed).req.Ok :=
    ⟨le_rfl, le_rfl, Nat.zero_le _, le_rfl⟩
  have hinit : (Conn.init stream closed).Safe :=
    ⟨fun pt hpt => (by cases hpt), fun m hm => (by cases hm), hreq⟩
  have hsafe := run_safe (init_heads handle stream closed) hinit
    (fun _ => ⟨hinit, init_inv, clean_nil⟩) hfits
  exact ⟨hsafe.points, hsafe.req, hsafe.messages⟩

theorem run_one {handle : List Bytes → Bytes → ℤ} {n : ℕ} {c : Conn}
    {resp : Resp} (hread : c.Readable)
    (hresp : (readReqTurn handle n c).2 = some resp) :
    run handle c [n] = { (readReqTurn handle n c).1 with resp := resp } := by
  have hturn : readReqTurn handle n c = ((readReqTurn handle n c).1, some resp) := by
    rw [← hresp]
  rw [run, if_pos hread, tcpReadReq_some hturn]
  rfl

instance (pt : Point) : Decidable pt.Overflows :=
  decidable_of_iff (pt.r.state = .contLenBodyParse ∧ ∃ c ∈ pt.next,
    isDigit c = true ∧ 2 ^ 31 ≤ pt.r.contentLen * 10 + digitVal c) Iff.rfl

/-- A request with a body of two bytes. -/
def oneRequest : Bytes := ascii "OPTIONS sip:a\nl: 2\n\nhi"

theorem framing_of_noOverflow_request :
    (run (fun _ _ => 0) (Conn.init oneRequest false) [99]).NoOverflow ∧
      ∀ m ∈ (run (fun _ _ => 0) (Conn.init oneRequest false) [99]).delivered,
        IsMessage m := by
  have hrun := @run_one (fun _ _ => 0) 99 (Conn.init oneRequest false) .release
    (by decide) (by decide)
  have hfits : (run (fun _ _ => 0) (Conn.init oneRequest false) [99]).NoOverflow := by
    rw [hrun]
    unfold Conn.NoOverflow
    decide
  obtain ⟨-, -, hmessages⟩ := framing_of_noOverflow (fun _ _ => 0) oneRequest false [99] hfits
  exact ⟨hfits, hmessages⟩

/-- A Content-Length that is one too large. -/
def tooLong : Bytes := ascii "x\nl:2147483648\n\n"

/-- The length wraps to a negative number of bytes to go. -/
theorem tooLong_negative : ∃ pt ∈ (run (fun _ _ => 0) (Conn.init tooLong false) [99]).visited,
      pt.r.bytesToGo = -2147483648 ∧ ¬ pt.Ok := by
  have hrun := @run_one (fun _ _ => 0) 99 (Conn.init tooLong false) .release (by decide) (by decide)
  rw [hrun]
  have hpoint : ∃ pt ∈ (readReqTurn (fun _ _ => 0) 99 (Conn.init tooLong false)).1.visited,
      pt.r.bytesToGo = -2147483648 := by decide
  obtain ⟨pt, hpt, hgo⟩ := hpoint
  refine ⟨pt, hpt, hgo, ?_⟩
  intro hok
  have hnonneg := hok.bytesToGo
  omega

end Msicp.Tcp
