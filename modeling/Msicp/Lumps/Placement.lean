import Msicp.Lumps.Message

/-!
# Counting and writing a list of lumps (`msg_translator.c`)

`lumps_len` goes through a list before the new buffer is allocated, and
`process_lumps` goes through it again to fill the buffer.  Both evaluate the
conditions they meet; the `k`-th condition that a traversal checks is given
`rand k`, the value that a call of `rand()` there would return.
-/

namespace Msicp.Lumps

open Msicp.Support

/-! ## `lumps_len` -/

/-- The loop over the `before` or the `after` chain of a lump: the conditions
checked so far and the bytes counted. -/
def chainLen (msg : SipMsg) (sendSock : Option SocketInfo) (rand : ℕ → ℕ) : ℕ → List LumpAdd → ℕ × ℕ
  | k, [] => (k, 0)
  | k, .value value :: r =>
    let (k, n) := chainLen msg sendSock rand k r
    (k, value.length + n)
  | k, .subst subst :: r =>
    let (k, n) := chainLen msg sendSock rand k r
    (k, substLumpLen msg sendSock subst + n)
  | k, .opt cond :: r =>
    if lumpCheckOpt cond msg sendSock (rand k) then
      chainLen msg sendSock rand (k + 1) r
    else (k + 1, 0)

/-- The `switch` of `lumps_len` on the lump itself: the lump with overlapping
deleted zones fixed, the new `s_offset`, and what is added to `new_len`. -/
def lumpLenMain (msg : SipMsg) (sendSock : Option SocketInfo) (sOffset : ℕ) :
    LumpOp → LumpOp × ℕ × ℤ
  | .add (.value value) => (.add (.value value), sOffset, value.length)
  | .add (.subst subst) =>
    (.add (.subst subst), sOffset, substLumpLen msg sendSock subst)
  | .add (.opt cond) => (.add (.opt cond), sOffset, 0)
  | .del offset len =>
    if offset < sOffset then
      let len :=
        if sOffset - offset < len then len - (sOffset - offset) else 0
      (.del sOffset len, sOffset + len, -(len : ℤ))
    else (.del offset len, offset + len, -(len : ℤ))
  | .nop offset =>
    if offset < sOffset then (.nop sOffset, sOffset, 0)
    else (.nop offset, offset, 0)

/-- The test at the head of both loops: an OPT lump and its condition is not
satisfied. -/
def optFails (msg : SipMsg) (sendSock : Option SocketInfo) (rand : ℕ) : LumpOp → Bool
  | .add (.opt cond) => !lumpCheckOpt cond msg sendSock rand
  | _ => false

/-- The number of conditions `optFails` has checked. -/
def optChecks : LumpOp → ℕ
  | .add (.opt _) => 1
  | _ => 0

/-- The loop of `lumps_len`: the list with its offsets fixed and `new_len`. -/
def lumpsLenLoop (msg : SipMsg) (sendSock : Option SocketInfo)
    (rand : ℕ → ℕ) : ℕ → ℕ → List Lump → List Lump × ℤ
  | _, _, [] => ([], 0)
  | k, sOffset, t :: ts =>
    if optFails msg sendSock (rand k) t.op then
      let (ts, n) := lumpsLenLoop msg sendSock rand (k + 1) sOffset ts
      (t :: ts, n)
    else
      let k := k + optChecks t.op
      let (k, before) := chainLen msg sendSock rand k t.before
      let (op, sOffset, main) := lumpLenMain msg sendSock sOffset t.op
      let (k, after) := chainLen msg sendSock rand k t.after
      let (ts, n) := lumpsLenLoop msg sendSock rand k sOffset ts
      ({ t with op := op } :: ts, before + main + after + n)

def lumpsLen (msg : SipMsg) (lumps : List Lump)
    (sendSock : Option SocketInfo) (rand : ℕ → ℕ) : List Lump × ℤ :=
  lumpsLenLoop msg sendSock rand 0 0 lumps

/-! ## `process_lumps` -/

/-- The loop over the `before` or the `after` chain of a lump: the conditions
checked so far and the bytes written. -/
def chainText (msg : SipMsg) (sendSock : Option SocketInfo) (rand : ℕ → ℕ) :
    ℕ → List LumpAdd → ℕ × Bytes
  | k, [] => (k, [])
  | k, .value value :: r =>
    let (k, text) := chainText msg sendSock rand k r
    (k, value ++ text)
  | k, .subst subst :: r =>
    let (k, text) := chainText msg sendSock rand k r
    (k, substLump msg sendSock subst ++ text)
  | k, .opt cond :: r =>
    if lumpCheckOpt cond msg sendSock (rand k) then
      chainText msg sendSock rand (k + 1) r
    else (k + 1, [])

/-- The "main" part of a lump that adds text. -/
def addText (msg : SipMsg) (sendSock : Option SocketInfo) : LumpAdd → Bytes
  | .value value => value
  | .subst subst => substLump msg sendSock subst
  | .opt _ => []

/-- The loop of `process_lumps`: the bytes written and the last `s_offset`. -/
def processLoop (msg : SipMsg) (sendSock : Option SocketInfo)
    (rand : ℕ → ℕ) : ℕ → ℕ → List Lump → Bytes × ℕ
  | _, sOffset, [] => ([], sOffset)
  | k, sOffset, t :: ts =>
    match t.op with
    | .add what =>
      if optFails msg sendSock (rand k) t.op then
        processLoop msg sendSock rand (k + 1) sOffset ts
      else
        let k := k + optChecks t.op
        let (k, before) := chainText msg sendSock rand k t.before
        let (k, after) := chainText msg sendSock rand k t.after
        let (text, sOffset) := processLoop msg sendSock rand k sOffset ts
        (before ++ addText msg sendSock what ++ after ++ text, sOffset)
    | .nop offset =>
      if offset < sOffset then
        processLoop msg sendSock rand k sOffset ts
      else
        let copied := (msg.buf.drop sOffset).take (offset - sOffset)
        let (k, before) := chainText msg sendSock rand k t.before
        let (k, after) := chainText msg sendSock rand k t.after
        let (text, sOffset) := processLoop msg sendSock rand k offset ts
        (copied ++ before ++ after ++ text, sOffset)
    | .del offset len =>
      if offset < sOffset then
        processLoop msg sendSock rand k sOffset ts
      else
        let copied := (msg.buf.drop sOffset).take (offset - sOffset)
        let (k, before) := chainText msg sendSock rand k t.before
        let (k, after) := chainText msg sendSock rand k t.after
        let (text, sOffset) :=
          processLoop msg sendSock rand k (offset + len) ts
        (copied ++ before ++ after ++ text, sOffset)

/-- `process_lumps`, from the position `origOffs` of the message on. -/
def processLumps (msg : SipMsg) (lumps : List Lump) (origOffs : ℕ)
    (sendSock : Option SocketInfo) (rand : ℕ → ℕ) : Bytes × ℕ :=
  processLoop msg sendSock rand 0 origOffs lumps

/-! ## The builders -/

/-- What `rand()` returns in the four traversals of a builder. -/
structure Rands where
  bodyLen : ℕ → ℕ
  addRmLen : ℕ → ℕ
  addRmOut : ℕ → ℕ
  bodyOut : ℕ → ℕ

/-- The common part of the builders: the bytes written into `new_buf` and the
`new_len` it was allocated with.  `addRm` is the list after Content-Length and
the Via lines have been adjusted; `newUri` replaces the request URI. -/
def buildBuf (msg : SipMsg) (sendSock : Option SocketInfo)
    (newUri : Option Bytes) (addRm bodyLumps : List Lump) (rands : Rands) :
    Bytes × ℤ :=
  let (bodyLumps, bodyDelta) := lumpsLen msg bodyLumps sendSock rands.bodyLen
  let (addRm, delta) := lumpsLen msg addRm sendSock rands.addRmLen
  let newLen := msg.buf.length + bodyDelta + delta
  let (line, sOffset, newLen) :=
    match newUri with
    | some u =>
      (msg.buf.take msg.uri.1 ++ u, msg.uri.1 + msg.uri.2, newLen - msg.uri.2 + u.length)
    | none => ([], 0, newLen)
  let (head, sOffset) :=
    processLumps msg addRm sOffset sendSock rands.addRmOut
  let (body, sOffset) :=
    processLumps msg bodyLumps sOffset sendSock rands.bodyOut
  (line ++ head ++ body ++ msg.buf.drop sOffset, newLen)

def buildReqBufFromSipReq (msg : SipMsg) (sendSock : Option SocketInfo)
    (addRm bodyLumps : List Lump) (rands : Rands) : Bytes × ℤ :=
  buildBuf msg sendSock msg.newUri addRm bodyLumps rands

/-- `build_res_buf_from_sip_res`: the send socket is not known and there is no
URI. -/
def buildResBufFromSipRes (msg : SipMsg) (addRm bodyLumps : List Lump)
    (rands : Rands) : Bytes × ℤ :=
  buildBuf msg none none addRm bodyLumps rands

/-!
## Where the lumps of a list take effect

Both traversals of a list of lumps do the same with every lump: it contributes
some text, and a `DEL` or `NOP` moves the position in the message.  This is
said here once, for one lump and for a list.
-/

variable {msg : SipMsg} {sendSock : Option SocketInfo} {rand : ℕ → ℕ}

/-! ## The text of one lump -/

/-- What `process_lumps` writes for a lump, apart from the text copied from the
message. -/
def lumpText (msg : SipMsg) (sendSock : Option SocketInfo) (rand : ℕ → ℕ)
    (k : ℕ) (t : Lump) : ℕ × Bytes :=
  if optFails msg sendSock (rand k) t.op then (k + 1, [])
  else
    let (k, before) :=
      chainText msg sendSock rand (k + optChecks t.op) t.before
    let (k, after) := chainText msg sendSock rand k t.after
    let main :=
      match t.op with
      | .add what => addText msg sendSock what
      | _ => []
    (k, before ++ main ++ after)

/-- The part of the message that a lump speaks of: the region that is deleted,
or the empty region at an anchor. -/
def LumpOp.region : LumpOp → Option (ℕ × ℕ)
  | .nop offset => some (offset, offset)
  | .del offset len => some (offset, offset + len)
  | .add _ => none

/-- A `DEL` or `NOP` lump, and the region it takes effect on when all before
`offset` is dealt with already. -/
structure Placed where
  lump : Lump
  offset : ℕ
  stop : ℕ

/-- The regions of a list, those that overlap an earlier one moved to its
end. -/
def placed : ℕ → List Lump → List Placed
  | _, [] => []
  | sOffset, t :: ts =>
    match t.op.region with
    | none => placed sOffset ts
    | some (offset, stop) =>
      ⟨t, max offset sOffset, max stop sOffset⟩ :: placed (max stop sOffset) ts

/-- The end of the last region. -/
def lastStop : ℕ → List Lump → ℕ
  | sOffset, [] => sOffset
  | sOffset, t :: ts =>
    match t.op.region with
    | none => lastStop sOffset ts
    | some (_, stop) => lastStop (max stop sOffset) ts

/-- A lump moved behind `sOffset`. -/
def LumpOp.fixed (sOffset : ℕ) : LumpOp → LumpOp
  | .nop offset => .nop (max offset sOffset)
  | .del offset len =>
    .del (max offset sOffset) (max (offset + len) sOffset - max offset sOffset)
  | .add what => .add what

/-- The list with all regions moved. -/
def fixLumps : ℕ → List Lump → List Lump
  | _, [] => []
  | sOffset, t :: ts =>
    { t with op := t.op.fixed sOffset } ::
      match t.op.region with
      | none => fixLumps sOffset ts
      | some (_, stop) => fixLumps (max stop sOffset) ts

theorem lumpText_fixed (sOffset k : ℕ) (t : Lump) :
    lumpText msg sendSock rand k { t with op := t.op.fixed sOffset } =
      lumpText msg sendSock rand k t := by
  cases h : t.op <;>
    simp [lumpText, LumpOp.fixed, optFails, optChecks, h]

theorem chainText_eq_chainLen (k : ℕ) (r : List LumpAdd) :
    (chainText msg sendSock rand k r).1 = (chainLen msg sendSock rand k r).1 ∧
      (chainText msg sendSock rand k r).2.length = (chainLen msg sendSock rand k r).2 := by
  induction r generalizing k with
  | nil => exact ⟨rfl, rfl⟩
  | cons a r ih =>
    cases a with
    | value value => simp [chainText, chainLen, ih k]
    | subst subst => simp [chainText, chainLen, ih k, length_substLump]
    | opt cond =>
      by_cases h : lumpCheckOpt cond msg sendSock (rand k) = true
      · simp only [chainText, chainLen, if_pos h]
        exact ih (k + 1)
      · simp only [chainText, chainLen, if_neg h]
        simp

theorem lumpLenMain_add (sOffset : ℕ) (what : LumpAdd) :
    lumpLenMain msg sendSock sOffset (.add what) =
      (LumpOp.add what, sOffset, ((addText msg sendSock what).length : ℤ)) := by
  cases what <;> simp [lumpLenMain, addText, length_substLump]

/-- The `switch` of `lumps_len` moves a region behind `sOffset` and takes what
is left of it from the length. -/
theorem lumpLenMain_region {op : LumpOp} {offset stop : ℕ}
    (h : op.region = some (offset, stop)) (sOffset : ℕ) :
    lumpLenMain msg sendSock sOffset op = (op.fixed sOffset, max stop sOffset,
        -((max stop sOffset : ℕ) - (max offset sOffset : ℕ) : ℤ)) := by
  cases op with
  | add what => simp [LumpOp.region] at h
  | nop offset' =>
    simp only [LumpOp.region, Option.some.injEq, Prod.mk.injEq] at h
    obtain ⟨rfl, rfl⟩ := h
    by_cases hlt : offset' < sOffset
    · simp [lumpLenMain, LumpOp.fixed, hlt, max_eq_right hlt.le]
    · simp [lumpLenMain, LumpOp.fixed, hlt, max_eq_left (not_lt.mp hlt)]
  | del offset' len =>
    simp only [LumpOp.region, Option.some.injEq, Prod.mk.injEq] at h
    obtain ⟨rfl, rfl⟩ := h
    by_cases hlt : offset' < sOffset
    · have hoff : max offset' sOffset = sOffset := max_eq_right hlt.le
      by_cases hlen : sOffset - offset' < len
      · have hstop : max (offset' + len) sOffset = offset' + len :=
          max_eq_left (by omega)
        have hsum : sOffset + (len - (sOffset - offset')) = offset' + len := by omega
        have hcut : len - (sOffset - offset') = offset' + len - sOffset := by omega
        simp only [lumpLenMain, LumpOp.fixed, if_pos hlt, if_pos hlen, hoff,
          hstop, hsum, Prod.mk.injEq, LumpOp.del.injEq, true_and]
        refine ⟨hcut, ?_⟩
        omega
      · have hstop : max (offset' + len) sOffset = sOffset :=
          max_eq_right (by omega)
        simp [lumpLenMain, LumpOp.fixed, if_pos hlt, if_neg hlen, hoff, hstop]
    · have hoff : max offset' sOffset = offset' :=
        max_eq_left (not_lt.mp hlt)
      have hstop : max (offset' + len) sOffset = offset' + len :=
        max_eq_left (by omega)
      simp [lumpLenMain, LumpOp.fixed, if_neg hlt, hoff, hstop]

/-! ## One step of each traversal -/

theorem processLoop_cons (k s : ℕ) (t : Lump) (ts : List Lump) :
    processLoop msg sendSock rand k s (t :: ts) =
      match t.op.region with
      | none =>
        let (k, x) := lumpText msg sendSock rand k t
        let (y, e) := processLoop msg sendSock rand k s ts
        (x ++ y, e)
      | some (offset, stop) =>
        if offset < s then processLoop msg sendSock rand k s ts
        else
          let (k, x) := lumpText msg sendSock rand k t
          let (y, e) := processLoop msg sendSock rand k stop ts
          ((msg.buf.drop s).take (offset - s) ++ x ++ y, e) := by
  cases h : t.op with
  | nop offset =>
    simp only [processLoop, LumpOp.region, lumpText, h, optFails, optChecks]
    by_cases hlt : offset < s <;> simp [hlt]
  | del offset len =>
    simp only [processLoop, LumpOp.region, lumpText, h, optFails, optChecks]
    by_cases hlt : offset < s <;> simp [hlt]
  | add what =>
    simp only [processLoop, LumpOp.region, lumpText, h]
    by_cases hopt : optFails msg sendSock (rand k) (.add what) = true
    · simp [hopt]
    · simp [hopt]

theorem lumpsLenLoop_cons (k s : ℕ) (t : Lump) (ts : List Lump) :
    lumpsLenLoop msg sendSock rand k s (t :: ts) =
      let k' := (lumpText msg sendSock rand k t).1
      let n := (lumpText msg sendSock rand k t).2.length
      match t.op.region with
      | none =>
        let rest := lumpsLenLoop msg sendSock rand k' s ts
        ({ t with op := t.op.fixed s } :: rest.1, n + rest.2)
      | some (offset, stop) =>
        let rest := lumpsLenLoop msg sendSock rand k' (max stop s) ts
        ({ t with op := t.op.fixed s } :: rest.1,
          n - ((max stop s : ℕ) - (max offset s : ℕ)) + rest.2) := by
  have hchain := @chainText_eq_chainLen msg sendSock rand
  cases h : t.op.region with
  | none =>
    obtain ⟨what, hop⟩ : ∃ what, t.op = .add what := by
      cases hop : t.op <;> simp [hop, LumpOp.region] at h
      exact ⟨_, rfl⟩
    by_cases hopt : optFails msg sendSock (rand k) t.op = true
    · simp only [lumpsLenLoop, lumpText, if_pos hopt]
      simp only [hop, LumpOp.fixed]
      rw [← hop]
      simp
    · simp only [lumpsLenLoop, lumpText, if_neg hopt]
      simp only [hop, lumpLenMain_add, hchain, LumpOp.fixed]
      simp only [List.length_append, hchain]
      push_cast
      rfl
  | some r =>
    obtain ⟨offset, stop⟩ := r
    have hopt : ¬optFails msg sendSock (rand k) t.op = true := by
      cases hop : t.op <;> simp [hop, LumpOp.region, optFails] at h ⊢
    have hmain : ∀ sOffset, lumpLenMain msg sendSock sOffset t.op = _ :=
      lumpLenMain_region h
    have htext : (lumpText msg sendSock rand k t).2 =
        (chainText msg sendSock rand (k + optChecks t.op) t.before).2 ++
          (chainText msg sendSock rand (chainText msg sendSock rand
            (k + optChecks t.op) t.before).1 t.after).2 := by
      cases hop : t.op <;>
        simp [hop, LumpOp.region, optFails, lumpText] at h ⊢
    have hnext : (lumpText msg sendSock rand k t).1 =
        (chainText msg sendSock rand (chainText msg sendSock rand
          (k + optChecks t.op) t.before).1 t.after).1 := by
      simp only [lumpText, if_neg hopt]
    simp only [lumpsLenLoop, if_neg hopt, hmain, hnext, htext, List.length_append, hchain]
    push_cast
    refine Prod.ext rfl ?_
    simp only
    ring

/-! ## Whole lists -/

theorem lumpsLenLoop_fst (k s : ℕ) (ts : List Lump) :
    (lumpsLenLoop msg sendSock rand k s ts).1 = fixLumps s ts := by
  induction ts generalizing k s with
  | nil => rfl
  | cons t ts ih =>
    rw [lumpsLenLoop_cons, fixLumps]
    cases h : t.op.region with
    | none => simp only [ih]
    | some r => simp only [ih]

theorem region_fixed (sOffset : ℕ) (op : LumpOp) : (op.fixed sOffset).region =
      op.region.map (fun r => (max r.1 sOffset, max r.2 sOffset)) := by
  cases op with
  | nop offset => rfl
  | add what => rfl
  | del offset len =>
    have hle : max offset sOffset ≤ max (offset + len) sOffset :=
      max_le_max_right _ (Nat.le_add_right _ _)
    simp only [LumpOp.fixed, LumpOp.region, Option.map_some, Nat.add_sub_cancel' hle]

/-- What a region that takes effect removes. -/
def Placed.deleted (p : Placed) : ℤ := p.stop - p.offset

variable {f : Lump → ℕ} {ts : List Lump}

/-- If the text of every lump has a length of its own, `lumps_len` adds these
up and takes away what is deleted. -/
theorem lumpsLenLoop_snd (hf : ∀ t ∈ ts, ∀ k, (lumpText msg sendSock rand k t).2.length = f t)
    (k s : ℕ) :
    (lumpsLenLoop msg sendSock rand k s ts).2 =
      (ts.map f).sum - ((placed s ts).map Placed.deleted).sum := by
  induction ts generalizing k s with
  | nil => simp [lumpsLenLoop, placed]
  | cons t ts ih =>
    have ih' := ih (fun t' ht' => hf t' (by simp [ht']))
    rw [lumpsLenLoop_cons, placed, hf t (by simp)]
    cases h : t.op.region with
    | none =>
      simp only [ih', List.map_cons, List.sum_cons]
      push_cast
      ring
    | some r =>
      simp only [ih', List.map_cons, List.sum_cons, Placed.deleted]
      push_cast
      ring

/-- The regions that `process_lumps` ignores when it starts at `start`. -/
def ignored (start s : ℕ) (ts : List Lump) : List Placed :=
  (placed s ts).filter (fun p => p.offset < start)

/-- The position in the message that `process_lumps` gets to from `start`. -/
def reached (start s : ℕ) (ts : List Lump) : ℕ :=
  if ∃ p ∈ placed s ts, start ≤ p.offset then lastStop s ts else start

theorem le_of_mem_placed {s : ℕ} {p : Placed} (hp : p ∈ placed s ts) : s ≤ p.offset := by
  induction ts generalizing s with
  | nil => simp [placed] at hp
  | cons t ts ih =>
    rw [placed] at hp
    cases h : t.op.region with
    | none =>
      rw [h] at hp
      exact ih hp
    | some r =>
      rw [h] at hp
      rcases List.mem_cons.mp hp with rfl | hp
      · exact le_max_right _ _
      · exact (le_max_right _ _).trans (ih hp)

theorem ignored_eq_nil {start s : ℕ} (h : start ≤ s) (ts : List Lump) :
    ignored start s ts = [] := by
  rw [ignored, List.filter_eq_nil_iff]
  intro p hp
  have hle := le_of_mem_placed hp
  simp only [decide_eq_true_eq, not_lt]
  omega

/-- The regions lie in a message of `n` bytes. -/
def Lump.Within (n : ℕ) (t : Lump) : Prop :=
  ∀ r ∈ t.op.region, r.2 ≤ n

theorem region_le {op : LumpOp} {offset stop : ℕ}
    (h : op.region = some (offset, stop)) : offset ≤ stop := by
  cases op with
  | add what => simp [LumpOp.region] at h
  | nop offset' =>
    simp only [LumpOp.region, Option.some.injEq, Prod.mk.injEq] at h
    omega
  | del offset' len =>
    simp only [LumpOp.region, Option.some.injEq, Prod.mk.injEq] at h
    omega

/-- From a position that `lumps_len` has reached as well, `process_lumps`
ignores nothing: what it writes and what it has left to copy add up. -/
theorem processLoop_fixLumps (hf : ∀ t ∈ ts, ∀ k, (lumpText msg sendSock rand k t).2.length = f t)
    (hin : ∀ t ∈ ts, t.Within msg.buf.length)
    (k s : ℕ) (hs : s ≤ msg.buf.length) :
    ((processLoop msg sendSock rand k s (fixLumps s ts)).1.length : ℤ) + s =
        lastStop s ts + (ts.map f).sum - ((placed s ts).map Placed.deleted).sum ∧
      (processLoop msg sendSock rand k s (fixLumps s ts)).2 =
        lastStop s ts ∧ lastStop s ts ≤ msg.buf.length := by
  induction ts generalizing k s with
  | nil => simp [processLoop, placed, fixLumps, lastStop, hs]
  | cons t ts ih =>
    have ih' := ih (fun t' ht' => hf t' (by simp [ht'])) (fun t' ht' => hin t' (by simp [ht']))
    have hft := hf t (by simp)
    rw [fixLumps, processLoop_cons, placed, lastStop, lumpText_fixed, region_fixed]
    cases h : t.op.region with
    | none =>
      simp only [Option.map_none]
      obtain ⟨hlen, hstop, hle⟩ :=
        ih' (lumpText msg sendSock rand k t).1 s hs
      refine ⟨?_, hstop, hle⟩
      simp only [List.length_append, hft, List.map_cons, List.sum_cons]
      push_cast at hlen ⊢
      linarith
    | some r =>
      obtain ⟨offset, stop⟩ := r
      have hregion := region_le h
      have hwithin : stop ≤ msg.buf.length :=
        hin t (by simp) _ h
      simp only [Option.map_some]
      rw [if_neg (not_lt.mpr (le_max_right offset s))]
      obtain ⟨hlen, hstop, hle⟩ :=
        ih' (lumpText msg sendSock rand k t).1 (max stop s) (by omega)
      refine ⟨?_, hstop, hle⟩
      have hcopied : ((msg.buf.drop s).take (max offset s - s)).length = max offset s - s := by
        rw [List.length_take, List.length_drop]
        omega
      simp only [List.length_append, hft, hcopied, List.map_cons, List.sum_cons, Placed.deleted]
      have hoff : s ≤ max offset s := le_max_right _ _
      push_cast [Nat.cast_sub hoff] at hlen ⊢
      linarith

/-- From any position: the lumps that are ignored neither insert their text
nor delete their region. -/
theorem processLoop_fixLumps_of_start
    (hf : ∀ t ∈ ts, ∀ k, (lumpText msg sendSock rand k t).2.length = f t)
    (hin : ∀ t ∈ ts, t.Within msg.buf.length)
    (k s start : ℕ) (hs : s ≤ msg.buf.length)
    (hstart : start ≤ msg.buf.length) :
    ((processLoop msg sendSock rand k start (fixLumps s ts)).1.length : ℤ) + start =
        reached start s ts + (ts.map f).sum - ((placed s ts).map Placed.deleted).sum -
          ((ignored start s ts).map (fun p => (f p.lump : ℤ) - p.deleted)).sum ∧
      (processLoop msg sendSock rand k start (fixLumps s ts)).2 =
        reached start s ts ∧ reached start s ts ≤ msg.buf.length := by
  induction ts generalizing k s with
  | nil => simp [processLoop, placed, fixLumps, ignored, reached, hstart]
  | cons t ts ih =>
    have hf' : ∀ t' ∈ ts, ∀ k, (lumpText msg sendSock rand k t').2.length = f t' :=
      fun t' ht' => hf t' (by simp [ht'])
    have hin' : ∀ t' ∈ ts, t'.Within msg.buf.length :=
      fun t' ht' => hin t' (by simp [ht'])
    have hft := hf t (by simp)
    rw [fixLumps, processLoop_cons, lumpText_fixed, region_fixed]
    cases h : t.op.region with
    | none =>
      have hplaced : placed s (t :: ts) = placed s ts := by
        rw [placed, h]
      have hreached : reached start s (t :: ts) = reached start s ts := by
        simp only [reached, hplaced, lastStop, h]
      have hignored : ignored start s (t :: ts) = ignored start s ts := by
        rw [ignored, hplaced, ignored]
      simp only [Option.map_none]
      obtain ⟨hlen, hstop, hle⟩ :=
        ih hf' hin' (lumpText msg sendSock rand k t).1 s hs
      rw [hreached, hignored, hplaced]
      refine ⟨?_, hstop, hle⟩
      simp only [List.length_append, hft, List.map_cons, List.sum_cons]
      push_cast at hlen ⊢
      linarith
    | some r =>
      obtain ⟨offset, stop⟩ := r
      have hwithin : stop ≤ msg.buf.length := hin t (by simp) _ h
      have hregion := region_le h
      have hplaced : placed s (t :: ts) =
          ⟨t, max offset s, max stop s⟩ :: placed (max stop s) ts := by
        rw [placed, h]
      have hlast : lastStop s (t :: ts) = lastStop (max stop s) ts := by
        rw [lastStop, h]
      simp only [Option.map_some]
      by_cases hlt : max offset s < start
      · obtain ⟨hlen, hstop, hle⟩ := ih hf' hin' k (max stop s) (max_le hwithin hs)
        have hreached : reached start s (t :: ts) = reached start (max stop s) ts := by
          have hnot : ¬start ≤ max offset s := not_le.mpr hlt
          simp only [reached, hplaced, hlast, List.mem_cons, exists_eq_or_imp, hnot, false_or]
        have hignored : ignored start s (t :: ts) = ⟨t, max offset s, max stop s⟩ ::
              ignored start (max stop s) ts := by
          rw [ignored, hplaced, List.filter_cons_of_pos (by simpa using hlt)]
          rfl
        rw [if_pos hlt, hreached, hignored, hplaced]
        refine ⟨?_, hstop, hle⟩
        simp only [List.map_cons, List.sum_cons]
        push_cast at hlen ⊢
        linarith
      · have hge := not_lt.mp hlt
        have hstart' : start ≤ max stop s :=
          hge.trans (max_le_max_right s hregion)
        obtain ⟨hlen, hstop, hle⟩ := processLoop_fixLumps hf' hin'
          (lumpText msg sendSock rand k t).1 (max stop s)
          (max_le hwithin hs)
        have hreached : reached start s (t :: ts) = lastStop (max stop s) ts := by
          rw [reached, hplaced, hlast, if_pos ⟨_, List.mem_cons_self, hge⟩]
        have hignored : ignored start s (t :: ts) = [] := by
          rw [ignored, hplaced, List.filter_cons_of_neg
            (by simpa only [decide_eq_true_eq] using hlt)]
          exact ignored_eq_nil hstart' ts
        have hcopied : ((msg.buf.drop start).take
            (max offset s - start)).length = max offset s - start := by
          rw [List.length_take, List.length_drop]
          omega
        rw [if_neg hlt, hreached, hignored, hplaced]
        refine ⟨?_, hstop, hle⟩
        simp only [List.length_append, hft, hcopied, List.map_cons,
          List.sum_cons, Placed.deleted, List.map_nil, List.sum_nil]
        push_cast [Nat.cast_sub hge] at hlen ⊢
        linarith

end Msicp.Lumps
