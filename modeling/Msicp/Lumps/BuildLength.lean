import Msicp.Lumps.Placement
import Mathlib.Algebra.Order.BigOperators.Group.List

/-!
# The length of the new buffer

`new_len` is computed before the buffer is written.  It is the number of bytes
written for all values of `rand()` exactly when no random condition stands in
front of text, and the regions that `process_lumps` ignores insert as much as
they delete.
-/

namespace Msicp.Lumps

open Msicp.Support List

variable (msg : SipMsg) (sendSock : Option SocketInfo)

/-- The bytes that a chain inserts when `rand()` returns `rand` throughout. -/
def chainCount (rand : ℕ) : List LumpAdd → ℕ
  | [] => 0
  | .value value :: r => value.length + chainCount rand r
  | .subst subst :: r =>
    substLumpLen msg sendSock subst + chainCount rand r
  | .opt cond :: r =>
    if lumpCheckOpt cond msg sendSock rand then chainCount rand r else 0

/-- The bytes that a lump itself inserts. -/
def mainCount : LumpOp → ℕ
  | .add what => (addText msg sendSock what).length
  | _ => 0

/-- The bytes that a lump inserts when `rand()` returns `rand` throughout. -/
def lumpCount (rand : ℕ) (t : Lump) : ℕ :=
  if optFails msg sendSock rand t.op then 0
  else
    chainCount msg sendSock rand t.before + mainCount msg sendSock t.op +
      chainCount msg sendSock rand t.after

/-- Whatever stands in a chain behind a random condition inserts nothing. -/
def RandGuardsNothing : List LumpAdd → Prop
  | [] => True
  | .opt .ifRand :: r => chainCount msg sendSock randMax r = 0
  | .opt cond :: r =>
    lumpCheckOpt cond msg sendSock 0 = true → RandGuardsNothing r
  | .value _ :: r => RandGuardsNothing r
  | .subst _ :: r => RandGuardsNothing r

/-- No random condition stands in front of text of this lump. -/
def Lump.RandGuardsNothing (t : Lump) : Prop :=
  match t.op with
  | .add (.opt .ifRand) =>
    chainCount msg sendSock randMax t.before = 0 ∧ chainCount msg sendSock randMax t.after = 0
  | op =>
    optFails msg sendSock 0 op = false → Lumps.RandGuardsNothing msg sendSock t.before ∧
        Lumps.RandGuardsNothing msg sendSock t.after

/-- What the ignored lumps would have inserted, less what they would have
deleted. -/
def ignoredBalance (start : ℕ) (ts : List Lump) : ℤ :=
  ((ignored start 0 ts).map (fun p =>
    (lumpCount msg sendSock randMax p.lump : ℤ) - p.deleted)).sum

/-- Where the first `process_lumps` starts: behind a replaced URI. -/
def startOffset (newUri : Option Bytes) : ℕ :=
  match newUri with
  | some _ => msg.uri.1 + msg.uri.2
  | none => 0

/-- The condition for the length to be right. -/
def LengthSafe (newUri : Option Bytes) (addRm bodyLumps : List Lump) : Prop :=
  (∀ t ∈ addRm ++ bodyLumps, t.RandGuardsNothing msg sendSock) ∧
    ignoredBalance msg sendSock (startOffset msg newUri) addRm + ignoredBalance msg sendSock
        (reached (startOffset msg newUri) 0 addRm) bodyLumps = 0

variable {msg sendSock}

/-! ## Random conditions -/

theorem lumpCheckOpt_of_ne {cond : LumpCond} (h : cond ≠ .ifRand) (rand rand' : ℕ) :
    lumpCheckOpt cond msg sendSock rand =
      lumpCheckOpt cond msg sendSock rand' := by
  cases cond <;> first | rfl | exact absurd rfl h

theorem lumpCheckOpt_zero : lumpCheckOpt .ifRand msg sendSock 0 = false := by
  simp [lumpCheckOpt, randMax]

theorem lumpCheckOpt_randMax : lumpCheckOpt .ifRand msg sendSock randMax = true := by
  simp [lumpCheckOpt, randMax]

/-- The text of a chain is longest when all random conditions hold, and
shortest when none does. -/
theorem chainText_bounds (rand : ℕ → ℕ) (k : ℕ) (r : List LumpAdd) :
    chainCount msg sendSock 0 r ≤ (chainText msg sendSock rand k r).2.length ∧
      (chainText msg sendSock rand k r).2.length ≤
        chainCount msg sendSock randMax r := by
  induction r generalizing k with
  | nil => simp [chainCount, chainText]
  | cons a r ih =>
    cases a with
    | value value =>
      obtain ⟨hlow, hhigh⟩ := ih k
      simp only [chainCount, chainText, List.length_append]
      omega
    | subst subst =>
      obtain ⟨hlow, hhigh⟩ := ih k
      simp only [chainCount, chainText, List.length_append, length_substLump]
      omega
    | opt cond =>
      obtain ⟨hlow, hhigh⟩ := ih (k + 1)
      by_cases hrand : cond = .ifRand
      · subst hrand
        simp only [chainCount, chainText, lumpCheckOpt_zero,
          lumpCheckOpt_randMax, if_true, Bool.false_eq_true, if_false]
        by_cases h : lumpCheckOpt .ifRand msg sendSock (rand k) = true
        · rw [if_pos h]
          exact ⟨Nat.zero_le _, hhigh⟩
        · rw [if_neg h]
          exact ⟨Nat.zero_le _, Nat.zero_le _⟩
      · simp only [chainCount, chainText, lumpCheckOpt_of_ne hrand 0 (rand k),
          lumpCheckOpt_of_ne hrand randMax (rand k)]
        by_cases h : lumpCheckOpt cond msg sendSock (rand k) = true
        · rw [if_pos h, if_pos h, if_pos h]
          exact ⟨hlow, hhigh⟩
        · rw [if_neg h, if_neg h, if_neg h]
          exact ⟨le_rfl, le_rfl⟩

theorem chainCount_le (r : List LumpAdd) :
    chainCount msg sendSock 0 r ≤ chainCount msg sendSock randMax r :=
  let h := chainText_bounds (fun _ => 0) 0 r
  h.1.trans h.2

theorem randGuardsNothing_iff (r : List LumpAdd) : RandGuardsNothing msg sendSock r ↔
      chainCount msg sendSock 0 r = chainCount msg sendSock randMax r := by
  induction r with
  | nil => simp [RandGuardsNothing, chainCount]
  | cons a r ih =>
    cases a with
    | value value => simp [RandGuardsNothing, chainCount, ih]
    | subst subst => simp [RandGuardsNothing, chainCount, ih]
    | opt cond =>
      by_cases hrand : cond = .ifRand
      · subst hrand
        simp only [RandGuardsNothing, chainCount, lumpCheckOpt_zero,
          lumpCheckOpt_randMax, if_true, Bool.false_eq_true, if_false]
        exact eq_comm
      · have hdef : RandGuardsNothing msg sendSock (.opt cond :: r) ↔
            (lumpCheckOpt cond msg sendSock 0 = true → RandGuardsNothing msg sendSock r) := by
          cases cond <;> first | exact Iff.rfl | exact absurd rfl hrand
        rw [hdef, ih, chainCount, chainCount, lumpCheckOpt_of_ne hrand randMax 0]
        by_cases h : lumpCheckOpt cond msg sendSock 0 = true <;> simp [h]

theorem optFails_of_ne {op : LumpOp} (h : op ≠ .add (.opt .ifRand)) (rand rand' : ℕ) :
    optFails msg sendSock rand op = optFails msg sendSock rand' op := by
  cases op with
  | nop offset => rfl
  | del offset len => rfl
  | add what =>
    cases what with
    | value value => rfl
    | subst subst => rfl
    | opt cond =>
      have hcond : cond ≠ .ifRand := by
        rintro rfl
        exact h rfl
      simp only [optFails, lumpCheckOpt_of_ne hcond rand rand']

theorem length_lumpText (rand : ℕ → ℕ) (k : ℕ) (t : Lump)
    (h : ¬optFails msg sendSock (rand k) t.op = true) :
    (lumpText msg sendSock rand k t).2.length =
      (chainText msg sendSock rand (k + optChecks t.op) t.before).2.length +
        mainCount msg sendSock t.op +
        (chainText msg sendSock rand (chainText msg sendSock rand (k + optChecks t.op) t.before).1
          t.after).2.length := by
  rw [lumpText, if_neg h, mainCount.eq_def]
  cases t.op <;> simp only [List.length_append, length_nil]

theorem lumpText_bounds (rand : ℕ → ℕ) (k : ℕ) (t : Lump) :
    lumpCount msg sendSock 0 t ≤ (lumpText msg sendSock rand k t).2.length ∧
      (lumpText msg sendSock rand k t).2.length ≤
        lumpCount msg sendSock randMax t := by
  have hb := @chainText_bounds msg sendSock rand (k + optChecks t.op) t.before
  have ha := @chainText_bounds msg sendSock rand
    (chainText msg sendSock rand (k + optChecks t.op) t.before).1 t.after
  by_cases hrand : t.op = .add (.opt .ifRand)
  · have hzero : optFails msg sendSock 0 t.op = true := by
      simp [hrand, optFails, lumpCheckOpt_zero]
    have hmax : optFails msg sendSock randMax t.op = false := by
      simp [hrand, optFails, lumpCheckOpt_randMax]
    rw [lumpCount, if_pos hzero, lumpCount, hmax]
    refine ⟨Nat.zero_le _, ?_⟩
    by_cases h : optFails msg sendSock (rand k) t.op = true
    · simp [lumpText, h]
    · rw [length_lumpText rand k t h]
      simp only [Bool.false_eq_true, if_false]
      omega
  · rw [lumpCount, lumpCount, optFails_of_ne hrand 0 (rand k),
      optFails_of_ne hrand randMax (rand k)]
    by_cases h : optFails msg sendSock (rand k) t.op = true
    · simp [lumpText, h]
    · rw [length_lumpText rand k t h, if_neg h, if_neg h]
      omega

theorem chainText_const (rand k : ℕ) (r : List LumpAdd) :
    (chainText msg sendSock (fun _ => rand) k r).2.length =
      chainCount msg sendSock rand r := by
  induction r generalizing k with
  | nil => rfl
  | cons a r ih =>
    cases a with
    | value value => simp [chainText, chainCount, ih]
    | subst subst => simp [chainText, chainCount, ih, length_substLump]
    | opt cond =>
      by_cases h : lumpCheckOpt cond msg sendSock rand = true
      · simp [chainText, chainCount, h, ih]
      · simp [chainText, chainCount, h]

theorem lumpText_const (rand k : ℕ) (t : Lump) :
    (lumpText msg sendSock (fun _ => rand) k t).2.length =
      lumpCount msg sendSock rand t := by
  by_cases h : optFails msg sendSock rand t.op = true
  · simp [lumpText, lumpCount, h]
  · rw [length_lumpText _ k t h, chainText_const, chainText_const, lumpCount, if_neg h]

theorem lump_randGuardsNothing_iff (t : Lump) : t.RandGuardsNothing msg sendSock ↔
      lumpCount msg sendSock 0 t = lumpCount msg sendSock randMax t := by
  by_cases hrand : t.op = .add (.opt .ifRand)
  · have hdef : t.RandGuardsNothing msg sendSock ↔ chainCount msg sendSock randMax t.before = 0 ∧
          chainCount msg sendSock randMax t.after = 0 := by
      rw [Lump.RandGuardsNothing, hrand]
    have hzero : optFails msg sendSock 0 t.op = true := by
      simp [hrand, optFails, lumpCheckOpt_zero]
    have hmax : optFails msg sendSock randMax t.op = false := by
      simp [hrand, optFails, lumpCheckOpt_randMax]
    rw [hdef, lumpCount, if_pos hzero, lumpCount, hmax, hrand]
    simp only [mainCount, addText, length_nil, Bool.false_eq_true, if_false]
    omega
  · have hdef : t.RandGuardsNothing msg sendSock ↔ (optFails msg sendSock 0 t.op = false →
          RandGuardsNothing msg sendSock t.before ∧ RandGuardsNothing msg sendSock t.after) := by
      rw [Lump.RandGuardsNothing]
      split
      · next hop => exact absurd hop hrand
      · exact Iff.rfl
    have hb := @chainCount_le msg sendSock t.before
    have ha := @chainCount_le msg sendSock t.after
    rw [hdef, randGuardsNothing_iff, randGuardsNothing_iff, lumpCount,
      lumpCount, optFails_of_ne hrand randMax 0]
    by_cases h : optFails msg sendSock 0 t.op = true
    · simp [h]
    · have h' : optFails msg sendSock 0 t.op = false := by simpa using h
      simp only [h', Bool.false_eq_true, if_false, forall_const]
      omega

theorem eq_of_sum_map_eq {f g : Lump → ℕ} {ts : List Lump}
    (hle : ∀ t ∈ ts, f t ≤ g t) (hsum : (ts.map f).sum = (ts.map g).sum) :
    ∀ t ∈ ts, f t = g t := by
  intro t ht
  by_contra hne
  have hlt : f t < g t := lt_of_le_of_ne (hle t ht) hne
  exact absurd hsum (sum_lt_sum f g hle ⟨t, ht, hlt⟩).ne

/-! ## The builders -/

/-- How the bytes written differ from `new_len`, when in each traversal the
text of every lump has a length of its own. -/
theorem buildBuf_length {newUri : Option Bytes} {addRm bodyLumps : List Lump}
    {rands : Rands} {f₁ f₂ g₁ g₂ : Lump → ℕ}
    (huri : msg.uri.1 + msg.uri.2 ≤ msg.buf.length)
    (hadd : ∀ t ∈ addRm, t.Within msg.buf.length)
    (hbody : ∀ t ∈ bodyLumps, t.Within msg.buf.length)
    (hf₁ : ∀ t ∈ addRm, ∀ k, (lumpText msg sendSock rands.addRmLen k t).2.length = f₁ t)
    (hf₂ : ∀ t ∈ bodyLumps, ∀ k, (lumpText msg sendSock rands.bodyLen k t).2.length = f₂ t)
    (hg₁ : ∀ t ∈ addRm, ∀ k, (lumpText msg sendSock rands.addRmOut k t).2.length = g₁ t)
    (hg₂ : ∀ t ∈ bodyLumps, ∀ k, (lumpText msg sendSock rands.bodyOut k t).2.length = g₂ t) :
    ((buildBuf msg sendSock newUri addRm bodyLumps rands).1.length : ℤ) +
        (addRm.map f₁).sum + (bodyLumps.map f₂).sum +
        ((ignored (startOffset msg newUri) 0 addRm).map
          (fun p => (g₁ p.lump : ℤ) - p.deleted)).sum +
        ((ignored (reached (startOffset msg newUri) 0 addRm) 0 bodyLumps).map
          (fun p => (g₂ p.lump : ℤ) - p.deleted)).sum =
      (buildBuf msg sendSock newUri addRm bodyLumps rands).2 +
        (addRm.map g₁).sum + (bodyLumps.map g₂).sum := by
  have hstart : startOffset msg newUri ≤ msg.buf.length := by
    cases newUri with
    | none => exact Nat.zero_le _
    | some u => exact huri
  obtain ⟨hlen₁, hstop₁, hle₁⟩ := processLoop_fixLumps_of_start hg₁ hadd 0 0
    (startOffset msg newUri) (Nat.zero_le _) hstart
  obtain ⟨hlen₂, hstop₂, hle₂⟩ := processLoop_fixLumps_of_start hg₂ hbody 0 0
    (reached (startOffset msg newUri) 0 addRm) (Nat.zero_le _) hle₁
  have hsum₁ := lumpsLenLoop_snd hf₁ 0 0
  have hsum₂ := lumpsLenLoop_snd hf₂ 0 0
  cases newUri with
  | none =>
    simp only [startOffset] at *
    simp only [buildBuf, lumpsLen, processLumps, lumpsLenLoop_fst, hstop₁,
      hstop₂, hsum₁, hsum₂, List.length_append, length_drop,
      length_nil]
    push_cast [Nat.cast_sub hle₂] at *
    linarith
  | some u =>
    simp only [startOffset] at *
    have htake : (msg.buf.take msg.uri.1).length = msg.uri.1 := by
      rw [length_take]
      omega
    simp only [buildBuf, lumpsLen, processLumps, lumpsLenLoop_fst, hstop₁,
      hstop₂, hsum₁, hsum₂, List.length_append, length_drop, htake]
    push_cast [Nat.cast_sub hle₂] at *
    linarith

/-- `rand()` with one value while the length is computed and another while
the buffer is written. -/
def constRands (counting writing : ℕ) : Rands :=
  ⟨fun _ => counting, fun _ => counting, fun _ => writing, fun _ => writing⟩

theorem buildBuf_length_iff (newUri : Option Bytes) (addRm bodyLumps : List Lump)
    (huri : msg.uri.1 + msg.uri.2 ≤ msg.buf.length)
    (hadd : ∀ t ∈ addRm, t.Within msg.buf.length)
    (hbody : ∀ t ∈ bodyLumps, t.Within msg.buf.length) :
    (∀ rands : Rands, ((buildBuf msg sendSock newUri addRm bodyLumps rands).1.length : ℤ) =
        (buildBuf msg sendSock newUri addRm bodyLumps rands).2) ↔
      LengthSafe msg sendSock newUri addRm bodyLumps := by
  constructor
  · intro h
    have hconst : ∀ counting writing, _ := fun counting writing =>
      @buildBuf_length msg sendSock newUri addRm bodyLumps
        (constRands counting writing) _ _ _ _ huri hadd hbody
        (fun t _ k => lumpText_const counting k t)
        (fun t _ k => lumpText_const counting k t)
        (fun t _ k => lumpText_const writing k t)
        (fun t _ k => lumpText_const writing k t)
    have htrue := hconst randMax randMax
    have hfalse := hconst 0 0
    have hmixed := hconst randMax 0
    rw [h] at htrue hfalse hmixed
    have hsum : ((addRm ++ bodyLumps).map (lumpCount msg sendSock 0)).sum =
          ((addRm ++ bodyLumps).map (lumpCount msg sendSock randMax)).sum := by
      simp only [map_append, sum_append]
      omega
    have hle : ∀ t ∈ addRm ++ bodyLumps,
        lumpCount msg sendSock 0 t ≤ lumpCount msg sendSock randMax t := by
      intro t _
      have hbounds := @lumpText_bounds msg sendSock (fun _ => 0) 0 t
      exact hbounds.1.trans hbounds.2
    refine ⟨?_, ?_⟩
    · intro t ht
      rw [lump_randGuardsNothing_iff]
      exact eq_of_sum_map_eq hle hsum t ht
    · rw [ignoredBalance, ignoredBalance]
      linarith
  · rintro ⟨hrand, hbalance⟩ rands
    have hfix : ∀ (rand : ℕ → ℕ), ∀ t ∈ addRm ++ bodyLumps, ∀ k,
        (lumpText msg sendSock rand k t).2.length =
          lumpCount msg sendSock randMax t := by
      intro rand t ht k
      have heq := (lump_randGuardsNothing_iff t).mp (hrand t ht)
      have hbounds := @lumpText_bounds msg sendSock rand k t
      omega
    have hlen := @buildBuf_length msg sendSock newUri addRm bodyLumps rands
      _ _ _ _ huri hadd hbody
      (fun t ht => hfix rands.addRmLen t (mem_append_left _ ht))
      (fun t ht => hfix rands.bodyLen t (mem_append_right _ ht))
      (fun t ht => hfix rands.addRmOut t (mem_append_left _ ht))
      (fun t ht => hfix rands.bodyOut t (mem_append_right _ ht))
    rw [ignoredBalance, ignoredBalance] at hbalance
    linarith

/-- When the length computed for a forwarded request or response is the number
of bytes written, whatever `rand()` returns.  The lists hold any lumps within
the message, as `del_lump` and `anchor_lump` make sure. -/
theorem newLen_eq_written_iff (msg : SipMsg) (sendSock : Option SocketInfo)
    (addRm bodyLumps : List Lump)
    (huri : msg.uri.1 + msg.uri.2 ≤ msg.buf.length)
    (hadd : ∀ t ∈ addRm, t.Within msg.buf.length)
    (hbody : ∀ t ∈ bodyLumps, t.Within msg.buf.length) :
    ((∀ rands : Rands,
      ((buildReqBufFromSipReq msg sendSock addRm bodyLumps rands).1.length : ℤ) =
        (buildReqBufFromSipReq msg sendSock addRm bodyLumps rands).2) ↔
      LengthSafe msg sendSock msg.newUri addRm bodyLumps) ∧
    ((∀ rands : Rands, ((buildResBufFromSipRes msg addRm bodyLumps rands).1.length : ℤ) =
        (buildResBufFromSipRes msg addRm bodyLumps rands).2) ↔
      LengthSafe msg none none addRm bodyLumps) := by
  constructor
  · exact buildBuf_length_iff msg.newUri addRm bodyLumps huri hadd hbody
  · exact buildBuf_length_iff none addRm bodyLumps huri hadd hbody

/-- A request whose URI is replaced. -/
def rewrittenReq : SipMsg where
  buf := ascii "INVITE sip:a@b SIP/2.0\r\n\r\n"
  rcv := ⟨⟨.inet, [127, 0, 0, 1]⟩, 5060, .udp, none⟩
  setGlobalAddress := []
  setGlobalPort := []
  uri := (7, 7)
  newUri := some (ascii "sip:c@d")

/-- An anchor behind the replaced URI is within the condition. -/
theorem newLen_eq_written_iff_anchor :
    ((buildReqBufFromSipReq rewrittenReq none [⟨.nop 24, [], [.value (ascii "X: y\r\n")]⟩] []
        (constRands 0 1)).1.length : ℤ) =
      (buildReqBufFromSipReq rewrittenReq none
        [⟨.nop 24, [], [.value (ascii "X: y\r\n")]⟩] [] (constRands 0 1)).2 := by
  refine ((newLen_eq_written_iff rewrittenReq none
    [⟨.nop 24, [], [.value (ascii "X: y\r\n")]⟩] [] (by decide) ?_ ?_).1.mpr ?_) (constRands 0 1)
  · intro t ht
    obtain rfl := mem_singleton.mp ht
    rintro r ⟨⟩
    decide
  · simp
  · refine ⟨?_, by decide⟩
    intro t ht
    obtain rfl := mem_singleton.mp ht
    exact fun _ => ⟨trivial, trivial⟩

/-- A region deleted inside the replaced URI: the length counts the deletion,
but the region is ignored, and five bytes too many are written. -/
theorem newLen_short_in_uri :
    (buildReqBufFromSipReq rewrittenReq none [⟨.del 7 5, [], []⟩] []
        (constRands 0 0)).1.length = 26 ∧
      (buildReqBufFromSipReq rewrittenReq none [⟨.del 7 5, [], []⟩] []
        (constRands 0 0)).2 = 21 := by
  constructor <;> decide

end Msicp.Lumps
