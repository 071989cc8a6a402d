import Mathlib.Data.List.Count
import Mathlib.Data.Int.ModEq

/-!
# Call tokens

`generate_unique_token` packs the service, the process, the second and a call
counter of the process into 32 bits.  Times are those of `time(0)`, and the
counter `cps` starts anywhere.
-/

namespace Msicp.Worksmart.Token

open List Function

/-! ## The generator -/

/-- `serviceid`, and the rank that `child_init` is called with.  Attendants have
negative ranks. -/
structure Process where
  serviceid : ℤ
  rank : ℤ

/-- `uniq_process_id` -/
def generateUniqueProcessRange (p : Process) : BitVec 32 :=
  let id := BitVec.ofInt 32 (p.serviceid.tmod 8)
  let id := id <<< 5
  let id := id ||| BitVec.ofInt 32 (p.rank.tmod 32)
  id <<< 24

/-- `cps++ & max_cps`, which skips zero, and the counter behind it -/
def nextCps (cps : BitVec 32) : BitVec 32 × BitVec 32 :=
  let cur := cps &&& 0x7F
  if cur = 0 then (1, cps + 1 + 1) else (cur, cps + 1)

/-- `generate_unique_token`: the token and the counter -/
def generateUniqueToken (uniqProcessId : BitVec 32) (time : ℕ) (cps : BitVec 32) :
    BitVec 32 × BitVec 32 :=
  let rand := BitVec.ofNat 32 (time &&& 0x1FFFF)
  let rand := rand <<< 7
  let rand := rand ||| (nextCps cps).1
  (uniqProcessId ||| rand &&& 0xFFFFFF, (nextCps cps).2)

variable {P : Type*} [DecidableEq P]

/-- Calls of the processes, each with its time, and the tokens that they get. -/
def run (proc : P → Process) : (P → BitVec 32) → List (P × ℕ) → List (P × BitVec 32)
  | _, [] => []
  | cps, (p, time) :: calls =>
    let r := generateUniqueToken (generateUniqueProcessRange (proc p)) time (cps p)
    (p, r.1) :: run proc (Function.update cps p r.2) calls

/-- Times do not decrease and lie in a window of less than 2^17 seconds, and no
process makes more than 127 calls in a second. -/
structure Calls (calls : List (P × ℕ)) : Prop where
  ordered : (calls.map Prod.snd).Pairwise (· ≤ ·)
  window : ∀ a ∈ calls, ∀ b ∈ calls, b.2 < a.2 + 2 ^ 17
  rate : ∀ a, calls.count a ≤ 127

/-- The service id modulo 8 or the rank modulo 32 is different. -/
def Process.Differs (p q : Process) : Prop :=
  p.serviceid % 8 ≠ q.serviceid % 8 ∨ p.rank % 32 ≠ q.rank % 32

/-- The tokens of a process are different, and those of processes that differ. -/
structure Unique (proc : P → Process) (tokens : List (P × BitVec 32)) : Prop where
  own : tokens.Nodup
  others : ∀ a ∈ tokens, ∀ b ∈ tokens, (proc a.1).Differs (proc b.1) → a.2 ≠ b.2

/-- The remainder of the rank is negative: its sign fills the bits of the service. -/
def Process.Overrun (p : Process) : Prop := p.rank.tmod 32 < 0

/-! ## What the bits are -/

/-- What the first byte of the tokens holds for the service. -/
def Process.service (p : Process) : ℕ :=
  if p.rank.tmod 32 < 0 then 7 else (p.serviceid % 8).toNat

/-- The counter of the call, from 1 to 127. -/
def cur (cps : BitVec 32) : ℕ := if cps.toNat % 128 = 0 then 1 else cps.toNat % 128

theorem range_table : ∀ s : Fin 15, ∀ r : Fin 63,
    (((BitVec.ofInt 32 (s - 7 : ℤ) <<< 5) ||| BitVec.ofInt 32 (r - 31 : ℤ)) <<< 24).toNat =
      2 ^ 24 * ((if (r - 31 : ℤ) < 0 then 7 else ((s - 7 : ℤ) % 8).toNat) * 32 +
        ((r - 31 : ℤ) % 32).toNat) := by
  decide

theorem toNat_range (p : Process) : (generateUniqueProcessRange p).toNat =
    2 ^ 24 * (p.service * 32 + (p.rank % 32).toNat) := by
  have hs := Int.tmod_lt_of_pos p.serviceid (show (0 : ℤ) < 8 by decide)
  have hs' := Int.lt_tmod_of_pos p.serviceid (show (0 : ℤ) < 8 by decide)
  have hr := Int.tmod_lt_of_pos p.rank (show (0 : ℤ) < 32 by decide)
  have hr' := Int.lt_tmod_of_pos p.rank (show (0 : ℤ) < 32 by decide)
  have htable := range_table ⟨(p.serviceid.tmod 8 + 7).toNat, by omega⟩
    ⟨(p.rank.tmod 32 + 31).toNat, by omega⟩
  have hs₁ : (((p.serviceid.tmod 8 + 7).toNat : ℕ) : ℤ) - 7 = p.serviceid.tmod 8 := by omega
  have hr₁ : (((p.rank.tmod 32 + 31).toNat : ℕ) : ℤ) - 31 = p.rank.tmod 32 := by omega
  have hs₂ : p.serviceid.tmod 8 % 8 = p.serviceid % 8 := by
    rw [Int.tmod_def, Int.sub_mul_emod_self_left]
  have hr₂ : p.rank.tmod 32 % 32 = p.rank % 32 := by
    rw [Int.tmod_def, Int.sub_mul_emod_self_left]
  simp only [hs₁, hr₁, hs₂, hr₂] at htable
  exact htable

variable (cps : BitVec 32)

theorem toNat_and_127 : (cps &&& 0x7F).toNat = cps.toNat % 128 :=
  (BitVec.toNat_and cps _).trans (Nat.and_two_pow_sub_one_eq_mod _ 7)

theorem nextCps_cur : (nextCps cps).1.toNat = cur cps := by
  have hand := toNat_and_127 cps
  have hzero : (cps &&& 0x7F = 0) ↔ cps.toNat % 128 = 0 := by
    rw [← hand, ← BitVec.toNat_inj]
    rfl
  unfold nextCps cur
  simp only [hzero]
  split_ifs
  · rfl
  · exact hand

theorem cur_nextCps : cur (nextCps cps).2 = if cur cps = 127 then 1 else cur cps + 1 := by
  have hand := toNat_and_127 cps
  have hzero : (cps &&& 0x7F = 0) ↔ cps.toNat % 128 = 0 := by
    rw [← hand, ← BitVec.toNat_inj]
    rfl
  have hone : (1 : BitVec 32).toNat = 1 := rfl
  unfold nextCps cur
  simp only [hzero]
  by_cases h : cps.toNat % 128 = 0
  · simp only [if_pos h, BitVec.toNat_add, hone]
    rw [if_neg (by omega), if_neg (by decide)]
    omega
  · simp only [if_neg h, BitVec.toNat_add, hone]
    split_ifs <;> omega

theorem cur_bounds : 1 ≤ cur cps ∧ cur cps ≤ 127 := by
  unfold cur
  split_ifs <;> omega

theorem toNat_token (p : Process) (time : ℕ) (cps : BitVec 32) :
    (generateUniqueToken (generateUniqueProcessRange p) time cps).1.toNat =
      2 ^ 24 * (p.service * 32 + (p.rank % 32).toNat) + (2 ^ 7 * (time % 2 ^ 17) + cur cps) := by
  have hcur := cur_bounds cps
  have htime : time % 2 ^ 17 < 2 ^ 17 := Nat.mod_lt _ (by decide)
  have hsec : (BitVec.ofNat 32 (time &&& 0x1FFFF)).toNat = time % 2 ^ 17 := by
    rw [BitVec.toNat_ofNat, Nat.and_two_pow_sub_one_eq_mod time 17]
    omega
  have hrand : (BitVec.ofNat 32 (time &&& 0x1FFFF) <<< 7 ||| (nextCps cps).1).toNat =
      2 ^ 7 * (time % 2 ^ 17) + cur cps := by
    rw [BitVec.toNat_or, BitVec.toNat_shiftLeft, hsec, nextCps_cur, Nat.shiftLeft_eq,
      Nat.mul_comm, Nat.mod_eq_of_lt (by omega), Nat.two_pow_add_eq_or_of_lt (by omega)]
  have hmask : (0xFFFFFF : BitVec 32).toNat = 2 ^ 24 - 1 := rfl
  simp only [generateUniqueToken]
  rw [BitVec.toNat_or, BitVec.toNat_and, hrand, hmask, Nat.and_two_pow_sub_one_eq_mod,
    Nat.mod_eq_of_lt (by omega), toNat_range]
  exact (Nat.two_pow_add_eq_or_of_lt (by omega) _).symm

theorem token_eq {p q : Process} {time time' : ℕ} {cps cps' : BitVec 32}
    (h : (generateUniqueToken (generateUniqueProcessRange p) time cps).1 =
      (generateUniqueToken (generateUniqueProcessRange q) time' cps').1) :
    p.service = q.service ∧ p.rank % 32 = q.rank % 32 ∧
      time % 2 ^ 17 = time' % 2 ^ 17 ∧ cur cps = cur cps' := by
  have hnat := congrArg BitVec.toNat h
  rw [toNat_token, toNat_token] at hnat
  have hcur := cur_bounds cps
  have hcur' := cur_bounds cps'
  refine ⟨?_, ?_, ?_, ?_⟩ <;> omega

/-! ## The tokens of one process -/

/-- How many calls later the counter is `v` again. -/
def gap (cps : BitVec 32) (v : ℕ) : ℕ := (v + 127 - cur cps) % 127

/-- A token of the second `t` comes after as many calls in this second as its counter
is away. -/
theorem gap_lt_count {proc : P → Process} {p : P} {t : ℕ} {c : BitVec 32} :
    ∀ {calls : List (P × ℕ)} {cps : P → BitVec 32}, (calls.map Prod.snd).Pairwise (· ≤ ·) →
      (∀ a ∈ calls, t ≤ a.2 ∧ a.2 < t + 2 ^ 17) →
      (p, (generateUniqueToken (generateUniqueProcessRange (proc p)) t c).1) ∈ run proc cps calls →
      gap (cps p) (cur c) < calls.count (p, t) := by
  intro calls
  induction calls with
  | nil => exact fun _ _ hmem => absurd hmem not_mem_nil
  | cons a calls ih =>
    intro cps hordered hwindow hmem
    obtain ⟨q, t'⟩ := a
    rw [map_cons, pairwise_cons] at hordered
    obtain ⟨hlow, hhigh⟩ := hwindow (q, t') mem_cons_self
    rcases mem_cons.mp hmem with heq | hmem
    · obtain ⟨rfl, htok⟩ := Prod.mk.inj heq
      obtain ⟨-, -, htime, hcur⟩ := token_eq htok
      obtain rfl : t = t' := by
        dsimp only at hlow hhigh
        omega
      rw [count_cons_self, gap, hcur]
      omega
    · have htail := ih hordered.2 (fun a ha => hwindow a (mem_cons_of_mem _ ha)) hmem
      by_cases hq : q = p
      · subst hq
        by_cases ht : t' = t
        · subst ht
          have hc := cur_bounds c
          have hb := cur_bounds (cps q)
          rw [update_self] at htail
          simp only [generateUniqueToken, gap, cur_nextCps] at htail
          rw [count_cons_self, gap]
          split_ifs at htail <;> omega
        · -- the times behind are later, so this second is over
          have hover : calls.count (q, t) = 0 := by
            refine count_eq_zero.mpr fun hin => ht ?_
            exact le_antisymm (hordered.1 t (List.mem_map_of_mem hin)) hlow
          omega
      · rw [update_of_ne (Ne.symm hq)] at htail
        rwa [count_cons_of_ne fun heq => hq (Prod.mk.inj heq).1]

variable {calls : List (P × ℕ)}

theorem Calls.tail {a : P × ℕ} (h : Calls (a :: calls)) : Calls calls where
  ordered := (pairwise_cons.mp h.ordered).2
  window b hb c hc := h.window b (mem_cons_of_mem a hb) c (mem_cons_of_mem a hc)
  rate b := (count_le_count_cons).trans (h.rate b)

theorem run_nodup (proc : P → Process) (h : Calls calls)
    (cps : P → BitVec 32) : (run proc cps calls).Nodup := by
  induction calls generalizing cps with
  | nil => exact nodup_nil
  | cons a calls ih =>
    obtain ⟨p, t⟩ := a
    refine nodup_cons.mpr ⟨fun hmem => ?_, ih h.tail _⟩
    have hordered := pairwise_cons.mp h.ordered
    have hgap := gap_lt_count hordered.2 (fun a ha =>
      ⟨hordered.1 a.2 (List.mem_map_of_mem ha),
        h.window (p, t) mem_cons_self a (mem_cons_of_mem _ ha)⟩) hmem
    have hrate := h.rate (p, t)
    have hc := cur_bounds (cps p)
    rw [update_self] at hgap
    simp only [generateUniqueToken, gap, cur_nextCps] at hgap
    rw [count_cons_self] at hrate
    split_ifs at hgap <;> omega

/-! ## All processes -/

theorem mem_run {proc : P → Process} {a : P × BitVec 32} :
    ∀ {cps : P → BitVec 32}, a ∈ run proc cps calls →
      ∃ t c, a.2 = (generateUniqueToken (generateUniqueProcessRange (proc a.1)) t c).1 := by
  induction calls with
  | nil => exact fun hmem => absurd hmem not_mem_nil
  | cons b calls ih =>
    intro cps hmem
    rcases mem_cons.mp hmem with rfl | hmem
    · exact ⟨_, _, rfl⟩
    · exact ih hmem

/-- In every run all tokens are right if and only if no two different processes have the
same first byte: where the sign of a rank has filled the bits of the service, another
process of that rank modulo 32 must be of service 7 neither by its id nor by its sign. -/
theorem tokens_unique_iff (proc : P → Process) :
    (∀ cps calls, Calls calls → Unique proc (run proc cps calls)) ↔
      ∀ p q, (proc p).Overrun → (proc p).rank % 32 = (proc q).rank % 32 →
        (proc p).serviceid % 8 ≠ (proc q).serviceid % 8 →
        ¬(proc q).Overrun ∧ (proc q).serviceid % 8 ≠ 7 := by
  constructor
  · intro hall p q hover hrank hservice
    by_contra hnot
    have hpq : p ≠ q := fun heq => hservice (by rw [heq])
    have hsame : (proc p).service = (proc q).service := by
      unfold Process.Overrun at hover hnot
      unfold Process.service
      split_ifs <;> omega
    have hcalls : Calls [(p, 0), (q, 0)] := by
      refine ⟨by simp, ?_, fun a => count_le_length.trans (by simp)⟩
      simp
    have htok := (hall (fun _ => 1) _ hcalls).others _ mem_cons_self _
      (mem_cons_of_mem _ mem_cons_self) (Or.inl hservice)
    refine htok (BitVec.eq_of_toNat_eq ?_)
    simp only [update_of_ne hpq.symm]
    rw [toNat_token, toNat_token, hsame, hrank]
  · intro hall cps calls hcalls
    refine ⟨run_nodup proc hcalls cps, fun a ha b hb hdiffers heq => ?_⟩
    obtain ⟨t, c, hta⟩ := mem_run ha
    obtain ⟨t', c', htb⟩ := mem_run hb
    obtain ⟨hservice, hrank, -⟩ := token_eq (hta.symm.trans (heq.trans htb))
    have hid := hdiffers.resolve_right fun hne => hne hrank
    have hab := hall a.1 b.1
    have hba := hall b.1 a.1
    unfold Process.Overrun at hab hba
    unfold Process.service at hservice
    split_ifs at hservice with h₁ h₂ h₂
    · exact (hab h₁ hrank hid).1 h₂
    · have hseven := (hab h₁ hrank hid).2
      omega
    · have hseven := (hba h₂ hrank.symm hid.symm).2
      omega
    · omega

/-- The timer attendant of service 0 and process 31 of service 7, in one second. -/
theorem tokens_collide : ∃ proc : Bool → Process, proc true = ⟨0, -1⟩ ∧ proc false = ⟨7, 31⟩ ∧
      Calls [(true, 0), (false, 0)] ∧
      ¬Unique proc (run proc (fun _ => 1) [(true, 0), (false, 0)]) := by
  refine ⟨fun b => if b then ⟨0, -1⟩ else ⟨7, 31⟩, rfl, rfl, ⟨by simp, by simp, ?_⟩, fun h => ?_⟩
  · exact fun a => count_le_length.trans (by simp)
  · exact h.others _ mem_cons_self _ (mem_cons_of_mem _ mem_cons_self) (Or.inl (by decide)) rfl

end Msicp.Worksmart.Token
