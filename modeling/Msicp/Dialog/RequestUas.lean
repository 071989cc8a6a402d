import Msicp.Registrar.Expires

/-!
# Requests within a dialog

`dlg_request_uas` stores the sequence number of a request, and then its remote
target, if it brings one.
-/

namespace Msicp.Dialog

open Msicp.Support List
open Msicp.Registrar (str2int str2int_digits)
open Msicp.Tcp (decimal)

/-- `get_cseq_value`, from the number in the CSeq header field, if there is
one. -/
def getCseqValue (number : Option Bytes) : Option ℕ :=
  number.bind fun num => str2int (trimLeading num)

/-- A request, with the number of its CSeq, and what `shm_malloc` answers while
it is handled. -/
structure UasCall where
  msg : Msg
  number : Option Bytes
  shm : Shm

/-- A dialog, with its secure flag. -/
structure UasDialog where
  dlg : Dlg
  secure : Bool

/-- `dlg_request_uas` -/
def serve (s : UasDialog) (c : UasCall) : ℤ × UasDialog :=
  let (ret, dlg) := dlgRequestUas
    { c.msg with cseqValue := getCseqValue c.number } c.shm s.dlg
  (ret, { s with dlg := dlg })

/-- One request of a sequence: the dialog in front of it, what is returned, and
the dialog behind it. -/
structure Served where
  before : UasDialog
  call : UasCall
  ret : ℤ
  after : UasDialog

/-- A sequence of requests. -/
def serveAll : UasDialog → List UasCall → List Served
  | _, [] => []
  | s, c :: cs =>
    ⟨s, c, (serve s c).1, (serve s c).2⟩ :: serveAll (serve s c).2 cs

/-! ## What is asked of it -/

/-- The remote target is memory of the dialog, as long as it says, or empty. -/
def Live (d : Dlg) : Prop :=
  match d.remTarget.s with
  | some b => d.remTarget.len = b.text.length
  | none => d.remTarget.len = 0

/-- The number is greater than the stored one, if there is one. -/
def Newer (d : Dlg) (cseq : ℕ) : Prop := d.remSeq.isSet → d.remSeq.value < cseq

instance (d : Dlg) (cseq : ℕ) : Decidable (Newer d cseq) :=
  inferInstanceAs (Decidable (_ → _))

/-- The sequence number of a request that has been accepted: one that is newer,
with which the call succeeds. -/
def Served.accepted (x : Served) : Option ℕ :=
  if x.ret < 0 then none
  else (getCseqValue x.call.number).filter fun cseq => Newer x.before.dlg cseq

/-- One request has been dealt with as it should be. -/
structure Served.Right (x : Served) : Prop where
  stores : ∀ cseq ∈ x.accepted, x.after.dlg.remSeq = ⟨cseq, true⟩
  old : ∀ num digits, x.call.number = some num → trimLeading num = digits →
    (∀ c ∈ digits, Tcp.isDigit c = true) → ¬ Newer x.before.dlg (decimal digits) →
      x.after = x.before
  error : x.ret < 0 → x.after.dlg.remSeq = x.before.dlg.remSeq ∧
    x.after.dlg.remTarget = x.before.dlg.remTarget ∧
      x.after.secure = x.before.secure
  live : Live x.after.dlg

/-- A sequence of requests has. -/
structure AllRight (l : List Served) : Prop where
  increasing : (l.filterMap Served.accepted).Pairwise (· < ·)
  each : ∀ x ∈ l, x.Right

/-- The blocks in use while a new remote target is asked for. -/
def Dlg.usedForTarget (d : Dlg) : List Addr :=
  { d with remTarget := { d.remTarget with s := none } }.addrs

/-- An INVITE brings a Contact that can be read, and that there is memory
for. -/
def Targets (m : Msg) (shm : Shm) (d : Dlg) : Prop :=
  m.isInvite → m.contactHf ∧ ∃ contact, getContactUri m = some contact ∧
    (contact ≠ [] → (shmMalloc d.usedForTarget shm).1 ≠ none)

/-- If the request is newer, nothing fails behind the point where its number is
stored. -/
def Served.Meets (x : Served) : Prop :=
  ∀ cseq ∈ getCseqValue x.call.number, x.call.msg.cseqHf →
    Newer x.before.dlg cseq → Targets x.call.msg x.call.shm x.before.dlg

/-! ## One request -/

variable {s : UasDialog} {c : UasCall} {cseq : ℕ}

theorem newer_iff {d : Dlg} : ¬ (d.remSeq.isSet ∧ cseq ≤ d.remSeq.value) ↔
    Newer d cseq := by
  simp only [Newer, not_and, not_le]

theorem serve_old (h : ¬ (c.msg.cseqHf ∧ ∃ cseq ∈ getCseqValue c.number, Newer s.dlg cseq)) :
    (serve s c).2 = s := by
  unfold serve dlgRequestUas
  by_cases hhf : c.msg.cseqHf = true
  · cases hval : getCseqValue c.number with
    | none => simp [hhf]
    | some cseq =>
      have hold : s.dlg.remSeq.isSet ∧ cseq ≤ s.dlg.remSeq.value := by
        by_contra hnew
        exact h ⟨hhf, cseq, hval, newer_iff.mp hnew⟩
      simp [hhf, hold]
  · simp [hhf]

variable {m : Msg} {shm : Shm} {d : Dlg}

theorem setTarget_cases (contact : Bytes) (shm : Shm) (d : Dlg) :
    (∃ d', setTarget contact shm d = (true, d') ∧ d'.remSeq = d.remSeq ∧
      Live d' ∧ (shmMalloc d.usedForTarget shm).1 ≠ none) ∨
    ∃ d', setTarget contact shm d = (false, d') ∧ d'.remSeq = d.remSeq ∧
      (shmMalloc d.usedForTarget shm).1 = none := by
  rcases hmalloc : shmMalloc d.usedForTarget shm with ⟨_ | a, shm'⟩
  · refine .inr ⟨{ d with remTarget := { d.remTarget with s := none } }, ?_, rfl,
      rfl⟩
    rw [Dlg.usedForTarget] at hmalloc
    simp only [setTarget, strDuplicate, hmalloc]
  · refine .inl ⟨{ d with remTarget := ⟨some ⟨a, contact⟩, contact.length⟩ }, ?_,
      rfl, rfl, by simp⟩
    rw [Dlg.usedForTarget] at hmalloc
    simp only [setTarget, strDuplicate, hmalloc]

/-- A newer request is stored first; what may fail comes behind that. -/
theorem dlgRequestUas_newer (hhf : m.cseqHf) (hval : m.cseqValue = some cseq)
    (hnew : Newer d cseq) :
    (dlgRequestUas m shm d).2.remSeq = ⟨cseq, true⟩ ∧
      ((dlgRequestUas m shm d).1 = 0 ∧ Targets m shm d ∧ (Live d → Live (dlgRequestUas m shm d).2) ∨
        (dlgRequestUas m shm d).1 < 0 ∧ ¬ Targets m shm d) := by
  have hnot := newer_iff.mpr hnew
  unfold dlgRequestUas Targets
  simp only [hhf, hval, Bool.not_true, if_neg hnot, Bool.false_eq_true, if_false]
  by_cases hinvite : m.isInvite = true
  · by_cases hhf' : m.contactHf = true
    · cases huri : getContactUri m with
      | none => simp [hinvite, hhf']
      | some contact =>
        by_cases hempty : contact = []
        · simp [hinvite, hhf', hempty]
          exact fun h => h
        · rcases setTarget_cases contact shm { d with remSeq := ⟨cseq, true⟩ } with
            ⟨d', hset, hseq, hlive, hmem⟩ | ⟨d', hset, hseq, hmem⟩
          · have hmem' : (shmMalloc d.usedForTarget shm).1 ≠ none := hmem
            simp [hinvite, hhf', hempty, hset, hseq, hlive, hmem']
          · have hmem' : (shmMalloc d.usedForTarget shm).1 = none := hmem
            simp [hinvite, hhf', hempty, hset, hseq, hmem']
    · simp [hinvite, hhf']
  · simp [hinvite]
    exact fun h => h

/-! ## A request is dealt with as it should be -/

/-- The record of a request. -/
def record (s : UasDialog) (c : UasCall) : Served :=
  ⟨s, c, (serve s c).1, (serve s c).2⟩

theorem newer_of_remSeq {d' : Dlg} (hnew : Newer d cseq)
    (hseq : d'.remSeq = ⟨cseq, true⟩) : d'.remSeq ≠ d.remSeq := by
  rw [hseq]
  intro heq
  have hlt := hnew (by rw [← heq])
  rw [← heq] at hlt
  exact lt_irrefl _ hlt

theorem getCseqValue_of_digits {num digits : Bytes}
    (hnum : c.number = some num) (htrim : trimLeading num = digits)
    (hdigits : ∀ c ∈ digits, Tcp.isDigit c = true) :
    getCseqValue c.number = some (decimal digits % 2 ^ 32) := by
  rw [hnum, getCseqValue, Option.bind_some, htrim, str2int_digits hdigits]

theorem not_newer_mod {n : ℕ} (h : ¬ Newer d n) : ¬ Newer d (n % 2 ^ 32) := by
  intro hnew
  refine h fun hset => (hnew hset).trans_le (Nat.mod_le n _)

theorem mem_accepted {x : Served} :
    cseq ∈ x.accepted ↔ ¬ x.ret < 0 ∧ getCseqValue x.call.number = some cseq ∧
      Newer x.before.dlg cseq := by
  unfold Served.accepted
  by_cases hneg : x.ret < 0
  · simp [hneg]
  · simp [hneg, Option.filter_eq_some_iff]

/-- One request is dealt with as it should be if and only if nothing fails
behind the point where its number is stored. -/
theorem record_right_iff (hlive : Live s.dlg) : (record s c).Right ↔ (record s c).Meets := by
  by_cases hnew : c.msg.cseqHf ∧ ∃ cseq ∈ getCseqValue c.number, Newer s.dlg cseq
  · obtain ⟨hhf, cseq, hval, hnew⟩ := hnew
    have hmeets : (record s c).Meets ↔ Targets c.msg c.shm s.dlg := by
      refine ⟨fun h => h cseq hval hhf hnew, fun h _ _ _ _ => h⟩
    obtain ⟨hseq, hout⟩ := @dlgRequestUas_newer _
      { c.msg with cseqValue := getCseqValue c.number } c.shm s.dlg hhf hval hnew
    rw [hmeets]
    rcases hout with ⟨hret, htargets, hkeeps⟩ | ⟨hret, htargets⟩
    · refine iff_of_true ⟨?_, ?_, ?_, hkeeps hlive⟩ htargets
      · intro cseq' hcseq'
        obtain ⟨-, hval', -⟩ := mem_accepted.mp hcseq'
        obtain rfl : cseq' = cseq := Option.some.inj (hval'.symm.trans hval)
        exact hseq
      · intro num digits hnum htrim hdigits hold
        have hval' := getCseqValue_of_digits hnum htrim hdigits
        obtain rfl := Option.some.inj (hval'.symm.trans hval)
        exact absurd hnew (not_newer_mod hold)
      · intro hneg
        exact absurd hret hneg.ne
    · refine iff_of_false (fun hright => ?_) htargets
      exact newer_of_remSeq hnew hseq (hright.error hret).1
  · have hsame : (record s c).after = s := serve_old hnew
    refine iff_of_true ⟨?_, fun _ _ _ _ _ _ => hsame, fun _ => ?_, ?_⟩ ?_
    · intro cseq hcseq
      obtain ⟨hret, hval, hnew'⟩ := mem_accepted.mp hcseq
      by_cases hhf : c.msg.cseqHf = true
      · exact absurd ⟨hhf, cseq, hval, hnew'⟩ hnew
      · have hneg : (record s c).ret = -2 := by
          simp [record, serve, dlgRequestUas, hhf]
        rw [hneg] at hret
        exact absurd hret (by decide)
    · rw [hsame]
      exact ⟨rfl, rfl, rfl⟩
    · rw [hsame]
      exact hlive
    · intro cseq hval hhf hnew'
      exact absurd ⟨hhf, cseq, hval, hnew'⟩ hnew

/-! ## Sequences -/

theorem mem_serveAll_cons {cs : List UasCall} {x : Served} : x ∈ serveAll s (c :: cs) ↔
      x = record s c ∨ x ∈ serveAll (record s c).after cs :=
  mem_cons

/-- The stored number is that of the last request that has been accepted. -/
theorem record_remSeq (h : (record s c).Right) :
    (∃ cseq, (record s c).accepted = some cseq ∧ Newer s.dlg cseq ∧
        (record s c).after.dlg.remSeq = ⟨cseq, true⟩) ∨
      ((record s c).accepted = none ∧ (record s c).after.dlg.remSeq = s.dlg.remSeq) := by
  cases hacc : (record s c).accepted with
  | some cseq =>
    exact .inl ⟨cseq, rfl, (mem_accepted.mp hacc).2.2, h.stores cseq hacc⟩
  | none =>
    refine .inr ⟨rfl, ?_⟩
    by_cases hnew : c.msg.cseqHf ∧ ∃ cseq ∈ getCseqValue c.number, Newer s.dlg cseq
    · obtain ⟨hhf, cseq, hval, hnew⟩ := hnew
      by_cases hneg : (record s c).ret < 0
      · exact (h.error hneg).1
      · have hin : cseq ∈ (record s c).accepted :=
          mem_accepted.mpr ⟨hneg, hval, hnew⟩
        rw [hacc] at hin
        exact absurd hin (by simp)
    · exact congrArg (fun s => s.dlg.remSeq) (serve_old hnew)

theorem newer_congr {d' : Dlg} (h : d'.remSeq = d.remSeq) : Newer d' cseq ↔ Newer d cseq := by
  rw [Newer, Newer, h]

theorem newer_of_serveAll {cs : List UasCall} (h : ∀ x ∈ serveAll s cs, x.Right) :
    ∀ cseq ∈ (serveAll s cs).filterMap Served.accepted, Newer s.dlg cseq := by
  induction cs generalizing s with
  | nil => simp [serveAll]
  | cons c cs ih =>
    intro cseq hcseq
    have hlater := ih fun x hx => h x (mem_serveAll_cons.mpr (.inr hx))
    rcases record_remSeq (h _ (mem_serveAll_cons.mpr (.inl rfl))) with
      ⟨first, hacc, hnew, hseq⟩ | ⟨hacc, hseq⟩
    · change cseq ∈ (record s c :: serveAll (record s c).after cs).filterMap
        Served.accepted at hcseq
      rw [filterMap_cons_some hacc, mem_cons] at hcseq
      rcases hcseq with rfl | hcseq
      · exact hnew
      · intro hset
        have hlt := hlater cseq hcseq (by rw [hseq])
        rw [hseq] at hlt
        exact (hnew hset).trans hlt
    · change cseq ∈ (record s c :: serveAll (record s c).after cs).filterMap
        Served.accepted at hcseq
      rw [filterMap_cons_none hacc] at hcseq
      exact (newer_congr hseq).mp (hlater cseq hcseq)

theorem serveAll_increasing {cs : List UasCall} (h : ∀ x ∈ serveAll s cs, x.Right) :
    ((serveAll s cs).filterMap Served.accepted).Pairwise (· < ·) := by
  induction cs generalizing s with
  | nil => simp [serveAll]
  | cons c cs ih =>
    have hlater : ∀ x ∈ serveAll (record s c).after cs, x.Right :=
      fun x hx => h x (mem_serveAll_cons.mpr (.inr hx))
    change ((record s c :: serveAll (record s c).after cs).filterMap
      Served.accepted).Pairwise (· < ·)
    rcases record_remSeq (h _ (mem_serveAll_cons.mpr (.inl rfl))) with
      ⟨first, hacc, -, hseq⟩ | ⟨hacc, -⟩
    · rw [filterMap_cons_some hacc, pairwise_cons]
      refine ⟨fun cseq hcseq => ?_, ih hlater⟩
      have hlt := newer_of_serveAll hlater cseq hcseq (by rw [hseq])
      rwa [hseq] at hlt
    · rw [filterMap_cons_none hacc]
      exact ih hlater

theorem serveAll_each_iff (s : UasDialog) (hlive : Live s.dlg) (cs : List UasCall) :
    (∀ x ∈ serveAll s cs, x.Right) ↔ ∀ x ∈ serveAll s cs, x.Meets := by
  induction cs generalizing s with
  | nil => simp [serveAll]
  | cons c cs ih =>
    have hstep := @record_right_iff s c hlive
    simp only [mem_serveAll_cons, forall_eq_or_imp]
    constructor
    · rintro ⟨hright, hlater⟩
      exact ⟨hstep.mp hright, (ih _ hright.live).mp hlater⟩
    · rintro ⟨hmeets, hlater⟩
      have hright := hstep.mpr hmeets
      exact ⟨hright, (ih _ hright.live).mpr hlater⟩

/-- Every sequence of requests to a dialog is dealt with as it should be if and
only if in none of them anything fails behind the point where the number of the
request is stored. -/
theorem serveAll_right_iff (s : UasDialog) (hlive : Live s.dlg) (cs : List UasCall) :
    AllRight (serveAll s cs) ↔ ∀ x ∈ serveAll s cs, x.Meets := by
  rw [← serveAll_each_iff s hlive cs]
  exact ⟨AllRight.each, fun h => ⟨serveAll_increasing h, h⟩⟩

/-- A request 7 in a dialog that has seen 6. -/
def secondRequest : UasCall :=
  ⟨{}, some (ascii "7"), []⟩

def quietDialog : UasDialog := ⟨{ remSeq := ⟨6, true⟩ }, false⟩

theorem serveAll_right_second : AllRight (serveAll quietDialog [secondRequest]) := by
  refine (serveAll_right_iff quietDialog rfl [secondRequest]).mpr ?_
  intro x hx
  obtain rfl : x = record quietDialog secondRequest := mem_singleton.mp hx
  exact fun _ _ _ _ hinvite => absurd hinvite (by decide)

/-- An INVITE 7 with a Contact, for which there is no memory. -/
theorem serve_stores_and_fails : ¬ ∀ s cs, Live s.dlg → AllRight (serveAll s cs) := by
  intro h
  have hright := (h quietDialog [⟨{ isInvite := true, contact := .uri (ascii "u") },
    some (ascii "7"), []⟩] rfl).each _ mem_cons_self
  exact absurd (hright.error (by decide)).1 (by decide)

end Msicp.Dialog
