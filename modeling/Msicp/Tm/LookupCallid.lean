import Msicp.Avp.UsrAvp
import Msicp.Support.StackText
import Msicp.Tm.Newtran

/-!
# Looking a transaction up by its Call-ID (`t_lookup_callid`)

The headers of the transaction looked for are printed the way the module
prints its own, and compared with the headers that the cells of the bucket
have kept as they were received: with the name and the white space in front of
the value, the Call-ID with its line end, the CSeq without its method.
-/

namespace Msicp.Tm.LookupCallid

open Msicp.Support List Option
open Msicp.Avp (tolower)

/-- Blank, tab, or a line end. -/
def isLws (c : UInt8) : Bool :=
  c == 32 || c == 9 || c == 13 || c == 10

/-- What stands between the name of a header and its value. -/
def IsGap (gap : Bytes) : Prop :=
  ∃ before behind, gap = before ++ 58 :: behind ∧
    (∀ c ∈ before, isLws c = true) ∧ ∀ c ∈ behind, isLws c = true

/-- No white space at either end. -/
structure Trimmed (s : Bytes) : Prop where
  head : ∀ c, s.head? = some c → isLws c = false
  last : ∀ c, s.getLast? = some c → isLws c = false

/-- A Call-ID header as it was received; its value may be folded. -/
structure CallidHf where
  name : Bytes
  gap : Bytes
  body : Bytes
  tail : Bytes
  named : name.map tolower = ascii "call-id" ∨ name.map tolower = ascii "i"
  gapped : IsGap gap
  trimmed : Trimmed body
  white : ∀ c ∈ tail, isLws c = true
  ended : 10 ∈ tail

/-- A CSeq header as it was received, up to its number. -/
structure CseqHf where
  name : Bytes
  gap : Bytes
  number : Bytes
  named : name.map tolower = ascii "cseq"
  gapped : IsGap gap
  nonempty : number ≠ []
  token : ∀ c ∈ number, isLws c = false

/-- `struct cell`, with the header slices `callid` and `cseq_n`. -/
structure Cell where
  callid : CallidHf
  cseqN : CseqHf
  invite : Bool

def CallidHf.text (h : CallidHf) : Bytes :=
  h.name ++ (h.gap ++ (h.body ++ h.tail))

def CseqHf.text (h : CseqHf) : Bytes :=
  h.name ++ (h.gap ++ h.number)

/-- `struct s_table`: every cell stands in the bucket of its Call-ID and CSeq
number. -/
structure Table where
  entrys : ℕ → List Cell
  placed : ∀ i c, c ∈ entrys i →
    i = Newtran.newHash2 c.callid.body c.cseqN.number

def crlf : Bytes := [13, 10]

def printCallidMini (callid : Bytes) : Bytes :=
  ascii "Call-ID: " ++ (callid ++ crlf)

def printCseqMini (cseq method : Bytes) : Bytes :=
  ascii "CSeq: " ++ (cseq ++ (32 :: method))

def maxHeader : ℕ := 1024

/-- What the stack holds behind the two printed headers. -/
structure Stack where
  callid : ℕ → UInt8
  cseq : ℕ → UInt8

/-- The comparison with one cell. -/
def matchesCell (stack : Stack) (callid cseq : Bytes) (c : Cell) : Bool :=
  strncmp id (memory (printCallidMini callid) stack.callid) c.callid.text && strncmp tolower
      (memory (printCseqMini cseq (ascii "INVITE")) stack.cseq) c.cseqN.text

/-- `t_lookup_callid`: none when a printed header does not fit its buffer,
otherwise the cell found, if any. -/
def tLookupCallid (tbl : Table) (stack : Stack) (callid cseq : Bytes) : Option (Option Cell) :=
  if (printCallidMini callid).length ≤ maxHeader ∧
      (printCseqMini cseq (ascii "INVITE")).length ≤ maxHeader then
    let hashIndex := Newtran.newHash2 callid cseq
    if 2 ^ Newtran.tablePower ≤ hashIndex then some none
    else some ((tbl.entrys hashIndex).find? (matchesCell stack callid cseq))
  else none

/-! ## When a cell matches -/

/-- The cell has its headers written as they are printed: one blank behind the
colon, the value of the Call-ID and what follows it as in the buffer, and a
number that the given one starts with. -/
structure Written (stack : Stack) (callid cseq : Bytes) (c : Cell) : Prop where
  name : c.callid.name = ascii "Call-ID"
  gap : c.callid.gap = ascii ": "
  value : Agrees id (memory (callid ++ crlf) stack.callid)
    (upToZero (c.callid.body ++ c.callid.tail))
  cseqGap : c.cseqN.gap = ascii ": "
  number : c.cseqN.number.map tolower <+: cseq.map tolower

theorem zero_notMem_gap {gap : Bytes} (h : IsGap gap) : (0 : UInt8) ∉ gap := by
  obtain ⟨before, behind, rfl, hbefore, hbehind⟩ := h
  intro hmem
  rcases mem_append.mp hmem with h0 | h0
  · exact absurd (hbefore 0 h0) (by decide)
  · rcases mem_cons.mp h0 with h0 | h0
    · exact absurd h0 (by decide)
    · exact absurd (hbehind 0 h0) (by decide)

variable {s callid cseq : Bytes} {stack : Stack}

theorem zero_notMem_of_map {t : Bytes} (h : s.map tolower = t)
    (ht : (0 : UInt8) ∉ t) : (0 : UInt8) ∉ s := by
  intro hmem
  have hzero : tolower 0 ∈ t := h ▸ List.mem_map_of_mem hmem
  exact ht hzero

/-- A character that is compared as it is: `norm` maps no other to it. -/
def Sharp (norm : UInt8 → UInt8) (d : UInt8) : Prop :=
  ∀ c, norm c = norm d → c = d

theorem sharp_tolower {d : UInt8} (hd : isLws d = true ∨ d = 58 ∨ d = 0) :
    Sharp tolower d := by
  have hself : tolower d = d ∧ ¬ (97 ≤ d ∧ d ≤ 122) := by
    rcases hd with hlws | rfl | rfl
    · simp only [isLws, Bool.or_eq_true, beq_iff_eq] at hlws
      rcases hlws with ((rfl | rfl) | rfl) | rfl <;> decide
    · decide
    · decide
  intro c hc
  rw [hself.1, tolower] at hc
  split at hc
  · rename_i hupper
    obtain ⟨hlow, hhigh⟩ := hupper
    exfalso
    apply hself.2
    rw [← hc, UInt8.le_iff_toNat_le, UInt8.le_iff_toNat_le, UInt8.toNat_add]
    rw [UInt8.le_iff_toNat_le] at hlow hhigh
    simp only [UInt8.toNat_ofNat] at hlow hhigh ⊢
    omega
  · exact hc

/-- The gap is compared with a colon and one blank, in front of a value. -/
theorem gap_agrees (norm : UInt8 → UInt8) (junk : ℕ → UInt8)
    (rest : Bytes) {gap : Bytes} {r : UInt8} (hgap : IsGap gap)
    (hsharp : ∀ d, isLws d = true ∨ d = 58 → Sharp norm d)
    (hr : isLws r = false)
    (hs : ¬ Agrees norm (memory (32 :: r :: rest) junk) s) :
    Agrees norm (memory (58 :: 32 :: r :: rest) junk) (gap ++ s) ↔
      gap = ascii ": " ∧ Agrees norm (memory (r :: rest) junk) s := by
  constructor
  · intro h
    obtain ⟨before, behind, rfl, hbefore, hbehind⟩ := hgap
    cases before with
    | cons b before =>
      rw [cons_append, cons_append, agrees_memory_cons] at h
      have hb := hbefore b mem_cons_self
      have heq := hsharp b (.inl hb) _ h.1
      rw [← heq] at hb
      cases hb
    | nil =>
      rw [nil_append, cons_append, agrees_memory_cons] at h
      cases behind with
      | nil => exact absurd h.2 hs
      | cons b behind =>
        rw [cons_append, agrees_memory_cons] at h
        have hb := hbehind b mem_cons_self
        obtain rfl := hsharp b (.inl hb) _ h.2.1
        cases behind with
        | nil => exact ⟨rfl, h.2.2⟩
        | cons d behind =>
          rw [cons_append, agrees_memory_cons] at h
          have hd := hbehind d (mem_cons_of_mem _ mem_cons_self)
          have heq := hsharp d (.inl hd) _ h.2.2.1
          rw [← heq, hr] at hd
          cases hd
  · rintro ⟨rfl, h⟩
    have hcolon : ascii ": " ++ s = 58 :: 32 :: s := rfl
    rw [hcolon, agrees_memory_cons, agrees_memory_cons]
    exact ⟨rfl, rfl, h⟩

/-- The Call-ID that is given: one line, trimmed and not empty. -/
structure IsCallid (callid : Bytes) : Prop where
  nonempty : callid ≠ []
  trimmed : Trimmed callid
  line : 10 ∉ callid
  noZero : 0 ∉ callid

/-- The CSeq number that is given. -/
structure IsNumber (cseq : Bytes) : Prop where
  nonempty : cseq ≠ []
  token : ∀ c ∈ cseq, isLws c = false
  noZero : 0 ∉ cseq

/-- The value of a Call-ID header does not start with a blank. -/
theorem value_head {junk : ℕ → UInt8} {rest : Bytes} {r : UInt8}
    (h : CallidHf) (hr : isLws r = false) :
    ¬ Agrees id (memory (32 :: r :: rest) junk) (upToZero (h.body ++ h.tail)) := by
  have hfirst : ∀ (d : UInt8) (s : Bytes),
      Agrees id (memory (32 :: r :: rest) junk) (upToZero (d :: s)) →
      32 = d ∧ Agrees id (memory (r :: rest) junk) (upToZero s) := by
    intro d s hag
    rw [upToZero] at hag
    split at hag
    · rename_i hd
      rw [agrees_memory_cons] at hag
      exact absurd hag.1 (by decide)
    · exact agrees_memory_cons.mp hag
  intro hag
  cases hbody : h.body with
  | cons d body =>
    rw [hbody, cons_append] at hag
    obtain ⟨rfl, -⟩ := hfirst d _ hag
    have hd := h.trimmed.head 32 (by rw [hbody]; rfl)
    cases hd
  | nil =>
    rw [hbody, nil_append] at hag
    have hwhite := h.white
    have hended := h.ended
    cases htail : h.tail with
    | nil =>
      rw [htail] at hended
      cases hended
    | cons d tail =>
      rw [htail] at hag hwhite hended
      obtain ⟨rfl, hrest⟩ := hfirst d _ hag
      have hmem : (10 : UInt8) ∈ tail := by
        rcases mem_cons.mp hended with h10 | h10
        · exact absurd h10 (by decide)
        · exact h10
      cases tail with
      | nil => cases hmem
      | cons d tail =>
        have hd := hwhite d (mem_cons_of_mem _ mem_cons_self)
        have hne : d ≠ 0 := by
          rintro rfl
          cases hd
        rw [upToZero, if_neg hne, agrees_memory_cons] at hrest
        have heq : r = d := hrest.1
        rw [← heq, hr] at hd
        cases hd

/-- The printed Call-ID header against a stored one. -/
theorem callid_matches (h : CallidHf) (hcallid : IsCallid callid) :
    strncmp id (memory (printCallidMini callid) stack.callid) h.text = true ↔
      h.name = ascii "Call-ID" ∧ h.gap = ascii ": " ∧
        Agrees id (memory (callid ++ crlf) stack.callid) (upToZero (h.body ++ h.tail)) := by
  obtain ⟨r, rest, rfl⟩ := exists_cons_of_ne_nil hcallid.nonempty
  have hr : isLws r = false := hcallid.trimmed.head r rfl
  have hnameZero : (0 : UInt8) ∉ h.name := by
    rcases h.named with hn | hn
    · exact zero_notMem_of_map hn (by decide)
    · exact zero_notMem_of_map hn (by decide)
  have hprinted : printCallidMini (r :: rest) =
      ascii "Call-ID" ++ (58 :: 32 :: r :: (rest ++ crlf)) := rfl
  have hgap := gap_agrees id stack.callid (rest ++ crlf) h.gapped
    (fun d _ c hc => hc) hr (value_head h hr)
  rw [strncmp_iff, CallidHf.text, upToZero_append hnameZero,
    upToZero_append (zero_notMem_gap h.gapped), hprinted]
  rcases h.named with hn | hn
  · have hlen : h.name.length = (ascii "Call-ID").length := by
      rw [← length_map tolower, hn]
      rfl
    rw [agrees_memory_append hlen, hgap, List.map_id, List.map_id]
    rfl
  · -- a compact name differs in its first character
    constructor
    · intro hag
      obtain ⟨x, hx⟩ : ∃ x, h.name = [x] := by
        apply length_eq_one_iff.mp
        rw [← length_map tolower, hn]
        rfl
      have hcap : ascii "Call-ID" ++ (58 :: 32 :: r :: (rest ++ crlf)) =
          67 :: (ascii "all-ID" ++ (58 :: 32 :: r :: (rest ++ crlf))) := rfl
      rw [hx, hcap, cons_append, agrees_memory_cons] at hag
      obtain rfl : 67 = x := hag.1
      rw [hx] at hn
      exact absurd hn (by decide)
    · rintro ⟨hname, -⟩
      rw [hname] at hn
      exact absurd hn (by decide)

/-- The number is compared as far as the stored one goes. -/
theorem number_agrees (junk : ℕ → UInt8) (method : Bytes) (number : Bytes)
    (hnumber : ∀ c ∈ number, isLws c = false)
    (hzero : (0 : UInt8) ∉ cseq) :
    Agrees tolower (memory (cseq ++ 32 :: method) junk) (upToZero number) ↔
      number.map tolower <+: cseq.map tolower := by
  induction number generalizing cseq with
  | nil => exact ⟨fun _ => nil_prefix, fun _ => agrees_nil⟩
  | cons n number ih =>
    have hn : isLws n = false := hnumber n mem_cons_self
    have hrest := fun c hc => hnumber c (mem_cons_of_mem n hc)
    have hzeroSharp : Sharp tolower 0 := sharp_tolower (.inr (.inr rfl))
    cases cseq with
    | nil =>
      have hblank : Sharp tolower 32 := sharp_tolower (.inl rfl)
      constructor
      · intro hag
        have hhead : tolower n = tolower 32 := by
          rw [upToZero] at hag
          split at hag
          · rename_i hz
            rw [nil_append, agrees_memory_cons] at hag
            rw [hz, hag.1]
          · rw [nil_append, agrees_memory_cons] at hag
            exact hag.1.symm
        rw [hblank n hhead] at hn
        cases hn
      · intro hpre
        simp at hpre
    | cons m cseq =>
      have hm : m ≠ 0 := fun h => hzero (h ▸ mem_cons_self)
      have hzero' : (0 : UInt8) ∉ cseq :=
        fun h => hzero (mem_cons_of_mem m h)
      rw [cons_append, map_cons, map_cons, cons_prefix_cons, ← ih hrest hzero', upToZero]
      by_cases hz : n = 0
      · subst hz
        have hne : tolower m ≠ tolower 0 := fun h => hm (hzeroSharp m h)
        rw [if_pos rfl, agrees_memory_cons]
        exact ⟨fun h => absurd h.1 hne, fun h => absurd h.1.symm hne⟩
      · rw [if_neg hz, agrees_memory_cons]
        exact and_congr_left fun _ => eq_comm

/-- The printed CSeq header against a stored one. -/
theorem cseq_matches (h : CseqHf) (hcseq : IsNumber cseq) :
    strncmp tolower (memory (printCseqMini cseq (ascii "INVITE")) stack.cseq) h.text = true ↔
      h.gap = ascii ": " ∧ h.number.map tolower <+: cseq.map tolower := by
  obtain ⟨r, rest, rfl⟩ := exists_cons_of_ne_nil hcseq.nonempty
  have hr : isLws r = false := hcseq.token r mem_cons_self
  have hnameZero : (0 : UInt8) ∉ h.name :=
    zero_notMem_of_map h.named (by decide)
  have hlen : h.name.length = (ascii "CSeq").length := by
    rw [← length_map tolower, h.named]
    rfl
  have hname : h.name.map tolower = (ascii "CSeq").map tolower := by
    rw [h.named]
    rfl
  have hprinted : printCseqMini (r :: rest) (ascii "INVITE") = ascii "CSeq" ++
        (58 :: 32 :: r :: (rest ++ 32 :: ascii "INVITE")) := rfl
  have hhead : ¬ Agrees tolower (memory (32 :: r :: (rest ++ 32 :: ascii "INVITE")) stack.cseq)
      (upToZero h.number) := by
    obtain ⟨n, number, hn⟩ := exists_cons_of_ne_nil h.nonempty
    have hlws : isLws n = false := h.token n (hn ▸ mem_cons_self)
    intro hag
    have hblank : Sharp tolower 32 := sharp_tolower (.inl rfl)
    have hfirst : tolower n = tolower 32 := by
      rw [hn, upToZero] at hag
      split at hag
      · rename_i hz
        rw [agrees_memory_cons] at hag
        rw [hz, hag.1]
      · rw [agrees_memory_cons] at hag
        exact hag.1.symm
    rw [hblank n hfirst] at hlws
    cases hlws
  have hsharp : ∀ d, isLws d = true ∨ d = 58 → Sharp tolower d :=
    fun d hd => sharp_tolower (hd.imp_right Or.inl)
  have hgap := gap_agrees tolower stack.cseq _ h.gapped hsharp hr hhead
  have hnumber := number_agrees stack.cseq (ascii "INVITE") h.number h.token hcseq.noZero
  rw [strncmp_iff, CseqHf.text, upToZero_append hnameZero,
    upToZero_append (zero_notMem_gap h.gapped), hprinted,
    agrees_memory_append hlen, hgap, ← hnumber]
  exact ⟨fun h => h.2, fun h => ⟨hname, h⟩⟩

theorem matchesCell_iff (hcallid : IsCallid callid) (hcseq : IsNumber cseq) (c : Cell) :
    matchesCell stack callid cseq c = true ↔
      Written stack callid cseq c := by
  rw [matchesCell, Bool.and_eq_true, callid_matches c.callid hcallid, cseq_matches c.cseqN hcseq]
  exact ⟨fun h => ⟨h.1.1, h.1.2.1, h.1.2.2, h.2.1, h.2.2⟩,
    fun h => ⟨⟨h.name, h.gap, h.value⟩, h.cseqGap, h.number⟩⟩

/-! ## What is found -/

/-- The transaction looked for. -/
def Cell.Is (c : Cell) (callid cseq : Bytes) : Prop :=
  c.callid.body = callid ∧ c.cseqN.number = cseq

/-- An INVITE transaction with the Call-ID and the number is in the table. -/
def Table.HasInvite (tbl : Table) (callid cseq : Bytes) : Prop :=
  ∃ i, ∃ c ∈ tbl.entrys i, c.invite = true ∧ c.Is callid cseq

/-- Only such a transaction is returned, and such an INVITE when there is
one. -/
def Correct (tbl : Table) (callid cseq : Bytes) (result : Option (Option Cell)) : Prop :=
  ∃ found, result = some found ∧ (∀ c, found = some c → c.Is callid cseq) ∧
    (tbl.HasInvite callid cseq → ∃ c, found = some c ∧ c.invite = true)

/-- The cell is the first in its bucket that is written as printed. -/
def FirstWritten (tbl : Table) (stack : Stack) (callid cseq : Bytes) (c : Cell) : Prop :=
  ∃ before behind, tbl.entrys (Newtran.newHash2 callid cseq) = before ++ c :: behind ∧
      Written stack callid cseq c ∧
      ∀ d ∈ before, ¬ Written stack callid cseq d

theorem newHash2_lt (callid cseq : Bytes) : Newtran.newHash2 callid cseq < 2 ^ Newtran.tablePower :=
  Nat.mod_lt _ (by decide)

theorem find?_matches_iff (stack : Stack)
    (hcallid : IsCallid callid) (hcseq : IsNumber cseq) (tbl : Table)
    (c : Cell) :
    (tbl.entrys (Newtran.newHash2 callid cseq)).find? (matchesCell stack callid cseq) = some c ↔
      FirstWritten tbl stack callid cseq c := by
  rw [find?_eq_some_iff_append]
  constructor
  · rintro ⟨hc, before, behind, hsplit, hbefore⟩
    refine ⟨before, behind, hsplit, (matchesCell_iff hcallid hcseq c).mp hc, ?_⟩
    intro d hd hwritten
    have hfalse := hbefore d hd
    rw [(matchesCell_iff hcallid hcseq d).mpr hwritten] at hfalse
    cases hfalse
  · rintro ⟨before, behind, hsplit, hc, hbefore⟩
    refine ⟨(matchesCell_iff hcallid hcseq c).mpr hc, before, behind, hsplit, ?_⟩
    intro d hd
    have hd' := hbefore d hd
    rw [← matchesCell_iff hcallid hcseq d] at hd'
    simpa using hd'

theorem lws_of_all (h : s.all isLws = true) : ∀ c ∈ s, isLws c = true :=
  List.all_eq_true.mp h

theorem token_of_all (h : (s.all fun c => !isLws c) = true) : ∀ c ∈ s, isLws c = false := by
  intro c hc
  simpa using List.all_eq_true.mp h c hc

/-- `CSeq: 1` -/
def cseqOne : CseqHf where
  name := ascii "CSeq"
  gap := ascii ": "
  number := ascii "1"
  named := by decide
  gapped := ⟨[], [32], rfl, lws_of_all rfl, lws_of_all rfl⟩
  nonempty := by decide
  token := token_of_all rfl

theorem trimmed_abc : Trimmed (ascii "abc") where
  head := by
    rintro c ⟨⟩
    rfl
  last := by
    rintro c ⟨⟩
    rfl

/-- An INVITE with `Call-ID:abc` or `Call-ID: abc`. -/
def inviteAbc (blank : Bool) : Cell where
  callid := {
    name := ascii "Call-ID"
    gap := if blank then ascii ": " else ascii ":"
    body := ascii "abc"
    tail := crlf
    named := .inl rfl
    gapped := by
      cases blank
      · exact ⟨[], [], rfl, lws_of_all rfl, lws_of_all rfl⟩
      · exact ⟨[], [32], rfl, lws_of_all rfl, lws_of_all rfl⟩
    trimmed := trimmed_abc
    white := lws_of_all rfl
    ended := by decide }
  cseqN := cseqOne
  invite := true

/-- The cell alone in its bucket. -/
def Table.single (c : Cell) : Table where
  entrys := fun i =>
    if i = Newtran.newHash2 c.callid.body c.cseqN.number then [c] else []
  placed := by
    intro i d hd
    split at hd
    · rename_i hi
      rw [List.mem_singleton.mp hd]
      exact hi
    · cases hd

theorem Table.single_bucket (c : Cell) : (single c).entrys
      (Newtran.newHash2 c.callid.body c.cseqN.number) = [c] := by
  simp only [single, if_pos]

theorem isCallid_abc : IsCallid (ascii "abc") :=
  ⟨by decide, trimmed_abc, by decide, by decide⟩

theorem isNumber_one : IsNumber (ascii "1") :=
  ⟨by decide, token_of_all rfl, by decide⟩

def clean : Stack where
  callid := fun _ => 0
  cseq := fun _ => 0

end Msicp.Tm.LookupCallid
