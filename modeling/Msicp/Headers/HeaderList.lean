import Msicp.Headers.ParseHeaders
import Msicp.Support.LinkChain
import Mathlib.Data.List.Find

/-!
# The list of header fields

What holds of the list, of the pointers into it and of the flags after any
calls.
-/

namespace Msicp.Headers

open Msicp.Support List Function
open Option hiding or_assoc

/-- The header fields from one offset to another, one behind the other. -/
def Fields (m : Message) : ℕ → List HdrField → ℕ → Prop
  | p, [], stop => p = stop
  | p, f :: l, stop => getHdrField m p = .field f ∧ Fields m f.stop l stop

theorem fields_append {m : Message} {p stop : ℕ} {l l' : List HdrField} :
    Fields m p (l ++ l') stop ↔ ∃ q, Fields m p l q ∧ Fields m q l' stop := by
  induction l generalizing p with
  | nil => simp [Fields]
  | cons f l ih =>
    simp only [cons_append, Fields, ih]
    constructor
    · rintro ⟨hf, q, hl, hl'⟩
      exact ⟨q, ⟨hf, hl⟩, hl'⟩
    · rintro ⟨q, ⟨hf, hl⟩, hl'⟩
      exact ⟨hf, q, hl, hl'⟩

/-- The Via bodies of the header fields, in order. -/
def viaBodies (hdr : Addr → HdrField) (l : List Addr) : List (Addr × ℕ) :=
  l.flatMap fun a =>
    if (hdr a).type = .via then (List.range (hdr a).vias).map fun n => (a, n)
    else []

/-- What a flag stands for is there: the end of the headers, which stands for
everything, a header field of the type, or a second Via. -/
def Present (s : SipMsg) (l : List Addr) (i : ℕ) : Prop :=
  s.eoh ≠ none ∨ (∃ a ∈ l, (s.hdr a).type ≠ .other ∧ (s.hdr a).type.bit = i) ∨
    i = via2Bit ∧ s.via2 ≠ none

/-- The list has the header fields up to the offset `stop`, each once and in
order, the pointers lead to the first of each type, and a flag stands for
something that is there. -/
structure Lists (m : Message) (l : List Addr) (stop : ℕ) (s : SipMsg) :
    Prop where
  chain : LinkChain s.next s.headers l
  last : s.lastHeader = l.getLast?
  old : ∀ a ∈ l, a < s.brk
  fields : Fields m m.start (l.map s.hdr) stop
  hook : ∀ t, t ≠ .via → t ≠ .other →
    s.hook t = l.find? fun a => (s.hdr a).type = t
  via1 : s.via1 = (viaBodies s.hdr l)[0]?
  via2 : s.via2 = (viaBodies s.hdr l)[1]?
  flag : ∀ i < 32, s.parsedFlag.getLsbD i = true → Present s l i

/-- What is there has its flag, but for some that are excused. -/
def Flagged (excused : ℕ → Prop) (s : SipMsg) (l : List Addr) : Prop :=
  ∀ i < 32, Present s l i → s.parsedFlag.getLsbD i = true ∨ excused i

/-! ## One more header field -/

variable {m : Message} {l : List Addr} {stop : ℕ} {s : SipMsg} {f : HdrField}

variable {i mem : ℕ} {s' : SipMsg} {flags : BitVec 32} {ok : Bool}

theorem getLsbD_or_twoPow (flags : BitVec 32) {k : ℕ} (hi : i < 32) :
    (flags ||| BitVec.twoPow 32 k).getLsbD i = true ↔ flags.getLsbD i = true ∨ i = k := by
  rw [BitVec.getLsbD_or, Bool.or_eq_true, BitVec.getLsbD_twoPow]
  simp only [Bool.and_eq_true, decide_eq_true_eq]
  constructor
  · rintro (h | ⟨-, rfl⟩)
    · exact .inl h
    · exact .inr rfl
  · rintro (h | rfl)
    · exact .inl h
    · exact .inr ⟨hi, rfl⟩

theorem note_rest (s : SipMsg) (hf : Addr) (f : HdrField) :
    s.note hf f = { s with
      parsedFlag := (s.note hf f).parsedFlag
      via1 := (s.note hf f).via1
      via2 := (s.note hf f).via2
      hVia1 := (s.note hf f).hVia1
      hVia2 := (s.note hf f).hVia2
      hook := (s.note hf f).hook } := by
  unfold SipMsg.note SipMsg.noteVia
  dsimp only
  split
  · rfl
  · repeat' split
    all_goals rfl
  · rfl

theorem append_rest (s : SipMsg) (hf : Addr) :
    s.append hf = { s with
      headers := (s.append hf).headers
      lastHeader := some hf
      next := (s.append hf).next } := by
  unfold SipMsg.append
  split <;> rfl

theorem add_hdr (s : SipMsg) (f : HdrField) : (s.add f).hdr = Function.update s.hdr s.brk f ∧
      (s.add f).brk = s.brk + 1 ∧ (s.add f).eoh = s.eoh ∧
      (s.add f).unparsed = s.unparsed ∧ (s.add f).lastHeader = some s.brk := by
  unfold SipMsg.add
  rw [append_rest, note_rest]
  exact ⟨rfl, rfl, rfl, rfl, rfl⟩

theorem add_note (s : SipMsg) (f : HdrField) : (s.add f).parsedFlag = (s.note s.brk f).parsedFlag ∧
      (s.add f).via1 = (s.note s.brk f).via1 ∧
      (s.add f).via2 = (s.note s.brk f).via2 ∧
      (s.add f).hook = (s.note s.brk f).hook := by
  unfold SipMsg.add
  rw [append_rest]
  unfold SipMsg.note SipMsg.noteVia SipMsg.alloc
  dsimp only
  split
  · exact ⟨rfl, rfl, rfl, rfl⟩
  · repeat' split
    all_goals exact ⟨rfl, rfl, rfl, rfl⟩
  · exact ⟨rfl, rfl, rfl, rfl⟩

theorem add_chain (h : Lists m l stop s) :
    LinkChain (s.add f).next (s.add f).headers (l ++ [s.brk]) := by
  have hnew : s.brk ∉ l ++ [] := by
    rw [append_nil]
    exact fun hmem => Nat.lt_irrefl _ (h.old _ hmem)
  have hholds : Links.Holds ⟨s.headers, s.next⟩ (l ++ []) := by
    rw [append_nil]
    exact h.chain
  have hinsert := Links.holds_insert hholds hnew
  rw [Links.get_getLast? hholds, ← h.last] at hinsert
  unfold SipMsg.add
  rw [note_rest]
  unfold SipMsg.append SipMsg.alloc
  dsimp only
  cases hlast : s.lastHeader with
  | none =>
    rw [hlast] at hinsert
    exact hinsert
  | some last =>
    rw [hlast] at hinsert
    exact hinsert

theorem viaBodies_append (hdr : Addr → HdrField) (l l' : List Addr) :
    viaBodies hdr (l ++ l') = viaBodies hdr l ++ viaBodies hdr l' :=
  flatMap_append

theorem viaBodies_congr {hdr hdr' : Addr → HdrField} {l : List Addr}
    (h : ∀ a ∈ l, hdr' a = hdr a) : viaBodies hdr' l = viaBodies hdr l := by
  unfold viaBodies
  refine flatMap_congr fun a ha => ?_
  rw [h a ha]

theorem note_via {bodies : List (Addr × ℕ)} (h₁ : s.via1 = bodies[0]?)
    (h₂ : s.via2 = bodies[1]?) (hf : Addr) (htype : f.type = .via)
    (hvias : 0 < f.vias) :
    (s.note hf f).via1 = (bodies ++ (List.range f.vias).map fun n => (hf, n))[0]? ∧
      (s.note hf f).via2 = (bodies ++ (List.range f.vias).map fun n => (hf, n))[1]? ∧
      (s.note hf f).hook = s.hook := by
  unfold SipMsg.note
  rw [htype]
  unfold SipMsg.noteVia
  dsimp only
  match bodies with
  | [] =>
    have hfirst : s.via1 = none := h₁
    have hsecond : s.via2 = none := h₂
    rw [if_pos hfirst]
    split
    · rename_i hmore
      simp [hvias, hmore]
    · rename_i hone
      simp [hvias, hsecond, Nat.not_lt.mp hone]
  | [x] =>
    have hfirst : s.via1 ≠ none := by simp [h₁]
    have hsecond : s.via2 = none := h₂
    rw [if_neg hfirst, if_pos hsecond]
    simp [h₁, hvias]
  | x :: y :: bodies =>
    have hfirst : s.via1 ≠ none := by simp [h₁]
    have hsecond : s.via2 ≠ none := by simp [h₂]
    rw [if_neg hfirst, if_neg hsecond]
    exact ⟨h₁, h₂, rfl⟩

/-- What noting any other field does to the pointers. -/
theorem note_hook (s : SipMsg) (hf : Addr) (h : f.type ≠ .via) :
    (s.note hf f).via1 = s.via1 ∧ (s.note hf f).via2 = s.via2 ∧
      ∀ t, t ≠ .other → (s.note hf f).hook t =
        if t = f.type ∧ s.hook t = none then some hf else s.hook t := by
  unfold SipMsg.note
  split
  · rename_i hother
    refine ⟨rfl, rfl, fun t ht => ?_⟩
    rw [if_neg (by rintro ⟨rfl, -⟩; exact ht hother)]
  · rename_i hvia
    exact absurd hvia h
  · refine ⟨rfl, rfl, fun t _ => ?_⟩
    dsimp only
    by_cases ht : t = f.type
    · subst ht
      by_cases hnone : s.hook f.type = none <;> simp [hnone]
    · by_cases hnone : s.hook f.type = none <;> simp [hnone, ht]

theorem note_flag (hf : Addr) (hvias : s.via1 = none → s.via2 = none) (hi : i < 32) :
    (s.note hf f).parsedFlag.getLsbD i = true ↔
      s.parsedFlag.getLsbD i = true ∨ (f.type ≠ .other ∧ i = f.type.bit) ∨
      (i = via2Bit ∧ s.via2 = none ∧ (s.note hf f).via2 ≠ none) := by
  unfold SipMsg.note
  split
  · rename_i hother
    simp only [hother]
    tauto
  · rename_i hvia
    unfold SipMsg.noteVia
    dsimp only
    have hbit : HdrType.via.flag = BitVec.twoPow 32 f.type.bit := by rw [hvia]; rfl
    have hne : f.type ≠ .other := by simp [hvia]
    split
    · rename_i hfirst
      have hsecond := hvias hfirst
      split
      · simp only [flagVia2, hbit, getLsbD_or_twoPow _ hi, hsecond]
        simp [hne]
        tauto
      · simp only [hbit, getLsbD_or_twoPow _ hi, hsecond]
        simp [hne]
    · split
      · rename_i hsecond
        simp only [flagVia2, hbit, getLsbD_or_twoPow _ hi, hsecond]
        simp [hne]
        tauto
      · rename_i hsecond
        simp only [hbit, getLsbD_or_twoPow _ hi]
        tauto
  · rename_i hother hvia
    simp only [HdrType.flag, getLsbD_or_twoPow _ hi]
    tauto

section

variable (h : Lists m l stop s)
include h

theorem Lists.hdr_eq (f : HdrField) : ∀ a ∈ l, (s.add f).hdr a = s.hdr a := by
  intro a ha
  rw [(add_hdr s f).1, update_of_ne (h.old a ha).ne]

theorem Lists.via1_none (hnone : s.via1 = none) : s.via2 = none := by
  have h1 := h.via1
  have h2 := h.via2
  rw [hnone] at h1
  rw [h2, List.getElem?_eq_none_iff]
  have hlen := List.getElem?_eq_none_iff.mp h1.symm
  omega

/-- The two pointers lead to the first two Via bodies. -/
theorem Lists.add_via (hvias : f.type = .via → 0 < f.vias) :
    (s.add f).via1 = (viaBodies (s.add f).hdr (l ++ [s.brk]))[0]? ∧
      (s.add f).via2 = (viaBodies (s.add f).hdr (l ++ [s.brk]))[1]? := by
  obtain ⟨-, hvia1, hvia2, -⟩ := add_note s f
  have hnew : (s.add f).hdr s.brk = f := by
    rw [(add_hdr s f).1, update_self]
  rw [viaBodies_append, viaBodies_congr (h.hdr_eq f), hvia1, hvia2]
  by_cases htype : f.type = .via
  · obtain ⟨h1, h2, -⟩ := note_via h.via1 h.via2 s.brk htype (hvias htype)
    have hbodies : viaBodies (s.add f).hdr [s.brk] =
        (List.range f.vias).map fun n => (s.brk, n) := by
      simp [viaBodies, hnew, htype]
    rw [hbodies]
    exact ⟨h1, h2⟩
  · obtain ⟨h1, h2, -⟩ := note_hook s s.brk htype
    have hbodies : viaBodies (s.add f).hdr [s.brk] = [] := by
      simp [viaBodies, hnew, htype]
    rw [hbodies, append_nil, h1, h2]
    exact ⟨h.via1, h.via2⟩

theorem Lists.via2_add (hvias : f.type = .via → 0 < f.vias) (hsome : s.via2 ≠ none) :
    (s.add f).via2 ≠ none := by
  rw [(h.add_via hvias).2, viaBodies_append, viaBodies_congr (h.hdr_eq f)]
  rw [h.via2] at hsome
  have hlen : 1 < (viaBodies s.hdr l).length := by
    by_contra hle
    exact hsome (List.getElem?_eq_none_iff.mpr (by omega))
  rwa [getElem?_append_left hlen]

/-- What is there stays there, and one more field may be. -/
theorem Lists.present_add (hvias : f.type = .via → 0 < f.vias) :
    Present (s.add f) (l ++ [s.brk]) i ↔ Present s l i ∨ (f.type ≠ .other ∧ i = f.type.bit) ∨
      (i = via2Bit ∧ s.via2 = none ∧ (s.add f).via2 ≠ none) := by
  have hold := h.hdr_eq f
  have hnew : (s.add f).hdr s.brk = f := by
    rw [(add_hdr s f).1, update_self]
  have heoh := (add_hdr s f).2.2.1
  have hmem : (∃ a ∈ l ++ [s.brk], ((s.add f).hdr a).type ≠ .other ∧
      ((s.add f).hdr a).type.bit = i) ↔
      (∃ a ∈ l, (s.hdr a).type ≠ .other ∧ (s.hdr a).type.bit = i) ∨
        (f.type ≠ .other ∧ i = f.type.bit) := by
    constructor
    · rintro ⟨a, ha, hne, hbit⟩
      rcases mem_append.mp ha with ha | ha
      · rw [hold a ha] at hne hbit
        exact .inl ⟨a, ha, hne, hbit⟩
      · rw [mem_singleton.mp ha, hnew] at hne hbit
        exact .inr ⟨hne, hbit.symm⟩
    · rintro (⟨a, ha, hne, hbit⟩ | ⟨hne, hbit⟩)
      · rw [← hold a ha] at hne hbit
        exact ⟨a, mem_append_left _ ha, hne, hbit⟩
      · exact ⟨s.brk, by simp, by rwa [hnew], by rw [hnew, hbit]⟩
  have hvia : (i = via2Bit ∧ (s.add f).via2 ≠ none) ↔ (i = via2Bit ∧ s.via2 ≠ none) ∨
        (i = via2Bit ∧ s.via2 = none ∧ (s.add f).via2 ≠ none) := by
    have hkeep := h.via2_add hvias
    by_cases hnone : s.via2 = none
    · simp [hnone]
    · simp [hnone, hkeep hnone]
  unfold Present
  rw [hmem, heoh, hvia, or_or_or_comm, ← or_assoc]

end

theorem Lists.add (h : Lists m l stop s) (hfield : getHdrField m stop = .field f) :
    Lists m (l ++ [s.brk]) f.stop (s.add f) := by
  obtain ⟨hhdr, hbrk, -, -, hlast⟩ := add_hdr s f
  obtain ⟨hflag, hvia1, hvia2, hhook⟩ := add_note s f
  obtain ⟨-, -, hvias⟩ := getHdrField_field hfield
  have hold := h.hdr_eq f
  have hnew : (s.add f).hdr s.brk = f := by rw [hhdr, update_self]
  refine ⟨add_chain h, by rw [hlast]; simp, fun a ha => ?_, ?_, fun t hv ho => ?_,
    (h.add_via hvias).1, (h.add_via hvias).2, fun i hi hset => ?_⟩
  · rw [hbrk]
    rcases mem_append.mp ha with ha | ha
    · exact (h.old a ha).trans (Nat.lt_succ_self _)
    · rw [mem_singleton.mp ha]
      exact Nat.lt_succ_self _
  · rw [map_append, map_congr_left hold]
    refine fields_append.mpr ⟨stop, h.fields, ?_⟩
    rw [map_singleton, hnew]
    exact ⟨hfield, rfl⟩
  · have hfind : (l.find? fun a => ((s.add f).hdr a).type = t) = s.hook t := by
      rw [h.hook t hv ho]
      exact find?_congr fun a ha => by rw [hold a ha]
    rw [find?_append, hfind, hhook]
    by_cases htype : f.type = .via
    · obtain ⟨-, -, hsame⟩ := note_via h.via1 h.via2 s.brk htype (hvias htype)
      have hne : f.type ≠ t := fun heq => hv (heq.symm.trans htype)
      simp [hsame, hnew, hne]
    · obtain ⟨-, -, hnote⟩ := note_hook s s.brk htype
      rw [hnote t ho]
      by_cases ht : t = f.type
      · cases hs : s.hook t <;> simp [ht, hnew]
      · have hne : f.type ≠ t := fun heq => ht heq.symm
        simp [ht, hnew, hne]
  · rw [h.present_add hvias, hvia2]
    rw [hflag] at hset
    refine ((note_flag s.brk h.via1_none hi).mp hset).imp_left ?_
    exact h.flag i hi

theorem Flagged.add {excused : ℕ → Prop} (hflagged : Flagged excused s l)
    (h : Lists m l stop s) (hfield : getHdrField m stop = .field f) :
    Flagged excused (s.add f) (l ++ [s.brk]) := by
  obtain ⟨hflag, -, hvia2, -⟩ := add_note s f
  obtain ⟨-, -, hvias⟩ := getHdrField_field hfield
  intro i hi hpresent
  rw [h.present_add hvias, hvia2] at hpresent
  rw [hflag, note_flag s.brk h.via1_none hi]
  rcases hpresent with hpresent | hnew
  · exact (hflagged i hi hpresent).imp_left .inl
  · exact .inl (.inr hnew)

/-! ## One call -/

theorem Lists.congr (h : Lists m l stop s)
    (hlist : s'.headers = s.headers ∧ s'.lastHeader = s.lastHeader ∧
      s'.hdr = s.hdr ∧ s'.next = s.next ∧ s'.brk = s.brk)
    (hptr : s'.via1 = s.via1 ∧ s'.via2 = s.via2 ∧ s'.hook = s.hook)
    (hflag : ∀ i < 32, s'.parsedFlag.getLsbD i = true → Present s' l i) :
    Lists m l stop s' := by
  obtain ⟨hheaders, hlast, hhdr, hnext, hbrk⟩ := hlist
  obtain ⟨hvia1, hvia2, hhook⟩ := hptr
  exact ⟨by rw [hheaders, hnext]; exact h.chain, hlast.trans h.last,
    by rw [hbrk]; exact h.old, by rw [hhdr]; exact h.fields,
    by rw [hhdr, hhook]; exact h.hook, by rw [hhdr, hvia1]; exact h.via1,
    by rw [hhdr, hvia2]; exact h.via2, hflag⟩

theorem flags_set {set : BitVec 32} (h : flags &&& set = flags)
    (hi : flags.getLsbD i = true) : set.getLsbD i = true := by
  have hbit := congrArg (fun x : BitVec 32 => x.getLsbD i) h
  simp only [BitVec.getLsbD_and, hi, Bool.true_and] at hbit
  exact hbit

/-- What the loop keeps, and where it stops: where there is an error nothing is
taken note of how far it has come. -/
def Goes (m : Message) (flags : BitVec 32) (excused : ℕ → Prop) (s : SipMsg)
    (l : List Addr) (tmp : ℕ) (ok : Bool) (s' : SipMsg) : Prop :=
  ∃ l' stop, Lists m l' stop s' ∧ Flagged excused s' l' ∧ (∀ i, Present s l i → Present s' l' i) ∧
    (ok = true → s'.unparsed = stop ∧
      ((∀ i < 32, flags.getLsbD i = true → s'.parsedFlag.getLsbD i = true) ∨ m.buf.length ≤ stop)) ∧
    (ok = false → s'.unparsed = s.unparsed ∧ tmp < m.buf.length)

theorem parseHeadersLoop_goes {excused : ℕ → Prop}
    {fuel tmp : ℕ} (h : Lists m l tmp s)
    (hflagged : Flagged excused s l)
    (hloop : parseHeadersLoop m flags fuel mem tmp s = some (ok, s')) :
    Goes m flags excused s l tmp ok s' := by
  induction fuel generalizing mem tmp s l with
  | zero => cases hloop
  | succ fuel ih =>
    unfold parseHeadersLoop at hloop
    by_cases hstop : m.buf.length ≤ tmp ∨ flags &&& s.parsedFlag = flags
    · rw [if_pos hstop] at hloop
      obtain ⟨rfl, rfl⟩ := Prod.mk.inj (some.inj hloop)
      refine ⟨l, tmp, ?_, hflagged, fun i hi => hi, fun _ => ⟨rfl, ?_⟩, ?_⟩
      · exact h.congr ⟨rfl, rfl, rfl, rfl, rfl⟩ ⟨rfl, rfl, rfl⟩ h.flag
      · rcases hstop with hend | hset
        · exact .inr hend
        · exact .inl fun i _ hi => flags_set hset hi
      · rintro ⟨⟩
    rw [if_neg hstop] at hloop
    have hmore : tmp < m.buf.length := by
      by_contra hle
      exact hstop (.inl (Nat.not_lt.mp hle))
    have hfails : Goes m flags excused s l tmp false s :=
      ⟨l, tmp, h, hflagged, fun i hi => hi, by rintro ⟨⟩, fun _ => ⟨rfl, hmore⟩⟩
    cases mem with
    | zero =>
      obtain ⟨rfl, rfl⟩ := Prod.mk.inj (some.inj hloop)
      exact hfails
    | succ mem =>
      dsimp only at hloop
      cases hfound : getHdrField m tmp with
      | error =>
        rw [hfound] at hloop
        obtain ⟨rfl, rfl⟩ := Prod.mk.inj (some.inj hloop)
        exact hfails
      | eoh =>
        rw [hfound] at hloop
        obtain ⟨rfl, rfl⟩ := Prod.mk.inj (some.inj hloop)
        have hall : ∀ i < 32, (s.parsedFlag ||| flagEoh).getLsbD i = true := by
          intro i hi
          rw [BitVec.getLsbD_or, flagEoh, BitVec.getLsbD_allOnes]
          simp [hi]
        have heoh : some tmp ≠ none := some_ne_none tmp
        refine ⟨l, tmp, ?_, fun i hi _ => .inl (hall i hi), fun i _ => .inl heoh,
          fun _ => ⟨rfl, .inl fun i hi _ => hall i hi⟩, by rintro ⟨⟩⟩
        exact h.congr ⟨rfl, rfl, rfl, rfl, rfl⟩ ⟨rfl, rfl, rfl⟩ fun i _ _ => .inl heoh
      | field f =>
        rw [hfound] at hloop
        obtain ⟨-, -, hvias⟩ := getHdrField_field hfound
        obtain ⟨l', stop, hlists, hflags, hkeep, htrue, hfalse⟩ :=
          ih (h.add hfound) (hflagged.add h hfound) hloop
        refine ⟨l', stop, hlists, hflags, fun i hi => ?_, htrue, fun hok => ?_⟩
        · exact hkeep i ((h.present_add hvias).mpr (.inl hi))
        · exact ⟨(hfalse hok).1.trans (add_hdr s f).2.2.2.1, hmore⟩

/-- The list is right, and the flags are, but for a buffer that is read to its
end with no empty line in it. -/
def Sound (m : Message) (s : SipMsg) : Prop :=
  ∃ l stop, Lists m l stop s ∧ (s.unparsed < m.buf.length → Flagged (fun _ => False) s l)

/-- The offset behind the last header field of the list. -/
def SipMsg.behind (m : Message) (s : SipMsg) : ℕ :=
  match s.lastHeader with
  | none => m.start
  | some a => (s.hdr a).stop

theorem Fields.stop_eq {p : ℕ} {l : List HdrField} (h : Fields m p l stop) :
    stop = (l.getLast?.map HdrField.stop).getD p := by
  induction l generalizing p with
  | nil => exact h.symm
  | cons f l ih =>
    rw [ih h.2]
    cases l with
    | nil => rfl
    | cons f' l => simp [getLast?_cons]

theorem Lists.behind_eq (h : Lists m l stop s) : s.behind m = stop := by
  rw [h.fields.stop_eq, getLast?_map, ← h.last]
  unfold SipMsg.behind
  cases s.lastHeader <;> rfl

theorem Lists.clear (h : Lists m l stop s) (flags : BitVec 32) :
    Lists m l stop { s with parsedFlag := s.parsedFlag &&& flags } := by
  refine h.congr ⟨rfl, rfl, rfl, rfl, rfl⟩ ⟨rfl, rfl, rfl⟩ fun i hi hset => ?_
  rw [BitVec.getLsbD_and, Bool.and_eq_true] at hset
  exact h.flag i hi hset.1

/-- Where there is nothing left to read a call reads nothing. -/
theorem Lists.parseHeaders_end (h : Lists m l stop s)
    (hend : m.buf.length ≤ s.unparsed) {next : Bool}
    (hcall : parseHeaders m flags next mem s = some (ok, s')) : Sound m s' := by
  unfold parseHeaders at hcall
  cases next with
  | false =>
    simp only [Bool.false_eq_true, ↓reduceIte] at hcall
    unfold parseHeadersLoop at hcall
    rw [if_pos (.inl hend)] at hcall
    obtain ⟨-, rfl⟩ := Prod.mk.inj (some.inj hcall)
    exact ⟨l, stop, h, fun hlt => absurd hlt (Nat.not_lt.mpr hend)⟩
  | true =>
    simp only [↓reduceIte] at hcall
    unfold parseHeadersLoop at hcall
    rw [if_pos (.inl hend)] at hcall
    obtain ⟨-, rfl⟩ := Prod.mk.inj (some.inj hcall)
    exact ⟨l, stop, h.clear _, fun hlt => absurd hlt (Nat.not_lt.mpr hend)⟩

theorem Lists.parseHeaders_first (h : Lists m l s.unparsed s)
    (hflagged : Flagged (fun _ => False) s l)
    (hcall : parseHeaders m flags false mem s = some (ok, s')) :
    Sound m s' := by
  unfold parseHeaders at hcall
  simp only [Bool.false_eq_true, ↓reduceIte] at hcall
  cases hloop : parseHeadersLoop m flags (m.buf.length - s.unparsed + 1) mem
      s.unparsed s with
  | none =>
    rw [hloop] at hcall
    cases hcall
  | some res =>
    obtain ⟨ok', s''⟩ := res
    obtain ⟨l', stop', hlists, hflags, -, -, -⟩ :=
      parseHeadersLoop_goes h hflagged hloop
    have hresult : s' = s'' := by
      rw [hloop] at hcall
      cases ok' <;> exact (Prod.mk.inj (some.inj hcall)).2.symm
    rw [hresult]
    exact ⟨l', stop', hlists, fun _ => hflags⟩

/-- A call that clears flags sets them again: each where the field is found, or
all of them where there is an error. -/
theorem Lists.parseHeaders_next (h : Lists m l s.unparsed s)
    (hflagged : Flagged (fun _ => False) s l)
    (hcall : parseHeaders m flags true mem s = some (ok, s')) :
    Sound m s' := by
  unfold parseHeaders at hcall
  simp only [↓reduceIte] at hcall
  generalize hclear : ({ s with parsedFlag := s.parsedFlag &&& ~~~flags } :
    SipMsg) = cleared at hcall
  have hlists : Lists m l s.unparsed cleared := by
    rw [← hclear]
    exact h.clear _
  -- what is cleared is excused until the call returns
  have hexcused : Flagged (fun i => s.parsedFlag.getLsbD i = true ∧ flags.getLsbD i = true)
      cleared l := by
    rw [← hclear]
    intro i hi hpresent
    have hset := (hflagged i hi hpresent).resolve_right id
    by_cases hflag : flags.getLsbD i = true
    · exact .inr ⟨hset, hflag⟩
    · left
      dsimp only
      rw [BitVec.getLsbD_and, BitVec.getLsbD_not, hset, Bool.eq_false_of_not_eq_true hflag]
      simp [hi]
  have hpresent : ∀ i, Present s l i → Present cleared l i := by
    rw [← hclear]
    exact fun i hi => hi
  cases hloop : parseHeadersLoop m flags
      (m.buf.length - s.unparsed + 1) mem s.unparsed cleared with
  | none =>
    rw [hloop] at hcall
    cases hcall
  | some res =>
    obtain ⟨ok', s''⟩ := res
    obtain ⟨l', stop', hlists', hflags, hkeep, htrue, -⟩ :=
      parseHeadersLoop_goes hlists hexcused hloop
    rw [hloop] at hcall
    cases ok' with
    | true =>
      obtain ⟨-, rfl⟩ := Prod.mk.inj (some.inj hcall)
      obtain ⟨hunparsed, hstop⟩ := htrue rfl
      refine ⟨l', stop', hlists', fun hlt i hi hthere => .inl ?_⟩
      rw [hunparsed] at hlt
      rcases hflags i hi hthere with hset | hcleared
      · exact hset
      · exact (hstop.resolve_right (Nat.not_le.mpr hlt)) i hi hcleared.2
    | false =>
      obtain ⟨-, rfl⟩ := Prod.mk.inj (some.inj hcall)
      refine ⟨l', stop', ?_, fun _ i hi hthere => .inl ?_⟩
      · refine hlists'.congr ⟨rfl, rfl, rfl, rfl, rfl⟩ ⟨rfl, rfl, rfl⟩ fun i hi hset => ?_
        rw [BitVec.getLsbD_or, Bool.or_eq_true] at hset
        rcases hset with hset | hset
        · exact hlists'.flag i hi hset
        · exact hkeep i (hpresent i (h.flag i hi hset))
      · dsimp only
        rw [BitVec.getLsbD_or, Bool.or_eq_true]
        exact (hflags i hi hthere).imp id And.left

theorem Sound.parseHeaders (h : Sound m s) (hbehind : s.unparsed = s.behind m)
    {next : Bool}
    (hcall : parseHeaders m flags next mem s = some (ok, s')) : Sound m s' := by
  obtain ⟨l, stop, hlists, hflagged⟩ := h
  by_cases hend : m.buf.length ≤ s.unparsed
  · exact hlists.parseHeaders_end hend hcall
  · rw [← hlists.behind_eq, ← hbehind] at hlists
    have hflags := hflagged (Nat.not_le.mp hend)
    cases next with
    | false => exact hlists.parseHeaders_first hflags hcall
    | true => exact hlists.parseHeaders_next hflags hcall

/-- No call is made after one that has failed with header fields already in the
list: the list is right, and the flags stand for what is there. -/
theorem headers_sound (m : Message)
    (h : (calls m).ReachWhen (fun _ s => s.unparsed = s.behind m) s) :
    Sound m s := by
  refine h.invariant (Sound m) (fun s hinit => ?_) fun call s s' hs hok hstep => ?_
  · obtain ⟨hheaders, hlast, hflag, hvia1, hvia2, -, -, hhook, heoh, -⟩ := hinit
    have hnothing : ∀ i, ¬ Present s [] i := by
      rintro i (hset | ⟨a, ha, -⟩ | ⟨-, hset⟩)
      · exact hset heoh
      · cases ha
      · exact hset hvia2
    refine ⟨[], m.start, ⟨hheaders, hlast, fun a ha => ?_, rfl,
      fun t _ _ => hhook t, hvia1, hvia2, fun i _ hset => ?_⟩,
      fun _ i _ hpresent => absurd hpresent (hnothing i)⟩
    · cases ha
    · rw [hflag] at hset
      cases hset.symm.trans BitVec.getLsbD_zero
  · cases call with
    | parseHeaders flags next mem =>
      obtain ⟨⟨ok, u⟩, hcall, rfl⟩ := map_eq_some_iff.mp hstep
      exact hs.parseHeaders hok hcall
    | checkTransactionQuadruple mem =>
      obtain ⟨⟨ok, u⟩, hcall, rfl⟩ := map_eq_some_iff.mp hstep
      unfold checkTransactionQuadruple at hcall
      split at hcall
      · cases hcall
      · rename_i ok' u' hparse
        obtain ⟨-, rfl⟩ := Prod.mk.inj (some.inj hcall)
        exact hs.parseHeaders hok hparse

/-- The names of From and Contact in their compact forms. -/
def compactName (buf : Bytes) (p : ℕ) : Option (HdrType × ℕ × ℕ) :=
  if buf[p + 1]? = some 58 then
    if buf[p]? = some 102 then some (.fromHf, 1, p + 2)
    else if buf[p]? = some 109 then some (.contact, 1, p + 2)
    else none
  else none

theorem compactName_lt {buf : Bytes} {p n q : ℕ} {t : HdrType}
    (h : compactName buf p = some (t, n, q)) : p < q := by
  unfold compactName at h
  split at h
  · split at h
    · cases h
      omega
    · split at h
      · cases h
        omega
      · cases h
  · cases h

/-- A message with nothing but these in it. -/
def compactMsg (buf : Bytes) : Message where
  buf := buf
  start := 0
  parseHname := compactName buf
  parseVia _ := none
  parseCseq _ := none
  parseTo _ := none
  parseContentLength _ := none
  parseHname_lt := compactName_lt
  parseVia_pos h := by cases h
  parseVia_le h := by cases h
  parseCseq_le h := by cases h
  parseTo_le h := by cases h
  parseContentLength_le h := by cases h

/-- What `parse_msg` has before its first call. -/
def unread : SipMsg where
  headers := none
  lastHeader := none
  hdr _ := ⟨.other, ⟨0, 0⟩, ⟨0, 0⟩, 0, 0⟩
  next _ := none
  parsedFlag := 0
  via1 := none
  via2 := none
  hVia1 := none
  hVia2 := none
  hook _ := none
  unparsed := 0
  eoh := none
  brk := 0

theorem unread_init (buf : Bytes) : (calls (compactMsg buf)).init unread :=
  ⟨rfl, rfl, rfl, rfl, rfl, rfl, rfl, fun _ => rfl, rfl, rfl⟩

/-- Two header fields, read by two calls. -/
def twoFields : Message := compactMsg (ascii "f: a\nm: b\n\n")

theorem headers_sound_twoFields : ((calls twoFields).run unread
      [.parseHeaders HdrType.fromHf.flag false 5,
        .parseHeaders HdrType.contact.flag true 5]).elim False
      (Sound twoFields) := by
  have hlast : ((calls twoFields).run unread [.parseHeaders HdrType.fromHf.flag false 5]).any
      fun s => s.unparsed = s.behind twoFields := by
    decide
  have hstart : (calls twoFields).Admits (fun _ s => s.unparsed = s.behind twoFields) unread
      [.parseHeaders HdrType.fromHf.flag false 5, .parseHeaders HdrType.contact.flag true 5] := by
    refine ⟨rfl, fun s hs => ⟨?_, fun _ _ => trivial⟩⟩
    have hrun : (calls twoFields).run unread
        [.parseHeaders HdrType.fromHf.flag false 5] = some s := by
      unfold Machine.run
      rw [hs]
      rfl
    rw [hrun] at hlast
    exact of_decide_eq_true hlast
  have hsome : ((calls twoFields).run unread [.parseHeaders HdrType.fromHf.flag false 5,
        .parseHeaders HdrType.contact.flag true 5]).isSome := by
    decide
  obtain ⟨s, hrun⟩ := isSome_iff_exists.mp hsome
  rw [hrun]
  exact headers_sound twoFields ((Machine.ReachWhen.init (unread_init _)).run hstart hrun)

/-- With the end of the headers every flag is set, also those of fields that
are not there; and after a call that has failed, the next one adds the same
field again. -/
theorem headers_flags_and_twice : (calls twoFields).init unread ∧ ((calls twoFields).run unread
      [.parseHeaders HdrType.cseq.flag false 5]).any (fun s =>
        s.parsedFlag.getLsbD HdrType.cseq.bit = true ∧ s.headers = some 0 ∧
        (s.hdr 0).type = .fromHf ∧ s.next 0 = some 1 ∧
        (s.hdr 1).type = .contact ∧ s.next 1 = none) ∧
    ((calls (compactMsg (ascii "f: a\nxxxx\n"))).run unread
      [.parseHeaders HdrType.cseq.flag false 5,
        .parseHeaders HdrType.cseq.flag false 5]).any (fun s =>
        s.headers = some 0 ∧ s.next 0 = some 1 ∧
        (s.hdr 0).name = ⟨0, 1⟩ ∧ (s.hdr 1).name = ⟨0, 1⟩) :=
  ⟨unread_init _, by decide, by decide⟩

end Msicp.Headers
