import Msicp.Dset.Branches
import Msicp.Registrar.Qvalue

/-!
# The destination set as a Contact header: `print_dset`

One loop over the branches computes the length of the header, another one writes
it.  Between them stands the only check of the buffer.
-/

namespace Msicp.Dset

open Msicp.Support List
open Msicp.Registrar (lenQ q2str length_q2str DecimalText decimalText_q2str)

def maxRedirectionLen : ℕ := 512

def contact : Bytes := ascii "Contact: "

def contactDelim : Bytes := ascii ", "

def qParam : Bytes := ascii ">;q="

def crlf : Bytes := [13, 10]

/-- What the first loop adds for a URI with its q value. -/
def uriLen (uri : Bytes) (q : BitVec 32) : ℕ :=
  uri.length + if q ≠ qUnspecified then 1 + qParam.length + lenQ q.toInt else 0

/-- What the second loop writes for it. -/
def uriText (uri : Bytes) (q : BitVec 32) : Bytes :=
  (if q ≠ qUnspecified then ascii "<" else []) ++ (uri ++
    if q ≠ qUnspecified then qParam ++ q2str q.toInt else [])

/-- One round of the first loop, on `cnt` and `*len`. -/
def addLen (r : ℕ × ℕ) (b : Branch) : ℕ × ℕ := (r.1 + 1, r.2 + uriLen b.uri b.q)

/-- One round of the second loop, on what has been written and `i`. -/
def addText (r : Bytes × ℕ) (b : Branch) : Bytes × ℕ :=
  ((if r.2 ≠ 0 then r.1 ++ contactDelim else r.1) ++ uriText b.uri b.q, r.2 + 1)

namespace Statics

/-- `cnt` and `*len` behind the first loop. -/
def firstPass (s : Statics) (msg : Msg) : ℕ × ℕ :=
  s.iteration.foldl addLen (match msg.newUri with
    | some uri => (1, uriLen uri s.ruriQ)
    | none => (0, 0))

/-- All that is written to the buffer. -/
def secondPass (s : Statics) (msg : Msg) : Bytes :=
  (s.iteration.foldl addText (match msg.newUri with
    | some uri => (contact ++ uriText uri s.ruriQ, 1)
    | none => (contact, 0))).1 ++ (crlf ++ ascii " ")

/-- `print_dset`: what has been written to the buffer, and `*len`. -/
def printDset (s : Statics) (msg : Msg) : Option (Bytes × ℕ) :=
  let (cnt, len) := s.firstPass msg
  if cnt = 0 then none
  else
    let len := len + (contact.length + crlf.length + (cnt - 1) * contactDelim.length)
    if len + 1 > maxRedirectionLen then none
    else some (s.secondPass msg, len)

end Statics

/-! ## Contact headers -/

/-- The text is a decimal number, the q value in thousandths, of what is less
than 0 or more than 1000 the nearest one of these. -/
def QText (t : Bytes) (q : BitVec 32) : Prop :=
  ∃ n k, DecimalText t n k ∧ n ≤ 10 ^ k ∧ max 0 (min q.toInt 1000) = (1000 * n / 10 ^ k : ℕ)

/-- A well-formed entry of a Contact header: a URI in brackets with its q value, or
one by itself that has no byte in it with which the URI would end. -/
inductive ContactEntry (uri : Bytes) (q : BitVec 32) : Bytes → Prop
  | nameAddr {t : Bytes} (hq : q ≠ qUnspecified) (hvalue : QText t q) :
      ContactEntry uri q (ascii "<" ++ (uri ++ (ascii ">;q=" ++ t)))
  | addrSpec (hq : q = qUnspecified)
      (hplain : uri.all (fun c => c ∉ ascii ",;?") = true) : ContactEntry uri q uri

/-- The URIs that are listed: the new Request-URI, if there is one, and those of
the branches. -/
def listed (s : Statics) (msg : Msg) : List (Bytes × BitVec 32) :=
  (msg.newUri.toList.map fun uri => (uri, s.ruriQ)) ++ s.iteration.map fun b => (b.uri, b.q)

/-- A Contact header with these entries. -/
def contactHeader (es : List (Bytes × BitVec 32)) : Bytes :=
  ascii "Contact: " ++ (List.intercalate (ascii ", ") (es.map fun e => uriText e.1 e.2) ++ [13, 10])

/-! ## The two passes -/

theorem length_uriText (uri : Bytes) (q : BitVec 32) : (uriText uri q).length = uriLen uri q := by
  unfold uriText uriLen
  by_cases hq : q ≠ qUnspecified
  · simp only [if_pos hq, List.length_append, length_q2str]
    have : (ascii "<").length = 1 := rfl
    omega
  · simp [if_neg hq]

theorem foldl_addLen (bs : List Branch) (r : ℕ × ℕ) : bs.foldl addLen r =
      (r.1 + bs.length, r.2 + (bs.map fun b => (uriText b.uri b.q).length).sum) := by
  induction bs generalizing r with
  | nil => rfl
  | cons b bs ih =>
    rw [foldl_cons, ih, addLen, ← length_uriText]
    simp only [length_cons, map_cons, sum_cons, Prod.mk.injEq]
    omega

/-- Behind an entry, the others follow with their separators. -/
theorem foldl_addText (bs : List Branch) (t : Bytes) {i : ℕ} (hi : i ≠ 0) :
    (bs.foldl addText (t, i)).1 = t ++ bs.flatMap fun b => contactDelim ++ uriText b.uri b.q := by
  induction bs generalizing t i with
  | nil => exact (append_nil t).symm
  | cons b bs ih =>
    rw [foldl_cons, addText, if_pos hi, ih _ (Nat.succ_ne_zero i)]
    simp [append_assoc]

theorem intercalate_cons (sep x : Bytes) (xs : List Bytes) :
    List.intercalate sep (x :: xs) = x ++ xs.flatMap (sep ++ ·) := by
  induction xs generalizing x with
  | nil => simp [List.intercalate]
  | cons y xs ih =>
    rw [intercalate_cons_of_ne_nil (cons_ne_nil y xs), ih y]
    simp [append_assoc]

theorem length_flatMap_sep (sep : Bytes) (xs : List Bytes) :
    (xs.flatMap (sep ++ ·)).length = (xs.map List.length).sum + xs.length * sep.length := by
  induction xs with
  | nil => simp
  | cons x xs ih =>
    rw [flatMap_cons, List.length_append, ih, List.length_append, map_cons,
      sum_cons, length_cons, Nat.succ_mul]
    omega

variable (s : Statics) (msg : Msg)

/-- The second loop writes the entries, whether the first one is the new
Request-URI or a branch. -/
theorem secondPass_eq : s.secondPass msg = contactHeader (listed s msg) ++ ascii " " := by
  unfold Statics.secondPass contactHeader listed
  rw [crlf]
  cases hnew : msg.newUri with
  | some uri =>
    rw [foldl_addText _ _ one_ne_zero, Option.toList_some, map_singleton,
      singleton_append, map_cons, intercalate_cons]
    simp [contact, contactDelim, flatMap_map, append_assoc]
  | none =>
    rw [Option.toList_none, map_nil, nil_append]
    cases hbs : s.iteration with
    | nil => simp [contact, List.intercalate]
    | cons b bs =>
      rw [foldl_cons, addText, if_neg (not_not.mpr rfl),
        foldl_addText _ _ (Nat.succ_ne_zero 0), map_cons, map_cons, intercalate_cons]
      simp [contact, contactDelim, flatMap_map, append_assoc]

theorem firstPass_eq : s.firstPass msg = ((listed s msg).length,
      ((listed s msg).map fun e => (uriText e.1 e.2).length).sum) := by
  unfold Statics.firstPass listed
  rw [foldl_addLen]
  cases hnew : msg.newUri with
  | some uri => simp [← length_uriText, List.map_map, Function.comp_def, Nat.add_comm]
  | none => simp [List.map_map, Function.comp_def]

theorem length_contactHeader {es : List (Bytes × BitVec 32)} (hes : es ≠ []) :
    (contactHeader es).length = (es.map fun e => (uriText e.1 e.2).length).sum +
      (contact.length + crlf.length + (es.length - 1) * contactDelim.length) := by
  obtain ⟨e, es, rfl⟩ := exists_cons_of_ne_nil hes
  have hcontact : (ascii "Contact: ").length = contact.length := rfl
  have hrest : (e :: es).length - 1 = es.length := rfl
  rw [contactHeader, map_cons, intercalate_cons, List.length_append, List.length_append,
    List.length_append, length_flatMap_sep, List.map_map, length_map, map_cons,
    sum_cons, hrest, hcontact]
  simp only [Function.comp_def, contactDelim, crlf]
  omega

theorem printDset_eq : s.printDset msg =
      if listed s msg = [] ∨ maxRedirectionLen < (contactHeader (listed s msg)).length + 1 then
        none
      else some (contactHeader (listed s msg) ++ ascii " ",
        (contactHeader (listed s msg)).length) := by
  unfold Statics.printDset
  rw [firstPass_eq]
  dsimp only
  by_cases hnone : listed s msg = []
  · rw [if_pos (length_eq_zero_iff.mpr hnone), if_pos (.inl hnone)]
  · rw [if_neg (mt length_eq_zero_iff.mp hnone), ← length_contactHeader hnone, secondPass_eq]
    by_cases hlong : maxRedirectionLen < (contactHeader (listed s msg)).length + 1
    · rw [if_pos hlong, if_pos (.inr hlong)]
    · rw [if_neg hlong, if_neg (not_or.mpr ⟨hnone, hlong⟩)]

/-! ## Entries -/

theorem qText_q2str {q : BitVec 32} (hq : q ≠ qUnspecified) : QText (q2str q.toInt) q := by
  have hne : q.toInt ≠ Registrar.qUnspecified := by
    intro h
    apply hq
    apply BitVec.eq_of_toInt_eq
    exact h.trans (by decide)
  have hclamp : q2str q.toInt = q2str (max 0 (min q.toInt 1000)) := by
    by_cases h1000 : 1000 ≤ q.toInt
    · have hone : q2str q.toInt = ascii "1" := by
        rw [q2str, if_neg hne]
        exact if_pos h1000
      rw [hone, min_eq_right h1000]
      rfl
    · by_cases h0 : q.toInt ≤ 0
      · have hzero : q2str q.toInt = ascii "0" := by
          rw [q2str, if_neg hne, if_neg (show ¬Registrar.maxQ ≤ q.toInt from h1000)]
          exact if_pos h0
        rw [hzero, min_eq_left (by omega), max_eq_left h0]
        rfl
      · rw [min_eq_left (by omega), max_eq_right (by omega)]
  obtain ⟨n, k, htext, hle, hvalue⟩ := @decimalText_q2str (max 0 (min q.toInt 1000)) (by omega)
    (by omega) [] (forall_mem_nil _) (.inl rfl)
  rw [append_nil, ← hclamp] at htext
  exact ⟨n, k, htext, hle, hvalue⟩

theorem contactEntry_uriText (uri : Bytes) (q : BitVec 32)
    (h : q = qUnspecified → uri.all (fun c => c ∉ ascii ",;?") = true) :
    ContactEntry uri q (uriText uri q) := by
  unfold uriText
  by_cases hq : q = qUnspecified
  · rw [if_neg (not_not.mpr hq), if_neg (not_not.mpr hq), nil_append, append_nil]
    exact .addrSpec hq (h hq)
  · rw [if_pos hq, if_pos hq]
    exact .nameAddr hq (qText_q2str hq)

/-- `print_dset` returns nothing if there is neither a new Request-URI nor a branch
or the header does not fit into the buffer, with the blank behind it; otherwise a
Contact header of exactly `*len` bytes with an entry for each of them, which is
well formed where the URI has a q value or needs no brackets. -/
theorem print_dset_right (s : Statics) (msg : Msg) : (match s.printDset msg with
      | none => listed s msg = [] ∨ maxRedirectionLen < (contactHeader (listed s msg)).length + 1
      | some (buf, len) => listed s msg ≠ [] ∧ buf = contactHeader (listed s msg) ++ ascii " " ∧
          len = (contactHeader (listed s msg)).length ∧ buf.length ≤ maxRedirectionLen) ∧
      ∀ e ∈ listed s msg, (e.2 = qUnspecified → e.1.all (fun c => c ∉ ascii ",;?") = true) →
        ContactEntry e.1 e.2 (uriText e.1 e.2) := by
  constructor
  · rw [printDset_eq]
    by_cases hnone : listed s msg = [] ∨
        maxRedirectionLen < (contactHeader (listed s msg)).length + 1
    · rw [if_pos hnone]
      exact hnone
    · rw [if_neg hnone]
      rw [not_or, Nat.not_lt] at hnone
      refine ⟨hnone.1, rfl, rfl, ?_⟩
      rw [List.length_append]
      exact hnone.2
  · intro e _ h
    exact contactEntry_uriText e.1 e.2 h

/-- Without a new Request-URI and without branches nothing is printed, though the
header of the Request-URI would fit. -/
theorem printDset_original :
    ¬ ∀ (s : Statics) (msg : Msg), s.printDset msg = none → maxRedirectionLen <
      (contactHeader ((msg.newUri.getD msg.uri, s.ruriQ) ::
        s.iteration.map fun b => (b.uri, b.q))).length + 1 := by
  intro h
  have hlong := h Statics.start ⟨none, ascii "sip:a@b"⟩ (by decide)
  exact absurd hlong (by decide)

end Msicp.Dset
