import Msicp.Tcp.ContentLength

/-!
# What a complete scan has found

A scan that is complete has passed the blanks in front of a request, its
headers up to the empty line, and as many bytes as the first Content-Length
line says.
-/

namespace Msicp.Tcp

open Msicp.Support List

/-- A request: lines, the first of which does not begin with a blank or a line
end, an empty line, and a body as long as the first Content-Length line
says. -/
def IsMessage (m : Bytes) : Prop :=
  ∃ (lines : List Bytes) (cr body ds : Bytes), m = lines.flatMap (· ++ [10]) ++ cr ++ [10] ++ body ∧
    (cr = [] ∨ cr = [13]) ∧
    (∀ line ∈ lines, 10 ∉ line ∧ line ≠ [] ∧ line ≠ [13]) ∧
    (∃ c, m.head? = some c ∧ isBlank c = false ∧ c ≠ 10 ∧ c ≠ 13) ∧
    lines.findSome? contentLengthOf = some ds ∧ body.length = decimal ds

/-- The scan has found a whole request. -/
structure Scan.Done (r : Scan) : Prop where
  error : r.error = .ok
  complete : r.complete = true

variable {r : Scan} {p : ℕ} {a : Bytes}

theorem Scan.Done.not_open (h : r.Done) : ¬ r.Open := by
  intro hopen
  have hfalse := hopen.complete
  rw [h.complete] at hfalse
  cases hfalse

theorem headerStep_open {r : Scan} {p : ℕ} {c : UInt8} (hopen : r.Open)
    (hbody : r.state ≠ .body) (hc : c ≠ 10) :
    (headerStep r p c).Open ∧ (headerStep r p c).state ≠ .body := by
  have hcrlf : crlfDefaultSkip c = .skip := if_neg hc
  have hbeg : (contentLenBeg r c).getD .skip ≠ .body := by
    rw [contentLenBeg]
    split_ifs <;> simp
  have hnext : ∀ k, contLenNext k ≠ .body := by
    intro k
    rw [contLenNext]
    split_ifs <;> simp
  obtain ⟨herror, hcomplete⟩ := hopen
  refine ⟨⟨?_, ?_⟩, ?_⟩
  · cases hstate : r.state <;> simp only [headerStep, hstate, if_neg hc] <;>
      (try split_ifs) <;> exact herror
  · cases hstate : r.state <;> simp only [headerStep, hstate, if_neg hc] <;>
      (try split_ifs) <;> exact hcomplete
  · cases hstate : r.state <;>
      simp only [headerStep, hstate, hcrlf, if_neg hc] <;>
      (try split_ifs) <;>
      first
        | exact hbeg
        | exact hnext _
        | exact absurd hstate hbody
        | simp [hstate]

theorem readHeadersLoop_open (hopen : r.Open) (hbody : r.state ≠ .body) (ha : 10 ∉ a) :
    (readHeadersLoop r p a).Open := by
  induction a generalizing r p with
  | nil => exact ⟨hopen.error, hopen.complete⟩
  | cons c a ih =>
    have hc : c ≠ 10 := fun h => ha (by simp [h])
    obtain ⟨hopen', hbody'⟩ := @headerStep_open r p c hopen hbody hc
    rw [readHeadersLoop_cons hopen, if_neg hbody, if_neg (by simp [hopen'.complete])]
    exact ih hopen' hbody' fun h => ha (mem_cons_of_mem c h)

theorem body_done {r : Scan} {p : ℕ} {a : Bytes} (hopen : r.Open)
    (hbody : r.state = .body) (hdone : (readHeadersLoop r p a).Done) :
    r.bytesToGo ≤ a.length ∧ (readHeadersLoop r p a).parsed = p + r.bytesToGo ∧
      (readHeadersLoop r p a).start = r.start := by
  cases a with
  | nil => exact absurd ⟨hopen.error, hopen.complete⟩ hdone.not_open
  | cons c a =>
    rw [readHeadersLoop_cons hopen, if_pos hbody] at hdone ⊢
    have hcomplete := hdone.complete
    simp only [bodyStep, hopen.complete, Bool.false_or, decide_eq_true_eq] at hcomplete
    have hmin : min ((a.length + 1 : ℕ) : ℤ) r.bytesToGo = r.bytesToGo := by
      omega
    refine ⟨?_, ?_, rfl⟩
    · rw [length_cons]
      omega
    · simp only [bodyStep, hmin]

/-- What the line feed of the empty line starts. -/
theorem emptyLine_done {r : Scan} {p : ℕ} {a : Bytes} (hopen : r.Open)
    (hbody : r.state ≠ .body) (hstep : headerStep r p 10 = foundEmptyLine r p)
    (hlen : r.hasContentLen = true → 0 ≤ r.contentLen)
    (hdone : (readHeadersLoop r p (10 :: a)).Done) :
    r.hasContentLen = true ∧ ∃ body rest, a = body ++ rest ∧ (body.length : ℤ) = r.contentLen ∧
      (readHeadersLoop r p (10 :: a)).parsed = (p + 1 + body.length : ℕ) ∧
      (readHeadersLoop r p (10 :: a)).start = r.start := by
  rw [readHeadersLoop_cons hopen, if_neg hbody, hstep] at hdone ⊢
  cases hhas : r.hasContentLen with
  | false =>
    have herror : (foundEmptyLine r p).error ≠ .ok := by
      simp [foundEmptyLine, hhas]
    exfalso
    split_ifs at hdone
    · exact herror hdone.error
    · rw [readHeadersLoop_error herror] at hdone
      exact herror hdone.error
  | true =>
    have hpos := hlen hhas
    refine ⟨rfl, ?_⟩
    by_cases hzero : r.contentLen = 0
    · have hcomplete : (foundEmptyLine r p).complete = true := by
        simp [foundEmptyLine, hhas, hzero]
      rw [if_pos hcomplete]
      refine ⟨[], a, rfl, ?_, ?_, ?_⟩
      · rw [hzero]
        rfl
      · simp
      · simp [foundEmptyLine, hhas]
    · have hfound : foundEmptyLine r p =
          { r with state := .body, body := some (p + 1),
                   bytesToGo := r.contentLen, complete := false } := by
        simp [foundEmptyLine, hhas, hzero]
      have hcomplete : ¬ (foundEmptyLine r p).complete = true := by
        simp [hfound]
      rw [if_neg hcomplete] at hdone ⊢
      rw [hfound] at hdone ⊢
      obtain ⟨hle, hparsed, hstart⟩ := @body_done
        { r with state := .body, body := some (p + 1),
                 bytesToGo := r.contentLen, complete := false }
        (p + 1) a ⟨hopen.error, rfl⟩ rfl hdone
      dsimp only at hle hparsed hstart
      refine ⟨a.take r.contentLen.toNat, a.drop r.contentLen.toNat,
        (take_append_drop _ _).symm, ?_, ?_, hstart⟩
      · rw [length_take]
        omega
      · rw [hparsed, length_take]
        omega

/-- The headers from the start of a line on, the body and what follows. -/
structure Found (r r' : Scan) (p : ℕ) (a : Bytes) (lines : List Bytes)
    (cr body rest : Bytes) : Prop where
  bytes : a = lines.flatMap (· ++ [10]) ++ cr ++ [10] ++ body ++ rest
  cr_eq : cr = [] ∨ cr = [13]
  line : ∀ line ∈ lines, 10 ∉ line ∧ line ≠ [] ∧ line ≠ [13]
  start : r'.start = r.start
  parsed : r'.parsed =
    (p + (lines.flatMap (· ++ [10]) ++ cr ++ [10] ++ body).length : ℕ)
  before : r.hasContentLen = true → (body.length : ℤ) = r.contentLen
  first : r.hasContentLen = false → ∃ ds,
    lines.findSome? contentLengthOf = some ds ∧ body.length = decimal ds

theorem Found.cons {r r₁ r' : Scan} {p : ℕ} {v w : Bytes}
    {lines : List Bytes} {cr body rest : Bytes}
    (h : Found r₁ r' (p + (v ++ [10]).length) w lines cr body rest)
    (hline : Line r r₁ (if r.hasContentLen then none else contentLengthOf v))
    (hv : 10 ∉ v) (hne : v ≠ []) (hcr : v ≠ [13]) :
    Found r r' p (v ++ 10 :: w) (v :: lines) cr body rest := by
  constructor
  · rw [h.bytes]
    simp
  · exact h.cr_eq
  · intro line hmem
    rcases mem_cons.mp hmem with rfl | hmem
    · exact ⟨hv, hne, hcr⟩
    · exact h.line line hmem
  · exact h.start.trans hline.start
  · rw [h.parsed]
    simp only [flatMap_cons, List.length_append]
    omega
  · intro hhas
    rw [if_pos hhas] at hline
    obtain ⟨hhas', hlen'⟩ := hline.lost rfl
    rw [h.before (hhas'.trans hhas), hlen' hhas]
  · intro hhas
    rw [if_neg (by simp [hhas])] at hline
    cases hgive : contentLengthOf v with
    | none =>
      obtain ⟨hhas', -⟩ := hline.lost hgive
      obtain ⟨ds, hds, hlen⟩ := h.first (hhas'.trans hhas)
      exact ⟨ds, by rw [findSome?_cons, hgive]; exact hds, hlen⟩
    | some ds =>
      obtain ⟨hhas', hlen'⟩ := hline.found ds hgive
      have hbody := h.before hhas'
      refine ⟨ds, by rw [findSome?_cons, hgive], ?_⟩
      rw [hlen'] at hbody
      exact_mod_cast hbody

/-- A scan that is done from the start of a line on has found the rest of a
request. -/
theorem lines_done (hopen : r.Open) (hstate : r.state = .lf)
    (hlen : r.hasContentLen = true → 0 ≤ r.contentLen) (hclean : Clean r p a)
    (hdone : (readHeadersLoop r p a).Done) :
    ∃ lines cr body rest, Found r (readHeadersLoop r p a) p a lines cr body rest := by
  induction hn : a.length using Nat.strong_induction_on generalizing r p a with
  | _ n ih =>
    have hbody : r.state ≠ .body := by simp [hstate]
    have hlf : 10 ∈ a := by
      by_contra hno
      exact hdone.not_open (readHeadersLoop_open hopen hbody hno)
    obtain ⟨v, w, rfl, hv⟩ := eq_append_cons_of_mem hlf
    by_cases hnil : v = []
    · subst hnil
      have hstep : headerStep r p 10 = foundEmptyLine r p := by
        simp [headerStep, hstate]
      obtain ⟨hhas, body, rest, rfl, hbodyLen, hparsed, hstart⟩ :=
        emptyLine_done hopen hbody hstep hlen hdone
      refine ⟨[], [], body, rest, by simp, Or.inl rfl, by simp, hstart, ?_,
        fun _ => hbodyLen, fun hno => absurd hhas (by simp [hno])⟩
      · rw [nil_append, hparsed]
        simp only [flatMap_nil, nil_append, List.length_append, length_singleton]
        congr 1
        omega
    · by_cases hcr : v = [13]
      · subst hcr
        have hstep : headerStep r p 13 = { r with state := .lfcr } := by
          simp [headerStep, hstate]
        have hnext : readHeadersLoop r p ([13] ++ 10 :: w) =
            readHeadersLoop { r with state := .lfcr } (p + 1) (10 :: w) := by
          rw [singleton_append, readHeadersLoop_cons hopen,
            if_neg hbody, hstep, if_neg (by simp [hopen.complete])]
        rw [hnext] at hdone ⊢
        have hstep' : headerStep { r with state := .lfcr } (p + 1) 10 =
            foundEmptyLine { r with state := .lfcr } (p + 1) := by
          simp [headerStep]
        obtain ⟨hhas, body, rest, rfl, hbodyLen, hparsed, hstart⟩ :=
          @emptyLine_done { r with state := .lfcr } (p + 1) w
            ⟨hopen.error, hopen.complete⟩ (by simp) hstep' hlen hdone
        refine ⟨[], [13], body, rest, by simp, Or.inr rfl, by simp, hstart,
          ?_, fun _ => hbodyLen, fun hno => absurd hhas (by simp [hno])⟩
        rw [hparsed]
        simp only [flatMap_nil, nil_append, List.length_append, length_singleton]
        congr 1
        omega
      · obtain ⟨r', hgoes, hline⟩ :=
          lf_line hopen hstate hv hnil hcr hclean
        have hsplit : v ++ 10 :: w = v ++ [10] ++ w := by simp
        have hloop := hgoes.loop
        rw [← hsplit] at hloop
        rw [hloop] at hdone ⊢
        have hlen' : r'.hasContentLen = true → 0 ≤ r'.contentLen := by
          intro hhas'
          cases hhas : r.hasContentLen with
          | true =>
            rw [hhas, if_pos rfl] at hline
            rw [(hline.lost rfl).2 hhas]
            exact hlen hhas
          | false =>
            rw [hhas, if_neg Bool.false_ne_true] at hline
            cases hgive : contentLengthOf v with
            | none =>
              have hsame := (hline.lost hgive).1
              rw [hhas, hhas'] at hsame
              cases hsame
            | some ds =>
              rw [(hline.found ds hgive).2]
              omega
        have hclean' := hgoes.clean (hsplit ▸ hclean)
        obtain ⟨lines, cr, body, rest, hfound⟩ := ih w.length (by
            rw [← hn, List.length_append, length_cons]
            omega)
          hline.isOpen hline.state hlen' hclean' hdone rfl
        exact ⟨v :: lines, cr, body, rest, hfound.cons hline hv hnil hcr⟩

/-- Behind the first byte of a request the first line goes on. -/
theorem first_line {c : UInt8} {v w : Bytes} (hopen : r.Open) (hstate : r.state = .skipEmpty)
    (hhas : r.hasContentLen = false)
    (hstart : ¬ (isBlank c = true ∨ c = 10 ∨ c = 13)) (hv : 10 ∉ v)
    (hclean : Clean r p (c :: v ++ 10 :: w)) :
    LineGives (headerStep r p c) (p + 1) v w (contentLengthOf (c :: v)) := by
  have hbody : r.state ≠ .body := by simp [hstate]
  have hblank : ¬ isBlank c = true := fun h => hstart (Or.inl h)
  have hopen' : ∀ state, ({ r with state := state, start := p } : Scan).Open :=
    fun _ => ⟨hopen.error, hopen.complete⟩
  rw [contentLengthOf, if_neg hblank]
  by_cases hlong : c = 67 ∨ c = 99
  · have hstep : headerStep r p c =
        { r with state := .contLen 0, start := p } := by
      simp only [headerStep, hstate, if_neg hstart, if_pos hlong]
    rw [if_pos hlong, hstep]
    exact @inName_line _ 0 _ _ _ (hopen' _) rfl hhas hv
      (hclean.tail hopen hbody hstep hopen.complete)
  · rw [if_neg hlong]
    by_cases hshort : c = 76 ∨ c = 108
    · have hstep : headerStep r p c =
          { r with state := .lColon, start := p } := by
        simp only [headerStep, hstate, if_neg hstart, if_neg hlong, if_pos hshort]
      rw [if_pos hshort, hstep]
      exact name_line (hopen' _) rfl hhas hv (hclean.tail hopen hbody hstep hopen.complete)
    · have hstep : headerStep r p c = { r with state := .skip, start := p } := by
        simp only [headerStep, hstate, if_neg hstart, if_neg hlong, if_neg hshort]
      rw [if_neg hshort, hstep]
      exact skip_line (hopen' _) rfl hv

theorem headerStep_first {r : Scan} {p : ℕ} {c : UInt8} (hstate : r.state = .skipEmpty)
    (hstart : ¬ (isBlank c = true ∨ c = 10 ∨ c = 13)) :
    (headerStep r p c).start = p ∧ (headerStep r p c).hasContentLen = r.hasContentLen := by
  simp only [headerStep, hstate, if_neg hstart]
  split_ifs <;> exact ⟨rfl, rfl⟩

/-- A scan that is done has passed blanks and found a request. -/
theorem message_done (hopen : r.Open)
    (hstate : r.state = .skipEmpty) (hhas : r.hasContentLen = false)
    (hclean : Clean r p a) (hdone : (readHeadersLoop r p a).Done) :
    ∃ blanks m rest, a = blanks ++ m ++ rest ∧ IsMessage m ∧
      (readHeadersLoop r p a).start = p + blanks.length ∧
      (readHeadersLoop r p a).parsed = (p + blanks.length + m.length : ℕ) := by
  have hbody : r.state ≠ .body := by simp [hstate]
  induction a generalizing p with
  | nil => exact absurd ⟨hopen.error, hopen.complete⟩ hdone.not_open
  | cons c a ih =>
    by_cases hstart : isBlank c = true ∨ c = 10 ∨ c = 13
    · have hstep : headerStep r p c = r := by
        simp only [headerStep, hstate, if_pos hstart]
      have hnext : readHeadersLoop r p (c :: a) = readHeadersLoop r (p + 1) a := by
        rw [readHeadersLoop_cons hopen, if_neg hbody, hstep, if_neg (by simp [hopen.complete])]
      rw [hnext] at hdone ⊢
      obtain ⟨blanks, m, rest, rfl, hm, hs, hparsed⟩ :=
        ih (hclean.tail hopen hbody hstep hopen.complete) hdone
      refine ⟨c :: blanks, m, rest, by simp, hm, ?_, ?_⟩
      · rw [hs, length_cons]
        omega
      · rw [hparsed, length_cons]
        congr 1
        omega
    · have hc : c ≠ 10 := fun h => hstart (Or.inr (Or.inl h))
      obtain ⟨hopen', hbody'⟩ := @headerStep_open r p c hopen hbody hc
      have hnext : readHeadersLoop r p (c :: a) = readHeadersLoop (headerStep r p c) (p + 1) a := by
        rw [readHeadersLoop_cons hopen, if_neg hbody, if_neg (by simp [hopen'.complete])]
      rw [hnext] at hdone ⊢
      have hlf : 10 ∈ a := by
        by_contra hno
        exact hdone.not_open (readHeadersLoop_open hopen' hbody' hno)
      obtain ⟨v, w, rfl, hv⟩ := eq_append_cons_of_mem hlf
      obtain ⟨r', hgoes, hline⟩ :=
        first_line hopen hstate hhas hstart hv hclean
      obtain ⟨hfirst, hfirstHas⟩ := @headerStep_first r p c hstate hstart
      rw [hhas] at hfirstHas
      have hsplit : v ++ 10 :: w = v ++ [10] ++ w := by simp
      have hloop := hgoes.loop
      rw [← hsplit] at hloop
      rw [hloop] at hdone ⊢
      have hclean' : Clean (headerStep r p c) (p + 1) (v ++ 10 :: w) :=
        hclean.tail hopen hbody rfl hopen'.complete
      have hlen : r'.hasContentLen = true → 0 ≤ r'.contentLen := by
        intro hhas'
        cases hgive : contentLengthOf (c :: v) with
        | none =>
          have hsame := (hline.lost hgive).1
          rw [hhas', hfirstHas] at hsame
          cases hsame
        | some ds =>
          rw [(hline.found ds hgive).2]
          omega
      obtain ⟨lines, cr, body, rest, hfound⟩ := lines_done hline.isOpen
        hline.state hlen (hgoes.clean (hsplit ▸ hclean')) hdone
      have hdigits : ∃ ds, ((c :: v) :: lines).findSome? contentLengthOf = some ds ∧
          body.length = decimal ds := by
        cases hgive : contentLengthOf (c :: v) with
        | none =>
          obtain ⟨hhas', -⟩ := hline.lost hgive
          obtain ⟨ds, hds, hlen⟩ := hfound.first (hhas'.trans hfirstHas)
          exact ⟨ds, by rw [findSome?_cons, hgive]; exact hds, hlen⟩
        | some ds =>
          obtain ⟨hhas', hlen'⟩ := hline.found ds hgive
          have hbodyLen := hfound.before hhas'
          rw [hlen'] at hbodyLen
          exact ⟨ds, by rw [findSome?_cons, hgive], by exact_mod_cast hbodyLen⟩
      obtain ⟨ds, hds, hbodyLen⟩ := hdigits
      have hblank : isBlank c = false := by
        by_contra h
        exact hstart (Or.inl (by simpa using h))
      have hc13 : c ≠ 13 := fun h => hstart (Or.inr (Or.inr h))
      have hvc : 10 ∉ c :: v := by
        intro h
        rcases mem_cons.mp h with h | h
        · exact hc h.symm
        · exact hv h
      have hfirstLine : (((c :: v) :: lines : List Bytes).flatMap
          (· ++ [10])) = (c :: v) ++ [10] ++ lines.flatMap (· ++ [10]) :=
        flatMap_cons
      refine ⟨[], ((c :: v) :: lines : List Bytes).flatMap (· ++ [10]) ++
        cr ++ [10] ++ body, rest, ?_, ?_, ?_, ?_⟩
      · rw [hfirstLine, hfound.bytes]
        simp
      · refine ⟨(c :: v) :: lines, cr, body, ds, rfl, hfound.cr_eq, ?_, ?_, hds, hbodyLen⟩
        · intro line hmem
          rcases mem_cons.mp hmem with rfl | hmem
          · exact ⟨hvc, by simp, fun h => hc13 (List.cons.inj h).1⟩
          · exact hfound.line line hmem
        · exact ⟨c, by simp, hblank, hc, hc13⟩
      · rw [hfound.start, hline.start, hfirst]
        rfl
      · rw [hfound.parsed, hfirstLine]
        simp only [List.length_append, length_cons, length_nil]
        congr 1
        omega

end Msicp.Tcp
