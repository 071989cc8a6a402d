import Msicp.To.ParamRead

/-!
# Names and URIs of the grammar

What the name and the URI of a body leave in the variables of `parse_to`.
-/

namespace Msicp.To

open Msicp.Support List ToVars ToBody Address

variable {t s : Bytes} {p : ℕ} {v : ToVars} {saved : Status} {foo : ℕ} {b : ToBody}

/-! ## Steps -/

variable {c : UInt8} {v' : ToVars} {uri : Bytes}

theorem toLoop_next (h : v.step c p = .next v') :
    toLoop (c :: t) p v = toLoop t (p + 1) v' := by
  rw [toLoop, h]

theorem toLoop_error (h : v.step c p = .error v') :
    (toLoop (c :: t) p v).1.error = true := by
  rw [toLoop, h]
  rfl

theorem toLoop_end (h : v.step c p = .endOfHeader v') :
    toLoop (c :: t) p v = v'.finish p := by
  rw [toLoop, h]

theorem charClass_isWord (h : isWord c = true) :
    charClass c = .letterT ∨ charClass c = .letterA ∨ charClass c = .letterG ∨
      charClass c = .equal ∨ charClass c = .default := by
  simp only [isWord, mem_cons, not_mem_nil, or_false, not_or,
    decide_eq_true_eq] at h
  obtain ⟨h1, h2, h3, h4, h5, h6, h7, h8, h9, h10⟩ := h
  unfold charClass
  simp only [h1, h2, h3, h4, h5, h6, h7, h8, h9, h10, or_self, if_false]
  split_ifs <;> simp

theorem step_isWord (h : isWord c = true) (v : ToVars) (p : ℕ) :
    v.step c p = v.onText p := by
  unfold step
  rcases charClass_isWord h with h | h | h | h | h <;> rw [h]

theorem isWord_of_isUri (h : isUri c = true) (hc : c ≠ 59) :
    isWord c = true := by
  simp only [isUri, isWord, mem_cons, not_mem_nil, or_false, not_or,
    decide_eq_true_eq] at h ⊢
  obtain ⟨h1, h2, h3, h4, h5, h6, h7, h8, h9⟩ := h
  exact ⟨h1, h2, h3, h4, h5, h6, h7, h8, h9, hc⟩

/-- States in which text goes on. -/
def Reads (status : Status) : Prop :=
  status = .uriOrToken ∨ status = .displayToken

theorem toLoop_text {x : Bytes} (h : ∀ c ∈ x, isWord c = true) (hv : Reads v.status) :
    toLoop (x ++ t) p v = toLoop t (p + x.length) v := by
  induction x generalizing p with
  | nil => rfl
  | cons c x ih =>
    have hstep : v.step c p = .next v := by
      rw [step_isWord (h c mem_cons_self), onText]
      rcases hv with hv | hv <;> rw [hv]
    rw [cons_append, toLoop_next hstep, ih fun d hd => h d (mem_cons_of_mem c hd),
      length_cons, Nat.add_right_comm, Nat.add_assoc]

/-! ## White space -/

/-- States in which a line may be folded. -/
def Rests (status : Status) : Prop :=
  status = .maybeUriEnd ∨ status = .displayToken ∨ status = .eDisplayQuoted ∨
    status = .endTo

/-- A line end leaves the automaton waiting for the next byte. -/
theorem toLoop_eol (h : Rests v.status) (eol : Eol) :
    ∃ f, (f = .fCr ∨ f = .fLf ∨ f = .fCrlf) ∧ (f = .fCr → eol = .cr) ∧
      toLoop (eol.text ++ t) p v = toLoop t (p + eol.text.length)
        { v with savedStatus := v.status, status := f } := by
  have hcr : v.step 13 p = .next { v with savedStatus := v.status, status := .fCr } := by
    obtain ⟨status, saved, foo, body⟩ := v
    rcases h with h | h | h | h <;>
      (obtain rfl : status = _ := h
       rfl)
  have hlf : v.step 10 p = .next { v with savedStatus := v.status, status := .fLf } := by
    obtain ⟨status, saved, foo, body⟩ := v
    rcases h with h | h | h | h <;>
      (obtain rfl : status = _ := h
       rfl)
  cases eol with
  | cr => exact ⟨.fCr, .inl rfl, fun _ => rfl, toLoop_next hcr⟩
  | lf => exact ⟨.fLf, .inr (.inl rfl), by simp, toLoop_next hlf⟩
  | crlf =>
    refine ⟨.fCrlf, .inr (.inr rfl), by simp, ?_⟩
    exact (toLoop_next (t := 10 :: t) hcr).trans (toLoop_next rfl)

theorem toLoop_lws (h : Rests v.status) (l : List Lws) :
    ∃ saved, toLoop (lwsText l ++ t) p v =
      toLoop t (p + (lwsText l).length) { v with savedStatus := saved } := by
  induction l generalizing p v with
  | nil => exact ⟨v.savedStatus, rfl⟩
  | cons x l ih =>
    cases x with
    | blank tab =>
      obtain ⟨saved, hrun⟩ := @ih (p + 1) v h
      have hstep : v.step (To.blank tab) p = .next v := by
        rw [step, charClass_blank]
        simp only [onBlank]
        rcases h with h | h | h | h <;> rw [h]
      refine ⟨saved, ?_⟩
      rw [show lwsText (.blank tab :: l) ++ t = To.blank tab :: (lwsText l ++ t) from rfl,
        toLoop_next hstep, hrun]
      congr 1
      change p + 1 + (lwsText l).length = p + ((lwsText l).length + 1)
      omega
    | fold eol tab =>
      obtain ⟨f, hf, -, hline⟩ := @toLoop_eol (To.blank tab :: (lwsText l ++ t)) p v h eol
      obtain ⟨saved, hrun⟩ := @ih (p + eol.text.length + 1)
        { v with savedStatus := v.status } h
      have hstep : ({ v with savedStatus := v.status, status := f } : ToVars).step
          (To.blank tab) (p + eol.text.length) = .next { v with savedStatus := v.status } := by
        rw [step, charClass_blank]
        rcases hf with rfl | rfl | rfl <;> rfl
      refine ⟨saved, ?_⟩
      have htext : lwsText (.fold eol tab :: l) ++ t =
          eol.text ++ (To.blank tab :: (lwsText l ++ t)) := by
        simp [lwsText, Lws.text]
      rw [htext, hline, toLoop_next hstep, hrun]
      congr 1
      simp only [lwsText, flatMap_cons, Lws.text, List.length_append,
        length_singleton]
      omega

/-- White space ends the first word, or the URI. -/
theorem toLoop_wordEnd {l : List Lws} (hl : l ≠ []) :
    ∃ saved', toLoop (lwsText l ++ t) p ⟨.uriOrToken, saved, foo, b⟩ =
      toLoop t (p + (lwsText l).length) ⟨.maybeUriEnd, saved', p, b⟩ := by
  cases l with
  | nil => exact absurd rfl hl
  | cons x l =>
    cases x with
    | blank tab =>
      obtain ⟨saved', hrun⟩ := @toLoop_lws t (p + 1) ⟨.maybeUriEnd, saved, p, b⟩
        (.inl rfl) l
      have hstep : (⟨.uriOrToken, saved, foo, b⟩ : ToVars).step (To.blank tab) p =
          .next ⟨.maybeUriEnd, saved, p, b⟩ := by
        rw [step, charClass_blank]
        rfl
      refine ⟨saved', ?_⟩
      rw [show lwsText (.blank tab :: l) ++ t = To.blank tab :: (lwsText l ++ t) from rfl,
        toLoop_next hstep, hrun]
      congr 1
      change p + 1 + (lwsText l).length = p + ((lwsText l).length + 1)
      omega
    | fold eol tab =>
      -- the line end is that of a URI that may have ended
      have hline : toLoop (eol.text ++ (To.blank tab :: (lwsText l ++ t))) p
          ⟨.uriOrToken, saved, foo, b⟩ =
          toLoop (eol.text ++ (To.blank tab :: (lwsText l ++ t))) p
            ⟨.maybeUriEnd, saved, p, b⟩ := by
        cases eol <;> rfl
      obtain ⟨saved', hrun⟩ := @toLoop_lws t p ⟨.maybeUriEnd, saved, p, b⟩ (.inl rfl)
        (.fold eol tab :: l)
      have htext : lwsText (.fold eol tab :: l) ++ t =
          eol.text ++ (To.blank tab :: (lwsText l ++ t)) := by
        simp [lwsText, Lws.text]
      rw [htext] at hrun ⊢
      exact ⟨saved', hline.trans hrun⟩

/-! ## Names -/

/-- The start of a body with a word. -/
def startedWord (p : ℕ) : ToBody :=
  { ToBody.start with body := ⟨p, 0⟩, uri := ⟨p, 0⟩, display := ⟨p, 0⟩ }

theorem toLoop_word {w : Bytes} (h : IsText isWord w) :
    toLoop (w ++ t) p ⟨.startTo, saved, foo, .start⟩ =
      toLoop t (p + w.length) ⟨.uriOrToken, saved, foo, startedWord p⟩ := by
  obtain ⟨hne, hall⟩ := h
  cases w with
  | nil => exact absurd rfl hne
  | cons c w =>
    have hstep : (⟨.startTo, saved, foo, .start⟩ : ToVars).step c p =
        .next ⟨.uriOrToken, saved, foo, startedWord p⟩ :=
      step_isWord (hall c mem_cons_self) _ _
    rw [cons_append, toLoop_next hstep,
      toLoop_text (fun d hd => hall d (mem_cons_of_mem c hd)) (.inl rfl),
      length_cons, Nat.add_right_comm, Nat.add_assoc]

theorem toLoop_more {more : List (List Lws × Bytes)}
    (h : ∀ m ∈ more, m.1 ≠ [] ∧ IsText isWord m.2) (l : List Lws) :
    ∃ saved' status, (status = .maybeUriEnd ∨ status = .displayToken) ∧
      toLoop (moreText more ++ (lwsText l ++ t)) p ⟨.displayToken, saved, foo, b⟩ =
        toLoop t (p + (moreText more).length + (lwsText l).length)
          ⟨status, saved', foo, b⟩ := by
  induction more generalizing p saved with
  | nil =>
    obtain ⟨saved', hrun⟩ := @toLoop_lws t p ⟨.displayToken, saved, foo, b⟩
      (.inr (.inl rfl)) l
    exact ⟨saved', .displayToken, .inr rfl, hrun⟩
  | cons m more ih =>
    obtain ⟨lws, w⟩ := m
    obtain ⟨-, -, hw⟩ := h (lws, w) mem_cons_self
    have htext : moreText ((lws, w) :: more) ++ (lwsText l ++ t) =
        lwsText lws ++ (w ++ (moreText more ++ (lwsText l ++ t))) := by
      simp [moreText]
    obtain ⟨saved₁, hlws⟩ := @toLoop_lws (w ++ (moreText more ++ (lwsText l ++ t))) p
      ⟨.displayToken, saved, foo, b⟩ (.inr (.inl rfl)) lws
    obtain ⟨saved₂, status, hstatus, hrun⟩ := @ih (p + (lwsText lws).length + w.length)
      saved₁ fun m hm => h m (mem_cons_of_mem _ hm)
    refine ⟨saved₂, status, hstatus, ?_⟩
    rw [htext, hlws]
    refine (toLoop_text hw (.inr rfl)).trans (hrun.trans ?_)
    congr 1
    simp only [moreText, flatMap_cons, List.length_append]
    omega

/-- All words of a name, with white space behind the first one. -/
theorem toLoop_words {w : Bytes} {more : List (List Lws × Bytes)} {l : List Lws}
    (hw : IsText isWord w) (hmore : ∀ m ∈ more, m.1 ≠ [] ∧ IsText isWord m.2)
    (hl : more ≠ [] ∨ l ≠ []) :
    ∃ saved' status, (status = .maybeUriEnd ∨ status = .displayToken) ∧
      toLoop (w ++ (moreText more ++ (lwsText l ++ t))) p ⟨.startTo, saved, foo, .start⟩ =
        toLoop t (p + w.length + (moreText more).length + (lwsText l).length)
          ⟨status, saved', p + w.length, startedWord p⟩ := by
  rw [toLoop_word hw]
  cases more with
  | nil =>
    obtain ⟨saved', hrun⟩ := @toLoop_wordEnd t (p + w.length) saved foo (startedWord p) l
      (hl.resolve_left (by simp))
    exact ⟨saved', .maybeUriEnd, .inl rfl, hrun⟩
  | cons m more =>
    obtain ⟨lws, x⟩ := m
    obtain ⟨hlws, hne, hx⟩ := hmore (lws, x) mem_cons_self
    have htext : moreText ((lws, x) :: more) ++ (lwsText l ++ t) =
        lwsText lws ++ (x ++ (moreText more ++ (lwsText l ++ t))) := by
      simp [moreText]
    obtain ⟨saved₁, hend⟩ := @toLoop_wordEnd (x ++ (moreText more ++ (lwsText l ++ t)))
      (p + w.length) saved foo (startedWord p) lws hlws
    have hword : toLoop (x ++ (moreText more ++ (lwsText l ++ t)))
        (p + w.length + (lwsText lws).length)
        ⟨.maybeUriEnd, saved₁, p + w.length, startedWord p⟩ =
        toLoop (moreText more ++ (lwsText l ++ t))
          (p + w.length + (lwsText lws).length + x.length)
          ⟨.displayToken, saved₁, p + w.length, startedWord p⟩ := by
      cases x with
      | nil => exact absurd rfl hne
      | cons c x =>
        have hstep : (⟨.maybeUriEnd, saved₁, p + w.length, startedWord p⟩ : ToVars).step c
            (p + w.length + (lwsText lws).length) =
            .next ⟨.displayToken, saved₁, p + w.length, startedWord p⟩ :=
          step_isWord (hx c mem_cons_self) _ _
        rw [cons_append, toLoop_next hstep,
          toLoop_text (fun d hd => hx d (mem_cons_of_mem c hd)) (.inr rfl),
          length_cons, Nat.add_right_comm, Nat.add_assoc]
    obtain ⟨saved₂, status, hstatus, hrun⟩ := @toLoop_more t
      (p + w.length + (lwsText lws).length + x.length) saved₁ (p + w.length)
      (startedWord p) more (fun m hm => hmore m (mem_cons_of_mem _ hm)) l
    refine ⟨saved₂, status, hstatus, ?_⟩
    rw [htext, hend, hword, hrun]
    congr 1
    simp only [moreText, flatMap_cons, List.length_append]
    omega

/-! ## Quoted names -/

/-- A piece of a quoted name that is read: a folded line is not. -/
def Qtext.isLine : Qtext → Bool
  | .byte _ => true
  | .pair _ => true
  | .fold _ _ => false

theorem step_displayQuoted (h : isQdtext c = true) (p : ℕ) :
    (⟨.displayQuoted, saved, foo, b⟩ : ToVars).step c p =
      .next ⟨.displayQuoted, saved, foo, b⟩ := by
  obtain ⟨hlf, hcr, hnul, hbackslash, hquote⟩ := charClass_isQdtext h
  unfold step
  cases hc : charClass c <;>
    first
    | exact absurd hc hlf
    | exact absurd hc hcr
    | exact absurd hc hnul
    | exact absurd hc hbackslash
    | exact absurd hc hquote
    | rfl

/-- Folded lines in a quoted name are errors. -/
theorem toLoop_qtext {q : List Qtext} (hq : QtextsOk q) :
    if q.all Qtext.isLine then
      toLoop (qtextText q ++ t) p ⟨.displayQuoted, saved, foo, b⟩ =
        toLoop t (p + (qtextText q).length) ⟨.displayQuoted, saved, foo, b⟩
    else
      (toLoop (qtextText q ++ t) p ⟨.displayQuoted, saved, foo, b⟩).1.error = true := by
  induction q generalizing p with
  | nil => rfl
  | cons x q ih =>
    have hx := hq x mem_cons_self
    have hrest : ∀ n, _ := fun n => @ih (p + n) fun y hy => hq y (mem_cons_of_mem x hy)
    cases x with
    | byte c =>
      have htext : qtextText (.byte c :: q) ++ t = c :: (qtextText q ++ t) := rfl
      have hlen : (qtextText (.byte c :: q)).length = (qtextText q).length + 1 := rfl
      rw [htext, hlen, toLoop_next (step_displayQuoted hx _), ← Nat.add_assoc,
        Nat.add_right_comm]
      exact hrest 1
    | pair c =>
      have htext : qtextText (.pair c :: q) ++ t = 92 :: c :: (qtextText q ++ t) := rfl
      have hlen : (qtextText (.pair c :: q)).length = (qtextText q).length + 2 := rfl
      have hskip : toLoop (92 :: c :: (qtextText q ++ t)) p
          ⟨.displayQuoted, saved, foo, b⟩ =
          toLoop (qtextText q ++ t) (p + 2) ⟨.displayQuoted, saved, foo, b⟩ := rfl
      rw [htext, hlen, hskip, ← Nat.add_assoc, Nat.add_right_comm]
      exact hrest 2
    | fold eol tab =>
      rw [if_neg (by simp [Qtext.isLine])]
      cases eol with
      | cr => exact @toLoop_error _ _ _ _ ⟨.displayQuoted, saved, foo, b⟩ rfl
      | lf => exact @toLoop_error _ _ _ _ ⟨.displayQuoted, saved, foo, b⟩ rfl
      | crlf => exact @toLoop_error _ _ _ _ ⟨.displayQuoted, saved, foo, b⟩ rfl

/-- A body with a quoted name. -/
def quotedName (p : ℕ) (q : List Qtext) : ToBody :=
  { ToBody.start with body := ⟨p, 0⟩, display := sliceAt p (quoted q) }

theorem toLoop_quoted {q : List Qtext} (hq : QtextsOk q) :
    if q.all Qtext.isLine then
      toLoop (quoted q ++ t) p ⟨.startTo, saved, foo, .start⟩ =
        toLoop t (p + (quoted q).length) ⟨.eDisplayQuoted, saved, foo, quotedName p q⟩
    else
      (toLoop (quoted q ++ t) p ⟨.startTo, saved, foo, .start⟩).1.error = true := by
  have htext : quoted q ++ t = 34 :: (qtextText q ++ 34 :: t) := by simp [quoted]
  have hlen : (quoted q).length = (qtextText q).length + 2 := by simp [quoted]
  have hopen : toLoop (quoted q ++ t) p ⟨.startTo, saved, foo, .start⟩ =
      toLoop (qtextText q ++ 34 :: t) (p + 1) ⟨.displayQuoted, saved, foo,
        { start with body := ⟨p, 0⟩, display := ⟨p, 0⟩ }⟩ := by
    rw [htext]
    exact toLoop_next rfl
  have hrun := @toLoop_qtext (34 :: t) (p + 1) saved foo
    { start with body := ⟨p, 0⟩, display := ⟨p, 0⟩ } q hq
  rw [hopen]
  split_ifs at hrun ⊢ with hall
  · have hdiff : ptrDiff (p + 1 + (qtextText q).length) p + 1 =
        (((qtextText q).length + 2 : ℕ) : ℤ) := by
      simp only [ptrDiff]
      omega
    rw [hrun, @toLoop_next _ _ _ _ ⟨.eDisplayQuoted, saved, foo, quotedName p q⟩ ?_, hlen]
    · congr 1
      omega
    · simp [step, charClass, onQuote, goto, quotedName, sliceAt, hlen,
        hdiff]
  · exact hrun

/-! ## URIs in brackets -/

theorem toLoop_uri {x : Bytes} (h : ∀ c ∈ x, isUri c = true) :
    toLoop (x ++ t) p ⟨.uriEnclosed, saved, foo, b⟩ =
      toLoop t (p + x.length) ⟨.uriEnclosed, saved, foo, b⟩ := by
  induction x generalizing p with
  | nil => rfl
  | cons c x ih =>
    have hstep : (⟨.uriEnclosed, saved, foo, b⟩ : ToVars).step c p =
        .next ⟨.uriEnclosed, saved, foo, b⟩ := by
      by_cases hc : c = 59
      · rw [hc]
        rfl
      · exact step_isWord (isWord_of_isUri (h c mem_cons_self) hc) _ _
    rw [cons_append, toLoop_next hstep, ih fun d hd => h d (mem_cons_of_mem c hd),
      length_cons, Nat.add_right_comm, Nat.add_assoc]

theorem toLoop_uriStart (h : IsText isUri uri) (hsemi : uri.head? ≠ some 59) :
    toLoop (uri ++ t) p ⟨.sUriEnclosed, saved, foo, b⟩ =
      toLoop t (p + uri.length) ⟨.uriEnclosed, saved, foo,
        { b with uri := { b.uri with s := p } }⟩ := by
  obtain ⟨hne, hall⟩ := h
  cases uri with
  | nil => exact absurd rfl hne
  | cons c uri =>
    have hc : c ≠ 59 := fun heq => hsemi (by rw [heq]; rfl)
    have hstep : (⟨.sUriEnclosed, saved, foo, b⟩ : ToVars).step c p =
        .next ⟨.uriEnclosed, saved, foo, { b with uri := { b.uri with s := p } }⟩ :=
      step_isWord (isWord_of_isUri (hall c mem_cons_self) hc) _ _
    rw [cons_append, toLoop_next hstep,
      toLoop_uri fun d hd => hall d (mem_cons_of_mem c hd), length_cons,
      Nat.add_right_comm, Nat.add_assoc]

theorem toLoop_enclosed (h : IsText isUri uri)
    (hsemi : uri.head? ≠ some 59) :
    toLoop (uri ++ 62 :: t) p ⟨.sUriEnclosed, saved, foo, b⟩ =
      toLoop t (p + uri.length + 1) ⟨.endTo, saved, 0, { b with uri := sliceAt p uri }⟩ := by
  rw [toLoop_uriStart h hsemi]
  refine toLoop_next ?_
  simp [step, charClass, onGt, uriEnd, goto, sliceAt, ptrDiff_add]

/-! ## Names and URIs -/

/-- The display name as it is found: the first word, if white space ends it. -/
def Display.found (p : ℕ) : Display → Str
  | .none => ⟨0, 0⟩
  | .quoted q _ => sliceAt p (To.quoted q)
  | .words w more lws =>
    if more = [] ∧ lws = [] then ⟨p, ptrDiff 0 p⟩ else sliceAt p w

def Address.displayFound (p : ℕ) : Address → Str
  | .enclosed display _ => display.found p
  | .bare _ => ⟨p, 0⟩

/-- A name and a URI that are read. -/
def Address.isRead : Address → Bool
  | .enclosed (.quoted q _) _ => q.all Qtext.isLine
  | _ => true

/-- The body when name and URI have been passed. -/
def Address.found (p : ℕ) (a : Address) : ToBody :=
  { ToBody.start with body := ⟨p, 0⟩, uri := a.uriAt p, display := a.displayFound p }

theorem toLoop_display {display : Display} (h : display.WellFormed)
    (hread : ∀ q l, display = .quoted q l → q.all Qtext.isLine = true) :
    ∃ saved foo u, toLoop (display.text ++ 60 :: t) p ⟨.startTo, .startTo, 0, .start⟩ =
      toLoop t (p + display.text.length + 1) ⟨.sUriEnclosed, saved, foo,
        { ToBody.start with body := ⟨p, 0⟩, uri := u, display := display.found p }⟩ := by
  cases display with
  | none => exact ⟨.startTo, 0, ⟨0, 0⟩, toLoop_next rfl⟩
  | quoted q l =>
    have hrun := @toLoop_quoted (lwsText l ++ 60 :: t) p .startTo 0 q h
    rw [if_pos (hread q l rfl)] at hrun
    obtain ⟨saved, hlws⟩ := @toLoop_lws (60 :: t) (p + (To.quoted q).length)
      ⟨.eDisplayQuoted, .startTo, 0, quotedName p q⟩ (.inr (.inr (.inl rfl))) l
    refine ⟨saved, 0, ⟨0, 0⟩, ?_⟩
    rw [Display.text, append_assoc, hrun, hlws, List.length_append, ← Nat.add_assoc]
    exact toLoop_next rfl
  | words w more l =>
    obtain ⟨hw, hmore⟩ := h
    have htext : (Display.words w more l).text ++ 60 :: t =
        w ++ (moreText more ++ (lwsText l ++ 60 :: t)) := by
      simp [Display.text]
    by_cases hl : more ≠ [] ∨ l ≠ []
    · obtain ⟨saved, status, hstatus, hrun⟩ := @toLoop_words (60 :: t) p .startTo 0 w more l
        hw hmore hl
      refine ⟨saved, p + w.length, ⟨p, 0⟩, ?_⟩
      have hnot : ¬ (more = [] ∧ l = []) := fun hcontra =>
        hl.elim (fun h => h hcontra.1) fun h => h hcontra.2
      rw [htext, hrun]
      have hpos : p + w.length + (moreText more).length + (lwsText l).length + 1 =
          p + (Display.words w more l).text.length + 1 := by
        simp only [Display.text, List.length_append]
        omega
      rw [← hpos, Display.found, if_neg hnot]
      refine toLoop_next ?_
      rcases hstatus with rfl | rfl <;>
        simp [step, charClass, onLt, goto, startedWord, sliceAt,
          ptrDiff_add]
    · rw [not_or, not_not, not_not] at hl
      obtain ⟨rfl, rfl⟩ := hl
      refine ⟨.startTo, 0, ⟨p, 0⟩, ?_⟩
      have hpos : p + w.length + 1 = p + (Display.words w [] []).text.length + 1 := by
        simp [Display.text, moreText, lwsText]
      rw [htext, ← hpos, Display.found, if_pos ⟨rfl, rfl⟩]
      exact (toLoop_word hw).trans (toLoop_next rfl)

/-- A name and a URI in brackets, with the white space behind them. -/
theorem toLoop_address_enclosed {display : Display} {uri : Bytes}
    (h : (Address.enclosed display uri).WellFormed)
    (hread : (Address.enclosed display uri).isRead = true) (l : List Lws) :
    ∃ saved, toLoop ((Address.enclosed display uri).text ++ (lwsText l ++ t)) p
        ⟨.startTo, .startTo, 0, .start⟩ =
      toLoop t (p + (Address.enclosed display uri).text.length + (lwsText l).length)
        ⟨.endTo, saved, 0, (Address.enclosed display uri).found p⟩ := by
  obtain ⟨hdisplay, huri, hsemi⟩ := h
  have htext : (Address.enclosed display uri).text ++ (lwsText l ++ t) =
      display.text ++ 60 :: (uri ++ 62 :: (lwsText l ++ t)) := by
    simp [text]
  have hlen : p + (Address.enclosed display uri).text.length + (lwsText l).length =
      p + display.text.length + 1 + uri.length + 1 + (lwsText l).length := by
    simp only [text, List.length_append, length_cons, length_nil]
    omega
  obtain ⟨saved, foo, u, hname⟩ := @toLoop_display (uri ++ 62 :: (lwsText l ++ t)) p display
    hdisplay fun q l heq => by
      rw [heq] at hread
      exact hread
  obtain ⟨saved', hlws⟩ := @toLoop_lws t (p + display.text.length + 1 + uri.length + 1)
    ⟨.endTo, saved, 0, (Address.enclosed display uri).found p⟩ (.inr (.inr (.inr rfl))) l
  exact ⟨saved', by rw [htext, hlen, hname, toLoop_enclosed huri hsemi]; exact hlws⟩

/-- A quoted name with a folded line is an error. -/
theorem toLoop_address_error {a : Address} (h : a.WellFormed) (hread : a.isRead = false) :
    (toLoop (a.text ++ t) p ⟨.startTo, .startTo, 0, .start⟩).1.error = true := by
  cases a with
  | bare uri => exact absurd hread (by simp [isRead])
  | enclosed display uri =>
    cases display with
    | none => exact absurd hread (by simp [isRead])
    | words w more l => exact absurd hread (by simp [isRead])
    | quoted q l =>
      have hrun := @toLoop_quoted (lwsText l ++ 60 :: (uri ++ 62 :: t)) p .startTo 0 q h.1
      rw [if_neg (by rw [show q.all Qtext.isLine = false from hread]; decide)] at hrun
      have htext : (Address.enclosed (.quoted q l) uri).text ++ t =
          quoted q ++ (lwsText l ++ 60 :: (uri ++ 62 :: t)) := by
        simp [text, Display.text]
      rw [htext]
      exact hrun

/-! ## The end of the header -/

/-- A display name of length zero is the null string. -/
def ToBody.tidy (b : ToBody) : ToBody :=
  if b.display.len = 0 then { b with display := { b.display with s := 0 } } else b

/-- The slice of name and URI. -/
def ToBody.withBody (b : ToBody) (n : ℕ) : ToBody :=
  { b with body := { b.body with len := n } }

theorem finish_params (h : v.savedStatus = .eParaValue) (p : ℕ) :
    v.finish p = (v.body.tidy, p) := by
  unfold finish tidy
  split_ifs <;> simp [h]

theorem finish_endTo (h : v.savedStatus = .endTo) (p n : ℕ) (hs : v.body.body.s = p) :
    v.finish (p + n) = ((v.body.withBody n).tidy, p + n) := by
  have hn : ptrDiff (p + n) v.body.body.s = n := by rw [hs, ptrDiff_add]
  unfold finish tidy
  by_cases hlen : v.body.display.len = 0
  · rw [if_pos hlen, if_pos (show (v.body.withBody n).display.len = 0 from hlen)]
    simp [h, bodyEnd, withBody, hn]
  · rw [if_neg hlen, if_neg (show (v.body.withBody n).display.len ≠ 0 from hlen)]
    simp [h, bodyEnd, withBody, hn]

/-- The body with the slice of the URI. -/
def ToBody.withUri (b : ToBody) (uri : Str) : ToBody := { b with uri := uri }

theorem finish_maybeUriEnd (h : v.savedStatus = .maybeUriEnd) (p n : ℕ)
    (hs : v.body.body.s = p) (huri : v.body.uri.s = p)
    (hfoo : v.foo = p + uri.length) :
    v.finish (p + n) = (((v.body.withUri (sliceAt p uri)).withBody n).tidy, p + n) := by
  have hn : ptrDiff (p + n) v.body.body.s = n := by rw [hs, ptrDiff_add]
  have hu : ptrDiff v.foo p = uri.length := by rw [hfoo, ptrDiff_add]
  unfold finish tidy
  by_cases hlen : v.body.display.len = 0
  · rw [if_pos hlen, if_pos
      (show ((v.body.withUri (sliceAt p uri)).withBody n).display.len = 0 from hlen)]
    simp [h, bodyEnd, uriEnd, withBody, withUri, sliceAt, hn, hu,
      huri]
  · rw [if_neg hlen, if_neg
      (show ((v.body.withUri (sliceAt p uri)).withBody n).display.len ≠ 0 from hlen)]
    simp [h, bodyEnd, uriEnd, withBody, withUri, sliceAt, hn, hu,
      huri]

theorem finish_error (h : v.body.error = true) (p : ℕ) :
    (v.finish p).1.error = true := by
  obtain ⟨status, saved, foo, body⟩ := v
  unfold finish
  have hbody : body.error = true := h
  by_cases hlen : body.display.len = 0
  · cases saved <;> simp [fail, bodyEnd, uriEnd, hbody, hlen]
  · cases saved <;> simp [fail, bodyEnd, uriEnd, hbody, hlen]

theorem finish_sEqual (h : v.savedStatus = .sEqual) (p : ℕ) :
    (v.finish p).1.error = true := by
  unfold finish
  split_ifs <;> simp [h, fail]

/-- The next line does not start with white space. -/
theorem toStep_line (h : c ∉ ([32, 9, 92, 0] : Bytes)) {f : Status}
    (hf : f = .fCr ∨ f = .fLf ∨ f = .fCrlf) (hlf : f = .fCr → c ≠ 10)
    (saved : Status) (foo : ℕ) (b : ToBody) (p : ℕ) :
    ∃ status, (⟨f, saved, foo, b⟩ : ToVars).step c p =
      .endOfHeader ⟨status, saved, foo, b⟩ := by
  obtain ⟨hblank, hnul, hbackslash, hten⟩ := charClass_line h
  unfold step
  rcases hf with rfl | rfl | rfl <;> cases hc : charClass c <;>
    first
    | exact absurd hc hblank
    | exact absurd hc hnul
    | exact absurd hc hbackslash
    | exact absurd (hten hc) (hlf rfl)
    | exact ⟨_, rfl⟩

variable {eol : Eol} {rest : Bytes}

theorem toLoop_line (h : Rests v.status) (hrest : Follows eol rest) :
    ∃ status, toLoop (eol.text ++ rest) p v =
      ({ v with savedStatus := v.status, status := status } : ToVars).finish
        (p + eol.text.length) := by
  obtain ⟨f, hf, hcr, hrun⟩ := @toLoop_eol rest p v h eol
  rw [hrun]
  cases rest with
  | nil => exact ⟨f, rfl⟩
  | cons c rest =>
    obtain ⟨hc, hten⟩ := hrest c rfl
    obtain ⟨status, hstep⟩ := toStep_line hc hf (fun hf => hten (hcr hf)) v.status v.foo
      v.body (p + eol.text.length)
    exact ⟨status, toLoop_end hstep⟩

/-! ## Bodies -/

/-- The result of `parse_to`, with that of `parse_to_param`. -/
def finishParams (r : ToBody × Status × ℕ) (foo : ℕ) (status : Status) : ToBody × ℕ :=
  ToVars.finish ⟨status, r.2.1, foo, r.1⟩ r.2.2

/-- Behind name, URI and white space the parameters start. -/
theorem toLoop_semicolon {a : Address} (h : a.WellFormed) (hread : a.isRead = true)
    (l : List Lws) :
    ∃ foo status, toLoop (a.text ++ (lwsText l ++ 59 :: t)) p
        ⟨.startTo, .startTo, 0, .start⟩ =
      finishParams (parseToParam (59 :: t) (p + a.text.length + (lwsText l).length)
        ((a.found p).withBody (a.text.length + (lwsText l).length))) foo status := by
  have hdiff : ∀ n m : ℕ, ptrDiff (p + n + m) p = ((n + m : ℕ) : ℤ) := fun n m => by
    rw [Nat.add_assoc, ptrDiff_add]
  cases a with
  | enclosed display uri =>
    obtain ⟨saved, hrun⟩ := @toLoop_address_enclosed (59 :: t) p display uri h hread l
    refine ⟨0, .endTo, hrun.trans ?_⟩
    rw [toLoop]
    simp [step, charClass, onSemicolon, bodyEnd, finishParams,
      withBody, Address.found, hdiff]
  | bare uri =>
    have hwithBody : ∀ n : ℕ, ((Address.bare uri).found p).withBody n =
        { startedWord p with body := ⟨p, n⟩, uri := sliceAt p uri } := fun n => rfl
    cases l with
    | nil =>
      refine ⟨p + uri.length, .uriOrToken, (toLoop_word h).trans ?_⟩
      change toLoop (59 :: t) _ _ = _
      rw [hwithBody, toLoop]
      simp [step, charClass, onSemicolon, bodyEnd, uriEnd,
        finishParams, text, lwsText, startedWord, sliceAt, ptrDiff_add]
    | cons x l =>
      obtain ⟨saved, hrun⟩ := @toLoop_wordEnd (59 :: t) (p + uri.length) .startTo 0
        (startedWord p) (x :: l) (cons_ne_nil x l)
      refine ⟨p + uri.length, .maybeUriEnd, (toLoop_word h).trans (hrun.trans ?_)⟩
      rw [hwithBody, toLoop]
      simp [step, charClass, onSemicolon, bodyEnd, uriEnd,
        finishParams, text, startedWord, sliceAt, ptrDiff_add, hdiff]

theorem toLoop_noParams {a : Address} (h : a.WellFormed) (hread : a.isRead = true)
    (hrest : Follows eol rest) (l : List Lws) :
    toLoop (a.text ++ (lwsText l ++ (eol.text ++ rest))) p
        ⟨.startTo, .startTo, 0, .start⟩ =
      (((a.found p).withBody (a.text.length + (lwsText l).length + eol.text.length)).tidy,
        p + (a.text.length + (lwsText l).length + eol.text.length)) := by
  have hpos : p + a.text.length + (lwsText l).length + eol.text.length =
      p + (a.text.length + (lwsText l).length + eol.text.length) := by omega
  cases a with
  | enclosed display uri =>
    obtain ⟨saved, hrun⟩ := @toLoop_address_enclosed (eol.text ++ rest) p display uri h
      hread l
    obtain ⟨status, hline⟩ := @toLoop_line
      (p + (Address.enclosed display uri).text.length + (lwsText l).length)
      ⟨.endTo, saved, 0, (Address.enclosed display uri).found p⟩ eol rest
      (.inr (.inr (.inr rfl))) hrest
    rw [hrun, hline, hpos]
    exact finish_endTo rfl p _ rfl
  | bare uri =>
    -- a URI that ends at the line end may have ended as well
    have hend : ∃ saved, toLoop (lwsText l ++ (eol.text ++ rest)) (p + uri.length)
        ⟨.uriOrToken, .startTo, 0, startedWord p⟩ =
        toLoop (eol.text ++ rest) (p + uri.length + (lwsText l).length)
          ⟨.maybeUriEnd, saved, p + uri.length, startedWord p⟩ := by
      cases l with
      | nil => exact ⟨.startTo, by cases eol <;> rfl⟩
      | cons x l => exact toLoop_wordEnd (cons_ne_nil x l)
    obtain ⟨saved, hend⟩ := hend
    obtain ⟨status, hline⟩ := @toLoop_line (p + uri.length + (lwsText l).length)
      ⟨.maybeUriEnd, saved, p + uri.length, startedWord p⟩ eol rest (.inl rfl) hrest
    refine (toLoop_word h).trans (hend.trans (hline.trans ?_))
    rw [show p + uri.length = p + (Address.bare uri).text.length from rfl, hpos]
    exact finish_maybeUriEnd rfl p _ rfl rfl rfl

/-- A body that is read. -/
def Body.isRead (b : Body) : Bool := b.address.isRead && b.params.all Param.isRead

/-- How long the slice of name and URI is: up to the first `;`, or up to the end
of the header. -/
def Body.addressLength (b : Body) (eol : Eol) : ℕ :=
  b.address.text.length + (lwsText b.lws).length +
    if b.params = [] then eol.text.length else 0

/-- Where the first `;` is. -/
def Body.paramsAt (p : ℕ) (b : Body) : ℕ :=
  p + b.address.text.length + (lwsText b.lws).length

/-- The body as it is found. -/
def Body.found (p : ℕ) (b : Body) (eol : Eol) : ToBody :=
  (((b.address.found p).withBody (b.addressLength eol)).addAll
    (paramsFound (b.paramsAt p) b.params)).tidy

theorem addAll_error (b : ToBody) (ps : List ToParam) : (b.addAll ps).error = b.error := by
  induction ps generalizing b with
  | nil => rfl
  | cons x ps ih => exact ih (b.addParam x)

theorem finishParams_error {r : ToBody × Status × ℕ}
    (h : r.1.error = true ∨ r.2.1 = .sEqual) (foo : ℕ) (status : Status) :
    (finishParams r foo status).1.error = true := by
  rcases h with h | h
  · exact finish_error h _
  · exact finish_sEqual h _

/-- `parse_to` on a body of the grammar. -/
theorem parseTo_body {b : Body} (h : b.WellFormed) (hrest : Follows eol rest) :
    if b.isRead then
      parseTo (b.text ++ (eol.text ++ rest)) p =
        (b.found p eol, p + (b.text.length + eol.text.length))
    else (parseTo (b.text ++ (eol.text ++ rest)) p).1.error = true := by
  obtain ⟨address, l, params⟩ := b
  cases hread : address.isRead with
  | false =>
    rw [Body.isRead, hread, Bool.false_and, if_neg (by decide), Body.text, append_assoc,
      append_assoc]
    exact toLoop_address_error h.address hread
  | true =>
    rw [Body.isRead, hread, Bool.true_and]
    cases params with
    | nil =>
      have hrun := @toLoop_noParams p eol rest address h.address hread hrest l
      have htext : (⟨address, l, []⟩ : Body).text ++ (eol.text ++ rest) =
          address.text ++ (lwsText l ++ (eol.text ++ rest)) := by
        simp [Body.text, paramsText]
      have hlen : (⟨address, l, []⟩ : Body).text.length + eol.text.length =
          address.text.length + (lwsText l).length + eol.text.length := by
        simp [Body.text, paramsText]
      rw [if_pos (by rfl), htext, hlen]
      exact hrun
    | cons a as =>
      obtain ⟨foo, status, hrun⟩ := @toLoop_semicolon
        (a.text ++ (paramsText as ++ (eol.text ++ rest))) p address h.address hread l
      have htext : (⟨address, l, a :: as⟩ : Body).text ++ (eol.text ++ rest) =
          address.text ++ (lwsText l ++ 59 :: (a.text ++ (paramsText as ++
            (eol.text ++ rest)))) := by
        simp [Body.text, paramsText]
      have hparams : paramsText (a :: as) ++ (eol.text ++ rest) =
          59 :: (a.text ++ (paramsText as ++ (eol.text ++ rest))) := by
        simp [paramsText]
      have hlist := @parseToParam_list (p + address.text.length + (lwsText l).length)
        ((address.found p).withBody (address.text.length + (lwsText l).length)) a as eol rest
        h.params hrest
      rw [htext, parseTo, hrun, ← hparams]
      split_ifs at hlist ⊢ with hall
      · have hlen : p + ((⟨address, l, a :: as⟩ : Body).text.length + eol.text.length) =
            p + address.text.length + (lwsText l).length + (paramsText (a :: as)).length +
              eol.text.length := by
          simp only [Body.text, List.length_append]
          omega
        rw [hlist, hlen]
        exact finish_params rfl _
      · exact finishParams_error hlist foo status

end Msicp.To
