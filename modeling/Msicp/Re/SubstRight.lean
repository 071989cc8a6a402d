import Msicp.Re.SubstRun

/-!
# Substitutions are right unless they are stuck

What is listed and what is built is always right.  The search goes on for ever
where it is stuck, as long as there is memory.
-/

namespace Msicp.Re

open Msicp.Support List Option ReplaceLst

variable {mem : Grants} {se : SubstExpr} {input text : Bytes} {msg : Msg}
  {pmatch : Pmatch}

/-- What has matched lies in the text. -/
def Within (text : Bytes) (pmatch : Pmatch) : Prop :=
  ∀ k so eo, pmatch k = some (so, eo) → so ≤ eo ∧ eo ≤ text.length

variable {notbol : Bool} {p n fuel : ℕ} {ls : List ReplaceLst}

theorem within_exec (h : se.re.exec text notbol = some pmatch) :
    Within text pmatch :=
  fun _ _ _ hk => se.re.bounds h hk

/-! ## One replacement -/

theorem lenStep_eq (hin : Within text pmatch) (len : ℤ) (r : ReplaceWith) :
    lenStep se msg pmatch len r =
      len + ((escapeText se msg text pmatch r.type).length - r.size) := by
  rw [lenStep]
  cases r.type with
  | nmatch k =>
    simp only [escapeText]
    by_cases hk : k < se.maxPmatch + 1
    · simp only [if_pos hk]
      cases hmatch : pmatch k with
      | none =>
        simp only [length_nil]
        omega
      | some m =>
        obtain ⟨so, eo⟩ := m
        have hle := hin k so eo hmatch
        have hlen : ((text.drop so).take (eo - so)).length = eo - so := by
          rw [length_take, length_drop]
          omega
        simp only [hlen]
        omega
    · simp only [if_neg hk, length_nil]
      omega
  | char c =>
    simp only [escapeText, length_singleton]
    omega
  | uri =>
    simp only [escapeText]
    cases msg.isRequest with
    | true =>
      simp only [if_true]
      omega
    | false =>
      simp only [Bool.false_eq_true, if_false, length_nil]
      omega

theorem foldl_lenStep (hin : Within text pmatch) (len : ℤ) (rs : List ReplaceWith) :
    rs.foldl (lenStep se msg pmatch) len =
      len + growth (edits (escapeText se msg text pmatch) rs) := by
  induction rs generalizing len with
  | nil => simp [edits, growth]
  | cons r rs ih =>
    have hedits : edits (escapeText se msg text pmatch) (r :: rs) =
        ⟨r.offset, r.size, escapeText se msg text pmatch r.type⟩ ::
          edits (escapeText se msg text pmatch) rs := rfl
    rw [foldl_cons, ih, lenStep_eq hin, hedits, growth_cons]
    dsimp only
    omega

theorem buildLoop_eq {rs : List ReplaceWith} (dest : Bytes)
    (h : Ordered p (edits (escapeText se msg text pmatch) rs) se.replacement.length) :
    buildLoop se msg text pmatch p dest rs = dest ++ splice se.replacement p
        (edits (escapeText se msg text pmatch) rs) := by
  induction rs generalizing p dest with
  | nil => rfl
  | cons r rs ih =>
    obtain ⟨hle, hrest⟩ := h
    have hle' : p ≤ r.offset := hle
    have hp : p + (r.offset - p + r.size) = r.offset + r.size := by omega
    rw [buildLoop, hp, ih _ hrest]
    simp [edits, splice]

theorem length_expansion (hwf : se.WellFormed) (hin : Within text pmatch) :
    ((expansion se msg text pmatch).length : ℤ) = replaceLen se msg pmatch := by
  have hlen := length_splice (hwf (escapeText se msg text pmatch))
  rw [expansion, hlen, replaceLen, foldl_lenStep hin]
  omega

theorem replaceBuild_some {n' : ℕ} {rpl : Str} (hwf : se.WellFormed) (hin : Within text pmatch)
    (h : replaceBuild mem n se msg text pmatch = (some rpl, n')) :
    rpl = Str.of (expansion se msg text pmatch) ∧
      (rpl.s.length : ℤ) = replaceLen se msg pmatch := by
  have hlen := @length_expansion _ _ msg _ hwf hin
  have hright : rpl = Str.of (expansion se msg text pmatch) := by
    simp only [replaceBuild] at h
    split_ifs at h with hzero hmem
    · have hnil : expansion se msg text pmatch = [] := by
        apply length_eq_zero_iff.mp
        omega
      simp only [Prod.mk.injEq, some.injEq] at h
      rw [← h.1, hzero, hnil]
      rfl
    · simp only [Prod.mk.injEq, some.injEq] at h
      rw [← h.1, buildLoop_eq [] (hwf _), nil_append, ← hlen]
      rfl
    · simp at h
  rw [hright]
  exact ⟨rfl, hlen⟩

/-! ## The list -/

theorem substLoop_listed (hwf : se.WellFormed) {n' : ℕ}
    {lst out : List ReplaceLst}
    (h : substLoop mem se input msg fuel p notbol n lst = some (some out, n')) :
    ∃ ls, out = lst ++ ls ∧ Listed se msg input p notbol ls := by
  induction fuel generalizing p notbol n lst with
  | zero => simp [substLoop] at h
  | succ fuel ih =>
    rw [substLoop] at h
    cases hexec : se.re.exec (input.drop p) notbol with
    | none =>
      simp only [hexec, some.injEq, Prod.mk.injEq] at h
      exact ⟨[], by simp [h.1], Listed.done hexec⟩
    | some pmatch =>
      simp only [hexec] at h
      by_cases hmem : mem n = false
      · simp [hmem] at h
      · rw [if_neg hmem] at h
        cases hwhole : pmatch 0 with
        | none => simp [hwhole] at h
        | some m =>
          obtain ⟨so, eo⟩ := m
          simp only [hwhole] at h
          cases hbuild : replaceBuild mem (n + 1) se msg (input.drop p) pmatch with
          | mk rpl n₁ =>
            cases rpl with
            | none => simp [hbuild] at h
            | some rpl =>
              obtain ⟨rfl, -⟩ := replaceBuild_some hwf (within_exec hexec) hbuild
              simp only [hbuild] at h
              cases hall : se.replaceAll with
              | true =>
                rw [hall, if_pos rfl] at h
                obtain ⟨ls, rfl, hls⟩ := ih h
                exact ⟨_ :: ls, by simp, Listed.more hexec hwhole hall hls⟩
              | false =>
                simp only [hall, Bool.false_eq_true, if_false, some.injEq, Prod.mk.injEq] at h
                exact ⟨_, h.1.symm, Listed.only hexec hwhole hall⟩

theorem Listed.ordered (h : Listed se msg input p notbol ls) (hp : p ≤ input.length) :
    Ordered p (ls.map ReplaceLst.edit) input.length := by
  induction h with
  | done => exact hp
  | only hexec hwhole =>
    have hin := se.re.bounds hexec hwhole
    rw [length_drop] at hin
    refine ⟨Nat.le_add_left _ _, ?_⟩
    show _ ≤ _
    simp only [edit]
    omega
  | @more p so eo notbol pmatch ls hexec hwhole hall hrest ih =>
    have hin := se.re.bounds hexec hwhole
    rw [length_drop] at hin
    have hlast := ih (by omega)
    refine ⟨Nat.le_add_left _ _, ?_⟩
    simp only [edit]
    rw [show so + p + (eo - so) = p + eo by omega]
    exact hlast

theorem Listed.len (h : Listed se msg input p notbol ls) :
    ∀ l ∈ ls, l.rpl.len = l.rpl.s.length := by
  induction h with
  | done => simp
  | only => simp [Str.of]
  | more hexec hwhole hall hrest ih => simpa [Str.of] using ih

/-! ## The text -/

theorem foldl_strLen (len : ℤ) (h : ∀ l ∈ ls, l.rpl.len = l.rpl.s.length) :
    ls.foldl (fun (len : ℤ) l => len + (l.rpl.len - l.size)) len =
      len + growth (ls.map ReplaceLst.edit) := by
  induction ls generalizing len with
  | nil => simp [growth]
  | cons l ls ih =>
    rw [foldl_cons, ih _ fun l hl => h l (mem_cons_of_mem _ hl),
      map_cons, growth_cons, h l mem_cons_self]
    simp only [edit]
    omega

theorem strLoop_eq (dest : Bytes) (hlen : ∀ l ∈ ls, l.rpl.len = l.rpl.s.length)
    (h : Ordered p (ls.map ReplaceLst.edit) input.length) :
    strLoop input p dest ls = dest ++ splice input p (ls.map ReplaceLst.edit) := by
  induction ls generalizing p dest with
  | nil => rfl
  | cons l ls ih =>
    obtain ⟨hle, hrest⟩ := h
    have hle' : p ≤ l.offset := hle
    have hp : p + (l.offset - p + l.size) = l.edit.offset + l.edit.size := by
      simp only [edit]
      omega
    have hcopied : ∀ d : Bytes, (if l.rpl.len = 0 then d else d ++ l.rpl.s.take l.rpl.len.toNat) =
          d ++ l.rpl.s := by
      intro d
      rw [hlen l mem_cons_self, Int.toNat_natCast, take_length]
      split_ifs with hzero
      · rw [length_eq_zero_iff.mp (Int.natCast_eq_zero.mp hzero), append_nil]
      · rfl
    rw [strLoop, hp, hcopied, ih _ (fun l hl => hlen l (mem_cons_of_mem _ hl)) hrest]
    simp [edit, splice]

theorem substRun_listed (hwf : se.WellFormed)
    {lst : List ReplaceLst}
    (h : substRun mem fuel se input msg = some (some lst, n)) :
    Listed se msg input 0 false lst := by
  rw [substRun] at h
  split_ifs at h with hmem
  · obtain ⟨ls, rfl, hls⟩ := substLoop_listed hwf h
    exact hls
  · simp at h

theorem substStr_spliced (hwf : se.WellFormed) {res : Str}
    (h : substStr mem fuel se input msg = some (some res)) :
    ∃ lst, Listed se msg input 0 false lst ∧ Spliced 0 input (lst.map ReplaceLst.edit) res.s ∧
      res.len = res.s.length := by
  rw [substStr, map_eq_some_iff] at h
  obtain ⟨⟨lst, n⟩, hrun, hres⟩ := h
  match lst with
  | none => simp at hres
  | some [] => simp at hres
  | some (l :: ls) =>
    have hls := substRun_listed hwf hrun
    have hord := hls.ordered (Nat.zero_le _)
    simp only at hres
    split_ifs at hres with hmem
    obtain rfl := some.inj hres
    refine ⟨l :: ls, hls, ?_, ?_⟩
    · show Spliced 0 input _ (strLoop input 0 [] (l :: ls))
      rw [strLoop_eq [] hls.len hord]
      exact spliced_splice hord
    · show strLen input (l :: ls) = ((strLoop input 0 [] (l :: ls)).length : ℤ)
      rw [strLoop_eq [] hls.len hord, nil_append, length_splice hord,
        strLen, foldl_strLen _ hls.len]
      omega

end Msicp.Re

/-!
## When a substitution ends

A search that is not stuck moves on, and one that is asks for memory.
-/

namespace Msicp.Re

open Msicp.Support

variable {mem : Grants} {se : SubstExpr} {input : Bytes} {msg : Msg}

theorem replaceBuild_granted {n n' k : ℕ} {text : Bytes} {pmatch : Pmatch}
    {rpl : Str} (h : replaceBuild mem n se msg text pmatch = (some rpl, n'))
    (hk : mem k = false) (hle : n ≤ k) : n ≤ n' ∧ n' ≤ k := by
  simp only [replaceBuild] at h
  split_ifs at h with hzero hmem
  · simp only [Prod.mk.injEq] at h
    omega
  · have hne : n ≠ k := by
      rintro rfl
      exact absurd hmem (by simp [hk])
    simp only [Prod.mk.injEq] at h
    omega
  · simp at h

/-- A step ends the run, or goes on behind a match; no refusal is passed. -/
theorem substLoop_step (p n : ℕ) (notbol : Bool) (lst : List ReplaceLst) :
    (∃ out, ∀ fuel, substLoop mem se input msg (fuel + 1) p notbol n lst = some out) ∨
      ∃ so eo pmatch n' lst', se.re.exec (input.drop p) notbol = some pmatch ∧
        pmatch 0 = some (so, eo) ∧ se.replaceAll = true ∧
        (∀ k, mem k = false → n ≤ k → n < n' ∧ n' ≤ k) ∧
        ∀ fuel, substLoop mem se input msg (fuel + 1) p notbol n lst =
          substLoop mem se input msg fuel (p + eo) true n' lst' := by
  cases hexec : se.re.exec (input.drop p) notbol with
  | none => exact .inl ⟨(some lst, n), fun fuel => by simp [substLoop, hexec]⟩
  | some pmatch =>
    by_cases hmem : mem n = false
    · exact .inl ⟨(none, n + 1), fun fuel => by simp [substLoop, hexec, hmem]⟩
    · cases hwhole : pmatch 0 with
      | none =>
        exact .inl ⟨(none, n + 1), fun fuel => by
          simp [substLoop, hexec, hmem, hwhole]⟩
      | some m =>
        obtain ⟨so, eo⟩ := m
        cases hbuild : replaceBuild mem (n + 1) se msg (input.drop p) pmatch with
        | mk rpl n₁ =>
          cases rpl with
          | none =>
            exact .inl ⟨(none, n₁), fun fuel => by
              simp [substLoop, hexec, hmem, hwhole, hbuild]⟩
          | some rpl =>
            cases hall : se.replaceAll with
            | false =>
              exact .inl ⟨(some (lst ++ [⟨so + p, eo - so, rpl⟩]), n₁), fun fuel => by
                simp [substLoop, hexec, hmem, hwhole, hbuild, hall]⟩
            | true =>
              refine .inr ⟨so, eo, pmatch, n₁, lst ++ [⟨so + p, eo - so, rpl⟩],
                rfl, hwhole, rfl, ?_, fun fuel => by
                  simp [substLoop, hexec, hmem, hwhole, hbuild, hall]⟩
              intro k hk hle
              have hne : n ≠ k := by
                rintro rfl
                exact hmem hk
              have hbound := replaceBuild_granted hbuild hk (by omega)
              omega

/-- Behind a match the run goes on, if there is memory. -/
theorem substLoop_match (hmem : ∀ k, mem k = true) {p so eo : ℕ} {notbol : Bool}
    {pmatch : Pmatch} (hexec : se.re.exec (input.drop p) notbol = some pmatch)
    (hwhole : pmatch 0 = some (so, eo)) (hall : se.replaceAll = true)
    (n : ℕ) (lst : List ReplaceLst) :
    ∃ n' lst', ∀ fuel, substLoop mem se input msg (fuel + 1) p notbol n lst =
      substLoop mem se input msg fuel (p + eo) true n' lst' := by
  cases hbuild : replaceBuild mem (n + 1) se msg (input.drop p) pmatch with
  | mk rpl n₁ =>
    cases rpl with
    | none =>
      simp only [replaceBuild, hmem, if_true] at hbuild
      split_ifs at hbuild
      · simp at hbuild
      · simp at hbuild
    | some rpl =>
      exact ⟨n₁, lst ++ [⟨so + p, eo - so, rpl⟩], fun fuel => by
        simp [substLoop, hexec, hmem, hwhole, hbuild, hall]⟩

theorem substLoop_refused {k : ℕ} (hk : mem k = false) (p n : ℕ) (notbol : Bool)
    (lst : List ReplaceLst) (hle : n ≤ k) :
    ∃ fuel out, substLoop mem se input msg fuel p notbol n lst = some out := by
  induction hd : k - n using Nat.strong_induction_on generalizing p n notbol lst with
  | _ d ih =>
    rcases @substLoop_step mem se input msg
        p n notbol lst with ⟨out, hout⟩ | ⟨so, eo, pmatch, n', lst', -, -, -, hn, hnext⟩
    · exact ⟨1, out, hout 0⟩
    · have hbound := hn k hk hle
      obtain ⟨fuel, out, hout⟩ := ih (k - n') (by omega) (p + eo) n' true lst' hbound.2 rfl
      exact ⟨fuel + 1, out, (hnext fuel).trans hout⟩

/-- A search that is not stuck comes to an end. -/
theorem substLoop_free (hfree : ¬ Stuck se input) (p n : ℕ) (notbol : Bool)
    (lst : List ReplaceLst) (hreach : Reached se input p notbol)
    (hp : p ≤ input.length) :
    ∃ fuel out, substLoop mem se input msg fuel p notbol n lst = some out := by
  induction hd : input.length - p + (!notbol).toNat using Nat.strong_induction_on
    generalizing p n notbol lst with
  | _ d ih =>
    rcases @substLoop_step mem se input msg p n notbol lst with
      ⟨out, hout⟩ | ⟨so, eo, pmatch, n', lst', hexec, hwhole, hall, -, hnext⟩
    · exact ⟨1, out, hout 0⟩
    · have hin := se.re.bounds hexec hwhole
      rw [List.length_drop] at hin
      have hmoves : notbol = true → eo ≠ 0 := by
        rintro rfl rfl
        exact hfree ⟨hall, p, so, pmatch, hreach, hexec, hwhole⟩
      have hless : input.length - (p + eo) + (!true).toNat < d := by
        cases notbol with
        | false =>
          simp only [Bool.not_false, Bool.toNat_true] at hd
          simp only [Bool.not_true, Bool.toNat_false]
          omega
        | true =>
          have hpos := hmoves rfl
          simp only [Bool.not_true, Bool.toNat_false] at hd ⊢
          omega
      obtain ⟨fuel, out, hout⟩ := ih _ hless (p + eo) n' true lst'
        (hreach.next hexec hwhole) (by omega) rfl
      exact ⟨fuel + 1, out, (hnext fuel).trans hout⟩

theorem substRun_reached (hmem : ∀ k, mem k = true) (hall : se.replaceAll = true)
    {p fuel : ℕ} {notbol : Bool} {out : Option (List ReplaceLst) × ℕ}
    (hreach : Reached se input p notbol)
    (h : substRun mem fuel se input msg = some out) :
    ∃ fuel n lst, substLoop mem se input msg fuel p notbol n lst = some out := by
  induction hreach with
  | start =>
    rw [substRun, if_pos (hmem 0)] at h
    exact ⟨fuel, 1, [], h⟩
  | next hreach hexec hwhole ih =>
    obtain ⟨fuel, n, lst, hloop⟩ := ih
    obtain ⟨n', lst', hnext⟩ := @substLoop_match _ _ _ msg hmem _ _ _ _ _ hexec hwhole hall n lst
    cases fuel with
    | zero => simp [substLoop] at hloop
    | succ fuel => exact ⟨fuel, n', lst', (hnext fuel).symm.trans hloop⟩

theorem substLoop_stuck (hmem : ∀ k, mem k = true) {p so : ℕ} {pmatch : Pmatch}
    (hexec : se.re.exec (input.drop p) true = some pmatch)
    (hwhole : pmatch 0 = some (so, 0)) (hall : se.replaceAll = true)
    (fuel n : ℕ) (lst : List ReplaceLst) :
    substLoop mem se input msg fuel p true n lst = none := by
  induction fuel generalizing n lst with
  | zero => rfl
  | succ fuel ih =>
    obtain ⟨n', lst', hnext⟩ := @substLoop_match _ _ _ msg hmem _ _ _ _ _ hexec hwhole hall n lst
    rw [hnext fuel]
    exact ih n' lst'

theorem substRun_returns_iff : (∃ fuel out, substRun mem fuel se input msg = some out) ↔
      ¬ Stuck se input ∨ ∃ k, mem k = false := by
  constructor
  · rintro ⟨fuel, out, hrun⟩
    by_contra h
    push Not at h
    obtain ⟨⟨hall, p, so, pmatch, hreach, hexec, hwhole⟩, hmem⟩ := h
    have hmem' : ∀ k, mem k = true := fun k => by simpa using hmem k
    obtain ⟨fuel', n, lst, hloop⟩ := substRun_reached hmem' hall hreach hrun
    rw [substLoop_stuck hmem' hexec hwhole hall] at hloop
    exact absurd hloop (by simp)
  · intro h
    cases hzero : mem 0 with
    | false => exact ⟨0, (none, 1), by simp [substRun, hzero]⟩
    | true =>
      simp only [substRun, hzero, if_true]
      rcases h with hfree | ⟨k, hk⟩
      · exact substLoop_free hfree 0 1 false [] Reached.start (Nat.zero_le _)
      · have hne : k ≠ 0 := by
          rintro rfl
          exact absurd hk (by simp [hzero])
        exact substLoop_refused hk 0 1 false [] (by omega)

/-- An expression that has been read is applied rightly unless its search is
stuck, or ends for want of memory. -/
theorem subst_right_iff {regcomp : Bytes → Bool → Bool → Option Regex}
    {mem₀ : Grants} {subst : Bytes} {se : SubstExpr}
    (h : substParser regcomp mem₀ subst = some se) (mem : Grants) (input : Bytes)
    (msg : Msg) :
    Right mem se input msg ↔ ¬ Stuck se input ∨ ∃ k, mem k = false := by
  have hwf := substParser_wellFormed h
  rw [← @substRun_returns_iff _ _ _ msg]
  constructor
  · exact Right.returns
  · intro hreturns
    refine ⟨hreturns, ?_, ?_, ?_⟩
    · intro fuel lst n hrun
      have hlst := substRun_listed hwf hrun
      exact ⟨hlst, hlst.ordered (Nat.zero_le _)⟩
    · intro text notbol pmatch hexec n rpl n' hbuild
      exact (replaceBuild_some hwf (within_exec hexec) hbuild).2
    · intro fuel res hres
      exact substStr_spliced hwf hres

/-- The expression `x*`. -/
def stars : Regex where
  exec text _ := some fun k =>
    if k = 0 then some (0, (text.takeWhile (· = 120)).length) else none
  bounds := by
    rintro text notbol pmatch k so eo h hk
    obtain rfl := Option.some.inj h
    dsimp only at hk
    split_ifs at hk
    obtain ⟨rfl, rfl⟩ := Prod.mk.inj (Option.some.inj hk)
    exact ⟨Nat.zero_le _, (List.takeWhile_sublist _).length_le⟩

/-- Only one match is replaced. -/
theorem subst_right_one :
    substParser (fun _ _ _ => some stars) (fun _ => true) (ascii "/x*/y/") =
        some ⟨stars, ascii "y", false, [], 0⟩ ∧
      Right (fun _ => true) ⟨stars, ascii "y", false, [], 0⟩ (ascii "xxabc")
        ⟨true, none, ascii "sip:a"⟩ := by
  have h : substParser (fun _ _ _ => some stars) (fun _ => true)
      (ascii "/x*/y/") = some ⟨stars, ascii "y", false, [], 0⟩ := rfl
  refine ⟨h, (subst_right_iff h _ _ _).mpr (Or.inl ?_)⟩
  rintro ⟨hall, -⟩
  exact absurd hall (by decide)

/-- `x*` matches the empty text before `abc` again and again. -/
theorem subst_right_stuck : ¬ ∀ (regcomp : Bytes → Bool → Bool → Option Regex) (mem₀ : Grants)
      (subst : Bytes) (se : SubstExpr), substParser regcomp mem₀ subst = some se →
        ∀ mem input msg, Right mem se input msg := by
  intro h
  have hright := h (fun _ _ _ => some stars) (fun _ => true) (ascii "/x*/y/g")
    ⟨stars, ascii "y", true, [], 0⟩ rfl (fun _ => true) (ascii "abc")
    ⟨true, none, ascii "sip:a"⟩
  rcases substRun_returns_iff.mp hright.returns with hfree | ⟨k, hk⟩
  · apply hfree
    exact ⟨rfl, 0, 0, _, @Reached.next _ _ _ 0 0 _ _ Reached.start rfl rfl, rfl, rfl⟩
  · exact absurd hk (by decide)

end Msicp.Re
