import Msicp.Parser.UriRecorded
import Msicp.Rr.ScanSteps

/-!
# `lr` and `r2` among the parameters

What `is_strict` and `is_2rr` find is a parameter with the name, and they find
it unless the parameter in front of it swallows it.  `parse_uri` knows neither
quotes nor white space, but without them it looks at the same parameters.
-/

namespace Msicp.Rr

open Msicp.Support List
open Msicp.Parser (Param SipUri parseUri pieceName pieceValue)
open Msicp.Avp (tolower)

/-- The scan for the name has found the parameters it gets to. -/
structure FindsParam (a : UInt8 → Bool) (name params : Bytes) (found : Bool) :
    Prop where
  sound : found = true → ∃ w ∈ quotedParams params, isNamed name w = true
  complete : ∀ l w r, quotedParams params = l ++ w :: r →
    isNamed name w = true → (∀ x ∈ l.getLast?, swallows a x = false) →
    found = true

section Reaching

variable {a b : UInt8 → Bool} {name params w : Bytes} {r : List Bytes}

theorem reaches_named (ws : List Bytes) (h : reaches a b ws = true) :
    ∃ w ∈ ws, twoLetters a b w = true := by
  fun_induction reaches a b ws with
  | case1 => cases h
  | case2 w => exact ⟨w, by simp, h⟩
  | case3 w v ws ih₁ ih₂ =>
    rcases Bool.or_eq_true_iff.mp h with hw | hrest
    · exact ⟨w, by simp, hw⟩
    · split_ifs at hrest with hswallow
      · obtain ⟨x, hx, hname⟩ := ih₁ hrest
        exact ⟨x, by simp [hx], hname⟩
      · obtain ⟨x, hx, hname⟩ := ih₂ hrest
        exact ⟨x, mem_cons_of_mem _ hx, hname⟩

theorem reaches_of_last (hw : twoLetters a b w = true) : ∀ l : List Bytes,
    (∀ x ∈ l.getLast?, swallows a x = false) → reaches a b (l ++ w :: r) = true
  | [], _ => by
      rw [nil_append, reaches_cons, hw, Bool.true_or]
  | [x], hlast => by
      rw [singleton_append, reaches_cons, hlast x rfl]
      simp [reaches_cons, hw]
  | x :: y :: l, hlast => by
      have hnext := reaches_of_last hw (y :: l) (by simpa using hlast)
      have hrest : reaches a b (l ++ w :: r) = true := by
        refine reaches_of_last hw l fun z hz => hlast z ?_
        cases l with
        | nil => cases hz
        | cons v l => simpa using hz
      rw [cons_append, reaches_cons]
      cases swallows a x <;> simp_all

theorem findsParam (h : Letters a b name)
    (hstray : ∀ w ∈ quotedParams params, strayQuote a b w = false) :
    FindsParam a name params (hasParam a b params) := by
  constructor
  · intro hfound
    rw [hasParam_eq h hstray] at hfound
    obtain ⟨w, hw, hname⟩ := reaches_named _ hfound
    exact ⟨w, hw, (isNamed_eq h w).trans hname⟩
  · intro l w r hparams hname hlast
    rw [hasParam_eq h hstray, hparams]
    exact reaches_of_last ((isNamed_eq h w).symm.trans hname) l hlast

end Reaching

/-! ## What `parse_uri` records -/

section Recorded

variable {buf params w : Bytes} {uri : SipUri} {e q : ℕ}

theorem paramsFrom_splitOn (h : ∀ c ∈ params, c ≠ 34) :
    quotedParams params = params.splitOn 59 := by
  induction params with
  | nil => rfl
  | cons c params ih =>
    have hrest := ih fun x hx => h x (mem_cons_of_mem _ hx)
    rw [splitOn_cons_eq_if_modifyHead, ← hrest]
    by_cases hsep : c = 59
    · subst hsep
      exact paramsFrom_sep params
    · rw [if_neg (by simpa using hsep)]
      exact paramsFrom_cons hsep (h c (by simp)) params

theorem mem_of_mem_paramsFrom {quote : Quote} (hw : w ∈ paramsFrom quote params) :
    ∀ c ∈ w, c ∈ params := by
  induction params generalizing quote w with
  | nil =>
    obtain rfl := mem_singleton.mp hw
    simp
  | cons d params ih =>
    rw [paramsFrom] at hw
    split_ifs at hw
    · rcases mem_cons.mp hw with rfl | hw
      · simp
      · exact fun c hc => mem_cons_of_mem _ (ih hw c hc)
    · obtain ⟨v, vs, hparams⟩ := paramsFrom_ne_nil (quote.next d) params
      rw [hparams, modifyHead_cons] at hw
      have hmem : ∀ v' ∈ v :: vs, ∀ c ∈ v', c ∈ params := by
        rw [← hparams]
        exact fun v' hv' => ih hv'
      rcases mem_cons.mp hw with rfl | hw
      · intro c hc
        rcases mem_cons.mp hc with rfl | hc
        · simp
        · exact mem_cons_of_mem _ (hmem v (by simp) c hc)
      · exact fun c hc => mem_cons_of_mem _ (hmem w (mem_cons_of_mem _ hw) c hc)

theorem trim_eq (h : ∀ c ∈ w, isWhite c = false) : trim w = w := by
  have hdrop : ∀ v : Bytes, (∀ c ∈ v, isWhite c = false) → v.dropWhile isWhite = v := by
    intro v hv
    cases v with
    | nil => rfl
    | cons c v => exact dropWhile_cons_of_neg (by simp [hv c (by simp)])
  rw [trim, hdrop w h, hdrop _ (by simpa using h), reverse_reverse]

theorem isNamed_lr (h : ∀ c ∈ w, isWhite c = false) :
    isNamed (ascii "lr") w = Param.lr.names w := by
  have hname : ∀ c ∈ pieceName w, isWhite c = false := fun c hc =>
    h c ((takeWhile_sublist _).subset hc)
  rw [isNamed, trim_eq hname]
  rfl

theorem map_pieceName (w : Bytes) : (pieceName w).map tolower = pieceName (w.map tolower) := by
  induction w with
  | nil => rfl
  | cons c w ih =>
    have heq : tolower c = 61 ↔ c = 61 :=
      Parser.tolower_eq_iff (by decide)
    rw [map_cons, pieceName_cons, pieceName_cons]
    by_cases hc : c = 61
    · rw [if_pos hc, if_pos (heq.mpr hc), map_nil]
    · rw [if_neg hc, if_neg (mt heq.mp hc), map_cons, ih]

theorem names_of_counts (h : Param.lr.counts e (q, w) = true) : Param.lr.names w = true := by
  rw [Param.names_iff, map_pieceName]
  rcases Parser.counts_iff.mp h with ⟨d, t, heq, -⟩ | ⟨-, heq | ⟨heq, -⟩⟩
  · rw [heq]
    exact Parser.pieceName_append (Parser.eq_notMem_name _)
  · rw [heq]
    decide
  · rw [heq]
    decide

theorem counts_of_names (h : Param.lr.names w = true)
    (hvalue : ∀ v ∈ pieceValue w, v ≠ [] ∧ v.head? ≠ some 58) :
    Param.lr.counts e (q, w) = true := by
  rcases Parser.piece_split w with ⟨hw, -⟩ | ⟨v, -, hv⟩
  · rw [Param.names_iff, ← hw] at h
    exact Parser.counts_iff.mpr (Or.inr ⟨rfl, Or.inl h⟩)
  · obtain ⟨hne, hhead⟩ := hvalue v hv
    have hhas : Param.lr.hasValue w = true := by
      rw [Param.hasValue, h, hv]
      cases v with
      | nil => exact absurd rfl hne
      | cons c v => simpa using hhead
    exact Parser.counts_iff.mpr (Or.inl (Param.hasValue_iff.mp hhas))

theorem mem_pieces (hquote : ∀ c ∈ uri.params.text buf, c ≠ 34) (hw : w ≠ []) :
    (∃ q, (q, w) ∈ uri.pieces buf) ↔ w ∈ quotedParams (uri.params.text buf) := by
  rw [paramsFrom_splitOn hquote]
  unfold SipUri.pieces
  cases hs : uri.params.s with
  | none => simp [Parser.Str.text, hs, hw]
  | some a => exact mem_places

end Recorded

/-- `is_strict` and `is_2rr` find the parameters with the names, in parameters
without stray quotes.  In parameters without quotes and white space `parse_uri`
records `lr` if it is there, unless its value is none that is recorded. -/
theorem scans_find_params (params : Bytes) :
    ((∀ w ∈ quotedParams params, strayQuote isL isR w = false) →
      FindsParam isL (ascii "lr") params (!isStrict params)) ∧
    ((∀ w ∈ quotedParams params, strayQuote isR (· = '2'.toUInt8) w = false) →
      FindsParam isR (ascii "r2") params (is2rr params)) ∧
    ∀ buf uri, parseUri buf = .ok uri → uri.params.text buf = params →
      (∀ c ∈ params, isWhite c = false ∧ c ≠ 34) →
      (uri.lr.s.isSome = true → ∃ w ∈ quotedParams params, isNamed (ascii "lr") w = true) ∧
      ∀ w ∈ quotedParams params, isNamed (ascii "lr") w = true →
        (∀ v ∈ pieceValue w, v ≠ [] ∧ v.head? ≠ some 58) →
        uri.lr.s.isSome = true := by
  refine ⟨fun hstray => ?_, findsParam letters_r2, ?_⟩
  · rw [isStrict, Bool.not_not]
    exact findsParam letters_lr hstray
  rintro buf uri huri rfl hplain
  have hwhite : ∀ w ∈ quotedParams (uri.params.text buf),
      isNamed (ascii "lr") w = Param.lr.names w := fun w hw =>
    isNamed_lr fun c hc => (hplain c (mem_of_mem_paramsFrom hw c hc)).1
  have hne : ∀ w, Param.lr.names w = true → w ≠ [] := by
    rintro w hw rfl
    exact absurd hw (by decide)
  have hquote : ∀ c ∈ uri.params.text buf, c ≠ 34 :=
    fun c hc => (hplain c hc).2
  have hiff : uri.lr.s.isSome = true ↔ ∃ piece ∈ uri.pieces buf,
      Param.lr.counts buf.length piece = true :=
    (Parser.parseUri_recorded huri).isSome_iff (show Param.lr ∈ Parser.reachable by decide)
  rw [hiff]
  constructor
  · rintro ⟨⟨q, w⟩, hmem, hcounts⟩
    have hname := names_of_counts hcounts
    have hw := (mem_pieces hquote (hne w hname)).mp ⟨q, hmem⟩
    exact ⟨w, hw, (hwhite w hw).trans hname⟩
  · intro w hw hname hvalue
    rw [hwhite w hw] at hname
    obtain ⟨q, hmem⟩ := (mem_pieces hquote (hne w hname)).mpr hw
    exact ⟨(q, w), hmem, counts_of_names hname hvalue⟩

/-- A quote in a value is no stray one. -/
theorem lr_behind_value_found : isStrict (ascii "x=\"a;b\";lr") = false := by
  have hfound := ((scans_find_params (ascii "x=\"a;b\";lr")).1
    (by decide)).complete [ascii "x=\"a;b\""] (ascii "lr") []
    (by decide) (by decide) (by decide)
  simpa using hfound

/-- `parse_uri` knows no quotes. -/
theorem quoted_lr_recorded : ∃ uri : SipUri, parseUri (ascii "sip:a;x=\"b;lr;c\"") = .ok uri ∧
      uri.lr = Parser.Str.span 11 13 ∧
      isStrict (uri.params.text (ascii "sip:a;x=\"b;lr;c\"")) = true ∧
      ∀ w ∈ quotedParams (uri.params.text (ascii "sip:a;x=\"b;lr;c\"")),
        isNamed (ascii "lr") w = false :=
  ⟨{ host := Parser.Str.span 4 5
     params := Parser.Str.span 6 16
     lr := Parser.Str.span 11 13 }, by decide, rfl,
    by decide, by decide⟩

end Msicp.Rr
