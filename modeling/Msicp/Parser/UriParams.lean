import Msicp.Avp.Search
import Msicp.Parser.UriRebuild
import Msicp.Support.Pieces

/-!
# The names the automaton knows

The states that look for parameters spell out their names letter by letter.
Each of them stands for the text of the parameter so far; from there a byte
leads to the state of the longer text, or the parameter is ignored.
-/

namespace Msicp.Parser

open Msicp.Support Msicp.Tcp
open Msicp.Avp (tolower sameName)

/-- The name of a parameter. -/
def Param.name : Param → Bytes
  | .transport => ascii "transport"
  | .ttl => ascii "ttl"
  | .userParam => ascii "user"
  | .maddr => ascii "maddr"
  | .method => ascii "method"
  | .lr => ascii "lr"
  | .r2 => ascii "r2"

/-- The name with the `=` behind it. -/
def Param.key (param : Param) : Bytes :=
  param.name ++ [61]

/-- The parameters whose first letter leads to a state of their own. -/
def reachable : List Param :=
  [.transport, .ttl, .userParam, .maddr, .method, .lr]

theorem mem_reachable {param : Param} : param ∈ reachable ↔ param ≠ .r2 := by
  cases param <;> decide

/-- The text of a parameter in the states that know what it is. -/
def UriState.text : UriState → Option Bytes
  | .uriParam => some []
  | .ptT => some (ascii "t")
  | .ptR => some (ascii "tr")
  | .ptA => some (ascii "tra")
  | .ptN => some (ascii "tran")
  | .ptS => some (ascii "trans")
  | .ptP => some (ascii "transp")
  | .ptO => some (ascii "transpo")
  | .ptR2 => some (ascii "transpor")
  | .ptT2 => some (ascii "transport")
  | .ptEq => some (ascii "transport=")
  | .pttlT2 => some (ascii "tt")
  | .pttlL => some (ascii "ttl")
  | .pttlEq => some (ascii "ttl=")
  | .puU => some (ascii "u")
  | .puS => some (ascii "us")
  | .puE => some (ascii "use")
  | .puR => some (ascii "user")
  | .puEq => some (ascii "user=")
  | .pmM => some (ascii "m")
  | .pmE => some (ascii "me")
  | .pmT => some (ascii "met")
  | .pmH => some (ascii "meth")
  | .pmO => some (ascii "metho")
  | .pmD => some (ascii "method")
  | .pmEq => some (ascii "method=")
  | .pmaA => some (ascii "ma")
  | .pmaD => some (ascii "mad")
  | .pmaD2 => some (ascii "madd")
  | .pmaR => some (ascii "maddr")
  | .pmaEq => some (ascii "maddr=")
  | .plrL => some (ascii "l")
  | .plrRFin => some (ascii "lr")
  | .plrEq => some (ascii "lr=")
  | _ => none

/-- The parameter whose value starts behind the state. -/
def UriState.eqParam : UriState → Option Param
  | .ptEq => some .transport
  | .pttlEq => some .ttl
  | .puEq => some .userParam
  | .pmEq => some .method
  | .pmaEq => some .maddr
  | .plrEq => some .lr
  | _ => none

/-- The states in a value. -/
def UriState.inValue : UriState → Bool
  | .uriValP | .vuU | .vuD | .vuPFin | .vtT | .vtC | .vtPFin | .vtlsL
  | .vtlsSFin | .vsS | .vsC | .vsT | .vsPFin => true
  | _ => false

/-- The letters that lead on, with the states they lead to. -/
def UriState.edges : UriState → List (Char × UriState)
  | .uriParam => [('t', .ptT), ('u', .puU), ('m', .pmM), ('l', .plrL)]
  | .ptT => [('r', .ptR), ('t', .pttlT2)]
  | .ptR => [('a', .ptA)]
  | .ptA => [('n', .ptN)]
  | .ptN => [('s', .ptS)]
  | .ptS => [('p', .ptP)]
  | .ptP => [('o', .ptO)]
  | .ptO => [('r', .ptR2)]
  | .ptR2 => [('t', .ptT2)]
  | .ptT2 => [('=', .ptEq)]
  | .pttlT2 => [('l', .pttlL)]
  | .pttlL => [('=', .pttlEq)]
  | .puU => [('s', .puS)]
  | .puS => [('e', .puE)]
  | .puE => [('r', .puR)]
  | .puR => [('=', .puEq)]
  | .pmM => [('e', .pmE), ('a', .pmaA)]
  | .pmE => [('t', .pmT)]
  | .pmT => [('h', .pmH)]
  | .pmH => [('o', .pmO)]
  | .pmO => [('d', .pmD)]
  | .pmD => [('=', .pmEq)]
  | .pmaA => [('d', .pmaD)]
  | .pmaD => [('d', .pmaD2)]
  | .pmaD2 => [('r', .pmaR)]
  | .pmaR => [('=', .pmaEq)]
  | .plrL => [('r', .plrRFin)]
  | .plrRFin => [('=', .plrEq)]
  | _ => []

/-- The state that a byte leads to. -/
def follow : List (Char × UriState) → UInt8 → UriState
  | [], _ => .uriParamP
  | (l, new) :: edges, c =>
    if tolower c = l.toUInt8 then new else follow edges c

/-- The state behind the byte `c`. -/
def UriState.after (state : UriState) (c : UInt8) : UriState :=
  follow state.edges c

/-! ## Letters of either case -/

theorem tolower_eq_iff {c d : UInt8} (hd : d < 65) : tolower c = d ↔ c = d := by
  unfold tolower
  rw [UInt8.lt_iff_toNat_lt] at hd
  split_ifs with h
  · rw [UInt8.le_iff_toNat_le, UInt8.le_iff_toNat_le] at h
    rw [← UInt8.toNat_inj, ← UInt8.toNat_inj, UInt8.toNat_add]
    simp only [UInt8.toNat_ofNat] at h hd ⊢
    omega
  · rfl

theorem tolower_eq_letter {c d e : UInt8} (hd : 97 ≤ d ∧ d ≤ 122)
    (he : d = e + 32) : tolower c = d ↔ c = d ∨ c = e := by
  subst he
  unfold tolower
  simp only [UInt8.le_iff_toNat_le] at hd ⊢
  rw [UInt8.toNat_add] at hd
  split_ifs with h
  · rw [← UInt8.toNat_inj, ← UInt8.toNat_inj, ← UInt8.toNat_inj,
      UInt8.toNat_add, UInt8.toNat_add]
    simp only [UInt8.toNat_ofNat] at h hd ⊢
    have := c.toNat_lt
    have := e.toNat_lt
    omega
  · rw [← UInt8.toNat_inj, ← UInt8.toNat_inj, UInt8.toNat_add]
    simp only [UInt8.toNat_ofNat] at h hd ⊢
    have := e.toNat_lt
    omega

/-! ## What the states spell -/

theorem follow_cases (edges : List (Char × UriState)) (c : UInt8) :
    (∃ edge ∈ edges, tolower c = edge.1.toUInt8 ∧
      follow edges c = edge.2) ∨
      follow edges c = .uriParamP ∧
        ∀ edge ∈ edges, tolower c ≠ edge.1.toUInt8 := by
  induction edges with
  | nil => exact Or.inr ⟨rfl, by simp⟩
  | cons edge edges ih =>
    by_cases hc : tolower c = edge.1.toUInt8
    · exact Or.inl ⟨edge, by simp, hc, if_pos hc⟩
    · have hrest : follow (edge :: edges) c = follow edges c := if_neg hc
      rw [hrest]
      rcases ih with ⟨found, hmem, hfound⟩ | ⟨hnone, hall⟩
      · exact Or.inl ⟨found, by simp [hmem], hfound⟩
      · exact Or.inr ⟨hnone, by simpa [hc] using hall⟩

theorem text_after {state : UriState} {x : Bytes} {c : UInt8}
    (hx : state.text = some x) (hc : state.after c ≠ .uriParamP) :
    (state.after c).text = some (x ++ [tolower c]) := by
  have hedges : ∀ edge ∈ state.edges,
      edge.2.text = some (x ++ [edge.1.toUInt8]) := by
    cases state <;> cases hx <;> decide
  rcases follow_cases state.edges c with ⟨edge, hmem, hl, hnew⟩ | ⟨hnone, -⟩
  · rw [UriState.after, hnew, hl]
    exact hedges edge hmem
  · exact absurd hnone hc

/-- A byte that leads to no state continues none of the names. -/
theorem not_prefix_after {state : UriState} {x : Bytes} {c : UInt8}
    (hx : state.text = some x) (heq : state.eqParam = none)
    (hc : state.after c = .uriParamP) {param : Param}
    (hparam : param ∈ reachable) : ¬ x ++ [tolower c] <+: param.key := by
  intro hpre
  have hx' : x <+: param.key := (List.prefix_append x _).trans hpre
  have hnext : param.key[x.length]? = some (tolower c) := by
    obtain ⟨t, ht⟩ := hpre
    rw [← ht]
    simp
  have hedge : ∃ edge ∈ state.edges,
      param.key[x.length]? = some edge.1.toUInt8 := by
    cases state <;> cases hx <;> cases heq <;> revert hx' <;>
      revert hparam <;> cases param <;> decide
  obtain ⟨edge, hedge, hkey⟩ := hedge
  have hlower : tolower c = edge.1.toUInt8 :=
    Option.some.inj (hnext.symm.trans hkey)
  have hne : ∀ edge ∈ state.edges, edge.2 ≠ .uriParamP := by
    cases state <;> decide
  rcases follow_cases state.edges c with ⟨found, hmem, -, hnew⟩ | ⟨-, hall⟩
  · exact hne found hmem (hnew.symm.trans hc)
  · exact hall edge hedge hlower

/-!
## The parameters of a URI

What `parse_uri` records of the parameters is a matter of the pieces between
the `;`.  A piece counts for a parameter if it is the name, an `=` and a value;
the name alone is enough for `lr` only.  Of several pieces the last one stays.
-/

/-- The field `param` points at. -/
def SipUri.param (uri : SipUri) : Param → Str
  | .transport => uri.transport
  | .ttl => uri.ttl
  | .userParam => uri.userParam
  | .maddr => uri.maddr
  | .method => uri.method
  | .lr => uri.lr
  | .r2 => uri.r2

/-- The field `param_val` points at. -/
def SipUri.paramVal (uri : SipUri) : Param → Str
  | .transport => uri.transportVal
  | .ttl => uri.ttlVal
  | .userParam => uri.userParamVal
  | .maddr => uri.maddrVal
  | .method => uri.methodVal
  | .lr => uri.lrVal
  | .r2 => uri.r2Val

/-- The parameters of a parsed URI, each with its place. -/
def SipUri.pieces (uri : SipUri) (buf : Bytes) : List (ℕ × Bytes) :=
  match uri.params.s with
  | some a => Support.pieces 59 a (uri.params.text buf)
  | none => []

/-- The name of a piece, up to its `=`. -/
def pieceName (w : Bytes) : Bytes :=
  w.takeWhile (· ≠ 61)

/-- What is behind the `=` of a piece. -/
def pieceValue (w : Bytes) : Option Bytes :=
  (w.dropWhile (· ≠ 61)).tail?

/-- A piece with the name of the parameter, whatever follows it. -/
def Param.names (param : Param) (w : Bytes) : Bool :=
  sameName (pieceName w) param.name

/-- A parameter with a value.  A value is not empty and does not start with
a `:`. -/
def Param.hasValue (param : Param) (w : Bytes) : Bool :=
  param.names w && (pieceValue w).any fun v => v.head?.any (· ≠ 58)

/-- A piece that is recorded for the parameter in a URI that ends at `e`. -/
def Param.counts (e : ℕ) (param : Param) (piece : ℕ × Bytes) : Bool :=
  param.hasValue piece.2 ||
    param = .lr && (sameName piece.2 (ascii "lr") ||
      sameName piece.2 (ascii "lr=") && piece.1 + piece.2.length = e)

/-- The whole piece. -/
def pieceStr : Option (ℕ × Bytes) → Str
  | some (q, w) => Str.ofText q w
  | none => {}

/-- The part of the piece behind the `=`. -/
def valueStr : Option (ℕ × Bytes) → Str
  | some (q, w) =>
    Str.ofText (q + (pieceName w).length + 1) ((pieceValue w).getD [])
  | none => {}

/-- The fields hold what the pieces `ps` say. -/
def Recorded (e : ℕ) (uri : SipUri) (ps : List (ℕ × Bytes)) : Prop :=
  ∀ param ∈ reachable,
    uri.param param = pieceStr (ps.filter (param.counts e)).getLast? ∧
      uri.paramVal param =
        valueStr (ps.filter fun piece => param.hasValue piece.2).getLast?

/-! ## Pieces by their lower-case text -/

/-- The text of a piece with a value for the parameter. -/
def Param.Valued (param : Param) (x : Bytes) : Prop :=
  ∃ d t, x = param.name ++ 61 :: d :: t ∧ d ≠ 58

/-- The text of a piece that no byte behind it turns into one that counts. -/
def Dead (x : Bytes) : Prop :=
  ∀ t, x ++ t ≠ ascii "lr" ∧ x ++ t ≠ ascii "lr=" ∧
    ∀ param ∈ reachable, ¬ param.Valued (x ++ t)

section Pieces

variable {param other : Param} {w x y : Bytes} {e q : ℕ}

theorem name_lower (param : Param) : param.name.map tolower = param.name := by
  cases param <;> rfl

theorem eq_notMem_name (param : Param) : (61 : UInt8) ∉ param.name := by
  cases param <;> decide

theorem colon_notMem_key (param : Param) : (58 : UInt8) ∉ param.key := by
  cases param <;> decide

theorem name_injective (h : param.name = other.name) : param = other := by
  revert h
  cases param <;> cases other <;> decide

theorem piece_split (w : Bytes) :
    w = pieceName w ∧ pieceValue w = none ∨
      ∃ v, w = pieceName w ++ 61 :: v ∧ pieceValue w = some v := by
  have hw : pieceName w ++ w.dropWhile (· ≠ 61) = w :=
    List.takeWhile_append_dropWhile
  unfold pieceValue
  cases hrest : w.dropWhile (· ≠ 61) with
  | nil => exact Or.inl ⟨by rw [hrest] at hw; simpa using hw.symm, rfl⟩
  | cons c v =>
    have hc : c = 61 := by
      have := List.head?_dropWhile_not (· ≠ 61) w
      rw [hrest] at this
      simpa using this
    subst hc
    exact Or.inr ⟨v, by rw [hrest] at hw; exact hw.symm, rfl⟩

theorem pieceName_append {v : Bytes} (h : (61 : UInt8) ∉ x) :
    pieceName (x ++ 61 :: v) = x := by
  unfold pieceName
  rw [List.takeWhile_append_of_pos (by
    intro c hc
    exact decide_eq_true fun h61 => h (h61 ▸ hc))]
  simp

theorem pieceValue_append {v : Bytes} (h : (61 : UInt8) ∉ x) :
    pieceValue (x ++ 61 :: v) = some v := by
  unfold pieceValue
  rw [List.dropWhile_append_of_pos (by
    intro c hc
    exact decide_eq_true fun h61 => h (h61 ▸ hc))]
  simp

theorem Param.names_iff :
    param.names w = true ↔ (pieceName w).map tolower = param.name := by
  rw [names, decide_eq_true_iff, sameName, name_lower]

theorem Param.hasValue_iff :
    param.hasValue w = true ↔ param.Valued (w.map tolower) := by
  rw [hasValue, Bool.and_eq_true, names_iff]
  constructor
  · rintro ⟨hname, hvalue⟩
    rcases piece_split w with ⟨-, hnone⟩ | ⟨v, hw, hv⟩
    · simp [hnone] at hvalue
    · rw [hv] at hvalue
      cases v with
      | nil => simp at hvalue
      | cons d t =>
        refine ⟨tolower d, t.map tolower, ?_, ?_⟩
        · rw [hw, List.map_append, hname]
          rfl
        · rw [Ne, tolower_eq_iff (by decide)]
          simpa using hvalue
  · rintro ⟨d, t, hw, hd⟩
    obtain ⟨x, y, rfl, hx, hy⟩ := List.map_eq_append_iff.mp hw
    obtain ⟨b, z, rfl, hb, hz⟩ := List.map_eq_cons_iff.mp hy
    obtain ⟨c, v, rfl, hc, -⟩ := List.map_eq_cons_iff.mp hz
    obtain rfl := (tolower_eq_iff (by decide)).mp hb
    have hx61 : (61 : UInt8) ∉ x := by
      intro hmem
      apply eq_notMem_name param
      rw [← hx]
      exact List.mem_map.mpr ⟨61, hmem, rfl⟩
    rw [pieceName_append hx61, pieceValue_append hx61]
    refine ⟨hx, ?_⟩
    have hne : c ≠ 58 := by
      rintro rfl
      exact hd hc.symm
    simpa using hne

theorem Param.Valued.unique (h : param.Valued x) (h' : other.Valued x) :
    param = other := by
  obtain ⟨d, t, rfl, -⟩ := h
  obtain ⟨d', t', heq, -⟩ := h'
  have hname := congrArg pieceName heq
  rw [pieceName_append (eq_notMem_name param),
    pieceName_append (eq_notMem_name other)] at hname
  exact name_injective hname

/-! ## The pieces that are ignored -/

theorem Dead.append (h : Dead x) : Dead (x ++ y) := by
  intro t
  rw [List.append_assoc]
  exact h (y ++ t)

theorem dead_concat {c : UInt8} (hx : (61 : UInt8) ∉ x)
    (hc : ∀ param ∈ reachable, ¬ x ++ [c] <+: param.key) :
    Dead (x ++ [c]) := by
  have hlr : ¬ x ++ [c] <+: ascii "lr=" := hc .lr (by decide)
  refine fun t => ⟨fun heq => ?_, fun heq => ?_, fun param hparam h => ?_⟩
  · have hpre : x ++ [c] <+: ascii "lr" := heq ▸ List.prefix_append _ _
    exact hlr (hpre.trans (by decide))
  · exact hlr (heq ▸ List.prefix_append _ _)
  · obtain ⟨d, r, heq, -⟩ := h
    have hkey : param.key <+: x ++ [c] ++ t := by
      rw [heq]
      exact ⟨d :: r, by simp [Param.key]⟩
    rcases List.prefix_or_prefix_of_prefix hkey (List.prefix_append _ t)
      with hpre | hpre
    · rcases List.prefix_concat_iff.mp hpre with heq | hpre
      · exact hc param hparam (heq ▸ List.prefix_rfl)
      · exact hx (hpre.subset (by simp [Param.key]))
    · exact hc param hparam hpre

/-- A `:` is no value. -/
theorem dead_colon (param : Param) : Dead (param.key ++ [58]) := by
  have hmem : ∀ t, (58 : UInt8) ∈ param.key ++ [58] ++ t := by simp
  refine fun t => ⟨fun heq => ?_, fun heq => ?_, fun other _ h => ?_⟩
  · exact absurd (heq ▸ hmem t) (by decide)
  · exact absurd (heq ▸ hmem t) (by decide)
  · obtain ⟨d, r, heq, hd⟩ := h
    have hkey : param.name ++ 61 :: 58 :: t = other.name ++ 61 :: d :: r := by
      rw [← heq]
      simp [Param.key]
    have hvalue := congrArg pieceValue hkey
    rw [pieceValue_append (eq_notMem_name param),
      pieceValue_append (eq_notMem_name other)] at hvalue
    exact hd (List.cons.inj (Option.some.inj hvalue)).1.symm

end Pieces

end Msicp.Parser

/-!
## What the states do at a byte

All the states that spell out a name, but `PLR_R_FIN`, do one thing at a byte:
the common cases, or the next state of the name.  The states in a value do the
common cases of a value, or stay in it.
-/

namespace Msicp.Parser

open Msicp.Support Msicp.Tcp
open Msicp.Avp (tolower sameName)

/-- `l` is a letter in both cases, or no letter. -/
def EitherCase (l u : Char) : Prop :=
  (97 ≤ l.toUInt8 ∧ l.toUInt8 ≤ 122) ∧ l.toUInt8 = u.toUInt8 + 32 ∨
    l = u ∧ l.toUInt8 < 65

instance (l u : Char) : Decidable (EitherCase l u) := by
  unfold EitherCase
  infer_instance

theorem EitherCase.iff {l u : Char} (h : EitherCase l u) (c : UInt8) :
    tolower c = l.toUInt8 ↔ c = l.toUInt8 ∨ c = u.toUInt8 := by
  rcases h with ⟨hl, hu⟩ | ⟨rfl, hl⟩
  · exact tolower_eq_letter hl hu
  · rw [tolower_eq_iff hl, or_self]

section Forms

variable {p : ℕ} {c : UInt8} {st : UriParse} {state new newD : UriState}
variable {x : Bytes} {l u d₁ d₂ : Char} {param : Param}

theorem after_one (h : state.edges = [(l, new)]) :
    state.after c = if tolower c = l.toUInt8 then new else .uriParamP := by
  rw [UriState.after, h]
  rfl

theorem after_two (h : state.edges = [(l, new), (d₁, newD)]) :
    state.after c = if tolower c = l.toUInt8 then new
      else if tolower c = d₁.toUInt8 then newD else .uriParamP := by
  rw [UriState.after, h]
  rfl

theorem paramSwitch_eq (hedges : st.state.edges = [(l, new)])
    (hl : EitherCase l u) :
    paramSwitch l u new p c st =
      paramCommonCases p c st { st with state := st.state.after c } := by
  rw [paramSwitch, after_one hedges]
  simp only [hl.iff]

theorem paramSwitchBig_eq
    (hedges : st.state.edges = [(l, new), (d₁, newD)])
    (hl : EitherCase l u) (hd : EitherCase d₁ d₂) :
    paramSwitchBig l u d₁ d₂ new newD p c st =
      paramCommonCases p c st { st with state := st.state.after c } := by
  rw [paramSwitchBig, after_two hedges]
  simp only [hl.iff, hd.iff]

theorem paramStart_eq (c : UInt8) :
    paramStart c = UriState.uriParam.after c := by
  have ht := (show EitherCase 't' 'T' by decide).iff c
  have hu := (show EitherCase 'u' 'U' by decide).iff c
  have hm := (show EitherCase 'm' 'M' by decide).iff c
  have hl := (show EitherCase 'l' 'L' by decide).iff c
  simp only [paramStart, ← ht, ← hu, ← hm, ← hl]
  rfl

theorem step_text (hx : st.state.text = some x) (heq : st.state.eqParam = none)
    (hlr : st.state ≠ .plrRFin) :
    step p c st = paramCommonCases p c st
      { st with
        b := if st.state = .uriParam ∧ startsParam c then p else st.b
        state := st.state.after c } := by
  have hb : st.state ≠ .uriParam →
      (if st.state = .uriParam ∧ startsParam c then p else st.b) = st.b :=
    fun hne => if_neg fun h => hne h.1
  unfold step
  cases hstate : st.state
  all_goals first
    | exact absurd hstate hlr
    | (rw [hstate] at hx; cases hx; done)
    | (rw [hstate] at heq; cases heq; done)
    | (rw [hstate] at hb
       simp only [hb (by decide)]
       first
         | (rw [paramSwitch_eq (by rw [hstate]; rfl) (by decide), hstate])
         | (rw [paramSwitchBig_eq (by rw [hstate]; rfl) (by decide) (by decide),
             hstate]))
    | simp only [paramStart_eq, true_and]

theorem step_eqParam (heq : st.state.eqParam = some param) :
    ∃ new : UriState, new.inValue = true ∧
      step p c st = paramCommonCases p c { st with param := some param }
        { st with param := some param, v := p, state := new } := by
  have hnew : ∀ values : List (Char × Char × UriState),
      (values.all fun x => x.2.2.inValue) = true →
      ∃ new : UriState, new.inValue = true ∧
        paramEq param values p c st =
          paramCommonCases p c { st with param := some param }
            { st with param := some param, v := p, state := new } := by
    intro values hvalues
    refine ⟨_, ?_, rfl⟩
    split
    · exact List.all_eq_true.mp hvalues _ (List.mem_of_find?_eq_some ‹_›)
    · rfl
  unfold step
  cases hstate : st.state
  all_goals first
    | (rw [hstate] at heq; cases heq; done)
    | (rw [hstate] at heq
       cases heq
       dsimp only
       rw [← hstate]
       exact hnew _ rfl)

/-- The common cases of a value, where `close` is done to the URI when the
value is closed. -/
def valueCases (close : SipUri → SipUri) (p : ℕ) (c : UInt8)
    (st other : UriParse) : Except UriError UriParse :=
  let closed (st : UriParse) : UriParse :=
    { paramSet p st with uri := close (paramSet p st).uri }
  match kind c with
  | .atSign => stillAtUser p st
  | .semicolon => .ok (closed (semicolonCase st))
  | .question => .ok (closed (questionCase p st))
  | .colon => .ok { colonCase p st with state := .uriValP }
  | _ => .ok other

/-- The states in a value.  Only those that have read the name of a protocol
close it with more than `param_set`. -/
theorem step_inValue (hstate : st.state.inValue = true) :
    ∃ (close : SipUri → SipUri) (new : UriState), new.inValue = true ∧
      (close = id ∨ ∃ proto, close = fun uri => { uri with proto := proto }) ∧
      step p c st = valueCases close p c st { st with state := new } := by
  have hone : ∀ l u (new : UriState), new.inValue = true →
      (if c = l ∨ c = u then new else .uriValP : UriState).inValue = true := by
    intro l u new hnew
    split_ifs
    · exact hnew
    · rfl
  have hstay : st.state = .uriValP →
      valueCommonCases p c st st =
        valueCases id p c st { st with state := .uriValP } := by
    intro h
    rw [← h]
    rfl
  unfold step
  cases hst : st.state
  case uriValP => exact ⟨id, .uriValP, rfl, Or.inl rfl, hstay hst⟩
  case vtT =>
    refine ⟨id, _, ?_, Or.inl rfl, rfl⟩
    split_ifs <;> rfl
  all_goals first
    | (rw [hst] at hstate; cases hstate; done)
    | exact ⟨_, .uriValP, rfl, Or.inr ⟨_, rfl⟩, rfl⟩
    | exact ⟨id, _, hone _ _ _ rfl, Or.inl rfl, rfl⟩

end Forms

end Msicp.Parser
