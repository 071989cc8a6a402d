import Msicp.Methods.MethodTokens

/-!
# `parse_methods` on lists

A list is read right unless a known method is the start of one of its tokens;
nothing else is accepted.
-/

namespace Msicp.Methods

open Msicp.Support List Option
open Msicp.Avp (tolower sameName)
open Msicp.Dialog (isSpace trimLeading)

/-! ## Texts of lists -/

/-- What stands behind an item. -/
def moreText : List Item → Bytes
  | [] => []
  | x :: xs => 44 :: listText (x :: xs)

theorem listText_cons (x : Item) (xs : List Item) :
    listText (x :: xs) = x.lead ++ (x.token ++ (x.behind ++ moreText xs)) := by
  cases xs with
  | nil => simp [listText, moreText]
  | cons y ys => rfl

theorem trimLeading_append {lead s : Bytes} (hlead : ∀ c ∈ lead, isSpace c = true)
    (hs : ∀ c ∈ s.head?, isSpace c = false) : trimLeading (lead ++ s) = s := by
  rw [trimLeading, dropWhile_append_of_pos hlead]
  cases s with
  | nil => rfl
  | cons c s => exact dropWhile_cons_of_neg (by simp [hs c rfl])

theorem isSpace_tokenChar {c : UInt8} (h : isSpace c = true) : tokenChar c = false := by
  simp only [isSpace, Bool.or_eq_true, decide_eq_true_eq] at h
  rcases h with ((rfl | rfl) | rfl) | rfl <;> rfl

theorem tokenChar_isSpace {c : UInt8} (h : tokenChar c = true) : isSpace c = false := by
  by_contra hspace
  simp [isSpace_tokenChar (by simpa using hspace)] at h

variable {x : Item} {xs : List Item}

theorem Item.WellFormed.head?_behind (h : x.WellFormed) (xs : List Item) :
    ∀ c ∈ (x.behind ++ moreText xs).head?, tokenChar c = false := by
  intro c hc
  cases hbehind : x.behind with
  | cons d behind =>
    rw [hbehind] at hc
    obtain rfl : d = c := by simpa using hc
    exact isSpace_tokenChar (h.behind d (by simp [hbehind]))
  | nil =>
    rw [hbehind] at hc
    cases xs with
    | nil => simp [moreText] at hc
    | cons y ys =>
      obtain rfl : 44 = c := by simpa [moreText] using hc
      decide

theorem Item.WellFormed.head?_token (h : x.WellFormed) (s : Bytes) :
    ∀ c ∈ (x.token ++ s).head?, isSpace c = false := by
  intro c hc
  cases htoken : x.token with
  | nil => exact absurd htoken h.nonempty
  | cons d token =>
    rw [htoken] at hc
    obtain rfl : d = c := by simpa using hc
    exact tokenChar_isSpace (h.token d (by simp [htoken]))

/-! ## Reading a list -/

instance (token : Bytes) : Decidable (Extends token) :=
  inferInstanceAs (Decidable (∃ k ∈ knownMethods, _ ∧ _))

/-- No known method is the start of a longer token. -/
def Plain (xs : List Item) : Prop := ∀ x ∈ xs, ¬ Extends x.token

instance (xs : List Item) : Decidable (Plain xs) :=
  inferInstanceAs (Decidable (∀ x ∈ xs, _))

variable {token rest : Bytes}

theorem bitOf_of_startOf (h : ¬ Extends token) :
    bitOf token = ((startOf token).map Prod.snd).getD methUnknown := by
  rw [startOf_of_not_extends h, bitOf]
  cases knownMethods.find? fun k => sameName k.1 token with
  | none => rfl
  | some k => rfl

theorem methodsLoop_extends (hne : token ≠ []) (htoken : ∀ c ∈ token, tokenChar c = true)
    (hrest : ∀ c ∈ rest.head?, tokenChar c = false) (h : Extends token)
    (fuel method methods : ℕ) :
    methodsLoop fuel (token ++ rest) method methods = none := by
  obtain ⟨k, hk, hlen⟩ := startOf_of_extends h
  cases fuel with
  | zero => rfl
  | succ fuel =>
    obtain ⟨c, left, hleft⟩ : ∃ c left, token.drop k.1.length = c :: left := by
      cases hdrop : token.drop k.1.length with
      | nil => exact absurd (drop_eq_nil_iff.mp hdrop) (by omega)
      | cons c left => exact ⟨c, left, rfl⟩
    have hc : tokenChar c = true :=
      htoken c (mem_of_mem_drop (hleft ▸ mem_cons_self))
    have hcomma : c ≠ 44 := by
      rintro rfl
      exact absurd hc (by decide)
    have htrim : trimLeading (c :: (left ++ rest)) = c :: (left ++ rest) :=
      dropWhile_cons_of_neg (by simp [tokenChar_isSpace hc])
    rw [methodsLoop, parseMethod_token hne htoken hrest, hk]
    simp only [hleft, cons_append, htrim, if_neg hcomma]

theorem parseMethod_plain (hne : token ≠ []) (htoken : ∀ c ∈ token, tokenChar c = true)
    (hrest : ∀ c ∈ rest.head?, tokenChar c = false) (h : ¬ Extends token)
    (method : ℕ) :
    parseMethod (token ++ rest) method = some (rest, bitOf token) := by
  rw [parseMethod_token hne htoken hrest, bitOf_of_startOf h]
  cases hk : startOf token with
  | none => rfl
  | some k =>
    obtain ⟨hmem, hstarts⟩ := startOf_some hk
    have hle : token.length ≤ k.1.length := by
      by_contra hlt
      exact h ⟨k, hmem, hstarts, by omega⟩
    simp [drop_eq_nil_of_le hle]

theorem methodsLoop_last (hx : x.WellFormed) (hplain : ¬ Extends x.token)
    (fuel method methods : ℕ) :
    methodsLoop (fuel + 1) (x.token ++ (x.behind ++ moreText [])) method
        methods = some (methods ||| bitOf x.token) := by
  have htrim : trimLeading (x.behind ++ moreText []) = [] :=
    trimLeading_append hx.behind (by simp [moreText])
  rw [methodsLoop, parseMethod_plain hx.nonempty hx.token (hx.head?_behind []) hplain]
  simp only [htrim]

theorem methodsLoop_more {y : Item} (hx : x.WellFormed) (hy : y.WellFormed)
    (hplain : ¬ Extends x.token) (fuel method methods : ℕ) :
    methodsLoop (fuel + 1) (x.token ++ (x.behind ++ moreText (y :: xs))) method methods =
      methodsLoop fuel (y.token ++ (y.behind ++ moreText xs)) (bitOf x.token)
        (methods ||| bitOf x.token) := by
  have htrim : trimLeading (x.behind ++ moreText (y :: xs)) = 44 :: listText (y :: xs) := by
    refine trimLeading_append hx.behind fun c hc => ?_
    obtain rfl : 44 = c := by simpa [moreText] using hc
    decide
  have htrim' : trimLeading (listText (y :: xs)) = y.token ++ (y.behind ++ moreText xs) := by
    rw [listText_cons]
    exact trimLeading_append hy.lead (hy.head?_token _)
  rw [methodsLoop, parseMethod_plain hx.nonempty hx.token (hx.head?_behind _) hplain]
  simp [htrim, htrim', hy.nonempty]

theorem methodsLoop_list (h : ∀ y ∈ x :: xs, y.WellFormed) {fuel : ℕ}
    (hfuel : (x.token ++ (x.behind ++ moreText xs)).length ≤ fuel)
    (method methods : ℕ) :
    methodsLoop fuel (x.token ++ (x.behind ++ moreText xs)) method methods =
      if Plain (x :: xs) then
        some ((x :: xs).foldl (fun bits y => bits ||| bitOf y.token) methods)
      else none := by
  have hx := h x mem_cons_self
  have hpos := length_pos_of_ne_nil hx.nonempty
  simp only [List.length_append] at hfuel
  obtain ⟨fuel, rfl⟩ : ∃ n, fuel = n + 1 := ⟨fuel - 1, by omega⟩
  by_cases hext : Extends x.token
  · rw [methodsLoop_extends hx.nonempty hx.token (hx.head?_behind xs) hext]
    simp [Plain, hext]
  induction xs generalizing x fuel method methods with
  | nil =>
    rw [methodsLoop_last hx hext]
    simp [Plain, hext]
  | cons y ys ih =>
    have hy := h y (mem_cons_of_mem x mem_cons_self)
    have hpos' := length_pos_of_ne_nil hy.nonempty
    rw [moreText, listText_cons] at hfuel
    simp only [length_cons, List.length_append] at hfuel
    rw [methodsLoop_more hx hy hext]
    obtain ⟨fuel, rfl⟩ : ∃ n, fuel = n + 1 := ⟨fuel - 1, by omega⟩
    by_cases hext' : Extends y.token
    · rw [methodsLoop_extends hy.nonempty hy.token (hy.head?_behind ys) hext']
      simp [Plain, hext']
    · rw [ih (fun z hz => h z (mem_cons_of_mem x hz)) _ _ hy hpos' fuel (by omega) hext']
      simp [Plain, hext]

theorem parseMethods_list {body : Bytes} {xs : List Item} (h : IsList body xs) :
    parseMethods body = if Plain xs then some (bitsOf xs) else none := by
  obtain ⟨rfl, hne, hitems⟩ := h
  cases xs with
  | nil => exact absurd rfl hne
  | cons x xs =>
    have hx := hitems x mem_cons_self
    have htrim : trimLeading (listText (x :: xs)) = x.token ++ (x.behind ++ moreText xs) := by
      rw [listText_cons]
      exact trimLeading_append hx.lead (hx.head?_token _)
    rw [parseMethods, htrim, if_neg (by simp [hx.nonempty]), methodsLoop_list hitems le_rfl]
    rfl

/-! ## What is accepted -/

theorem bitOf_none (h : ∀ k ∈ knownMethods, ¬ sameName k.1 token) : bitOf token = methUnknown := by
  have hnone : knownMethods.find? (fun k => sameName k.1 token) = none := by
    rw [find?_eq_none]
    intro k hk
    simpa using h k hk
  rw [bitOf, hnone]

theorem bitOf_known {k : Bytes × ℕ} (hk : k ∈ knownMethods)
    (h : sameName k.1 token) : bitOf token = k.2 := by
  have hfind : ∃ k', knownMethods.find? (fun k => sameName k.1 token) =
      some k' := by
    rw [← isSome_iff_exists, find?_isSome]
    exact ⟨k, hk, by simpa using h⟩
  obtain ⟨k', hk'⟩ := hfind
  have hmem := mem_of_find?_eq_some hk'
  have hsame : sameName k'.1 token := by simpa using find?_some hk'
  rw [bitOf, hk', known_distinct k' hmem k hk (startsWith_of_sameName (hsame.trans h.symm))]

theorem forall_tokenChar_of_sameName {name : Bytes}
    (h : sameName name token) (hname : name.all tokenChar = true) :
    ∀ c ∈ token, tokenChar c = true := by
  intro c hc
  have hmem : tolower c ∈ name.map tolower := h ▸ List.mem_map_of_mem hc
  obtain ⟨a, ha, hac⟩ := List.mem_map.mp hmem
  rw [← tokenChar_congr hac]
  exact List.all_eq_true.mp hname a ha

theorem StartsWith.append {name s : Bytes} (h : StartsWith name s)
    (s' : Bytes) : StartsWith name (s ++ s') := by
  rw [StartsWith, take_append_of_le_length h.length_le]
  exact h

/-- What `parse_method` takes is a token. -/
theorem parseMethod_some {next : Bytes} {method bit : ℕ} (hne : next ≠ [])
    (h : parseMethod next method = some (rest, bit)) :
    ∃ token, next = token ++ rest ∧ token ≠ [] ∧
      (∀ c ∈ token, tokenChar c = true) ∧ bit = bitOf token := by
  cases next with
  | nil => exact absurd rfl hne
  | cons c tail =>
    rw [parseMethod_cons] at h
    cases hk : knownMethods.find? fun k => StartsWith k.1 (c :: tail) with
    | some k =>
      have hmem := mem_of_find?_eq_some hk
      have hstarts : StartsWith k.1 (c :: tail) := by
        simpa using find?_some hk
      rw [hk, taken, some.injEq, Prod.mk.injEq] at h
      obtain ⟨rfl, rfl⟩ := h
      refine ⟨(c :: tail).take k.1.length, (take_append_drop _ _).symm, ?_, ?_,
        (bitOf_known hmem hstarts).symm⟩
      · have hlen := length_pos_of_ne_nil (known_nonempty k hmem)
        rw [sameName.length_eq hstarts] at hlen
        exact ne_nil_of_length_pos hlen
      · exact forall_tokenChar_of_sameName hstarts (known_tokenChar k hmem)
    | none =>
      rw [hk, taken, unknown] at h
      by_cases hc : tokenChar c = true
      · rw [head?_cons, any_some, if_pos hc, some.injEq, Prod.mk.injEq] at h
        obtain ⟨rfl, rfl⟩ := h
        refine ⟨(c :: tail).takeWhile tokenChar, takeWhile_append_dropWhile.symm, ?_,
          fun d hd => mem_takeWhile_imp hd, (bitOf_none ?_).symm⟩
        · simp [hc]
        · intro k hkmem hsame
          have hstarts := (startsWith_of_sameName hsame).append ((c :: tail).dropWhile tokenChar)
          rw [takeWhile_append_dropWhile] at hstarts
          exact absurd hstarts (by simpa using find?_eq_none.mp hk k hkmem)
      · simp [hc] at h

theorem trimLeading_split (s : Bytes) :
    ∃ lead, s = lead ++ trimLeading s ∧ ∀ c ∈ lead, isSpace c = true :=
  ⟨s.takeWhile isSpace, takeWhile_append_dropWhile.symm, fun _ hc => mem_takeWhile_imp hc⟩

theorem methodsLoop_some {fuel : ℕ} {next : Bytes} {method methods bits : ℕ}
    (hne : next ≠ []) (h : methodsLoop fuel next method methods = some bits) :
    ∃ x xs, next = listText (x :: xs) ∧ (∀ y ∈ x :: xs, y.WellFormed) ∧ x.lead = [] ∧
      bits = (x :: xs).foldl (fun bits y => bits ||| bitOf y.token) methods := by
  induction fuel generalizing next method methods with
  | zero => exact absurd h (by simp [methodsLoop])
  | succ fuel ih =>
    rw [methodsLoop] at h
    cases hp : parseMethod next method with
    | none => simp [hp] at h
    | some r =>
      obtain ⟨rest, bit⟩ := r
      obtain ⟨token, rfl, htokne, htok, rfl⟩ := parseMethod_some hne hp
      obtain ⟨behind, hbehind, hspace⟩ := trimLeading_split rest
      rw [hp] at h
      cases htrim : trimLeading rest with
      | nil =>
        simp only [htrim, some.injEq] at h
        refine ⟨⟨[], token, behind⟩, [], ?_, ?_, rfl, h.symm⟩
        · rw [hbehind, htrim]
          simp [listText]
        · intro y hy
          obtain rfl := mem_singleton.mp hy
          exact ⟨by simp, htokne, htok, hspace⟩
      | cons c next =>
        simp only [htrim] at h
        by_cases hcomma : c = 44
        · rw [if_pos hcomma] at h
          by_cases hempty : trimLeading next = []
          · simp [hempty] at h
          · rw [if_neg hempty] at h
            obtain ⟨y, ys, htext, hwf, hlead, hbits⟩ := ih hempty h
            obtain ⟨lead, hlead', hleadspace⟩ := trimLeading_split next
            refine ⟨⟨[], token, behind⟩, { y with lead := lead } :: ys, ?_, ?_, rfl,
              hbits⟩
            · rw [hbehind, htrim, hlead', htext, listText_cons, listText_cons,
                hcomma, moreText, listText_cons, hlead]
              simp
            · intro z hz
              rcases mem_cons.mp hz with rfl | hz
              · exact ⟨by simp, htokne, htok, hspace⟩
              · rcases mem_cons.mp hz with rfl | hz
                · have hy := hwf y mem_cons_self
                  exact ⟨hleadspace, hy.nonempty, hy.token, hy.behind⟩
                · exact hwf z (mem_cons_of_mem y hz)
        · simp [hcomma] at h

theorem parseMethods_some {body : Bytes} {bits : ℕ}
    (h : parseMethods body = some bits) : ∃ xs, IsList body xs ∧ bits = bitsOf xs := by
  unfold parseMethods at h
  by_cases hempty : trimLeading body = []
  · simp [hempty] at h
  · rw [if_neg hempty] at h
    obtain ⟨x, xs, htext, hwf, hlead, hbits⟩ := methodsLoop_some hempty h
    obtain ⟨lead, hbody, hspace⟩ := trimLeading_split body
    refine ⟨{ x with lead := lead } :: xs, ⟨?_, cons_ne_nil _ _, ?_⟩, hbits⟩
    · rw [hbody, htext, listText_cons, listText_cons, hlead, nil_append]
    · intro y hy
      rcases mem_cons.mp hy with rfl | hy
      · have hx := hwf x mem_cons_self
        exact ⟨hspace, hx.nonempty, hx.token, hx.behind⟩
      · exact hwf y (mem_cons_of_mem x hy)

/-- `parse_methods` accepts the lists, with their bits, and nothing else, for
every text but a list with a token that a known method is the start of. -/
theorem parseMethods_right_iff (body : Bytes) :
    (∀ bits, parseMethods body = some bits ↔ ∃ xs, IsList body xs ∧ bits = bitsOf xs) ↔
      ∀ xs, IsList body xs → ∀ x ∈ xs, ¬ Extends x.token := by
  constructor
  · intro h xs hxs
    have hread := parseMethods_list hxs
    rw [(h (bitsOf xs)).mpr ⟨xs, hxs, rfl⟩] at hread
    by_contra hext
    rw [if_neg (show ¬ Plain xs from hext)] at hread
    exact absurd hread (by simp)
  · intro h bits
    refine ⟨parseMethods_some, ?_⟩
    rintro ⟨xs, hxs, rfl⟩
    rw [parseMethods_list hxs]
    exact if_pos (h xs hxs)

/-- A method that is not known, of which INFO is the start. -/
theorem parseMethods_extension :
    ¬ ∀ body bits, parseMethods body = some bits ↔ ∃ xs, IsList body xs ∧ bits = bitsOf xs := by
  intro h
  have hread := (h (ascii "INFORM") 1).mpr
    ⟨[⟨[], ascii "INFORM", []⟩], ⟨rfl, by decide, ?_⟩, by decide⟩
  · exact absurd hread (by decide)
  · intro x hx
    obtain rfl := mem_singleton.mp hx
    have htoken : (ascii "INFORM").all tokenChar = true := by decide
    exact ⟨by simp, by decide, List.all_eq_true.mp htoken, by simp⟩

/-! ## Lists behind each other -/

theorem parseMethods_eq_some {body : Bytes} {bits : ℕ} :
    parseMethods body = some bits ↔ ∃ xs, IsList body xs ∧ Plain xs ∧ bitsOf xs = bits := by
  constructor
  · intro h
    obtain ⟨xs, hxs, rfl⟩ := parseMethods_some h
    rw [parseMethods_list hxs] at h
    exact ⟨xs, hxs, (ite_none_right_eq_some.mp h).1, rfl⟩
  · rintro ⟨xs, hxs, hplain, rfl⟩
    rw [parseMethods_list hxs, if_pos hplain]

theorem bitsOf_append (xs ys : List Item) : bitsOf (xs ++ ys) = bitsOf xs ||| bitsOf ys := by
  have hfrom : ∀ n, ys.foldl (fun bits x => bits ||| bitOf x.token) n = n ||| bitsOf ys := by
    induction ys with
    | nil => simp [bitsOf]
    | cons y ys ih =>
      intro n
      rw [bitsOf, foldl_cons, foldl_cons, ih, ih, Nat.zero_or, Nat.or_assoc]
  rw [bitsOf, foldl_append, hfrom]
  rfl

theorem IsList.append {a b : Bytes} {ys : List Item} (h : IsList a xs) (h' : IsList b ys) :
    IsList (a ++ 44 :: b) (xs ++ ys) := by
  obtain ⟨rfl, hxs, hitems⟩ := h
  obtain ⟨rfl, hys, hitems'⟩ := h'
  refine ⟨?_, by simp [hxs], fun x hx => (mem_append.mp hx).elim (hitems x) (hitems' x)⟩
  clear hitems hitems'
  induction xs with
  | nil => exact absurd rfl hxs
  | cons x xs ih =>
    cases xs with
    | nil =>
      obtain ⟨y, ys, rfl⟩ := exists_cons_of_ne_nil hys
      simp [listText]
    | cons z zs =>
      rw [cons_append, listText_cons, listText_cons, moreText, cons_append, moreText, ← cons_append,
        ← ih (cons_ne_nil _ _)]
      simp

/-- The items in front of a comma and those behind it. -/
theorem IsList.split {a b : Bytes} {zs : List Item} (h : IsList (a ++ 44 :: b) zs) :
    ∃ xs ys, zs = xs ++ ys ∧ IsList a xs ∧ IsList b ys := by
  obtain ⟨htext, hne, hitems⟩ := h
  induction zs generalizing a with
  | nil => exact absurd rfl hne
  | cons z zs ih =>
    have hz := hitems z mem_cons_self
    have hrest := fun x hx => hitems x (mem_cons_of_mem z hx)
    set word := z.lead ++ (z.token ++ z.behind) with hword
    have hcomma : (44 : UInt8) ∉ word := by
      intro hmem
      simp only [hword, mem_append] at hmem
      rcases hmem with hmem | hmem | hmem
      · exact absurd (hz.lead _ hmem) (by decide)
      · exact absurd (hz.token _ hmem) (by decide)
      · exact absurd (hz.behind _ hmem) (by decide)
    have hone : IsList word [z] :=
      ⟨by simp [listText, hword], cons_ne_nil _ _, by simpa using hz⟩
    have hcut : a ++ 44 :: b = word ++ moreText zs := by
      rw [htext, listText_cons, hword]
      simp
    rcases append_eq_append_iff.mp hcut with ⟨c, hw, hc⟩ | ⟨c, rfl, hc⟩
    · cases c with
      | nil =>
        obtain ⟨y, ys, rfl⟩ : ∃ y ys, zs = y :: ys := by
          cases zs with
          | nil => cases hc
          | cons y ys => exact ⟨y, ys, rfl⟩
        rw [append_nil] at hw
        exact ⟨[z], y :: ys, rfl, hw ▸ hone, (cons.inj hc).2, cons_ne_nil _ _, hrest⟩
      | cons d c =>
        obtain ⟨rfl, -⟩ := cons.inj hc
        exact absurd (by simp [hw]) hcomma
    · cases zs with
      | nil =>
        cases c with
        | nil => cases hc
        | cons d c => cases hc
      | cons y ys =>
        cases c with
        | nil =>
          rw [append_nil]
          exact ⟨[z], y :: ys, rfl, hone, (cons.inj hc).2.symm, cons_ne_nil _ _, hrest⟩
        | cons d c =>
          obtain ⟨rfl, htail⟩ := cons.inj hc
          obtain ⟨xs, ys', hsplit, hxs, hys⟩ := ih htail.symm (cons_ne_nil _ _) hrest
          exact ⟨z :: xs, ys', by rw [hsplit]; rfl, hone.append hxs, hys⟩

/-- `parse_methods` takes two lists with a comma between them when it takes
both, and then returns the bits of both. -/
theorem parseMethods_append (a b : Bytes) : parseMethods (a ++ 44 :: b) = do
      let bits ← parseMethods a
      let bits' ← parseMethods b
      return bits ||| bits' := by
  refine Option.ext fun n => ?_
  simp only [bind_eq_bind, bind_eq_some_iff, Option.pure_def, some.injEq, parseMethods_eq_some]
  constructor
  · rintro ⟨zs, hzs, hplain, rfl⟩
    obtain ⟨xs, ys, rfl, hxs, hys⟩ := hzs.split
    obtain ⟨hplain, hplain'⟩ := forall_mem_append.mp hplain
    exact ⟨_, ⟨xs, hxs, hplain, rfl⟩, _, ⟨ys, hys, hplain', rfl⟩, (bitsOf_append xs ys).symm⟩
  · rintro ⟨_, ⟨xs, hxs, hplain, rfl⟩, _, ⟨ys, hys, hplain', rfl⟩, rfl⟩
    exact ⟨xs ++ ys, hxs.append hys, forall_mem_append.mpr ⟨hplain, hplain'⟩, bitsOf_append xs ys⟩

end Msicp.Methods
