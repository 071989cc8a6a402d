import Msicp.Mysql.Pieces

/-!
# Statements are submitted whole, or not at all

When a statement is submitted as it should be, and when a part of it is lost.
-/

namespace Msicp.Mysql

open Msicp.Support List Option

variable {D : Type} {lib : Lib D} {p q : Bytes}

/-! ## One piece -/

/-- The buffer behind a text of `n` bytes, by whether a zero byte is put
there. -/
def rest (q : Bytes) (n : ℕ) (ended : Bool) : Bytes :=
  if ended then 0 :: q.drop (n + 1) else q.drop n

/-- What a piece with the text `t` comes to. -/
def Printed.Comes (x : Printed) (p q t : Bytes) : After → Prop
  | .goes ended room =>
    (p ++ t ++ rest q t.length ended).length = (p ++ q).length ∧
      (rest q t.length ended).length = room ∧
      x = some (some (p ++ t).length, p ++ t ++ rest q t.length ended)
  | .lost room => ∃ p' q', (p' ++ q').length = (p ++ q).length ∧
      q'.length = room ∧ x = some (some p'.length, p' ++ q') ∧
      ((p ++ q).length ≤ (p ++ t).length ∨ room = 0 ∧
        ∃ u v w, t = u ++ v ∧ v ≠ [] ∧ p' ++ q' = p ++ u ++ 0 :: w)
  | .fails => ∃ mem, x = some (none, mem) ∧ mem.length = (p ++ q).length
  | .outside => x = none

theorem rest_length {n : ℕ} {ended : Bool} (h : n + ended.toNat ≤ q.length) :
    (rest q n ended).length = q.length - n := by
  unfold rest
  cases ended with
  | true =>
    rw [Bool.toNat_true] at h
    simp only [if_true, length_cons, length_drop]
    omega
  | false => simp

theorem append_rest_length {t : Bytes} {ended : Bool} (h : t.length + ended.toNat ≤ q.length) :
    (p ++ t ++ rest q t.length ended).length = (p ++ q).length := by
  have hrest := rest_length h
  simp only [List.length_append, hrest]
  omega

theorem room_eq (h : (p ++ q).length = sqlBufLen) : sqlBufLen - p.length = q.length := by
  rw [← h, List.length_append]
  omega

theorem append_comes (t : Bytes) (h : (p ++ q).length = sqlBufLen) :
    (append (p ++ q) p.length t).Comes p q t
      (if t.length < q.length then .goes true (q.length - t.length)
        else .fails) := by
  have hq : q.length ≤ sqlBufLen := by
    rw [← h, List.length_append]
    omega
  unfold append
  rw [room_eq h]
  by_cases ht : t.length < q.length
  · rw [if_pos ht, printPiece_whole ht hq]
    refine ⟨append_rest_length ht, rest_length ht, ?_⟩
    simp [Printed.advance, Printed.bind, rest]
  · obtain ⟨q', hq', hprint⟩ := @printPiece_cut p q t (by omega)
    rw [if_neg ht, hprint]
    exact ⟨p ++ q', rfl, by simp [hq']⟩

theorem value_comes (v : Val D) (h : (p ++ q).length = sqlBufLen) :
    ((val2str lib v (p ++ q) p.length q.length).advance p.length).Comes p q
      (v.literal lib) ((Piece.value v).after lib q.length) := by
  have hq : q.length ≤ sqlBufLen := by
    rw [← h, List.length_append]
    omega
  have hfits := val2str_fits lib (p := p) v hq
  unfold Piece.after
  dsimp only
  cases hfit : v.fit lib q.length with
  | whole =>
    rw [hfit] at hfits
    obtain ⟨hle, hval⟩ := hfits
    rw [hval]
    refine ⟨append_rest_length hle, rest_length hle, ?_⟩
    simp [Printed.advance, Printed.bind, rest]
  | refuse =>
    rw [hfit] at hfits
    obtain ⟨q', hq', hval, -⟩ := hfits
    rw [hval]
    exact ⟨p ++ q', rfl, by simp [hq']⟩
  | cut n =>
    rw [hfit] at hfits
    obtain ⟨q', hq', hval, hn, hlong⟩ := hfits
    rw [hval]
    refine ⟨p ++ q'.take n, q'.drop n, ?_, ?_, ?_, .inl ?_⟩
    · simp [hq']
    · rw [length_drop, hq']
    · have htake : (q'.take n).length = n := by
        rw [length_take]
        omega
      simp [Printed.advance, Printed.bind, htake]
    · simp only [List.length_append]
      omega
  | outside =>
    rw [hfit] at hfits
    rw [hfits]
    exact rfl

theorem literal_pos (lib : Lib D) {v : Val D} (h : v.ended = false) :
    0 < (v.literal lib).length := by
  have hquote : (ascii "'").length = 1 := rfl
  unfold Val.ended at h
  unfold Val.literal
  obtain ⟨nul, val⟩ := v
  cases nul with
  | true => simp at h
  | false =>
    cases val with
    | datetime t =>
      simp only [Bool.false_eq_true, if_false, List.length_append, hquote]
      omega
    | _ => simp at h

/-- The buffer behind two texts, one behind the other. -/
theorem rest_rest {t s : Bytes} {ended ended' : Bool} (h : ended' = false → 0 < s.length) :
    rest (rest q t.length ended) s.length ended' = rest q (t ++ s).length ended' := by
  have hadd : ∀ n, (q.drop (t.length + 1)).drop n = q.drop (t.length + n + 1) := by
    intro n
    rw [drop_drop]
    congr 1
    omega
  unfold rest
  cases ended with
  | false => cases ended' <;> simp [Nat.add_assoc]
  | true =>
    cases ended' with
    | true => simp [hadd]
    | false =>
      obtain ⟨k, hk⟩ := Nat.exists_eq_succ_of_ne_zero (h rfl).ne'
      simp [hk, hadd, Nat.add_assoc]

theorem assign_comes (t : Bytes) (v : Val D) (h : (p ++ q).length = sqlBufLen) :
    ((Piece.assign t v).exec lib (p ++ q) p.length).Comes p q
      (t ++ v.literal lib) ((Piece.assign t v).after lib q.length) := by
  have htext := append_comes t h
  unfold Piece.after Piece.exec
  dsimp only
  by_cases ht : t.length < q.length
  · rw [if_pos ht] at htext ⊢
    obtain ⟨hall, hrest, happend⟩ := htext
    rw [happend]
    generalize hq₁ : rest q t.length true = q₁ at hrest
    have h₁ : (p ++ t ++ q₁).length = sqlBufLen := by
      rw [← hq₁, hall, h]
    have hq₁' : q₁.length ≤ sqlBufLen := by
      rw [← h₁, List.length_append]
      omega
    have hfits := val2str_fits lib (p := p ++ t) v hq₁'
    simp only [Printed.bind, room_eq h₁]
    unfold val2strAnyway
    rw [← hrest]
    cases hfit : v.fit lib q₁.length with
    | whole =>
      rw [hfit] at hfits
      obtain ⟨hlen, hval⟩ := hfits
      have hlength := rest_length hlen
      have hlength' := append_rest_length (p := p ++ t) hlen
      have hval' : val2str lib v (p ++ t ++ q₁) (p ++ t).length q₁.length =
          some (some (v.literal lib).length, p ++ t ++ v.literal lib ++
            rest q₁ (v.literal lib).length v.ended) := hval
      have hboth := @rest_rest q t (v.literal lib) true v.ended (literal_pos lib)
      rw [hq₁] at hboth
      rw [hval', hboth]
      rw [hboth] at hlength hlength'
      refine ⟨?_, hlength, ?_⟩
      · rw [h, ← h₁, ← hlength', append_assoc p t]
      · simp [Printed.advance, Printed.bind, Nat.add_assoc]
    | refuse =>
      rw [hfit] at hfits
      obtain ⟨q', hq', hval, hlost⟩ := hfits
      rw [hval]
      refine ⟨p ++ t ++ q', [], ?_, rfl, ?_, ?_⟩
      · rw [append_nil, h, ← h₁, List.length_append, hq', ← List.length_append]
      · simp [Printed.advance, Printed.bind, hq', Nat.add_assoc]
      · obtain ⟨rfl, hne⟩ | hlong := hlost
        · refine .inr ⟨rfl, t, v.literal lib, q.drop (t.length + 1), rfl, hne, ?_⟩
          rw [← hq₁, append_nil]
          rfl
        · left
          rw [h, ← h₁]
          simp only [List.length_append]
          omega
    | cut n =>
      rw [hfit] at hfits
      obtain ⟨q', hq', hval, hn, hlong⟩ := hfits
      rw [hval]
      refine ⟨p ++ t ++ q'.take n, q'.drop n, ?_, ?_, ?_, .inl ?_⟩
      · rw [append_assoc, take_append_drop, h, ← h₁, List.length_append, hq', ← List.length_append]
      · rw [length_drop, hq']
      · have htake : (q'.take n).length = n := by
          rw [length_take]
          omega
        simp [Printed.advance, Printed.bind, htake, Nat.add_assoc]
      · rw [h, ← h₁]
        simp only [List.length_append]
        omega
    | outside =>
      rw [hfit] at hfits
      rw [hfits]
      exact rfl
  · rw [if_neg ht] at htext ⊢
    obtain ⟨mem, happend, hmem⟩ := htext
    rw [happend]
    exact ⟨mem, rfl, hmem⟩

theorem putByte_comes (c : UInt8) : (putByte (p ++ q) p.length c).Comes p q [c]
      (if 0 < q.length then .goes false (q.length - 1) else .outside) := by
  unfold putByte
  by_cases hroom : 0 < q.length
  · rw [if_pos hroom, write_behind_of_le (t := [c]) hroom]
    have hlen : [c].length + false.toNat ≤ q.length := hroom
    exact ⟨append_rest_length hlen, rest_length hlen, by simp [rest]⟩
  · rw [if_neg hroom, write_behind, if_neg (by simpa using hroom)]
    exact rfl

/-- What a piece comes to is what there is room for. -/
theorem piece_comes (lib : Lib D) (x : Piece D) (h : (p ++ q).length = sqlBufLen) :
    (x.exec lib (p ++ q) p.length).Comes p q (x.render lib) (x.after lib q.length) := by
  cases x with
  | text t => exact append_comes t h
  | assign t v => exact assign_comes t v h
  | value v =>
    unfold Piece.exec
    dsimp only
    rw [room_eq h]
    exact value_comes v h
  | mark c => exact putByte_comes c
  | comma =>
    have hcomma := putByte_comes (p := p) (q := q) 44
    unfold Piece.exec Piece.after
    dsimp only
    rw [room_eq h]
    by_cases hroom : 0 < q.length
    · rw [if_pos hroom] at hcomma ⊢
      rw [if_pos (show 1 ≤ q.length from hroom)]
      exact hcomma
    · rw [if_neg hroom, if_neg (show ¬ 1 ≤ q.length from hroom)]
      refine ⟨p, q, rfl, by omega, rfl, .inl ?_⟩
      simp only [List.length_append]
      omega
  | nul =>
    unfold Piece.exec Piece.after terminate
    dsimp only
    by_cases hroom : 0 < q.length
    · rw [if_pos hroom, write_behind_of_le (t := [0]) hroom]
      have hlen : ([] : Bytes).length + true.toNat ≤ q.length := hroom
      exact ⟨append_rest_length hlen, rest_length hlen, by simp [rest, Piece.render]⟩
    · rw [if_neg hroom, write_behind, if_neg (by simpa using hroom)]
      exact rfl
  | fail => exact ⟨p ++ q, rfl, rfl⟩

/-! ## All pieces -/

theorem exec_length (ps : List (Piece D)) (h : (p ++ q).length = sqlBufLen)
    {r : Option ℕ} {mem : Bytes}
    (hexec : exec lib (p ++ q) p.length ps = some (r, mem)) :
    mem.length = sqlBufLen := by
  induction ps generalizing p q with
  | nil =>
    obtain ⟨-, rfl⟩ := Prod.mk.inj (some.inj hexec)
    exact h
  | cons x ps ih =>
    have hcomes := piece_comes lib x h
    unfold exec at hexec
    cases hafter : x.after lib q.length with
    | goes ended room =>
      rw [hafter] at hcomes
      obtain ⟨hlen, -, hx⟩ := hcomes
      rw [hx] at hexec
      exact ih (hlen.trans h) hexec
    | lost room =>
      rw [hafter] at hcomes
      obtain ⟨p', q', hlen, -, hx, -⟩ := hcomes
      rw [hx] at hexec
      exact ih (hlen.trans h) hexec
    | fails =>
      rw [hafter] at hcomes
      obtain ⟨m, hx, hm⟩ := hcomes
      rw [hx] at hexec
      obtain ⟨-, rfl⟩ := Prod.mk.inj (some.inj hexec)
      exact hm.trans h
    | outside =>
      rw [hafter] at hcomes
      rw [show x.exec lib (p ++ q) p.length = none from hcomes] at hexec
      cases hexec

/-- Whether an error comes is told by the room. -/
theorem stops_iff (ps : List (Piece D)) (h : (p ++ q).length = sqlBufLen) : Stops lib q.length ps ↔
      ∃ mem, exec lib (p ++ q) p.length ps = some (none, mem) := by
  induction ps generalizing p q with
  | nil => simp [Stops, exec]
  | cons x ps ih =>
    have hcomes := piece_comes lib x h
    unfold exec Stops
    cases hafter : x.after lib q.length with
    | goes ended room =>
      rw [hafter] at hcomes
      obtain ⟨hlen, hroom, hx⟩ := hcomes
      rw [hx, ← hroom]
      exact ih (hlen.trans h)
    | lost room =>
      rw [hafter] at hcomes
      obtain ⟨p', q', hlen, hroom, hx, -⟩ := hcomes
      rw [hx, ← hroom]
      exact ih (hlen.trans h)
    | fails =>
      rw [hafter] at hcomes
      obtain ⟨m, hx, -⟩ := hcomes
      rw [hx]
      exact iff_of_true trivial ⟨m, rfl⟩
    | outside =>
      rw [hafter] at hcomes
      rw [show x.exec lib (p ++ q) p.length = none from hcomes]
      exact iff_of_false id (by rintro ⟨m, hm⟩; cases hm)

theorem after_zero (lib : Lib D) (x : Piece D) :
    x = .comma ∨ x.after lib 0 = .fails ∨ x.after lib 0 = .outside := by
  cases x with
  | comma => exact .inl rfl
  | value v => simp [Piece.after, Val.fit]
  | _ => simp [Piece.after]

/-- Where there is no room left nothing more is printed. -/
theorem exec_full (lib : Lib D) (ps : List (Piece D)) {mem : Bytes} (h : mem.length = sqlBufLen) :
    exec lib mem mem.length ps = none ∨ (∃ m, exec lib mem mem.length ps = some (none, m)) ∨
      ∃ r, exec lib mem mem.length ps = some (some r, mem) := by
  induction ps with
  | nil => exact .inr (.inr ⟨_, rfl⟩)
  | cons x ps ih =>
    have hcomes := piece_comes lib (p := mem) (q := []) x (by simpa)
    rw [append_nil, length_nil] at hcomes
    unfold exec
    obtain rfl | hfails | houtside := after_zero lib x
    · have hcomma : Piece.comma.exec lib mem mem.length = some (some mem.length, mem) := by
        unfold Piece.exec
        dsimp only
        rw [if_neg (by omega)]
      rw [hcomma]
      exact ih
    · rw [hfails] at hcomes
      obtain ⟨m, hx, -⟩ := hcomes
      rw [hx]
      exact .inr (.inl ⟨m, rfl⟩)
    · rw [houtside] at hcomes
      rw [show x.exec lib mem mem.length = none from hcomes]
      exact .inl rfl

theorem cString_length {mem s : Bytes} (h : cString mem = some s) : s.length < mem.length := by
  unfold cString at h
  split at h
  · rename_i hzero
    obtain rfl := some.inj h
    have hpre : mem.takeWhile (fun c : UInt8 => c ≠ 0) <+: mem := takeWhile_prefix _
    refine lt_of_le_of_ne hpre.length_le fun heq => ?_
    have hall := hpre.eq_of_length heq
    have hmem := mem_takeWhile_imp (hall ▸ hzero)
    simp at hmem
  · cases h

theorem cString_append {s m : Bytes} (hs : 0 ∉ s) : cString (s ++ 0 :: m) = some s := by
  have htoken : ∀ x ∈ s, decide (x ≠ 0) = true := by
    intro x hx
    simp only [decide_eq_true_eq]
    rintro rfl
    exact hs hx
  unfold cString
  rw [if_pos (by simp), takeWhile_token htoken (by simp)]

theorem not_submitted {x : Printed} {s : Bytes} (hs : sqlBufLen ≤ s.length)
    (hx : ∀ r m, x = some (r, m) → m.length = sqlBufLen) :
    submitQuery x ≠ some (.submit (some s)) := by
  intro h
  match x, hx, h with
  | some (some r, m), hx, h =>
    have hm := hx (some r) m rfl
    have hstr : cString m = some s := by
      simpa [submitQuery] using h
    have hlt := cString_length hstr
    omega

theorem submitQuery_error {x : Printed} :
    submitQuery x = some .error ↔ ∃ m, x = some (none, m) := by
  match x with
  | none => simp [submitQuery]
  | some (none, m) => simp [submitQuery]
  | some (some r, m) => simp [submitQuery]

theorem after_goes {x : Piece D} {room left : ℕ}
    (h : x.after lib room = .goes false left) : 0 < (x.render lib).length := by
  cases x with
  | text t =>
    unfold Piece.after at h
    dsimp only at h
    split at h <;> simp at h
  | assign t v =>
    unfold Piece.after at h
    dsimp only at h
    split at h
    · split at h <;> simp at h
      have hpos := literal_pos lib h.1
      simp only [Piece.render, List.length_append]
      omega
    · cases h
  | value v =>
    unfold Piece.after at h
    dsimp only at h
    split at h <;> simp at h
    exact literal_pos lib h.1
  | mark c => exact Nat.zero_lt_one
  | comma => exact Nat.zero_lt_one
  | nul =>
    unfold Piece.after at h
    dsimp only at h
    split at h <;> simp at h
  | fail => cases h

theorem cString_eq_iff {s m : Bytes} (hs : 0 ∉ s) :
    cString (s ++ m) = some s ↔ m.head? = some 0 := by
  constructor
  · intro h
    have htoken : ∀ x ∈ s, decide (x ≠ 0) = true := by
      intro x hx
      simp only [decide_eq_true_eq]
      rintro rfl
      exact hs hx
    unfold cString at h
    split at h
    · rename_i hzero
      have htake := some.inj h
      rw [takeWhile_append_of_pos htoken] at htake
      have hnil : m.takeWhile (fun c => decide (c ≠ 0)) = [] :=
        append_right_eq_self.mp htake
      cases m with
      | nil => simp [hs] at hzero
      | cons c m =>
        rw [takeWhile_cons] at hnil
        split at hnil
        · cases hnil
        · rename_i hc
          simpa using hc
    · cases h
  · intro h
    cases m with
    | nil => cases h
    | cons c m =>
      obtain rfl := some.inj h
      exact cString_append hs

/-- Whether a statement comes out right is told by the room. -/
theorem kept_iff (lib : Lib D) (buf : SqlBuf) (ps : List (Piece D)) (ended : Bool)
    (h : (p ++ rest buf.mem p.length ended).length = sqlBufLen)
    (hclean : 0 ∉ p ++ render lib ps) :
    Kept lib buf.Stale ended (rest buf.mem p.length ended).length ps ↔
      Outcome.Right (submitQuery (exec lib (p ++ rest buf.mem p.length ended) p.length ps))
        (p ++ render lib ps) := by
  induction ps generalizing p ended with
  | nil =>
    have hp : 0 ∉ p := fun hmem => hclean (mem_append_left _ hmem)
    have hright : Outcome.Right (submitQuery (exec lib
        (p ++ rest buf.mem p.length ended) p.length [])) (p ++ render lib []) ↔
        cString (p ++ rest buf.mem p.length ended) = some p := by
      simp [Outcome.Right, submitQuery, exec, render]
    rw [hright, cString_eq_iff hp]
    unfold Kept SqlBuf.Stale
    cases ended with
    | true => simp [rest]
    | false =>
      have hroom := room_eq h
      have hle : p.length ≤ sqlBufLen := by
        rw [← h, List.length_append]
        omega
      have hoff : sqlBufLen - (rest buf.mem p.length false).length =
          p.length := by omega
      simp [hoff]
      simp [rest, head?_drop]
  | cons x ps ih =>
    have hcomes := piece_comes lib x h
    have hrender : p ++ render lib (x :: ps) = p ++ x.render lib ++ render lib ps := by
      simp [render]
    unfold exec Kept
    cases hafter : x.after lib (rest buf.mem p.length ended).length with
    | goes ended' room =>
      rw [hafter] at hcomes
      obtain ⟨hlen, hroom, hx⟩ := hcomes
      have hrest : rest (rest buf.mem p.length ended) (x.render lib).length
          ended' = rest buf.mem (p ++ x.render lib).length ended' := by
        refine rest_rest fun hended => ?_
        subst hended
        exact after_goes hafter
      rw [hrest] at hlen hroom hx
      rw [hx, hrender, ← hroom]
      exact ih ended' (hlen.trans h) (hrender ▸ hclean)
    | lost room =>
      rw [hafter] at hcomes
      obtain ⟨p', q', hlen, hroom, hx, hlost⟩ := hcomes
      have hlen' := hlen.trans h
      rw [hx, ← hroom]
      refine (stops_iff ps hlen').trans (submitQuery_error.symm.trans ?_)
      refine (or_iff_left ?_).symm
      obtain hlong | ⟨rfl, u, v, w, huv, hv, hmem⟩ := hlost
      · refine not_submitted ?_ fun r m hm => exec_length ps hlen' hm
        rw [hrender, List.length_append, ← h]
        omega
      · -- what is submitted ends before the value
        have hq' : q' = [] := length_eq_zero_iff.mp hroom
        subst hq'
        rw [append_nil] at hmem hlen' ⊢
        have hu : 0 ∉ p ++ u := by
          intro hzero
          rw [hrender, huv] at hclean
          refine hclean (mem_append_left _ ?_)
          rw [← append_assoc]
          exact mem_append_left _ hzero
        obtain hnone | ⟨m, herror⟩ | ⟨r, hsame⟩ :=
          exec_full lib ps hlen'
        · simp [Printed.bind, hnone, submitQuery]
        · simp [Printed.bind, herror, submitQuery]
        · simp only [Printed.bind, hsame, submitQuery]
          rw [hmem, cString_append hu]
          intro heq
          have hlen := congrArg List.length (some.inj (Outcome.submit.inj (some.inj heq)))
          have hpos := length_pos_of_ne_nil hv
          rw [hrender, huv] at hlen
          simp only [List.length_append] at hlen
          omega
    | fails =>
      rw [hafter] at hcomes
      obtain ⟨m, hx, -⟩ := hcomes
      rw [hx]
      exact iff_of_true trivial (.inl rfl)
    | outside =>
      rw [hafter] at hcomes
      rw [show x.exec lib (p ++ rest buf.mem p.length ended) p.length = none
        from hcomes]
      exact iff_of_false id (by rintro (hnone | hnone) <;> cases hnone)

end Msicp.Mysql
