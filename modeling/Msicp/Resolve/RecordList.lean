import Msicp.Resolve.Records
import Mathlib.Data.List.Perm.Basic
import Mathlib.Data.List.Induction

/-!
# The list of records

An SRV record is put in front of the first record that it goes before, and of records
of another type the first four bytes are compared.  The SRV records stay sorted all the
same; what matters is that no record without rdata is reached.
-/

namespace Msicp.Resolve

open Msicp.Support List Option

/-! ## The order -/

theorem goesBefore_iff {x y : ℕ × ℕ} :
    goesBefore x y = true ↔ x.1 < y.1 ∨ x.1 = y.1 ∧ y.2 < x.2 := by
  unfold goesBefore
  simp only [Bool.or_eq_true, Bool.and_eq_true, decide_eq_true_eq]

theorem goesBefore_trans {x y z : ℕ × ℕ} (hxy : goesBefore x y = true)
    (hyz : goesBefore y z = true) : goesBefore x z = true := by
  rw [goesBefore_iff] at hxy hyz ⊢
  omega

theorem goesBefore_asymm {x y : ℕ × ℕ} (hxy : goesBefore x y = true) : ¬goesBefore y x = true := by
  rw [goesBefore_iff] at hxy ⊢
  omega

/-- An SRV record. -/
def RdataCell.IsSrv (c : RdataCell) : Prop :=
  match c.rdata with
  | .srv _ _ _ _ => True
  | _ => False

instance (c : RdataCell) : Decidable c.IsSrv := by
  unfold RdataCell.IsSrv
  split
  · infer_instance
  · infer_instance

/-- `x` is put in front of `y`. -/
def RdataCell.Before (x y : RdataCell) : Prop :=
  ∃ k ∈ x.srvKey, ∃ k' ∈ y.srvKey, goesBefore k k' = true

instance (x y : RdataCell) : Decidable (x.Before y) := by
  unfold RdataCell.Before
  cases x.srvKey with
  | none => exact isFalse (by rintro ⟨k, hk, -⟩; cases hk)
  | some k =>
    cases y.srvKey with
    | none => exact isFalse (by rintro ⟨-, -, k', hk', -⟩; cases hk')
    | some k' =>
      exact decidable_of_iff (goesBefore k k' = true)
        ⟨fun h => ⟨k, rfl, k', rfl, h⟩, fun ⟨_, hk, _, hk', h⟩ => by cases hk; cases hk'; exact h⟩

variable {x y z c u : RdataCell} {l cells : List RdataCell} {k : ℕ × ℕ}

theorem RdataCell.Before.trans (hxy : x.Before y) (hyz : y.Before z) : x.Before z := by
  obtain ⟨k, hk, k', hk', hxy⟩ := hxy
  obtain ⟨k'', hk'', m, hm, hyz⟩ := hyz
  obtain rfl := some.inj (hk'.symm.trans hk'')
  exact ⟨k, hk, m, hm, goesBefore_trans hxy hyz⟩

theorem RdataCell.Before.asymm (hxy : x.Before y) : ¬y.Before x := by
  rintro ⟨k', hk', k, hk, hyx⟩
  obtain ⟨m, hm, m', hm', hxy⟩ := hxy
  obtain rfl := some.inj (hm.symm.trans hk)
  obtain rfl := some.inj (hm'.symm.trans hk')
  exact goesBefore_asymm hxy hyx

/-- The records of a list are ordered: no SRV record goes before one that it is
behind. -/
def Ordered (l : List RdataCell) : Prop := l.Pairwise fun a b => b.IsSrv → ¬b.Before a

/-- The SRV records by ascending priority and, within a priority, descending weight. -/
def SrvSorted (l : List RdataCell) : Prop :=
  (l.filter (·.IsSrv)).Pairwise fun a b => ¬b.Before a

theorem Ordered.srvSorted (h : Ordered l) : SrvSorted l := by
  refine (List.Pairwise.filter _ h).imp_of_mem ?_
  intro a b _ hb hab
  exact hab (of_decide_eq_true (mem_filter.mp hb).2)

/-! ## Insertion -/

/-- The record in front of the first one that it goes before. -/
def insertBefore (x : RdataCell) : List RdataCell → List RdataCell
  | [] => [x]
  | e :: l => if x.Before e then x :: e :: l else e :: insertBefore x l

theorem insertBefore_cons : insertBefore x (y :: l) =
    if x.Before y then x :: y :: l else y :: insertBefore x l := rfl

theorem insertBefore_perm (x : RdataCell) (l : List RdataCell) :
    (insertBefore x l).Perm (x :: l) := by
  induction l with
  | nil => exact List.Perm.refl _
  | cons e l ih =>
    rw [insertBefore_cons]
    split_ifs with hbefore
    · exact List.Perm.refl _
    · exact (ih.cons e).trans (List.Perm.swap x e l)

theorem insertBefore_of_none (h : ∀ e ∈ l, ¬x.Before e) : insertBefore x l = l ++ [x] := by
  induction l with
  | nil => rfl
  | cons e l ih =>
    rw [insertBefore_cons, if_neg (h e mem_cons_self), ih fun d hd => h d (mem_cons_of_mem e hd)]
    rfl

/-- Where the record goes before one, the last element stays. -/
theorem getLast?_insertBefore (h : ∃ e ∈ l, x.Before e) :
    (insertBefore x l).getLast? = l.getLast? := by
  induction l with
  | nil =>
    obtain ⟨e, he, -⟩ := h
    cases he
  | cons e l ih =>
    rw [insertBefore_cons]
    split_ifs with hbefore
    · rw [getLast?_cons_cons]
    · obtain ⟨d, hd, hxd⟩ := h
      rcases mem_cons.mp hd with rfl | hd
      · exact absurd hxd hbefore
      · cases l with
        | nil => cases hd
        | cons e' l =>
          have hrest := ih ⟨d, hd, hxd⟩
          obtain ⟨e'', l', hinsert⟩ : ∃ e'' l', insertBefore x (e' :: l) = e'' :: l' := by
            cases hl : insertBefore x (e' :: l) with
            | nil =>
              rw [hl] at hrest
              cases hrest
            | cons e'' l' => exact ⟨e'', l', rfl⟩
          rw [hinsert, getLast?_cons_cons, ← hinsert, hrest, getLast?_cons_cons]

/-- Insertion keeps the order, whatever stands behind. -/
theorem Ordered.insertBefore {rest : List RdataCell} (h : Ordered (l ++ rest))
    (hstop : rest = [] ∨ ∃ e ∈ l, x.Before e) :
    Ordered (Msicp.Resolve.insertBefore x l ++ rest) := by
  induction l with
  | nil =>
    rcases hstop with rfl | ⟨e, he, -⟩
    · exact pairwise_singleton _ _
    · cases he
  | cons e l ih =>
    obtain ⟨he, hrest⟩ := pairwise_cons.mp h
    rw [insertBefore_cons]
    split_ifs with hbefore
    · refine pairwise_cons.mpr ⟨?_, h⟩
      intro b hb hsrv hbx
      rcases mem_cons.mp hb with rfl | hb
      · exact hbefore.asymm hbx
      · exact he b hb hsrv (hbx.trans hbefore)
    · have hstop' : rest = [] ∨ ∃ e ∈ l, x.Before e := by
        rcases hstop with hnil | ⟨d, hd, hxd⟩
        · exact Or.inl hnil
        · rcases mem_cons.mp hd with rfl | hd
          · exact absurd hxd hbefore
          · exact Or.inr ⟨d, hd, hxd⟩
      refine pairwise_cons.mpr ⟨?_, ih hrest hstop'⟩
      intro b hb hsrv
      rcases mem_append.mp hb with hb | hb
      · rcases mem_cons.mp ((insertBefore_perm x l).mem_iff.mp hb) with rfl | hb
        · exact hbefore
        · exact he b (mem_append_left _ hb) hsrv
      · exact he b (mem_append_right _ hb) hsrv

/-- There is rdata to compare with. -/
def RdataCell.hasKey (c : RdataCell) : Bool := c.srvKey.isSome

/-- Records that can be compared with. -/
def Keyed (l : List RdataCell) : Prop := ∀ e ∈ l, e.hasKey = true

theorem before_iff {k' : ℕ × ℕ} (hx : x.srvKey = some k) (hy : y.srvKey = some k') :
    x.Before y ↔ goesBefore k k' = true := by
  constructor
  · rintro ⟨m, hm, m', hm', h⟩
    obtain rfl := some.inj (hx.symm.trans hm)
    obtain rfl := some.inj (hy.symm.trans hm')
    exact h
  · intro h
    exact ⟨k, hx, k', hy, h⟩

/-- The loop on records that can be compared, and then on what is behind them. -/
theorem insertSorted_append (hx : x.srvKey = some k) (hl : Keyed l) (rest : List RdataCell) :
    insertSorted x k (l ++ rest) =
      if ∃ e ∈ l, x.Before e then .ok (insertBefore x l ++ rest, false)
      else (insertSorted x k rest).map fun (list, atEnd) => (l ++ list, atEnd) := by
  induction l with
  | nil =>
    have hnone : ¬∃ e ∈ ([] : List RdataCell), x.Before e := by
      rintro ⟨e, he, -⟩
      cases he
    rw [if_neg hnone, nil_append]
    cases insertSorted x k rest with
    | error f => rfl
    | ok r => rfl
  | cons e l ih =>
    obtain ⟨k', hk'⟩ := isSome_iff_exists.mp (hl e mem_cons_self)
    rw [cons_append, insertSorted, hk']
    dsimp only
    by_cases hbefore : goesBefore k k' = true
    · have hxe : x.Before e := (before_iff hx hk').mpr hbefore
      rw [if_pos hbefore, if_pos ⟨e, mem_cons_self, hxe⟩, insertBefore_cons, if_pos hxe]
      rfl
    · have hxe : ¬x.Before e := fun h => hbefore ((before_iff hx hk').mp h)
      have hsame : (∃ d ∈ e :: l, x.Before d) ↔ ∃ d ∈ l, x.Before d := by
        constructor
        · rintro ⟨d, hd, hxd⟩
          rcases mem_cons.mp hd with rfl | hd
          · exact absurd hxd hxe
          · exact ⟨d, hd, hxd⟩
        · rintro ⟨d, hd, hxd⟩
          exact ⟨d, mem_cons_of_mem e hd, hxd⟩
      rw [if_neg hbefore, ih fun d hd => hl d (mem_cons_of_mem e hd), insertBefore_cons, if_neg hxe]
      by_cases hl : ∃ d ∈ l, x.Before d
      · rw [if_pos hl, if_pos (hsame.mpr hl)]
        rfl
      · rw [if_neg hl, if_neg fun h => hl (hsame.mp h)]
        cases insertSorted x k rest with
        | error f => rfl
        | ok r => rfl

/-! ## The tail pointer -/

theorem through_getLast {d : RdataCell} (hnodup : (l.map RdataCell.r).Nodup)
    (hlast : l.getLast? = some d) : through d.r l = l := by
  induction l with
  | nil => cases hlast
  | cons e l ih =>
    obtain ⟨he, hl⟩ := nodup_cons.mp hnodup
    rw [through]
    cases l with
    | nil =>
      obtain rfl : e = d := some.inj hlast
      rw [if_pos rfl]
    | cons e' l =>
      rw [getLast?_cons_cons] at hlast
      have hd : d ∈ e' :: l := mem_of_getLast? hlast
      have hne : ¬e.r = d.r := by
        intro heq
        refine he ?_
        rw [map_cons, ← map_cons, heq]
        exact List.mem_map_of_mem hd
      rw [if_neg hne, ih hl hlast]

theorem RecordList.append_eq {l : RecordList} (hnodup : (l.head.map RdataCell.r).Nodup)
    (hlast : l.last = l.head.getLast?.map RdataCell.r) (c : RdataCell) :
    l.append c = ⟨l.head ++ [c], some c.r⟩ := by
  unfold RecordList.append
  cases hl : l.head.getLast? with
  | none =>
    rw [hlast, hl, getLast?_eq_none_iff.mp hl]
    rfl
  | some d =>
    rw [hlast, hl]
    dsimp only [map_some]
    rw [through_getLast hnodup hl]

/-! ## Whole lists -/

/-- No SRV record reaches one without rdata: behind the first of these, every SRV record
goes before some record in front of it. -/
def NullSafe (cells : List RdataCell) : Prop :=
  ∀ x ∈ cells.dropWhile RdataCell.hasKey, x.IsSrv →
    ∃ e ∈ cells.takeWhile RdataCell.hasKey, x.Before e

instance (cells : List RdataCell) : Decidable (NullSafe cells) := by
  unfold NullSafe
  infer_instance

variable {a b front : List RdataCell}

/-- The list that has been built from the records `a`, which can be compared with, and
then `b`, the first of which cannot. -/
structure Built (a b front : List RdataCell) (l : RecordList) : Prop where
  keyed : Keyed a
  null : ∀ u ∈ b.head?, u.srvKey = none
  safe : ∀ x ∈ b, x.IsSrv → ∃ e ∈ a, x.Before e
  perm : front.Perm (a ++ b.filter (·.IsSrv))
  head : l.head = front ++ b.filter (¬·.IsSrv)
  ordered : Ordered l.head
  last : l.last = l.head.getLast?.map RdataCell.r

theorem IsSrv.exists (h : c.IsSrv) :
    ∃ priority weight port name, c.rdata = .srv priority weight port name := by
  unfold RdataCell.IsSrv at h
  split at h
  · exact ⟨_, _, _, _, ‹_›⟩
  · cases h

theorem IsSrv.keyed (h : c.IsSrv) : c.hasKey = true := by
  obtain ⟨priority, weight, port, name, hc⟩ := IsSrv.exists h
  rw [RdataCell.hasKey, RdataCell.srvKey, hc]
  rfl

theorem split_keyed (ha : Keyed a) (hb : ∀ u ∈ b.head?, u.srvKey = none) :
    (a ++ b).takeWhile RdataCell.hasKey = a ∧ (a ++ b).dropWhile RdataCell.hasKey = b := by
  rw [takeWhile_append_of_pos ha, dropWhile_append_of_pos ha]
  cases b with
  | nil => exact ⟨append_nil a, rfl⟩
  | cons u b =>
    have hu : ¬u.hasKey = true := by
      rw [RdataCell.hasKey, hb u rfl]
      exact Bool.false_ne_true
    rw [takeWhile_cons_of_neg hu, dropWhile_cons_of_neg hu]
    exact ⟨append_nil a, rfl⟩

section

variable {l : RecordList} (h : Built a b front l)
include h

theorem Built.nullSafe_iff (c : RdataCell) :
    NullSafe (a ++ b ++ [c]) ↔ (c.IsSrv → b = [] ∨ ∃ e ∈ a, c.Before e) := by
  unfold NullSafe
  cases b with
  | nil =>
    rw [append_nil]
    constructor
    · intro _ _
      exact Or.inl rfl
    · intro _ x hx hsrv
      rw [dropWhile_append_of_pos h.keyed] at hx
      obtain rfl := mem_singleton.mp (dropWhile_sublist _ |>.subset hx)
      rw [dropWhile_cons_of_pos (IsSrv.keyed hsrv)] at hx
      cases hx
  | cons u b =>
    obtain ⟨htake, hdrop⟩ := split_keyed h.keyed (b := u :: b ++ [c]) h.null
    rw [append_assoc, htake, hdrop]
    constructor
    · intro hsafe hsrv
      exact Or.inr (hsafe c (mem_append_right _ mem_cons_self) hsrv)
    · intro hc x hx hsrv
      rcases mem_append.mp hx with hx | hx
      · exact h.safe x hx hsrv
      · obtain rfl := mem_singleton.mp hx
        exact (hc hsrv).resolve_left (cons_ne_nil u b)

theorem Built.front_keyed : Keyed front := by
  intro e he
  rcases mem_append.mp (h.perm.mem_iff.mp he) with he | he
  · exact h.keyed e he
  · exact IsSrv.keyed (of_decide_eq_true (mem_filter.mp he).2)

/-- The SRV records that have been put in between change nothing. -/
theorem Built.exists_before : (∃ e ∈ front, c.Before e) ↔ ∃ e ∈ a, c.Before e := by
  constructor
  · rintro ⟨e, he, hce⟩
    rcases mem_append.mp (h.perm.mem_iff.mp he) with he | he
    · exact ⟨e, he, hce⟩
    · obtain ⟨hmem, hsrv⟩ := mem_filter.mp he
      obtain ⟨d, hd, hed⟩ := h.safe e hmem (of_decide_eq_true hsrv)
      exact ⟨d, hd, hce.trans hed⟩
  · rintro ⟨e, he, hce⟩
    exact ⟨e, h.perm.mem_iff.mpr (mem_append_left _ he), hce⟩

theorem Built.perm_head : l.head.Perm (a ++ b) := by
  rw [h.head]
  refine (h.perm.append_right _).trans ?_
  rw [append_assoc]
  refine List.Perm.append_left a ?_
  have hsplit := filter_append_perm (fun x : RdataCell => decide x.IsSrv) b
  simpa only [decide_not] using hsplit

end

/-! ## One record more -/

theorem filter_srv_singleton (h : c.IsSrv) :
    [c].filter (·.IsSrv) = [c] ∧ [c].filter (¬·.IsSrv) = [] := by
  simp [h]

theorem filter_other_singleton (h : ¬c.IsSrv) :
    [c].filter (·.IsSrv) = [] ∧ [c].filter (¬·.IsSrv) = [c] := by
  simp [h]

theorem link_srv (hsrv : c.IsSrv) (l : RecordList) : ∃ k, c.srvKey = some k ∧
      l.link c = (insertSorted c k l.head).bind fun p =>
        .ok ⟨p.1, if p.2 then some c.r else l.last⟩ := by
  obtain ⟨priority, weight, port, name, hc⟩ := IsSrv.exists hsrv
  refine ⟨(priority, weight), ?_, ?_⟩
  · rw [RdataCell.srvKey, hc]
  · rw [RecordList.link, hc]
    rfl

/-- An SRV record, with nothing that cannot be compared with. -/
theorem Built.srv_nil {l : RecordList} (h : Built a [] front l) (hsrv : c.IsSrv) :
    ∃ l', l.link c = .ok l' ∧ Built (a ++ [c]) [] (insertBefore c front) l' := by
  obtain ⟨k, hkey, hlink⟩ := link_srv hsrv l
  have hhead : l.head = front := by
    rw [h.head, filter_nil, append_nil]
  have hinsert := insertSorted_append hkey h.front_keyed []
  rw [append_nil] at hinsert
  have hkeyed : Keyed (a ++ [c]) := by
    intro e he
    rcases mem_append.mp he with he | he
    · exact h.keyed e he
    · rw [mem_singleton.mp he]
      exact IsSrv.keyed hsrv
  have hperm : (insertBefore c front).Perm (a ++ [c] ++ [].filter (RdataCell.IsSrv ·)) := by
    rw [filter_nil, append_nil]
    have hfront := h.perm
    rw [filter_nil, append_nil] at hfront
    exact (insertBefore_perm c front).trans ((hfront.cons c).trans (perm_append_singleton c a).symm)
  have hordered : Ordered (insertBefore c front) := by
    have hold := h.ordered
    rw [hhead, ← append_nil front] at hold
    have hnew := hold.insertBefore (x := c) (Or.inl rfl)
    rwa [append_nil] at hnew
  have hlast := h.last
  rw [hhead] at hlast hlink
  rw [hlink, hinsert]
  by_cases hbefore : ∃ e ∈ front, c.Before e
  · rw [if_pos hbefore]
    refine ⟨_, rfl, hkeyed, fun u hu => ?_, fun x hx => ?_, hperm, rfl, ?_, ?_⟩
    · cases hu
    · cases hx
    · rw [append_nil]
      exact hordered
    · rw [append_nil, getLast?_insertBefore hbefore]
      exact hlast
  · have hend : insertBefore c front = front ++ [c] :=
      insertBefore_of_none fun e he hce => hbefore ⟨e, he, hce⟩
    rw [if_neg hbefore]
    refine ⟨_, rfl, hkeyed, fun u hu => ?_, fun x hx => ?_, hperm, ?_, ?_, ?_⟩
    · cases hu
    · cases hx
    · rw [hend, filter_nil, append_nil]
    · change Ordered (front ++ [c])
      rw [← hend]
      exact hordered
    · rw [getLast?_concat]
      rfl

theorem Built.srv_cons {l : RecordList} (h : Built a (u :: b) front l) (hsrv : c.IsSrv)
    (hbefore : ∃ e ∈ a, c.Before e) :
    ∃ l', l.link c = .ok l' ∧ Built a (u :: b ++ [c]) (insertBefore c front) l' := by
  obtain ⟨k, hkey, hlink⟩ := link_srv hsrv l
  have hfront := h.exists_before.mpr hbefore
  have hinsert := insertSorted_append hkey h.front_keyed ((u :: b).filter (¬·.IsSrv))
  obtain ⟨hyes, hno⟩ := filter_srv_singleton hsrv
  rw [← h.head, if_pos hfront] at hinsert
  rw [hlink, hinsert]
  refine ⟨_, rfl, h.keyed, h.null, ?_, ?_, ?_, ?_, ?_⟩
  · intro x hx hx'
    rcases mem_append.mp hx with hx | hx
    · exact h.safe x hx hx'
    · rw [mem_singleton.mp hx]
      exact hbefore
  · rw [filter_append, hyes, ← append_assoc]
    exact (insertBefore_perm c front).trans ((h.perm.cons c).trans (perm_append_singleton c _).symm)
  · rw [filter_append, hno, append_nil]
  · have hold := h.ordered
    rw [h.head] at hold
    exact hold.insertBefore (Or.inr hfront)
  · have hlast := h.last
    rw [h.head, getLast?_append] at hlast
    rw [getLast?_append, getLast?_insertBefore hfront]
    exact hlast

theorem not_isSrv_of_null (h : u.srvKey = none) : ¬u.IsSrv := by
  intro hsrv
  have hkeyed := IsSrv.keyed hsrv
  rw [RdataCell.hasKey, h] at hkeyed
  exact Bool.false_ne_true hkeyed

theorem Built.srv_null {l : RecordList} (h : Built a (u :: b) front l) (hsrv : c.IsSrv)
    (hbefore : ¬∃ e ∈ a, c.Before e) : l.link c = .error .null := by
  obtain ⟨k, hkey, hlink⟩ := link_srv hsrv l
  have hfront : ¬∃ e ∈ front, c.Before e := fun hex => hbefore (h.exists_before.mp hex)
  have hinsert := insertSorted_append hkey h.front_keyed ((u :: b).filter (¬·.IsSrv))
  have hu := h.null u rfl
  have hfilter : (u :: b).filter (¬·.IsSrv) = u :: b.filter (¬·.IsSrv) :=
    filter_cons_of_pos (decide_eq_true (not_isSrv_of_null hu))
  rw [← h.head, if_neg hfront, hfilter, insertSorted, hu] at hinsert
  rw [hlink, hinsert]
  rfl

theorem link_other (hsrv : ¬c.IsSrv) (l : RecordList) : l.link c = .ok (l.append c) := by
  unfold RecordList.link
  cases hc : c.rdata with
  | srv priority weight port name =>
    rw [RdataCell.IsSrv, hc] at hsrv
    exact absurd trivial hsrv
  | _ => rfl

theorem Ordered.append (h : Ordered l) (hsrv : ¬c.IsSrv) : Ordered (l ++ [c]) := by
  refine pairwise_append.mpr ⟨h, pairwise_singleton _ _, ?_⟩
  intro x _ y hy hy'
  rw [mem_singleton.mp hy] at hy'
  exact absurd hy' hsrv

theorem Built.other {l : RecordList} (h : Built a b front l)
    (hnodup : ((a ++ b).map RdataCell.r).Nodup) (hsrv : ¬c.IsSrv) :
    ∃ a' b' front' l', a' ++ b' = a ++ b ++ [c] ∧ l.link c = .ok l' ∧
      Built a' b' front' l' := by
  have hids : (l.head.map RdataCell.r).Nodup :=
    ((h.perm_head.map RdataCell.r).nodup_iff).mpr hnodup
  have hlink := (link_other hsrv l).trans (congrArg Except.ok (RecordList.append_eq hids h.last c))
  have hordered := h.ordered.append hsrv
  obtain ⟨hyes, hno⟩ := filter_other_singleton hsrv
  have hlast : some c.r = (l.head ++ [c]).getLast?.map RdataCell.r := by
    rw [getLast?_concat]
    rfl
  have hhead := h.head
  have hperm := h.perm
  cases b with
  | nil =>
    rw [filter_nil, append_nil] at hhead hperm
    cases hkey : c.hasKey with
    | true =>
      refine ⟨a ++ [c], [], front ++ [c], _, by simp, hlink, ?_, ?_, ?_, ?_, ?_, hordered, hlast⟩
      · intro e he
        rcases mem_append.mp he with he | he
        · exact h.keyed e he
        · rw [mem_singleton.mp he]
          exact hkey
      · intro u hu
        cases hu
      · intro x hx
        cases hx
      · rw [filter_nil, append_nil]
        exact hperm.append_right [c]
      · rw [hhead, filter_nil, append_nil]
    | false =>
      refine ⟨a, [c], front, _, by simp, hlink, h.keyed, ?_, ?_, ?_, ?_, hordered, hlast⟩
      · intro u hu
        obtain rfl : c = u := some.inj hu
        exact not_isSome_iff_eq_none.mp (Bool.eq_false_iff.mp hkey)
      · intro x hx hx'
        rw [mem_singleton.mp hx] at hx'
        exact absurd hx' hsrv
      · rw [hyes, append_nil]
        exact hperm
      · rw [hno, hhead]
  | cons u b =>
    refine ⟨a, u :: b ++ [c], front, _, by simp, hlink, h.keyed, h.null, ?_, ?_, ?_, hordered,
      hlast⟩
    · intro x hx hx'
      rcases mem_append.mp hx with hx | hx
      · exact h.safe x hx hx'
      · rw [mem_singleton.mp hx] at hx'
        exact absurd hx' hsrv
    · rw [filter_append, hyes, append_nil]
      exact hperm
    · rw [filter_append, hno, ← append_assoc, ← hhead]

/-- Every record either is put into the list, or ends the reading. -/
theorem Built.link {l : RecordList} (h : Built a b front l)
    (hnodup : ((a ++ b).map RdataCell.r).Nodup) (c : RdataCell) :
    ((c.IsSrv → b = [] ∨ ∃ e ∈ a, c.Before e) →
      ∃ a' b' front' l', a' ++ b' = a ++ b ++ [c] ∧ l.link c = .ok l' ∧ Built a' b' front' l') ∧
    (¬(c.IsSrv → b = [] ∨ ∃ e ∈ a, c.Before e) → l.link c = .error .null) := by
  by_cases hsrv : c.IsSrv
  · cases b with
    | nil =>
      refine ⟨fun _ => ?_, fun hnot => absurd (fun _ => Or.inl rfl) hnot⟩
      obtain ⟨l', hlink, hbuilt⟩ := h.srv_nil hsrv
      exact ⟨a ++ [c], [], _, l', by simp, hlink, hbuilt⟩
    | cons u b =>
      constructor
      · intro hsafe
        have hbefore := (hsafe hsrv).resolve_left (cons_ne_nil u b)
        obtain ⟨l', hlink, hbuilt⟩ := h.srv_cons hsrv hbefore
        exact ⟨a, u :: b ++ [c], _, l', by simp, hlink, hbuilt⟩
      · intro hnot
        exact h.srv_null hsrv fun hbefore => hnot fun _ => Or.inr hbefore
  · refine ⟨fun _ => h.other hnodup hsrv, fun hnot => absurd (fun hc => absurd hc hsrv) hnot⟩

/-! ## All records -/

/-- The list for a sequence of records. -/
def linkAll (cells : List RdataCell) : Except Fault RecordList :=
  cells.foldlM RecordList.link ⟨[], none⟩

theorem linkAll_append (cells : List RdataCell) (c : RdataCell) :
    linkAll (cells ++ [c]) = (linkAll cells).bind fun l => l.link c := by
  unfold linkAll
  rw [foldlM_append]
  cases cells.foldlM RecordList.link ⟨[], none⟩ with
  | error f => rfl
  | ok l =>
    simp only [foldlM_cons, foldlM_nil, bind_pure]
    rfl

theorem NullSafe.of_append {rest : List RdataCell} (h : NullSafe (cells ++ rest)) :
    NullSafe cells := by
  intro x hx hsrv
  have hempty : ¬(cells.dropWhile RdataCell.hasKey).isEmpty = true := by
    intro hempty
    rw [List.isEmpty_iff.mp hempty] at hx
    cases hx
  have hdrop : (cells ++ rest).dropWhile RdataCell.hasKey =
      cells.dropWhile RdataCell.hasKey ++ rest := by
    rw [dropWhile_append, if_neg hempty]
  have htake : (cells ++ rest).takeWhile RdataCell.hasKey = cells.takeWhile RdataCell.hasKey := by
    have hsplit := congrArg List.length (takeWhile_append_dropWhile
      (p := RdataCell.hasKey) (l := cells))
    have hpos := length_pos_of_mem hx
    rw [List.length_append] at hsplit
    rw [takeWhile_append, if_neg (by omega)]
  have hsafe := h x
  rw [hdrop, htake] at hsafe
  exact hsafe (mem_append_left rest hx) hsrv

/-- The records become a list unless one without rdata is reached: all of them, in
order. -/
theorem linkAll_spec (hnodup : (cells.map RdataCell.r).Nodup) :
    (NullSafe cells → ∃ a b front l, a ++ b = cells ∧ linkAll cells = .ok l ∧
      Built a b front l) ∧ (¬NullSafe cells → linkAll cells = .error .null) := by
  induction cells using List.reverseRecOn with
  | nil =>
    refine ⟨fun _ => ⟨[], [], [], ⟨[], none⟩, rfl, rfl, ?_⟩, fun hnot => ?_⟩
    · refine ⟨fun e he => ?_, fun u hu => ?_, fun x hx => ?_, List.Perm.refl _, rfl,
        List.Pairwise.nil, rfl⟩
      · cases he
      · cases hu
      · cases hx
    · refine absurd ?_ hnot
      intro x hx
      cases hx
  | append_singleton cells c ih =>
    rw [map_append] at hnodup
    obtain ⟨hok, herror⟩ := ih (List.nodup_append.mp hnodup).1
    rw [linkAll_append]
    by_cases hsafe : NullSafe cells
    · obtain ⟨a, b, front, l, rfl, hl, hbuilt⟩ := hok hsafe
      have hlink := hbuilt.link (List.nodup_append.mp hnodup).1 c
      rw [hl, hbuilt.nullSafe_iff]
      exact hlink
    · rw [herror hsafe]
      exact ⟨fun h => absurd h.of_append hsafe, fun _ => rfl⟩

end Msicp.Resolve
