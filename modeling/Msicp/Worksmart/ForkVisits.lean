import Msicp.Worksmart.ForkGroup

/-!
# The members that a nested hunt group visits

Every request either splits its range into parts or rings its members, so the
members visited are those of the root range, each once and in order.  The root
range of a group of `n` members ends with the index `n`, at which there is no
member.
-/

namespace Msicp.Worksmart

open List Option

open Support (Span cut bounds_of_mem_cut exists_cut_eq_append)

/-! ## More fuel -/

theorem foldlM_mono {α β : Type*} {f f' : β → α → Option β} {l : List α}
    (hf : ∀ a ∈ l, ∀ b b', f b a = some b' → f' b a = some b') {b b' : β}
    (h : l.foldlM f b = some b') : l.foldlM f' b = some b' := by
  induction l generalizing b with
  | nil => exact h
  | cons a l ih =>
    rw [foldlM_cons] at h ⊢
    obtain ⟨c, hc, hrest⟩ := bind_eq_some_iff.mp h
    rw [hf a mem_cons_self b c hc]
    exact ih (fun a ha => hf a (mem_cons_of_mem _ ha)) hrest

variable {m nPrevSize : ℤ} {fuel : ℕ} {r : Span} {st st' : Gen}

theorem generateForkgroup_mono {nVal : ℤ} {fuel' : ℕ} (hle : fuel ≤ fuel')
    (h : generateForkgroup m nPrevSize fuel nVal r st = some st') :
    generateForkgroup m nPrevSize fuel' nVal r st = some st' := by
  induction fuel generalizing fuel' nVal r st st' with
  | zero => simp [generateForkgroup] at h
  | succ fuel ih =>
    obtain ⟨fuel', rfl⟩ : ∃ k, fuel' = k + 1 := ⟨fuel' - 1, by omega⟩
    unfold generateForkgroup at h ⊢
    dsimp only at h ⊢
    simp only [generateGroups_eq_foldlM] at h ⊢
    split at h
    · rename_i hlong
      rw [if_pos hlong]
      split at h
      · rename_i hemits
        rw [if_pos hemits]
        exact foldlM_mono (fun p _ st st' => ih (by omega)) h
      · rename_i hemits
        rw [if_neg hemits]
        exact foldlM_mono (fun p _ st st' => ih (by omega)) h
    · rename_i hlong
      rw [if_neg hlong]
      exact h

theorem handleFgrp_mono {fuel' : ℕ} {h : Handling}
    (hle : fuel ≤ fuel') (hh : handleFgrp m fuel r = some h) :
    handleFgrp m fuel' r = some h := by
  unfold handleFgrp at hh ⊢
  dsimp only at hh ⊢
  split at hh
  · rename_i hlong
    rw [if_pos hlong]
    obtain ⟨g, hg, rfl⟩ := map_eq_some_iff.mp hh
    rw [generateForkgroup_mono hle hg]
    rfl
  · rename_i hlong
    rw [if_neg hlong]
    exact hh

/-- What handling a URI of `emitted` visits. -/
def visitedUri (m : ℤ) (fuel : ℕ) (uri : Option Span) : Option (List ℤ) :=
  match uri with
  | some r => visited m fuel r
  | none => some []

theorem visited_succ (m : ℤ) (fuel : ℕ) (r : Span) : visited m (fuel + 1) r =
      match handleFgrp m (fuel + 1) r with
      | none => none
      | some .forked => some r.members
      | some (.generated g) =>
        (g.emitted.mapM (visitedUri m fuel)).map List.flatten := by
  rw [visited]
  cases handleFgrp m (fuel + 1) r with
  | none => rfl
  | some h => cases h <;> rfl

/-! ## One request -/

/-- The parts are emitted in order, those that will not be split are
counted. -/
theorem foldlM_emits (nPrevSize : ℤ) (hm : 2 ≤ m) (fuel : ℕ) (l : List Span)
    (hl : ∀ p ∈ l, 0 < p.size ∧ p.size < fuel + 1 ∧ (p.size ≤ m ∨ (nPrevSize - p.size < m ∧
        (divUp p.size m ≤ m ∨ m ≤ nPrevSize - divUp p.size m)))) (st : Gen) :
    ∃ st', l.foldlM (fun st p =>
        generateForkgroup m nPrevSize fuel 0 p { st with uri := some p }) st =
          some st' ∧
      st'.emitted = st.emitted ++ l.map some ∧
      st'.counted = st.counted + l.countP (fun p => p.size ≤ m) := by
  induction l generalizing st with
  | nil => exact ⟨st, rfl, by simp, by simp⟩
  | cons p l ih =>
    obtain ⟨hp0, hfuel, hp⟩ := hl p mem_cons_self
    obtain ⟨uri, hgen⟩ := generateForkgroup_emits hm fuel
      { st with uri := some p } hfuel (by omega) rfl hp
    obtain ⟨st', hrest, hemitted, hcounted⟩ :=
      ih (fun p hp => hl p (mem_cons_of_mem _ hp))
        { (Gen.updateShmCounter m p { st with uri := some p }).appendForkeduri with
          uri := uri }
    refine ⟨st', ?_, ?_, ?_⟩
    · rw [foldlM_cons, hgen]
      exact hrest
    · rw [hemitted]
      unfold Gen.updateShmCounter Gen.appendForkeduri
      split <;> simp
    · rw [hcounted, countP_cons]
      unfold Gen.updateShmCounter Gen.appendForkeduri
      by_cases hshort : p.size ≤ m
      · have hlt : p.stop - p.start < m := by
          simp only [Span.size] at hshort
          omega
        simp [hshort, hlt]
        omega
      · have hlt : ¬ p.stop - p.start < m := by
          simp only [Span.size] at hshort
          omega
        simp [hshort, hlt]

/-- A range that is too long is split into its parts; not so nine indices with
`m = 2`. -/
theorem handleFgrp_of_long (hm : 2 ≤ m) (fuel : ℕ)
    (hlong : m < r.size) (hnine : m = 2 → r.size ≠ 9) (hfuel : r.size ≤ fuel) :
    ∃ g, handleFgrp m fuel r = some (.generated g) ∧ g.emitted = (parts m r).map some ∧
      g.counted = (parts m r).countP (fun p => p.size ≤ m) := by
  obtain ⟨fuel, rfl⟩ : ∃ k, fuel = k + 1 := ⟨fuel - 1, by omega⟩
  have hle : m ≤ r.stop - r.start := by
    simp only [Span.size] at hlong
    omega
  obtain ⟨g, hg, hemitted, hcounted⟩ := foldlM_emits
    (divUp (r.stop - r.start) m) hm fuel (parts m r) (fun p hp => by
      obtain ⟨-, hp0, -, hlt⟩ := bounds_of_mem_parts hm hlong hp
      refine ⟨?_, by push_cast at hfuel; omega, prevSize_of_mem_parts hm hlong hnine hp⟩
      simp only [Span.size]
      omega) {}
  refine ⟨g, ?_, by simpa using hemitted, by simpa using hcounted⟩
  unfold handleFgrp generateForkgroup
  dsimp only
  rw [if_pos hle, if_pos (show m < r.stop - r.start + 1 from hlong),
    if_neg (by simp), generateGroups_eq_foldlM]
  exact congrArg (Option.map Handling.generated) hg

theorem handleFgrp_of_short (hshort : r.size ≤ m) : handleFgrp m fuel r = some .forked := by
  unfold handleFgrp
  dsimp only
  simp only [Span.size] at hshort
  rw [if_neg (by omega)]

/-! ## The whole recursion -/

/-! ## The index behind the group -/

theorem foldlM_subset {f : Gen → Span → Option Gen} {l : List Span}
    (hf : ∀ p ∈ l, ∀ st st', f st p = some st' → st.emitted ⊆ st'.emitted)
    (h : l.foldlM f st = some st') :
    st.emitted ⊆ st'.emitted := by
  induction l generalizing st with
  | nil =>
    obtain rfl : st = st' := by simpa using h
    exact List.Subset.refl _
  | cons p l ih =>
    rw [foldlM_cons] at h
    obtain ⟨st₁, h₁, hrest⟩ := bind_eq_some_iff.mp h
    exact List.Subset.trans (hf p mem_cons_self st st₁ h₁)
      (ih (fun p hp => hf p (mem_cons_of_mem _ hp)) hrest)

theorem appendForkeduri_updateShmCounter_emitted (m : ℤ) (r : Span) (st : Gen) :
    (st.updateShmCounter m r).appendForkeduri.emitted = st.emitted ++ [st.uri] := by
  unfold Gen.updateShmCounter Gen.appendForkeduri
  split <;> rfl

theorem emitted_subset {nVal : ℤ} (h : generateForkgroup m nPrevSize fuel nVal r st = some st') :
    st.emitted ⊆ st'.emitted := by
  induction fuel generalizing nVal r st st' with
  | zero => simp [generateForkgroup] at h
  | succ fuel ih =>
    have happend : st.emitted ⊆ (st.updateShmCounter m r).appendForkeduri.emitted := by
      rw [appendForkeduri_updateShmCounter_emitted]
      exact subset_append_left _ _
    unfold generateForkgroup at h
    dsimp only at h
    simp only [generateGroups_eq_foldlM] at h
    split at h
    · split at h
      · refine List.Subset.trans happend (foldlM_subset ?_ h)
        intro p _ st st' hp
        have hsub := ih hp
        exact hsub
      · refine foldlM_subset ?_ h
        intro p _ st st' hp
        have hsub := ih hp
        exact hsub
    · split at h
      · obtain rfl := some.inj h
        exact happend
      · obtain rfl := some.inj h
        exact List.Subset.refl _

/-- What is generated for a range includes a request for its end. -/
theorem generateForkgroup_stop (hm : 2 ≤ m) (hr : r.start ≤ r.stop)
    (huri : st.uri = some r ∨ (st.uri = none ∧ m < r.size))
    (h : generateForkgroup m nPrevSize fuel 0 r st = some st') :
    ∃ p, some p ∈ st'.emitted ∧ p.start ≤ p.stop ∧ p.stop = r.stop := by
  induction fuel generalizing r st st' with
  | zero => simp [generateForkgroup] at h
  | succ fuel ih =>
    have happend : st.uri = some r →
        some r ∈ (st.updateShmCounter m r).appendForkeduri.emitted := by
      intro huri
      rw [appendForkeduri_updateShmCounter_emitted, huri]
      exact mem_append_right _ (mem_singleton.mpr rfl)
    unfold generateForkgroup at h
    dsimp only at h
    simp only [generateGroups_eq_foldlM] at h
    split at h
    · rename_i hlong
      split at h
      · rename_i hemits
        have huri : st.uri = some r := by
          rcases huri with huri | ⟨huri, -⟩
          · exact huri
          · simp [huri] at hemits
        refine ⟨r, foldlM_subset ?_ h (happend huri), hr, rfl⟩
        intro p _ st st' hp
        have hsub := emitted_subset hp
        exact hsub
      · obtain ⟨l, q, hcut, hq⟩ := exists_cut_eq_append hr (size_le_mul_partSize hm hlong)
        have hq0 := (bounds_of_mem_cut (partSize_pos hm)
          (hcut ▸ mem_append_right l (mem_singleton.mpr rfl))).2.1
        change (cut (partSize m r) r.stop m.toNat r.start).foldlM _ st = _ at h
        rw [hcut, foldlM_append] at h
        obtain ⟨st₁, -, hlast⟩ := bind_eq_some_iff.mp h
        rw [foldlM_cons] at hlast
        obtain ⟨st₂, hst₂, hsame⟩ := bind_eq_some_iff.mp hlast
        obtain rfl : st₂ = st' := by simpa using hsame
        obtain ⟨p, hp, hp0, hstop⟩ := ih hq0 (.inl rfl) hst₂
        exact ⟨p, hp, hp0, hstop.trans hq⟩
    · rename_i hshort
      have huri : st.uri = some r :=
        huri.resolve_right fun hnone => hshort hnone.2
      simp only [↓reduceIte] at h
      obtain rfl := some.inj h
      exact ⟨r, happend huri, hr, rfl⟩

theorem exists_of_mapM_eq_some {α β : Type*} {f : α → Option β} {l : List α}
    {l' : List β} (h : l.mapM f = some l') {a : α} (ha : a ∈ l) :
    ∃ b ∈ l', f a = some b := by
  induction l generalizing l' with
  | nil => simp at ha
  | cons c l ih =>
    rw [mapM_cons] at h
    obtain ⟨b, hb, h⟩ := bind_eq_some_iff.mp h
    obtain ⟨bs, hbs, h⟩ := bind_eq_some_iff.mp h
    obtain rfl : b :: bs = l' := by simpa using h
    rcases mem_cons.mp ha with rfl | ha
    · exact ⟨b, mem_cons_self, hb⟩
    · obtain ⟨b', hb', hfa⟩ := ih hbs ha
      exact ⟨b', mem_cons_of_mem _ hb', hfa⟩

theorem stop_mem_visited (hm : 2 ≤ m)
    {indices : List ℤ} (hr : r.start ≤ r.stop)
    (h : visited m fuel r = some indices) : r.stop ∈ indices := by
  induction fuel generalizing r indices with
  | zero => simp [visited] at h
  | succ fuel ih =>
    rw [visited_succ] at h
    split at h
    · cases h
    · obtain rfl := some.inj h
      exact Span.mem_members.mpr ⟨hr, le_rfl⟩
    · rename_i g hg
      obtain ⟨lists, hlists, rfl⟩ := map_eq_some_iff.mp h
      unfold handleFgrp at hg
      dsimp only at hg
      split at hg
      · rename_i hlong
        obtain ⟨g', hg', hsame⟩ := map_eq_some_iff.mp hg
        obtain rfl : g' = g := by simpa using hsame
        obtain ⟨p, hp, hp0, hstop⟩ := generateForkgroup_stop hm hr
          (.inr ⟨rfl, by simp only [Span.size]; omega⟩) hg'
        obtain ⟨list, hmem, hlist⟩ := exists_of_mapM_eq_some hlists hp
        exact mem_flatten.mpr ⟨list, hmem, hstop ▸ ih hp0 hlist⟩
      · cases hg

/-- No group is rung as it should be: the index behind its last member is
visited too. -/
theorem not_ringsEveryMember {m n : ℤ} (hm : 2 ≤ m) (hn : maxBranches < n) :
    ¬ RingsEveryMember m n := by
  rintro ⟨⟨fuel, hends⟩, -, hmembers⟩
  obtain ⟨indices, hindices⟩ := isSome_iff_exists.mp hends
  have hroot : (rootUri n).start ≤ (rootUri n).stop := by
    change 0 ≤ n
    unfold maxBranches at hn
    omega
  have hstop : n ∈ indices := stop_mem_visited hm hroot hindices
  have hmem := (hmembers fuel indices hindices).mem_iff.mp hstop
  have hlt := (Span.mem_members.mp hmem).2
  dsimp only at hlt
  omega

/-- A group of 31 members is not, with `m` at its default. -/
theorem not_ringsEveryMember_default : ¬ RingsEveryMember 20 31 :=
  not_ringsEveryMember (by decide) (by decide)

/-- The 31 members and the index behind them are visited. -/
theorem visits_behind_31 : ¬ RingsEveryMember 20 31 ∧
      (visited 20 33 (rootUri 31)).any (fun indices => 31 ∈ indices) := by
  have hvisited : (visited 20 33 (rootUri 31)).any
      (fun indices => 31 ∈ indices) := by decide
  refine ⟨fun hrings => ?_, hvisited⟩
  obtain ⟨indices, hindices, hmem⟩ := (Option.any_eq_true _ _).mp hvisited
  have hmember := (hrings.members 33 indices hindices).mem_iff.mp (of_decide_eq_true hmem)
  exact absurd (Span.mem_members.mp hmember).2 (by decide)

end Msicp.Worksmart
