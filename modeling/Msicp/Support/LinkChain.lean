import Mathlib.Data.List.Nodup
import Mathlib.Data.List.Basic
import Mathlib.Logic.Function.Basic

/-!
# Singly linked lists in a heap of cells

A heap is read through a function `next` that gives the link stored in a cell;
`none` is the null link.  A *slot* is a place that holds a link: the head of a
list, or the `next` field of one of its cells.  Loops that walk a list with a
pointer to the current slot, and the insertions and removals they end in, are
stated here once, for any type of cells.
-/

namespace Msicp.Support

open List

variable {α : Type*}

/-- Following `next` from the link `a` passes exactly the cells of `l`, in
order, and arrives at the link `b`. -/
def LinkSeg (next : α → Option α) : Option α → List α → Option α → Prop
  | a, [], b => a = b
  | a, x :: l, b => a = some x ∧ LinkSeg next (next x) l b

/-- The cells of `l` are the whole null-terminated list that starts at `a`. -/
abbrev LinkChain (next : α → Option α) (a : Option α) (l : List α) : Prop :=
  LinkSeg next a l none

@[simp] theorem linkSeg_nil (next : α → Option α) (a b : Option α) :
    LinkSeg next a [] b ↔ a = b := Iff.rfl

@[simp] theorem linkSeg_cons (next : α → Option α) (a b : Option α) (x : α) (l : List α) :
    LinkSeg next a (x :: l) b ↔ a = some x ∧ LinkSeg next (next x) l b :=
  Iff.rfl

variable {next : α → Option α} {a : Option α} {l : List α}

theorem linkSeg_append {c : Option α}
    {l₁ l₂ : List α} :
    LinkSeg next a (l₁ ++ l₂) c ↔ ∃ b, LinkSeg next a l₁ b ∧ LinkSeg next b l₂ c := by
  induction l₁ generalizing a with
  | nil => simp
  | cons x l₁ ih =>
    simp only [cons_append, linkSeg_cons, ih]
    constructor
    · rintro ⟨ha, b, h₁, h₂⟩
      exact ⟨b, ⟨ha, h₁⟩, h₂⟩
    · rintro ⟨b, ⟨ha, h₁⟩, h₂⟩
      exact ⟨ha, b, h₁, h₂⟩

theorem LinkSeg.congr {next' : α → Option α} {b : Option α} (h : LinkSeg next a l b)
    (hsame : ∀ x ∈ l, next' x = next x) :
    LinkSeg next' a l b := by
  induction l generalizing a with
  | nil => exact h
  | cons x l ih =>
    obtain ⟨ha, hrest⟩ := h
    refine ⟨ha, ?_⟩
    rw [hsame x (by simp)]
    exact ih hrest (fun y hy => hsame y (by simp [hy]))

theorem LinkSeg.update [DecidableEq α]
    {b : Option α} {c : α} (v : Option α)
    (h : LinkSeg next a l b) (hc : c ∉ l) :
    LinkSeg (Function.update next c v) a l b := by
  apply h.congr
  intro x hx
  have hxc : x ≠ c := fun hEq => hc (hEq ▸ hx)
  simp [Function.update_of_ne hxc]

/-- A null-terminated list is determined by its head. -/
theorem LinkSeg.unique
    {l' : List α} (h : LinkChain next a l) (h' : LinkChain next a l') :
    l = l' := by
  induction l generalizing a l' with
  | nil =>
    cases l' with
    | nil => rfl
    | cons y l' =>
      have hnone : a = none := h
      simp [hnone] at h'
  | cons x l ih =>
    obtain ⟨ha, hrest⟩ := h
    cases l' with
    | nil =>
      have hnone : a = none := h'
      simp [hnone] at ha
    | cons y l' =>
      obtain ⟨ha', hrest'⟩ := h'
      have hxy : x = y := by
        rw [ha] at ha'
        exact Option.some.inj ha'
      subst hxy
      rw [ih hrest hrest']

/-- A null-terminated list never returns to a cell: it is acyclic. -/
theorem LinkSeg.nodup (h : LinkChain next a l) : l.Nodup := by
  induction l generalizing a with
  | nil => exact nodup_nil
  | cons x l ih =>
    obtain ⟨-, hrest⟩ := h
    refine nodup_cons.mpr ⟨?_, ih hrest⟩
    intro hx
    obtain ⟨l₁, l₂, hsplit⟩ := append_of_mem hx
    -- from `x` the list would be both `l` and its own proper suffix `l₂`
    have htail : LinkChain next (next x) l₂ := by
      rw [hsplit] at hrest
      obtain ⟨b, -, -, hl₂⟩ := linkSeg_append.1 hrest
      exact hl₂
    have hlen := congrArg List.length (hrest.unique htail)
    rw [hsplit] at hlen
    simp only [List.length_append, length_cons] at hlen
    omega

/-! ## Slots -/

/-- The head of a list together with the links of the cells. -/
structure Links (α : Type*) where
  first : Option α
  next : α → Option α

namespace Links

/-- The link in a slot: `none` is the head, `some c` the field of `c`. -/
def get (s : Links α) : Option α → Option α
  | none => s.first
  | some c => s.next c

/-- Store a link in a slot. -/
def set [DecidableEq α] (s : Links α) (slot v : Option α) : Links α :=
  match slot with
  | none => { s with first := v }
  | some c => { s with next := Function.update s.next c v }

/-- The list the head leads to. -/
def Holds (s : Links α) (l : List α) : Prop :=
  LinkChain s.next s.first l

variable {s : Links α} {l₁ l₂ : List α}

theorem get_getLast? (h : s.Holds (l₁ ++ l₂)) : s.get l₁.getLast? = l₂.head? := by
  obtain ⟨b, h₁, h₂⟩ := linkSeg_append.1 h
  have hb : b = l₂.head? := by
    cases l₂ with
    | nil => exact h₂
    | cons y l₂ => exact h₂.1
  rcases eq_nil_or_concat l₁ with rfl | ⟨l, c, rfl⟩
  · rw [linkSeg_nil] at h₁
    simpa [get, h₁] using hb
  · rw [concat_eq_append, linkSeg_append] at h₁
    obtain ⟨b', -, -, hnext⟩ := h₁
    rw [linkSeg_nil] at hnext
    simpa [get, hnext] using hb

/-- Redirecting the slot behind `l₁` keeps `l₁` and continues from the new
link. -/
theorem holds_set [DecidableEq α] {s : Links α} {l₁ l₂ l₃ : List α}
    {v : Option α} (h : s.Holds (l₁ ++ l₂))
    (hv : LinkChain s.next v l₃) (hdisj : ∀ x ∈ l₁, x ∉ l₃) :
    (s.set l₁.getLast? v).Holds (l₁ ++ l₃) := by
  rcases eq_nil_or_concat l₁ with rfl | ⟨l, c, rfl⟩
  · exact hv
  · have hnodup := (LinkSeg.nodup h).of_append_left
    rw [concat_eq_append] at h hdisj hnodup ⊢
    obtain ⟨b, h₁, -⟩ := linkSeg_append.1 h
    obtain ⟨b', hl, hc, -⟩ := linkSeg_append.1 h₁
    have hcl : c ∉ l := by
      intro hmem
      exact (List.nodup_append.mp hnodup).2.2 c hmem c (by simp) rfl
    have hset : s.set (l ++ [c]).getLast? v =
        { s with next := Function.update s.next c v } := by
      simp [set]
    rw [hset]
    refine linkSeg_append.2 ⟨v, linkSeg_append.2 ⟨b', ?_, ?_⟩, ?_⟩
    · exact hl.update v hcl
    · exact ⟨hc, by simp⟩
    · exact hv.update v (hdisj c (by simp))

/-- Linking a new cell in behind `l₁`: first its own field, then the slot. -/
theorem holds_insert [DecidableEq α] {x : α} (h : s.Holds (l₁ ++ l₂)) (hx : x ∉ l₁ ++ l₂) :
    ((s.set (some x) (s.get l₁.getLast?)).set l₁.getLast? (some x)).Holds (l₁ ++ x :: l₂) := by
  have hl₂ : LinkChain s.next (s.get l₁.getLast?) l₂ := by
    rw [get_getLast? h]
    obtain ⟨b, -, hb⟩ := linkSeg_append.1 h
    cases l₂ with
    | nil => rfl
    | cons y l₂ => exact ⟨rfl, hb.2⟩
  have hnodup := LinkSeg.nodup h
  simp only [mem_append, not_or] at hx
  refine @holds_set α _ _ l₁ l₂ _ _ ?_ ?_ ?_
  · exact LinkSeg.update _ h (by simpa using hx)
  · refine ⟨rfl, ?_⟩
    simpa [set] using hl₂.update (s.get l₁.getLast?) hx.2
  · intro y hy hyl
    rcases mem_cons.mp hyl with rfl | hyl
    · exact hx.1 hy
    · exact (List.nodup_append.mp hnodup).2.2 y hy y hyl rfl

theorem holds_remove [DecidableEq α] {x : α} (h : s.Holds (l₁ ++ x :: l₂)) :
    (s.set l₁.getLast? (s.next x)).Holds (l₁ ++ l₂) := by
  have hnodup := LinkSeg.nodup h
  apply holds_set h
  · obtain ⟨b, -, -, hl₂⟩ := linkSeg_append.1 h
    exact hl₂
  · intro y hy hyl
    exact (List.nodup_append.mp hnodup).2.2 y hy y (by simp [hyl]) rfl

theorem Holds.set_some [DecidableEq α] {l : List α} {c : α}
    (v : Option α) (h : s.Holds l) (hc : c ∉ l) :
    (s.set (some c) v).Holds l :=
  LinkSeg.update v h hc

end Links

/-! ## Walking a list -/

/-- The loop `for (f = &first; *f && !stop(*f); f = &(*f)->next);` with at most
`fuel` steps: the slot it stops at (`prev` is the slot walked from) and the
link in that slot.  The outer `none` says that the loop has not ended. -/
def walk (next : α → Option α) (stop : α → Bool) :
    ℕ → Option α → Option α → Option (Option α × Option α)
  | _, prev, none => some (prev, none)
  | 0, _, some _ => none
  | fuel + 1, prev, some x =>
    if stop x then some (prev, some x)
    else walk next stop fuel (some x) (next x)

/-- On a null-terminated list the walk ends, and it ends at the first cell
that meets the test. -/
theorem walk_of_linkChain {next : α → Option α} (stop : α → Bool)
    {l : List α} {fuel : ℕ} (prev : Option α) {a : Option α}
    (h : LinkChain next a l) (hfuel : l.length ≤ fuel) :
    ∃ l₁ l₂, l = l₁ ++ l₂ ∧ (∀ x ∈ l₁, stop x = false) ∧ (∀ x ∈ l₂.head?, stop x = true) ∧
      walk next stop fuel prev a = some (l₁.getLast?.or prev, l₂.head?) := by
  induction l generalizing fuel prev a with
  | nil =>
    obtain rfl : a = none := h
    refine ⟨[], [], rfl, by simp, by simp, ?_⟩
    cases fuel <;> simp [walk]
  | cons x l ih =>
    obtain ⟨rfl, hrest⟩ := h
    obtain ⟨fuel, rfl⟩ : ∃ n, fuel = n + 1 := by
      simp only [length_cons] at hfuel
      exact ⟨fuel - 1, by omega⟩
    by_cases hstop : stop x = true
    · refine ⟨[], x :: l, rfl, by simp, by simpa using hstop, ?_⟩
      simp [walk, hstop]
    · have hlen : l.length ≤ fuel := by
        simp only [length_cons] at hfuel
        omega
      obtain ⟨l₁, l₂, rfl, hl₁, hl₂, hwalk⟩ :=
        @ih fuel (some x) _ hrest hlen
      refine ⟨x :: l₁, l₂, rfl, ?_, hl₂, ?_⟩
      · intro y hy
        rcases mem_cons.mp hy with rfl | hy
        · simpa using hstop
        · exact hl₁ y hy
      · rw [walk, if_neg hstop, hwalk]
        cases l₁ with
        | nil => simp
        | cons z l₁ =>
          have hlast : (x :: z :: l₁).getLast? = (z :: l₁).getLast? := rfl
          rw [hlast]
          simp [getLast?_cons]

theorem walk_found {stop : α → Bool}
    {fuel : ℕ} {prev : Option α} (h : LinkChain next a l)
    (hfuel : l.length ≤ fuel) :
    (walk next stop fuel prev a).bind Prod.snd = l.find? stop := by
  obtain ⟨l₁, l₂, rfl, hl₁, hl₂, hwalk⟩ :=
    walk_of_linkChain stop prev h hfuel
  have hnone : l₁.find? stop = none := by
    rw [find?_eq_none]
    intro x hx
    simp [hl₁ x hx]
  rw [hwalk, find?_append, hnone]
  cases l₂ with
  | nil => rfl
  | cons y l₂ =>
    rw [find?_cons_of_pos (hl₂ y rfl)]
    rfl

/-- What a repeated search passes: the first hit, then what `again` finds
behind it, and so on. -/
def collect (again : α → Option α) : ℕ → Option α → List α
  | 0, _ => []
  | _ + 1, none => []
  | n + 1, some p => p :: collect again n (again p)

theorem collect_linkChain
    {n : ℕ} (h : LinkChain next a l) (hn : l.length ≤ n) :
    collect next n a = l := by
  induction l generalizing a n with
  | nil =>
    obtain rfl : a = none := h
    cases n with
    | zero => rfl
    | succ n => rfl
  | cons x l ih =>
    obtain ⟨rfl, hrest⟩ := h
    rw [length_cons] at hn
    obtain ⟨n, rfl⟩ : ∃ m, n = m + 1 := ⟨n - 1, by omega⟩
    rw [collect, ih hrest (by omega)]

/-- A repeated search passes the hits of its list, each once and in order. -/
theorem collect_eq_filter {again : α → Option α} {test : α → Bool}
    {n : ℕ} (hn : l.length ≤ n)
    (hagain : ∀ l₁ p l₂, l = l₁ ++ p :: l₂ → test p = true → again p = l₂.find? test) :
    collect again n (l.find? test) = l.filter test := by
  induction l generalizing n with
  | nil =>
    cases n with
    | zero => rfl
    | succ n => rfl
  | cons x l ih =>
    have htail : ∀ l₁ p l₂, l = l₁ ++ p :: l₂ → test p = true → again p = l₂.find? test := by
      rintro l₁ p l₂ rfl hp
      exact hagain (x :: l₁) p l₂ rfl hp
    rw [length_cons] at hn
    by_cases hx : test x = true
    · obtain ⟨n, rfl⟩ : ∃ m, n = m + 1 := ⟨n - 1, by omega⟩
      rw [find?_cons_of_pos hx, filter_cons_of_pos hx, collect,
        hagain [] x l rfl hx, ih (by omega) htail]
    · rw [find?_cons_of_neg hx, filter_cons_of_neg hx]
      exact ih (by omega) htail

end Msicp.Support
