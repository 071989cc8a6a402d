import Msicp.Dialog.Dlg
import Msicp.Support.Heap

/-!
# The route set in shared memory (`get_route_set`)

The nodes of a route set and their parameters are blocks of shared memory; the
nodes are linked by `next`.
-/

namespace Msicp.RouteSet

open Msicp.Support Msicp.Support.Heap List Function Option
open Msicp.Dialog (RrBody Order)

/-- `param_t` -/
structure Param where
  name : Bytes
  body : Bytes

/-- `rr_t` as `parse_rr` leaves it, in private memory. -/
structure Entry where
  body : RrBody
  params : List Param

/-- A block of a route set.  The parameters of a node are never linked anew:
their list is kept as their addresses. -/
inductive Cell
  | rr (body : RrBody) (params : List ℕ) (next : Option ℕ)
  | param (p : Param)

def Cell.next : Cell → Option ℕ
  | .rr _ _ next => next
  | .param _ => none

def Cell.params : Cell → List ℕ
  | .rr _ params _ => params
  | .param _ => []

abbrev RouteHeap := Heap Cell

/-- `shm_malloc`: which of its calls fail, and where the others place a
block. -/
structure ShmMalloc where
  fails : ℕ → Bool
  place : ℕ → Finset ℕ → ℕ
  fresh : ∀ n s, place n s ∉ s

def ShmMalloc.malloc (m : ShmMalloc) : Malloc where
  pick := fun n s => if m.fails n then none else some (m.place n s)
  fresh := by
    intro n s a h
    split_ifs at h
    obtain rfl := Option.some.inj h
    exact m.fresh n s

/-- `shm_free_params` -/
def freeParams (h : RouteHeap) : List ℕ → Except Fault RouteHeap
  | [] => .ok h
  | a :: as => do
      let h ← h.free a
      freeParams h as

/-- `shm_duplicate_params`, behind the copies `done`. -/
def duplicateParams (m : ShmMalloc) : List Param → List ℕ → RouteHeap →
    Except Fault (RouteHeap × Option (List ℕ))
  | [], done, h => .ok (h, some done)
  | ptr :: ptrs, done, h =>
    match h.alloc m.malloc with
    | (h, none) => do
        let h ← freeParams h done
        return (h, none)
    | (h, some t) => do
        let h ← h.write t (.param ptr)
        duplicateParams m ptrs (done ++ [t]) h

/-- One turn of `do_duplicate_rr`: a copy whose `next` is null. -/
def copyNode (m : ShmMalloc) (it : Entry) (h : RouteHeap) : Except Fault (RouteHeap × Option ℕ) :=
  match h.alloc m.malloc with
  | (h, none) => .ok (h, none)
  | (h, some res) => do
      let h ← h.write res (.rr it.body [] none)
      match ← duplicateParams m it.params [] h with
      | (h, none) => do
          let h ← h.free res
          return (h, none)
      | (h, some params) => do
          let h ← h.write res (.rr it.body params none)
          return (h, some res)

/-- `a->next = t` -/
def setNext (h : RouteHeap) (a : ℕ) (t : Option ℕ) : Except Fault RouteHeap := do
  match ← h.read a with
  | .rr body params _ => h.write a (.rr body params t)
  | .param _ => .error .invalid

/-- `if (prev) prev->next = t` -/
def linkTo (h : RouteHeap) (prev t : Option ℕ) : Except Fault RouteHeap :=
  match prev with
  | none => .ok h
  | some prev => setNext h prev t

/-- The loop of `do_duplicate_rr`: what `*_new` is, and if all nodes have been
copied. -/
def duplicateRr (m : ShmMalloc) : List Entry → (new prev : Option ℕ) → RouteHeap →
    Except Fault (RouteHeap × Option ℕ × Bool)
  | [], new, _, h => .ok (h, new, true)
  | it :: its, new, prev, h => do
      match ← copyNode m it h with
      | (h, none) => return (h, new, false)
      | (h, some res) => do
          let h ← linkTo h prev (some res)
          duplicateRr m its (new.or (some res)) (some res) h

/-- The inner loop of `get_route_set`: `*_rs` and `last`, and if there was no
error. -/
def addRoutes (m : ShmMalloc) (order : Order) : List Entry → (rs last : Option ℕ) →
    RouteHeap → Except Fault (RouteHeap × Option ℕ × Option ℕ × Bool)
  | [], rs, last, h => .ok (h, rs, last, true)
  | p :: ps, rs, last, h => do
      match ← duplicateRr m (p :: ps) none none h with
      | (h, _, false) => return (h, rs, last, false)
      | (h, t, true) =>
        match order with
        | .normal => do
            let h ← linkTo h last t
            addRoutes m order ps (rs.or t) t h
        | .reverse => do
            let h ← linkTo h t rs
            addRoutes m order ps t last h

/-- One node of `shm_free_rr`. -/
def freeNode (h : RouteHeap) (a : ℕ) : Except Fault RouteHeap := do
  let c ← h.read a
  let h ← freeParams h c.params
  h.free a

/-- `shm_free_rr` -/
def freeRr (h : RouteHeap) (rs : Option ℕ) : Except Fault RouteHeap :=
  freeChain Cell.next freeNode h.allocated.card h rs

/-- A header field of the list that starts at `record_route`: if it is a
Record-Route, and what `parse_rr` makes of it. -/
structure Hdr where
  isRecordRoute : Bool
  parsed : Option (List Entry)

/-- The outer loop of `get_route_set`; no route set stands for -1. -/
def addHeaders (m : ShmMalloc) (order : Order) : List Hdr → (rs last : Option ℕ) →
    RouteHeap → Except Fault (RouteHeap × Option (Option ℕ))
  | [], rs, _, h => .ok (h, some rs)
  | ptr :: ptrs, rs, last, h =>
    if ptr.isRecordRoute then
      match ptr.parsed with
      | none => do
          let h ← freeRr h rs
          return (h, none)
      | some ps => do
          match ← addRoutes m order ps rs last h with
          | (h, rs, _, false) => do
              let h ← freeRr h rs
              return (h, none)
          | (h, rs, last, true) => addHeaders m order ptrs rs last h
    else addHeaders m order ptrs rs last h

/-- `get_route_set` into an empty route set. -/
def getRouteSet (m : ShmMalloc) (order : Order) (hdrs : List Hdr) (h : RouteHeap) :
    Except Fault (RouteHeap × Option (Option ℕ)) :=
  addHeaders m order hdrs none none h

/-! ## What is asked of it -/

/-- A node of a route set and where it is. -/
structure Node where
  addr : ℕ
  body : RrBody
  params : List ℕ

def Node.blocks (n : Node) : List ℕ := n.addr :: n.params

/-- The blocks of the nodes. -/
def blocks (l : List Node) : List ℕ := l.flatMap Node.blocks

/-- The route set at `rs`. -/
structure Routes (h : RouteHeap) (rs : Option ℕ) (l : List Node) : Prop where
  chain : h.Chain Cell.next rs (l.map Node.addr)
  cell : ∀ n ∈ l, ∃ next, h.cell n.addr = .rr n.body n.params next

/-- The entries of the message, in its order. -/
def entries (hdrs : List Hdr) : List Entry :=
  (hdrs.filter Hdr.isRecordRoute).flatMap fun hdr => hdr.parsed.getD []

def ordered {α : Type} (order : Order) (l : List α) : List α :=
  match order with
  | .normal => l
  | .reverse => l.reverse

/-- The route set has all entries, and its nodes are what has come into use; or
something has failed and nothing has come into use. -/
def RouteSetRight (m : ShmMalloc) (order : Order) (hdrs : List Hdr) (h : RouteHeap) :
    Prop :=
  (∃ h' rs l, getRouteSet m order hdrs h = .ok (h', some rs) ∧ Routes h' rs l ∧
    l.map Node.body = ordered order ((entries hdrs).map Entry.body) ∧
    Grows h h' (blocks l)) ∨
  (∃ h', getRouteSet m order hdrs h = .ok (h', none) ∧ Grows h h' [] ∧
    ((∃ hdr ∈ hdrs, hdr.isRecordRoute = true ∧ hdr.parsed = none) ∨
      ∃ n, h.calls ≤ n ∧ m.fails n = true))

/-- How often `shm_malloc` is called for a copy. -/
def cost (e : Entry) : ℕ := e.params.length + 1

def costs (es : List Entry) : ℕ := (es.map cost).sum

/-- No call from `c` on fails before the call `n`. -/
def Served (m : ShmMalloc) (c n : ℕ) : Prop := ∀ k, c ≤ k → k < n → m.fails k = false

/-- The first failure from the call `c` on is the call `n`. -/
def FirstFailure (m : ShmMalloc) (c n : ℕ) : Prop :=
  c ≤ n ∧ m.fails n = true ∧ Served m c n

/-- The copying of a field with two URIs or more from the call `c` on fails in
time: before the first of them is copied; or, in the normal order, with the copy
of the second one, when the first duplicate is there. -/
def FailsInTime (m : ShmMalloc) (order : Order) (c : ℕ) (e₁ e₂ : Entry) (es : List Entry) : Prop :=
  ∃ n, FirstFailure m c n ∧ (n < c + cost e₁ ∨ order = .normal ∧ c + costs (e₁ :: e₂ :: es) ≤ n ∧
      n < c + costs (e₁ :: e₂ :: es) + cost e₂)

/-- No header field has two URIs or more, or `shm_malloc` fails in time. -/
def RouteSetRegular (m : ShmMalloc) (order : Order) : ℕ → List Hdr → Prop
  | _, [] => True
  | c, ptr :: ptrs =>
    if ptr.isRecordRoute then
      match ptr.parsed with
      | none => True
      | some [] => RouteSetRegular m order c ptrs
      | some [e] =>
        (∃ n, FirstFailure m c n ∧ n < c + cost e) ∨ RouteSetRegular m order (c + cost e) ptrs
      | some (e₁ :: e₂ :: es) => FailsInTime m order c e₁ e₂ es
    else RouteSetRegular m order c ptrs

/-! ## One node -/

variable {m : ShmMalloc} {order : Order} {h₀ h h' : RouteHeap} {c d n : ℕ}
  {rs last t new prev : Option ℕ} {l hang : List Node} {lost as : List ℕ}

theorem Served.trans (hc : Served m c d) (hd : Served m d n) : Served m c n := by
  intro k hk hn
  by_cases hkd : k < d
  · exact hc k hk hkd
  · exact hd k (Nat.not_lt.mp hkd) hn

theorem FirstFailure.before (hd : FirstFailure m d n) (hcd : c ≤ d) (hc : Served m c d) :
    FirstFailure m c n :=
  ⟨hcd.trans hd.1, hd.2.1, hc.trans hd.2.2⟩

theorem FirstFailure.unique {k : ℕ} (hn : FirstFailure m c n) (hk : FirstFailure m c k) :
    n = k := by
  rcases Nat.lt_trichotomy n k with hlt | heq | hlt
  · exact absurd hn.2.1 (by simp [hk.2.2 n hn.1 hlt])
  · exact heq
  · exact absurd hk.2.1 (by simp [hn.2.2 k hk.1 hlt])

theorem FirstFailure.le_of_served (hn : FirstFailure m c n) (hd : Served m c d) : d ≤ n := by
  by_contra hlt
  exact absurd hn.2.1 (by simp [hd n hn.1 (Nat.not_le.mp hlt)])

theorem served_succ (hf : m.fails c = false) : Served m c (c + 1) := by
  intro k hk hn
  obtain rfl : k = c := by omega
  exact hf

/-- A call fails, or it gives a block that was not in use. -/
theorem malloc_cases (m : ShmMalloc) (h : RouteHeap) :
    (∃ h', h.alloc m.malloc = (h', none) ∧ Grows h h' [] ∧ m.fails h.calls = true) ∨
      ∃ h' a, h.alloc m.malloc = (h', some a) ∧ Grows h h' [a] ∧
        h'.calls = h.calls + 1 ∧ m.fails h.calls = false := by
  have hcalls : (h.alloc m.malloc).1.calls = h.calls + 1 := by
    rw [Heap.alloc]
    split <;> rfl
  have hfails : (h.alloc m.malloc).2 = none ↔ m.fails h.calls = true := by
    rw [Heap.alloc]
    cases hf : m.fails h.calls <;> simp [ShmMalloc.malloc, hf]
  rcases alloc_cases m.malloc h with ⟨h', hrun, hg, -⟩ | ⟨h', a, hrun, hg⟩
  · rw [hrun] at hfails
    exact Or.inl ⟨h', hrun, hg, hfails.mp rfl⟩
  · rw [hrun] at hfails hcalls
    refine Or.inr ⟨h', a, hrun, hg, hcalls, ?_⟩
    by_contra hf
    exact absurd (hfails.mpr (by simpa using hf)) (by simp)

theorem freeParams_shrinks (hnodup : as.Nodup) (hlive : ∀ a ∈ as, a ∈ h.allocated) :
    ∃ h', freeParams h as = .ok h' ∧ Shrinks h h' as := by
  induction as generalizing h with
  | nil => exact ⟨h, rfl, Shrinks.refl h⟩
  | cons a as ih =>
    obtain ⟨hnot, hnodup⟩ := nodup_cons.mp hnodup
    have ha := hlive a mem_cons_self
    have hs := free_shrinks ha
    obtain ⟨h', hrun, hs'⟩ := ih hnodup fun b hb =>
      (hs.mem b).mpr ⟨hlive b (mem_cons_of_mem a hb), fun hmem => hnot (mem_singleton.mp hmem ▸ hb)⟩
    refine ⟨h', ?_, hs.trans hs'⟩
    rw [freeParams, free_live ha]
    exact hrun

theorem duplicateParams_spec {ptrs : List Param} {done : List ℕ} (hg : Grows h₀ h done) :
    (∃ h' params, duplicateParams m ptrs done h = .ok (h', some params) ∧
        Grows h₀ h' params ∧ h'.calls = h.calls + ptrs.length ∧
        Served m h.calls h'.calls) ∨
      ∃ h' n, duplicateParams m ptrs done h = .ok (h', none) ∧ Grows h₀ h' [] ∧
        FirstFailure m h.calls n ∧ n < h.calls + ptrs.length := by
  induction ptrs generalizing h done with
  | nil =>
    refine Or.inl ⟨h, done, rfl, hg, rfl, ?_⟩
    intro k hk hn
    omega
  | cons ptr ptrs ih =>
    rw [duplicateParams]
    rcases malloc_cases m h with ⟨h₁, hrun, hgrow, hf⟩ | ⟨h₁, a, hrun, hgrow, hcalls, hf⟩
    · have hall := hg.trans hgrow
      rw [append_nil] at hall
      obtain ⟨h₂, hfree, hs⟩ := freeParams_shrinks hall.nodup fun b hb => hall.live hb
      refine Or.inr ⟨h₂, h.calls, ?_, Grows.shrink hall hs, ⟨le_refl _, hf, ?_⟩, by simp⟩
      · rw [hrun]
        simp only [hfree, bind, Except.bind, pure, Except.pure]
      · intro k hk hn
        omega
    · have hall := hg.trans hgrow
      have ha : a ∈ done ++ [a] := by simp
      have hw := hall.write ha (.param ptr)
      rw [hrun]
      simp only [write_live (hall.live ha), bind, Except.bind]
      have hserved := served_succ hf
      rcases ih hw with ⟨h₂, params, hrun', hgrow', hcalls', hserved'⟩ |
        ⟨h₂, n, hrun', hgrow', hfirst, hn⟩
      · refine Or.inl ⟨h₂, params, hrun', hgrow', ?_, ?_⟩
        · rw [hcalls', length_cons]
          simp only
          omega
        · refine hserved.trans ?_
          rw [← hcalls]
          exact hserved'
      · refine Or.inr ⟨h₂, n, hrun', hgrow', ?_, ?_⟩
        · refine FirstFailure.before (d := h.calls + 1) ?_ (by omega) hserved
          rw [← hcalls]
          exact hfirst
        · simp only [length_cons] at hn ⊢
          omega

theorem copyNode_spec (m : ShmMalloc) (it : Entry) (h : RouteHeap) :
    (∃ h' a params, copyNode m it h = .ok (h', some a) ∧ Grows h h' (a :: params) ∧
        h'.cell a = .rr it.body params none ∧ h'.calls = h.calls + cost it ∧
        Served m h.calls h'.calls) ∨
      ∃ h' n, copyNode m it h = .ok (h', none) ∧ Grows h h' [] ∧
        FirstFailure m h.calls n ∧ n < h.calls + cost it := by
  rw [copyNode]
  rcases malloc_cases m h with ⟨h₁, hrun, hgrow, hf⟩ | ⟨h₁, a, hrun, hgrow, hcalls, hf⟩
  · refine Or.inr ⟨h₁, h.calls, by rw [hrun], hgrow, ⟨le_refl _, hf, ?_⟩, by simp [cost]⟩
    intro k hk hn
    omega
  · have ha : a ∈ [a] := mem_singleton_self a
    have hw := hgrow.write ha (.rr it.body [] none)
    rw [hrun]
    simp only [write_live (hgrow.live ha), bind, Except.bind]
    have hserved := served_succ hf
    rcases @duplicateParams_spec _ _ _ it.params _ (Grows.refl { h₁ with
        cell := Function.update h₁.cell a (.rr it.body [] none) }) with
      ⟨h₂, params, hrun', hgrow', hcalls', hserved'⟩ | ⟨h₂, n, hrun', hgrow', hfirst, hn⟩
    · have hall := hw.trans hgrow'
      have ha' : a ∈ [a] ++ params := by simp
      rw [hrun']
      simp only [write_live (hall.live ha'), pure, Except.pure]
      refine Or.inl ⟨_, a, params, rfl, hall.write ha' _, update_self _ _ _, ?_, ?_⟩
      · simp only [hcalls', hcalls, cost]
        omega
      · refine hserved.trans ?_
        rw [← hcalls]
        exact hserved'
    · have hall := hw.trans hgrow'
      have ha' : a ∈ h₂.allocated := hall.live (by simp)
      rw [hrun']
      simp only [free_live ha', pure, Except.pure]
      refine Or.inr ⟨_, n, rfl, @Grows.shrink _ _ _ _ [] _ hall (free_shrinks ha'), ?_, ?_⟩
      · refine FirstFailure.before (d := h.calls + 1) ?_ (by omega) hserved
        rw [← hcalls]
        exact hfirst
      · simp only [cost] at hn ⊢
        omega

/-! ## Lists of nodes -/

theorem blocks_append (l l' : List Node) : blocks (l ++ l') = blocks l ++ blocks l' :=
  flatMap_append

theorem blocks_eq_nil : blocks l = [] ↔ l = [] := by
  constructor
  · intro h
    cases l with
    | nil => rfl
    | cons x l => exact absurd h (cons_ne_nil _ _)
  · rintro rfl
    rfl

theorem addr_mem_blocks {x : Node} (hx : x ∈ l) : x.addr ∈ blocks l :=
  mem_flatMap.mpr ⟨x, hx, mem_cons_self⟩

theorem addrs_nodup (h : (blocks l).Nodup) : (l.map Node.addr).Nodup := by
  induction l with
  | nil => exact nodup_nil
  | cons x l ih =>
    rw [blocks, flatMap_cons, ← blocks] at h
    obtain ⟨-, hrest, hdisj⟩ := List.nodup_append.mp h
    refine nodup_cons.mpr ⟨?_, ih hrest⟩
    intro hmem
    obtain ⟨y, hy, heq⟩ := List.mem_map.mp hmem
    exact hdisj x.addr mem_cons_self y.addr (addr_mem_blocks hy) heq.symm

theorem Routes.congr (hr : Routes h rs l)
    (hsame : ∀ x ∈ l, h'.cell x.addr = h.cell x.addr) : Routes h' rs l := by
  refine ⟨Chain.congr hr.chain fun a ha => ?_, fun x hx => ?_⟩
  · obtain ⟨x, hx, rfl⟩ := List.mem_map.mp ha
    exact hsame x hx
  · rw [hsame x hx]
    exact hr.cell x hx

variable {done : List RrBody} {l' : List Node} {hdrs : List Hdr}

theorem Routes.unique (hr : Routes h rs l) (hr' : Routes h rs l') : blocks l = blocks l' := by
  have hread : ∀ {k : List Node}, Routes h rs k →
      blocks k = (k.map Node.addr).flatMap fun a => a :: (h.cell a).params := by
    intro k hk
    rw [blocks, flatMap_map]
    refine flatMap_congr fun x hx => ?_
    obtain ⟨next, hcell⟩ := hk.cell x hx
    rw [hcell]
    rfl
  rw [hread hr, hread hr', LinkSeg.unique hr.chain hr'.chain]

/-- The node at which `last` points gets `t` as its next one. -/
theorem linkTo_routes (hr : Routes h rs (l ++ hang)) (ht : Routes h t l')
    (hlast : last = l.getLast?.map Node.addr) (hhang : l = [] → hang = [])
    (hlive : ∀ x ∈ l, x.addr ∈ h.allocated)
    (hnodup : (l.map Node.addr).Nodup)
    (hdisj : ∀ x ∈ l, ∀ y ∈ l', y.addr ≠ x.addr) :
    ∃ h', linkTo h last t = .ok h' ∧ h'.allocated = h.allocated ∧ h'.calls = h.calls ∧
      (∀ a, a ∉ l.map Node.addr → h'.cell a = h.cell a) ∧
      Routes h' (rs.or t) (l ++ l') := by
  rcases eq_nil_or_concat' l with rfl | ⟨l, x, rfl⟩
  · rw [hhang rfl, nil_append] at hr
    obtain rfl : rs = none := hr.chain
    exact ⟨h, by rw [hlast]; rfl, rfl, rfl, fun _ _ => rfl, ht⟩
  · rw [getLast?_concat, map_some] at hlast
    have hx : x ∈ l ++ [x] := by simp
    obtain ⟨next, hcell⟩ := hr.cell x (mem_append_left _ hx)
    have hwrite : linkTo h last t = .ok { h with
        cell := Function.update h.cell x.addr (.rr x.body x.params t) } := by
      rw [hlast, linkTo, setNext, read_live (hlive x hx)]
      simp only [bind, Except.bind, hcell]
      exact write_live (hlive x hx) _
    have hfirst : rs.or t = rs := by
      have hchain := hr.chain
      rw [append_assoc, map_append] at hchain
      cases l with
      | nil => rw [hchain.1, some_or]
      | cons y l => rw [hchain.1, some_or]
    have hother : ∀ a, a ≠ x.addr →
        Function.update h.cell x.addr (.rr x.body x.params t) a = h.cell a :=
      fun a ha => update_of_ne ha _ _
    have hl : ∀ y ∈ l, y.addr ≠ x.addr := by
      intro y hy heq
      rw [map_append] at hnodup
      exact (List.nodup_append.mp hnodup).2.2 y.addr (List.mem_map_of_mem hy) x.addr (by simp) heq
    refine ⟨_, hwrite, rfl, rfl, ?_, ?_, ?_⟩
    · intro a ha
      refine hother a fun heq => ha ?_
      rw [heq]
      exact List.mem_map_of_mem hx
    · -- the links in front of the node are the old ones
      rw [hfirst]
      have hchain := hr.chain
      rw [append_assoc, map_append] at hchain
      obtain ⟨b, hfront, hb, -⟩ := linkSeg_append.mp hchain
      rw [append_assoc, map_append]
      refine linkSeg_append.mpr ⟨b, hfront.congr ?_, hb, ?_⟩
      · intro a ha
        obtain ⟨y, hy, rfl⟩ := List.mem_map.mp ha
        exact congrArg Cell.next (hother y.addr (hl y hy))
      · have hnext : Cell.next (Function.update h.cell x.addr
            (.rr x.body x.params t) x.addr) = t := by
          rw [update_self]
          rfl
        change LinkSeg _ (Cell.next _) _ _
        rw [hnext]
        refine LinkSeg.congr ht.chain fun a ha => ?_
        obtain ⟨y, hy, rfl⟩ := List.mem_map.mp ha
        exact congrArg Cell.next (hother y.addr (hdisj x hx y hy))
    · intro y hy
      by_cases heq : y.addr = x.addr
      · have hxy : y ∈ l ++ [x] := by
          refine (mem_append.mp hy).resolve_right fun hy' => ?_
          exact hdisj x hx y hy' heq
        obtain ⟨next', hcell'⟩ := hr.cell y (mem_append_left _ hxy)
        rw [heq, hcell, Cell.rr.injEq] at hcell'
        refine ⟨t, ?_⟩
        rw [heq]
        exact (update_self _ _ _).trans (by rw [hcell'.1, hcell'.2.1])
      · have hsame := hother y.addr heq
        rcases mem_append.mp hy with hy | hy
        · obtain ⟨next', hcell'⟩ := hr.cell y (mem_append_left _ hy)
          exact ⟨next', hsame.trans hcell'⟩
        · obtain ⟨next', hcell'⟩ := ht.cell y hy
          exact ⟨next', hsame.trans hcell'⟩

theorem grows_of_same {new : List ℕ} (hg : Grows h₀ h new)
    (halloc : h'.allocated = h.allocated) (hsame : ∀ a, a ∉ new → h'.cell a = h.cell a) :
    Grows h₀ h' new where
  nodup := hg.nodup
  fresh := hg.fresh
  mem := by
    rw [halloc]
    exact hg.mem
  same := fun a ha => (hsame a fun hnew => hg.fresh a hnew ha).trans (hg.same a ha)

/-! ## The duplicates -/

theorem costs_cons (e : Entry) (es : List Entry) : costs (e :: es) = cost e + costs es := by
  simp [costs]

/-- The loop of `do_duplicate_rr` behind the copies of `l`. -/
theorem duplicateRr_spec {its : List Entry} (hg : Grows h₀ h (blocks l))
    (hr : Routes h new l) (hprev : prev = l.getLast?.map Node.addr) :
    (∃ h' new' l', duplicateRr m its new prev h = .ok (h', new', true) ∧
        Grows h₀ h' (blocks (l ++ l')) ∧ Routes h' new' (l ++ l') ∧
        l'.map Node.body = its.map Entry.body ∧ h'.calls = h.calls + costs its ∧
        Served m h.calls h'.calls) ∨
      ∃ h' new' l' n, duplicateRr m its new prev h = .ok (h', new', false) ∧
        Grows h₀ h' (blocks (l ++ l')) ∧ FirstFailure m h.calls n ∧
        n < h.calls + costs its ∧
        (l' = [] ↔ ∀ e ∈ its.head?, n < h.calls + cost e) := by
  induction its generalizing h new prev l with
  | nil =>
    refine Or.inl ⟨h, new, [], rfl, by rwa [append_nil], by rwa [append_nil], rfl, rfl, ?_⟩
    intro k hk hn
    omega
  | cons it its ih =>
    rw [duplicateRr]
    rcases copyNode_spec m it h with
      ⟨h₁, a, params, hrun, hgrow, hcell, hcalls, hserved⟩ | ⟨h₁, n, hrun, hgrow, hfirst, hn⟩
    · have hall := hg.trans hgrow
      have hold : ∀ x ∈ l, h₁.cell x.addr = h.cell x.addr := fun x hx =>
        hgrow.same _ (hg.live (addr_mem_blocks hx))
      have hnode : Routes h₁ (some a) [⟨a, it.body, params⟩] := by
        refine ⟨⟨rfl, ?_⟩, fun x hx => ?_⟩
        · change Cell.next (h₁.cell a) = none
          rw [hcell]
          rfl
        · rw [mem_singleton.mp hx]
          exact ⟨none, hcell⟩
      have hr₁ : Routes h₁ new (l ++ []) := by
        rw [append_nil]
        exact hr.congr hold
      have hall' : Grows h₀ h₁ (blocks (l ++ [⟨a, it.body, params⟩])) := by
        simpa [blocks, Node.blocks] using hall
      have hne : ∀ x ∈ l, ∀ y ∈ [(⟨a, it.body, params⟩ : Node)], y.addr ≠ x.addr := by
        intro x hx y hy heq
        rw [mem_singleton.mp hy] at heq
        refine hgrow.fresh a mem_cons_self ?_
        rw [show a = x.addr from heq]
        exact hg.live (addr_mem_blocks hx)
      obtain ⟨h₂, hlink, halloc, hcalls₂, hsame, hr₂⟩ := linkTo_routes hr₁ hnode hprev
        (fun _ => rfl) (fun x hx => hgrow.keeps (hg.live (addr_mem_blocks hx)))
        (addrs_nodup hg.nodup) hne
      have hg₂ : Grows h₀ h₂ (blocks (l ++ [⟨a, it.body, params⟩])) := by
        refine grows_of_same hall' halloc fun b hb => hsame b fun hmem => hb ?_
        obtain ⟨x, hx, rfl⟩ := List.mem_map.mp hmem
        exact addr_mem_blocks (mem_append_left _ hx)
      rw [hrun]
      simp only [hlink, bind, Except.bind]
      have hcalls' : h₂.calls = h.calls + cost it := hcalls₂.trans hcalls
      have hserved' : Served m h.calls h₂.calls := by
        rw [hcalls₂]
        exact hserved
      rcases ih hg₂ hr₂ (by rw [getLast?_concat, map_some]) with
        ⟨h₃, new', l', hrun', hg₃, hr₃, hbody, hcalls₃, hserved₃⟩ |
        ⟨h₃, new', l', n, hrun', hg₃, hfirst, hn, -⟩
      · refine Or.inl ⟨h₃, new', ⟨a, it.body, params⟩ :: l', hrun', ?_, ?_, ?_, ?_,
          hserved'.trans hserved₃⟩
        · simpa using hg₃
        · simpa using hr₃
        · rw [map_cons, map_cons, hbody]
        · rw [hcalls₃, hcalls', costs_cons, Nat.add_assoc]
      · have hle := hfirst.1
        refine Or.inr ⟨h₃, new', ⟨a, it.body, params⟩ :: l', n, hrun', by simpa using hg₃,
          hfirst.before (by omega) hserved', by rw [costs_cons]; omega, ?_⟩
        simp only [reduceCtorEq, head?_cons, mem_some_iff, forall_eq', false_iff]
        omega
    · rw [hrun]
      refine Or.inr ⟨h₁, new, [], n, rfl, ?_, hfirst, by rw [costs_cons]; omega, ?_⟩
      · have hall := hg.trans hgrow
        simpa using hall
      · simpa using hn

/-! ## The loops of `get_route_set` -/

/-- The route set so far: the nodes of `l`, and in the normal order the rest of
the last duplicate behind them.  The blocks of `lost` are out of reach. -/
structure Built (order : Order) (h₀ h : RouteHeap) (rs last : Option ℕ)
    (done : List RrBody) (l hang : List Node) (lost : List ℕ) : Prop where
  routes : Routes h rs (l ++ hang)
  grows : Grows h₀ h (blocks (l ++ hang) ++ lost)
  bodies : l.map Node.body = ordered order done
  lastNode : order = .normal → last = l.getLast?.map Node.addr
  noHang : l = [] → hang = []
  reverse : order = .reverse → hang = []

theorem ordered_concat {α : Type} (order : Order) (done : List α) (p : α) :
    ordered order (done ++ [p]) =
      match order with
      | .normal => ordered order done ++ [p]
      | .reverse => p :: ordered order done := by
  cases order with
  | normal => rfl
  | reverse => exact reverse_append

section

variable (hi : Built order h₀ h rs last done l hang lost)
include hi

/-- Blocks that come into use and go out of reach. -/
theorem Built.lose {extra : List ℕ} (hg : Grows h h' extra) :
    Built order h₀ h' rs last done l hang (lost ++ extra) where
  routes := hi.routes.congr fun x hx => hg.same _
    (hi.grows.live (mem_append_left _ (addr_mem_blocks hx)))
  grows := by
    rw [← append_assoc]
    exact hi.grows.trans hg
  bodies := hi.bodies
  lastNode := hi.lastNode
  noHang := hi.noHang
  reverse := hi.reverse

theorem turn_spec {p : Entry} {ps : List Entry} :
    (∃ h' rs' last' l' hang' extra,
        addRoutes m order (p :: ps) rs last h = addRoutes m order ps rs' last' h' ∧
        Built order h₀ h' rs' last' (done ++ [p.body]) l' hang' (lost ++ extra) ∧
        h'.calls = h.calls + costs (p :: ps) ∧ Served m h.calls h'.calls ∧
        (order = .normal → extra = blocks hang ∧ (hang' = [] ↔ ps = [])) ∧
        (order = .reverse → (extra = [] ↔ ps = []))) ∨
      ∃ h' extra n, addRoutes m order (p :: ps) rs last h = .ok (h', rs, last, false) ∧
        Built order h₀ h' rs last done l hang (lost ++ extra) ∧
        FirstFailure m h.calls n ∧ n < h.calls + costs (p :: ps) ∧
        (extra = [] ↔ n < h.calls + cost p) := by
  rw [addRoutes]
  rcases @duplicateRr_spec _ _ _ none none [] (p :: ps)
      (Grows.refl h) ⟨rfl, fun x hx => absurd hx not_mem_nil⟩ rfl with
    ⟨h₁, t, copies, hrun, hgrow, ht, hbody, hcalls, hserved⟩ |
    ⟨h₁, t, copies, n, hrun, hgrow, hfirst, hn, hempty⟩
  · rw [nil_append] at hgrow ht
    obtain ⟨c, cs, rfl⟩ : ∃ c cs, copies = c :: cs :=
      exists_cons_of_ne_nil fun hnil => by simp [hnil] at hbody
    rw [map_cons, map_cons, List.cons.injEq] at hbody
    have hcs : cs = [] ↔ ps = [] := by
      rw [← map_eq_nil_iff, hbody.2, map_eq_nil_iff]
    have hi₁ := hi.lose hgrow
    have hnodup := hi₁.grows.nodup
    have hdisj : ∀ x ∈ l ++ hang, ∀ y ∈ c :: cs, y.addr ≠ x.addr := by
      intro x hx y hy heq
      refine hgrow.fresh y.addr (addr_mem_blocks hy) ?_
      rw [heq]
      exact hi.grows.live (mem_append_left _ (addr_mem_blocks hx))
    rw [hrun]
    simp only [bind, Except.bind]
    cases order with
    | normal =>
      obtain ⟨h₂, hlink, halloc, hcalls₂, hsame, hr₂⟩ := linkTo_routes hi₁.routes ht
        (hi.lastNode rfl) hi.noHang
        (fun x hx => hi₁.grows.live (mem_append_left _ (addr_mem_blocks (mem_append_left _ hx))))
        (by
          have hblocks := (List.nodup_append.mp hi.grows.nodup).1
          rw [blocks_append] at hblocks
          exact addrs_nodup (List.nodup_append.mp hblocks).1)
        fun x hx => hdisj x (mem_append_left _ hx)
      have hg₂ := grows_of_same hi₁.grows halloc fun b hb => hsame b fun hmem => hb (by
        obtain ⟨x, hx, rfl⟩ := List.mem_map.mp hmem
        exact mem_append_left _ (addr_mem_blocks (mem_append_left _ hx)))
      simp only [hlink]
      refine Or.inl ⟨h₂, rs.or t, t, l ++ [c], cs, blocks hang, rfl, ⟨?_, ?_, ?_, ?_, ?_, ?_⟩,
        hcalls₂.trans hcalls, by rw [hcalls₂]; exact hserved, fun _ => ⟨rfl, hcs⟩, ?_⟩
      · rw [append_assoc]
        exact hr₂
      · refine hg₂.perm (perm_iff_count.mpr fun b => ?_)
        simp only [blocks, flatMap_append, flatMap_cons, flatMap_nil, count_append, append_nil]
        omega
      · rw [map_append, hi.bodies, ordered_concat]
        simp [hbody.1]
      · intro _
        rw [getLast?_concat, map_some]
        exact ht.chain.1
      · exact fun hnil => absurd hnil (by simp)
      · exact fun hcontra => absurd hcontra (by decide)
      · exact fun hcontra => absurd hcontra (by decide)
    | reverse =>
      have hhang := hi.reverse rfl
      subst hhang
      have hrs : Routes h₁ rs l := by
        have hr₁ := hi₁.routes
        rwa [append_nil] at hr₁
      obtain ⟨h₂, hlink, halloc, hcalls₂, hsame, hr₂⟩ := @linkTo_routes _ _ t _ [c] cs _ ht hrs
          ht.chain.1 (fun hcontra => absurd hcontra (by simp))
        (fun x hx => hgrow.live (addr_mem_blocks (by simp [mem_singleton.mp hx])))
        (nodup_singleton _)
        (fun x hx y hy heq => hdisj y (mem_append_left _ hy) x
          (by simp [mem_singleton.mp hx]) heq.symm)
      have hg₂ := grows_of_same hi₁.grows halloc fun b hb => hsame b fun hmem => hb (by
        obtain ⟨x, hx, rfl⟩ := List.mem_map.mp hmem
        rw [mem_singleton.mp hx]
        exact mem_append_right _ (mem_append_right _ (addr_mem_blocks mem_cons_self)))
      have htop : t.or rs = t := by
        rw [show t = some c.addr from ht.chain.1, some_or]
      rw [htop] at hr₂
      simp only [hlink]
      refine Or.inl ⟨h₂, t, last, c :: l, [], blocks cs, rfl, ⟨?_, ?_, ?_, ?_, ?_, ?_⟩,
        hcalls₂.trans hcalls, by rw [hcalls₂]; exact hserved, ?_, fun _ => ?_⟩
      · rw [append_nil]
        exact hr₂
      · refine hg₂.perm (perm_iff_count.mpr fun b => ?_)
        simp only [blocks, flatMap_cons, count_append, append_nil]
        omega
      · rw [map_cons, hi.bodies, ordered_concat]
        simp [hbody.1]
      · exact fun hcontra => absurd hcontra (by decide)
      · exact fun _ => rfl
      · exact fun _ => rfl
      · exact fun hcontra => absurd hcontra (by decide)
      · rw [blocks_eq_nil]
        exact hcs
  · rw [hrun]
    refine Or.inr ⟨h₁, blocks copies, n, rfl, hi.lose hgrow, hfirst, hn, ?_⟩
    rw [blocks_eq_nil, hempty]
    simp

/-- Several turns: what is out of reach stays so. -/
theorem addRoutes_spec {es : List Entry} :
    (∃ h' rs' last' l' hang' extra, addRoutes m order es rs last h = .ok (h', rs', last', true) ∧
        Built order h₀ h' rs' last' (done ++ es.map Entry.body) l' hang' (lost ++ extra) ∧
        h.calls ≤ h'.calls ∧ (hang = [] ∨ es ≠ [] → hang' = [])) ∨
      ∃ h' rs' last' done' l' hang' extra n,
        addRoutes m order es rs last h = .ok (h', rs', last', false) ∧
        Built order h₀ h' rs' last' done' l' hang' (lost ++ extra) ∧
        h.calls ≤ n ∧ m.fails n = true := by
  induction es generalizing h rs last done l hang lost with
  | nil =>
    refine Or.inl ⟨h, rs, last, l, hang, [], rfl, ?_, le_refl _, fun h => h.resolve_right (by simp)⟩
    rw [map_nil, append_nil, append_nil]
    exact hi
  | cons p ps ih =>
    rcases @turn_spec m _ _ _ _ _ _ _ _ _ hi p ps with
      ⟨h₁, rs₁, last₁, l₁, hang₁, extra₁, hrun, hi₁, hcalls, -, hnormal, -⟩ |
      ⟨h₁, extra, n, hrun, hi₁, hfirst, -, -⟩
    · rw [hrun]
      rcases ih hi₁ with ⟨h₂, rs₂, last₂, l₂, hang₂, extra₂, hrun₂, hi₂, hle, hhang⟩ |
        ⟨h₂, rs₂, last₂, done₂, l₂, hang₂, extra₂, n, hrun₂, hi₂, hn, hf⟩
      · rw [append_assoc, append_assoc] at hi₂
        refine Or.inl ⟨h₂, rs₂, last₂, l₂, hang₂, extra₁ ++ extra₂, hrun₂, hi₂, by omega,
          fun _ => hhang ?_⟩
        by_cases hps : ps = []
        · refine Or.inl ?_
          cases order with
          | normal => exact (hnormal rfl).2.mpr hps
          | reverse => exact hi₁.reverse rfl
        · exact Or.inr hps
      · rw [append_assoc] at hi₂
        exact Or.inr ⟨h₂, rs₂, last₂, done₂, l₂, hang₂, extra₁ ++ extra₂, n, hrun₂, hi₂,
          by omega, hf⟩
    · exact Or.inr ⟨h₁, rs, last, done, l, hang, extra, n, hrun, hi₁, hfirst.1, hfirst.2.1⟩

end

theorem addRoutes_one {e : Entry} (hi : Built order h₀ h rs last done l [] lost) :
    (∃ h' rs' last' l', addRoutes m order [e] rs last h = .ok (h', rs', last', true) ∧
        Built order h₀ h' rs' last' (done ++ [e.body]) l' [] lost ∧
        h'.calls = h.calls + cost e ∧ Served m h.calls h'.calls) ∨
      ∃ h' n, addRoutes m order [e] rs last h = .ok (h', rs, last, false) ∧
        Built order h₀ h' rs last done l [] lost ∧ FirstFailure m h.calls n ∧
        n < h.calls + cost e := by
  have hcosts : costs [e] = cost e := by simp [costs]
  rcases @turn_spec m _ _ _ _ _ _ _ _ _ hi e [] with
    ⟨h₁, rs₁, last₁, l₁, hang₁, extra, hrun, hi₁, hcalls, hserved, hnormal, hreverse⟩ |
    ⟨h₁, extra, n, hrun, hi₁, hfirst, hn, hempty⟩
  · have hnone : extra = [] ∧ hang₁ = [] := by
      cases order with
      | normal => exact ⟨(hnormal rfl).1, (hnormal rfl).2.mpr rfl⟩
      | reverse => exact ⟨(hreverse rfl).mpr rfl, hi₁.reverse rfl⟩
    rw [hnone.1, hnone.2, append_nil] at hi₁
    rw [hcosts] at hcalls
    exact Or.inl ⟨h₁, rs₁, last₁, l₁, hrun, hi₁, hcalls, hserved⟩
  · rw [hcosts] at hn
    rw [hempty.mpr hn, append_nil] at hi₁
    exact Or.inr ⟨h₁, n, hrun, hi₁, hfirst, hn⟩

/-- A header field with two URIs or more: blocks go out of reach, but for a
failure in time. -/
theorem addRoutes_many {e₁ e₂ : Entry} {es : List Entry}
    (hi : Built order h₀ h rs last done l [] []) :
    (∃ h' rs' last' l' extra,
        addRoutes m order (e₁ :: e₂ :: es) rs last h = .ok (h', rs', last', true) ∧
        Built order h₀ h' rs' last' (done ++ (e₁ :: e₂ :: es).map Entry.body) l' [] extra ∧
        h.calls ≤ h'.calls ∧ extra ≠ [] ∧ ¬ FailsInTime m order h.calls e₁ e₂ es) ∨
      ∃ h' rs' last' done' l' hang' extra n,
        addRoutes m order (e₁ :: e₂ :: es) rs last h = .ok (h', rs', last', false) ∧
        Built order h₀ h' rs' last' done' l' hang' extra ∧
        h.calls ≤ n ∧ m.fails n = true ∧
        (extra = [] ↔ FailsInTime m order h.calls e₁ e₂ es) := by
  have hcosts := costs_cons e₁ (e₂ :: es)
  have hcosts₂ := costs_cons e₂ es
  -- from a state that has lost blocks on
  have hrest : ∀ {h₁ rs₁ last₁ done₁ l₁ hang₁ lost₁} {ps : List Entry}, lost₁ ≠ [] →
      ¬ FailsInTime m order h.calls e₁ e₂ es → h.calls ≤ h₁.calls →
      Built order h₀ h₁ rs₁ last₁ done₁ l₁ hang₁ lost₁ → (hang₁ = [] ∨ ps ≠ []) →
      (∃ h' rs' last' l' extra, addRoutes m order ps rs₁ last₁ h₁ = .ok (h', rs', last', true) ∧
        Built order h₀ h' rs' last' (done₁ ++ ps.map Entry.body) l' [] extra ∧
        h.calls ≤ h'.calls ∧ extra ≠ [] ∧ ¬ FailsInTime m order h.calls e₁ e₂ es) ∨
      ∃ h' rs' last' done' l' hang' extra n,
        addRoutes m order ps rs₁ last₁ h₁ = .ok (h', rs', last', false) ∧
        Built order h₀ h' rs' last' done' l' hang' extra ∧
        h.calls ≤ n ∧ m.fails n = true ∧
        (extra = [] ↔ FailsInTime m order h.calls e₁ e₂ es) := by
    intro h₁ rs₁ last₁ done₁ l₁ hang₁ lost₁ ps hlost hlate hle hi₁ hps
    rcases @addRoutes_spec m _ _ _ _ _ _ _ _ _ hi₁ ps with
      ⟨h₂, rs₂, last₂, l₂, hang₂, extra, hrun, hi₂, hle₂, hhang⟩ |
      ⟨h₂, rs₂, last₂, done₂, l₂, hang₂, extra, n, hrun, hi₂, hn, hf⟩
    · rw [hhang hps] at hi₂
      exact Or.inl ⟨h₂, rs₂, last₂, l₂, lost₁ ++ extra, hrun, hi₂, hle.trans hle₂,
        by simp [hlost], hlate⟩
    · exact Or.inr ⟨h₂, rs₂, last₂, done₂, l₂, hang₂, lost₁ ++ extra, n, hrun, hi₂,
        hle.trans hn, hf, by simp [hlost, hlate]⟩
  rcases @turn_spec m _ _ _ _ _ _ _ _ _ hi e₁ (e₂ :: es) with
    ⟨h₁, rs₁, last₁, l₁, hang₁, extra₁, hrun₁, hi₁, hcalls₁, hserved₁, hnormal₁, hreverse₁⟩ |
    ⟨h₁, extra, n, hrun, hi₁, hfirst, hn, hempty⟩
  · rw [hrun₁]
    rw [nil_append] at hi₁
    have hbodies : ∀ b : List RrBody, done ++ (e₁ :: e₂ :: es).map Entry.body =
        (done ++ [e₁.body]) ++ (e₂ :: es).map Entry.body := by simp
    have hnotFirst : ∀ n, FirstFailure m h.calls n → ¬ n < h.calls + cost e₁ := by
      intro n hfirst
      have hle := hfirst.le_of_served hserved₁
      omega
    cases order with
    | reverse =>
      rw [hbodies []]
      refine hrest (fun hnil => absurd ((hreverse₁ rfl).mp hnil) (by simp)) ?_ (by omega) hi₁
        (Or.inr (by simp))
      rintro ⟨n, hfirst, hn | ⟨hcontra, -⟩⟩
      · exact hnotFirst n hfirst hn
      · exact absurd hcontra (by decide)
    | normal =>
      obtain ⟨rfl, hhang₁⟩ := hnormal₁ rfl
      have hi₁' : Built .normal h₀ h₁ rs₁ last₁ (done ++ [e₁.body]) l₁ hang₁ [] := hi₁
      rcases @turn_spec m _ _ _ _ _ _ _ _ _ hi₁' e₂ es with
        ⟨h₂, rs₂, last₂, l₂, hang₂, extra₂, hrun₂, hi₂, hcalls₂, hserved₂, hnormal₂, -⟩ |
        ⟨h₂, extra, n, hrun₂, hi₂, hfirst, hn, hempty⟩
      · obtain ⟨rfl, hhang₂⟩ := hnormal₂ rfl
        rw [nil_append] at hi₂
        have hlost : blocks hang₁ ≠ [] := by
          rw [Ne, blocks_eq_nil]
          exact fun hnil => absurd (hhang₁.mp hnil) (by simp)
        have hlate : ¬ FailsInTime m .normal h.calls e₁ e₂ es := by
          rintro ⟨n, hfirst, hn | ⟨-, -, hn⟩⟩
          · exact hnotFirst n hfirst hn
          · have hle := hfirst.le_of_served (hserved₁.trans hserved₂)
            omega
        rw [hrun₂]
        have hall : done ++ (e₁ :: e₂ :: es).map Entry.body =
            ((done ++ [e₁.body]) ++ [e₂.body]) ++ es.map Entry.body := by simp
        rw [hall]
        refine hrest hlost hlate (by omega) hi₂ ?_
        by_cases hes : es = []
        · exact Or.inl (hhang₂.mpr hes)
        · exact Or.inr hes
      · rw [hrun₂]
        rw [nil_append] at hi₂
        have hfirst' := hfirst.before (by omega) hserved₁
        have hle := hfirst.1
        refine Or.inr ⟨h₂, rs₁, last₁, _, l₁, hang₁, extra, n, rfl, hi₂, by omega,
          hfirst.2.1, hempty.trans ⟨?_, ?_⟩⟩
        · intro hlt
          exact ⟨n, hfirst', Or.inr ⟨rfl, by omega, by omega⟩⟩
        · rintro ⟨k, hk, hlt | ⟨-, -, hlt⟩⟩
          · exact absurd hlt (hnotFirst k hk)
          · rw [hfirst'.unique hk]
            omega
  · rw [nil_append] at hi₁
    refine Or.inr ⟨h₁, rs, last, done, l, [], extra, n, hrun, hi₁, hfirst.1, hfirst.2.1,
      hempty.trans ⟨fun hlt => ⟨n, hfirst, Or.inl hlt⟩, ?_⟩⟩
    rintro ⟨k, hk, hlt | ⟨-, hge, -⟩⟩
    · rw [hfirst.unique hk]
      exact hlt
    · have heq := hfirst.unique hk
      omega

/-! ## The whole run -/

theorem freeNode_disposes {x : Node} (hcell : ∃ next, h.cell x.addr = .rr x.body x.params next)
    (hnodup : x.blocks.Nodup) :
    Disposes freeNode h x.addr [x.addr] x.blocks := by
  intro h₁ hsame hlive howned
  obtain ⟨next, hcell⟩ := hcell
  have ha := hlive x.addr (mem_singleton_self _)
  obtain ⟨hnot, hparams⟩ := nodup_cons.mp hnodup
  obtain ⟨h₂, hfree, hs⟩ := freeParams_shrinks hparams fun b hb =>
    howned b (mem_cons_of_mem _ hb)
  have ha₂ : x.addr ∈ h₂.allocated := (hs.mem x.addr).mpr ⟨ha, hnot⟩
  refine ⟨_, ?_, (hs.trans (free_shrinks ha₂)).perm ?_⟩
  · rw [freeNode, read_live ha, hsame x.addr (mem_singleton_self _), hcell]
    simp only [bind, Except.bind, Cell.params, hfree]
    exact free_live ha₂
  · exact perm_append_comm

theorem freeRr_shrinks (hr : Routes h rs l) (hnodup : (blocks l).Nodup)
    (hlive : ∀ b ∈ blocks l, b ∈ h.allocated) :
    ∃ h', freeRr h rs = .ok h' ∧ Shrinks h h' (blocks l) := by
  have hfuel : l.length ≤ h.allocated.card := by
    have hlen := Chain.length_le hr.chain fun a ha => by
      obtain ⟨x, hx, rfl⟩ := List.mem_map.mp ha
      exact hlive _ (addr_mem_blocks hx)
    rwa [length_map] at hlen
  refine @freeChain_shrinks _ _ _ _ (fun x => [x.addr]) _ _ _ _ _ _ hr.chain hfuel
    ⟨fun x _ => mem_singleton_self _, ?_, hlive, hnodup, ?_, ?_⟩
  · intro b hb
    obtain ⟨x, hx, hb⟩ := mem_flatMap.mp hb
    rw [mem_singleton.mp hb]
    exact hlive _ (addr_mem_blocks hx)
  · refine (nodup_flatMap.mp hnodup).2.imp ?_
    intro x y hdisj b hb hmem
    rw [mem_singleton.mp hb] at hmem
    exact hdisj hmem mem_cons_self
  · intro x hx
    exact freeNode_disposes (hr.cell x hx) ((nodup_flatMap.mp hnodup).1 x hx)

theorem Built.freed (hi : Built order h₀ h rs last done l hang lost) :
    ∃ h', freeRr h rs = .ok h' ∧ Grows h₀ h' lost := by
  obtain ⟨h', hrun, hs⟩ := freeRr_shrinks hi.routes (List.nodup_append.mp hi.grows.nodup).1
    fun b hb => hi.grows.live (mem_append_left _ hb)
  exact ⟨h', hrun, Grows.shrink (hi.grows.perm perm_append_comm) hs⟩

/-- The route set that is returned, with the blocks that are out of reach. -/
def Returns (h₀ h : RouteHeap) (bodies : List RrBody) (lost : List ℕ) : Option (Option ℕ) → Prop
  | some rs => ∃ l, Routes h rs l ∧ l.map Node.body = bodies ∧ Grows h₀ h (blocks l ++ lost)
  | none => Grows h₀ h lost

theorem entries_cons_rr {ptr : Hdr} {ptrs : List Hdr} {ps : List Entry}
    (hrr : ptr.isRecordRoute = true) (hps : ptr.parsed = some ps) :
    entries (ptr :: ptrs) = ps ++ entries ptrs := by
  rw [entries, filter_cons_of_pos hrr, flatMap_cons, hps]
  rfl

theorem addHeaders_spec (hi : Built order h₀ h rs last done l [] lost) :
    ∃ h' res extra, addHeaders m order hdrs rs last h = .ok (h', res) ∧
      Returns h₀ h' (ordered order (done ++ (entries hdrs).map Entry.body)) (lost ++ extra) res ∧
      (res = none → (∃ hdr ∈ hdrs, hdr.isRecordRoute = true ∧ hdr.parsed = none) ∨
        ∃ n, h.calls ≤ n ∧ m.fails n = true) ∧
      (lost = [] → (extra = [] ↔ RouteSetRegular m order h.calls hdrs)) := by
  induction hdrs generalizing h rs last done l lost with
  | nil =>
    refine ⟨h, some rs, [], rfl, ⟨l, ?_, ?_, ?_⟩, fun hcontra => absurd hcontra (by simp),
      fun _ => ⟨fun _ => trivial, fun _ => rfl⟩⟩
    · have hr := hi.routes
      rwa [append_nil] at hr
    · have hbodies := hi.bodies
      simpa [entries] using hbodies
    · have hg := hi.grows
      simpa using hg
  | cons ptr ptrs ih =>
    -- the rest of the header fields, after one that is done
    have hrest : ∀ {h₁ rs₁ last₁ done₁ l₁ lost₁}, Built order h₀ h₁ rs₁ last₁ done₁ l₁ [] lost₁ →
        h.calls ≤ h₁.calls →
        done ++ (entries (ptr :: ptrs)).map Entry.body = done₁ ++ (entries ptrs).map Entry.body →
        ∃ h' res extra, addHeaders m order ptrs rs₁ last₁ h₁ = .ok (h', res) ∧
          Returns h₀ h' (ordered order (done ++ (entries (ptr :: ptrs)).map Entry.body))
            (lost₁ ++ extra) res ∧
          (res = none → (∃ hdr ∈ ptr :: ptrs, hdr.isRecordRoute = true ∧ hdr.parsed = none) ∨
            ∃ n, h.calls ≤ n ∧ m.fails n = true) ∧
          (lost₁ = [] → (extra = [] ↔ RouteSetRegular m order h₁.calls ptrs)) := by
      intro h₁ rs₁ last₁ done₁ l₁ lost₁ hi₁ hle hdone
      obtain ⟨h', res, extra, hrun, hret, hwhy, hreg⟩ := ih hi₁
      rw [hdone]
      refine ⟨h', res, extra, hrun, hret, fun hnone => ?_, hreg⟩
      rcases hwhy hnone with ⟨hdr, hmem, hhdr⟩ | ⟨n, hn, hf⟩
      · exact Or.inl ⟨hdr, mem_cons_of_mem _ hmem, hhdr⟩
      · exact Or.inr ⟨n, hle.trans hn, hf⟩
    rw [addHeaders, RouteSetRegular]
    by_cases hrr : ptr.isRecordRoute = true
    · rw [if_pos hrr, if_pos hrr]
      cases hps : ptr.parsed with
      | none =>
        obtain ⟨h', hfree, hg⟩ := hi.freed
        refine ⟨h', none, [], ?_, ?_, fun _ => Or.inl ⟨ptr, mem_cons_self, hrr, hps⟩,
          fun _ => ⟨fun _ => trivial, fun _ => rfl⟩⟩
        · simp only [hfree, bind, Except.bind, pure, Except.pure]
        · rw [append_nil]
          exact hg
      | some ps =>
        have hentries := @entries_cons_rr _ ptrs _ hrr hps
        match ps, hps, hentries with
        | [], _, hentries =>
          exact hrest hi (le_refl _) (by rw [hentries, nil_append])
        | [e], _, hentries =>
          simp only
          rcases addRoutes_one (m := m) (e := e) hi with
            ⟨h₁, rs₁, last₁, l₁, hrun, hi₁, hcalls, hserved⟩ |
            ⟨h₁, n, hrun, hi₁, hfirst, hn⟩
          · obtain ⟨h', res, extra, hrun', hret, hwhy, hreg⟩ := hrest hi₁ (by omega)
              (by rw [hentries]; simp)
            refine ⟨h', res, extra, ?_, hret, hwhy, fun hlost => ?_⟩
            · rw [hrun]
              exact hrun'
            · rw [hreg hlost, hcalls]
              refine (or_iff_right ?_).symm
              rintro ⟨n, hfirst, hn⟩
              have hle := hfirst.le_of_served hserved
              omega
          · obtain ⟨h', hfree, hg⟩ := hi₁.freed
            refine ⟨h', none, [], ?_, ?_, fun _ => Or.inr ⟨n, hfirst.1, hfirst.2.1⟩,
              fun _ => ⟨fun _ => Or.inl ⟨n, hfirst, hn⟩, fun _ => rfl⟩⟩
            · simp only [hrun, hfree, bind, Except.bind, pure, Except.pure]
            · rw [append_nil]
              exact hg
        | e₁ :: e₂ :: es, _, hentries =>
          simp only
          by_cases hlost : lost = []
          · subst hlost
            rcases @addRoutes_many m _ _ _ _ _ _ _ e₁ e₂ es hi with
              ⟨h₁, rs₁, last₁, l₁, extra₁, hrun, hi₁, hle, hne, hlate⟩ |
              ⟨h₁, rs₁, last₁, done₁, l₁, hang₁, extra₁, n, hrun, hi₁, hn, hf, hiff⟩
            · obtain ⟨h', res, extra, hrun', hret, hwhy, -⟩ := hrest hi₁ hle
                (by rw [hentries, map_append, append_assoc])
              refine ⟨h', res, extra₁ ++ extra, ?_, hret, hwhy, fun _ => ?_⟩
              · rw [hrun]
                exact hrun'
              · simp [hne, hlate]
            · obtain ⟨h', hfree, hg⟩ := hi₁.freed
              refine ⟨h', none, extra₁, ?_, hg, fun _ => Or.inr ⟨n, hn, hf⟩, fun _ => hiff⟩
              simp only [hrun, hfree, bind, Except.bind, pure, Except.pure]
          · rcases @addRoutes_spec m _ _ _ _ _ _ _ _ _ hi (e₁ :: e₂ :: es) with
              ⟨h₁, rs₁, last₁, l₁, hang₁, extra₁, hrun, hi₁, hle, hhang⟩ |
              ⟨h₁, rs₁, last₁, done₁, l₁, hang₁, extra₁, n, hrun, hi₁, hn, hf⟩
            · rw [hhang (Or.inl rfl)] at hi₁
              obtain ⟨h', res, extra, hrun', hret, hwhy, -⟩ := hrest hi₁ hle
                (by rw [hentries, map_append, append_assoc])
              rw [append_assoc] at hret
              refine ⟨h', res, extra₁ ++ extra, ?_, hret, hwhy, fun hcontra =>
                absurd hcontra hlost⟩
              rw [hrun]
              exact hrun'
            · obtain ⟨h', hfree, hg⟩ := hi₁.freed
              refine ⟨h', none, extra₁, ?_, hg, fun _ => Or.inr ⟨n, hn, hf⟩, fun hcontra =>
                absurd hcontra hlost⟩
              simp only [hrun, hfree, bind, Except.bind, pure, Except.pure]
    · rw [if_neg hrr, if_neg hrr]
      have hentries : entries (ptr :: ptrs) = entries ptrs := by
        rw [entries, filter_cons_of_neg hrr]
        rfl
      exact hrest hi (le_refl _) (by rw [hentries])

theorem not_grows_of_lost (hr : Routes h rs l) (hr' : Routes h rs l')
    (hg : Grows h₀ h (blocks l ++ lost)) (hg' : Grows h₀ h (blocks l')) : lost = [] := by
  rw [← hr.unique hr'] at hg'
  refine eq_nil_iff_forall_not_mem.mpr fun b hb => ?_
  have hlive := hg.live (mem_append_right (blocks l) hb)
  rcases (hg'.mem b).mp hlive with hold | hnew
  · exact hg.fresh b (mem_append_right _ hb) hold
  · exact (List.nodup_append.mp hg.nodup).2.2 b hnew b hb rfl

theorem getRouteSet_spec (m : ShmMalloc) (order : Order) (hdrs : List Hdr) (h : RouteHeap) :
    ∃ h' res lost, getRouteSet m order hdrs h = .ok (h', res) ∧
      Returns h h' (ordered order ((entries hdrs).map Entry.body)) lost res ∧
      (res = none → (∃ hdr ∈ hdrs, hdr.isRecordRoute = true ∧ hdr.parsed = none) ∨
        ∃ n, h.calls ≤ n ∧ m.fails n = true) ∧
      (lost = [] ↔ RouteSetRegular m order h.calls hdrs) := by
  have hstart : Built order h h none none [] [] [] [] := by
    refine ⟨⟨rfl, fun x hx => absurd hx not_mem_nil⟩, Grows.refl h, ?_, fun _ => rfl,
      fun _ => rfl, fun _ => rfl⟩
    cases order with
    | normal => rfl
    | reverse => rfl
  obtain ⟨h', res, lost, hrun, hret, hwhy, hreg⟩ := @addHeaders_spec m _ _ _ _ _ _ _ _ hdrs hstart
  exact ⟨h', res, lost, hrun, by simpa using hret, hwhy, hreg rfl⟩

theorem RouteSetRight.regular (hright : RouteSetRight m order hdrs h) :
    RouteSetRegular m order h.calls hdrs := by
  obtain ⟨h', res, lost, hrun, hret, -, hreg⟩ := getRouteSet_spec m order hdrs h
  rw [← hreg]
  rcases hright with ⟨h₁, rs, l, hrun₁, hr, -, hg⟩ | ⟨h₁, hrun₁, hg, -⟩
  · obtain ⟨rfl, rfl⟩ : h' = h₁ ∧ res = some rs := by
      simpa using hrun.symm.trans hrun₁
    obtain ⟨l', hr', -, hg'⟩ := hret
    exact not_grows_of_lost hr' hr hg' hg
  · obtain ⟨rfl, rfl⟩ : h' = h₁ ∧ res = none := by
      simpa using hrun.symm.trans hrun₁
    refine eq_nil_iff_forall_not_mem.mpr fun b hb => ?_
    rcases (hg.mem b).mp (hret.live hb) with hold | hnew
    · exact hret.fresh b hb hold
    · exact absurd hnew not_mem_nil

theorem RouteSetRegular.right
    (hregular : RouteSetRegular m order h.calls hdrs) : RouteSetRight m order hdrs h := by
  obtain ⟨h', res, lost, hrun, hret, hwhy, hreg⟩ := getRouteSet_spec m order hdrs h
  obtain rfl := hreg.mpr hregular
  cases res with
  | some rs =>
    obtain ⟨l, hr, hbodies, hg⟩ := hret
    rw [append_nil] at hg
    exact Or.inl ⟨h', rs, l, hrun, hr, hbodies, hg⟩
  | none => exact Or.inr ⟨h', hrun, hret, hwhy rfl⟩

/-- `get_route_set` is right for the messages that are regular. -/
theorem routeSetRight_iff (m : ShmMalloc) (order : Order) (hdrs : List Hdr) (h : RouteHeap) :
    RouteSetRight m order hdrs h ↔ RouteSetRegular m order h.calls hdrs :=
  ⟨RouteSetRight.regular, RouteSetRegular.right⟩

/-- Shared memory that does not run out. -/
def ShmMalloc.highest : ShmMalloc where
  fails := fun _ => false
  place := fun _ s => s.sup id + 1
  fresh := by
    intro _ s hmem
    have hle : id (s.sup id + 1) ≤ s.sup id := Finset.le_sup hmem
    exact absurd hle (Nat.not_succ_le_self _)

/-- The copy of the second URI of a header field is made twice. -/
theorem routeSetRight_two : ¬ RouteSetRight .highest .normal
    [⟨true, some [⟨⟨[], [97], [], by decide⟩, []⟩, ⟨⟨[], [98], [], by decide⟩, []⟩]⟩]
    ⟨0, ∅, fun _ => .param ⟨[], []⟩⟩ := by
  intro h
  obtain ⟨n, ⟨-, hfails, -⟩, -⟩ := h.regular
  exact Bool.false_ne_true hfails

end Msicp.RouteSet
