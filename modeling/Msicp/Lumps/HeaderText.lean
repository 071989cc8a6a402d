import Msicp.Lumps.Placement

/-!
# What the edited header says

The purpose of a list of lumps, in its own terms: the message without the
deleted regions, with the text of every lump inserted at its anchor.  The text
written by `process_lumps` is compared with it.
-/

namespace Msicp.Lumps

open Msicp.Support List
open Option hiding max_eq_left max_eq_right

section

variable (msg : SipMsg) (sendSock : Option SocketInfo)

/-! ## The intended text -/

/-- The address announced for the send socket. -/
def announcedAddress (s : SocketInfo) : Bytes :=
  if msg.setGlobalAddress = [] then bracketed s true s.addressStr
  else msg.setGlobalAddress

/-- The port announced for the send socket. -/
def announcedPort (s : SocketInfo) : Bytes :=
  if msg.setGlobalPort = [] then s.portNoStr else msg.setGlobalPort

/-- What a substitution stands for: nothing without the socket it speaks of. -/
def substMeaning : LumpSubst → Bytes
  | .nop => []
  | .rcvIp =>
    msg.rcv.bindAddress.elim [] fun b => bracketed b true b.addressStr
  | .rcvPort => msg.rcv.bindAddress.elim [] fun b => b.portNoStr
  | .rcvProto => msg.rcv.bindAddress.elim [] fun b => protoText b.proto
  | .rcvAll =>
    msg.rcv.bindAddress.elim [] fun b =>
      bracketed b true b.addressStr ++
        (if b.portNo = sipPort then [] else ascii ":" ++ b.portNoStr) ++
        transportText b.proto
  | .sndIp => sendSock.elim [] fun s => announcedAddress msg s
  | .sndPort => sendSock.elim [] fun s => announcedPort msg s
  | .sndProto => sendSock.elim [] fun s => protoText s.proto
  | .sndAll =>
    sendSock.elim [] fun s =>
      announcedAddress msg s ++ (if s.portNo = sipPort ∧ msg.setGlobalPort = [] then []
          else ascii ":" ++ announcedPort msg s) ++
        transportText s.proto

/-- A guard that lets through what follows it; anything else does too. -/
def holds : LumpAdd → Bool
  | .opt cond => lumpCheckOpt cond msg sendSock 0
  | _ => true

/-- What a lump inserts: a false guard drops the rest of its chain, and a
guard that is a lump of its own drops all that belongs to the lump. -/
def insertedItems (t : Lump) : List LumpAdd :=
  match t.op with
  | .add what =>
    if holds msg sendSock what then
      t.before.takeWhile (holds msg sendSock) ++ what :: t.after.takeWhile (holds msg sendSock)
    else []
  | _ =>
    t.before.takeWhile (holds msg sendSock) ++ t.after.takeWhile (holds msg sendSock)

/-- The text that one insertion stands for. -/
def addMeaning : LumpAdd → Bytes
  | .value value => value
  | .subst subst => substMeaning msg sendSock subst
  | .opt _ => []

/-- The position is in one of the deleted regions. -/
def deletedAt (all : List Lump) (p : ℕ) : Bool :=
  all.any fun t =>
    match t.op with
    | .del offset len => offset ≤ p && p < offset + len
    | _ => false

/-- The message from `a` to `b`, from `start` on and without what is
deleted. -/
def keptText (all : List Lump) (start a b : ℕ) : Bytes :=
  ((List.range' a (b - a)).filter
    (fun p => start ≤ p && !deletedAt all p)).filterMap (fun p => msg.buf[p]?)

/-- The edited header from the position `a` on: up to each anchor what is kept
of the message, then what the lump inserts. -/
def headerTextFrom (all : List Lump) (start : ℕ) : ℕ → List Lump → Bytes
  | a, [] => keptText msg all start a (lastStop 0 all)
  | a, t :: ts =>
    let text := (insertedItems msg sendSock t).flatMap
      (addMeaning msg sendSock)
    match t.op.region with
    | none => text ++ headerTextFrom all start a ts
    | some (offset, _) =>
      keptText msg all start a offset ++ text ++ headerTextFrom all start offset ts

/-- The edited header, from `start` to the end of the last region. -/
def headerText (all : List Lump) (start : ℕ) : Bytes :=
  headerTextFrom msg sendSock all start 0 all

end

/-! ## Lists as the lump functions leave them -/

/-- No condition of this lump is random. -/
def Lump.NoRand (t : Lump) : Prop :=
  t.op ≠ .add (.opt .ifRand) ∧ .opt .ifRand ∉ t.before ∧ .opt .ifRand ∉ t.after

/-- The anchors come in the order of their offsets. -/
def OffsetSorted (ts : List Lump) : Prop :=
  (ts.filterMap (fun t => t.op.region)).Pairwise (fun r r' => r.1 ≤ r'.1)

/-- Before `start` nothing is inserted, and no region reaches beyond it. -/
def FrontClear (msg : SipMsg) (sendSock : Option SocketInfo) (start : ℕ) (ts : List Lump) : Prop :=
  ∀ p ∈ ignored start 0 ts, insertedItems msg sendSock p.lump = [] ∧ p.stop ≤ start

/-- The port announced is the one written: none is set globally, it is spelled
like the address, or none is written. -/
def PortRight (msg : SipMsg) (sendSock : Option SocketInfo) (ts : List Lump) : Prop :=
  msg.setGlobalPort = [] ∨ msg.setGlobalAddress = msg.setGlobalPort ∨ sendSock = none ∨
    ∀ t ∈ ts, ∀ a ∈ insertedItems msg sendSock t, a ≠ .subst .sndPort ∧ a ≠ .subst .sndAll

variable {msg : SipMsg} {sendSock : Option SocketInfo} {rand : ℕ → ℕ}

/-! ## The text as a template

The text written and the intended text differ in one place only, the global
port. -/

def substTemplate (msg : SipMsg) (sendSock : Option SocketInfo) : LumpSubst → List (Option Bytes)
  | .sndPort =>
    sendSock.elim [] fun s =>
      [if msg.setGlobalPort = [] then some s.portNoStr else none]
  | .sndAll =>
    sendSock.elim [] fun s =>
      some (announcedAddress msg s) :: (if s.portNo = sipPort ∧ msg.setGlobalPort = [] then []
          else [some (ascii ":"),
            if msg.setGlobalPort = [] then some s.portNoStr else none]) ++
        [some (transportText s.proto)]
  | subst => [some (substLump msg sendSock subst)]

def addTemplate (msg : SipMsg) (sendSock : Option SocketInfo) : LumpAdd → List (Option Bytes)
  | .value value => [some value]
  | .subst subst => substTemplate msg sendSock subst
  | .opt _ => []

def lumpTemplate (msg : SipMsg) (sendSock : Option SocketInfo) (t : Lump) : List (Option Bytes) :=
  (insertedItems msg sendSock t).flatMap (addTemplate msg sendSock)

def headerTemplate (msg : SipMsg) (sendSock : Option SocketInfo)
    (all : List Lump) (start : ℕ) : ℕ → List Lump → List (Option Bytes)
  | a, [] => [some (keptText msg all start a (lastStop 0 all))]
  | a, t :: ts =>
    match t.op.region with
    | none =>
      lumpTemplate msg sendSock t ++ headerTemplate msg sendSock all start a ts
    | some (offset, _) =>
      some (keptText msg all start a offset) :: (lumpTemplate msg sendSock t ++
          headerTemplate msg sendSock all start offset ts)

theorem announced_eq_send (s : SocketInfo) :
    bracketed s (msg.setGlobalAddress.length == 0) (sendAddressStr msg s) =
      announcedAddress msg s := by
  by_cases h : msg.setGlobalAddress = []
  · simp [announcedAddress, sendAddressStr, h]
  · simp [announcedAddress, sendAddressStr, h, bracketed]

theorem substLump_eq_fill (subst : LumpSubst) : substLump msg sendSock subst =
      fill msg.setGlobalAddress (substTemplate msg sendSock subst) := by
  cases subst with
  | sndPort =>
    cases sendSock with
    | none => rfl
    | some s =>
      by_cases h : msg.setGlobalPort = [] <;> simp [substLump, substTemplate, sendPortStr, h]
  | sndAll =>
    cases sendSock with
    | none => rfl
    | some s =>
      simp only [substLump, substTemplate, elim_some, announced_eq_send]
      by_cases h : msg.setGlobalPort = [] <;>
        by_cases hport : s.portNo = sipPort <;> simp [sendPortStr, h, hport]
  | _ => simp [substTemplate]

theorem substMeaning_eq_fill (subst : LumpSubst) : substMeaning msg sendSock subst =
      fill msg.setGlobalPort (substTemplate msg sendSock subst) := by
  cases subst with
  | sndPort =>
    cases sendSock with
    | none => rfl
    | some s =>
      by_cases h : msg.setGlobalPort = [] <;> simp [substMeaning, substTemplate, announcedPort, h]
  | sndAll =>
    cases sendSock with
    | none => rfl
    | some s =>
      simp only [substMeaning, substTemplate, elim_some]
      by_cases h : msg.setGlobalPort = [] <;>
        by_cases hport : s.portNo = sipPort <;> simp [announcedPort, h, hport]
  | sndIp =>
    cases sendSock with
    | none => rfl
    | some s =>
      simp [substMeaning, substTemplate, substLump, announced_eq_send]
  | sndProto => cases sendSock <;> simp [substMeaning, substTemplate, substLump]
  | nop => rfl
  | _ =>
    cases h : msg.rcv.bindAddress <;>
      simp [substMeaning, substTemplate, substLump, h]

variable (a : LumpAdd) (all : List Lump)

theorem addText_eq_fill : addText msg sendSock a =
      fill msg.setGlobalAddress (addTemplate msg sendSock a) := by
  cases a with
  | value value => simp [addText, addTemplate]
  | subst subst => exact substLump_eq_fill subst
  | opt cond => rfl

theorem addMeaning_eq_fill : addMeaning msg sendSock a =
      fill msg.setGlobalPort (addTemplate msg sendSock a) := by
  cases a with
  | value value => simp [addMeaning, addTemplate]
  | subst subst => exact substMeaning_eq_fill subst
  | opt cond => rfl

theorem flatMap_eq_fill {v : Bytes} {f : LumpAdd → Bytes}
    {g : LumpAdd → List (Option Bytes)} (h : ∀ a, f a = fill v (g a))
    (r : List LumpAdd) : r.flatMap f = fill v (r.flatMap g) := by
  induction r with
  | nil => rfl
  | cons a r ih => simp [h, ih]

theorem headerTextFrom_eq_fill (start a : ℕ) (ts : List Lump) :
    headerTextFrom msg sendSock all start a ts =
      fill msg.setGlobalPort (headerTemplate msg sendSock all start a ts) := by
  induction ts generalizing a with
  | nil => simp [headerTextFrom, headerTemplate]
  | cons t ts ih =>
    rw [headerTextFrom, headerTemplate]
    cases h : t.op.region with
    | none =>
      simp [ih, lumpTemplate, flatMap_eq_fill addMeaning_eq_fill]
    | some r =>
      simp [ih, lumpTemplate, flatMap_eq_fill addMeaning_eq_fill]

/-! ## What the traversal writes for one lump -/

theorem chainText_eq {k : ℕ} {r : List LumpAdd} (h : .opt .ifRand ∉ r) :
    (chainText msg sendSock rand k r).2 =
      (r.takeWhile (holds msg sendSock)).flatMap (addText msg sendSock) := by
  induction r generalizing k with
  | nil => rfl
  | cons a r ih =>
    simp only [mem_cons, not_or] at h
    have ih' : ∀ k, (chainText msg sendSock rand k r).2 = _ :=
      fun k => ih (k := k) h.2
    cases a with
    | value value =>
      simp [chainText, takeWhile_cons, holds, addText, ih']
    | subst subst =>
      simp [chainText, takeWhile_cons, holds, addText, ih']
    | opt cond =>
      have hcond : cond ≠ .ifRand := by
        rintro rfl
        exact h.1 rfl
      have hcheck : lumpCheckOpt cond msg sendSock (rand k) =
          lumpCheckOpt cond msg sendSock 0 := by
        cases cond <;> first | rfl | exact absurd rfl hcond
      by_cases hc : lumpCheckOpt cond msg sendSock 0 = true
      · simp [chainText, holds, addText, hcheck, hc, ih']
      · simp [chainText, holds, hcheck, hc]

theorem lumpText_eq {k : ℕ} {t : Lump} (h : t.NoRand) : (lumpText msg sendSock rand k t).2 =
      fill msg.setGlobalAddress (lumpTemplate msg sendSock t) := by
  obtain ⟨hop, hbefore, hafter⟩ := h
  rw [lumpTemplate, ← flatMap_eq_fill addText_eq_fill, lumpText]
  cases hcase : t.op with
  | nop offset =>
    simp [optFails, insertedItems, hcase, chainText_eq hbefore, chainText_eq hafter]
  | del offset len =>
    simp [optFails, insertedItems, hcase, chainText_eq hbefore, chainText_eq hafter]
  | add what =>
    have hfails : optFails msg sendSock (rand k) (.add what) =
        !holds msg sendSock what := by
      cases what with
      | value value => rfl
      | subst subst => rfl
      | opt cond =>
        cases cond <;> first | rfl | exact absurd hcase hop
    by_cases hholds : holds msg sendSock what = true
    · simp [hfails, hholds, insertedItems, hcase, chainText_eq hbefore, chainText_eq hafter]
    · simp [hfails, hholds, insertedItems, hcase]

/-! ## What is kept of the message -/

theorem drop_take_eq_filterMap (buf : Bytes) (s n : ℕ) : (buf.drop s).take n =
      (List.range' s n).filterMap (fun p => buf[p]?) := by
  induction n generalizing s with
  | zero => simp
  | succ n ih =>
    rw [range'_succ]
    by_cases hs : s < buf.length
    · rw [drop_eq_getElem_cons hs, take_succ_cons, ih (s + 1),
        filterMap_cons_some (getElem?_eq_getElem hs)]
    · have hdrop : buf.drop s = [] := drop_eq_nil_of_le (not_lt.mp hs)
      have hdrop' : buf.drop (s + 1) = [] :=
        drop_eq_nil_of_le (by omega)
      rw [filterMap_cons_none (getElem?_eq_none (not_lt.mp hs)),
        ← ih (s + 1), hdrop, hdrop', take_nil, take_nil]

theorem deletedAt_iff (p : ℕ) : deletedAt all p = true ↔
      ∃ r ∈ all.filterMap (fun t => t.op.region), r.1 ≤ p ∧ p < r.2 := by
  simp only [deletedAt, List.any_eq_true, mem_filterMap]
  constructor
  · rintro ⟨t, ht, hdel⟩
    cases hop : t.op with
    | del offset len =>
      rw [hop] at hdel
      refine ⟨(offset, offset + len), ⟨t, ht, by rw [hop]; rfl⟩, ?_⟩
      simpa using hdel
    | nop offset => simp [hop] at hdel
    | add what => simp [hop] at hdel
  · rintro ⟨⟨offset, stop⟩, ⟨t, ht, hregion⟩, hlow, hhigh⟩
    refine ⟨t, ht, ?_⟩
    cases hop : t.op with
    | add what => simp [hop, LumpOp.region] at hregion
    | nop offset' =>
      simp only [hop, LumpOp.region, some.injEq, Prod.mk.injEq] at hregion
      omega
    | del offset' len =>
      simp only [hop, LumpOp.region, some.injEq, Prod.mk.injEq] at hregion
      simp only [Bool.and_eq_true, decide_eq_true_eq]
      omega

theorem keptText_eq_nil {all : List Lump} {start a b : ℕ}
    (h : ∀ p, start ≤ p → a ≤ p → p < b → deletedAt all p = true) :
    keptText msg all start a b = [] := by
  have hfilter : (List.range' a (b - a)).filter (fun p => start ≤ p && !deletedAt all p) = [] := by
    rw [filter_eq_nil_iff]
    intro p hp
    rw [mem_range'_1] at hp
    simp only [Bool.and_eq_true, decide_eq_true_eq, Bool.not_eq_true', not_and, Bool.not_eq_false]
    intro hstart
    exact h p hstart hp.1 (by omega)
  rw [keptText, hfilter, filterMap_nil]

/-- If all before `s` is deleted and nothing between `s` and `b`, what is kept
is the text between `s` and `b`. -/
theorem keptText_eq_copy {all : List Lump} {start a s b : ℕ} (hstart : start ≤ s) (ha : a ≤ s)
    (hold : ∀ p, start ≤ p → a ≤ p → p < s → deletedAt all p = true)
    (hnew : ∀ p, s ≤ p → p < b → deletedAt all p = false) :
    keptText msg all start a b = (msg.buf.drop s).take (max b s - s) := by
  by_cases hb : b ≤ s
  · rw [max_eq_right hb, Nat.sub_self, take_zero]
    exact keptText_eq_nil fun p hp hap hpb => hold p hp hap (by omega)
  · have hsb : s ≤ b := by omega
    have hsplit : List.range' a (b - a) = List.range' a (s - a) ++ List.range' s (b - s) := by
      have happend := @range'_append a (s - a) (b - s) 1
      have hmid : a + 1 * (s - a) = s := by omega
      have hlen : s - a + (b - s) = b - a := by omega
      rw [hmid, hlen] at happend
      exact happend.symm
    have hfirst : (List.range' a (s - a)).filter (fun p => start ≤ p && !deletedAt all p) = [] := by
      rw [filter_eq_nil_iff]
      intro p hp
      rw [mem_range'_1] at hp
      simp only [Bool.and_eq_true, decide_eq_true_eq, Bool.not_eq_true', not_and, Bool.not_eq_false]
      intro hstart'
      exact hold p hstart' hp.1 (by omega)
    have hsecond : (List.range' s (b - s)).filter (fun p => start ≤ p && !deletedAt all p) =
          List.range' s (b - s) := by
      rw [filter_eq_self]
      intro p hp
      rw [mem_range'_1] at hp
      simp only [hnew p hp.1 (by omega), Bool.not_false, Bool.and_true, decide_eq_true_eq]
      omega
    rw [keptText, hsplit, filter_append, hfirst, hsecond,
      nil_append, max_eq_left hsb, drop_take_eq_filterMap]

/-! ## Whole lists -/

/-- The run of `process_lumps` from the position that `lumps_len` has reached,
or from `start` as long as that lies ahead. -/
theorem processLoop_eq_fill {all : List Lump} {start : ℕ} {ts : List Lump}
    (hrand : ∀ t ∈ ts, t.NoRand) (hsorted : OffsetSorted ts)
    (hsub : ∀ r ∈ ts.filterMap (fun t => t.op.region), r ∈ all.filterMap (fun t => t.op.region))
    {a s : ℕ} (has : a ≤ s)
    (hahead : ∀ r ∈ ts.filterMap (fun t => t.op.region), a ≤ r.1)
    (hlast : lastStop s ts = lastStop 0 all)
    (hold : ∀ p, start ≤ p → a ≤ p → p < s → deletedAt all p = true)
    (hnew : ∀ p, s ≤ p → deletedAt all p = true →
      ∃ r ∈ ts.filterMap (fun t => t.op.region), r.1 ≤ p ∧ p < r.2)
    (hclear : ∀ p ∈ ignored start s ts,
      insertedItems msg sendSock p.lump = [] ∧ p.stop ≤ start) (k : ℕ) :
    (processLoop msg sendSock rand k (max s start) (fixLumps s ts)).1 = fill msg.setGlobalAddress
        (headerTemplate msg sendSock all start a ts) := by
  induction ts generalizing a s k with
  | nil =>
    have hs : s = lastStop 0 all := hlast
    rw [headerTemplate, ← hs, keptText_eq_nil hold]
    simp [processLoop, fixLumps]
  | cons t ts ih =>
    have hrand' : ∀ t' ∈ ts, t'.NoRand := fun t' ht' =>
      hrand t' (mem_cons_of_mem _ ht')
    have htext : ∀ k, (lumpText msg sendSock rand k t).2 = _ :=
      fun k => lumpText_eq (hrand t mem_cons_self)
    rw [fixLumps, processLoop_cons, lumpText_fixed, region_fixed, headerTemplate]
    cases h : t.op.region with
    | none =>
      have hregions : (t :: ts).filterMap (fun t => t.op.region) =
          ts.filterMap (fun t => t.op.region) :=
        filterMap_cons_none h
      have hplaced : ignored start s (t :: ts) = ignored start s ts := by
        rw [ignored, placed, h, ignored]
      rw [OffsetSorted, hregions] at hsorted
      rw [hregions] at hsub hahead hnew
      rw [hplaced] at hclear
      simp only [lastStop, h] at hlast
      have hrest := ih hrand' hsorted hsub has hahead hlast hold hnew hclear
        (lumpText msg sendSock rand k t).1
      simp only [map_none, fill_append, htext, hrest]
    | some r =>
      obtain ⟨offset, stop⟩ := r
      have hregions : (t :: ts).filterMap (fun t => t.op.region) =
          (offset, stop) :: ts.filterMap (fun t => t.op.region) :=
        filterMap_cons_some h
      have hplaced : placed s (t :: ts) =
          ⟨t, max offset s, max stop s⟩ :: placed (max stop s) ts := by
        rw [placed, h]
      rw [OffsetSorted, hregions, pairwise_cons] at hsorted
      rw [hregions] at hsub hahead hnew
      simp only [lastStop, h] at hlast
      have hle := region_le h
      have hao : a ≤ offset := hahead _ mem_cons_self
      have hdel : ∀ p, offset ≤ p → p < stop → deletedAt all p = true :=
        fun p hp hps => (deletedAt_iff all p).mpr ⟨_, hsub _ mem_cons_self, hp, hps⟩
      have hnext := @ih hrand' hsorted.2 (fun r hr => hsub r (mem_cons_of_mem _ hr))
        offset (max stop s) (by omega)
        (fun r hr => hsorted.1 r hr) hlast
        (by
          intro p hp hop hps
          by_cases hstop : p < stop
          · exact hdel p hop hstop
          · exact hold p hp (by omega) (by omega))
        (by
          intro p hp hd
          obtain ⟨r, hr, hlow, hhigh⟩ := hnew p (by omega) hd
          rcases mem_cons.mp hr with rfl | hr
          · simp only at hhigh
            omega
          · exact ⟨r, hr, hlow, hhigh⟩)
      simp only [map_some, fill_cons, fill_append, getD_some]
      by_cases hlt : max offset s < start
      · have hignored : ignored start s (t :: ts) = ⟨t, max offset s, max stop s⟩ ::
              ignored start (max stop s) ts := by
          rw [ignored, hplaced, filter_cons_of_pos (by simpa using hlt)]
          rfl
        rw [hignored] at hclear
        obtain ⟨hitems, hstop⟩ := hclear _ mem_cons_self
        simp only at hitems hstop
        have hskip : max offset s < max s start := by omega
        have hs : max s start = max (max stop s) start := by omega
        have hkept : keptText msg all start a offset = [] :=
          keptText_eq_nil fun p hp _ hpo => by omega
        rw [if_pos hskip, hs, hkept, lumpTemplate, hitems]
        exact hnext (fun p hp => hclear p (mem_cons_of_mem _ hp)) k
      · have hskip : ¬max offset s < max s start := by omega
        have hs : max (max stop s) start = max stop s := by omega
        have hcopy : max offset s = max offset (max s start) := by omega
        have hkept : keptText msg all start a offset = (msg.buf.drop (max s start)).take
              (max offset (max s start) - max s start) := by
          apply keptText_eq_copy (le_max_right _ _) (by omega)
          · intro p hp hap hps
            exact hold p hp hap (by omega)
          · intro p hps hpo
            by_contra hd
            obtain ⟨r, hr, hlow, hhigh⟩ :=
              hnew p (by omega) (by simpa using hd)
            rcases mem_cons.mp hr with rfl | hr
            · simp only at hlow
              omega
            · have hro := hsorted.1 r hr
              omega
        have hnil : ∀ p ∈ ignored start (max stop s) ts,
            insertedItems msg sendSock p.lump = [] ∧ p.stop ≤ start := by
          rw [ignored_eq_nil (by omega)]
          simp
        have hrest := hnext hnil (lumpText msg sendSock rand k t).1
        rw [hs] at hrest
        rw [if_neg hskip, hkept, ← hcopy]
        simp only [htext, hrest, append_assoc]

theorem none_mem_addTemplate : none ∈ addTemplate msg sendSock a ↔
      msg.setGlobalPort ≠ [] ∧ sendSock ≠ none ∧ (a = .subst .sndPort ∨ a = .subst .sndAll) := by
  cases a with
  | value value => simp [addTemplate]
  | opt cond => simp [addTemplate]
  | subst subst =>
    cases subst with
    | sndPort =>
      cases sendSock <;> simp [addTemplate, substTemplate]
    | sndAll =>
      cases sendSock with
      | none => simp [addTemplate, substTemplate]
      | some s =>
        by_cases h : msg.setGlobalPort = [] <;>
          by_cases hport : s.portNo = sipPort <;> simp [addTemplate, substTemplate, h, hport]
    | _ => simp [addTemplate, substTemplate]

theorem none_mem_headerTemplate (start a : ℕ) (ts : List Lump) :
    none ∈ headerTemplate msg sendSock all start a ts ↔
      ∃ t ∈ ts, none ∈ lumpTemplate msg sendSock t := by
  induction ts generalizing a with
  | nil => simp [headerTemplate]
  | cons t ts ih =>
    rw [headerTemplate]
    cases h : t.op.region <;> simp [ih]

theorem portRight_iff (ts : List Lump) (start a : ℕ) (all : List Lump) : PortRight msg sendSock ts ↔
      none ∉ headerTemplate msg sendSock all start a ts ∨
        msg.setGlobalAddress = msg.setGlobalPort := by
  have hhole : none ∈ headerTemplate msg sendSock all start a ts ↔
      msg.setGlobalPort ≠ [] ∧ sendSock ≠ none ∧ ∃ t ∈ ts, ∃ a ∈ insertedItems msg sendSock t,
          a = .subst .sndPort ∨ a = .subst .sndAll := by
    simp only [none_mem_headerTemplate, lumpTemplate, mem_flatMap, none_mem_addTemplate]
    constructor
    · rintro ⟨t, ht, b, hb, hport, hsock, hsubst⟩
      exact ⟨hport, hsock, t, ht, b, hb, hsubst⟩
    · rintro ⟨hport, hsock, t, ht, b, hb, hsubst⟩
      exact ⟨t, ht, b, hb, hport, hsock, hsubst⟩
  rw [hhole, PortRight]
  push Not
  constructor
  · rintro (hport | heq | hsock | hall)
    · exact Or.inl fun hne => absurd hport hne
    · exact Or.inr heq
    · exact Or.inl fun _ hne => absurd hsock hne
    · exact Or.inl fun _ _ => hall
  · rintro (hnone | heq)
    · by_cases hport : msg.setGlobalPort = []
      · exact Or.inl hport
      · by_cases hsock : sendSock = none
        · exact Or.inr (Or.inr (Or.inl hsock))
        · exact Or.inr (Or.inr (Or.inr (hnone hport hsock)))
    · exact Or.inr (Or.inl heq)

theorem frontClear_zero (ts : List Lump) :
    FrontClear msg sendSock 0 ts := by
  intro p hp
  rw [ignored_eq_nil le_rfl] at hp
  simp at hp

/-- The header that `process_lumps` writes after `lumps_len` has gone through
the list is the intended one exactly when the port announced is the one
written.  If the beginning of the message is written elsewhere, nothing may be
inserted there. -/
theorem headerText_written_iff (msg : SipMsg) (sendSock : Option SocketInfo)
    (lumps : List Lump) (start : ℕ) (rand rand' : ℕ → ℕ)
    (hrand : ∀ t ∈ lumps, t.NoRand) (hsorted : OffsetSorted lumps)
    (hfront : start = 0 ∨ FrontClear msg sendSock start lumps) :
    (processLumps msg (lumpsLen msg lumps sendSock rand).1 start sendSock
        rand').1 = headerText msg sendSock lumps start ↔
      PortRight msg sendSock lumps := by
  have hclear : FrontClear msg sendSock start lumps := by
    rcases hfront with rfl | hfront
    · exact frontClear_zero lumps
    · exact hfront
  have hwritten := @processLoop_eq_fill msg sendSock rand' lumps start lumps
    hrand hsorted (fun _ hr => hr) 0 0 le_rfl (fun _ _ => Nat.zero_le _) rfl
    (fun p _ _ hp => absurd hp (Nat.not_lt_zero p))
    (fun p _ hd => (deletedAt_iff lumps p).mp hd) hclear 0
  rw [Nat.zero_max] at hwritten
  rw [processLumps, lumpsLen, lumpsLenLoop_fst, hwritten, headerText,
    headerTextFrom_eq_fill, fill_eq_fill_iff]
  exact (portRight_iff lumps start 0 lumps).symm

/-- A request of a proxy that announces `gw:5080`. -/
def announcedReq : SipMsg where
  buf := ascii "INVITE sip:a@b SIP/2.0\r\n\r\n"
  rcv := ⟨⟨.inet, [127, 0, 0, 1]⟩, 5060, .udp, none⟩
  setGlobalAddress := ascii "gw"
  setGlobalPort := ascii "5080"
  uri := (7, 7)
  newUri := none

def loopbackSocket : SocketInfo :=
  ⟨⟨.inet, [127, 0, 0, 1]⟩, ascii "127.0.0.1", 5060, ascii "5060", .udp⟩

/-- With the address alone, the text is the intended one. -/
theorem headerText_written_iff_address :
    (processLumps announcedReq (lumpsLen announcedReq
        [⟨.nop 24, [], [.subst .sndIp]⟩] (some loopbackSocket) fun _ => 0).1 0
          (some loopbackSocket) fun _ => 0).1 =
      headerText announcedReq (some loopbackSocket) [⟨.nop 24, [], [.subst .sndIp]⟩] 0 := by
  refine (headerText_written_iff announcedReq (some loopbackSocket)
    [⟨.nop 24, [], [.subst .sndIp]⟩] 0 _ _ ?_ ?_ (Or.inl rfl)).mpr ?_
  · intro t ht
    obtain rfl := mem_singleton.mp ht
    exact ⟨by decide, by decide, by decide⟩
  · exact pairwise_singleton _ _
  · refine Or.inr (Or.inr (Or.inr ?_))
    intro t ht
    obtain rfl := mem_singleton.mp ht
    decide

/-- Where the global port should stand, the global address is written. -/
theorem sndPort_writes_address :
    (processLumps announcedReq (lumpsLen announcedReq
        [⟨.nop 0, [], [.subst .sndPort]⟩] (some loopbackSocket) fun _ => 0).1 0
          (some loopbackSocket) fun _ => 0).1 = ascii "gw" ∧
      headerText announcedReq (some loopbackSocket)
        [⟨.nop 0, [], [.subst .sndPort]⟩] 0 = ascii "5080" := by
  constructor <;> decide

end Msicp.Lumps

/-!
## A message cut into blocks

When every lump deletes a whole block of the message, or stands between two
blocks, the builders write what is left of the blocks, one after the other.
-/

namespace Msicp.Lumps

open Msicp.Support

/-- A part of a message: kept, deleted, or added at its place. -/
inductive Block (α : Type*)
  | keep (x : List α)
  | cut (x : List α)
  | add (x : List α)

namespace Block

variable {α : Type*}

/-- The part of the received message. -/
def source : Block α → List α
  | .keep x => x
  | .cut x => x
  | .add _ => []

/-- The part of the message that is sent. -/
def target : Block α → List α
  | .keep x => x
  | .cut _ => []
  | .add x => x

/-- The lump for a block at the offset `a`. -/
def lumps (a : ℕ) : Block UInt8 → List Lump
  | .keep _ => []
  | .cut x => [{ op := .del a x.length, before := [], after := [] }]
  | .add x => [{ op := .nop a, before := [.value x], after := [] }]

/-- A block of pieces as a block of their texts. -/
def flatten (text : α → Bytes) : Block α → Block UInt8
  | .keep x => .keep (x.flatMap text)
  | .cut x => .cut (x.flatMap text)
  | .add x => .add (x.flatMap text)

@[simp] theorem source_flatten (text : α → Bytes) (b : Block α) :
    (b.flatten text).source = b.source.flatMap text := by
  cases b <;> rfl

@[simp] theorem target_flatten (text : α → Bytes) (b : Block α) :
    (b.flatten text).target = b.target.flatMap text := by
  cases b <;> rfl

end Block

/-- The received message. -/
def blockSource {α : Type*} (bs : List (Block α)) : List α :=
  bs.flatMap Block.source

/-- The message that is sent. -/
def blockTarget {α : Type*} (bs : List (Block α)) : List α :=
  bs.flatMap Block.target

/-- The lumps for the blocks of a message that starts at the offset `a`. -/
def blockLumps : ℕ → List (Block UInt8) → List Lump
  | _, [] => []
  | a, b :: bs => b.lumps a ++ blockLumps (a + b.source.length) bs

variable {msg : SipMsg} {sendSock : Option SocketInfo} {rand : ℕ → ℕ}
variable {bs bs' : List (Block UInt8)} {a s : ℕ}

theorem blockLumps_cons (b : Block UInt8) :
    blockLumps a (b :: bs) = b.lumps a ++ blockLumps (a + b.source.length) bs := rfl

theorem blockLumps_append : blockLumps a (bs ++ bs') =
      blockLumps a bs ++ blockLumps (a + (blockSource bs).length) bs' := by
  induction bs generalizing a with
  | nil => rfl
  | cons b bs ih =>
    have hlen : (blockSource (b :: bs)).length = b.source.length + (blockSource bs).length := by
      simp [blockSource]
    rw [List.cons_append, blockLumps_cons, blockLumps_cons, ih, List.append_assoc, hlen,
      Nat.add_assoc]

theorem blockLumps_region {t : Lump} (h : t ∈ blockLumps a bs) :
    ∃ r, t.op.region = some r ∧ a ≤ r.1 ∧ r.1 ≤ r.2 ∧ r.2 ≤ a + (blockSource bs).length := by
  induction bs generalizing a with
  | nil => simp [blockLumps] at h
  | cons b bs ih =>
    have hlen : (blockSource (b :: bs)).length = b.source.length + (blockSource bs).length := by
      simp [blockSource]
    rw [blockLumps_cons, List.mem_append] at h
    rcases h with hb | hbs
    · cases b with
      | keep x => simp [Block.lumps] at hb
      | cut x =>
        rw [List.mem_singleton.mp hb]
        refine ⟨(a, a + x.length), rfl, le_refl _, Nat.le_add_right _ _, ?_⟩
        simp [hlen, Block.source]
      | add x =>
        rw [List.mem_singleton.mp hb]
        exact ⟨(a, a), rfl, le_refl _, le_refl _, Nat.le_add_right _ _⟩
    · obtain ⟨r, hr, hlow, hle, hhigh⟩ := ih hbs
      refine ⟨r, hr, ?_, hle, ?_⟩ <;> omega

/-- Blocks do not overlap, so that nothing has to be moved. -/
theorem fixLumps_blocks (hs : s ≤ a) : fixLumps s (blockLumps a bs) = blockLumps a bs := by
  induction bs generalizing a s with
  | nil => rfl
  | cons b bs ih =>
    cases b with
    | keep x => exact ih (hs.trans (Nat.le_add_right _ _))
    | cut x =>
      have hmax : max (a + x.length) s = a + x.length :=
        max_eq_left (hs.trans (Nat.le_add_right _ _))
      simp only [blockLumps_cons, Block.lumps, Block.source, List.singleton_append,
        fixLumps, LumpOp.fixed, LumpOp.region, hmax, max_eq_left hs,
        Nat.add_sub_cancel_left]
      rw [ih (le_refl _)]
    | add x =>
      simp only [blockLumps_cons, Block.lumps, Block.source, List.singleton_append,
        fixLumps, LumpOp.fixed, LumpOp.region, max_eq_left hs,
        List.length_nil, Nat.add_zero]
      rw [ih (le_refl _)]

/-- What is written from the position `s` on, when all from `s` to `a` is
kept. -/
theorem processLoop_blocks {x y : Bytes} {k : ℕ} (hbuf : msg.buf = x ++ y ++ blockSource bs) :
    (processLoop msg sendSock rand k x.length (blockLumps (x ++ y).length bs)).1 ++
      msg.buf.drop (processLoop msg sendSock rand k x.length
        (blockLumps (x ++ y).length bs)).2 = y ++ blockTarget bs := by
  induction bs generalizing x y k with
  | nil =>
    have hnone : blockSource ([] : List (Block UInt8)) = [] := rfl
    rw [hnone, List.append_nil] at hbuf
    simp [blockLumps, processLoop, blockTarget, hbuf]
  | cons b bs ih =>
    cases b with
    | keep z =>
      have hsource : msg.buf = x ++ (y ++ z) ++ blockSource bs := by
        rw [hbuf]
        simp [blockSource, Block.source]
      have hkeep := ih (k := k) hsource
      have hlumps : blockLumps (x ++ y).length (.keep z :: bs) =
          blockLumps (x ++ (y ++ z)).length bs := by
        simp [blockLumps_cons, Block.lumps, Block.source, Nat.add_assoc]
      rw [hlumps, hkeep]
      simp [blockTarget, Block.target]
    | cut z =>
      have hsource : msg.buf = (x ++ y ++ z) ++ [] ++ blockSource bs := by
        rw [hbuf]
        simp [blockSource, Block.source]
      have hcopy : (msg.buf.drop x.length).take y.length = y := by
        rw [hbuf]
        simp
      have hlumps : blockLumps (x ++ y).length (.cut z :: bs) =
          ⟨.del (x ++ y).length z.length, [], []⟩ :: blockLumps (x ++ y ++ z ++ []).length bs := by
        simp [blockLumps_cons, Block.lumps, Block.source, Nat.add_assoc]
      have hnot : ¬(x ++ y).length < x.length := by simp
      have hlen : (x ++ y).length - x.length = y.length := by simp
      have hstop : (x ++ y).length + z.length = (x ++ y ++ z).length := by
        simp [Nat.add_assoc]
      have hcut := ih (k := k) hsource
      rw [hlumps, processLoop_cons]
      simp only [LumpOp.region, if_neg hnot, hlen, hcopy, hstop, lumpText,
        optFails, optChecks, chainText, Bool.false_eq_true, if_false,
        Nat.add_zero, List.append_nil, List.append_assoc] at hcut ⊢
      rw [hcut]
      rfl
    | add z =>
      have hsource : msg.buf = (x ++ y) ++ [] ++ blockSource bs := by
        rw [hbuf]
        simp [blockSource, Block.source]
      have hcopy : (msg.buf.drop x.length).take y.length = y := by
        rw [hbuf]
        simp
      have hlumps : blockLumps (x ++ y).length (.add z :: bs) =
          ⟨.nop (x ++ y).length, [.value z], []⟩ :: blockLumps (x ++ y ++ []).length bs := by
        simp [blockLumps_cons, Block.lumps, Block.source]
      have hnot : ¬(x ++ y).length < x.length := by simp
      have hlen : (x ++ y).length - x.length = y.length := by simp
      have hadd := ih (k := k) hsource
      rw [hlumps, processLoop_cons]
      simp only [LumpOp.region, if_neg hnot, hlen, hcopy, lumpText,
        optFails, optChecks, chainText, Bool.false_eq_true, if_false,
        Nat.add_zero, List.append_nil, List.append_assoc] at hadd ⊢
      rw [hadd]
      simp [blockTarget, Block.target]

theorem buildBuf_blocks (hbuf : msg.buf = blockSource bs) (rands : Rands) :
    (buildBuf msg sendSock none (blockLumps 0 bs) [] rands).1 =
      blockTarget bs := by
  have hbody : (lumpsLen msg [] sendSock rands.bodyLen).1 = [] := rfl
  have hhead : (lumpsLen msg (blockLumps 0 bs) sendSock rands.addRmLen).1 =
      blockLumps 0 bs := by
    rw [lumpsLen, lumpsLenLoop_fst, fixLumps_blocks (le_refl _)]
  have htext := @processLoop_blocks msg sendSock rands.addRmOut bs [] [] 0 hbuf
  simp only [buildBuf, hhead, hbody, processLumps]
  simpa [processLoop] using htext

end Msicp.Lumps
