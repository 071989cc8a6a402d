import Msicp.TcpMain.Connections
import Mathlib.Data.List.Perm.Subperm

/-!
# Every connection and every alias in its chain

What the calls under the lock keep of the two hash tables, and when no alias
stands for two connections.
-/

namespace Msicp.TcpMain

open Msicp.Support List Function Option Table

/-- The alias number `r` of the connection at `a`, in use. -/
def Table.HasAlias (s : Table) (a : Addr) (r : ℕ) : Prop :=
  a ∈ s.live ∧ r < (s.conn a).aliases

/-- The chains hold every connection and every alias exactly once, each in the
chain of its hash, and nothing else. -/
structure ChainedBy (s : Table) (idChain : ℕ → List Addr)
    (alsChain : ℕ → List (Addr × ℕ)) : Prop where
  ids : s.ids.Holds idChain
  als : s.als.Holds alsChain
  live : s.live.Nodup
  mem_ids : ∀ h a, a ∈ idChain h ↔ a ∈ s.live ∧ (s.conn a).idHash = h
  mem_als : ∀ h a r, (a, r) ∈ alsChain h ↔
    s.HasAlias a r ∧ ((s.conn a).conAliases r).hash = h
  idHash : ∀ a ∈ s.live, (s.conn a).idHash = tcpIdHash (s.conn a).id
  entry : ∀ a r, s.HasAlias a r → ((s.conn a).conAliases r).parent = a ∧
    ((s.conn a).conAliases r).hash =
      tcpAddrHash (s.conn a).ip ((s.conn a).conAliases r).port
  aliases : ∀ a ∈ s.live,
    0 < (s.conn a).aliases ∧ (s.conn a).aliases ≤ tcpConMaxAliases

def Table.Chained (s : Table) : Prop := ∃ idChain alsChain, ChainedBy s idChain alsChain

/-- No remote address and port is an alias of two connections. -/
def Table.AliasesUnique (s : Table) : Prop :=
  ∀ a r a' r', s.HasAlias a r → s.HasAlias a' r' → (s.conn a).ip = (s.conn a').ip →
    ((s.conn a).conAliases r).port = ((s.conn a').conAliases r').port → a = a'

variable {s : Table} {idChain : ℕ → List Addr} {alsChain : ℕ → List (Addr × ℕ)}

/-! ## Searches -/

theorem ChainedBy.id_length (h : ChainedBy s idChain alsChain) (k : ℕ) :
    (idChain k).length ≤ s.live.length :=
  ((h.ids.nodup k).subperm fun a ha => ((h.mem_ids k a).mp ha).1).length_le

theorem ChainedBy.als_length (h : ChainedBy s idChain alsChain) (k : ℕ) :
    (alsChain k).length ≤ s.live.length * tcpConMaxAliases := by
  have hsub : alsChain k ⊆ s.live ×ˢ List.range tcpConMaxAliases := by
    rintro ⟨a, r⟩ hmem
    obtain ⟨⟨ha, hr⟩, -⟩ := (h.mem_als k a r).mp hmem
    have hmax := (h.aliases a ha).2
    exact pair_mem_product.mpr ⟨ha, mem_range.mpr (by omega)⟩
  have hle := ((h.als.nodup k).subperm hsub).length_le
  rwa [length_product, length_range] at hle

variable {a : Addr}

section

variable (h : ChainedBy s idChain alsChain)
include h

theorem ChainedBy.findId {id : BitVec 32} (hfind : tcpconnFindId s id = some a) :
    a ∈ s.live ∧ (s.conn a).state ≠ .bad := by
  unfold tcpconnFindId at hfind
  split at hfind
  · cases hfind
  · rw [walk_found (h.ids.links _) (h.id_length _)] at hfind
    have hmem := mem_of_find?_eq_some hfind
    have htest := find?_some hfind
    exact ⟨((h.mem_ids _ a).mp hmem).1, (of_decide_eq_true htest).2⟩

theorem ChainedBy.findAlias_eq (ip : Ip) (port : ℤ) : findAlias s ip port =
      (alsChain (tcpAddrHash ip (BitVec.ofInt 16 port))).find? fun p =>
        let al := (s.conn p.1).conAliases p.2
        (s.conn al.parent).state ≠ .bad ∧ port = al.port.toNat ∧ ip = (s.conn al.parent).ip := by
  unfold findAlias
  exact walk_found (h.als.links _) (h.als_length _)

theorem ChainedBy.findAlias_some {ip : Ip}
    {port : ℤ} {r : ℕ} (hfind : findAlias s ip port = some (a, r)) :
    s.HasAlias a r ∧ (s.conn a).state ≠ .bad ∧
      port = ((s.conn a).conAliases r).port.toNat ∧ ip = (s.conn a).ip := by
  rw [h.findAlias_eq] at hfind
  have hmem := mem_of_find?_eq_some hfind
  have htest := find?_some hfind
  have ha := ((h.mem_als _ a r).mp hmem).1
  simp only [(h.entry a r ha).1, decide_eq_true_eq] at htest
  exact ⟨ha, htest⟩

theorem ChainedBy.findAlias_none {ip : Ip}
    {port : ℤ} (hfind : findAlias s ip port = none) {r : ℕ}
    (ha : s.HasAlias a r) (hip : ip = (s.conn a).ip)
    (hport : port = ((s.conn a).conAliases r).port.toNat) :
    (s.conn a).state = .bad := by
  obtain ⟨hparent, hhash⟩ := h.entry a r ha
  rw [h.findAlias_eq, find?_eq_none] at hfind
  have hofInt : BitVec.ofInt 16 port = ((s.conn a).conAliases r).port := by
    rw [hport]
    simp
  have hmem := (h.mem_als (tcpAddrHash ip (BitVec.ofInt 16 port)) a r).mpr
    ⟨ha, by rw [hofInt, hip, hhash]⟩
  have hnot := hfind _ hmem
  simp only [hparent, decide_eq_true_eq, not_and] at hnot
  by_contra hstate
  exact hnot hstate hport hip

/-! ## What the calls keep -/

/-- What is done to a connection outside of the chains does not matter. -/
theorem ChainedBy.touch (a : Addr) (state : ConnState) (refcnt timeout : ℤ) :
    ChainedBy { s with conn := Function.update s.conn a { s.conn a with
      state := state, refcnt := refcnt, timeout := timeout } }
      idChain alsChain := by
  generalize hconn : Function.update s.conn a { s.conn a with
    state := state, refcnt := refcnt, timeout := timeout } = conn
  have hsame : ∀ b, (conn b).id = (s.conn b).id ∧ (conn b).ip = (s.conn b).ip ∧
      (conn b).idHash = (s.conn b).idHash ∧
      (conn b).aliases = (s.conn b).aliases ∧
      (conn b).conAliases = (s.conn b).conAliases := by
    intro b
    rw [← hconn]
    by_cases hb : b = a
    · subst hb
      simp
    · simp [update_of_ne hb]
  refine ⟨h.ids, h.als, h.live, fun k b => ?_, fun k b r => ?_, fun b hb => ?_,
    fun b r hb => ?_, fun b hb => ?_⟩ <;>
    obtain ⟨hid, hip, hhash, haliases, hcon⟩ := hsame b
  · rw [h.mem_ids, hhash]
  · rw [h.mem_als, hcon]
    simp only [HasAlias, haliases]
  · rw [hhash, hid]
    exact h.idHash b hb
  · rw [hip, hcon]
    refine h.entry b r ?_
    simpa only [HasAlias, haliases] using hb
  · rw [haliases]
    exact h.aliases b hb

end

theorem Conn.pushAlias_get (c : Conn) (al : Alias) (r : ℕ) : (c.pushAlias al).conAliases r =
      if r = c.aliases then al else c.conAliases r := by
  unfold pushAlias
  dsimp only
  rw [update_apply]

theorem ChainedBy.add (h : ChainedBy s idChain alsChain) {a : Addr}
    (ha : a ∉ s.live) (c : Conn) (hc : c.aliases = 0) :
    ∃ idChain' alsChain', ChainedBy (tcpconnAdd a c s) idChain' alsChain' := by
  have hids : ∀ k, a ∉ idChain k := fun k hmem => ha ((h.mem_ids k a).mp hmem).1
  have hals : ∀ k r, (a, r) ∉ alsChain k := fun k r hmem =>
    ha ((h.mem_als k a r).mp hmem).1.1
  have hself : (tcpconnAdd a c s).conn a =
      { c with idHash := tcpIdHash c.id }.pushAlias
        ⟨a, c.srcPort, tcpAddrHash c.ip c.srcPort⟩ := update_self ..
  have hother : ∀ b, b ≠ a → (tcpconnAdd a c s).conn b = s.conn b :=
    fun b hb => update_of_ne hb _ _
  have hlive : ∀ b, b ∈ (tcpconnAdd a c s).live ↔ b = a ∨ b ∈ s.live :=
    fun b => mem_cons
  refine ⟨_, _, h.ids.add hids, h.als.add fun k => hals k 0,
    nodup_cons.mpr ⟨ha, h.live⟩, fun k b => ?_, fun k b r => ?_,
    fun b hb => ?_, fun b r hb => ?_, fun b hb => ?_⟩
  · rw [Buckets.mem_push, hlive]
    by_cases hba : b = a
    · subst hba
      rw [hself]
      simp [hids, Conn.pushAlias, eq_comm]
    · rw [hother b hba, h.mem_ids]
      simp [hba]
  · rw [Buckets.mem_push, HasAlias, hlive]
    by_cases hba : b = a
    · subst hba
      rw [hself]
      rw [Conn.pushAlias_get]
      by_cases hr : r = 0
      · simp [Conn.pushAlias, hc, hr, hals, eq_comm]
      · simp [Conn.pushAlias, hc, hr, hals]
    · rw [hother b hba, h.mem_als, HasAlias]
      simp [hba]
  · by_cases hba : b = a
    · subst hba
      rw [hself]
      rfl
    · rw [hother b hba]
      exact h.idHash b (((hlive b).mp hb).resolve_left hba)
  · by_cases hba : b = a
    · subst hba
      obtain ⟨-, hr⟩ := hb
      rw [hself] at hr ⊢
      simp [Conn.pushAlias, hc] at hr
      simp [Conn.pushAlias, hc, hr]
    · obtain ⟨hb, hr⟩ := hb
      rw [hother b hba] at hr ⊢
      exact h.entry b r ⟨((hlive b).mp hb).resolve_left hba, hr⟩
  · by_cases hba : b = a
    · subst hba
      rw [hself]
      simp [Conn.pushAlias, hc, tcpConMaxAliases]
    · rw [hother b hba]
      exact h.aliases b (((hlive b).mp hb).resolve_left hba)

/-- An alias is written and put in its chain. -/
def Table.withAlias (s : Table) (a : Addr) (port : BitVec 16) : Table :=
  let hash := tcpAddrHash (s.conn a).ip port
  { s with
    conn := Function.update s.conn a ((s.conn a).pushAlias ⟨a, port, hash⟩)
    als := s.als.add hash (a, (s.conn a).aliases) }

theorem tcpconnAddAlias_cases (id : BitVec 32) (port : ℤ) (tls : Bool) (s : Table) :
    ((tcpconnAddAlias id port tls s).2 = s ∧ ∀ a, tcpconnFindId s id = some a →
      (s.conn a).aliases < tcpConMaxAliases →
      ∃ p, findAlias s (s.conn a).ip (fixPort port tls) = some p) ∨ ∃ a,
      tcpconnFindId s id = some a ∧
      findAlias s (s.conn a).ip (fixPort port tls) = none ∧
      (s.conn a).aliases < tcpConMaxAliases ∧
      (tcpconnAddAlias id port tls s).2 = s.withAlias a (BitVec.ofInt 16 (fixPort port tls)) := by
  unfold tcpconnAddAlias
  dsimp only
  split
  · rename_i hnone
    exact .inl ⟨rfl, fun a hfind => by simp [hnone] at hfind⟩
  · rename_i a hfind
    rw [hfind]
    split
    · rename_i p hp
      refine .inl ⟨by split <;> rfl, fun b hb _ => ⟨p, ?_⟩⟩
      rwa [← some.inj hb]
    · rename_i hnone
      split
      · rename_i hmax
        refine .inl ⟨rfl, fun b hb hlt => ?_⟩
        rw [← some.inj hb] at hlt
        exact absurd hlt (Nat.not_lt.mpr hmax)
      · rename_i hmax
        exact .inr ⟨a, rfl, hnone, by omega, rfl⟩

section

variable (h : ChainedBy s idChain alsChain)
include h

theorem ChainedBy.withAlias (ha : a ∈ s.live) (hmax : (s.conn a).aliases < tcpConMaxAliases)
    (port : BitVec 16) :
    ∃ alsChain', ChainedBy (s.withAlias a port) idChain alsChain' := by
  have hals : ∀ k, (a, (s.conn a).aliases) ∉ alsChain k := fun k hmem =>
    Nat.lt_irrefl _ ((h.mem_als k a _).mp hmem).1.2
  have hself : (s.withAlias a port).conn a = (s.conn a).pushAlias
      ⟨a, port, tcpAddrHash (s.conn a).ip port⟩ := update_self ..
  have hother : ∀ b, b ≠ a → (s.withAlias a port).conn b = s.conn b :=
    fun b hb => update_of_ne hb _ _
  have hlive : ∀ b, b ∈ (s.withAlias a port).live ↔ b ∈ s.live :=
    fun _ => Iff.rfl
  refine ⟨_, h.ids, h.als.add hals, h.live, fun k b => ?_, fun k b r => ?_,
    fun b hb => ?_, fun b r hb => ?_, fun b hb => ?_⟩
  · rw [h.mem_ids, hlive]
    by_cases hba : b = a
    · rw [hba, hself]
      rfl
    · rw [hother b hba]
  · rw [Buckets.mem_push, h.mem_als, HasAlias, HasAlias, hlive]
    by_cases hba : b = a
    · subst hba
      rw [hself, Conn.pushAlias_get]
      by_cases hr : r = (s.conn b).aliases
      · simp [Conn.pushAlias, hr, ha, eq_comm]
      · have hlt : r < (s.conn b).aliases + 1 ↔ r < (s.conn b).aliases := by
          omega
        simp [Conn.pushAlias, hr, hlt]
    · rw [hother b hba]
      simp [hba]
  · by_cases hba : b = a
    · rw [hba, hself]
      exact h.idHash a ha
    · rw [hother b hba]
      exact h.idHash b hb
  · obtain ⟨hb, hr⟩ := hb
    by_cases hba : b = a
    · subst hba
      rw [hself] at hr ⊢
      rw [Conn.pushAlias_get]
      by_cases hr' : r = (s.conn b).aliases
      · rw [if_pos hr']
        exact ⟨rfl, rfl⟩
      · rw [if_neg hr']
        have hlt : r < (s.conn b).aliases + 1 := hr
        exact h.entry b r ⟨hb, by omega⟩
    · rw [hother b hba] at hr ⊢
      exact h.entry b r ⟨hb, hr⟩
  · by_cases hba : b = a
    · rw [hba, hself]
      exact ⟨Nat.succ_pos _, hmax⟩
    · rw [hother b hba]
      exact h.aliases b hb

theorem ChainedBy.remove_aliases (ha : a ∈ s.live) {n : ℕ} (hn : n ≤ (s.conn a).aliases) :
    ∃ alsChain', ((List.range n).foldl (fun als r =>
        als.remove ((s.conn a).conAliases r).hash (a, r)) s.als).Holds alsChain' ∧
      ∀ k b r, (b, r) ∈ alsChain' k ↔ (b, r) ∈ alsChain k ∧ ¬ (b = a ∧ r < n) := by
  induction n with
  | zero => exact ⟨alsChain, h.als, by simp⟩
  | succ n ih =>
    obtain ⟨alsChain', hholds, hmem⟩ := ih (by omega)
    have hin : (a, n) ∈ alsChain' ((s.conn a).conAliases n).hash :=
      (hmem _ a n).mpr ⟨(h.mem_als _ a n).mpr ⟨⟨ha, hn⟩, rfl⟩, by simp⟩
    rw [range_succ, foldl_append]
    refine ⟨_, hholds.erase hin, fun k b r => ?_⟩
    rw [hholds.mem_erase, hmem, Ne, Prod.mk.injEq]
    have hlt : r < n + 1 ↔ r < n ∨ r = n := by omega
    rw [hlt]
    tauto

theorem ChainedBy.rm (ha : a ∈ s.live) : ∃ alsChain',
      ChainedBy (tcpconnRm a s) (fun k => (idChain k).erase a) alsChain' := by
  obtain ⟨alsChain', hholds, hmem⟩ := h.remove_aliases ha le_rfl
  have hlive : ∀ b, b ∈ (tcpconnRm a s).live ↔ b ≠ a ∧ b ∈ s.live :=
    fun b => h.live.mem_erase_iff
  have hconn : (tcpconnRm a s).conn = s.conn := rfl
  refine ⟨alsChain', h.ids.erase ((h.mem_ids _ a).mpr ⟨ha, rfl⟩), hholds,
    h.live.erase a, fun k b => ?_, fun k b r => ?_, fun b hb => ?_,
    fun b r hb => ?_, fun b hb => ?_⟩
  · rw [h.ids.mem_erase, h.mem_ids, hlive, hconn, and_assoc]
  · rw [hmem, h.mem_als, HasAlias, HasAlias, hlive, hconn]
    by_cases hba : b = a
    · subst hba
      simp only [ne_eq, not_true_eq_false, false_and, true_and]
      tauto
    · simp [hba]
  · exact h.idHash b ((hlive b).mp hb).2
  · exact h.entry b r ⟨((hlive b).mp hb.1).2, hb.2⟩
  · exact h.aliases b ((hlive b).mp hb).2

end

/-- The loop over a chain takes out some connections, and changes none. -/
theorem ChainedBy.timeoutLoop (h : ChainedBy s idChain alsChain) (ticks : ℤ)
    (n : ℕ) {k : ℕ} {c : Option Addr} {l₁ l₂ : List Addr}
    (hk : idChain k = l₁ ++ l₂) (hc : c = l₂.head?) :
    (TcpMain.timeoutLoop ticks n c s).Chained ∧ (TcpMain.timeoutLoop ticks n c s).live ⊆ s.live ∧
      (TcpMain.timeoutLoop ticks n c s).conn = s.conn := by
  induction n generalizing s idChain alsChain c l₁ l₂ with
  | zero => exact ⟨⟨_, _, h⟩, List.Subset.refl _, rfl⟩
  | succ n ih =>
    cases l₂ with
    | nil =>
      subst hc
      exact ⟨⟨_, _, h⟩, List.Subset.refl _, rfl⟩
    | cons a l =>
      subst hc
      have hnext := (h.ids.cut hk).1
      have ha : a ∈ s.live := ((h.mem_ids k a).mp (by simp [hk])).1
      simp only [head?_cons, TcpMain.timeoutLoop]
      split
      · obtain ⟨alsChain', h'⟩ := h.rm ha
        have hnodup := h.ids.nodup k
        rw [hk] at hnodup
        have hal : a ∉ l₁ := fun hmem =>
          disjoint_of_nodup_append hnodup hmem mem_cons_self
        have hk' : (idChain k).erase a = l₁ ++ l := by
          rw [hk, erase_append_right _ hal, erase_cons_head]
        obtain ⟨hchained, hlive, hconn⟩ := ih h' hk' hnext
        exact ⟨hchained, List.Subset.trans hlive erase_subset, hconn⟩
      · have hk' : idChain k = (l₁ ++ [a]) ++ l := by simp [hk]
        exact ih h hk' hnext

theorem Table.Chained.timeout (h : s.Chained) (ticks : ℤ) : (tcpconnTimeout ticks s).Chained ∧
      (tcpconnTimeout ticks s).live ⊆ s.live ∧
      (tcpconnTimeout ticks s).conn = s.conn := by
  unfold tcpconnTimeout
  induction tcpIdHashSize with
  | zero => exact ⟨h, List.Subset.refl _, rfl⟩
  | succ n ih =>
    rw [range_succ, foldl_append]
    generalize (List.range n).foldl (fun s h =>
      TcpMain.timeoutLoop ticks s.live.length (s.ids.head h) s) s = s' at ih ⊢
    obtain ⟨⟨idChain, alsChain, h'⟩, hlive, hconn⟩ := ih
    obtain ⟨hchained, hlive', hconn'⟩ := @ChainedBy.timeoutLoop _ _ _ h' ticks
      s'.live.length n _ [] (idChain n) rfl (h'.ids.head_eq n)
    exact ⟨hchained, List.Subset.trans hlive' hlive, hconn'.trans hconn⟩

/-! ## Runs -/

theorem chained_init {s : Table} (h : table.init s) : s.Chained := by
  obtain ⟨hlive, hids, hals⟩ := h
  have hempty : ∀ a, a ∉ s.live := by simp [hlive]
  refine ⟨fun _ => [], fun _ => [], ⟨hids, fun _ => trivial, by simp⟩,
    ⟨hals, fun _ => trivial, by simp⟩, by simp [hlive], ?_, ?_, ?_, ?_, ?_⟩
  · simp [hempty]
  · simp [HasAlias, hempty]
  · exact fun a ha => absurd ha (hempty a)
  · exact fun a r ha => absurd ha.1 (hempty a)
  · exact fun a ha => absurd ha (hempty a)

theorem chained_step (l : Call) (s s' : Table) (h : s.Chained)
    (hs : table.step l s = some s') : s'.Chained := by
  obtain ⟨idChain, alsChain, h⟩ := h
  cases l with
  | add a id ip srcPort state timeout =>
    simp only [table, ite_none_left_eq_some, some.injEq] at hs
    obtain ⟨ha, rfl⟩ := hs
    exact h.add ha _ rfl
  | addAlias id port tls =>
    obtain rfl := some.inj hs
    obtain ⟨hsame, -⟩ | ⟨a, hfind, -, hmax, hnew⟩ :=
      tcpconnAddAlias_cases id port tls s
    · rw [hsame]
      exact ⟨_, _, h⟩
    · obtain ⟨alsChain', h'⟩ := h.withAlias (h.findId hfind).1 hmax _
      rw [hnew]
      exact ⟨_, _, h'⟩
  | rm a =>
    simp only [table, ite_none_right_eq_some, some.injEq] at hs
    obtain ⟨ha, rfl⟩ := hs
    obtain ⟨alsChain', h'⟩ := h.rm ha
    exact ⟨_, _, h'⟩
  | timeout ticks =>
    obtain rfl := some.inj hs
    exact (Table.Chained.timeout ⟨_, _, h⟩ ticks).1
  | touch a state refcnt timeout =>
    simp only [table, ite_none_right_eq_some, some.injEq] at hs
    obtain ⟨-, rfl⟩ := hs
    exact ⟨_, _, h.touch a state refcnt timeout⟩

/-- No other connection has the alias that a call is about to add, or the
search of `tcpconn_add_alias` finds that it has. -/
def SafeAlias : Call → Table → Prop
  | .add _ _ ip srcPort _ _, s => ∀ b r, s.HasAlias b r →
      (s.conn b).ip = ip → ((s.conn b).conAliases r).port ≠ srcPort
  | .addAlias id port tls, s => ∀ a, tcpconnFindId s id = some a →
      (s.conn a).aliases < tcpConMaxAliases → ∀ b r, s.HasAlias b r →
      b ≠ a → (s.conn a).ip = (s.conn b).ip →
      ((s.conn b).conAliases r).port = BitVec.ofInt 16 (fixPort port tls) →
        (s.conn b).state ≠ .bad ∧
        fixPort port tls = ((s.conn b).conAliases r).port.toNat
  | _, _ => True

theorem Table.AliasesUnique.mono {s s' : Table} (h : s.AliasesUnique) (hlive : s'.live ⊆ s.live)
    (hsame : ∀ b, (s'.conn b).ip = (s.conn b).ip ∧ (s'.conn b).aliases = (s.conn b).aliases ∧
      (s'.conn b).conAliases = (s.conn b).conAliases) :
    s'.AliasesUnique := by
  intro a r a' r' ha ha' hip hport
  obtain ⟨hip₁, haliases₁, hcon₁⟩ := hsame a
  obtain ⟨hip₂, haliases₂, hcon₂⟩ := hsame a'
  refine h a r a' r' ⟨hlive ha.1, haliases₁ ▸ ha.2⟩ ⟨hlive ha'.1, haliases₂ ▸ ha'.2⟩ ?_ ?_
  · rw [← hip₁, ← hip₂, hip]
  · rw [← hcon₁, ← hcon₂, hport]

/-- One more alias keeps them unique just if no other connection has it. -/
theorem aliasesUnique_grow {s s' : Table} {a : Addr} {r₀ : ℕ} (h : s.AliasesUnique)
    (hnew : ∀ b r, s'.HasAlias b r ↔ b = a ∧ r = r₀ ∨ s.HasAlias b r)
    (hold : ∀ b r, s.HasAlias b r → (s'.conn b).ip = (s.conn b).ip ∧
      (s'.conn b).conAliases r = (s.conn b).conAliases r) :
    s'.AliasesUnique ↔ ∀ b r, s.HasAlias b r → b ≠ a → (s'.conn a).ip = (s.conn b).ip →
      ((s.conn b).conAliases r).port ≠ ((s'.conn a).conAliases r₀).port := by
  constructor
  · intro hafter b r hb hba hip hport
    obtain ⟨hipb, hcon⟩ := hold b r hb
    refine hba (hafter b r a r₀ ((hnew b r).mpr (.inr hb))
      ((hnew a r₀).mpr (.inl ⟨rfl, rfl⟩)) ?_ ?_)
    · rw [hipb, hip]
    · rw [hcon, hport]
  · intro hfree b r b' r' hb hb' hip hport
    by_contra hne
    obtain ⟨hba, hr⟩ | hb := (hnew b r).mp hb <;> obtain ⟨hba', hr'⟩ | hb' := (hnew b' r').mp hb'
    · exact hne (hba.trans hba'.symm)
    · subst hba hr
      obtain ⟨hipb, hcon⟩ := hold b' r' hb'
      rw [hipb] at hip
      rw [hcon] at hport
      exact hfree b' r' hb' (Ne.symm hne) hip hport.symm
    · subst hba' hr'
      obtain ⟨hipb, hcon⟩ := hold b r hb
      rw [hipb] at hip
      rw [hcon] at hport
      exact hfree b r hb hne hip.symm hport
    · obtain ⟨hipb, hcon⟩ := hold b r hb
      obtain ⟨hipb', hcon'⟩ := hold b' r' hb'
      rw [hipb, hipb'] at hip
      rw [hcon, hcon'] at hport
      exact hne (h b r b' r' hb hb' hip hport)

theorem aliasesUnique_add (ha : a ∉ s.live) {c : Conn} (hc : c.aliases = 0) (h : s.AliasesUnique) :
    (tcpconnAdd a c s).AliasesUnique ↔ ∀ b r, s.HasAlias b r → (s.conn b).ip = c.ip →
      ((s.conn b).conAliases r).port ≠ c.srcPort := by
  have hself : (tcpconnAdd a c s).conn a =
      { c with idHash := tcpIdHash c.id }.pushAlias
        ⟨a, c.srcPort, tcpAddrHash c.ip c.srcPort⟩ := update_self ..
  have hother : ∀ b, b ≠ a → (tcpconnAdd a c s).conn b = s.conn b :=
    fun b hb => update_of_ne hb _ _
  have hne : ∀ b r, s.HasAlias b r → b ≠ a := fun b r hb heq => ha (heq ▸ hb.1)
  rw [@aliasesUnique_grow _ _ a 0 h ?_ ?_]
  · rw [hself, Conn.pushAlias_get, if_pos hc.symm]
    exact forall₃_congr fun b r hb =>
      ⟨fun hfree hip => hfree (hne b r hb) hip.symm, fun hfree _ hip => hfree hip.symm⟩
  · intro b r
    by_cases hba : b = a
    · subst hba
      have hmem : b ∈ (tcpconnAdd b c s).live := mem_cons_self
      simp only [HasAlias, hmem, hself, ha]
      simp [Conn.pushAlias, hc]
    · simp only [HasAlias, hother b hba]
      simp [tcpconnAdd, hba]
  · intro b r hb
    rw [hother b (hne b r hb)]
    exact ⟨rfl, rfl⟩

theorem aliasesUnique_withAlias (ha : a ∈ s.live)
    {port : BitVec 16} (h : s.AliasesUnique) :
    (s.withAlias a port).AliasesUnique ↔ ∀ b r, s.HasAlias b r → b ≠ a →
      (s.conn a).ip = (s.conn b).ip →
      ((s.conn b).conAliases r).port ≠ port := by
  have hself : (s.withAlias a port).conn a = (s.conn a).pushAlias
      ⟨a, port, tcpAddrHash (s.conn a).ip port⟩ := update_self ..
  have hother : ∀ b, b ≠ a → (s.withAlias a port).conn b = s.conn b :=
    fun b hb => update_of_ne hb _ _
  rw [@aliasesUnique_grow _ _ a (s.conn a).aliases h ?_ ?_]
  · rw [hself, Conn.pushAlias_get, if_pos rfl]
    rfl
  · intro b r
    by_cases hba : b = a
    · subst hba
      have hmem : b ∈ (s.withAlias b port).live := ha
      simp only [HasAlias, hmem, hself, ha, Conn.pushAlias, true_and]
      omega
    · simp only [HasAlias, hother b hba, hba, false_and, false_or]
      rfl
  · intro b r hb
    by_cases hba : b = a
    · subst hba
      rw [hself, Conn.pushAlias_get, if_neg (Nat.ne_of_lt hb.2)]
      exact ⟨rfl, rfl⟩
    · rw [hother b hba]
      exact ⟨rfl, rfl⟩

/-- A call keeps the aliases unique just if it is safe. -/
theorem aliasesUnique_step (l : Call) (s s' : Table) (h : s.Chained)
    (hunique : s.AliasesUnique) (hs : table.step l s = some s') :
    s'.AliasesUnique ↔ SafeAlias l s := by
  cases l with
  | add a id ip srcPort state timeout =>
    simp only [table, ite_none_left_eq_some, some.injEq] at hs
    obtain ⟨ha, rfl⟩ := hs
    exact aliasesUnique_add ha rfl hunique
  | addAlias id port tls =>
    obtain rfl := some.inj hs
    obtain ⟨idChain, alsChain, h⟩ := h
    obtain ⟨hsame, hfound⟩ | ⟨a, hfind, hnone, hmax, hnew⟩ :=
      tcpconnAddAlias_cases id port tls s
    · rw [hsame]
      refine iff_of_true hunique fun a hfind hmax b r hb _ hip hport => ?_
      obtain ⟨⟨a', r'⟩, hp⟩ := hfound a hfind hmax
      obtain ⟨ha', hstate, hport', hip'⟩ := h.findAlias_some hp
      have hports : ((s.conn b).conAliases r).port = ((s.conn a').conAliases r').port := by
        rw [hport, hport']
        simp
      obtain rfl := hunique b r a' r' hb ha' (hip.symm.trans hip') hports
      exact ⟨hstate, hports ▸ hport'⟩
    · rw [hnew, aliasesUnique_withAlias (h.findId hfind).1 hunique]
      constructor
      · intro hfree a' hfind' _ b r hb hba hip hport
        obtain rfl := some.inj (hfind.symm.trans hfind')
        exact absurd hport (hfree b r hb hba hip)
      · intro hsafe b r hb hba hip hport
        obtain ⟨hstate, htoNat⟩ := hsafe a hfind hmax b r hb hba hip hport
        exact hstate (h.findAlias_none hnone hb hip htoNat)
  | rm a =>
    simp only [table, ite_none_right_eq_some, some.injEq] at hs
    obtain ⟨-, rfl⟩ := hs
    exact iff_of_true (hunique.mono erase_subset fun b => ⟨rfl, rfl, rfl⟩) trivial
  | timeout ticks =>
    obtain rfl := some.inj hs
    obtain ⟨-, hlive, hconn⟩ := h.timeout ticks
    exact iff_of_true (hunique.mono hlive fun b => by rw [hconn]; exact ⟨rfl, rfl, rfl⟩) trivial
  | touch a state refcnt timeout =>
    simp only [table, ite_none_right_eq_some, some.injEq] at hs
    obtain ⟨-, rfl⟩ := hs
    refine iff_of_true (hunique.mono (List.Subset.refl _) fun b => ?_) trivial
    by_cases hb : b = a
    · subst hb
      simp
    · simp [update_of_ne hb]

theorem chained_reach {ok : Call → Table → Prop} (h : table.ReachWhen ok s) :
    s.Chained :=
  h.invariant _ (fun _ => chained_init) fun l s s' hs _ => chained_step l s s' hs

/-- The chains hold in every run, and the aliases stay unique in every run
whose calls are safe. -/
theorem chained_and_unique (s : Table) : (table.Reach s → s.Chained) ∧
      (table.ReachWhen SafeAlias s → s.Chained ∧ s.AliasesUnique) := by
  refine ⟨chained_reach, fun h => ?_⟩
  refine h.invariant (fun s => s.Chained ∧ s.AliasesUnique)
    (fun s hs => ⟨chained_init hs, ?_⟩) fun l s s' hs hok hstep => ?_
  · intro a r a' r' ha
    exact absurd ha.1 (by simp [hs.1])
  · exact ⟨chained_step l s s' hs.1 hstep, (aliasesUnique_step l s s' hs.1 hs.2 hstep).mpr hok⟩

/-- A table with nothing in it. -/
def emptyTable : Table where
  conn _ := tcpconnNew 0 ⟨[]⟩ 0 .init 0
  live := []
  ids := ⟨fun _ => none, fun _ => none, fun _ => none⟩
  als := ⟨fun _ => none, fun _ => none, fun _ => none⟩

def peer : Ip := ⟨[0x0a000001#32]⟩

/-- A connection from port 40000 gets the alias 5060. -/
def aliasedTable : Table :=
  (tcpconnAddAlias 1 0 false (tcpconnAdd 1 (tcpconnNew 1 peer 40000 .accept 120) emptyTable)).2

theorem chained_and_unique_aliased : aliasedTable.Chained ∧ aliasedTable.AliasesUnique := by
  refine (chained_and_unique aliasedTable).2 ?_
  have hinit : table.init emptyTable := ⟨rfl, fun _ => rfl, fun _ => rfl⟩
  have hadmits : table.Admits SafeAlias emptyTable
      [.add 1 1 peer 40000 .accept 120, .addAlias 1 0 false] := ?_
  · exact Machine.ReachWhen.run (.init hinit) hadmits rfl
  refine ⟨fun b r hb => absurd hb.1 not_mem_nil, fun s hs => ⟨?_, fun _ _ => trivial⟩⟩
  obtain rfl := some.inj hs
  intro a hfind _ b r hb hba
  have hb1 : b = 1 := mem_singleton.mp hb.1
  have ha1 : some 1 = some a := hfind
  exact absurd (hb1.trans (some.inj ha1)) hba

/-- Then a connection from port 5060 itself is added. -/
theorem alias_twice : ∃ s, table.Reach s ∧ ¬ s.AliasesUnique := by
  have hinit : table.init emptyTable := ⟨rfl, fun _ => rfl, fun _ => rfl⟩
  refine ⟨_, Machine.Reach.run (.init hinit) [.add 1 1 peer 40000 .accept 120, .addAlias 1 0 false,
      .add 2 2 peer 5060 .accept 120] rfl, fun hunique => ?_⟩
  have heq := hunique 1 1 2 0 ⟨by decide, by decide⟩
    ⟨by decide, by decide⟩ (by decide)
    (by decide)
  exact absurd heq (by decide)

end Msicp.TcpMain
