import Msicp.Parser.UriFields
import Msicp.Tcp.ContentLength

/-!
# What the automaton has read

Behind the scheme a URI is a user part up to an `@`, a host, a port, parameters
and headers; all but the host may be missing.  In every state of the automaton
the text read so far is cut this way, and the fields point at the pieces.  The
text before an `@` is first cut as if it were a host with parameters.
-/

namespace Msicp.Parser

open Msicp.Support Msicp.Tcp

/-- A byte at which the host ends. -/
def endsHost (c : UInt8) : Bool :=
  c = 58 || c = 59 || c = 63

/-- The text behind the host at the start of a text. -/
def afterHost : Bytes → Bytes
  | [] => []
  | c :: t =>
    if c = 91 then (t.dropWhile fun x => x != 93).drop 1
    else t.dropWhile fun x => !endsHost x

/-- The digits of the port behind the host at the start of a text. -/
def portDigits (text : Bytes) : Bytes :=
  if (afterHost text).head? = some 58 then
    (afterHost text).tail.takeWhile isDigit
  else []

/-- The digits of a port before the `@`, if a user part is read as an IPv6
reference with a port first. -/
def leadingPort (x : Bytes) : Bytes :=
  if x.head? = some 91 then portDigits x else []

/-- `secure` behind the user part `x`. -/
def secureBehind (secure : ℕ) (x : Bytes) : ℕ :=
  if 59 ∈ x.tail ∨ 63 ∈ x.tail then 0 else secure

/-- The number that `case_port` makes of digits. -/
def portNum (ds : Bytes) : BitVec 32 :=
  BitVec.ofNat 32 (decimal ds)

/-- The `str` of the text `x` at `n`. -/
def Str.ofText (n : ℕ) (x : Bytes) : Str where
  s := some n
  len := x.length

@[simp] theorem portNum_nil : portNum [] = 0 := rfl

theorem casePort_portNum (c : UInt8) (ds : Bytes) :
    casePort c (portNum ds) = portNum (ds ++ [c]) := by
  simp only [casePort, portNum, decimal_concat]
  apply BitVec.eq_of_toNat_eq
  simp [Nat.add_mod, Nat.mul_mod]

theorem span_eq_ofText {n e : ℕ} {x : Bytes} (h : e = n + x.length) :
    Str.span n e = Str.ofText n x := by
  simp [Str.span, Str.ofText, h]

section Kinds

variable {c : UInt8}

theorem kind_atSign : kind c = .atSign ↔ c = 64 := by
  unfold kind; split_ifs <;> simp_all

theorem kind_colon : kind c = .colon ↔ c = 58 := by
  unfold kind; split_ifs <;> simp_all

theorem kind_semicolon : kind c = .semicolon ↔ c = 59 := by
  unfold kind; split_ifs <;> simp_all

theorem kind_question : kind c = .question ↔ c = 63 := by
  unfold kind; split_ifs <;> simp_all

theorem kind_lbracket : kind c = .lbracket ↔ c = 91 := by
  unfold kind; split_ifs <;> simp_all

theorem kind_rbracket : kind c = .rbracket ↔ c = 93 := by
  unfold kind; split_ifs <;> simp_all

end Kinds

/-- A byte that neither separates parts of a URI nor ends a user part. -/
def inside (c : UInt8) : Bool :=
  c != 64 && c != 58 && c != 59 && c != 63

/-- A host as the automaton delimits it: an IPv6 reference, or a first byte
and bytes that do not separate parts. -/
inductive HostText : Bytes → Prop
  | reference {b : Bytes} (hb : ∀ x ∈ b, x ∉ ([93, 64, 59, 63] : Bytes)) :
      HostText (91 :: (b ++ [93]))
  | name {c : UInt8} {t : Bytes} (hc : c ≠ 91)
      (ht : ∀ x ∈ t, inside x = true) : HostText (c :: t)

/-- The host behind the user part `pre`.  Without a user part the first byte
is not looked at. -/
structure HostPart (pre host : Bytes) : Prop where
  text : HostText host
  head : pre ≠ [] → ∀ c ∈ host.head?, c ∉ ([64, 59, 63] : Bytes)

/-- The user and the password in the text `x` before the `@`. -/
inductive Credentials (n : ℕ) (uri : Parts) : Bytes → Prop
  | user {x : Bytes} (huser : uri.user = Str.ofText n x)
      (hpasswd : uri.passwd = {}) : Credentials n uri x
  | passwd {u w : Bytes} (huser : uri.user = Str.ofText n u)
      (hpasswd : uri.passwd = Str.ofText (n + (u.length + 1)) w) :
      Credentials n uri (u ++ 58 :: w)

/-- The text `pre` before the host, and the digits `stale` that are left in
`port_no` from it. -/
inductive UserPart (n secure : ℕ) (uri : Parts) : Bytes → Bytes → Prop
  | absent (huser : uri.user = {}) (hpasswd : uri.passwd = {})
      (hsecure : uri.secure = secure) : UserPart n secure uri [] []
  | present {x : Bytes} (hne : x ≠ []) (hat : (64 : UInt8) ∉ x.tail)
      (hsecure : uri.secure = secureBehind secure x)
      (hcred : Credentials n uri x) :
      UserPart n secure uri (x ++ [64]) (leadingPort x)

/-- The text `t` of the port behind the host, which starts at `n`. -/
inductive PortPart (n : ℕ) (uri : Parts) (stale : Bytes) : Bytes → Prop
  | absent (hport : uri.port = {}) : PortPart n uri stale []
  | present {ds : Bytes} (hds : ∀ x ∈ ds, isDigit x = true)
      (hport : uri.port = Str.ofText (n + 1) ds)
      (hnum : uri.portNo = (portNum (stale ++ ds)).setWidth 16) :
      PortPart n uri stale (58 :: ds)

/-- The text `t` of the parameters, which starts at `n`. -/
inductive ParamsPart (n : ℕ) (uri : Parts) : Bytes → Prop
  | absent (hparams : uri.params = {}) : ParamsPart n uri []
  | present {y : Bytes} (hat : (64 : UInt8) ∉ y)
      (hparams : uri.params = Str.ofText (n + 1) y) :
      ParamsPart n uri (59 :: y)

/-- The text `t` of the headers, which starts at `n`. -/
inductive HeadersPart (n : ℕ) (uri : Parts) : Bytes → Prop
  | absent (hheaders : uri.headers = {}) : HeadersPart n uri []
  | present {z : Bytes} (hat : (64 : UInt8) ∉ z)
      (hheaders : uri.headers = Str.ofText (n + 1) z) :
      HeadersPart n uri (63 :: z)

/-- User part, host and port of a URI. -/
structure Front (n secure : ℕ) (uri : Parts) (pre stale host t : Bytes) :
    Prop where
  userPart : UserPart n secure uri pre stale
  hostPart : HostPart pre host
  hostStr : uri.host = Str.ofText (n + pre.length) host
  port : PortPart (n + pre.length + host.length) uri stale t

/-- The text behind the scheme of a URI, cut as the fields say. -/
structure Cut (n secure : ℕ) (uri : Parts)
    (pre stale host t ps hs : Bytes) : Prop where
  front : Front n secure uri pre stale host t
  params : ParamsPart (n + pre.length + host.length + t.length) uri ps
  headers :
    HeadersPart (n + pre.length + host.length + t.length + ps.length) uri hs

section Text

variable {host t v x ds : Bytes} {c : UInt8}

theorem inside_iff : inside c = true ↔ c ∉ ([64, 58, 59, 63] : Bytes) := by
  simp [inside, and_assoc]

theorem endsHost_of_inside (h : inside c = true) : endsHost c = false := by
  rw [inside_iff] at h
  simp_all [endsHost]

theorem HostText.ne_nil (h : HostText host) : host ≠ [] := by
  cases h <;> simp

theorem HostText.afterHost_append (h : HostText host)
    (hv : ∀ d ∈ v.head?, endsHost d = true) : afterHost (host ++ v) = v := by
  cases h with
  | reference hb =>
    rename_i b
    have hskip : ∀ x ∈ b, (x != 93) = true := by
      intro x hx
      have := hb x hx
      simp_all
    simp [afterHost, List.dropWhile_append_of_pos hskip]
  | name hc ht =>
    have hskip := fun x hx => congrArg not (endsHost_of_inside (ht x hx))
    simp only [List.cons_append, afterHost, if_neg hc]
    rw [List.dropWhile_append_of_pos (by simpa using hskip)]
    cases v with
    | nil => rfl
    | cons d r => simp [hv d (by simp)]

theorem HostText.at_notMem (h : HostText host) : (64 : UInt8) ∉ host.tail := by
  cases h with
  | reference hb =>
    intro hmem
    rcases List.mem_append.mp hmem with hmem | hmem
    · exact hb _ hmem (by simp)
    · simp at hmem
  | name hc ht =>
    intro hmem
    have := ht _ hmem
    simp [inside] at this

end Text

/-!
## The shape of what was read, in each phase

While the automaton reads, some of the parts are complete and the last one is
not.  The `port_no` digits and the place of a `:` are kept for the case that
all of it turns out to be the user part.
-/

/-- Nothing is known of the host yet. -/
structure HostShape (n secure : ℕ) (f : Fields) (pre stale : Bytes) :
    Prop where
  userPart : UserPart n secure f.uri pre stale
  port : f.uri.port = {}
  params : f.uri.params = {}
  headers : f.uri.headers = {}
  portNo : f.portNo = portNum stale
  noUser : f.foundUser = false → pre = [] ∧ f.pass = none
  s : f.s = n + pre.length

/-- The host was found, and the digits `w` of a port behind it. -/
structure PortShape (n secure : ℕ) (f : Fields)
    (pre stale host w : Bytes) : Prop where
  userPart : UserPart n secure f.uri pre stale
  hostPart : HostPart pre host
  hostStr : f.uri.host = Str.ofText (n + pre.length) host
  params : f.uri.params = {}
  headers : f.uri.headers = {}
  portNo : f.portNo = portNum (stale ++ w)
  digits : ∀ x ∈ w, isDigit x = true
  noUser : f.foundUser = false →
    pre = [] ∧ f.pass = none ∧ host.head? = some 91
  s : f.s = n + pre.length + host.length + 1

/-- What is kept for the case that the text so far is the user part. -/
structure Pending (n : ℕ) (f : Fields) (done pre host t : Bytes) : Prop where
  pre : pre = []
  portNo : f.portNo = portNum (if host.head? = some 91 then t.tail else [])
  pass : ∀ q, f.pass = some q →
    ∃ u w, done = u ++ 58 :: w ∧ q = n + u.length

/-- In the parameters `y`. -/
structure ParamShape (n secure : ℕ) (f : Fields)
    (done pre stale host t y : Bytes) : Prop where
  front : Front n secure f.uri pre stale host t
  params : f.uri.params = {}
  headers : f.uri.headers = {}
  at_notMem : (64 : UInt8) ∉ y
  pending : f.foundUser = false → Pending n f done pre host t
  s : f.s = n + pre.length + host.length + t.length + 1

/-- In the headers `z`. -/
structure HeadersShape (n secure : ℕ) (f : Fields)
    (done pre stale host t ps z : Bytes) : Prop where
  front : Front n secure f.uri pre stale host t
  params : ParamsPart (n + pre.length + host.length + t.length) f.uri ps
  headers : f.uri.headers = {}
  at_notMem : (64 : UInt8) ∉ z
  pending : f.foundUser = false → Pending n f done pre host t
  s : f.s = n + pre.length + host.length + t.length + ps.length + 1

/-- No `@` and no host was found yet. -/
structure Fresh (f : Fields) (portNo : BitVec 32) (s : ℕ) (uri : Parts) :
    Prop where
  pass : f.pass = none
  foundUser : f.foundUser = false
  portNo : f.portNo = portNo
  s : f.s = s
  uri : f.uri = uri

/-- A user or host that does not start with a bracket. -/
def UserText (h : Bytes) : Prop :=
  HostText h ∧ h.head? ≠ some 91

/-- The text `done` that was read from `n` on, in each phase. -/
def Shape (n secure : ℕ) (done : Bytes) (f : Fields) : Prop :=
  match f.phase with
  | .init => done = [] ∧ Fresh f 0 n { secure := secure }
  | .user => UserText done ∧ Fresh f 0 n { secure := secure }
  | .password =>
    ∃ h w, done = h ++ 58 :: w ∧ UserText h ∧ (∀ x ∈ w, isDigit x = true) ∧
      Fresh f (portNum w) (n + h.length + 1)
        { user := Str.ofText n h, secure := secure }
  | .passwordAlpha =>
    ∃ h w, done = h ++ 58 :: w ∧ UserText h ∧ (∀ x ∈ w, inside x = true) ∧
      Fresh f 0 (n + h.length + 1)
        { user := Str.ofText n h, secure := secure }
  | .host => ∃ stale, done ≠ [] ∧ HostShape n secure f done stale
  | .hostP =>
    ∃ pre stale c t, done = pre ++ c :: t ∧ pre ≠ [] ∧
      c ∉ ([91, 64, 59, 63] : Bytes) ∧ (∀ x ∈ t, inside x = true) ∧
      HostShape n secure f pre stale
  | .host6P =>
    ∃ pre stale b, done = pre ++ 91 :: b ∧ (∀ x ∈ b, x ∉ ([93, 64, 59, 63] : Bytes)) ∧
      HostShape n secure f pre stale
  | .host6End =>
    ∃ pre stale b, done = pre ++ 91 :: (b ++ [93]) ∧ (∀ x ∈ b, x ∉ ([93, 64, 59, 63] : Bytes)) ∧
      HostShape n secure f pre stale
  | .port =>
    ∃ pre stale host w, done = pre ++ host ++ 58 :: w ∧ PortShape n secure f pre stale host w
  | .param =>
    ∃ pre stale host t y, done = pre ++ host ++ t ++ 59 :: y ∧
      ParamShape n secure f done pre stale host t y
  | .headers =>
    ∃ pre stale host t ps z, done = pre ++ host ++ t ++ ps ++ 63 :: z ∧
      HeadersShape n secure f done pre stale host t ps z

section Facts

variable {n secure : ℕ} {uri : Parts} {f : Fields} {c : UInt8}
variable {done pre stale host t v w x : Bytes}

theorem UserPart.stale_nil (h : UserPart n secure uri [] stale) : stale = [] := by
  generalize hpre : ([] : Bytes) = pre at h
  cases h with
  | absent => rfl
  | present => simp at hpre

theorem UserPart.congr {uri' : Parts} (h : UserPart n secure uri pre stale)
    (huser : uri'.user = uri.user) (hpasswd : uri'.passwd = uri.passwd)
    (hsecure : uri'.secure = uri.secure) :
    UserPart n secure uri' pre stale := by
  cases h with
  | absent h₁ h₂ h₃ =>
    exact UserPart.absent (huser.trans h₁) (hpasswd.trans h₂) (hsecure.trans h₃)
  | present hne hat hsec hcred =>
    refine UserPart.present hne hat (hsecure.trans hsec) ?_
    cases hcred with
    | user h₁ h₂ =>
      exact Credentials.user (huser.trans h₁) (hpasswd.trans h₂)
    | passwd h₁ h₂ =>
      exact Credentials.passwd (huser.trans h₁) (hpasswd.trans h₂)

theorem PortPart.tail_digits (h : PortPart n uri stale t) :
    t = [] ∨ ∃ ds, t = 58 :: ds ∧ ∀ x ∈ ds, isDigit x = true := by
  cases h with
  | absent => exact Or.inl rfl
  | present hds => exact Or.inr ⟨_, rfl, hds⟩

theorem PortPart.congr {uri' : Parts} (h : PortPart n uri stale t)
    (hport : uri'.port = uri.port) (hnum : uri'.portNo = uri.portNo) :
    PortPart n uri' stale t := by
  cases h with
  | absent h₁ => exact PortPart.absent (hport.trans h₁)
  | present hds h₁ h₂ =>
    exact PortPart.present hds (hport.trans h₁) (hnum.trans h₂)

theorem ParamsPart.tail (h : ParamsPart n uri v) (hw : (64 : UInt8) ∉ w) :
    (∃ d r, v ++ 63 :: w = d :: r ∧ (d = 59 ∨ d = 63)) ∧ (64 : UInt8) ∉ v ++ 63 :: w := by
  cases h with
  | absent => exact ⟨⟨63, w, rfl, Or.inr rfl⟩, by simp [hw]⟩
  | present hat => exact ⟨⟨59, _, rfl, Or.inl rfl⟩, by simp [hw, hat]⟩

theorem ParamsPart.congr {uri' : Parts} (h : ParamsPart n uri v)
    (hparams : uri'.params = uri.params) : ParamsPart n uri' v := by
  cases h with
  | absent h₁ => exact ParamsPart.absent (hparams.trans h₁)
  | present hat h₁ => exact ParamsPart.present hat (hparams.trans h₁)

theorem isDigit_ne {c d : UInt8} (h : isDigit c = true) (hd : isDigit d = false) : c ≠ d := by
  rintro rfl
  simp [h] at hd

/-- The digits of the port are found again behind the host. -/
theorem portDigits_cut (hhost : HostText host)
    (ht : t = [] ∨ ∃ ds, t = 58 :: ds ∧ ∀ x ∈ ds, isDigit x = true)
    (hv : ∀ d ∈ v.head?, d = 59 ∨ d = 63) :
    portDigits (host ++ t ++ v) = t.tail := by
  have hstop : ∀ d ∈ v.head?, endsHost d = true ∧ isDigit d = false ∧ d ≠ 58 := by
    intro d hd
    rcases hv d hd with rfl | rfl <;> decide
  have hends : ∀ d ∈ (t ++ v).head?, endsHost d = true := by
    intro d hd
    rcases ht with rfl | ⟨ds, rfl, -⟩
    · exact (hstop d hd).1
    · simp only [List.cons_append, List.head?_cons, Option.mem_some_iff] at hd
      subst hd
      decide
  rw [portDigits, List.append_assoc, hhost.afterHost_append hends]
  rcases ht with rfl | ⟨ds, rfl, hds⟩
  · rw [List.nil_append, if_neg]
    · rfl
    · intro hhead
      exact (hstop 58 hhead).2.2 rfl
  · rw [if_pos (by rfl)]
    change (ds ++ v).takeWhile isDigit = ds
    rw [List.takeWhile_append_of_pos hds]
    cases v with
    | nil => simp
    | cons d v =>
      rw [List.takeWhile_cons_of_neg (by simp [(hstop d rfl).2.1])]
      simp

/-- The text up to an `@` becomes the user part. -/
theorem Front.atUser (h : Front n secure f.uri pre stale host t)
    (hpending : Pending n f done pre host t)
    (hdone : done = pre ++ host ++ t ++ v)
    (hv : ∃ d r, v = d :: r ∧ (d = 59 ∨ d = 63)) (hat : (64 : UInt8) ∉ v) :
    HostShape n secure (f.atUser (n + done.length)) (done ++ [64]) (leadingPort done) := by
  obtain ⟨d, r, rfl, hd⟩ := hv
  obtain rfl := hpending.pre
  rw [List.nil_append] at hdone
  have hhost := h.hostPart.text
  have hstr : f.uri.host = Str.ofText n host := by simpa using h.hostStr
  have htail : done.tail = host.tail ++ t ++ d :: r := by
    rw [hdone, List.append_assoc, List.tail_append_of_ne_nil hhost.ne_nil, List.append_assoc]
  have hport : (64 : UInt8) ∉ t := by
    rcases h.port.tail_digits with rfl | ⟨ds, rfl, hds⟩
    · simp
    · rintro (_ | ⟨_, hmem⟩)
      exact isDigit_ne (hds _ hmem) (by decide : isDigit 64 = false) rfl
  have hlead : leadingPort done =
      if host.head? = some 91 then t.tail else [] := by
    have hhead : done.head? = host.head? := by
      rw [hdone, List.append_assoc, List.head?_append_of_ne_nil _ hhost.ne_nil]
    rw [leadingPort, hhead, hdone, portDigits_cut hhost h.port.tail_digits (by simpa using hd)]
  constructor
  · apply UserPart.present
    · rw [hdone]
      simp [hhost.ne_nil]
    · rw [htail]
      simp only [List.mem_append, not_or]
      exact ⟨⟨hhost.at_notMem, hport⟩, hat⟩
    · have hmem : 59 ∈ done.tail ∨ 63 ∈ done.tail := by
        rw [htail]
        rcases hd with rfl | rfl <;> simp
      simp [secureBehind, hmem, Fields.atUser]
    · cases hpass : f.pass with
      | none =>
        apply Credentials.user
        · simp [Fields.atUser, hpass, hstr, Str.ofText]
        · simp [Fields.atUser, hpass]
      | some q =>
        obtain ⟨u, w, hu, rfl⟩ := hpending.pass q hpass
        rw [hu]
        apply Credentials.passwd
        · simp [Fields.atUser, hpass, hstr, Str.ofText]
        · simp only [Fields.atUser, hpass]
          exact span_eq_ofText (by simp; omega)
  · rfl
  · rfl
  · rfl
  · rw [hlead]
    exact hpending.portNo
  · intro hfound
    cases hfound
  · simp [Fields.atUser]
    omega

end Facts

end Msicp.Parser
