import Msicp.Avp.Search
import Msicp.Headers.ParseHeaders
import Msicp.Support.FoldedWords
import Mathlib.Data.List.Find

/-!
# The first line of a message: `parse_first_line`

Pointers are offsets into the buffer, whose length is that of the list.
-/

namespace Msicp.Fline

open Msicp.Support
open Msicp.Headers (Span)
open Msicp.Avp (tolower sameName strncasecmp)

/-- The type of a message: `SIP_INVALID`, `SIP_REQUEST`, `SIP_REPLY`. -/
inductive MsgType
  | invalid
  | request
  | reply
  deriving DecidableEq

/-- The number of a method, `enum request_method`. -/
inductive MethodId
  | invite
  | cancel
  | ack
  | bye
  | other
  deriving DecidableEq

/-- `METHOD_INVITE` and so on. -/
def MethodId.val : MethodId → ℕ
  | .invite => 1
  | .cancel => 2
  | .ack => 4
  | .bye => 8
  | .other => 16

/-- `struct msg_start`.  The union has the same places for requests and
replies: `method` is the version of a reply, `uri` its status, `version` its
reason and `methodValue` its status code. -/
structure MsgStart where
  type : MsgType
  len : ℕ
  method : Span
  uri : Span
  version : Span
  methodValue : ℕ
  deriving DecidableEq

/-- A space or a tab. -/
def isBlank (c : UInt8) : Bool := c = 32 ∨ c = 9

/-- The end of a line. -/
def isEol (c : UInt8) : Bool := c = 13 ∨ c = 10

/-- What belongs to a token. -/
def isToken (c : UInt8) : Bool := !isBlank c && !isEol c

/-- `for (; p < pend && f(*p); p++);` -/
def eatWhile (f : UInt8 → Bool) (buf : Bytes) (p : ℕ) : ℕ :=
  p + ((buf.drop p).takeWhile f).length

def eatSpaceEnd (buf : Bytes) (p : ℕ) : ℕ := eatWhile isBlank buf p

def eatTokenEnd (buf : Bytes) (p : ℕ) : ℕ := eatWhile isToken buf p

def eatToken2End (buf : Bytes) (p : ℕ) (delim : UInt8) : ℕ :=
  eatWhile (fun c => c ≠ delim && c ≠ 10 && c ≠ 13) buf p

def isEmptyEnd (buf : Bytes) (p : ℕ) : Bool :=
  (buf[eatSpaceEnd buf p]?).any isEol

def eatLine (buf : Bytes) (p : ℕ) : ℕ :=
  if (10 : UInt8) ∈ buf.drop p then
    let nl := p + (buf.drop p).idxOf 10
    let nl := if nl + 1 < buf.length then nl + 1 else nl
    if nl + 1 < buf.length ∧ buf[nl]? = some 13 then nl + 1 else nl
  else buf.length

/-- The test of `IFISMETHOD`, and of the reply: the token at the start, of
which the first letter is compared in both cases, with a space behind it. -/
def isFirst (buf name : Bytes) : Bool :=
  (buf.head? = name.head? || buf.head? = name.head?.map (· ||| 32)) &&
    strncasecmp ((buf.drop 1).take (name.length - 1)) (name.drop 1) &&
    buf[name.length]? = some 32

def sipVersion : Bytes := ascii "SIP/2.0"

/-- The methods that are known, with their numbers. -/
def knownMethods : List (Bytes × MethodId) := [
  (ascii "INVITE", .invite), (ascii "CANCEL", .cancel), (ascii "ACK", .ack),
  (ascii "BYE", .bye)]

/-- The first token: what is known of the message then, and the offset behind
the token. -/
def firstToken (buf : Bytes) (fl : MsgStart) : Option (MsgStart × ℕ) :=
  if isFirst buf sipVersion then
    some ({ fl with
      type := .reply
      method := { fl.method with len := sipVersion.length } },
      sipVersion.length)
  else
    match knownMethods.find? fun m => isFirst buf m.1 with
    | some (name, id) =>
      some ({ fl with
        type := .request
        method := { fl.method with len := name.length }
        methodValue := id.val }, name.length)
    | none =>
      let tmp := eatTokenEnd buf 0
      if tmp = 0 ∨ buf.length ≤ tmp then none
      else if buf[tmp]? ≠ some 32 then none
      else
        some ({ fl with
          type := .request
          methodValue := MethodId.other.val
          method := { fl.method with len := tmp } }, tmp)

/-- `error1`: the line is skipped. -/
def flError (buf : Bytes) (fl : MsgStart) : MsgStart × ℕ :=
  ({ fl with type := .invalid }, eatLine buf 0)

/-- The status code of three digits. -/
def statusCode (buf : Bytes) (p : ℕ) : Option ℕ :=
  match buf[p]?, buf[p + 1]?, buf[p + 2]? with
  | some s1, some s2, some s3 =>
    if 48 ≤ s1 ∧ s1 ≤ 57 ∧ 48 ≤ s2 ∧ s2 ≤ 57 ∧ 48 ≤ s3 ∧ s3 ≤ 57 then
      some ((s1.toNat - 48) * 100 + 10 * (s2.toNat - 48) + (s3.toNat - 48))
    else none
  | _, _, _ => none

/-- The end of the third part, a version or a reason. -/
def thirdEnd (buf : Bytes) (type : MsgType) (third : ℕ) : Option ℕ :=
  if type = .request then
    let tmp := eatTokenEnd buf third
    if tmp = third ∨ buf.length ≤ tmp then none
    else if !isEmptyEnd buf tmp then none
    else some tmp
  else
    let tmp := eatToken2End buf third 13
    if buf.length ≤ tmp then none else some tmp

/-- `parse_first_line`, with the pointer that it returns. -/
def parseFirstLine (buf : Bytes) (fl : MsgStart) : MsgStart × ℕ :=
  if buf.length ≤ 16 then flError buf fl
  else
    match firstToken buf fl with
    | none => flError buf fl
    | some (fl, tmp) =>
      let fl := { fl with method := { fl.method with s := 0 } }
      let second := tmp + 1
      let tmp := eatTokenEnd buf second
      if buf.length ≤ tmp then flError buf fl
      else
        let third := eatSpaceEnd buf tmp
        if third = tmp ∨ buf.length ≤ tmp then flError buf fl
        else
          let fl := { fl with uri := ⟨second, tmp - second⟩ }
          let code := statusCode buf second
          if fl.type = .reply ∧ (fl.uri.len ≠ 3 ∨ code = none) then
            flError buf fl
          else
            let fl := { fl with
              methodValue := if fl.type = .reply then code.getD 0
                else fl.methodValue }
            match thirdEnd buf fl.type third with
            | none => flError buf fl
            | some tmp =>
              let nl := eatLine buf tmp
              if buf.length ≤ nl then flError buf fl
              else
                ({ fl with version := ⟨third, tmp - third⟩, len := nl }, nl)

/-!
## The lines that `parse_first_line` accepts

Between the second and the third part of an accepted line there may be any
blanks, and behind the version of a request as well; the line ends at the next
line feed, whatever stands before that.
-/

/-- A text without blanks and line ends. -/
def Token (s : Bytes) : Prop := ∀ c ∈ s, isToken c = true

/-- A text of spaces and tabs. -/
def Blanks (s : Bytes) : Prop := ∀ c ∈ s, isBlank c = true

/-- The number of the method that `parse_first_line` knows a token by. -/
def methodOf (token : Bytes) : MethodId :=
  match knownMethods.find? fun m => sameName m.1 token with
  | some m => m.2
  | none => .other

/-- A request line. -/
structure LooseRequest (buf method uri blanks version pad : Bytes) (e : UInt8)
    (tail : Bytes) : Prop where
  eq : buf = method ++ 32 :: (uri ++ (blanks ++ (version ++ (pad ++ e :: tail))))
  method_ne : method ≠ []
  method_token : Token method
  not_version : ¬sameName sipVersion method
  uri_token : Token uri
  blanks_ne : blanks ≠ []
  blanks_blank : Blanks blanks
  version_ne : version ≠ []
  version_token : Token version
  pad_blank : Blanks pad
  eol : isEol e = true
  lf : (10 : UInt8) ∈ e :: tail

/-- A status line. -/
structure LooseReply (buf version : Bytes) (d1 d2 d3 : UInt8)
    (blanks reason : Bytes) (e : UInt8) (tail : Bytes) : Prop where
  eq : buf = version ++ 32 :: ([d1, d2, d3] ++ (blanks ++ (reason ++ e :: tail)))
  version_same : sameName sipVersion version
  digits : ∀ d ∈ [d1, d2, d3], 48 ≤ d ∧ d ≤ 57
  blanks_ne : blanks ≠ []
  blanks_blank : Blanks blanks
  reason_line : ∀ c ∈ reason, isEol c = false
  reason_head : ∀ c ∈ reason.head?, isBlank c = false
  eol : isEol e = true
  lf : (10 : UInt8) ∈ e :: tail

/-! ## Scanning -/

section Scan

variable {f : UInt8 → Bool} {buf a token rest : Bytes} {c : UInt8} {p : ℕ}

theorem eatWhile_append (hbuf : buf = a ++ (token ++ c :: rest))
    (htoken : ∀ x ∈ token, f x = true) (hc : f c = false) :
    eatWhile f buf a.length = a.length + token.length := by
  rw [eatWhile, hbuf, List.drop_left, takeWhile_token htoken hc]

/-- What has been scanned, and what stops the scan. -/
theorem eatWhile_cut (f : UInt8 → Bool) (buf : Bytes) (p : ℕ) :
    ∃ token, buf.drop p = token ++ buf.drop (eatWhile f buf p) ∧
      eatWhile f buf p = p + token.length ∧ (∀ x ∈ token, f x = true) ∧
      ∀ c ∈ (buf.drop (eatWhile f buf p)).head?, f c = false := by
  have hsplit := @List.takeWhile_append_dropWhile _ f (buf.drop p)
  have hdrop : buf.drop (eatWhile f buf p) = (buf.drop p).dropWhile f := by
    have h := @List.drop_left _ ((buf.drop p).takeWhile f) ((buf.drop p).dropWhile f)
    rwa [hsplit, List.drop_drop] at h
  refine ⟨(buf.drop p).takeWhile f, ?_, rfl, fun x hx => List.mem_takeWhile_imp hx, ?_⟩
  · rw [hdrop, hsplit]
  · intro c hc
    rw [hdrop] at hc
    have hne : (buf.drop p).dropWhile f ≠ [] := by
      rintro hnil
      simp [hnil] at hc
    have hhead := List.head_dropWhile_not f hne
    rw [List.head?_eq_some_head hne] at hc
    rwa [Option.some.inj hc] at hhead

theorem drop_eq_cons (hp : p < buf.length) : ∃ c rest, buf.drop p = c :: rest := by
  cases h : buf.drop p with
  | nil =>
    rw [List.drop_eq_nil_iff] at h
    omega
  | cons c rest => exact ⟨c, rest, rfl⟩

theorem eatLine_lt_iff : eatLine buf p < buf.length ↔ (10 : UInt8) ∈ buf.drop p := by
  unfold eatLine
  split
  · rename_i hlf
    have hidx := List.idxOf_lt_length_of_mem hlf
    rw [List.length_drop] at hidx
    simp only [hlf, iff_true]
    split_ifs <;> omega
  · simpa using ‹_›

/-- The line is skipped up to its line feed; a carriage return behind that is
skipped as well, unless it is the last byte of the buffer. -/
theorem eatLine_append (hbuf : buf = a ++ (token ++ 10 :: rest)) (htoken : (10 : UInt8) ∉ token) :
    eatLine buf a.length =
      if rest = [] then a.length + token.length
      else if rest.head? = some 13 ∧ 2 ≤ rest.length then
        a.length + token.length + 2
      else a.length + token.length + 1 := by
  have hdrop : buf.drop a.length = token ++ 10 :: rest := by
    rw [hbuf, List.drop_left]
  have hidx : (token ++ 10 :: rest).idxOf 10 = token.length := by
    rw [List.idxOf_append_of_notMem htoken, List.idxOf_cons_self, Nat.add_zero]
  have hlen : buf.length = a.length + token.length + 1 + rest.length := by
    rw [hbuf]
    simp only [List.length_append, List.length_cons]
    omega
  have hget : buf[a.length + token.length + 1]? = rest.head? := by
    rw [hbuf, show a ++ (token ++ 10 :: rest) = (a ++ token ++ [10]) ++ rest by
      simp, List.getElem?_append_right (by simp; omega)]
    simp [List.head?_eq_getElem?, Nat.add_assoc]
  rw [eatLine, hdrop, if_pos (by simp), hidx]
  cases rest with
  | nil =>
    rw [if_pos rfl]
    simp [hlen]
  | cons c rest =>
    have hlt : a.length + token.length + 1 < buf.length := by
      rw [hlen, List.length_cons]
      omega
    simp only [hlt, if_true, hget, List.head?_cons, reduceCtorEq, if_false, List.length_cons]
    have hmore : a.length + token.length + 1 + 1 < buf.length ↔ 2 ≤ rest.length + 1 := by
      rw [hlen, List.length_cons]
      omega
    simp only [hmore, and_comm]

end Scan

/-! ## The first token -/

section First

variable {buf name first rest : Bytes} {fl : MsgStart}

/-- A name that `parse_first_line` compares the first token with. -/
def KnownFirst (name : Bytes) : Prop :=
  name = sipVersion ∨ ∃ m ∈ knownMethods, name = m.1

theorem strncasecmp_iff_sameName {a b : Bytes} (hlen : a.length = b.length)
    (hb : (0 : UInt8) ∉ b) : strncasecmp a b = true ↔ sameName a b := by
  induction a generalizing b with
  | nil =>
    obtain rfl : b = [] := List.length_eq_zero_iff.mp hlen.symm
    simp [strncasecmp, sameName]
  | cons x a ih =>
    cases b with
    | nil => cases hlen
    | cons y b =>
      rw [List.mem_cons, not_or] at hb
      have hrest := ih (Nat.succ.inj hlen) hb.2
      rw [strncasecmp]
      by_cases hxy : tolower x = tolower y
      · have hx : x ≠ 0 := fun h0 =>
          hb.1 ((Avp.eq_zero_iff hxy).mp h0).symm
        rw [if_pos hxy, if_neg hx, hrest]
        simp [sameName, hxy]
      · rw [if_neg hxy]
        simp [sameName, hxy]

theorem KnownFirst.facts (h : KnownFirst name) :
    ∃ l t, name = l :: t ∧ (0 : UInt8) ∉ t ∧ Token name ∧
      ∀ c, tolower l = tolower c ↔ c = l ∨ c = l ||| 32 := by
  have hfacts : ∀ n ∈ sipVersion :: knownMethods.map (·.1),
      ∃ l t, n = l :: t ∧ (0 : UInt8) ∉ t ∧ n.all isToken = true ∧
        ∀ c, tolower l = tolower c ↔ c = l ∨ c = l ||| 32 := by
    intro n hn
    simp only [knownMethods, List.map_cons, List.map_nil, List.mem_cons,
      List.not_mem_nil, or_false] at hn
    rcases hn with rfl | rfl | rfl | rfl | rfl <;>
      exact ⟨_, _, rfl, by decide, by decide, forall_byte (by decide)⟩
  obtain ⟨l, t, hname, hzero, htoken, hfold⟩ := hfacts name (by
    rcases h with rfl | ⟨m, hm, rfl⟩
    · exact List.mem_cons_self
    · exact List.mem_cons_of_mem _ (List.mem_map_of_mem hm))
  exact ⟨l, t, hname, hzero, fun c hc => List.all_eq_true.mp htoken c hc, hfold⟩

theorem Token.of_sameName (h : Token name) (hsame : sameName name first) :
    Token first := by
  have hfold : ∀ c, isToken (tolower c) = isToken c :=
    forall_byte (by decide)
  intro c hc
  have hmem : tolower c ∈ name.map tolower := by
    rw [hsame]
    exact List.mem_map_of_mem hc
  obtain ⟨d, hd, hdc⟩ := List.mem_map.mp hmem
  rw [← hfold, ← hdc, hfold]
  exact h d hd

theorem token_eq {first' rest' : Bytes} (h : Token first) (h' : Token first')
    (heq : first ++ 32 :: rest = first' ++ 32 :: rest') :
    first = first' ∧ rest = rest' := by
  have hcut : first = first' := by
    have hleft := @takeWhile_token isToken first 32 rest h (by decide)
    rw [heq, takeWhile_token h' (by decide)] at hleft
    exact hleft.symm
  subst hcut
  exact ⟨rfl, by simpa using heq⟩

/-- The comparison takes the whole token in front of the space. -/
theorem isFirst_iff (hname : KnownFirst name) : isFirst buf name = true ↔
      ∃ first rest, buf = first ++ 32 :: rest ∧ sameName name first := by
  obtain ⟨l, t, rfl, hzero, -, hfold⟩ := hname.facts
  have hlen : (l :: t).length - 1 = t.length := rfl
  simp only [isFirst, Bool.and_eq_true, Bool.or_eq_true, decide_eq_true_eq,
    List.head?_cons, Option.map_some, List.drop_one, List.tail_cons, hlen]
  constructor
  · rintro ⟨⟨hhead, hcmp⟩, hspace⟩
    obtain ⟨c, s, rfl⟩ : ∃ c s, buf = c :: s := by
      cases buf with
      | nil => simp at hhead
      | cons c s => exact ⟨c, s, rfl⟩
    rw [List.length_cons, List.getElem?_cons_succ] at hspace
    obtain ⟨hlt, hget⟩ := List.getElem?_eq_some_iff.mp hspace
    have hsplit : s = s.take t.length ++ 32 :: s.drop (t.length + 1) := by
      rw [← hget, ← List.drop_eq_getElem_cons hlt, List.take_append_drop]
    refine ⟨c :: s.take t.length, s.drop (t.length + 1), congrArg (c :: ·) hsplit, ?_⟩
    have hlen : (s.take t.length).length = t.length := by
      rw [List.length_take]
      omega
    have htail := (strncasecmp_iff_sameName hlen hzero).mp hcmp
    have hc : tolower l = tolower c := (hfold c).mpr (by simpa using hhead)
    rw [sameName, List.map_cons, List.map_cons, hc]
    exact congrArg (tolower c :: ·) htail.symm
  · rintro ⟨first, rest, rfl, hsame⟩
    obtain ⟨c, s, rfl⟩ : ∃ c s, first = c :: s := by
      cases first with
      | nil => cases hsame
      | cons c s => exact ⟨c, s, rfl⟩
    rw [sameName, List.map_cons, List.map_cons, List.cons.injEq] at hsame
    obtain ⟨hc, htail⟩ := hsame
    have hlen : s.length = t.length := by
      simpa using congrArg List.length htail.symm
    refine ⟨⟨by simpa using (hfold c).mp hc, ?_⟩, ?_⟩
    · rw [List.cons_append, List.tail_cons, ← hlen, List.take_left]
      exact (strncasecmp_iff_sameName hlen hzero).mpr htail.symm
    · rw [List.cons_append, List.length_cons, List.getElem?_cons_succ, ← hlen,
        List.getElem?_append_right le_rfl]
      simp

theorem isFirst_token (hname : KnownFirst name)
    (hbuf : buf = first ++ 32 :: rest) (hfirst : Token first) :
    isFirst buf name = decide (sameName name first) := by
  rw [Bool.eq_iff_iff, isFirst_iff hname, decide_eq_true_eq]
  constructor
  · rintro ⟨first', rest', hbuf', hsame⟩
    obtain ⟨-, -, -, -, htoken, -⟩ := hname.facts
    rw [hbuf] at hbuf'
    obtain ⟨rfl, -⟩ := token_eq hfirst (htoken.of_sameName hsame) hbuf'
    exact hsame
  · exact fun hsame => ⟨first, rest, hbuf, hsame⟩

theorem firstToken_append (hbuf : buf = first ++ 32 :: rest)
    (hne : first ≠ []) (hfirst : Token first) :
    firstToken buf fl = some (if sameName sipVersion first then
      { fl with
        type := .reply
        method := { fl.method with len := first.length } }
      else
      { fl with
        type := .request
        method := { fl.method with len := first.length }
        methodValue := (methodOf first).val }, first.length) := by
  have hlen : ∀ {name : Bytes}, sameName name first → name.length = first.length := fun h => by
    simpa using congrArg List.length h
  have hfind : knownMethods.find? (fun m => isFirst buf m.1) =
      knownMethods.find? fun m => sameName m.1 first := by
    have hknown : ∀ m ∈ knownMethods, isFirst buf m.1 = decide (sameName m.1 first) := fun m hm =>
      isFirst_token (.inr ⟨m, hm, rfl⟩) hbuf hfirst
    exact List.find?_congr hknown
  rw [firstToken, isFirst_token (.inl rfl) hbuf hfirst, hfind, methodOf]
  by_cases hversion : sameName sipVersion first
  · simp [hversion, hlen hversion]
  · simp only [hversion, decide_false, Bool.false_eq_true, if_false]
    cases hmethod : knownMethods.find? fun m => sameName m.1 first with
    | some m =>
      have hsame : sameName m.1 first := by
        simpa using List.find?_some hmethod
      simp [hlen hsame]
    | none =>
      have hend : eatTokenEnd buf 0 = first.length := by
        have h := @eatWhile_append isToken buf [] first rest 32 hbuf hfirst (by decide)
        simpa [eatTokenEnd] using h
      have hpos : first.length ≠ 0 := by
        simpa [List.length_eq_zero_iff] using hne
      have hlt : first.length < buf.length := by
        rw [hbuf]
        simp
      have hget : buf[first.length]? = some 32 := by
        rw [hbuf, List.getElem?_append_right le_rfl]
        simp
      simp only [hend, hget]
      rw [if_neg (by omega), if_neg (by simp)]

/-- Without a token and a space behind it there is no first token. -/
theorem firstToken_some {r : MsgStart × ℕ} (h : firstToken buf fl = some r) :
    ∃ first rest, buf = first ++ 32 :: rest ∧ first ≠ [] ∧ Token first := by
  have hknown : ∀ {name}, KnownFirst name → isFirst buf name = true →
      ∃ first rest, buf = first ++ 32 :: rest ∧ first ≠ [] ∧ Token first := by
    intro name hname hfirst
    obtain ⟨first, rest, hbuf, hsame⟩ := (isFirst_iff hname).mp hfirst
    obtain ⟨l, t, rfl, -, htoken, -⟩ := hname.facts
    refine ⟨first, rest, hbuf, ?_, htoken.of_sameName hsame⟩
    rintro rfl
    cases hsame
  rw [firstToken] at h
  by_cases hversion : isFirst buf sipVersion = true
  · exact hknown (.inl rfl) hversion
  · rw [if_neg hversion] at h
    cases hfind : knownMethods.find? fun m => isFirst buf m.1 with
    | some m =>
      exact hknown (.inr ⟨m, List.mem_of_find?_eq_some hfind, rfl⟩)
        (by simpa using List.find?_some hfind)
    | none =>
      obtain ⟨token, hcut, hend, htoken, -⟩ := eatWhile_cut isToken buf 0
      rw [hfind] at h
      have hend' : eatTokenEnd buf 0 = token.length := by
        rw [eatTokenEnd, hend, Nat.zero_add]
      rw [hend, Nat.zero_add] at hcut
      simp only [hend'] at h
      by_cases hempty : token.length = 0 ∨ buf.length ≤ token.length
      · rw [if_pos hempty] at h
        cases h
      rw [if_neg hempty] at h
      by_cases hspace : buf[token.length]? ≠ some 32
      · rw [if_pos hspace] at h
        cases h
      obtain ⟨hlt, hget⟩ := List.getElem?_eq_some_iff.mp (not_not.mp hspace)
      refine ⟨token, buf.drop (token.length + 1), ?_, ?_, htoken⟩
      · rw [← hget, ← List.drop_eq_getElem_cons hlt]
        simpa using hcut
      · rintro rfl
        exact hempty (.inl rfl)

end First

end Msicp.Fline
