import Msicp.Reply.BuildRes
import Mathlib.Data.List.Nodup
import Mathlib.Algebra.BigOperators.Group.List.Basic

/-!
# The two passes of `build_res_buf_from_sip_req`

Header field by header field the write pass writes what the length pass has
counted, with one exception: for a To the first pass looks at the length of the
old tag, and the second one at whether there is one.
-/

namespace Msicp.Reply

open Msicp.Support Option HdrField
open List hiding length_append
open Msicp.Dialog (crlf crlfLen sipVersion sipVersionLen contentLength contentLengthLen)

variable {req : SipReq} {code : ℕ} {text newTag : Bytes} {pieces : Pieces}
  {w w' : Writer} {h : HdrField}

/-! ## Writing a piece -/

/-- The step has written `n` bytes. -/
def Writes (x : Option Writer) (w : Writer) (n : ℤ) : Prop :=
  ∃ w', x = some w' ∧ (w'.out.length : ℤ) = w.out.length + n

@[simp] theorem length_append (s : Bytes) : (w.append s).out.length = w.out.length + s.length :=
  List.length_append

@[simp] theorem length_mark (n : ℤ) : (w.mark n).out.length = w.out.length := rfl

variable {n m : ℤ} {x : Option Writer} {env : Env}

theorem writes_appendStr {buf : Bytes} {src : ℤ} (hsrc : 0 ≤ src)
    (hn : 0 ≤ n) (hend : src + n ≤ buf.length) :
    Writes (w.appendStr buf src n) w n := by
  refine ⟨w.append ((buf.drop src.toNat).take n.toNat), ?_, ?_⟩
  · rw [Writer.appendStr, if_neg (by omega)]
  · rw [length_append, length_take, length_drop]
    omega

theorem Writes.bind {f : Writer → Option Writer}
    (hx : Writes x w n) (hf : ∀ w', Writes (f w') w' m) :
    Writes (x.bind f) w (n + m) := by
  obtain ⟨w₁, rfl, hlen₁⟩ := hx
  obtain ⟨w₂, hrun, hlen₂⟩ := hf w₁
  exact ⟨w₂, hrun, by omega⟩

theorem writes_append (s : Bytes) : Writes (some (w.append s)) w s.length :=
  ⟨w.append s, rfl, by simp⟩

theorem Writes.append (hx : Writes x w n)
    (s : Bytes) : Writes (x.bind fun w => some (w.append s)) w (n + s.length) :=
  hx.bind fun _ => writes_append s

theorem Writes.after {s : Bytes} (hx : Writes x (w.append s) n) : Writes x w (s.length + n) := by
  obtain ⟨w', hrun, hlen⟩ := hx
  refine ⟨w', hrun, ?_⟩
  rw [hlen, length_append]
  push_cast
  omega

theorem Writes.marked (hx : Writes x (w.mark n) m) : Writes x w m := hx

theorem Writes.cast (hx : Writes x w n) (hnm : n = m) : Writes x w m := hnm ▸ hx

/-! ## The header fields -/

theorem eq_of_name {h' : HdrField} (hh : h ∈ req.headers)
    (hh' : h' ∈ req.headers) (hname : h.name = h'.name) : h = h' := by
  have hnodup : (req.headers.map name).Nodup := by
    rw [List.Nodup, pairwise_map]
    refine req.ordered.imp_of_mem ?_
    intro x y hx _ hxy
    have hbody := req.bodyIn x hx
    simp only [stop, bodyEnd] at *
    omega
  exact inj_on_of_nodup_map hnodup hh hh' hname

theorem nodup_headers (req : SipReq) : req.headers.Nodup := by
  refine req.ordered.imp_of_mem ?_
  rintro x y hx _ hxy rfl
  have hbody := req.bodyIn x hx
  simp only [stop, bodyEnd] at *
  omega

/-- The bytes of the reply that come from a header field. -/
def hdrSize (req : SipReq) (code : ℕ) (newTag : Bytes) (pieces : Pieces) (h : HdrField) : ℤ :=
  match h.type with
  | .hdrTo =>
    h.len + if newTag = [] then 0
      else if req.toTag.s = none then (newTag.length : ℤ) + totagTokenLen
      else newTag.length - req.toTag.len
  | .hdrVia =>
    h.bodyEnd - h.name + crlfLen +
      if req.isVia1 h then
        lenOf pieces.received + lenOf pieces.rport - oldRport req
      else 0
  | .hdrRecordRoute => if copiesRr code then h.len else 0
  | .hdrFrom | .hdrCallId | .hdrCSeq => h.len
  | .hdrOther => 0

section

variable (hh : h ∈ req.headers)
include hh

theorem writes_hdr : Writes (w.appendStr req.buf h.name h.len) w h.len := by
  have hbody := req.bodyIn h hh
  simp only [stop] at hbody
  exact writes_appendStr (by omega) (by omega) (by omega)

theorem writes_body : Writes (w.appendStr req.buf h.name (h.bodyEnd - h.name)) w
      (h.bodyEnd - h.name) := by
  have hbody := req.bodyIn h hh
  simp only [stop, bodyEnd] at hbody ⊢
  exact writes_appendStr (by omega) (by omega) (by omega)

/-- The first Via: its old `rport` makes room for the new one. -/
theorem writes_via1 (hvia : req.isVia1 h = true) (hrport : req.rport.isSome → pieces.rport.isSome) :
    Writes (writeVia1 req pieces w h) w
      (h.bodyEnd - h.name + (lenOf pieces.received + lenOf pieces.rport - oldRport req)) := by
  obtain ⟨via, hfind, hold⟩ := req.hasVia
  obtain rfl : via = h := by
    simp only [SipReq.isVia1, hfind, any_some, decide_eq_true_eq] at hvia
    exact eq_of_name (mem_of_find?_eq_some hfind) hh hvia
  have hbody := req.bodyIn via hh
  have hplain := writes_body (w := w) hh
  unfold writeVia1 oldRport
  cases hpiece : pieces.rport with
  | none =>
    have hnone : req.rport = none := by
      by_contra hsome
      have hboth := hrport (isSome_iff_ne_none.mpr hsome)
      simp [hpiece] at hboth
    simp only [hnone]
    exact (hplain.append _).cast (by simp [lenOf])
  | some rport =>
    cases hreq : req.rport with
    | none =>
      refine (hplain.bind fun w' => Writes.after (s := rport)
        (writes_append (pieces.received.getD []))).cast ?_
      simp only [lenOf, getD_some]
      omega
    | some old =>
      obtain ⟨hlow, hhigh⟩ := hold old hreq
      simp only [stop, bodyEnd] at hbody hhigh ⊢
      have hfront : Writes (w.appendStr req.buf via.name
          (old.start - via.name - 1)) w (old.start - via.name - 1) :=
        writes_appendStr (by omega) (by omega) (by omega)
      have hback : ∀ w' : Writer, Writes (w'.appendStr req.buf (old.start + old.size)
          ((via.bodyS + via.bodyLen : ℕ) - old.start - old.size)) w'
          ((via.bodyS + via.bodyLen : ℕ) - old.start - old.size) :=
        fun w' => writes_appendStr (by omega) (by omega) (by omega)
      exact (hfront.bind fun w' =>
        ((hback (w'.append rport)).append _).after).cast (by
          simp only [lenOf, getD_some]
          push_cast
          omega)

theorem writes_to (hfirst : ∀ a, req.toTag.s = some a → req.toTag = h.tag) :
    Writes (writeTo req newTag req.toTag w h) w
      (h.len + if req.toTag.s = none then (newTag.length : ℤ) + totagTokenLen
        else newTag.length - req.toTag.len) := by
  have hbody := req.bodyIn h hh
  unfold writeTo
  cases hs : req.toTag.s with
  | none =>
    have hplain := writes_body (w := w) hh
    have hback : ∀ w' : Writer, Writes (w'.appendStr req.buf h.bodyEnd
        (h.stop - h.bodyEnd)) w' (h.stop - h.bodyEnd) :=
      fun w' => writes_appendStr (by omega) (by omega) (by omega)
    have htoken : totagToken.length = totagTokenLen := by decide
    refine (hplain.bind fun w' => Writes.after (s := totagToken) (Writes.marked (n := newTag.length)
        (Writes.after (s := newTag) (hback _)))).cast ?_
    simp only [stop, htoken, if_true]
    push_cast
    omega
  | some a =>
    have htag := hfirst a hs
    obtain ⟨hlow, hstop, hlow', hhigh⟩ := req.tagIn h hh a (htag ▸ hs)
    rw [← htag] at hlow' hhigh
    have hfront : Writes (w.appendStr req.buf h.name (a - h.name)) w
        (a - h.name) := writes_appendStr (by omega) (by omega) (by omega)
    have hback : ∀ w' : Writer, Writes (w'.appendStr req.buf
        (a + req.toTag.len) (h.stop - (a + req.toTag.len))) w'
        (h.stop - (a + req.toTag.len)) :=
      fun w' => writes_appendStr (by omega) (by omega) (by omega)
    refine (hfront.bind fun w' => Writes.marked (n := newTag.length)
      (Writes.after (s := newTag) (hback _))).cast ?_
    simp only [stop, reduceCtorEq, if_false]
    push_cast
    omega

/-- A header field, unless it is a To that would get the tag of another. -/
theorem writes_writeHdr (hrport : req.rport.isSome → pieces.rport.isSome)
    (hfirst : h.type = .hdrTo → newTag ≠ [] → ∀ a, req.toTag.s = some a → req.toTag = h.tag) :
    Writes (writeHdr req code newTag pieces w h) w (hdrSize req code newTag pieces h) := by
  have hwhole : ∀ w' : Writer, Writes (w'.appendStr req.buf h.name h.len) w' h.len :=
    fun w' => writes_hdr hh
  have hnothing : Writes (some w) w 0 := ⟨w, rfl, by simp⟩
  unfold writeHdr hdrSize
  cases htype : h.type with
  | hdrTo =>
    by_cases hnew : newTag = []
    · simp only [hnew, ne_eq, not_true_eq_false, if_false, if_true, add_zero]
      cases htag : h.tag.s with
      | none => exact hwhole w
      | some s => exact hwhole _
    · simp only [ne_eq, hnew, not_false_eq_true, if_true, if_false]
      exact writes_to hh (hfirst htype hnew)
  | hdrVia =>
    have hcrlf : crlf.length = crlfLen := by decide
    cases hvia : req.isVia1 h with
    | true =>
      simp only [if_true]
      refine ((writes_via1 hh hvia hrport).append crlf).cast ?_
      rw [hcrlf]
      omega
    | false =>
      simp only [Bool.false_eq_true, if_false]
      refine ((writes_body hh).append crlf).cast ?_
      rw [hcrlf]
      omega
  | hdrRecordRoute =>
    cases hcode : copiesRr code with
    | true => exact hwhole w
    | false => exact hnothing
  | hdrFrom => exact hwhole w
  | hdrCallId => exact hwhole w
  | hdrCSeq => exact hwhole w
  | hdrOther => exact hnothing

end

theorem writes_foldlM {f : Writer → HdrField → Option Writer}
    {size : HdrField → ℤ} {l : List HdrField}
    (hl : ∀ h ∈ l, ∀ w, Writes (f w h) w (size h)) (w : Writer) :
    Writes (l.foldlM f w) w (l.map size).sum := by
  induction l generalizing w with
  | nil => exact ⟨w, rfl, by simp⟩
  | cons h l ih =>
    rw [foldlM_cons, map_cons, sum_cons]
    exact (hl h mem_cons_self w).bind (ih fun h' hh' => hl h' (mem_cons_of_mem h hh'))

theorem foldlM_eq_none {f : Writer → HdrField → Option Writer}
    {l : List HdrField} (hh : h ∈ l) (hf : ∀ w, f w h = none) (w : Writer) :
    l.foldlM f w = none := by
  induction l generalizing w with
  | nil => cases hh
  | cons h' l ih =>
    rw [foldlM_cons]
    rcases mem_cons.mp hh with rfl | hh
    · rw [hf]
      rfl
    · cases hrun : f w h' with
      | none => rfl
      | some w' => exact ih hh w'

/-! ## What the passes come to -/

/-- The length of the reply: what is copied of the header fields, and the
rest. -/
def replySize (req : SipReq) (code : ℕ) (text newTag : Bytes) (pieces : Pieces) (env : Env) : ℤ :=
  (statusLine code text).length + (req.headers.map (hdrSize req code newTag pieces)).sum +
    (writeRest req pieces env).length

theorem length_statusLine : ((statusLine code text).length : ℤ) =
      sipVersionLen + 1 + 3 + 1 + text.length + crlfLen := by
  have hversion : sipVersion.length = sipVersionLen := by decide
  have hcrlf : crlf.length = crlfLen := by decide
  have hspace : (ascii " ").length = 1 := by decide
  simp only [statusLine, codeDigits, List.length_append, hversion, hcrlf,
    hspace, length_cons, length_nil]
  push_cast
  omega

theorem length_writeRest (env : Env) : ((writeRest req pieces env).length : ℤ) =
      (req.replyLump.map fun l => l.text.length).sum + serverLen env +
        warningLen pieces + contentLenLen req + crlfLen := by
  have hcontent : contentLength.length = contentLengthLen := by decide
  have hcrlf : crlf.length = crlfLen := by decide
  have hzero : (ascii "0").length = 1 := by decide
  rw [req.lumps.length_eq]
  unfold writeRest serverLen warningLen contentLenLen
  cases hsig : env.serverSignature <;> cases hwarn : pieces.warning <;>
    cases hbody : bodyOf req.replyLump <;>
    simp only [List.length_append, length_nil, hcontent, hcrlf, hzero,
      if_true, Bool.false_eq_true, if_false, getD_some,
      getD_none] <;>
    push_cast <;> omega

/-- The first To, and no other, is the one whose tag is looked at. -/
theorem toTag_cases (req : SipReq) : req.toTag.s = none ∧ req.toTag.len = 0 ∨
      ∃ l₁ h l₂, req.headers = l₁ ++ h :: l₂ ∧ h.type = .hdrTo ∧
        (∀ h' ∈ l₁, h'.type ≠ .hdrTo) ∧ req.toTag = h.tag ∧
        ∃ a, h.tag.s = some a := by
  unfold SipReq.toTag
  cases hfind : req.headers.find? (fun h => h.type = .hdrTo) with
  | none => exact Or.inl ⟨rfl, rfl⟩
  | some h =>
    obtain ⟨hto, l₁, l₂, hl, hbefore⟩ :=
      find?_eq_some_iff_append.mp hfind
    dsimp only
    cases htag : h.tag.s with
    | none =>
      exact Or.inl ⟨rfl, req.noTag h (mem_of_find?_eq_some hfind) htag⟩
    | some a =>
      refine Or.inr ⟨l₁, h, l₂, hl, by simpa using hto, ?_, rfl, a, htag⟩
      intro h' hh'
      simpa using hbefore h' hh'

theorem toTag_countP (h : req.toTag.s ≠ none) :
    0 < req.headers.countP fun h => h.type = .hdrTo := by
  rcases toTag_cases req with ⟨hs, -⟩ | ⟨l₁, h', l₂, hl, hto, -⟩
  · exact absurd hs h
  · rw [countP_pos_iff]
    exact ⟨h', by rw [hl]; simp, by simpa using hto⟩

/-- The tag of the first To is replaced by the length pass if it has a length,
and by the write pass if there is one. -/
def Mistaken (req : SipReq) (newTag : Bytes) : Prop :=
  newTag ≠ [] ∧ req.toTag.s ≠ none ∧ req.toTag.len = 0

instance (req : SipReq) (newTag : Bytes) : Decidable (Mistaken req newTag) :=
  inferInstanceAs (Decidable (_ ∧ _ ∧ _))

theorem hdrLen_eq (h : HdrField) : hdrLen req code newTag pieces h =
      hdrSize req code newTag pieces h +
        (if h.type = .hdrVia ∧ req.isVia1 h then oldRport req else 0) +
        (if h.type = .hdrTo then if Mistaken req newTag then 5 else 0
          else 0) := by
  unfold hdrLen hdrSize Mistaken
  cases htype : h.type with
  | hdrTo =>
    by_cases hnew : newTag = []
    · simp [hnew]
    · rcases toTag_cases req with ⟨hs, hlen⟩ | ⟨-, h', -, -, -, -, htag, a, ha⟩
      · simp [hnew, hs, hlen, add_comm]
      · rw [← htag] at ha
        by_cases hlen : req.toTag.len = 0
        · simp only [ne_eq, hnew, ha, hlen, not_false_eq_true, reduceCtorEq,
            not_true_eq_false, if_true, if_false, and_self, false_and,
            totagTokenLen]
          omega
        · simp only [ne_eq, hnew, ha, hlen, not_false_eq_true, reduceCtorEq,
            if_true, if_false, and_false, false_and]
          omega
  | hdrVia =>
    cases hvia : req.isVia1 h with
    | true =>
      simp only [if_true, and_self, reduceCtorEq, if_false]
      omega
    | false =>
      simp only [Bool.false_eq_true, and_false, reduceCtorEq, if_false]
      omega
  | _ => simp

theorem sum_oldRport (req : SipReq) : (req.headers.map fun h =>
      if h.type = .hdrVia ∧ req.isVia1 h then oldRport req else 0).sum =
        oldRport req := by
  obtain ⟨via, hfind, -⟩ := req.hasVia
  have hmem := mem_of_find?_eq_some hfind
  have hvia : via.type = .hdrVia := by
    simpa using find?_some hfind
  have hone : ∀ h ∈ req.headers, (h.type = .hdrVia ∧ req.isVia1 h) ↔ h = via := by
    intro h hh
    simp only [SipReq.isVia1, hfind, any_some, decide_eq_true_eq]
    constructor
    · rintro ⟨-, hname⟩
      exact (eq_of_name hmem hh hname).symm
    · rintro rfl
      exact ⟨hvia, rfl⟩
  rw [map_congr_left fun h hh =>
    if_congr (hone h hh) (rfl : oldRport req = oldRport req) rfl]
  rw [sum_map_eq_nsmul_single via _ (fun h hne _ => if_neg hne),
    count_eq_one_of_mem (nodup_headers req) hmem, one_nsmul, if_pos rfl]

theorem sum_map_ite_countP {α : Type*} (p : α → Prop) [DecidablePred p] (c : ℤ) (l : List α) :
    (l.map fun x => if p x then c else 0).sum = l.countP p * c := by
  induction l with
  | nil => simp
  | cons x l ih =>
    rw [map_cons, sum_cons, ih, countP_cons]
    by_cases hx : p x
    · simp [hx]
      ring
    · simp [hx]

/-- The two passes differ by the `;tag=` of every To when the first one has an
empty tag. -/
theorem lenSum_eq (env : Env) : lenSum req code text newTag pieces env =
      replySize req code text newTag pieces env +
        (req.headers.countP fun h => h.type = .hdrTo : ℕ) *
          if Mistaken req newTag then 5 else 0 := by
  have hsum : (req.headers.map (hdrLen req code newTag pieces)).sum =
      (req.headers.map (hdrSize req code newTag pieces)).sum + oldRport req +
        (req.headers.countP fun h => h.type = .hdrTo : ℕ) *
          if Mistaken req newTag then 5 else 0 := by
    rw [map_congr_left fun h _ => hdrLen_eq h, sum_map_add,
      sum_map_add, sum_oldRport, sum_map_ite_countP]
  rw [lenSum, replySize, length_statusLine, length_writeRest, hsum]
  ring

/-! ## The contract -/

theorem pieces_rport (h : env.pieces req = some pieces)
    (hreq : req.rport.isSome) : pieces.rport.isSome := by
  obtain ⟨received, -, h⟩ := bind_eq_some_iff.mp h
  obtain ⟨rport, hrport, h⟩ := bind_eq_some_iff.mp h
  rw [Env.rport, if_pos (Or.inr hreq)] at hrport
  obtain ⟨s, -, rfl⟩ := map_eq_some_iff.mp hrport
  obtain rfl := some.inj h
  rfl

/-- When one To takes its tag from itself, everything is written. -/
theorem write_writes (hrport : req.rport.isSome → pieces.rport.isSome)
    (hto : newTag = [] ∨ req.toTag.s = none ∨ (req.headers.countP fun h => h.type = .hdrTo) ≤ 1) :
    ∃ w, write req code text newTag pieces env = some w ∧
      (w.out.length : ℤ) = replySize req code text newTag pieces env := by
  have hfirst : ∀ h ∈ req.headers, h.type = .hdrTo → newTag ≠ [] →
      ∀ a, req.toTag.s = some a → req.toTag = h.tag := by
    intro h hh htype hnew a ha
    rcases toTag_cases req with ⟨hs, -⟩ | ⟨l₁, h', l₂, hl, hto', -, htag, -⟩
    · simp [hs] at ha
    · have hone := (hto.resolve_left hnew).resolve_left (by simp [ha])
      rw [htag]
      rw [hl] at hh hone
      rw [countP_append, countP_cons_of_pos (by simpa using hto')] at hone
      have hnone : ∀ x ∈ l₁ ++ l₂, x.type ≠ .hdrTo := by
        intro x hx
        have hzero : (l₁ ++ l₂).countP (fun h => h.type = .hdrTo) = 0 := by
          rw [countP_append]
          omega
        simpa using countP_eq_zero.mp hzero x hx
      rcases mem_append.mp hh with hh | hh
      · exact absurd htype (hnone h (mem_append_left _ hh))
      · rcases mem_cons.mp hh with rfl | hh
        · rfl
        · exact absurd htype (hnone h (mem_append_right _ hh))
  obtain ⟨w, hrun, hlen⟩ := writes_foldlM (f := writeHdr req code newTag pieces)
    (fun h hh w => writes_writeHdr hh hrport (hfirst h hh))
    ⟨statusLine code text, none⟩
  refine ⟨w.append (writeRest req pieces env), ?_, ?_⟩
  · rw [write, hrun]
    rfl
  · rw [length_append, replySize]
    push_cast
    rw [hlen]

/-- A second To is read from before its start. -/
theorem write_eq_none (hnew : newTag ≠ []) (htag : req.toTag.s ≠ none)
    (hto : 2 ≤ req.headers.countP fun h => h.type = .hdrTo) :
    write req code text newTag pieces env = none := by
  rcases toTag_cases req with ⟨hs, -⟩ |
    ⟨l₁, h, l₂, hl, hto', hbefore, hsame, a, ha⟩
  · exact absurd hs htag
  have hsecond : ∃ h' ∈ l₂, h'.type = .hdrTo := by
    have hzero : l₁.countP (fun h => h.type = .hdrTo) = 0 := by
      rw [countP_eq_zero]
      intro x hx
      simpa using hbefore x hx
    rw [hl, countP_append, countP_cons_of_pos (by simpa using hto'), hzero] at hto
    have hpos : 0 < l₂.countP fun h => h.type = .hdrTo := by omega
    simpa using countP_pos_iff.mp hpos
  obtain ⟨h', hh', htype⟩ := hsecond
  have hmem : h ∈ req.headers ∧ h' ∈ req.headers := by
    rw [hl]
    simp [hh']
  have horder : h.stop ≤ h'.name := by
    have hpair := req.ordered
    rw [hl] at hpair
    exact (pairwise_cons.mp (pairwise_append.mp hpair).2.1).1 h' hh'
  have hlow := (req.tagIn h hmem.1 a ha).2.1
  have hfails : ∀ w, writeHdr req code newTag pieces w h' = none := by
    intro w
    have hneg : (a : ℤ) - h'.name < 0 := by omega
    simp only [writeHdr, htype, ne_eq, hnew, not_false_eq_true, if_true, writeTo,
      hsame, ha, Writer.appendStr, if_pos hneg]
    rfl
  rw [write, foldlM_eq_none hmem.2 hfails]
  rfl

/-- No new tag is put in, or the old one is absent, or there is one To only and
its tag is not empty. -/
def TagFits (req : SipReq) (newTag : Bytes) : Prop :=
  newTag = [] ∨ req.toTag.s = none ∨
    req.toTag.len ≠ 0 ∧ (req.headers.countP fun h => h.type = .hdrTo) ≤ 1

instance (req : SipReq) (newTag : Bytes) : Decidable (TagFits req newTag) :=
  inferInstanceAs (Decidable (_ ∨ _ ∨ _))

/-- `build_res_buf_from_sip_req` writes as many bytes as it has allocated
exactly when the tag fits and the length is one of an `unsigned int`. -/
theorem build_res_buf_fills_iff (req : SipReq) (code : ℕ) (text newTag : Bytes)
    (env : Env) (pieces : Pieces) (hpieces : env.pieces req = some pieces) :
    (∃ w, buildResBufFromSipReq req code text newTag env = some (w.out.length, some w)) ↔
      TagFits req newTag ∧ replySize req code text newTag pieces env < 2 ^ 32 := by
  have hrun : buildResBufFromSipReq req code text newTag env =
      some (len req code text newTag pieces env, write req code text newTag pieces env) := by
    rw [buildResBufFromSipReq, hpieces]
    rfl
  have hrport := pieces_rport hpieces
  rw [hrun]
  simp only [some.injEq, Prod.mk.injEq, len, lenSum_eq]
  by_cases hto : newTag = [] ∨ req.toTag.s = none ∨
      (req.headers.countP fun h => h.type = .hdrTo) ≤ 1
  · obtain ⟨w, hwrite, hlen⟩ : ∃ w, write req code text newTag pieces env = some w ∧
          (w.out.length : ℤ) = replySize req code text newTag pieces env :=
      write_writes hrport hto
    rw [hwrite, ← hlen]
    by_cases hwrong : Mistaken req newTag
    · -- one To, whose tag is empty: five bytes are missing
      have hnot : ¬TagFits req newTag := by
        rintro (hnew | hs | ⟨hlen, -⟩)
        · exact hwrong.1 hnew
        · exact hwrong.2.1 hs
        · exact hlen hwrong.2.2
      have hone : (req.headers.countP fun h => h.type = .hdrTo) = 1 := by
        have hle := (hto.resolve_left hwrong.1).resolve_left hwrong.2.1
        have hpos := toTag_countP hwrong.2.1
        omega
      rw [if_pos hwrong, hone]
      constructor
      · rintro ⟨w', hsame, hw⟩
        obtain rfl := some.inj hw
        omega
      · exact fun h => absurd h.1 hnot
    · have hfits : TagFits req newTag := by
        rcases hto with hnew | hs | hle
        · exact Or.inl hnew
        · exact Or.inr (Or.inl hs)
        · by_cases hnew : newTag = []
          · exact Or.inl hnew
          · by_cases hs : req.toTag.s = none
            · exact Or.inr (Or.inl hs)
            · exact Or.inr (Or.inr ⟨fun h => hwrong ⟨hnew, hs, h⟩, hle⟩)
      rw [if_neg hwrong]
      constructor
      · rintro ⟨w', hsame, hw⟩
        obtain rfl := some.inj hw
        exact ⟨hfits, by omega⟩
      · rintro ⟨-, hsmall⟩
        exact ⟨w, by omega, rfl⟩
  · simp only [not_or, not_le] at hto
    obtain ⟨hnew, hs, htwo⟩ := hto
    rw [write_eq_none hnew hs htwo]
    constructor
    · rintro ⟨w, -, hw⟩
      cases hw
    · rintro ⟨hnew' | hs' | ⟨-, hle⟩, -⟩
      · exact absurd hnew' hnew
      · exact absurd hs' hs
      · omega

/-- What the request below has in front of the tag. -/
def inviteStart : Bytes :=
  ascii "INVITE sip:a SIP/2.0\r\nVia: SIP/2.0/UDP a\r\nTo: <sip:a>;tag="

/-- An `INVITE` with one Via and the To `<sip:a>;tag=…;x=y`. -/
def inviteReq (tag : Bytes) : SipReq where
  buf := inviteStart ++ tag ++ ascii ";x=y\r\n\r\n"
  headers := [⟨.hdrVia, 22, 20, 27, 13, ⟨none, 0⟩⟩,
    ⟨.hdrTo, 42, 22 + tag.length, 46, 16 + tag.length, ⟨some 58, tag.length⟩⟩]
  rport := none
  forceRport := false
  replyLump := []
  bodyIn := by
    have hstart : inviteStart.length = 58 := by decide
    have hend : (ascii ";x=y\r\n\r\n").length = 8 := by decide
    simp only [List.forall_mem_cons, HdrField.bodyEnd, HdrField.stop,
      List.length_append, hstart, hend]
    refine ⟨by omega, by omega, by simp⟩
  ordered := by simp [HdrField.stop]
  tagIn := by
    simp [HdrField.stop]
    omega
  noTag := by simp
  hasVia := ⟨_, rfl, by simp⟩
  lumps := .nil

/-- Nothing is added to the request's own headers. -/
def plainEnv : Env := ⟨[], false, false, none, none, false, none⟩

theorem build_res_buf_fills_new_tag :
    ∃ w, buildResBufFromSipReq (inviteReq (ascii "a")) 200 (ascii "OK")
        (ascii "b") plainEnv = some (w.out.length, some w) :=
  (build_res_buf_fills_iff _ 200 (ascii "OK") (ascii "b") plainEnv
    ⟨none, none, none⟩ rfl).mpr ⟨by decide, by decide⟩

/-- With an empty tag the write pass leaves out the `;tag=` that the length
pass has counted. -/
theorem build_res_buf_empty_tag :
    ¬∃ w, buildResBufFromSipReq (inviteReq []) 200 (ascii "OK") (ascii "b")
        plainEnv = some (w.out.length, some w) := by
  rintro ⟨w, hw⟩
  have hlens : (buildResBufFromSipReq (inviteReq []) 200 (ascii "OK")
      (ascii "b") plainEnv).map (fun r => (r.1, r.2.map fun w => w.out.length)) =
        some (85, some 80) := by
    decide
  rw [hw, map_some, map_some, some.injEq, Prod.mk.injEq, some.injEq] at hlens
  omega

end Msicp.Reply
