import Msicp.Dialog.Dlg

/-!
# The URIs in a Record-Route header field (`parse_rr.c`)
-/

namespace Msicp.Rr

open Msicp.Support
open Msicp.Dialog (findNotQuoted trimLeading endsName parseParamBody)

/-- `name_addr_t`, and what is behind the closing `>`. -/
structure NameAddr where
  name : Bytes
  uri : Bytes
  rest : Bytes

def parseNameaddr (s : Bytes) : Option NameAddr :=
  match findNotQuoted '<'.toUInt8 false 0 s with
  | none => none
  | some i =>
    let uri := s.drop (i + 1)
    match findNotQuoted '>'.toUInt8 false 0 uri with
    | none => none
    | some j => some ⟨s.take i, uri.take j, uri.drop (j + 1)⟩

/-- The text at which `parse_params` stops.  Each turn takes a byte at least. -/
def paramsEnd : ℕ → Bytes → Option Bytes
  | 0, _ => none
  | n + 1, s =>
    let behind := trimLeading (s.dropWhile fun c => !endsName c)
    let next :=
      if behind.head? = some '='.toUInt8 then
        (parseParamBody (trimLeading behind.tail)).map trimLeading
      else some behind
    match next with
    | none => none
    | some [] => some []
    | some (c :: s) =>
      if c = ','.toUInt8 ∨ c = '>'.toUInt8 then some (c :: s)
      else if c = ';'.toUInt8 then
        let s := trimLeading s
        if s = [] then none else paramsEnd n s
      else none

/-- What is left behind the parameters of a name-addr, if it has any. -/
def rrParamsEnd (s : Bytes) : Option Bytes :=
  match s with
  | [] => some []
  | c :: rest =>
    if c = ';'.toUInt8 then
      let params := trimLeading rest
      if params = [] then none
      else (paramsEnd (params.length + 1) params).map trimLeading
    else some s

/-- The loop of `do_parse_rr_body`: the URIs.  Each turn takes a byte at
least. -/
def rrLoop : ℕ → Bytes → Option (List Bytes)
  | 0, _ => none
  | n + 1, s => do
      let r ← parseNameaddr s
      let s ← rrParamsEnd (trimLeading r.rest)
      match s with
      | [] => some [r.uri]
      | c :: s =>
        let s := trimLeading s
        if c ≠ ','.toUInt8 then none
        else if s = [] then none
        else (rrLoop n s).map (r.uri :: ·)

/-- `parse_rr` on a body: the URIs of the name-addrs in it. -/
def parseRr (body : Bytes) : Option (List Bytes) :=
  if body = [] then none else rrLoop (body.length + 1) (trimLeading body)

end Msicp.Rr
