import Msicp.Lumps.HeaderText
import Msicp.Parser.UriRebuild

/-!
# Route sets in a message

A request as the functions of `loose.c` see it: header fields in their order,
with the bodies of the Route header fields parsed.  The text of the message is
that of its pieces, which tile it.
-/

namespace Msicp.Rr

open Msicp.Support
open Msicp.Lumps (Lump deletedAt)

/-- A part of a message. -/
abbrev Text := { t : Bytes // t ≠ [] }

/-- `rr_t`: the text from the name to the last parameter, and the URI. -/
structure Route where
  text : Text
  uri : Bytes

/-- A Route header field.  `name` is all in front of the body, `tail` all
behind the last URI; the other URIs have a comma and white space in front. -/
structure RouteHf where
  name : Text
  first : Route
  rest : List (Text × Route)
  tail : Text

/-- `struct hdr_field` -/
inductive Field
  | route (h : RouteHf)
  | other (text : Text)

/-- A piece of the text of a message. -/
inductive Piece
  | other (text : Text)
  | name (text : Text)
  | route (r : Route)
  | comma (text : Text)
  | tail (text : Text)
  | added (text : Bytes)

def Piece.text : Piece → Bytes
  | .other t | .name t | .comma t | .tail t => t
  | .route r => r.text
  | .added t => t

/-- A URI with the comma in front of it. -/
def nextPieces (x : Text × Route) : List Piece := [.comma x.1, .route x.2]

/-- The body without what follows the last URI. -/
def RouteHf.uriPieces (h : RouteHf) : List Piece :=
  .route h.first :: h.rest.flatMap nextPieces

def RouteHf.pieces (h : RouteHf) : List Piece :=
  .name h.name :: h.uriPieces ++ [.tail h.tail]

def Field.pieces : Field → List Piece
  | .route h => h.pieces
  | .other text => [.other text]

def fieldPieces (fs : List Field) : List Piece := fs.flatMap Field.pieces

/-- A request as it was received.  `front` is all in front of the header
fields, `back` all from their end on, `uri` the Request-URI; `tag` tells whether
there is a To tag, when the To header field can be parsed. -/
structure Request where
  front : Text
  uri : Bytes
  fields : List Field
  back : Text
  tag : Option Bool

def Request.pieces (m : Request) : List Piece :=
  .other m.front :: fieldPieces m.fields ++ [.other m.back]

/-- `msg->buf` -/
def Request.buf (m : Request) : Bytes := m.pieces.flatMap Piece.text

def RouteHf.uris (h : RouteHf) : List Bytes :=
  h.first.uri :: h.rest.map fun x => x.2.uri

def Field.uris : Field → List Bytes
  | .route h => h.uris
  | .other _ => []

/-- The route set. -/
def Request.routes (m : Request) : List Bytes := m.fields.flatMap Field.uris

/-! ## URIs -/

/-- The parameters of the module, and what the process knows of URIs:
`checkSelf` tells its own addresses, `badParams` is what a `parse_uri` that
fails leaves in the parameters. -/
structure Config where
  enableDoubleRr : Bool
  checkSelf : Bytes → ℕ → Bool
  badParams : Bytes → Bytes

/-- The states of the automata in `is_2rr` and `is_strict`. -/
inductive Scan
  | start | first | second | white | skip | quoted | escaped | found

def isWhite (c : UInt8) : Bool :=
  c = ' '.toUInt8 || c = '\r'.toUInt8 || c = '\n'.toUInt8 || c = '\t'.toUInt8

/-- One turn of the loop that looks for a parameter with a name of two
letters. -/
def Scan.next (a b : UInt8 → Bool) (state : Scan) (c : UInt8) : Scan :=
  match state with
  | .start => if isWhite c then .start else if a c then .first else .skip
  | .first => if b c then .second else .skip
  | .second =>
    if c = ';'.toUInt8 ∨ c = '='.toUInt8 then .found
    else if isWhite c then .white else .skip
  | .white =>
    if c = ';'.toUInt8 ∨ c = '='.toUInt8 then .found
    else if isWhite c then .white else .skip
  | .skip =>
    if c = '"'.toUInt8 then .quoted
    else if c = ';'.toUInt8 then .start else .skip
  | .quoted =>
    if c = '\\'.toUInt8 then .escaped
    else if c = '"'.toUInt8 then .skip else .quoted
  | .escaped => .quoted
  | .found => .found

/-- The parameters have one with the two letters. -/
def hasParam (a b : UInt8 → Bool) (params : Bytes) : Bool :=
  match params.foldl (Scan.next a b) .start with
  | .second | .white | .found => true
  | _ => false

def isR (c : UInt8) : Bool := c = 'r'.toUInt8 || c = 'R'.toUInt8

def isL (c : UInt8) : Bool := c = 'l'.toUInt8 || c = 'L'.toUInt8

def is2rr (params : Bytes) : Bool := hasParam isR (· = '2'.toUInt8) params

def isStrict (params : Bytes) : Bool := !hasParam isL isR params

def sipPort : ℕ := 5060

/-- `parse_uri` fails. -/
def badUri (uri : Bytes) : Bool :=
  match Parser.parseUri uri with
  | .ok _ => false
  | .error _ => true

namespace Config

variable (cfg : Config)

def isMyself (host : Bytes) (port : ℕ) : Bool :=
  cfg.checkSelf host (if port ≠ 0 then port else sipPort)

/-- The parameters that `parse_uri` leaves. -/
def params (uri : Bytes) : Bytes :=
  match Parser.parseUri uri with
  | .ok puri => puri.params.text uri
  | .error _ => cfg.badParams uri

/-- The URI is one of the process itself. -/
def own (uri : Bytes) : Bool :=
  match Parser.parseUri uri with
  | .ok puri => cfg.isMyself (puri.host.text uri) puri.portNo.toNat
  | .error _ => false

def strict (uri : Bytes) : Bool := isStrict (cfg.params uri)

/-- The URI is the first of two that were recorded together. -/
def double (uri : Bytes) : Bool := cfg.enableDoubleRr && is2rr (cfg.params uri)

end Config

/-! ## The procedure of RFC 3261 -/

/-- Request-URI, destination and route set of a request. -/
structure Target where
  uri : Bytes
  dst : Option Bytes
  routes : List Bytes

/-- The destination is the Request-URI, when no other is set. -/
def Target.dest (t : Target) : Bytes := t.dst.getD t.uri

/-- 16.4: a URI of this proxy is removed from the top of the route set, and
with it the second of two URIs that were recorded together; `split` tells that
the first of these two was the Request-URI. -/
def removeOwn (cfg : Config) (split : Bool) : List Bytes → List Bytes
  | [] => []
  | r :: rs =>
    if cfg.own r then
      match rs with
      | [] => []
      | r' :: rs' =>
        if !split && cfg.double r && cfg.own r' then rs' else r' :: rs'
    else r :: rs

/-- The previous hop was a strict router. -/
def afterStrictRouter (cfg : Config) (m : Request) : Prop :=
  m.tag = some true ∧ cfg.own m.uri = true

instance (cfg : Config) (m : Request) : Decidable (afterStrictRouter cfg m) :=
  inferInstanceAs (Decidable (_ ∧ _))

/-- 16.4: after a strict router the Request-URI is a URI of this proxy, and the
real one is the last of the route set. -/
def restoreUri (cfg : Config) (m : Request) : Bytes × List Bytes :=
  if afterStrictRouter cfg m then
    match m.routes.getLast? with
    | some r => (r, m.routes.dropLast)
    | none => (m.uri, [])
  else (m.uri, m.routes)

/-- 16.6 and 16.12: a loose router is the destination, a strict one becomes the
Request-URI and the Request-URI the last of the route set. -/
def nextHop (cfg : Config) (uri : Bytes) : List Bytes → Target
  | [] => { uri := uri, dst := none, routes := [] }
  | r :: rs =>
    if cfg.strict r then { uri := r, dst := none, routes := rs ++ [uri] }
    else { uri := uri, dst := some r, routes := r :: rs }

/-- A strict router has moved the first of two URIs that were recorded together
to the Request-URI. -/
def splitPair (cfg : Config) (m : Request) : Bool :=
  decide (afterStrictRouter cfg m) && cfg.double m.uri

/-- What is to become of a request. -/
def reference (cfg : Config) (m : Request) : Target :=
  let (uri, routes) := restoreUri cfg m
  nextHop cfg uri (removeOwn cfg (splitPair cfg m) routes)

/-! ## Reading a message with lumps -/

def routePrefix : Bytes := ascii "Route: <"

def routeSuffix : Bytes := ascii ">\r\n"

/-- The header field that `save_ruri` adds. -/
def savedHf (uri : Bytes) : Bytes := routePrefix ++ uri ++ routeSuffix

/-- The URI in a header field that `save_ruri` has added. -/
def savedUri (text : Bytes) : Bytes :=
  (text.drop routePrefix.length).take (text.length - routePrefix.length - routeSuffix.length)

def Piece.uris : Piece → List Bytes
  | .route r => [r.uri]
  | .added t => [savedUri t]
  | _ => []

/-- The text that anchors at the offset `o` add. -/
def addedAt (lumps : List Lump) (o : ℕ) : List Piece :=
  lumps.flatMap fun t =>
    match t.op with
    | .nop offset =>
      if offset = o then
        t.before.filterMap fun
          | .value v => some (.added v)
          | _ => none
      else []
    | _ => []

/-- The pieces that the lumps leave, from the offset `o` on. -/
def readFrom (lumps : List Lump) : ℕ → List Piece → List Piece
  | o, [] => addedAt lumps o
  | o, p :: ps =>
    addedAt lumps o ++ (if deletedAt lumps o then [] else [p]) ++
      readFrom lumps (o + p.text.length) ps

/-- The message with the lumps applied. -/
def Request.read (m : Request) (lumps : List Lump) : List Piece :=
  readFrom lumps 0 m.pieces

end Msicp.Rr
