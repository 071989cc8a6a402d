import Msicp.Dialog.MsgBuilder
import Msicp.Support.StackText

/-!
# Worksmart URIs (`parse_ws_uri`, `parse_ws_fifo_uri_buffer`)

A worksmart URI has five fields, `type-command-group-context-token`, where the
context may have dashes of its own.  The router and the reader of the billing
records have a parser each.
-/

namespace Msicp.Worksmart

open Msicp.Support
open Msicp.Dialog (atoi snprintf)

def wsSeperator : UInt8 := '-'.toUInt8

/-- `struct ws_uri`: the fields, with null pointers. -/
structure WsUri where
  type : Option Bytes
  command : Option Bytes
  group : Option Bytes
  context : Option Bytes
  token : Option Bytes
  deriving DecidableEq

/-- What `memset` leaves. -/
def WsUri.zero : WsUri := ⟨none, none, none, none, none⟩

/-- The part that the parsers have in common: `parsed` is cut into the fields.
The flag is that all five have been found. -/
def splitWsUri (parsed : Bytes) : WsUri × Bool :=
  match cutAt wsSeperator parsed with
  | none => (.zero, false)
  | some (type, rest) =>
    match cutAt wsSeperator rest with
    | none => (⟨some type, some rest, none, none, none⟩, false)
    | some (command, rest) =>
      match cutAt wsSeperator rest with
      | none => (⟨some type, some command, some rest, none, none⟩, false)
      | some (group, rest) =>
        match cutAtLast wsSeperator rest with
        | none =>
          (⟨some type, some command, some group, some rest, none⟩, false)
        | some (context, token) =>
          (⟨some type, some command, some group, some context, some token⟩, true)

/-! ## The router -/

def parseWsUriBuffer (buffer : Bytes) : WsUri × Bool :=
  splitWsUri (snprintf 99 buffer)

/-- The type for a number of three digits. -/
def threeDigitType (dirTemp : ℤ) : Bytes :=
  if dirTemp = 311 then ascii "dir-"
  else if dirTemp ∈ ([211, 411, 511, 611, 711, 811, 911] : List ℤ) then
    ascii "inv-"
  else ascii "ext-"

/-- The context: what is behind the first dash of the user in From. -/
def fromContext (fromUser : Option Bytes) : Option Bytes := do
  let user ← fromUser
  let (_, context) ← cutAt wsSeperator (snprintf 255 user)
  return context

/-- The URI of an extension: a dummy group, the context of the caller and the
token are put behind the type and the command. -/
def parseExtension (fromUser : Option Bytes) (token start : Bytes) : WsUri × Bool :=
  match fromContext fromUser with
  | none => (.zero, false)
  | some context =>
    splitWsUri (start ++ ascii "-0-" ++ context ++ ascii "-" ++ token)

/-- `parse_ws_uri`; `fromUser` is the user in From, which may be missing.  The
flag is that it returns 1. -/
def parseWsUri (fromUser : Option Bytes) (dUri token : Bytes) : WsUri × Bool :=
  let parsed := dUri.take 99
  if (strstr parsed (ascii "--")).isSome then
    ({ WsUri.zero with type := some (ascii "invtype") }, true)
  else
    let dirTemp := atoi parsed
    let len := parsed.length
    if len = 3 ∧ 0 < dirTemp then
      parseExtension fromUser token (threeDigitType dirTemp ++ parsed)
    else if (len = 4 ∨ len = 5) ∧ 0 < dirTemp then
      parseExtension fromUser token (ascii "ext-" ++ parsed)
    else if strncmpEq parsed (ascii "mwi") 3 then
      parseExtension fromUser token parsed
    else splitWsUri parsed

/-! ## The reader of the billing records -/

/-- `struct ws_uri` of the reader -/
structure FifoWsUri extends WsUri where
  actualToken : Bytes

/-- The token without what is in front of the one of a PSTN inbound call. -/
def inboundToken (token : Bytes) : Bytes :=
  match strstr token (ascii "wspib") with
  | some rest => rest.drop 5
  | none => token

def parseWsFifoUriBuffer (buffer : Bytes) : FifoWsUri × Bool :=
  match splitWsUri (buffer.take 255) with
  | (wsuri, false) => (⟨wsuri, []⟩, false)
  | (wsuri, true) =>
    let token := wsuri.token.getD []
    (⟨{ wsuri with token := some (inboundToken token) }, token.take 31⟩, true)

/-! ## What is cut -/

theorem splitWsUri_type {parsed : Bytes} (h : (splitWsUri parsed).2 = true) :
    ∃ type, (splitWsUri parsed).1.type = some type ∧
      (∀ c ∈ type, c ∈ parsed) ∧ wsSeperator ∉ type := by
  unfold splitWsUri at h ⊢
  cases hfirst : cutAt wsSeperator parsed with
  | none => simp [hfirst] at h
  | some cut =>
    obtain ⟨htake, hparsed⟩ := cutAt_eq_some hfirst
    refine ⟨cut.1, ?_, ?_, ?_⟩
    · dsimp only
      repeat' split
      all_goals rfl
    · intro c hc
      rw [hparsed]
      exact List.mem_append_left _ hc
    · intro hmem
      rw [htake] at hmem
      simpa using List.mem_takeWhile_imp hmem

end Msicp.Worksmart

/-!
## What the router takes a number for (`get_uri_type`)

A dialled user part is a worksmart URI, an international number, an ordinary
one, or none of these.
-/

namespace Msicp.Worksmart

open Msicp.Support
open Msicp.Dialog (atoi isDigit snprintf printInt)

/-- `enum UriType` of the router; `failed` is the -1 that is not in it. -/
inductive UriType
  | extension
  | ivrCommand
  | xfer4DID
  | cnfRequest
  | acdAgentExtension
  | pstnTransfer
  | pickupRequest
  | acdRequest
  | dirRequest
  | invRequest
  | acdVoicemail
  | acdVoicemailTransfer
  | acdAgent
  | acdDID
  | mwiRequest
  | pushToTalk
  | disasterRequest
  | obTransfer
  | acccodeType
  | mobilecall
  | vmdCommand
  | vmOprcall
  | iextcall
  | icomcall
  | blaPhoneNumber
  | gext
  | aceforward
  | nine11
  | acdxfer
  | ctcRequest
  | wsctcbcall
  | wspcr
  | fgrp
  | six11
  | lcrRequest
  | phoneNumber
  | internationalPhnumber
  | featureRequest
  | wsUri
  | localUser
  | invalidUri
  | failed
  deriving DecidableEq

/-- `types`: the texts, and the members of the enumeration that their places
are the values of. -/
def types : List (Bytes × UriType) :=
  [(ascii "ext", .extension), (ascii "cmd", .ivrCommand),
    (ascii "xfer", .xfer4DID), (ascii "cnf", .cnfRequest),
    (ascii "acdext", .acdAgentExtension), (ascii "pst", .pstnTransfer),
    (ascii "pkp", .pickupRequest), (ascii "con", .acdRequest),
    (ascii "dir", .dirRequest), (ascii "inv", .invRequest),
    (ascii "vmln", .acdVoicemail), (ascii "vmlo", .acdVoicemailTransfer),
    (ascii "agt", .acdAgent), (ascii "did", .acdDID),
    (ascii "mwi", .mwiRequest), (ascii "ptt", .pushToTalk),
    (ascii "wsdis", .disasterRequest), (ascii "obxfer", .obTransfer),
    (ascii "act", .acccodeType), (ascii "moc", .mobilecall),
    (ascii "vmd", .vmdCommand), (ascii "vmo", .vmOprcall),
    (ascii "iext", .iextcall), (ascii "icom", .icomcall),
    (ascii "bla", .blaPhoneNumber), (ascii "gext", .gext),
    (ascii "wsace", .aceforward), (ascii "nine11", .nine11),
    (ascii "acdxfer", .acdxfer), (ascii "ctc", .ctcRequest),
    (ascii "wsctcb", .wsctcbcall), (ascii "pcr", .wspcr),
    (ascii "fgrp", .fgrp), (ascii "six11", .six11),
    (ascii "lcr", .lcrRequest)]

/-- The configuration, what the request says beside its number, and the
database. -/
structure RouterEnv where
  internationalPrefix : Bytes
  prefixLength : ℕ
  wsCtccallFlag : Bool
  fromUser : Option Bytes
  is3pcc : Bool
  is3pccacdsup : Bool
  ctcSitename : Bytes
  prio1 : Bytes
  getDirectExtension : Bytes → ℤ

/-- What `get_uri_type` returns and writes. -/
structure Routed where
  uritype : UriType
  wsuri : WsUri
  uri : Bytes
  token : Bytes
  deriving DecidableEq

/-- A worksmart URI: its type is looked up, unless its command is 611. -/
def wsUriType (wsuri : WsUri) : UriType × WsUri :=
  let wsuri :=
    if wsuri.command = some (ascii "611") then
      { wsuri with type := some (ascii "six11") }
    else wsuri
  let uritype :=
    match types.find? (fun t => wsuri.type = some t.1) with
    | some t => t.2
    | none => .wsUri
  match uritype with
  | .extension =>
    let nJunk := atoi (wsuri.command.getD [])
    if 9990 ≤ nJunk ∧ nJunk ≤ 9999 then (.featureRequest, wsuri)
    else (.extension, wsuri)
  | uritype => (uritype, wsuri)

/-- The loop that takes the dashes out; `none` when there is something else
than digits and dashes. -/
def stripDashes : Bytes → Option Bytes
  | [] => some []
  | c :: uri =>
    if isDigit c then (stripDashes uri).map (c :: ·)
    else if c ≠ '-'.toUInt8 then none
    else stripDashes uri

/-- The URI that a user is reached at: `ext-`, the extension and the site. -/
def extensionUri (type : Bytes) (nExten : ℤ) (site token : Bytes) : Bytes :=
  snprintf 255 (type ++ ascii "-" ++ printInt nExten ++ ascii "-0-" ++ site ++ ascii "-" ++ token)

/-- `parse_ws_uri_buffer`, whose failure makes the URI invalid. -/
def parsedAs (uritype : UriType) (buffer : Bytes) : UriType × WsUri :=
  match parseWsUriBuffer buffer with
  | (wsuri, true) => (uritype, wsuri)
  | (wsuri, false) => (.invalidUri, wsuri)

/-- A user of a site. -/
def localUserType (env : RouterEnv) (wsuri : WsUri) (uri token : Bytes) : UriType × WsUri :=
  if !env.wsCtccallFlag && env.is3pcc then (.localUser, wsuri)
  else
    let nExten := env.getDirectExtension uri
    if nExten = -1 then (.invalidUri, wsuri)
    else
      match cutAt wsSeperator uri with
      | none => (.failed, wsuri)
      | some (_, temp) =>
        parsedAs .extension (extensionUri (ascii "ext") nExten temp token)

/-- What is not a worksmart URI. -/
def numberType (env : RouterEnv) (wsuri : WsUri) (uri token : Bytes)
    (uriLen : ℕ) : UriType × WsUri × Bytes :=
  let nLength := uri.length
  let nJunk := atoi uri
  if nJunk ≠ 0 ∧ strstr uri (ascii "-") = none then
    if 10 ≤ nJunk ∧ nJunk ≤ 80 ∧ nLength = 2 then (.pickupRequest, wsuri, uri)
    else if strncmpEq uri env.internationalPrefix env.prefixLength then
      (.internationalPhnumber, wsuri, uri)
    else if 7 ≤ nLength ∧ nLength ≤ 11 then (.phoneNumber, wsuri, uri)
    else if 10 ≤ nLength then (.phoneNumber, wsuri, uri)
    else (.invalidUri, wsuri, uri)
  else
    match stripDashes uri with
    | none =>
      let (uritype, wsuri) := localUserType env wsuri uri token
      (uritype, wsuri, uri)
    | some tmpuri => (.phoneNumber, wsuri, strncpy uri tmpuri (uriLen - 1))

/-- A call from a click-to-call page: it is made to the extension, and the token
of the URI may become that of the call. -/
def ctcType (env : RouterEnv) (wsuri : WsUri) (token : Bytes) (tokenLen : ℕ) :
    UriType × WsUri × Bytes :=
  let group := wsuri.group.getD []
  if group.head?.any isDigit ∧ group.length ≤ 5 then
    let nExten := atoi group
    let token :=
      if atoi env.prio1 ≠ 1 ∨ atoi (wsuri.context.getD []) = 0 then
        snprintf (tokenLen - 1) (wsuri.token.getD [])
      else token
    let (uritype, wsuri) :=
      parsedAs .iextcall (extensionUri (ascii "iext") nExten env.ctcSitename token)
    (uritype, wsuri, token)
  else (.ctcRequest, wsuri, token)

/-- A click-to-call buddy. -/
def ctcbType (env : RouterEnv) (wsuri : WsUri) (uri token : Bytes) : UriType × WsUri :=
  let (wsuri1, parsed) := parseWsUriBuffer uri
  let tmpuri :=
    if parsed then
      snprintf 255 (wsuri1.group.getD [] ++ ascii "-" ++ wsuri1.context.getD [])
    else []
  let nExten := env.getDirectExtension tmpuri
  if nExten = -1 then (.invalidUri, wsuri)
  else
    match cutAt wsSeperator tmpuri with
    | none => (.failed, wsuri)
    | some (_, temp) =>
      let own := wsuri1.token.getD []
      parsedAs .extension (extensionUri (ascii "ext") nExten temp (if own ≠ [] then own else token))

/-- What click-to-call changes. -/
def ctcChanges (env : RouterEnv) (r : Routed) (tokenLen : ℕ) : Routed :=
  if !env.wsCtccallFlag then r
  else if r.uritype = .ctcRequest ∧ env.is3pccacdsup then
    let (uritype, wsuri, token) := ctcType env r.wsuri r.token tokenLen
    ⟨uritype, wsuri, r.uri, token⟩
  else if r.uritype = .wsctcbcall then
    let (uritype, wsuri) := ctcbType env r.wsuri r.uri r.token
    ⟨uritype, wsuri, r.uri, r.token⟩
  else r

/-- A null token is replaced by that of the call. -/
def Routed.addToken (r : Routed) : Routed :=
  { r with wsuri := { r.wsuri with token := r.wsuri.token.or (some r.token) } }

def getUriType (env : RouterEnv) (uri token : Bytes) (uriLen tokenLen : ℕ) :
    Routed :=
  let r : Routed :=
    match parseWsUri env.fromUser uri token with
    | (wsuri, true) =>
      let (uritype, wsuri) := wsUriType wsuri
      ⟨uritype, wsuri, uri, token⟩
    | (wsuri, false) =>
      let (uritype, wsuri, uri) := numberType env wsuri uri token uriLen
      ⟨uritype, wsuri, uri, token⟩
  if r.uritype = .failed then r
  else
    let r := ctcChanges env r tokenLen
    if r.uritype = .failed then r else r.addToken

/-- The other characters that `VALIDATE_URI` lets through. -/
def uriValidChars : Bytes := ascii ".-_+"

def isAlnum (c : UInt8) : Bool :=
  isDigit c || (65 ≤ c && c ≤ 90) || (97 ≤ c && c ≤ 122)

/-- `worksmart_get_dialplan2` up to the point where the call is handled by its
type: `none` is a reply with which the number is rejected.  `contactsOk` is what
`Validate_Contact` finds. -/
def worksmartGetDialplan2 (env : RouterEnv) (contactsOk : Bool)
    (user timeS : Bytes) : Option Routed :=
  let uri := user.take 99
  if uri.length < 2 ∨ 98 < uri.length then none
  else if ∃ c ∈ uri, ¬isAlnum c ∧ c ∉ uriValidChars then none
  else if env.fromUser = none ∨ !contactsOk then none
  else
    let r := getUriType env uri timeS 255 32
    if r.uritype = .phoneNumber ∧ 12 < r.uri.length then none else some r

end Msicp.Worksmart

/-!
## What the reader of the billing records takes a number for
(`get_fifo_uri_type`)
-/

namespace Msicp.Worksmart

open Msicp.Support
open Msicp.Dialog (atoi)

/-- `enum UriType` of the reader -/
inductive FifoUriType
  | ivrNumber
  | operatorRouted
  | ivrCommand
  | cnfRequest
  | acdRequest
  | directDID
  | voiceMail
  | voiceMailReading
  | greetingManager
  | extension
  | dirRequest
  | acdVoicemail
  | acdVoicemailTransfer
  | acdAgent
  | pstnTransfer
  | pickupRequest
  | mwiRequest
  | acdDID
  | faxURI
  | pttURI
  | omsRequest
  | xferRequest
  | groupEXT
  | inbXfer
  | lcr
  | phoneNumber
  | internationalPhnumber
  | wsUri
  | localUser
  | invalidUri

/-- `types` of the reader -/
def fifoTypes : List (Bytes × FifoUriType) :=
  [(ascii "ivr", .ivrNumber), (ascii "opr", .operatorRouted),
    (ascii "cmd", .ivrCommand), (ascii "cnf", .cnfRequest),
    (ascii "acd", .acdRequest), (ascii "xfer", .directDID),
    (ascii "vml", .voiceMail), (ascii "vmr", .voiceMailReading),
    (ascii "rec", .greetingManager), (ascii "ext", .extension),
    (ascii "dir", .dirRequest), (ascii "vmln", .acdVoicemail),
    (ascii "vmlo", .acdVoicemailTransfer), (ascii "agt", .acdAgent),
    (ascii "pst", .pstnTransfer), (ascii "pkp", .pickupRequest),
    (ascii "mwi", .mwiRequest), (ascii "did", .acdDID),
    (ascii "fax", .faxURI), (ascii "ptt", .pttURI),
    (ascii "oms", .omsRequest), (ascii "xfer", .xferRequest),
    (ascii "gext", .groupEXT), (ascii "inbxfer", .inbXfer),
    (ascii "lcr", .lcr)]

/-- What `get_fifo_uri_type` returns and writes. -/
structure FifoRouted where
  uritype : FifoUriType
  wsuri : FifoWsUri
  buffer : Bytes

/-- The prefix of international numbers that the reader is configured with. -/
structure FifoEnv where
  wsdbInternationalPrefix : Bytes
  wsdbInternationalPrefixLen : ℕ

/-- What is not a worksmart URI. -/
def fifoNumberType (env : FifoEnv) (buffer : Bytes) (length : ℕ) : FifoUriType × Bytes :=
  let nLength := buffer.length
  let nJunk := atoi buffer
  if nJunk ≠ 0 ∧ strstr buffer (ascii "-") = none then
    if 10 ≤ nJunk ∧ nJunk ≤ 80 ∧ nLength = 2 then (.pickupRequest, buffer)
    else if strncmpEq buffer env.wsdbInternationalPrefix
        env.wsdbInternationalPrefixLen then
      (.internationalPhnumber, buffer)
    else if 7 ≤ nLength ∧ nLength ≤ 12 then (.phoneNumber, buffer)
    else (.invalidUri, buffer)
  else
    match stripDashes buffer with
    | none => (.localUser, buffer)
    | some tmpuri => (.phoneNumber, strncpy buffer tmpuri (length - 1))

def getFifoUriType (env : FifoEnv) (buffer : Bytes) (length : ℕ) : FifoRouted :=
  match parseWsFifoUriBuffer buffer with
  | (wsuri, true) =>
    match fifoTypes.find? (fun t => wsuri.type = some t.1) with
    | some t => ⟨t.2, wsuri, buffer⟩
    | none => ⟨.wsUri, wsuri, buffer⟩
  | (wsuri, false) =>
    let (uritype, buffer) := fifoNumberType env buffer length
    ⟨uritype, wsuri, buffer⟩

end Msicp.Worksmart
