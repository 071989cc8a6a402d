import Msicp.Headers.ParseHeaders
import Msicp.Support.FoldedWords

/-!
# The cases of `parse_hname2`

The names of header fields are recognised four bytes at a time.  In a case of
a switch over such a word the bytes of the word have been passed, `p += 4`, and
in a case of a single byte that byte, `p++`.
-/

namespace Msicp.Headers

open Msicp.Support

/-! ## The words -/

namespace Key

def acce : ℕ := 0x65636361 -- "acce"
def allo : ℕ := 0x6f6c6c61 -- "allo"
def auth : ℕ := 0x68747561 -- "auth"
def oriz : ℕ := 0x7a69726f -- "oriz"
def atio : ℕ := 0x6f697461 -- "atio"
def call : ℕ := 0x6c6c6163 -- "call"
def id2 : ℕ := 0x2064692d -- "-id "
def id1 : ℕ := 0x3a64692d -- "-id:"
def cont : ℕ := 0x746e6f63 -- "cont"
def act2 : ℕ := 0x20746361 -- "act "
def act1 : ℕ := 0x3a746361 -- "act:"
def ent : ℕ := 0x2d746e65 -- "ent-"
def leng : ℕ := 0x676e656c -- "leng"
def th12 : ℕ := 0x203a6874 -- "th: "
def type : ℕ := 0x65707974 -- "type"
def cseq : ℕ := 0x71657363 -- "cseq"
def expi : ℕ := 0x69707865 -- "expi"
def res2 : ℕ := 0x20736572 -- "res "
def res1 : ℕ := 0x3a736572 -- "res:"
def «from» : ℕ := 0x6d6f7266 -- "from"
def max : ℕ := 0x2d78616d -- "max-"
def forw : ℕ := 0x77726f66 -- "forw"
def ards : ℕ := 0x73647261 -- "ards"
def prox : ℕ := 0x786f7270 -- "prox"
def yAu : ℕ := 0x75612d79 -- "y-au"
def thor : ℕ := 0x726f6874 -- "thor"
def izat : ℕ := 0x74617a69 -- "izat"
def ion2 : ℕ := 0x206e6f69 -- "ion "
def ion1 : ℕ := 0x3a6e6f69 -- "ion:"
def yRe : ℕ := 0x65722d79 -- "y-re"
def quir : ℕ := 0x72697571 -- "quir"
def reco : ℕ := 0x6f636572 -- "reco"
def rdR : ℕ := 0x722d6472 -- "rd-r"
def oute : ℕ := 0x6574756f -- "oute"
def rout : ℕ := 0x74756f72 -- "rout"
def supp : ℕ := 0x70707573 -- "supp"
def orte : ℕ := 0x6574726f -- "orte"
def to12 : ℕ := 0x203a6f74 -- "to: "
def unsu : ℕ := 0x75736e75 -- "unsu"
def ppor : ℕ := 0x726f7070 -- "ppor"
def ted2 : ℕ := 0x20646574 -- "ted "
def ted1 : ℕ := 0x3a646574 -- "ted:"
def via2 : ℕ := 0x20616976 -- "via "
def via1 : ℕ := 0x3a616976 -- "via:"
def even : ℕ := 0x6e657665 -- "even"
def ptL : ℕ := 0x6c2d7470 -- "pt-l"
def angu : ℕ := 0x75676e61 -- "angu"
def age2 : ℕ := 0x20656761 -- "age "
def age1 : ℕ := 0x3a656761 -- "age:"
def orga : ℕ := 0x6167726f -- "orga"
def niza : ℕ := 0x617a696e -- "niza"
def tion : ℕ := 0x6e6f6974 -- "tion"
def prio : ℕ := 0x6f697270 -- "prio"
def rity : ℕ := 0x79746972 -- "rity"
def subj : ℕ := 0x6a627573 -- "subj"
def ect2 : ℕ := 0x20746365 -- "ect "
def ect1 : ℕ := 0x3a746365 -- "ect:"
def user : ℕ := 0x72657375 -- "user"
def dashAge : ℕ := 0x6567612d -- "-age"
def disp : ℕ := 0x70736964 -- "disp"
def osit : ℕ := 0x7469736f -- "osit"
def ptD : ℕ := 0x64617470 -- not "pt-d", as its comment says, but "ptad"
def ispo : ℕ := 0x6f707369 -- "ispo"
def siti : ℕ := 0x69746973 -- "siti"
def dive : ℕ := 0x65766964 -- "dive"
def rsio : ℕ := 0x6f697372 -- "rsio"
def remo : ℕ := 0x6f6d6572 -- "remo"
def teP : ℕ := 0x702d6574 -- "te-p"
def arty : ℕ := 0x79747261 -- "arty"

end Key

/-- The type of a name that has been read, and its length where the case
returns at once instead of going to `dc_end`. -/
structure HnameCase where
  type : HdrType
  len : Option ℕ
  deriving DecidableEq

/-- `hdr->type = type; goto dc_end` -/
def dcEnd (type : HdrType) : Recogniser HnameCase :=
  found ⟨type, none⟩

/-- `hdr->type = type; hdr->name.len = len; return (p + 4)` -/
def hnameReturn (type : HdrType) (len : ℕ) : Recogniser HnameCase :=
  found ⟨type, some len⟩

/-! ## The families of names -/

section Cases

open Key

def via1Case : Recogniser HnameCase := hnameReturn .via 3

def via2Case : Recogniser HnameCase := dcEnd .via

def fromCase : Recogniser HnameCase := dcEnd .fromHf

def to12Case : Recogniser HnameCase := hnameReturn .toHf 2

def cseqCase : Recogniser HnameCase := dcEnd .cseq

def idCase : Recogniser HnameCase :=
  dwordCase id1 (hnameReturn .callid 7) <|
  dwordCase id2 (dcEnd .callid) other

def callCase : Recogniser HnameCase := idCase

def thCase : Recogniser HnameCase :=
  dwordCase th12 (hnameReturn .contentlength 14) <|
  byteCase 't'.toUInt8 (byteCase 'h'.toUInt8 (dcEnd .contentlength) other) other

def ionCase : Recogniser HnameCase :=
  dwordCase ion1 (hnameReturn .contentdisposition 19) <|
  dwordCase ion2 (dcEnd .contentdisposition) other

def dispositionCase : Recogniser HnameCase := dwordCase osit ionCase other

def contentCase : Recogniser HnameCase :=
  dwordCase leng thCase <|
  dwordCase type (dcEnd .contenttype) <|
  dwordCase disp dispositionCase other

def actEntCase : Recogniser HnameCase :=
  dwordCase act1 (hnameReturn .contact 7) <|
  dwordCase act2 (dcEnd .contact) <|
  dwordCase ent contentCase other

def contCase : Recogniser HnameCase := actEntCase

def routCase : Recogniser HnameCase :=
  byteCase 'e'.toUInt8 (dcEnd .route) other

def ardsCase : Recogniser HnameCase :=
  dwordCase ards (dcEnd .maxforwards) other

def forwCase : Recogniser HnameCase := dwordCase forw ardsCase other

def maxCase : Recogniser HnameCase := forwCase

def outeCase : Recogniser HnameCase :=
  dwordCase oute (dcEnd .recordroute) other

def rdRCase : Recogniser HnameCase := dwordCase rdR outeCase other

def recoCase : Recogniser HnameCase := rdRCase

def authAtioCase : Recogniser HnameCase :=
  dwordCase atio (byteCase 'n'.toUInt8 (dcEnd .authorization) other) other

def authOrizCase : Recogniser HnameCase := dwordCase oriz authAtioCase other

def authCase : Recogniser HnameCase := authOrizCase

def orteCase : Recogniser HnameCase :=
  dwordCase orte (byteCase 'd'.toUInt8 (dcEnd .supported) other) other

def suppCase : Recogniser HnameCase := orteCase

def expiResCase : Recogniser HnameCase :=
  dwordCase res1 (hnameReturn .expires 7) <|
  dwordCase res2 (dcEnd .expires) other

def expiCase : Recogniser HnameCase := expiResCase

/-- `ION_CASE` -/
def proxIonCase : Recogniser HnameCase :=
  dwordCase ion1 (hnameReturn .proxyauth 19) <|
  dwordCase ion2 (dcEnd .proxyauth) other

def izatCase : Recogniser HnameCase := dwordCase izat proxIonCase other

def thorCase : Recogniser HnameCase := dwordCase thor izatCase other

def quirCase : Recogniser HnameCase :=
  dwordCase quir (byteCase 'e'.toUInt8 (dcEnd .proxyrequire) other) other

def prox2Case : Recogniser HnameCase :=
  dwordCase yAu thorCase <|
  dwordCase yRe quirCase other

def proxCase : Recogniser HnameCase := prox2Case

def alloCase : Recogniser HnameCase :=
  byteCase 'w'.toUInt8 (dcEnd .allow) other

def tedCase : Recogniser HnameCase :=
  dwordCase ted1 (hnameReturn .unsupported 11) <|
  dwordCase ted2 (dcEnd .unsupported) other

def pporCase : Recogniser HnameCase := dwordCase ppor tedCase other

def unsuCase : Recogniser HnameCase := pporCase

def evenCase : Recogniser HnameCase :=
  byteCase 't'.toUInt8 (dcEnd .event) other

def ageCase : Recogniser HnameCase :=
  dwordCase age1 (hnameReturn .acceptlanguage 15) <|
  dwordCase age2 (dcEnd .acceptlanguage) other

def anguCase : Recogniser HnameCase := dwordCase angu ageCase other

def onCase : Recogniser HnameCase :=
  byteCase 'o'.toUInt8 (byteCase 'n'.toUInt8 (dcEnd .acceptdisposition) other) other

def sitiCase : Recogniser HnameCase := dwordCase siti onCase other

def ispoCase : Recogniser HnameCase := dwordCase ispo sitiCase other

/-- `acce_CASE`, with the switch of `ptld_CASE` first. -/
def acceCase : Recogniser HnameCase :=
  dwordCase ptL anguCase <|
  dwordCase ptD ispoCase <|
  byteCase 'p'.toUInt8 (byteCase 't'.toUInt8 (dcEnd .accept) other) other

def tionCase : Recogniser HnameCase :=
  dwordCase tion (dcEnd .organization) other

def nizaCase : Recogniser HnameCase := dwordCase niza tionCase other

def orgaCase : Recogniser HnameCase := nizaCase

def rityCase : Recogniser HnameCase := dwordCase rity (dcEnd .priority) other

def prioCase : Recogniser HnameCase := rityCase

def ectCase : Recogniser HnameCase :=
  dwordCase ect1 (hnameReturn .subject 7) <|
  dwordCase ect2 (dcEnd .subject) other

def subjCase : Recogniser HnameCase := ectCase

def ntCase : Recogniser HnameCase :=
  byteCase 'n'.toUInt8 (byteCase 't'.toUInt8 (dcEnd .useragent) other) other

def userCase : Recogniser HnameCase := dwordCase dashAge ntCase other

def rsioCase : Recogniser HnameCase :=
  dwordCase rsio (byteCase 'n'.toUInt8 (dcEnd .diversion) other) other

def diveCase : Recogniser HnameCase := rsioCase

/-- `_ID_CASE` -/
def remoIdCase : Recogniser HnameCase :=
  dwordCase id1 (hnameReturn .rpid 15) <|
  dwordCase id2 (dcEnd .rpid) other

def artyCase : Recogniser HnameCase := dwordCase arty remoIdCase other

def tePCase : Recogniser HnameCase := dwordCase teP artyCase other

def remoCase : Recogniser HnameCase := tePCase

/-- `FIRST_QUATERNIONS`; `els` is the `default` of the switch. -/
def firstQuaternions (els : Recogniser HnameCase) : Recogniser HnameCase :=
  dwordCase via1 via1Case <|
  dwordCase «from» fromCase <|
  dwordCase to12 to12Case <|
  dwordCase cseq cseqCase <|
  dwordCase call callCase <|
  dwordCase cont contCase <|
  dwordCase rout routCase <|
  dwordCase max maxCase <|
  dwordCase reco recoCase <|
  dwordCase via2 via2Case <|
  dwordCase auth authCase <|
  dwordCase supp suppCase <|
  dwordCase expi expiCase <|
  dwordCase prox proxCase <|
  dwordCase allo alloCase <|
  dwordCase unsu unsuCase <|
  dwordCase even evenCase <|
  dwordCase acce acceCase <|
  dwordCase orga orgaCase <|
  dwordCase prio prioCase <|
  dwordCase subj subjCase <|
  dwordCase user userCase <|
  dwordCase dive diveCase <|
  dwordCase remo remoCase els

end Cases

/-- `PARSE_COMPACT`: the byte behind the letter is compared as it is. -/
def parseCompact (id : HdrType) : Recogniser HnameCase := fun mem p =>
  if mem (p + 1) = 32 then .found ⟨id, none⟩ (p + 2)
  else if mem (p + 1) = 58 then .found ⟨id, some 1⟩ (p + 2)
  else .other p

/-- `case 't'` of the compact names. -/
def compactT : Recogniser HnameCase := fun mem p =>
  if lowerByte (mem (p + 1)) = 'o'.toUInt8 ∨ lowerByte (mem (p + 1)) = 32 then
    .found ⟨.toHf, none⟩ (p + 2)
  else if lowerByte (mem (p + 1)) = 58 then .found ⟨.toHf, some 1⟩ (p + 2)
  else .other p

/-- The `default` of the switch: the compact names. -/
def compactNames : Recogniser HnameCase := fun mem p =>
  let c := lowerByte (mem p)
  if c = 't'.toUInt8 then compactT mem p
  else if c = 'v'.toUInt8 then parseCompact .via mem p
  else if c = 'f'.toUInt8 then parseCompact .fromHf mem p
  else if c = 'i'.toUInt8 then parseCompact .callid mem p
  else if c = 'm'.toUInt8 then parseCompact .contact mem p
  else if c = 'l'.toUInt8 then parseCompact .contentlength mem p
  else if c = 'k'.toUInt8 then parseCompact .supported mem p
  else if c = 'c'.toUInt8 then parseCompact .contenttype mem p
  else if c = 'o'.toUInt8 then parseCompact .event mem p
  else .other p

end Msicp.Headers
