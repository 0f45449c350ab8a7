import EzpFirmware.Lib.Scanning
import EzpFirmware.Lib.Lines
import EzpFirmware.Lib.Substrings
import EzpFirmware.Lib.Terminators

/-! # The requests to the name server

A request is posted by a command whose output is read piece by piece into one buffer. The
first piece with an opening tag is cut at the closing tag, and the number between them is the
code of the answer.
-/
namespace EzpFirmware.Ddns
open Lib

/-! ## Codes -/

def CGIERROR_BASE : ℤ := -100
def CGIERROR_UNKNOWN_FUNC : ℤ := CGIERROR_BASE - 1
def CGIERROR_PARAMETER_NOT_FOUND : ℤ := CGIERROR_BASE - 2
def CGIERROR_USED : ℤ := CGIERROR_BASE - 3
def CGIERROR_NO_DATA : ℤ := CGIERROR_BASE - 4
def CGIERROR_DB_NOT_FOUND : ℤ := CGIERROR_BASE - 5
def CGIERROR_KEY_NOT_MATCH : ℤ := CGIERROR_BASE - 6
def CGIERROR_UNKNOWN_ERROR : ℤ := CGIERROR_BASE - 99
def QNAPDDNS_ERR_NAME_USED : ℤ := CGIERROR_BASE - 101
def QNAPDDNS_ERR_NAME_FAIL : ℤ := CGIERROR_BASE - 102
def QNAPDDNS_ERR_NETWORK_OUT : ℤ := CGIERROR_BASE - 103
def QNAPDDNS_ERR_SERVER_BUZY : ℤ := CGIERROR_BASE - 104
def QNAPDDNS_ERR_SN_MAC_FAIL : ℤ := CGIERROR_BASE - 105
def QNAPDDNS_ERR_OPEN_FILE : ℤ := CGIERROR_BASE - 107

/-! ## The reply loop -/

/-- The size of `tmp_buffer`. -/
def TMP_BUFFER : ℕ := 512

/-- A line feed, which ends a piece. -/
def LF : UInt8 := 0x0a

def openTag : List UInt8 := (CStr.ofString "<returnCode>").val

def closeTag : List UInt8 := (CStr.ofString "</returnCode>").val

/-- `fgets` of a piece. -/
def fgets (buffer piece : List UInt8) : Option (List UInt8) := pokeIn buffer 0 (piece ++ [0])

/-- The string at a place of the buffer; a string that does not end in it is a fault. -/
def stringAt (buffer : List UInt8) (p : ℕ) : Option CStr :=
  if (0 : UInt8) ∈ buffer.drop p then some (CStr.read (buffer.drop p)) else none

/-- What a piece gives: a fault, no code, or a code. -/
def readCode (buffer : List UInt8) : Option (Option ℤ) := do
  let text ← stringAt buffer 0
  match placeOf text.val openTag with
  | none => some none
  | some p =>
    -- `*q = '\0'` is done for a null pointer too
    let q ← placeOf text.val closeTag
    let buffer ← pokeIn buffer q [0]
    let code ← stringAt buffer (p + openTag.length)
    some (some (atoi code))

/-- The loop over the pieces of a reply: a fault, or the code if there is one. -/
def replyLoop (buffer : List UInt8) : List (List UInt8) → Option (Option ℤ)
  | [] => some none
  | piece :: pieces =>
    (fgets buffer piece).bind fun buffer =>
      match readCode buffer with
      | none => none
      | some none => replyLoop buffer pieces
      | some (some code) => some (some code)

/-- The pieces that `fgets` makes of a reply. -/
def replyPieces (reply : List UInt8) : List (List UInt8) := pieces LF (TMP_BUFFER - 1) reply

/-! ## The requests -/

/-- What a request meets: whether its file can be opened, the output of the command if that can
be started, and what the buffer has in it. -/
structure World where
  fileOpens : Bool
  pipe : Option (List UInt8)
  buffer : {buffer : List UInt8 // buffer.length = TMP_BUFFER}

/-- The command and its output; `result` is the `switch` over the code. -/
def sendRequest (result : ℤ → ℤ) (W : World) : Option ℤ :=
  match W.pipe with
  | none => some QNAPDDNS_ERR_NETWORK_OUT
  | some reply =>
    (replyLoop W.buffer.val (replyPieces reply)).map fun code =>
      result (code.getD QNAPDDNS_ERR_NETWORK_OUT)

/-- The `switch` of `check_mycloudwifi_name_ex`. -/
def checkResult (retVal : ℤ) : ℤ :=
  if retVal = 0 then 0
  else if retVal = CGIERROR_USED then QNAPDDNS_ERR_NAME_USED
  else if retVal = CGIERROR_KEY_NOT_MATCH then QNAPDDNS_ERR_SN_MAC_FAIL
  else QNAPDDNS_ERR_NETWORK_OUT

/-- The `switch` of the other requests. -/
def updateResult (retVal : ℤ) : ℤ :=
  if retVal = 0 then 0
  else if retVal = CGIERROR_USED then QNAPDDNS_ERR_NAME_USED
  else if retVal = CGIERROR_BASE then QNAPDDNS_ERR_NETWORK_OUT
  else if retVal ∈ [CGIERROR_UNKNOWN_FUNC, CGIERROR_PARAMETER_NOT_FOUND, CGIERROR_NO_DATA,
      CGIERROR_DB_NOT_FOUND, CGIERROR_UNKNOWN_ERROR] then QNAPDDNS_ERR_SERVER_BUZY
  else if retVal = CGIERROR_KEY_NOT_MATCH then QNAPDDNS_ERR_SN_MAC_FAIL
  else QNAPDDNS_ERR_NETWORK_OUT

def registerKeyWord : List CStr :=
  ["www", "ftp", "mail", "shop", "file", "files", "qnap", "wiki", "community", "forum",
    "download", "firmware", "RD", "DQV", "Sales", "hr", "finance", "accounting", "warehouse",
    "NVR", "NMP", "NAS", "demo", "tsd", "support", "doc", "marketing", "surveillance", "ODM",
    "OEM", "buffalo", "synology", "thecus", "iomaga", "wd", "seagate", "dlink", "netgear",
    "readynas"].map CStr.ofString

def isalnum (b : UInt8) : Bool :=
  (0x30 ≤ b ∧ b ≤ 0x39) ∨ (0x41 ≤ b ∧ b ≤ 0x5a) ∨ (0x61 ≤ b ∧ b ≤ 0x7a)

def tolower (b : UInt8) : UInt8 := if 0x41 ≤ b ∧ b ≤ 0x5a then b + 0x20 else b

/-- `is_valid_mycloudwifi_name`: 0 success, 1 is not valid, 2 is used. -/
def isValidMycloudwifiName (name : CStr) : ℕ :=
  if name.len < 3 ∨ name.len > 30 then 1
  else if name.val.any fun b => !isalnum b && b != 0x2e then 1
  else if registerKeyWord.any fun w => w.val.map tolower == name.val.map tolower then 2
  else 0

/-- What `check_mycloudwifi_name_ex` and `set_mycloudwifi_ddns` do alike. -/
def requestWithName (result : ℤ → ℤ) (dname : CStr) (W : World) : Option ℤ :=
  if isValidMycloudwifiName dname = 1 then some QNAPDDNS_ERR_NAME_FAIL
  else if isValidMycloudwifiName dname = 2 then some QNAPDDNS_ERR_NAME_USED
  else if W.fileOpens = false then some QNAPDDNS_ERR_OPEN_FILE
  else sendRequest result W

def checkMycloudwifiNameEx (dname : CStr) (W : World) : Option ℤ :=
  requestWithName checkResult dname W

def setMycloudwifiDdns (dname : CStr) (W : World) : Option ℤ :=
  requestWithName updateResult dname W

def disableMycloudwifiDdns (W : World) : Option ℤ :=
  if W.fileOpens = false then some QNAPDDNS_ERR_OPEN_FILE else sendRequest updateResult W

def updateMycloudwifiDdns (W : World) : Option ℤ :=
  if W.fileOpens = false then some QNAPDDNS_ERR_NETWORK_OUT else sendRequest updateResult W

/-! ## What is asked for -/

inductive Request where
  | check (dname : CStr)
  | set (dname : CStr)
  | disable
  | update

def Request.run : Request → World → Option ℤ
  | .check dname => checkMycloudwifiNameEx dname
  | .set dname => setMycloudwifiDdns dname
  | .disable => disableMycloudwifiDdns
  | .update => updateMycloudwifiDdns

/-- A request has no name, or one that is valid. -/
def Request.IsNamed : Request → Prop
  | .check dname | .set dname => isValidMycloudwifiName dname = 0
  | .disable | .update => True

/-- A request gets as far as the reply. -/
def Request.Gets (r : Request) (W : World) (reply : List UInt8) : Prop :=
  r.IsNamed ∧ W.fileOpens = true ∧ W.pipe = some reply

/-- The decimal number 0. -/
def IsZero (content : List UInt8) : Prop := content ≠ [] ∧ ∀ b ∈ content, b = 0x30

/-- A reply has an element with the decimal number 0. -/
def HasZero (reply : List UInt8) : Prop :=
  ∃ content, openTag ++ content ++ closeTag <:+: reply ∧ IsZero content

/-- The request ends without a fault, and with 0 only if the reply says so. -/
def Survives (r : Request) (W : World) : Prop :=
  ∃ ret, r.run W = some ret ∧ (ret = 0 → ∃ reply, W.pipe = some reply ∧ HasZero reply)

/-! ## The first code -/

/-- The first piece of a reply with an opening tag, up to its terminator. -/
def firstOpening (reply : List UInt8) : Option (List UInt8) :=
  ((replyPieces reply).map fun piece => (CStr.read piece).val).find? fun text =>
    (placeOf text openTag).isSome

/-- The text from behind the opening tag, up to the closing tag if that is behind it. -/
def codeText (text : List UInt8) : List UInt8 :=
  let p := (placeOf text openTag).getD 0 + openTag.length
  let q := (placeOf text closeTag).getD 0
  if p ≤ q then (text.take q).drop p else text.drop p

/-- The first code of a reply, and inside `none` if it is not closed. -/
def firstCode (reply : List UInt8) : Option (Option (List UInt8)) :=
  (firstOpening reply).map fun text =>
    if (placeOf text closeTag).isSome then some (codeText text) else none

/-- Behind white space and a sign stands no digit but 0, up to the first character that is no
digit. -/
def StartsWithZeros (code : List UInt8) : Prop :=
  let number := code.dropWhile fun b => b = SPACE ∨ 0x09 ≤ b ∧ b ≤ 0x0d
  let digits := if number.head? = some 0x2d ∨ number.head? = some PLUS then number.tail
    else number
  ∀ b ∈ digits.takeWhile isDigit, b = 0x30

/-- The first piece with an opening tag has a closing tag too, and its code starts with another
number than 0 unless some element of the reply is 0. -/
def Answers (reply : List UInt8) : Prop :=
  ∀ text, firstOpening reply = some text →
    closeTag <:+: text ∧ (StartsWithZeros (codeText text) → HasZero reply)

end EzpFirmware.Ddns
