import EzpFirmware.Lib.Lines
import EzpFirmware.Lib.LittleEndian
import EzpFirmware.Lib.Scanning
import EzpFirmware.Qcloud.Request

/-! # Configuration files

A table of parameters says where the values of a configuration block lie. One function writes the
values to a file, another one reads a file back. The reader looks for `<Keyword=Value>`, and the
writer leaves the delimiters out.
-/
namespace EzpFirmware.Qcloud
open Lib UserNvram

def CONF_KW_LEFT_DELIMITER : UInt8 := 0x3c

def CONF_KW_RIGHT_DELIMITER : UInt8 := 0x3e

def CONF_KW_VAL_SEPERATOR : UInt8 := 0x3d

def COMMENT_CHAR : UInt8 := 0x23

def DOUBLE_QUOTE_CHAR : UInt8 := 0x22

def COLON : UInt8 := 0x3a

def MAC_STR_LEN : ℕ := 12

def IP_HOST_LEN : ℕ := 128

def URL_STR_LEN : ℕ := 256

def ADDR_STR_LEN : ℕ := 512

def CONF_BUFF_LEN : ℕ := 512

def ERR_NO_FILE : ℤ := -979

def ERR_INVALID_FORMAT : ℤ := -978

def ERR_NOT_FOUND : ℤ := -969

/-- The types of parameters. -/
inductive ConfType where
  | string
  | int
  | bool
  | ip
  | url
  | addrList
  | mac
  deriving DecidableEq

/-- `CONF_PARAM_T`. -/
structure ConfParam where
  keyword : CStr
  type : ConfType
  maxLen : ℕ
  offset : ℕ

/-! ## Texts -/

/-- `util_trim`. One character in front of spaces keeps them. -/
def utilTrim (str : List UInt8) (leadingOnly : Bool) : Option (List UInt8) :=
  match str.dropWhile isSpace with
  | [] => none
  | b :: rest =>
    if leadingOnly then some (b :: rest)
    else
      let stop := (b :: rest).rdropWhile isSpace
      some (if 1 < stop.length then stop else b :: rest)

/-- `util_trim_quotes`. -/
def utilTrimQuotes : List UInt8 → List UInt8
  | [] => []
  | c :: rest =>
    if (c = DOUBLE_QUOTE_CHAR ∨ c = QUOTE) ∧ c ∈ rest then rest.takeWhile (· ≠ c) else c :: rest

/-- The loop of `util_strip_mac`: the bytes, and the number of colons. -/
def stripMacLoop : List UInt8 → List UInt8 → ℕ → List UInt8 × ℕ
  | [], dst, colon => (dst, colon)
  | c :: rest, dst, colon =>
    if c = COLON then stripMacLoop rest dst (colon + 1)
    else if dst.length + 1 = MAC_STR_LEN then (dst ++ [c], if rest ≠ [] then 1 else colon)
    else stripMacLoop rest (dst ++ [c]) colon

/-- `util_strip_mac`. -/
def utilStripMac (srcMac : List UInt8) : List UInt8 :=
  match utilTrim srcMac false with
  | none => []
  | some src =>
    let (dst, colon) := stripMacLoop src [] 0
    if (colon ≠ 0 ∧ colon ≠ 5) ∨ dst.length ≠ MAC_STR_LEN then [] else dst

/-- `tolower`. -/
def lowered (b : UInt8) : UInt8 := if 0x41 ≤ b ∧ b ≤ 0x5a then b + 0x20 else b

/-- `strcasecmp` finds no difference. -/
def sameCaseless (s t : List UInt8) : Bool := s.map lowered = t.map lowered

/-- `strtol` to the base 10, when it reads all of a text that is not empty. -/
def strtolWhole (value : List UInt8) : Option ℤ :=
  match scanInt value with
  | some (v, []) => some v
  | _ => none

/-! ## The reader -/

/-- `conf_get_value`. -/
def confGetValue (buf : List UInt8) (keyword : Option (List UInt8)) :
    Except ℤ (List UInt8 × Option (List UInt8)) :=
  let start := (buf.dropWhile (· ≠ CONF_KW_LEFT_DELIMITER)).tail
  if CONF_KW_LEFT_DELIMITER ∉ buf ∨ CONF_KW_RIGHT_DELIMITER ∉ start then
    .error ERR_INVALID_FORMAT
  else
    match utilTrim start true with
    | none => .error ERR_NOT_FOUND
    | some start =>
      let stop := start.idxOf CONF_KW_RIGHT_DELIMITER
      let sep := start.idxOf CONF_KW_VAL_SEPERATOR
      -- a separator behind the right delimiter starts a value too
      let value :=
        if start.length ≤ sep then none
        else if sep < stop then utilTrim ((start.take stop).drop (sep + 1)) false
        else utilTrim (start.drop (sep + 1)) false
      match utilTrim (start.take (min sep stop)) false with
      | none => .error ERR_NOT_FOUND
      | some key =>
        if keyword.all (· = key) then .ok (key, value) else .error ERR_NOT_FOUND

/-- The block after a string of at most `maxLen` bytes. -/
def saveStr (param : ConfParam) (value base : List UInt8) (maxLen : ℕ) : List UInt8 :=
  poke base param.offset (value.take maxLen ++ [0])

/-- The number of a flag. -/
def boolValue (value : List UInt8) : ℤ :=
  if sameCaseless value (CStr.ofString "TRUE").val then 1
  else if sameCaseless value (CStr.ofString "FALSE").val then 0
  else (strtolWhole value).getD (-1)

/-- The block after a value of one parameter, unless it is invalid. -/
def setParam (param : ConfParam) (value base : List UInt8) : Option (List UInt8) :=
  match param.type with
  | .mac =>
    if utilStripMac value = [] then none
    else some (poke base param.offset (utilStripMac value ++ [0]))
  | .url => some (saveStr param value base URL_STR_LEN)
  | .addrList => some (saveStr param value base ADDR_STR_LEN)
  | .ip => some (saveStr param value base IP_HOST_LEN)
  | .string => some (saveStr param value base param.maxLen)
  | .int =>
    (strtolWhole value).map fun v => poke base param.offset (leBytes 4 (BitVec.ofInt 32 v).toNat)
  | .bool =>
    if boolValue value = 0 ∨ boolValue value = 1 then
      some (poke base param.offset [UInt8.ofNat (boolValue value).toNat])
    else none

/-- `conf_set_param`. -/
def confSetParam (keyword value confBase : List UInt8) (params : List ConfParam) : List UInt8 :=
  match params.find? fun param => param.keyword.val = keyword with
  | none => confBase
  | some param => (setParam param (utilTrimQuotes value) confBase).getD confBase

/-- One round of `conf_init`. -/
def confLine (params : List ConfParam) (confBase line : List UInt8) : List UInt8 :=
  let line := (CStr.read line).val
  match utilTrim line true with
  | none => confBase
  | some ptr =>
    if ptr.head? = some COMMENT_CHAR then confBase
    else
      match confGetValue line none with
      | .ok (key, some value) => confSetParam key value confBase params
      | _ => confBase

/-- `conf_init`. There is no text of a file that cannot be opened. -/
def confInit (confFile : Option (List UInt8)) (confBase : List UInt8) (params : List ConfParam) :
    ℤ × List UInt8 :=
  match confFile with
  | none => (ERR_NO_FILE, confBase)
  | some text =>
    (NO_ERROR, (pieces NL (CONF_BUFF_LEN - 1) text).foldl (confLine params) confBase)

/-! ## The writer -/

/-- The `int` at an offset of the block. -/
def intAt (base : List UInt8) (offset : ℕ) : ℤ :=
  (BitVec.ofNat 32 (ofLe ((base.drop offset).take 4))).toInt

/-- What is printed of a parameter. -/
def printedValue (base : List UInt8) (param : ConfParam) : CStr :=
  match param.type with
  | .int => decimal (intAt base param.offset)
  | _ => CStr.read (base.drop param.offset)

/-- The line of a parameter. -/
def confText (base : List UInt8) (param : ConfParam) : List UInt8 :=
  param.keyword.val ++ CONF_KW_VAL_SEPERATOR :: (printedValue base param).val

/-- `conf_save_run_time_info`: the text of the file. `sprintf` writes past its buffer for a longer
line. -/
def confSaveRunTimeInfo (confBase : List UInt8) (params : List ConfParam) : Option (List UInt8) :=
  if ∀ param ∈ params, (confText confBase param).length < CONF_BUFF_LEN then
    some (params.flatMap fun param => confText confBase param ++ [NL])
  else none

end EzpFirmware.Qcloud
