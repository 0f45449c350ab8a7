import EzpFirmware.Httpd.Auth

/-! # The table of handlers

The first row whose pattern matches the file of a request serves it. A row may
read the body, and its output function ends with or without emptying the table
of variables.
-/
namespace EzpFirmware.Httpd
open Lib UserNvram

def QUESTION : UInt8 := 0x3f

def STAR : UInt8 := 0x2a

def SLASH : UInt8 := 0x2f

def BAR : UInt8 := 0x7c

/-- `match_one`. -/
def matchOne : List UInt8 → List UInt8 → Bool
  | [], s => s.isEmpty
  | p :: ps, s =>
    if p = QUESTION ∧ s ≠ [] then matchOne ps s.tail
    else if p = STAR then
      let single := (s.takeWhile (· != SLASH)).length
      match ps with
      | [] => (List.range (single + 1)).any fun i => (s.drop i).isEmpty
      | q :: qs =>
        if q = STAR then (List.range (s.length + 1)).any fun i => matchOne qs (s.drop i)
        else (List.range (single + 1)).any fun i => matchOne (q :: qs) (s.drop i)
    else match s with
      | [] => false
      | c :: s => if p ≠ c then false else matchOne ps s

/-- `match`: the alternatives of a pattern are separated by bars. -/
def patternMatch (pattern string : CStr) : Bool :=
  (pattern.fields BAR).any fun p => matchOne p.val string.val

/-- The functions that read a body. -/
inductive Input where
  | doApplyPost
  | doUpgradePost
  | doBtUploadPost
  deriving DecidableEq

/-- The functions that answer. -/
inductive Output where
  | doEj
  | doFile
  | doExport
  | doApplyCgi
  | doRebootCgi
  | doDefaultCgi
  | doConnectCgi
  | doDisconnectCgi
  | doUpdateCgi
  | doUpgradeCgi
  | doBtUploadCgi
  | doBtCgi
  | doFormatCgi
  | doAdToolsCgi
  | doAtToolsCgi
  | doWpsCgi
  | doLogCgi
  | doSurveyCgi
  | doUiSurveyCgi
  | doSiteSurveyCgi
  | doDateCgi
  | doStorageCgi
  | doStorageSpaceCgi
  | doStorageCapacityCgi
  | doStorageInfoCgi
  | doChargeCgi
  | doVoltageCgi
  | doPercentageCgi
  | doGaugeStateCgi
  | doGaugeFwCgi
  | doMcuFwCgi
  | doGetMacCgi
  deriving DecidableEq

/-- `struct mime_handler`, without the headers of the answer. `auth` is `do_auth` or nothing. -/
structure MimeHandler where
  pattern : CStr
  input : Option Input
  output : Option Output
  auth : Bool
  deriving DecidableEq

/-- A row without a body and a check. -/
def openRow (pattern : String) (output : Output) : MimeHandler :=
  ⟨.ofString pattern, none, some output, false⟩

/-- A row that reads a form and checks who is asking. -/
def formRow (pattern : String) (output : Output) : MimeHandler :=
  ⟨.ofString pattern, some .doApplyPost, some output, true⟩

/-- `mime_handlers`, in a build without a platform of its own. -/
def mimeHandlers : List MimeHandler :=
  [openRow "landing.asp" .doEj,
    openRow "st_info.asp" .doEj,
    ⟨.ofString "**.asp", none, some .doEj, true⟩,
    openRow "**.js" .doEj,
    openRow "**.css" .doFile,
    openRow "**.gif" .doFile,
    openRow "**.jpg" .doFile,
    openRow "**.png" .doFile,
    openRow "**.svg" .doEj,
    openRow "**.ttf" .doFile,
    openRow "**.otf" .doFile,
    openRow "**.woff" .doFile,
    openRow "**.eot" .doFile,
    openRow "**.htc" .doFile,
    ⟨.ofString "**.cfg", none, some .doExport, true⟩,
    formRow "apply.cgi*" .doApplyCgi,
    formRow "reboot.cgi*" .doRebootCgi,
    formRow "default.cgi*" .doDefaultCgi,
    formRow "connect.cgi*" .doConnectCgi,
    formRow "disconnect.cgi*" .doDisconnectCgi,
    formRow "update.cgi*" .doUpdateCgi,
    ⟨.ofString "upgrade.cgi*", some .doUpgradePost, some .doUpgradeCgi, true⟩,
    ⟨.ofString "bt_upload.cgi*", some .doBtUploadPost, some .doBtUploadCgi, true⟩,
    formRow "bt.cgi*" .doBtCgi,
    formRow "format.cgi*" .doFormatCgi,
    formRow "ad_tools.cgi*" .doAdToolsCgi,
    formRow "at_tools.cgi*" .doAtToolsCgi,
    formRow "wps.cgi*" .doWpsCgi,
    formRow "log.cgi*" .doLogCgi,
    formRow "survey.cgi*" .doSurveyCgi,
    formRow "ui_survey.cgi*" .doUiSurveyCgi,
    ⟨.ofString "site_survey.cgi*", some .doApplyPost, some .doSiteSurveyCgi, false⟩,
    formRow "date.cgi*" .doDateCgi,
    formRow "storage.cgi*" .doStorageCgi,
    formRow "storage_space.cgi*" .doStorageSpaceCgi,
    formRow "storage_capacity.cgi*" .doStorageCapacityCgi,
    formRow "storage_info.cgi*" .doStorageInfoCgi,
    formRow "charge.cgi*" .doChargeCgi,
    formRow "voltage.cgi*" .doVoltageCgi,
    formRow "percentage.cgi*" .doPercentageCgi,
    formRow "gauge_state.cgi*" .doGaugeStateCgi,
    formRow "gauge_fw.cgi*" .doGaugeFwCgi,
    formRow "mcu_fw.cgi*" .doMcuFwCgi,
    formRow "get_mac.cgi*" .doGetMacCgi]

/-- The first row that matches a file. -/
def findHandler (file : CStr) : Option MimeHandler :=
  mimeHandlers.find? fun handler => patternMatch handler.pattern file

example : (findHandler (.ofString "apply.cgi?x=1")).map MimeHandler.output =
    some (some .doApplyCgi) := by decide +kernel

/-! ## How an answer ends -/

/-- `valid_word`: none of the bytes ^ | ' " ; $ & > < and the back quote. -/
def validWord (value : CStr) : Bool :=
  value.val.all fun b => b ∉ [0x5e, 0x7c, 0x27, 0x22, 0x3b, 0x24, 0x60, 0x26, 0x3e, 0x3c]

/-- `valid_number` of a value that may not be empty. -/
def validNumber (value : CStr) : Bool :=
  value ≠ CStr.empty && validWord value && value.val.all isDigit

/-- `valid_range` of a value that may not be empty. -/
def validRange (value : CStr) (first last : ℤ) : Bool :=
  validNumber value && (first ≤ atoi value && atoi value ≤ last)

/-- `websGetVar` with an empty default. -/
def websGetVar (form : Form) (name : String) : CStr := (form (.ofString name)).getD CStr.empty

/-- Whether an answer ends with `init_cgi(NULL)`. `running` is `process_is_running` for the
`transmission-daemon`. -/
def flushes (running : Bool) (form : Form) : Output → Bool
  | .doEj | .doFile | .doExport | .doRebootCgi | .doDefaultCgi | .doUpgradeCgi
  | .doBtUploadCgi => false
  | .doConnectCgi => websGetVar form "type" ≠ .ofString "usb"
  | .doBtCgi =>
    if websGetVar form "action" = .ofString "Update" then running
    else websGetVar form "action" ≠ .ofString "delallcpl"
  | .doFormatCgi =>
    websGetVar form "format_type" = .ofString "vfat" ∨
      websGetVar form "format_type" = .ofString "ext3"
  | .doWpsCgi =>
    websGetVar form "action" = .ofString "WPS_Pin" →
      validRange (websGetVar form "wps_pin") 0 99999999
  | _ => true

end EzpFirmware.Httpd
