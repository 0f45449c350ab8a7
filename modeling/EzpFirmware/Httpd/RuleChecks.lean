import EzpFirmware.Httpd.RulePages

/-! # What the pages of rules accept

A validator fetches the fields of a form by name, row by row, apart from the
save function of its page. Some fields are only looked at if another asks for
them, and some are not looked at by the name under which they are saved.
-/
namespace EzpFirmware.Httpd
open Lib UserNvram

/-! ## The tables of the pages -/

def FR_DMZ_ENABLE := required ["0", "1"]

def FR_DMZ_IPADDR := required [""]

def FR_ENABLE := required ["0", "1"]

def FR_RULE_ENABLE := required ["0", "1"]

def FR_RULE_NAME := optional ["20"]

def FR_RULE_EXTIF := required ["wan"]

def FR_RULE_PROTO := required ["tcp", "udp", "both"]

def FR_RULE_EXTPORT_START := required ["1", "65535"]

def FR_RULE_EXTPORT_END := required ["1", "65535"]

def FR_RULE_IPADDR := required [""]

def FL_ENABLE := required ["0", "1"]

/-- In the table of the page for hardware addresses, at the place that `FL_RULE_DEFAULT` says. -/
def FL_HWADDR_RULE_DEFAULT := required ["0", "1"]

def FL_RULE_NAME := optional ["20"]

def FL_RULE_ENABLE := required ["0", "1"]

def FL_RULE_EXTIF := optional ["wan"]

def FL_RULE_PROTO := optional ["both", "tcp", "udp"]

def FL_RULE_INIPADDR_START := optional [""]

def FL_RULE_INIPADDR_END := optional [""]

def FL_RULE_EXTIPADDR_START := optional [""]

def FL_RULE_EXTIPADDR_END := optional [""]

def FL_RULE_EXTPORT_START := optional ["1", "65535"]

def FL_RULE_EXTPORT_END := optional ["1", "65535"]

def FL_RULE_ACTION := required ["0", "1"]

def RT_ENABLE := required ["0", "1"]

def RT_RULE_ENABLE := required ["0", "1"]

def RT_RULE_NAME := optional ["20"]

def RT_RULE_INIPADDR_START := optional [""]

def RT_RULE_INIPADDR_END := optional [""]

def RT_RULE_EXTIPADDR_START := optional [""]

def RT_RULE_EXTIPADDR_END := optional [""]

def RT_RULE_EXTPORT_START := optional ["1", "65535"]

def RT_RULE_EXTPORT_END := optional ["1", "65535"]

def RT_RULE_PROTO := optional ["tcp", "udp", "both"]

def RT_RULE_EXTIF := optional ["wan", "lan"]

def RT_RULE_ROUTING_TYPE := optional ["default", "static"]

def RT_RULE_GATEWAY_IPADDR := required [""]

def SBM_RULE_NAME := optional ["20"]

def SBM_RULE_ENABLE := required ["0", "1"]

def SBM_RULE_INIPADDR_START := optional [""]

def SBM_RULE_INIPADDR_END := optional [""]

def SBM_RULE_PROTO := optional ["tcp", "udp"]

def SBM_RULE_EXTPORT_START := optional ["1", "65535"]

def SBM_RULE_EXTPORT_END := optional ["1", "65535"]

def SBM_RULE_EXTIF := optional ["wan"]

def SBM_RULE_BW_ALLOC := required ["ratio", "bw"]

def SBM_RULE_BW_RATIO := required ["0", "100"]

def SBM_RULE_BW_UPLOAD := required [""]

def SBM_RULE_BW_DOWNLOAD := required [""]

def SBM_RULE_EXCESS := required ["0", "1"]

def SBM_RULE_EXCESS_RATIO := required ["0", "100"]

def SBM_RULE_EXCESS_UPLOAD := required [""]

def SBM_RULE_EXCESS_DOWNLOAD := required [""]

/-- With the largest number as it was read last. -/
def SBM_NUM (max : CStr) : LocalVariable := ⟨[.ofString "0", max], false⟩

def DBM_RULE_NAME := optional ["20"]

def DBM_RULE_ENABLE := required ["0", "1"]

def DBM_RULE_INIPADDR_START := optional [""]

def DBM_RULE_INIPADDR_END := optional [""]

def DBM_NUM (max : CStr) : LocalVariable := ⟨[.ofString "0", max], false⟩

/-! ## The validators -/

section
variable (x : RuleContext) (form : Form) (nvram : Variables)

/-- The row of `rules` that the pages read. -/
def lanRules : List Rule :=
  [⟨.ofString "lan_static_rule",
    [.ofString "ipaddr", .ofString "mask", .ofString "gateway", .ofString "dns",
      .ofString "wins"]⟩]

/-- An attribute of the address of the LAN. -/
def lanAttr (type : String) : CStr :=
  (onMap (ezplibGetAttrVal x.unspecified lanRules (fun _ _ => showValue)
    (.ofString "lan_static_rule") 0 (.ofString type) TMP_LEN) nvram).1.2

/-- Whether an address is one of the LAN. -/
def onLan (ip : CStr) : Bool :=
  isLegalIpNetmask x (lanAttr x nvram "ipaddr") (transInt2netmask x (atoi (lanAttr x nvram "mask")))
    ip

/-- `_valid_dmz`. -/
def validDmz : Bool :=
  (List.range (wanNum (text nvram (.ofString "wan_num"))).toNat).all fun i =>
    let field (name : String) :=
      getVar form (((CStr.ofString "fr_dmz").append (decimal i)).append (.ofString name)) CStr.empty
    validChoice FR_DMZ_ENABLE (field "_enable") &&
      (startsWith CHAR_0 (field "_enable") ||
        validIpaddr x FR_DMZ_IPADDR (field "_ipaddr") && onLan x nvram (field "_ipaddr"))

/-- A row of `valid_fr`. -/
def validFrRow (i : ℕ) : Bool :=
  let field := rowVar form "fr" i
  validChoice FR_RULE_ENABLE (field "enable") &&
    validName FR_RULE_NAME (field "name") &&
    validIf FR_RULE_EXTIF nvram (field "extif") &&
    validChoice FR_RULE_PROTO (field "proto") &&
    validRangeOf FR_RULE_EXTPORT_START (field "extport_start") &&
    validRangeOf FR_RULE_EXTPORT_END (field "extport_end") &&
    validPortRange (field "extport_start") (field "extport_end") &&
    validIpaddr x FR_RULE_IPADDR (field "ipaddr") &&
    onLan x nvram (field "ipaddr")

/-- `valid_fr`. -/
def validFr : Bool :=
  let enable := getVar form (.ofString "fr_enable") CStr.empty
  validDmz x form nvram && validChoice FR_ENABLE enable &&
    (startsWith CHAR_0 enable ||
      (List.range (submittedNum form "fr").toNat).all (validFrRow x form nvram))

/-- The ports of a row, which are looked at for a protocol only. -/
def validPorts (stem start last : String) (vStart vEnd : LocalVariable) (i : ℕ) : Bool :=
  let field := rowVar form stem i
  field "proto" = CStr.empty ||
    validRangeOf vStart (field start) && validRangeOf vEnd (field last) &&
      validPortRange (field start) (field last)

/-- A range of addresses of a row. -/
def validAddrs (stem start last : String) (vStart vEnd : LocalVariable) (i : ℕ) : Bool :=
  let field := rowVar form stem i
  validIpaddr x vStart (field start) && validIpaddr x vEnd (field last) &&
    validIpaddrRange x (field start) (field last)

/-- A row of `valid_fl`. -/
def validFlRow (i : ℕ) : Bool :=
  let field := rowVar form "fl" i
  validChoice FL_RULE_ENABLE (field "enable") &&
    validName FL_RULE_NAME (field "name") &&
    validIf FL_RULE_EXTIF nvram (field "extif") &&
    validAddrs x form "fl" "inipaddr_start" "inipaddr_end" FL_RULE_INIPADDR_START
      FL_RULE_INIPADDR_END i &&
    validAddrs x form "fl" "extipaddr_start" "extipaddr_end" FL_RULE_EXTIPADDR_START
      FL_RULE_EXTIPADDR_END i &&
    validChoice FL_RULE_PROTO (field "proto") &&
    validPorts form "fl" "extport_start" "extport_end" FL_RULE_EXTPORT_START FL_RULE_EXTPORT_END
      i &&
    validChoice FL_RULE_ACTION (field "op")

/-- `valid_fl`. -/
def validFl : Bool :=
  let enable := getVar form (.ofString "fl_enable") CStr.empty
  validChoice FL_ENABLE enable &&
    (startsWith CHAR_0 enable ||
      validChoice FL_HWADDR_RULE_DEFAULT (getVar form (.ofString "fl_rule_default") CStr.empty) &&
        (List.range (submittedNum form "fl").toNat).all (validFlRow x form nvram))

/-- A row of `valid_rt`. -/
def validRtRow (i : ℕ) : Bool :=
  let field := rowVar form "rt" i
  validChoice RT_RULE_ENABLE (field "enable") &&
    validName RT_RULE_NAME (field "name") &&
    validAddrs x form "rt" "inipaddr_start" "inipaddr_end" RT_RULE_INIPADDR_START
      RT_RULE_INIPADDR_END i &&
    validAddrs x form "rt" "extipaddr_start" "extipaddr_end" RT_RULE_EXTIPADDR_START
      RT_RULE_EXTIPADDR_END i &&
    validChoice RT_RULE_PROTO (field "proto") &&
    validPorts form "rt" "extport_start" "extport_end" RT_RULE_EXTPORT_START RT_RULE_EXTPORT_END
      i &&
    validIf RT_RULE_EXTIF nvram (field "extif") &&
    validChoice RT_RULE_ROUTING_TYPE (field "routing_type") &&
    (field "routing_type" ≠ .ofString "static" ||
      validIpaddr x RT_RULE_GATEWAY_IPADDR (field "gateway_ipaddr"))

/-- `valid_rt`. -/
def validRt : Bool :=
  let enable := getVar form (.ofString "rt_enable") CStr.empty
  validChoice RT_ENABLE enable &&
    (startsWith CHAR_0 enable ||
      (List.range (submittedNum form "rt").toNat).all (validRtRow x form nvram))

/-- A row of `_valid_bw_sbm`, which looks for the ports under names of their own. -/
def validSbmRow (i : ℕ) : Bool :=
  let field := rowVar form "bw_sbm" i
  let ratio := field "bw_alloc" = .ofString "ratio"
  validChoice SBM_RULE_ENABLE (field "enable") &&
    validName SBM_RULE_NAME (field "name") &&
    validAddrs x form "bw_sbm" "inipaddr_start" "inipaddr_end" SBM_RULE_INIPADDR_START
      SBM_RULE_INIPADDR_END i &&
    validChoice SBM_RULE_PROTO (field "proto") &&
    validPorts form "bw_sbm" "port_start" "port_end" SBM_RULE_EXTPORT_START SBM_RULE_EXTPORT_END
      i &&
    validIf SBM_RULE_EXTIF nvram (field "extif") &&
    validChoice SBM_RULE_BW_ALLOC (field "bw_alloc") &&
    (if ratio then validRangeOf SBM_RULE_BW_RATIO (field "bw_ratio")
      else validNumberOf SBM_RULE_BW_UPLOAD (field "bw_upload") &&
        validNumberOf SBM_RULE_BW_DOWNLOAD (field "bw_download")) &&
    validChoice SBM_RULE_EXCESS (field "excess") &&
    (!startsWith CHAR_1 (field "excess") ||
      if ratio then validRangeOf SBM_RULE_EXCESS_RATIO (field "excess_ratio")
      else validNumberOf SBM_RULE_EXCESS_UPLOAD (field "excess_upload") &&
        validNumberOf SBM_RULE_EXCESS_DOWNLOAD (field "excess_download"))

/-- `_valid_bw_sbm`. -/
def validBwSbm : Bool :=
  let num := getVar form (.ofString "bw_sbm_rule_num") (.ofString "0")
  validRangeOf (SBM_NUM ((nvram (.ofString "bw_sbm_rule_max")).getD x.sbmMax)) num &&
    (List.range (atoi num).toNat).all (validSbmRow x form nvram)

/-- A row of `_valid_bw_dbm` apart from the number of addresses. -/
def validDbmRow (i : ℕ) : Bool :=
  let field := rowVar form "bw_dbm" i
  validChoice DBM_RULE_ENABLE (field "enable") &&
    validName DBM_RULE_NAME (field "name") &&
    validAddrs x form "bw_dbm" "inipaddr_start" "inipaddr_end" DBM_RULE_INIPADDR_START
      DBM_RULE_INIPADDR_END i

/-- `total_dbm_num` behind a row. -/
def totalDbmNum (i : ℕ) (total : ℤ) : ℤ :=
  let field := rowVar form "bw_dbm" i
  if field "inipaddr_start" ≠ CStr.empty ∧ startsWith CHAR_1 (field "enable") = true then
    (total + addrCount x (field "inipaddr_start") (field "inipaddr_end")).bmod (2 ^ 32)
  else total

/-- The loop of `_valid_bw_dbm` from row `i` on. -/
def validDbmRows (max : CStr) : ℕ → ℕ → ℤ → Bool
  | 0, _, _ => true
  | n + 1, i, total =>
    let total := totalDbmNum x form i total
    validDbmRow x form i && validRangeOf (DBM_NUM max) (decimal total) &&
      validDbmRows max n (i + 1) total

/-- `_valid_bw_dbm`. -/
def validBwDbm : Bool :=
  validDbmRows x form ((nvram (.ofString "bw_dbm_rule_max")).getD x.dbmMax)
    (submittedNum form "bw_dbm").toNat 0 0

end

end EzpFirmware.Httpd
