import EzpFirmware.Httpd.FieldChecks
import EzpFirmware.Httpd.RulePages
import EzpFirmware.Httpd.UiParsers
import Mathlib.Data.List.Infix

/-! # Rules of the virtual networks

A rule holds the flags of its ports as one text, which is put together in a
buffer of 32 bytes. On some platforms the flags are rotated when they are stored
and when they are shown, and the entries of the ports that the page does not
show are kept from the old rule.
-/
namespace EzpFirmware.Httpd
open Lib UserNvram

def VLAN_PORT_MAX : ℕ := 5

def HWIFNAME : CStr := .ofString "eth2"

def WLAN_NAME : CStr := .ofString "ra"

def WDS_NAME : CStr := .ofString "wds"

def UNIVERSAL_REPEATER_NAME : CStr := .ofString "apcli"

/-! ## What is accepted -/

def VLAN_NAME : LocalVariable := required ["20"]

def VLAN_ENABLE : LocalVariable := required ["0", "1"]

def VLAN_VID : LocalVariable := required ["1", "4094"]

/-- The row of each port, network and repeater. -/
def VLAN_FLAG : LocalVariable := required ["0", "1"]

def VLANPORT_PVID : LocalVariable := required ["1", "4096"]

section
variable (form : Form) (nvram : Variables)

/-- A field of a rule. -/
def vlanField (i : ℕ) (field : String) : CStr := rowVar form "vlan" i field

/-- The name of the flag of a port. -/
def portName (i j : ℕ) : CStr := (rowName "vlan" i "p").append (decimal j)

/-- The flag of a port. -/
def portFlag (i j : ℕ) : CStr := getVar form (portName i j) CStr.empty

/-- A round of `valid_vlan` over the rules. -/
def validVlanRule (i : ℕ) : Bool :=
  validName VLAN_NAME (vlanField form i "name") &&
    validNumberOf VLAN_ENABLE (vlanField form i "enable") &&
    validNumberOf VLAN_VID (vlanField form i "vid") &&
    (["p1", "p2", "p3", "p4", "p5"].all fun p => validNumberOf VLAN_FLAG (vlanField form i p)) &&
    (text nvram (.ofString "platform") = .ofString "AMC" ||
      ["s1", "s2", "wds", "ur"].all fun p => validNumberOf VLAN_FLAG (vlanField form i p))

/-- A round of `valid_vlan` over the ports. -/
def validVlanport (i : ℕ) : Bool :=
  validName VLAN_NAME (rowVar form "vlanport" i "name") &&
    validNumberOf VLANPORT_PVID (rowVar form "vlanport" i "pvid") &&
    validNumberOf VLAN_FLAG (rowVar form "vlanport" i "tag")

/-- `valid_vlan`. -/
def validVlan : Bool :=
  (List.range (submittedNum form "vlan").toNat).all (validVlanRule form nvram) &&
    (List.range (submittedNum form "vlanport").toNat).all (validVlanport form)

end

/-! ## What is built -/

/-- The rows of `rules` that the pages read. -/
def vlanRules : List Rule :=
  [⟨.ofString "vlan_rule",
    [.ofString "name", .ofString "enable", .ofString "ifname", .ofString "vid",
      .ofString "portmember"]⟩,
    ⟨.ofString "br_rule",
      [.ofString "name", .ofString "enable", .ofString "ifnames", .ofString "flag"]⟩]

/-- `strcat`. -/
def strcat (dest : List UInt8) (s : CStr) : Option (List UInt8) :=
  if (0 : UInt8) ∈ dest ∧ (CStr.read dest).len + s.len < dest.length then
    some (poke dest (CStr.read dest).len s.stored)
  else none

/-- `snprintf` to the start of a buffer. -/
def printTo (dest : List UInt8) (s : CStr) : List UInt8 :=
  poke dest 0 (s.take (dest.length - 1)).stored

/-- `tmp` and `portmember`. -/
structure VlanRoom where
  tmp : List UInt8
  portmember : List UInt8

section
variable (u : Unspecified) (form : Form) (nvram : Variables)

/-- An attribute of a rule. -/
def vlanAttr (ruleSet : String) (i : ℕ) (type : String) (bsize : ℕ) : CStr :=
  (onMap (ezplibGetAttrVal u vlanRules (fun _ _ => showValue) (.ofString ruleSet) i
    (.ofString type) bsize) nvram).1.2

def vlanportNum : ℤ := atoi (text nvram (.ofString "vlanport_rule_num"))

def vlanportMax : ℤ := atoi (text nvram (.ofString "vlanport_rule_max"))

/-- Whether the ports are rotated on this platform. -/
def rotated : Bool := (text nvram (.ofString "platform")).val <:+: (CStr.ofString "AMC|AMD|GMA").val

/-- The loop of `_build_vlan_rule` over the first ports. -/
def gatherPorts (i : ℕ) : ℕ → VlanRoom → Option VlanRoom
  | 0, st => some st
  | j + 1, st => (gatherPorts i j st).bind fun st =>
    (strcat st.portmember (portFlag form i (j + 1))).map fun portmember =>
      ⟨printTo st.tmp (portName i (j + 1)), portmember⟩

/-- The last port goes to the front, in `tmp`, whose text is copied back. -/
def rotatePorts (num : ℤ) (st : VlanRoom) : Option VlanRoom :=
  let last := (num - 1).toNat
  st.portmember[last]?.bind fun b =>
    let tmp := poke st.tmp 0 (b :: st.portmember.take last)
    (strcpy st.portmember tmp).map fun portmember => ⟨tmp, portmember⟩

/-- The entries behind the ports: those of the old rule, if it has one there. -/
def restPorts (num max : ℤ) (orig : CStr) : List UInt8 :=
  (List.range (max - num).toNat).map fun k =>
    if orig.val.getD num.toNat 0 ≠ 0 then orig.val.getD (num.toNat + k) 0 else CHAR_1

/-- The entries behind the ports are written, and the end of the text. -/
def keepPorts (num max : ℤ) (orig : CStr) (portmember : List UInt8) : Option (List UInt8) :=
  if 0 ≤ num ∧ num < SHORT_BUF_LEN ∧ 0 ≤ max ∧ max < SHORT_BUF_LEN then
    some (poke (poke portmember num.toNat (restPorts num max orig)) max.toNat [0])
  else none

/-- The text of a rule. -/
def vlanRow (i : ℕ) (portmember : CStr) : CStr :=
  ruleText [vlanField form i "name", vlanField form i "enable", HWIFNAME, vlanField form i "vid",
    portmember]

/-- A round of `_build_vlan_rule`. -/
def vlanRound (i : ℕ) (buf : CStr) (st : VlanRoom) : Option (VlanRoom × CStr) :=
  let tmp := ["name", "enable", "vid"].foldl (fun tmp field => printTo tmp (rowName "vlan" i field))
    st.tmp
  (gatherPorts form i (vlanportNum nvram).toNat ⟨tmp, st.portmember⟩).bind fun st =>
    (if rotated nvram then rotatePorts (vlanportNum nvram) st else some st).bind fun st =>
      (keepPorts (vlanportNum nvram) (vlanportMax nvram)
          (vlanAttr u nvram "vlan_rule" i "portmember" SHORT_BUF_LEN) st.portmember).map
        fun portmember =>
          let row := vlanRow form i (CStr.read portmember)
          (⟨st.tmp, poke portmember 0 [0]⟩,
            (if i = 0 then row else CStr.glue RULE_SEP RULE_SEP_ne buf row).take (LONG_BUF_LEN - 1))

/-- The first rounds of `_build_vlan_rule`. -/
def vlanRounds : ℕ → VlanRoom → CStr → Option (VlanRoom × CStr)
  | 0, st, buf => some (st, buf)
  | n + 1, st, buf => (vlanRounds n st buf).bind fun s => vlanRound u form nvram n s.2 s.1

/-- `_build_vlan_rule`: the text in `buf`. The text is printed behind itself. -/
def buildVlanRule (tmp : List UInt8) (vlanRuleNum : ℤ) (buf : CStr) : Option CStr :=
  (vlanRounds u form nvram vlanRuleNum.toNat ⟨tmp, List.replicate SHORT_BUF_LEN 0⟩ buf).map (·.2)

end

/-! ## What is saved -/

/-- `save_vlan` for the number of the rules. -/
def saveVlanNum (nrule : ℤ) : Api Bool := do
  let num ← nvramSafeGet (.ofString "vlan_rule_num")
  if nrule ≠ atoi num then
    let _ ← Api.set (.ofString "vlan_rule_num") (some (decimal nrule))
    let _ ← Api.set (.ofString "br_rule_num") (some (decimal nrule))
    pure true
  else pure false

/-- `save_vlan` for a rule set: a text that was built for it replaces another one. -/
def saveRuleSet (ruleSet buf : CStr) : Api Bool := do
  let origRule ← nvramSafeGet ruleSet
  if origRule ≠ CStr.empty ∧ origRule ≠ buf then
    let _ ← Api.set ruleSet (some buf)
    pure true
  else pure false

/-- `save_vlan`, for the number of the rules and the texts that were built. -/
def saveVlan (nrule : ℤ) (vlanRule brRule vlanportRule : CStr) : Api Bool := do
  let num ← saveVlanNum nrule
  let vlan ← saveRuleSet (.ofString "vlan_rule") vlanRule
  let br ← saveRuleSet (.ofString "br_rule") brRule
  let vlanport ← saveRuleSet (.ofString "vlanport_rule") vlanportRule
  pure (num || vlan || br || vlanport)

/-! ## What is shown -/

/-- What is shown of a rule. -/
structure VlanShown where
  name : CStr
  enable : CStr
  vid : CStr
  port : CStr
  ifnames : CStr

/-- A flag, as the page has it. -/
def flagText (b : Bool) : CStr := if b then .ofString "1" else .ofString "0"

/-- `vlan_port_trans`. The flags go behind the text that the buffer holds before. -/
def vlanPortTrans (junk : CStr) (portmember : List UInt8) : Option (List UInt8) :=
  let flags := (portmember.take VLAN_PORT_MAX).map fun b => flagText (b = CHAR_1)
  let buf := junk.append (CStr.lines ATTR_SEP ATTR_SEP_ne flags)
  if buf.len < SHORT_BUF_LEN then strcpy portmember (buf.chop ATTR_SEP).stored else none

/-- `vlan_ifnames_trans`. -/
def vlanIfnamesTrans (nvram : Variables) (ifnames : CStr) : Option CStr :=
  let wlvNum := (atoi (text nvram (.ofString "wlv_rule_num"))).toNat
  let names := (List.range wlvNum).map (fun i : ℕ => WLAN_NAME.append (decimal i)) ++
    [WDS_NAME, UNIVERSAL_REPEATER_NAME]
  let buf := CStr.lines ATTR_SEP ATTR_SEP_ne
    (names.map fun name => flagText (name.val <:+: ifnames.val))
  if buf.len < TMP_LEN then some (buf.chop ATTR_SEP) else none

/-- The first port goes to the end again. -/
def unrotatePorts (num : ℤ) (port : List UInt8) : Option (List UInt8) :=
  if num ≤ port.length then
    strcpy port ((port.drop 1).take (num - 1).toNat ++ port.take 1 ++ [0])
  else none

/-- What `trans2web` writes for a character. -/
def webByte (b : UInt8) : List UInt8 :=
  if b = ATTR_SEP then (CStr.ofString "','").val
  else if b = RULE_SEP then (CStr.ofString "'],['").val
  else if b = APOSTROPHE ∨ b = QUOTE then [SPACE]
  else [b]

/-- `trans2web`, which writes no end. -/
def trans2web (buf : CStr) : List UInt8 := buf.val.flatMap webByte

section
variable (u : Unspecified) (nvram : Variables) (junk : ℕ → CStr)

/-- A round of `ej_vlan_show_content`. -/
def vlanShowRound (i : ℕ) : Option VlanShown :=
  let attr := vlanAttr u nvram "vlan_rule" i
  let port := (attr "portmember" SHORT_BUF_LEN).val ++
    List.replicate (SHORT_BUF_LEN - (attr "portmember" SHORT_BUF_LEN).len) 0
  (if rotated nvram then unrotatePorts (vlanportNum nvram) port else some port).bind fun port =>
    (vlanPortTrans (junk i) port).bind fun port =>
      (vlanIfnamesTrans nvram (vlanAttr u nvram "br_rule" i "ifnames" TMP_LEN)).map fun ifnames =>
        ⟨attr "name" SHORT_BUF_LEN, attr "enable" SHORT_BUF_LEN, attr "vid" SHORT_BUF_LEN,
          CStr.read port, ifnames⟩

/-- The text of a rule for the page. -/
def VlanShown.text (row : VlanShown) : CStr :=
  ruleText [row.name, row.enable, row.vid, row.port, row.ifnames]

/-- The first rounds of `ej_vlan_show_content`: what is shown, and the length of `buf2`. -/
def vlanShowRounds : ℕ → Option (List VlanShown × ℕ)
  | 0 => some ([], 0)
  | i + 1 => (vlanShowRounds i).bind fun s => (vlanShowRound u nvram junk i).bind fun row =>
    if s.2 + row.text.len + 1 < LONG_BUF_LEN then some (s.1 ++ [row], s.2 + row.text.len + 1)
    else none

/-- `ej_vlan_show_content` as far as it shows the rules, in `vlan_data`. Without a rule it writes in
front of `buf2`. The translated text ends with the zeros that are behind it. -/
def ejVlanShowContent : Option (List VlanShown) :=
  let ruleNum := atoi (onMap (ezplibGetRule u (.ofString "vlan_rule_num") 0 LONG_BUF_LEN) nvram).1.2
  if ruleNum ≤ 0 then none
  else (vlanShowRounds u nvram junk ruleNum.toNat).bind fun s =>
    let buf := CStr.join RULE_SEP RULE_SEP_ne (s.1.map VlanShown.text)
    if (trans2web buf).length < LONG_BUF_LEN then some s.1 else none

end

end EzpFirmware.Httpd
