import EzpFirmware.Httpd.FieldChecks
import EzpFirmware.Lib.Layout
import EzpFirmware.UserNvram.Rules

/-! # The pages of rules

Five pages store a rule set each: port forwarding, the access list, routing, and
static and dynamic bandwidth management. Their save functions build the same
loop around the row of a form that they write as one rule.
-/
namespace EzpFirmware.Httpd
open Lib UserNvram

def LONG_BUF_LEN : ℕ := 8192

/-- The name of a field of a row, e.g. `fr_rule0_name`. -/
def rowName (stem : String) (i : ℕ) (field : String) : CStr :=
  ((CStr.ofString (stem ++ "_rule")).append (decimal i)).append (.ofString ("_" ++ field))

/-- `websGetVar` of a field of a row, with an empty default. -/
def rowVar (form : Form) (stem : String) (i : ℕ) (field : String) : CStr :=
  getVar form (rowName stem i field) CStr.empty

/-- The number of rows in a form. -/
def submittedNum (form : Form) (stem : String) : ℤ :=
  atoi (getVar form (.ofString (stem ++ "_rule_num")) (.ofString "0"))

/-- Whether a text starts with the character `'0'` or `'1'`. -/
def startsWith (c : UInt8) (s : CStr) : Bool := s.val.head? = some c

def CHAR_0 : UInt8 := 0x30

def CHAR_1 : UInt8 := 0x31

/-! ## Rows as rules -/

/-- The texts that `save_fr` writes for a row. -/
def frRow (form : Form) (i : ℕ) : List CStr :=
  let field := rowVar form "fr" i
  [field "name", getVar form (rowName "fr" i "enable") (.ofString "0"), field "extif",
    field "proto", field "extport_start", field "extport_end", field "ipaddr",
    field "inport_start", field "inport_end"]

/-- The texts that `save_fl` writes for a row. -/
def flRow (form : Form) (i : ℕ) : List CStr :=
  let field := rowVar form "fl" i
  [field "name", field "enable", field "extif", CStr.empty, field "inipaddr_start",
    field "inipaddr_end", field "extipaddr_start", field "extipaddr_end", field "proto",
    CStr.empty, CStr.empty, field "extport_start", field "extport_end", field "op", hex4 (i + 1),
    decimal i, decimal i]

/-- The end of a range of addresses in `save_rt`, which is its start if nothing is given. -/
def rangeEnd (first last : CStr) : CStr := if last = CStr.empty then first else last

/-- The texts that `save_rt` writes for a row. -/
def rtRow (form : Form) (i : ℕ) : List CStr :=
  let field := rowVar form "rt" i
  [field "name", field "enable", field "inipaddr_start",
    rangeEnd (field "inipaddr_start") (field "inipaddr_end"), field "extipaddr_start",
    rangeEnd (field "extipaddr_start") (field "extipaddr_end"), field "proto", CStr.empty,
    CStr.empty, field "extport_start", field "extport_end", field "extif", field "routing_type",
    field "gateway_ipaddr"]

/-- The texts that `_save_bw_sbm` writes for a row. -/
def sbmRow (x : RuleContext) (form : Form) (i : ℕ) : List CStr :=
  let field := rowVar form "bw_sbm" i
  [field "name", field "enable", field "inipaddr_start", field "inipaddr_end",
    decimal (addrCount x (field "inipaddr_start") (field "inipaddr_end")), field "proto",
    field "extport_start", field "extport_end", field "extif", field "bw_alloc", field "bw_ratio",
    field "bw_upload", field "bw_download", CStr.empty, field "excess", field "excess_ratio",
    field "excess_upload", field "excess_download"]

/-- The texts that `_save_bw_dbm` writes for a row. -/
def dbmRow (x : RuleContext) (form : Form) (i : ℕ) : List CStr :=
  let field := rowVar form "bw_dbm" i
  [field "name", field "enable", field "inipaddr_start", field "inipaddr_end",
    decimal (addrCount x (field "inipaddr_start") (field "inipaddr_end")), CStr.empty]

/-- A rule before it is cut to its buffer. -/
def ruleText (row : List CStr) : CStr := CStr.join ATTR_SEP ATTR_SEP_ne row

/-! ## Saving -/

/-- What the loops of the save functions differ in. -/
structure Saver where
  /-- The start of the names, e.g. `fr`. -/
  stem : String
  /-- The size of the buffer for one rule. -/
  size : ℕ
  /-- Whether a rule that does not fit ends the function. -/
  limited : Bool
  /-- What `all_rule` reads as in front of the loop. -/
  initial : CStr
  /-- The variables that hold the number of rules. -/
  counts : List CStr
  row : Form → ℕ → List CStr

def Saver.rule (p : Saver) : CStr := .ofString (p.stem ++ "_rule")

def Saver.ruleNum (p : Saver) : CStr := .ofString (p.stem ++ "_rule_num")

def Saver.ruleMax (p : Saver) : CStr := .ofString (p.stem ++ "_rule_max")

/-- A rule as it is stored in the set: `ezplib_append_rule` or `ezplib_replace_rule`, unless it is
there. The answer says whether it was not. -/
def saveRule (u : Unspecified) (ruleSet : CStr) (i : ℕ) (rule : CStr) : Api Bool := do
  let old ← ezplibGetRule u ruleSet i TMP_LEN
  if old.1 < 0 then
    let _ ← ezplibAppendRule ruleSet rule
    pure true
  else if rule ≠ old.2 then
    let _ ← ezplibReplaceRule u ruleSet i rule
    pure true
  else pure false

/-- `all_rule` behind one more rule. -/
def addRule (i : ℕ) (allRule rule : CStr) : CStr :=
  (if i = 0 then rule else CStr.glue RULE_SEP RULE_SEP_ne allRule rule).take (LONG_BUF_LEN - 1)

/-- The loop over the rows, from row `i` on: whether a rule has changed, and `all_rule`. There is
nothing behind a rule that ends the function. -/
def saveRows (u : Unspecified) (p : Saver) (form : Form) :
    ℕ → ℕ → Bool → CStr → Api (Option (Bool × CStr))
  | 0, _, change, allRule => pure (some (change, allRule))
  | n + 1, i, change, allRule =>
    let text := ruleText (p.row form i)
    if p.limited = true ∧ p.size ≤ text.len then pure none
    else do
      let rule := text.take (p.size - 1)
      let changed ← saveRule u p.rule i rule
      saveRows u p form n (i + 1) (change || changed) (addRule i allRule rule)

/-- A value for several variables. -/
def setAll (value : CStr) : List CStr → Api Unit
  | [] => pure ()
  | name :: names => do
    let _ ← Api.set name (some value)
    setAll value names

/-- The rules of a form in place of the stored ones: whether there is a change. -/
def saveRules (u : Unspecified) (p : Saver) (form : Form) : Api Bool := do
  let max ← nvramSafeGet p.ruleMax
  let nrule := min (submittedNum form p.stem) (atoi max)
  let ruleNum ← nvramSafeGet p.ruleNum
  let counted : Bool := nrule ≠ atoi ruleNum
  setAll (decimal nrule) (if counted then p.counts else [])
  match ← saveRows u p form nrule.toNat 0 counted p.initial with
  | none => pure false
  | some (change, allRule) => do
    let _ ← Api.set p.rule (some allRule)
    pure change

/-- A field of the form as the variable of its name: whether there is a change. -/
def saveVar (form : Form) (name : CStr) : Api Bool := do
  let value := getVar form name CStr.empty
  let old ← nvramSafeGet name
  if value ≠ old then
    let _ ← Api.set name (some value)
    pure true
  else pure false

/-- The number of WAN interfaces. -/
def wanNum (wanNum : CStr) : ℤ := if wanNum = CStr.empty then 1 else atoi wanNum

/-- A row of `_save_dmz`. -/
def dmzRow (form : Form) (i : ℕ) : List CStr :=
  let field (name : String) :=
    getVar form (((CStr.ofString "fr_dmz").append (decimal i)).append (.ofString name)) CStr.empty
  [(CStr.ofString "DMZ").append (decimal i), field "_enable", field "_ipaddr"]

/-- The rows of `_save_dmz`, joined. -/
def dmzText (form : Form) (nrule : ℕ) : CStr :=
  CStr.join RULE_SEP RULE_SEP_ne ((List.range nrule).map fun i => ruleText (dmzRow form i))

/-- The text of `_save_dmz`, cut where the buffer ends, which the function itself leaves behind. -/
def dmzRule (u : Unspecified) (form : Form) (nrule : ℤ) : CStr :=
  if nrule ≤ 0 then u.buf else (dmzText form nrule.toNat).take (TMP_LEN - 1)

/-- `_save_dmz`. -/
def saveDmz (u : Unspecified) (form : Form) : Api Bool := do
  let num ← nvramSafeGet (.ofString "wan_num")
  let rule := dmzRule u form (wanNum num)
  let old ← nvramSafeGet (.ofString "fr_dmz_rule")
  if old ≠ rule then
    let _ ← Api.set (.ofString "fr_dmz_rule") (some rule)
    pure true
  else pure false

def frSaver : Saver :=
  ⟨"fr", LONG_BUF_LEN, false, CStr.empty, [.ofString "fr_rule_num"], frRow⟩

def flSaver : Saver :=
  ⟨"fl", LONG_BUF_LEN, false, CStr.empty, [.ofString "fl_rule_num", .ofString "bw_rule_num"],
    flRow⟩

def rtSaver : Saver :=
  ⟨"rt", TMP_LEN, false, CStr.empty, [.ofString "rt_rule_num"], rtRow⟩

def sbmSaver (x : RuleContext) : Saver :=
  ⟨"bw_sbm", TMP_LEN, true, CStr.empty, [.ofString "bw_sbm_rule_num"], sbmRow x⟩

/-- `_save_bw_dbm` does not empty `all_rule` first. -/
def dbmSaver (x : RuleContext) : Saver :=
  ⟨"bw_dbm", TMP_LEN, true, x.unspecified.buf, [.ofString "bw_dbm_rule_num"], dbmRow x⟩

/-- `save_fr`. -/
def saveFr (u : Unspecified) (form : Form) : Api Bool := do
  let dmz ← saveDmz u form
  let enable ← saveVar form (.ofString "fr_enable")
  if startsWith CHAR_1 (getVar form (.ofString "fr_enable") CStr.empty) then
    let rules ← saveRules u frSaver form
    pure (dmz || enable || rules)
  else pure (dmz || enable)

/-- `save_fl`. -/
def saveFl (u : Unspecified) (form : Form) : Api Bool := do
  let enable ← saveVar form (.ofString "fl_enable")
  if startsWith CHAR_1 (getVar form (.ofString "fl_enable") CStr.empty) then
    let default ← saveVar form (.ofString "fl_rule_default")
    let rules ← saveRules u flSaver form
    pure (enable || default || rules)
  else pure enable

/-- `save_rt`. -/
def saveRt (u : Unspecified) (form : Form) : Api Bool := do
  let enable ← saveVar form (.ofString "rt_enable")
  if startsWith CHAR_1 (getVar form (.ofString "rt_enable") CStr.empty) then
    let rules ← saveRules u rtSaver form
    pure (enable || rules)
  else pure enable

/-- `_save_bw_sbm`. -/
def saveBwSbm (x : RuleContext) (form : Form) : Api Bool :=
  saveRules x.unspecified (sbmSaver x) form

/-- `_save_bw_dbm`. -/
def saveBwDbm (x : RuleContext) (form : Form) : Api Bool :=
  saveRules x.unspecified (dbmSaver x) form

end EzpFirmware.Httpd
