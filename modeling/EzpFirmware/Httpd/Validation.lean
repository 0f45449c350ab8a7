import EzpFirmware.Httpd.FieldChecks

/-! # Checking and saving a form

`config_validate` asks every row of the table that the form names, and goes on
behind a row that refuses. The checks only read, but for that of the wizard: it
sets the connection on its way, and what is wrong behind that is found too late.
-/
namespace EzpFirmware.Httpd
open Lib UserNvram

/-- `struct variable`: the variables of a form that can be saved. What `valid_wizard` sets is told
apart, in `wizardSets`; no other check sets a variable. -/
structure Variable where
  name : CStr
  nullok : Bool
  /-- Whether a value may be saved. -/
  valid : Form → CStr → Api (Except Fault Bool)
  valid_reads : ∀ form value, Confined (fun _ => False) (valid form value)
  /-- Whether there is a change, and what becomes of `reboot_action`, if anything. -/
  save : Form → CStr → Api (Bool × Option ℕ)

/-! ## The check of the wizard -/

def WIZARD_RULE : CStr := .ofString "wizard_rule"

def WIZARD_ADMIN_PW := required ["20"]

def WIZARD_MODE := required ["10"]

def WIZARD_WAN_ENABLE := required ["0", "1"]

def WIZARD_WAN_TYPE := required ["0", "5"]

def WIZARD_WAN_PPPOE_NAME := required ["20"]

def WIZARD_WAN_PPPOE_PASSWD := required ["20"]

/-- The types of a connection for which `valid_wizard` sets variables. -/
inductive WanType where
  | DHCP
  | PPPOE
  | STATIC
  deriving DecidableEq

/-- The variables of a connection. -/
def wanSettings (ifname proto : String) : List (CStr × CStr) :=
  [(.ofString "wan0_ifname", .ofString ifname), (.ofString "wan0_device", .ofString "vlan2"),
    (.ofString "wan0_proto", .ofString proto)]

/-- What `valid_wizard` sets for a type. -/
def WanType.settings : WanType → List (CStr × CStr)
  | .DHCP => wanSettings "vlan2" "dhcp"
  | .PPPOE => wanSettings "ppp0" "pppoe"
  | .STATIC => wanSettings "vlan2" "static"

/-- Calls of `nvram_fset`. -/
def fsetAll : List (CStr × CStr) → Api Unit
  | [] => pure ()
  | a :: l => do
    let _ ← Api.set a.1 (some a.2)
    fsetAll l

/-- A field of the wizard, which is 0 where the form does not have it. -/
def wizardVar (form : Form) (name : String) : CStr := getVar form (.ofString name) (.ofString "0")

section
variable (u : Unspecified) (legalStatic : Form → Bool)

/-- The type of the connection that a form gives to `valid_wizard`, if the checks that belong to it
let it through. `legalStatic` stands for those of the five addresses, which look in front of short
texts. -/
def wanType (form : Form) : Option WanType :=
  let enable := wizardVar form "wan_eth_enable"
  let type := wizardVar form "wizard_wan_type_value"
  if validChoice WIZARD_WAN_ENABLE enable = false ∨ atoi enable = 0 ∨
      validRangeOf WIZARD_WAN_TYPE type = false then none
  else if atoi type = 0 then some .DHCP
  else if atoi type = 1 then
    if validName WIZARD_WAN_PPPOE_NAME (wizardVar form "wizard_wan0_ppp_username") &&
        validName WIZARD_WAN_PPPOE_PASSWD (wizardVar form "wizard_wan0_ppp_passwd") then
      some .PPPOE
    else none
  else if atoi type = 2 ∧ legalStatic form = true then some .STATIC
  else none

example : wanType (fun _ => false) (fun m =>
    if m = .ofString "wan_eth_enable" then some (.ofString "1") else none) = some .DHCP := by
  decide +kernel

/-- The type that `valid_wizard` gets to. It takes both `admin` and `mode` from the same
attribute. -/
def wizardWan (form : Form) : Api (Option WanType) := do
  let mode ← attrVal u WIZARD_RULE (.ofString "mode") TMP_LEN
  pure (if atoi mode = 0 ∨ validName WIZARD_ADMIN_PW (wizardVar form "wizard_adminpw") ∧
      validName WIZARD_MODE (wizardVar form "wizard_model") then wanType legalStatic form else none)

/-- What `valid_wizard` sets. -/
def wizardSets (form : Form) : Api Unit := do
  let type ← wizardWan u legalStatic form
  fsetAll (type.elim [] WanType.settings)

/-! ## The loops -/

/-- The value of a row that is checked: an empty one is not, where it is allowed. -/
def Variable.asked (v : Variable) (form : Form) : Option CStr :=
  (form v.name).filter fun value => !(value = CStr.empty && v.nullok)

/-- What the check of a row sets. -/
def Variable.sets (v : Variable) (form : Form) : Api Unit :=
  if v.name = WIZARD_RULE then wizardSets u legalStatic form else pure ()

/-- The check of a row. `valid_wizard` reads variables before it sets any. -/
def Variable.check (v : Variable) (form : Form) (value : CStr) : Api (Except Fault Bool) := do
  let ok ← v.valid form value
  let _ ← v.sets u legalStatic form
  pure ok

/-- The loop of `config_validate`, which goes on behind a value that is not valid. -/
def configValidate (form : Form) : Bool → List Variable → Api (Except Fault Bool)
  | ret, [] => pure (.ok ret)
  | ret, v :: rest =>
    match v.asked form with
    | none => configValidate form ret rest
    | some value => do
      match ← v.check u legalStatic form value with
      | .error e => pure (.error e)
      | .ok ok => configValidate form (ret && ok) rest

end

/-- The loop of `config_save`. -/
def configSave (form : Form) : List Variable → Api (Bool × Option ℕ)
  | [] => pure (false, none)
  | v :: rest =>
    match form v.name with
    | none => configSave form rest
    | some value => do
      let r ← v.save form value
      let others ← configSave form rest
      pure (r.1 || others.1, others.2.or r.2)

/-! ## What is set on the way -/

section
variable {u : Unspecified} {legalStatic : Form → Bool} {form : Form} {M : Variables}

/-- The form has the check of the wizard run. -/
def AsksWizard (form : Form) (table : List Variable) : Prop :=
  ∃ v ∈ table, v.name = WIZARD_RULE ∧ v.asked form ≠ none

theorem fsetAll_of_notMem {l : List (CStr × CStr)} {m : CStr} (hm : m ∉ l.map Prod.fst) :
    (onMap (fsetAll l) M).2 m = M m := by
  induction l generalizing M with
  | nil => rfl
  | cons a l ih =>
    rw [List.map_cons, List.mem_cons, not_or] at hm
    rw [fsetAll, onMap_bind, onMap_set, ih hm.2]
    exact Function.update_of_ne hm.1 _ _

/-- Each name has its value afterwards. -/
theorem fsetAll_of_mem {l : List (CStr × CStr)} (hnodup : (l.map Prod.fst).Nodup)
    {a : CStr × CStr} (ha : a ∈ l) : (onMap (fsetAll l) M).2 a.1 = kept (some a.2) := by
  induction l generalizing M with
  | nil => cases ha
  | cons b l ih =>
    rw [List.map_cons, List.nodup_cons] at hnodup
    rw [fsetAll, onMap_bind, onMap_set]
    rcases List.mem_cons.mp ha with rfl | ha
    · rw [fsetAll_of_notMem hnodup.1]
      exact Function.update_self _ _ _
    · exact ih hnodup.2 ha

theorem settings_nodup (t : WanType) : (t.settings.map Prod.fst).Nodup := by
  cases t <;> decide

theorem kept_settings {t : WanType} {a : CStr × CStr} (ha : a ∈ t.settings) :
    kept (some a.2) = some a.2 := by
  have hne : ∀ t : WanType, ∀ a ∈ t.settings, a.2 ≠ CStr.empty := by
    intro t
    cases t <;> decide
  simp [kept, hne t a ha]

/-- Setting a connection changes nothing exactly if it is the one that is stored. `P` are the
variables that are looked at. -/
theorem settings_same_iff {P : CStr → Prop} (t : WanType) (hP : ∀ a ∈ t.settings, P a.1) :
    (∀ m, P m → (onMap (fsetAll t.settings) M).2 m = M m) ↔
      ∀ a ∈ t.settings, M a.1 = some a.2 := by
  constructor
  · intro h a ha
    rw [← h a.1 (hP a ha), fsetAll_of_mem (settings_nodup t) ha, kept_settings ha]
  · intro h m _
    by_cases hm : m ∈ t.settings.map Prod.fst
    · obtain ⟨a, ha, rfl⟩ := List.mem_map.mp hm
      rw [fsetAll_of_mem (settings_nodup t) ha, kept_settings ha, h a ha]
    · exact fsetAll_of_notMem hm

theorem confined_wizardWan : Confined (fun _ => False) (wizardWan u legalStatic form) :=
  (confined_attrVal u _ _ _).bind fun _ => trivial

/-- A check that only reads leaves the store. -/
theorem Variable.valid_store (v : Variable) (value : CStr) :
    (onMap (v.valid form value) M).2 = M := by
  funext m
  exact (v.valid_reads form value).onMap not_false M

theorem wizardSets_store : (onMap (wizardSets u legalStatic form) M).2 =
    (onMap (fsetAll ((onMap (wizardWan u legalStatic form) M).1.elim [] WanType.settings)) M).2 := by
  have hsame : (onMap (wizardWan u legalStatic form) M).2 = M := by
    funext m
    exact confined_wizardWan.onMap not_false M
  rw [wizardSets, onMap_bind, hsame]

/-- What a check answers is what the row itself answers. -/
theorem Variable.check_fst (v : Variable) (value : CStr) :
    (onMap (v.check u legalStatic form value) M).1 = (onMap (v.valid form value) M).1 := by
  rw [Variable.check, onMap_bind, onMap_bind]
  rfl

theorem Variable.check_store (v : Variable) (value : CStr) :
    (onMap (v.check u legalStatic form value) M).2 =
      if v.name = WIZARD_RULE then (onMap (wizardSets u legalStatic form) M).2 else M := by
  rw [Variable.check, onMap_bind, onMap_bind, v.valid_store, Variable.sets]
  split_ifs <;> rfl

/-- One round of the loop. -/
theorem configValidate_cons {ret : Bool} {v : Variable} {rest : List Variable} {value : CStr}
    (hvalue : v.asked form = some value) {b : Bool}
    (h : (onMap (configValidate u legalStatic form ret (v :: rest)) M).1 = .ok b) :
    ∃ ok, onMap (configValidate u legalStatic form ret (v :: rest)) M =
      onMap (configValidate u legalStatic form (ret && ok) rest)
        (if v.name = WIZARD_RULE then (onMap (wizardSets u legalStatic form) M).2 else M) := by
  rw [configValidate, hvalue] at h ⊢
  dsimp only at h ⊢
  rw [onMap_bind, v.check_fst] at h
  rw [onMap_bind, v.check_fst, v.check_store]
  cases hok : (onMap (v.valid form value) M).1 with
  | error e =>
    rw [hok] at h
    cases h
  | ok ok => exact ⟨ok, rfl⟩

/-- What the loop leaves: the checks that run to their end set what the wizard sets, and nothing
else. -/
theorem configValidate_store {ret : Bool} {table : List Variable}
    (hnodup : (table.map Variable.name).Nodup) {b : Bool}
    (h : (onMap (configValidate u legalStatic form ret table) M).1 = .ok b) :
    (AsksWizard form table → (onMap (configValidate u legalStatic form ret table) M).2 =
      (onMap (wizardSets u legalStatic form) M).2) ∧
    (¬ AsksWizard form table → (onMap (configValidate u legalStatic form ret table) M).2 = M) := by
  induction table generalizing ret M with
  | nil =>
    refine ⟨?_, fun _ => rfl⟩
    rintro ⟨v, hv, _⟩
    cases hv
  | cons v rest ih =>
    rw [List.map_cons, List.nodup_cons] at hnodup
    cases hvalue : v.asked form with
    | none =>
      have hasks : AsksWizard form (v :: rest) ↔ AsksWizard form rest := by
        simp [AsksWizard, hvalue]
      have hskip : configValidate u legalStatic form ret (v :: rest) =
          configValidate u legalStatic form ret rest := by rw [configValidate, hvalue]
      rw [hskip] at h
      rw [hasks, hskip]
      exact ih hnodup.2 h
    | some value =>
      obtain ⟨ok, hround⟩ := configValidate_cons hvalue h
      rw [hround] at h ⊢
      by_cases hw : v.name = WIZARD_RULE
      · -- The names differ, so that the wizard is not asked again.
        have hasks : AsksWizard form (v :: rest) := ⟨v, by simp, hw, by simp [hvalue]⟩
        have hrest : ¬ AsksWizard form rest := by
          rintro ⟨v', hv', hw', -⟩
          exact hnodup.1 (List.mem_map.mpr ⟨v', hv', hw'.trans hw.symm⟩)
        rw [if_pos hw] at h ⊢
        exact ⟨fun _ => (ih hnodup.2 h).2 hrest, fun hno => absurd hasks hno⟩
      · have hasks : AsksWizard form (v :: rest) ↔ AsksWizard form rest := by
          simp [AsksWizard, hw]
        rw [if_neg hw] at h ⊢
        rw [hasks]
        exact ih hnodup.2 h

end

end EzpFirmware.Httpd
