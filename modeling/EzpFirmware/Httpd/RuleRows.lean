import EzpFirmware.Httpd.RuleChecks

/-! # Rows that are accepted

For each page of rules, the fields of a row that its validator does not look at.
All others are free of separators, and are written as they were sent.
-/
namespace EzpFirmware.Httpd
open Lib UserNvram

/-- The pages that store a rule set. -/
inductive RulePage where
  | fr
  | fl
  | rt
  | sbm
  | dbm
  deriving DecidableEq

namespace RulePage
variable (x : RuleContext) (form : Form) (nvram : Variables) (i : ℕ)

def saver : RulePage → Saver
  | .fr => frSaver
  | .fl => flSaver
  | .rt => rtSaver
  | .sbm => sbmSaver x
  | .dbm => dbmSaver x

/-- The validator of a page. -/
def valid : RulePage → Bool
  | .fr => validFr x form nvram
  | .fl => validFl x form nvram
  | .rt => validRt x form nvram
  | .sbm => validBwSbm x form nvram
  | .dbm => validBwDbm x form nvram

/-- The save function of a page. -/
def save : RulePage → Api Bool
  | .fr => saveFr x.unspecified form
  | .fl => saveFl x.unspecified form
  | .rt => saveRt x.unspecified form
  | .sbm => saveBwSbm x form
  | .dbm => saveBwDbm x form

/-- The field that switches a page on. `save_bw` calls its two functions for `bw_enable` only. -/
def enable : RulePage → CStr
  | .fr => .ofString "fr_enable"
  | .fl => .ofString "fl_enable"
  | .rt => .ofString "rt_enable"
  | .sbm | .dbm => .ofString "bw_enable"

def Enabled (page : RulePage) : Prop :=
  startsWith CHAR_1 (getVar form page.enable CStr.empty) = true

instance (page : RulePage) : Decidable (page.Enabled form) := inferInstanceAs (Decidable (_ = true))

/-- The check of one row. -/
def validRow : RulePage → Bool
  | .fr => validFrRow x form nvram i
  | .fl => validFlRow x form nvram i
  | .rt => validRtRow x form nvram i
  | .sbm => validSbmRow x form nvram i
  | .dbm => validDbmRow x form i

/-- The fields of a rule, with the values of the form as they were sent. -/
def submitted : RulePage → List CStr
  | .fr => ["name", "enable", "extif", "proto", "extport_start", "extport_end", "ipaddr",
      "inport_start", "inport_end"].map (rowVar form "fr" i)
  | .fl => flRow form i
  | .rt => ["name", "enable", "inipaddr_start", "inipaddr_end", "extipaddr_start",
      "extipaddr_end", "proto"].map (rowVar form "rt" i) ++ [CStr.empty, CStr.empty] ++
      ["extport_start", "extport_end", "extif", "routing_type", "gateway_ipaddr"].map
        (rowVar form "rt" i)
  | .sbm => sbmRow x form i
  | .dbm => dbmRow x form i

end RulePage

section
variable (form : Form) (i : ℕ)

/-- The ports of a row without a protocol. -/
def uncheckedPorts (stem : String) : List CStr :=
  if rowVar form stem i "proto" = CStr.empty then
    [rowVar form stem i "extport_start", rowVar form stem i "extport_end"]
  else []

/-- The fields of a row that the validator of a page does not look at. -/
def RulePage.unchecked : RulePage → List CStr
  | .fr => [rowVar form "fr" i "inport_start", rowVar form "fr" i "inport_end"]
  | .fl => uncheckedPorts form i "fl"
  | .rt => uncheckedPorts form i "rt" ++
      if rowVar form "rt" i "routing_type" = .ofString "static" then []
      else [rowVar form "rt" i "gateway_ipaddr"]
  | .sbm =>
    let field := rowVar form "bw_sbm" i
    let ratio := field "bw_alloc" = .ofString "ratio"
    let excess := startsWith CHAR_1 (field "excess") = true
    [field "extport_start", field "extport_end"] ++
      (if ratio then [field "bw_upload", field "bw_download"] else [field "bw_ratio"]) ++
      (if excess ∧ ratio then [] else [field "excess_ratio"]) ++
      (if excess ∧ ¬ ratio then [] else [field "excess_upload", field "excess_download"])
  | .dbm => []

end

/-! ## What accepted rows look like -/

section
variable {x : RuleContext} {form : Form} {nvram : Variables} {i : ℕ}

theorem not_startsWith_0 {s : CStr} (h : startsWith CHAR_1 s = true) :
    startsWith CHAR_0 s = false := by
  rw [startsWith, decide_eq_true_eq] at h
  rw [startsWith, h]
  decide

theorem validRows_of_loop {max : CStr} {n k : ℕ} {total : ℤ}
    (h : validDbmRows x form max n k total = true) (hi : k ≤ i) (hn : i < k + n) :
    validDbmRow x form i = true := by
  induction n generalizing k total with
  | zero => omega
  | succ n ih =>
    simp only [validDbmRows, Bool.and_eq_true] at h
    by_cases hik : i = k
    · exact hik ▸ h.1.1
    · exact ih h.2 (by omega) (by omega)

/-- An accepted form has accepted rows. -/
theorem RulePage.validRow_of_valid {page : RulePage} (h : page.valid x form nvram = true)
    (henabled : page.Enabled form) (hi : i < (submittedNum form (page.saver x).stem).toNat) :
    page.validRow x form nvram i = true := by
  have hzero := not_startsWith_0 henabled
  have hmem : i ∈ List.range (submittedNum form (page.saver x).stem).toNat := List.mem_range.mpr hi
  cases page with
  | fr =>
    simp only [valid, validFr, enable] at h hzero
    rw [hzero, Bool.false_or, Bool.and_eq_true] at h
    exact List.all_eq_true.mp h.2 i hmem
  | fl =>
    simp only [valid, validFl, enable] at h hzero
    rw [hzero, Bool.false_or, Bool.and_eq_true, Bool.and_eq_true] at h
    exact List.all_eq_true.mp h.2.2 i hmem
  | rt =>
    simp only [valid, validRt, enable] at h hzero
    rw [hzero, Bool.false_or, Bool.and_eq_true] at h
    exact List.all_eq_true.mp h.2 i hmem
  | sbm =>
    simp only [valid, validBwSbm, Bool.and_eq_true] at h
    exact List.all_eq_true.mp h.2 i hmem
  | dbm => exact validRows_of_loop h (Nat.zero_le i) (hi.trans_eq (Nat.zero_add _).symm)

theorem plain_ports {stem start last : String} {vStart vEnd : LocalVariable}
    (h : validPorts form stem start last vStart vEnd i = true)
    (hproto : rowVar form stem i "proto" ≠ CStr.empty) :
    Plain (rowVar form stem i start) ∧ Plain (rowVar form stem i last) := by
  simp only [validPorts, hproto, decide_false, Bool.false_or, Bool.and_eq_true] at h
  exact ⟨plain_validRangeOf h.1.1, plain_validRangeOf h.1.2⟩

/-- The ports that a validator looks at are free of separators. -/
theorem unchecked_or_plain_ports {stem : String} {vStart vEnd : LocalVariable} {f : CStr}
    (h : validPorts form stem "extport_start" "extport_end" vStart vEnd i = true)
    (hf : f = rowVar form stem i "extport_start" ∨ f = rowVar form stem i "extport_end") :
    f ∈ uncheckedPorts form i stem ∨ Plain f := by
  by_cases hproto : rowVar form stem i "proto" = CStr.empty
  · left
    simpa [uncheckedPorts, hproto] using hf
  · right
    have hplain := plain_ports h hproto
    rcases hf with rfl | rfl
    · exact hplain.1
    · exact hplain.2

theorem plain_addrs {stem start last : String} {vStart vEnd : LocalVariable}
    (h : validAddrs x form stem start last vStart vEnd i = true) :
    Plain (rowVar form stem i start) ∧ Plain (rowVar form stem i last) := by
  simp only [validAddrs, Bool.and_eq_true] at h
  exact ⟨plain_validIpaddr h.1.1, plain_validIpaddr h.1.2⟩

/-- A share is a ratio, or numbers for both directions. -/
theorem plain_share {ratio : Prop} [Decidable ratio] {vRatio vUpload vDownload : LocalVariable}
    {share upload download : CStr}
    (h : (if ratio then validRangeOf vRatio share
      else validNumberOf vUpload upload && validNumberOf vDownload download) = true) :
    (ratio → Plain share) ∧ (¬ ratio → Plain upload ∧ Plain download) := by
  by_cases hratio : ratio
  · rw [if_pos hratio] at h
    exact ⟨fun _ => plain_validRangeOf h, fun hnot => absurd hratio hnot⟩
  · rw [if_neg hratio, Bool.and_eq_true] at h
    exact ⟨fun hr => absurd hr hratio, fun _ => ⟨plain_validNumberOf h.1, plain_validNumberOf h.2⟩⟩

/-- An accepted range has both ends or none, so that `save_rt` does not fill one in. -/
theorem rangeEnd_of_addrs {stem start last : String} {vStart vEnd : LocalVariable}
    (h : validAddrs x form stem start last vStart vEnd i = true) :
    rangeEnd (rowVar form stem i start) (rowVar form stem i last) = rowVar form stem i last := by
  simp only [validAddrs, validIpaddrRange, Bool.and_eq_true, decide_eq_true_eq] at h
  unfold rangeEnd
  split_ifs with hlast
  · rw [hlast, h.2.1.1.1.mpr hlast]
  · rfl

/-- An accepted row is written as it was sent. -/
theorem RulePage.row_of_valid {page : RulePage} (h : page.validRow x form nvram i = true) :
    (page.saver x).row form i = page.submitted x form i := by
  cases page with
  | fr =>
    simp only [validRow, validFrRow, Bool.and_eq_true] at h
    have henable := h.1.1.1.1.1.1.1.1
    cases hname : form (rowName "fr" i "enable") with
    | none => simp [rowVar, getVar, hname, validChoice, FR_RULE_ENABLE, required] at henable
    | some value => simp [saver, frSaver, frRow, submitted, rowVar, getVar, hname]
  | rt =>
    simp only [validRow, validRtRow, Bool.and_eq_true] at h
    have hin := rangeEnd_of_addrs h.1.1.1.1.1.1.2
    have hext := rangeEnd_of_addrs h.1.1.1.1.1.2
    simp [saver, rtSaver, rtRow, submitted, hin, hext]
  | fl | sbm | dbm => rfl

/-- The texts of a row of `fr` that `valid_fr` looks at. -/
theorem unchecked_or_plain_fr (h : validFrRow x form nvram i = true) {f : CStr}
    (hf : f ∈ RulePage.fr.submitted x form i) : f ∈ RulePage.fr.unchecked form i ∨ Plain f := by
  simp only [validFrRow, Bool.and_eq_true] at h
  obtain ⟨⟨⟨⟨⟨⟨⟨⟨henable, hname⟩, hextif⟩, hproto⟩, hstart⟩, hend⟩, -⟩, hip⟩, -⟩ := h
  simp only [RulePage.submitted, List.map_cons, List.map_nil, List.mem_cons, List.not_mem_nil,
    or_false] at hf
  rcases hf with rfl | rfl | rfl | rfl | rfl | rfl | rfl | hf
  · exact .inr (plain_validName hname)
  · exact .inr (plain_validChoice henable)
  · exact .inr (plain_validIf hextif)
  · exact .inr (plain_validChoice hproto)
  · exact .inr (plain_validRangeOf hstart)
  · exact .inr (plain_validRangeOf hend)
  · exact .inr (plain_validIpaddr hip)
  · exact .inl (by simpa [RulePage.unchecked] using hf)

/-- The texts of a row of `fl`: constants, and fields that `valid_fl` looks at but for the ports. -/
theorem unchecked_or_plain_fl (h : validFlRow x form nvram i = true) {f : CStr}
    (hf : f ∈ flRow form i) : f ∈ uncheckedPorts form i "fl" ∨ Plain f := by
  simp only [validFlRow, Bool.and_eq_true] at h
  obtain ⟨⟨⟨⟨⟨⟨⟨henable, hname⟩, hextif⟩, hin⟩, hext⟩, hproto⟩, hports⟩, hop⟩ := h
  simp only [flRow, List.mem_cons, List.not_mem_nil, or_false] at hf
  rcases hf with rfl | rfl | rfl | rfl | rfl | rfl | rfl | rfl | rfl | rfl | rfl | hf | hf | rfl |
    rfl | rfl | rfl
  · exact .inr (plain_validName hname)
  · exact .inr (plain_validChoice henable)
  · exact .inr (plain_validIf hextif)
  · exact .inr plain_empty
  · exact .inr (plain_addrs hin).1
  · exact .inr (plain_addrs hin).2
  · exact .inr (plain_addrs hext).1
  · exact .inr (plain_addrs hext).2
  · exact .inr (plain_validChoice hproto)
  · exact .inr plain_empty
  · exact .inr plain_empty
  · exact unchecked_or_plain_ports hports (.inl hf)
  · exact unchecked_or_plain_ports hports (.inr hf)
  · exact .inr (plain_validChoice hop)
  · exact .inr (plain_hex4 _)
  · exact .inr (plain_decimal _)
  · exact .inr (plain_decimal _)

/-- A gateway is looked at for a static route only. -/
theorem unchecked_or_plain_gateway {v : LocalVariable}
    (h : (rowVar form "rt" i "routing_type" ≠ .ofString "static" ||
      validIpaddr x v (rowVar form "rt" i "gateway_ipaddr")) = true) :
    rowVar form "rt" i "gateway_ipaddr" ∈ RulePage.rt.unchecked form i ∨
      Plain (rowVar form "rt" i "gateway_ipaddr") := by
  by_cases hstatic : rowVar form "rt" i "routing_type" = .ofString "static"
  · simp only [hstatic, ne_eq, not_true_eq_false, decide_false, Bool.false_or] at h
    exact .inr (plain_validIpaddr h)
  · exact .inl (List.mem_append_right _ (by simp [hstatic]))

/-- The texts of a row of `rt`. -/
theorem unchecked_or_plain_rt (h : validRtRow x form nvram i = true) {f : CStr}
    (hf : f ∈ RulePage.rt.submitted x form i) : f ∈ RulePage.rt.unchecked form i ∨ Plain f := by
  simp only [validRtRow, Bool.and_eq_true] at h
  obtain ⟨⟨⟨⟨⟨⟨⟨⟨henable, hname⟩, hin⟩, hext⟩, hproto⟩, hports⟩, hextif⟩, htype⟩, hgateway⟩ := h
  simp only [RulePage.submitted, List.map_cons, List.map_nil, List.cons_append, List.nil_append,
    List.mem_cons, List.not_mem_nil, or_false] at hf
  rcases hf with rfl | rfl | rfl | rfl | rfl | rfl | rfl | rfl | rfl | hf | hf | rfl | rfl | rfl
  · exact .inr (plain_validName hname)
  · exact .inr (plain_validChoice henable)
  · exact .inr (plain_addrs hin).1
  · exact .inr (plain_addrs hin).2
  · exact .inr (plain_addrs hext).1
  · exact .inr (plain_addrs hext).2
  · exact .inr (plain_validChoice hproto)
  · exact .inr plain_empty
  · exact .inr plain_empty
  · exact (unchecked_or_plain_ports hports (.inl hf)).imp_left (List.mem_append_left _)
  · exact (unchecked_or_plain_ports hports (.inr hf)).imp_left (List.mem_append_left _)
  · exact .inr (plain_validIf hextif)
  · exact .inr (plain_validChoice htype)
  · exact unchecked_or_plain_gateway hgateway

/-- The shares of a row of `bw_sbm`, each looked at for one kind of allocation only. -/
theorem unchecked_or_plain_shares (h : validSbmRow x form nvram i = true) {f : CStr}
    (hf : f ∈ ["bw_ratio", "bw_upload", "bw_download", "excess_ratio", "excess_upload",
      "excess_download"].map (rowVar form "bw_sbm" i)) :
    f ∈ RulePage.sbm.unchecked form i ∨ Plain f := by
  simp only [validSbmRow, Bool.and_eq_true] at h
  have hshare := plain_share h.1.1.2
  have hexcess (h1 : startsWith CHAR_1 (rowVar form "bw_sbm" i "excess") = true) :=
    plain_share (by simpa only [h1, Bool.not_true, Bool.false_or] using h.2)
  simp only [List.map_cons, List.map_nil, List.mem_cons, List.not_mem_nil, or_false] at hf
  by_cases hratio : rowVar form "bw_sbm" i "bw_alloc" = .ofString "ratio"
  · rcases hf with rfl | rfl | rfl | rfl | rfl | rfl
    · exact .inr (hshare.1 hratio)
    · exact .inl (by simp [RulePage.unchecked, hratio])
    · exact .inl (by simp [RulePage.unchecked, hratio])
    · by_cases h1 : startsWith CHAR_1 (rowVar form "bw_sbm" i "excess") = true
      · exact .inr ((hexcess h1).1 hratio)
      · exact .inl (by simp [RulePage.unchecked, h1])
    · exact .inl (by simp [RulePage.unchecked, hratio])
    · exact .inl (by simp [RulePage.unchecked, hratio])
  · rcases hf with rfl | rfl | rfl | rfl | rfl | rfl
    · exact .inl (by simp [RulePage.unchecked, hratio])
    · exact .inr (hshare.2 hratio).1
    · exact .inr (hshare.2 hratio).2
    · exact .inl (by simp [RulePage.unchecked, hratio])
    · by_cases h1 : startsWith CHAR_1 (rowVar form "bw_sbm" i "excess") = true
      · exact .inr ((hexcess h1).2 hratio).1
      · exact .inl (by simp [RulePage.unchecked, h1])
    · by_cases h1 : startsWith CHAR_1 (rowVar form "bw_sbm" i "excess") = true
      · exact .inr ((hexcess h1).2 hratio).2
      · exact .inl (by simp [RulePage.unchecked, h1])

/-- The texts of a row of `bw_sbm`. -/
theorem unchecked_or_plain_sbm (h : validSbmRow x form nvram i = true) {f : CStr}
    (hf : f ∈ sbmRow x form i) : f ∈ RulePage.sbm.unchecked form i ∨ Plain f := by
  have hshares := @unchecked_or_plain_shares x form nvram i h
  simp only [validSbmRow, Bool.and_eq_true] at h
  obtain ⟨⟨⟨⟨⟨⟨⟨⟨⟨henable, hname⟩, hin⟩, hproto⟩, -⟩, hextif⟩, halloc⟩, -⟩, hexcess⟩, -⟩ := h
  simp only [sbmRow, List.mem_cons, List.not_mem_nil, or_false] at hf
  rcases hf with rfl | rfl | rfl | rfl | hnum | rfl | hf | hf | rfl | rfl | hf | hf | hf | rfl |
    rfl | hf | hf | hf
  · exact .inr (plain_validName hname)
  · exact .inr (plain_validChoice henable)
  · exact .inr (plain_addrs hin).1
  · exact .inr (plain_addrs hin).2
  · rw [hnum]
    exact .inr (plain_decimal _)
  · exact .inr (plain_validChoice hproto)
  · exact .inl (by simp [RulePage.unchecked, hf])
  · exact .inl (by simp [RulePage.unchecked, hf])
  · exact .inr (plain_validIf hextif)
  · exact .inr (plain_validChoice halloc)
  · exact hshares (by simp [hf])
  · exact hshares (by simp [hf])
  · exact hshares (by simp [hf])
  · exact .inr plain_empty
  · exact .inr (plain_validChoice hexcess)
  · exact hshares (by simp [hf])
  · exact hshares (by simp [hf])
  · exact hshares (by simp [hf])

/-- The texts of a row of `bw_dbm`, all of which are looked at. -/
theorem plain_dbm (h : validDbmRow x form i = true) {f : CStr} (hf : f ∈ dbmRow x form i) :
    Plain f := by
  simp only [validDbmRow, Bool.and_eq_true] at h
  simp only [dbmRow, List.mem_cons, List.not_mem_nil, or_false] at hf
  rcases hf with rfl | rfl | rfl | rfl | hnum | rfl
  · exact plain_validName h.1.2
  · exact plain_validChoice h.1.1
  · exact (plain_addrs h.2).1
  · exact (plain_addrs h.2).2
  · rw [hnum]
    exact plain_decimal _
  · exact plain_empty

/-- What a validator looks at is free of separators. -/
theorem RulePage.unchecked_or_plain {page : RulePage} (h : page.validRow x form nvram i = true)
    {f : CStr} (hf : f ∈ page.submitted x form i) : f ∈ page.unchecked form i ∨ Plain f := by
  cases page with
  | fr => exact unchecked_or_plain_fr h hf
  | fl => exact unchecked_or_plain_fl h hf
  | rt => exact unchecked_or_plain_rt h hf
  | sbm => exact unchecked_or_plain_sbm h hf
  | dbm => exact .inr (plain_dbm h hf)

end

end EzpFirmware.Httpd
