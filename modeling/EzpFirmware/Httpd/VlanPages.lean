import EzpFirmware.Httpd.VlanTexts

/-! # The page of the virtual networks

The page reads the rules again, undoes the rotation, and shows the first five
entries of each member text behind what its buffer held before.
-/
namespace EzpFirmware.Httpd
open Lib UserNvram

/-! ## What is read again -/

/-- The variables behind `save_vlan`. -/
def savedVlan (nvram : Variables) (n : ℕ) (vlanRule brRule vlanportRule : CStr) : Variables :=
  (onMap (saveVlan n vlanRule brRule vlanportRule) nvram).2

/-- A store that holds a text with the rules, and else reads as the one before. -/
structure Rereads (nvram M : Variables) (buf : CStr) : Prop where
  rule : M (.ofString "vlan_rule") = some buf
  platform : text M (.ofString "platform") = text nvram (.ofString "platform")
  ports : text M (.ofString "vlanport_rule_num") = text nvram (.ofString "vlanport_rule_num")
  networks : text M (.ofString "wlv_rule_num") = text nvram (.ofString "wlv_rule_num")

/-- The page reads as many rules as are saved: there is another number before, which is replaced, or
the one that is stored reads so. -/
def NumberRead (u : Unspecified) (nvram : Variables) (n : ℕ) : Prop :=
  (n : ℤ) ≠ atoi (text nvram (.ofString "vlan_rule_num")) ∨
    atoi (onMap (ezplibGetRule u (.ofString "vlan_rule_num") 0 LONG_BUF_LEN) nvram).1.2 = n

section
variable {u : Unspecified} {form : Form} {nvram M : Variables} {i n : ℕ} {buf br vlanport : CStr}
  {members : ℕ → CStr}

theorem kept_of_ne {s : CStr} (h : s ≠ CStr.empty) : kept (some s) = some s := if_neg h

theorem decimal_ne_empty (n : ℕ) : decimal n ≠ CStr.empty := by
  intro hempty
  have hval := congrArg Subtype.val hempty
  rw [decimal_val] at hval
  exact numeral_ne_nil _ _ _ hval

theorem saveRuleSet_store (ruleSet : CStr) : (onMap (saveRuleSet ruleSet buf) M).2 =
    if text M ruleSet ≠ CStr.empty ∧ text M ruleSet ≠ buf then
      Function.update M ruleSet (kept (some buf)) else M := by
  rw [saveRuleSet, onMap_bind, onMap_safeGet]
  dsimp only
  split_ifs <;> rfl

theorem saveVlanNum_store : (onMap (saveVlanNum n) M).2 =
    if (n : ℤ) ≠ atoi (text M (.ofString "vlan_rule_num")) then
      Function.update (Function.update M (.ofString "vlan_rule_num") (some (decimal n)))
        (.ofString "br_rule_num") (some (decimal n)) else M := by
  rw [saveVlanNum, onMap_bind, onMap_safeGet]
  dsimp only
  split_ifs
  · simp only [onMap_bind, onMap_set, kept_of_ne (decimal_ne_empty n)]
    rfl
  · rfl

theorem savedVlan_eq : savedVlan nvram n buf br vlanport =
    (onMap (saveRuleSet (.ofString "vlanport_rule") vlanport)
      (onMap (saveRuleSet (.ofString "br_rule") br)
        (onMap (saveRuleSet (.ofString "vlan_rule") buf)
          (onMap (saveVlanNum n) nvram).2).2).2).2 := by
  simp only [savedVlan, saveVlan, onMap_bind]
  rfl

/-- A rule set that is not the one that is saved. -/
theorem saveRuleSet_other {ruleSet name : CStr} (h : name ≠ ruleSet) :
    (onMap (saveRuleSet ruleSet buf) M).2 name = M name := by
  rw [saveRuleSet_store]
  split_ifs
  · exact Function.update_of_ne h _ _
  · rfl

theorem saveVlanNum_other {name : CStr} (hnum : name ≠ .ofString "vlan_rule_num")
    (hbr : name ≠ .ofString "br_rule_num") : (onMap (saveVlanNum n) M).2 name = M name := by
  rw [saveVlanNum_store]
  split_ifs
  · rw [Function.update_of_ne hbr, Function.update_of_ne hnum]
  · rfl

theorem savedVlan_other {name : CStr} (hname : name ∉ [CStr.ofString "vlan_rule_num",
      .ofString "br_rule_num", .ofString "vlan_rule", .ofString "br_rule",
      .ofString "vlanport_rule"]) : savedVlan nvram n buf br vlanport name = nvram name := by
  simp only [List.mem_cons, List.not_mem_nil, or_false, not_or] at hname
  obtain ⟨hnum, hbrnum, hrule, hbr, hport⟩ := hname
  rw [savedVlan_eq, saveRuleSet_other hport, saveRuleSet_other hbr, saveRuleSet_other hrule,
    saveVlanNum_other hnum hbrnum]

/-- The built text is stored where there was one before, and only there. -/
theorem savedVlan_rule_iff (hbuf : buf ≠ CStr.empty) :
    savedVlan nvram n buf br vlanport (.ofString "vlan_rule") = some buf ↔
      text nvram (.ofString "vlan_rule") ≠ CStr.empty := by
  have hsame : (onMap (saveVlanNum n) nvram).2 (.ofString "vlan_rule") =
      nvram (.ofString "vlan_rule") := saveVlanNum_other (by decide) (by decide)
  rw [savedVlan_eq, saveRuleSet_other (by decide), saveRuleSet_other (by decide),
    saveRuleSet_store, text_congr hsame]
  split_ifs with h
  · rw [Function.update_self, kept_of_ne hbuf]
    exact iff_of_true rfl h.1
  · rw [hsame]
    constructor
    · intro hold
      rw [text, hold]
      exact hbuf
    · intro hold
      have htext : text nvram (.ofString "vlan_rule") = buf := by
        by_contra hne
        exact h ⟨hold, hne⟩
      unfold text at htext hold
      cases hget : nvram (.ofString "vlan_rule") with
      | none => exact absurd (by rw [hget]; rfl) hold
      | some old =>
        rw [hget] at htext
        exact congrArg some htext

theorem rereads_saved (hbuf : buf ≠ CStr.empty)
    (hold : text nvram (.ofString "vlan_rule") ≠ CStr.empty) :
    Rereads nvram (savedVlan nvram n buf br vlanport) buf where
  rule := (savedVlan_rule_iff hbuf).mpr hold
  platform := text_congr (savedVlan_other (by decide))
  ports := text_congr (savedVlan_other (by decide))
  networks := text_congr (savedVlan_other (by decide))

theorem Rereads.rotated (h : Rereads nvram M buf) : rotated M = rotated nvram := by
  rw [Httpd.rotated, Httpd.rotated, h.platform]

theorem Rereads.vlanportNum (h : Rereads nvram M buf) : vlanportNum M = vlanportNum nvram := by
  rw [Httpd.vlanportNum, Httpd.vlanportNum, h.ports]

/-- The fields of a rule that the validator has looked at. -/
structure ValidFields (form : Form) (i : ℕ) : Prop where
  name : Plain (vlanField form i "name")
  name_len : (vlanField form i "name").len < SHORT_BUF_LEN
  enable : ∀ b ∈ (vlanField form i "enable").val, isDigit b = true
  vid : ∀ b ∈ (vlanField form i "vid").val, isDigit b = true

theorem digits_of_valid {v : LocalVariable} {value : CStr} (hnull : v.nullok = false)
    (h : validNumberOf v value = true) : ∀ b ∈ value.val, isDigit b = true := by
  rw [validNumberOf] at h
  split_ifs at h with hempty
  · rw [hnull] at h
    cases h
  · simp only [validNumber, Bool.and_eq_true] at h
    exact List.all_eq_true.mp h.2

theorem validFields_of_valid (h : validVlan form nvram = true)
    (hi : i < (submittedNum form "vlan").toNat) : ValidFields form i := by
  simp only [validVlan, Bool.and_eq_true, List.all_eq_true, List.mem_range] at h
  have hrule := h.1 i hi
  simp only [validVlanRule, Bool.and_eq_true] at hrule
  obtain ⟨⟨⟨⟨hname, henable⟩, hvid⟩, -⟩, -⟩ := hrule
  refine ⟨plain_validName hname, ?_, digits_of_valid rfl henable, digits_of_valid rfl hvid⟩
  rw [validName] at hname
  split_ifs at hname with hempty
  · cases hname
  · simp only [Bool.and_eq_true, decide_eq_true_eq] at hname
    have hmax : VLAN_NAME.arg 0 = 20 := by decide
    have hle := hname.2
    rw [hmax] at hle
    rw [SHORT_BUF_LEN]
    omega

theorem digit_plain {s : CStr} (h : ∀ b ∈ s.val, isDigit b = true) {c : UInt8}
    (hc : isDigit c = false) : c ∉ s.val := fun hmem => by
  rw [h c hmem] at hc
  cases hc

/-- A member text of flags, of a length that its buffer has room for. -/
structure FlagText (member : CStr) : Prop where
  binary : ∀ b ∈ member.val, IsFlagByte b
  len : member.len < SHORT_BUF_LEN

theorem FlagText.notMem {member : CStr} (h : FlagText member) {c : UInt8}
    (hc : c ≠ CHAR_0 ∧ c ≠ CHAR_1) : c ∉ member.val := fun hmem =>
  (h.binary c hmem).elim hc.1 hc.2

/-- The fields of a rule have no separators. -/
theorem vlanRow_fields {member : CStr} (h : ValidFields form i) (hm : FlagText member) :
    (vlanRow form i member).fields ATTR_SEP =
      [vlanField form i "name", vlanField form i "enable", HWIFNAME, vlanField form i "vid",
        member] := by
  rw [vlanRow, ruleText, CStr.fields_join ATTR_SEP_ne (List.cons_ne_nil _ _)]
  simp only [List.mem_cons, List.not_mem_nil, or_false, forall_eq_or_imp, forall_eq]
  exact ⟨h.name.1, digit_plain h.enable (by decide), by decide, digit_plain h.vid (by decide),
    hm.notMem (by decide)⟩

theorem notMem_vlanRow {member : CStr} {c : UInt8} (h : ValidFields form i) (hm : FlagText member)
    (hname : c ∉ (vlanField form i "name").val) (hdigit : isDigit c = false)
    (hother : c ∉ HWIFNAME.val ∧ c ≠ ATTR_SEP) : c ∉ (vlanRow form i member).val := by
  have hflag : c ≠ CHAR_0 ∧ c ≠ CHAR_1 := by
    constructor <;> rintro rfl <;> exact absurd hdigit (by decide)
  simp [vlanRow, ruleText, CStr.join, CStr.glue, hname, hother, digit_plain h.enable hdigit,
    digit_plain h.vid hdigit, hm.notMem hflag]

theorem vlanText_fields (hn : 0 < n) (h : ∀ i < n, ValidFields form i)
    (hm : ∀ i < n, FlagText (members i)) :
    (vlanText form members n).fields RULE_SEP =
      (List.range n).map fun i => vlanRow form i (members i) := by
  rw [vlanText, CStr.fields_join RULE_SEP_ne]
  · rw [ne_eq, List.map_eq_nil_iff, List.range_eq_nil]
    exact hn.ne'
  · intro f hf
    obtain ⟨i, hi, rfl⟩ := List.mem_map.mp hf
    have hi := List.mem_range.mp hi
    exact notMem_vlanRow (h i hi) (hm i hi) (h i hi).name.2 (by decide) (by decide)

theorem vlanRow_ne (form : Form) (i : ℕ) (member : CStr) : vlanRow form i member ≠ CStr.empty := by
  intro hempty
  have hlen := congrArg CStr.len hempty
  simp only [vlanRow, ruleText, CStr.join, CStr.glue_len, CStr.empty_len] at hlen
  omega

theorem vlanText_ne (hn : 0 < n) : vlanText form members n ≠ CStr.empty := by
  intro hempty
  rcases (CStr.join_eq_empty_iff RULE_SEP_ne).mp hempty with hnil | hone
  · rw [List.map_eq_nil_iff, List.range_eq_nil] at hnil
    omega
  · have hmem : vlanRow form 0 (members 0) ∈ [CStr.empty] :=
      hone ▸ List.mem_map.mpr ⟨0, List.mem_range.mpr hn, rfl⟩
    exact vlanRow_ne form 0 _ (List.mem_singleton.mp hmem)

/-- What the attributes of a rule read as. -/
theorem vlanAttr_saved (hM : M (.ofString "vlan_rule") = some (vlanText form members n))
    {type : String} {value : CStr} {bsize : ℕ} (hi : i < n)
    (h : ∀ i < n, ValidFields form i) (hm : ∀ i < n, FlagText (members i))
    (hplain : PERCENT ∉ (vlanField form i "name").val)
    (hlen : (vlanText form members n).len < LONG_BUF_LEN)
    (hattr : (type, value) ∈ [("name", vlanField form i "name"),
      ("enable", vlanField form i "enable"), ("vid", vlanField form i "vid"),
      ("portmember", members i)]) :
    vlanAttr u M "vlan_rule" i type bsize = value.take (bsize - 1) := by
  have hn : 0 < n := Nat.zero_lt_of_lt hi
  have hfields := vlanText_fields hn h hm
  have hrow : ((vlanText form members n).fields RULE_SEP)[i]? =
      some (vlanRow form i (members i)) := by
    rw [hfields, List.getElem?_map, List.getElem?_range hi]
    rfl
  have hne := @vlanText_ne form n members hn
  have hprint : u.printf (vlanRow form i (members i)) = vlanRow form i (members i) :=
    u.printf_plain _ (notMem_vlanRow (h i hi) (hm i hi) hplain (by decide) (by decide))
  have hrules : ∀ fs : List CStr, ((vlanRules.filter fun v => v.name = .ofString "vlan_rule").flatMap
      fun v => v.attr.zip (fs.take MAX_ATTR_NUM)) =
        [CStr.ofString "name", .ofString "enable", .ofString "ifname", .ofString "vid",
          .ofString "portmember"].zip (fs.take MAX_ATTR_NUM) := by
    intro fs
    exact List.append_nil _
  have hget (type : String) (a : CStr × CStr) (htype : CStr.ofString type ≠ CStr.empty)
      (hfind : ([CStr.ofString "name", .ofString "enable", .ofString "ifname", .ofString "vid",
        .ofString "portmember"].zip [vlanField form i "name", vlanField form i "enable", HWIFNAME,
          vlanField form i "vid", members i]).find? (fun a => a.1 = .ofString type) = some a) :
      vlanAttr u M "vlan_rule" i type bsize = a.2.take (bsize - 1) := by
    refine ezplibGetAttrVal_map (by decide) htype hM hlen hne hrow hprint ?_
    rw [hrules, vlanRow_fields (h i hi) (hm i hi)]
    exact hfind
  simp only [List.mem_cons, List.not_mem_nil, or_false, Prod.mk.injEq] at hattr
  rcases hattr with ⟨rfl, rfl⟩ | ⟨rfl, rfl⟩ | ⟨rfl, rfl⟩ | ⟨rfl, rfl⟩
  · exact hget "name" (_, _) (by decide) rfl
  · exact hget "enable" (_, _) (by decide) rfl
  · exact hget "vid" (_, _) (by decide) rfl
  · exact hget "portmember" (_, _) (by decide) rfl

end

/-! ## What is shown of a rule -/

/-- The number of wireless networks. -/
def wlvNum (nvram : Variables) : ℕ := (atoi (text nvram (.ofString "wlv_rule_num"))).toNat

/-- The entries that are shown of a member text. -/
def shownFlags (port : List UInt8) : List CStr :=
  (port.take VLAN_PORT_MAX).map fun b => flagText (b = CHAR_1)

theorem flagText_flag (b : Bool) : IsFlag (flagText b) := by
  cases b
  · exact .inl rfl
  · exact .inr rfl

theorem flags_lines_len {fs : List CStr} (h : ∀ f ∈ fs, IsFlag f) :
    (CStr.lines ATTR_SEP ATTR_SEP_ne fs).len = 2 * fs.length := by
  rw [CStr.lines_len_sum]
  induction fs with
  | nil => rfl
  | cons f fs ih =>
    have hrest := ih fun g hg => h g (List.mem_cons_of_mem f hg)
    rw [List.map_cons, List.sum_cons, hrest, (h f List.mem_cons_self).len, List.length_cons]
    omega

theorem flags_join_len {fs : List CStr} (hne : fs ≠ []) (h : ∀ f ∈ fs, IsFlag f) :
    (CStr.join ATTR_SEP ATTR_SEP_ne fs).len + 1 = 2 * fs.length := by
  rw [← CStr.lines_len ATTR_SEP_ne hne, flags_lines_len h]

theorem shownFlags_flag {port : List UInt8} : ∀ f ∈ shownFlags port, IsFlag f := by
  intro f hf
  obtain ⟨b, -, rfl⟩ := List.mem_map.mp hf
  exact flagText_flag _

theorem shownFlags_length {port : List UInt8} (h : port.length = SHORT_BUF_LEN) :
    (shownFlags port).length = VLAN_PORT_MAX := by
  rw [shownFlags, List.length_map, List.length_take, h]
  decide

/-- The last separator goes, and nothing in front of the lines. -/
theorem chop_append_lines {c : UInt8} (hc : c ≠ 0) (t : CStr) {fs : List CStr} (hfs : fs ≠ []) :
    (t.append (CStr.lines c hc fs)).chop c = t.append (CStr.join c hc fs) := by
  have hlines : t.append (CStr.lines c hc fs) =
      CStr.lines c hc [t.append (CStr.join c hc fs)] := by
    rw [CStr.lines_eq hc hfs, CStr.lines_eq hc (List.cons_ne_nil _ _)]
    exact Subtype.ext (by simp [CStr.glue, CStr.append, CStr.join])
  rw [hlines, CStr.chop_lines hc (List.cons_ne_nil _ _)]
  rfl

section
variable {junk : CStr} {port port' : List UInt8}

theorem vlanPortTrans_spec (hlen : port.length = SHORT_BUF_LEN)
    (h : vlanPortTrans junk port = some port') :
    CStr.read port' = junk.append (CStr.join ATTR_SEP ATTR_SEP_ne (shownFlags port)) := by
  have hne : shownFlags port ≠ [] := fun hnil => by
    have hfive := shownFlags_length hlen
    rw [hnil] at hfive
    cases hfive
  obtain ⟨-, hcopy⟩ := Option.ite_none_right_eq_some.mp h
  obtain ⟨-, hput⟩ := Option.ite_none_right_eq_some.mp hcopy
  cases Option.some.inj hput
  rw [poke, List.take_zero, List.nil_append, CStr.read_stored_append, CStr.read_stored]
  exact chop_append_lines ATTR_SEP_ne junk hne

theorem vlanPortTrans_run (hlen : port.length = SHORT_BUF_LEN) :
    ∃ port', vlanPortTrans CStr.empty port = some port' := by
  have hfive := shownFlags_length hlen
  have hlines := flags_lines_len (@shownFlags_flag port)
  rw [hfive] at hlines
  have htext : (CStr.empty.append (CStr.lines ATTR_SEP ATTR_SEP_ne (shownFlags port))).len =
      2 * VLAN_PORT_MAX := hlines
  have hsmall : 2 * VLAN_PORT_MAX < SHORT_BUF_LEN := by decide
  have hchop := CStr.chop_len_le ATTR_SEP
    (CStr.empty.append (CStr.lines ATTR_SEP ATTR_SEP_ne (shownFlags port)))
  have hstored : HasText (CStr.chop ATTR_SEP (CStr.empty.append
      (CStr.lines ATTR_SEP ATTR_SEP_ne (shownFlags port)))).stored _ _ :=
    ⟨rfl, List.prefix_rfl⟩
  obtain ⟨port', hcopy, -⟩ := hstored.strcpy hlen (by omega)
  refine ⟨port', ?_⟩
  unfold vlanPortTrans
  dsimp only
  change (if (CStr.empty.append (CStr.lines ATTR_SEP ATTR_SEP_ne (shownFlags port))).len <
    SHORT_BUF_LEN then _ else _) = _
  rw [if_pos (by omega)]
  exact hcopy

theorem vlanIfnamesTrans_isSome_iff (nvram : Variables) (ifnames : CStr) :
    (vlanIfnamesTrans nvram ifnames).isSome = true ↔ 2 * (wlvNum nvram + 2) < TMP_LEN := by
  rw [vlanIfnamesTrans, flags_lines_len fun f hf => by
    obtain ⟨name, -, rfl⟩ := List.mem_map.mp hf
    exact flagText_flag _]
  simp only [List.length_map, List.length_append, List.length_range, List.length_cons,
    List.length_nil]
  change (if 2 * (wlvNum nvram + 2) < TMP_LEN then _ else _ : Option CStr).isSome = true ↔ _
  split_ifs with h <;> simp [h]

/-- The networks are shown as flags, with those of the repeaters behind them. -/
theorem vlanIfnamesTrans_spec {nvram : Variables} {ifnames shown : CStr}
    (h : vlanIfnamesTrans nvram ifnames = some shown) :
    ∃ fs : List CStr, fs.length = wlvNum nvram + 2 ∧ (∀ f ∈ fs, IsFlag f) ∧
      shown = CStr.join ATTR_SEP ATTR_SEP_ne fs := by
  obtain ⟨-, hshown⟩ := Option.ite_none_right_eq_some.mp h
  cases Option.some.inj hshown
  refine ⟨_, ?_, ?_, CStr.chop_lines ATTR_SEP_ne (by simp)⟩
  · simp [wlvNum]
  · intro f hf
    obtain ⟨name, -, rfl⟩ := List.mem_map.mp hf
    exact flagText_flag _

end

/-! ## What is shown on the page -/

theorem trans2web_glue {c : UInt8} (hc : c ≠ 0) (s t : CStr) :
    trans2web (CStr.glue c hc s t) = trans2web s ++ (webByte c ++ trans2web t) := by
  simp [trans2web, CStr.glue]

/-- A separator costs the same in front of every text. -/
theorem trans2web_join_length {c : UInt8} (hc : c ≠ 0) {fs : List CStr} (hfs : fs ≠ []) :
    (trans2web (CStr.join c hc fs)).length + (webByte c).length =
      (fs.map fun f => (trans2web f).length + (webByte c).length).sum := by
  induction fs with
  | nil => exact absurd rfl hfs
  | cons f fs ih =>
    by_cases hrest : fs = []
    · subst hrest
      exact (Nat.add_zero _).symm
    · rw [CStr.join_cons hc f hrest, trans2web_glue, List.map_cons, List.sum_cons, ← ih hrest]
      simp only [List.length_append]
      omega

/-- A text without separators has the same length. -/
theorem trans2web_plain {s : CStr} (h : Plain s) : (trans2web s).length = s.len := by
  have hbyte : ∀ b ∈ s.val, (webByte b).length = 1 := by
    intro b hb
    have hattr : b ≠ ATTR_SEP := fun he => h.1 (he ▸ hb)
    have hrule : b ≠ RULE_SEP := fun he => h.2 (he ▸ hb)
    rw [webByte, if_neg hattr, if_neg hrule]
    split_ifs <;> rfl
  rw [trans2web, List.length_flatMap, List.map_congr_left hbyte, List.map_const',
    List.sum_replicate_nat, Nat.mul_one]
  rfl

theorem IsFlag.plain {f : CStr} (h : IsFlag f) : Plain f := by
  rcases h with rfl | rfl <;> decide

/-- Flags with separators between them. -/
theorem trans2web_flags {fs : List CStr} (hne : fs ≠ []) (h : ∀ f ∈ fs, IsFlag f) :
    (trans2web (CStr.join ATTR_SEP ATTR_SEP_ne fs)).length + 3 = 4 * fs.length := by
  have hsep : (webByte ATTR_SEP).length = 3 := by decide
  have hflag : ∀ f ∈ fs, (trans2web f).length + 3 = 4 := by
    intro f hf
    rw [trans2web_plain (h f hf).plain, (h f hf).len]
  have hjoin := trans2web_join_length ATTR_SEP_ne hne
  rw [hsep, List.map_congr_left hflag] at hjoin
  rw [hjoin, List.map_const', List.sum_replicate_nat, Nat.mul_comm]

end EzpFirmware.Httpd
