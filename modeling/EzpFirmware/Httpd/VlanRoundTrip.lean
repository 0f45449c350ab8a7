import EzpFirmware.Httpd.VlanRows

/-! # Forms of the virtual networks and their page

What the page shows after a form was stored are the flags of the form, if the
rules were built and replaced others, the page has an entry for every port, and
its buffers have room and start empty.
-/
namespace EzpFirmware.Httpd
open Lib UserNvram

/-! ## The number of the rules -/

section
variable {u : Unspecified} {form : Form} {nvram M : Variables} {i n : ℕ} {junk : ℕ → CStr}

/-- What is read of a variable depends on that variable. -/
theorem getRule_congr {name : CStr} (h : M name = nvram name) (nth : ℤ) (bsize : ℕ) :
    (onMap (ezplibGetRule u name nth bsize) M).1 =
      (onMap (ezplibGetRule u name nth bsize) nvram).1 := by
  unfold ezplibGetRule
  split_ifs
  · rfl
  · rw [onMap_bind, onMap_bind, onMap_get, onMap_get, h]
    dsimp only
    cases nvram name with
    | none => rfl
    | some text =>
      dsimp only
      split_ifs <;> rfl

/-- A number that is stored is read again. -/
theorem ruleNum_stored (hn : n ≤ LONG_BUF_LEN)
    (hM : M (.ofString "vlan_rule_num") = some (decimal n)) :
    atoi (onMap (ezplibGetRule u (.ofString "vlan_rule_num") 0 LONG_BUF_LEN) M).1.2 = n := by
  have hmany : LONG_BUF_LEN ≤ 10 ^ 4 := by decide
  have hlen : (decimal n).len ≤ 5 := decimal_len_le (k := 4) (by omega)
  have hread : UserNvram.Readable M (.ofString "vlan_rule_num") (decimal n) := by
    refine ⟨by decide, hM, decimal_ne_empty n, fun hmem => ?_, ?_⟩
    · have hdigit : ∀ d < 10, PERCENT ≠ digitByte d := by decide
      rcases mem_decimal hmem with h | ⟨d, hd, h⟩
      · exact absurd h (by decide)
      · exact hdigit d hd h
    · exact hlen.trans_lt (by decide)
  have hget := @UserNvram.Readable.getRule u _ _ _ hread 0 LONG_BUF_LEN (hlen.trans_lt (by decide))
  rw [CStr.fields_of_not_mem (plain_decimal n).2] at hget
  rw [Int.natCast_zero] at hget
  rw [hget]
  exact atoi_decimal (by omega) (by omega)

theorem savedVlan_num {buf br vlanport : CStr} :
    savedVlan nvram n buf br vlanport (.ofString "vlan_rule_num") =
      if (n : ℤ) ≠ atoi (text nvram (.ofString "vlan_rule_num")) then some (decimal n)
      else nvram (.ofString "vlan_rule_num") := by
  rw [savedVlan_eq, saveRuleSet_other (by decide), saveRuleSet_other (by decide),
    saveRuleSet_other (by decide), saveVlanNum_store]
  split_ifs
  · rw [Function.update_of_ne (by decide), Function.update_self]
  · rfl

/-- The page reads as many rules as are saved exactly if the stored number does not read
otherwise. -/
theorem ruleNum_saved_iff {buf br vlanport : CStr} (hn : n ≤ LONG_BUF_LEN) :
    atoi (onMap (ezplibGetRule u (.ofString "vlan_rule_num") 0 LONG_BUF_LEN)
      (savedVlan nvram n buf br vlanport)).1.2 = n ↔ NumberRead u nvram n := by
  have hnum := @savedVlan_num nvram n buf br vlanport
  unfold NumberRead
  split_ifs at hnum with hne
  · exact iff_of_true (ruleNum_stored hn hnum) (.inl hne)
  · rw [getRule_congr hnum]
    exact (or_iff_right hne).symm

/-! ## The whole page -/

/-- The number of rules that `save_vlan` builds. -/
def savedVlanNum (form : Form) (nvram : Variables) : ℕ :=
  (min (submittedNum form "vlan") (atoi (text nvram (.ofString "vlan_rule_max")))).toNat

/-- The rules of the form are built and stored, and the page shows them with their flags. -/
def VlanKept (u : Unspecified) (form : Form) (nvram : Variables) (tmp : List UInt8)
    (buf br vlanport : CStr) (junk : ℕ → CStr) (n : ℕ) : Prop :=
  ∃ text, buildVlanRule u form nvram tmp n buf = some text ∧
    (0 < n → (∃ members, RulesBuilt form nvram n text members) ∧
      savedVlan nvram n text br vlanport (.ofString "vlan_rule") = some text ∧
      ∃ rows, ejVlanShowContent u (savedVlan nvram n text br vlanport) junk = some rows ∧
        rows.length = n ∧ ∀ i < n, ∃ row, rows[i]? = some row ∧ ShowsFlags form nvram i row)

/-- The rules of the form can be built, replace others, and the page has room for them. -/
structure VlanFits (u : Unspecified) (form : Form) (nvram : Variables) (junk : ℕ → CStr)
    (n : ℕ) : Prop where
  old : text nvram (.ofString "vlan_rule") ≠ CStr.empty
  number : NumberRead u nvram n
  ports : PortsFit nvram
  rules : RulesFit u form nvram n
  page : ShownFits form nvram n junk

/-- What the page shows of rules that are stored, in a store that has their number. -/
theorem Stored.page (h : Stored u form nvram n) (hn : 0 < n)
    (hM : Rereads nvram M (storedText u form nvram n)) :
    (∃ rows, ejVlanShowContent u M junk = some rows ∧ rows.length = n ∧
      ∀ i < n, ∃ row, rows[i]? = some row ∧ ShowsFlags form nvram i row) ↔
      atoi (onMap (ezplibGetRule u (.ofString "vlan_rule_num") 0 LONG_BUF_LEN) M).1.2 = n ∧
        ShownFits form nvram n junk := by
  unfold ejVlanShowContent
  dsimp only
  generalize atoi (onMap (ezplibGetRule u (.ofString "vlan_rule_num") 0 LONG_BUF_LEN) M).1.2 = num
  constructor
  · rintro ⟨rows, hrows, hlength, hshows⟩
    split_ifs at hrows with hnum
    obtain ⟨⟨rows', total⟩, hrun, hrows⟩ := Option.bind_eq_some_iff.mp hrows
    obtain ⟨hweb, hlast⟩ := Option.ite_none_right_eq_some.mp hrows
    cases Option.some.inj hlast
    dsimp only at hweb
    have hcount : num.toNat = n := (vlanShowRounds_length hrun).symm.trans hlength
    rw [hcount] at hrun
    obtain ⟨hof, hjunk, hifnames⟩ := h.rounds_spec hM le_rfl hrun hshows
    have hsum := hof.web_len hn h.valid
    exact ⟨by omega, hjunk, hifnames hn, by omega⟩
  · rintro ⟨rfl, hfits⟩
    obtain ⟨rows, hrun, hof, hshows⟩ := h.rounds_run hM hfits le_rfl
    have hsum := hof.web_len hn h.valid
    have hroom := hfits.room
    rw [if_neg (by omega), Int.toNat_natCast, hrun, Option.bind_some]
    dsimp only
    exact ⟨rows, if_pos (by omega), hof.1, hshows⟩

/-- The five entries of a page show no more flags. -/
theorem ShowsFlags.num_le {row : VlanShown} (h : ShowsFlags form nvram i row) :
    (vlanportNum nvram).toNat ≤ VLAN_PORT_MAX := by
  obtain ⟨rest, -, hlen, -⟩ := h
  rw [List.length_append, portFlags, List.length_map, List.length_range] at hlen
  omega

/-- A valid form is kept exactly when it fits. -/
theorem vlan_kept_iff (u : Unspecified) (form : Form) (nvram : Variables) (tmp : List UInt8)
    (buf br vlanport : CStr) (junk : ℕ → CStr) (htmp : tmp.length = TMP_LEN)
    (hvalid : validVlan form nvram = true) :
    let n := savedVlanNum form nvram
    let plain := ∀ i < n, PERCENT ∉ (vlanField form i "name").val
    ((0 < n → VlanFits u form nvram junk n ∧ plain) →
      VlanKept u form nvram tmp buf br vlanport junk n) ∧
      (plain → VlanKept u form nvram tmp buf br vlanport junk n → 0 < n →
        VlanFits u form nvram junk n) := by
  intro n plain
  have hfields : ∀ i < n, ValidFields form i := fun i hi =>
    validFields_of_valid hvalid (by
      have hle := min_le_left (submittedNum form "vlan")
        (atoi (text nvram (.ofString "vlan_rule_max")))
      exact hi.trans_le (Int.toNat_le_toNat hle))
  constructor
  · intro hfits
    rcases Nat.eq_zero_or_pos n with hzero | hn
    · rw [hzero]
      exact ⟨buf, rfl, fun h => absurd h (by decide)⟩
    · obtain ⟨⟨hold, hnumber, hports, hrules, hpage⟩, hplain⟩ := hfits hn
      have hstored : Stored u form nvram n := ⟨hports, hrules, hfields, hplain⟩
      obtain ⟨hbuild, hbuilt⟩ := built_of_fits htmp hn hports hrules buf
      have hM := @rereads_saved nvram n _ br vlanport (storedText_ne u form nvram hn) hold
      exact ⟨_, hbuild, fun _ => ⟨⟨_, hbuilt⟩, hM.rule,
        (hstored.page hn hM).mpr ⟨(ruleNum_saved_iff hrules.num_le).mpr hnumber, hpage⟩⟩⟩
  · rintro hplain ⟨text, hbuild, hkept⟩ hn
    obtain ⟨⟨members, hbuilt⟩, hrule, rows, hrows, hlength, hshows⟩ := hkept hn
    obtain ⟨hnonneg, hle, hlt, hrules⟩ := fits_of_built htmp hn hbuild hbuilt
    obtain ⟨row, -, hrow⟩ := hshows 0 hn
    have hnum := hrow.num_le
    have hports : PortsFit nvram := ⟨hnonneg, by omega, hle, hlt⟩
    have hstored : Stored u form nvram n := ⟨hports, hrules, hfields, hplain⟩
    obtain ⟨hbuild', -⟩ := built_of_fits htmp hn hports hrules buf
    obtain rfl : text = storedText u form nvram n :=
      Option.some.inj (hbuild.symm.trans hbuild')
    have hold := (savedVlan_rule_iff (storedText_ne u form nvram hn)).mp hrule
    obtain ⟨hcount, hpage⟩ := (hstored.page hn (rereads_saved (storedText_ne u form nvram hn) hold)).mp
      ⟨rows, hrows, hlength, hshows⟩
    exact ⟨hold, (ruleNum_saved_iff hrules.num_le).mp hcount, hports, hrules, hpage⟩

end

/-- A switch of five ports whose rules have seven entries. -/
def switchStore (platform : String) : Variables := fun m =>
  ([("platform", platform), ("vlan_rule_max", "4"), ("vlanport_rule_num", "5"),
    ("vlanport_rule_max", "7"), ("wlv_rule_num", "1"), ("vlan_rule", "old^1^eth2^5^0000011")].find?
      fun f => CStr.ofString f.1 = m).map fun f => .ofString f.2

/-- A form with a rule for a network, and the flag of its first port. -/
def switchForm (vid p1 : String) : Form := fun m =>
  ([("vlan_rule_num", "1"), ("vlan_rule0_name", "lab"), ("vlan_rule0_enable", "1"),
    ("vlan_rule0_vid", vid), ("vlan_rule0_p1", p1), ("vlan_rule0_p2", "1"), ("vlan_rule0_p3", "0"),
    ("vlan_rule0_p4", "1"), ("vlan_rule0_p5", "0"), ("vlan_rule0_s1", "1"), ("vlan_rule0_s2", "0"),
    ("vlan_rule0_wds", "0"), ("vlan_rule0_ur", "0")].find? fun f => CStr.ofString f.1 = m).map
      fun f => .ofString f.2

theorem vlan_kept_lab :
    VlanKept clean (switchForm "5" "0") (switchStore "AMC") (List.replicate TMP_LEN 0)
      CStr.empty CStr.empty CStr.empty (fun _ => CStr.empty) 1 := by
  have hnum : savedVlanNum (switchForm "5" "0") (switchStore "AMC") = 1 := by decide +kernel
  have h := vlan_kept_iff clean (switchForm "5" "0") (switchStore "AMC")
    (List.replicate TMP_LEN 0) CStr.empty CStr.empty CStr.empty (fun _ => CStr.empty)
    List.length_replicate (by decide +kernel)
  rw [hnum] at h
  refine h.1 fun _ => ⟨⟨by decide +kernel, .inl (by decide +kernel), ?_, ?_, ?_⟩, ?_⟩
  · exact ⟨by decide +kernel, by decide +kernel, by decide +kernel, by decide +kernel⟩
  · have hflags : ∀ f ∈ portFlags (switchForm "5" "0") 0 (vlanportNum (switchStore "AMC")).toNat,
        f = .ofString "0" ∨ f = .ofString "1" := by
      decide +kernel
    have hkept : ∀ b ∈ keptPorts clean (switchStore "AMC") 0, b = CHAR_0 ∨ b = CHAR_1 := by
      decide +kernel
    refine ⟨by decide +kernel, fun i hi => ?_, by decide +kernel⟩
    obtain rfl : i = 0 := by omega
    exact ⟨hflags, hkept⟩
  · exact ⟨fun _ _ => rfl, by decide +kernel, by decide +kernel⟩
  · decide +kernel

/-- The number 0 of a network is stored, and a 2 as the flag of a port. -/
theorem vlan_not_kept :
    (validVlan (switchForm "0" "0") (switchStore "AMC") = true ∧
      ¬ VlanKept clean (switchForm "0" "0") (switchStore "AMC") (List.replicate TMP_LEN 0)
        CStr.empty CStr.empty CStr.empty (fun _ => CStr.empty) 1) ∧
      validVlan (switchForm "5" "2") (switchStore "AMC") = true ∧
      ¬ VlanKept clean (switchForm "5" "2") (switchStore "AMC") (List.replicate TMP_LEN 0)
        CStr.empty CStr.empty CStr.empty (fun _ => CStr.empty) 1 := by
  refine ⟨⟨by decide +kernel, ?_⟩, by decide +kernel, ?_⟩
  · rintro ⟨text, -, hkept⟩
    obtain ⟨⟨members, hbuilt⟩, -⟩ := hkept (by decide)
    exact absurd (hbuilt.vid 0 (by decide)) (by decide +kernel)
  · rintro ⟨text, hbuild, hkept⟩
    obtain ⟨⟨members, hbuilt⟩, -⟩ := hkept (by decide)
    obtain ⟨-, -, -, hrules⟩ := fits_of_built List.length_replicate (by decide) hbuild hbuilt
    have hflag := (hrules.rule 0 (by decide)).flags (portFlag (switchForm "5" "2") 0 1)
      (by decide +kernel)
    rcases hflag with hflag | hflag <;> exact absurd hflag (by decide +kernel)

end EzpFirmware.Httpd
