import EzpFirmware.Httpd.RuleRows
import EzpFirmware.Httpd.RuleStores
import EzpFirmware.UserNvram.RuleEdits

/-! # Forms and the rules they leave

What a page accepts is stored row by row, unless a field that its validator does
not look at holds a separator, the number of rows is negative, or the buffer of
`_save_bw_dbm` is stored as it was found.
-/
namespace EzpFirmware.Httpd
open Lib UserNvram

/-- The stored rules are the rows of a form. -/
structure RulePage.Agrees (page : RulePage) (x : RuleContext) (form : Form) (n : ℤ)
    (stored : Variables) : Prop where
  num : atoi (text stored (page.saver x).ruleNum) = n
  length : ((storedRules (text stored (page.saver x).rule)).length : ℤ) = n
  row : ∀ i rule, (storedRules (text stored (page.saver x).rule))[i]? = some rule →
    rule.fields ATTR_SEP = page.submitted x form i

/-! ## What a page leaves -/

section
variable {x : RuleContext} {form : Form} {M : Variables} {page : RulePage}

/-- The names of a page do not depend on anything but the page. -/
theorem RulePage.named (x : RuleContext) (page : RulePage) : (page.saver x).Named := by
  have hown : ∀ p ∈ [frSaver, flSaver, rtSaver],
      p.ruleNum ∈ p.counts ∧ p.rule ∉ p.counts ∧ p.ruleNum ≠ p.rule := by decide +kernel
  have hbw : ∀ stem ∈ ["bw_sbm", "bw_dbm"],
      CStr.ofString (stem ++ "_rule_num") ∈ [CStr.ofString (stem ++ "_rule_num")] ∧
      CStr.ofString (stem ++ "_rule") ∉ [CStr.ofString (stem ++ "_rule_num")] ∧
      CStr.ofString (stem ++ "_rule_num") ≠ CStr.ofString (stem ++ "_rule") := by decide +kernel
  have hall : (page.saver x).ruleNum ∈ (page.saver x).counts ∧
      (page.saver x).rule ∉ (page.saver x).counts ∧
      (page.saver x).ruleNum ≠ (page.saver x).rule := by
    cases page with
    | fr => exact hown frSaver (by simp)
    | fl => exact hown flSaver (by simp)
    | rt => exact hown rtSaver (by simp)
    | sbm => exact hbw "bw_sbm" (by simp)
    | dbm => exact hbw "bw_dbm" (by simp)
  exact ⟨hall.1, hall.2.1, hall.2.2⟩

/-- The number of rules of a page. -/
def RulePage.num (page : RulePage) (x : RuleContext) (form : Form) (M : Variables) : ℤ :=
  (page.saver x).num form M

/-- The texts that a page builds fit their buffers. -/
structure RulePage.Fits (page : RulePage) (x : RuleContext) (form : Form) (M : Variables) :
    Prop where
  rules : (page.saver x).Fits form (page.num x form M).toNat
  dmz : page = .fr →
    (dmzText form (wanNum (text M (.ofString "wan_num"))).toNat).len < TMP_LEN

theorem Saver.num_congr {p : Saver} {M M' : Variables} (h : M' p.ruleMax = M p.ruleMax) :
    p.num form M' = p.num form M := by
  rw [num, num, text_congr h]

/-- What is saved in front of the rules leaves the largest number of rules alone. -/
theorem RulePage.save_run (henabled : page.Enabled form) (M : Variables) :
    ∃ M', M' (page.saver x).ruleMax = M (page.saver x).ruleMax ∧
      (onMap (page.save x form) M).2 =
        (onMap (saveRules x.unspecified (page.saver x) form) M').2 := by
  have hvar : ∀ (m name : CStr) (M : Variables), m ≠ name →
      (onMap (saveVar form name) M).2 m = M m :=
    fun m name M hne => (confined_saveVar (P := (· = name)) form rfl).onMap hne M
  cases page with
  | fr =>
    have hdmz := (confined_saveDmz (P := (· = .ofString "fr_dmz_rule")) x.unspecified form rfl).onMap
      (m := frSaver.ruleMax) (by decide +kernel) M
    have hone : startsWith CHAR_1 (getVar form (.ofString "fr_enable") CStr.empty) = true :=
      henabled
    refine ⟨_, (hvar frSaver.ruleMax (.ofString "fr_enable") _ (by decide +kernel)).trans hdmz, ?_⟩
    simp only [save, saver, saveFr, onMap_bind, hone, if_true, Program.pure_eq, onMap_done]
  | fl =>
    have hone : startsWith CHAR_1 (getVar form (.ofString "fl_enable") CStr.empty) = true :=
      henabled
    refine ⟨_, (hvar flSaver.ruleMax (.ofString "fl_rule_default") _ (by decide +kernel)).trans
      (hvar flSaver.ruleMax (.ofString "fl_enable") M (by decide +kernel)), ?_⟩
    simp only [save, saver, saveFl, onMap_bind, hone, if_true, Program.pure_eq, onMap_done]
  | rt =>
    have hone : startsWith CHAR_1 (getVar form (.ofString "rt_enable") CStr.empty) = true :=
      henabled
    refine ⟨_, hvar rtSaver.ruleMax (.ofString "rt_enable") M (by decide +kernel), ?_⟩
    simp only [save, saver, saveRt, onMap_bind, hone, if_true, Program.pure_eq, onMap_done]
  | sbm | dbm => exact ⟨M, rfl, rfl⟩

/-- After saving, the number and the text of the rules are those of the form. -/
theorem RulePage.save_stores (henabled : page.Enabled form)
    (hfits : page.Fits x form M) :
    atoi (text (onMap (page.save x form) M).2 (page.saver x).ruleNum) = page.num x form M ∧
      text (onMap (page.save x form) M).2 (page.saver x).rule =
        builtText (page.saver x) form (page.num x form M).toNat := by
  obtain ⟨M', hmax, hrun⟩ := RulePage.save_run (x := x) henabled M
  have hnum : (page.saver x).num form M' = page.num x form M := Saver.num_congr hmax
  rw [hrun, ← hnum]
  exact saveRules_stores (page.named x) x.unspecified (hnum ▸ hfits.rules)

/-! ## When they agree -/

/-- What keeps the rules of an accepted form together: their number is not negative, no field that
is not looked at has a separator, and a text that nothing was written to is empty. -/
structure RulePage.Sound (page : RulePage) (x : RuleContext) (form : Form) (M : Variables) :
    Prop where
  num : 0 ≤ page.num x form M
  plain : ∀ i < (page.num x form M).toNat, ∀ f ∈ page.unchecked form i, Plain f
  initial : page.num x form M = 0 → (page.saver x).initial = CStr.empty

theorem mem_rule_of_field {rule f : CStr} (hf : f ∈ rule.fields ATTR_SEP) {b : UInt8}
    (hb : b ∈ f.val) : b ∈ rule.val := by
  have hmem : b ∈ (CStr.join ATTR_SEP ATTR_SEP_ne (rule.fields ATTR_SEP)).val :=
    CStr.mem_join_of_mem hf hb
  rwa [CStr.join_fields] at hmem

/-- A field of a stored rule has no separator. -/
theorem plain_of_stored {s rule f : CStr} (hrule : rule ∈ storedRules s)
    (hf : f ∈ rule.fields ATTR_SEP) : Plain f := by
  refine ⟨CStr.not_mem_of_mem_fields hf, fun hb => ?_⟩
  unfold storedRules at hrule
  split_ifs at hrule
  · cases hrule
  · exact CStr.not_mem_of_mem_fields hrule (mem_rule_of_field hf hb)

/-- Rows without separators are read back from the text they were joined to. -/
theorem storedRules_rulesText {p : Saver} {n : ℕ} (hn : n ≠ 0)
    (hplain : ∀ i < n, ∀ f ∈ p.row form i, Plain f) (hlong : ∀ i < n, 2 ≤ (p.row form i).length) :
    storedRules (rulesText p form n) = (List.range n).map fun i => ruleText (p.row form i) := by
  have hfree : ∀ r ∈ (List.range n).map (fun i => ruleText (p.row form i)), RULE_SEP ∉ r.val := by
    intro r hr hb
    obtain ⟨i, hi, rfl⟩ := List.mem_map.mp hr
    rcases CStr.mem_join hb with hb | ⟨f, hf, hb⟩
    · exact absurd hb (by decide)
    · exact (hplain i (List.mem_range.mp hi) f hf).2 hb
  have hne : (List.range n).map (fun i => ruleText (p.row form i)) ≠ [] := by simpa using hn
  have hfields := CStr.fields_join (by decide : RULE_SEP ≠ 0) hne hfree
  have htext : rulesText p form n ≠ CStr.empty := by
    intro hempty
    have h0 : ruleText (p.row form 0) = CStr.empty := by
      have hle := rulesText_len_le p form (Nat.one_le_iff_ne_zero.mpr hn)
      rw [hempty, rulesText_one] at hle
      exact Subtype.ext (List.length_eq_zero_iff.mp (Nat.le_zero.mp hle))
    have hcount := CStr.le_count_join (by decide : ATTR_SEP ≠ 0) (p.row form 0)
    have hrow := hlong 0 (Nat.pos_of_ne_zero hn)
    change CStr.join ATTR_SEP _ (p.row form 0) = CStr.empty at h0
    rw [h0] at hcount
    simp only [CStr.empty, List.count_nil] at hcount
    omega
  rw [storedRules, if_neg htext]
  exact hfields

/-- A row of a page has fields enough not to be empty. -/
theorem RulePage.row_length (page : RulePage) (x : RuleContext) (form : Form) (i : ℕ) :
    2 ≤ ((page.saver x).row form i).length := by
  cases page <;> simp [saver, frSaver, flSaver, rtSaver, sbmSaver, dbmSaver, frRow, flRow, rtRow,
    sbmRow, dbmRow]

/-- A field that is not looked at is part of the rule. -/
theorem RulePage.submitted_of_unchecked {f : CStr} {i : ℕ} (hf : f ∈ page.unchecked form i) :
    f ∈ page.submitted x form i := by
  have hports {stem : String} (h : f ∈ uncheckedPorts form i stem) :
      f = rowVar form stem i "extport_start" ∨ f = rowVar form stem i "extport_end" := by
    unfold uncheckedPorts at h
    split_ifs at h
    · simpa using h
    · cases h
  cases page with
  | fr =>
    simp only [unchecked, List.mem_cons, List.not_mem_nil, or_false] at hf
    rcases hf with rfl | rfl <;> simp [submitted]
  | fl => rcases hports hf with rfl | rfl <;> simp [submitted, flRow]
  | rt =>
    rcases List.mem_append.mp hf with hf | hf
    · rcases hports hf with rfl | rfl <;> simp [submitted]
    · split_ifs at hf
      · cases hf
      · rw [List.mem_singleton.mp hf]
        simp [submitted]
  | sbm =>
    simp only [unchecked, List.mem_append] at hf
    rcases hf with ((hf | hf) | hf) | hf
    · simp only [List.mem_cons, List.not_mem_nil, or_false] at hf
      rcases hf with rfl | rfl <;> simp [submitted, sbmRow]
    all_goals
      split_ifs at hf
      all_goals simp only [List.mem_cons, List.not_mem_nil, or_false] at hf
    · rcases hf with rfl | rfl <;> simp [submitted, sbmRow]
    · rw [hf]
      simp [submitted, sbmRow]
    · rw [hf]
      simp [submitted, sbmRow]
    · rcases hf with rfl | rfl <;> simp [submitted, sbmRow]
  | dbm => cases hf

/-- The stored rules are those of an accepted form exactly for a form that is sound. -/
theorem RulePage.agrees_iff (page : RulePage) (x : RuleContext) (form : Form) (M : Variables)
    (haccepted : page.valid x form M = true) (henabled : page.Enabled form)
    (hfits : page.Fits x form M) :
    page.Agrees x form (page.num x form M) (onMap (page.save x form) M).2 ↔
      page.Sound x form M := by
  obtain ⟨hnum, htext⟩ := RulePage.save_stores henabled hfits
  have hvalid : ∀ i < (page.num x form M).toNat, page.validRow x form M i = true := by
    intro i hi
    refine RulePage.validRow_of_valid haccepted henabled (hi.trans_le ?_)
    exact Int.toNat_le_toNat (min_le_left _ _)
  constructor
  · rintro ⟨-, hlength, hrow⟩
    have hpos : 0 ≤ page.num x form M := hlength ▸ Int.natCast_nonneg _
    refine ⟨hpos, fun i hi f hf => ?_, fun hzero => ?_⟩
    · have hi' : i < (storedRules (text (onMap (page.save x form) M).2
          (page.saver x).rule)).length := by omega
      have hget := List.getElem?_eq_getElem hi'
      have hfield := hrow i _ hget
      exact plain_of_stored (List.getElem_mem hi')
        (hfield ▸ RulePage.submitted_of_unchecked hf)
    · rw [hzero] at hlength htext
      have hnil := List.length_eq_zero_iff.mp (Int.natCast_eq_zero.mp hlength)
      rw [htext] at hnil
      exact storedRules_empty_iff.mp hnil
  · rintro ⟨hpos, hplain, hinitial⟩
    by_cases hzero : page.num x form M = 0
    · have hstored : storedRules (text (onMap (page.save x form) M).2 (page.saver x).rule) = [] := by
        rw [storedRules_empty_iff, htext, hzero]
        exact hinitial hzero
      refine ⟨hnum, by rw [hstored, hzero]; rfl, fun i rule hrule => ?_⟩
      rw [hstored] at hrule
      cases hrule
    · have hn : (page.num x form M).toNat ≠ 0 := by omega
      have hrows : ∀ i < (page.num x form M).toNat,
          ∀ f ∈ (page.saver x).row form i, Plain f := by
        intro i hi f hf
        rw [RulePage.row_of_valid (hvalid i hi)] at hf
        exact (RulePage.unchecked_or_plain (hvalid i hi) hf).elim (hplain i hi f) id
      have hstored := storedRules_rulesText hn hrows fun i _ => page.row_length x form i
      rw [builtText, if_neg hn] at htext
      rw [← htext] at hstored
      refine ⟨hnum, ?_, fun i rule hrule => ?_⟩
      · rw [hstored, List.length_map, List.length_range]
        exact Int.toNat_of_nonneg hpos
      · rw [hstored, List.getElem?_map, Option.map_eq_some_iff] at hrule
        obtain ⟨j, hj, rfl⟩ := hrule
        obtain ⟨hi, rfl⟩ := List.getElem?_eq_some_iff.mp hj
        rw [List.length_range] at hi
        rw [List.getElem_range, ← RulePage.row_of_valid (hvalid i hi)]
        have hne : (page.saver x).row form i ≠ [] := fun h => by
          have hlong := page.row_length x form i
          rw [h] at hlong
          cases hlong
        exact CStr.fields_join _ hne fun f hf => (hrows i hi f hf).1

end

/-! ## Two forms for port forwarding -/

/-- A number below 256 in decimal. -/
def quadPart (s : CStr) : Option ℕ :=
  if s ≠ CStr.empty ∧ s.val.all isDigit ∧ atoi s < 256 then some (atoi s).toNat else none

theorem DOT_ne : (0x2e : UInt8) ≠ 0 := by
  decide

/-- A system that takes addresses in dotted notation. -/
def dottedContext : RuleContext where
  unspecified := ⟨id, Unspecified.id_plain, CStr.empty, 0⟩
  inetAton s :=
    match (s.fields 0x2e).map quadPart with
    | [some a, some b, some c, some d] => some (.ofNat (((a * 256 + b) * 256 + c) * 256 + d))
    | _ => none
  inetNtoa n := CStr.join 0x2e DOT_ne
    ([24, 16, 8, 0].map fun k => decimal ((n.toNat / 2 ^ k % 256 : ℕ) : ℤ))
  sbmMax := .ofString "0"
  dbmMax := .ofString "0"

/-- A store with an interface, an address and room for rules. -/
def forwardStore : Variables := fun m =>
  if m = .ofString "wan_num" then some (.ofString "1")
  else if m = .ofString "lan_static_rule" then some (.ofString "192.168.1.1^24^^^")
  else if m = .ofString "fr_rule_max" then some (.ofString "16")
  else none

/-- A form with one rule, up to the last port of the device in the LAN. -/
def forwardForm (inportEnd : String) : Form := fun m =>
  ([("fr_dmz0_enable", "0"), ("fr_enable", "1"), ("fr_rule_num", "1"), ("fr_rule0_name", "web"),
    ("fr_rule0_enable", "1"), ("fr_rule0_extif", "wan0"), ("fr_rule0_proto", "tcp"),
    ("fr_rule0_extport_start", "80"), ("fr_rule0_extport_end", "80"),
    ("fr_rule0_ipaddr", "192.168.1.5"), ("fr_rule0_inport_start", "8080"),
    ("fr_rule0_inport_end", inportEnd)].find? fun f => CStr.ofString f.1 = m).map fun f =>
      .ofString f.2

/-- The last field of the row, with a rule of its own behind it. -/
def injected : String := "8080|ssh^1^wan0^tcp^22^22^192.168.1.1^22^22"

/-- Both texts are accepted for the last port, and fit. -/
theorem forward_accepted : ∀ port ∈ ["8080", injected],
    RulePage.fr.valid dottedContext (forwardForm port) forwardStore = true ∧
      RulePage.fr.Enabled (forwardForm port) ∧ frSaver.num (forwardForm port) forwardStore = 1 ∧
      (ruleText (frSaver.row (forwardForm port) 0)).len < TMP_LEN ∧
      (dmzText (forwardForm port) (wanNum (text forwardStore (.ofString "wan_num"))).toNat).len <
        TMP_LEN := by
  decide +kernel

theorem forward_fits {port : String} (h : port ∈ ["8080", injected]) :
    RulePage.fr.Fits dottedContext (forwardForm port) forwardStore := by
  obtain ⟨-, -, hnum, hrule, hdmz⟩ := forward_accepted port h
  have hone : (RulePage.fr.num dottedContext (forwardForm port) forwardStore).toNat = 1 :=
    congrArg Int.toNat hnum
  have hlong : (ruleText (frSaver.row (forwardForm port) 0)).len < LONG_BUF_LEN :=
    hrule.trans (by decide)
  refine ⟨⟨fun i hi => ?_, ?_⟩, fun _ => hdmz⟩
  · obtain rfl : i = 0 := by omega
    exact hlong
  · rw [hone]
    exact hlong

/-- An accepted form with one row leaves two rules. -/
theorem forward_injected :
    RulePage.fr.valid dottedContext (forwardForm injected) forwardStore = true ∧
      RulePage.fr.Enabled (forwardForm injected) ∧
      RulePage.fr.Fits dottedContext (forwardForm injected) forwardStore ∧
      ¬ RulePage.fr.Agrees dottedContext (forwardForm injected)
        (RulePage.fr.num dottedContext (forwardForm injected) forwardStore)
        (onMap (RulePage.fr.save dottedContext (forwardForm injected)) forwardStore).2 := by
  have hmem : injected ∈ ["8080", injected] := by simp
  obtain ⟨hvalid, henabled, hnum, -⟩ := forward_accepted injected hmem
  refine ⟨hvalid, henabled, forward_fits hmem, fun h => ?_⟩
  have htwo : ((storedRules (text (onMap (RulePage.fr.save dottedContext (forwardForm injected))
      forwardStore).2 frSaver.rule)).length : ℤ) = 2 := by decide +kernel
  have hone := h.length.trans hnum
  exact absurd (htwo.symm.trans hone) (by decide)

/-- Without a separator in it the form is stored as it was sent. -/
theorem agrees_iff_forward : RulePage.fr.Agrees dottedContext (forwardForm "8080")
    (RulePage.fr.num dottedContext (forwardForm "8080") forwardStore)
    (onMap (RulePage.fr.save dottedContext (forwardForm "8080")) forwardStore).2 := by
  have hmem : "8080" ∈ ["8080", injected] := by simp
  obtain ⟨hvalid, henabled, hnum, -⟩ := forward_accepted "8080" hmem
  have hnum' : RulePage.fr.num dottedContext (forwardForm "8080") forwardStore = 1 := hnum
  have hplain : ∀ f ∈ RulePage.fr.unchecked (forwardForm "8080") 0, Plain f := by decide +kernel
  refine (RulePage.agrees_iff .fr dottedContext (forwardForm "8080") forwardStore hvalid henabled
    (forward_fits hmem)).mpr ⟨hnum' ▸ zero_le_one, fun i hi => ?_, fun _ => rfl⟩
  obtain rfl : i = 0 := by omega
  exact hplain

end EzpFirmware.Httpd
