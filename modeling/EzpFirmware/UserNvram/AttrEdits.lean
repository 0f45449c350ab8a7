import EzpFirmware.Lib.Assignments
import EzpFirmware.UserNvram.AttrTables
import EzpFirmware.UserNvram.RuleLists

/-! # Editing one attribute

`ezplib_replace_attr` rebuilds a rule from the attributes that have both a name
in the table and a text, and hands the result to `ezplib_replace_rule`.
-/
namespace EzpFirmware.UserNvram
open Lib

/-- The text of a list of attributes. -/
def joinAttrs (fs : List CStr) : CStr := CStr.join ATTR_SEP ATTR_SEP_ne fs

/-- What the edit of an attribute is: success means that its text is the new one and that all other
attributes and rules are as they were; an attribute that the table or the rule does not have is an
error that leaves the set alone. -/
structure EditsAttr (schema : List CStr) (text r : CStr) (nth : ℕ) (attrName newAttr : CStr)
    (call : ℤ × CStr) : Prop where
  edited : attrName ∈ schema → schema.idxOf attrName < (r.fields ATTR_SEP).length → call.1 = 0 →
    storedRules call.2 = (text.fields RULE_SEP).set nth
      (joinAttrs ((r.fields ATTR_SEP).set (schema.idxOf attrName) newAttr))
  refused : ¬ (attrName ∈ schema ∧ schema.idxOf attrName < (r.fields ATTR_SEP).length) →
    call.1 < 0 ∧ call.2 = text

/-- The attributes that the call emits: those with a name and a text, the new text among them. -/
def rebuilt (schema : List CStr) (r attrName newAttr : CStr) : List CStr :=
  substitute schema attrName newAttr ((r.fields ATTR_SEP).take MAX_ATTR_NUM)

/-- The loop emits the attributes with the new text among them. -/
theorem attrLoop_eq (attrName newAttr : CStr) (names ptrs : List CStr) (tmp : CStr) :
    attrLoop attrName newAttr (names.zip ptrs) tmp =
      (emitAll ATTR_SEP ATTR_SEP_ne (substitute names attrName newAttr ptrs) tmp).toOption := by
  induction names generalizing ptrs tmp with
  | nil => rfl
  | cons name names ih =>
    cases ptrs with
    | nil => rfl
    | cons ptr ptrs =>
      rw [List.zip_cons_cons, attrLoop, substitute_cons, emitAll]
      cases emit ATTR_SEP ATTR_SEP_ne (if name = attrName then newAttr else ptr) tmp with
      | none => rfl
      | some tmp => exact ih ptrs tmp

section
variable {u : Unspecified} {rules : List Rule} {M : Variables}
  {ruleSet text r attrName newAttr : CStr} {nth : ℕ} {v : Rule}

theorem joinAttrs_fields (r : CStr) : joinAttrs (r.fields ATTR_SEP) = r := CStr.join_fields _ r

/-- Attributes without the separator are read back. -/
theorem fields_joinAttrs {fs : List CStr} (hfs : fs ≠ []) (hfree : ∀ f ∈ fs, ATTR_SEP ∉ f.val) :
    (joinAttrs fs).fields ATTR_SEP = fs := CStr.fields_join _ hfs hfree

theorem joinAttrs_free {fs : List CStr} (hfree : ∀ f ∈ fs, RULE_SEP ∉ f.val) :
    RULE_SEP ∉ (joinAttrs fs).val := by
  intro h
  rcases CStr.mem_join h with h | ⟨f, hf, h⟩
  · exact absurd h (by decide)
  · exact hfree f hf h

/-- The attributes of a rule have no separator of rules in them. -/
theorem free_of_mem_attrs (hr : RULE_SEP ∉ r.val) : ∀ f ∈ r.fields ATTR_SEP, RULE_SEP ∉ f.val := by
  intro f hf h
  apply hr
  rw [← joinAttrs_fields r]
  exact CStr.mem_join_of_mem hf h

/-- The whole call on a stored rule. -/
theorem Stored.replaceAttr (h : Stored M ruleSet text) (hr : (text.fields RULE_SEP)[nth]? = some r)
    (hv : rules.find? (fun v => v.name = ruleSet) = some v) (hname : attrName ≠ CStr.empty) :
    onMap (ezplibReplaceAttr u rules ruleSet nth attrName newAttr) M =
      let cut := rebuilt v.attr r attrName newAttr
      if EZPLIB_BUF_LEN ≤ text.len ∨ EZPLIB_BUF_LEN ≤ (joinAttrs cut).len + 1 then
        (EZPLIB_VAL_TRUNC, M)
      else onMap (ezplibReplaceRule u ruleSet nth (if cut = [] then u.buf else joinAttrs cut)) M := by
  rw [ezplibReplaceAttr, if_neg (not_or.mpr ⟨h.name, hname⟩), onMap_bind]
  by_cases hfits : text.len < EZPLIB_BUF_LEN
  · have hpos : ¬ ((r.len : ℕ) : ℤ) < 0 := not_lt.mpr (Int.natCast_nonneg _)
    rw [(h.readable hfits).getRule nth hfits, hr]
    dsimp only
    rw [if_neg hpos, hv]
    dsimp only
    rw [attrLoop_eq, ← rebuilt]
    generalize rebuilt v.attr r attrName newAttr = cut
    by_cases hcut : cut = []
    · subst hcut
      have hshort : ¬ (EZPLIB_BUF_LEN ≤ text.len ∨ EZPLIB_BUF_LEN ≤ (joinAttrs []).len + 1) :=
        not_or.mpr ⟨not_le.mpr hfits, by decide⟩
      rw [if_neg hshort]
      rfl
    · have hemit : emitAll ATTR_SEP ATTR_SEP_ne cut CStr.empty =
          if (joinAttrs cut).len + 1 < EZPLIB_BUF_LEN then .ok (CStr.lines ATTR_SEP ATTR_SEP_ne cut)
          else .error EZPLIB_VAL_TRUNC := emitAll_join ATTR_SEP ATTR_SEP_ne hcut
      rw [hemit]
      by_cases hroom : (joinAttrs cut).len + 1 < EZPLIB_BUF_LEN
      · rw [if_pos hroom, if_neg (not_or.mpr ⟨not_le.mpr hfits, not_le.mpr hroom⟩), if_neg hcut]
        dsimp only [Except.toOption]
        rw [if_neg (lines_ne_empty ATTR_SEP ATTR_SEP_ne hcut), CStr.chop_lines _ hcut]
        rfl
      · rw [if_neg hroom, if_pos (.inr (not_lt.mp hroom))]
        rfl
  · have hneg : EZPLIB_VAL_TRUNC < 0 := by decide
    have hlong : EZPLIB_BUF_LEN ≤ text.len := not_lt.mp hfits
    rw [getRule_long h.name h.stored hlong]
    dsimp only
    rw [if_pos hneg, if_pos (.inl hlong)]
    rfl

/-- What the replacement of a rule of the set leaves. -/
theorem Stored.replaceRule_text (h : Stored M ruleSet text)
    (hr : (text.fields RULE_SEP)[nth]? = some r) (hfits : text.len < EZPLIB_BUF_LEN)
    (newRule : CStr) : outcome (ezplibReplaceRule u ruleSet nth newRule) M ruleSet =
      (0, let edited := joinRules ((text.fields RULE_SEP).set nth newRule)
        if edited.len + 1 < EZPLIB_BUF_LEN then edited else text) := by
  have hnth : nth < (text.fields RULE_SEP).length := (List.getElem?_eq_some_iff.mp hr).1
  have hedit : Opcode.REPLACE_RULE.edit nth newRule (text.fields RULE_SEP) =
      (text.fields RULE_SEP).set nth newRule := if_pos (by omega)
  have hop := h.opRule (u := u) .REPLACE_RULE nth newRule
    (replace_ne_nil (CStr.fieldsOf_ne_nil _ _))
  rw [hedit] at hop
  rw [outcome, h.replaceRule, if_neg (by omega), hop]
  dsimp only
  by_cases hroom : (joinRules ((text.fields RULE_SEP).set nth newRule)).len + 1 < EZPLIB_BUF_LEN
  · rw [if_pos ⟨hfits, hroom⟩, if_pos hroom, text_update_kept]
  · rw [if_neg fun hc => hroom hc.2, if_neg hroom, h.text_eq]

theorem outcome_congr {p q : Api ℤ} (h : onMap p M = onMap q M) (ruleSet : CStr) :
    outcome p M ruleSet = outcome q M ruleSet := by
  rw [outcome, outcome, h]

theorem rebuilt_ne_nil {schema : List CStr} (hname : attrName ∈ schema) :
    rebuilt schema r attrName newAttr ≠ [] := by
  intro he
  have hlen := congrArg List.length he
  have hpos := List.length_pos_of_mem hname
  have hfields := fields_length_pos ATTR_SEP r
  have hmax : MAX_ATTR_NUM = 32 := rfl
  rw [rebuilt, substitute_length, List.length_take, List.length_nil] at hlen
  omega

/-- A byte that is in no attribute and not in the new text is in none of the emitted ones. -/
theorem rebuilt_free {schema : List CStr} {c : UInt8} (hfs : ∀ f ∈ r.fields ATTR_SEP, c ∉ f.val)
    (hnew : c ∉ newAttr.val) : ∀ f ∈ rebuilt schema r attrName newAttr, c ∉ f.val := by
  intro f hf
  rcases mem_substitute hf with rfl | hf
  · exact hnew
  · exact hfs f (List.mem_of_mem_take hf)

/-- The attributes of a rule with one of them replaced. -/
theorem set_fields_free (hattr : ATTR_SEP ∉ newAttr.val) (j : ℕ) :
    ∀ f ∈ (r.fields ATTR_SEP).set j newAttr, ATTR_SEP ∉ f.val := by
  intro f hf
  rcases List.mem_or_eq_of_mem_set hf with hf | rfl
  · exact CStr.not_mem_of_mem_fields hf
  · exact hattr

theorem set_fields_ne_nil (j : ℕ) : (r.fields ATTR_SEP).set j newAttr ≠ [] := by
  intro he
  have hlen := congrArg List.length he
  rw [List.length_set] at hlen
  exact (fields_length_pos ATTR_SEP r).ne' hlen

theorem EditsAttr.of_neg {schema : List CStr} {ret : ℤ} (hret : ret < 0) :
    EditsAttr schema text r nth attrName newAttr (ret, text) :=
  ⟨fun _ _ h0 => absurd h0 hret.ne, fun _ => ⟨hret, rfl⟩⟩

/-- Where the attribute is there, the edit is right if the rules that are left are. -/
theorem editsAttr_iff {schema : List CStr} {after : CStr} (hname : attrName ∈ schema)
    (hidx : schema.idxOf attrName < (r.fields ATTR_SEP).length) :
    EditsAttr schema text r nth attrName newAttr (0, after) ↔
      storedRules after = (text.fields RULE_SEP).set nth
        (joinAttrs ((r.fields ATTR_SEP).set (schema.idxOf attrName) newAttr)) :=
  ⟨fun h => h.edited hname hidx rfl,
    fun h => ⟨fun _ _ _ => h, fun hno => absurd ⟨hname, hidx⟩ hno⟩⟩

theorem set_inj {rs : List CStr} {x y : CStr} (hnth : nth < rs.length) :
    rs.set nth x = rs.set nth y ↔ x = y := by
  constructor
  · intro h
    have hget := congrArg (fun l : List CStr => l[nth]?) h
    simpa [hnth] using hget
  · exact congrArg _

theorem joinAttrs_inj {fs gs : List CStr} (hfs : fs ≠ []) (hgs : gs ≠ [])
    (hfree : ∀ f ∈ fs, ATTR_SEP ∉ f.val) (hgree : ∀ g ∈ gs, ATTR_SEP ∉ g.val) :
    joinAttrs fs = joinAttrs gs ↔ fs = gs := by
  constructor
  · intro h
    rw [← fields_joinAttrs hfs hfree, h, fields_joinAttrs hgs hgree]
  · exact congrArg _

/-- The rules that are left with a rebuilt rule among them are the right ones exactly if the rule is
and the text is not empty. -/
theorem storedRules_rebuilt_iff {cut fs : List CStr} (hnth : nth < (text.fields RULE_SEP).length)
    (hcut : cut ≠ []) (hfs : fs ≠ []) (hcutattr : ∀ f ∈ cut, ATTR_SEP ∉ f.val)
    (hcutrule : ∀ f ∈ cut, RULE_SEP ∉ f.val) (hfsattr : ∀ f ∈ fs, ATTR_SEP ∉ f.val) :
    storedRules (joinRules ((text.fields RULE_SEP).set nth (joinAttrs cut))) =
        (text.fields RULE_SEP).set nth (joinAttrs fs) ↔
      joinRules ((text.fields RULE_SEP).set nth (joinAttrs cut)) ≠ CStr.empty ∧ cut = fs := by
  by_cases hne : joinRules ((text.fields RULE_SEP).set nth (joinAttrs cut)) = CStr.empty
  · rw [hne, storedRules_empty_iff.mpr rfl]
    apply iff_of_false
    · intro h
      have hlen := congrArg List.length h
      rw [List.length_set, List.length_nil] at hlen
      omega
    · exact fun h => h.1 rfl
  · have hfree : ∀ f ∈ (text.fields RULE_SEP).set nth (joinAttrs cut), RULE_SEP ∉ f.val :=
      free_of_mem_set (fun f hf => CStr.not_mem_of_mem_fields hf) (joinAttrs_free hcutrule)
    rw [storedRules_joinRules hfree hne, set_inj hnth, joinAttrs_inj hcut hfs hcutattr hfsattr]
    exact (and_iff_right hne).symm

/-- The old rules are the right ones exactly if the attribute has the new text already. -/
theorem storedRules_old_iff (h : Stored M ruleSet text)
    (hr : (text.fields RULE_SEP)[nth]? = some r) {j : ℕ} (hj : j < (r.fields ATTR_SEP).length)
    (hattr : ATTR_SEP ∉ newAttr.val) :
    storedRules text =
        (text.fields RULE_SEP).set nth (joinAttrs ((r.fields ATTR_SEP).set j newAttr)) ↔
      (r.fields ATTR_SEP)[j]? = some newAttr := by
  obtain ⟨hnth, hget⟩ := List.getElem?_eq_some_iff.mp hr
  have hfields : r.fields ATTR_SEP ≠ [] := CStr.fieldsOf_ne_nil _ _
  calc storedRules text =
        (text.fields RULE_SEP).set nth (joinAttrs ((r.fields ATTR_SEP).set j newAttr))
      ↔ (text.fields RULE_SEP).set nth r =
          (text.fields RULE_SEP).set nth (joinAttrs ((r.fields ATTR_SEP).set j newAttr)) := by
        rw [storedRules_of_ne h.ne, ← hget, List.set_getElem_self, hget]
    _ ↔ joinAttrs (r.fields ATTR_SEP) = joinAttrs ((r.fields ATTR_SEP).set j newAttr) := by
        rw [set_inj hnth, joinAttrs_fields]
    _ ↔ r.fields ATTR_SEP = (r.fields ATTR_SEP).set j newAttr :=
        joinAttrs_inj hfields (set_fields_ne_nil j) (fun f hf => CStr.not_mem_of_mem_fields hf)
          (set_fields_free hattr j)
    _ ↔ (r.fields ATTR_SEP)[j]? = some newAttr := by
        constructor
        · intro he
          rw [he, List.getElem?_set_self hj]
        · intro he
          obtain ⟨_, hold⟩ := List.getElem?_eq_some_iff.mp he
          rw [← hold, List.set_getElem_self]

end

/-- The edit is right exactly if it is refused for its arguments or for want of space, or if the
attribute is there, the edited text is not empty, and either it fits and no attribute is lost or
changed on the way, or it does not fit and has the attribute as it was. -/
theorem ezplibReplaceAttr_edits_iff (u : Unspecified) (rules : List Rule) (M : Variables)
    (ruleSet text r attrName newAttr : CStr) (nth : ℕ) (v : Rule) (h : Stored M ruleSet text)
    (hr : (text.fields RULE_SEP)[nth]? = some r)
    (hv : rules.find? (fun v => v.name = ruleSet) = some v)
    (hattr : ATTR_SEP ∉ newAttr.val) (hrule : RULE_SEP ∉ newAttr.val) :
    EditsAttr v.attr text r nth attrName newAttr
        (outcome (ezplibReplaceAttr u rules ruleSet nth attrName newAttr) M ruleSet) ↔
      let fs := r.fields ATTR_SEP
      let cut := rebuilt v.attr r attrName newAttr
      let edited := joinRules ((text.fields RULE_SEP).set nth (joinAttrs cut))
      attrName = CStr.empty ∨ EZPLIB_BUF_LEN ≤ text.len ∨
        EZPLIB_BUF_LEN ≤ (joinAttrs cut).len + 1 ∨
        attrName ∈ v.attr ∧ v.attr.idxOf attrName < fs.length ∧ edited ≠ CStr.empty ∧
          (edited.len + 1 < EZPLIB_BUF_LEN ∧ fs.length ≤ MAX_ATTR_NUM ∧
              fs.length ≤ v.attr.length ∧
              (∀ i < fs.length, i ≠ v.attr.idxOf attrName → v.attr[i]? = some attrName →
                fs[i]? = some newAttr) ∨
            EZPLIB_BUF_LEN ≤ edited.len + 1 ∧ fs[v.attr.idxOf attrName]? = some newAttr) := by
  have hnth : nth < (text.fields RULE_SEP).length := (List.getElem?_eq_some_iff.mp hr).1
  have hrfree : RULE_SEP ∉ r.val := CStr.not_mem_of_mem_fields (List.mem_of_getElem? hr)
  have hcutattr : ∀ f ∈ rebuilt v.attr r attrName newAttr, ATTR_SEP ∉ f.val :=
    rebuilt_free (fun f hf => CStr.not_mem_of_mem_fields hf) hattr
  have hcutrule : ∀ f ∈ rebuilt v.attr r attrName newAttr, RULE_SEP ∉ f.val :=
    rebuilt_free (free_of_mem_attrs hrfree) hrule
  dsimp only
  by_cases hname : attrName = CStr.empty
  · have hret : EZPLIB_INVALID < 0 := by decide
    have hcall : outcome (ezplibReplaceAttr u rules ruleSet nth attrName newAttr) M ruleSet =
        (EZPLIB_INVALID, text) := by
      rw [outcome, ezplibReplaceAttr, if_pos (.inr hname)]
      exact Prod.ext rfl h.text_eq
    rw [hcall]
    exact iff_of_true (.of_neg hret) (.inl hname)
  · have hcall : onMap (ezplibReplaceAttr u rules ruleSet nth attrName newAttr) M = _ :=
      h.replaceAttr hr hv hname
    dsimp only at hcall
    by_cases htrunc : EZPLIB_BUF_LEN ≤ text.len ∨
        EZPLIB_BUF_LEN ≤ (joinAttrs (rebuilt v.attr r attrName newAttr)).len + 1
    · have hret : EZPLIB_VAL_TRUNC < 0 := by decide
      have hcall' : outcome (ezplibReplaceAttr u rules ruleSet nth attrName newAttr) M ruleSet =
          (EZPLIB_VAL_TRUNC, text) := by
        rw [outcome, hcall, if_pos htrunc]
        exact Prod.ext rfl h.text_eq
      rw [hcall']
      apply iff_of_true (.of_neg hret)
      rcases htrunc with hlong | hlong
      · exact .inr (.inl hlong)
      · exact .inr (.inr (.inl hlong))
    · rw [if_neg htrunc] at hcall
      obtain ⟨hfits, hroom⟩ := not_or.mp htrunc
      rw [outcome_congr hcall, h.replaceRule_text hr (not_le.mp hfits)]
      simp only [hname, hfits, hroom, false_or]
      by_cases hhas : attrName ∈ v.attr ∧ v.attr.idxOf attrName < (r.fields ATTR_SEP).length
      · rw [if_neg (rebuilt_ne_nil hhas.1), editsAttr_iff hhas.1 hhas.2]
        by_cases hfull : (joinRules ((text.fields RULE_SEP).set nth
            (joinAttrs (rebuilt v.attr r attrName newAttr)))).len + 1 < EZPLIB_BUF_LEN
        · have hcut : rebuilt v.attr r attrName newAttr =
              (r.fields ATTR_SEP).set (v.attr.idxOf attrName) newAttr ↔ _ :=
            substitute_take_eq_set_iff (List.getElem?_idxOf hhas.1) hhas.2
          rw [if_pos hfull, storedRules_rebuilt_iff hnth (rebuilt_ne_nil hhas.1)
            (set_fields_ne_nil _) hcutattr hcutrule (set_fields_free hattr _), hcut]
          simp only [hhas.1, hhas.2, hfull, true_and, not_le.mpr hfull, false_and, or_false]
        · have hne : joinRules ((text.fields RULE_SEP).set nth
              (joinAttrs (rebuilt v.attr r attrName newAttr))) ≠ CStr.empty := by
            intro he
            rw [he] at hfull
            exact hfull (by decide)
          rw [if_neg hfull, storedRules_old_iff h hr hhas.2 hattr]
          simp only [hhas.1, hhas.2, hne, hfull, not_lt.mp hfull, true_and, ne_eq,
            not_false_eq_true, false_and, false_or]
      · apply iff_of_false
        · exact fun he => absurd (he.refused hhas).1 (lt_irrefl 0)
        · exact fun hc => hhas ⟨hc.1, hc.2.1⟩

theorem usb_last : ∀ i < 3, i ≠ 2 → plugRuleAttr.names[i]? ≠ some (.ofString "usb") := by decide

theorem editsAttr_plug : EditsAttr plugRuleAttr.names (.ofString "1^0^1") (.ofString "1^0^1") 0
    (.ofString "usb") (.ofString "0")
    (outcome (ezplibReplaceAttr clean (rules.map RuleTable.toRule) (.ofString "plug_rule") 0
        (.ofString "usb") (.ofString "0"))
      (oneSet "plug_rule" (.ofString "1^0^1")) (.ofString "plug_rule")) :=
  (ezplibReplaceAttr_edits_iff clean (rules.map RuleTable.toRule)
    (oneSet "plug_rule" (.ofString "1^0^1")) (.ofString "plug_rule") (.ofString "1^0^1")
    (.ofString "1^0^1") (.ofString "usb") (.ofString "0") 0
    (RuleTable.toRule (rule "plug_rule" plugRuleAttr))
    (stored_oneSet (by decide) (by decide) (by decide)) (by decide) rfl (by decide)
    (by decide)).mpr
    (.inr (.inr (.inr ⟨by decide, by decide, by decide,
      .inl ⟨by decide, by decide, by decide, fun i hi hne hname => absurd hname (usb_last i hi hne)⟩⟩)))

/-- An attribute behind the table is lost. -/
theorem editsAttr_longer : ¬ EditsAttr plugRuleAttr.names (.ofString "1^0^1^x")
    (.ofString "1^0^1^x") 0 (.ofString "usb") (.ofString "0")
    (outcome (ezplibReplaceAttr clean (rules.map RuleTable.toRule) (.ofString "plug_rule") 0
        (.ofString "usb") (.ofString "0"))
      (oneSet "plug_rule" (.ofString "1^0^1^x")) (.ofString "plug_rule")) := by
  intro h
  exact absurd (h.edited (by decide) (by decide) (by decide)) (by decide)

end EzpFirmware.UserNvram
