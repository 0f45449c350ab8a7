import EzpFirmware.UserNvram.RuleEdits

/-! # The editing functions as edits of a list

What `ezplib_replace_rule`, `ezplib_delete_rule`, `ezplib_add_rule`,
`ezplib_prepend_rule` and `ezplib_append_rule` do to the list of rules that a
stored text holds, and what they report.
-/
namespace EzpFirmware.UserNvram
open Lib

/-- What a call reports, and the text it leaves. -/
def outcome (p : Api ℤ) (M : Variables) (ruleSet : CStr) : ℤ × CStr :=
  ((onMap p M).1, text (onMap p M).2 ruleSet)

section
variable {u : Unspecified} {M : Variables} {ruleSet text newRule : CStr} {nth : ℤ}

/-- A stored set: it has a rule, and no rule is changed by its use as a format. -/
structure Stored (M : Variables) (ruleSet text : CStr) : Prop where
  name : ruleSet ≠ CStr.empty
  stored : M ruleSet = some text
  ne : text ≠ CStr.empty
  plain : PERCENT ∉ text.val

theorem Stored.readable (h : Stored M ruleSet text) (hfits : text.len < EZPLIB_BUF_LEN) :
    Readable M ruleSet text := ⟨h.name, h.stored, h.ne, h.plain, hfits⟩

theorem Stored.text_eq (h : Stored M ruleSet text) : UserNvram.text M ruleSet = text := by
  rw [UserNvram.text, h.stored]
  rfl

theorem Stored.getRuleNum (h : Stored M ruleSet text) :
    onMap (ezplibGetRuleNum ruleSet) M = (((text.fields RULE_SEP).length : ℤ), M) := by
  rw [onMap_of_confined (confined_getRuleNum ruleSet), ezplibGetRuleNum_map h.stored, if_neg h.ne]

theorem fields_length_pos (c : UInt8) (s : CStr) : 0 < (s.fields c).length :=
  List.length_pos_of_ne_nil (CStr.fieldsOf_ne_nil _ _)

/-- An edit that leaves rules stores them, or nothing happens. -/
theorem Stored.opRule (h : Stored M ruleSet text) (op : Opcode) (nth : ℤ) (newRule : CStr)
    (hrs : op.edit nth newRule (text.fields RULE_SEP) ≠ []) :
    onMap (ezplibOpRule u ruleSet op nth newRule) M =
      let rs := op.edit nth newRule (text.fields RULE_SEP)
      if text.len < EZPLIB_BUF_LEN ∧ (joinRules rs).len + 1 < EZPLIB_BUF_LEN then
        (((joinRules rs).len : ℤ), Function.update M ruleSet (kept (some (joinRules rs))))
      else (EZPLIB_VAL_TRUNC, M) := by
  by_cases hfits : text.len < EZPLIB_BUF_LEN
  · rw [(h.readable hfits).opRule]
    dsimp only
    rw [if_neg hrs]
    simp only [hfits, true_and]
  · rw [opRule_long h.name h.stored (not_lt.mp hfits), if_neg fun hc => hfits hc.1]

/-! ## Replacing a rule -/

/-- What a replacement is: success is reported exactly for an index of the list and the edited text
stored, and anything else is an error that leaves the text alone. -/
structure Replaces (text newRule : CStr) (nth : ℤ) (call : ℤ × CStr) : Prop where
  success : call.1 = 0 ↔ (0 ≤ nth ∧ nth < (text.fields RULE_SEP).length) ∧
    call.2 = joinRules ((text.fields RULE_SEP).set nth.toNat newRule)
  rules : call.1 = 0 → storedRules call.2 = (text.fields RULE_SEP).set nth.toNat newRule
  failure : call.1 ≠ 0 → call.1 < 0 ∧ call.2 = text

/-- `ezplib_replace_rule` drops the answer of the edit, and lets the index behind the last rule
through. -/
theorem Stored.replaceRule (h : Stored M ruleSet text) :
    onMap (ezplibReplaceRule u ruleSet nth newRule) M =
      if nth > (text.fields RULE_SEP).length ∨ nth < 0 then (EZPLIB_IDX_OUT_RANGE, M)
      else (0, (onMap (ezplibOpRule u ruleSet .REPLACE_RULE nth newRule) M).2) := by
  have hneg : ¬ (((text.fields RULE_SEP).length : ℕ) : ℤ) < 0 := by omega
  rw [ezplibReplaceRule, if_neg h.name, onMap_bind, h.getRuleNum]
  dsimp only
  rw [if_neg hneg]
  split_ifs
  · rfl
  · rw [onMap_bind]
    rfl

theorem replace_ne_nil {rs : List CStr} (hrs : rs ≠ []) :
    Opcode.REPLACE_RULE.edit nth newRule rs ≠ [] := by
  unfold Opcode.edit
  split_ifs
  · exact fun h => hrs (by simpa using congrArg List.length h)
  · exact hrs

/-- The rules behind an edit have no separator. -/
theorem free_of_mem_set {rs : List CStr} (hrs : ∀ r ∈ rs, RULE_SEP ∉ r.val) {n : ℕ}
    (hnew : RULE_SEP ∉ newRule.val) : ∀ r ∈ rs.set n newRule, RULE_SEP ∉ r.val := by
  intro r hr
  rcases List.mem_or_eq_of_mem_set hr with hr | rfl
  · exact hrs r hr
  · exact hnew

end

/-- A replacement is reported properly exactly out of range, but for the index behind the last rule,
and in range for an edited text that is not empty and fits with a separator behind it, or is the one
that is stored. -/
theorem ezplibReplaceRule_replaces_iff (u : Unspecified) (M : Variables)
    (ruleSet text newRule : CStr) (nth : ℤ) (h : Stored M ruleSet text)
    (hnew : RULE_SEP ∉ newRule.val) :
    Replaces text newRule nth (outcome (ezplibReplaceRule u ruleSet nth newRule) M ruleSet) ↔
      nth < 0 ∨ (text.fields RULE_SEP).length < nth ∨
        0 ≤ nth ∧ nth < (text.fields RULE_SEP).length ∧
          let edited := joinRules ((text.fields RULE_SEP).set nth.toNat newRule)
          edited ≠ CStr.empty ∧
            (text.len < EZPLIB_BUF_LEN ∧ edited.len + 1 < EZPLIB_BUF_LEN ∨ edited = text) := by
  have hfree : ∀ r ∈ text.fields RULE_SEP, RULE_SEP ∉ r.val :=
    fun r hr => CStr.not_mem_of_mem_fields hr
  rw [outcome, h.replaceRule]
  by_cases hout : nth > (text.fields RULE_SEP).length ∨ nth < 0
  · rw [if_pos hout]
    dsimp only
    have hrange : ¬ (0 ≤ nth ∧ nth < (text.fields RULE_SEP).length) := by omega
    have hneg : EZPLIB_IDX_OUT_RANGE < 0 := by decide
    apply iff_of_true
    · exact ⟨iff_of_false hneg.ne fun hc => hrange hc.1, fun h0 => absurd h0 hneg.ne,
        fun _ => ⟨hneg, h.text_eq⟩⟩
    · omega
  · rw [if_neg hout]
    dsimp only
    by_cases hin : 0 ≤ nth ∧ nth < (text.fields RULE_SEP).length
    · have hop := h.opRule (u := u) .REPLACE_RULE nth newRule
        (replace_ne_nil (CStr.fieldsOf_ne_nil _ _))
      have hedit : Opcode.REPLACE_RULE.edit nth newRule (text.fields RULE_SEP) =
          (text.fields RULE_SEP).set nth.toNat newRule := if_pos hin
      rw [hedit] at hop
      rw [hop]
      dsimp only
      have hcond : ∀ P : Prop, (nth < 0 ∨ (text.fields RULE_SEP).length < nth ∨
          0 ≤ nth ∧ nth < (text.fields RULE_SEP).length ∧ P) ↔ P := by
        intro P
        constructor
        · rintro (h' | h' | ⟨-, -, hP⟩)
          · omega
          · omega
          · exact hP
        · exact fun hP => .inr (.inr ⟨hin.1, hin.2, hP⟩)
      rw [hcond]
      generalize hrs : (text.fields RULE_SEP).set nth.toNat newRule = rs
      have hrsfree : ∀ r ∈ rs, RULE_SEP ∉ r.val := hrs ▸ free_of_mem_set hfree hnew
      split_ifs with hfits
      · rw [text_update_kept]
        constructor
        · intro hr
          refine ⟨fun hempty => ?_, .inl hfits⟩
          have hrules := hr.rules rfl
          rw [hrs, hempty] at hrules
          have hlen := congrArg List.length hrules
          rw [← hrs, List.length_set] at hlen
          have hpos := fields_length_pos RULE_SEP text
          simp [storedRules] at hlen
          omega
        · rintro ⟨hne, -⟩
          refine ⟨iff_of_true rfl ⟨hin, by rw [hrs]⟩, fun _ => ?_, fun hc => absurd rfl hc⟩
          rw [hrs]
          exact storedRules_joinRules hrsfree hne
      · rw [h.text_eq]
        constructor
        · intro hr
          have heq := (hr.success.mp rfl).2
          rw [hrs] at heq
          exact ⟨heq ▸ h.ne, .inr heq.symm⟩
        · rintro ⟨hne, hc⟩
          have heq : joinRules rs = text := hc.resolve_left hfits
          have hafter : text = joinRules ((text.fields RULE_SEP).set nth.toNat newRule) := by
            rw [hrs, heq]
          refine ⟨iff_of_true rfl ⟨hin, hafter⟩, fun _ => ?_, fun hc => absurd rfl hc⟩
          rw [hrs, ← heq]
          exact storedRules_joinRules hrsfree hne
    · -- The index behind the last rule.
      apply iff_of_false
      · intro hr
        exact hin (hr.success.mp rfl).1
      · omega

/-- One variable, a rule set. -/
def oneSet (name : String) (value : CStr) : Variables := fun m =>
  if m = .ofString name then some value else none

theorem stored_oneSet {name : String} {value : CStr} (hname : CStr.ofString name ≠ CStr.empty)
    (hne : value ≠ CStr.empty) (hplain : PERCENT ∉ value.val) :
    Stored (oneSet name value) (.ofString name) value :=
  ⟨hname, if_pos rfl, hne, hplain⟩

theorem stored_two : Stored (oneSet "fr_rule" (.ofString "a|b")) (.ofString "fr_rule")
    (.ofString "a|b") := stored_oneSet (by decide) (by decide) (by decide)

theorem replaces_last : Replaces (.ofString "a|b") (.ofString "c") 1
    (outcome (ezplibReplaceRule clean (.ofString "fr_rule") 1 (.ofString "c"))
      (oneSet "fr_rule" (.ofString "a|b")) (.ofString "fr_rule")) :=
  (ezplibReplaceRule_replaces_iff clean (oneSet "fr_rule" (.ofString "a|b")) (.ofString "fr_rule")
    (.ofString "a|b") (.ofString "c") 1 stored_two (by decide)).mpr
    (.inr (.inr ⟨by decide, by decide, by decide, .inl (by decide)⟩))

/-- Behind the last rule nothing is replaced, and success is reported. -/
theorem replaces_behind : ¬ Replaces (.ofString "a|b") (.ofString "c") 2
    (outcome (ezplibReplaceRule clean (.ofString "fr_rule") 2 (.ofString "c"))
      (oneSet "fr_rule" (.ofString "a|b")) (.ofString "fr_rule")) := by
  intro h
  have hret : (outcome (ezplibReplaceRule clean (.ofString "fr_rule") 2 (.ofString "c"))
      (oneSet "fr_rule" (.ofString "a|b")) (.ofString "fr_rule")).1 = 0 := by decide
  exact absurd (h.success.mp hret).1 (by decide)

/-! ## Deleting a rule -/

section
variable {u : Unspecified} {M : Variables} {ruleSet text : CStr}

/-- A deletion: the other rules are left, and one can be appended to them. -/
structure Deletes (text r : CStr) (nth : ℕ) (delete append : ℤ × CStr) : Prop where
  deleted : delete.2 = joinRules ((text.fields RULE_SEP).eraseIdx nth)
  success : 0 ≤ append.1
  rules : storedRules append.2 = (text.fields RULE_SEP).eraseIdx nth ++ [r]

theorem Stored.deleteRule (h : Stored M ruleSet text) (nth : ℤ) :
    (onMap (ezplibDeleteRule u ruleSet nth) M).2 =
      (onMap (ezplibOpRule u ruleSet .DELETE_RULE nth CStr.empty) M).2 := by
  rw [ezplibDeleteRule, if_neg h.name, onMap_bind]
  rfl

/-- What an append does to a set that has a rule. -/
theorem appendRule_stored (hname : ruleSet ≠ CStr.empty) (hM : M ruleSet = some text)
    (hne : text ≠ CStr.empty) (r : CStr) : onMap (ezplibAppendRule ruleSet r) M =
      let appended := CStr.glue RULE_SEP RULE_SEP_ne text r
      if EZPLIB_BUF_LEN ≤ appended.len then (EZPLIB_VAL_TRUNC, M)
      else ((appended.len : ℤ), Function.update M ruleSet (kept (some appended))) := by
  rw [ezplibAppendRule, if_neg hname, onMap_bind, onMap_get, hM]
  dsimp only
  rw [if_neg hne]
  split_ifs <;> rfl

/-- A rule cannot be appended to a set that is not there. -/
theorem appendRule_missing (hname : ruleSet ≠ CStr.empty) (hM : M ruleSet = none) (r : CStr) :
    onMap (ezplibAppendRule ruleSet r) M = (EZPLIB_NO_RULE_SET, M) := by
  rw [ezplibAppendRule, if_neg hname, onMap_bind, onMap_get, hM]
  rfl

theorem not_deletes_of_unset {r : CStr} {nth : ℕ} {delete : ℤ × CStr} {appended : CStr}
    (hname : ruleSet ≠ CStr.empty) (hM : M ruleSet = none) :
    ¬ Deletes text r nth delete ((onMap (ezplibAppendRule ruleSet r) M).1, appended) := by
  intro hd
  have hret : 0 ≤ EZPLIB_NO_RULE_SET := by
    simpa only [appendRule_missing hname hM] using hd.success
  exact absurd hret (by decide)

/-- A rule taken out and a separator are not longer than the rule in the text. -/
theorem joinRules_eraseIdx_len {rs : List CStr} {n : ℕ} (hn : n < rs.length)
    (hrs : rs.eraseIdx n ≠ []) : (joinRules (rs.eraseIdx n)).len + 1 ≤ (joinRules rs).len := by
  have hne : rs ≠ [] := List.ne_nil_of_length_pos (by omega)
  have hsum : (rs.map fun r => r.len + 1).sum =
      (rs[n].len + 1) + ((rs.eraseIdx n).map fun r => r.len + 1).sum := by
    have hperm := (List.getElem_cons_eraseIdx_perm hn).symm
    rw [(hperm.map _).sum_eq, List.map_cons, List.sum_cons]
  have hall : (joinRules rs).len + 1 = _ := CStr.join_len _ hne
  have hrest : (joinRules (rs.eraseIdx n)).len + 1 = _ := CStr.join_len _ hrs
  omega

/-- A rule appended to a text that is not empty is one more rule of it. -/
theorem joinRules_concat {rs : List CStr} (hrs : rs ≠ []) (r : CStr) :
    joinRules (rs ++ [r]) = CStr.glue RULE_SEP RULE_SEP_ne (joinRules rs) r :=
  CStr.join_concat _ hrs r

end

/-- A deletion leaves the other rules, to which one can be appended, exactly for a set that fits the
buffers and has more in it than the rule, and for a rule without a separator for which there is
room. -/
theorem ezplibDeleteRule_deletes_iff (u : Unspecified) (M : Variables) (ruleSet text r : CStr)
    (nth : ℕ) (h : Stored M ruleSet text) (hnth : nth < (text.fields RULE_SEP).length) :
    Deletes text r nth (outcome (ezplibDeleteRule u ruleSet nth) M ruleSet)
        (outcome (ezplibDeleteRule u ruleSet nth >>= fun _ => ezplibAppendRule ruleSet r) M
          ruleSet) ↔
      let rs := (text.fields RULE_SEP).eraseIdx nth
      text.len < EZPLIB_BUF_LEN ∧ joinRules rs ≠ CStr.empty ∧ RULE_SEP ∉ r.val ∧
        (joinRules (rs ++ [r])).len < EZPLIB_BUF_LEN := by
  have hedit : Opcode.DELETE_RULE.edit nth CStr.empty (text.fields RULE_SEP) =
      (text.fields RULE_SEP).eraseIdx nth := if_pos (by omega)
  have hfree : ∀ f ∈ (text.fields RULE_SEP).eraseIdx nth, RULE_SEP ∉ f.val :=
    fun f hf => CStr.not_mem_of_mem_fields (List.mem_of_mem_eraseIdx hf)
  have hshort : (text.fields RULE_SEP).eraseIdx nth ≠ [] →
      (joinRules ((text.fields RULE_SEP).eraseIdx nth)).len + 1 ≤ text.len := by
    intro hrs
    have hlen := joinRules_eraseIdx_len hnth hrs
    rwa [joinRules_fields] at hlen
  rw [outcome, outcome, onMap_bind, h.deleteRule]
  by_cases hfits : text.len < EZPLIB_BUF_LEN
  · have hop := (h.readable hfits).opRule (u := u) .DELETE_RULE nth CStr.empty
    rw [hedit] at hop
    rw [hop]
    generalize hrs : (text.fields RULE_SEP).eraseIdx nth = rs at hfree hshort
    dsimp only
    by_cases hnil : rs = []
    · -- Nothing was written to the buffer that is stored.
      rw [if_pos hnil]
      apply iff_of_false
      · intro hd
        have hbuf : u.buf = joinRules [] := by
          simpa only [text_update_kept, hrs, hnil] using hd.deleted
        have hunset : Function.update M ruleSet (kept (some u.buf)) ruleSet = none := by
          rw [Function.update_self, hbuf]
          rfl
        exact not_deletes_of_unset h.name hunset hd
      · rintro ⟨-, hne, -⟩
        exact hne (hnil ▸ rfl)
    · have hroom : (joinRules rs).len + 1 < EZPLIB_BUF_LEN := (hshort hnil).trans_lt hfits
      rw [if_neg hnil, if_pos hroom]
      dsimp only
      by_cases hne : joinRules rs = CStr.empty
      · -- The rule that is left is empty, and the set is unset.
        apply iff_of_false
        · apply not_deletes_of_unset h.name
          rw [Function.update_self, hne]
          rfl
        · exact fun hc => hc.2.1 hne
      · have hstored : Function.update M ruleSet (kept (some (joinRules rs))) ruleSet =
            some (joinRules rs) := by
          rw [Function.update_self]
          exact if_neg hne
        rw [appendRule_stored h.name hstored hne, text_update_kept, ← joinRules_concat hnil]
        dsimp only
        split_ifs with hfull
        · apply iff_of_false
          · intro hd
            have hret : 0 ≤ EZPLIB_VAL_TRUNC := hd.success
            exact absurd hret (by decide)
          · exact fun hc => absurd hc.2.2.2 (not_lt.mpr hfull)
        · have happended : joinRules (rs ++ [r]) ≠ CStr.empty := by
            intro he
            rcases (CStr.join_eq_empty_iff _).mp he with he | he
            · simp at he
            · exact hnil (by simpa using congrArg List.length he)
          rw [text_update_kept]
          constructor
          · intro hd
            have hrules := hd.rules
            rw [hrs, storedRules_of_ne happended] at hrules
            have hr : r ∈ (joinRules (rs ++ [r])).fields RULE_SEP := by
              rw [hrules]
              exact List.mem_append_right rs List.mem_cons_self
            exact ⟨hfits, hne, CStr.not_mem_of_mem_fields hr, not_le.mp hfull⟩
          · rintro ⟨-, -, hr, -⟩
            refine ⟨by rw [hrs], Int.natCast_nonneg _, ?_⟩
            rw [hrs]
            apply storedRules_joinRules _ happended
            intro f hf
            rcases List.mem_append.mp hf with hf | hf
            · exact hfree f hf
            · exact List.mem_singleton.mp hf ▸ hr
  · apply iff_of_false
    · intro hd
      have hsame : text = joinRules ((text.fields RULE_SEP).eraseIdx nth) := by
        simpa only [opRule_long h.name h.stored (not_lt.mp hfits), h.text_eq] using hd.deleted
      by_cases hnil : (text.fields RULE_SEP).eraseIdx nth = []
      · rw [hnil] at hsame
        exact h.ne hsame
      · have hlen := hshort hnil
        rw [← hsame] at hlen
        omega
    · exact fun hc => hfits hc.1

theorem deletes_first : Deletes (.ofString "a|b") (.ofString "c") 0
    (outcome (ezplibDeleteRule clean (.ofString "fr_rule") 0)
      (oneSet "fr_rule" (.ofString "a|b")) (.ofString "fr_rule"))
    (outcome (ezplibDeleteRule clean (.ofString "fr_rule") 0 >>= fun _ =>
        ezplibAppendRule (.ofString "fr_rule") (.ofString "c"))
      (oneSet "fr_rule" (.ofString "a|b")) (.ofString "fr_rule")) :=
  (ezplibDeleteRule_deletes_iff clean (oneSet "fr_rule" (.ofString "a|b")) (.ofString "fr_rule")
    (.ofString "a|b") (.ofString "c") 0 stored_two (by decide)).mpr
    ⟨by decide, by decide, by decide, by decide⟩

/-- The only rule of a set cannot be deleted and another one appended. -/
theorem deletes_only : ¬ Deletes (.ofString "a") (.ofString "c") 0
    (outcome (ezplibDeleteRule clean (.ofString "fr_rule") 0)
      (oneSet "fr_rule" (.ofString "a")) (.ofString "fr_rule"))
    (outcome (ezplibDeleteRule clean (.ofString "fr_rule") 0 >>= fun _ =>
        ezplibAppendRule (.ofString "fr_rule") (.ofString "c"))
      (oneSet "fr_rule" (.ofString "a")) (.ofString "fr_rule")) := by
  intro h
  exact absurd h.success (by decide)

/-! ## Adding a rule -/

/-- Two calls agree: both report success or both an error, and they leave the same text. -/
def Agree (a b : ℤ × CStr) : Prop := (0 ≤ a.1 ↔ 0 ≤ b.1) ∧ a.2 = b.2

/-- What an addition is: the rule is put in its place, the functions for the two ends agree with it
there, and a text that is too long is an error that leaves the set alone. -/
structure Adds (u : Unspecified) (M : Variables) (ruleSet text r : CStr) (nth : ℕ) : Prop where
  rules : (outcome (ezplibAddRule u ruleSet nth r) M ruleSet).1 = 0 →
    storedRules (outcome (ezplibAddRule u ruleSet nth r) M ruleSet).2 =
      (text.fields RULE_SEP).insertIdx nth r
  first : Agree (outcome (ezplibPrependRule u ruleSet r) M ruleSet)
    (outcome (ezplibAddRule u ruleSet 0 r) M ruleSet)
  last : Agree (outcome (ezplibAppendRule ruleSet r) M ruleSet)
    (outcome (ezplibAddRule u ruleSet (text.fields RULE_SEP).length r) M ruleSet)
  full : EZPLIB_BUF_LEN ≤ (joinRules ((text.fields RULE_SEP).insertIdx nth r)).len →
    ∀ p ∈ [ezplibAddRule u ruleSet nth r, ezplibPrependRule u ruleSet r,
      ezplibAppendRule ruleSet r],
      (outcome p M ruleSet).1 < 0 ∧ (outcome p M ruleSet).2 = text

section
variable {u : Unspecified} {M : Variables} {ruleSet text r : CStr}

theorem insertIdx_ne_nil {rs : List CStr} {n : ℕ} (hn : n ≤ rs.length) :
    rs.insertIdx n r ≠ [] := by
  intro h
  have hlen := congrArg List.length h
  rw [List.length_insertIdx_of_le_length hn] at hlen
  cases hlen

/-- Wherever a rule is put, the text grows by it and a separator. -/
theorem joinRules_insertIdx_len {rs : List CStr} {n : ℕ} (hn : n ≤ rs.length) (hrs : rs ≠ []) :
    (joinRules (rs.insertIdx n r)).len = (joinRules rs).len + 1 + r.len := by
  have hsum : ((rs.insertIdx n r).map fun r => r.len + 1).sum =
      (r.len + 1) + (rs.map fun r => r.len + 1).sum := by
    rw [((List.perm_insertIdx r rs hn).map _).sum_eq, List.map_cons, List.sum_cons]
  have hall : (joinRules (rs.insertIdx n r)).len + 1 = _ :=
    CStr.join_len _ (insertIdx_ne_nil hn)
  have hrest : (joinRules rs).len + 1 = _ := CStr.join_len _ hrs
  omega

theorem insertRule_len {n : ℕ} (hn : n ≤ (text.fields RULE_SEP).length) :
    (joinRules ((text.fields RULE_SEP).insertIdx n r)).len = text.len + 1 + r.len := by
  rw [joinRules_insertIdx_len hn (CStr.fieldsOf_ne_nil _ _), joinRules_fields]

/-- In front of a rule, a rule is added by the edit, whose answer is dropped. -/
theorem Stored.addRule (h : Stored M ruleSet text) {n : ℕ}
    (hn : n ≤ (text.fields RULE_SEP).length) : onMap (ezplibAddRule u ruleSet n r) M =
      (0, if n = (text.fields RULE_SEP).length then (onMap (ezplibAppendRule ruleSet r) M).2
        else (onMap (ezplibOpRule u ruleSet .ADD_RULE n r) M).2) := by
  have hneg : ¬ (((text.fields RULE_SEP).length : ℕ) : ℤ) < 0 := by omega
  have hrange : ¬ ((n : ℤ) > (text.fields RULE_SEP).length ∨ (n : ℤ) < 0) := by omega
  rw [ezplibAddRule, if_neg h.name, onMap_bind, h.getRuleNum]
  dsimp only
  rw [if_neg hneg, if_neg hrange]
  by_cases hlast : n = (text.fields RULE_SEP).length
  · rw [if_pos (congrArg Nat.cast hlast), if_pos hlast, onMap_bind]
    rfl
  · rw [if_neg (by omega), if_neg hlast, onMap_bind]
    rfl

/-- The edit puts the rule in its place if a separator more than the text fits. -/
theorem Stored.opRule_add (h : Stored M ruleSet text) {n : ℕ}
    (hn : n < (text.fields RULE_SEP).length) :
    onMap (ezplibOpRule u ruleSet .ADD_RULE n r) M =
      if text.len + 1 + r.len + 1 < EZPLIB_BUF_LEN then
        (((text.len + 1 + r.len : ℕ) : ℤ), Function.update M ruleSet
          (kept (some (joinRules ((text.fields RULE_SEP).insertIdx n r)))))
      else (EZPLIB_VAL_TRUNC, M) := by
  have hedit : Opcode.ADD_RULE.edit n r (text.fields RULE_SEP) =
      (text.fields RULE_SEP).insertIdx n r := if_pos (by omega)
  have hop := h.opRule (u := u) .ADD_RULE n r (hedit ▸ insertIdx_ne_nil hn.le)
  rw [hedit] at hop
  rw [hop]
  dsimp only
  rw [insertRule_len hn.le]
  apply if_congr _ rfl rfl
  omega

/-- The append puts it behind the last rule if the text fits. -/
theorem Stored.appendRule (h : Stored M ruleSet text) : onMap (ezplibAppendRule ruleSet r) M =
      if EZPLIB_BUF_LEN ≤ text.len + 1 + r.len then (EZPLIB_VAL_TRUNC, M)
      else (((text.len + 1 + r.len : ℕ) : ℤ), Function.update M ruleSet (kept (some (joinRules
        ((text.fields RULE_SEP).insertIdx (text.fields RULE_SEP).length r))))) := by
  have hend : CStr.glue RULE_SEP RULE_SEP_ne text r =
      joinRules ((text.fields RULE_SEP).insertIdx (text.fields RULE_SEP).length r) := by
    have hne : text.fields RULE_SEP ≠ [] := CStr.fieldsOf_ne_nil _ _
    rw [List.insertIdx_length_self, joinRules_concat hne, joinRules_fields]
  rw [appendRule_stored h.name h.stored h.ne, hend]
  dsimp only
  rw [insertRule_len le_rfl]

end

/-- A rule is added properly exactly if a separator more than the new text fits. -/
theorem ezplibAddRule_adds_iff (u : Unspecified) (M : Variables) (ruleSet text r : CStr) (nth : ℕ)
    (h : Stored M ruleSet text) (hr : RULE_SEP ∉ r.val)
    (hnth : nth ≤ (text.fields RULE_SEP).length) :
    Adds u M ruleSet text r nth ↔
      (joinRules ((text.fields RULE_SEP).insertIdx nth r)).len + 1 < EZPLIB_BUF_LEN := by
  have hpos := fields_length_pos RULE_SEP text
  have hprepend : onMap (ezplibPrependRule u ruleSet r) M =
      onMap (ezplibOpRule u ruleSet .ADD_RULE (0 : ℕ) r) M := by
    rw [ezplibPrependRule, if_neg h.name]
    rfl
  have hfirst : onMap (ezplibAddRule u ruleSet 0 r) M =
      (0, (onMap (ezplibOpRule u ruleSet .ADD_RULE (0 : ℕ) r) M).2) := by
    have hadd := h.addRule (u := u) (r := r) hpos.le
    rwa [if_neg hpos.ne] at hadd
  rw [insertRule_len hnth]
  constructor
  · intro ha
    by_contra hfull
    have hsign := ha.first.1
    rw [outcome, outcome, hprepend, hfirst, h.opRule_add hpos, if_neg hfull] at hsign
    have hret : 0 ≤ EZPLIB_VAL_TRUNC := hsign.mpr le_rfl
    exact absurd hret (by decide)
  · intro hroom
    constructor
    case rules =>
      intro _
      rw [outcome, h.addRule hnth]
      have hne : joinRules ((text.fields RULE_SEP).insertIdx nth r) ≠ CStr.empty := by
        intro he
        have hlen := congrArg CStr.len he
        rw [insertRule_len hnth, CStr.empty_len] at hlen
        omega
      have hrules : storedRules (joinRules ((text.fields RULE_SEP).insertIdx nth r)) =
          (text.fields RULE_SEP).insertIdx nth r := by
        apply storedRules_joinRules _ hne
        intro f hf
        rcases (List.mem_insertIdx hnth).mp hf with rfl | hf
        · exact hr
        · exact CStr.not_mem_of_mem_fields hf
      by_cases hlast : nth = (text.fields RULE_SEP).length
      · rw [if_pos hlast, h.appendRule, if_neg (by omega), text_update_kept, ← hlast]
        exact hrules
      · rw [if_neg hlast, h.opRule_add (hnth.lt_of_ne hlast), if_pos hroom, text_update_kept]
        exact hrules
    case first =>
      rw [outcome, outcome, hprepend, hfirst, h.opRule_add hpos, if_pos hroom]
      exact ⟨iff_of_true (Int.natCast_nonneg _) le_rfl, rfl⟩
    case last =>
      rw [outcome, outcome, h.addRule le_rfl, if_pos rfl, h.appendRule, if_neg (by omega)]
      exact ⟨iff_of_true (Int.natCast_nonneg _) le_rfl, rfl⟩
    case full =>
      intro hfull
      rw [insertRule_len hnth] at hfull
      omega

theorem adds_between : Adds clean (oneSet "fr_rule" (.ofString "a|b")) (.ofString "fr_rule")
    (.ofString "a|b") (.ofString "c") 1 :=
  (ezplibAddRule_adds_iff clean (oneSet "fr_rule" (.ofString "a|b")) (.ofString "fr_rule")
    (.ofString "a|b") (.ofString "c") 1 stored_two (by decide) (by decide)).mpr (by decide)

/-- One rule that takes the whole buffer. -/
def fullRule : CStr := ⟨List.replicate (EZPLIB_BUF_LEN - 1) 0x61, by simp⟩

/-- A text that is too long is not reported. -/
theorem adds_full : ¬ Adds clean (oneSet "fr_rule" fullRule) (.ofString "fr_rule") fullRule
    (.ofString "b") 0 := by
  have hlen : fullRule.len = EZPLIB_BUF_LEN - 1 := List.length_replicate
  have hstored : Stored (oneSet "fr_rule" fullRule) (.ofString "fr_rule") fullRule := by
    apply stored_oneSet (by decide)
    · intro h
      rw [h] at hlen
      cases hlen
    · simp [fullRule, PERCENT]
  intro ha
  have hfull := (ha.full (by rw [insertRule_len (Nat.zero_le _), hlen]; decide) _
    List.mem_cons_self).1
  rw [outcome, hstored.addRule (Nat.zero_le _)] at hfull
  exact absurd hfull (lt_irrefl 0)

end EzpFirmware.UserNvram
