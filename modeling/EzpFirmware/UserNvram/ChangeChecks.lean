import EzpFirmware.UserNvram.AttrScans

/-! # The checks for a change

`ezplib_check_rule_changed` and `ezplib_check_attr_changed` read the stored text
to a buffer of 256 bytes and compare it with the new one. A text that cannot be
read counts as one that has not changed.
-/
namespace EzpFirmware.UserNvram
open Lib

/-- `strncmp` of two strings. -/
def strncmp : List UInt8 → List UInt8 → ℕ → ℤ
  | _, _, 0 => 0
  | [], [], _ + 1 => 0
  | [], b :: _, _ + 1 => -b.toNat
  | a :: _, [], _ + 1 => a.toNat
  | a :: as, b :: bs, n + 1 => if a = b then strncmp as bs n else a.toNat - b.toNat

/-- The size of `tmp` in both checks. -/
def CHECK_LEN : ℕ := 256

/-- `ezplib_check_rule_changed`. -/
def ezplibCheckRuleChanged (u : Unspecified) (ruleSet : CStr) (nth : ℤ) (newRule : CStr) :
    Api ℤ := do
  let r ← ezplibGetRule u ruleSet nth CHECK_LEN
  if r.1 ≤ 0 then pure 0
  else pure (strncmp newRule.val r.2.val r.1.toNat)

/-- What `ezplib_check_attr_changed` makes of the value that was read. -/
def compareValue (newRule : CStr) : Except Fault (ℤ × CStr) → Except Fault ℤ
  | .error e => .error e
  | .ok (len, tmp) =>
    if len < 0 then .ok 0
    else if (newRule.len : ℤ) ≠ len then .ok 1
    else .ok (strncmp newRule.val tmp.val len.toNat)

/-- `ezplib_check_attr_changed`. -/
def ezplibCheckAttrChanged (u : Unspecified) (ruleSet : CStr) (nth : ℤ) (attr newRule : CStr) :
    Api (Except Fault ℤ) := do
  let r ← InMemory.ezplibGetAttrVal u ruleSet nth attr CHECK_LEN
  pure (compareValue newRule r)

/-- What an attribute is shown as, if its text is one that can be shown. -/
def Show.text : Show → CStr → Option CStr
  | .showValue, val => some val
  | .showB64Value, val =>
    match base64Decode val.val EZPLIB_BUF_LEN with
    | (.CRYPT_OK, out) => some (CStr.read out)
    | _ => none

/-- What the checks should do: each says 0 exactly for the text that is stored. -/
structure DetectsChanges (u : Unspecified) (M : Variables) (ruleSet attrName r val : CStr) (nth : ℤ)
    (newRule newAttr : CStr) : Prop where
  rule : (onMap (ezplibCheckRuleChanged u ruleSet nth newRule) M).1 = 0 ↔ newRule = r
  attr : ∃ ret, (onMap (ezplibCheckAttrChanged u ruleSet nth attrName newAttr) M).1 = .ok ret ∧
    (ret = 0 ↔ newAttr = val)

theorem strncmp_eq_zero_iff {a b : List UInt8} (ha : (0 : UInt8) ∉ a) (hb : (0 : UInt8) ∉ b)
    (n : ℕ) : strncmp a b n = 0 ↔ a.take n = b.take n := by
  induction n generalizing a b with
  | zero => simp [strncmp]
  | succ n ih =>
    cases a with
    | nil =>
      cases b with
      | nil => simp [strncmp]
      | cons y bs =>
        have hy : y ≠ 0 := fun h => hb (h ▸ List.mem_cons_self)
        simpa [strncmp, ← UInt8.toNat_inj] using hy
    | cons x as =>
      cases b with
      | nil =>
        have hx : x ≠ 0 := fun h => ha (h ▸ List.mem_cons_self)
        simpa [strncmp, ← UInt8.toNat_inj] using hx
      | cons y bs =>
        rw [strncmp, List.take_succ_cons, List.take_succ_cons]
        by_cases hxy : x = y
        · subst hxy
          rw [if_pos rfl, ih (fun h => ha (List.mem_cons_of_mem x h))
            fun h => hb (List.mem_cons_of_mem x h)]
          simp
        · have hne : x.toNat ≠ y.toNat := fun h => hxy (UInt8.toNat_inj.mp h)
          rw [if_neg hxy]
          apply iff_of_false
          · omega
          · exact fun h => hxy (List.cons.inj h).1

/-- The comparison of a rule looks at its own length only. -/
theorem strncmp_prefix_iff (newRule p : CStr) :
    strncmp newRule.val p.val p.len = 0 ↔ p.val <+: newRule.val := by
  rw [strncmp_eq_zero_iff newRule.property p.property, List.prefix_iff_eq_take, CStr.len,
    List.take_length]
  exact eq_comm

/-- With equal lengths it is a comparison of the texts. -/
theorem strncmp_full_iff {newRule p : CStr} (hlen : newRule.len = p.len) :
    strncmp newRule.val p.val p.len = 0 ↔ newRule = p := by
  rw [strncmp_eq_zero_iff newRule.property p.property]
  have hnew : newRule.val.take p.len = newRule.val := List.take_of_length_le hlen.le
  have hp : p.val.take p.len = p.val := List.take_of_length_le le_rfl
  rw [hnew, hp]
  exact Subtype.ext_iff.symm

section
variable {u : Unspecified} {M : Variables} {ruleSet text r : CStr} {nth : ℕ}

/-- An empty set has one empty rule, and that one prints nothing. -/
theorem printf_of_empty (htext : text = CStr.empty)
    (hr : (text.fields RULE_SEP)[nth]? = some r) : u.printf r = CStr.empty := by
  have hrmem := List.mem_of_getElem? hr
  rw [htext] at hrmem
  have hfields : CStr.empty.fields RULE_SEP = [CStr.empty] := rfl
  rw [hfields, List.mem_singleton] at hrmem
  rw [hrmem]
  exact u.printf_plain _ (by decide)

/-- The check of a rule is done on what the rule gives as a format, if that is a text of fewer than
256 bytes. -/
theorem ezplibCheckRuleChanged_eq (hname : ruleSet ≠ CStr.empty) (hM : M ruleSet = some text)
    (hr : (text.fields RULE_SEP)[nth]? = some r) (newRule : CStr) :
    (onMap (ezplibCheckRuleChanged u ruleSet nth newRule) M).1 =
      if EZPLIB_BUF_LEN ≤ text.len ∨ (u.printf r).len = 0 ∨ CHECK_LEN ≤ (u.printf r).len then 0
      else strncmp newRule.val (u.printf r).val (u.printf r).len := by
  rw [ezplibCheckRuleChanged, onMap_bind, getRule_stored hname hM hr]
  by_cases hempty : text = CStr.empty
  · have hneg : EZPLIB_NO_RULE ≤ 0 := by decide
    have hp : (u.printf r).len = 0 := by
      rw [printf_of_empty hempty hr]
      rfl
    rw [if_pos hempty]
    dsimp only
    rw [if_pos hneg, if_pos (.inr (.inl hp))]
    rfl
  · rw [if_neg hempty]
    by_cases hlong : EZPLIB_BUF_LEN ≤ text.len
    · have hneg : EZPLIB_VAL_TRUNC ≤ 0 := by decide
      rw [if_pos hlong]
      dsimp only
      rw [if_pos hneg, if_pos (.inl hlong)]
      rfl
    · rw [if_neg hlong]
      by_cases htrunc : CHECK_LEN ≤ (u.printf r).len
      · have hneg : EZPLIB_VAL_TRUNC ≤ 0 := by decide
        dsimp only
        rw [printRule_long htrunc, if_pos hneg, if_pos (.inr (.inr htrunc))]
        rfl
      · rw [printRule_short (not_le.mp htrunc)]
        dsimp only
        by_cases hp : (u.printf r).len = 0
        · rw [if_pos (by omega), if_pos (.inr (.inl hp))]
          rfl
        · rw [if_neg (by omega), if_neg (by simp [hlong, hp, htrunc]), Int.toNat_natCast]
          rfl

variable {v : RuleTable} {a : Attr} {attrName : CStr}

theorem confined_attrVal {P : CStr → Prop} (u : Unspecified) (ruleSet : CStr) (nth : ℤ)
    (type : CStr) (bsize : ℕ) :
    Confined P (InMemory.ezplibGetAttrVal u ruleSet nth type bsize) := by
  rw [InMemory.ezplibGetAttrVal]
  split_ifs
  · trivial
  · apply (confined_getRule u ruleSet nth EZPLIB_BUF_LEN).bind
    intro r
    split_ifs <;> trivial

/-- What is read of an attribute that the table has. -/
theorem getAttrVal_stored (hname : ruleSet ≠ CStr.empty) (hM : M ruleSet = some text)
    (hr : (text.fields RULE_SEP)[nth]? = some r) (hv : v ∈ rules) (hset : v.name = ruleSet)
    (hattr : attrName ∈ v.attr.names)
    (ha : v.attr[v.attr.names.idxOf attrName]? = some (some a)) (bsize : ℕ) :
    (onMap (InMemory.ezplibGetAttrVal u ruleSet nth attrName bsize) M).1 =
      if attrName = CStr.empty then .ok (EZPLIB_INVALID, CStr.empty)
      else if text = CStr.empty then .ok (EZPLIB_NO_RULE, CStr.empty)
      else if EZPLIB_BUF_LEN ≤ text.len ∨ EZPLIB_BUF_LEN ≤ (u.printf r).len then
        .ok (EZPLIB_VAL_TRUNC, CStr.empty)
      else match ((u.printf r).fields ATTR_SEP)[v.attr.names.idxOf attrName]? with
        | none => .ok (EZPLIB_NO_ATTRIBUTE, CStr.empty)
        | some q => a.funcOrig.run q bsize := by
  have hindex : v.attr.names.idxOf attrName < MAX_ATTR_NUM := by
    have hlt := List.idxOf_lt_length_of_mem hattr
    have hle := v.attr.names_length_le
    have hshort := tables_short v hv
    omega
  rw [InMemory.ezplibGetAttrVal]
  by_cases hempty : attrName = CStr.empty
  · rw [if_pos (.inr hempty), if_pos hempty]
    rfl
  · rw [if_neg (not_or.mpr ⟨hname, hempty⟩), if_neg hempty, onMap_bind, getRule_stored hname hM hr]
    by_cases htext : text = CStr.empty
    · have hneg : EZPLIB_NO_RULE < 0 := by decide
      rw [if_pos htext, if_pos htext]
      dsimp only
      rw [if_pos hneg]
      rfl
    · rw [if_neg htext, if_neg htext]
      have hneg : EZPLIB_VAL_TRUNC < 0 := by decide
      by_cases hlong : EZPLIB_BUF_LEN ≤ text.len
      · rw [if_pos hlong]
        dsimp only
        rw [if_pos hneg, if_pos (.inl hlong)]
        rfl
      · rw [if_neg hlong]
        by_cases htrunc : EZPLIB_BUF_LEN ≤ (u.printf r).len
        · dsimp only
          rw [printRule_long htrunc, if_pos hneg, if_pos (.inr htrunc)]
          rfl
        · have hpos : ¬ (((u.printf r).len : ℕ) : ℤ) < 0 := by omega
          rw [printRule_short (not_le.mp htrunc), if_neg (not_or.mpr ⟨hlong, htrunc⟩)]
          dsimp only
          rw [if_neg hpos, InMemory.ruleScan_rules hv hset, InMemory.attrScan_found hattr ha,
            List.getElem?_take_of_lt hindex]
          cases ((u.printf r).fields ATTR_SEP)[v.attr.names.idxOf attrName]? <;> rfl

/-- A value that could not be read counts as one that is unchanged. -/
theorem compareValue_neg (newAttr s : CStr) {len : ℤ} (hlen : len < 0) :
    compareValue newAttr (.ok (len, s)) = .ok 0 := by
  rw [compareValue, if_pos hlen]

/-- The check of a value that was read. -/
theorem compareValue_run (newAttr q : CStr) (f : Show) :
    compareValue newAttr (f.run q CHECK_LEN) =
      match f.text q with
      | none => .error .overflow
      | some s => .ok (if CHECK_LEN ≤ s.len then 0 else if newAttr.len ≠ s.len then 1
          else strncmp newAttr.val s.val s.len) := by
  have hshow (s : CStr) : compareValue newAttr (.ok (showValue s CHECK_LEN)) =
      .ok (if CHECK_LEN ≤ s.len then 0 else if newAttr.len ≠ s.len then 1
        else strncmp newAttr.val s.val s.len) := by
    rw [showValue, compareValue]
    by_cases hlong : CHECK_LEN ≤ s.len
    · have hneg : EZPLIB_VAL_TRUNC < 0 := by decide
      rw [if_pos hlong, if_pos hneg, if_pos hlong]
    · have htake : s.take (CHECK_LEN - 1) = s := take_of_len_le (by omega)
      rw [if_neg hlong, if_neg hlong, if_neg (by omega), htake, Int.toNat_natCast]
      by_cases hlen : newAttr.len = s.len
      · rw [if_neg (by simp [hlen]), if_neg (by simp [hlen])]
      · rw [if_pos (by exact_mod_cast hlen), if_pos hlen]
  cases f with
  | showValue => exact hshow q
  | showB64Value =>
    rw [Show.run, showB64Value, Show.text]
    rcases base64Decode q.val EZPLIB_BUF_LEN with ⟨c, out⟩
    cases c with
    | CRYPT_OK => exact hshow (CStr.read out)
    | _ => rfl

/-- The comparison of a value that was read says 0 for a text that is too long, and otherwise for
this value. -/
theorem compared_eq_zero_iff (newAttr s : CStr) :
    (if CHECK_LEN ≤ s.len then 0 else if newAttr.len ≠ s.len then 1
        else strncmp newAttr.val s.val s.len) = 0 ↔ CHECK_LEN ≤ s.len ∨ newAttr = s := by
  by_cases hlong : CHECK_LEN ≤ s.len
  · simp [hlong]
  · rw [if_neg hlong]
    by_cases hlen : newAttr.len = s.len
    · rw [if_neg (not_not.mpr hlen), strncmp_full_iff hlen]
      exact (or_iff_right hlong).symm
    · rw [if_pos hlen]
      apply iff_of_false (by decide)
      rintro (h | h)
      · exact hlong h
      · exact hlen (h ▸ rfl)

/-- The check of an attribute, from what the attribute is shown as. -/
theorem ezplibCheckAttrChanged_eq (hname : ruleSet ≠ CStr.empty) (hM : M ruleSet = some text)
    (hr : (text.fields RULE_SEP)[nth]? = some r) (hv : v ∈ rules) (hset : v.name = ruleSet)
    (hattr : attrName ∈ v.attr.names)
    (ha : v.attr[v.attr.names.idxOf attrName]? = some (some a)) (newAttr : CStr) :
    (onMap (ezplibCheckAttrChanged u ruleSet nth attrName newAttr) M).1 =
      if attrName = CStr.empty ∨ text = CStr.empty ∨ EZPLIB_BUF_LEN ≤ text.len ∨
          EZPLIB_BUF_LEN ≤ (u.printf r).len then .ok 0
      else match ((u.printf r).fields ATTR_SEP)[v.attr.names.idxOf attrName]? with
        | none => .ok 0
        | some q => compareValue newAttr (a.funcOrig.run q CHECK_LEN) := by
  have hget := getAttrVal_stored (u := u) hname hM hr hv hset hattr ha CHECK_LEN
  rw [ezplibCheckAttrChanged, onMap_bind]
  change compareValue newAttr
    (onMap (InMemory.ezplibGetAttrVal u ruleSet nth attrName CHECK_LEN) M).1 = _
  rw [hget]
  by_cases hempty : attrName = CStr.empty
  · rw [if_pos hempty, if_pos (.inl hempty)]
    exact compareValue_neg newAttr _ (by decide)
  rw [if_neg hempty]
  by_cases htext : text = CStr.empty
  · rw [if_pos htext, if_pos (.inr (.inl htext))]
    exact compareValue_neg newAttr _ (by decide)
  rw [if_neg htext]
  by_cases htrunc : EZPLIB_BUF_LEN ≤ text.len ∨ EZPLIB_BUF_LEN ≤ (u.printf r).len
  · rw [if_pos htrunc, if_pos (.inr (.inr htrunc))]
    exact compareValue_neg newAttr _ (by decide)
  rw [if_neg htrunc, if_neg (not_or.mpr ⟨hempty, not_or.mpr ⟨htext, htrunc⟩⟩)]
  cases ((u.printf r).fields ATTR_SEP)[v.attr.names.idxOf attrName]? with
  | none => exact compareValue_neg newAttr _ (by decide)
  | some q => rfl

end

/-- What a check returns, when it returns. -/
theorem returns_iff {c : ℤ} {P : Prop} :
    (∃ ret, (Except.ok c : Except Fault ℤ) = .ok ret ∧ (ret = 0 ↔ P)) ↔ (c = 0 ↔ P) := by
  constructor
  · rintro ⟨ret, hret, h⟩
    cases hret
    exact h
  · exact fun h => ⟨c, rfl, h⟩

theorem returns_zero_iff {P : Prop} :
    (∃ ret, (Except.ok 0 : Except Fault ℤ) = .ok ret ∧ (ret = 0 ↔ P)) ↔ P :=
  returns_iff.trans (iff_true_left rfl)

/-- The checks are right exactly if a rule that can be compared is not extended by another new text,
one that cannot be compared has not changed, and likewise for the value that an attribute is shown
as. -/
theorem changes_detected_iff (u : Unspecified) (M : Variables)
    (ruleSet text r attrName val newRule newAttr : CStr) (nth : ℕ) (v : RuleTable) (a : Attr)
    (hname : ruleSet ≠ CStr.empty) (hM : M ruleSet = some text)
    (hr : (text.fields RULE_SEP)[nth]? = some r) (hv : v ∈ rules) (hset : v.name = ruleSet)
    (hattr : attrName ∈ v.attr.names)
    (ha : v.attr[v.attr.names.idxOf attrName]? = some (some a))
    (_hval : (r.fields ATTR_SEP)[v.attr.names.idxOf attrName]? = some val) :
    DetectsChanges u M ruleSet attrName r val nth newRule newAttr ↔
      let p := u.printf r
      (if EZPLIB_BUF_LEN ≤ text.len ∨ p.len = 0 ∨ CHECK_LEN ≤ p.len then newRule = r
        else (p.val <+: newRule.val ↔ newRule = r)) ∧
      (if attrName = CStr.empty ∨ text = CStr.empty ∨ EZPLIB_BUF_LEN ≤ text.len ∨
          EZPLIB_BUF_LEN ≤ p.len then newAttr = val
        else match (p.fields ATTR_SEP)[v.attr.names.idxOf attrName]? with
          | none => newAttr = val
          | some q => ∃ s, a.funcOrig.text q = some s ∧
              if CHECK_LEN ≤ s.len then newAttr = val else (newAttr = s ↔ newAttr = val)) := by
  have hrule : (onMap (ezplibCheckRuleChanged u ruleSet nth newRule) M).1 = 0 ↔
      (EZPLIB_BUF_LEN ≤ text.len ∨ (u.printf r).len = 0 ∨ CHECK_LEN ≤ (u.printf r).len) ∨
        (u.printf r).val <+: newRule.val := by
    rw [ezplibCheckRuleChanged_eq hname hM hr]
    by_cases hc : EZPLIB_BUF_LEN ≤ text.len ∨ (u.printf r).len = 0 ∨ CHECK_LEN ≤ (u.printf r).len
    · rw [if_pos hc]
      exact iff_of_true rfl (.inl hc)
    · rw [if_neg hc, strncmp_prefix_iff]
      exact (or_iff_right hc).symm
  have hcheck := ezplibCheckAttrChanged_eq (u := u) hname hM hr hv hset hattr ha newAttr
  have hparts : DetectsChanges u M ruleSet attrName r val nth newRule newAttr ↔
      ((onMap (ezplibCheckRuleChanged u ruleSet nth newRule) M).1 = 0 ↔ newRule = r) ∧
      ∃ ret, (onMap (ezplibCheckAttrChanged u ruleSet nth attrName newAttr) M).1 = .ok ret ∧
        (ret = 0 ↔ newAttr = val) := ⟨fun h => ⟨h.rule, h.attr⟩, fun h => ⟨h.1, h.2⟩⟩
  rw [hparts, hrule, hcheck]
  apply and_congr
  · by_cases hc : EZPLIB_BUF_LEN ≤ text.len ∨ (u.printf r).len = 0 ∨ CHECK_LEN ≤ (u.printf r).len
    · rw [if_pos hc]
      exact iff_true_left (.inl hc)
    · rw [if_neg hc]
      exact iff_congr (or_iff_right hc) Iff.rfl
  · by_cases hc : attrName = CStr.empty ∨ text = CStr.empty ∨ EZPLIB_BUF_LEN ≤ text.len ∨
        EZPLIB_BUF_LEN ≤ (u.printf r).len
    · rw [if_pos hc, if_pos hc]
      exact returns_zero_iff
    · rw [if_neg hc, if_neg hc]
      cases ((u.printf r).fields ATTR_SEP)[v.attr.names.idxOf attrName]? with
      | none => exact returns_zero_iff
      | some q =>
        dsimp only
        rw [compareValue_run]
        cases a.funcOrig.text q with
        | none => simp
        | some s =>
          dsimp only
          rw [returns_iff, compared_eq_zero_iff]
          simp only [Option.some.injEq, exists_eq_left']
          by_cases hlong : CHECK_LEN ≤ s.len
          · rw [if_pos hlong]
            exact iff_true_left (.inl hlong)
          · rw [if_neg hlong, or_iff_right hlong]

theorem plug_rules : rule "plug_rule" plugRuleAttr ∈ rules := List.mem_cons_of_mem _ List.mem_cons_self

theorem detectsChanges_plug : DetectsChanges clean (oneSet "plug_rule" (.ofString "1^0^1"))
    (.ofString "plug_rule") (.ofString "usb") (.ofString "1^0^1") (.ofString "1") 0
    (.ofString "1^0^0") (.ofString "10") :=
  (changes_detected_iff clean (oneSet "plug_rule" (.ofString "1^0^1")) (.ofString "plug_rule")
    (.ofString "1^0^1") (.ofString "1^0^1") (.ofString "usb") (.ofString "1") (.ofString "1^0^0")
    (.ofString "10") 0 (rule "plug_rule" plugRuleAttr) ⟨.ofString "usb", .showValue⟩ (by decide) rfl
    (by decide) plug_rules rfl (by decide) (by decide) (by decide)).mpr
    ⟨by decide, .ofString "1", rfl, by decide⟩

/-- A longer rule passes for the one that is stored. -/
theorem extension_undetected : ¬ DetectsChanges clean (oneSet "plug_rule" (.ofString "1^0^1"))
    (.ofString "plug_rule") (.ofString "usb") (.ofString "1^0^1") (.ofString "1") 0
    (.ofString "1^0^10") (.ofString "10") := by
  intro h
  exact absurd (h.rule.mp (by decide)) (by decide)

end EzpFirmware.UserNvram
