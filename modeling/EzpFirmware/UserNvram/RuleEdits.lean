import EzpFirmware.Lib.Layout
import EzpFirmware.UserNvram.RuleFetch
import EzpFirmware.UserNvram.Rules

/-! # Edits of a rule list

A stored rule set is a list of rules. The loop that rewrites it emits the edited
list with a separator behind each rule, takes the last separator off and stores
the rest, as long as everything fits the buffer on the way.
-/
namespace EzpFirmware.UserNvram
open Lib

/-- The rules of a stored text. -/
def storedRules (s : CStr) : List CStr := if s = CStr.empty then [] else s.fields RULE_SEP

/-- The text of a list of rules. -/
def joinRules (rs : List CStr) : CStr := CStr.join RULE_SEP RULE_SEP_ne rs

/-- What an operation does to a list of rules. -/
def Opcode.edit (op : Opcode) (nth : ℤ) (newRule : CStr) (rs : List CStr) : List CStr :=
  if 0 ≤ nth ∧ nth < rs.length then
    match op with
    | .ADD_RULE => rs.insertIdx nth.toNat newRule
    | .DELETE_RULE => rs.eraseIdx nth.toNat
    | .REPLACE_RULE => rs.set nth.toNat newRule
  else rs

theorem storedRules_empty_iff {s : CStr} : storedRules s = [] ↔ s = CStr.empty := by
  unfold storedRules
  split_ifs with hs
  · simp [hs]
  · simp [hs, CStr.fields, CStr.fieldsOf_ne_nil]

theorem storedRules_of_ne {s : CStr} (hs : s ≠ CStr.empty) : storedRules s = s.fields RULE_SEP :=
  if_neg hs

/-- Rules without the separator that leave a text are read back from it. -/
theorem storedRules_joinRules {rs : List CStr} (hfree : ∀ r ∈ rs, RULE_SEP ∉ r.val)
    (hne : joinRules rs ≠ CStr.empty) : storedRules (joinRules rs) = rs := by
  have hrs : rs ≠ [] := by
    rintro rfl
    exact hne rfl
  rw [storedRules_of_ne hne]
  exact CStr.fields_join _ hrs hfree

theorem joinRules_fields (s : CStr) : joinRules (s.fields RULE_SEP) = s := CStr.join_fields _ s

theorem joinRules_storedRules (s : CStr) : joinRules (storedRules s) = s := by
  by_cases hs : s = CStr.empty
  · subst hs
    rfl
  · rw [storedRules_of_ne hs, joinRules_fields]

/-- A rule has no separator of rules. -/
theorem free_of_mem_storedRules {s r : CStr} (hr : r ∈ storedRules s) : RULE_SEP ∉ r.val := by
  by_cases hs : s = CStr.empty
  · rw [storedRules_empty_iff.mpr hs] at hr
    cases hr
  · rw [storedRules_of_ne hs] at hr
    exact CStr.not_mem_of_mem_fields hr

/-! ## Emitting a list -/

section
variable (sep : UInt8) (hsep : sep ≠ 0)

/-- Strings with a separator behind each, at the end of a buffer. -/
def emitAll : List CStr → CStr → Except ℤ CStr
  | [], buf => .ok buf
  | r :: rs, buf =>
    match emit sep hsep r buf with
    | none => .error EZPLIB_VAL_TRUNC
    | some buf => emitAll rs buf

/-- Everything is emitted, or the buffer is full on the way. -/
theorem emitAll_eq (rs : List CStr) {buf : CStr} (hbuf : buf.len < EZPLIB_BUF_LEN) :
    emitAll sep hsep rs buf = if buf.len + (CStr.lines sep hsep rs).len < EZPLIB_BUF_LEN
      then .ok (buf.append (CStr.lines sep hsep rs)) else .error EZPLIB_VAL_TRUNC := by
  induction rs generalizing buf with
  | nil =>
    have hnil : (CStr.lines sep hsep []).len = 0 := rfl
    rw [hnil, Nat.add_zero, if_pos hbuf, emitAll]
    exact congrArg Except.ok (Subtype.ext (List.append_nil _).symm)
  | cons r rs ih =>
    have hglue : (CStr.glue sep hsep r CStr.empty).len = r.len + 1 := by
      rw [CStr.glue_len]
      rfl
    rw [emitAll, emit, CStr.lines_cons_len, hglue]
    by_cases hr : buf.len + (r.len + 1) < EZPLIB_BUF_LEN
    · have hnot : ¬ EZPLIB_BUF_LEN - buf.len ≤ r.len + 1 := by omega
      have hnext : (buf.append (CStr.glue sep hsep r CStr.empty)).len =
          buf.len + (r.len + 1) := by rw [CStr.append_len, hglue]
      rw [if_neg hnot]
      change emitAll sep hsep rs _ = _
      rw [ih (hnext ▸ hr), hnext, Nat.add_assoc]
      congr 2
      apply Subtype.ext
      simp [CStr.append, CStr.glue, CStr.empty, CStr.lines, CStr.heads]
    · have hfull : EZPLIB_BUF_LEN - buf.len ≤ r.len + 1 := by omega
      rw [if_pos hfull, if_neg (by omega)]

/-- In an empty buffer, a list that is not empty leaves its lines. -/
theorem emitAll_join {rs : List CStr} (hrs : rs ≠ []) : emitAll sep hsep rs CStr.empty =
    if (CStr.join sep hsep rs).len + 1 < EZPLIB_BUF_LEN then .ok (CStr.lines sep hsep rs)
    else .error EZPLIB_VAL_TRUNC := by
  have hempty : CStr.empty.len < EZPLIB_BUF_LEN := by decide
  rw [emitAll_eq sep hsep rs hempty, CStr.empty_len, Nat.zero_add, CStr.lines_len hsep hrs]
  rfl

theorem lines_ne_empty {rs : List CStr} (hrs : rs ≠ []) :
    CStr.lines sep hsep rs ≠ CStr.empty := by
  intro he
  have hlen := congrArg CStr.len he
  rw [CStr.lines_len hsep hrs] at hlen
  cases hlen

end

/-! ## The loop -/

section
variable {u : Unspecified} {ruleSet text : CStr} {M : Variables}

/-- A stored rule set that the library can read: it is not empty, fits the buffers and is not
changed by its use as a format. -/
structure Readable (M : Variables) (ruleSet text : CStr) : Prop where
  name : ruleSet ≠ CStr.empty
  stored : M ruleSet = some text
  ne : text ≠ CStr.empty
  plain : PERCENT ∉ text.val
  fits : text.len < EZPLIB_BUF_LEN

theorem onMap_of_confined {α : Type} {p : Api α} (h : Confined (fun _ => False) p) (M : Variables) :
    onMap p M = ((onMap p M).1, M) := by
  have hsame : (onMap p M).2 = M := funext fun m => h.onMap (m := m) not_false M
  exact Prod.ext rfl hsame

/-- A rule of such a set is fetched as it is stored. -/
theorem Readable.getRule (h : Readable M ruleSet text) (n : ℕ) {bsize : ℕ}
    (hsize : text.len < bsize) : onMap (ezplibGetRule u ruleSet n bsize) M =
      (match (text.fields RULE_SEP)[n]? with
      | some r => ((r.len : ℤ), r)
      | none => (EZPLIB_NO_RULE, CStr.empty), M) := by
  rw [onMap_of_confined (confined_getRule u ruleSet n bsize), ezplibGetRule_map h.name h.stored h.fits,
    if_neg h.ne, ruleLoop_nonneg]
  cases hr : (text.fields RULE_SEP)[n]? with
  | none => rfl
  | some r =>
    have hmem := List.mem_of_getElem? hr
    have hlen := CStr.len_le_of_mem_fields hmem
    have hprint : u.printf r = r := by
      refine u.printf_plain r fun hp => h.plain ?_
      rw [← joinRules_fields text]
      exact CStr.mem_join_of_mem hmem hp
    have hshort : (u.printf r).len < bsize := by
      rw [hprint]
      omega
    dsimp only
    rw [printRule_short hshort, hprint]

theorem Readable.getRuleNum (h : Readable M ruleSet text) :
    onMap (ezplibGetRuleNum ruleSet) M = (((text.fields RULE_SEP).length : ℤ), M) := by
  rw [onMap_of_confined (confined_getRuleNum ruleSet), ezplibGetRuleNum_map h.stored, if_neg h.ne]

variable {op : Opcode} {newRule : CStr}

theorem edit_outside {nth : ℤ} {rs : List CStr} (h : ¬ (0 ≤ nth ∧ nth < rs.length)) :
    op.edit nth newRule rs = rs := if_neg h

theorem edit_succ {nth : ℤ} (hnth : nth ≠ 0) (r : CStr) (rs : List CStr) :
    op.edit nth newRule (r :: rs) = r :: op.edit (nth - 1) newRule rs := by
  by_cases hin : 0 ≤ nth ∧ nth < (r :: rs).length
  · obtain ⟨n, rfl⟩ : ∃ n : ℕ, nth = n + 1 := ⟨(nth - 1).toNat, by omega⟩
    have hrest : (0 : ℤ) ≤ n + 1 - 1 ∧ (n : ℤ) + 1 - 1 < rs.length := by
      rw [List.length_cons] at hin
      omega
    have hn : ((n : ℤ) + 1).toNat = n + 1 := by omega
    have hn' : ((n : ℤ) + 1 - 1).toNat = n := by omega
    unfold Opcode.edit
    rw [if_pos hin, if_pos hrest, hn, hn']
    cases op <;> rfl
  · have hrest : ¬ (0 ≤ nth - 1 ∧ nth - 1 < rs.length) := by
      rw [List.length_cons] at hin
      omega
    rw [edit_outside hin, edit_outside hrest]

/-- From a rule on, the loop emits the rules that are left, edited at the index that is left. An
added rule takes one more round than there are rules. -/
theorem Readable.opLoop (h : Readable M ruleSet text) {n i : ℕ} {nth : ℤ} {rs : List CStr}
    (hrs : (text.fields RULE_SEP).drop i = rs)
    (hn : rs.length + (if nth < i then 0 else 1) ≤ n) (buf : CStr) :
    onMap (UserNvram.opLoop u ruleSet op newRule (text.fields RULE_SEP).length n i nth buf) M =
      (emitAll RULE_SEP RULE_SEP_ne (op.edit (nth - i) newRule rs) buf, M) := by
  induction n generalizing i nth rs buf with
  | zero =>
    have hnil : rs = [] := List.eq_nil_of_length_eq_zero (by omega)
    rw [hnil, edit_outside (by simp)]
    rfl
  | succ n ih =>
    cases rs with
    | nil =>
      have hle : (text.fields RULE_SEP).length ≤ i := List.drop_eq_nil_iff.mp hrs
      unfold UserNvram.opLoop
      rw [if_pos (by omega), edit_outside (by simp)]
      rfl
    | cons r rs =>
      have hlt : i < (text.fields RULE_SEP).length := by
        by_contra hge
        rw [List.drop_eq_nil_of_le (not_lt.mp hge)] at hrs
        cases hrs
      have hget : (text.fields RULE_SEP)[i]? = some r := by
        rw [← List.head?_drop, hrs]
        rfl
      have hrest : (text.fields RULE_SEP).drop (i + 1) = rs := by
        rw [← List.tail_drop, hrs]
        rfl
      have hpos : ¬ ((r.len : ℕ) : ℤ) < 0 := not_lt.mpr (Int.natCast_nonneg _)
      rw [List.length_cons] at hn
      unfold UserNvram.opLoop
      rw [if_neg (by omega), onMap_bind, h.getRule i h.fits, hget]
      dsimp only
      rw [if_neg hpos]
      by_cases hi : (i : ℤ) = nth
      · -- The rule with the index.
        subst hi
        have hlen : (0 : ℤ) ≤ i - i ∧ (i : ℤ) - i < (r :: rs).length := by simp
        have hzero : ((i : ℤ) - i).toNat = 0 := by simp
        rw [if_neg (lt_irrefl _)] at hn
        rw [if_neg (not_not.mpr rfl), Opcode.edit.eq_def, if_pos hlen, hzero]
        cases op with
        | ADD_RULE =>
          dsimp only
          rw [List.insertIdx_zero, emitAll]
          cases emit RULE_SEP RULE_SEP_ne newRule buf with
          | none => rfl
          | some buf =>
            have hnext := @ih i (-1) _ hrs (by rw [if_pos (by omega), List.length_cons]; omega) buf
            rwa [edit_outside (by omega)] at hnext
        | DELETE_RULE =>
          have hnext := @ih (i + 1) i _ hrest (by rw [if_pos (by omega)]; omega) buf
          rwa [edit_outside (by omega)] at hnext
        | REPLACE_RULE =>
          dsimp only
          rw [List.set_cons_zero, emitAll]
          cases emit RULE_SEP RULE_SEP_ne newRule buf with
          | none => rfl
          | some buf =>
            have hnext := @ih (i + 1) i _ hrest (by rw [if_pos (by omega)]; omega) buf
            rwa [edit_outside (by omega)] at hnext
      · -- Any other rule stays.
        have hsub : nth - (i : ℤ) - 1 = nth - (i + 1 : ℕ) := by omega
        rw [if_pos hi, edit_succ (by omega), hsub, emitAll]
        cases emit RULE_SEP RULE_SEP_ne r buf with
        | none => rfl
        | some buf =>
          refine ih hrest ?_ buf
          split_ifs at hn ⊢ <;> omega

/-- What an edit does to a readable set. -/
theorem Readable.opRule (h : Readable M ruleSet text) (op : Opcode) (nth : ℤ) (newRule : CStr) :
    onMap (ezplibOpRule u ruleSet op nth newRule) M =
      let rs := op.edit nth newRule (text.fields RULE_SEP)
      if rs = [] then
        (if u.below = RULE_SEP then -1 else 0, Function.update M ruleSet (kept (some u.buf)))
      else if (joinRules rs).len + 1 < EZPLIB_BUF_LEN then
        (((joinRules rs).len : ℤ), Function.update M ruleSet (kept (some (joinRules rs))))
      else (EZPLIB_VAL_TRUNC, M) := by
  have hloop : onMap (UserNvram.opLoop u ruleSet op newRule (text.fields RULE_SEP).length
      ((text.fields RULE_SEP).length + 1) (0 : ℕ) nth CStr.empty) M = _ :=
    h.opLoop List.drop_zero (by split_ifs <;> simp) CStr.empty
  rw [Int.natCast_zero, sub_zero] at hloop
  have hneg : ¬ (((text.fields RULE_SEP).length : ℕ) : ℤ) < 0 := by omega
  rw [ezplibOpRule, onMap_bind, h.getRuleNum]
  dsimp only
  rw [if_neg hneg, onMap_bind, Int.toNat_natCast, hloop]
  generalize op.edit nth newRule (text.fields RULE_SEP) = rs
  by_cases hrs : rs = []
  · subst hrs
    rfl
  · have hemit : emitAll RULE_SEP RULE_SEP_ne rs CStr.empty =
        if (joinRules rs).len + 1 < EZPLIB_BUF_LEN then .ok (CStr.lines RULE_SEP RULE_SEP_ne rs)
        else .error EZPLIB_VAL_TRUNC := emitAll_join RULE_SEP RULE_SEP_ne hrs
    rw [if_neg hrs, hemit]
    by_cases hfit : (joinRules rs).len + 1 < EZPLIB_BUF_LEN
    · rw [if_pos hfit, if_pos hfit]
      dsimp only
      rw [if_neg (lines_ne_empty RULE_SEP RULE_SEP_ne hrs), CStr.chop_lines _ hrs]
      rfl
    · rw [if_neg hfit, if_neg hfit]
      rfl

/-- No rule is fetched from a set that is too long for the buffers. -/
theorem getRule_long (hname : ruleSet ≠ CStr.empty) (hM : M ruleSet = some text)
    (hlong : EZPLIB_BUF_LEN ≤ text.len) (nth : ℤ) (bsize : ℕ) :
    onMap (ezplibGetRule u ruleSet nth bsize) M = ((EZPLIB_VAL_TRUNC, CStr.empty), M) := by
  have hne : text ≠ CStr.empty := by
    rintro rfl
    cases hlong
  rw [ezplibGetRule, if_neg hname, onMap_bind, onMap_get, hM]
  dsimp only
  rw [if_neg hne, if_pos hlong]
  rfl

/-- What is fetched of a rule that is there. -/
theorem getRule_stored (hname : ruleSet ≠ CStr.empty) (hM : M ruleSet = some text) {nth : ℕ} {r : CStr}
    (hr : (text.fields RULE_SEP)[nth]? = some r) (bsize : ℕ) :
    onMap (ezplibGetRule u ruleSet nth bsize) M =
      (if text = CStr.empty then (EZPLIB_NO_RULE, CStr.empty)
        else if EZPLIB_BUF_LEN ≤ text.len then (EZPLIB_VAL_TRUNC, CStr.empty)
        else printRule u bsize r, M) := by
  by_cases hlong : EZPLIB_BUF_LEN ≤ text.len
  · have hne : text ≠ CStr.empty := by
      rintro rfl
      cases hlong
    rw [getRule_long hname hM hlong, if_neg hne, if_pos hlong]
  · rw [onMap_of_confined (confined_getRule u ruleSet nth bsize),
      ezplibGetRule_map hname hM (not_le.mp hlong), ruleLoop_nonneg, hr, if_neg hlong]

/-- A set that is too long for the buffers is not edited. -/
theorem opRule_long (hname : ruleSet ≠ CStr.empty) (hM : M ruleSet = some text)
    (hlong : EZPLIB_BUF_LEN ≤ text.len) (op : Opcode) (nth : ℤ) (newRule : CStr) :
    onMap (ezplibOpRule u ruleSet op nth newRule) M = (EZPLIB_VAL_TRUNC, M) := by
  have hne : text ≠ CStr.empty := by
    rintro rfl
    cases hlong
  have hnum : onMap (ezplibGetRuleNum ruleSet) M = (((text.fields RULE_SEP).length : ℤ), M) := by
    rw [onMap_of_confined (confined_getRuleNum ruleSet), ezplibGetRuleNum_map hM, if_neg hne]
  have hpos : 0 < (text.fields RULE_SEP).length :=
    List.length_pos_of_ne_nil (CStr.fieldsOf_ne_nil _ _)
  have hneg : ¬ (((text.fields RULE_SEP).length : ℕ) : ℤ) < 0 := by omega
  rw [ezplibOpRule, onMap_bind, hnum]
  dsimp only
  rw [if_neg hneg, onMap_bind, Int.toNat_natCast]
  unfold UserNvram.opLoop
  rw [if_neg (by omega), onMap_bind, getRule_long hname hM hlong]
  rfl

end

end EzpFirmware.UserNvram
