import EzpFirmware.Lib.Fields
import EzpFirmware.UserNvram.MapDevice
import EzpFirmware.UserNvram.Protected

/-! # Counting and fetching rules

The rules of a set are the fields of its text between the separators. The count
of `ezplib_get_rule_num` and the scan of `ezplib_get_rule` agree on how many
there are, but the scan runs off the end below the first rule, and hands a rule
to `snprintf` as the format.
-/
namespace EzpFirmware.UserNvram
open Lib

section
variable {u : Unspecified} {bsize : ℕ} {text : CStr} {nth : ℤ}

/-- What `snprintf(buf, bsize, ptr)` leads to. -/
def printRule (u : Unspecified) (bsize : ℕ) (ptr : CStr) : ℤ × CStr :=
  let text := u.printf ptr
  (if bsize ≤ text.len then EZPLIB_VAL_TRUNC else text.len, text.take (bsize - 1))

/-- In front of the first rule the scan finds nothing, and says 0. -/
theorem ruleLoop_neg (fs : List CStr) (hnth : nth < 0) :
    ruleLoop u bsize fs nth = (0, CStr.empty) := by
  induction fs generalizing nth with
  | nil => rw [ruleLoop, if_neg (by omega)]
  | cons f fs ih => rw [ruleLoop, if_pos (by omega), ih (by omega)]

/-- From the first rule on, the scan stops at the rule with the index. -/
theorem ruleLoop_nonneg (fs : List CStr) (n : ℕ) :
    ruleLoop u bsize fs n = match fs[n]? with
      | some f => printRule u bsize f
      | none => (EZPLIB_NO_RULE, CStr.empty) := by
  induction fs generalizing n with
  | nil => simp [ruleLoop]
  | cons f fs ih =>
    cases n with
    | zero => simp [ruleLoop, printRule]
    | succ n =>
      have hstep : ((n + 1 : ℕ) : ℤ) - 1 = n := by omega
      rw [ruleLoop, if_pos (by omega), hstep, ih, List.getElem?_cons_succ]

/-- Used as a format, the rule gives itself; or it is too long either way. -/
def PrintsAsIs (u : Unspecified) (bsize : ℕ) (f : CStr) : Prop :=
  u.printf f = f ∨ bsize ≤ f.len ∧ bsize ≤ (u.printf f).len

/-- A call that fetches the rule as it is stored if there is one that fits, and reports an error
otherwise. -/
def Fetches (text : CStr) (nth num : ℤ) (bsize : ℕ) (r : ℤ × CStr) : Prop :=
  let rule := (text.fields RULE_SEP)[nth.toNat]?
  (0 ≤ r.1 ↔ 0 ≤ nth ∧ nth < num ∧ ∃ f, rule = some f ∧ f.len < bsize) ∧
    ∀ f, 0 ≤ nth → nth < num → rule = some f → f.len < bsize → r = ((f.len : ℤ), f)

theorem take_of_len_le {s : CStr} {n : ℕ} (h : s.len ≤ n) : s.take n = s :=
  Subtype.ext (List.take_of_length_le h)

theorem printRule_short {f : CStr} (h : (u.printf f).len < bsize) :
    printRule u bsize f = (((u.printf f).len : ℤ), u.printf f) := by
  have htake : (u.printf f).take (bsize - 1) = u.printf f := take_of_len_le (by omega)
  simp [printRule, htake, h]

theorem printRule_long {f : CStr} (h : bsize ≤ (u.printf f).len) :
    (printRule u bsize f).1 = EZPLIB_VAL_TRUNC := by
  simp [printRule, h]

/-- A rule is fetched properly exactly when it survives its use as a format. -/
theorem printRule_iff {f : CStr} :
    ((0 ≤ (printRule u bsize f).1 ↔ f.len < bsize) ∧
      (f.len < bsize → printRule u bsize f = ((f.len : ℤ), f))) ↔ PrintsAsIs u bsize f := by
  by_cases hlong : bsize ≤ (u.printf f).len
  · have hneg : ¬ 0 ≤ (printRule u bsize f).1 := by
      rw [printRule_long hlong]
      decide
    constructor
    · rintro ⟨hiff, -⟩
      exact .inr ⟨not_lt.mp fun h => hneg (hiff.mpr h), hlong⟩
    · intro h
      have hf : ¬ f.len < bsize := by
        rcases h with h | h
        · rw [h] at hlong
          omega
        · omega
      exact ⟨iff_of_false hneg hf, fun h => absurd h hf⟩
  · have hshort := printRule_short (not_le.mp hlong)
    have hpos : 0 ≤ (printRule u bsize f).1 := by
      rw [hshort]
      exact Int.natCast_nonneg _
    constructor
    · rintro ⟨hiff, heq⟩
      have hsnd := congrArg Prod.snd (heq (hiff.mp hpos))
      rw [hshort] at hsnd
      exact .inl hsnd
    · intro h
      have hf : u.printf f = f := h.resolve_right fun h => hlong h.2
      rw [hf] at hshort hlong
      exact ⟨iff_of_true hpos (not_le.mp hlong), fun _ => hshort⟩

variable {ruleSet : CStr} {M : Variables}

/-- The count is the number of fields. -/
theorem ezplibGetRuleNum_map (hM : M ruleSet = some text) :
    (onMap (ezplibGetRuleNum ruleSet) M).1 =
      if text = CStr.empty then 0 else ((text.fields RULE_SEP).length : ℤ) := by
  rw [ezplibGetRuleNum, onMap_bind]
  simp only [Api.get, onMap, hM]
  by_cases ht : text = CStr.empty <;> simp [ht, CStr.length_fields]

/-- The scan of a text that is not empty. -/
theorem ezplibGetRule_map (hset : ruleSet ≠ CStr.empty) (hM : M ruleSet = some text)
    (hlen : text.len < EZPLIB_BUF_LEN) :
    (onMap (ezplibGetRule u ruleSet nth bsize) M).1 =
      if text = CStr.empty then (EZPLIB_NO_RULE, CStr.empty)
      else ruleLoop u bsize (text.fields RULE_SEP) nth := by
  rw [ezplibGetRule, if_neg hset, onMap_bind]
  simp only [Api.get, onMap, hM]
  by_cases ht : text = CStr.empty
  · rw [if_pos ht, if_pos ht]
    rfl
  · rw [if_neg ht, if_neg ht, if_neg (not_le.mpr hlen)]
    rfl

/-- An attribute of a rule that survives its use as a format, cut where its buffer ends. -/
theorem ezplibGetAttrVal_map {rules : List Rule} {type r : CStr} {a : CStr × CStr} {i : ℕ}
    (hset : ruleSet ≠ CStr.empty) (htype : type ≠ CStr.empty) (hM : M ruleSet = some text)
    (hlen : text.len < EZPLIB_BUF_LEN) (hne : text ≠ CStr.empty)
    (hr : (text.fields RULE_SEP)[i]? = some r) (hprint : u.printf r = r)
    (hattr : (((rules.filter fun v => v.name = ruleSet).flatMap fun v =>
      v.attr.zip ((r.fields ATTR_SEP).take MAX_ATTR_NUM)).find? fun a => a.1 = type) = some a) :
    (onMap (ezplibGetAttrVal u rules (fun _ _ => showValue) ruleSet i type bsize) M).1.2 =
      a.2.take (bsize - 1) := by
  have hrlen : r.len < EZPLIB_BUF_LEN :=
    Nat.lt_of_le_of_lt (CStr.len_le_of_mem_fields (List.mem_of_getElem? hr)) hlen
  have hrule : (onMap (ezplibGetRule u ruleSet i EZPLIB_BUF_LEN) M).1 = ((r.len : ℤ), r) := by
    rw [ezplibGetRule_map hset hM hlen, if_neg hne, ruleLoop_nonneg, hr]
    dsimp only
    rw [printRule_short (by rwa [hprint]), hprint]
  rw [ezplibGetAttrVal, if_neg (not_or.mpr ⟨hset, htype⟩), onMap_bind, hrule,
    if_neg (not_lt.mpr (Int.natCast_nonneg _))]
  dsimp only
  rw [hattr]
  rfl

/-- The fetch is right exactly for an empty set, and from the first rule on for a rule that
survives its use as a format. -/
theorem ezplibGetRule_fetches_iff (u : Unspecified) {M : Variables} {ruleSet text : CStr}
    (hset : ruleSet ≠ CStr.empty) (hM : M ruleSet = some text) (hlen : text.len < EZPLIB_BUF_LEN)
    (nth : ℤ) (bsize : ℕ) :
    Fetches text nth (onMap (ezplibGetRuleNum ruleSet) M).1 bsize
        (onMap (ezplibGetRule u ruleSet nth bsize) M).1 ↔
      text = CStr.empty ∨
        0 ≤ nth ∧ ∀ f, (text.fields RULE_SEP)[nth.toNat]? = some f → PrintsAsIs u bsize f := by
  rw [ezplibGetRuleNum_map hM, ezplibGetRule_map hset hM hlen]
  by_cases ht : text = CStr.empty
  · have hnum (h : 0 ≤ nth) : ¬ nth < 0 := by omega
    rw [if_pos ht, if_pos ht]
    simp only [Fetches, ht, true_or, iff_true]
    exact ⟨iff_of_false (by decide : ¬ 0 ≤ EZPLIB_NO_RULE) fun h => hnum h.1 h.2.1,
      fun f h hlt => absurd hlt (hnum h)⟩
  · rw [if_neg ht, if_neg ht]
    simp only [ht, false_or]
    by_cases hnth : 0 ≤ nth
    · obtain ⟨n, rfl⟩ := Int.eq_ofNat_of_zero_le hnth
      simp only [Fetches, hnth, true_and, Int.toNat_natCast, Int.ofNat_lt, forall_const]
      rw [ruleLoop_nonneg]
      cases hf : (text.fields RULE_SEP)[n]? with
      | none => simp [EZPLIB_NO_RULE]
      | some f =>
        have hin := (List.getElem?_eq_some_iff.mp hf).1
        simpa [hin] using @printRule_iff u bsize f
    · rw [ruleLoop_neg _ (by omega)]
      simp [Fetches, hnth]

end

/-- One rule set with two rules. -/
def twoRules : Variables := fun m =>
  if m = .ofString "fr_rule" then some (.ofString "a^1|b^2") else none

theorem ezplibGetRule_fetches_second :
    Fetches (.ofString "a^1|b^2") 1 (onMap (ezplibGetRuleNum (.ofString "fr_rule")) twoRules).1 16
      (onMap (ezplibGetRule clean (.ofString "fr_rule") 1 16) twoRules).1 :=
  (ezplibGetRule_fetches_iff clean (by decide) (by decide) (by decide) 1 16).mpr
    (.inr ⟨by decide, fun _ _ => .inl rfl⟩)

/-- Below the first rule, success is reported. -/
theorem ezplibGetRule_below :
    ¬ Fetches (.ofString "a^1|b^2") (-1)
      (onMap (ezplibGetRuleNum (.ofString "fr_rule")) twoRules).1 16
      (onMap (ezplibGetRule clean (.ofString "fr_rule") (-1) 16) twoRules).1 := by
  have hrun : (onMap (ezplibGetRule clean (.ofString "fr_rule") (-1) 16) twoRules).1.1 = 0 := by
    decide +kernel
  rintro ⟨hiff, -⟩
  exact absurd (hiff.mp hrun.ge).1 (by decide)

end EzpFirmware.UserNvram
