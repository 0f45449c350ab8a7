import EzpFirmware.Httpd.RulePages
import EzpFirmware.UserNvram.RuleFetch

/-! # What the pages of rules store

The rules that a save function appends and replaces one by one are overwritten
at its end: what is left in the rule set is the join of the rows, as long as
they fit the buffers.
-/
namespace EzpFirmware.Httpd
open Lib UserNvram

section
variable {M : Variables}

/-- A value for several variables is in each of them afterwards, and in no other. -/
theorem setAll_apply (value : CStr) (names : List CStr) (m : CStr) :
    (onMap (setAll value names) M).2 m = if m ∈ names then kept (some value) else M m := by
  induction names generalizing M with
  | nil => simp [setAll]
  | cons name names ih =>
    rw [setAll, onMap_bind, ih, onMap_set]
    by_cases hm : m ∈ names
    · rw [if_pos hm, if_pos (List.mem_cons_of_mem name hm)]
    · rw [if_neg hm]
      simp [Function.update_apply, hm]

end

section
variable {P : CStr → Prop} (u : Unspecified) {ruleSet : CStr} (hset : P ruleSet)
include hset

theorem confined_appendRule (newRule : CStr) : Confined P (ezplibAppendRule ruleSet newRule) := by
  unfold ezplibAppendRule
  split_ifs
  · trivial
  · apply (confined_get ruleSet).bind
    intro oldRules
    cases oldRules with
    | none => trivial
    | some oldRules =>
      dsimp only
      generalize (if oldRules = CStr.empty then newRule else _) = text
      split_ifs
      · trivial
      · exact (confined_set hset _).bind fun _ => trivial

theorem confined_saveRule (i : ℕ) (rule : CStr) : Confined P (saveRule u ruleSet i rule) := by
  apply (confined_getRule u ruleSet i TMP_LEN).bind
  intro old
  split_ifs
  · exact (confined_appendRule hset rule).bind fun _ => trivial
  · exact (confined_replaceRule u hset i rule).bind fun _ => trivial
  · trivial

end

theorem confined_saveRows {P : CStr → Prop} (u : Unspecified) {p : Saver} (hset : P p.rule)
    (form : Form) (n i : ℕ) (change : Bool) (allRule : CStr) :
    Confined P (saveRows u p form n i change allRule) := by
  induction n generalizing i change allRule with
  | zero => trivial
  | succ n ih =>
    unfold saveRows
    dsimp only
    split_ifs
    · trivial
    · exact (confined_saveRule u hset i _).bind fun _ => ih _ _ _

theorem confined_saveVar {P : CStr → Prop} (form : Form) {name : CStr} (hname : P name) :
    Confined P (saveVar form name) := by
  apply (confined_safeGet name).bind
  intro old
  split_ifs
  · exact (confined_set hname _).bind fun _ => trivial
  · trivial

theorem confined_saveDmz {P : CStr → Prop} (u : Unspecified) (form : Form)
    (hname : P (.ofString "fr_dmz_rule")) : Confined P (saveDmz u form) := by
  apply (confined_safeGet _).bind
  intro num
  apply (confined_safeGet _).bind
  intro old
  split_ifs
  · exact (confined_set hname _).bind fun _ => trivial
  · trivial

/-! ## The text that is built -/

section
variable (p : Saver) (form : Form)

/-- The rules of the first rows, joined. -/
def rulesText (n : ℕ) : CStr :=
  CStr.join RULE_SEP RULE_SEP_ne ((List.range n).map fun i => ruleText (p.row form i))

/-- What `all_rule` reads as behind the first rows. -/
def builtText (n : ℕ) : CStr := if n = 0 then p.initial else rulesText p form n

theorem rulesText_succ {n : ℕ} (hn : n ≠ 0) : rulesText p form (n + 1) =
    CStr.glue RULE_SEP RULE_SEP_ne (rulesText p form n) (ruleText (p.row form n)) := by
  have hne : (List.range n).map (fun i => ruleText (p.row form i)) ≠ [] := by simpa using hn
  rw [rulesText, List.range_succ, List.map_append, List.map_singleton]
  exact CStr.join_concat _ hne _

theorem rulesText_one : rulesText p form 1 = ruleText (p.row form 0) := rfl

theorem rulesText_len_le {m n : ℕ} (h : m ≤ n) :
    (rulesText p form m).len ≤ (rulesText p form n).len := by
  induction n, h using Nat.le_induction with
  | base => exact le_rfl
  | succ n hmn ih =>
    by_cases hn : n = 0
    · subst hn
      rw [Nat.le_zero.mp hmn]
      exact Nat.zero_le _
    · rw [rulesText_succ p form hn, CStr.glue_len]
      omega

variable {p form}

/-- One more rule that fits. -/
theorem addRule_built {i : ℕ} (h : (rulesText p form (i + 1)).len < LONG_BUF_LEN) :
    addRule i (builtText p form i) (ruleText (p.row form i)) = builtText p form (i + 1) := by
  rw [builtText, builtText, if_neg (Nat.succ_ne_zero i)]
  by_cases hi : i = 0
  · subst hi
    rw [addRule, if_pos rfl, ← rulesText_one p form]
    exact take_of_len_le (Nat.le_sub_one_of_lt h)
  · rw [addRule, if_neg hi, if_neg hi, ← rulesText_succ p form hi]
    exact take_of_len_le (Nat.le_sub_one_of_lt h)

/-- The rules of the first rows fit the buffers. -/
structure Saver.Fits (p : Saver) (form : Form) (n : ℕ) : Prop where
  rule : ∀ i < n, (ruleText (p.row form i)).len < p.size
  all : (rulesText p form n).len < LONG_BUF_LEN

/-- The loop builds the join of the rows that are left. -/
theorem saveRows_built {n : ℕ} (hfits : p.Fits form n) (u : Unspecified) {k i : ℕ}
    (hk : i + k = n) (change : Bool) (M : Variables) :
    ∃ c, (onMap (saveRows u p form k i change (builtText p form i)) M).1 =
      some (c, builtText p form n) := by
  induction k generalizing i change M with
  | zero => exact ⟨change, by rw [← hk]; rfl⟩
  | succ k ih =>
    have hrule := hfits.rule i (by omega)
    have hall : (rulesText p form (i + 1)).len < LONG_BUF_LEN :=
      (rulesText_len_le p form (by omega)).trans_lt hfits.all
    have htake : (ruleText (p.row form i)).take (p.size - 1) = ruleText (p.row form i) :=
      take_of_len_le (by omega)
    rw [saveRows]
    dsimp only
    rw [if_neg fun h => absurd h.2 (not_le.mpr hrule), htake, addRule_built hall, onMap_bind]
    exact ih (by omega) _ _

/-- The number of rules that a form leaves. -/
def Saver.num (p : Saver) (form : Form) (M : Variables) : ℤ :=
  min (submittedNum form p.stem) (atoi (text M p.ruleMax))

/-- The names of a page are names of different variables. -/
structure Saver.Named (p : Saver) : Prop where
  ruleNum : p.ruleNum ∈ p.counts
  rule : p.rule ∉ p.counts
  distinct : p.ruleNum ≠ p.rule

/-- After saving, the number and the text of the rules are those of the form. -/
theorem saveRules_stores (hnamed : p.Named) (u : Unspecified) {M : Variables}
    (hfits : p.Fits form (p.num form M).toNat) :
    atoi (text (onMap (saveRules u p form) M).2 p.ruleNum) = p.num form M ∧
      text (onMap (saveRules u p form) M).2 p.rule = builtText p form (p.num form M).toNat := by
  let change : Bool := p.num form M ≠ atoi (text M p.ruleNum)
  let counted := (onMap (setAll (decimal (p.num form M)) (if change then p.counts else [])) M).2
  obtain ⟨c, hrows⟩ := saveRows_built hfits u (Nat.zero_add _) change counted
  have hrun : (onMap (saveRules u p form) M).2 = Function.update
      (onMap (saveRows u p form (p.num form M).toNat 0 change p.initial) counted).2 p.rule
      (kept (some (builtText p form (p.num form M).toNat))) := by
    unfold saveRules
    simp only [onMap_bind, onMap_safeGet]
    split
    · rename_i hnone
      exact absurd (hnone.symm.trans hrows) (Option.some_ne_none _).symm
    · rename_i hsome
      cases hsome.symm.trans hrows
      rfl
  have hother : ∀ m, m ≠ p.rule →
      (onMap (saveRows u p form (p.num form M).toNat 0 change p.initial) counted).2 m =
        counted m :=
    fun m hm => (confined_saveRows (P := (· = p.rule)) u rfl form _ 0 _ _).onMap hm _
  rw [hrun]
  refine ⟨?_, text_update_kept _ _ _⟩
  -- The number was there before, or it has been set.
  have hmax := atoi_bounds (text M p.ruleMax)
  have hsubmitted := atoi_bounds (getVar form (.ofString (p.stem ++ "_rule_num")) (.ofString "0"))
  have hread : atoi (decimal (p.num form M)) = p.num form M :=
    atoi_decimal (le_min hsubmitted.1 hmax.1) (min_lt_of_left_lt hsubmitted.2)
  rw [text, Function.update_of_ne hnamed.distinct, hother _ hnamed.distinct]
  simp only [counted, setAll_apply]
  by_cases hsame : p.num form M = atoi (text M p.ruleNum)
  · have hchange : change = false := by simp [change, hsame]
    simpa [hchange, text] using hsame.symm
  · have hchange : change = true := by simp [change, hsame]
    rw [hchange, if_pos rfl, if_pos hnamed.ruleNum]
    have hkept := text_update_kept M p.ruleNum (decimal (p.num form M))
    rw [text, Function.update_self] at hkept
    rw [hkept, hread]

end

end EzpFirmware.Httpd
