import EzpFirmware.UserNvram.AttrLayouts

/-! # Loops between two releases

The way up puts attributes into the rules of a set, and the way down takes them
out. On the way down a rule can still be one of the older release, because there
was no room for the new attributes.
-/
namespace EzpFirmware.UserNvram
open Lib

section
variable {u : Unspecified} {M : Variables} {ruleSet r t y : CStr} {k : ℕ}
  {up down : CStr → CStr} {p : ℕ → Migration CStr}

/-! ## Rules of either release -/

/-- A rule of either release. -/
def Either (k : ℕ) (up : CStr → CStr) (y : CStr) : Prop :=
  ∃ r, AttrRule k r ∧ (y = r ∨ y = up r)

theorem concat_two_len (x y : CStr) : (CStr.concat [x, y]).len = x.len + y.len := by
  simp only [CStr.concat, CStr.append_len, CStr.empty_len]
  omega

/-- The attributes around a new one are attributes of the old rule. -/
theorem Either.fits {a : CStr} {j start stop : ℕ} (hy : Either k (insertAttr j a) y)
    (ha : ATTR_SEP ∉ a.val) (hj : j ≤ k) (hout : stop < j ∨ j < start) :
    (CStr.lines ATTR_SEP ATTR_SEP_ne (subrule y start stop)).len ≤ BUF_LEN := by
  obtain ⟨r, hr, rfl | rfl⟩ := hy
  · exact hr.fits subrule_sublist
  · apply hr.fits
    have htake : ((r.fields ATTR_SEP).take j).length = j :=
      List.length_take_of_le (hj.trans hr.fields.ge)
    rw [subrule, fields_insertAttr ha, List.take_take]
    rcases hout with hlow | hhigh
    · rw [List.take_append_of_le_length (by omega)]
      exact (List.drop_sublist _ _).trans ((List.take_sublist _ _).trans (List.take_sublist _ _))
    · have hdrop : ((r.fields ATTR_SEP).take j ++ a :: (r.fields ATTR_SEP).drop j).drop (j + 1) =
          (r.fields ATTR_SEP).drop j := by
        rw [List.drop_append, htake, List.drop_eq_nil_of_le (by omega), Nat.add_sub_cancel_left,
          List.nil_append, List.drop_succ_cons, List.drop_zero]
      have hsub := ((List.take_sublist (min (stop + 1) MAX_ATTR_NUM)
        ((r.fields ATTR_SEP).take j ++ a :: (r.fields ATTR_SEP).drop j)).drop start).trans
        (List.drop_sublist_drop_left _ (Nat.succ_le_of_lt hhigh))
      rw [hdrop] at hsub
      exact hsub.trans (List.drop_sublist _ _)

/-- What is known of a rule of either release. -/
theorem Either.fields {a : CStr} {j : ℕ} (hy : Either k (insertAttr j a) y)
    (ha : ATTR_SEP ∉ a.val) (hj : j ≤ k) :
    k ≤ (y.fields ATTR_SEP).length ∧ (y.fields ATTR_SEP).length ≤ k + 1 ∧
      y.len < BUF_LEN + (a.len + 1) := by
  obtain ⟨r, hr, rfl | rfl⟩ := hy
  · have hshort := hr.short
    exact ⟨hr.fields.ge, by rw [hr.fields]; omega, by omega⟩
  · have hshort := hr.short
    have hfields := hr.fields
    rw [fields_insertAttr ha, insertAttr_len, List.length_append, List.length_cons,
      List.length_take, List.length_drop]
    omega

/-- What is printed behind a whole rule. -/
theorem AttrRule.print_append (hr : AttrRule k r) {s : CStr} (hs : s.val = ATTR_SEP :: t.val)
    (hlen : s.len ≤ TMP_LEN - BUF_LEN) : printTmp [r, s] = appendAttrs t r := by
  rw [printTmp_eq, concat_behind hs]
  rw [concat_two_len]
  have hshort := hr.short
  have hsize : BUF_LEN ≤ TMP_LEN := by decide
  omega

theorem append_up {s : CStr} (hs : s.val = ATTR_SEP :: t.val) (hlen : s.len ≤ TMP_LEN - BUF_LEN) :
    Computes ruleSet (AttrRule k) (appendAttrs t) (fun i => do
      let buf ← ruleText u ruleSet i
      pure (printTmp [buf, s])) :=
  ((computes_rule fun _ hr => hr.short).map fun buf => printTmp [buf, s]).congr
    fun _ hr => hr.print_append hs hlen

/-- The first `k` attributes. -/
def firstAttrs (k : ℕ) (y : CStr) : CStr := joinAttrs (subrule y 0 (k - 1))

theorem AttrRule.firstAttrs (hr : AttrRule k r) (hk : k ≤ MAX_ATTR_NUM) (hpos : 0 < k) :
    UserNvram.firstAttrs k r = r ∧ UserNvram.firstAttrs k (appendAttrs t r) = r := by
  constructor
  · rw [UserNvram.firstAttrs, hr.subrule_append (t := t) (.inl rfl) hk hpos, joinAttrs_fields]
  · rw [UserNvram.firstAttrs, hr.subrule_append (t := t) (.inr rfl) hk hpos, joinAttrs_fields]

theorem append_down (hk : k ≤ MAX_ATTR_NUM) (hpos : 0 < k) :
    Computes ruleSet (Either k (appendAttrs t)) (UserNvram.firstAttrs k)
      (subruleText u ruleSet · 0 (k - 1)) := by
  apply computes_subrule (Nat.zero_le _)
  rintro y ⟨r, hr, hy⟩
  rw [hr.subrule_append hy hk hpos]
  exact hr.fits (List.Sublist.refl _)

/-! ## The loops over one set -/

/-- One variable changes, and the others are as before. -/
def Changes (M M' : Variables) (name : CStr) (value : Option CStr) : Prop :=
  M' name = value ∧ ∀ m ≠ name, M' m = M m

theorem changes_update (M : Variables) (name : CStr) (value : Option CStr) :
    Changes M (Function.update M name value) name value :=
  ⟨Function.update_self _ _ _, fun _ hm => Function.update_of_ne hm _ _⟩

/-- Neither way makes a rule one that cannot be stored. -/
def StaysStorable (k : ℕ) (up down : CStr → CStr) : Prop :=
  ∀ r, RULE_SEP ∉ r.val → AttrRule k r →
    Storable r ∧ Storable (up r) ∧ Storable (down r) ∧ Storable (down (up r))

theorem stays_first (hk : 2 ≤ k) (hmax : k ≤ MAX_ATTR_NUM)
    (ht : RULE_SEP ∉ t.val ∧ PERCENT ∉ t.val) : StaysStorable k (appendAttrs t) (firstAttrs k) := by
  intro r hfree hr
  obtain ⟨hr', happ, -⟩ := hr.append hfree hk ht
  obtain ⟨hown, hmore⟩ := hr.firstAttrs (t := t) hmax (by omega)
  rw [hown, hmore]
  exact ⟨hr', happ, hr', hr'⟩

/-- The way up for one set. -/
theorem eachRule_up (u : Unspecified) (M : Variables) (ruleSet : CStr) (nrule : ℤ)
    {value : Option CStr} (hset : ruleSet ≠ CStr.empty)
    (hvalue : Formatted (AttrRule k) nrule.toNat value) (hM : M ruleSet = value)
    (hstays : StaysStorable k up down) (hp : Computes ruleSet (AttrRule k) up p) :
    ∃ M', runOn (eachRule u ruleSet nrule p) M = (.ok (), M') ∧
      Changes M M' ruleSet (rewriteSet up nrule.toNat value) := by
  subst hM
  exact ⟨_, eachRule_run hset (hvalue.imp fun r hfree hr =>
    ⟨hr, (hstays r hfree hr).1, (hstays r hfree hr).2.1⟩) hp, changes_update _ _ _⟩

/-- The way down for one set, after the way up. -/
theorem eachRule_down (u : Unspecified) (M : Variables) (ruleSet : CStr) (nrule : ℤ)
    {value : Option CStr} (hset : ruleSet ≠ CStr.empty)
    (hvalue : Formatted (AttrRule k) nrule.toNat value)
    (hM : M ruleSet = rewriteSet up nrule.toNat value)
    (hstays : StaysStorable k up down) (hp : Computes ruleSet (Either k up) down p) :
    ∃ M', runOn (eachRule u ruleSet nrule p) M = (.ok (), M') ∧
      Changes M M' ruleSet (rewriteSet down nrule.toNat (rewriteSet up nrule.toNat value)) := by
  have hformat : Formatted (fun y => Either k up y ∧ Storable y ∧ Storable (down y)) nrule.toNat
      (M ruleSet) := by
    rw [hM]
    apply hvalue.rewrite
    intro r hfree hr
    obtain ⟨hr', hupr, hdown, hback⟩ := hstays r hfree hr
    exact ⟨hr', hupr, ⟨⟨r, hr, .inl rfl⟩, hr', hdown⟩, ⟨⟨r, hr, .inr rfl⟩, hupr, hback⟩⟩
  rw [← hM]
  exact ⟨_, eachRule_run hset hformat hp, changes_update _ _ _⟩

/-- One round is a loop of one round. -/
theorem replaceBy_zero (p : ℕ → Migration CStr) (M : Variables) :
    runOn (replaceBy u ruleSet p 0) M = runOn (eachRule u ruleSet 1 p) M := by
  have hnone : runOn (forEach (replaceBy u ruleSet p) []) M = (.ok (), M) := rfl
  exact (runOn_forEach_concat hnone 0).symm

/-- A rewrite of an attribute in a table that has an end. -/
theorem replaceAttr_ended (u : Unspecified) (M : Variables) {ruleSet : CStr} (nth : ℤ)
    (attrName newAttr : CStr) (hended : ∀ v ∈ rules, v.name = ruleSet → none ∈ v.attr) :
    ∃ c M', runOn (ExceptT.mk (InMemory.ezplibReplaceAttr u ruleSet nth attrName newAttr)) M =
      (.ok c, M') ∧ ∀ m ≠ ruleSet, M' m = M m := by
  have hok : ∃ c, (onMap (InMemory.ezplibReplaceAttr u ruleSet nth attrName newAttr) M).1 =
      .ok c := by
    rw [InMemory.ezplibReplaceAttr]
    split_ifs
    · exact ⟨_, rfl⟩
    · rw [onMap_bind]
      split_ifs
      · exact ⟨_, rfl⟩
      · cases hfind : rules.find? fun v => v.name = ruleSet with
        | none => exact ⟨_, rfl⟩
        | some v =>
          have hname : v.name = ruleSet := by simpa using List.find?_some hfind
          have hend := hended v (List.mem_of_find?_eq_some hfind) hname
          obtain ⟨x, hx⟩ := InMemory.replaceScan_isOk_iff.mpr (.inl hend)
          dsimp only
          rw [hx]
          cases x with
          | none => exact ⟨_, rfl⟩
          | some tmp =>
            rw [InMemory.replaced, onMap_bind]
            exact ⟨_, rfl⟩
  obtain ⟨c, hc⟩ := hok
  have hrun : onMap (InMemory.ezplibReplaceAttr u ruleSet nth attrName newAttr) M =
      (.ok c, (onMap (InMemory.ezplibReplaceAttr u ruleSet nth attrName newAttr) M).2) :=
    Prod.ext hc rfl
  have hmap := InMemory.ezplibReplaceAttr_refines hrun
  refine ⟨c, _, hrun, fun m hm => ?_⟩
  have hframe := (confined_replaceAttr (P := (· = ruleSet)) u rfl (rules.map RuleTable.toRule) nth
    attrName newAttr).onMap hm M
  rwa [hmap] at hframe

/-! ## Variables -/

/-- The variables of a list, and no others. -/
def listed (rows : List (String × CStr)) : Variables := fun m =>
  (rows.find? fun row => CStr.ofString row.1 = m).map Prod.snd

theorem formatted_none (P : CStr → Prop) (n : ℕ) : Formatted P n none := fun _ h => nomatch h

/-- A set with one rule. -/
theorem formatted_one {k n : ℕ} {text : CStr} (hne : text ≠ CStr.empty) (hfree : RULE_SEP ∉ text.val)
    (hr : AttrRule k text) : Formatted (AttrRule k) n (some text) := by
  intro text' htext
  cases htext
  refine ⟨fun r hmem => ?_, fun h => absurd h hne⟩
  rw [storedRules_of_ne hne, CStr.fields_of_not_mem hfree, List.mem_singleton] at hmem
  exact hmem ▸ hr

end

end EzpFirmware.UserNvram
