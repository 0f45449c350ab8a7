import EzpFirmware.UserNvram.RuleRewrites

/-! # Attributes put into rules

A release adds attributes to a rule, in between or at the end, and the way back
takes them out by their positions. On a rule without the new attribute the way
back takes out another one, or none.
-/
namespace EzpFirmware.UserNvram
open Lib

/-- A rule of `k` attributes that fits the buffers. -/
structure AttrRule (k : ℕ) (r : CStr) : Prop where
  fields : (r.fields ATTR_SEP).length = k
  short : r.len < BUF_LEN
  plain : PERCENT ∉ r.val

/-- The rule with one more attribute at position `j`. -/
def insertAttr (j : ℕ) (a r : CStr) : CStr :=
  joinAttrs ((r.fields ATTR_SEP).take j ++ a :: (r.fields ATTR_SEP).drop j)

/-- The rule without the attribute at position `j`. -/
def removeAttr (j : ℕ) (r : CStr) : CStr :=
  joinAttrs ((r.fields ATTR_SEP).take j ++ (r.fields ATTR_SEP).drop (j + 1))

/-- The rule with more attributes behind it. -/
def appendAttrs (t r : CStr) : CStr := CStr.glue ATTR_SEP ATTR_SEP_ne r t

/-- A byte that separates no rules and begins no conversion. -/
def PlainByte (b : UInt8) : Prop := b ≠ RULE_SEP ∧ b ≠ PERCENT

theorem plainByte_iff (s : CStr) : (∀ b ∈ s.val, PlainByte b) ↔ RULE_SEP ∉ s.val ∧ PERCENT ∉ s.val := by
  constructor
  · exact fun h => ⟨fun hb => (h _ hb).1 rfl, fun hb => (h _ hb).2 rfl⟩
  · rintro ⟨hrule, hpercent⟩ b hb
    exact ⟨fun h => hrule (h ▸ hb), fun h => hpercent (h ▸ hb)⟩

section
variable {a r s t x y : CStr} {fs gs : List CStr} {j k start stop : ℕ}

/-! ## Texts -/

theorem joinAttrs_len (hfs : fs ≠ []) :
    (joinAttrs fs).len + 1 = (fs.map fun f => f.len + 1).sum := CStr.join_len _ hfs

theorem attrs_ne_nil (r : CStr) : r.fields ATTR_SEP ≠ [] := CStr.fieldsOf_ne_nil _ _

theorem attr_free {f : CStr} (hf : f ∈ r.fields ATTR_SEP) : ATTR_SEP ∉ f.val :=
  CStr.not_mem_of_mem_fields hf

theorem count_joinAttrs (hfree : ∀ f ∈ fs, ATTR_SEP ∉ f.val) :
    (joinAttrs fs).val.count ATTR_SEP = fs.length - 1 := by
  by_cases hfs : fs = []
  · subst hfs
    rfl
  · have hlen := congrArg List.length (fields_joinAttrs hfs hfree)
    rw [CStr.length_fields] at hlen
    omega

/-- Two attributes or more make a rule that can be stored. -/
theorem storable_joinAttrs (hfs : 2 ≤ fs.length)
    (hbytes : ∀ f ∈ fs, RULE_SEP ∉ f.val ∧ PERCENT ∉ f.val) : Storable (joinAttrs fs) where
  ne h := by
    rcases (CStr.join_eq_empty_iff _).mp h with h | h
    · rw [h] at hfs
      exact absurd hfs (by decide)
    · rw [h] at hfs
      exact absurd hfs (by decide : ¬ 2 ≤ 1)
  free := joinAttrs_free fun f hf => (hbytes f hf).1
  plain h := by
    rcases CStr.mem_join h with h | ⟨f, hf, h⟩
    · exact absurd h (by decide)
    · exact (hbytes f hf).2 h

theorem attr_bytes (hfree : RULE_SEP ∉ r.val) (hplain : PERCENT ∉ r.val) :
    ∀ f ∈ r.fields ATTR_SEP, RULE_SEP ∉ f.val ∧ PERCENT ∉ f.val := by
  intro f hf
  refine ⟨free_of_mem_attrs hfree f hf, fun h => hplain ?_⟩
  rw [← joinAttrs_fields r]
  exact CStr.mem_join_of_mem hf h

theorem AttrRule.storable (hr : AttrRule k r) (hfree : RULE_SEP ∉ r.val) (hk : 2 ≤ k) :
    Storable r := by
  have h := storable_joinAttrs (hr.fields.symm ▸ hk) (attr_bytes hfree hr.plain)
  rwa [joinAttrs_fields] at h

/-- The attributes from a position on, up to the last or further. -/
theorem subrule_eq (hlen : (y.fields ATTR_SEP).length ≤ MAX_ATTR_NUM) :
    subrule y start stop = ((y.fields ATTR_SEP).take (stop + 1)).drop start := by
  rw [subrule, List.take_of_length_le hlen]

theorem subrule_sublist : (subrule y start stop).Sublist (y.fields ATTR_SEP) :=
  (List.drop_sublist _ _).trans ((List.take_sublist _ _).trans (List.take_sublist _ _))

/-- What is some of the attributes of a rule fits a buffer. -/
theorem AttrRule.fits (hr : AttrRule k r) (hfs : fs.Sublist (r.fields ATTR_SEP)) :
    (CStr.lines ATTR_SEP ATTR_SEP_ne fs).len ≤ BUF_LEN := by
  have hall : (CStr.lines ATTR_SEP ATTR_SEP_ne (r.fields ATTR_SEP)).len =
      (joinAttrs (r.fields ATTR_SEP)).len + 1 := CStr.lines_len _ (attrs_ne_nil r)
  rw [joinAttrs_fields] at hall
  exact (CStr.lines_len_le _ hfs).trans (hall ▸ hr.short)

/-! ## Prints -/

theorem printTmp_eq {parts : List CStr} (h : (CStr.concat parts).len < TMP_LEN) :
    printTmp parts = CStr.concat parts := take_of_len_le (Nat.le_sub_one_of_lt h)

theorem concat_front (hs : s.val = a.val ++ [ATTR_SEP]) (r : CStr) :
    CStr.concat [s, r] = CStr.glue ATTR_SEP ATTR_SEP_ne a r :=
  Subtype.ext (by simp [CStr.concat, CStr.append, CStr.glue, CStr.empty, hs])

theorem concat_behind (hs : s.val = ATTR_SEP :: t.val) (r : CStr) :
    CStr.concat [r, s] = appendAttrs t r :=
  Subtype.ext (by simp [CStr.concat, CStr.append, appendAttrs, CStr.glue, CStr.empty, hs])

theorem concat_between (hs : s.val = ATTR_SEP :: (a.val ++ [ATTR_SEP])) (x y : CStr) :
    CStr.concat [x, s, y] =
      CStr.glue ATTR_SEP ATTR_SEP_ne x (CStr.glue ATTR_SEP ATTR_SEP_ne a y) :=
  Subtype.ext (by simp [CStr.concat, CStr.append, CStr.glue, CStr.empty, hs])

theorem concat_sep (hs : s.val = [ATTR_SEP]) (x y : CStr) :
    CStr.concat [x, s, y] = CStr.glue ATTR_SEP ATTR_SEP_ne x y :=
  Subtype.ext (by simp [CStr.concat, CStr.append, CStr.glue, CStr.empty, hs])

/-! ## An attribute in between -/

theorem fields_insertAttr (ha : ATTR_SEP ∉ a.val) : (insertAttr j a r).fields ATTR_SEP =
    (r.fields ATTR_SEP).take j ++ a :: (r.fields ATTR_SEP).drop j := by
  apply fields_joinAttrs (List.append_ne_nil_of_right_ne_nil _ (List.cons_ne_nil _ _))
  intro f hf
  rcases List.mem_append.mp hf with hf | hf
  · exact attr_free (List.mem_of_mem_take hf)
  · rcases List.mem_cons.mp hf with rfl | hf
    · exact ha
    · exact attr_free (List.mem_of_mem_drop hf)

theorem removeAttr_insertAttr (ha : ATTR_SEP ∉ a.val) (hj : j ≤ (r.fields ATTR_SEP).length) :
    removeAttr j (insertAttr j a r) = r := by
  have htake : ((r.fields ATTR_SEP).take j).length = j := List.length_take_of_le hj
  rw [removeAttr, fields_insertAttr ha, List.take_left' htake, List.drop_append, htake,
    List.drop_eq_nil_of_le (by omega), Nat.add_sub_cancel_left, List.nil_append,
    List.drop_succ_cons, List.drop_zero, List.take_append_drop, joinAttrs_fields]

theorem insertAttr_len : (insertAttr j a r).len = r.len + (a.len + 1) := by
  have hnew := joinAttrs_len
    (List.append_ne_nil_of_right_ne_nil ((r.fields ATTR_SEP).take j)
      (List.cons_ne_nil a ((r.fields ATTR_SEP).drop j)))
  have hold := joinAttrs_len (attrs_ne_nil r)
  rw [joinAttrs_fields, ← List.take_append_drop j (r.fields ATTR_SEP)] at hold
  simp only [List.map_append, List.map_cons, List.sum_append, List.sum_cons] at hnew hold
  rw [insertAttr]
  omega

/-- Taking out an attribute makes a rule shorter. -/
theorem removeAttr_len (hj : j < (r.fields ATTR_SEP).length) (hk : 2 ≤ (r.fields ATTR_SEP).length) :
    (removeAttr j r).len < r.len := by
  have hne : (r.fields ATTR_SEP).take j ++ (r.fields ATTR_SEP).drop (j + 1) ≠ [] := by
    intro h
    have hlen := congrArg List.length h
    rw [List.length_append, List.length_take, List.length_drop, List.length_nil] at hlen
    omega
  have hnew := joinAttrs_len hne
  have hold := joinAttrs_len (attrs_ne_nil r)
  rw [joinAttrs_fields, ← List.take_append_drop j (r.fields ATTR_SEP),
    List.drop_eq_getElem_cons hj] at hold
  simp only [List.map_append, List.map_cons, List.sum_append, List.sum_cons] at hnew hold
  rw [removeAttr]
  omega

/-- An attribute is put in and taken out again, but from a rule without it another one is taken. -/
theorem AttrRule.insert (hr : AttrRule k r) (hfree : RULE_SEP ∉ r.val) (hj : j < k) (hk : 3 ≤ k)
    (ha : ATTR_SEP ∉ a.val ∧ RULE_SEP ∉ a.val ∧ PERCENT ∉ a.val) :
    Storable r ∧ Storable (insertAttr j a r) ∧ Storable (removeAttr j r) ∧
      (insertAttr j a r).len = r.len + (a.len + 1) ∧ removeAttr j (insertAttr j a r) = r ∧
      (removeAttr j r).len < r.len := by
  have hfields := hr.fields
  have hbytes := attr_bytes hfree hr.plain
  refine ⟨hr.storable hfree (by omega), ?_, ?_, insertAttr_len,
    removeAttr_insertAttr ha.1 (by omega), removeAttr_len (by omega) (by omega)⟩
  · apply storable_joinAttrs
    · rw [List.length_append, List.length_cons, List.length_take, List.length_drop]
      omega
    · intro f hf
      rcases List.mem_append.mp hf with hf | hf
      · exact hbytes f (List.mem_of_mem_take hf)
      · rcases List.mem_cons.mp hf with rfl | hf
        · exact ha.2
        · exact hbytes f (List.mem_of_mem_drop hf)
  · apply storable_joinAttrs
    · rw [List.length_append, List.length_take, List.length_drop]
      omega
    · intro f hf
      rcases List.mem_append.mp hf with hf | hf
      · exact hbytes f (List.mem_of_mem_take hf)
      · exact hbytes f (List.mem_of_mem_drop hf)

/-! ## Attributes at the end -/

/-- The first `k` attributes of a rule of `k` are the rule, whether or not there are more behind. -/
theorem AttrRule.take_append (hr : AttrRule k r) :
    (r.fields ATTR_SEP).take k = r.fields ATTR_SEP ∧
      ((appendAttrs t r).fields ATTR_SEP).take k = r.fields ATTR_SEP :=
  ⟨List.take_of_length_le hr.fields.le, by
    rw [appendAttrs, CStr.fields_glue_append]
    exact List.take_left' hr.fields⟩

/-- The call for the first `k` attributes gives the rule. -/
theorem AttrRule.subrule_append (hr : AttrRule k r) (hy : y = r ∨ y = appendAttrs t r)
    (hk : k ≤ MAX_ATTR_NUM) (hpos : 0 < k) : subrule y 0 (k - 1) = r.fields ATTR_SEP := by
  obtain ⟨hown, hmore⟩ := hr.take_append (t := t)
  have hstop : k - 1 + 1 = k := by omega
  rw [subrule, List.take_take, hstop, Nat.min_eq_left hk, List.drop_zero]
  rcases hy with rfl | rfl
  · exact hown
  · exact hmore

/-- Attributes are put behind a rule. -/
theorem AttrRule.append (hr : AttrRule k r) (hfree : RULE_SEP ∉ r.val) (hk : 2 ≤ k)
    (ht : RULE_SEP ∉ t.val ∧ PERCENT ∉ t.val) :
    Storable r ∧ Storable (appendAttrs t r) ∧ r.len < (appendAttrs t r).len := by
  refine ⟨hr.storable hfree hk, ⟨?_, ?_, ?_⟩, ?_⟩
  · intro h
    have hlen := congrArg CStr.len h
    rw [appendAttrs, CStr.glue_len, CStr.empty_len] at hlen
    omega
  · simp only [appendAttrs, CStr.glue, List.mem_append, List.mem_cons, not_or]
    exact ⟨hfree, by decide, ht.1⟩
  · simp only [appendAttrs, CStr.glue, List.mem_append, List.mem_cons, not_or]
    exact ⟨hr.plain, by decide, ht.2⟩
  · rw [appendAttrs, CStr.glue_len]
    omega

end

end EzpFirmware.UserNvram
