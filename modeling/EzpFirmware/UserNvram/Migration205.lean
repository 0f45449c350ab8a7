import EzpFirmware.UserNvram.Protected
import EzpFirmware.UserNvram.ReleaseLoops

/-! # Between the releases 2.0.4 and 2.0.5

The newer release has more attributes for storage and for the firewall, fewer for a VLAN, and more
room for bandwidth rules. The way back returns in front of the last step, so the room stays.
-/
namespace EzpFirmware.UserNvram
open Lib

/-- What `snprintf` leaves in `buf` for the parts of a format. -/
def printBuf (parts : List CStr) : CStr := (CStr.concat parts).take (BUF_LEN - 1)

/-- The sets that limit the bandwidth rules. -/
def bwMaxima : List CStr :=
  [.ofString "bw_rule_max", .ofString "bw_sbm_rule_max", .ofString "bw_dbm_rule_max"]

/-- The calls that replace them. -/
def replaceMaxima (u : Unspecified) (value : CStr) : Migration Unit := do
  let _ ← (ezplibReplaceRule u (.ofString "bw_rule_max") 0 value : Api ℤ)
  let _ ← (ezplibReplaceRule u (.ofString "bw_sbm_rule_max") 0 value : Api ℤ)
  let _ ← (ezplibReplaceRule u (.ofString "bw_dbm_rule_max") 0 value : Api ℤ)

/-- `fw_func_2_0_4_to_2_0_5`. -/
def fwFunc204To205 (table : NvramDefault) (u : Unspecified) : Migration ℤ := do
  replaceBy u (.ofString "storage_rule") (fun i => do
    let tmp ← ruleText u (.ofString "storage_rule") i
    pure (printBuf [tmp, .ofString "^0^^^^^"])) 0
  replaceBy u (.ofString "fw_rule") (fun i => do
    let tmp ← ruleText u (.ofString "fw_rule") i
    pure (printBuf [tmp, .ofString "^0"])) 0
  let num := atoi (← (nvramSafeGet (.ofString "vlan_rule_num") : Api CStr))
  eachRule u (.ofString "vlan_rule") num (subruleText u (.ofString "vlan_rule") · 0 4)
  let _ ← (nvramDefaultRule table (.ofString "vlanport_rule") : Api Unit)
  let tmp ← ruleText u (.ofString "prod_subcat") 0
  if tmp = .ofString "2" then replaceMaxima u (.ofString "32")
  if tmp = .ofString "3" ∨ tmp = .ofString "4" then replaceMaxima u (.ofString "64")
  pure 0

/-- `fw_func_2_0_5_to_2_0_4`. The maxima stand behind its `return`. -/
def fwFunc205To204 (u : Unspecified) : Migration ℤ := do
  replaceBy u (.ofString "storage_rule") (subruleText u (.ofString "storage_rule") · 0 2) 0
  replaceBy u (.ofString "fw_rule") (subruleText u (.ofString "fw_rule") · 0 5) 0
  let num := atoi (← (nvramSafeGet (.ofString "vlan_rule_num") : Api CStr))
  eachRule u (.ofString "vlan_rule") num fun i => do
    let tmp ← subruleText u (.ofString "vlan_rule") i 0 4
    pure (printBuf [tmp, .ofString "^0000001^"])
  let _ ← (Api.set (.ofString "vlanport_rule") none : Api ℤ)
  let _ ← (Api.set (.ofString "vlanport_rule_num") none : Api ℤ)
  let _ ← (Api.set (.ofString "vlanport_rule_max") none : Api ℤ)
  pure 0

/-- A rule of `k` attributes that is shorter than 200 bytes. -/
structure ShortRule (k : ℕ) (r : CStr) : Prop extends AttrRule k r where
  below : r.len < 200

/-- The maxima of a product. -/
def HasMaxima (M : Variables) (value : CStr) : Prop := ∀ name ∈ bwMaxima, M name = some value

/-- A configuration of release 2.0.4. -/
structure Config204 (M : Variables) : Prop where
  storage : Formatted (ShortRule 3) 1 (M (.ofString "storage_rule"))
  fw : Formatted (ShortRule 6) 1 (M (.ofString "fw_rule"))
  vlan : Formatted (ShortRule 7) (atoi (text M (.ofString "vlan_rule_num"))).toNat
    (M (.ofString "vlan_rule"))
  maxima : M (.ofString "prod_subcat") = some (.ofString "2") ∧ HasMaxima M (.ofString "8") ∨
    (M (.ofString "prod_subcat") = some (.ofString "3") ∨
      M (.ofString "prod_subcat") = some (.ofString "4")) ∧ HasMaxima M (.ofString "32")

/-- The first five attributes of the rules of a set. -/
def firstFive (value : Option CStr) : Option (List (List CStr)) :=
  value.map fun text => (storedRules text).map fun r => (r.fields ATTR_SEP).take 5

/-- The rules come back as far as the older release has them. -/
structure RulesBack (M M'' : Variables) : Prop where
  storage : M'' (.ofString "storage_rule") = M (.ofString "storage_rule")
  fw : M'' (.ofString "fw_rule") = M (.ofString "fw_rule")
  vlan : firstFive (M'' (.ofString "vlan_rule")) = firstFive (M (.ofString "vlan_rule"))

/-- The way to 2.0.5 and back gives the rules and the maxima back. -/
def RoundTrips205 (table : NvramDefault) (u : Unspecified) (M : Variables) : Prop :=
  ∃ M' M'', runOn (fwFunc204To205 table u) M = (.ok 0, M') ∧
    runOn (fwFunc205To204 u) M' = (.ok 0, M'') ∧ RulesBack M M'' ∧
    ∀ name ∈ bwMaxima, M'' name = M name

section
variable {u : Unspecified} {M : Variables} {ruleSet name r t y : CStr} {k : ℕ}

/-! ## What a round makes of a rule -/

theorem printBuf_eq {parts : List CStr} (h : (CStr.concat parts).len < BUF_LEN) :
    printBuf parts = CStr.concat parts :=
  Subtype.ext (List.take_of_length_le (Nat.le_pred_of_lt h))

/-- Attributes behind a rule. -/
theorem printBuf_append {s : CStr} (hs : s.val = ATTR_SEP :: t.val) (hlen : r.len + s.len < BUF_LEN) :
    printBuf [r, s] = appendAttrs t r := by
  rw [printBuf_eq, concat_behind hs]
  rwa [concat_two_len]

theorem shortRule_up {s : CStr} (hs : s.val = ATTR_SEP :: t.val) (hlen : s.len ≤ 50) :
    Computes ruleSet (ShortRule k) (appendAttrs t) (fun i => do
      let tmp ← ruleText u ruleSet i
      pure (printBuf [tmp, s])) := by
  apply ((computes_rule fun _ hr => hr.short).map fun tmp => printBuf [tmp, s]).congr
  intro r hr
  apply printBuf_append hs
  have hbelow := hr.below
  change r.len + s.len < 256
  omega

/-- The rule of a VLAN for the newer release. -/
def vlanUp (r : CStr) : CStr := joinAttrs (subrule r 0 4)

/-- The text behind the rule of a VLAN. -/
def VLAN_TAG : CStr := .ofString "0000001^"

/-- The rule for the older one. -/
def vlanDown (y : CStr) : CStr := appendAttrs VLAN_TAG (vlanUp y)

/-- A rule of the set between the two ways. -/
def VlanEither (y : CStr) : Prop := ∃ r, ShortRule 7 r ∧ (y = r ∨ y = vlanUp r)

theorem ShortRule.vlanUp_fields (hr : ShortRule 7 r) :
    (vlanUp r).fields ATTR_SEP = (r.fields ATTR_SEP).take 5 := by
  have hsub : subrule r 0 4 = (r.fields ATTR_SEP).take 5 := by
    rw [subrule_eq (hr.fields.le.trans (by decide)), List.drop_zero]
  have hne : subrule r 0 4 ≠ [] := by
    intro h
    have hlen := congrArg List.length (hsub.symm.trans h)
    rw [List.length_take, hr.fields] at hlen
    exact absurd hlen (by decide)
  rw [vlanUp, fields_joinAttrs hne fun f hf => attr_free (subrule_sublist.subset hf), hsub]

theorem ShortRule.vlanUp_len (hr : ShortRule 7 r) : (vlanUp r).len ≤ r.len := by
  have hne : subrule r 0 4 ≠ [] := by
    intro h
    have hfields := hr.vlanUp_fields
    rw [vlanUp, h] at hfields
    have hlen := congrArg List.length hfields
    rw [List.length_take, hr.fields] at hlen
    exact absurd hlen (by decide)
  have hle : (CStr.lines ATTR_SEP ATTR_SEP_ne (subrule r 0 4)).len ≤
      (CStr.lines ATTR_SEP ATTR_SEP_ne (r.fields ATTR_SEP)).len :=
    CStr.lines_len_le _ subrule_sublist
  rw [CStr.lines_len _ hne, CStr.lines_len _ (attrs_ne_nil r)] at hle
  have hall := congrArg CStr.len (joinAttrs_fields r)
  rw [joinAttrs] at hall
  rw [vlanUp, joinAttrs]
  omega

/-- Both forms of a rule have its first five attributes. -/
theorem VlanEither.spec (hy : VlanEither y) : ∃ r, ShortRule 7 r ∧
    (y.fields ATTR_SEP).take 5 = (r.fields ATTR_SEP).take 5 ∧ vlanUp y = vlanUp r ∧
      y.len ≤ r.len := by
  obtain ⟨r, hr, rfl | rfl⟩ := hy
  · exact ⟨y, hr, rfl, rfl, le_rfl⟩
  · have hfields := hr.vlanUp_fields
    have htake : ((vlanUp r).fields ATTR_SEP).take 5 = (r.fields ATTR_SEP).take 5 := by
      rw [hfields, List.take_take, Nat.min_self]
    refine ⟨r, hr, htake, ?_, hr.vlanUp_len⟩
    have hlen : ((vlanUp r).fields ATTR_SEP).length ≤ MAX_ATTR_NUM := by
      rw [hfields]
      exact (List.length_take_le _ _).trans (by decide)
    change joinAttrs (subrule (vlanUp r) 0 4) = joinAttrs (subrule r 0 4)
    rw [subrule_eq hlen, subrule_eq (hr.fields.le.trans (by decide)), htake]

theorem VlanEither.down_fields (hy : VlanEither y) :
    ((vlanDown y).fields ATTR_SEP).take 5 = (y.fields ATTR_SEP).take 5 := by
  obtain ⟨r, hr, hfive, hup, -⟩ := hy.spec
  have hlen : ((vlanUp r).fields ATTR_SEP).length = 5 := by
    rw [hr.vlanUp_fields, List.length_take, hr.fields]
    rfl
  rw [vlanDown, hup, appendAttrs, CStr.fields_glue_append, List.take_left' hlen, hr.vlanUp_fields,
    hfive]

theorem ShortRule.vlanUp_storable (hr : ShortRule 7 r) (hfree : RULE_SEP ∉ r.val) :
    Storable (vlanUp r) := by
  have hlen : 2 ≤ ((vlanUp r).fields ATTR_SEP).length := by
    rw [hr.vlanUp_fields, List.length_take, hr.fields]
    decide
  have h := storable_joinAttrs hlen fun f hf => attr_bytes hfree hr.plain f
    (List.mem_of_mem_take (hr.vlanUp_fields ▸ hf))
  rwa [joinAttrs_fields] at h

/-- Attributes behind a rule that can be stored. -/
theorem storable_appendAttrs (hr : Storable r) (ht : RULE_SEP ∉ t.val ∧ PERCENT ∉ t.val) :
    Storable (appendAttrs t r) := by
  refine ⟨fun h => ?_, ?_, ?_⟩
  · have hlen := congrArg CStr.len h
    rw [appendAttrs, CStr.glue_len, CStr.empty_len] at hlen
    omega
  · simp only [appendAttrs, CStr.glue, List.mem_append, List.mem_cons, not_or]
    exact ⟨hr.free, by decide, ht.1⟩
  · simp only [appendAttrs, CStr.glue, List.mem_append, List.mem_cons, not_or]
    exact ⟨hr.plain, by decide, ht.2⟩

theorem vlan_up : Computes ruleSet (ShortRule 7) vlanUp (subruleText u ruleSet · 0 4) :=
  computes_subrule (by decide) fun _ hr => hr.fits subrule_sublist

theorem vlan_down : Computes ruleSet VlanEither vlanDown (fun i => do
    let tmp ← subruleText u ruleSet i 0 4
    pure (printBuf [tmp, .ofString "^0000001^"])) := by
  have hfits : ∀ y, VlanEither y →
      (CStr.lines ATTR_SEP ATTR_SEP_ne (subrule y 0 4)).len ≤ BUF_LEN := by
    rintro y ⟨r, hr, rfl | rfl⟩
    · exact hr.fits subrule_sublist
    · apply hr.fits
      apply subrule_sublist.trans
      rw [hr.vlanUp_fields]
      exact List.take_sublist _ _
  apply ((computes_subrule (by decide) hfits).map
    fun tmp => printBuf [tmp, .ofString "^0000001^"]).congr
  intro y hy
  obtain ⟨r, hr, -, hup, -⟩ := hy.spec
  have hlen := hr.vlanUp_len
  have hbelow := hr.below
  have htag : (CStr.ofString "^0000001^").len = 9 := by decide
  apply printBuf_append (t := VLAN_TAG) (by decide)
  change (vlanUp y).len + _ < 256
  rw [hup, htag]
  omega

/-! ## Sets with one rule -/

theorem holdsRules_single (hname : name ≠ CStr.empty) (hM : M name = some r) (hr : Storable r) :
    HoldsRules M name [r] :=
  ⟨hname, hM, List.cons_ne_nil _ _, fun _ hx => List.mem_singleton.mp hx ▸ hr⟩

theorem ruleText_one (hname : name ≠ CStr.empty) (hM : M name = some r) (hr : Storable r)
    (hlen : r.len < BUF_LEN) : runOn (ruleText u name 0) M = (.ok r, M) := by
  have hcomputes : Computes name (fun r => r.len < BUF_LEN) id (ruleText u name) :=
    computes_rule fun _ h => h
  obtain ⟨w, hrun, hw⟩ := hcomputes.rule M [r] 0 (holdsRules_single hname hM hr) fun _ hx => by
    cases hx
    exact hlen
  rw [hrun, hw r rfl]
  · rfl
  · change r.len + 1 + 0 ≤ 8192
    rw [BUF_LEN] at hlen
    omega

theorem replaceRule_one {old value : CStr} (hname : name ≠ CStr.empty) (hM : M name = some old)
    (hold : Storable old) (hvalue : Storable value) (hroom : old.len < BUF_LEN)
    (hlen : value.len < BUF_LEN) :
    (onMap (ezplibReplaceRule u name 0 value) M).2 = Function.update M name (some value) := by
  have hrun := (holdsRules_single hname hM hold).replaceRule (u := u) (i := 0) (w := value)
    fun _ _ => hvalue
  have hfit : total ruleSize [old] ≤ EZPLIB_BUF_LEN ∧ total ruleSize [value] < EZPLIB_BUF_LEN := by
    rw [BUF_LEN] at hroom hlen
    change old.len + 1 + 0 ≤ 8192 ∧ value.len + 1 + 0 < 8192
    omega
  rw [replaceAt, List.set_cons_zero, if_pos hfit] at hrun
  exact hrun

theorem storable_number : ∀ value ∈ ["2", "3", "4", "8", "32", "64"].map CStr.ofString,
    Storable value ∧ value.len < BUF_LEN := by
  have hall : ∀ value ∈ ["2", "3", "4", "8", "32", "64"].map CStr.ofString,
      value ≠ CStr.empty ∧ RULE_SEP ∉ value.val ∧ PERCENT ∉ value.val ∧ value.len < BUF_LEN := by
    decide +kernel
  intro value h
  obtain ⟨hne, hfree, hplain, hlen⟩ := hall value h
  exact ⟨⟨hne, hfree, hplain⟩, hlen⟩

theorem replaceMaxima_run {old : CStr} (value : CStr)
    (hold : old ∈ ["2", "3", "4", "8", "32", "64"].map CStr.ofString)
    (hvalue : value ∈ ["2", "3", "4", "8", "32", "64"].map CStr.ofString) (hM : HasMaxima M old) :
    ∃ M', runOn (replaceMaxima u value) M = (.ok (), M') ∧ HasMaxima M' value ∧
      ∀ m ∉ bwMaxima, M' m = M m := by
  obtain ⟨hold, holdlen⟩ := storable_number _ hold
  obtain ⟨hvalue, hlen⟩ := storable_number _ hvalue
  have hstep : ∀ (M : Variables) (name : CStr), name ≠ CStr.empty → M name = some old →
      ∃ M', (onMap (ezplibReplaceRule u name 0 value) M).2 = M' ∧
        Changes M M' name (some value) := by
    intro M name hname hM
    exact ⟨_, replaceRule_one hname hM hold hvalue holdlen hlen, changes_update M name _⟩
  simp only [HasMaxima, bwMaxima, List.forall_mem_cons] at hM
  obtain ⟨h1, h2, h3, -⟩ := hM
  obtain ⟨M1, run1, val1, rest1⟩ := hstep M (.ofString "bw_rule_max") (by decide) h1
  obtain ⟨M2, run2, val2, rest2⟩ := hstep M1 (.ofString "bw_sbm_rule_max") (by decide)
    ((rest1 _ (by decide)).trans h2)
  obtain ⟨M3, run3, val3, rest3⟩ := hstep M2 (.ofString "bw_dbm_rule_max") (by decide)
    ((rest2 _ (by decide)).trans ((rest1 _ (by decide)).trans h3))
  refine ⟨M3, ?_, ?_, ?_⟩
  · rw [replaceMaxima, runOn_bind, runOn_lift, run1]
    dsimp only
    rw [runOn_bind, runOn_lift, run2]
    dsimp only
    rw [runOn_bind, runOn_lift, run3]
    rfl
  · simp only [HasMaxima, bwMaxima, List.forall_mem_cons]
    exact ⟨(rest3 _ (by decide)).trans ((rest2 _ (by decide)).trans val1),
      (rest3 _ (by decide)).trans val2, val3, fun _ h => absurd h List.not_mem_nil⟩
  · intro m hm
    simp only [bwMaxima, List.mem_cons, List.not_mem_nil, or_false, not_or] at hm
    rw [rest3 m hm.2.2, rest2 m hm.2.1, rest1 m hm.1]

/-! ## Both ways -/

/-- The text that goes behind the rule for storage. -/
def STORAGE : CStr := .ofString "0^^^^^"

/-- The text that goes behind the rule of the firewall. -/
def BC_STORM : CStr := .ofString "0"

/-- The sets of the newer release. -/
structure Upgraded205 (M M' : Variables) : Prop where
  storage : M' (.ofString "storage_rule") =
    rewriteSet (appendAttrs STORAGE) 1 (M (.ofString "storage_rule"))
  fw : M' (.ofString "fw_rule") = rewriteSet (appendAttrs BC_STORM) 1 (M (.ofString "fw_rule"))
  vlan : M' (.ofString "vlan_rule") = rewriteSet vlanUp
    (atoi (text M (.ofString "vlan_rule_num"))).toNat (M (.ofString "vlan_rule"))
  num : M' (.ofString "vlan_rule_num") = M (.ofString "vlan_rule_num")
  maxima : ∃ old new, old ≠ new ∧ HasMaxima M old ∧ HasMaxima M' new

/-- A loop over a set changes the set alone. -/
theorem eachRule_changes {P : CStr → Prop} {f : CStr → CStr} {p : ℕ → Migration CStr}
    (M : Variables) (nrule : ℤ) (hset : ruleSet ≠ CStr.empty) {value : Option CStr}
    (hvalue : Formatted (fun r => P r ∧ Storable r ∧ Storable (f r)) nrule.toNat value)
    (hM : M ruleSet = value) (hp : Computes ruleSet P f p) :
    ∃ M', runOn (eachRule u ruleSet nrule p) M = (.ok (), M') ∧
      Changes M M' ruleSet (rewriteSet f nrule.toNat value) := by
  subst hM
  exact ⟨_, eachRule_run hset hvalue hp, changes_update M ruleSet _⟩

/-- Attributes are put behind the rules of a set with one rule to rewrite. -/
theorem append_run (M : Variables) {s : CStr} (hset : ruleSet ≠ CStr.empty) (hk : 2 ≤ k)
    (ht : RULE_SEP ∉ t.val ∧ PERCENT ∉ t.val) (hs : s.val = ATTR_SEP :: t.val) (hlen : s.len ≤ 50)
    {value : Option CStr} (hvalue : Formatted (ShortRule k) 1 value) (hM : M ruleSet = value) :
    ∃ M', runOn (replaceBy u ruleSet (fun i => do
      let tmp ← ruleText u ruleSet i
      pure (printBuf [tmp, s])) 0) M = (.ok (), M') ∧
        Changes M M' ruleSet (rewriteSet (appendAttrs t) 1 value) := by
  subst hM
  have hform : Formatted (fun r => ShortRule k r ∧ Storable r ∧ Storable (appendAttrs t r))
      (1 : ℤ).toNat (M ruleSet) := by
    apply Formatted.imp hvalue
    intro r hfree hr
    obtain ⟨hr', happ, -⟩ := hr.append hfree hk ht
    exact ⟨hr, hr', happ⟩
  obtain ⟨M', hrun, hM'⟩ := eachRule_changes M 1 hset hform rfl (shortRule_up hs hlen)
  exact ⟨M', (replaceBy_zero _ M).trans hrun, hM'⟩

theorem vlan_formatted {n : ℕ} {value : Option CStr} (h : Formatted (ShortRule 7) n value) :
    Formatted (fun r => ShortRule 7 r ∧ Storable r ∧ Storable (vlanUp r)) n value :=
  h.imp fun _ hfree hr => ⟨hr, hr.storable hfree (by decide), hr.vlanUp_storable hfree⟩

/-- The rules of VLANs between the two ways. -/
theorem vlan_rewritten {n : ℕ} {value : Option CStr} (h : Formatted (ShortRule 7) n value) :
    Formatted (fun y => VlanEither y ∧ Storable y ∧ Storable (vlanDown y)) n
      (rewriteSet vlanUp n value) := by
  apply h.rewrite
  intro r hfree hr
  have hr' := hr.storable hfree (by decide)
  have hup := hr.vlanUp_storable hfree
  have hown : VlanEither r := ⟨r, hr, .inl rfl⟩
  have hnew : VlanEither (vlanUp r) := ⟨r, hr, .inr rfl⟩
  obtain ⟨r', hr'', -, hsame, -⟩ := hnew.spec
  have hdown : Storable (vlanDown r) := storable_appendAttrs hup (by decide)
  have htwice : vlanUp (vlanUp r) = vlanUp r := by
    have hlen : ((vlanUp r).fields ATTR_SEP).length ≤ MAX_ATTR_NUM := by
      rw [hr.vlanUp_fields]
      exact (List.length_take_le _ _).trans (by decide)
    change joinAttrs (subrule (vlanUp r) 0 4) = joinAttrs (subrule r 0 4)
    rw [subrule_eq hlen, subrule_eq (hr.fields.le.trans (by decide)), hr.vlanUp_fields,
      List.take_take, Nat.min_self]
  have hdown' : Storable (vlanDown (vlanUp r)) := by
    rw [vlanDown, htwice]
    exact hdown
  exact ⟨hr', hup, ⟨hown, hr', hdown⟩, hnew, hup, hdown'⟩

theorem confined_defaultRule {P : CStr → Prop} (table : NvramDefault) {rulename : CStr}
    (hname : P rulename) : Confined P (nvramDefaultRule table rulename) := by
  rw [nvramDefaultRule]
  split
  · trivial
  · next v hv =>
    have heq : v.name = rulename := by simpa using List.find?_some hv
    exact (confined_set (heq ▸ hname) v.value).bind fun _ => trivial

/-- Every product gets more room for its bandwidth rules. -/
theorem maxima_run {M₀ : Variables} (h : Config204 M₀)
    (hM : ∀ m, m ∈ bwMaxima ∨ m = .ofString "prod_subcat" → M m = M₀ m) :
    ∃ M', runOn (do
        let tmp ← ruleText u (.ofString "prod_subcat") 0
        if tmp = .ofString "2" then replaceMaxima u (.ofString "32")
        if tmp = .ofString "3" ∨ tmp = .ofString "4" then replaceMaxima u (.ofString "64")
        pure (0 : ℤ)) M = (.ok 0, M') ∧ (∀ m ∉ bwMaxima, M' m = M m) ∧
      ∃ old new, old ≠ new ∧ HasMaxima M₀ old ∧ HasMaxima M' new := by
  have hmaxima {old : CStr} (hold : HasMaxima M₀ old) : HasMaxima M old := fun name hname =>
    (hM name (.inl hname)).trans (hold name hname)
  have htext {subcat : CStr} (hmem : subcat ∈ ["2", "3", "4", "8", "32", "64"].map CStr.ofString)
      (hsub : M₀ (.ofString "prod_subcat") = some subcat) :
      runOn (ruleText u (.ofString "prod_subcat") 0) M = (.ok subcat, M) :=
    ruleText_one (by decide) ((hM _ (.inr rfl)).trans hsub) (storable_number _ hmem).1
      (storable_number _ hmem).2
  rcases h.maxima with ⟨hsub, hold⟩ | ⟨hsub, hold⟩
  · obtain ⟨M', hrun, hnew, hrest⟩ := replaceMaxima_run (u := u) (.ofString "32")
      (by decide) (by decide) (hmaxima hold)
    refine ⟨M', ?_, hrest, _, _, by decide, hold, hnew⟩
    rw [runOn_bind_ok (htext (by decide) hsub), if_pos rfl, if_neg (by decide), runOn_bind_ok hrun]
    rfl
  · obtain ⟨M', hrun, hnew, hrest⟩ := replaceMaxima_run (u := u) (.ofString "64")
      (by decide) (by decide) (hmaxima hold)
    refine ⟨M', ?_, hrest, _, _, by decide, hold, hnew⟩
    rcases hsub with hsub | hsub
    · rw [runOn_bind_ok (htext (by decide) hsub), if_neg (by decide), if_pos (by decide)]
      exact (runOn_bind_ok hrun _).trans rfl
    · rw [runOn_bind_ok (htext (by decide) hsub), if_neg (by decide), if_pos (by decide)]
      exact (runOn_bind_ok hrun _).trans rfl

theorem fwFunc204To205_run (table : NvramDefault) (h : Config204 M) :
    ∃ M', runOn (fwFunc204To205 table u) M = (.ok 0, M') ∧ Upgraded205 M M' := by
  obtain ⟨M1, run1, val1, rest1⟩ := append_run (u := u) M (t := STORAGE)
    (s := .ofString "^0^^^^^") (by decide) (by decide) (by decide) (by decide) (by decide)
    h.storage rfl
  obtain ⟨M2, run2, val2, rest2⟩ := append_run (u := u) M1 (t := BC_STORM) (s := .ofString "^0")
    (by decide) (by decide) (by decide) (by decide) (by decide) h.fw (rest1 _ (by decide))
  have num2 : text M2 (.ofString "vlan_rule_num") = text M (.ofString "vlan_rule_num") :=
    text_congr ((rest2 _ (by decide)).trans (rest1 _ (by decide)))
  obtain ⟨M3, run3, val3, rest3⟩ := eachRule_changes (u := u) M2
    (atoi (text M (.ofString "vlan_rule_num"))) (by decide) (vlan_formatted h.vlan)
    ((rest2 _ (by decide)).trans (rest1 _ (by decide))) vlan_up
  have rest4 : ∀ m ≠ CStr.ofString "vlanport_rule",
      (onMap (nvramDefaultRule table (.ofString "vlanport_rule")) M3).2 m = M3 m :=
    fun m hm => (confined_defaultRule (P := (· = .ofString "vlanport_rule")) table rfl).onMap hm M3
  generalize hM4 : (onMap (nvramDefaultRule table (.ofString "vlanport_rule")) M3).2 = M4 at rest4
  have hsame : ∀ m, m ∈ bwMaxima ∨ m = .ofString "prod_subcat" → M4 m = M m := by
    intro m hm
    have hne : m ≠ .ofString "storage_rule" ∧ m ≠ .ofString "fw_rule" ∧ m ≠ .ofString "vlan_rule" ∧
        m ≠ .ofString "vlanport_rule" := by
      simp only [bwMaxima, List.mem_cons, List.not_mem_nil, or_false] at hm
      rcases hm with (rfl | rfl | rfl) | rfl <;> decide
    rw [rest4 m hne.2.2.2, rest3 m hne.2.2.1, rest2 m hne.2.1, rest1 m hne.1]
  obtain ⟨M5, run5, rest5, hmaxima⟩ := maxima_run (u := u) h hsame
  refine ⟨M5, ?_, ?_⟩
  · rw [fwFunc204To205, runOn_bind_ok run1, runOn_bind_ok run2, runOn_bind, runOn_lift,
      onMap_safeGet]
    dsimp only
    rw [num2, runOn_bind_ok run3, runOn_bind, runOn_lift, hM4]
    exact run5
  · constructor
    case maxima => exact hmaxima
    · rw [rest5 _ (by decide), rest4 _ (by decide), rest3 _ (by decide), rest2 _ (by decide), val1]
    · rw [rest5 _ (by decide), rest4 _ (by decide), rest3 _ (by decide), val2]
    · rw [rest5 _ (by decide), rest4 _ (by decide), val3]
    · rw [rest5 _ (by decide), rest4 _ (by decide), rest3 _ (by decide), rest2 _ (by decide),
        rest1 _ (by decide)]

theorem stays_storage : StaysStorable 3 (appendAttrs STORAGE) (firstAttrs 3) :=
  stays_first (by decide) (by decide) (by decide)

theorem stays_fw : StaysStorable 6 (appendAttrs BC_STORM) (firstAttrs 6) :=
  stays_first (by decide) (by decide) (by decide)

/-- The attributes that were put behind a rule are dropped. -/
theorem first_restores {n : ℕ} {value : Option CStr} (hk : 2 ≤ k) (hmax : k ≤ MAX_ATTR_NUM)
    (ht : RULE_SEP ∉ t.val ∧ PERCENT ∉ t.val) (h : Formatted (ShortRule k) n value) :
    rewriteSet (firstAttrs k) n (rewriteSet (appendAttrs t) n value) = value := by
  apply rewriteSet_restores h
  intro r hfree hr
  obtain ⟨hr', happ, hless⟩ := hr.append hfree hk ht
  obtain ⟨hown, hmore⟩ := hr.firstAttrs (t := t) hmax (by omega)
  exact ⟨hr', happ, hown, hmore, hless⟩

/-- No loop loses one of the first five attributes. -/
theorem vlan_restores {n : ℕ} {value : Option CStr} (h : Formatted (ShortRule 7) n value) :
    firstFive (rewriteSet vlanDown n (rewriteSet vlanUp n value)) = firstFive value := by
  rw [firstFive, firstFive,
    map_rewriteSet (fun r => (r.fields ATTR_SEP).take 5) (vlan_rewritten h)
      fun y _ hy => ⟨hy.2.1, hy.2.2, hy.1.down_fields⟩,
    map_rewriteSet (fun r => (r.fields ATTR_SEP).take 5) (vlan_formatted h)]
  intro r _ hr
  refine ⟨hr.2.1, hr.2.2, ?_⟩
  rw [hr.1.vlanUp_fields, List.take_take, Nat.min_self]

theorem fwFunc205To204_run {M' : Variables} (h : Config204 M) (hup : Upgraded205 M M') :
    ∃ M'', runOn (fwFunc205To204 u) M' = (.ok 0, M'') ∧ RulesBack M M'' ∧
      ∀ name ∈ bwMaxima, M'' name = M' name := by
  have hthree : Formatted (AttrRule 3) 1 (M (.ofString "storage_rule")) :=
    h.storage.imp fun _ _ hr => hr.toAttrRule
  have hsix : Formatted (AttrRule 6) 1 (M (.ofString "fw_rule")) :=
    h.fw.imp fun _ _ hr => hr.toAttrRule
  obtain ⟨M1, run1, val1, rest1⟩ := eachRule_down u M' (.ofString "storage_rule") 1 (by decide)
    hthree hup.storage stays_storage (append_down (by decide) (by decide))
  obtain ⟨M2, run2, val2, rest2⟩ := eachRule_down u M1 (.ofString "fw_rule") 1 (by decide)
    hsix ((rest1 _ (by decide)).trans hup.fw) stays_fw (append_down (by decide) (by decide))
  have num2 : text M2 (.ofString "vlan_rule_num") = text M (.ofString "vlan_rule_num") :=
    text_congr ((rest2 _ (by decide)).trans ((rest1 _ (by decide)).trans hup.num))
  obtain ⟨M3, run3, val3, rest3⟩ := eachRule_changes (u := u) M2
    (atoi (text M (.ofString "vlan_rule_num"))) (by decide) (vlan_rewritten h.vlan)
    ((rest2 _ (by decide)).trans ((rest1 _ (by decide)).trans hup.vlan)) vlan_down
  have rest4 := (changes_update M3 (.ofString "vlanport_rule") none).2
  generalize hM4 : Function.update M3 (.ofString "vlanport_rule") none = M4 at rest4
  have rest5 := (changes_update M4 (.ofString "vlanport_rule_num") none).2
  generalize hM5 : Function.update M4 (.ofString "vlanport_rule_num") none = M5 at rest5
  have rest6 := (changes_update M5 (.ofString "vlanport_rule_max") none).2
  generalize hM6 : Function.update M5 (.ofString "vlanport_rule_max") none = M6 at rest6
  have hrest : ∀ m, m ≠ .ofString "vlanport_rule" → m ≠ .ofString "vlanport_rule_num" →
      m ≠ .ofString "vlanport_rule_max" → M6 m = M3 m := fun m h4 h5 h6 => by
    rw [rest6 m h6, rest5 m h5, rest4 m h4]
  refine ⟨M6, ?_, ?_, ?_⟩
  · rw [fwFunc205To204, runOn_bind_ok ((replaceBy_zero _ _).trans run1),
      runOn_bind_ok ((replaceBy_zero _ _).trans run2), runOn_bind, runOn_lift, onMap_safeGet]
    dsimp only
    rw [num2, runOn_bind_ok run3]
    subst hM6 hM5 hM4
    rfl
  · constructor
    · rw [hrest _ (by decide) (by decide) (by decide), rest3 _ (by decide), rest2 _ (by decide),
        val1]
      exact first_restores (by decide) (by decide) (by decide) h.storage
    · rw [hrest _ (by decide) (by decide) (by decide), rest3 _ (by decide), val2]
      exact first_restores (by decide) (by decide) (by decide) h.fw
    · rw [hrest _ (by decide) (by decide) (by decide), val3]
      exact vlan_restores h.vlan
  · intro name hname
    simp only [bwMaxima, List.mem_cons, List.not_mem_nil, or_false] at hname
    have hne : name ≠ .ofString "vlanport_rule" ∧ name ≠ .ofString "vlanport_rule_num" ∧
        name ≠ .ofString "vlanport_rule_max" ∧ name ≠ .ofString "vlan_rule" ∧
        name ≠ .ofString "fw_rule" ∧ name ≠ .ofString "storage_rule" := by
      rcases hname with rfl | rfl | rfl <;> decide
    rw [hrest _ hne.1 hne.2.1 hne.2.2.1, rest3 _ hne.2.2.2.1, rest2 _ hne.2.2.2.2.1,
      rest1 _ hne.2.2.2.2.2]

/-- The rules come back, and the maxima of the newer release stay. -/
theorem upDown_run (table : NvramDefault) (u : Unspecified) (h : Config204 M) :
    ∃ M' M'', runOn (fwFunc204To205 table u) M = (.ok 0, M') ∧
      runOn (fwFunc205To204 u) M' = (.ok 0, M'') ∧ RulesBack M M'' ∧
      ∃ old new, old ≠ new ∧ HasMaxima M old ∧ HasMaxima M'' new := by
  obtain ⟨M', hrun, hup⟩ := fwFunc204To205_run (u := u) table h
  obtain ⟨M'', hrun', hback, hsame⟩ := fwFunc205To204_run (u := u) h hup
  obtain ⟨old, new, hne, hold, hnew⟩ := hup.maxima
  exact ⟨M', M'', hrun, hrun', hback, old, new, hne, hold, fun name hname =>
    (hsame name hname).trans (hnew name hname)⟩

end

/-! ## What is lost -/

/-- A set with one short rule. -/
theorem formatted_short {k n : ℕ} {r : CStr} (hne : r ≠ CStr.empty) (hfree : RULE_SEP ∉ r.val)
    (hfields : (r.fields ATTR_SEP).length = k) (hlen : r.len < 200) (hplain : PERCENT ∉ r.val) :
    Formatted (ShortRule k) n (some r) := by
  intro text htext
  cases htext
  refine ⟨fun x hx => ?_, fun h => absurd h hne⟩
  rw [storedRules_of_ne hne, CStr.fields_of_not_mem hfree, List.mem_singleton] at hx
  subst hx
  exact ⟨⟨hfields, hlen.trans (by decide), hplain⟩, hlen⟩

/-- A device of the second category with one VLAN. -/
def smallDevice : Variables :=
  listed [("storage_rule", .ofString "utf8^0^4096"), ("fw_rule", .ofString "1^1^1^1^1^1"),
    ("vlan_rule", .ofString "lan^1^eth0^1^1111^0000001^"), ("vlan_rule_num", .ofString "1"),
    ("prod_subcat", .ofString "2"), ("bw_rule_max", .ofString "8"),
    ("bw_sbm_rule_max", .ofString "8"), ("bw_dbm_rule_max", .ofString "8")]

theorem config_smallDevice : Config204 smallDevice where
  storage := formatted_short (r := .ofString "utf8^0^4096") (by decide) (by decide) (by decide)
    (by decide) (by decide)
  fw := formatted_short (r := .ofString "1^1^1^1^1^1") (by decide) (by decide) (by decide)
    (by decide) (by decide)
  vlan := formatted_short (r := .ofString "lan^1^eth0^1^1111^0000001^") (by decide) (by decide)
    (by decide) (by decide) (by decide)
  maxima := by
    refine .inl ⟨rfl, fun name hname => ?_⟩
    simp only [bwMaxima, List.mem_cons, List.not_mem_nil, or_false] at hname
    rcases hname with rfl | rfl | rfl <;> rfl

/-- A table without variables. -/
def noDefaults : NvramDefault := ⟨[], List.nodup_nil, by simp, by simp, by simp, by simp, by simp⟩

/-- The maxima do not come back. -/
theorem maxima_lost (table : NvramDefault) (u : Unspecified) {M : Variables} (h : Config204 M) :
    ¬ RoundTrips205 table u M := by
  rintro ⟨M₁, M₂, hup, hdown, -, hmaxima⟩
  obtain ⟨M', M'', hrun, hrun', -, old, new, hne, hold, hnew⟩ := upDown_run table u h
  rw [hup, Prod.mk.injEq] at hrun
  obtain ⟨-, rfl⟩ := hrun
  rw [hdown, Prod.mk.injEq] at hrun'
  obtain ⟨-, rfl⟩ := hrun'
  have hmem : CStr.ofString "bw_rule_max" ∈ bwMaxima := List.mem_cons_self
  have hsame := hmaxima _ hmem
  rw [hnew _ hmem, hold _ hmem, Option.some.injEq] at hsame
  exact hne hsame.symm

/-- Every configuration gets its rules back, and none its maxima. -/
theorem roundTrips205_never (table : NvramDefault) (u : Unspecified) {M : Variables}
    (h : Config204 M) :
    (∃ M' M'', runOn (fwFunc204To205 table u) M = (.ok 0, M') ∧
      runOn (fwFunc205To204 u) M' = (.ok 0, M'') ∧ RulesBack M M'') ∧
      ¬ RoundTrips205 table u M := by
  obtain ⟨M', M'', hup, hdown, hback, -⟩ := upDown_run table u h
  exact ⟨⟨M', M'', hup, hdown, hback⟩, maxima_lost table u h⟩

theorem roundTrips205_small :
    (∃ M' M'', runOn (fwFunc204To205 noDefaults clean) smallDevice = (.ok 0, M') ∧
      runOn (fwFunc205To204 clean) M' = (.ok 0, M'') ∧ RulesBack smallDevice M'') ∧
      ¬ RoundTrips205 noDefaults clean smallDevice :=
  roundTrips205_never noDefaults clean config_smallDevice

/-- A small device keeps the maxima of the newer release. -/
theorem smallDevice_keeps_maxima :
    ¬ ∀ table u M, Config204 M → RoundTrips205 table u M :=
  fun h => maxima_lost noDefaults clean config_smallDevice (h _ _ _ config_smallDevice)

end EzpFirmware.UserNvram
