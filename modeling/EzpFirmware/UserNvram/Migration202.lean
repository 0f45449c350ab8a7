import EzpFirmware.UserNvram.ReleaseLoops

/-! # Between the releases 2.0.2 and 2.0.3

The newer release has `chap` in the rules for PPPoE and for 3G modems, and more
attributes behind the rules of four other sets.
-/
namespace EzpFirmware.UserNvram
open Lib

/-- `fw_func_2_0_2_to_2_0_3`. -/
def fwFunc202To203 (u : Unspecified) : Migration ℤ := do
  let nrule := atoi (← (nvramSafeGet (.ofString "wan_num") : Api CStr))
  eachRule u (.ofString "wan_pppoe_rule") nrule fun i => do
    let buf ← subruleText u (.ofString "wan_pppoe_rule") i 0 7
    pure (printTmp [.ofString "chap^", buf])
  eachRule u (.ofString "wan_wwan_rule") nrule fun i => do
    let buf ← subruleText u (.ofString "wan_wwan_rule") i 0 5
    let buf2 ← subruleText u (.ofString "wan_wwan_rule") i 6 20
    pure (printTmp [buf, .ofString "^chap^", buf2])
  replaceBy u (.ofString "ftpd_rule") (fun i => do
    let buf ← subruleText u (.ofString "ftpd_rule") i 0 9
    pure (printTmp [buf, .ofString "^0"])) 0
  let _ ← (Api.set (.ofString "samba_rule") none : Api ℤ)
  let nrule := atoi (← (nvramSafeGet (.ofString "wl_rule_num") : Api CStr))
  eachRule u (.ofString "wl_advanced_rule") nrule fun i => do
    let buf ← ruleText u (.ofString "wl_advanced_rule") i
    pure (printTmp [buf, .ofString "^1^0^0^0^0^0^1^1^0^33^5^0^1^8^0"])
  let nrule := atoi (← (nvramSafeGet (.ofString "rt_rule_num") : Api CStr))
  eachRule u (.ofString "rt_rule") nrule fun i => do
    let buf ← ruleText u (.ofString "rt_rule") i
    pure (printTmp [buf, .ofString "^default^"])
  let _ ← ExceptT.mk (InMemory.ezplibReplaceAttr u (.ofString "lan_dhcps_rule") 0
    (.ofString "dnstype") (.ofString "opendns"))
  let _ ← ExceptT.mk (InMemory.ezplibReplaceAttr u (.ofString "lan_dhcps_rule") 0
    (.ofString "dnsaddr1") (.ofString "208.67.220.220"))
  let _ ← ExceptT.mk (InMemory.ezplibReplaceAttr u (.ofString "lan_dhcps_rule") 0
    (.ofString "dnsaddr2") (.ofString "208.67.222.222"))
  let nrule := atoi (← (nvramSafeGet (.ofString "wan_num") : Api CStr))
  eachRule u (.ofString "wan_opendns_rule") nrule fun i => do
    let buf ← ruleText u (.ofString "wan_opendns_rule") i
    pure (printTmp [buf, .ofString "^"])
  pure 0

/-- `fw_func_2_0_3_to_2_0_2`. -/
def fwFunc203To202 (u : Unspecified) : Migration ℤ := do
  let nrule := atoi (← (nvramSafeGet (.ofString "wan_num") : Api CStr))
  eachRule u (.ofString "wan_pppoe_rule") nrule
    (subruleText u (.ofString "wan_pppoe_rule") · 1 8)
  eachRule u (.ofString "wan_wwan_rule") nrule fun i => do
    let buf ← subruleText u (.ofString "wan_wwan_rule") i 0 5
    let buf2 ← subruleText u (.ofString "wan_wwan_rule") i 7 21
    pure (printTmp [buf, .ofString "^", buf2])
  replaceBy u (.ofString "ftpd_rule") (fun i => do
    let buf ← subruleText u (.ofString "ftpd_rule") i 0 9
    pure (printTmp [buf])) 0
  let nrule := atoi (← (nvramSafeGet (.ofString "wl_rule_num") : Api CStr))
  eachRule u (.ofString "wl_advanced_rule") nrule
    (subruleText u (.ofString "wl_advanced_rule") · 0 13)
  let nrule := atoi (← (nvramSafeGet (.ofString "rt_rule_num") : Api CStr))
  eachRule u (.ofString "rt_rule") nrule (subruleText u (.ofString "rt_rule") · 0 11)
  let nrule := atoi (← (nvramSafeGet (.ofString "wan_num") : Api CStr))
  eachRule u (.ofString "wan_opendns_rule") nrule
    (subruleText u (.ofString "wan_opendns_rule") · 0 4)
  pure 0

/-- The number of rounds of a loop over rules. -/
def rounds (M : Variables) (num : CStr) : ℕ := (atoi (text M num)).toNat

/-- The sets of release 2.0.2 that change. -/
structure Config202 (M : Variables) : Prop where
  pppoe : Formatted (AttrRule 8) (rounds M (.ofString "wan_num")) (M (.ofString "wan_pppoe_rule"))
  wwan : Formatted (AttrRule 21) (rounds M (.ofString "wan_num")) (M (.ofString "wan_wwan_rule"))
  ftpd : Formatted (AttrRule 10) 1 (M (.ofString "ftpd_rule"))
  advanced : Formatted (AttrRule 14) (rounds M (.ofString "wl_rule_num"))
    (M (.ofString "wl_advanced_rule"))
  routing : Formatted (AttrRule 12) (rounds M (.ofString "rt_rule_num")) (M (.ofString "rt_rule"))
  opendns : Formatted (AttrRule 5) (rounds M (.ofString "wan_num"))
    (M (.ofString "wan_opendns_rule"))

/-- The way to 2.0.3 and back leaves the sets as they were. -/
def RoundTrips202 (u : Unspecified) (M : Variables) : Prop :=
  ∃ M' M'', runOn (fwFunc202To203 u) M = (.ok 0, M') ∧ runOn (fwFunc203To202 u) M' = (.ok 0, M'') ∧
    ∀ ruleSet ∈ ["wan_pppoe_rule", "wan_wwan_rule", "ftpd_rule", "wl_advanced_rule", "rt_rule",
      "wan_opendns_rule"].map CStr.ofString, M'' ruleSet = M ruleSet

/-! ## What a round makes of a rule -/

def CHAP : CStr := .ofString "chap"

section
variable {u : Unspecified} {M : Variables} {ruleSet r t y : CStr} {k : ℕ}

theorem chap_plain : ATTR_SEP ∉ CHAP.val ∧ RULE_SEP ∉ CHAP.val ∧ PERCENT ∉ CHAP.val := by decide

/-- All attributes of a rule and `chap` in front. -/
theorem AttrRule.pppoe (hr : AttrRule 8 r) :
    printTmp [.ofString "chap^", joinAttrs (subrule r 0 7)] = insertAttr 0 CHAP r := by
  have hs : (CStr.ofString "chap^").val = CHAP.val ++ [ATTR_SEP] := by decide
  have hall : joinAttrs (subrule r 0 7) = r := by
    rw [hr.subrule_append (t := CStr.empty) (.inl rfl) (by decide) (by decide), joinAttrs_fields]
  have hlen : (CStr.ofString "chap^").len = 5 := by decide
  have hshort := hr.short
  rw [hall, printTmp_eq, concat_front hs, insertAttr, List.take_zero, List.nil_append,
    List.drop_zero, joinAttrs, CStr.join_cons _ CHAP (attrs_ne_nil r)]
  · exact congrArg _ (joinAttrs_fields r).symm
  · rw [concat_two_len, hlen]
    exact (Nat.add_lt_add_left hshort 5).trans (by decide)

theorem pppoe_up : Computes ruleSet (AttrRule 8) (insertAttr 0 CHAP) (fun i => do
    let buf ← subruleText u ruleSet i 0 7
    pure (printTmp [.ofString "chap^", buf])) :=
  ((computes_subrule (by decide) fun r hr => hr.fits subrule_sublist).map
    fun buf => printTmp [.ofString "chap^", buf]).congr fun r hr => hr.pppoe

theorem pppoe_down : Computes ruleSet (Either 8 (insertAttr 0 CHAP)) (removeAttr 0)
    (subruleText u ruleSet · 1 8) := by
  apply (computes_subrule (by decide) fun y hy =>
    hy.fits chap_plain.1 (by decide) (.inr (by decide))).congr
  intro y hy
  obtain ⟨-, hlen, -⟩ := hy.fields chap_plain.1 (by decide)
  rw [subrule_eq (hlen.trans (by decide)), List.take_of_length_le hlen, removeAttr, List.take_zero,
    List.nil_append]

/-- The attributes before and behind the sixth position, with `chap` between them. -/
theorem AttrRule.wwan (hr : AttrRule 21 r) :
    printTmp [joinAttrs (subrule r 0 5), .ofString "^chap^", joinAttrs (subrule r 6 20)] =
      insertAttr 6 CHAP r := by
  have hs : (CStr.ofString "^chap^").val = ATTR_SEP :: (CHAP.val ++ [ATTR_SEP]) := by decide
  have hfields := hr.fields
  have hmax : (r.fields ATTR_SEP).length ≤ MAX_ATTR_NUM := hfields.le.trans (by decide)
  have hfront : (r.fields ATTR_SEP).take 6 ≠ [] := by
    intro h
    have hlen := congrArg List.length h
    rw [List.length_take, List.length_nil] at hlen
    omega
  have hbehind : (r.fields ATTR_SEP).drop 6 ≠ [] := by
    intro h
    have hlen := congrArg List.length h
    rw [List.length_drop, List.length_nil] at hlen
    omega
  have htext : CStr.concat [joinAttrs (subrule r 0 5), .ofString "^chap^",
      joinAttrs (subrule r 6 20)] = insertAttr 6 CHAP r := by
    rw [concat_between hs, subrule_eq hmax, subrule_eq hmax, List.drop_zero,
      List.take_of_length_le hfields.le, insertAttr, joinAttrs, joinAttrs, joinAttrs,
      CStr.join_append _ hfront (List.cons_ne_nil _ _), CStr.join_cons _ CHAP hbehind]
  rw [printTmp_eq, htext]
  rw [htext, insertAttr_len]
  exact (Nat.add_lt_add_right hr.short _).trans (by decide)

theorem wwan_up : Computes ruleSet (AttrRule 21) (insertAttr 6 CHAP) (fun i => do
    let buf ← subruleText u ruleSet i 0 5
    let buf2 ← subruleText u ruleSet i 6 20
    pure (printTmp [buf, .ofString "^chap^", buf2])) :=
  ((computes_subrule (by decide) fun r hr => hr.fits subrule_sublist).map₂
    (computes_subrule (by decide) fun r hr => hr.fits subrule_sublist)
    fun buf buf2 => printTmp [buf, .ofString "^chap^", buf2]).congr fun r hr => hr.wwan

theorem Either.wwan (hy : Either 21 (insertAttr 6 CHAP) y) :
    printTmp [joinAttrs (subrule y 0 5), .ofString "^", joinAttrs (subrule y 7 21)] =
      removeAttr 6 y := by
  obtain ⟨hmin, hmax, hshort⟩ := hy.fields chap_plain.1 (by decide)
  have hs : (CStr.ofString "^").val = [ATTR_SEP] := by decide
  have hfront : (y.fields ATTR_SEP).take 6 ≠ [] := by
    intro h
    have hlen := congrArg List.length h
    rw [List.length_take, List.length_nil] at hlen
    omega
  have hbehind : (y.fields ATTR_SEP).drop 7 ≠ [] := by
    intro h
    have hlen := congrArg List.length h
    rw [List.length_drop, List.length_nil] at hlen
    omega
  have htext : CStr.concat [joinAttrs (subrule y 0 5), .ofString "^", joinAttrs (subrule y 7 21)] =
      removeAttr 6 y := by
    rw [concat_sep hs, subrule_eq (hmax.trans (by decide)), subrule_eq (hmax.trans (by decide)),
      List.drop_zero, List.take_of_length_le hmax, removeAttr, joinAttrs, joinAttrs, joinAttrs,
      CStr.join_append _ hfront hbehind]
  rw [printTmp_eq, htext]
  rw [htext]
  have hchap : CHAP.len = 4 := by decide
  have hless := removeAttr_len (r := y) (j := 6) (by omega) (by omega)
  rw [hchap] at hshort
  exact (hless.trans hshort).trans (by decide)

theorem wwan_down : Computes ruleSet (Either 21 (insertAttr 6 CHAP)) (removeAttr 6) (fun i => do
    let buf ← subruleText u ruleSet i 0 5
    let buf2 ← subruleText u ruleSet i 7 21
    pure (printTmp [buf, .ofString "^", buf2])) :=
  ((computes_subrule (by decide) fun y hy =>
      hy.fits chap_plain.1 (by decide) (.inl (by decide))).map₂
    (computes_subrule (by decide) fun y hy =>
      hy.fits chap_plain.1 (by decide) (.inr (by decide)))
    fun buf buf2 => printTmp [buf, .ofString "^", buf2]).congr fun y hy => hy.wwan

theorem ftpd_up : Computes ruleSet (AttrRule 10) (appendAttrs (.ofString "0")) (fun i => do
    let buf ← subruleText u ruleSet i 0 9
    pure (printTmp [buf, .ofString "^0"])) := by
  apply ((computes_subrule (by decide) fun r hr => hr.fits subrule_sublist).map
    fun buf => printTmp [buf, .ofString "^0"]).congr
  intro r hr
  rw [hr.subrule_append (t := CStr.empty) (.inl rfl) (by decide) (by decide), joinAttrs_fields]
  exact hr.print_append (by decide) (by decide)

theorem ftpd_down : Computes ruleSet (Either 10 (appendAttrs (.ofString "0")))
    (UserNvram.firstAttrs 10) (fun i => do
      let buf ← subruleText u ruleSet i 0 9
      pure (printTmp [buf])) := by
  apply ((append_down (k := 10) (by decide) (by decide)).map fun buf => printTmp [buf]).congr
  rintro y ⟨r, hr, hy⟩
  have hfirst : UserNvram.firstAttrs 10 y = r := by
    rcases hy with rfl | rfl
    · exact (hr.firstAttrs (t := CStr.empty) (by decide) (by decide)).1
    · exact (hr.firstAttrs (by decide) (by decide)).2
  rw [hfirst, printTmp_eq]
  · exact CStr.concat_singleton r
  · rw [CStr.concat_singleton]
    exact hr.short.trans (by decide)

/-! ## The loops -/

theorem stays_chap {j : ℕ} (hj : j < k) (hk : 3 ≤ k) :
    StaysStorable k (insertAttr j CHAP) (removeAttr j) := by
  intro r hfree hr
  obtain ⟨hr', hins, hrem, -, hback, -⟩ := hr.insert hfree hj hk chap_plain
  exact ⟨hr', hins, hrem, hback.symm ▸ hr'⟩

theorem dhcps_ended : ∀ v ∈ rules, v.name = .ofString "lan_dhcps_rule" → none ∈ v.attr := by
  intro v hv hname
  by_contra hend
  have hmem : v.name ∈ (rules.filter fun v => none ∉ v.attr).map RuleTable.name :=
    List.mem_map_of_mem (List.mem_filter.mpr ⟨hv, by simpa using hend⟩)
  rw [unended_rules, hname] at hmem
  exact absurd hmem (by decide +kernel)

/-- The variables that both functions name are different ones. -/
theorem names_ne : (["wan_num", "wl_rule_num", "rt_rule_num", "wan_pppoe_rule", "wan_wwan_rule",
    "ftpd_rule", "samba_rule", "wl_advanced_rule", "rt_rule", "lan_dhcps_rule",
    "wan_opendns_rule"].map CStr.ofString).Pairwise fun a b => a ≠ b ∧ b ≠ a := by
  decide +kernel

/-! ## Both ways -/

/-- The texts that go behind the rules of a set. -/
def ADVANCED : CStr := .ofString "1^0^0^0^0^0^1^1^0^33^5^0^1^8^0"

def ROUTING : CStr := .ofString "default^"

/-- The sets of the newer release. -/
structure Upgraded (M M' : Variables) : Prop where
  pppoe : M' (.ofString "wan_pppoe_rule") = rewriteSet (insertAttr 0 CHAP)
    (rounds M (.ofString "wan_num")) (M (.ofString "wan_pppoe_rule"))
  wwan : M' (.ofString "wan_wwan_rule") = rewriteSet (insertAttr 6 CHAP)
    (rounds M (.ofString "wan_num")) (M (.ofString "wan_wwan_rule"))
  ftpd : M' (.ofString "ftpd_rule") = rewriteSet (appendAttrs (.ofString "0")) 1
    (M (.ofString "ftpd_rule"))
  advanced : M' (.ofString "wl_advanced_rule") = rewriteSet (appendAttrs ADVANCED)
    (rounds M (.ofString "wl_rule_num")) (M (.ofString "wl_advanced_rule"))
  routing : M' (.ofString "rt_rule") = rewriteSet (appendAttrs ROUTING)
    (rounds M (.ofString "rt_rule_num")) (M (.ofString "rt_rule"))
  opendns : M' (.ofString "wan_opendns_rule") = rewriteSet (appendAttrs CStr.empty)
    (rounds M (.ofString "wan_num")) (M (.ofString "wan_opendns_rule"))
  nums : ∀ num ∈ ["wan_num", "wl_rule_num", "rt_rule_num"].map CStr.ofString, M' num = M num

theorem stays_pppoe : StaysStorable 8 (insertAttr 0 CHAP) (removeAttr 0) :=
  stays_chap (by decide) (by decide)

theorem stays_wwan : StaysStorable 21 (insertAttr 6 CHAP) (removeAttr 6) :=
  stays_chap (by decide) (by decide)

theorem stays_ftpd : StaysStorable 10 (appendAttrs (.ofString "0")) (firstAttrs 10) :=
  stays_first (by decide) (by decide) (by decide)

theorem stays_advanced : StaysStorable 14 (appendAttrs ADVANCED) (firstAttrs 14) :=
  stays_first (by decide) (by decide) (by decide)

theorem stays_routing : StaysStorable 12 (appendAttrs ROUTING) (firstAttrs 12) :=
  stays_first (by decide) (by decide) (by decide)

theorem stays_opendns : StaysStorable 5 (appendAttrs CStr.empty) (firstAttrs 5) :=
  stays_first (by decide) (by decide) (by decide)

theorem fwFunc202To203_run (h : Config202 M) :
    ∃ M', runOn (fwFunc202To203 u) M = (.ok 0, M') ∧ Upgraded M M' := by
  have hne := names_ne
  simp only [List.map_cons, List.map_nil, List.pairwise_cons, List.forall_mem_cons] at hne
  obtain ⟨M1, run1, val1, rest1⟩ := eachRule_up u M (.ofString "wan_pppoe_rule")
    (atoi (text M (.ofString "wan_num"))) (by decide) h.pppoe rfl stays_pppoe pppoe_up
  obtain ⟨M2, run2, val2, rest2⟩ := eachRule_up u M1 (.ofString "wan_wwan_rule")
    (atoi (text M (.ofString "wan_num"))) (by decide) h.wwan
    (rest1 _ (by decide)) stays_wwan wwan_up
  obtain ⟨M3, run3, val3, rest3⟩ := eachRule_up u M2 (.ofString "ftpd_rule") 1 (by decide) h.ftpd
    (by simp only [hne, ne_eq, not_false_eq_true, rest2, rest1]) stays_ftpd ftpd_up
  have rest4 := (changes_update M3 (.ofString "samba_rule") none).2
  generalize hM4 : Function.update M3 (.ofString "samba_rule") none = M4 at rest4
  have num4 : text M4 (.ofString "wl_rule_num") = text M (.ofString "wl_rule_num") := by
    simp only [hne, ne_eq, not_false_eq_true, text, rest4, rest3, rest2, rest1]
  obtain ⟨M5, run5, val5, rest5⟩ := eachRule_up u M4 (.ofString "wl_advanced_rule")
    (atoi (text M (.ofString "wl_rule_num"))) (by decide) h.advanced
    (by simp only [hne, ne_eq, not_false_eq_true, rest4, rest3, rest2, rest1]) stays_advanced
    (append_up (s := .ofString "^1^0^0^0^0^0^1^1^0^33^5^0^1^8^0") (by decide) (by decide))
  have num5 : text M5 (.ofString "rt_rule_num") = text M (.ofString "rt_rule_num") := by
    simp only [hne, ne_eq, not_false_eq_true, text, rest5, rest4, rest3, rest2, rest1]
  obtain ⟨M6, run6, val6, rest6⟩ := eachRule_up u M5 (.ofString "rt_rule")
    (atoi (text M (.ofString "rt_rule_num"))) (by decide) h.routing
    (by simp only [hne, ne_eq, not_false_eq_true, rest5, rest4, rest3, rest2, rest1]) stays_routing
    (append_up (s := .ofString "^default^") (by decide) (by decide))
  obtain ⟨c7, M7, run7, rest7⟩ := replaceAttr_ended u M6 0 (.ofString "dnstype")
    (.ofString "opendns") dhcps_ended
  obtain ⟨c8, M8, run8, rest8⟩ := replaceAttr_ended u M7 0 (.ofString "dnsaddr1")
    (.ofString "208.67.220.220") dhcps_ended
  obtain ⟨c9, M9, run9, rest9⟩ := replaceAttr_ended u M8 0 (.ofString "dnsaddr2")
    (.ofString "208.67.222.222") dhcps_ended
  have num9 : text M9 (.ofString "wan_num") = text M (.ofString "wan_num") := by
    simp only [hne, ne_eq, not_false_eq_true, text, rest9, rest8, rest7, rest6, rest5, rest4, rest3,
      rest2, rest1]
  obtain ⟨M10, run10, val10, rest10⟩ := eachRule_up u M9 (.ofString "wan_opendns_rule")
    (atoi (text M (.ofString "wan_num"))) (by decide) h.opendns
    (by simp only [hne, ne_eq, not_false_eq_true, rest9, rest8, rest7, rest6, rest5, rest4, rest3,
      rest2, rest1])
    stays_opendns (append_up (s := .ofString "^") (by decide) (by decide))
  refine ⟨M10, ?_, ?_⟩
  · rw [fwFunc202To203, runOn_bind, runOn_lift, onMap_safeGet]
    dsimp only
    rw [runOn_bind_ok run1, runOn_bind_ok run2, runOn_bind_ok ((replaceBy_zero _ _).trans run3),
      runOn_bind, runOn_lift, onMap_set]
    dsimp only [kept, Option.bind_none]
    rw [hM4, runOn_bind, runOn_lift, onMap_safeGet]
    dsimp only
    rw [num4, runOn_bind_ok run5, runOn_bind, runOn_lift, onMap_safeGet]
    dsimp only
    rw [num5, runOn_bind_ok run6, runOn_bind_ok run7, runOn_bind_ok run8, runOn_bind_ok run9,
      runOn_bind, runOn_lift, onMap_safeGet]
    dsimp only
    rw [num9, runOn_bind_ok run10, runOn_pure]
  · constructor
    case nums =>
      intro num hnum
      simp only [List.map_cons, List.map_nil, List.mem_cons, List.not_mem_nil, or_false] at hnum
      rcases hnum with rfl | rfl | rfl <;>
        simp only [hne, ne_eq, not_false_eq_true, rest10, rest9, rest8, rest7, rest6, rest5, rest4,
          rest3, rest2, rest1]
    case opendns => exact val10
    all_goals
      simp only [hne, ne_eq, not_false_eq_true, rest10, rest9, rest8, rest7, rest6, rest5, rest4,
        rest3, rest2]
    · exact val1
    · exact val2
    · exact val3
    · exact val5
    · exact val6

/-- The sets after both ways. -/
structure Downgraded (M M'' : Variables) : Prop where
  pppoe : M'' (.ofString "wan_pppoe_rule") =
    rewriteSet (removeAttr 0) (rounds M (.ofString "wan_num")) (rewriteSet (insertAttr 0 CHAP)
      (rounds M (.ofString "wan_num")) (M (.ofString "wan_pppoe_rule")))
  wwan : M'' (.ofString "wan_wwan_rule") =
    rewriteSet (removeAttr 6) (rounds M (.ofString "wan_num")) (rewriteSet (insertAttr 6 CHAP)
      (rounds M (.ofString "wan_num")) (M (.ofString "wan_wwan_rule")))
  ftpd : M'' (.ofString "ftpd_rule") =
    rewriteSet (firstAttrs 10) 1 (rewriteSet (appendAttrs (.ofString "0")) 1
      (M (.ofString "ftpd_rule")))
  advanced : M'' (.ofString "wl_advanced_rule") =
    rewriteSet (firstAttrs 14) (rounds M (.ofString "wl_rule_num"))
      (rewriteSet (appendAttrs ADVANCED) (rounds M (.ofString "wl_rule_num"))
        (M (.ofString "wl_advanced_rule")))
  routing : M'' (.ofString "rt_rule") =
    rewriteSet (firstAttrs 12) (rounds M (.ofString "rt_rule_num"))
      (rewriteSet (appendAttrs ROUTING) (rounds M (.ofString "rt_rule_num"))
        (M (.ofString "rt_rule")))
  opendns : M'' (.ofString "wan_opendns_rule") =
    rewriteSet (firstAttrs 5) (rounds M (.ofString "wan_num"))
      (rewriteSet (appendAttrs CStr.empty) (rounds M (.ofString "wan_num"))
        (M (.ofString "wan_opendns_rule")))

theorem fwFunc203To202_run {M' : Variables} (h : Config202 M) (hup : Upgraded M M') :
    ∃ M'', runOn (fwFunc203To202 u) M' = (.ok 0, M'') ∧ Downgraded M M'' := by
  have hne := names_ne
  simp only [List.map_cons, List.map_nil, List.pairwise_cons, List.forall_mem_cons] at hne
  have num0 : text M' (.ofString "wan_num") = text M (.ofString "wan_num") :=
    text_congr (hup.nums _ (by decide))
  obtain ⟨M1, run1, val1, rest1⟩ := eachRule_down u M' (.ofString "wan_pppoe_rule")
    (atoi (text M (.ofString "wan_num"))) (by decide) h.pppoe hup.pppoe stays_pppoe pppoe_down
  obtain ⟨M2, run2, val2, rest2⟩ := eachRule_down u M1 (.ofString "wan_wwan_rule")
    (atoi (text M (.ofString "wan_num"))) (by decide) h.wwan
    ((rest1 _ (by decide)).trans hup.wwan) stays_wwan wwan_down
  obtain ⟨M3, run3, val3, rest3⟩ := eachRule_down u M2 (.ofString "ftpd_rule") 1 (by decide) h.ftpd
    (((rest2 _ (by decide)).trans (rest1 _ (by decide))).trans hup.ftpd) stays_ftpd ftpd_down
  have num3 : text M3 (.ofString "wl_rule_num") = text M (.ofString "wl_rule_num") := by
    rw [← text_congr (hup.nums _ (by decide))]
    simp only [hne, ne_eq, not_false_eq_true, text, rest3, rest2, rest1]
  obtain ⟨M4, run4, val4, rest4⟩ := eachRule_down u M3 (.ofString "wl_advanced_rule")
    (atoi (text M (.ofString "wl_rule_num"))) (by decide) h.advanced
    (((rest3 _ (by decide)).trans ((rest2 _ (by decide)).trans (rest1 _ (by decide)))).trans
      hup.advanced) stays_advanced (append_down (by decide) (by decide))
  have num4 : text M4 (.ofString "rt_rule_num") = text M (.ofString "rt_rule_num") := by
    rw [← text_congr (hup.nums _ (by decide))]
    simp only [hne, ne_eq, not_false_eq_true, text, rest4, rest3, rest2, rest1]
  obtain ⟨M5, run5, val5, rest5⟩ := eachRule_down u M4 (.ofString "rt_rule")
    (atoi (text M (.ofString "rt_rule_num"))) (by decide) h.routing
    (by simp only [hne, ne_eq, not_false_eq_true, rest4, rest3, rest2, rest1]; exact hup.routing)
    stays_routing (append_down (by decide) (by decide))
  have num5 : text M5 (.ofString "wan_num") = text M (.ofString "wan_num") := by
    rw [← text_congr (hup.nums _ (by decide))]
    simp only [hne, ne_eq, not_false_eq_true, text, rest5, rest4, rest3, rest2, rest1]
  obtain ⟨M6, run6, val6, rest6⟩ := eachRule_down u M5 (.ofString "wan_opendns_rule")
    (atoi (text M (.ofString "wan_num"))) (by decide) h.opendns
    (by simp only [hne, ne_eq, not_false_eq_true, rest5, rest4, rest3, rest2, rest1]; exact hup.opendns)
    stays_opendns (append_down (by decide) (by decide))
  refine ⟨M6, ?_, ?_⟩
  · rw [fwFunc203To202, runOn_bind, runOn_lift, onMap_safeGet]
    dsimp only
    rw [num0, runOn_bind_ok run1, runOn_bind_ok run2,
      runOn_bind_ok ((replaceBy_zero _ _).trans run3), runOn_bind, runOn_lift, onMap_safeGet]
    dsimp only
    rw [num3, runOn_bind_ok run4, runOn_bind, runOn_lift, onMap_safeGet]
    dsimp only
    rw [num4, runOn_bind_ok run5, runOn_bind, runOn_lift, onMap_safeGet]
    dsimp only
    rw [num5, runOn_bind_ok run6, runOn_pure]
  · constructor
    case opendns => exact val6
    all_goals simp only [hne, ne_eq, not_false_eq_true, rest6, rest5, rest4, rest3, rest2]
    · exact val1
    · exact val2
    · exact val3
    · exact val4
    · exact val5

end

/-! ## The round trip -/

theorem AttrRule.first_restores {k : ℕ} {t r : CStr} (hfree : RULE_SEP ∉ r.val) (hr : AttrRule k r)
    (hk : 2 ≤ k) (hmax : k ≤ MAX_ATTR_NUM) (ht : RULE_SEP ∉ t.val ∧ PERCENT ∉ t.val) :
    Storable r ∧ Storable (appendAttrs t r) ∧ UserNvram.firstAttrs k r = r ∧
      UserNvram.firstAttrs k (appendAttrs t r) = r ∧ r.len < (appendAttrs t r).len := by
  obtain ⟨hr', happ, hless⟩ := hr.append hfree hk ht
  obtain ⟨hown, hmore⟩ := hr.firstAttrs (t := t) hmax (by omega)
  exact ⟨hr', happ, hown, hmore, hless⟩

theorem rewriteSet_chap_iff {k j n : ℕ} {value : Option CStr} (hM : Formatted (AttrRule k) n value)
    (hj : j < k) (hk : 3 ≤ k) : rewriteSet (removeAttr j) n (rewriteSet (insertAttr j CHAP) n value) =
      value ↔ GrowsWithin 5 n value :=
  rewriteSet_restores_iff hM (by decide) fun _ hfree hr => hr.insert hfree hj hk chap_plain

theorem rewriteSet_first {k n : ℕ} {t : CStr} {value : Option CStr}
    (hM : Formatted (AttrRule k) n value) (hk : 2 ≤ k) (hmax : k ≤ MAX_ATTR_NUM)
    (ht : RULE_SEP ∉ t.val ∧ PERCENT ∉ t.val) :
    rewriteSet (firstAttrs k) n (rewriteSet (appendAttrs t) n value) = value :=
  rewriteSet_restores hM fun _ hfree hr => hr.first_restores hfree hk hmax ht

/-- The way to the newer release and back restores a configuration exactly if `chap` fits into all
the rules for PPPoE and for 3G modems, or these are not read. -/
theorem roundTrips202_iff (u : Unspecified) (M : Variables) (h : Config202 M) :
    RoundTrips202 u M ↔
      GrowsWithin 5 (rounds M (.ofString "wan_num")) (M (.ofString "wan_pppoe_rule")) ∧
        GrowsWithin 5 (rounds M (.ofString "wan_num")) (M (.ofString "wan_wwan_rule")) := by
  obtain ⟨M', hrun, hup⟩ := fwFunc202To203_run (u := u) h
  obtain ⟨M'', hrun', hdown⟩ := fwFunc203To202_run (u := u) h hup
  rw [← rewriteSet_chap_iff h.pppoe (j := 0) (by decide) (by decide), ← hdown.pppoe,
    ← rewriteSet_chap_iff h.wwan (j := 6) (by decide) (by decide), ← hdown.wwan]
  constructor
  · rintro ⟨N', N'', hN, hN', hsame⟩
    rw [hrun] at hN
    cases hN
    rw [hrun'] at hN'
    cases hN'
    exact ⟨hsame _ (by decide), hsame _ (by decide)⟩
  · rintro ⟨hpppoe, hwwan⟩
    refine ⟨M', M'', hrun, hrun', fun ruleSet hset => ?_⟩
    simp only [List.map_cons, List.map_nil, List.mem_cons, List.not_mem_nil, or_false] at hset
    rcases hset with rfl | rfl | rfl | rfl | rfl | rfl
    · exact hpppoe
    · exact hwwan
    · rw [hdown.ftpd]
      exact rewriteSet_first h.ftpd (by decide) (by decide) (by decide)
    · rw [hdown.advanced]
      exact rewriteSet_first h.advanced (by decide) (by decide) (by decide)
    · rw [hdown.routing]
      exact rewriteSet_first h.routing (by decide) (by decide) (by decide)
    · rw [hdown.opendns]
      exact rewriteSet_first h.opendns (by decide) (by decide) (by decide)

/-- One WAN with a rule of either kind. -/
def smallConfig : Variables := listed
  [("wan_num", .ofString "1"), ("wan_pppoe_rule", .ofString "u^p^^^1^60^30^1492"),
    ("wan_wwan_rule", .ofString "1^^^internet^^0^u^p^0^^30^1500^1492^*99#^^^^^^^"),
    ("ftpd_rule", .ofString "1^21^5^3^0^0^0^0^0^0")]

theorem config_small : Config202 smallConfig where
  pppoe := formatted_one (by decide) (by decide) ⟨by decide, by decide, by decide⟩
  wwan := formatted_one (by decide) (by decide) ⟨by decide, by decide, by decide⟩
  ftpd := formatted_one (by decide) (by decide) ⟨by decide, by decide, by decide⟩
  advanced := formatted_none _ _
  routing := formatted_none _ _
  opendns := formatted_none _ _

theorem roundTrips202_small : RoundTrips202 clean smallConfig :=
  (roundTrips202_iff clean smallConfig config_small).mpr
    ⟨fun text htext => by cases htext; exact .inr (.inl (by decide)),
      fun text htext => by cases htext; exact .inr (.inl (by decide))⟩

/-- An attribute of `n` bytes. -/
def longAttr (n : ℕ) : CStr :=
  ⟨List.replicate n 0x61, fun h => absurd (List.eq_of_mem_replicate h) (by decide)⟩

theorem longAttr_len (n : ℕ) : (longAttr n).len = n := List.length_replicate

def longAttrs : List CStr := List.replicate 7 CStr.empty ++ [longAttr 248]

def longRule : CStr := joinAttrs longAttrs

theorem longAttrs_ne : longAttrs ≠ [] := List.cons_ne_nil _ _

theorem longAttrs_bytes : ∀ f ∈ longAttrs, ∀ b ∈ f.val, b = 0x61 := by
  intro f hf b hb
  rcases List.mem_append.mp hf with hf | hf
  · rw [List.eq_of_mem_replicate hf] at hb
    cases hb
  · rw [List.mem_singleton] at hf
    subst hf
    exact List.eq_of_mem_replicate hb

theorem longRule_len : longRule.len + 1 = 256 := by
  rw [longRule, joinAttrs_len longAttrs_ne, longAttrs, List.map_append, List.map_replicate,
    List.sum_append, List.sum_replicate, List.map_singleton, List.sum_singleton, longAttr_len]
  rfl

theorem storable_long : Storable longRule :=
  storable_joinAttrs (by decide) fun f hf =>
    ⟨fun h => absurd (longAttrs_bytes f hf _ h) (by decide),
      fun h => absurd (longAttrs_bytes f hf _ h) (by decide)⟩

theorem attrRule_long : AttrRule 8 longRule where
  fields := by
    rw [longRule, fields_joinAttrs longAttrs_ne fun f hf h =>
      absurd (longAttrs_bytes f hf _ h) (by decide)]
    rfl
  short := by
    have hlen := longRule_len
    have hbuf : BUF_LEN = 256 := rfl
    omega
  plain := storable_long.plain

/-- As many of them as a set has room for. -/
def fullConfig : Variables := listed
  [("wan_num", .ofString "32"), ("wan_pppoe_rule", joinRules (List.replicate 32 longRule))]

/-- There is no room for `chap` then, and the way back takes out another attribute. -/
theorem roundTrips202_full : ¬ RoundTrips202 clean fullConfig := by
  have hstored : storedRules (joinRules (List.replicate 32 longRule)) = List.replicate 32 longRule :=
    storedRules_joinRules_storable fun r hr => (List.eq_of_mem_replicate hr) ▸ storable_long
  have hpppoe : Formatted (AttrRule 8) 32 (some (joinRules (List.replicate 32 longRule))) := by
    intro text htext
    cases htext
    rw [hstored]
    refine ⟨fun r hr => (List.eq_of_mem_replicate hr) ▸ attrRule_long, fun h0 => ?_⟩
    rw [h0] at hstored
    cases hstored
  have hconfig : Config202 fullConfig :=
    ⟨hpppoe, formatted_none _ _, formatted_none _ _, formatted_none _ _, formatted_none _ _,
      formatted_none _ _⟩
  obtain ⟨M', hrun, hup⟩ := fwFunc202To203_run (u := clean) hconfig
  obtain ⟨M'', hrun', hdown⟩ := fwFunc203To202_run (u := clean) hconfig hup
  rintro ⟨N', N'', hN, hN', hsame⟩
  rw [hrun] at hN
  cases hN
  rw [hrun'] at hN'
  cases hN'
  have hback := hsame (.ofString "wan_pppoe_rule") (by decide)
  rw [hdown.pppoe] at hback
  have hgrows := (rewriteSet_chap_iff (n := 32) hpppoe (by decide) (by decide)).mp hback _ rfl
  have hne : List.replicate 32 longRule ≠ [] := List.cons_ne_nil _ _
  have hlen : (joinRules (List.replicate 32 longRule)).len + 1 = 32 * 256 := by
    rw [← joinRules_total hne, total, List.map_replicate, List.sum_replicate,
      ruleSize, longRule_len]
    rfl
  have hbuf : EZPLIB_BUF_LEN = 8192 := rfl
  rw [hstored, List.length_replicate, Nat.min_self] at hgrows
  omega

end EzpFirmware.UserNvram
