import EzpFirmware.UserNvram.ReleaseLoops

/-! # Between the releases 2.0.3 and 2.0.4

The newer release has another torrent client, with a rule of its own. The way
back takes the slice for the rates and what follows them one attribute early.
-/
namespace EzpFirmware.UserNvram
open Lib

/-- `fw_func_2_0_3_to_2_0_4`. -/
def fwFunc203To204 (u : Unspecified) : Migration ℤ := do
  let buf ← subruleText u (.ofString "rtorrent_rule") 0 2 2
  let buf2 ← subruleText u (.ofString "rtorrent_rule") 0 4 12
  let tmp := printTmp [.ofString "1^", buf, .ofString "^250^10^", buf2]
  let _ ← (Api.set (.ofString "bt_rule") (some tmp) : Api ℤ)
  let _ ← (Api.set (.ofString "rtorrent_rule") none : Api ℤ)
  let _ ← (Api.set (.ofString "rtorrent_torrent_max") none : Api ℤ)
  let nrule := atoi (← (nvramSafeGet (.ofString "wan_num") : Api CStr))
  eachRule u (.ofString "wan_wwan_rule") nrule fun i => do
    let buf ← subruleText u (.ofString "wan_wwan_rule") i 0 21
    pure (printTmp [buf, .ofString "^0"])
  let nrule := atoi (← (nvramSafeGet (.ofString "wan_num") : Api CStr))
  eachRule u (.ofString "wan_htc_rule") nrule fun i => do
    let buf ← subruleText u (.ofString "wan_htc_rule") i 0 3
    pure (printTmp [buf, .ofString "^0"])
  pure 0

/-- `fw_func_2_0_4_to_2_0_3`. -/
def fwFunc204To203 (u : Unspecified) : Migration ℤ := do
  let buf ← subruleText u (.ofString "bt_rule") 0 1 1
  let buf2 ← subruleText u (.ofString "bt_rule") 0 3 12
  let tmp := printTmp [.ofString "1^10^", buf, .ofString "^2^", buf2]
  let _ ← (Api.set (.ofString "rtorrent_rule") (some tmp) : Api ℤ)
  let buf ← subruleText u (.ofString "bt_torrent_max") 0 0 0
  let _ ← (Api.set (.ofString "rtorrent_torrent_max") (some buf) : Api ℤ)
  let _ ← (Api.set (.ofString "bt_rule") none : Api ℤ)
  let _ ← (Api.set (.ofString "bt_torrent_max") none : Api ℤ)
  let nrule := atoi (← (nvramSafeGet (.ofString "wan_num") : Api CStr))
  eachRule u (.ofString "wan_wwan_rule") nrule
    (subruleText u (.ofString "wan_wwan_rule") · 0 21)
  let nrule := atoi (← (nvramSafeGet (.ofString "wan_num") : Api CStr))
  eachRule u (.ofString "wan_htc_rule") nrule (subruleText u (.ofString "wan_htc_rule") · 0 3)
  pure 0

/-- The way up, the way back and the way up again: the second way up leads to the rule of the first
one, and the rule in between has the attributes from the rates on that `r` has. -/
def RoundTrips204 (u : Unspecified) (M : Variables) (r : CStr) : Prop :=
  ∃ M' M'' M''' r', runOn (fwFunc203To204 u) M = (.ok 0, M') ∧
    runOn (fwFunc204To203 u) M' = (.ok 0, M'') ∧ runOn (fwFunc203To204 u) M'' = (.ok 0, M''') ∧
    M''' (.ofString "bt_rule") = M' (.ofString "bt_rule") ∧
    M'' (.ofString "rtorrent_rule") = some r' ∧ (r'.fields ATTR_SEP).length = 13 ∧
    ∀ i, 4 ≤ i → i ≤ 12 → (r'.fields ATTR_SEP)[i]? = (r.fields ATTR_SEP)[i]?

/-- Printing a text as a format adds no separator and takes none away. -/
def KeepsSeparators (u : Unspecified) : Prop :=
  ∀ s, (u.printf s).val.count ATTR_SEP = s.val.count ATTR_SEP ∧
    (RULE_SEP ∉ s.val → RULE_SEP ∉ (u.printf s).val)

section
variable {u : Unspecified} {M : Variables} {ruleSet r w : CStr} {start stop : ℕ}

/-! ## Slices of a rule -/

/-- Nothing, or a run of `n` attributes of a rule that prints as `x`. -/
structure Slice (x : CStr) (n : ℕ) (w : CStr) : Prop where
  short : w.len < BUF_LEN
  count : w.val.count ATTR_SEP = 0 ∨ w.val.count ATTR_SEP + 1 = n
  bytes : ∀ b ∈ w.val, b = ATTR_SEP ∨ b ∈ x.val

theorem slice_subrule {x : CStr}
    (hfit : (CStr.lines ATTR_SEP ATTR_SEP_ne (subrule x start stop)).len ≤ BUF_LEN) :
    Slice x (subrule x start stop).length (joinAttrs (subrule x start stop)) := by
  have hsub : (subrule x start stop).Sublist (x.fields ATTR_SEP) := subrule_sublist
  have hcount := count_joinAttrs fun f hf => attr_free (hsub.subset hf)
  by_cases hfs : subrule x start stop = []
  · rw [hfs]
    exact ⟨by decide, .inl rfl, fun b hb => by cases hb⟩
  · have hlines := CStr.lines_len (c := ATTR_SEP) (by decide) hfs
    have hpos := List.length_pos_of_ne_nil hfs
    refine ⟨by rw [hlines] at hfit; exact hfit, .inr (by omega), fun b hb => ?_⟩
    rcases CStr.mem_join hb with hb | ⟨f, hf, hb⟩
    · exact .inl hb
    · right
      rw [← joinAttrs_fields x]
      exact CStr.mem_join_of_mem (hsub.subset hf) hb

/-- What a migration takes from a set of one rule. -/
theorem subruleText_inv (hset : ruleSet ≠ CStr.empty) (hM : M ruleSet = some r)
    (hfree : RULE_SEP ∉ r.val) (hle : start ≤ stop) {M' : Variables}
    (hrun : runOn (subruleText u ruleSet 0 start stop) M = (.ok w, M')) :
    M' = M ∧ Slice (u.printf r) (subrule (u.printf r) start stop).length w := by
  have hone : (r.fields RULE_SEP)[0]? = some r := by rw [CStr.fields_of_not_mem hfree]; rfl
  have hget := getRule_stored (u := u) hset hM hone EZPLIB_BUF_LEN
  have hempty : (onMap (ezplibGetRule u ruleSet (0 : ℕ) EZPLIB_BUF_LEN) M).1.1 < 0 →
      M' = M ∧ Slice (u.printf r) (subrule (u.printf r) start stop).length w := by
    intro herr
    rw [subruleText_error herr] at hrun
    cases hrun
    exact ⟨rfl, by decide, .inl rfl, fun b hb => by cases hb⟩
  by_cases hr : r = CStr.empty
  · rw [hget, if_pos hr] at hempty
    exact hempty (by decide : EZPLIB_NO_RULE < 0)
  by_cases hlong : EZPLIB_BUF_LEN ≤ r.len
  · rw [hget, if_neg hr, if_pos hlong] at hempty
    exact hempty (by decide : EZPLIB_VAL_TRUNC < 0)
  rw [if_neg hr, if_neg hlong] at hget
  by_cases hcut : EZPLIB_BUF_LEN ≤ (u.printf r).len
  · rw [hget, printRule_long hcut] at hempty
    exact hempty (by decide : EZPLIB_VAL_TRUNC < 0)
  · rw [printRule_short (not_le.mp hcut)] at hget
    rw [subruleText, runOn_bind, runOn_mk, getSubrule_of_getRule hset hget hle,
      List.length_replicate] at hrun
    by_cases hfit : (CStr.lines ATTR_SEP ATTR_SEP_ne (subrule (u.printf r) start stop)).len ≤ BUF_LEN
    · obtain ⟨buf, hbuf, hread⟩ := printed_fits (by decide : 0 < BUF_LEN) hfit
      rw [hbuf] at hrun
      cases hrun
      rw [hread]
      exact ⟨rfl, slice_subrule hfit⟩
    · rw [printed_over (not_le.mp hfit)] at hrun
      cases hrun

theorem subrule_length {x : CStr} (h13 : (x.fields ATTR_SEP).length ≤ 13) :
    (subrule x start stop).length = min (stop + 1) (x.fields ATTR_SEP).length - start := by
  rw [subrule_eq (h13.trans (by decide)), List.length_drop, List.length_take]

/-! ## The two rules -/

/-- The rule for the new client. -/
def btRule (buf buf2 : CStr) : CStr := printTmp [.ofString "1^", buf, .ofString "^250^10^", buf2]

/-- The rule for the old client. -/
def rtorrentRule (buf buf2 : CStr) : CStr :=
  printTmp [.ofString "1^10^", buf, .ofString "^2^", buf2]

section
variable {x y s t a b : CStr} {m n : ℕ}

theorem count_print (hs : Slice x m s) (ht : Slice x n t) (hab : a.len + b.len ≤ BUF_LEN) :
    (printTmp [a, s, b, t]).val.count ATTR_SEP = a.val.count ATTR_SEP + s.val.count ATTR_SEP +
      b.val.count ATTR_SEP + t.val.count ATTR_SEP := by
  have hs' := hs.short
  have ht' := ht.short
  have hbuf : BUF_LEN + BUF_LEN + BUF_LEN < TMP_LEN := by decide
  rw [printTmp_eq]
  · simp [CStr.concat, CStr.append, CStr.empty, Nat.add_assoc]
  · simp only [CStr.concat, CStr.append_len, CStr.empty_len]
    omega

/-- The new rule has five attributes or 13. -/
theorem count_btRule (hs : Slice x 1 s) (ht : Slice x 9 t) :
    (btRule s t).val.count ATTR_SEP = 4 ∨ (btRule s t).val.count ATTR_SEP = 12 := by
  have hone : (CStr.ofString "1^").val.count ATTR_SEP = 1 := by decide
  have htwo : (CStr.ofString "^250^10^").val.count ATTR_SEP = 3 := by decide
  have hcount := count_print hs ht
    (by decide : (CStr.ofString "1^").len + (CStr.ofString "^250^10^").len ≤ BUF_LEN)
  rw [hone, htwo] at hcount
  rw [btRule, hcount]
  have hs' := hs.count
  have ht' := ht.count
  omega

theorem not_mem_btRule (hs : Slice x m s) (ht : Slice x n t) {c : UInt8} (hc : c ∉ x.val)
    (hsep : c ≠ ATTR_SEP) (hlit : c ∉ (CStr.ofString "1^").val ∧ c ∉ (CStr.ofString "^250^10^").val) :
    c ∉ (btRule s t).val := by
  intro h
  have h := List.mem_of_mem_take h
  simp only [CStr.concat, CStr.append, CStr.empty, List.append_nil, List.mem_append] at h
  rcases h with h | h | h | h
  · exact hlit.1 h
  · exact (hs.bytes c h).elim hsep hc
  · exact hlit.2 h
  · exact (ht.bytes c h).elim hsep hc

/-- The old rule then has 5, 6 or 14. -/
theorem count_rtorrentRule (hx : x.val.count ATTR_SEP = 4 ∨ x.val.count ATTR_SEP = 12)
    (hs : Slice x (subrule x 1 1).length s) (ht : Slice x (subrule x 3 12).length t) :
    (rtorrentRule s t).val.count ATTR_SEP ≠ 12 := by
  have hone : (CStr.ofString "1^10^").val.count ATTR_SEP = 2 := by decide
  have htwo : (CStr.ofString "^2^").val.count ATTR_SEP = 2 := by decide
  have hcount := count_print hs ht
    (by decide : (CStr.ofString "1^10^").len + (CStr.ofString "^2^").len ≤ BUF_LEN)
  have hs' := hs.count
  have ht' := ht.count
  have hlen := CStr.length_fields (c := ATTR_SEP) x
  rw [subrule_length (by omega), hlen] at hs' ht'
  rw [hone, htwo] at hcount
  rw [rtorrentRule, hcount]
  omega

end

/-! ## The two ways -/

theorem fwFunc203To204_inv (hM : M (.ofString "rtorrent_rule") = some r) (hfree : RULE_SEP ∉ r.val)
    (h13 : ((u.printf r).fields ATTR_SEP).length = 13) {M' : Variables} {x : ℤ}
    (hrun : runOn (fwFunc203To204 u) M = (.ok x, M')) :
    ∃ s t, Slice (u.printf r) 1 s ∧ Slice (u.printf r) 9 t ∧
      M' (.ofString "bt_rule") = kept (some (btRule s t)) := by
  have hset : CStr.ofString "rtorrent_rule" ≠ CStr.empty := by decide
  obtain ⟨s, M₁, hs, hrun₁⟩ := runOn_bind_inv hrun
  obtain ⟨hM₁, hs⟩ := subruleText_inv hset hM hfree (by decide) hs
  rw [hM₁] at hrun₁
  obtain ⟨t, M₂, ht, hrun₂⟩ := runOn_bind_inv hrun₁
  obtain ⟨hM₂, ht⟩ := subruleText_inv hset hM hfree (by decide) ht
  rw [hM₂] at hrun₂
  rw [subrule_length h13.le, h13] at hs ht
  refine ⟨s, t, hs, ht, ?_⟩
  obtain ⟨_, M₃, hbt, hrun₃⟩ := runOn_bind_inv hrun₂
  rw [runOn_lift, onMap_set] at hbt
  cases hbt
  rw [runOn_confined hrun₃ (P := (· ≠ CStr.ofString "bt_rule")) _ (not_not_intro rfl)]
  · exact Function.update_self (CStr.ofString "bt_rule") _ M
  apply confined_bind (confined_lift (confined_set (by decide) _))
  intro _
  apply confined_bind (confined_lift (confined_set (by decide) _))
  intro _
  apply confined_bind (confined_lift (confined_safeGet _))
  intro num
  apply confined_bind
  · apply confined_eachRule (by decide)
    intro i
    exact confined_bind (confined_subruleText u _ i 0 21) fun _ => trivial
  intro _
  apply confined_bind (confined_lift (confined_safeGet _))
  intro num
  apply confined_bind
  · apply confined_eachRule (by decide)
    intro i
    exact confined_bind (confined_subruleText u _ i 0 3) fun _ => trivial
  exact fun _ => trivial

theorem fwFunc204To203_inv (hM : M (.ofString "bt_rule") = some r) (hfree : RULE_SEP ∉ r.val)
    {M' : Variables} {x : ℤ} (hrun : runOn (fwFunc204To203 u) M = (.ok x, M')) :
    ∃ s t, Slice (u.printf r) (subrule (u.printf r) 1 1).length s ∧
      Slice (u.printf r) (subrule (u.printf r) 3 12).length t ∧
      M' (.ofString "rtorrent_rule") = kept (some (rtorrentRule s t)) := by
  have hset : CStr.ofString "bt_rule" ≠ CStr.empty := by decide
  obtain ⟨s, M₁, hs, hrun₁⟩ := runOn_bind_inv hrun
  obtain ⟨hM₁, hs⟩ := subruleText_inv hset hM hfree (by decide) hs
  rw [hM₁] at hrun₁
  obtain ⟨t, M₂, ht, hrun₂⟩ := runOn_bind_inv hrun₁
  obtain ⟨hM₂, ht⟩ := subruleText_inv hset hM hfree (by decide) ht
  rw [hM₂] at hrun₂
  refine ⟨s, t, hs, ht, ?_⟩
  obtain ⟨_, M₃, hrtorrent, hrun₃⟩ := runOn_bind_inv hrun₂
  rw [runOn_lift, onMap_set] at hrtorrent
  cases hrtorrent
  rw [runOn_confined hrun₃ (P := (· ≠ CStr.ofString "rtorrent_rule")) _ (not_not_intro rfl)]
  · exact Function.update_self (CStr.ofString "rtorrent_rule") _ M
  apply confined_bind (confined_subruleText u _ 0 0 0)
  intro _
  apply confined_bind (confined_lift (confined_set (by decide) _))
  intro _
  apply confined_bind (confined_lift (confined_set (by decide) _))
  intro _
  apply confined_bind (confined_lift (confined_set (by decide) _))
  intro _
  apply confined_bind (confined_lift (confined_safeGet _))
  intro num
  apply confined_bind (confined_eachRule (by decide) (confined_subruleText u _ · 0 21) _)
  intro _
  apply confined_bind (confined_lift (confined_safeGet _))
  intro num
  apply confined_bind (confined_eachRule (by decide) (confined_subruleText u _ · 0 3) _)
  exact fun _ => trivial

end

/-- Whatever the rule of 13 attributes, it does not come back. -/
theorem roundTrips204_never (M : Variables) (r : CStr)
    (hM : M (.ofString "rtorrent_rule") = some r) (hfree : RULE_SEP ∉ r.val)
    (h13 : (r.fields ATTR_SEP).length = 13) :
    (∀ u : Unspecified, PERCENT ∉ r.val ∨ KeepsSeparators u → ¬ RoundTrips204 u M r) ∧
      ∃ u, ¬ RoundTrips204 u M r := by
  have hnever (u : Unspecified) (hu : PERCENT ∉ r.val ∨ KeepsSeparators u) :
      ¬ RoundTrips204 u M r := by
    rintro ⟨M', M'', M₃, r', hup, hdown, -, -, hr', h13', -⟩
    have hprint : (u.printf r).val.count ATTR_SEP = r.val.count ATTR_SEP ∧
        RULE_SEP ∉ (u.printf r).val := by
      rcases hu with hplain | hkeeps
      · rw [u.printf_plain r hplain]
        exact ⟨rfl, hfree⟩
      · exact ⟨(hkeeps r).1, (hkeeps r).2 hfree⟩
    rw [CStr.length_fields] at h13 h13'
    obtain ⟨s, t, hs, ht, hbt⟩ := fwFunc203To204_inv hM hfree
      (by rw [CStr.length_fields, hprint.1, h13]) hup
    have hcount := count_btRule hs ht
    have hbtfree : RULE_SEP ∉ (btRule s t).val :=
      not_mem_btRule hs ht hprint.2 (by decide) (by decide)
    have hbtne : btRule s t ≠ CStr.empty := by
      intro h0
      rw [h0] at hcount
      exact absurd hcount (by decide)
    have hprint' : (u.printf (btRule s t)).val.count ATTR_SEP = (btRule s t).val.count ATTR_SEP := by
      rcases hu with hplain | hkeeps
      · rw [u.printf_plain r hplain] at hs ht
        rw [u.printf_plain _ (not_mem_btRule hs ht hplain (by decide) (by decide))]
      · exact (hkeeps _).1
    rw [kept, Option.bind_some, if_neg hbtne] at hbt
    obtain ⟨s', t', hs', ht', hold⟩ := fwFunc204To203_inv hbt hbtfree hdown
    have hno := count_rtorrentRule (hprint'.symm ▸ hcount) hs' ht'
    rw [hr'] at hold
    rw [kept, Option.bind_some] at hold
    split_ifs at hold
    cases hold
    omega
  exact ⟨hnever, clean, hnever clean (.inr fun _ => ⟨rfl, id⟩)⟩

/-- A client that has its default settings. -/
def torrentRule : CStr := .ofString "1^1^100^50^0^0^/m^/s^/w^6890^6999^6881^no"

theorem roundTrips204_torrent :
    (∀ u : Unspecified, PERCENT ∉ torrentRule.val ∨ KeepsSeparators u →
      ¬ RoundTrips204 u (oneSet "rtorrent_rule" torrentRule) torrentRule) ∧
      ∃ u, ¬ RoundTrips204 u (oneSet "rtorrent_rule" torrentRule) torrentRule :=
  roundTrips204_never (oneSet "rtorrent_rule" torrentRule) torrentRule (by decide) (by decide)
    (by decide)

/-- The rule on the way back has 14 attributes, as the first of the slice is the 10 put in before. -/
theorem roundTrips204_shifts : ¬ RoundTrips204 clean (oneSet "rtorrent_rule" torrentRule)
    torrentRule := by
  rintro ⟨M', M'', M₃, r', hup, hdown, -, -, hr', h13, -⟩
  have hback : ((runOn (fwFunc204To203 clean)
      (runOn (fwFunc203To204 clean) (oneSet "rtorrent_rule" torrentRule)).2).2
        (.ofString "rtorrent_rule")).map (fun r => (r.fields ATTR_SEP).length) = some 14 := by
    decide +kernel
  rw [hup, hdown] at hback
  dsimp only at hback
  rw [hr', Option.map_some, h13] at hback
  cases hback

end EzpFirmware.UserNvram
