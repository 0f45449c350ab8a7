import EzpFirmware.Httpd.VlanMembers

/-! # Texts of the virtual networks

The rules are printed one behind another into one buffer. They come out whole,
with a flag for each port in its place, if the submitted texts are flags, the
kept entries are too, and the buffer has room for all rules.
-/
namespace EzpFirmware.Httpd
open Lib UserNvram

section
variable {u : Unspecified} {form : Form} {nvram : Variables} {i n : ℕ} {st st' : VlanRoom}
  {buf buf' : CStr} {members : ℕ → CStr}

/-- The text of some rules, for the member text of each. -/
def vlanText (form : Form) (members : ℕ → CStr) (n : ℕ) : CStr :=
  CStr.join RULE_SEP RULE_SEP_ne ((List.range n).map fun i => vlanRow form i (members i))

theorem vlanText_congr {members' : ℕ → CStr} (h : ∀ i < n, members i = members' i) :
    vlanText form members n = vlanText form members' n := by
  unfold vlanText
  congr 1
  refine List.map_congr_left fun i hi => ?_
  rw [h i (List.mem_range.mp hi)]

theorem addVlanRow_text (hbuf : 0 < n → buf = (vlanText form members n).take (LONG_BUF_LEN - 1)) :
    addVlanRow n buf (vlanRow form n (members n)) =
      (vlanText form members (n + 1)).take (LONG_BUF_LEN - 1) := by
  rcases Nat.eq_zero_or_pos n with rfl | hn
  · rfl
  · rw [addVlanRow, if_neg hn.ne', hbuf hn, CStr.take_glue_take, vlanText, vlanText,
      CStr.join_range_succ RULE_SEP_ne _ hn]

/-- What the rounds leave. -/
theorem vlanRounds_spec (hst : st.Sized)
    (h : vlanRounds u form nvram n st buf = some (st', buf')) :
    st'.Sized ∧ (0 < n → PortBounds nvram) ∧ ∃ members, (∀ i < n, Member u nvram i (members i)) ∧
      (0 < n → buf' = (vlanText form members n).take (LONG_BUF_LEN - 1)) := by
  induction n generalizing st' buf' with
  | zero =>
    cases h
    exact ⟨hst, fun h => absurd h (by decide), fun _ => CStr.empty,
      fun i hi => absurd hi (Nat.not_lt_zero i), fun h => absurd h (by decide)⟩
  | succ n ih =>
    rw [vlanRounds, Option.bind_eq_some_iff] at h
    obtain ⟨⟨before, text⟩, hbefore, hround⟩ := h
    obtain ⟨hsized, -, members, hmembers, htext⟩ := ih hbefore
    obtain ⟨hlast, hbounds, member, hmember, hbuf⟩ := vlanRound_spec hsized hround
    have hsame : ∀ i < n, Function.update members n member i = members i := fun i hi =>
      Function.update_of_ne hi.ne _ _
    refine ⟨hlast, fun _ => hbounds, Function.update members n member, fun i hi => ?_, fun _ => ?_⟩
    · rcases Nat.lt_succ_iff_lt_or_eq.mp hi with hi | rfl
      · rw [hsame i hi]
        exact hmembers i hi
      · rwa [Function.update_self]
    · rw [hbuf, ← addVlanRow_text, Function.update_self]
      intro hn
      rw [htext hn, vlanText_congr hsame]

/-- Rounds over rules that fit go through. -/
theorem vlanRounds_run (hports : 0 < n → PortsFit nvram) (hn : n ≤ 10 ^ 4)
    (h : ∀ i < n, RuleFits u form nvram i) (htmp : st.tmp.length = TMP_LEN)
    (hpm : HasText st.portmember SHORT_BUF_LEN CStr.empty) :
    ∃ st' buf', vlanRounds u form nvram n st buf = some (st', buf') ∧ st'.tmp.length = TMP_LEN ∧
      HasText st'.portmember SHORT_BUF_LEN CStr.empty ∧
      (0 < n → buf' = (vlanText form (memberText u form nvram) n).take (LONG_BUF_LEN - 1)) := by
  induction n with
  | zero => exact ⟨st, buf, rfl, htmp, hpm, fun h => absurd h (by decide)⟩
  | succ n ih =>
    have hfits := hports (Nat.zero_lt_succ n)
    obtain ⟨before, text, hbefore, hbtmp, hbpm, htext⟩ := ih (fun _ => hfits) (by omega)
      fun i hi => h i (Nat.lt_succ_of_lt hi)
    obtain ⟨st', hround, hstmp, hspm⟩ := vlanRound_run hfits (by omega)
      (h n (Nat.lt_succ_self n)) hbtmp hbpm
    refine ⟨st', _, ?_, hstmp, hspm, fun _ => addVlanRow_text htext⟩
    rw [vlanRounds, hbefore, Option.bind_some, hround]

/-! ## The flags in their places -/

/-- The place of a port in the member text, both counted from 0. -/
def portPlace (nvram : Variables) (j : ℕ) : ℕ :=
  if rotated nvram then (j + 1) % (vlanportNum nvram).toNat else j

theorem concat_flags_get {j : ℕ} (hflags : ∀ f ∈ portFlags form i n, IsFlag f) (hj : j < n) :
    ((CStr.concat (portFlags form i n)).val[j]?).map (fun b => [b]) =
      some (portFlag form i (j + 1)).val := by
  induction n with
  | zero => exact absurd hj (Nat.not_lt_zero j)
  | succ n ih =>
    rw [portFlags_succ] at hflags ⊢
    have hbefore := fun f hf => hflags f (List.mem_append_left _ hf)
    have hlen : (CStr.concat (portFlags form i n)).val.length = n := concat_flags_len hbefore
    rw [CStr.concat_append, CStr.concat_singleton, CStr.append]
    dsimp only
    rcases Nat.lt_succ_iff_lt_or_eq.mp hj with hj | rfl
    · rw [List.getElem?_append_left (by rw [hlen]; exact hj)]
      exact ih hbefore hj
    · obtain ⟨b, -, hb⟩ := (hflags _ (List.mem_append_right _ List.mem_cons_self)).val
      rw [List.getElem?_append_right hlen.le, hlen, Nat.sub_self, hb]
      rfl

theorem lastFirst_get {l : List UInt8} {j : ℕ} (hj : j < l.length) :
    (lastFirst l)[(j + 1) % l.length]? = l[j]? := by
  have hdrop : (l.drop (l.length - 1)).length = 1 := by
    rw [List.length_drop]
    omega
  by_cases hlast : j + 1 = l.length
  · have hj' : l.length - 1 = j := by omega
    rw [hlast, Nat.mod_self, lastFirst, List.getElem?_append_left (by rw [hdrop]; decide),
      List.getElem?_drop, hj', Nat.add_zero]
  · rw [Nat.mod_eq_of_lt (by omega), lastFirst, List.getElem?_append_right (by rw [hdrop]; omega),
      hdrop, Nat.add_sub_cancel, List.getElem?_take, if_pos (by omega)]

theorem RuleFits.place_lt (h : RuleFits u form nvram i) {j : ℕ}
    (hj : j < (vlanportNum nvram).toNat) :
    portPlace nvram j < (storedFlags form nvram i).length := by
  rw [h.storedFlags_length, portPlace]
  split_ifs
  · exact Nat.mod_lt _ (by omega)
  · exact hj

/-- Each flag is stored in its place. -/
theorem RuleFits.stored (h : RuleFits u form nvram i) {j : ℕ} (hj : j < (vlanportNum nvram).toNat) :
    ((storedFlags form nvram i)[portPlace nvram j]?).map (fun b => [b]) =
      some (portFlag form i (j + 1)).val := by
  have hlen : (CStr.concat (portFlags form i (vlanportNum nvram).toNat)).val.length =
      (vlanportNum nvram).toNat := concat_flags_len h.flags
  rw [← concat_flags_get h.flags hj, storedFlags, portPlace]
  split_ifs with hrot
  · have hget := lastFirst_get (hj.trans_eq hlen.symm)
    rw [hlen] at hget
    rw [hget]
  · rfl

/-! ## The whole text -/

/-- A text has the rules of a form, with a member text for each. -/
structure RulesBuilt (form : Form) (nvram : Variables) (n : ℕ) (buf : CStr)
    (members : ℕ → CStr) : Prop where
  text : buf = vlanText form members n
  vid : ∀ i < n, 1 ≤ atoi (vlanField form i "vid") ∧ atoi (vlanField form i "vid") ≤ 4094
  length : ∀ i < n, ((members i).len : ℤ) = vlanportMax nvram
  binary : ∀ i < n, ∀ b ∈ (members i).val, IsFlagByte b
  port : ∀ i < n, ∀ j < (vlanportNum nvram).toNat,
    ((members i).val[portPlace nvram j]?).map (fun b => [b]) = some (portFlag form i (j + 1)).val

/-- The submitted rules can be built. -/
structure RulesFit (u : Unspecified) (form : Form) (nvram : Variables) (n : ℕ) : Prop where
  vid : ∀ i < n, 1 ≤ atoi (vlanField form i "vid") ∧ atoi (vlanField form i "vid") ≤ 4094
  rule : ∀ i < n, RuleFits u form nvram i
  room : ((List.range n).map fun i =>
    (vlanRow form i CStr.empty).len + (vlanportMax nvram).toNat + 1).sum ≤ LONG_BUF_LEN

theorem vlanRow_len (form : Form) (i : ℕ) (member : CStr) :
    (vlanRow form i member).len = (vlanRow form i CStr.empty).len + member.len := by
  simp only [vlanRow, ruleText, CStr.join, CStr.glue_len, CStr.empty_len]
  omega

theorem vlanRow_inj {member member' : CStr} (h : vlanRow form i member = vlanRow form i member') :
    member = member' := by
  have hval := congrArg Subtype.val h
  simp only [vlanRow, ruleText, CStr.join, CStr.glue, List.append_cancel_left_eq,
    List.cons.injEq, true_and] at hval
  exact Subtype.ext hval

theorem vlanText_len (hn : 0 < n) (hlen : ∀ i < n, (members i).len = (vlanportMax nvram).toNat) :
    (vlanText form members n).len + 1 = ((List.range n).map fun i =>
      (vlanRow form i CStr.empty).len + (vlanportMax nvram).toNat + 1).sum := by
  rw [vlanText, CStr.join_range_len RULE_SEP_ne _ hn]
  congr 1
  refine List.map_congr_left fun i hi => ?_
  rw [vlanRow_len, hlen i (List.mem_range.mp hi)]

/-- A buffer does not hold more rules than bytes. -/
theorem RulesFit.num_le (h : RulesFit u form nvram n) : n ≤ LONG_BUF_LEN := by
  have hsum := List.length_le_sum_of_one_le ((List.range n).map fun i =>
    (vlanRow form i CStr.empty).len + (vlanportMax nvram).toNat + 1) (by simp)
  rw [List.length_map, List.length_range] at hsum
  exact hsum.trans h.room

theorem RuleFits.memberText_len (h : RuleFits u form nvram i) (hports : PortsFit nvram) :
    (memberText u form nvram i).len = (vlanportMax nvram).toNat := by
  have hval := congrArg List.length h.memberText_val
  rw [List.length_append, h.storedFlags_length, keptPorts, restPorts_length] at hval
  have hle := hports.num_le
  have hnonneg := hports.num_nonneg
  change (memberText u form nvram i).len = _ at hval
  omega

/-- Rules that fit are built. -/
theorem built_of_fits {tmp : List UInt8} (htmp : tmp.length = TMP_LEN) (hn : 0 < n)
    (hports : PortsFit nvram) (h : RulesFit u form nvram n) (buf : CStr) :
    buildVlanRule u form nvram tmp n buf = some (vlanText form (memberText u form nvram) n) ∧
      RulesBuilt form nvram n (vlanText form (memberText u form nvram) n)
        (memberText u form nvram) := by
  have hlen := fun i hi => (h.rule i hi).memberText_len hports
  have hroom := h.room
  rw [← vlanText_len hn hlen] at hroom
  have hzeros : HasText (List.replicate SHORT_BUF_LEN 0) SHORT_BUF_LEN CStr.empty :=
    ⟨List.length_replicate, List.replicate (SHORT_BUF_LEN - 1) 0, rfl⟩
  have hmany : LONG_BUF_LEN ≤ 10 ^ 4 := by decide
  obtain ⟨st', buf', hrun, -, -, hbuf⟩ : ∃ st' buf',
      vlanRounds u form nvram n ⟨tmp, List.replicate SHORT_BUF_LEN 0⟩ buf = some (st', buf') ∧ _ :=
    vlanRounds_run (fun _ => hports) (h.num_le.trans hmany) h.rule htmp hzeros
  have htext := hbuf hn
  rw [take_of_len_le (by omega)] at htext
  subst htext
  refine ⟨?_, rfl, h.vid, fun i hi => ?_, fun i hi b hb => ?_, fun i hi j hj => ?_⟩
  · rw [buildVlanRule, Int.toNat_natCast, hrun]
    rfl
  · rw [hlen i hi]
    have hle := hports.num_le
    have hnonneg := hports.num_nonneg
    omega
  · rw [(h.rule i hi).memberText_val] at hb
    rcases List.mem_append.mp hb with hb | hb
    · exact (h.rule i hi).flagByte b hb
    · exact (h.rule i hi).rest b hb
  · rw [(h.rule i hi).memberText_val, List.getElem?_append_left ((h.rule i hi).place_lt hj)]
    exact (h.rule i hi).stored hj

/-- Rules that are built fit. -/
theorem fits_of_built {tmp : List UInt8} (htmp : tmp.length = TMP_LEN) (hn : 0 < n)
    (hbuild : buildVlanRule u form nvram tmp n buf = some buf')
    (h : RulesBuilt form nvram n buf' members) :
    0 ≤ vlanportNum nvram ∧ vlanportNum nvram ≤ vlanportMax nvram ∧
      vlanportMax nvram < SHORT_BUF_LEN ∧ RulesFit u form nvram n := by
  obtain ⟨⟨st', text⟩, hrun, hlast⟩ := Option.map_eq_some_iff.mp hbuild
  dsimp only at hlast
  subst hlast
  rw [Int.toNat_natCast] at hrun
  obtain ⟨-, hbounds, members', hmembers, htext⟩ :=
    vlanRounds_spec ⟨htmp, List.length_replicate⟩ hrun
  obtain ⟨hnonneg, -, hmax, hlt⟩ := hbounds hn
  have hlen : ∀ i < n, (members i).len = (vlanportMax nvram).toNat := fun i hi => by
    have heq := h.length i hi
    omega
  have hshort : ∀ i < n,
      (vlanRow form i (members' i)).len ≤ (vlanRow form i (members i)).len := by
    intro i hi
    rw [vlanRow_len, vlanRow_len form i (members i), hlen i hi]
    exact Nat.add_le_add_left (hmembers i hi).len _
  have hcut := h.text.symm.trans (htext hn)
  have hle := CStr.join_range_len_le RULE_SEP_ne hshort
  have htake : (vlanText form members n).len =
      min (LONG_BUF_LEN - 1) (vlanText form members' n).len := by
    rw [hcut]
    exact List.length_take
  have hwhole : vlanText form members' n = vlanText form members n := by
    rw [hcut]
    refine (take_of_len_le ?_).symm
    change (vlanText form members' n).len ≤ (vlanText form members n).len at hle
    omega
  have hsame : ∀ i < n, members' i = members i := fun i hi =>
    vlanRow_inj (CStr.join_range_inj RULE_SEP_ne hshort hwhole i hi)
  have hflag : ∀ i < n, ∀ j < (vlanportNum nvram).toNat, ∃ b ∈ (members i).val,
      (members i).val[portPlace nvram j]? = some b ∧ (portFlag form i (j + 1)).val = [b] := by
    intro i hi j hj
    obtain ⟨b, hb, hval⟩ := Option.map_eq_some_iff.mp (h.port i hi j hj)
    exact ⟨b, List.mem_of_getElem? hb, hb, hval.symm⟩
  have hnum : vlanportNum nvram ≤ vlanportMax nvram := by
    by_cases hzero : (vlanportNum nvram).toNat = 0
    · omega
    · have hplace : ∃ j < (vlanportNum nvram).toNat,
          portPlace nvram j = (vlanportNum nvram).toNat - 1 := by
        unfold portPlace
        split_ifs with hrot
        · rcases Nat.lt_or_ge 1 (vlanportNum nvram).toNat with hmany | hone
          · refine ⟨(vlanportNum nvram).toNat - 2, by omega, ?_⟩
            rw [Nat.mod_eq_of_lt (by omega)]
            omega
          · refine ⟨0, by omega, ?_⟩
            rw [show (vlanportNum nvram).toNat = 1 by omega]
        · exact ⟨_, by omega, rfl⟩
      obtain ⟨j, hj, hlast⟩ := hplace
      obtain ⟨b, -, hb, -⟩ := hflag 0 hn j hj
      have hin := (List.getElem?_eq_some_iff.mp hb).1
      have hfull : (members 0).val.length = (vlanportMax nvram).toNat := hlen 0 hn
      omega
  refine ⟨hnonneg, hnum, hlt, h.vid, fun i hi => ⟨fun f hf => ?_, fun b hb => ?_⟩, ?_⟩
  · obtain ⟨j, hj, rfl⟩ := List.mem_map.mp hf
    obtain ⟨b, hmem, -, hval⟩ := hflag i hi j (List.mem_range.mp hj)
    exact .of_val (h.binary i hi b hmem) hval
  · rw [← (hmembers i hi).rest hnum (by rw [hsame i hi, hlen i hi]), hsame i hi] at hb
    exact h.binary i hi b (List.mem_of_mem_drop hb)
  · rw [← vlanText_len hn hlen, htake]
    have hpos : 0 < LONG_BUF_LEN := by decide
    omega

end

end EzpFirmware.Httpd
