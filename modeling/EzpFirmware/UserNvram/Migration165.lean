import EzpFirmware.Lib.Numerals
import EzpFirmware.UserNvram.AttrLayouts
import EzpFirmware.UserNvram.ChangeChecks

/-! # The first release with bandwidth for experts

The rules for the bandwidth get two attributes in between. A new rule is printed
part by part behind a running pointer, and the pointer is not set back for the
next rule.
-/
namespace EzpFirmware.UserNvram
open Lib

def WAN_BW_RULE : CStr := .ofString "wan_bw_rule"

/-- The size of `new`. -/
def NEW_LEN : ℕ := 1024

/-- What is printed in one go. -/
inductive Part where
  /-- `"%s^"` of an attribute. -/
  | value (type : CStr)
  /-- `"%s"` of the last one. -/
  | last (type : CStr)
  /-- `"0^"`. -/
  | zero

/-- `ezplib_get_attr_val` to `tmp`. -/
def attrText (u : Unspecified) (i bsize : ℕ) (type : CStr) : Migration CStr := do
  let r ← ExceptT.mk (InMemory.ezplibGetAttrVal u WAN_BW_RULE i type bsize)
  pure r.2

def Part.text (u : Unspecified) (i bsize : ℕ) : Part → Migration CStr
  | .value type => do pure (CStr.concat [← attrText u i bsize type, .ofString "^"])
  | .last type => attrText u i bsize type
  | .zero => pure (.ofString "0^")

/-- The prints of one round. -/
def printParts (u : Unspecified) (i bsize : ℕ) : List Part → Print → Migration Print
  | [], p => pure p
  | part :: parts, p => do
    match p.put (← part.text u i bsize) with
    | none => throw .overflow
    | some p => printParts u i bsize parts p

/-- The loop `for (i = 0, j = 0, len = 0; i < WAN_NUM; i++)` from round `i` on. Every round goes on
where the last one stopped, and replaces the rule by what is in `new` then. -/
def eachWan (u : Unspecified) (bsize : ℕ) (parts : List Part) : ℕ → ℕ → Print → Migration Print
  | 0, _, p => pure p
  | n + 1, i, p => do
    let p ← printParts u i bsize parts p
    let _ ← (ezplibReplaceRule u WAN_BW_RULE i (CStr.read p.buf) : Api ℤ)
    eachWan u bsize parts n (i + 1) p

/-- `new` before the first print. -/
def emptyNew : Print := ⟨List.replicate NEW_LEN 0, 0⟩

def newParts : List Part := [.value (.ofString "type"), .value (.ofString "dl"),
  .value (.ofString "ul"), .zero, .zero, .value (.ofString "expert_dl"),
  .value (.ofString "expert_ul"), .value (.ofString "link_percent"),
  .value (.ofString "global_percent"), .value (.ofString "user_percent"),
  .value (.ofString "dbm_upmax"), .last (.ofString "dbm_upmin")]

/-- `fw_func_0_0_0_to_1_6_5`. -/
def fwFunc000To165 (u : Unspecified) (wanNum : ℕ) : Migration ℤ := do
  let value ← (nvramSafeGet WAN_BW_RULE : Api CStr)
  if value = CStr.empty then pure 0
  else do
    let _ ← eachWan u 64 newParts wanNum 0 emptyNew
    pure 0

def oldParts : List Part := [.value (.ofString "type"), .value (.ofString "dl"),
  .value (.ofString "ul"), .value (.ofString "link_percent"), .value (.ofString "global_percent"),
  .value (.ofString "user_percent"), .value (.ofString "dbm_upmax"),
  .value (.ofString "dbm_upmin"), .value (.ofString "dbm_downmax"), .last (.ofString "dbm_downmin")]

/-- `wan%d_bw_mode`. -/
def bwMode (i : ℕ) : CStr :=
  (CStr.concat [.ofString "wan", decimal i, .ofString "_bw_mode"]).take 63

/-- `fw_func_1_6_5_to_0_0_0`. -/
def fwFunc165To000 (u : Unspecified) (wanNum : ℕ) : Migration ℤ := do
  let value ← (nvramSafeGet WAN_BW_RULE : Api CStr)
  forEach (fun i => do let _ ← (Api.set (bwMode i) none : Api ℤ)) (List.range wanNum)
  if value = CStr.empty then pure 0
  else do
    let _ ← eachWan u 128 oldParts wanNum 0 emptyNew
    pure 0

/-- The attributes of a rule that is put into the new format. -/
def widened (fs : List CStr) : List CStr :=
  fs.take 3 ++ [.ofString "0", .ofString "0"] ++ fs.drop 3

/-- The attributes of a rule of the old format, each one shorter than the buffers for it. -/
structure BwRule (fs : List CStr) : Prop where
  ten : fs.length = 10
  attrs : ∀ f ∈ fs, ATTR_SEP ∉ f.val ∧ RULE_SEP ∉ f.val ∧ PERCENT ∉ f.val ∧ f.len < 64

/-- Every rule is put into the new format, and the way back leads to the old rules. -/
def MigratesEach (u : Unspecified) (wanNum : ℕ) (M : Variables) (bwRules : List (List CStr)) :
    Prop :=
  ∃ M' M'', runOn (fwFunc000To165 u wanNum) M = (.ok 0, M') ∧
    M' WAN_BW_RULE = some (joinRules (bwRules.map fun fs => joinAttrs (widened fs))) ∧
    runOn (fwFunc165To000 u wanNum) M' = (.ok 0, M'') ∧ M'' WAN_BW_RULE = M WAN_BW_RULE

/-! ## What is read of a rule -/

/-- The names of the attributes in the new format. -/
def bwNames : List CStr := wanBwRuleAttr.names

theorem bwTable : ∃ v ∈ rules, v.name = WAN_BW_RULE ∧ v.attr = wanBwRuleAttr :=
  ⟨rule "wan_bw_rule" wanBwRuleAttr, by simp [rules], by decide, rfl⟩

theorem bwAttr : ∀ type ∈ bwNames, type ≠ CStr.empty ∧
    wanBwRuleAttr[bwNames.idxOf type]? = some (some ⟨type, .showValue⟩) := by decide +kernel

/-- The attribute of a rule under a name of the new format. -/
def attrOf (fs : List CStr) (type : CStr) : CStr := fs.getD (bwNames.idxOf type) CStr.empty

section
variable {u : Unspecified} {M M' : Variables} {rs : List CStr} {r type : CStr} {i bsize : ℕ}

/-- A text that is read is short and plain, and it is the attribute if the set can be read. -/
theorem HoldsRules.attrText (h : HoldsRules M WAN_BW_RULE rs) (htype : type ∈ bwNames)
    (hsize : 0 < bsize) :
    ∃ w, runOn (attrText u i bsize type) M = (.ok w, M) ∧ w.len < bsize ∧
      (∀ b ∈ w.val, PlainByte b) ∧ ∀ r, rs[i]? = some r → total ruleSize rs ≤ EZPLIB_BUF_LEN →
        (attrOf (r.fields ATTR_SEP) type).len < bsize → w = attrOf (r.fields ATTR_SEP) type := by
  obtain ⟨v, hv, hname, hattrs⟩ := bwTable
  obtain ⟨htype0, hattr⟩ := bwAttr type htype
  have hsame := onMap_of_confined
    (confined_attrVal u WAN_BW_RULE i type bsize) M
  have hrun {n : ℤ} {w : CStr}
      (hget : (onMap (InMemory.ezplibGetAttrVal u WAN_BW_RULE i type bsize) M).1 = .ok (n, w)) :
      runOn (UserNvram.attrText u i bsize type) M = (.ok w, M) := by
    rw [UserNvram.attrText, runOn_bind, runOn_mk, hsame, hget]
    rfl
  rcases h.getRule (u := u) (i := i) with ⟨r, hr, hroom⟩ | ⟨herr, hnone⟩
  · have hplain := h.rules r (List.mem_of_getElem? hr)
    have hshort := (h.readable hroom).fits
    have hget := getAttrVal_stored (u := u) h.name h.stored
      (h.fields.symm ▸ hr : ((joinRules rs).fields RULE_SEP)[i]? = some r) hv hname
      (by rw [hattrs]; exact htype) (by rw [hattrs]; exact hattr) bsize
    have hlen : r.len ≤ (joinRules rs).len := CStr.len_le_of_mem_fields
      (h.fields.symm ▸ List.mem_of_getElem? hr : r ∈ (joinRules rs).fields RULE_SEP)
    have hnames : v.attr.names = bwNames := by rw [hattrs]; rfl
    rw [u.printf_plain r hplain.plain, if_neg htype0, if_neg h.toStored.ne, if_neg (by omega),
      hnames] at hget
    cases hq : (r.fields ATTR_SEP)[bwNames.idxOf type]? with
    | none =>
      rw [hq] at hget
      refine ⟨CStr.empty, hrun hget, hsize, fun _ hb => absurd hb List.not_mem_nil, ?_⟩
      intro r' hr' _ _
      rw [hr] at hr'
      cases hr'
      rw [attrOf, List.getD_eq_getElem?_getD, hq]
      rfl
    | some q =>
      rw [hq] at hget
      have hbytes := attr_bytes hplain.free hplain.plain q (List.mem_of_getElem? hq)
      refine ⟨q.take (bsize - 1), hrun hget, ?_, ?_, ?_⟩
      · exact lt_of_le_of_lt (List.length_take_le _ _) (by omega)
      · exact fun b hb => (plainByte_iff q).mpr hbytes b (List.mem_of_mem_take hb)
      · intro r' hr' _ hfit
        rw [hr] at hr'
        cases hr'
        have hattr' : attrOf (r.fields ATTR_SEP) type = q := by
          rw [attrOf, List.getD_eq_getElem?_getD, hq]
          rfl
        rw [hattr'] at hfit ⊢
        exact take_of_len_le (by omega)
  · have hget : (onMap (InMemory.ezplibGetAttrVal u WAN_BW_RULE i type bsize) M).1 =
        .ok ((onMap (ezplibGetRule u WAN_BW_RULE i EZPLIB_BUF_LEN) M).1.1, CStr.empty) := by
      rw [InMemory.ezplibGetAttrVal, if_neg (not_or.mpr ⟨h.name, htype0⟩), onMap_bind, if_pos herr]
      rfl
    exact ⟨CStr.empty, hrun hget, hsize, fun _ hb => absurd hb List.not_mem_nil,
      fun r hr hroom => absurd hroom (hnone r hr)⟩

/-! ## The prints of one round -/

/-- The attribute that is read for a part. -/
def Part.Named : Part → Prop
  | .value type => type ∈ bwNames
  | .last type => type ∈ bwNames
  | .zero => True

instance (part : Part) : Decidable part.Named :=
  match part with
  | .value type => inferInstanceAs (Decidable (type ∈ bwNames))
  | .last type => inferInstanceAs (Decidable (type ∈ bwNames))
  | .zero => inferInstanceAs (Decidable True)

/-- What is printed for a part, from the texts that are read. -/
def Part.print (value : CStr → CStr) : Part → CStr
  | .value type => CStr.concat [value type, .ofString "^"]
  | .last type => value type
  | .zero => .ofString "0^"

/-- The texts that are read in a round. -/
def Reads (u : Unspecified) (M : Variables) (i bsize : ℕ) (value : CStr → CStr) : Prop :=
  ∀ type ∈ bwNames, runOn (UserNvram.attrText u i bsize type) M = (.ok (value type), M) ∧
    (value type).len < bsize ∧ ∀ b ∈ (value type).val, PlainByte b

variable {value : CStr → CStr} {part : Part} {parts : List Part} {p q : Print} {t : CStr}

/-- On a set that can be read, the attributes of the rule are read. -/
theorem HoldsRules.reads (h : HoldsRules M WAN_BW_RULE rs) (u : Unspecified) (i : ℕ)
    (hsize : 0 < bsize) : ∃ value, Reads u M i bsize value ∧
      ∀ r, rs[i]? = some r → total ruleSize rs ≤ EZPLIB_BUF_LEN → ∀ type ∈ bwNames,
        (attrOf (r.fields ATTR_SEP) type).len < bsize →
          value type = attrOf (r.fields ATTR_SEP) type := by
  have hread := fun type (htype : type ∈ bwNames) => h.attrText (u := u) (i := i) htype hsize
  choose! value hvalue using hread
  exact ⟨value, fun type htype => ⟨(hvalue type htype).1, (hvalue type htype).2.1,
    (hvalue type htype).2.2.1⟩, fun r hr hroom type htype => (hvalue type htype).2.2.2 r hr hroom⟩

theorem Reads.runPart (h : Reads u M i bsize value) (hpart : part.Named) :
    runOn (part.text u i bsize) M = (.ok (part.print value), M) := by
  cases part with
  | value type =>
    rw [Part.text, runOn_bind_ok (h type hpart).1]
    rfl
  | last type => exact (h type hpart).1
  | zero => rfl

theorem Reads.runParts (h : Reads u M i bsize value) (hparts : ∀ part ∈ parts, part.Named) :
    runOn (printParts u i bsize parts p) M =
      (match Print.putAll (parts.map (Part.print value)) p with
        | none => .error .overflow
        | some q => .ok q, M) := by
  induction parts generalizing p with
  | nil => rfl
  | cons part parts ih =>
    have hrest (p : Print) := ih (p := p) fun part hpart =>
      hparts part (List.mem_cons_of_mem _ hpart)
    rw [printParts, runOn_bind_ok (h.runPart (hparts part List.mem_cons_self)), List.map_cons,
      Print.putAll]
    cases p.put (part.print value) with
    | none => rfl
    | some q => exact hrest q

/-- What is printed for a part is short and plain. -/
theorem Reads.print (h : Reads u M i bsize value) (hsize : 2 ≤ bsize) (hpart : part.Named) :
    (part.print value).len ≤ bsize ∧ ∀ b ∈ (part.print value).val, PlainByte b := by
  have hsep : ∀ b ∈ (CStr.ofString "^").val, PlainByte b := (plainByte_iff _).mpr (by decide)
  have hzero : ∀ b ∈ (CStr.ofString "0^").val, PlainByte b := (plainByte_iff _).mpr (by decide)
  cases part with
  | value type =>
    obtain ⟨-, hlen, hbytes⟩ := h type hpart
    constructor
    · rw [Part.print, CStr.concat, CStr.append_len, CStr.concat_singleton]
      exact hlen
    · intro b hb
      rw [Part.print, CStr.concat, CStr.concat_singleton] at hb
      rcases List.mem_append.mp hb with hb | hb
      · exact hbytes b hb
      · exact hsep b hb
  | last type => exact ⟨(h type hpart).2.1.le, (h type hpart).2.2⟩
  | zero => exact ⟨hsize, hzero⟩

theorem print_congr {f g : CStr → CStr} (hfg : ∀ type ∈ bwNames, f type = g type)
    (hpart : part.Named) : part.print f = part.print g := by
  cases part with
  | value type => rw [Part.print, Part.print, hfg type hpart]
  | last type => exact hfg type hpart
  | zero => rfl

theorem Reads.words (h : Reads u M i bsize value) (hsize : 2 ≤ bsize)
    (hparts : ∀ part ∈ parts, part.Named) :
    ∀ w ∈ parts.map (Part.print value), ∀ b ∈ w.val, PlainByte b := by
  intro w hw
  obtain ⟨part, hpart, rfl⟩ := List.mem_map.mp hw
  exact (h.print hsize (hparts part hpart)).2

theorem Reads.concat_len (h : Reads u M i bsize value) (hsize : 2 ≤ bsize)
    (hparts : ∀ part ∈ parts, part.Named) :
    (CStr.concat (parts.map (Part.print value))).len ≤ bsize * parts.length := by
  induction parts with
  | nil => exact Nat.zero_le _
  | cons part parts ih =>
    have hfirst := (h.print hsize (hparts part List.mem_cons_self)).1
    have hrest := ih fun part hpart => hparts part (List.mem_cons_of_mem _ hpart)
    rw [List.map_cons, CStr.concat, CStr.append_len, List.length_cons, Nat.mul_succ]
    omega

/-- The separators that a part has for certain. -/
def Part.seps : Part → ℕ
  | .value _ => 1
  | .last _ => 0
  | .zero => 1

theorem Part.seps_le (part : Part) (value : CStr → CStr) :
    part.seps ≤ (part.print value).val.count ATTR_SEP := by
  have hsep : (CStr.ofString "^").val.count ATTR_SEP = 1 := by decide
  have hzero : (CStr.ofString "0^").val.count ATTR_SEP = 1 := by decide
  cases part with
  | value type =>
    rw [Part.print, CStr.concat, CStr.concat_singleton, CStr.append, List.count_append, hsep]
    exact Nat.le_add_left _ _
  | last type => exact Nat.zero_le _
  | zero => exact hzero.ge

theorem seps_le_concat (parts : List Part) (value : CStr → CStr) :
    (parts.map Part.seps).sum ≤
      (CStr.concat (parts.map (Part.print value))).val.count ATTR_SEP := by
  induction parts with
  | nil => exact Nat.zero_le _
  | cons part parts ih =>
    have hpart := part.seps_le value
    rw [List.map_cons, List.sum_cons, List.map_cons, CStr.concat, CStr.append, List.count_append]
    omega

/-! ## The new rule -/

/-- The attribute that a part makes. -/
def Part.attr (value : CStr → CStr) : Part → CStr
  | .value type => value type
  | .last type => value type
  | .zero => .ofString "0"

/-- The parts are attributes with separators between them. -/
theorem concat_parts (hparts : ∀ part ∈ parts, part.seps = 1) (type : CStr) :
    CStr.concat ((parts ++ [Part.last type]).map (Part.print value)) =
      joinAttrs ((parts ++ [Part.last type]).map (Part.attr value)) := by
  induction parts with
  | nil => exact CStr.concat_singleton _
  | cons part parts ih =>
    have hrest := ih fun part hpart => hparts part (List.mem_cons_of_mem _ hpart)
    have hne : (parts ++ [Part.last type]).map (Part.attr value) ≠ [] := by simp
    have hsep : (CStr.ofString "^").val = [ATTR_SEP] := by decide
    have hzero : CStr.ofString "0^" =
        CStr.glue ATTR_SEP ATTR_SEP_ne (.ofString "0") CStr.empty := by decide
    have hword : part.print value =
        CStr.glue ATTR_SEP ATTR_SEP_ne (part.attr value) CStr.empty := by
      cases part with
      | value type =>
        apply Subtype.ext
        simp [Part.print, Part.attr, CStr.concat, CStr.append, CStr.glue, CStr.empty, hsep]
      | last type => exact absurd (hparts _ List.mem_cons_self) Nat.zero_ne_one
      | zero => exact hzero
    rw [List.cons_append, List.map_cons, CStr.concat, hrest, List.map_cons, joinAttrs, joinAttrs,
      CStr.join_cons _ _ hne, hword]
    exact Subtype.ext (by simp [CStr.append, CStr.glue, CStr.empty])

theorem newParts_attrs {fs : List CStr} (hfs : fs.length = 10) :
    newParts.map (Part.attr (attrOf fs)) = widened fs := by
  match fs, hfs with
  | [_, _, _, _, _, _, _, _, _, _], _ => rfl

theorem oldParts_attrs {fs : List CStr} (hfs : fs.length = 10) :
    oldParts.map (Part.attr (attrOf (widened fs))) = fs := by
  match fs, hfs with
  | [_, _, _, _, _, _, _, _, _, _], _ => rfl

/-! ## The rounds -/

theorem plainByte_zero : PlainByte 0 := ⟨by decide, by decide⟩

theorem storable_filled (hp : Print.Filled PlainByte t p) (ht : t ≠ CStr.empty) :
    Storable (CStr.read p.buf) := by
  obtain ⟨htext, hbytes⟩ := hp.read
  obtain ⟨hrule, hpercent⟩ := (plainByte_iff _).mp hbytes
  refine ⟨fun h0 => ht ?_, hrule, hpercent⟩
  rw [h0] at htext
  exact Subtype.ext (List.prefix_nil.mp htext)

/-- A round that does not stop. -/
theorem HoldsRules.eachWan (h : HoldsRules M WAN_BW_RULE rs) (hsize : 0 < bsize)
    (hparts : ∀ part ∈ parts, part.Named) {n : ℕ}
    (hrun : runOn (eachWan u bsize parts (n + 1) i p) M = (.ok q, M')) :
    ∃ value p', Reads u M i bsize value ∧
      Print.putAll (parts.map (Part.print value)) p = some p' ∧
      runOn (UserNvram.eachWan u bsize parts n (i + 1) p')
        (onMap (ezplibReplaceRule u WAN_BW_RULE i (CStr.read p'.buf)) M).2 = (.ok q, M') := by
  obtain ⟨value, hreads, -⟩ := h.reads u i hsize
  obtain ⟨p', M₁, hprint, hrun₁⟩ := runOn_bind_inv hrun
  obtain ⟨_, M₂, hreplace, hrun₂⟩ := runOn_bind_inv hrun₁
  rw [hreads.runParts hparts] at hprint
  cases hall : Print.putAll (parts.map (Part.print value)) p with
  | none =>
    rw [hall] at hprint
    cases hprint
  | some r =>
    rw [hall] at hprint
    cases hprint
    rw [runOn_lift] at hreplace
    cases hreplace
    exact ⟨value, p', hreads, hall, hrun₂⟩

/-- The set after a round. -/
theorem HoldsRules.replaced {w : CStr} (h : HoldsRules M WAN_BW_RULE rs) (hw : Storable w) :
    HoldsRules (onMap (ezplibReplaceRule u WAN_BW_RULE i w) M).2 WAN_BW_RULE
      (replaceAt ruleSize EZPLIB_BUF_LEN rs i w) := by
  rw [h.replaceRule fun _ _ => hw]
  apply h.of_update
  · intro hnil
    have hlen := congrArg List.length hnil
    rw [replaceAt_length] at hlen
    exact h.ne (List.length_eq_zero_iff.mp hlen)
  · exact storable_replaceAt h.rules fun _ _ => hw

/-- Later rounds leave a rule alone. -/
theorem HoldsRules.eachWan_keeps (h : HoldsRules M WAN_BW_RULE rs) (hsize : 2 ≤ bsize)
    (hparts : ∀ part ∈ parts, part.Named) (hp : Print.Filled PlainByte t p) (ht : t ≠ CStr.empty)
    {j n : ℕ} (hj : j < i)
    (hrun : runOn (UserNvram.eachWan u bsize parts n i p) M = (.ok q, M')) :
    ∃ rs', HoldsRules M' WAN_BW_RULE rs' ∧ rs'[j]? = rs[j]? := by
  induction n generalizing i p M rs with
  | zero =>
    cases hrun
    exact ⟨rs, h, rfl⟩
  | succ n ih =>
    obtain ⟨value, p', hreads, hall, hrest⟩ := h.eachWan (by omega) hparts hrun
    have hp' := hp.putAll plainByte_zero (hreads.words hsize hparts) hall
    obtain ⟨rs', h', hsame⟩ := ih (h.replaced (storable_filled hp' ht)) hp' (by omega) hrest
    exact ⟨rs', h', hsame.trans (getElem?_replaceAt (by omega))⟩

theorem newParts_named : ∀ part ∈ newParts, part.Named := by decide +kernel

theorem ne_empty_of_count {s : CStr} (h : 0 < s.val.count ATTR_SEP) : s ≠ CStr.empty := by
  rintro rfl
  exact absurd h (lt_irrefl 0)

/-- The first round prints a text that leaves room. -/
theorem Reads.first (h : Reads u M i 64 value)
    (hall : Print.putAll (newParts.map (Part.print value)) emptyNew = some q) :
    ∃ t, q.Shows t ∧ t.len ≤ 768 ∧ 11 ≤ t.val.count ATTR_SEP ∧ (∀ b ∈ q.buf, PlainByte b) ∧
      q.buf.length = 1024 := by
  have hsize : 2 ≤ 64 := by decide
  have hzeros : ∀ b ∈ emptyNew.buf, PlainByte b := by
    intro b hb
    rw [List.eq_of_mem_replicate hb]
    exact plainByte_zero
  have hempty : emptyNew.Shows CStr.empty := Print.shows_zeros (by decide)
  have hnew : emptyNew.buf.length = 1024 := List.length_replicate
  have hlen : (CStr.concat (newParts.map (Part.print value))).len ≤ 768 :=
    h.concat_len hsize newParts_named
  have hseps : (newParts.map Part.seps).sum = 11 := by decide
  have hbytes := ((hempty.filled hzeros).putAll plainByte_zero (h.words hsize newParts_named)
    hall).bytes
  have hfit : CStr.empty.len + (CStr.concat (newParts.map (Part.print value))).len <
      emptyNew.buf.length := by
    rw [CStr.empty_len, hnew]
    omega
  obtain ⟨q', hall', hshows, hbuf⟩ := hempty.putAll hfit
  obtain rfl : q = q' := Option.some.inj (hall.symm.trans hall')
  exact ⟨_, hshows, hlen, hseps ▸ seps_le_concat newParts value, hbytes, hbuf.trans hnew⟩

/-- The second round prints behind it. -/
theorem Reads.second (h : Reads u M i 64 value) (hp : p.Shows t)
    (hbytes : ∀ b ∈ p.buf, PlainByte b) (hroom : t.len + 64 < p.buf.length)
    (hall : Print.putAll (newParts.map (Part.print value)) p = some q) :
    ∃ w, 1 ≤ w.val.count ATTR_SEP ∧ Print.Filled PlainByte (t.append w) q := by
  have hsize : 2 ≤ 64 := by decide
  have hwords := h.words hsize newParts_named
  have htype : Part.value (.ofString "type") ∈ newParts := List.mem_cons_self
  have hlen := (h.print hsize (newParts_named _ htype)).1
  obtain ⟨r, hput, hshows, -⟩ := hp.put_fits
    (w := (Part.value (.ofString "type")).print value) (by omega)
  have hr := (hp.filled hbytes).put plainByte_zero (hwords _ List.mem_cons_self) hput
  have hrest : Print.putAll (newParts.tail.map (Part.print value)) r = some q := by
    rw [← hall]
    change _ = Print.putAll (_ :: _) _
    rw [Print.putAll, hput]
    rfl
  exact ⟨_, (Part.value (.ofString "type")).seps_le value, (hshows.filled hr.bytes).putAll plainByte_zero
    (fun w hw => hwords w (List.mem_cons_of_mem _ hw)) hrest⟩

/-- Of two rules, the second one is not replaced, or it has the first one in front. -/
theorem HoldsRules.eachWan_spoils (h : HoldsRules M WAN_BW_RULE rs) {n : ℕ}
    (hrun : runOn (UserNvram.eachWan u 64 newParts (n + 2) 0 emptyNew) M = (.ok q, M')) :
    ∃ rs', HoldsRules M' WAN_BW_RULE rs' ∧
      (rs'[1]? = rs[1]? ∨ ∃ w, rs'[1]? = some w ∧ 12 ≤ w.val.count ATTR_SEP) := by
  obtain ⟨value₀, p₀, hreads₀, hall₀, hrun₀⟩ := h.eachWan (by decide) newParts_named hrun
  obtain ⟨t, hshows, hlen, hcount, hbytes, hbuf⟩ := hreads₀.first hall₀
  have h₁ := h.replaced (u := u) (i := 0)
    (storable_filled (hshows.filled hbytes) (ne_empty_of_count (by omega)))
  obtain ⟨value₁, p₁, hreads₁, hall₁, hrun₁⟩ := h₁.eachWan (by decide) newParts_named hrun₀
  obtain ⟨w, hw, hfilled⟩ := hreads₁.second hshows hbytes (by omega) hall₁
  have htwelve : 12 ≤ (t.append w).val.count ATTR_SEP := by
    rw [CStr.append, List.count_append]
    omega
  have hne := ne_empty_of_count (lt_of_lt_of_le (by decide) htwelve)
  obtain ⟨rs', h', hsame⟩ := (h₁.replaced (storable_filled hfilled hne)).eachWan_keeps
    (by decide) newParts_named hfilled hne (Nat.lt_succ_self 1) hrun₁
  refine ⟨rs', h', ?_⟩
  rw [hsame]
  rcases getElem?_replaceAt_self ruleSize EZPLIB_BUF_LEN
    (replaceAt ruleSize EZPLIB_BUF_LEN rs 0 (CStr.read p₀.buf)) 1 (CStr.read p₁.buf)
    with hold | hnew
  · exact .inl (hold.trans (getElem?_replaceAt Nat.zero_ne_one))
  · exact .inr ⟨_, hnew, htwelve.trans (hfilled.read.1.sublist.count_le ATTR_SEP)⟩

/-! ## One rule -/

theorem attrOf_short {fs : List CStr} (hfs : ∀ f ∈ fs, f.len < 64) (type : CStr) :
    (attrOf fs type).len < 64 := by
  rw [attrOf, List.getD_eq_getElem?_getD]
  cases hf : fs[bwNames.idxOf type]? with
  | none => exact (by decide : CStr.empty.len < 64)
  | some f => exact hfs f (List.mem_of_getElem? hf)

theorem joinAttrs_short {fs : List CStr} (hfs : ∀ f ∈ fs, f.len < 64) :
    (joinAttrs fs).len ≤ fs.length * 64 := by
  have hlines : (CStr.lines ATTR_SEP ATTR_SEP_ne fs).len ≤ fs.length * 64 := by
    induction fs with
    | nil => exact le_rfl
    | cons f fs ih =>
      have hf := hfs f List.mem_cons_self
      have hrest := ih fun g hg => hfs g (List.mem_cons_of_mem f hg)
      rw [CStr.lines_cons_len, List.length_cons]
      omega
  by_cases hne : fs = []
  · subst hne
    exact le_rfl
  · have hlen : (CStr.lines ATTR_SEP ATTR_SEP_ne fs).len = (joinAttrs fs).len + 1 :=
      CStr.lines_len _ hne
    omega

/-- With one rule, one round puts it into the other format. -/
theorem HoldsRules.eachWan_one (h : HoldsRules M WAN_BW_RULE [r])
    (hshort : ∀ f ∈ r.fields ATTR_SEP, f.len < 64) (hsize : 64 ≤ bsize)
    (hmany : (r.fields ATTR_SEP).length ≤ 12)
    (hparts : ∀ part ∈ parts, part.Named ∧ part.seps = 1) (htype : type ∈ bwNames)
    {gs : List CStr}
    (hgs : (parts ++ [Part.last type]).map (Part.attr (attrOf (r.fields ATTR_SEP))) = gs)
    (hnew : (joinAttrs gs).len ≤ 768) (hstorable : Storable (joinAttrs gs)) :
    ∃ q, runOn (UserNvram.eachWan u bsize (parts ++ [Part.last type]) 1 0 emptyNew) M =
      (.ok q, Function.update M WAN_BW_RULE (some (joinAttrs gs))) := by
  have hpos : 0 < bsize := by omega
  obtain ⟨value, hreads, hexact⟩ := h.reads u 0 hpos
  have hlen := joinAttrs_short hshort
  rw [joinAttrs_fields] at hlen
  have hroom : total ruleSize [r] ≤ EZPLIB_BUF_LEN := by
    change r.len + 1 + 0 ≤ 8192
    omega
  have hroom' : total ruleSize [joinAttrs gs] < EZPLIB_BUF_LEN := by
    change (joinAttrs gs).len + 1 + 0 < 8192
    omega
  have hnamed : ∀ part ∈ parts ++ [Part.last type], part.Named := by
    intro part hpart
    rcases List.mem_append.mp hpart with hpart | hpart
    · exact (hparts part hpart).1
    · rw [List.mem_singleton.mp hpart]
      exact htype
  have hwords : CStr.concat ((parts ++ [Part.last type]).map (Part.print value)) = joinAttrs gs := by
    rw [← hgs, ← concat_parts fun part hpart => (hparts part hpart).2]
    congr 1
    apply List.map_congr_left
    intro part hpart
    exact print_congr (fun type htype => hexact r rfl hroom type htype
      ((attrOf_short hshort type).trans_le hsize)) (hnamed part hpart)
  have hempty : emptyNew.Shows CStr.empty := Print.shows_zeros (by decide)
  have hbuf : emptyNew.buf.length = 1024 := List.length_replicate
  have hfit : CStr.empty.len +
      (CStr.concat ((parts ++ [Part.last type]).map (Part.print value))).len <
        emptyNew.buf.length := by
    rw [hwords, CStr.empty_len, hbuf]
    omega
  obtain ⟨q, hall, hshows, -⟩ := hempty.putAll hfit
  rw [hwords, CStr.empty_append] at hshows
  have hprint : runOn (printParts u 0 bsize (parts ++ [Part.last type]) emptyNew) M = (.ok q, M) := by
    rw [hreads.runParts hnamed, hall]
  refine ⟨q, ?_⟩
  rw [UserNvram.eachWan, runOn_bind_ok hprint, runOn_bind, runOn_lift, hshows.read,
    h.replaceRule fun _ _ => hstorable, replaceAt, if_pos ⟨hroom, hroom'⟩]
  dsimp only
  rw [UserNvram.eachWan, runOn_pure]
  rfl

theorem BwRule.widened {fs : List CStr} (h : BwRule fs) :
    (widened fs).length = 12 ∧
      ∀ f ∈ widened fs, ATTR_SEP ∉ f.val ∧ RULE_SEP ∉ f.val ∧ PERCENT ∉ f.val ∧ f.len < 64 := by
  have hten := h.ten
  constructor
  · simp only [UserNvram.widened, List.length_append, List.length_take, List.length_cons,
      List.length_nil, List.length_drop]
    omega
  · intro f hf
    rcases List.mem_append.mp hf with hf | hf
    · rcases List.mem_append.mp hf with hf | hf
      · exact h.attrs f (List.mem_of_mem_take hf)
      · have hzeros : f ∈ List.replicate 2 (CStr.ofString "0") := hf
        rw [List.eq_of_mem_replicate hzeros]
        decide
    · exact h.attrs f (List.mem_of_mem_drop hf)

/-- Attributes like these make a rule that is stored as it is. -/
theorem storable_attrs {fs : List CStr} (hfs : 2 ≤ fs.length)
    (hattrs : ∀ f ∈ fs, ATTR_SEP ∉ f.val ∧ RULE_SEP ∉ f.val ∧ PERCENT ∉ f.val ∧ f.len < 64) :
    Storable (joinAttrs fs) ∧ (joinAttrs fs).fields ATTR_SEP = fs := by
  constructor
  · exact storable_joinAttrs hfs fun f hf => ⟨(hattrs f hf).2.1, (hattrs f hf).2.2.1⟩
  · apply fields_joinAttrs _ fun f hf => (hattrs f hf).1
    rintro rfl
    exact absurd hfs (by decide)

theorem newParts_split : newParts.dropLast ++ [Part.last (.ofString "dbm_upmin")] = newParts := rfl

theorem oldParts_split : oldParts.dropLast ++ [Part.last (.ofString "dbm_downmin")] = oldParts := rfl

theorem parts_named : (∀ part ∈ newParts.dropLast, part.Named ∧ part.seps = 1) ∧
    (∀ part ∈ oldParts.dropLast, part.Named ∧ part.seps = 1) ∧
    .ofString "dbm_upmin" ∈ bwNames ∧ .ofString "dbm_downmin" ∈ bwNames := by decide +kernel

theorem holdsRules_one {fs : List CStr} (hstore : Storable (joinAttrs fs))
    (hM : M WAN_BW_RULE = some (joinAttrs fs)) : HoldsRules M WAN_BW_RULE [joinAttrs fs] :=
  ⟨by decide, hM, List.cons_ne_nil _ _, by simpa using hstore⟩

/-- The way up with one rule. -/
theorem BwRule.up {fs : List CStr} (h : BwRule fs) (u : Unspecified)
    (hM : M WAN_BW_RULE = some (joinAttrs fs)) :
    runOn (fwFunc000To165 u 1) M =
      (.ok 0, Function.update M WAN_BW_RULE (some (joinAttrs (UserNvram.widened fs)))) := by
  obtain ⟨hlen, hwide⟩ := h.widened
  obtain ⟨hstore, hfields⟩ := storable_attrs (by rw [h.ten]; decide) h.attrs
  obtain ⟨hnew, -⟩ := storable_attrs (by rw [hlen]; decide) hwide
  have hshort := joinAttrs_short fun f hf => (hwide f hf).2.2.2
  rw [hlen] at hshort
  have hgs : (newParts.dropLast ++ [Part.last (.ofString "dbm_upmin")]).map
      (Part.attr (attrOf ((joinAttrs fs).fields ATTR_SEP))) = UserNvram.widened fs := by
    rw [hfields, newParts_split, newParts_attrs h.ten]
  obtain ⟨q, hq⟩ := (holdsRules_one hstore hM).eachWan_one (u := u)
    (by rw [hfields]; exact fun f hf => (h.attrs f hf).2.2.2) (le_refl 64)
    (by rw [hfields, h.ten]; decide) parts_named.1 parts_named.2.2.1 hgs hshort hnew
  have htext : text M WAN_BW_RULE = joinAttrs fs := by rw [text, hM]; rfl
  rw [newParts_split] at hq
  rw [fwFunc000To165, runOn_bind, runOn_lift, onMap_safeGet, htext]
  dsimp only
  rw [if_neg hstore.ne, runOn_bind_ok hq, runOn_pure]

/-- The way down with one rule. -/
theorem BwRule.down {fs : List CStr} (h : BwRule fs) (u : Unspecified)
    (hM : M WAN_BW_RULE = some (joinAttrs (UserNvram.widened fs))) :
    ∃ M', runOn (fwFunc165To000 u 1) M = (.ok 0, M') ∧
      M' WAN_BW_RULE = some (joinAttrs fs) := by
  obtain ⟨hlen, hwide⟩ := h.widened
  obtain ⟨hold, -⟩ := storable_attrs (by rw [h.ten]; decide) h.attrs
  obtain ⟨hstore, hfields⟩ := storable_attrs (by rw [hlen]; decide) hwide
  have hshort := joinAttrs_short fun f hf => (h.attrs f hf).2.2.2
  rw [h.ten] at hshort
  have hgs : (oldParts.dropLast ++ [Part.last (.ofString "dbm_downmin")]).map
      (Part.attr (attrOf ((joinAttrs (UserNvram.widened fs)).fields ATTR_SEP))) = fs := by
    rw [hfields, oldParts_split, oldParts_attrs h.ten]
  have hmode : WAN_BW_RULE ≠ bwMode 0 := by decide
  have hM' : Function.update M (bwMode 0) none WAN_BW_RULE =
      some (joinAttrs (UserNvram.widened fs)) := by
    rw [Function.update_of_ne hmode, hM]
  obtain ⟨q, hq⟩ := (holdsRules_one hstore hM').eachWan_one (u := u)
    (by rw [hfields]; exact fun f hf => (hwide f hf).2.2.2) (by decide : 64 ≤ 128)
    (by rw [hfields, hlen]) parts_named.2.1 parts_named.2.2.2 hgs (by omega) hold
  have htext : text M WAN_BW_RULE = joinAttrs (UserNvram.widened fs) := by rw [text, hM]; rfl
  have hunset : runOn (forEach (fun i => do let _ ← (Api.set (bwMode i) none : Api ℤ))
      (List.range 1)) M = (.ok (), Function.update M (bwMode 0) none) := rfl
  rw [oldParts_split] at hq
  refine ⟨Function.update (Function.update M (bwMode 0) none) WAN_BW_RULE (some (joinAttrs fs)), ?_,
    Function.update_self _ _ _⟩
  rw [fwFunc165To000, runOn_bind, runOn_lift, onMap_safeGet, htext]
  dsimp only
  rw [runOn_bind_ok hunset, if_neg hstore.ne, runOn_bind_ok hq, runOn_pure]

/-- With two rules or more, the second one is not put into the new format. -/
theorem HoldsRules.not_widened {bwRules : List (List CStr)} {n : ℕ}
    (h : HoldsRules M WAN_BW_RULE (bwRules.map joinAttrs)) (hnum : bwRules.length = n + 2)
    (hrules : ∀ fs ∈ bwRules, BwRule fs)
    (hup : runOn (fwFunc000To165 u (n + 2)) M = (.ok 0, M')) :
    M' WAN_BW_RULE ≠ some (joinRules (bwRules.map fun fs => joinAttrs (widened fs))) := by
  intro hnew
  obtain ⟨value, M₀, hvalue, hrun⟩ := runOn_bind_inv hup
  rw [runOn_lift, onMap_safeGet, text, h.stored] at hvalue
  cases hvalue
  rw [Option.getD_some, if_neg h.toStored.ne] at hrun
  obtain ⟨q, M₁, hloop, hend⟩ := runOn_bind_inv hrun
  cases hend
  obtain ⟨rs', h', hsecond⟩ := h.eachWan_spoils hloop
  obtain ⟨fs, hfs⟩ : ∃ fs, bwRules[1]? = some fs := ⟨_, List.getElem?_eq_getElem (by omega)⟩
  have hfs' := hrules fs (List.mem_of_getElem? hfs)
  obtain ⟨hlen, hwide⟩ := hfs'.widened
  have hsame : rs' = bwRules.map fun fs => joinAttrs (widened fs) := by
    rw [h'.stored, Option.some.injEq] at hnew
    rw [← h'.fields, hnew]
    apply CStr.fields_join
    · rw [ne_eq, List.map_eq_nil_iff]
      rintro rfl
      cases hfs
    · intro r hr
      obtain ⟨gs, hgs, rfl⟩ := List.mem_map.mp hr
      obtain ⟨hlen, hwide⟩ := (hrules gs hgs).widened
      exact (storable_attrs (by omega) hwide).1.free
  have hwas : (joinAttrs fs).val.count ATTR_SEP = 9 := by
    rw [count_joinAttrs fun f hf => (hfs'.attrs f hf).1, hfs'.ten]
  have his : (joinAttrs (widened fs)).val.count ATTR_SEP = 11 := by
    rw [count_joinAttrs fun f hf => (hwide f hf).1, hlen]
  rw [hsame, List.getElem?_map, List.getElem?_map, hfs] at hsecond
  rcases hsecond with hold | ⟨w, hw, hcount⟩
  · rw [Option.map_some, Option.map_some, Option.some.injEq] at hold
    rw [hold, hwas] at his
    cases his
  · rw [Option.map_some, Option.some.injEq] at hw
    rw [← hw, his] at hcount
    omega

end

/-- The rules are migrated one by one and back exactly on a device with one WAN. -/
theorem migratesEach_iff (u : Unspecified) (wanNum : ℕ) (M : Variables)
    (bwRules : List (List CStr)) (hpos : 1 ≤ wanNum) (hnum : bwRules.length = wanNum)
    (hrules : ∀ fs ∈ bwRules, BwRule fs)
    (hM : M WAN_BW_RULE = some (joinRules (bwRules.map joinAttrs))) :
    MigratesEach u wanNum M bwRules ↔ wanNum = 1 := by
  constructor
  · rintro ⟨M', -, hup, hnew, -⟩
    by_contra hone
    obtain ⟨n, rfl⟩ : ∃ n, wanNum = n + 2 := ⟨wanNum - 2, by omega⟩
    have h : HoldsRules M WAN_BW_RULE (bwRules.map joinAttrs) := by
      refine ⟨by decide, hM, ?_, fun r hr => ?_⟩
      · rw [ne_eq, List.map_eq_nil_iff]
        rintro rfl
        cases hnum
      · obtain ⟨fs, hfs, rfl⟩ := List.mem_map.mp hr
        have hfs := hrules fs hfs
        exact (storable_attrs (by rw [hfs.ten]; decide) hfs.attrs).1
    exact h.not_widened hnum hrules hup hnew
  · rintro rfl
    obtain ⟨fs, rfl⟩ := List.length_eq_one_iff.mp hnum
    have hfs := hrules fs (List.mem_singleton.mpr rfl)
    obtain ⟨M'', hdown, hback⟩ := hfs.down u (Function.update_self WAN_BW_RULE _ M)
    exact ⟨_, M'', hfs.up u hM, Function.update_self _ _ _, hdown, hback.trans hM.symm⟩

/-- The attributes of a line with two megabits down. -/
def adslLine : List CStr := ["adsl", "2048", "512", "90", "30", "10", "0", "0", "0", "0"].map .ofString

/-- The attributes of a line with two megabits both ways. -/
def leasedLine : List CStr :=
  ["leased", "2048", "2048", "80", "20", "10", "0", "0", "0", "0"].map .ofString

theorem bwRule_adsl : BwRule adslLine := ⟨rfl, by decide⟩

theorem migratesEach_adsl :
    MigratesEach clean 1 (oneSet "wan_bw_rule" (joinRules ([adslLine].map joinAttrs))) [adslLine] :=
  (migratesEach_iff clean 1 (oneSet "wan_bw_rule" (joinRules ([adslLine].map joinAttrs))) [adslLine]
    le_rfl rfl (fun _ hfs => List.mem_singleton.mp hfs ▸ bwRule_adsl) rfl).mpr rfl

/-- The second of two lines has the rule of the first one in front. -/
theorem migratesEach_two : ¬ MigratesEach clean 2
    (oneSet "wan_bw_rule" (joinRules ([adslLine, leasedLine].map joinAttrs)))
    [adslLine, leasedLine] := by
  rintro ⟨M', -, hup, hnew, -⟩
  have hset : (runOn (fwFunc000To165 clean 2)
      (oneSet "wan_bw_rule" (joinRules ([adslLine, leasedLine].map joinAttrs)))).2 WAN_BW_RULE ≠
        some (joinRules ([adslLine, leasedLine].map fun fs => joinAttrs (widened fs))) := by
    decide +kernel
  rw [hup] at hset
  exact hset hnew

end EzpFirmware.UserNvram
