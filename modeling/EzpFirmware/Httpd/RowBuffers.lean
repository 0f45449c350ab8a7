import EzpFirmware.Httpd.RulePages
import EzpFirmware.Lib.Printing

/-! # Rows at a running position

`_save_dmz` and `save_factory` print one row behind another. The first one
computes the room that is left, which is huge behind the end of the buffer, and
the second one takes the whole buffer for it each time.
-/
namespace EzpFirmware.Httpd
open Lib UserNvram

/-! ## The loops -/

/-- A row, with a separator in front unless it is at the start. -/
def lead (pos : ℕ) (row : CStr) : CStr :=
  if pos = 0 then row else CStr.glue RULE_SEP RULE_SEP_ne CStr.empty row

/-- The loop over the rows, for a call of `snprintf`. -/
def printRows (put : Print → CStr → Option Print) : List CStr → Print → Option Print
  | [], p => some p
  | row :: rows, p => (put p (lead p.pos row)).bind (printRows put rows)

/-- `rule` of `_save_dmz` after its loop. -/
def dmzBuf (junk : List UInt8) (form : Form) (nrule : ℤ) : Option Print :=
  printRows Print.put ((List.range nrule.toNat).map fun i => ruleText (dmzRow form i)) ⟨junk, 0⟩

/-- `cur += snprintf(cur, TMP_LEN, "%s", w)`, wherever `cur` is in the buffer. -/
def putWhole (p : Print) (w : CStr) : Option Print :=
  if p.pos + (w.take (TMP_LEN - 1)).len < p.buf.length then
    some ⟨poke p.buf p.pos (w.take (TMP_LEN - 1)).stored, p.pos + w.len⟩
  else none

/-- The addresses of a kind of interface in the form. -/
def hwaddrRows (form : Form) (kind : String) : List CStr :=
  (List.range (atoi (getVar form (.ofString (kind ++ "_num")) (.ofString "1"))).toNat).map fun i =>
    getVar form (((CStr.ofString kind).append (decimal (i + 1))).append
      (.ofString "_hwaddr_default")) CStr.empty

/-- `tmp_wan` or `tmp_lan` of `save_factory` after its loop. -/
def hwaddrBuf (junk : List UInt8) (form : Form) (kind : String) : Option Print :=
  printRows putWhole (hwaddrRows form kind) ⟨junk, 0⟩

/-- What `save_factory` stores of the addresses. -/
def saveFactory (tmpWan tmpLan : List UInt8) (form : Form) : Option (List (CStr × CStr)) :=
  (hwaddrBuf tmpWan form "wan").bind fun wan =>
    (hwaddrBuf tmpLan form "lan").map fun lan =>
      [(.ofString "wan_hwaddr_rule_default", CStr.read wan.buf),
        (.ofString "lan_hwaddr_rule_default", CStr.read lan.buf)]

/-! ## What the loops print -/

/-- The texts that are printed from a position on. -/
def leads : ℕ → List CStr → List CStr
  | _, [] => []
  | pos, row :: rows => lead pos row :: leads (pos + (lead pos row).len) rows

section
variable {pos : ℕ} {row : CStr} {rows : List CStr} {p q : Print}

theorem lead_start : lead 0 row = row := if_pos rfl

theorem lead_len_pos (h : pos ≠ 0) : 0 < (lead pos row).len := by
  rw [lead, if_neg h, CStr.glue_len]
  omega

theorem printRows_put : printRows Print.put rows p = Print.putAll (leads p.pos rows) p := by
  induction rows generalizing p with
  | nil => rfl
  | cons row rows ih =>
    rw [printRows, leads, Print.putAll]
    cases hput : p.put (lead p.pos row) with
    | none => rfl
    | some q =>
      rw [Option.bind_some, ih, (Print.put_size hput).1]

theorem leads_dropLast : (leads pos rows).dropLast = leads pos rows.dropLast := by
  induction rows generalizing pos with
  | nil => rfl
  | cons row rows ih =>
    cases rows with
    | nil => rfl
    | cons next rows =>
      rw [leads, List.dropLast_cons_of_ne_nil (by simp [leads]), ih,
        List.dropLast_cons_of_ne_nil (List.cons_ne_nil _ _), leads]

/-- Behind something the rows come with a separator in front of each. -/
theorem append_leads (h : pos ≠ 0) (t : CStr) (hrows : rows ≠ []) :
    t.append (CStr.concat (leads pos rows)) =
      CStr.glue RULE_SEP RULE_SEP_ne t (CStr.join RULE_SEP RULE_SEP_ne rows) := by
  induction rows generalizing pos t with
  | nil => exact absurd rfl hrows
  | cons row rows ih =>
    have hlead : t.append (lead pos row) = CStr.glue RULE_SEP RULE_SEP_ne t row := by
      rw [lead, if_neg h]
      rfl
    rw [leads, CStr.concat, ← CStr.append_assoc, hlead]
    by_cases hnil : rows = []
    · subst hnil
      rw [leads, CStr.concat, CStr.append_empty]
      rfl
    · rw [ih (by omega) _ hnil, CStr.join_cons RULE_SEP_ne row hnil]
      exact Subtype.ext (by simp [CStr.glue])

/-- The rows are joined from the first one on that is not empty. -/
theorem concat_leads : CStr.concat (leads 0 rows) =
    CStr.join RULE_SEP RULE_SEP_ne (rows.dropWhile (· = CStr.empty)) := by
  induction rows with
  | nil => rfl
  | cons row rows ih =>
    rw [leads, CStr.concat, lead_start, Nat.zero_add]
    by_cases hrow : row = CStr.empty
    · subst hrow
      rw [List.dropWhile_cons_of_pos (by simp), ← ih]
      rfl
    · rw [List.dropWhile_cons_of_neg (by simpa using hrow)]
      have hlen : row.len ≠ 0 := fun h => hrow (Subtype.ext (List.length_eq_zero_iff.mp h))
      by_cases hnil : rows = []
      · subst hnil
        exact CStr.append_empty row
      · rw [append_leads hlen row hnil, CStr.join_cons RULE_SEP_ne row hnil]

end

/-! ## The zone of a WAN -/

section
variable {junk : List UInt8} {form : Form} {nrule : ℤ}

theorem dmzRow_ne_empty (form : Form) (i : ℕ) : ruleText (dmzRow form i) ≠ CStr.empty := by
  rw [ruleText, ne_eq, CStr.join_eq_empty_iff, dmzRow]
  simp

theorem concat_dmz (n : ℕ) :
    CStr.concat (leads 0 ((List.range n).map fun i => ruleText (dmzRow form i))) =
      dmzText form n := by
  rw [concat_leads, dmzText]
  congr 1
  cases n with
  | zero => rfl
  | succ n =>
    rw [List.range_succ_eq_map, List.map_cons, List.dropWhile_cons_of_neg]
    simpa using dmzRow_ne_empty form 0

theorem dropLast_range_map {α : Type*} (n : ℕ) (f : ℕ → α) :
    ((List.range n).map f).dropLast = (List.range (n - 1)).map f := by
  cases n with
  | zero => rfl
  | succ n => simp [List.range_succ]

/-- The rows stay in the buffer if and only if those in front of the last one do. -/
theorem dmzBuf_isSome_iff (hjunk : junk.length = TMP_LEN) :
    (dmzBuf junk form nrule).isSome = true ↔ (dmzText form (nrule.toNat - 1)).len ≤ TMP_LEN := by
  rw [dmzBuf, printRows_put, Print.putAll_isSome_iff, leads_dropLast, dropLast_range_map, concat_dmz,
    hjunk, Nat.zero_add]
  refine or_iff_right_of_imp fun h => ?_
  have hnum : nrule.toNat = 0 := by
    cases hn : nrule.toNat with
    | zero => rfl
    | succ n => simp [hn, List.range_succ_eq_map, leads] at h
  rw [hnum]
  exact Nat.zero_le _

/-- What is stored then is the text of the rows, cut where the buffer ends. -/
theorem dmzBuf_read (u : Unspecified) (hjunk : junk.length = TMP_LEN) (hnum : 0 < nrule) {p : Print}
    (h : dmzBuf junk form nrule = some p) : CStr.read p.buf = dmzRule u form nrule := by
  rw [dmzBuf, printRows_put] at h
  obtain ⟨n, hn⟩ : ∃ n, nrule.toNat = n + 1 := ⟨nrule.toNat - 1, by omega⟩
  have hlen := (Print.putAll_size h).2
  have hcut : p.Cut (dmzText form nrule.toNat) := by
    rw [← concat_dmz, hn, List.range_succ_eq_map, List.map_cons, leads]
    rw [hn, List.range_succ_eq_map, List.map_cons, leads, Print.putAll] at h
    dsimp only at h
    cases hput : Print.put ⟨junk, 0⟩ (lead 0 (ruleText (dmzRow form 0))) with
    | none =>
      rw [hput] at h
      cases h
    | some q =>
      rw [hput] at h
      exact (Print.put_start rfl (by rw [hjunk]; decide) hput).putAll h
  rw [hcut.read, hlen, hjunk, dmzRule, if_neg (by omega)]

end

/-! ## The addresses of the interfaces -/

section
variable {rows : List CStr} {p : Print}

theorem putWhole_isSome_iff {w : CStr} (hsize : p.buf.length = TMP_LEN) :
    (putWhole p w).isSome = true ↔ p.pos + min w.len (TMP_LEN - 1) < TMP_LEN := by
  have hlen : (w.take (TMP_LEN - 1)).len = min w.len (TMP_LEN - 1) := by
    rw [min_comm]
    exact List.length_take
  rw [putWhole, hlen, hsize]
  split_ifs with h <;> simp [h]

theorem putWhole_spec {w : CStr} {q : Print} (hsize : p.buf.length = TMP_LEN)
    (h : putWhole p w = some q) : q.pos = p.pos + w.len ∧ q.buf.length = TMP_LEN := by
  rw [putWhole] at h
  split_ifs at h with hroom
  cases h
  refine ⟨rfl, ?_⟩
  rw [poke_length, hsize]
  rw [CStr.stored_length]
  omega

/-- Behind a row the others have to fit. -/
theorem printRows_whole_iff (hsize : p.buf.length = TMP_LEN) (hpos : p.pos ≠ 0) :
    (printRows putWhole rows p).isSome = true ↔
      rows = [] ∨ p.pos + (CStr.concat (leads p.pos rows)).len < TMP_LEN := by
  induction rows generalizing p with
  | nil => simp [printRows]
  | cons row rows ih =>
    have hlead := @lead_len_pos _ row hpos
    have hfits := putWhole_isSome_iff (w := lead p.pos row) hsize
    rw [printRows, leads, CStr.concat, CStr.append_len]
    cases hput : putWhole p (lead p.pos row) with
    | none =>
      rw [hput] at hfits
      have hover : ¬ p.pos + min (lead p.pos row).len (TMP_LEN - 1) < TMP_LEN := fun h => by
        simpa using hfits.mpr h
      simp only [Option.bind_none, Option.isSome_none, Bool.false_eq_true, reduceCtorEq, false_or,
        false_iff]
      omega
    | some q =>
      rw [hput] at hfits
      have hroom := hfits.mp rfl
      obtain ⟨hqpos, hqsize⟩ := putWhole_spec hsize hput
      rw [Option.bind_some, ih hqsize (by omega), hqpos]
      simp only [reduceCtorEq, false_or]
      constructor
      · rintro (rfl | h)
        · rw [leads, CStr.concat, CStr.empty_len]
          omega
        · omega
      · exact fun h => .inr (by omega)

/-- The addresses stay in the buffer if and only if they fit together, or none but the last one is
there at all. -/
theorem printRows_hwaddr_iff (hsize : p.buf.length = TMP_LEN) (hpos : p.pos = 0) :
    (printRows putWhole rows p).isSome = true ↔
      (CStr.join RULE_SEP RULE_SEP_ne (rows.dropWhile (· = CStr.empty))).len < TMP_LEN ∨
        ∀ row ∈ rows.dropLast, row = CStr.empty := by
  rw [← concat_leads]
  induction rows generalizing p with
  | nil => simp [printRows]
  | cons row rows ih =>
    have hput : (putWhole p (lead p.pos row)).isSome = true := by
      rw [putWhole_isSome_iff hsize, hpos, Nat.zero_add]
      exact Nat.lt_of_le_of_lt (Nat.min_le_right _ _) (by decide)
    obtain ⟨q, hq⟩ := Option.isSome_iff_exists.mp hput
    obtain ⟨hqpos, hqsize⟩ := putWhole_spec hsize hq
    rw [hpos, lead_start, Nat.zero_add] at hqpos
    rw [printRows, hq, Option.bind_some, leads, lead_start, Nat.zero_add, CStr.concat,
      CStr.append_len]
    by_cases hrow : row = CStr.empty
    · subst hrow
      rw [ih hqsize hqpos, CStr.empty_len, Nat.zero_add]
      refine or_congr_right ?_
      cases rows with
      | nil => simp
      | cons next rows => simp
    · have hlen : row.len ≠ 0 := fun h => hrow (Subtype.ext (List.length_eq_zero_iff.mp h))
      rw [printRows_whole_iff hqsize (hqpos ▸ hlen), hqpos]
      cases rows with
      | nil => simp
      | cons next rows => simp [hrow]

end

/-- The addresses of a kind of interface fit together, or none but the last one is there at all. -/
def HwaddrsFit (form : Form) (kind : String) : Prop :=
  (CStr.join RULE_SEP RULE_SEP_ne
      ((hwaddrRows form kind).dropWhile (· = CStr.empty))).len < TMP_LEN ∨
    ∀ row ∈ (hwaddrRows form kind).dropLast, row = CStr.empty

theorem hwaddrBuf_isSome_iff {junk : List UInt8} (hjunk : junk.length = TMP_LEN) (form : Form)
    (kind : String) : (hwaddrBuf junk form kind).isSome = true ↔ HwaddrsFit form kind :=
  printRows_hwaddr_iff hjunk rfl

theorem saveFactory_isSome_iff {tmpWan tmpLan : List UInt8} (hwan : tmpWan.length = TMP_LEN)
    (hlan : tmpLan.length = TMP_LEN) (form : Form) :
    (saveFactory tmpWan tmpLan form).isSome = true ↔
      HwaddrsFit form "wan" ∧ HwaddrsFit form "lan" := by
  rw [← hwaddrBuf_isSome_iff hwan, ← hwaddrBuf_isSome_iff hlan, saveFactory]
  cases hwaddrBuf tmpWan form "wan" <;> cases hwaddrBuf tmpLan form "lan" <;> simp

end EzpFirmware.Httpd
