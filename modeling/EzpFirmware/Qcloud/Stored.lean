import EzpFirmware.Qcloud.Config

/-! # Loading and saving a stored configuration

The text is loaded through a line buffer and printed into a command buffer.
Loading keeps all fields but the last, which can lose its end; saving stores the
text or nothing.
-/
namespace EzpFirmware.Qcloud
open Lib UserNvram

/-- A string that can stand in the text. -/
structure Plain (s : CStr) : Prop where
  caret : CARET ∉ s.val
  newline : NL ∉ s.val
  quote : QUOTE ∉ s.val

/-- A configuration that can be stored. -/
structure Config where
  value : Field → CStr
  plain : ∀ f, Plain (value f)
  fits : ∀ f, (value f).len ≤ f.limit

/-- The text of a record. -/
def textOf (r : Field → CStr) : CStr := CStr.join CARET CARET_ne (Field.all.map r)

/-- The text in front of the last field. -/
def front (r : Field → CStr) : List UInt8 := CStr.heads CARET (Field.all.dropLast.map r)

/-- The variable holds a record. -/
def Stored (r : Field → CStr) (M : Variables) : Prop :=
  M (.ofString "myqnapcloud_id_rule") = some (textOf r)

theorem textOf_val (r : Field → CStr) : (textOf r).val = front r ++ (r .ddnsStatus).val :=
  CStr.join_concat_val (by decide) (Field.all.dropLast.map r) (r .ddnsStatus)

theorem front_concat (r : Field → CStr) : ∃ l, front r = l ++ [CARET] :=
  ⟨CStr.heads CARET (Field.all.dropLast.dropLast.map r) ++ (r .status).val, by
    simp [front, CStr.heads, Field.all]⟩

theorem textOf_ne_empty (r : Field → CStr) : textOf r ≠ CStr.empty := by
  intro h
  rcases front_concat r with ⟨l, hl⟩
  have hval := congrArg Subtype.val h
  simp [textOf_val, hl, CStr.empty] at hval

theorem mem_textOf {r : Field → CStr} {b : UInt8} (h : b ∈ (textOf r).val) :
    b = CARET ∨ ∃ f, b ∈ (r f).val := by
  rcases CStr.mem_join h with h | ⟨s, hs, hb⟩
  · exact Or.inl h
  · rcases List.mem_map.mp hs with ⟨f, -, rfl⟩
    exact Or.inr ⟨f, hb⟩

theorem newline_not_mem_textOf {r : Field → CStr} (hr : ∀ f, Plain (r f)) :
    NL ∉ (textOf r).val := by
  intro h
  rcases mem_textOf h with h | ⟨f, hf⟩
  · exact absurd h (by decide)
  · exact (hr f).newline hf

theorem quote_not_mem_textOf {r : Field → CStr} (hr : ∀ f, Plain (r f)) :
    QUOTE ∉ (textOf r).val := by
  intro h
  rcases mem_textOf h with h | ⟨f, hf⟩
  · exact absurd h (by decide)
  · exact (hr f).quote hf

/-- Records of plain fields with one text are equal. -/
theorem textOf_injective {r r' : Field → CStr} (hr : ∀ f, Plain (r f)) (hr' : ∀ f, Plain (r' f))
    (h : textOf r = textOf r') : r = r' := by
  have hfields := congrArg (CStr.fields CARET) h
  rw [textOf, textOf, CStr.fields_join (by decide) (by simp [Field.all]),
    CStr.fields_join (by decide) (by simp [Field.all])] at hfields
  · funext f
    exact List.map_inj_left.mp hfields f f.mem_all
  · intro s hs
    rcases List.mem_map.mp hs with ⟨f, -, rfl⟩
    exact (hr' f).caret
  · intro s hs
    rcases List.mem_map.mp hs with ⟨f, -, rfl⟩
    exact (hr f).caret

section strip

theorem strip_take_concat {l : List UInt8} {b : UInt8} (hb : strips b) (n : ℕ) :
    ((l ++ [b]).take n).rdropWhile strips = (l.take n).rdropWhile strips := by
  by_cases hn : n ≤ l.length
  · rw [List.take_append_of_le_length hn]
  · rw [List.take_of_length_le (by simp; omega), List.take_of_length_le (by omega),
      List.rdropWhile_concat_pos _ _ _ hb]

theorem strip_append {l : List UInt8} {b : UInt8} (hb : ¬ strips b) (x : List UInt8) :
    (l ++ [b] ++ x).rdropWhile strips = l ++ [b] ++ x.rdropWhile strips := by
  induction x using List.reverseRecOn with
  | nil => simp [List.rdropWhile_concat_neg strips l b hb]
  | append_singleton y c ih =>
    by_cases hc : strips c
    · rw [← List.append_assoc, List.rdropWhile_concat_pos _ _ _ hc,
        List.rdropWhile_concat_pos _ _ _ hc, ih]
    · rw [← List.append_assoc, List.rdropWhile_concat_neg _ _ _ hc,
        List.rdropWhile_concat_neg _ _ _ hc, List.append_assoc]

end strip

/-- The text that is split. -/
def loadText (M : Variables) : CStr := utilSystemCmd (nvramGetOutput M) TMP_BUFF_LEN

theorem chop_strip (t : CStr) (n : ℕ) :
    ((t.chop CR).val.take n).rdropWhile strips = (t.val.take n).rdropWhile strips := by
  unfold CStr.chop
  split
  case isTrue h =>
    rcases List.getLast?_eq_some_iff.mp h with ⟨l, hl⟩
    have htake : (t.take (t.len - 1)).val = l := by simp [CStr.take, CStr.len, hl]
    rw [htake, hl, strip_take_concat (by decide)]
  case isFalse => rfl

/-- Of the first line, what the buffer holds, without a blank end. -/
theorem loadText_val {M : Variables} {t : CStr}
    (hM : M (.ofString "myqnapcloud_id_rule") = some t) : (loadText M).val =
      (((t.chop CR).val.takeWhile (· ≠ NL)).take (TMP_BUFF_LEN - 1)).rdropWhile strips := by
  have hout : nvramGetOutput M = (t.chop CR).val ++ [NL] := by
    simp [nvramGetOutput, hM, putsTrimCr]
  have hline : ((t.chop CR).val ++ [NL]).takeWhile (· ≠ NL) =
      (t.chop CR).val.takeWhile (· ≠ NL) := by
    rw [List.takeWhile_append]
    split
    case isTrue h => simpa using ((List.takeWhile_prefix _).eq_of_length h).symm
    case isFalse => rfl
  have hgets : fgets TMP_BUFF_LEN (nvramGetOutput M) =
      ((t.chop CR).val.takeWhile (· ≠ NL) ++ [NL]).take (TMP_BUFF_LEN - 1) := by
    rw [fgets, hout, hline, if_pos (by simp)]
  have hfree : (0 : UInt8) ∉ fgets TMP_BUFF_LEN (nvramGetOutput M) := by
    rw [hgets]
    intro h
    rcases List.mem_append.mp (List.mem_of_mem_take h) with h | h
    · exact (t.chop CR).property (List.takeWhile_subset _ h)
    · simp [NL] at h
  have hstrip : (0 : UInt8) ∉ (fgets TMP_BUFF_LEN (nvramGetOutput M)).rdropWhile strips :=
    fun h => hfree ((List.rdropWhile_prefix _ _).subset h)
  rw [loadText, utilSystemCmd, CStr.read_of_free hfree]
  change (CStr.read (List.rdropWhile strips (fgets TMP_BUFF_LEN (nvramGetOutput M)))).val = _
  rw [CStr.read_of_free hstrip]
  change List.rdropWhile strips (fgets TMP_BUFF_LEN (nvramGetOutput M)) = _
  rw [hgets, strip_take_concat (by decide)]

/-- What is split comes from the variable and holds no newline. -/
theorem mem_loadText {M : Variables} {t : CStr}
    (hM : M (.ofString "myqnapcloud_id_rule") = some t) {b : UInt8} (h : b ∈ (loadText M).val) :
    b ∈ t.val ∧ b ≠ NL := by
  rw [loadText_val hM] at h
  have hline := List.mem_of_mem_take ((List.rdropWhile_prefix _ _).subset h)
  constructor
  · have hchop := List.takeWhile_subset _ hline
    unfold CStr.chop at hchop
    split at hchop
    · exact List.mem_of_mem_take hchop
    · exact hchop
  · simpa using List.mem_takeWhile_imp hline

theorem loadText_eq {M : Variables} {t : CStr}
    (hM : M (.ofString "myqnapcloud_id_rule") = some t) (ht : NL ∉ t.val) :
    (loadText M).val = (t.val.take (TMP_BUFF_LEN - 1)).rdropWhile strips := by
  have hline : (t.chop CR).val.takeWhile (· ≠ NL) = (t.chop CR).val := by
    apply List.takeWhile_eq_self_iff.mpr
    intro b hb
    have hmem : b ∈ t.val := by
      unfold CStr.chop at hb
      split at hb
      · exact List.mem_of_mem_take hb
      · exact hb
    simpa using ne_of_mem_of_not_mem hmem ht
  rw [loadText_val hM, hline, chop_strip]

/-- What is read of the last field. -/
def ddnsRead (r : Field → CStr) : CStr :=
  ⟨((r .ddnsStatus).val.take (TMP_BUFF_LEN - 1 - (front r).length)).rdropWhile strips, fun h =>
    (r .ddnsStatus).property (List.mem_of_mem_take ((List.rdropWhile_prefix _ _).subset h))⟩

/-- The record that is read. -/
def loaded (r : Field → CStr) : Field → CStr := Function.update r .ddnsStatus (ddnsRead r)

/-- All separators are in the buffer. -/
def Readable (r : Field → CStr) : Prop := (front r).length ≤ TMP_BUFF_LEN - 1

theorem loaded_of_ne {r : Field → CStr} {f : Field} (hf : f ≠ .ddnsStatus) : loaded r f = r f :=
  Function.update_of_ne hf _ _

theorem front_congr {r r' : Field → CStr} (h : ∀ f, f ≠ .ddnsStatus → r f = r' f) :
    front r = front r' := by
  rw [front, front]
  congr 1
  apply List.map_congr_left
  intro f hf
  exact h f fun he => absurd (he ▸ hf) (by decide)

theorem mem_ddnsRead {r : Field → CStr} {b : UInt8} (h : b ∈ (ddnsRead r).val) :
    b ∈ (r .ddnsStatus).val :=
  List.mem_of_mem_take ((List.rdropWhile_prefix _ _).subset h)

theorem loadText_stored {r : Field → CStr} (hr : ∀ f, Plain (r f)) {M : Variables}
    (hM : Stored r M) (h : Readable r) : loadText M = textOf (loaded r) := by
  have hfront : front (loaded r) = front r := front_congr fun f hf => loaded_of_ne hf
  rcases front_concat r with ⟨l, hl⟩
  apply Subtype.ext
  rw [loadText_eq hM (newline_not_mem_textOf hr), textOf_val, textOf_val, hfront, List.take_append,
    List.take_of_length_le h]
  conv_lhs => rw [hl, strip_append (by decide), ← hl]
  simp [loaded, ddnsRead]

/-- What a load gives of a stored record. -/
theorem load_stored {r : Field → CStr} (hr : ∀ f, Plain (r f)) {M : Variables} (hM : Stored r M)
    (h : Readable r) : loadNvramQcloudConfig M = .ok (record (loaded r)) := by
  have hfree : ∀ f ∈ Field.all.dropLast, CARET ∉ (loaded r f).val := by
    intro f hf
    rw [loaded_of_ne fun he => absurd (he ▸ hf) (by decide)]
    exact (hr f).caret
  have hparse := parse_join (by simp [Field.all] : Field.all ≠ []) hfree fun _ => CStr.empty
  rw [override_all] at hparse
  change parseNvramQcloudConfig Field.all (loadText M) _ = _
  rw [loadText_stored hr hM h, zeros_eq_record]
  exact hparse

/-- What was loaded is a record of what was split. -/
theorem load_inv {M : Variables} {m : QidConfig} (h : loadNvramQcloudConfig M = .ok m) :
    ∃ tok : Field → CStr, loadText M = textOf tok ∧
      (∀ f, f ≠ .ddnsStatus → CARET ∉ (tok f).val) ∧ m = record tok := by
  change parseNvramQcloudConfig Field.all (loadText M) _ = _ at h
  rw [zeros_eq_record] at h
  rcases join_of_parse (by simp [Field.all]) Field.nodup_all h with ⟨tok, hdata, hfree, hm⟩
  refine ⟨tok, hdata, fun f hf => hfree f ?_, ?_⟩
  · cases f <;> first | exact absurd rfl hf | decide
  · rw [hm, override_all]

theorem load_error {M : Variables} {e : ℤ} (h : loadNvramQcloudConfig M = .error e) : e = -1 :=
  parse_error h

/-- A record that has lost a separator. -/
theorem load_unreadable {r : Field → CStr} (hr : ∀ f, Plain (r f)) {M : Variables}
    (hM : Stored r M) (h : ¬ Readable r) : loadNvramQcloudConfig M = .error (-1) := by
  cases hload : loadNvramQcloudConfig M with
  | error e => rw [load_error hload]
  | ok m =>
    rcases load_inv hload with ⟨tok, htext, -, -⟩
    rcases front_concat r with ⟨l, hl⟩
    have hcount : l.count CARET = 10 := by
      have hheads : (front r).count CARET = 11 := by
        rw [front, CStr.count_heads]
        · rfl
        · intro s hs
          rcases List.mem_map.mp hs with ⟨f, -, rfl⟩
          exact (hr f).caret
      rw [hl, List.count_append, List.count_singleton_self] at hheads
      omega
    have hlen : TMP_BUFF_LEN - 1 ≤ l.length := by
      rw [Readable, hl, List.length_append, List.length_singleton] at h
      omega
    have hpre : (loadText M).val <+: l := by
      rw [loadText_eq hM (newline_not_mem_textOf hr), textOf_val, hl, List.append_assoc,
        List.take_append_of_le_length hlen]
      exact (List.rdropWhile_prefix _ _).trans (List.take_prefix _ _)
    have hle := hpre.sublist.count_le CARET
    have hge := CStr.le_count_join (by decide : CARET ≠ 0) (Field.all.map tok)
    rw [htext] at hle
    change _ ≤ (textOf tok).val.count CARET + 1 at hge
    have hall : (Field.all.map tok).length = 12 := by simp [Field.all]
    omega

/-- The longest text for which the command keeps its last quote. -/
def SAVE_ROOM : ℕ := TMP_BUFF_LEN - 1 - (saveCommand.len + 1)

theorem saveRoom_eq : SAVE_ROOM = 980 := by decide +kernel

/-- The part of a text that the shell takes as the value. -/
def quoted (t : CStr) : CStr :=
  ⟨t.val.takeWhile (· != QUOTE), fun h => t.property (List.takeWhile_subset _ h)⟩

theorem quoted_of_not_mem {t : CStr} (h : QUOTE ∉ t.val) : quoted t = t := by
  apply Subtype.ext
  apply List.takeWhile_eq_self_iff.mpr
  intro b hb
  simpa using ne_of_mem_of_not_mem hb h

/-- The value that a printed command carries, and what follows its quote. -/
def commandTail (t : CStr) : CStr :=
  ⟨(t.val.take (TMP_BUFF_LEN - 1) ++ [QUOTE]).take (SAVE_ROOM + 1), fun h => by
    rcases List.mem_append.mp (List.mem_of_mem_take h) with h | h
    · exact t.property (List.mem_of_mem_take h)
    · simp [QUOTE] at h⟩

theorem quoted_split (t : CStr) :
    t.val = (quoted t).val ∨ ∃ l, t.val = (quoted t).val ++ QUOTE :: l := by
  by_cases h : QUOTE ∈ t.val
  · have hcut : CStr.cut QUOTE t = some (quoted t, _) := if_pos h
    exact Or.inr ⟨_, congrArg Subtype.val (CStr.eq_glue_of_cut (by decide) hcut)⟩
  · exact Or.inl (congrArg Subtype.val (quoted_of_not_mem h)).symm

theorem quote_not_mem_quoted (t : CStr) : QUOTE ∉ (quoted t).val := by
  intro h
  simpa using List.mem_takeWhile_imp h

theorem take_append_cons {q s : List UInt8} {b : UInt8} {n : ℕ} (h : q.length < n) :
    (q ++ b :: s).take n = q ++ b :: s.take (n - q.length - 1) := by
  obtain ⟨k, rfl⟩ : ∃ k, n = q.length + (k + 1) := ⟨n - q.length - 1, by omega⟩
  rw [List.take_length_add_append, List.take_succ_cons]
  congr 3
  omega

/-- A text that fits keeps the quote behind its value. -/
theorem commandTail_fits {t : CStr} (h : (quoted t).len ≤ SAVE_ROOM) :
    ∃ rest : CStr, CStr.cut QUOTE (commandTail t) = some (quoted t, rest) ∧
      (QUOTE ∉ t.val → rest = CStr.empty) := by
  have hroom := saveRoom_eq
  change (quoted t).val.length ≤ SAVE_ROOM at h
  have hlong : (quoted t).val.length < TMP_BUFF_LEN - 1 := by
    rw [TMP_BUFF_LEN]
    omega
  obtain ⟨s, hs, hnone⟩ : ∃ s, (commandTail t).val = (quoted t).val ++ QUOTE :: s ∧
      (QUOTE ∉ t.val → s = []) := by
    change ∃ s, (t.val.take (TMP_BUFF_LEN - 1) ++ [QUOTE]).take (SAVE_ROOM + 1) = _ ∧ _
    rcases quoted_split t with ht | ⟨l, ht⟩
    · rw [ht, List.take_of_length_le hlong.le, take_append_cons (by omega)]
      exact ⟨_, rfl, fun _ => List.take_nil⟩
    · have hmem : QUOTE ∈ t.val := by
        rw [ht]
        simp
      rw [ht, take_append_cons hlong, List.append_assoc, List.cons_append,
        take_append_cons (by omega)]
      exact ⟨_, rfl, fun hno => absurd (by simp) hno⟩
  have hfree : (0 : UInt8) ∉ s := fun h0 =>
    (commandTail t).property (by rw [hs]; simp [h0])
  have hglue : commandTail t = CStr.glue QUOTE (by decide) (quoted t) ⟨s, hfree⟩ :=
    Subtype.ext hs
  refine ⟨⟨s, hfree⟩, ?_, fun hno => Subtype.ext (hnone hno)⟩
  rw [hglue, CStr.cut_glue _ (quote_not_mem_quoted t)]

/-- A longer one has lost it. -/
theorem commandTail_long {t : CStr} (h : SAVE_ROOM < (quoted t).len) :
    QUOTE ∉ (commandTail t).val := by
  have hroom := saveRoom_eq
  intro hmem
  change SAVE_ROOM < (quoted t).val.length at h
  have hpre : ∀ x, ((quoted t).val ++ x).take (SAVE_ROOM + 1) =
      (quoted t).val.take (SAVE_ROOM + 1) := fun x => List.take_append_of_le_length h
  have hall : ∃ x, t.val = (quoted t).val ++ x := by
    rcases quoted_split t with ht | ⟨l, ht⟩
    · exact ⟨[], by rw [List.append_nil, ← ht]⟩
    · exact ⟨_, ht⟩
  rcases hall with ⟨x, ht⟩
  have htail : (commandTail t).val = (quoted t).val.take (SAVE_ROOM + 1) := by
    have hshort : SAVE_ROOM + 1 ≤ (t.val.take (TMP_BUFF_LEN - 1)).length := by
      rw [List.length_take, ht, List.length_append, TMP_BUFF_LEN]
      omega
    change (t.val.take (TMP_BUFF_LEN - 1) ++ [QUOTE]).take (SAVE_ROOM + 1) = _
    rw [List.take_append_of_le_length hshort, List.take_take, TMP_BUFF_LEN,
      Nat.min_eq_left (by omega), ht, hpre]
  rw [htail] at hmem
  exact quote_not_mem_quoted t (List.mem_of_mem_take hmem)

section save
variable (other : CStr → Variables → ℤ × Variables)

/-- What the shell is given. -/
theorem save_eq (m : QidConfig) (M : Variables) : ∃ cmd : CStr,
    CStr.read (cmd.val.drop saveCommand.len) = commandTail (textOf m.get) ∧
      saveNvramQcloudConfig other m M = system other cmd M := by
  refine ⟨_, ?_, rfl⟩
  have hlen : saveCommand.val.length = 42 := by decide +kernel
  have hroom := saveRoom_eq
  have hval : ((((saveCommand.append ((textOf m.get).take (TMP_BUFF_LEN - 1))).append
      ⟨[QUOTE], by decide⟩).take (TMP_BUFF_LEN - 1)).val.drop saveCommand.len) =
      (commandTail (textOf m.get)).val := by
    change ((saveCommand.val ++ (textOf m.get).val.take (TMP_BUFF_LEN - 1) ++ [QUOTE]).take
      (TMP_BUFF_LEN - 1)).drop saveCommand.val.length = _
    rw [List.drop_take, List.append_assoc, List.drop_left, hlen]
    change _ = ((textOf m.get).val.take (TMP_BUFF_LEN - 1) ++ [QUOTE]).take (SAVE_ROOM + 1)
    rw [hroom]
    rfl
  change CStr.read ((((saveCommand.append ((textOf m.get).take (TMP_BUFF_LEN - 1))).append
      ⟨[QUOTE], by decide⟩).take (TMP_BUFF_LEN - 1)).val.drop saveCommand.len) = _
  rw [hval, CStr.read_val]

/-- A text that does not fit is refused by the shell. -/
theorem save_long {m : QidConfig} (h : SAVE_ROOM < (quoted (textOf m.get)).len) (M : Variables) :
    saveNvramQcloudConfig other m M = (SYNTAX_ERROR, M) := by
  rcases save_eq other m M with ⟨cmd, htail, hsave⟩
  rw [hsave, system, htail, CStr.cut_eq_none.mpr (commandTail_long h)]

/-- A text that fits is stored up to its first quote, or given to the shell. -/
theorem save_fits {m : QidConfig} (h : (quoted (textOf m.get)).len ≤ SAVE_ROOM) (M : Variables) :
    saveNvramQcloudConfig other m M = (0, Function.update M (.ofString "myqnapcloud_id_rule")
      (kept (some (quoted (textOf m.get))))) ∨
    ∃ cmd, saveNvramQcloudConfig other m M = other cmd M := by
  rcases save_eq other m M with ⟨cmd, htail, hsave⟩
  rcases commandTail_fits h with ⟨rest, hcut, -⟩
  rw [hsave, system, htail, hcut]
  by_cases hrest : rest = CStr.empty
  · exact Or.inl (if_pos hrest)
  · exact Or.inr ⟨cmd, if_neg hrest⟩

/-- A text without quotes that fits is stored. -/
theorem save_plain {m : QidConfig} (hm : QUOTE ∉ (textOf m.get).val)
    (h : (quoted (textOf m.get)).len ≤ SAVE_ROOM) (M : Variables) :
    saveNvramQcloudConfig other m M = (0, Function.update M (.ofString "myqnapcloud_id_rule")
      (some (textOf m.get))) := by
  rcases save_eq other m M with ⟨cmd, htail, hsave⟩
  rcases commandTail_fits h with ⟨rest, hcut, hrest⟩
  rw [hsave, system, htail, hcut, quoted_of_not_mem hm]
  simp [hrest hm, kept, textOf_ne_empty]

end save

end EzpFirmware.Qcloud
