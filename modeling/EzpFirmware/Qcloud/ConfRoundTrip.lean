import EzpFirmware.Qcloud.Conf

/-! # Reading back a written configuration

A line is read when it carries both delimiters. The writer prints none, so a reader leaves every
block as it was.
-/
namespace EzpFirmware.Qcloud
open Lib UserNvram

/-- Text without delimiters, separators, quotes, ends of lines and outer spaces. -/
structure CleanText (text : List UInt8) : Prop where
  left : CONF_KW_LEFT_DELIMITER ∉ text
  right : CONF_KW_RIGHT_DELIMITER ∉ text
  separator : CONF_KW_VAL_SEPERATOR ∉ text
  quote : QUOTE ∉ text
  doubleQuote : DOUBLE_QUOTE_CHAR ∉ text
  newline : NL ∉ text
  head : ∀ b ∈ text.head?, isSpace b = false
  last : ∀ b ∈ text.getLast?, isSpace b = false

namespace ConfParam

/-- How long the text of a parameter can be. A flag is a single byte. -/
def limit (param : ConfParam) : Option ℕ :=
  match param.type with
  | .string => some param.maxLen
  | .url => some URL_STR_LEN
  | .ip => some IP_HOST_LEN
  | .addrList => some ADDR_STR_LEN
  | .mac => some MAC_STR_LEN
  | .int | .bool => none

/-- How many bytes of the block a parameter takes. -/
def size (param : ConfParam) : ℕ :=
  match param.type with
  | .int => 4
  | _ => (param.limit.getD 0) + 1

/-- The value of a parameter in a block. -/
def value (param : ConfParam) (base : List UInt8) : List UInt8 :=
  match param.type with
  | .int => (base.drop param.offset).take 4
  | .bool => (base.drop param.offset).take 1
  | _ => (CStr.read (base.drop param.offset)).val

end ConfParam

/-- A table with distinct keywords, and a block whose values can be written. -/
structure Writable (params : List ConfParam) (base : List UInt8) : Prop where
  distinct : (params.map ConfParam.keyword).Nodup
  keyword : ∀ param ∈ params, param.keyword ≠ CStr.empty ∧ CleanText param.keyword.val
  value : ∀ param ∈ params, param.type ≠ .int →
    CleanText (CStr.read (base.drop param.offset)).val
  room : ∀ param ∈ params, param.offset + param.size ≤ base.length
  fits : ∀ param ∈ params, ∀ n ∈ param.limit, (CStr.read (base.drop param.offset)).len ≤ n

/-- The file is written, and reading it into any block gives every value of the table. -/
def Restores (params : List ConfParam) (base : List UInt8) : Prop :=
  ∃ text, confSaveRunTimeInfo base params = some text ∧
    ∀ base' : List UInt8, base'.length = base.length → ∀ param ∈ params,
      param.value (confInit (some text) base' params).2 = param.value base

/-! ## What the reader takes -/

theorem utilTrim_clean {text : List UInt8} (h : CleanText text) (hne : text ≠ [])
    (leadingOnly : Bool) : utilTrim text leadingOnly = some text := by
  obtain ⟨b, rest, rfl⟩ := List.exists_cons_of_ne_nil hne
  have hhead : isSpace b = false := h.head b rfl
  have hlast : (b :: rest).rdropWhile isSpace = b :: rest := by
    apply List.rdropWhile_eq_self_iff.mpr
    intro hne
    simpa using h.last _ (List.getLast_mem_getLast? hne)
  simp [utilTrim, hhead, hlast]

theorem idxOf_behind {l : List UInt8} {b : UInt8} (h : b ∉ l) (rest : List UInt8) :
    (l ++ b :: rest).idxOf b = l.length := by
  rw [List.idxOf_append_of_notMem h, List.idxOf_cons_self, Nat.add_zero]

/-- A value between delimiters is found under its keyword. -/
theorem confGetValue_delimited {key value : List UInt8} (hkey : CleanText key) (hkeyne : key ≠ [])
    (hvalue : CleanText value) (hvaluene : value ≠ []) (rest : List UInt8) :
    confGetValue (CONF_KW_LEFT_DELIMITER :: (key ++ CONF_KW_VAL_SEPERATOR :: value ++
      CONF_KW_RIGHT_DELIMITER :: rest)) none = .ok (key, some value) := by
  have hsep : (key ++ CONF_KW_VAL_SEPERATOR :: value ++ CONF_KW_RIGHT_DELIMITER :: rest).idxOf
      CONF_KW_VAL_SEPERATOR = key.length := by
    rw [List.append_assoc, List.cons_append, idxOf_behind hkey.separator]
  have hfree : CONF_KW_RIGHT_DELIMITER ∉ key ++ CONF_KW_VAL_SEPERATOR :: value := by
    rw [List.mem_append, List.mem_cons]
    rintro (h | h | h)
    · exact hkey.right h
    · exact absurd h (by decide)
    · exact hvalue.right h
  have hstop := idxOf_behind hfree rest
  have hkeytrim := utilTrim_clean hkey hkeyne false
  have hvaluetrim := utilTrim_clean hvalue hvaluene false
  have hstart : utilTrim (key ++ CONF_KW_VAL_SEPERATOR :: value ++
      CONF_KW_RIGHT_DELIMITER :: rest) true =
      some (key ++ CONF_KW_VAL_SEPERATOR :: value ++ CONF_KW_RIGHT_DELIMITER :: rest) := by
    obtain ⟨b, l, rfl⟩ := List.exists_cons_of_ne_nil hkeyne
    have hhead : isSpace b = false := hkey.head b rfl
    simp [utilTrim, hhead]
  have hlen : (key ++ CONF_KW_VAL_SEPERATOR :: value).length = key.length + (value.length + 1) := by
    simp
  have htake : (key ++ CONF_KW_VAL_SEPERATOR :: value ++ CONF_KW_RIGHT_DELIMITER :: rest).take
      (key.length + (value.length + 1)) = key ++ CONF_KW_VAL_SEPERATOR :: value :=
    List.take_left' hlen
  have hvaluetext : (key ++ CONF_KW_VAL_SEPERATOR :: value).drop (key.length + 1) = value := by
    rw [← List.drop_drop, List.drop_left, List.drop_one, List.tail_cons]
  have hkeytext : (key ++ CONF_KW_VAL_SEPERATOR :: value ++ CONF_KW_RIGHT_DELIMITER :: rest).take
      key.length = key := by
    rw [List.append_assoc, List.take_left]
  have hmem : CONF_KW_RIGHT_DELIMITER ∈
      key ++ CONF_KW_VAL_SEPERATOR :: value ++ CONF_KW_RIGHT_DELIMITER :: rest :=
    List.mem_append_right _ List.mem_cons_self
  have htail : ((CONF_KW_LEFT_DELIMITER :: (key ++ CONF_KW_VAL_SEPERATOR :: value ++
      CONF_KW_RIGHT_DELIMITER :: rest)).dropWhile (· ≠ CONF_KW_LEFT_DELIMITER)).tail =
      key ++ CONF_KW_VAL_SEPERATOR :: value ++ CONF_KW_RIGHT_DELIMITER :: rest := by
    simp
  rw [confGetValue, htail, if_neg (by simp)]
  simp only [hstart, hsep, hstop, hlen, htake, hvaluetext, hvaluetrim]
  rw [if_neg (by simp), if_pos (by omega), min_eq_left (by omega), hkeytext, hkeytrim]
  rfl

/-- A line with both delimiters sets its parameter. -/
theorem confLine_delimited {key value : CStr} (hkey : CleanText key.val)
    (hkeyne : key.val ≠ []) (hvalue : CleanText value.val) (hvaluene : value.val ≠ [])
    (params : List ConfParam) (base : List UInt8) :
    confLine params base (CONF_KW_LEFT_DELIMITER :: (key.val ++ CONF_KW_VAL_SEPERATOR ::
      value.val ++ [CONF_KW_RIGHT_DELIMITER, NL])) = confSetParam key.val value.val base params := by
  have hfree : (0 : UInt8) ∉ CONF_KW_LEFT_DELIMITER :: (key.val ++ CONF_KW_VAL_SEPERATOR ::
      value.val ++ [CONF_KW_RIGHT_DELIMITER, NL]) := by
    simp only [List.mem_cons, List.mem_append, List.not_mem_nil, key.property, value.property]
    decide
  have hstart : isSpace CONF_KW_LEFT_DELIMITER = false := by decide
  have hcomment : CONF_KW_LEFT_DELIMITER ≠ COMMENT_CHAR := by decide
  have hget := confGetValue_delimited hkey hkeyne hvalue hvaluene [NL]
  simp only [confLine, CStr.read_of_free hfree, hget]
  simp [utilTrim, hstart, hcomment]

/-- A string that fits is set. -/
theorem value_setParam {param : ConfParam} {n : ℕ} (hlimit : param.limit = some n)
    (hmac : param.type ≠ .mac) {value : CStr} (hfits : value.len ≤ n) {base : List UInt8}
    (hroom : param.offset ≤ base.length) :
    ∃ base', setParam param value.val base = some base' ∧ param.value base' = value.val := by
  have hread : CStr.read ((poke base param.offset (value.val.take n ++ [0])).drop param.offset) =
      value := by
    have hlen : (base.take param.offset).length = param.offset := List.length_take_of_le hroom
    rw [List.take_of_length_le hfits, poke, List.append_assoc, List.drop_left' hlen]
    exact CStr.read_stored_append value _
  refine ⟨poke base param.offset (value.val.take n ++ [0]), ?_⟩
  cases htype : param.type <;> simp_all [ConfParam.limit, setParam, saveStr, ConfParam.value]

/-! ## What the writer gives it -/

/-- No line of a clean table has a left delimiter. -/
theorem left_notMem_confText {params : List ConfParam} {base : List UInt8}
    (h : Writable params base) {param : ConfParam} (hparam : param ∈ params) :
    CONF_KW_LEFT_DELIMITER ∉ confText base param := by
  have hprinted : CONF_KW_LEFT_DELIMITER ∉ (printedValue base param).val := by
    by_cases htype : param.type = .int
    · intro hmem
      rw [printedValue, htype] at hmem
      rcases mem_decimal hmem with hb | ⟨d, hd, hb⟩
      · exact absurd hb (by decide)
      · revert hb
        revert hd
        revert d
        decide
    · have heq : printedValue base param = CStr.read (base.drop param.offset) := by
        rw [printedValue]
        split
        · contradiction
        · rfl
      rw [heq]
      exact (h.value param hparam htype).left
  rw [confText, List.mem_append, List.mem_cons]
  rintro (hmem | hmem | hmem)
  · exact (h.keyword param hparam).2.left hmem
  · exact absurd hmem (by decide)
  · exact hprinted hmem

/-- A line without a left delimiter is skipped. -/
theorem confLine_plain (params : List ConfParam) (base : List UInt8) {line : List UInt8}
    (h : CONF_KW_LEFT_DELIMITER ∉ line) : confLine params base line = base := by
  have hread : CONF_KW_LEFT_DELIMITER ∉ (CStr.read line).val := fun hmem =>
    h (List.takeWhile_subset _ hmem)
  have herror : confGetValue (CStr.read line).val none = .error ERR_INVALID_FORMAT :=
    if_pos (.inl hread)
  simp only [confLine, herror]
  split
  · rfl
  · exact ite_self _

/-- So reading the file changes nothing. -/
theorem confInit_written {params : List ConfParam} {base text : List UInt8}
    (h : Writable params base) (hsave : confSaveRunTimeInfo base params = some text)
    (base' : List UInt8) : confInit (some text) base' params = (NO_ERROR, base') := by
  have hfree : CONF_KW_LEFT_DELIMITER ∉ text := by
    rw [confSaveRunTimeInfo] at hsave
    split at hsave
    · cases hsave
      intro hmem
      obtain ⟨param, hparam, hmem⟩ := List.mem_flatMap.mp hmem
      rcases List.mem_append.mp hmem with hmem | hmem
      · exact left_notMem_confText h hparam hmem
      · exact absurd (List.mem_singleton.mp hmem) (by decide)
    · cases hsave
  have hrun : ∀ lines : List (List UInt8), (∀ line ∈ lines, CONF_KW_LEFT_DELIMITER ∉ line) →
      lines.foldl (confLine params) base' = base' := by
    intro lines hlines
    induction lines with
    | nil => rfl
    | cons line lines ih =>
      obtain ⟨hline, hrest⟩ := List.forall_mem_cons.mp hlines
      rw [List.foldl_cons, confLine_plain params base' hline, ih hrest]
  rw [confInit, hrun]
  exact fun line hline hmem => hfree (mem_of_mem_pieces hline hmem)

/-! ## Values that are lost -/

/-- The value of a parameter shows the first of its bytes. -/
theorem headD_value (param : ConfParam) {m : List UInt8} (hm : param.offset < m.length) :
    (param.value m).headD 0 = m[param.offset] := by
  have htext : (CStr.read (m.drop param.offset)).val.headD 0 = m[param.offset] := by
    change ((m.drop param.offset).takeWhile (· != 0)).headD 0 = _
    rw [List.drop_eq_getElem_cons hm, List.takeWhile_cons]
    split
    · rfl
    · next h =>
      have hzero : m[param.offset] = 0 := by simpa using h
      exact hzero.symm
  rw [ConfParam.value]
  split
  · rw [List.drop_eq_getElem_cons hm, List.take_succ_cons, List.headD_cons]
  · rw [List.drop_eq_getElem_cons hm, List.take_succ_cons, List.headD_cons]
  · exact htext

/-- No value of a table is restored. -/
theorem not_restores {params : List ConfParam} {base : List UInt8} (h : Writable params base)
    (hne : params ≠ []) : ¬ Restores params base := by
  rintro ⟨text, hsave, hrestore⟩
  obtain ⟨param, rest, rfl⟩ := List.exists_cons_of_ne_nil hne
  have hparam : param ∈ param :: rest := List.mem_cons_self
  have hsize : 0 < param.size := by
    rw [ConfParam.size]
    split <;> omega
  have hoffset : param.offset < base.length := by
    have := h.room param hparam
    omega
  have hvalue := hrestore (base.set param.offset (base[param.offset] + 1)) (by simp) param hparam
  rw [confInit_written h hsave] at hvalue
  have hbyte := congrArg (List.headD · 0) hvalue
  rw [headD_value param (by simpa using hoffset), headD_value param hoffset,
    List.getElem_set_self] at hbyte
  simp at hbyte

/-- A table with one parameter. -/
def debugLevel : List ConfParam := [⟨.ofString "DebugLevel", .int, 0, 0⟩]

theorem writable_debugLevel : Writable debugLevel [1, 0, 0, 0] := by
  have hkeyword : (CStr.ofString "DebugLevel").val = "DebugLevel".toList.map fun c =>
      UInt8.ofNat c.toNat := by decide +kernel
  constructor <;> simp only [debugLevel, List.mem_singleton, forall_eq]
  · exact List.nodup_singleton _
  · refine ⟨fun h => ?_, ?_⟩
    · have hlen := congrArg CStr.len h
      revert hlen
      decide +kernel
    · constructor <;> rw [hkeyword] <;> decide +kernel
  · exact fun h => absurd rfl h
  · decide
  · exact fun n hn => by cases hn

/-- A written configuration is restored exactly when it is empty. -/
theorem restores_iff {params : List ConfParam} {base : List UInt8} (h : Writable params base) :
    Restores params base ↔ params = [] := by
  constructor
  · intro hrestores
    by_contra hne
    exact not_restores h hne hrestores
  · rintro rfl
    exact ⟨[], by simp [confSaveRunTimeInfo], fun _ _ _ hparam => absurd hparam List.not_mem_nil⟩

theorem restores_iff_debugLevel : Restores debugLevel [1, 0, 0, 0] ↔ debugLevel = [] :=
  restores_iff writable_debugLevel

/-- The level of messages is lost. -/
theorem debugLevel_lost : ¬ ∀ params base, Writable params base → Restores params base :=
  fun h => not_restores writable_debugLevel (List.cons_ne_nil _ _) (h _ _ writable_debugLevel)

end EzpFirmware.Qcloud
