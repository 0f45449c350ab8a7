import EzpFirmware.Httpd.FieldChecks
import EzpFirmware.Httpd.RuleChecks

/-! # The check of a single address

The check asks the C library whether a text is an address, and rules out nets
and broadcast addresses by the characters at the end of the text.
-/
namespace EzpFirmware.Httpd
open Lib

/-! ## Characters counted from the end -/

/-- Characters tested one after the other at the end of a text. The result is missing if a test
looks in front of the text. -/
def endsWith (value : CStr) : List UInt8 → Option Bool
  | [] => some true
  | b :: bs =>
    if value.len < bs.length + 1 then none
    else if value.val[value.len - (bs.length + 1)]? = some b then endsWith value bs
    else some false

/-- `is_legal_ipaddr`. -/
def isLegalIpaddr (value : CStr) : Bool := (inetAton value).isSome

/-- `valid_ipaddr` with the places that it looks at. -/
def validIpaddrChars (v : LocalVariable) (value : CStr) : Option Bool :=
  if value = CStr.empty then some v.nullok
  else if !validWord value then some false
  else if !isLegalIpaddr value then some false
  else
    match endsWith value [0x2e, 0x30] with
    | none => none
    | some true => some false
    | some false => (endsWith value [0x2e, 0x32, 0x35, 0x35]).map (!·)

section
variable {value : CStr} {bs : List UInt8}

/-- A suffix is found from its first character on. -/
theorem cons_suffix_iff {b : UInt8} {bs l : List UInt8} (h : bs.length + 1 ≤ l.length) :
    b :: bs <:+ l ↔ l[l.length - (bs.length + 1)]? = some b ∧ bs <:+ l := by
  have hk : l.length - (bs.length + 1) < l.length := by omega
  have hnext : l.length - (bs.length + 1) + 1 = l.length - bs.length := by omega
  rw [List.suffix_iff_eq_drop, List.suffix_iff_eq_drop, List.length_cons,
    List.drop_eq_getElem_cons hk, hnext, List.cons.injEq, List.getElem?_eq_getElem hk,
    Option.some_inj]
  exact and_congr_left fun _ => eq_comm

theorem endsWith_of_le (h : bs.length ≤ value.len) :
    endsWith value bs = some (decide (bs <:+ value.val)) := by
  induction bs with
  | nil => simp [endsWith]
  | cons b bs ih =>
    have hsuffix := @cons_suffix_iff b bs _ h
    rw [List.length_cons] at h
    rw [endsWith, if_neg (by omega), ih (by omega)]
    split_ifs with hb
    · congr 1
      exact decide_eq_decide.mpr (by rw [hsuffix]; exact (and_iff_right hb).symm)
    · rw [decide_eq_false fun hs => hb (hsuffix.mp hs).1]

theorem endsWith_of_lt (h : value.len < bs.length) : endsWith value bs = none := by
  cases bs with
  | nil => cases h
  | cons b bs =>
    rw [List.length_cons] at h
    rw [endsWith, if_pos h]

theorem endsNet_eq (value : CStr) : endsNet value =
    (decide ([0x2e, 0x30] <:+ value.val) || decide ([0x2e, 0x32, 0x35, 0x35] <:+ value.val)) := by
  rw [endsNet, Bool.eq_iff_iff]
  simp

/-- What the check does with a text that its first two questions let through. -/
theorem validIpaddrChars_run (v : LocalVariable) (hne : value ≠ CStr.empty)
    (hword : validWord value = true) (hlegal : isLegalIpaddr value = true) :
    validIpaddrChars v value =
      if endsNet value = true ∨ 4 ≤ value.len then some (!endsNet value) else none := by
  have hshort : ∀ bs : List UInt8, value.len < bs.length → ¬ bs <:+ value.val := fun bs h hs =>
    absurd hs.length_le (not_le.mpr h)
  simp only [validIpaddrChars, if_neg hne, hword, hlegal, endsNet_eq, Bool.not_true,
    Bool.false_eq_true, if_false]
  by_cases h2 : value.len < 2
  · have hnet := hshort [0x2e, 0x30] h2
    have hbroadcast := hshort [0x2e, 0x32, 0x35, 0x35] (h2.trans (by decide))
    simp [@endsWith_of_lt value [0x2e, 0x30] h2, hnet, hbroadcast,
      show ¬ 4 ≤ value.len by omega]
  · rw [endsWith_of_le (not_lt.mp h2)]
    by_cases hnet : [0x2e, 0x30] <:+ value.val
    · simp [hnet]
    · by_cases h4 : value.len < 4
      · have hbroadcast := hshort [0x2e, 0x32, 0x35, 0x35] h4
        simp [hnet, hbroadcast, @endsWith_of_lt value [0x2e, 0x32, 0x35, 0x35] h4,
          not_le.mpr h4]
      · rw [@endsWith_of_le _ [0x2e, 0x32, 0x35, 0x35] (not_lt.mp h4)]
        simp [hnet, not_lt.mp h4]

/-- With enough characters the check is the one of the pages of rules. -/
theorem validIpaddrChars_eq (x : RuleContext) (v : LocalVariable) (h : 4 ≤ value.len) :
    validIpaddrChars v value = some (validIpaddr (posix x) v value) := by
  have hne : value ≠ CStr.empty := by
    rintro rfl
    simp [CStr.len, CStr.empty] at h
  cases hword : validWord value with
  | false => simp [validIpaddrChars, validIpaddr, hne, hword]
  | true =>
    cases hlegal : isLegalIpaddr value with
    | false =>
      have hnone : (inetAton value).isSome = false := hlegal
      simp [validIpaddrChars, validIpaddr, posix, hne, hword, hlegal, hnone]
    | true =>
      have hsome : (inetAton value).isSome = true := hlegal
      rw [validIpaddrChars_run v hne hword hlegal, if_pos (.inr h)]
      simp [validIpaddr, posix, hne, hword, hsome]

end

/-! ## Dotted quads -/

/-- Four numbers below 256 in decimal, with dots between them and nothing else. -/
def IsQuad (value : CStr) (last : ℕ) : Prop :=
  ∃ a < 256, ∃ b < 256, ∃ c < 256, last < 256 ∧ value = dotted [a, b, c, last]

section
variable {value : CStr} {last : ℕ}

theorem IsQuad.inetAton (h : IsQuad value last) : (inetAton value).isSome = true := by
  obtain ⟨a, ha, b, hb, c, hc, hlast, rfl⟩ := h
  have hread := @addressFrom_dotted [a, b, c] (by simp [ha, hb, hc]) last hlast 0
  simp only [List.length_cons, List.length_nil, List.cons_append, List.nil_append] at hread
  rw [inetAton, hread]
  rfl

theorem mem_dotted {ns : List ℕ} {b : UInt8} (h : b ∈ (dotted ns).val) :
    b = DOT ∨ ∃ d < 10, b = digitByte d := by
  induction ns with
  | nil => cases h
  | cons n ns ih =>
    have hn : b ∈ (decimal n).val → ∃ d < 10, b = digitByte d := by
      rw [decimal_val]
      exact mem_numeral (by decide)
    cases ns with
    | nil => exact .inr (hn h)
    | cons m ns =>
      rw [dotted, List.map_cons, CStr.join_cons DOT_ne_zero _ (by simp)] at h
      simp only [CStr.glue, List.mem_append, List.mem_cons] at h
      rcases h with h | rfl | h
      · exact .inr (hn h)
      · exact .inl rfl
      · exact ih h

theorem validWord_dotted (ns : List ℕ) : validWord (dotted ns) = true := by
  rw [validWord, List.all_eq_true]
  intro b hb
  rcases mem_dotted hb with rfl | ⟨d, hd, rfl⟩
  · decide
  · have hdigits : ∀ d < 10, decide (digitByte d ∉
        [0x5e, 0x7c, 0x27, 0x22, 0x3b, 0x24, 0x60, 0x26, 0x3e, 0x3c]) = true := by decide
    exact hdigits d hd

/-- What is behind the last dot of a text decides about its suffixes with one dot. -/
theorem dot_cons_suffix_iff {s t pre : List UInt8} (hs : DOT ∉ s) (ht : DOT ∉ t) :
    DOT :: s <:+ pre ++ DOT :: t ↔ s = t := by
  constructor
  · rintro ⟨q, hq⟩
    rcases List.append_eq_append_iff.mp hq with ⟨w, -, hw⟩ | ⟨w, -, hw⟩
    · cases w with
      | nil => exact (List.cons.inj hw).2
      | cons b w =>
        obtain ⟨-, rfl⟩ := List.cons.inj hw
        simp at hs
    · cases w with
      | nil => exact (List.cons.inj hw).2.symm
      | cons b w =>
        obtain ⟨-, rfl⟩ := List.cons.inj hw
        simp at ht
  · rintro rfl
    exact List.suffix_append pre _

theorem decimal_nat_injective {m n : ℕ} (h : decimal m = decimal n) : m = n := by
  have hread := @strtoul_decimal m [] (by simp)
  rw [h, strtoul_decimal n (by simp)] at hread
  exact (Prod.mk.inj hread).1.symm

theorem IsQuad.endsNet_iff (h : IsQuad value last) :
    endsNet value = true ↔ last = 0 ∨ last = 255 := by
  obtain ⟨a, -, b, -, c, -, -, rfl⟩ := h
  have hsplit : (dotted [a, b, c, last]).val =
      ((decimal a).val ++ DOT :: (decimal b).val ++ DOT :: (decimal c).val) ++
        DOT :: (decimal last).val := by
    simp [dotted, CStr.join, CStr.glue]
  have hplain : ∀ n : ℕ, DOT ∉ (decimal n).val := by
    intro n hn
    rw [decimal_val] at hn
    obtain ⟨d, hd, hdot⟩ := mem_numeral (by decide) hn
    have hdigits : ∀ d < 10, DOT ≠ digitByte d := by decide
    exact hdigits d hd hdot
  have hends : ∀ n : ℕ, DOT :: (decimal n).val <:+ (dotted [a, b, c, last]).val ↔ n = last := by
    intro n
    rw [hsplit, dot_cons_suffix_iff (hplain n) (hplain last)]
    constructor
    · intro hval
      exact decimal_nat_injective (Subtype.ext hval)
    · rintro rfl
      rfl
  have hzero : DOT :: (decimal (0 : ℕ)).val = [0x2e, 0x30] := by decide
  have hbroadcast : DOT :: (decimal (255 : ℕ)).val = [0x2e, 0x32, 0x35, 0x35] := by
    decide +kernel
  rw [endsNet_eq, Bool.or_eq_true, decide_eq_true_iff, decide_eq_true_iff, ← hzero, ← hbroadcast,
    hends, hends]
  exact or_congr eq_comm eq_comm

theorem IsQuad.len (h : IsQuad value last) : 4 ≤ value.len := by
  obtain ⟨a, -, b, -, c, -, -, rfl⟩ := h
  have hpos : ∀ n : ℕ, 1 ≤ (decimal n).val.length := by
    intro n
    rw [decimal_val]
    exact List.length_pos_of_ne_nil (numeral_ne_nil 10 n n)
  have ha := hpos a
  have hb := hpos b
  simp only [dotted, List.map_cons, List.map_nil, CStr.join, CStr.glue, CStr.len,
    List.length_append, List.length_cons]
  omega

end

/-! ## What the check accepts -/

/-- What the check of an address is for: it looks at the text only, and accepts dotted quads that
do not end with 0 or 255. -/
def ChecksIpaddr (v : LocalVariable) (value : CStr) : Prop :=
  ∃ valid, validIpaddrChars v value = some valid ∧
    (valid = true ↔ ∃ last, IsQuad value last ∧ last ≠ 0 ∧ last ≠ 255)

/-- The check does what it is for at the texts that it refuses for their characters, their format
or their end, and at dotted quads. -/
theorem checksIpaddr_iff (v : LocalVariable) {value : CStr} (hne : value ≠ CStr.empty) :
    ChecksIpaddr v value ↔ validWord value = false ∨ isLegalIpaddr value = false ∨
      endsNet value = true ∨ ∃ last, IsQuad value last := by
  -- A quad gets through both questions, and its end tells its last number.
  have hquad : ∀ last, IsQuad value last → validWord value = true ∧ isLegalIpaddr value = true := by
    rintro last h
    refine ⟨?_, h.inetAton⟩
    obtain ⟨a, -, b, -, c, -, -, rfl⟩ := h
    exact validWord_dotted _
  cases hword : validWord value with
  | false =>
    have hnone : ∀ last, ¬ IsQuad value last := fun last h => by
      simpa [hword] using (hquad last h).1
    refine iff_of_true ⟨false, by simp [validIpaddrChars, hne, hword], ?_⟩ (.inl rfl)
    simp [hnone]
  | true =>
    cases hlegal : isLegalIpaddr value with
    | false =>
      have hnone : ∀ last, ¬ IsQuad value last := fun last h => by
        simpa [hlegal] using (hquad last h).2
      refine iff_of_true ⟨false, by simp [validIpaddrChars, hne, hword, hlegal], ?_⟩
        (.inr (.inl rfl))
      simp [hnone]
    | true =>
      simp only [Bool.true_eq_false, false_or]
      rw [ChecksIpaddr, validIpaddrChars_run v hne hword hlegal]
      by_cases hnet : endsNet value = true
      · refine iff_of_true ⟨false, by simp [hnet], ?_⟩ (.inl hnet)
        simp only [Bool.false_eq_true, false_iff, not_exists, not_and]
        intro last h h0 h255
        exact (h.endsNet_iff.mp hnet).elim h0 h255
      · simp only [hnet, Bool.false_eq_true, false_or]
        constructor
        · rintro ⟨valid, hvalid, haccept⟩
          split_ifs at hvalid
          obtain rfl : true = valid := Option.some.inj hvalid
          obtain ⟨last, h, -⟩ := haccept.mp rfl
          exact ⟨last, h⟩
        · rintro ⟨last, h⟩
          refine ⟨true, by simp [h.len], iff_of_true rfl ⟨last, h, ?_, ?_⟩⟩
          · rintro rfl
            exact hnet (h.endsNet_iff.mpr (.inl rfl))
          · rintro rfl
            exact hnet (h.endsNet_iff.mpr (.inr rfl))

/-- The address of a device is checked as it should be. -/
theorem checksIpaddr_quad :
    CStr.ofString "192.168.1.5" ≠ CStr.empty ∧
      ChecksIpaddr FR_RULE_IPADDR (.ofString "192.168.1.5") := by
  have hne : CStr.ofString "192.168.1.5" ≠ CStr.empty := by decide +kernel
  have hquad : IsQuad (.ofString "192.168.1.5") 5 :=
    ⟨192, by decide, 168, by decide, 1, by decide, by decide, by decide +kernel⟩
  exact ⟨hne, (checksIpaddr_iff FR_RULE_IPADDR hne).mpr (.inr (.inr (.inr ⟨5, hquad⟩)))⟩

/-- An address with more text behind it is accepted, and one number is looked at in front of it. -/
theorem checksIpaddr_trailing :
    validIpaddrChars FR_RULE_IPADDR (.ofString "1.2.3.4 x") = some true ∧
      validIpaddrChars FR_RULE_IPADDR (.ofString "1") = none ∧
      ¬ ∀ value ≠ CStr.empty, ChecksIpaddr FR_RULE_IPADDR value := by
  have hone : validIpaddrChars FR_RULE_IPADDR (.ofString "1") = none := by decide +kernel
  refine ⟨by decide +kernel, hone, fun h => ?_⟩
  obtain ⟨valid, hvalid, -⟩ := h (.ofString "1") (by decide +kernel)
  rw [hone] at hvalid
  cases hvalid

end EzpFirmware.Httpd
