import EzpFirmware.Lib.Inet
import EzpFirmware.Lib.Patterns
import EzpFirmware.Qcloud.Request

/-! # Public addresses

An address is taken for public if its text matches none of eight patterns. The
patterns for 10, 127 and 172 cover a part of their networks only.
-/
namespace EzpFirmware.Qcloud
open Lib

def REG127 : CStr := .ofString "^127\\.0\\.0\\.."

def REG192 : CStr := .ofString "^192\\.168\\.."

def REG10 : CStr := .ofString "^10\\.0\\.."

def REG172 : CStr := .ofString "^172\\.1[6-9]\\.."

def REG0 : CStr := .ofString "^0\\.."

def REG169 : CStr := .ofString "^169\\.254\\.."

def REG_MULTICAST1 : CStr := .ofString "^22[4-9]\\.."

def REG_MULTICAST2 : CStr := .ofString "^23[0-9]\\.."

def regRules : List CStr :=
  [REG127, REG192, REG10, REG172, REG0, REG169, REG_MULTICAST1, REG_MULTICAST2]

/-! ## Basic regular expressions -/

/-- An expression of single characters, from the start of a text on if it is anchored there. -/
structure Regex where
  anchored : Bool
  classes : List (CharClass UInt8)
  deriving DecidableEq

/-- The characters that stand for something else. -/
def special (b : UInt8) : Bool := b ∈ [0x2a, 0x2e, 0x5b, 0x5c, 0x5e, 0x24]

/-- The classes of an expression without repetitions and groups. -/
def regClasses : List UInt8 → Option (List (CharClass UInt8))
  | [] => some []
  | 0x5c :: c :: rest => if special c then (regClasses rest).map (.self c :: ·) else none
  | 0x5b :: lo :: 0x2d :: hi :: 0x5d :: rest => (regClasses rest).map (.range lo hi :: ·)
  | 0x2e :: rest => (regClasses rest).map (.any :: ·)
  | c :: rest => if special c then none else (regClasses rest).map (.self c :: ·)

/-- `regcomp`. -/
def regcomp (pattern : CStr) : Option Regex :=
  if pattern.val.head? = some 0x5e then (regClasses pattern.val.tail).map (⟨true, ·⟩)
  else (regClasses pattern.val).map (⟨false, ·⟩)

/-- `regexec` finds a match. -/
def regexec (regex : Regex) (text : CStr) : Bool :=
  if regex.anchored then CharClass.fitsPrefix regex.classes text.val
  else text.val.tails.any (CharClass.fitsPrefix regex.classes)

/-- The loop of `util_is_public_ip` over the rules. -/
def publicLoop (inputIp : CStr) : List CStr → ℤ → ℤ
  | [], ret => ret
  | rule :: rules, _ =>
    match regcomp rule with
    | none => -1
    | some regex => if regexec regex inputIp then FALSE else publicLoop inputIp rules TRUE

/-- `util_is_public_ip`. -/
def utilIsPublicIp (inputIp : CStr) : ℤ := publicLoop inputIp regRules 0

example : regcomp REG172 = some ⟨true, [.self 0x31, .self 0x37, .self 0x32, .self 0x2e, .self 0x31,
    .range 0x36 0x39, .self 0x2e, .any]⟩ := by decide

/-! ## Networks -/

/-- The address is in the network, which is given by its address and the length of its prefix. -/
def InNetwork (addr net : UInt32) (len : ℕ) : Prop :=
  addr.toNat / 2 ^ (32 - len) = net.toNat / 2 ^ (32 - len)

instance (addr net : UInt32) (len : ℕ) : Decidable (InNetwork addr net len) :=
  inferInstanceAs (Decidable (_ = _))

/-- The networks whose addresses are not public. -/
def localNetworks : List (UInt32 × ℕ) :=
  [(0x00000000, 8), (0x0a000000, 8), (0x7f000000, 8), (0xa9fe0000, 16), (0xac100000, 12),
    (0xc0a80000, 16), (0xe0000000, 4)]

def IsLocal (addr : UInt32) : Prop := ∃ net ∈ localNetworks, InNetwork addr net.1 net.2

instance (addr : UInt32) : Decidable (IsLocal addr) :=
  inferInstanceAs (Decidable (∃ net ∈ localNetworks, InNetwork addr net.1 net.2))

/-- The function tells the local addresses from the public ones. -/
def TellsPublic (addr : UInt32) : Prop :=
  utilIsPublicIp (inetNtoa addr) = if IsLocal addr then FALSE else TRUE

instance (addr : UInt32) : Decidable (TellsPublic addr) := inferInstanceAs (Decidable (_ = _))

/-- The part of a network for which there is a pattern. -/
structure Covered (addr : UInt32) : Prop where
  private10 : InNetwork addr 0x0a000000 8 → InNetwork addr 0x0a000000 16
  loopback : InNetwork addr 0x7f000000 8 → InNetwork addr 0x7f000000 24
  private172 : InNetwork addr 0xac100000 12 → InNetwork addr 0xac100000 14

/-! ## The patterns by fields -/

/-- The classes of a pattern of fields, with one more character behind them. -/
def fieldClasses (fields : List (List (CharClass UInt8))) : List (CharClass UInt8) :=
  fields.flatMap (· ++ [.self DOT]) ++ [.any]

/-- The class of a digit. -/
def digit (d : ℕ) : CharClass UInt8 := .self (digitByte d)

/-- The fields of the rules. -/
def ruleFields : List (List (List (CharClass UInt8))) :=
  [[[digit 1, digit 2, digit 7], [digit 0], [digit 0]],
    [[digit 1, digit 9, digit 2], [digit 1, digit 6, digit 8]],
    [[digit 1, digit 0], [digit 0]],
    [[digit 1, digit 7, digit 2], [digit 1, .range (digitByte 6) (digitByte 9)]],
    [[digit 0]],
    [[digit 1, digit 6, digit 9], [digit 2, digit 5, digit 4]],
    [[digit 2, digit 2, .range (digitByte 4) (digitByte 9)]],
    [[digit 2, digit 3, .range (digitByte 0) (digitByte 9)]]]

theorem regcomp_regRules :
    regRules.map regcomp = ruleFields.map fun fields => some ⟨true, fieldClasses fields⟩ := by
  decide

theorem dot_notMem_decimal (n : ℕ) : DOT ∉ (decimal n).val := by
  have hdigit : ∀ d < 10, digitByte d ≠ DOT := by decide
  rw [decimal_val]
  intro h
  obtain ⟨d, hd, heq⟩ := mem_numeral (by decide) h
  exact hdigit d hd heq.symm

/-- A pattern of fields is matched by the numbers of a dotted text one by one. -/
theorem fitsPrefix_dotted {fields : List (List (CharClass UInt8))}
    (hfields : ∀ f ∈ fields, ∀ k ∈ f, k.holds DOT = false) {ns : List ℕ}
    (hlen : fields.length < ns.length) :
    CharClass.fitsPrefix (fieldClasses fields) (dotted ns).val =
      (fields.zip ns).all fun x => CharClass.fits x.1 (decimal x.2).val := by
  induction fields generalizing ns with
  | nil =>
    cases ns with
    | nil => simp at hlen
    | cons n ns =>
      have hne : (dotted (n :: ns)).val ≠ [] := by
        cases ns with
        | nil =>
          change (decimal n).val ≠ []
          rw [decimal_val]
          exact numeral_ne_nil 10 n n
        | cons m ns => exact List.append_ne_nil_of_right_ne_nil _ (List.cons_ne_nil _ _)
      obtain ⟨b, s, hcons⟩ := List.exists_cons_of_ne_nil hne
      rw [hcons]
      rfl
  | cons f fields ih =>
    match ns with
    | [] | [_] => simp at hlen
    | n :: m :: ns =>
      have hrest := @ih (fun g hg => hfields g (List.mem_cons_of_mem f hg)) (m :: ns)
        (by simpa using hlen)
      have hclasses : fieldClasses (f :: fields) =
          f ++ .self DOT :: fieldClasses fields := by
        simp [fieldClasses]
      have htext : (dotted (n :: m :: ns)).val =
          (decimal n).val ++ DOT :: (dotted (m :: ns)).val := rfl
      rw [hclasses, htext, CharClass.fitsPrefix_field (hfields f List.mem_cons_self)
        (dot_notMem_decimal n), hrest, List.zip_cons_cons, List.all_cons]

/-- The loop stops at the first pattern that is matched. -/
theorem publicLoop_eq (text : CStr) {rules : List CStr} {regexes : List Regex}
    (hrules : rules.map regcomp = regexes.map some) (ret : ℤ) :
    publicLoop text rules ret =
      if regexes.any (regexec · text) then FALSE else if rules = [] then ret else TRUE := by
  induction rules generalizing regexes ret with
  | nil =>
    obtain rfl : regexes = [] := by simpa using hrules.symm
    rfl
  | cons rule rules ih =>
    cases regexes with
    | nil => cases hrules
    | cons regex regexes =>
      obtain ⟨hrule, hrest⟩ := List.cons.inj hrules
      rw [publicLoop, hrule]
      dsimp only
      rw [ih hrest, List.any_cons]
      by_cases hmatch : regexec regex text
      · simp [hmatch]
      · simp [hmatch]

/-! ## The numbers of the patterns -/

theorem fits_numbers : ∀ n : ℕ, n < 256 →
    (CharClass.fits [digit 1, digit 2, digit 7] (decimal n).val ↔ n = 127) ∧
    (CharClass.fits [digit 0] (decimal n).val ↔ n = 0) ∧
    (CharClass.fits [digit 1, digit 9, digit 2] (decimal n).val ↔ n = 192) ∧
    (CharClass.fits [digit 1, digit 6, digit 8] (decimal n).val ↔ n = 168) ∧
    (CharClass.fits [digit 1, digit 0] (decimal n).val ↔ n = 10) ∧
    (CharClass.fits [digit 1, digit 7, digit 2] (decimal n).val ↔ n = 172) ∧
    (CharClass.fits [digit 1, .range (digitByte 6) (digitByte 9)] (decimal n).val ↔
      16 ≤ n ∧ n ≤ 19) ∧
    (CharClass.fits [digit 1, digit 6, digit 9] (decimal n).val ↔ n = 169) ∧
    (CharClass.fits [digit 2, digit 5, digit 4] (decimal n).val ↔ n = 254) ∧
    (CharClass.fits [digit 2, digit 2, .range (digitByte 4) (digitByte 9)] (decimal n).val ↔
      224 ≤ n ∧ n ≤ 229) ∧
    (CharClass.fits [digit 2, digit 3, .range (digitByte 0) (digitByte 9)] (decimal n).val ↔
      230 ≤ n ∧ n ≤ 239) := by
  decide +kernel

/-- The addresses for which there is a pattern, by their first bytes. -/
def Patterned (a b c : ℕ) : Prop :=
  (a = 127 ∧ b = 0 ∧ c = 0) ∨ (a = 192 ∧ b = 168) ∨ (a = 10 ∧ b = 0) ∨
    (a = 172 ∧ 16 ≤ b ∧ b ≤ 19) ∨ a = 0 ∨ (a = 169 ∧ b = 254) ∨ (224 ≤ a ∧ a ≤ 229) ∨
      (230 ≤ a ∧ a ≤ 239)

instance (a b c : ℕ) : Decidable (Patterned a b c) := inferInstanceAs (Decidable (_ ∨ _))

theorem matched_iff {a b c d : ℕ} (ha : a < 256) (hb : b < 256) (hc : c < 256) :
    (ruleFields.map fun fields => (⟨true, fieldClasses fields⟩ : Regex)).any
        (regexec · (dotted [a, b, c, d])) ↔ Patterned a b c := by
  have hdot : ∀ fields ∈ ruleFields, (∀ f ∈ fields, ∀ k ∈ f, k.holds DOT = false) ∧
      fields.length < [a, b, c, d].length := by
    have hlen : [a, b, c, d].length = 4 := rfl
    rw [hlen]
    decide
  obtain ⟨ha127, ha0, ha192, -, ha10, ha172, -, ha169, -, ha22, ha23⟩ := fits_numbers a ha
  obtain ⟨-, hb0, -, hb168, -, -, hb16, -, hb254, -, -⟩ := fits_numbers b hb
  obtain ⟨-, hc0, -⟩ := fits_numbers c hc
  have hany : (ruleFields.map fun fields => (⟨true, fieldClasses fields⟩ : Regex)).any
      (regexec · (dotted [a, b, c, d])) =
        ruleFields.any fun fields => (fields.zip [a, b, c, d]).all
          fun x => CharClass.fits x.1 (decimal x.2).val := by
    rw [List.any_map, Bool.eq_iff_iff, List.any_eq_true, List.any_eq_true]
    apply exists_congr
    intro fields
    apply and_congr_right
    intro hmem
    obtain ⟨hfields, hlen⟩ := hdot fields hmem
    exact Bool.eq_iff_iff.mp (fitsPrefix_dotted hfields hlen)
  rw [hany]
  simp only [ruleFields, List.any_cons, List.any_nil, List.zip_cons_cons, List.zip_nil_left,
    List.all_cons, List.all_nil, Bool.and_true, Bool.or_false, Bool.or_eq_true, Bool.and_eq_true,
    ha127, ha0, ha192, ha10, ha172, ha169, ha22, ha23, hb0, hb168, hb16, hb254, hc0]
  rfl

/-- The bytes of an address. -/
def quad (addr : UInt32) (i : ℕ) : ℕ := addr.toNat / 256 ^ i % 256

theorem utilIsPublicIp_eq (addr : UInt32) :
    utilIsPublicIp (inetNtoa addr) =
      if Patterned (quad addr 3) (quad addr 2) (quad addr 1) then FALSE else TRUE := by
  have hlt (i : ℕ) : quad addr i < 256 := Nat.mod_lt _ (by decide)
  have hmatched := matched_iff (d := quad addr 0) (hlt 3) (hlt 2) (hlt 1)
  have hrules : regRules.map regcomp =
      (ruleFields.map fun fields => (⟨true, fieldClasses fields⟩ : Regex)).map some := by
    rw [regcomp_regRules, List.map_map]
    rfl
  rw [utilIsPublicIp, publicLoop_eq _ hrules]
  exact if_congr hmatched rfl rfl

/-- The addresses of the networks by their first bytes. -/
theorem inNetwork_quad (addr : UInt32) :
    (InNetwork addr 0x0a000000 8 ↔ quad addr 3 = 10) ∧
    (InNetwork addr 0x0a000000 16 ↔ quad addr 3 = 10 ∧ quad addr 2 = 0) ∧
    (InNetwork addr 0x7f000000 8 ↔ quad addr 3 = 127) ∧
    (InNetwork addr 0x7f000000 24 ↔ quad addr 3 = 127 ∧ quad addr 2 = 0 ∧ quad addr 1 = 0) ∧
    (InNetwork addr 0xac100000 12 ↔ quad addr 3 = 172 ∧ 16 ≤ quad addr 2 ∧ quad addr 2 ≤ 31) ∧
    (InNetwork addr 0xac100000 14 ↔ quad addr 3 = 172 ∧ 16 ≤ quad addr 2 ∧ quad addr 2 ≤ 19) ∧
    (InNetwork addr 0x00000000 8 ↔ quad addr 3 = 0) ∧
    (InNetwork addr 0xa9fe0000 16 ↔ quad addr 3 = 169 ∧ quad addr 2 = 254) ∧
    (InNetwork addr 0xc0a80000 16 ↔ quad addr 3 = 192 ∧ quad addr 2 = 168) ∧
    (InNetwork addr 0xe0000000 4 ↔ 224 ≤ quad addr 3 ∧ quad addr 3 ≤ 239) := by
  have hlt := addr.toNat_lt
  unfold InNetwork quad
  generalize addr.toNat = n at hlt
  simp only [UInt32.toNat_ofNat]
  refine ⟨?_, ?_, ?_, ?_, ?_, ?_, ?_, ?_, ?_, ?_⟩ <;> omega

theorem isLocal_quad (addr : UInt32) :
    IsLocal addr ↔ quad addr 3 = 0 ∨ quad addr 3 = 10 ∨ quad addr 3 = 127 ∨
      (quad addr 3 = 169 ∧ quad addr 2 = 254) ∨
      (quad addr 3 = 172 ∧ 16 ≤ quad addr 2 ∧ quad addr 2 ≤ 31) ∨
      (quad addr 3 = 192 ∧ quad addr 2 = 168) ∨ (224 ≤ quad addr 3 ∧ quad addr 3 ≤ 239) := by
  obtain ⟨h10, -, h127, -, h172, -, h0, h169, h192, h224⟩ := inNetwork_quad addr
  simp only [IsLocal, localNetworks, List.mem_cons, List.not_mem_nil, or_false, exists_eq_or_imp,
    exists_eq_left, h10, h127, h172, h0, h169, h192, h224]

/-- The function is right about an address exactly if there is a pattern for its part of the
network. -/
theorem tellsPublic_iff (addr : UInt32) : TellsPublic addr ↔ Covered addr := by
  have hne : FALSE ≠ TRUE := by decide
  have hlocal := isLocal_quad addr
  obtain ⟨h10, h10', h127, h127', h172, h172', -⟩ := inNetwork_quad addr
  have hcovered : Covered addr ↔ (quad addr 3 = 10 → quad addr 3 = 10 ∧ quad addr 2 = 0) ∧
      (quad addr 3 = 127 → quad addr 3 = 127 ∧ quad addr 2 = 0 ∧ quad addr 1 = 0) ∧
      (quad addr 3 = 172 ∧ 16 ≤ quad addr 2 ∧ quad addr 2 ≤ 31 →
        quad addr 3 = 172 ∧ 16 ≤ quad addr 2 ∧ quad addr 2 ≤ 19) := by
    rw [← h10', ← h10, ← h127', ← h127, ← h172', ← h172]
    exact ⟨fun h => ⟨h.private10, h.loopback, h.private172⟩, fun h => ⟨h.1, h.2.1, h.2.2⟩⟩
  have hsame : TellsPublic addr ↔
      (Patterned (quad addr 3) (quad addr 2) (quad addr 1) ↔ IsLocal addr) := by
    rw [TellsPublic, utilIsPublicIp_eq]
    by_cases hp : Patterned (quad addr 3) (quad addr 2) (quad addr 1) <;>
      by_cases hl : IsLocal addr <;> simp [hp, hl, hne, hne.symm]
  rw [hsame, hlocal, hcovered, Patterned]
  generalize quad addr 3 = a
  generalize quad addr 2 = b
  generalize quad addr 1 = c
  omega

/-- A private address that is taken for public. -/
theorem private_public : ¬ TellsPublic 0x0a010203 := by decide +kernel

end EzpFirmware.Qcloud
