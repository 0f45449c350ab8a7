import EzpFirmware.Httpd.AddressChecks
import EzpFirmware.Httpd.RuleForms

/-! # Ranges of addresses

Addresses are compared, subtracted and added up as signed numbers of 32 bits.
The order is the one of addresses on either side of 128.0.0.0, and the total of
the sizes of ranges is right as long as it is no more than such a number holds.
-/
namespace EzpFirmware.Httpd
open Lib UserNvram

/-- The first address whose number is negative as an `int`. -/
def HALF : ℕ := 2 ^ 31

/-! ## Two addresses -/

/-- The number of an address as an `int`. -/
theorem hostAddr_eq {x : RuleContext} {s : CStr} {a : UInt32} (h : x.inetAton s = some a) :
    hostAddr x s = if a.toNat < HALF then (a.toNat : ℤ) else a.toNat - 2 * HALF := by
  have ha := a.toNat_lt
  unfold hostAddr
  rw [h, Option.getD_some, Int.bmod_def, HALF]
  push_cast
  split_ifs <;> omega

/-- The signed order is the one of the addresses on either side of the first negative one. -/
theorem hostAddr_le_iff {x : RuleContext} {s t : CStr} {a b : UInt32} (hs : x.inetAton s = some a)
    (ht : x.inetAton t = some b) :
    hostAddr x s ≤ hostAddr x t ↔
      a ≤ b ∧ (a.toNat < HALF ↔ b.toNat < HALF) ∨ HALF ≤ a.toNat ∧ b.toNat < HALF := by
  have ha := a.toNat_lt
  have hb := b.toNat_lt
  rw [hostAddr_eq hs, hostAddr_eq ht, UInt32.le_iff_toNat_le, HALF]
  split_ifs <;> omega

/-- The check of a range of two dotted quads. -/
theorem validIpaddrRange_quads (x : RuleContext) (a b : UInt32) :
    validIpaddrRange (posix x) (inetNtoa a) (inetNtoa b) = true ↔
      hostAddr (posix x) (inetNtoa a) ≤ hostAddr (posix x) (inetNtoa b) := by
  have hne : ∀ addr, inetNtoa addr ≠ CStr.empty := by
    intro addr h
    have hread := inetAton_inetNtoa addr
    rw [h, show inetAton CStr.empty = none by decide] at hread
    cases hread
  have hword : ∀ addr, validWord (inetNtoa addr) = true := fun addr => validWord_dotted _
  simp [validIpaddrRange, hne, hword]

/-- The check of a range is for the order of its ends. -/
def ChecksRange (x : RuleContext) (a b : UInt32) : Prop :=
  validIpaddrRange (posix x) (inetNtoa a) (inetNtoa b) = true ↔ a ≤ b

theorem checksRange_iff (x : RuleContext) (a b : UInt32) :
    ChecksRange x a b ↔ (a.toNat < HALF ↔ b.toNat < HALF) := by
  rw [ChecksRange, validIpaddrRange_quads, hostAddr_le_iff (inetAton_inetNtoa a)
    (inetAton_inetNtoa b), UInt32.le_iff_toNat_le, HALF]
  omega

/-! ## The ranges of a form -/

section
variable (form : Form)

/-- The ends of the range of a row that is enabled. -/
def dbmRange (i : ℕ) : Option (UInt32 × UInt32) :=
  let field := rowVar form "bw_dbm" i
  if field "inipaddr_start" ≠ CStr.empty ∧ startsWith CHAR_1 (field "enable") = true then
    some ((inetAton (field "inipaddr_start")).getD 0xffffffff,
      (inetAton (field "inipaddr_end")).getD 0xffffffff)
  else none

/-- The ranges of the enabled rows. -/
def dbmRanges : List (UInt32 × UInt32) :=
  (List.range (submittedNum form "bw_dbm").toNat).filterMap (dbmRange form)

/-- How many addresses there are in a range. -/
def rangeSize (r : UInt32 × UInt32) : ℕ := r.2.toNat + 1 - r.1.toNat

/-- The largest total that `_valid_bw_dbm` allows. -/
def dbmMax (x : RuleContext) (nvram : Variables) : ℤ :=
  atoi ((nvram (.ofString "bw_dbm_rule_max")).getD x.dbmMax)

/-- What the check of a form is for: ranges in their order, and no more addresses than allowed. -/
def RangesFit (x : RuleContext) (nvram : Variables) : Prop :=
  (∀ r ∈ dbmRanges form, r.1 ≤ r.2) ∧ (((dbmRanges form).map rangeSize).sum : ℤ) ≤ dbmMax x nvram

end

/-! ## The rows one after the other -/

/-- The distance of two numbers wraps as the one of their addresses does. -/
theorem bmod_distance (total a b : ℤ) :
    (total + (a.bmod (2 ^ 32) - b.bmod (2 ^ 32) + 1)).bmod (2 ^ 32) =
      (total + (a - b + 1)).bmod (2 ^ 32) := by
  have hwrap : total + (a.bmod (2 ^ 32) - b.bmod (2 ^ 32) + 1) =
      total + (a - b + 1) + (2 ^ 32 : ℕ) * (b.bdiv (2 ^ 32) - a.bdiv (2 ^ 32)) := by
    have ha := Int.bmod_add_bdiv a (2 ^ 32)
    have hb := Int.bmod_add_bdiv b (2 ^ 32)
    push_cast at *
    omega
  rw [hwrap, Int.add_mul_bmod_self_left]

section
variable {x : RuleContext} {form : Form} {i : ℕ} {r : UInt32 × UInt32}

theorem totalDbmNum_none (hr : dbmRange form i = none) (total : ℤ) :
    totalDbmNum (posix x) form i total = total := by
  unfold dbmRange at hr
  dsimp only at hr
  split_ifs at hr with henabled
  rw [totalDbmNum, if_neg henabled]

/-- The distance of the ends of a range goes into the total. -/
theorem totalDbmNum_some (hr : dbmRange form i = some r) (total : ℤ) :
    totalDbmNum (posix x) form i total =
      (total + ((r.2.toNat : ℤ) - r.1.toNat + 1)).bmod (2 ^ 32) := by
  unfold dbmRange at hr
  dsimp only at hr
  split_ifs at hr with henabled
  cases hr
  rw [totalDbmNum, if_pos henabled, addrCount, Int.add_bmod_bmod]
  unfold hostAddr
  exact bmod_distance _ _ _

/-- The addresses of an enabled row that is accepted. -/
theorem validDbmRow_range (hrow : validDbmRow (posix x) form i = true)
    (hr : dbmRange form i = some r) :
    r.1 ≤ r.2 ∧ (r.1.toNat < HALF ↔ r.2.toNat < HALF) ∨
      HALF ≤ r.1.toNat ∧ r.2.toNat < HALF := by
  unfold dbmRange at hr
  dsimp only at hr
  split_ifs at hr with henabled
  simp only [validDbmRow, validAddrs, Bool.and_eq_true] at hrow
  obtain ⟨-, ⟨hfirst, hlast⟩, hrange⟩ := hrow
  simp only [validIpaddrRange, Bool.and_eq_true, decide_eq_true_iff] at hrange
  obtain ⟨⟨⟨hboth, -⟩, -⟩, hle⟩ := hrange
  have hsome : ∀ {v : LocalVariable} {s : CStr}, s ≠ CStr.empty →
      validIpaddr (posix x) v s = true → inetAton s = some ((inetAton s).getD 0xffffffff) := by
    intro v s hne h
    rw [validIpaddr, if_neg hne, Bool.and_eq_true, Bool.and_eq_true] at h
    obtain ⟨a, ha⟩ := Option.isSome_iff_exists.mp h.1.2
    exact (show inetAton s = some a from ha) ▸ rfl
  have hne := henabled.1
  cases hr
  exact (hostAddr_le_iff (x := posix x) (hsome hne hfirst)
    (hsome (fun h => hne (hboth.mpr h)) hlast)).mp hle

/-- A total that is accepted. -/
theorem validRangeOf_decimal {max : CStr} {total : ℤ} (hlow : -2 ^ 31 ≤ total)
    (hhigh : total < 2 ^ 31) (h : validRangeOf (DBM_NUM max) (decimal total) = true) :
    0 ≤ total ∧ total ≤ atoi max := by
  have hne : decimal total ≠ CStr.empty := by
    intro hempty
    have hnil : (decimal total).val = [] := congrArg Subtype.val hempty
    by_cases hneg : total < 0
    · simp only [decimal, if_pos hneg] at hnil
      cases hnil
    · simp only [decimal, if_neg hneg] at hnil
      exact numeral_ne_nil _ _ _ hnil
  have hzero : atoi (.ofString "0") = 0 := by decide
  rw [validRangeOf, if_neg hne, validRange, atoi_decimal hlow hhigh] at h
  simpa [LocalVariable.arg, DBM_NUM, hzero] using (Bool.and_eq_true_iff.mp h).2

theorem validDbmRows_row {max : CStr} {n : ℕ} {total : ℤ}
    (h : validDbmRows x form max n i total = true) :
    ∀ j, i ≤ j → j < i + n → validDbmRow x form j = true := by
  induction n generalizing i total with
  | zero =>
    intro j h1 h2
    omega
  | succ n ih =>
    rw [validDbmRows, Bool.and_eq_true, Bool.and_eq_true] at h
    intro j h1 h2
    rcases Nat.eq_or_lt_of_le h1 with rfl | h1
    · exact h.1.1
    · exact ih h.2 j h1 (by omega)

/-- Behind an accepted row the total is true, if it was and the range of the row does not cross the
first negative address: it cannot grow past all negative numbers at once. -/
theorem totalDbmNum_true {max : CStr} {total : ℤ} (hpos : 0 ≤ total) (hbound : total < 2 ^ 31)
    (hr : ∀ r, dbmRange form i = some r → r.1 ≤ r.2 ∧ (r.1.toNat < HALF ↔ r.2.toNat < HALF))
    (h : validRangeOf (DBM_NUM max) (decimal (totalDbmNum (posix x) form i total)) = true) :
    totalDbmNum (posix x) form i total = total + ((dbmRange form i).elim 0 rangeSize : ℕ) ∧
      0 ≤ totalDbmNum (posix x) form i total ∧
      totalDbmNum (posix x) form i total ≤ atoi max := by
  cases hrange : dbmRange form i with
  | none =>
    rw [totalDbmNum_none hrange] at h ⊢
    exact ⟨(add_zero total).symm, validRangeOf_decimal (by omega) hbound h⟩
  | some r =>
    obtain ⟨hle, hside⟩ := hr r hrange
    rw [totalDbmNum_some hrange] at h ⊢
    have h2 := r.2.toNat_lt
    rw [UInt32.le_iff_toNat_le] at hle
    have hsize : (r.2.toNat : ℤ) - r.1.toNat + 1 = rangeSize r := by
      rw [rangeSize]
      omega
    have hhalf : rangeSize r ≤ HALF := by
      rw [HALF] at hside ⊢
      rw [rangeSize]
      omega
    rw [hsize] at h ⊢
    rw [HALF] at hhalf
    rw [Option.elim_some]
    -- The sum is below 2 ^ 32, and its upper half counts as negative.
    have hwrap : (total + rangeSize r).bmod (2 ^ 32) = total + rangeSize r ∧
        total + rangeSize r < 2 ^ 31 ∨
        -2 ^ 31 ≤ (total + (rangeSize r : ℤ)).bmod (2 ^ 32) ∧
          (total + (rangeSize r : ℤ)).bmod (2 ^ 32) < 0 := by
      rw [Int.bmod_def]
      push_cast
      split_ifs <;> omega
    rcases hwrap with ⟨htrue, hlt⟩ | ⟨hlow, hneg⟩
    · rw [htrue] at h ⊢
      exact ⟨rfl, validRangeOf_decimal (by omega) hlt h⟩
    · have hzero := (validRangeOf_decimal hlow (by omega) h).1
      omega

/-- The total of the rows that are left is true as well. -/
theorem validDbmRows_total {max : CStr} {n : ℕ} {total : ℤ} (hpos : 0 ≤ total)
    (hbound : total < 2 ^ 31)
    (hr : ∀ r ∈ (List.range' i n).filterMap (dbmRange form),
      r.1 ≤ r.2 ∧ (r.1.toNat < HALF ↔ r.2.toNat < HALF))
    (h : validDbmRows (posix x) form max n i total = true) (hn : 0 < n) :
    total + (((List.range' i n).filterMap (dbmRange form)).map rangeSize).sum ≤ atoi max := by
  induction n generalizing i total with
  | zero => omega
  | succ n ih =>
    rw [validDbmRows, Bool.and_eq_true, Bool.and_eq_true] at h
    obtain ⟨⟨-, htotal⟩, hrest⟩ := h
    have hbounds := atoi_bounds max
    have hsplit : (List.range' i (n + 1)).filterMap (dbmRange form) =
        (dbmRange form i).toList ++ (List.range' (i + 1) n).filterMap (dbmRange form) := by
      rw [List.range'_succ, List.filterMap_cons]
      cases dbmRange form i <;> rfl
    rw [hsplit] at hr ⊢
    obtain ⟨htrue, hpos', hmax⟩ := totalDbmNum_true hpos hbound
      (fun r h => hr r (List.mem_append_left _ (by simp [h]))) htotal
    have hfirst : ((dbmRange form i).toList.map rangeSize).sum = (dbmRange form i).elim 0 rangeSize
        := by
      cases dbmRange form i <;> simp
    rw [List.map_append, List.sum_append, hfirst, Int.natCast_add, ← add_assoc, ← htrue]
    rcases Nat.eq_zero_or_pos n with rfl | hn
    · simpa using hmax
    · exact ih hpos' (by omega) (fun r h => hr r (List.mem_append_right _ h)) hrest hn

/-- A form that is accepted has its ranges in their order and within the bound if and only if none
of them starts above and ends below the first negative address. Without rows the bound itself is
not looked at. -/
theorem rangesFit_iff {nvram : Variables} (h : validBwDbm (posix x) form nvram = true) :
    RangesFit form x nvram ↔ (∀ r ∈ dbmRanges form, ¬ (HALF ≤ r.1.toNat ∧ r.2.toNat < HALF)) ∧
      (0 < submittedNum form "bw_dbm" ∨ 0 ≤ dbmMax x nvram) := by
  have hranges : ∀ r ∈ dbmRanges form, r.1 ≤ r.2 ∧ (r.1.toNat < HALF ↔ r.2.toNat < HALF) ∨
      HALF ≤ r.1.toNat ∧ r.2.toNat < HALF := by
    intro r hr
    obtain ⟨i, hi, hrange⟩ := List.mem_filterMap.mp hr
    exact validDbmRow_range (validDbmRows_row h i (Nat.zero_le i) (by simpa using hi)) hrange
  constructor
  · rintro ⟨hle, hsum⟩
    have hpos := Int.natCast_nonneg ((dbmRanges form).map rangeSize).sum
    refine ⟨fun r hr hcross => ?_, .inr (hpos.trans hsum)⟩
    have hr := UInt32.le_iff_toNat_le.mp (hle r hr)
    omega
  · rintro ⟨hcross, hnum⟩
    have hsame : ∀ r ∈ dbmRanges form, r.1 ≤ r.2 ∧ (r.1.toNat < HALF ↔ r.2.toNat < HALF) :=
      fun r hr => (hranges r hr).resolve_right (hcross r hr)
    refine ⟨fun r hr => (hsame r hr).1, ?_⟩
    by_cases hrow : 0 < submittedNum form "bw_dbm"
    · rw [dbmRanges, List.range_eq_range'] at hsame ⊢
      have htotal := validDbmRows_total le_rfl (by decide) hsame h (by omega)
      rwa [zero_add] at htotal
    · have hnone : dbmRanges form = [] := by
        rw [dbmRanges, Int.toNat_of_nonpos (by omega)]
        rfl
      rw [hnone]
      exact hnum.resolve_left hrow

end

/-! ## What the checks of ranges accept -/

/-- A form with one range of addresses that is enabled. -/
def rangeForm (first last : String) : Form := fun m =>
  ([("bw_dbm_rule_num", "1"), ("bw_dbm_rule0_enable", "1"), ("bw_dbm_rule0_name", "lan"),
    ("bw_dbm_rule0_inipaddr_start", first), ("bw_dbm_rule0_inipaddr_end", last)].find? fun f =>
      CStr.ofString f.1 = m).map fun f => .ofString f.2

/-- A store that allows as many addresses as a net has. -/
def rangeStore : Variables := fun m =>
  if m = .ofString "bw_dbm_rule_max" then some (.ofString "253") else none

/-- Two addresses are compared rightly if and only if they are on one side of the first negative
one, and the ranges of an accepted form are in their order and within the bound if and only if none
of them starts above and ends below that address. -/
theorem addressRanges_iff (x : RuleContext) :
    (∀ a b, ChecksRange x a b ↔ (a.toNat < HALF ↔ b.toNat < HALF)) ∧
      ∀ form nvram, validBwDbm (posix x) form nvram = true →
        (RangesFit form x nvram ↔
          (∀ r ∈ dbmRanges form, ¬ (HALF ≤ r.1.toNat ∧ r.2.toNat < HALF)) ∧
            (0 < submittedNum form "bw_dbm" ∨ 0 ≤ dbmMax x nvram)) :=
  ⟨checksRange_iff x, fun _ _ => rangesFit_iff⟩

/-- A range of a LAN. -/
theorem addressRanges_lan :
    validBwDbm (posix dottedContext) (rangeForm "192.168.1.33" "192.168.1.64") rangeStore = true ∧
      RangesFit (rangeForm "192.168.1.33" "192.168.1.64") dottedContext rangeStore := by
  have haccepted : validBwDbm (posix dottedContext) (rangeForm "192.168.1.33" "192.168.1.64")
      rangeStore = true := by decide +kernel
  refine ⟨haccepted, ((addressRanges_iff dottedContext).2 _ _ haccepted).mpr ⟨?_, .inl ?_⟩⟩
  · have hranges : dbmRanges (rangeForm "192.168.1.33" "192.168.1.64") =
        [(0xc0a80121, 0xc0a80140)] := by decide +kernel
    rw [hranges, List.forall_mem_singleton]
    decide
  · decide +kernel

/-- A private net below a private net is refused, and the last addresses are accepted as a range
that goes on with the first ones. -/
theorem addressRanges_around :
    ¬ ChecksRange dottedContext 0x0a000001 0xc0a80001 ∧
      validBwDbm (posix dottedContext) (rangeForm "255.255.255.251" "0.0.0.5") rangeStore = true ∧
      ¬ RangesFit (rangeForm "255.255.255.251" "0.0.0.5") dottedContext rangeStore := by
  refine ⟨?_, by decide +kernel, ?_⟩
  · unfold ChecksRange
    decide +kernel
  · rintro ⟨hle, -⟩
    have hranges : dbmRanges (rangeForm "255.255.255.251" "0.0.0.5") = [(0xfffffffb, 5)] := by
      decide +kernel
    rw [hranges] at hle
    exact absurd (hle _ (List.mem_singleton_self _)) (by decide)

end EzpFirmware.Httpd
