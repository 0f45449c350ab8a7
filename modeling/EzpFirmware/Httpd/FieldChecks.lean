import EzpFirmware.Httpd.Handlers
import EzpFirmware.Lib.Inet

/-! # Checks of single fields

The functions `valid_…` look at one value of a form, or at two, and at the row
of a table. What they accept has no separator of rules and attributes in it, as
each of them asks `valid_word`.
-/
namespace EzpFirmware.Httpd
open Lib UserNvram

/-- What the pages of rules take from the system. -/
structure RuleContext where
  unspecified : Unspecified
  /-- `inet_aton`, the address as a number. -/
  inetAton : CStr → Option UInt32
  inetNtoa : UInt32 → CStr
  /-- The largest `bw_sbm_rule_num` while `bw_sbm_rule_max` is not set. -/
  sbmMax : CStr
  dbmMax : CStr

/-- The pages with the functions of the C library. -/
def posix (x : RuleContext) : RuleContext := { x with inetAton := inetAton, inetNtoa := inetNtoa }

/-- `struct variable` as the pages use it for the fields of a row. -/
structure LocalVariable where
  argv : List CStr
  nullok : Bool

/-- A row of the table for a field that may not be empty. -/
def required (argv : List String) : LocalVariable := ⟨argv.map .ofString, false⟩

/-- A row of the table for a field that may be empty. -/
def optional (argv : List String) : LocalVariable := ⟨argv.map .ofString, true⟩

/-- `v->argv[i]` as a number. -/
def LocalVariable.arg (v : LocalVariable) (i : ℕ) : ℤ := atoi (v.argv.getD i CStr.empty)

/-- `websGetVar`. -/
def getVar (form : Form) (name default : CStr) : CStr := (form name).getD default

section
variable (x : RuleContext) (v : LocalVariable)

/-- `valid_choice`. -/
def validChoice (value : CStr) : Bool :=
  if value = CStr.empty then v.nullok else validWord value && value ∈ v.argv

/-- `valid_number`. -/
def validNumberOf (value : CStr) : Bool :=
  if value = CStr.empty then v.nullok else validNumber value

/-- `valid_range`. -/
def validRangeOf (value : CStr) : Bool :=
  if value = CStr.empty then v.nullok else validRange value (v.arg 0) (v.arg 1)

/-- `valid_name`. -/
def validName (value : CStr) : Bool :=
  if value = CStr.empty then v.nullok
  else validWord value && value.val.all (· < 0x80) && (value.len : ℤ) ≤ v.arg 0

/-- An address of a net or a broadcast: the text ends with `.0` or `.255`. -/
def endsNet (value : CStr) : Bool :=
  [0x2e, 0x30].isSuffixOf value.val || [0x2e, 0x32, 0x35, 0x35].isSuffixOf value.val

/-- `valid_ipaddr`. -/
def validIpaddr (value : CStr) : Bool :=
  if value = CStr.empty then v.nullok
  else validWord value && (x.inetAton value).isSome && !endsNet value

/-- The interface that a value names: its number starts behind the first of the names in `argv`
that the value starts with. -/
def validIf (nvram : Variables) (value : CStr) : Bool :=
  if value = CStr.empty then v.nullok
  else
    let ruleNum := atoi (text nvram ((v.argv.getD 0 CStr.empty).append (.ofString "_num")))
    validWord value &&
      match v.argv.find? fun name => name.val.isPrefixOf value.val with
      | none => false
      | some name =>
        match value.val.drop name.len with
        | [] => false
        | b :: _ => 0x30 ≤ b ∧ b < 0x80 ∧ (b.toNat : ℤ) - 0x30 < ruleNum

/-- `valid_port_range`. -/
def validPortRange (v1 v2 : CStr) : Bool :=
  (v1 = CStr.empty ↔ v2 = CStr.empty) && validWord v1 && validWord v2 && atoi v1 ≤ atoi v2

/-- The address a text holds, as an `int`. -/
def hostAddr (s : CStr) : ℤ := (((x.inetAton s).getD 0xffffffff).toNat : ℤ).bmod (2 ^ 32)

/-- `valid_ipaddr_range`. -/
def validIpaddrRange (v1 v2 : CStr) : Bool :=
  (v1 = CStr.empty ↔ v2 = CStr.empty) && validWord v1 && validWord v2 &&
    hostAddr x v1 ≤ hostAddr x v2

/-- How many addresses there are between two of them. -/
def addrCount (first last : CStr) : ℤ := (hostAddr x last - hostAddr x first + 1).bmod (2 ^ 32)

/-- `trans_int2netmask`, which leaves the buffer as it was for a number out of range. -/
def transInt2netmask (maskbits : ℤ) : CStr :=
  if maskbits < 1 ∨ 32 < maskbits then x.unspecified.buf
  else x.inetNtoa (UInt32.ofNat (2 ^ 32 - 2 ^ (32 - maskbits.toNat)))

/-- `is_legal_ip_netmask`. -/
def isLegalIpNetmask (sip smask dip : CStr) : Bool :=
  match x.inetAton sip, x.inetAton smask, x.inetAton dip with
  | some netaddr, some netmask, some ipaddr => netaddr &&& netmask = ipaddr &&& netmask
  | _, _, _ => false

end

/-! ## What is accepted -/

/-- A text without separators. -/
def Plain (s : CStr) : Prop := ATTR_SEP ∉ s.val ∧ RULE_SEP ∉ s.val

instance (s : CStr) : Decidable (Plain s) := inferInstanceAs (Decidable (_ ∧ _))

theorem plain_empty : Plain CStr.empty := by
  constructor <;> exact List.not_mem_nil

theorem Plain.of_validWord {s : CStr} (h : validWord s = true) : Plain s := by
  have hbytes := List.all_eq_true.mp h
  constructor <;> intro hb <;> simpa [ATTR_SEP, RULE_SEP] using hbytes _ hb

section
variable {x : RuleContext} {v : LocalVariable} {value v1 v2 : CStr}

/-- A check that lets the empty text through, or asks `valid_word`, accepts no separator. -/
theorem plain_of_check {null check : Bool} (hcheck : check = true → Plain value)
    (h : (if value = CStr.empty then null else check) = true) : Plain value := by
  split_ifs at h with hempty
  · rw [hempty]
    exact plain_empty
  · exact hcheck h

theorem plain_validChoice (h : validChoice v value = true) : Plain value :=
  plain_of_check (fun h => .of_validWord (Bool.and_eq_true_iff.mp h).1) h

theorem plain_validNumber (h : validNumber value = true) : Plain value := by
  simp only [validNumber, Bool.and_eq_true] at h
  exact .of_validWord h.1.2

theorem plain_validNumberOf (h : validNumberOf v value = true) : Plain value :=
  plain_of_check plain_validNumber h

theorem plain_validRangeOf (h : validRangeOf v value = true) : Plain value :=
  plain_of_check (fun h => plain_validNumber (Bool.and_eq_true_iff.mp h).1) h

theorem plain_validName (h : validName v value = true) : Plain value := by
  refine plain_of_check (fun h => ?_) h
  simp only [Bool.and_eq_true] at h
  exact .of_validWord h.1.1

theorem plain_validIpaddr (h : validIpaddr x v value = true) : Plain value := by
  refine plain_of_check (fun h => ?_) h
  simp only [Bool.and_eq_true] at h
  exact .of_validWord h.1.1

theorem plain_validIf {nvram : Variables} (h : validIf v nvram value = true) : Plain value :=
  plain_of_check (fun h => .of_validWord (Bool.and_eq_true_iff.mp h).1) h

end

/-- A printed number has no separator. -/
theorem plain_decimal (n : ℤ) : Plain (decimal n) := by
  constructor <;> intro h <;> rcases mem_decimal h with h | ⟨d, hd, h⟩
  · exact absurd h (by decide)
  · exact (digitByte_plain d (by omega)).2.1 h.symm
  · exact absurd h (by decide)
  · exact (digitByte_plain d (by omega)).2.2.1 h.symm

theorem plain_hex4 (n : ℕ) : Plain (hex4 n) := by
  constructor <;> intro h <;> obtain ⟨d, hd, h⟩ := mem_hex4 h
  · exact (digitByte_plain d hd).2.1 h.symm
  · exact (digitByte_plain d hd).2.2.1 h.symm

end EzpFirmware.Httpd
