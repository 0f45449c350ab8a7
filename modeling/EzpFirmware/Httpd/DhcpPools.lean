import EzpFirmware.Httpd.Netmasks
import EzpFirmware.Httpd.RuleForms
import Mathlib.Tactic.IntervalCases
import Mathlib.Tactic.Ring

/-! # The pools of the DHCP servers

The check of a pool looks at its two ends only, and at the first LAN whatever
the LAN is that the pool is for. The special addresses of a net are those of a
net of 24 bits.
-/
namespace EzpFirmware.Httpd
open Lib UserNvram

/-! ## The check of the form -/

def DHCP_ENABLE := required ["0", "1"]

def DHCP_START := required ["1", "254"]

def DHCP_NUM := required ["1", "254"]

def DHCP_LEASE := required ["300", "604800"]

def DHCP_DOMAIN := required ["20"]

def DHCP_WINS := optional [""]

def DHCP_DNSTYPE := required ["dnsrelay", "ispdns", "opendns", "googledns", "custom"]

def DHCP_DNSADDR := required [""]

/-- The numbers that `sscanf` reads with dots between them. -/
def scanDotted : ℕ → List UInt8 → List ℤ
  | 0, _ => []
  | n + 1, s =>
    match scanInt s with
    | none => []
    | some (v, rest) => v :: if rest.head? = some DOT then scanDotted n rest.tail else []

section
variable (x : RuleContext) (stack : ℕ → ℤ)

/-- Whether a pool conflicts with the address and the mask of a LAN. `stack` is what the numbers of
an address are that are not read. -/
def poolConflicts (lanIp valNetbit start num : CStr) : Bool :=
  let ip (j : ℕ) := (scanDotted 4 lanIp.val).getD j (stack j)
  let ip24 := (((((decimal (ip 0)).append (.ofString ".")).append (decimal (ip 1))).append
    (.ofString ".")).append ((decimal (ip 2)).append (.ofString "."))).take (TMP_LEN - 1)
  let dhcpEnd := atoi start + atoi num - 1
  let valNetmask := transInt2netmask x (atoi valNetbit)
  !isLegalIpNetmask x lanIp valNetmask ((ip24.append start).take (TMP_LEN - 1)) ||
    !isLegalIpNetmask x lanIp valNetmask ((ip24.append (decimal dhcpEnd)).take (TMP_LEN - 1)) ||
    (atoi start ≤ ip 3 && ip 3 ≤ dhcpEnd) || dhcpEnd = 255

variable (form : Form) (nvram : Variables)

/-- A field of the form for the server of a LAN. -/
def dhcpVar (i : ℕ) (field : String) : CStr :=
  getVar form (((CStr.ofString "dhcp").append (decimal i)).append (.ofString ("_" ++ field)))
    CStr.empty

/-- A round of `valid_dhcp`. -/
def validDhcpLan (i : ℕ) : Bool :=
  let field := dhcpVar form i
  let custom := field "dnstype" = .ofString "custom"
  validChoice DHCP_ENABLE (field "enable") &&
    (startsWith CHAR_0 (field "enable") ||
      validRangeOf DHCP_START (field "start") && validRangeOf DHCP_NUM (field "num") &&
        !poolConflicts x stack (lanAttr x nvram "ipaddr") (lanAttr x nvram "mask") (field "start")
          (field "num") &&
        validRangeOf DHCP_LEASE (field "lease") && validName DHCP_DOMAIN (field "domain") &&
        validChoice DHCP_DNSTYPE (field "dnstype") &&
        (!custom || validIpaddr x DHCP_DNSADDR (field "dnsaddr1")) &&
        (!custom || field "dnsaddr2" = CStr.empty ||
          validIpaddr x DHCP_DNSADDR (field "dnsaddr2")) &&
        validIpaddr x DHCP_WINS (field "wins"))

/-- The number of LANs. -/
def lanNum : ℕ := (wanNum (text nvram (.ofString "lan_num"))).toNat

/-- `valid_dhcp`. -/
def validDhcp : Bool := (List.range (lanNum nvram)).all (validDhcpLan x stack form nvram)

end

/-! ## What a pool is for -/

/-- An attribute of the address of a LAN, as the library reads it. -/
def lanAttrAt (x : RuleContext) (nvram : Variables) (i : ℕ) (type : String) : CStr :=
  (onMap (ezplibGetAttrVal x.unspecified lanRules (fun _ _ => showValue)
    (.ofString "lan_static_rule") i (.ofString type) TMP_LEN) nvram).1.2

/-- The address of a LAN and the number of bits of its mask. -/
structure Lan where
  addr : UInt32
  bits : ℕ
  one_le : 1 ≤ bits
  le_thirty : bits ≤ 30

/-- The rules of the LANs hold their addresses and their masks. -/
structure HoldsLans (x : RuleContext) (nvram : Variables) (lans : ℕ → Lan) : Prop where
  ipaddr : ∀ i < lanNum nvram, lanAttrAt x nvram i "ipaddr" = inetNtoa (lans i).addr
  mask : ∀ i < lanNum nvram, atoi (lanAttrAt x nvram i "mask") = (lans i).bits

/-- The first three bytes of an address and another last one. -/
def poolAddr (addr : UInt32) (h : ℕ) : UInt32 := UInt32.ofNat (addr.toNat / 256 * 256 + h)

/-- The addresses of a pool are those of devices in a LAN. -/
def PoolFits (lan : Lan) (start num : ℤ) : Prop :=
  ∀ h : ℕ, start ≤ h → h < start + num →
    network (poolAddr lan.addr h) lan.bits = network lan.addr lan.bits ∧
      poolAddr lan.addr h ≠ lan.addr ∧ poolAddr lan.addr h ≠ network lan.addr lan.bits ∧
      poolAddr lan.addr h ≠ broadcast lan.addr lan.bits

/-! ## The texts of the ends -/

/-- A number is read up to the dot behind it. -/
theorem scanInt_decimal {n : ℕ} (hn : n < 256) {rest : List UInt8}
    (hrest : ∀ b ∈ rest.head?, b = DOT) : scanInt ((decimal n).val ++ rest) = some (↑n, rest) := by
  have hdigits : ∀ b ∈ numeral 10 (n + 1) n, isDigit b = true := by
    intro b hb
    obtain ⟨d, hd, rfl⟩ := mem_numeral (by decide) hb
    exact isDigit_digitByte hd
  have hstop : rest.takeWhile isDigit = [] ∧ rest.dropWhile isDigit = rest := by
    cases rest with
    | nil => simp
    | cons b rest =>
      obtain rfl : b = DOT := hrest b rfl
      simp [show isDigit DOT = false by decide]
  have htake : (numeral 10 (n + 1) n ++ rest).takeWhile isDigit = numeral 10 (n + 1) n := by
    rw [List.takeWhile_append_of_pos hdigits, hstop.1, List.append_nil]
  have hvalue : digits (2 ^ 31 - 1) (numeral 10 (n + 1) n ++ rest) = n := by
    have hread := @digits_numeral (2 ^ 31 - 1) n (by omega)
    rw [digits, List.takeWhile_eq_self_iff.mpr hdigits] at hread
    rw [digits, htake, hread]
  -- The first digit is neither white space nor a sign.
  have hne := numeral_ne_nil 10 n n
  obtain ⟨b, s, hcons⟩ := List.exists_cons_of_ne_nil hne
  obtain ⟨d, hd, rfl⟩ := mem_numeral (by decide : 0 < 10) (hcons ▸ List.mem_cons_self)
  have hfirst : ∀ d < 10,
      isSpace (digitByte d) = false ∧ digitByte d ≠ 0x2d ∧ digitByte d ≠ PLUS := by decide
  obtain ⟨hspace, hminus, hplus⟩ := hfirst d hd
  have hskip : (numeral 10 (n + 1) n ++ rest).dropWhile isSpace = numeral 10 (n + 1) n ++ rest := by
    rw [hcons, List.cons_append, List.dropWhile_cons_of_neg (by simp [hspace])]
  have hhead : (numeral 10 (n + 1) n ++ rest).head? = some (digitByte d) := by
    rw [hcons, List.cons_append, List.head?_cons]
  rw [decimal_val, scanInt]
  simp only [hskip, hhead, Option.some_inj, hminus, hplus, decide_false, Bool.false_eq_true,
    or_self, if_false, htake, hne, hvalue, List.dropWhile_append_of_pos hdigits, hstop.2]

theorem scanDotted_dotted {ns : List ℕ} (hns : ∀ n ∈ ns, n < 256) (hne : ns ≠ []) :
    scanDotted ns.length (dotted ns).val = ns.map fun n : ℕ => (n : ℤ) := by
  induction ns with
  | nil => exact absurd rfl hne
  | cons n ns ih =>
    have hn := hns n (by simp)
    cases ns with
    | nil =>
      have hread := @scanInt_decimal _ hn [] (by simp)
      rw [List.append_nil] at hread
      rw [show dotted [n] = decimal n from rfl, List.length_singleton, scanDotted, hread]
      simp
    | cons m ns =>
      have hglue : (dotted (n :: m :: ns)).val = (decimal n).val ++ DOT :: (dotted (m :: ns)).val :=
        rfl
      have hrest := ih (fun k hk => hns k (List.mem_cons_of_mem n hk)) (by simp)
      rw [List.length_cons, hglue, scanDotted, scanInt_decimal hn (by simp)]
      simp only [List.head?_cons, if_true, List.tail_cons, hrest, List.map_cons]

/-- A dotted quad is read as its bytes. -/
theorem scanDotted_inetNtoa (addr : UInt32) :
    scanDotted 4 (inetNtoa addr).val = (octets addr).map fun n : ℕ => (n : ℤ) :=
  scanDotted_dotted (octets_lt addr) (by simp [octets])

theorem digitOf_of_isDigit (base : ℕ) {b : UInt8} (h : isDigit b = true) :
    digitOf base b = if b.toNat - 0x30 < base then some (b.toNat - 0x30) else none := by
  simp only [isDigit, decide_eq_true_eq] at h
  have hhex : (hexDigit b).map UInt8.toNat = some (b.toNat - 0x30) := by
    rw [hexDigit, if_pos h, Option.map_some, UInt8.toNat_sub_of_le _ _ h.1]
    rfl
  rw [digitOf, hhex]
  simp [Option.filter]

theorem le_foldl_digits (s : List UInt8) (n : ℕ) :
    n ≤ s.foldl (fun v b => v * 10 + (b.toNat - 0x30)) n := by
  induction s generalizing n with
  | nil => exact le_rfl
  | cons b s ih => exact (by omega : n ≤ n * 10 + (b.toNat - 0x30)).trans (ih _)

/-- Digits as an octal number, as far as they are octal ones, are no more than as a decimal one. -/
theorem foldl_digitOf_le {base : ℕ} (hbase : base ≤ 10) {s : List UInt8}
    (hs : ∀ b ∈ s, isDigit b = true) {m n : ℕ} (hmn : m ≤ n) :
    (s.takeWhile fun b => (digitOf base b).isSome).foldl
        (fun v b => v * base + (digitOf base b).getD 0) m ≤
      s.foldl (fun v b => v * 10 + (b.toNat - 0x30)) n := by
  induction s generalizing m n with
  | nil => exact hmn
  | cons b s ih =>
    have hrest := fun c hc => hs c (List.mem_cons_of_mem b hc)
    have hb := digitOf_of_isDigit base (hs b (by simp))
    rw [List.foldl_cons]
    by_cases hdigit : b.toNat - 0x30 < base
    · rw [if_pos hdigit] at hb
      rw [List.takeWhile_cons_of_pos (by simp [hb]), List.foldl_cons, hb, Option.getD_some]
      exact ih hrest (Nat.add_le_add_right (Nat.mul_le_mul hmn hbase) _)
    · rw [if_neg hdigit] at hb
      rw [List.takeWhile_cons_of_neg (by simp [hb]), List.foldl_nil]
      exact (by omega : m ≤ n * 10 + (b.toNat - 0x30)).trans (le_foldl_digits s _)

/-- The last number of a text, when it is made of digits. -/
theorem addressFrom_digits {s : List UInt8} (hs : ∀ b ∈ s, isDigit b = true) {high v : ℕ}
    (h : addressFrom 0 high s = some v) :
    ∃ o < 256, v = high * 256 + o ∧ o ≤ s.foldl (fun v b => v * 10 + (b.toNat - 0x30)) 0 := by
  have hradix : (radix s).1 ≤ 10 ∧ (radix s).2 = s := by
    have hmark : ∀ b ∈ s, b ≠ 0x78 ∧ b ≠ 0x58 := by
      intro b hb
      have hdigit := hs b hb
      constructor <;> rintro rfl <;> revert hdigit <;> decide
    have hnot : ¬ ((s[1]? = some 0x78 ∨ s[1]? = some 0x58) ∧ (s[2]?.bind hexDigit).isSome) := by
      rintro ⟨h | h, -⟩
      · exact (hmark _ (List.mem_of_getElem? h)).1 rfl
      · exact (hmark _ (List.mem_of_getElem? h)).2 rfl
    rw [radix, if_neg hnot]
    split_ifs <;> simp
  have hvalue : (strtoul s).1 ≤ s.foldl (fun v b => v * 10 + (b.toNat - 0x30)) 0 := by
    have hle := foldl_digitOf_le hradix.1 hs (le_refl 0)
    simpa only [strtoul, hradix.2] using hle
  rw [addressFrom] at h
  dsimp only at h
  split_ifs at h with hhead hbig hdot hfits
  refine ⟨(strtoul s).1, by simpa using hfits.2, ?_, hvalue⟩
  simpa using (Option.some.inj h).symm

/-- A text of digits as a number that is not too large. -/
theorem atoi_of_digits {s : CStr} (hs : ∀ b ∈ s.val, isDigit b = true) (hlt : atoi s < 2 ^ 31 - 1) :
    atoi s = (s.val.foldl (fun v b => v * 10 + (b.toNat - 0x30)) 0 : ℕ) := by
  have hvalue : atoi s = digits (2 ^ 31 - 1) s.val := by
    cases hval : s.val with
    | nil => simp [atoi, hval, digits]
    | cons b rest =>
      have hdigit := hs b (by simp [hval])
      simp only [isDigit, decide_eq_true_eq] at hdigit
      have hb := UInt8.le_iff_toNat_le.mp hdigit.1
      have hother : ∀ c : UInt8, c.toNat < 0x30 → b ≠ c := by
        rintro c hc rfl
        exact absurd hb (by simpa using hc)
      have hspace : ¬ (b = SPACE ∨ 0x09 ≤ b ∧ b ≤ 0x0d) := by
        rintro (h | ⟨-, h⟩)
        · exact hother _ (by decide) h
        · have h := UInt8.le_iff_toNat_le.mp h
          exact absurd (hb.trans h) (by decide)
      simp only [atoi, hval]
      rw [List.dropWhile_cons_of_neg (by simpa using hspace)]
      simp only [if_neg (hother 0x2d (by decide)), if_neg (hother PLUS (by decide))]
  rw [hvalue, digits, List.takeWhile_eq_self_iff.mpr hs] at hlt ⊢
  omega

/-- The first three bytes of an address with dots behind them. -/
def ip24 (addr : UInt32) : CStr :=
  let ip (j : ℕ) := ((octets addr).map fun n : ℕ => (n : ℤ)).getD j 0
  ((((decimal (ip 0)).append (.ofString ".")).append (decimal (ip 1))).append
    (.ofString ".")).append ((decimal (ip 2)).append (.ofString "."))

/-- Behind the first three bytes an address is read on with the last one. -/
theorem inetAton_ip24 (addr : UInt32) (t : CStr) : ∃ m, 3 ≤ m ∧
    inetAton (((ip24 addr).take (TMP_LEN - 1)).append t |>.take (TMP_LEN - 1)) =
      (addressFrom 0 (addr.toNat / 256) (t.val.take m)).map UInt32.ofNat := by
  obtain ⟨a, b, c, ha, hb, hc, hoctets, hhigh⟩ : ∃ a b c : ℕ, a < 256 ∧ b < 256 ∧ c < 256 ∧
      octets addr = [a, b, c, addr.toNat % 256] ∧ (a * 256 + b) * 256 + c = addr.toNat / 256 := by
    have haddr := addr.toNat_lt
    exact ⟨addr.toNat / 256 ^ 3 % 256, addr.toNat / 256 ^ 2 % 256, addr.toNat / 256 % 256,
      Nat.mod_lt _ (by decide), Nat.mod_lt _ (by decide), Nat.mod_lt _ (by decide),
      by simp [octets], by omega⟩
  have hdot : (CStr.ofString ".").val = [DOT] := by decide
  have hval : (ip24 addr).val = (decimal a).val ++ DOT :: ((decimal b).val ++ DOT ::
      ((decimal c).val ++ [DOT])) := by
    simp [ip24, hoctets, CStr.append, hdot]
  have hlen : ∀ n < 256, (decimal (n : ℕ)).val.length ≤ 3 := by
    intro n hn
    rw [decimal_val]
    exact numeral_length_le (hn.trans (by decide))
  have hlong : (ip24 addr).len ≤ 12 := by
    have h1 := hlen a ha
    have h2 := hlen b hb
    have h3 := hlen c hc
    rw [CStr.len, hval]
    simp only [List.length_append, List.length_cons, List.length_nil]
    omega
  refine ⟨TMP_LEN - 1 - (ip24 addr).len, by rw [TMP_LEN]; omega, ?_⟩
  have htext : (((ip24 addr).take (TMP_LEN - 1)).append t |>.take (TMP_LEN - 1)).val =
      (decimal a).val ++ DOT :: ((decimal b).val ++ DOT :: ((decimal c).val ++ DOT ::
        t.val.take (TMP_LEN - 1 - (ip24 addr).len))) := by
    have hwhole : (ip24 addr).take (TMP_LEN - 1) = ip24 addr :=
      take_of_len_le (by rw [TMP_LEN]; omega)
    rw [hwhole, CStr.take, CStr.append]
    dsimp only
    rw [List.take_append, List.take_of_length_le (by rw [TMP_LEN]; exact hlong.trans (by decide)),
      hval]
    simp [CStr.len, hval]
  rw [inetAton, htext, addressFrom_byte ha, addressFrom_byte hb, addressFrom_byte hc, Nat.zero_mul,
    Nat.zero_add, hhigh]

section
variable {x : RuleContext} {lan : Lan} {valNetbit t : CStr} (hmask : atoi valNetbit = lan.bits)
  (h : isLegalIpNetmask (posix x) (inetNtoa lan.addr) (transInt2netmask (posix x) (atoi valNetbit))
    (((ip24 lan.addr).take (TMP_LEN - 1)).append t |>.take (TMP_LEN - 1)) = true)
include hmask h

/-- Digits behind the first three bytes make up an address of the subnet with a last byte of no more
than their number. -/
theorem onNet_of_digits (ht : ∀ b ∈ t.val, isDigit b = true) :
    ∃ o < 256, o ≤ t.val.foldl (fun v b => v * 10 + (b.toNat - 0x30)) 0 ∧
      (lan.addr.toNat / 256 * 256 + o) / 2 ^ (32 - lan.bits) =
        lan.addr.toNat / 2 ^ (32 - lan.bits) := by
  have hthirty := lan.le_thirty
  obtain ⟨m, -, hread⟩ := inetAton_ip24 lan.addr t
  rw [hmask, isLegalIpNetmask_iff x _ lan.one_le (by omega), hread] at h
  obtain ⟨d, hd, hnet⟩ := h
  obtain ⟨v, hv, rfl⟩ := Option.map_eq_some_iff.mp hd
  obtain ⟨o, ho, rfl, hle⟩ := addressFrom_digits (fun b hb => ht b (List.mem_of_mem_take hb)) hv
  have haddr := lan.addr.toNat_lt
  rw [UInt32.toNat_ofNat_of_lt' (by rw [UInt32.size]; omega)] at hnet
  refine ⟨o, ho, hle.trans ?_, hnet⟩
  -- The digits that were cut off only make the number larger.
  conv_rhs => rw [← List.take_append_drop m t.val, List.foldl_append]
  exact le_foldl_digits _ _

end

/-- A number behind the first three bytes is the last byte of an address of the subnet. -/
theorem onNet_of_number {x : RuleContext} {lan : Lan} {valNetbit : CStr}
    (hmask : atoi valNetbit = lan.bits) {n : ℕ} (hn : n < 1000)
    (h : isLegalIpNetmask (posix x) (inetNtoa lan.addr)
      (transInt2netmask (posix x) (atoi valNetbit))
      (((ip24 lan.addr).take (TMP_LEN - 1)).append (decimal n) |>.take (TMP_LEN - 1)) = true) :
    n < 256 ∧ (lan.addr.toNat / 256 * 256 + n) / 2 ^ (32 - lan.bits) =
      lan.addr.toNat / 2 ^ (32 - lan.bits) := by
  have hthirty := lan.le_thirty
  obtain ⟨m, hm, hread⟩ := inetAton_ip24 lan.addr (decimal n)
  have hlen : (decimal n).val.length ≤ m := by
    rw [decimal_val]
    exact (numeral_length_le (hn.trans_le (by decide : 1000 ≤ 10 ^ (2 + 1)))).trans hm
  rw [hmask, isLegalIpNetmask_iff x _ lan.one_le (by omega), hread, List.take_of_length_le hlen] at h
  obtain ⟨d, hd, hnet⟩ := h
  obtain ⟨v, hv, rfl⟩ := Option.map_eq_some_iff.mp hd
  have hlt : n < 256 := by
    by_contra hge
    rw [addressFrom_last_none (not_lt.mp hge)] at hv
    cases hv
  rw [addressFrom_last hlt] at hv
  cases hv
  have haddr := lan.addr.toNat_lt
  rw [UInt32.toNat_ofNat_of_lt' (by rw [UInt32.size]; omega)] at hnet
  exact ⟨hlt, hnet⟩

/-- A field with a number from 1 to 254. -/
theorem validRangeOf_byte {value : CStr} (h : validRangeOf (required ["1", "254"]) value = true) :
    (∀ b ∈ value.val, isDigit b = true) ∧ 1 ≤ atoi value ∧ atoi value ≤ 254 := by
  have hargs : atoi (.ofString "1") = 1 ∧ atoi (.ofString "254") = 254 := by decide +kernel
  rw [validRangeOf] at h
  split_ifs at h with hempty
  · cases h
  simp only [validRange, validNumber, Bool.and_eq_true, List.all_eq_true] at h
  obtain ⟨⟨-, hdigits⟩, hrange⟩ := h
  refine ⟨hdigits, ?_⟩
  simpa [LocalVariable.arg, required, hargs.1, hargs.2] using hrange

/-- What the check of a pool finds out about a LAN. -/
theorem poolConflicts_false {x : RuleContext} {stack : ℕ → ℤ} {lan : Lan}
    {valNetbit start num : CStr} (hmask : atoi valNetbit = lan.bits)
    (hstart : validRangeOf DHCP_START start = true) (hnum : validRangeOf DHCP_NUM num = true)
    (h : poolConflicts (posix x) stack (inetNtoa lan.addr) valNetbit start num = false) :
    ∃ first last o : ℕ, atoi start = first ∧ atoi start + atoi num - 1 = last ∧ 1 ≤ first ∧
      first ≤ last ∧ last ≤ 254 ∧ o ≤ first ∧
      ¬ (first ≤ lan.addr.toNat % 256 ∧ lan.addr.toNat % 256 ≤ last) ∧
      (lan.addr.toNat / 256 * 256 + o) / 2 ^ (32 - lan.bits) =
        lan.addr.toNat / 2 ^ (32 - lan.bits) ∧
      (lan.addr.toNat / 256 * 256 + last) / 2 ^ (32 - lan.bits) =
        lan.addr.toNat / 2 ^ (32 - lan.bits) := by
  obtain ⟨hdigits, hlow, hhigh⟩ := validRangeOf_byte hstart
  obtain ⟨-, hnum1, hnum254⟩ := validRangeOf_byte hnum
  obtain ⟨first, hfirst⟩ := Int.eq_ofNat_of_zero_le (show 0 ≤ atoi start by omega)
  obtain ⟨last, hlast⟩ := Int.eq_ofNat_of_zero_le (show 0 ≤ atoi start + atoi num - 1 by omega)
  have hvalue := atoi_of_digits hdigits (by omega)
  have h24 : (((((decimal ((scanDotted 4 (inetNtoa lan.addr).val).getD 0 (stack 0))).append
      (.ofString ".")).append (decimal ((scanDotted 4 (inetNtoa lan.addr).val).getD 1
        (stack 1)))).append (.ofString ".")).append
      ((decimal ((scanDotted 4 (inetNtoa lan.addr).val).getD 2 (stack 2))).append
        (.ofString "."))) = ip24 lan.addr := by
    rw [scanDotted_inetNtoa]
    rfl
  have h3 : (scanDotted 4 (inetNtoa lan.addr).val).getD 3 (stack 3) =
      (lan.addr.toNat % 256 : ℕ) := by
    rw [scanDotted_inetNtoa]
    simp [octets]
  simp only [poolConflicts, h24, h3, hlast, Bool.or_eq_false_iff, Bool.not_eq_false',
    decide_eq_false_iff_not, Bool.and_eq_false_iff] at h
  obtain ⟨⟨⟨hbegin, hend⟩, hown⟩, h255⟩ := h
  obtain ⟨o, -, ho, hnet⟩ := onNet_of_digits hmask hbegin hdigits
  obtain ⟨hlt, hnetLast⟩ := onNet_of_number hmask (n := last) (by omega) hend
  refine ⟨first, last, o, hfirst, hlast, by omega, by omega, by omega, by omega, ?_, hnet,
    hnetLast⟩
  omega

/-! ## Pools in numbers -/

/-- The last byte of the address of the net. -/
def Lan.low (lan : Lan) : ℕ := lan.addr.toNat % 256 / 2 ^ (32 - lan.bits) * 2 ^ (32 - lan.bits)

/-- The last byte of the broadcast address. -/
def Lan.high (lan : Lan) : ℕ := lan.low + (2 ^ (32 - lan.bits) - 1)

/-- What an address is in a LAN, by the numbers of both and the size of the net. -/
def DeviceOf (n size p : ℕ) : Prop :=
  p / size * size = n / size * size ∧ p ≠ n ∧ p ≠ n / size * size ∧ p ≠ n / size * size + (size - 1)

theorem deviceOf_poolAddr (lan : Lan) {h : ℕ} (hh : h < 256) :
    (network (poolAddr lan.addr h) lan.bits = network lan.addr lan.bits ∧
      poolAddr lan.addr h ≠ lan.addr ∧ poolAddr lan.addr h ≠ network lan.addr lan.bits ∧
      poolAddr lan.addr h ≠ broadcast lan.addr lan.bits) ↔
    DeviceOf lan.addr.toNat (2 ^ (32 - lan.bits)) (lan.addr.toNat / 256 * 256 + h) := by
  have hbits : lan.bits ≤ 32 := lan.le_thirty.trans (by decide)
  have haddr := lan.addr.toNat_lt
  have hpool : (poolAddr lan.addr h).toNat = lan.addr.toNat / 256 * 256 + h := by
    rw [poolAddr, UInt32.toNat_ofNat_of_lt' (by rw [UInt32.size]; omega)]
  rw [DeviceOf, ne_eq, ne_eq, ne_eq, ← UInt32.toNat_inj, ← UInt32.toNat_inj, ← UInt32.toNat_inj,
    ← UInt32.toNat_inj, network_toNat hbits, network_toNat hbits, broadcast_toNat hbits, hpool]

/-- In a net of 256 addresses or more the pools are of devices, but for the own address. -/
theorem deviceOf_large {n t h : ℕ} (ht : 0 < t) (h1 : 1 ≤ h) (h254 : h ≤ 254) :
    DeviceOf n (256 * t) (n / 256 * 256 + h) ↔ h ≠ n % 256 := by
  have hpool : (n / 256 * 256 + h) / (256 * t) = n / 256 / t := by
    rw [← Nat.div_div_eq_div_mul]
    congr 1
    omega
  have hnet : n / (256 * t) * (256 * t) = 256 * (n / 256 / t * t) := by
    rw [← Nat.div_div_eq_div_mul]
    ring
  have hsame : n / 256 / t * (256 * t) = 256 * (n / 256 / t * t) := by ring
  rw [DeviceOf, hpool, hnet, hsame]
  omega

/-- In a smaller net the pool is strictly between the ends. -/
theorem deviceOf_small {n s first last : ℕ} (hs : 2 ≤ s) (hs' : s < 8) (hle : first ≤ last)
    (h254 : last ≤ 254) :
    (∀ h, first ≤ h → h ≤ last → DeviceOf n (2 ^ s) (n / 256 * 256 + h)) ↔
      ¬ (first ≤ n % 256 ∧ n % 256 ≤ last) ∧ n % 256 / 2 ^ s * 2 ^ s < first ∧
        last < n % 256 / 2 ^ s * 2 ^ s + (2 ^ s - 1) := by
  simp only [DeviceOf]
  constructor
  · intro h
    have hfirst := h first le_rfl hle
    have hlast := h last hle le_rfl
    have hown := h (n % 256)
    interval_cases s <;> omega
  · rintro ⟨hown, hlow, hhigh⟩ h h1 h2
    interval_cases s <;> omega

/-- A pool of a small net is strictly between its ends, and the own address is not in it. -/
theorem poolFits_iff (lan : Lan) {first last : ℕ} (h1 : 1 ≤ first) (hle : first ≤ last)
    (h254 : last ≤ 254) : (∀ h : ℕ, first ≤ h → h ≤ last →
      network (poolAddr lan.addr h) lan.bits = network lan.addr lan.bits ∧
      poolAddr lan.addr h ≠ lan.addr ∧ poolAddr lan.addr h ≠ network lan.addr lan.bits ∧
      poolAddr lan.addr h ≠ broadcast lan.addr lan.bits) ↔
    ¬ (first ≤ lan.addr.toNat % 256 ∧ lan.addr.toNat % 256 ≤ last) ∧
      (24 < lan.bits → lan.low < first ∧ last < lan.high) := by
  have hnum : (∀ h : ℕ, first ≤ h → h ≤ last →
      network (poolAddr lan.addr h) lan.bits = network lan.addr lan.bits ∧
      poolAddr lan.addr h ≠ lan.addr ∧ poolAddr lan.addr h ≠ network lan.addr lan.bits ∧
      poolAddr lan.addr h ≠ broadcast lan.addr lan.bits) ↔ ∀ h : ℕ, first ≤ h → h ≤ last →
        DeviceOf lan.addr.toNat (2 ^ (32 - lan.bits)) (lan.addr.toNat / 256 * 256 + h) :=
    forall_congr' fun h => forall_congr' fun _ => forall_congr' fun h2 =>
      deviceOf_poolAddr lan (by omega)
  have hone := lan.one_le
  have hthirty := lan.le_thirty
  rw [hnum]
  by_cases hbits : 24 < lan.bits
  · rw [deviceOf_small (by omega) (by omega) hle h254, Lan.high, Lan.low]
    simp [hbits]
  · have hsize : 2 ^ (32 - lan.bits) = 256 * 2 ^ (24 - lan.bits) := by
      rw [show 32 - lan.bits = 8 + (24 - lan.bits) by omega, pow_add]
      rfl
    rw [hsize]
    simp only [hbits, false_implies, and_true]
    constructor
    · rintro h ⟨hb, hb'⟩
      exact (deviceOf_large (Nat.two_pow_pos _) (h1.trans hb) (hb'.trans h254)).mp (h _ hb hb') rfl
    · rintro hown h hb hb'
      rw [deviceOf_large (Nat.two_pow_pos _) (h1.trans hb) (hb'.trans h254)]
      rintro rfl
      exact hown ⟨hb, hb'⟩

/-- The last bytes of the addresses of a small net. -/
theorem ends_of_subnet {n s h : ℕ} (hs : 2 ≤ s) (hs' : s < 8) (hh : h < 256)
    (hnet : (n / 256 * 256 + h) / 2 ^ s = n / 2 ^ s) :
    n % 256 / 2 ^ s * 2 ^ s ≤ h ∧ h ≤ n % 256 / 2 ^ s * 2 ^ s + (2 ^ s - 1) := by
  interval_cases s <;> omega

/-! ## The pools of a form that is accepted -/

/-- A LAN whose server the form enables. -/
def DhcpEnabled (form : Form) (i : ℕ) : Prop := startsWith CHAR_0 (dhcpVar form i "enable") = false

/-- What the check leaves open. For the first LAN it is that the ends of the pool are special
addresses of a small net, for the others it is their address and their net. -/
def PoolClear (lan : Lan) (i : ℕ) (start num : ℤ) : Prop :=
  if i = 0 then 24 < lan.bits → start ≠ lan.low ∧ start + num - 1 ≠ lan.high
  else ¬ (start ≤ (lan.addr.toNat % 256 : ℕ) ∧ (lan.addr.toNat % 256 : ℕ) ≤ start + num - 1) ∧
    (24 < lan.bits → lan.low < start ∧ start + num - 1 < lan.high)

section
variable {x : RuleContext} {stack : ℕ → ℤ} {form : Form} {nvram : Variables} {lans : ℕ → Lan}

/-- The facts about the pool of a LAN that is accepted, all of them about the first LAN. -/
theorem validDhcpLan_pool (hlans : HoldsLans (posix x) nvram lans) {i : ℕ} (hi : i < lanNum nvram)
    (henabled : DhcpEnabled form i) (h : validDhcpLan (posix x) stack form nvram i = true) :
    poolConflicts (posix x) stack (inetNtoa (lans 0).addr) (lanAttr (posix x) nvram "mask")
        (dhcpVar form i "start") (dhcpVar form i "num") = false ∧
      validRangeOf DHCP_START (dhcpVar form i "start") = true ∧
      validRangeOf DHCP_NUM (dhcpVar form i "num") = true := by
  have haddr : lanAttr (posix x) nvram "ipaddr" = inetNtoa (lans 0).addr :=
    hlans.ipaddr 0 (by omega)
  rw [DhcpEnabled] at henabled
  simp only [validDhcpLan, henabled, haddr, Bool.false_or, Bool.and_eq_true, Bool.not_eq_true'] at h
  exact ⟨h.2.1.1.1.1.1.1.2, h.2.1.1.1.1.1.1.1.1, h.2.1.1.1.1.1.1.1.2⟩

theorem poolFits_iff_poolClear (hlans : HoldsLans (posix x) nvram lans) {i : ℕ}
    (hi : i < lanNum nvram) (henabled : DhcpEnabled form i)
    (h : validDhcpLan (posix x) stack form nvram i = true) :
    PoolFits (lans i) (atoi (dhcpVar form i "start")) (atoi (dhcpVar form i "num")) ↔
      PoolClear (lans i) i (atoi (dhcpVar form i "start")) (atoi (dhcpVar form i "num")) := by
  obtain ⟨hconflict, hstart, hnum⟩ := validDhcpLan_pool hlans hi henabled h
  have hmask : atoi (lanAttr (posix x) nvram "mask") = (lans 0).bits := hlans.mask 0 (by omega)
  obtain ⟨first, last, o, hfirst, hlast, h1, hle, h254, ho, hown, hnet, hnetLast⟩ :=
    poolConflicts_false hmask hstart hnum hconflict
  have hfits : PoolFits (lans i) (atoi (dhcpVar form i "start")) (atoi (dhcpVar form i "num")) ↔
      ¬ (first ≤ (lans i).addr.toNat % 256 ∧ (lans i).addr.toNat % 256 ≤ last) ∧
        (24 < (lans i).bits → (lans i).low < first ∧ last < (lans i).high) := by
    rw [← poolFits_iff (lans i) h1 hle h254, PoolFits]
    refine forall_congr' fun h => ?_
    rw [hfirst, Nat.cast_le, show (h : ℤ) < first + atoi (dhcpVar form i "num") ↔ h ≤ last by omega]
  rw [hfits, PoolClear, hlast, hfirst]
  by_cases hzero : i = 0
  · rw [if_pos hzero]
    subst hzero
    have hbits := (lans 0).le_thirty
    have hends : 24 < (lans 0).bits → (lans 0).low ≤ first ∧ last ≤ (lans 0).high := by
      intro hsmall
      have hlow := ends_of_subnet (by omega) (by omega) (by omega) hnet
      have hhigh := ends_of_subnet (by omega) (by omega) (by omega) hnetLast
      exact ⟨hlow.1.trans ho, hhigh.2⟩
    omega
  · rw [if_neg hzero]
    omega

/-- In a form that is accepted the pools are of devices in their LANs if and only if what the check
leaves open does not happen. -/
theorem pools_fit_iff (hlans : HoldsLans (posix x) nvram lans)
    (h : validDhcp (posix x) stack form nvram = true) :
    (∀ i < lanNum nvram, DhcpEnabled form i →
      PoolFits (lans i) (atoi (dhcpVar form i "start")) (atoi (dhcpVar form i "num"))) ↔
    ∀ i < lanNum nvram, DhcpEnabled form i →
      PoolClear (lans i) i (atoi (dhcpVar form i "start")) (atoi (dhcpVar form i "num")) := by
  rw [validDhcp, List.all_eq_true] at h
  refine forall_congr' fun i => forall_congr' fun hi => forall_congr' fun henabled => ?_
  exact poolFits_iff_poolClear hlans hi henabled (h i (List.mem_range.mpr hi))

end

/-! ## Two forms for one LAN -/

/-- A store with one LAN with half of the addresses of a net. -/
def poolStore : Variables := fun m =>
  if m = .ofString "lan_static_rule" then some (.ofString "192.168.1.1^25^^^") else none

/-- A form with a pool of so many addresses from 192.168.1.33 on. -/
def poolForm (num : String) : Form := fun m =>
  ([("dhcp0_enable", "1"), ("dhcp0_start", "33"), ("dhcp0_num", num), ("dhcp0_lease", "86400"),
    ("dhcp0_domain", "lan"), ("dhcp0_dnstype", "dnsrelay")].find? fun f => CStr.ofString f.1 = m).map
      fun f => .ofString f.2

def poolLan : Lan := ⟨0xc0a80101, 25, by decide, by decide⟩

theorem holdsLans_poolStore : HoldsLans (posix dottedContext) poolStore fun _ => poolLan := by
  have hnum : lanNum poolStore = 1 := by decide +kernel
  have haddr : lanAttrAt (posix dottedContext) poolStore 0 "ipaddr" = inetNtoa poolLan.addr := by
    decide +kernel
  have hmask : atoi (lanAttrAt (posix dottedContext) poolStore 0 "mask") = poolLan.bits := by
    decide +kernel
  constructor <;> intro i hi <;> rw [hnum, Nat.lt_one_iff] at hi <;> subst hi
  · exact haddr
  · exact hmask

/-- A pool that ends below the broadcast address. -/
theorem pools_fit_below :
    validDhcp (posix dottedContext) (fun _ => 0) (poolForm "94") poolStore = true ∧
      ∀ i < lanNum poolStore, DhcpEnabled (poolForm "94") i → PoolFits poolLan
        (atoi (dhcpVar (poolForm "94") i "start")) (atoi (dhcpVar (poolForm "94") i "num")) := by
  have haccepted : validDhcp (posix dottedContext) (fun _ => 0) (poolForm "94") poolStore = true :=
    by decide +kernel
  refine ⟨haccepted, (pools_fit_iff holdsLans_poolStore haccepted).mpr ?_⟩
  have hnum : lanNum poolStore = 1 := by decide +kernel
  have hstart : atoi (dhcpVar (poolForm "94") 0 "start") = 33 := by decide +kernel
  have hcount : atoi (dhcpVar (poolForm "94") 0 "num") = 94 := by decide +kernel
  intro i hi _
  rw [hnum, Nat.lt_one_iff] at hi
  subst hi
  rw [hstart, hcount, PoolClear, if_pos rfl]
  decide

/-- A pool up to the broadcast address is accepted. -/
theorem pool_with_broadcast :
    validDhcp (posix dottedContext) (fun _ => 0) (poolForm "95") poolStore = true ∧
      ¬ PoolFits poolLan (atoi (dhcpVar (poolForm "95") 0 "start"))
        (atoi (dhcpVar (poolForm "95") 0 "num")) := by
  refine ⟨by decide +kernel, fun h => ?_⟩
  have hstart : atoi (dhcpVar (poolForm "95") 0 "start") = 33 := by decide +kernel
  have hcount : atoi (dhcpVar (poolForm "95") 0 "num") = 95 := by decide +kernel
  rw [hstart, hcount] at h
  exact (h 127 (by decide) (by decide)).2.2.2 (by decide)

end EzpFirmware.Httpd
