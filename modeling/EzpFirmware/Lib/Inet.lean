import EzpFirmware.Lib.Fields
import EzpFirmware.Lib.Scanning

/-! # Addresses as texts

The C library reads an address from one to four numbers, each of them decimal,
octal or hexadecimal, and prints it as four decimal ones. The reader takes more
than the printer gives.
-/
namespace EzpFirmware.Lib

def DOT : UInt8 := 0x2e

theorem DOT_ne_zero : DOT ≠ 0 := by decide

/-! ## Reading and printing -/

/-- The value of a character as a digit of a base. -/
def digitOf (base : ℕ) (b : UInt8) : Option ℕ :=
  ((hexDigit b).map UInt8.toNat).filter (· < base)

/-- The base of a number in the notation of C, and its digits. A base 16 needs a digit behind its
mark. -/
def radix (s : List UInt8) : ℕ × List UInt8 :=
  if s.head? ≠ some 0x30 then (10, s)
  else if (s[1]? = some 0x78 ∨ s[1]? = some 0x58) ∧ (s[2]?.bind hexDigit).isSome then (16, s.drop 2)
  else (8, s)

/-- `strtoul` with base 0: the number a text starts with, and what is behind it. -/
def strtoul (s : List UInt8) : ℕ × List UInt8 :=
  let (base, s) := radix s
  let isDigitOf (b : UInt8) : Bool := (digitOf base b).isSome
  ((s.takeWhile isDigitOf).foldl (fun n b => n * base + (digitOf base b).getD 0) 0,
    s.dropWhile isDigitOf)

/-- The loop of `inet_aton`, with the dots that may still come and the number of the parts that
were read. The last part stands for all bytes that are left. -/
def addressFrom : ℕ → ℕ → List UInt8 → Option ℕ
  | dots, high, s =>
    if !(s.head?.any isDigit) then none
    else
      let (val, rest) := strtoul s
      if 0xffffffff < val then none
      else if rest.head? = some DOT then
        match dots with
        | 0 => none
        | dots + 1 => if 0xff < val then none else addressFrom dots (high * 256 + val) rest.tail
      else if rest.head?.all isSpace ∧ val < 256 ^ (dots + 1) then
        some (high * 256 ^ (dots + 1) + val)
      else none

/-- `inet_aton`. -/
def inetAton (cp : CStr) : Option UInt32 := (addressFrom 3 0 cp.val).map UInt32.ofNat

/-- The four bytes of an address, the highest one first. -/
def octets (addr : UInt32) : List ℕ := [3, 2, 1, 0].map fun i => addr.toNat / 256 ^ i % 256

/-- Numbers with dots between them. -/
def dotted (ns : List ℕ) : CStr := CStr.join DOT DOT_ne_zero (ns.map fun n : ℕ => decimal n)

/-- `inet_ntoa`: the dotted quad of an address. -/
def inetNtoa (addr : UInt32) : CStr := dotted (octets addr)

example : inetAton (.ofString "1.2.3.4") = some 0x01020304 := by decide +kernel

example : inetAton (.ofString "0x7f.1 x") = some 0x7f000001 := by decide +kernel

/-! ## A dotted quad is read back -/

theorem digitOf_digitByte : ∀ d < 10, digitOf 10 (digitByte d) = some d := by decide

/-- A decimal number is read up to its end. -/
theorem strtoul_decimal (n : ℕ) {rest : List UInt8} (hrest : ∀ b ∈ rest.head?, b = DOT) :
    strtoul ((decimal n).val ++ rest) = (n, rest) := by
  rw [decimal_val]
  have hstop : ∀ base ≤ 10, rest.dropWhile (fun b => (digitOf base b).isSome) = rest ∧
      rest.takeWhile (fun b => (digitOf base b).isSome) = [] := by
    intro base hbase
    cases rest with
    | nil => simp
    | cons b rest =>
      obtain rfl : b = DOT := hrest b rfl
      have hdot : digitOf base DOT = none := by
        simp [digitOf, show hexDigit DOT = none by decide]
      simp [hdot]
  rcases Nat.eq_zero_or_pos n with rfl | hn
  · -- A zero counts as an octal number without further digits.
    have hradix : radix (numeral 10 1 0 ++ rest) = (8, 0x30 :: rest) := by
      cases rest with
      | nil => decide
      | cons b rest =>
        obtain rfl : b = DOT := hrest b rfl
        simp [numeral, radix, digitByte, DOT]
    have hzero : digitOf 8 0x30 = some 0 := by decide
    simp [strtoul, hradix, hzero, hstop]
  · have hhead := head?_numeral (show 2 ≤ 10 by decide) (by decide) hn (Nat.lt_succ_self n)
    have hradix : radix (numeral 10 (n + 1) n ++ rest) = (10, numeral 10 (n + 1) n ++ rest) := by
      rw [radix, List.head?_append_of_ne_nil _ (numeral_ne_nil 10 n n), if_pos hhead]
    have hdigits : ∀ b ∈ numeral 10 (n + 1) n, (digitOf 10 b).isSome = true := by
      intro b hb
      obtain ⟨d, hd, rfl⟩ := mem_numeral (by decide) hb
      rw [digitOf_digitByte d hd, Option.isSome_some]
    have hvalue := @foldl_numeral 10 (by decide)
      (fun b => (digitOf 10 b).getD 0)
      (fun d hd => by rw [digitOf_digitByte d hd, Option.getD_some]) _ _ (Nat.lt_succ_self n)
    obtain ⟨hdrop, htake⟩ := hstop 10 le_rfl
    simp only [strtoul, hradix]
    rw [List.takeWhile_append_of_pos hdigits, List.dropWhile_append_of_pos hdigits, hdrop, htake,
      List.append_nil, hvalue]

theorem head?_decimal_append (n : ℕ) (rest : List UInt8) :
    ((decimal n).val ++ rest).head?.any isDigit = true := by
  rw [decimal_val, List.head?_append_of_ne_nil _ (numeral_ne_nil 10 n n)]
  obtain ⟨b, s, hcons⟩ := List.exists_cons_of_ne_nil (numeral_ne_nil 10 n n)
  obtain ⟨d, hd, rfl⟩ := mem_numeral (by decide : 0 < 10) (hcons ▸ List.mem_cons_self)
  simpa [hcons] using isDigit_digitByte hd

/-- A byte with a dot behind it. -/
theorem addressFrom_byte {n : ℕ} (hn : n < 256) (dots high : ℕ) (rest : List UInt8) :
    addressFrom (dots + 1) high ((decimal n).val ++ DOT :: rest) =
      addressFrom dots (high * 256 + n) rest := by
  rw [addressFrom, head?_decimal_append, strtoul_decimal n (by simp)]
  simp [show ¬ 0xffffffff < n by omega, show ¬ 0xff < n by omega]

/-- The last byte. -/
theorem addressFrom_last {n : ℕ} (hn : n < 256) (high : ℕ) :
    addressFrom 0 high (decimal n).val = some (high * 256 + n) := by
  have hread := @strtoul_decimal n [] (by simp)
  have hdigit := head?_decimal_append n []
  rw [List.append_nil] at hread hdigit
  rw [addressFrom, hdigit, hread]
  simp [show ¬ 0xffffffff < n by omega, hn]

theorem addressFrom_last_none {n : ℕ} (hn : 256 ≤ n) (high : ℕ) :
    addressFrom 0 high (decimal n).val = none := by
  have hread := @strtoul_decimal n [] (by simp)
  have hdigit := head?_decimal_append n []
  rw [List.append_nil] at hread hdigit
  rw [addressFrom, hdigit, hread]
  simp [show ¬ n < 256 by omega]

/-- Bytes with dots between them are read as the number they make up. -/
theorem addressFrom_dotted {ns : List ℕ} (hns : ∀ n ∈ ns, n < 256) {n : ℕ} (hn : n < 256)
    (high : ℕ) : addressFrom ns.length high (dotted (ns ++ [n])).val =
      some ((ns ++ [n]).foldl (fun v n => v * 256 + n) high) := by
  induction ns generalizing high with
  | nil => exact addressFrom_last hn high
  | cons m ns ih =>
    have hdotted : (dotted (m :: ns ++ [n])).val =
        (decimal m).val ++ DOT :: (dotted (ns ++ [n])).val := by
      rw [dotted, List.cons_append, List.map_cons, CStr.join_cons _ _ (by simp)]
      rfl
    rw [List.length_cons, hdotted, addressFrom_byte (hns m (by simp)),
      ih fun k hk => hns k (by simp [hk])]
    rfl

theorem octets_lt (addr : UInt32) : ∀ n ∈ octets addr, n < 256 := by
  simp only [octets, List.mem_map]
  rintro n ⟨i, -, rfl⟩
  exact Nat.mod_lt _ (by decide)

/-- The bytes of an address make it up. -/
theorem foldl_octets (addr : UInt32) :
    (octets addr).foldl (fun v n => v * 256 + n) 0 = addr.toNat := by
  have h := addr.toNat_lt
  simp only [octets, List.map_cons, List.map_nil, List.foldl_cons, List.foldl_nil]
  omega

/-- A dotted quad is read as its address. -/
theorem inetAton_inetNtoa (addr : UInt32) : inetAton (inetNtoa addr) = some addr := by
  have hbytes := octets_lt addr
  have hread := @addressFrom_dotted ((octets addr).take 3) (fun n hn => hbytes n
    (List.mem_of_mem_take hn)) (addr.toNat % 256) (Nat.mod_lt _ (by decide)) 0
  have hsplit : (octets addr).take 3 ++ [addr.toNat % 256] = octets addr := by
    simp [octets]
  rw [hsplit, foldl_octets] at hread
  rw [inetAton, inetNtoa, show 3 = ((octets addr).take 3).length from rfl, hread]
  simp

theorem dotted_len_lt {k : ℕ} {ns : List ℕ} (hne : ns ≠ []) (hns : ∀ n ∈ ns, n < 10 ^ (k + 1)) :
    (dotted ns).len < (k + 2) * ns.length := by
  have hdigits : ∀ n ∈ ns, (decimal n).len ≤ k + 1 := by
    intro n hn
    rw [CStr.len, decimal_val]
    exact numeral_length_le (hns n hn)
  clear hns
  induction ns with
  | nil => exact absurd rfl hne
  | cons n ns ih =>
    have hn := hdigits n (by simp)
    cases ns with
    | nil =>
      rw [show dotted [n] = decimal n from rfl, List.length_singleton]
      omega
    | cons m ns =>
      have hrest := ih (by simp) fun m hm => hdigits m (List.mem_cons_of_mem n hm)
      have hglue : (dotted (n :: m :: ns)).len = (decimal n).len + 1 + (dotted (m :: ns)).len :=
        CStr.glue_len DOT DOT_ne_zero _ _
      rw [hglue, List.length_cons, Nat.mul_succ]
      omega

/-- A dotted quad and its end have sixteen bytes at most. -/
theorem inetNtoa_len_lt (addr : UInt32) : (inetNtoa addr).len < 16 :=
  dotted_len_lt (k := 2) (by simp [octets]) fun n hn =>
    (octets_lt addr n hn).trans (by decide)

end EzpFirmware.Lib
