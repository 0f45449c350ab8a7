import EzpFirmware.Lib.Inet
import EzpFirmware.Lib.Fields
import EzpFirmware.Lib.Substrings
import EzpFirmware.Qcloud.Conf

/-! # Lists of addresses

A list of addresses is parsed in a copy of the text. Each round puts terminators into the copy
to cut out the parts of an item and takes them back. The protocol is looked for in the rest of
the list, and the path in the whole text.
-/
namespace EzpFirmware.Qcloud
open Lib

/-- `DWORD_ALIGN`. -/
def dwordAlign (n : ℕ) : ℕ := (n + 3) / 4 * 4

def ERR_STR_TOO_LONG : ℤ := -996

/-- `IP_PORT_LIST_SEP_CHAR`. -/
def COMMA : UInt8 := 0x2c

theorem COMMA_ne : COMMA ≠ 0 := by decide

/-- `URL_NAME_PREFIX_STR`. -/
def PREFIX : List UInt8 := [0x3a, 0x2f, 0x2f]

/-- `URL_NAME_PATH_CHAR`. -/
def PATH : UInt8 := 0x2f

def PORT_MIN : ℤ := 1

def PORT_MAX : ℤ := 65535

/-- What is read of an item into `URL_T`. -/
structure UrlT where
  addrStr : List UInt8
  ipAddr : UInt32
  port : ℤ
  path : Option (List UInt8)
  deriving DecidableEq

/-! ## In the copy -/

/-- The string from a place of the copy on. -/
def textAt (mem : List UInt8) (p : ℕ) : List UInt8 := (CStr.read (mem.drop p)).val

/-- `strchr` from a place on. -/
def strchrAt (mem : List UInt8) (p : ℕ) (c : UInt8) : Option ℕ :=
  ((textAt mem p).findIdx? (· == c)).map (p + ·)

/-- A character is put to a place that was found. -/
def putAt (mem : List UInt8) (p : Option ℕ) (c : UInt8) : List UInt8 := p.elim mem (mem.set · c)

/-- `util_trim` in the copy: the place of the first character, with a terminator behind the last
one. -/
def trimAt (mem : List UInt8) (p : ℕ) : Option (List UInt8 × ℕ) :=
  (utilTrim (textAt mem p) false).map fun text =>
    let start := p + ((textAt mem p).takeWhile isSpace).length
    (mem.set (start + text.length) 0, start)

/-- `util_read_integer`. -/
def utilReadInteger (mem : List UInt8) (p : ℕ) (minVal maxVal : ℤ) : Option (List UInt8 × ℤ) := do
  let (mem, start) ← trimAt mem p
  let tmp ← strtolWhole (textAt mem start)
  if minVal ≤ tmp ∧ tmp ≤ maxVal then some (mem, tmp) else none

/-- `%3d` of `sscanf`: the text behind the number. -/
def scanInt3 (s : List UInt8) : Option (List UInt8) :=
  let t := s.dropWhile isSpace
  let signed : Bool := t.head? = some 0x2d ∨ t.head? = some 0x2b
  let digits := ((if signed then t.tail else t).take (if signed then 2 else 3)).takeWhile
    isDigit
  if digits = [] then none else some ((if signed then t.tail else t).drop digits.length)

/-- Numbers with dots between them and nothing behind. -/
def scanInts3 : ℕ → List UInt8 → Bool
  | 0, s => (scanInt3 s).any List.isEmpty
  | n + 1, s => (scanInt3 s).any fun rest => rest.head? = some DOT && scanInts3 n rest.tail

/-- `sscanf` with `%3d.%3d.%3d.%3d%c` makes four conversions. -/
def scansFour (s : List UInt8) : Bool := scanInts3 3 s

/-- `util_read_ipv4_str` without a copy of the text. An address that `inet_aton` refuses leaves
`ip_addr` as it was. -/
def utilReadIpv4Str (mem : List UInt8) (p : ℕ) (ipAddr : UInt32) : List UInt8 × ℤ × UInt32 :=
  match trimAt mem p with
  | none => (mem, ERR_INVALID_FORMAT, ipAddr)
  | some (mem, start) =>
    if scansFour (textAt mem start) then
      (mem, NO_ERROR, (inetAton (CStr.read (textAt mem start))).getD ipAddr)
    else (mem, ERR_INVALID_VALUE, ipAddr)

/-! ## The loop -/

/-- How long the text is up to the end of the first `://`. -/
def prefixLen (text : List UInt8) : ℕ := (placeOf text PREFIX).elim 0 (· + PREFIX.length)

/-- The path that is looked for in the whole text. -/
def pathOf (text : List UInt8) : Option (List UInt8) :=
  let rest := text.drop (prefixLen text)
  (rest.findIdx? (· == PATH)).map fun k => rest.drop (k + 1)

/-- How a round ends: a write outside of a buffer, an error, `break`, or an item with the state
for the next round. -/
inductive ItemRound where
  | overflow
  | failed
  | stop
  | entry (e : UrlT) (mem : List UInt8) (start : ℕ) (ipAddr : UInt32)

/-- What the parser gives. -/
inductive ListRead where
  | overflow
  | failed (rc : ℤ)
  | entries (es : List UrlT)
  deriving DecidableEq

/-- An entry in front of the others. -/
def ListRead.cons (e : UrlT) : ListRead → ListRead
  | .entries es => .entries (e :: es)
  | r => r

section
variable (text : List UInt8) (defPort : ℤ) (dotted : Bool)

/-- The round behind the protocol. -/
def itemBody (protocol : List UInt8) (mem : List UInt8) (start stop : ℕ) (ipAddr : UInt32) :
    ItemRound :=
  let listSep := strchrAt mem start COMMA
  let mem := putAt mem listSep 0
  let pathSep := strchrAt mem start PATH
  let mem := putAt mem pathSep 0
  match trimAt mem start with
  | none => .stop
  | some (mem, start) =>
    let portSep := strchrAt mem start COLON
    let mem := putAt mem portSep 0
    match portSep.elim (some (mem, defPort)) fun q =>
        utilReadInteger mem (q + 1) PORT_MIN PORT_MAX with
    | none => .failed
    | some (mem, port) =>
      let (mem, rc, ipAddr) := utilReadIpv4Str mem start ipAddr
      if dotted ∧ rc ≠ NO_ERROR then .failed
      else
        let mem := putAt mem portSep COLON
        let mem := putAt mem pathSep PATH
        let addrStr := protocol ++ textAt mem start
        if dwordAlign (URL_STR_LEN + 1) ≤ addrStr.length then .overflow
        else
          .entry ⟨addrStr, if rc = NO_ERROR then ipAddr else 0, port, pathOf text⟩
            (putAt mem listSep COMMA) (listSep.elim stop (· + 1)) ipAddr

/-- One round of the loop. -/
def itemRound (mem : List UInt8) (start stop : ℕ) (ipAddr : UInt32) : ItemRound :=
  let len := prefixLen (textAt mem start)
  if dwordAlign (URL_STR_LEN + 1) ≤ len then .overflow
  else itemBody text defPort dotted ((textAt mem start).take len) mem (start + len) stop ipAddr

/-- The loop, with the number of entries that are left. -/
def itemLoop (stop : ℕ) : ℕ → List UInt8 → ℕ → UInt32 → ListRead
  | 0, _, _, _ => .entries []
  | n + 1, mem, start, ipAddr =>
    if start < stop then
      match itemRound text defPort dotted mem start stop ipAddr with
      | .overflow => .overflow
      | .failed => .failed ERR_INVALID_FORMAT
      | .stop => .entries []
      | .entry e mem start ipAddr => (itemLoop stop n mem start ipAddr).cons e
    else .entries []

end

/-- What the stack has in it: the rest of the copy, and `ip_addr`. -/
structure Stack where
  rest : List UInt8
  ipAddr : UInt32

/-- `util_read_ipv4_port_list`. -/
def utilReadIpv4PortList (defPort : ℤ) (dotted : Bool) (maxNum : ℕ) (stack : Stack)
    (ipPortStr : CStr) : ListRead :=
  if ADDR_STR_LEN < ipPortStr.len then .failed ERR_STR_TOO_LONG
  else
    itemLoop ipPortStr.val defPort dotted ipPortStr.len maxNum (ipPortStr.stored ++ stack.rest) 0
      stack.ipAddr

/-! ## The items of a list of addresses

An item has an address, and may have a protocol, a port and a path. When its parts are cut out
of the copy and put together again the copy is as it was before.
-/

/-- `[protocol://]address[:port][/path]`. -/
structure Parts where
  protocol : Option (List UInt8)
  address : List UInt8
  port : Option (List UInt8)
  path : Option (List UInt8)

namespace Parts
variable (x : Parts)

def portText : List UInt8 := x.port.elim [] (COLON :: ·)

def pathText : List UInt8 := x.path.elim [] (PATH :: ·)

def protocolText : List UInt8 := x.protocol.elim [] (· ++ PREFIX)

/-- What is behind the protocol. -/
def body : List UInt8 := x.address ++ x.portText ++ x.pathText

def text : List UInt8 := x.protocolText ++ x.body

end Parts

/-- A character of an item. -/
def IsPlain (b : UInt8) : Prop := b ≠ 0 ∧ b ≠ COMMA ∧ isSpace b = false

instance : DecidablePred IsPlain := fun b =>
  inferInstanceAs (Decidable (b ≠ 0 ∧ b ≠ COMMA ∧ isSpace b = false))

/-- The parts are those of an item: no character of it separates items or is white space, and no
part has the character that ends it. With `dotted` the address has to be numeric. -/
structure Parts.IsItem (dotted : Bool) (x : Parts) : Prop where
  plain : ∀ b ∈ x.text, IsPlain b
  protocol : ∀ p ∈ x.protocol, COLON ∉ p
  noProtocol : x.protocol = none → ¬PREFIX <:+: x.body
  address : x.address ≠ [] ∧ COLON ∉ x.address ∧ PATH ∉ x.address
  numeric : dotted = true → scansFour x.address = true
  port : ∀ p ∈ x.port, PATH ∉ p ∧ ∃ v, strtolWhole p = some v ∧ PORT_MIN ≤ v ∧ v ≤ PORT_MAX

/-- The items of a list. -/
abbrev Item (dotted : Bool) := {x : Parts // x.IsItem dotted}

/-- What `port` is for an item. -/
def Parts.portOf (defPort : ℤ) (x : Parts) : ℤ := (x.port.bind strtolWhole).getD defPort

/-- What `ip_addr` is behind an item. -/
def Parts.nextAddr (x : Parts) (ipAddr : UInt32) : UInt32 :=
  if scansFour x.address then (inetAton (CStr.read x.address)).getD ipAddr else ipAddr

/-- The entry of an item whose path was found. -/
def Parts.entry (x : Parts) (addrStr : List UInt8) (defPort : ℤ) (path : Option (List UInt8))
    (ipAddr : UInt32) : UrlT where
  addrStr := addrStr
  ipAddr := if scansFour x.address then x.nextAddr ipAddr else 0
  port := x.portOf defPort
  path := path

/-! ## Places in the copy -/

variable {front a junk : List UInt8} {c z : UInt8}

theorem textAt_of_free (ha : (0 : UInt8) ∉ a) (front junk : List UInt8) :
    textAt (front ++ a ++ 0 :: junk) front.length = a := by
  have hstored : a ++ 0 :: junk = CStr.stored ⟨a, ha⟩ ++ junk := by simp [CStr.stored]
  rw [textAt, List.append_assoc, List.drop_left, hstored, CStr.read_stored_append]

theorem set_middle (x : List UInt8) (d : UInt8) (y : List UInt8) (c : UInt8) :
    (x ++ d :: y).set x.length c = x ++ c :: y := by
  simp

/-- A string up to its first `c`, or its end. -/
theorem strchrAt_eq (hc : c ≠ 0) (ha : (0 : UInt8) ∉ a) (hac : c ∉ a) (hz : z = c ∨ z = 0)
    (front junk : List UInt8) :
    strchrAt (front ++ a ++ z :: junk) front.length c =
      if z = c then some (front ++ a).length else none := by
  have hnone : a.findIdx? (· == c) = none := by
    rw [List.findIdx?_eq_none_iff]
    intro b hb
    exact beq_eq_false_iff_ne.mpr fun h => hac (h ▸ hb)
  obtain rfl | rfl := hz
  · have htext : ∃ rest, textAt (front ++ a ++ z :: junk) front.length = a ++ z :: rest := by
      refine ⟨(CStr.read junk).val, ?_⟩
      rw [textAt, List.append_assoc, List.drop_left, CStr.read]
      have hkeep : ∀ b ∈ a ++ [z], (b != 0) = true := by
        intro b hb
        rw [List.mem_append, List.mem_singleton] at hb
        obtain hb | rfl := hb
        · exact bne_iff_ne.mpr fun h => ha (h ▸ hb)
        · exact bne_iff_ne.mpr hc
      have hsplit : a ++ z :: junk = a ++ [z] ++ junk := by simp
      change (a ++ z :: junk).takeWhile (· != 0) = _
      rw [hsplit, List.takeWhile_append_of_pos hkeep, List.append_assoc]
      rfl
    obtain ⟨rest, htext⟩ := htext
    rw [strchrAt, htext, if_pos rfl, List.findIdx?_append, hnone]
    simp [List.findIdx?_cons]
  · rw [strchrAt, textAt_of_free ha, hnone, if_neg (Ne.symm hc)]
    rfl

/-- A terminator in place of a separator, and the separator put back. -/
theorem cut_restore (hc : c ≠ 0) (ha : (0 : UInt8) ∉ a) (hac : c ∉ a) (hz : z = c ∨ z = 0)
    (front junk : List UInt8) :
    putAt (front ++ a ++ z :: junk) (strchrAt (front ++ a ++ z :: junk) front.length c) 0 =
        front ++ a ++ 0 :: junk ∧
      putAt (front ++ a ++ 0 :: junk) (strchrAt (front ++ a ++ z :: junk) front.length c) c =
        front ++ a ++ z :: junk := by
  rw [strchrAt_eq hc ha hac hz]
  obtain rfl | rfl := hz
  · rw [if_pos rfl]
    exact ⟨set_middle _ _ _ _, set_middle _ _ _ _⟩
  · rw [if_neg (Ne.symm hc)]
    exact ⟨rfl, rfl⟩

/-- A text without white space has nothing to trim. -/
theorem utilTrim_plain (hplain : ∀ b ∈ a, isSpace b = false) (hne : a ≠ []) :
    utilTrim a false = some a := by
  obtain ⟨b, rest, rfl⟩ := List.exists_cons_of_ne_nil hne
  have hhead : isSpace b = false := hplain b List.mem_cons_self
  have hlast : (b :: rest).rdropWhile isSpace = b :: rest := by
    apply List.rdropWhile_eq_self_iff.mpr
    intro hne
    simpa using hplain _ (List.getLast_mem hne)
  simp [utilTrim, hhead, hlast]

theorem trimAt_plain (ha : (0 : UInt8) ∉ a) (hplain : ∀ b ∈ a, isSpace b = false)
    (hne : a ≠ []) (front junk : List UInt8) :
    trimAt (front ++ a ++ 0 :: junk) front.length =
      some (front ++ a ++ 0 :: junk, front.length) := by
  have hlead : (a.takeWhile isSpace) = [] := by
    obtain ⟨b, rest, rfl⟩ := List.exists_cons_of_ne_nil hne
    simp [hplain b List.mem_cons_self]
  rw [trimAt, textAt_of_free ha, utilTrim_plain hplain hne, hlead]
  simp only [Option.map_some, List.length_nil, Nat.add_zero, ← List.length_append]
  rw [set_middle]

end EzpFirmware.Qcloud
