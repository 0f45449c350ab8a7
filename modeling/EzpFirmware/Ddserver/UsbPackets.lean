import EzpFirmware.Ddserver.Client
import EzpFirmware.Ddserver.Framing
import EzpFirmware.Lib.Cells

/-! # What a camera answers

A reply is read into a block that grows with the lengths that the camera
announces. There is no result when something is written outside of the block,
read before it is written, or asked for with a negative length.
-/
namespace EzpFirmware.Ddserver
open Lib
open Client (int32)

/-- The low 32 bits. -/
def uint32 (z : ℤ) : ℕ := (z % 2 ^ 32).toNat

/-- How the transfers go from now on, an error or the bytes that there are, and what was sent. -/
structure Device where
  answers : ℕ → Option (List UInt8)
  sent : List UInt8

def Device.next (d : Device) (bytes : List UInt8) : Device :=
  ⟨fun k => d.answers (k + 1), d.sent ++ bytes⟩

/-- The loop of `readPtpPacket` with room for some bytes: what arrives, unless it gives up. -/
def Device.piece (bufSize retry : ℕ) (d : Device) : Option (List UInt8) × Device :=
  match d.answers 0 with
  | none => if 5 < retry + 1 then (none, d.next []) else piece bufSize (retry + 1) (d.next [])
  | some bytes =>
    let got := bytes.take bufSize
    if 0 < got.length then (some got, d.next got)
    else if 3 < retry + 1 then (none, d.next [])
    else piece bufSize (retry + 1) (d.next [])
termination_by 6 - retry

/-- `readPtpPacket` into a block at some position. -/
def readPtpPacket (buf : Block) (pos : ℕ) (bufSize : ℤ) (d : Device) :
    Option (Option Block × Device) :=
  if bufSize < 0 then none
  else
    let r := d.piece bufSize.toNat 0
    match r.1 with
    | none => some (none, r.2)
    | some bytes => (buf.write pos bytes).map fun buf => (some buf, r.2)

/-- `realloc`. A negative size is more than there is. -/
def realloc (buf : Block) (n : ℤ) : Block := if n < 0 then Block.malloc 0 else buf.realloc n.toNat

/-- The local variables of `readUsbPacket` behind the first packet. -/
structure Reading where
  buf : Block
  currentPacketSize : ℤ
  packetSize1 : ℕ
  isResponse : Bool

/-- The length in front of the packets. -/
def Reading.finish (s : Reading) (total : ℕ) : Option Reading :=
  (s.buf.write 0 (leBytes 4 total)).map fun buf => { s with buf := buf }

/-- `readUsbPacket` to the end of the first packet. -/
def readFirst (d : Device) : Option (Option Reading × Device) :=
  (readPtpPacket (Block.malloc 4100) 4 (4100 - 4) d).bind fun r =>
    match r.1 with
    | none => some (none, r.2)
    | some buf =>
      (buf.number 4 4).bind fun packetSize1 => (buf.number 8 2).bind fun packetType =>
        if 4100 - 4 < packetSize1 then
          let currentPacketSize := int32 (uint32 (4 + packetSize1 + 4096))
          (readPtpPacket (realloc buf currentPacketSize) 4100
            (int32 (uint32 (packetSize1 - (4100 - 4)))) r.2).map fun r =>
              (r.1.map fun buf => ⟨buf, currentPacketSize, packetSize1, packetType = 0x0003⟩, r.2)
        else some (some ⟨buf, 4100, packetSize1, packetType = 0x0003⟩, r.2)

/-- The room behind the first packet. -/
def Reading.room (s : Reading) : ℕ := uint32 (s.currentPacketSize - s.packetSize1 - 4)

/-- `readUsbPacket` behind the first piece of the response: the block and the length. -/
def readRest (s : Reading) (packetSize2 : ℕ) (d : Device) : Option (Option (Block × ℤ) × Device) :=
  let total := 4 + s.packetSize1 + packetSize2
  if s.room < packetSize2 then
    let buf := realloc s.buf (int32 (uint32 total))
    let rest := packetSize2 - (s.currentPacketSize - 4 - s.packetSize1)
    -- it does not matter whether the rest arrives
    (readPtpPacket buf s.currentPacketSize.toNat (int32 (uint32 rest)) d).bind fun r =>
      (Reading.finish { s with buf := r.1.getD buf } total).map fun s =>
        (some (s.buf, int32 (uint32 total)), r.2)
  else (s.finish total).map fun s => (some (s.buf, int32 (uint32 total)), d)

/-- `readUsbPacket` from the response on. -/
def readSecond (s : Reading) (d : Device) : Option (Option (Block × ℤ) × Device) :=
  (readPtpPacket s.buf (4 + s.packetSize1) (int32 s.room) d).bind fun r =>
    match r.1 with
    | none => some (none, r.2)
    | some buf =>
      (buf.number (4 + s.packetSize1) 4).bind fun packetSize2 =>
        readRest { s with buf := buf } packetSize2 r.2

/-- `readUsbPacket`: the block and the length, or `NULL`. -/
def readUsbPacket (d : Device) : Option (Option (Block × ℤ) × Device) :=
  (readFirst d).bind fun r =>
    match r.1 with
    | none => some (none, r.2)
    | some s =>
      (s.finish (s.packetSize1 + 4)).bind fun s =>
        if s.isResponse then some (some (s.buf, int32 (uint32 (s.packetSize1 + 4))), r.2)
        else readSecond s r.2

/-! ## What is asked for -/

def DATA : ℕ := 2

def RESPONSE : ℕ := 3

def typeField (s : List UInt8) : ℕ := ofLe ((s.drop 4).take 2)

/-- A packet of some type. -/
structure IsPacket (type : ℕ) (p : List UInt8) : Prop where
  header : PTP_HEADER ≤ p.length
  length : lengthField p = p.length
  type_eq : typeField p = type

/-- A response, or data and the response. -/
def IsReply (bytes : List UInt8) : Prop :=
  IsPacket RESPONSE bytes ∨
    ∃ data response, bytes = data ++ response ∧ IsPacket DATA data ∧ IsPacket RESPONSE response

/-- The result is `NULL`, or a block with the total length and what the camera sent, a reply. -/
def Fine (o : Option (Option (Block × ℤ) × Device)) : Prop :=
  ∃ r d, o = some (r, d) ∧ ∀ buf length, r = some (buf, length) →
    IsReply d.sent ∧ length = 4 + d.sent.length ∧
      ∀ i < 4 + d.sent.length, buf.cell i = (leBytes 4 (4 + d.sent.length) ++ d.sent)[i]?

/-- If a response arrives behind `data`, these are a data packet, and it is a response that fits the
room, or the rest of it that was announced arrives at once. -/
def Answered (data : List UInt8) (room : ℕ) (d : Device) : Prop :=
  ∀ r d', d.piece room 0 = (some r, d') → IsPacket DATA data ∧ 4 ≤ r.length ∧
    (lengthField r ≤ room → IsPacket RESPONSE r) ∧
    (room < lengthField r → 4 + data.length + lengthField r < 2 ^ 31 ∧
      ∃ b d'', d'.piece (lengthField r - room) 0 = (some b, d'') ∧ IsPacket RESPONSE (r ++ b))

/-- What a camera may send: if something arrives, its first six bytes do, and it is a response, or
data with a response behind them, perhaps with the rest of what was announced in a second piece. -/
def Orderly (d : Device) : Prop :=
  ∀ a d', d.piece 4096 0 = (some a, d') → 6 ≤ a.length ∧
    (lengthField a ≤ 4096 →
      (typeField a = RESPONSE → IsPacket RESPONSE a) ∧
      (typeField a ≠ RESPONSE → Answered a (4096 - lengthField a) d')) ∧
    (4096 < lengthField a → lengthField a < 2 ^ 31 + 4096 ∧
      ∀ b d'', d'.piece (lengthField a - 4096) 0 = (some b, d'') →
        lengthField a + 4100 < 2 ^ 31 ∧
        (typeField a = RESPONSE → IsPacket RESPONSE (a ++ b)) ∧
        (typeField a ≠ RESPONSE → Answered (a ++ b) 4096 d''))

/-! ## Packets in a growing block

What was received stands behind the length without a gap, or some byte of the
reply was never written.
-/

variable {d d' : Device} {buf : Block} {n : ℕ}

/-! ## Single transfers -/

/-- What arrives is sent, fits the room and is not empty. -/
theorem piece_spec (d : Device) (n retry : ℕ) :
    (d.piece n retry).2.sent = d.sent ++ (d.piece n retry).1.getD [] ∧
      ((d.piece n retry).1.getD []).length ≤ n ∧
        ∀ bytes, (d.piece n retry).1 = some bytes → 0 < bytes.length := by
  have hstop : ∀ d : Device, (d.next []).sent = d.sent ++ [] := fun _ => rfl
  induction retry, d using Device.piece.induct n with
  | case1 retry d hnone hover =>
    rw [Device.piece, hnone]
    simp only [hover, if_true]
    exact ⟨hstop d, Nat.zero_le _, fun _ h => nomatch h⟩
  | case2 retry d hnone hretry ih =>
    rw [Device.piece, hnone]
    simpa only [hretry, if_false, hstop, List.append_nil] using ih
  | case3 retry d bytes hbytes got hgot =>
    rw [Device.piece, hbytes]
    simp only [show 0 < (bytes.take n).length from hgot, if_true]
    exact ⟨rfl, List.length_take_le _ _, fun _ h => Option.some.inj h ▸ hgot⟩
  | case4 retry d bytes hbytes got hgot hover =>
    rw [Device.piece, hbytes]
    simp only [show ¬ 0 < (bytes.take n).length from hgot, hover, if_true, if_false]
    exact ⟨hstop d, Nat.zero_le _, fun _ h => nomatch h⟩
  | case5 retry d bytes hbytes got hgot hretry ih =>
    rw [Device.piece, hbytes]
    simp only [show ¬ 0 < (bytes.take n).length from hgot, if_false]
    simpa only [hretry, if_false, hstop, List.append_nil] using ih

theorem piece_some {retry : ℕ} {bytes : List UInt8} (h : d.piece n retry = (some bytes, d')) :
    0 < bytes.length ∧ bytes.length ≤ n ∧ d'.sent = d.sent ++ bytes := by
  have hspec := piece_spec d n retry
  rw [h] at hspec
  exact ⟨hspec.2.2 bytes rfl, hspec.2.1, hspec.1⟩

theorem readPtpPacket_neg {pos : ℕ} {z : ℤ} (h : z < 0) : readPtpPacket buf pos z d = none := if_pos h

theorem readPtpPacket_none {pos : ℕ} (h : d.piece n 0 = (none, d')) :
    readPtpPacket buf pos n d = some (none, d') := by
  rw [readPtpPacket, if_neg (not_lt.mpr (Int.natCast_nonneg n)), Int.toNat_natCast, h]

theorem readPtpPacket_some {pos : ℕ} {bytes : List UInt8} (h : d.piece n 0 = (some bytes, d')) :
    readPtpPacket buf pos n d = (buf.write pos bytes).map fun buf => (some buf, d') := by
  rw [readPtpPacket, if_neg (not_lt.mpr (Int.natCast_nonneg n)), Int.toNat_natCast, h]

theorem readPtpPacket_fits {pos : ℕ} {bytes : List UInt8} (h : d.piece n 0 = (some bytes, d'))
    (hroom : pos + n ≤ buf.size) :
    readPtpPacket buf pos n d = some (some (buf.put pos bytes), d') := by
  have hlen := (piece_some h).2.1
  rw [readPtpPacket_some h, Block.write_inside (by omega)]
  rfl

/-! ## Sizes -/

theorem uint32_natCast (h : n < 2 ^ 32) : uint32 n = n := by
  rw [uint32, Int.emod_eq_of_lt (by omega) (by omega), Int.toNat_natCast]

theorem int32_uint32 (h : n < 2 ^ 31) : int32 (uint32 n) = n := by
  rw [uint32_natCast (by omega), int32, if_pos h]

theorem int32_uint32_neg (h : 2 ^ 31 ≤ n) (hlt : n < 2 ^ 32) : int32 (uint32 n) < 0 := by
  rw [uint32_natCast hlt, int32, if_neg (not_lt.mpr h)]
  omega

theorem realloc_natCast (buf : Block) (n : ℕ) : realloc buf n = buf.realloc n := by
  rw [realloc, if_neg (not_lt.mpr (Int.natCast_nonneg n)), Int.toNat_natCast]

theorem realloc_neg {z : ℤ} (h : z < 0) : realloc buf z = Block.malloc 0 := if_pos h

/-! ## What is filled -/

/-- Behind the place of the length the block holds these bytes and nothing else. -/
def Filled (buf : Block) (bytes : List UInt8) : Prop := ∀ i, buf.cell (4 + i) = bytes[i]?

theorem filled_malloc (n : ℕ) : Filled (Block.malloc n) [] := fun _ => rfl

theorem Filled.put {xs : List UInt8} (h : Filled buf xs) (ys : List UInt8) :
    Filled (buf.put (4 + xs.length) ys) (xs ++ ys) := by
  intro i
  rcases Nat.lt_or_ge i xs.length with hfront | hbehind
  · rw [Block.put_outside (.inl (by omega)), h i, List.getElem?_append_left hfront]
  · obtain ⟨j, rfl⟩ := Nat.exists_eq_add_of_le hbehind
    rw [List.getElem?_append_right hbehind, Nat.add_sub_cancel_left, ← Nat.add_assoc]
    rcases Nat.lt_or_ge j ys.length with hin | hout
    · exact Block.put_inside hin
    · rw [Block.put_outside (.inr (by omega)), Nat.add_assoc, h, List.getElem?_eq_none hbehind,
        List.getElem?_eq_none hout]

theorem Filled.realloc {xs : List UInt8} (h : Filled buf xs) (hin : 4 + xs.length ≤ buf.size)
    (hn : buf.size ≤ n) : Filled (buf.realloc n) xs := by
  intro i
  rcases Nat.lt_or_ge (4 + i) buf.size with hlow | hhigh
  · simp only [Block.realloc, hlow, hlow.trans_le hn, and_self, if_true]
    exact h i
  · simp only [Block.realloc, not_lt.mpr hhigh, false_and, if_false]
    rw [List.getElem?_eq_none (by omega)]

theorem Filled.number {xs : List UInt8} (h : Filled buf xs) (pos : ℕ) {width : ℕ}
    (hin : pos + width ≤ xs.length) :
    buf.number (4 + pos) width = some (ofLe ((xs.drop pos).take width)) :=
  Block.number_eq (fun i _ => h i) hin

/-! ## Replies -/

theorem typeField_append {a : List UInt8} (h : 6 ≤ a.length) (b : List UInt8) :
    typeField (a ++ b) = typeField a := by
  have hroom : 2 ≤ (a.drop 4).length := by
    rw [List.length_drop]
    omega
  rw [typeField, List.drop_append_of_le_length (by omega), List.take_append_of_le_length hroom,
    typeField]

/-- A reply that starts with a response is one. -/
theorem isReply_response {a : List UInt8} (h : typeField a = RESPONSE) :
    IsReply a ↔ IsPacket RESPONSE a := by
  constructor
  · rintro (hone | ⟨data, response, rfl, hdata, -⟩)
    · exact hone
    · have hheader := hdata.header
      rw [PTP_HEADER] at hheader
      rw [typeField_append (by omega), hdata.type_eq] at h
      exact absurd h (by decide)
  · exact .inl

/-- A reply that starts with data of its own length is the data and a response. -/
theorem isReply_append {data r : List UInt8} (h4 : 4 ≤ data.length)
    (hlen : lengthField data = data.length) (hr : 0 < r.length) :
    IsReply (data ++ r) ↔ IsPacket DATA data ∧ IsPacket RESPONSE r := by
  have hfield := lengthField_append_right h4 r
  constructor
  · rintro (hone | ⟨data', response, heq, hdata, hresponse⟩)
    · have hlong := hone.length
      rw [hfield, hlen, List.length_append] at hlong
      omega
    · have hheader := hdata.header
      rw [PTP_HEADER] at hheader
      have hfield' := lengthField_append_right (by omega : 4 ≤ data'.length) response
      rw [← heq, hfield, hlen, hdata.length] at hfield'
      obtain ⟨rfl, rfl⟩ := List.append_inj heq hfield'
      exact ⟨hdata, hresponse⟩
  · exact fun h => .inr ⟨data, r, rfl, h.1, h.2⟩

end EzpFirmware.Ddserver
