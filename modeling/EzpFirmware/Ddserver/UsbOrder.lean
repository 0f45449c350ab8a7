import EzpFirmware.Ddserver.UsbReplies

/-! # Cameras whose replies are handed on

The first packet is read in one or two pieces. Together with the response
behind it this gives the condition on a camera.
-/
namespace EzpFirmware.Ddserver
open Lib
open Client (int32)

variable {d d' : Device} {a : List UInt8}

/-! ## The first piece -/

/-- The block with the first piece. -/
def firstBlock (a : List UInt8) : Block := (Block.malloc 4100).put 4 a

theorem firstBlock_filled (a : List UInt8) : Filled (firstBlock a) a :=
  (filled_malloc 4100).put a

theorem readFirst_silent (h : d.piece 4096 0 = (none, d')) : readFirst d = some (none, d') := by
  have hread : readPtpPacket (Block.malloc 4100) 4 (4100 - 4) d = some (none, d') :=
    readPtpPacket_none h
  rw [readFirst, hread]
  rfl

theorem readFirst_piece (h : d.piece 4096 0 = (some a, d')) :
    readPtpPacket (Block.malloc 4100) 4 (4100 - 4) d = some (some (firstBlock a), d') :=
  readPtpPacket_fits h (show 4 + 4096 ≤ 4100 by decide)

/-- The header is not there. -/
theorem readFirst_short (h : d.piece 4096 0 = (some a, d')) (hshort : a.length < 6) :
    readFirst d = none := by
  have hnone : (firstBlock a).cell (4 + a.length) = none := by
    rw [firstBlock_filled, List.getElem?_eq_none le_rfl]
  rw [readFirst, readFirst_piece h, Option.bind_some]
  rcases Nat.lt_or_ge a.length 4 with hlen | hlen
  · have hnumber := Block.number_none hlen hnone
    dsimp only
    rw [hnumber]
    rfl
  · have hnumber : (firstBlock a).number 8 2 = none :=
      Block.number_none (k := a.length - 4) (by omega) (by
        rw [show 8 + (a.length - 4) = 4 + a.length by omega]
        exact hnone)
    dsimp only
    rw [hnumber]
    cases (firstBlock a).number 4 4 <;> rfl

/-- The header is there. -/
theorem firstBlock_header (h6 : 6 ≤ a.length) :
    (firstBlock a).number 4 4 = some (lengthField a) ∧
      (firstBlock a).number 8 2 = some (typeField a) :=
  ⟨(firstBlock_filled a).number 0 (by omega),
    (firstBlock_filled a).number 4 (by omega)⟩

theorem readFirst_fits (h : d.piece 4096 0 = (some a, d')) (h6 : 6 ≤ a.length)
    (hfits : lengthField a ≤ 4096) :
    readFirst d = some (some ⟨firstBlock a, 4100, lengthField a, typeField a = 0x0003⟩, d') := by
  obtain ⟨hlength, htype⟩ := firstBlock_header h6
  rw [readFirst, readFirst_piece h, Option.bind_some]
  dsimp only
  rw [hlength, Option.bind_some, htype, Option.bind_some, if_neg (not_lt.mpr hfits)]

theorem readFirst_long (h : d.piece 4096 0 = (some a, d')) (h6 : 6 ≤ a.length)
    (hlong : 4096 < lengthField a) :
    readFirst d = (readPtpPacket (realloc (firstBlock a)
        (int32 (uint32 (lengthField a + 4100 : ℕ)))) 4100
        (int32 (uint32 (lengthField a - 4096 : ℕ))) d').map fun r =>
          (r.1.map fun buf => ⟨buf, int32 (uint32 (lengthField a + 4100 : ℕ)), lengthField a,
            typeField a = 0x0003⟩, r.2) := by
  obtain ⟨hlength, htype⟩ := firstBlock_header h6
  have hsize : (4 + (lengthField a : ℤ) + 4096) = (lengthField a + 4100 : ℕ) := by omega
  have hrest : ((lengthField a : ℤ) - (4100 - 4)) = (lengthField a - 4096 : ℕ) := by omega
  rw [readFirst, readFirst_piece h, Option.bind_some]
  dsimp only
  rw [hlength, Option.bind_some, htype, Option.bind_some, if_pos (show 4100 - 4 < _ from hlong)]
  rw [hsize, hrest]

/-! ## The second piece -/

section
variable {d'' : Device} {b : List UInt8} (h : d.piece 4096 0 = (some a, d')) (h6 : 6 ≤ a.length)
  (hlong : 4096 < lengthField a)
include h h6 hlong

theorem readFirst_negative (hhigh : 2 ^ 31 + 4096 ≤ lengthField a) : readFirst d = none := by
  have hlt := lengthField_lt a
  rw [readFirst_long h h6 hlong, readPtpPacket_neg (int32_uint32_neg (by omega) (by omega))]
  rfl

theorem readFirst_brokenOff (hlow : lengthField a < 2 ^ 31 + 4096)
    (hpiece : d'.piece (lengthField a - 4096) 0 = (none, d'')) :
    readFirst d = some (none, d'') := by
  rw [readFirst_long h h6 hlong, int32_uint32 (n := lengthField a - 4096) (by omega),
    readPtpPacket_none hpiece]
  rfl

/-- There is no block of that size. -/
theorem readFirst_huge (hlow : lengthField a < 2 ^ 31 + 4096) (hhigh : 2 ^ 31 ≤ lengthField a + 4100)
    (hpiece : d'.piece (lengthField a - 4096) 0 = (some b, d'')) : readFirst d = none := by
  rw [readFirst_long h h6 hlong, int32_uint32 (n := lengthField a - 4096) (by omega),
    realloc_neg (int32_uint32_neg hhigh (by omega)), readPtpPacket_some hpiece,
    Block.write_outside (show 0 < _ by omega)]
  rfl

theorem readFirst_both (hlow : lengthField a + 4100 < 2 ^ 31)
    (hpiece : d'.piece (lengthField a - 4096) 0 = (some b, d'')) :
    readFirst d = some (some ⟨((firstBlock a).realloc (lengthField a + 4100)).put 4100 b,
      (lengthField a + 4100 : ℕ), lengthField a, typeField a = 0x0003⟩, d'') := by
  rw [readFirst_long h h6 hlong, int32_uint32 (n := lengthField a - 4096) (by omega),
    int32_uint32 hlow, realloc_natCast, readPtpPacket_fits hpiece]
  · rfl
  · change _ ≤ lengthField a + 4100
    omega

end

/-! ## Behind the first packet -/

theorem Filled.putLength {buf : Block} {xs : List UInt8} (h : Filled buf xs) (total : ℕ) :
    Filled (buf.put 0 (leBytes 4 total)) xs := by
  intro i
  rw [Block.put_outside (.inr (by rw [leBytes_length]; omega))]
  exact h i

theorem readUsbPacket_null (h : readFirst d = some (none, d')) :
    readUsbPacket d = some (none, d') := by
  rw [readUsbPacket, h]
  rfl

theorem readUsbPacket_none (h : readFirst d = none) : readUsbPacket d = none := by
  rw [readUsbPacket, h]
  rfl

theorem readUsbPacket_some {s : Reading} {room : ℕ} (h : readFirst d = some (some s, d'))
    (hbehind : Behind s room) : readUsbPacket d =
      if s.isResponse then
        some (some (s.buf.put 0 (leBytes 4 (s.packetSize1 + 4)), ((s.packetSize1 + 4 : ℕ) : ℤ)), d')
      else readSecond { s with buf := s.buf.put 0 (leBytes 4 (s.packetSize1 + 4)) } d' := by
  have hlow := hbehind.low
  have htotal : (s.packetSize1 + 4 : ℤ) = (s.packetSize1 + 4 : ℕ) := by omega
  rw [readUsbPacket, h, Option.bind_some]
  dsimp only
  rw [hbehind.finish, Option.bind_some, htotal, int32_uint32 (by omega)]

/-- What was sent is there without a gap, or it is not as long as was announced and there is a
gap. -/
theorem readUsbPacket_fine {s : Reading} {room : ℕ} (h : readFirst d = some (some s, d'))
    (hbehind : Behind s room) (h6 : 6 ≤ d'.sent.length)
    (hfield : s.packetSize1 = lengthField d'.sent)
    (htype : s.isResponse = decide (typeField d'.sent = RESPONSE))
    (hcells : Filled s.buf d'.sent ∨
      d'.sent.length ≠ s.packetSize1 ∧ ∃ i < s.packetSize1, s.buf.cell (4 + i) = none) :
    Fine (readUsbPacket d) ↔
      (typeField d'.sent = RESPONSE → IsPacket RESPONSE d'.sent) ∧
        (typeField d'.sent ≠ RESPONSE → Answered d'.sent room d') := by
  rw [readUsbPacket_some h hbehind]
  by_cases hresponse : typeField d'.sent = RESPONSE
  · have hrhs : ((typeField d'.sent = RESPONSE → IsPacket RESPONSE d'.sent) ∧
        (typeField d'.sent ≠ RESPONSE → Answered d'.sent room d')) ↔
          IsPacket RESPONSE d'.sent :=
      ⟨fun hboth => hboth.1 hresponse, fun hpacket => ⟨fun _ => hpacket, absurd hresponse⟩⟩
    rw [hrhs, if_pos (htype.trans (decide_eq_true hresponse))]
    rcases hcells with hfill | ⟨hnot, i, hi, hnone⟩
    · rw [hfill.fine, isReply_response hresponse, hfield]
      exact ⟨fun hfine => hfine.1, fun hpacket => ⟨hpacket, by rw [hpacket.length, Nat.add_comm]⟩⟩
    · refine iff_of_false ?_ fun hpacket => hnot (by rw [hfield, hpacket.length])
      rw [fine_put]
      rintro ⟨-, htotal, -⟩
      exact hnot (by omega)
  · have hrhs : ((typeField d'.sent = RESPONSE → IsPacket RESPONSE d'.sent) ∧
        (typeField d'.sent ≠ RESPONSE → Answered d'.sent room d')) ↔ Answered d'.sent room d' :=
      ⟨fun hboth => hboth.2 hresponse, fun hanswer => ⟨fun h => absurd h hresponse, fun _ => hanswer⟩⟩
    have hlength : (leBytes 4 (s.packetSize1 + 4)).length = 4 := leBytes_length 4 _
    have hbehind' := hbehind.put (leBytes 4 (s.packetSize1 + 4)) 0
      (by rw [hlength, hbehind.size]; omega)
    rw [hrhs, if_neg (by simpa [htype] using hresponse)]
    by_cases hwhole : d'.sent.length = s.packetSize1
    · rcases hcells with hfill | ⟨hnot, -⟩
      · exact readSecond_whole hbehind' (hfill.putLength _) rfl hwhole (by rw [← hfield, hwhole])
          (by omega)
      · exact absurd hwhole hnot
    · apply readSecond_broken hbehind' (by rwa [← hfield])
      rcases hcells with hfill | ⟨-, i, hi, hnone⟩
      · rcases Nat.lt_or_gt_of_ne hwhole with hless | hmore
        · exact .inl ⟨_, hless, by rw [hfill.putLength, List.getElem?_eq_none le_rfl]⟩
        · exact .inr ⟨hmore, hfill.putLength _⟩
      · exact .inl ⟨i, hi, by rw [Block.put_outside (.inr (by omega)), hnone]⟩

/-! ## All answers -/

/-- A first packet that fits the block. -/
theorem readUsbPacket_fits (h : d.piece 4096 0 = (some a, d')) (hsent : d'.sent = a)
    (h6 : 6 ≤ a.length) (hfits : lengthField a ≤ 4096) :
    Fine (readUsbPacket d) ↔ (typeField a = RESPONSE → IsPacket RESPONSE a) ∧
      (typeField a ≠ RESPONSE → Answered a (4096 - lengthField a) d') := by
  have hlen := (piece_some h).2.1
  have hbehind : Behind ⟨firstBlock a, 4100, lengthField a, typeField a = 0x0003⟩
      (4096 - lengthField a) := by
    refine ⟨?_, ?_, ?_, fun i hi => ?_⟩
    · change 4100 = 4 + lengthField a + (4096 - lengthField a)
      omega
    · dsimp only
      omega
    · dsimp only
      omega
    · change 4100 ≤ i at hi
      obtain ⟨j, rfl⟩ := Nat.exists_eq_add_of_le (show 4 ≤ i by omega)
      rw [firstBlock_filled, List.getElem?_eq_none (by omega)]
  have hfine := readUsbPacket_fine (readFirst_fits h h6 hfits) hbehind (by rwa [hsent])
    (by rw [hsent]) (by rw [hsent]; rfl) (.inl (by rw [hsent]; exact firstBlock_filled a))
  rwa [hsent] at hfine

/-- A first packet whose rest arrives. -/
theorem readUsbPacket_both {d'' : Device} {b : List UInt8} (h : d.piece 4096 0 = (some a, d'))
    (h6 : 6 ≤ a.length) (hlong : 4096 < lengthField a) (hlow : lengthField a + 4100 < 2 ^ 31)
    (hpiece : d'.piece (lengthField a - 4096) 0 = (some b, d'')) (hsent : d''.sent = a ++ b) :
    Fine (readUsbPacket d) ↔ (typeField a = RESPONSE → IsPacket RESPONSE (a ++ b)) ∧
      (typeField a ≠ RESPONSE → Answered (a ++ b) 4096 d'') := by
  have hlen := (piece_some h).2.1
  have hlenb := (piece_some hpiece).2.1
  have hfill := (firstBlock_filled a).realloc (n := lengthField a + 4100)
    (show 4 + a.length ≤ 4100 by omega) (show 4100 ≤ _ by omega)
  have hbehind : Behind ⟨((firstBlock a).realloc (lengthField a + 4100)).put 4100 b,
      (lengthField a + 4100 : ℕ), lengthField a, typeField a = 0x0003⟩ 4096 := by
    refine ⟨?_, ?_, ?_, fun i hi => ?_⟩
    · change lengthField a + 4100 = 4 + lengthField a + 4096
      omega
    · dsimp only
      omega
    · dsimp only
      omega
    · change lengthField a + 4100 ≤ i at hi
      dsimp only
      rw [Block.put_outside (.inr (by omega)), Block.realloc_behind (show 4100 ≤ i by omega)]
  have hfine := readUsbPacket_fine (readFirst_both h h6 hlong hlow hpiece) hbehind
    (by rw [hsent, List.length_append]; omega)
    (by rw [hsent, lengthField_append_right (by omega)])
    (by rw [hsent, typeField_append h6]; rfl) ?_
  · rwa [hsent, typeField_append h6] at hfine
  rw [hsent]
  rcases Nat.eq_or_lt_of_le hlen with hfull | hgap
  · left
    have hplace : 4 + a.length = 4100 := by omega
    have hput := hfill.put b
    rwa [hplace] at hput
  · right
    refine ⟨by rw [List.length_append]; dsimp only; omega, a.length, by dsimp only; omega, ?_⟩
    dsimp only
    rw [Block.put_outside (.inl (by omega)), hfill, List.getElem?_eq_none le_rfl]

/-- **The result is `NULL` or the block holds the length and the packets as they were sent exactly
if the camera is orderly.** -/
theorem readUsbPacket_fine_iff (answers : ℕ → Option (List UInt8)) :
    Fine (readUsbPacket ⟨answers, []⟩) ↔ Orderly ⟨answers, []⟩ := by
  rcases hpiece : (Device.mk answers []).piece 4096 0 with ⟨_ | a, d'⟩
  · rw [readUsbPacket_null (readFirst_silent hpiece)]
    exact iff_of_true (fine_null d') fun a d'' h => nomatch hpiece.symm.trans h
  have horder : Orderly ⟨answers, []⟩ ↔ 6 ≤ a.length ∧
      (lengthField a ≤ 4096 → (typeField a = RESPONSE → IsPacket RESPONSE a) ∧
        (typeField a ≠ RESPONSE → Answered a (4096 - lengthField a) d')) ∧
      (4096 < lengthField a → lengthField a < 2 ^ 31 + 4096 ∧
        ∀ b d'', d'.piece (lengthField a - 4096) 0 = (some b, d'') →
          lengthField a + 4100 < 2 ^ 31 ∧
          (typeField a = RESPONSE → IsPacket RESPONSE (a ++ b)) ∧
          (typeField a ≠ RESPONSE → Answered (a ++ b) 4096 d'')) := by
    constructor
    · exact fun h => h a d' hpiece
    · intro h a' d'' hpiece'
      cases hpiece.symm.trans hpiece'
      exact h
  have hsent : d'.sent = a := (piece_some hpiece).2.2
  rw [horder]
  rcases Nat.lt_or_ge a.length 6 with hshort | h6
  · rw [readUsbPacket_none (readFirst_short hpiece hshort)]
    exact iff_of_false not_fine_none fun h => absurd h.1 (not_le.mpr hshort)
  rcases Nat.lt_or_ge 4096 (lengthField a) with hlong | hfits
  · have hrhs : ∀ P : Prop, (6 ≤ a.length ∧ (lengthField a ≤ 4096 →
        (typeField a = RESPONSE → IsPacket RESPONSE a) ∧
          (typeField a ≠ RESPONSE → Answered a (4096 - lengthField a) d')) ∧
        (4096 < lengthField a → P)) ↔ P := fun P =>
      ⟨fun h => h.2.2 hlong, fun h => ⟨h6, fun hfits => absurd hlong (not_lt.mpr hfits), fun _ => h⟩⟩
    rw [hrhs]
    rcases Nat.lt_or_ge (lengthField a) (2 ^ 31 + 4096) with hlow | hhigh
    case inr =>
      rw [readUsbPacket_none (readFirst_negative hpiece h6 hlong hhigh)]
      exact iff_of_false not_fine_none fun h => absurd h.1 (not_lt.mpr hhigh)
    rcases hpiece' : d'.piece (lengthField a - 4096) 0 with ⟨_ | b, d''⟩
    · rw [readUsbPacket_null (readFirst_brokenOff hpiece h6 hlong hlow hpiece')]
      exact iff_of_true (fine_null d'') ⟨hlow, fun b d₃ h => nomatch h⟩
    have hsent' := (piece_some hpiece').2.2
    rw [hsent] at hsent'
    rcases Nat.lt_or_ge (lengthField a + 4100) (2 ^ 31) with hroom | hhuge
    · rw [readUsbPacket_both hpiece h6 hlong hroom hpiece' hsent']
      constructor
      · intro h
        refine ⟨hlow, fun b' d₃ h' => ?_⟩
        cases h'
        exact ⟨hroom, h⟩
      · exact fun h => (h.2 b d'' rfl).2
    · rw [readUsbPacket_none (readFirst_huge hpiece h6 hlong hlow hhuge hpiece')]
      exact iff_of_false not_fine_none fun h => absurd (h.2 b d'' rfl).1 (not_lt.mpr hhuge)
  · rw [readUsbPacket_fits hpiece hsent h6 hfits]
    exact ⟨fun h => ⟨h6, fun _ => h, fun hlong => absurd hfits (not_le.mpr hlong)⟩,
      fun h => h.2.1 hfits⟩

/-- The header of a response of 16 bytes. -/
def cutResponse : List UInt8 := [16, 0, 0, 0, 3, 0, 1, 0x20, 9, 0, 0, 0]

/-- A response of which the last four bytes are missing is handed on with four bytes that were
never written. -/
theorem cutResponse_handed_on : ¬ Fine (readUsbPacket ⟨fun _ => some cutResponse, []⟩) := by
  have hpiece : (Device.mk (fun _ => some cutResponse) []).piece 4096 0 =
      (some cutResponse, ⟨fun _ => some cutResponse, cutResponse⟩) := by
    rw [Device.piece]
    rfl
  rw [readUsbPacket_fits hpiece rfl (by decide) (by decide)]
  intro h
  exact absurd (h.1 rfl).length (by decide)

end EzpFirmware.Ddserver
