import EzpFirmware.Ddserver.UsbPackets

/-! # Replies of a camera

`readUsbPacket` takes for granted that each transfer gives what is asked for. A
camera whose packets arrive like that has its reply handed on as it was sent,
and no other one has.
-/
namespace EzpFirmware.Ddserver
open Lib
open Client (int32)

variable {d d' : Device} {buf : Block} {s : Reading} {room packetSize2 : ℕ}

/-! ## The result -/

theorem not_fine_none : ¬ Fine none := fun ⟨_, _, h, _⟩ => nomatch h

theorem fine_null (d : Device) : Fine (some (none, d)) :=
  ⟨none, d, rfl, fun _ _ h => nomatch h⟩

/-- The length is written in front of the bytes of a reply. -/
theorem fine_put {total : ℕ} :
    Fine (some (some (buf.put 0 (leBytes 4 total), (total : ℤ)), d)) ↔
      IsReply d.sent ∧ total = 4 + d.sent.length ∧
        ∀ i < d.sent.length, buf.cell (4 + i) = d.sent[i]? := by
  have hlen : (leBytes 4 total).length = 4 := leBytes_length 4 total
  constructor
  · rintro ⟨r, d', heq, hfine⟩
    cases heq
    obtain ⟨hreply, htotal, hcells⟩ := hfine _ _ rfl
    refine ⟨hreply, by omega, fun i hi => ?_⟩
    have hcell := hcells (4 + i) (by omega)
    rwa [Block.put_outside (.inr (by omega)), List.getElem?_append_right (by simp),
      leBytes_length, Nat.add_sub_cancel_left] at hcell
  · rintro ⟨hreply, rfl, hcells⟩
    refine ⟨_, _, rfl, fun buf' length heq => ?_⟩
    cases heq
    refine ⟨hreply, by omega, fun i hi => ?_⟩
    rcases Nat.lt_or_ge i 4 with hfront | hbehind
    · rw [List.getElem?_append_left (by omega)]
      simpa using @Block.put_inside buf _ 0 i (by omega : i < (leBytes 4
        (4 + d.sent.length)).length)
    · obtain ⟨j, rfl⟩ := Nat.exists_eq_add_of_le hbehind
      rw [Block.put_outside (.inr (by omega)), hcells j (by omega),
        List.getElem?_append_right (by omega), hlen, Nat.add_sub_cancel_left]

/-- A block that holds what was sent. -/
theorem Filled.fine {total : ℕ} (h : Filled buf d.sent) :
    Fine (some (some (buf.put 0 (leBytes 4 total), (total : ℤ)), d)) ↔
      IsReply d.sent ∧ total = 4 + d.sent.length := by
  rw [fine_put]
  exact ⟨fun hfine => ⟨hfine.1, hfine.2.1⟩, fun hfine => ⟨hfine.1, hfine.2, fun i _ => h i⟩⟩

/-! ## Behind the first packet -/

/-- The block ends with the room for a response. -/
structure Behind (s : Reading) (room : ℕ) : Prop where
  size : s.buf.size = 4 + s.packetSize1 + room
  current : s.currentPacketSize = (4 + s.packetSize1 + room : ℕ)
  low : 4 + s.packetSize1 + room < 2 ^ 31
  behind : ∀ i, s.buf.size ≤ i → s.buf.cell i = none

theorem Behind.room_eq (h : Behind s room) : s.room = room := by
  have hdiff : s.currentPacketSize - s.packetSize1 - 4 = room := by
    rw [h.current]
    omega
  have hlow := h.low
  rw [Reading.room, hdiff, uint32_natCast (by omega)]

theorem Behind.put (h : Behind s room) (bytes : List UInt8) (pos : ℕ)
    (hin : pos + bytes.length ≤ s.buf.size) :
    Behind { s with buf := s.buf.put pos bytes } room := by
  refine ⟨h.size, h.current, h.low, fun i hi => ?_⟩
  rw [Block.put_outside (.inr (hin.trans hi))]
  exact h.behind i hi

theorem Behind.finish (h : Behind s room) (total : ℕ) :
    s.finish total = some { s with buf := s.buf.put 0 (leBytes 4 total) } := by
  have hsize := h.size
  rw [Reading.finish, Block.write_inside (by rw [leBytes_length]; omega)]
  rfl

/-- The response fits the room. -/
theorem readRest_short (h : Behind s room) (hp : packetSize2 ≤ room) :
    readRest s packetSize2 d = some (some
      (s.buf.put 0 (leBytes 4 (4 + s.packetSize1 + packetSize2)),
        ((4 + s.packetSize1 + packetSize2 : ℕ) : ℤ)), d) := by
  have hlow := h.low
  simp only [readRest]
  rw [h.room_eq, if_neg (not_lt.mpr hp), h.finish, Option.map_some, int32_uint32 (by omega)]

theorem Behind.rest_eq (h : Behind s room) (hp : room < packetSize2) :
    packetSize2 - (s.currentPacketSize - 4 - s.packetSize1) = (packetSize2 - room : ℕ) := by
  rw [h.current]
  omega

/-- The rest of the response is asked for. -/
theorem readRest_long (h : Behind s room) (hp : room < packetSize2)
    (hlow : 4 + s.packetSize1 + packetSize2 < 2 ^ 31) :
    readRest s packetSize2 d = some (some
      (((s.buf.realloc (4 + s.packetSize1 + packetSize2)).put (4 + s.packetSize1 + room)
          ((d.piece (packetSize2 - room) 0).1.getD [])).put 0
            (leBytes 4 (4 + s.packetSize1 + packetSize2)),
        ((4 + s.packetSize1 + packetSize2 : ℕ) : ℤ)), (d.piece (packetSize2 - room) 0).2) := by
  have hread : readPtpPacket (s.buf.realloc (4 + s.packetSize1 + packetSize2))
      (4 + s.packetSize1 + room) (packetSize2 - room : ℕ) d =
        some ((d.piece (packetSize2 - room) 0).1.map fun bytes =>
          (s.buf.realloc (4 + s.packetSize1 + packetSize2)).put (4 + s.packetSize1 + room) bytes,
          (d.piece (packetSize2 - room) 0).2) := by
    rcases hpiece : d.piece (packetSize2 - room) 0 with ⟨_ | bytes, d'⟩
    · exact readPtpPacket_none hpiece
    · apply readPtpPacket_fits hpiece
      change _ ≤ 4 + s.packetSize1 + packetSize2
      omega
  have hgetD : ∀ r : Option (List UInt8),
      (r.map fun bytes => (s.buf.realloc (4 + s.packetSize1 + packetSize2)).put
        (4 + s.packetSize1 + room) bytes).getD (s.buf.realloc (4 + s.packetSize1 + packetSize2)) =
      (s.buf.realloc (4 + s.packetSize1 + packetSize2)).put (4 + s.packetSize1 + room)
        (r.getD []) := by
    rintro (_ | bytes)
    · exact Block.put_nil.symm
    · rfl
  simp only [readRest]
  rw [h.room_eq, if_pos hp, h.rest_eq hp, int32_uint32 hlow, int32_uint32 (by omega),
    realloc_natCast, h.current, Int.toNat_natCast, hread, Option.bind_some]
  simp only [hgetD]
  rw [Reading.finish, Block.write_inside]
  · rfl
  · rw [leBytes_length]
    change _ ≤ 4 + s.packetSize1 + packetSize2
    omega

/-- The response is too long. -/
theorem readRest_fails (h : Behind s room) (hp : packetSize2 < 2 ^ 32)
    (hhigh : 2 ^ 31 ≤ 4 + s.packetSize1 + packetSize2) : readRest s packetSize2 d = none := by
  have hlow := h.low
  have hbehind : room < packetSize2 := by omega
  simp only [readRest]
  rw [h.room_eq, if_pos hbehind, h.rest_eq hbehind]
  rcases Nat.lt_or_ge (packetSize2 - room) (2 ^ 31) with hrest | hrest
  · rw [realloc_neg (int32_uint32_neg hhigh (by omega)), int32_uint32 hrest]
    rcases hpiece : d.piece (packetSize2 - room) 0 with ⟨_ | bytes, d'⟩
    · rw [readPtpPacket_none hpiece]
      rfl
    · have hsome := piece_some hpiece
      rw [readPtpPacket_some hpiece, Block.write_outside]
      · rfl
      · change 0 < _
        omega
  · rw [readPtpPacket_neg (int32_uint32_neg hrest (by omega))]
    rfl

/-! ## The response -/

/-- Behind the first piece of the response only its rest is written, behind the room. -/
theorem readRest_cells (h : Behind s room) (hp : packetSize2 < 2 ^ 32)
    (hfine : Fine (readRest s packetSize2 d)) :
    ∃ rest sent, sent = d.sent ++ rest ∧ rest.length ≤ packetSize2 - room ∧
      packetSize2 ≤ room + rest.length ∧ s.packetSize1 + packetSize2 = sent.length ∧
      IsReply sent ∧
      ∀ i < s.packetSize1 + room, i < sent.length → s.buf.cell (4 + i) = sent[i]? := by
  rcases Nat.lt_or_ge room packetSize2 with hlong | hshort
  · rcases Nat.lt_or_ge (4 + s.packetSize1 + packetSize2) (2 ^ 31) with hlow | hhigh
    · rw [readRest_long h hlong hlow, fine_put] at hfine
      obtain ⟨hreply, htotal, hcells⟩ := hfine
      obtain ⟨hsent, hle, -⟩ := piece_spec d (packetSize2 - room) 0
      refine ⟨_, _, hsent, hle, ?_, by omega, hreply, fun i hi hsent => ?_⟩
      · by_contra hgap
        have hcell := hcells (s.packetSize1 + room +
          ((d.piece (packetSize2 - room) 0).1.getD []).length) (by omega)
        rw [Block.put_outside (.inr (by omega)), Block.realloc_behind (by rw [h.size]; omega),
          eq_comm, List.getElem?_eq_none_iff] at hcell
        omega
      · rw [← hcells i hsent, Block.put_outside (.inl (by omega)),
          Block.realloc_front (by rw [h.size]; omega) (by rw [h.size]; omega)]
    · rw [readRest_fails h hp hhigh] at hfine
      exact absurd hfine not_fine_none
  · rw [readRest_short h hshort, fine_put] at hfine
    obtain ⟨hreply, htotal, hcells⟩ := hfine
    refine ⟨[], d.sent, (List.append_nil _).symm, Nat.zero_le _, hshort, by omega, hreply, ?_⟩
    exact fun i _ hi => hcells i hi

/-- Without a gap or a surplus in front of it there is no reply. -/
theorem readRest_not_fine (h : Behind s room) (hp : packetSize2 < 2 ^ 32) {data r : List UInt8}
    (hsent : d.sent = data ++ r) (hr : 0 < r.length)
    (hgap : (∃ i < s.packetSize1, s.buf.cell (4 + i) = none) ∨
      s.packetSize1 < data.length ∧ ∀ i, data.length ≤ i → s.packetSize1 + r.length ≤ i →
        s.buf.cell (4 + i) = none) : ¬ Fine (readRest s packetSize2 d) := by
  intro hfine
  obtain ⟨rest, sent, hrest, hle, hge, htotal, hreply, hcells⟩ := readRest_cells h hp hfine
  have hlen : sent.length = data.length + r.length + rest.length := by
    rw [hrest, hsent, List.length_append, List.length_append]
  rcases hgap with ⟨i, hi, hnone⟩ | ⟨hover, hnone⟩
  · have hcell := hcells i (by omega) (by omega)
    rw [hnone, eq_comm, List.getElem?_eq_none_iff] at hcell
    omega
  · have hcell := hcells (data.length + r.length - 1) (by omega) (by omega)
    rw [hnone _ (by omega) (by omega), eq_comm, List.getElem?_eq_none_iff] at hcell
    omega

theorem readSecond_none (h : Behind s room) (hpiece : d.piece room 0 = (none, d')) :
    readSecond s d = some (none, d') := by
  have hlow := h.low
  rw [readSecond, h.room_eq, int32, if_pos (by omega), readPtpPacket_none hpiece]
  rfl

theorem readSecond_some (h : Behind s room) {r : List UInt8}
    (hpiece : d.piece room 0 = (some r, d')) : readSecond s d =
      ((s.buf.put (4 + s.packetSize1) r).number (4 + s.packetSize1) 4).bind fun packetSize2 =>
        readRest { s with buf := s.buf.put (4 + s.packetSize1) r } packetSize2 d' := by
  have hlow := h.low
  rw [readSecond, h.room_eq, int32, if_pos (by omega),
    readPtpPacket_fits hpiece (by rw [h.size])]
  rfl

/-- What is asked of the response, once its first piece is known. -/
theorem answered_iff {data r : List UInt8} (hpiece : d.piece room 0 = (some r, d')) :
    Answered data room d ↔ IsPacket DATA data ∧ 4 ≤ r.length ∧
      (lengthField r ≤ room → IsPacket RESPONSE r) ∧
      (room < lengthField r → 4 + data.length + lengthField r < 2 ^ 31 ∧
        ∃ b d'', d'.piece (lengthField r - room) 0 = (some b, d'') ∧ IsPacket RESPONSE (r ++ b)) := by
  constructor
  · exact fun h => h r d' hpiece
  · intro h r' d'' hpiece'
    cases hpiece.symm.trans hpiece'
    exact h

theorem lengthField_lt (s : List UInt8) : lengthField s < 2 ^ 32 := by
  have hlen : (s.take 4).length ≤ 4 := List.length_take_le _ _
  exact (ofLe_lt _).trans_le (Nat.pow_le_pow_right (by decide) hlen)

/-- A response of which the rest is asked for. -/
theorem readRest_whole (h : Behind s room) {data r : List UInt8} (hfill : Filled s.buf (data ++ r))
    (hsent : d.sent = data ++ r) (hlen : data.length = s.packetSize1)
    (hfield : lengthField data = data.length) (h4 : 4 ≤ data.length) (hr : 4 ≤ r.length)
    (hroom : r.length ≤ room) (hover : room < lengthField r) :
    Fine (readRest s (lengthField r) d) ↔ IsPacket DATA data ∧
      4 + data.length + lengthField r < 2 ^ 31 ∧
        ∃ b d', d.piece (lengthField r - room) 0 = (some b, d') ∧ IsPacket RESPONSE (r ++ b) := by
  rcases Nat.lt_or_ge (4 + s.packetSize1 + lengthField r) (2 ^ 31) with hlow | hhigh
  case inr =>
    rw [readRest_fails h (lengthField_lt r) hhigh]
    exact iff_of_false not_fine_none fun hanswer => absurd hanswer.2.1 (by omega)
  rw [readRest_long h hover hlow]
  rcases hpiece : d.piece (lengthField r - room) 0 with ⟨_ | b, d'⟩
  · have hspec := (piece_spec d (lengthField r - room) 0).1
    rw [hpiece, Option.getD_none, List.append_nil] at hspec
    refine iff_of_false ?_ fun ⟨_, _, b, d'', hb, _⟩ => nomatch hb
    rw [fine_put, hspec, hsent, List.length_append]
    rintro ⟨-, htotal, -⟩
    omega
  · obtain ⟨-, hle, hsent'⟩ := piece_some hpiece
    rw [hsent, List.append_assoc] at hsent'
    have hfieldr := lengthField_append_right hr b
    have hreply := isReply_append h4 hfield (r := r ++ b) (by rw [List.length_append]; omega)
    constructor
    · rw [fine_put, hsent', hreply]
      rintro ⟨hboth, -, -⟩
      exact ⟨hboth.1, by omega, b, d', rfl, hboth.2⟩
    · rintro ⟨hdata, -, b', d'', hb, hresponse⟩
      cases hb
      have hwhole := hresponse.length
      rw [hfieldr, List.length_append] at hwhole
      have hsize := h.size
      have hfill' := (hfill.realloc (n := 4 + s.packetSize1 + lengthField r)
        (by rw [List.length_append]; omega) (by omega)).put b
      have hplace : 4 + (data ++ r).length = 4 + s.packetSize1 + room := by
        rw [List.length_append]
        omega
      rw [hplace, List.append_assoc, ← hsent'] at hfill'
      rw [Option.getD_some, hfill'.fine, hsent', hreply]
      refine ⟨⟨hdata, hresponse⟩, ?_⟩
      simp only [List.length_append]
      omega

/-- Behind a whole first packet. -/
theorem readSecond_whole (h : Behind s room) {data : List UInt8} (hfill : Filled s.buf data)
    (hsent : d.sent = data) (hlen : data.length = s.packetSize1)
    (hfield : lengthField data = data.length) (h4 : 4 ≤ data.length) :
    Fine (readSecond s d) ↔ Answered data room d := by
  rcases hpiece : d.piece room 0 with ⟨_ | r, d'⟩
  · rw [readSecond_none h hpiece]
    exact iff_of_true (fine_null d') fun r d'' hpiece' => nomatch hpiece.symm.trans hpiece'
  obtain ⟨hpos, hroom, hsent'⟩ := piece_some hpiece
  rw [hsent] at hsent'
  have hfill' := hfill.put r
  have hsize := h.size
  have hbehind := h.put r (4 + s.packetSize1) (by omega)
  rw [hlen] at hfill'
  rw [readSecond_some h hpiece, answered_iff hpiece]
  rcases Nat.lt_or_ge r.length 4 with hshort | hlong
  · have hnone : (s.buf.put (4 + s.packetSize1) r).cell (4 + s.packetSize1 + r.length) = none := by
      rw [Nat.add_assoc, hfill', List.getElem?_eq_none]
      rw [List.length_append, hlen]
    rw [Block.number_none hshort hnone]
    exact iff_of_false not_fine_none fun hanswer => absurd hanswer.2.1 (not_le.mpr hshort)
  have hnumber : (s.buf.put (4 + s.packetSize1) r).number (4 + s.packetSize1) 4 =
      some (lengthField r) := by
    rw [hfill'.number _ (by rw [List.length_append]; omega), ← hlen, List.drop_left]
    rfl
  rw [hnumber, Option.bind_some]
  rcases Nat.lt_or_ge room (lengthField r) with hover | hfits
  · rw [readRest_whole hbehind hfill' hsent' hlen hfield h4 hlong hroom hover]
    constructor
    · exact fun hfine => ⟨hfine.1, hlong, fun hfits => absurd hover (not_lt.mpr hfits),
        fun _ => hfine.2⟩
    · exact fun hanswer => ⟨hanswer.1, hanswer.2.2.2 hover⟩
  · rw [readRest_short hbehind hfits]
    rw [← hsent'] at hfill'
    rw [hfill'.fine, hsent', isReply_append h4 hfield hpos, List.length_append]
    constructor
    · exact fun hfine => ⟨hfine.1.1, hlong, fun _ => hfine.1.2,
        fun hover => absurd hfits (not_le.mpr hover)⟩
    · rintro ⟨hdata, -, hresponse, -⟩
      have hfieldr := (hresponse hfits).length
      dsimp only
      exact ⟨⟨hdata, hresponse hfits⟩, by omega⟩

/-- Behind a first packet with a gap, or with bytes of the response. -/
theorem readSecond_broken (h : Behind s room) (hnot : d.sent.length ≠ lengthField d.sent)
    (hgap : (∃ i < s.packetSize1, s.buf.cell (4 + i) = none) ∨
      s.packetSize1 < d.sent.length ∧ Filled s.buf d.sent) :
    Fine (readSecond s d) ↔ Answered d.sent room d := by
  rcases hpiece : d.piece room 0 with ⟨_ | r, d'⟩
  · rw [readSecond_none h hpiece]
    exact iff_of_true (fine_null d') fun r d'' hpiece' => nomatch hpiece.symm.trans hpiece'
  obtain ⟨hpos, hroom, hsent'⟩ := piece_some hpiece
  have hsize := h.size
  have hbehind := h.put r (4 + s.packetSize1) (by omega)
  rw [readSecond_some h hpiece, answered_iff hpiece]
  refine iff_of_false ?_ fun hanswer => hnot hanswer.1.length.symm
  cases hnumber : (s.buf.put (4 + s.packetSize1) r).number (4 + s.packetSize1) 4 with
  | none => exact not_fine_none
  | some packetSize2 =>
    apply readRest_not_fine hbehind (Block.number_lt hnumber) hsent' hpos
    rcases hgap with ⟨i, hi, hnone⟩ | ⟨hover, hfill⟩
    · left
      refine ⟨i, hi, ?_⟩
      rw [Block.put_outside (.inl (Nat.add_lt_add_left hi 4)), hnone]
    · right
      refine ⟨hover, fun i hdata hr => ?_⟩
      dsimp only at hr ⊢
      rw [Block.put_outside (.inr (by omega)), hfill, List.getElem?_eq_none hdata]

end EzpFirmware.Ddserver
