import EzpFirmware.Ddserver.Client

/-! # Packets that a client may send

The server checks none of the three lengths. A call is safe exactly if they fit
what was received.
-/
namespace EzpFirmware.Ddserver.Client
open Lib

variable {e : Meeting} {stream packet : List UInt8} {c : Communicator}

/-! ## Numbers of a packet -/

theorem fetch_natCast (packet : List UInt8) (offset width : ℕ) :
    fetch packet offset width =
      if offset + width ≤ packet.length then some (number packet offset width) else none := by
  have hinside : (0 ≤ (offset : ℤ) ∧ (offset : ℤ) + width ≤ packet.length) ↔
      offset + width ≤ packet.length := by omega
  simp only [fetch, hinside, Int.toNat_natCast]
  rfl

theorem fetch_inside {offset width : ℕ} (h : offset + width ≤ packet.length) :
    fetch packet offset width = some (number packet offset width) := by
  rw [fetch_natCast, if_pos h]

theorem fetch_outside {offset width : ℕ} (h : packet.length < offset + width) :
    fetch packet offset width = none := by
  rw [fetch_natCast, if_neg (not_le.mpr h)]

theorem number_lt (packet : List UInt8) (offset : ℕ) : number packet offset 4 < 2 ^ 32 := by
  have hlen : ((packet.drop offset).take 4).length ≤ 4 := List.length_take_le _ _
  exact (ofLe_lt _).trans_le (Nat.pow_le_pow_right (by decide) hlen)

theorem int32_of_lt {n : ℕ} (h : n < 2 ^ 31) : int32 n = n := by
  rw [int32, if_pos h]

theorem int32_neg {n : ℕ} (h : 2 ^ 31 ≤ n) (hlt : n < 2 ^ 32) : int32 n < 0 := by
  rw [int32, if_neg (not_lt.mpr h)]
  omega

/-- A range from the front of a packet. -/
theorem inside_front {n : ℕ} (hn : n < 2 ^ 32) (hlen : packet.length < 2 ^ 31) {start : ℕ} :
    Inside packet (start, int32 n) ↔ start + n ≤ packet.length := by
  rw [Inside]
  rcases Nat.lt_or_ge n (2 ^ 31) with hlow | hhigh
  · rw [int32_of_lt hlow]
    dsimp only
    omega
  · have hneg := int32_neg hhigh hn
    dsimp only
    omega

/-! ## What a packet leads to -/

/-- A result that meets what is asked for. -/
def Meets (packet : List UInt8) (o : Option Handled) : Prop :=
  ∃ h, o = some h ∧ (∀ t ∈ h.transfers, Inside packet t) ∧
    (packet.length < 8 ∨ packet.length < number packet 0 4 → h.result = false ∧ h.transfers = [])

theorem not_meets_none : ¬ Meets packet none := fun ⟨_, h, _⟩ => nomatch h

/-- A reply of the server with the session of the packet. -/
theorem meets_session (h8 : 8 ≤ packet.length) {f : ℕ → Handled}
    (hf : ∀ session, (f session).transfers = []) :
    Meets packet ((fetch packet 8 4).map f) ↔ PTP_HEADER ≤ packet.length ∧
      (packet.length < number packet 0 4 → (f (number packet 8 4)).result = false) := by
  rcases Nat.lt_or_ge packet.length (8 + 4) with hshort | hheader
  · have hsession : fetch packet 8 4 = none := fetch_outside hshort
    rw [hsession]
    exact iff_of_false not_meets_none fun h => absurd h.1 (not_le.mpr hshort)
  · have hsession : fetch packet 8 4 = some (number packet 8 4) := fetch_inside hheader
    rw [hsession, Option.map_some]
    constructor
    · rintro ⟨h, heq, -, hends⟩
      cases heq
      exact ⟨hheader, fun hlong => (hends (.inr hlong)).1⟩
    · rintro ⟨-, hends⟩
      refine ⟨_, rfl, ?_, ?_⟩
      · rw [hf]
        exact fun t ht => nomatch ht
      · exact fun hbad => ⟨hends (hbad.resolve_left (not_lt.mpr h8)), hf _⟩

/-- The command is handed out in any case. -/
theorem usb_command (h8 : 8 ≤ packet.length) {size : ℤ} {h : Handled}
    (hhandled : processUsbPacket e packet size c = some h) :
    (0, int32 (number packet 0 4)) ∈ h.transfers := by
  have hcommand : fetch packet 0 4 = some (number packet 0 4) :=
    fetch_inside (Nat.le_trans (by decide) h8)
  rw [processUsbPacket, hcommand, Option.bind_some] at hhandled
  dsimp only at hhandled
  split_ifs at hhandled with hsent hdata
  · obtain ⟨dataLen, -, rfl⟩ := Option.map_eq_some_iff.mp hhandled
    exact List.mem_cons_self
  · cases hhandled
    exact List.mem_singleton_self _
  · cases hhandled
    exact List.mem_singleton_self _

/-- A command that is sent, and data behind it. -/
theorem meets_usb (h8 : 8 ≤ packet.length) (hlen : packet.length < 2 ^ 31) :
    Meets packet (processUsbPacket e packet packet.length c) ↔ FitsUsb e packet := by
  have hcommand : fetch packet 0 4 = some (number packet 0 4) :=
    fetch_inside (Nat.le_trans (by decide) h8)
  have hfront : Inside packet (0, int32 (number packet 0 4)) ↔
      0 + number packet 0 4 ≤ packet.length := inside_front (number_lt packet 0) hlen
  rw [Nat.zero_add] at hfront
  by_cases hfits : number packet 0 4 ≤ packet.length
  case neg =>
    refine iff_of_false ?_ fun h => hfits h.1
    rintro ⟨h, hhandled, hin, -⟩
    exact hfits (hfront.mp (hin _ (usb_command h8 hhandled)))
  have hnot : ¬(packet.length < 8 ∨ packet.length < number packet 0 4) := by omega
  have hsize : int32 (number packet 0 4) = number packet 0 4 := int32_of_lt (by omega)
  have hone : ∀ result, Meets packet
      (some ⟨none, c, result, [(0, int32 (number packet 0 4))]⟩) := fun result =>
    ⟨_, rfl, List.forall_mem_singleton.mpr (hfront.mpr hfits), fun hbad => absurd hbad hnot⟩
  rw [processUsbPacket, hcommand, Option.bind_some]
  dsimp only
  split_ifs with hsent hdata
  · have hbehind : number packet 0 4 < packet.length := by
      rw [hsize] at hdata
      exact Int.ofNat_lt.mp hdata
    rw [hsize, fetch_natCast]
    split_ifs with hheader
    · have hrange : Inside packet (number packet 0 4, int32 (number packet (number packet 0 4) 4)) ↔
          number packet 0 4 + number packet (number packet 0 4) 4 ≤ packet.length :=
        inside_front (number_lt packet _) hlen
      rw [hsize] at hfront
      constructor
      · rintro ⟨h, heq, hin, -⟩
        cases heq
        have hdataIn := hrange.mp (hin _ (List.mem_cons_of_mem _ (List.mem_singleton_self _)))
        exact ⟨hfits, fun _ _ => ⟨hheader, hdataIn⟩⟩
      · intro h
        refine ⟨_, rfl, ?_, fun hbad => absurd hbad hnot⟩
        exact List.forall_mem_cons.mpr ⟨hfront.mpr hfits,
          List.forall_mem_singleton.mpr (hrange.mpr (h.2 hsent hbehind).2)⟩
    · refine iff_of_false not_meets_none fun h => hheader (h.2 hsent hbehind).1
  · have hexact : ¬ number packet 0 4 < packet.length := by
      rw [hsize] at hdata
      exact fun hlt => hdata (Int.ofNat_lt.mpr hlt)
    exact iff_of_true (hone _) ⟨hfits, fun _ hlt => absurd hlt hexact⟩
  · exact iff_of_true (hone _) ⟨hfits, fun hsent' => absurd hsent' hsent⟩

/-- The selection of a camera, with the two ids in the packet. -/
theorem meets_select (h8 : 8 ≤ packet.length) :
    Meets packet ((fetch packet PTP_HEADER 4).bind fun vendorId =>
      (fetch packet (PTP_HEADER + 4) 4).bind fun productId => (fetch packet 8 4).map fun session =>
        ⟨some (initiateUsbConnection vendorId productId session e.devs c).1,
          (initiateUsbConnection vendorId productId session e.devs c).2,
          (initiateUsbConnection vendorId productId session e.devs c).2.isInitialized, []⟩) ↔
      PTP_HEADER + 8 ≤ packet.length ∧ (packet.length < number packet 0 4 →
        (initiateUsbConnection (number packet PTP_HEADER 4) (number packet (PTP_HEADER + 4) 4)
          (number packet 8 4) e.devs c).2.isInitialized = false) := by
  rcases Nat.lt_or_ge packet.length (PTP_HEADER + 4 + 4) with hshort | hlong
  · have hproduct : fetch packet (PTP_HEADER + 4) 4 = none := fetch_outside hshort
    rw [hproduct]
    refine iff_of_false ?_ fun h => absurd h.1 (not_le.mpr hshort)
    cases fetch packet PTP_HEADER 4 <;> exact not_meets_none
  · have hvendor : fetch packet PTP_HEADER 4 = some (number packet PTP_HEADER 4) :=
      fetch_inside (Nat.le_trans (by decide) hlong)
    have hproduct : fetch packet (PTP_HEADER + 4) 4 = some (number packet (PTP_HEADER + 4) 4) :=
      fetch_inside hlong
    rw [hvendor, hproduct, Option.bind_some, Option.bind_some, meets_session h8 fun _ => rfl]
    have hheader : PTP_HEADER ≤ packet.length := Nat.le_trans (by decide) hlong
    exact and_congr_left fun _ => iff_of_true hheader hlong

theorem fitsServer_select (hselect : number packet 6 2 = 0x0001) (hidle : c.isInitialized = false) :
    FitsServer e packet c ↔ PTP_HEADER ≤ packet.length ∧
      (PTP_HEADER + 8 ≤ number packet 0 4 → PTP_HEADER + 8 ≤ packet.length) ∧
      (packet.length < number packet 0 4 → number packet 0 4 < PTP_HEADER + 8 ∨
        (initiateUsbConnection (number packet PTP_HEADER 4) (number packet (PTP_HEADER + 4) 4)
          (number packet 8 4) e.devs c).2.isInitialized = false) := by
  simp [FitsServer, hselect, hidle]

/-- A packet that is received whole. -/
theorem meets_packet (hlen : packet.length < 2 ^ 31) :
    Meets packet (processPacket e packet packet.length c) ↔ 8 ≤ packet.length ∧
      (ForCamera packet c → FitsUsb e packet) ∧ (¬ ForCamera packet c → FitsServer e packet c) := by
  rcases Nat.lt_or_ge packet.length (6 + 2) with hshort | h8
  · have hcommand : fetch packet 6 2 = none := fetch_outside hshort
    rw [processPacket, hcommand]
    exact iff_of_false not_meets_none fun h => absurd h.1 (not_le.mpr hshort)
  · have hcommand : fetch packet 6 2 = some (number packet 6 2) := fetch_inside h8
    have hself : fetch packet 0 4 = some (number packet 0 4) :=
      fetch_inside (Nat.le_trans (by decide) h8)
    rw [processPacket, hcommand, Option.bind_some, and_iff_right h8]
    split_ifs with hselect hopen hlist hclose hcamera
    · rw [respond, meets_session h8 fun _ => rfl]
      simp [ForCamera, FitsServer, hselect, hopen]
    · have hfor : ¬ ForCamera packet c := fun h => hopen h.2
      have hrhs : ((ForCamera packet c → FitsUsb e packet) ∧
          (¬ ForCamera packet c → FitsServer e packet c)) ↔ FitsServer e packet c :=
        ⟨fun h => h.2 hfor, fun h => ⟨fun h' => absurd h' hfor, fun _ => h⟩⟩
      rw [hrhs, fitsServer_select hselect (Bool.eq_false_iff.mpr hopen), hself, Option.bind_some]
      split_ifs with hids
      · refine (meets_select h8).trans ?_
        have hnot : ¬ number packet 0 4 < PTP_HEADER + 8 := not_lt.mpr hids
        simp only [hids, hnot, true_implies, false_or]
        constructor
        · exact fun h => ⟨Nat.le_trans (by decide) h.1, h.1, h.2⟩
        · exact fun h => h.2
      · rw [respond, meets_session h8 fun _ => rfl]
        simp only [hids, not_le.mp hids, false_implies, true_or, implies_true, and_true]
    · rw [meets_session h8 fun _ => rfl]
      simp [ForCamera, FitsServer, hlist]
    · rw [respond, meets_session h8 fun _ => rfl]
      simp [ForCamera, FitsServer, hclose]
    · have hfor : ForCamera packet c := ⟨by simp [hselect, hlist, hclose], hcamera⟩
      rw [meets_usb h8 hlen]
      exact ⟨fun h => ⟨fun _ => h, fun hnot => absurd hfor hnot⟩, fun h => h.1 hfor⟩
    · rw [respond, meets_session h8 fun _ => rfl]
      simp [ForCamera, FitsServer, hselect, hclose, hcamera]

/-! ## The server behind it -/

section
variable {devs : List UsbDevice} {behind : List UInt8} {stale : ℕ → UInt8}

/-- What was received is what the server reads. -/
theorem number_of_fetch {offset width n : ℕ} (h : fetch packet offset width = some n) :
    Incoming.number ⟨packet, devs, true, behind, stale⟩ offset width = n := by
  rw [fetch_natCast, Option.ite_none_right_eq_some] at h
  obtain ⟨hin, hn⟩ := h
  have hroom : width ≤ (packet.drop offset).length := by
    rw [List.length_drop]
    omega
  have hread : Incoming.number ⟨packet, devs, true, behind, stale⟩ offset width =
      ofLe (((packet ++ behind).drop offset).take width) := rfl
  rw [hread, List.drop_append_of_le_length (by omega), List.take_append_of_le_length hroom,
    ← Option.some.inj hn, number]

variable (devs behind stale) in
theorem respond_eq {code : ℕ} {result : Bool} {h : Handled}
    (hreply : respond packet code c result = some h) :
    h = ⟨some (sendResponsePacket code (Incoming.sessionId ⟨packet, devs, true, behind, stale⟩)), c,
      result, []⟩ := by
  obtain ⟨session, hsession, rfl⟩ := Option.map_eq_some_iff.mp hreply
  have hnum : Incoming.sessionId ⟨packet, devs, true, behind, stale⟩ = session :=
    number_of_fetch hsession
  rw [hnum]

/-- With libusb up, a packet that is not for the camera is handled as by the server. -/
theorem processPacket_eq (usb : Incoming → Communicator → Processed) {size : ℤ} {h : Handled}
    (hctx : c.mCtx = true) (hserver : ¬ ForCamera packet c)
    (hhandled : processPacket e packet size c = some h) :
    Ddserver.processPacket usb ⟨packet, e.devs, true, behind, e.stale⟩ c =
      some ⟨h.reply, h.state, h.result⟩ := by
  obtain ⟨command, hcommand, hhandled⟩ := Option.bind_eq_some_iff.mp hhandled
  have hnumber : number packet 6 2 = command := by
    have hfetch : fetch packet 6 2 = _ := fetch_natCast packet 6 2
    rw [hcommand] at hfetch
    exact (Option.some.inj (Option.ite_none_right_eq_some.mp hfetch.symm).2 :)
  have hread : Incoming.packetCommand ⟨packet, e.devs, true, behind, e.stale⟩ = command :=
    number_of_fetch hcommand
  have hset : Incoming.listSet ⟨packet, e.devs, true, behind, e.stale⟩ c = true := by
    simp [Incoming.listSet, hctx]
  rw [Ddserver.processPacket, hread]
  split_ifs at hhandled with hselect hopen hlist hclose hcamera
  · subst hselect
    rw [respond_eq e.devs behind e.stale hhandled]
    simp only [hopen, if_true]
  · subst hselect
    obtain ⟨len, hlen, hhandled⟩ := Option.bind_eq_some_iff.mp hhandled
    have hown : Incoming.packetLen ⟨packet, e.devs, true, behind, e.stale⟩ = len :=
      number_of_fetch hlen
    simp only [hopen, hown]
    split_ifs at hhandled with hids
    · obtain ⟨vendorId, hvendor, hhandled⟩ := Option.bind_eq_some_iff.mp hhandled
      obtain ⟨productId, hproduct, hhandled⟩ := Option.bind_eq_some_iff.mp hhandled
      obtain ⟨session, hsession, rfl⟩ := Option.map_eq_some_iff.mp hhandled
      have hnumbers :
          Incoming.number ⟨packet, e.devs, true, behind, e.stale⟩ PTP_HEADER 4 = vendorId ∧
          Incoming.number ⟨packet, e.devs, true, behind, e.stale⟩ (PTP_HEADER + 4) 4 = productId ∧
          Incoming.sessionId ⟨packet, e.devs, true, behind, e.stale⟩ = session :=
        ⟨number_of_fetch hvendor, number_of_fetch hproduct, number_of_fetch hsession⟩
      simp only [hids, hnumbers, hset, if_true]
      rfl
    · rw [respond_eq e.devs behind e.stale hhandled]
      simp only [hids, if_false]
      rfl
  · subst hlist
    obtain ⟨session, hsession, rfl⟩ := Option.map_eq_some_iff.mp hhandled
    have hnum : Incoming.sessionId ⟨packet, e.devs, true, behind, e.stale⟩ = session :=
      number_of_fetch hsession
    rw [← hnum]
    exact if_pos hset
  · subst hclose
    rw [respond_eq e.devs behind e.stale hhandled]
    rfl
  · exact absurd ⟨by simp [hnumber, hselect, hlist, hclose], hcamera⟩ hserver
  · rw [respond_eq e.devs behind e.stale hhandled]
    simp [hcamera]

end

/-! ## A call -/

theorem lengthRead_lt {packetSize : ℕ} (h : lengthRead e stream = some packetSize) :
    packetSize < 2 ^ 32 := by
  obtain ⟨bs, -, hbs⟩ := Option.bind_eq_some_iff.mp h
  rw [Option.ite_none_right_eq_some] at hbs
  obtain ⟨hlen, hsize⟩ := hbs
  have hlt := ofLe_lt bs
  rw [hlen] at hlt
  rw [← Option.some.inj hsize]
  exact hlt.trans_eq (by decide)

/-- A read that gives something has a block to read into. -/
theorem received_some {packetSize : ℕ} (h : received e packetSize stream = some packet) :
    payload packetSize < 2 ^ 31 ∨ packet = [] := by
  rw [received, readPacket] at h
  split_ifs at h with hblock hend
  · exact .inl hblock
  · obtain ⟨_, -, rfl⟩ := Option.map_eq_some_iff.mp h
    exact .inr rfl

/-- The comparison of the two lengths is met by a whole packet, and by a failure for a length of
three. -/
theorem matched_iff {packetSize : ℕ} (h : packetSize < 2 ^ 32) :
    unsigned (received e packetSize stream) = payload packetSize ↔
      (packetSize = 3 ∧ received e packetSize stream = none) ∨
        ∃ packet, received e packetSize stream = some packet ∧ packet.length + 4 = packetSize := by
  cases hread : received e packetSize stream with
  | none =>
    have hsize : 2 ^ 32 - 1 = payload packetSize ↔ packetSize = 3 := by
      rw [payload]
      omega
    simpa [unsigned] using hsize
  | some bs =>
    have hroom := received_some hread
    have hsize : bs.length = payload packetSize ↔ bs.length + 4 = packetSize := by
      rw [payload] at hroom ⊢
      rcases hroom with hroom | rfl
      · omega
      · rw [List.length_nil]
        omega
    simpa [unsigned] using hsize

theorem Whole.short (h : Whole e stream packet) : packet.length < 2 ^ 31 := by
  obtain ⟨packetSize, hlength, hread, hlen⟩ := h
  have hlt := lengthRead_lt hlength
  rcases received_some hread with hroom | rfl
  · rw [payload] at hroom
    omega
  · rw [List.length_nil]
    decide

theorem Whole.eq {packet' : List UInt8} (h : Whole e stream packet) (h' : Whole e stream packet') :
    packet = packet' := by
  obtain ⟨n, hlength, hread, -⟩ := h
  obtain ⟨n', hlength', hread', -⟩ := h'
  cases hlength.symm.trans hlength'
  exact Option.some.inj (hread.symm.trans hread')

/-- A whole packet is malformed if its own length is, or that in front of it. -/
theorem Whole.malformed_iff (h : Whole e stream packet) :
    Malformed e stream ↔ packet.length < 8 ∨ packet.length < number packet 0 4 := by
  obtain ⟨packetSize, hlength, -, hlen⟩ := id h
  constructor
  · rintro (⟨n, hn, hshort⟩ | hnone | ⟨packet', h', hlong⟩)
    · cases hlength.symm.trans hn
      rw [PTP_HEADER] at hshort
      omega
    · exact absurd ⟨packet, h⟩ hnone
    · rw [h.eq h']
      exact .inr hlong
  · rintro (hshort | hlong)
    · exact .inl ⟨packetSize, hlength, by rw [PTP_HEADER]; omega⟩
    · exact .inr (.inr ⟨packet, h, hlong⟩)

/-- A whole packet is handed on. -/
theorem Whole.readFromClient (h : Whole e stream packet) : readFromClient e stream c =
    (processPacket e packet packet.length c).map (Prod.mk packet) := by
  obtain ⟨packetSize, hlength, hread, hlen⟩ := id h
  have hmatch := (matched_iff (lengthRead_lt hlength)).mpr (.inr ⟨packet, hread, hlen⟩)
  have hsize : payload packetSize = packet.length := by
    rw [← hmatch, hread]
    rfl
  rw [Client.readFromClient, hlength]
  dsimp only
  rw [if_pos hmatch, hread, Option.getD_some, hsize, int32_of_lt h.short]

/-- Without a whole packet the connection ends, but for a failed read behind a length of three. -/
theorem readFromClient_ends (h : ¬ ∃ packet, Whole e stream packet)
    (h3 : lengthRead e stream = some 3 → received e 3 stream ≠ none) :
    ∃ packet, Client.readFromClient e stream c = some (packet, ⟨none, c, false, []⟩) := by
  rw [Client.readFromClient]
  cases hlength : lengthRead e stream with
  | none => exact ⟨[], rfl⟩
  | some packetSize =>
    refine ⟨_, if_neg fun hmatch => ?_⟩
    rcases (matched_iff (lengthRead_lt hlength)).mp hmatch with ⟨rfl, hfailed⟩ | ⟨packet, hread, hlen⟩
    · exact h3 hlength hfailed
    · exact h ⟨packet, packetSize, hlength, hread, hlen⟩

/-- A failed read behind a length of three leads to a packet that there is not. -/
theorem readFromClient_three (h : lengthRead e stream = some 3) (hread : received e 3 stream = none) :
    Client.readFromClient e stream c = none := by
  have hmatch := (matched_iff (lengthRead_lt h)).mpr (.inl ⟨rfl, hread⟩)
  have hcommand : fetch [] 6 2 = none := fetch_outside (by decide)
  rw [Client.readFromClient, h]
  dsimp only
  rw [if_pos hmatch, hread, Option.getD_none, processPacket, hcommand]
  rfl

theorem Whole.safe_iff (h : Whole e stream packet) :
    Safe e stream c ↔ Meets packet (processPacket e packet packet.length c) := by
  rw [Safe, h.readFromClient, h.malformed_iff]
  constructor
  · rintro ⟨packet', handled, hread, hin, hends⟩
    obtain ⟨_, hhandled, heq⟩ := Option.map_eq_some_iff.mp hread
    cases heq
    exact ⟨handled, hhandled, hin, hends⟩
  · rintro ⟨handled, hhandled, hin, hends⟩
    exact ⟨packet, handled, by rw [hhandled]; rfl, hin, hends⟩

theorem Whole.fits_iff (h : Whole e stream packet) :
    Fits e stream c ↔ 8 ≤ packet.length ∧ (ForCamera packet c → FitsUsb e packet) ∧
      (¬ ForCamera packet c → FitsServer e packet c) := by
  constructor
  · exact fun hfits => hfits.2 packet h
  · intro hfits
    refine ⟨fun h3 => ?_, fun packet' h' => h.eq h' ▸ hfits⟩
    obtain ⟨packetSize, hlength, -, hlen⟩ := h
    cases hlength.symm.trans h3
    omega

/-- A call is safe exactly if what the client sent fits. -/
theorem safe_iff (e : Meeting) (stream : List UInt8) (c : Communicator) :
    Safe e stream c ↔ Fits e stream c := by
  by_cases hwhole : ∃ packet, Whole e stream packet
  · obtain ⟨packet, hwhole⟩ := hwhole
    rw [hwhole.safe_iff, hwhole.fits_iff, meets_packet hwhole.short]
  · by_cases h3 : lengthRead e stream = some 3 → received e 3 stream ≠ none
    · obtain ⟨packet, hread⟩ := readFromClient_ends (c := c) hwhole h3
      refine iff_of_true ⟨packet, _, hread, fun t ht => (nomatch ht), fun _ => ⟨rfl, rfl⟩⟩ ⟨h3, ?_⟩
      exact fun packet' hpacket' => absurd ⟨packet', hpacket'⟩ hwhole
    · refine iff_of_false ?_ fun hfits => h3 hfits.1
      rintro ⟨packet, handled, hread, -⟩
      simp only [ne_eq, Classical.not_imp, not_not] at h3
      rw [readFromClient_three h3.1 h3.2] at hread
      cases hread

/-! ## A connection -/

/-- **Every call of a connection is safe exactly if what the client sends fits in each of them.** -/
theorem calls_safe_iff (es : List Meeting) (stream : List UInt8) (c : Communicator) :
    (∀ call ∈ calls es stream c, Safe call.1 call.2.1 call.2.2) ↔
      ∀ call ∈ calls es stream c, Fits call.1 call.2.1 call.2.2 :=
  forall₂_congr fun call _ => safe_iff call.1 call.2.1 call.2.2

/-- A call in which all that is there is read, and nothing is on the bus. -/
def prompt : Meeting := ⟨some 4, some 64, [], fun _ => 0, true, true, true⟩

/-- A length of four and no packet behind it: a command is read that was not received. -/
theorem empty_packet_unsafe :
    ¬ ∀ call ∈ calls [prompt] [4, 0, 0, 0] ⟨true, false, false, -1, 0, 0⟩,
      Safe call.1 call.2.1 call.2.2 := by
  intro h
  have hsafe := h _ List.mem_cons_self
  rw [safe_iff] at hsafe
  have hwhole : Whole prompt [4, 0, 0, 0] [] := ⟨4, by decide, by decide, by decide⟩
  exact absurd (hsafe.2 [] hwhole).1 (by decide)

end EzpFirmware.Ddserver.Client
