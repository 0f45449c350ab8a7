import EzpFirmware.Lib.Streams
import EzpFirmware.Ddserver.Communicator

/-! # Framing of the replies

A reader that follows the outer length and one that follows the lengths of the
PTP packets inside stay in step as long as every reply is framed. All replies
are, except a list with devices: the two bytes of its count are counted twice.
-/
namespace EzpFirmware.Ddserver
open Lib

/-- The number in front of a message or a packet. -/
def lengthField (s : List UInt8) : ℕ := ofLe (s.take 4)

/-- The outer length is the number of bytes, and the rest is tiled by packets whose lengths are
right. -/
structure Framed (reply : List UInt8) : Prop where
  outer : 4 ≤ reply.length
  length : lengthField reply = reply.length
  tiled : (chunks PTP_HEADER lengthField (reply.drop 4)).isSome

/-- Every reply is framed, and a reader that follows the outer lengths takes the stream apart at the
ends of the replies. -/
def InStep (replies : List (List UInt8)) : Prop :=
  (∀ r ∈ replies, Framed r) ∧ chunks 4 lengthField replies.flatten = some replies

theorem lengthField_append (n : ℕ) (r : List UInt8) :
    lengthField (leBytes 4 n ++ r) = n % 2 ^ 32 := by
  have h4 : (leBytes 4 n).length = 4 := leBytes_length 4 n
  rw [lengthField, List.take_append_of_le_length h4.ge, List.take_of_length_le h4.le, ofLe_leBytes]
  rfl

theorem lengthField_append_right {p : List UInt8} (hp : 4 ≤ p.length) (r : List UInt8) :
    lengthField (p ++ r) = lengthField p := by
  rw [lengthField, List.take_append_of_le_length hp, lengthField]

/-- Framed replies are taken apart again. -/
theorem inStep_of_framed {replies : List (List UInt8)} (h : ∀ r ∈ replies, Framed r) :
    InStep replies := by
  refine ⟨h, chunks_flatten (by decide) fun r hr => ⟨(h r hr).outer, fun rest => ?_⟩⟩
  rw [lengthField_append_right (h r hr).outer, (h r hr).length]

@[simp] theorem ptpPacket_length (size type command session : ℕ) :
    (ptpPacket size type command session).length = 12 := by
  simp [ptpPacket]

theorem lengthField_ptpPacket (size type command session : ℕ) (r : List UInt8) :
    lengthField (ptpPacket size type command session ++ r) = size % 2 ^ 32 := by
  rw [ptpPacket, List.append_assoc, List.append_assoc, List.append_assoc, lengthField_append]

/-- A packet with its right length is read first. -/
theorem chunks_ptpPacket {n t c s : ℕ} {p r : List UInt8} (hn : n = PTP_HEADER + p.length)
    (hlt : n < 2 ^ 32) :
    chunks PTP_HEADER lengthField (ptpPacket n t c s ++ p ++ r) =
      (chunks PTP_HEADER lengthField r).map ((ptpPacket n t c s ++ p) :: ·) := by
  have hlen : (ptpPacket n t c s ++ p).length = n := by
    rw [List.length_append, ptpPacket_length, hn, PTP_HEADER]
  apply chunks_append (by decide)
  · rw [List.append_assoc, lengthField_ptpPacket, Nat.mod_eq_of_lt hlt, hlen]
  · rw [hlen, hn]
    omega

/-- A message whose outer length is right is framed exactly if its packets tile it. -/
theorem framed_message_iff {n : ℕ} {body : List UInt8} (hn : n = 4 + body.length) :
    Framed (leBytes 4 n ++ body) ↔ n < 2 ^ 32 ∧ (chunks PTP_HEADER lengthField body).isSome := by
  have hlen : (leBytes 4 n ++ body).length = n := by simp [hn]
  have hdrop : (leBytes 4 n ++ body).drop 4 = body := List.drop_left' (leBytes_length 4 n)
  constructor
  · intro h
    have hmod := h.length
    rw [lengthField_append, hlen] at hmod
    exact ⟨by omega, hdrop ▸ h.tiled⟩
  · rintro ⟨hlt, htiled⟩
    exact ⟨by omega, by rw [lengthField_append, hlen, Nat.mod_eq_of_lt hlt], hdrop.symm ▸ htiled⟩

theorem sendResponsePacket_eq (code session : ℕ) :
    sendResponsePacket code session = leBytes 4 16 ++ ptpPacket 12 3 code session := by
  simp only [sendResponsePacket, setPtpHeader, PTP_HEADER]
  rw [poke_zero, poke_fill (by simp)]
  simp

theorem sendResponsePacket_framed (code session : ℕ) : Framed (sendResponsePacket code session) := by
  have hsize : 12 = PTP_HEADER + ([] : List UInt8).length := rfl
  have htiled := @chunks_ptpPacket 12 3 code session [] [] hsize (by decide)
  rw [List.append_nil, List.append_nil] at htiled
  rw [sendResponsePacket_eq, framed_message_iff (by simp), htiled]
  exact ⟨by decide, rfl⟩

/-- The reply to a selection that opens a device holds its ids and a response. -/
theorem initiateUsbConnection_framed (vendorId productId sessionId : ℕ) (devs : List UsbDevice)
    (c : Communicator) : Framed (initiateUsbConnection vendorId productId sessionId devs c).1 := by
  unfold initiateUsbConnection
  dsimp only
  generalize openUsbDevice (UInt16.ofNat vendorId) (UInt16.ofNat productId) devs c = c'
  split_ifs with hopen
  · dsimp only [setPtpHeader, PTP_HEADER]
    rw [poke_zero, poke_fill (by simp), poke_fill (by simp), poke_fill (by simp),
      poke_fill (by simp)]
    let ids := leBytes 2 c'.mVendorId.toNat ++ leBytes 2 c'.mProductId.toNat
    have hids : 16 = PTP_HEADER + ids.length := by simp [ids, PTP_HEADER]
    have htiled := chunks_ptpPacket hids (by decide) (t := 2) (c := 1) (s := sessionId)
      (r := ptpPacket 12 3 0x2001 sessionId)
    have hlast := @chunks_ptpPacket 12 3 0x2001 sessionId [] [] rfl (by decide)
    rw [List.append_nil, List.append_nil] at hlast
    have hbytes : leBytes 4 (4 + 4 + 12 * 2) ++ ptpPacket (12 + 4) 2 1 sessionId ++
        leBytes 2 c'.mVendorId.toNat ++ leBytes 2 c'.mProductId.toNat ++
        ptpPacket 12 3 0x2001 sessionId =
          leBytes 4 32 ++ (ptpPacket 16 2 1 sessionId ++ ids ++ ptpPacket 12 3 0x2001 sessionId) := by
      simp [ids]
    simp only [List.drop_replicate, leBytes_length, ptpPacket_length]
    rw [hbytes, List.replicate_zero, List.append_nil, framed_message_iff (by simp [ids]), htiled,
      hlast]
    exact ⟨by decide, rfl⟩
  · exact sendResponsePacket_framed _ _

/-- The bytes of a device in the list. -/
def ImagingUsbDevice.bytes (d : ImagingUsbDevice) : List UInt8 :=
  leBytes 2 d.iVendorId.toNat ++ leBytes 2 d.iProductId.toNat ++ d.iVendorName.stored ++
    d.iProductName.stored

theorem ImagingUsbDevice.bytes_length (d : ImagingUsbDevice) : d.bytes.length = d.listLen := by
  simp only [bytes, listLen, List.length_append, leBytes_length, CStr.stored_length]
  omega

theorem flatMap_bytes_length (ds : List ImagingUsbDevice) :
    (ds.flatMap ImagingUsbDevice.bytes).length = (ds.map ImagingUsbDevice.listLen).sum := by
  induction ds with
  | nil => rfl
  | cons d ds ih =>
    rw [List.flatMap_cons, List.length_append, d.bytes_length, ih, List.map_cons, List.sum_cons]

/-- The devices are written one behind the other. -/
theorem writeDevices_eq (ds : List ImagingUsbDevice) {a b : List UInt8} {offset : ℕ}
    (h : offset = a.length) :
    writeDevices ds (a ++ b) offset =
      (a ++ ds.flatMap ImagingUsbDevice.bytes ++ b.drop (ds.map ImagingUsbDevice.listLen).sum,
        offset + (ds.map ImagingUsbDevice.listLen).sum) := by
  induction ds generalizing a b offset with
  | nil => simp [writeDevices]
  | cons d ds ih =>
    have hcut : b.drop (2 + 2 + (d.iVendorName.len + 1) + (d.iProductName.len + 1)) =
        b.drop d.listLen := by
      congr 1
    have hbytes : a ++ leBytes 2 d.iVendorId.toNat ++ leBytes 2 d.iProductId.toNat ++
        d.iVendorName.stored ++ d.iProductName.stored = a ++ d.bytes := by
      simp [ImagingUsbDevice.bytes]
    have hoffset : offset + 4 + (d.iVendorName.len + 1) + (d.iProductName.len + 1) =
        (a ++ d.bytes).length := by
      rw [List.length_append, d.bytes_length, ImagingUsbDevice.listLen, h]
      omega
    rw [writeDevices, poke_fill h, poke_fill (by simp [h]), poke_fill (by simp [h]),
      poke_fill (by simp [h]; omega)]
    simp only [List.drop_drop, leBytes_length, CStr.stored_length]
    rw [hcut, hbytes, ih hoffset, List.flatMap_cons, List.map_cons, List.sum_cons, hoffset]
    simp [d.bytes_length, h, Nat.add_assoc]

/-- A list with devices ends in two bytes that nobody wrote. -/
theorem sendUsbDeviceList_eq (sessionId : ℕ) (devs : List UsbDevice) (stale : ℕ → UInt8)
    (c : Communicator) (h : imgUsbDevices devs c ≠ []) :
    ∃ (n : ℕ) (list rest : List UInt8), rest.length = 2 ∧ n = 30 + list.length ∧
      sendUsbDeviceList sessionId devs stale c =
        leBytes 4 n ++ (ptpPacket (list.length + 12) 2 2 sessionId ++ list ++
          (ptpPacket 12 3 0x2001 sessionId ++ rest)) := by
  have hpos : 0 < (imgUsbDevices devs c).length := List.length_pos_iff.mpr h
  unfold sendUsbDeviceList
  dsimp only
  rw [if_pos hpos]
  generalize imgUsbDevices devs c = ds
  let list := leBytes 2 ds.length ++ ds.flatMap ImagingUsbDevice.bytes
  have hlist : list.length = 2 + (ds.map ImagingUsbDevice.listLen).sum := by
    rw [List.length_append, leBytes_length, flatMap_bytes_length]
  rw [← hlist]
  dsimp only [setPtpHeader, PTP_HEADER]
  rw [poke_zero, poke_fill (by simp), poke_fill (by simp), writeDevices_eq ds (by simp)]
  dsimp only
  have hoffset : 4 + 12 + 2 + (ds.map ImagingUsbDevice.listLen).sum =
      (leBytes 4 (4 + 2 + 12 * 2 + list.length) ++ ptpPacket (list.length + 12) 2 2 sessionId ++
        leBytes 2 ds.length ++ ds.flatMap ImagingUsbDevice.bytes).length := by
    simp only [List.length_append, flatMap_bytes_length, leBytes_length, ptpPacket_length]
  rw [poke_fill hoffset]
  simp only [List.drop_drop, leBytes_length, ptpPacket_length]
  refine ⟨30 + list.length, list, (tabulate (30 + list.length) stale).drop (28 + list.length), ?_,
    rfl, ?_⟩
  · rw [List.length_drop, tabulate_length]
    omega
  · have hn : 4 + 2 + 12 * 2 + list.length = 30 + list.length := by omega
    have hrest : 4 + 12 + 2 + (ds.map ImagingUsbDevice.listLen).sum + 12 = 28 + list.length := by
      omega
    rw [hn, hrest]
    simp [list]

/-- A list is framed exactly if there is no device in it. -/
theorem sendUsbDeviceList_framed_iff (sessionId : ℕ) (devs : List UsbDevice) (stale : ℕ → UInt8)
    (c : Communicator) :
    Framed (sendUsbDeviceList sessionId devs stale c) ↔ imgUsbDevices devs c = [] := by
  by_cases h : imgUsbDevices devs c = []
  · have hreply : sendUsbDeviceList sessionId devs stale c = sendResponsePacket 0x2002 sessionId := by
      simp [sendUsbDeviceList, h]
    rw [hreply]
    exact iff_of_true (sendResponsePacket_framed _ _) h
  · refine iff_of_false ?_ h
    rcases sendUsbDeviceList_eq sessionId devs stale c h with ⟨n, list, rest, hrest, hn, heq⟩
    rw [heq, framed_message_iff (by simp [hn, hrest]; omega)]
    rintro ⟨hlt, htiled⟩
    have hne : rest ≠ [] := List.ne_nil_of_length_pos (by omega)
    have hlast := @chunks_ptpPacket 12 3 0x2001 sessionId [] rest rfl (by decide)
    rw [List.append_nil] at hlast
    rw [chunks_ptpPacket (by rw [PTP_HEADER]; omega) (by omega), hlast,
      chunks_short hne (by rw [hrest, PTP_HEADER]; decide)] at htiled
    exact Bool.noConfusion htiled

/-! ## A whole connection -/

/-- A device selection, a device list or a close. -/
def Incoming.Basic (m : Incoming) : Prop :=
  m.packetCommand = 0x0001 ∨ m.packetCommand = 0x0002 ∨ m.packetCommand = 0x0003

instance (m : Incoming) : Decidable m.Basic := inferInstanceAs (Decidable (_ ∨ _ ∨ _))

/-- A device list is asked for, and there is an imaging device. -/
def Incoming.ListsDevices (m : Incoming) (c : Communicator) : Prop :=
  m.packetCommand = 0x0002 ∧ imgUsbDevices m.devs c ≠ []

/-- The devices are looked for, for a list or for a selection. -/
def Incoming.Looks (m : Incoming) (c : Communicator) : Prop :=
  m.packetCommand = 0x0002 ∨
    m.packetCommand = 0x0001 ∧ c.isInitialized = false ∧ PTP_HEADER + 8 ≤ m.packetLen

/-- A request that is replied to as it should be: it lists no devices, and where they are looked for
libusb gives them. -/
def Incoming.Fine (m : Incoming) (c : Communicator) : Prop :=
  ¬ m.ListsDevices c ∧ (m.Looks c → m.listSet c = true)

section
variable (usb : Incoming → Communicator → Processed) {m : Incoming} (hm : m.Basic)
  (c : Communicator)
include hm

/-- One step: a request has a framed reply exactly if it is fine. -/
theorem processPacket_framed_iff :
    (∃ r, (processPacket usb m c).bind Processed.reply = some r ∧ Framed r) ↔ m.Fine c := by
  unfold Incoming.Fine Incoming.ListsDevices Incoming.Looks processPacket
  rcases hm with h | h | h <;> simp only [h]
  · split_ifs with hopen hlong hset
    · exact iff_of_true ⟨_, rfl, sendResponsePacket_framed _ _⟩ (by simp [hopen])
    · exact iff_of_true ⟨_, rfl, initiateUsbConnection_framed _ _ _ _ _⟩ (by simp [hset])
    · exact iff_of_false (by simp) (by simp [hopen, hlong, hset])
    · exact iff_of_true ⟨_, rfl, sendResponsePacket_framed _ _⟩ (by simp [hlong])
  · split_ifs with hset
    · simp [hset, sendUsbDeviceList_framed_iff]
    · exact iff_of_false (by simp) (by simp [hset])
  · exact iff_of_true ⟨_, rfl, sendResponsePacket_framed _ _⟩ (by simp)

end

/-- Along a connection, every request has a framed reply exactly if it is fine. -/
theorem handleClientConnection_framed (usb : Incoming → Communicator → Processed)
    {ms : List Incoming} (hms : ∀ m ∈ ms, m.Basic) (c : Communicator) :
    ∀ e ∈ handleClientConnection usb ms c,
      (∃ r, e.reply = some r ∧ Framed r) ↔ e.request.Fine e.state := by
  induction ms generalizing c with
  | nil => simp [handleClientConnection]
  | cons m ms ih =>
    have hm := hms m List.mem_cons_self
    have hrest := fun m' h => hms m' (List.mem_cons_of_mem m h)
    intro e he
    rw [handleClientConnection, List.mem_cons] at he
    rcases he with rfl | he
    · exact processPacket_framed_iff usb hm c
    · split at he
      · split_ifs at he
        · exact ih hrest _ e he
        · cases he
      · cases he

/-- Both readers stay in step along a connection exactly if every request that is read is fine. -/
theorem handleClientConnection_inStep_iff (usb : Incoming → Communicator → Processed)
    {ms : List Incoming} (hms : ∀ m ∈ ms, m.Basic) (c : Communicator) :
    (∃ replies, (handleClientConnection usb ms c).map Served.reply = replies.map some ∧
        InStep replies) ↔
      ∀ e ∈ handleClientConnection usb ms c, e.request.Fine e.state := by
  have hstep := handleClientConnection_framed usb hms c
  generalize handleClientConnection usb ms c = es at hstep
  constructor
  · rintro ⟨replies, heq, hin⟩ e he
    have hreply : e.reply ∈ replies.map some := by
      rw [← heq]
      exact List.mem_map_of_mem he
    obtain ⟨r, hr, hsome⟩ := List.mem_map.mp hreply
    exact (hstep e he).mp ⟨r, hsome.symm, hin.1 r hr⟩
  · intro h
    refine ⟨es.map fun e => e.reply.getD [], ?_, inStep_of_framed fun r hr => ?_⟩
    · rw [List.map_map]
      apply List.map_congr_left
      intro e he
      obtain ⟨r, hr, -⟩ := (hstep e he).mpr (h e he)
      simp [hr]
    · obtain ⟨e, he, rfl⟩ := List.mem_map.mp hr
      obtain ⟨r, hr, hframed⟩ := (hstep e he).mpr (h e he)
      rw [hr]
      exact hframed

/-- One camera on the bus. -/
def camera : UsbDevice where
  descriptor := some (0x04a9, 0x3270)
  interfaces := some [[6]]
  opens := true
  kernelDriverActive := false
  testClaim := true
  claim := true
  manufacturer := .ofString "Canon"
  product := .ofString "EOS"

/-- A device list request, and a close request. -/
def request (command : UInt8) (devs : List UsbDevice) : Incoming :=
  ⟨[12, 0, 0, 0, 1, 0, command, 0, 9, 0, 0, 0], devs, true, [], fun _ => 0xcc⟩

/-- A server without an open device. -/
def idle : Communicator := ⟨true, false, false, -1, 0, 0⟩

/-- What no camera is asked. -/
def silent : Incoming → Communicator → Processed := fun _ c => ⟨none, c, false⟩

theorem handleClientConnection_inStep_close :
    ∃ replies, (handleClientConnection silent [request 2 [], request 3 [camera]] idle).map
      Served.reply = replies.map some ∧ InStep replies := by
  have hbasic : ∀ m ∈ [request 2 [], request 3 [camera]], m.Basic := by
    intro m hm
    rcases List.mem_pair.mp hm with rfl | rfl <;> decide
  refine (handleClientConnection_inStep_iff silent hbasic idle).mpr fun e he => ?_
  have hread : ∀ e ∈ handleClientConnection silent [request 2 [], request 3 [camera]] idle,
      (e.request.packetCommand ≠ 2 ∨ (imgUsbDevices e.request.devs e.state).length = 0) ∧
        e.request.listSet e.state = true := by decide +kernel
  refine ⟨?_, fun _ => (hread e he).2⟩
  rintro ⟨hlist, hdevs⟩
  rcases (hread e he).1 with h | h
  · exact h hlist
  · exact hdevs (List.eq_nil_of_length_eq_zero h)

/-- A list with one camera leaves two bytes behind its packets. -/
theorem handleClientConnection_list :
    ¬ ∃ replies, (handleClientConnection silent [request 2 [camera]] idle).map Served.reply =
      replies.map some ∧ InStep replies := by
  have hrest : ∀ r ∈ (handleClientConnection silent [request 2 [camera]] idle).map Served.reply,
      (r.bind fun r => chunks PTP_HEADER lengthField (r.drop 4)) = none := by decide +kernel
  rintro ⟨replies, heq, hin⟩
  rw [heq] at hrest
  cases replies with
  | nil => exact absurd (congrArg List.length heq) (by decide +kernel)
  | cons r rs =>
    have htiled := (hin.1 r List.mem_cons_self).tiled
    have hnone := hrest (some r) (by simp)
    rw [Option.bind_some] at hnone
    rw [hnone] at htiled
    cases htiled

end EzpFirmware.Ddserver
