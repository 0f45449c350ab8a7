import EzpFirmware.Ddserver.Communicator
import EzpFirmware.Lib.Streams

/-! # What a client sends

A packet comes with three lengths of the client: that of the packet in front of
it, and those of a command and of its data inside. `processPacket` and
`processUsbPacket` are those of the server with each access to the buffer held
against the bytes that were received.
-/
namespace EzpFirmware.Ddserver.Client
open Lib

/-- An unsigned number of 32 bits as an `int`. -/
def int32 (n : ℕ) : ℤ := if n < 2 ^ 31 then n else n - 2 ^ 32

/-- How the reads of a call go (a read fails, or the system would hand out some bytes), what is on
the bus, and how the transfers go. -/
structure Meeting where
  lengthRead : Option ℕ
  packetRead : Option ℕ
  devs : List UsbDevice
  stale : ℕ → UInt8
  /-- The transfer of the command succeeds. -/
  command : Bool
  /-- The transfer of the data succeeds. -/
  data : Bool
  /-- `handleIncomingUsbPtpPacket`. -/
  incoming : Bool

/-- `read` from the socket. There is no value if it fails. -/
def readSocket (want : Option ℕ) (count : ℕ) (stream : List UInt8) : Option (List UInt8) :=
  want.map fun want => stream.take (readLen count want stream.length)

/-- `malloc` and `read` into the block. There is no block that `int` cannot count, and a read
without a block fails except at the end of the stream. -/
def readPacket (want : Option ℕ) (count : ℕ) (stream : List UInt8) : Option (List UInt8) :=
  if count < 2 ^ 31 then readSocket want count stream
  else if stream = [] then want.map fun _ => []
  else none

/-- The result of a read, as an unsigned number. -/
def unsigned (r : Option (List UInt8)) : ℕ := (r.map List.length).getD (2 ^ 32 - 1)

/-- A number of the packet, unless bytes are read that were not received. -/
def fetch (packet : List UInt8) (offset : ℤ) (width : ℕ) : Option ℕ :=
  if 0 ≤ offset ∧ offset + width ≤ packet.length then
    some (ofLe ((packet.drop offset.toNat).take width))
  else none

/-- What a packet leads to, with the ranges of it that are handed to `libusb_bulk_transfer`. -/
structure Handled where
  reply : Option (List UInt8)
  state : Communicator
  result : Bool
  transfers : List (ℤ × ℤ)

/-- `processUsbPacket`. -/
def processUsbPacket (e : Meeting) (packet : List UInt8) (size : ℤ) (c : Communicator) :
    Option Handled :=
  (fetch packet 0 4).bind fun len =>
    let packetSize := int32 len
    if e.command then
      if packetSize < size then
        (fetch packet packetSize 4).map fun dataLen =>
          ⟨none, c, e.data && e.incoming, [(0, packetSize), (packetSize, int32 dataLen)]⟩
      else some ⟨none, c, e.incoming, [(0, packetSize)]⟩
    else some ⟨none, c, false, [(0, packetSize)]⟩

/-- `sendResponsePacket` with the session of the packet. -/
def respond (packet : List UInt8) (code : ℕ) (c : Communicator) (result : Bool) : Option Handled :=
  (fetch packet 8 4).map fun session => ⟨some (sendResponsePacket code session), c, result, []⟩

/-- `processPacket`. -/
def processPacket (e : Meeting) (packet : List UInt8) (size : ℤ) (c : Communicator) :
    Option Handled :=
  (fetch packet 6 2).bind fun command =>
    if command = 0x0001 then
      if c.isInitialized then respond packet 0x201e c true
      else (fetch packet 0 4).bind fun len =>
        if PTP_HEADER + 8 ≤ len then
          (fetch packet PTP_HEADER 4).bind fun vendorId =>
            (fetch packet (PTP_HEADER + 4) 4).bind fun productId =>
              (fetch packet 8 4).map fun session =>
                let r := initiateUsbConnection vendorId productId session e.devs c
                ⟨some r.1, r.2, r.2.isInitialized, []⟩
        else respond packet 0x2002 c false
    else if command = 0x0002 then
      (fetch packet 8 4).map fun session =>
        ⟨some (sendUsbDeviceList session e.devs e.stale c), c, true, []⟩
    else if command = 0x0003 then respond packet 0x2001 c false
    else if c.isInitialized then processUsbPacket e packet size c
    else respond packet 0x2003 c true

/-- The length in front of a packet, if it is read whole. -/
def lengthRead (e : Meeting) (stream : List UInt8) : Option ℕ :=
  (readSocket e.lengthRead 4 stream).bind fun bs => if bs.length = 4 then some (ofLe bs) else none

/-- `packetSize - 4`. -/
def payload (packetSize : ℕ) : ℕ := (packetSize + 2 ^ 32 - 4) % 2 ^ 32

/-- The read of a packet behind its length. -/
def received (e : Meeting) (packetSize : ℕ) (stream : List UInt8) : Option (List UInt8) :=
  readPacket e.packetRead (payload packetSize) (stream.drop 4)

/-- `readFromClient`: the packet, and what it leads to. -/
def readFromClient (e : Meeting) (stream : List UInt8) (c : Communicator) :
    Option (List UInt8 × Handled) :=
  match lengthRead e stream with
  | none => some ([], ⟨none, c, false, []⟩)
  | some packetSize =>
    let packet := (received e packetSize stream).getD []
    if unsigned (received e packetSize stream) = payload packetSize then
      (processPacket e packet (int32 (payload packetSize)) c).map (Prod.mk packet)
    else some (packet, ⟨none, c, false, []⟩)

/-- The calls of a connection: how each is met, the stream that is left, and the state. -/
def calls : List Meeting → List UInt8 → Communicator → List (Meeting × List UInt8 × Communicator)
  | [], _, _ => []
  | e :: es, stream, c =>
    (e, stream, c) ::
      match readFromClient e stream c with
      | some (packet, h) =>
        if h.result then calls es (stream.drop (4 + packet.length)) h.state else []
      | none => []

/-! ## What is asked for -/

/-- A range of the packet. -/
def Inside (packet : List UInt8) (t : ℤ × ℤ) : Prop :=
  0 ≤ t.1 ∧ 0 ≤ t.2 ∧ t.1 + t.2 ≤ packet.length

/-- A number of the packet. -/
def number (packet : List UInt8) (offset width : ℕ) : ℕ := ofLe ((packet.drop offset).take width)

/-- The packet is whole. -/
def Whole (e : Meeting) (stream packet : List UInt8) : Prop :=
  ∃ packetSize, lengthRead e stream = some packetSize ∧ received e packetSize stream = some packet ∧
    packet.length + 4 = packetSize

/-- What has to end the connection: a short read, a length below that of a header, and a packet
whose own length is larger. -/
def Malformed (e : Meeting) (stream : List UInt8) : Prop :=
  (∃ packetSize, lengthRead e stream = some packetSize ∧ packetSize < PTP_HEADER) ∨
    (¬ ∃ packet, Whole e stream packet) ∨
    ∃ packet, Whole e stream packet ∧ packet.length < number packet 0 4

/-- Only received bytes are read and only ranges of the packet are handed out, and what is
malformed ends the connection without a transfer. -/
def Safe (e : Meeting) (stream : List UInt8) (c : Communicator) : Prop :=
  ∃ packet h, readFromClient e stream c = some (packet, h) ∧ (∀ t ∈ h.transfers, Inside packet t) ∧
    (Malformed e stream → h.result = false ∧ h.transfers = [])

/-- A command for an open camera: it is as long as it says at least, and if it is sent and shorter,
so are the data behind it. -/
def FitsUsb (e : Meeting) (packet : List UInt8) : Prop :=
  number packet 0 4 ≤ packet.length ∧
    (e.command = true → number packet 0 4 < packet.length →
      number packet 0 4 + 4 ≤ packet.length ∧
        number packet 0 4 + number packet (number packet 0 4) 4 ≤ packet.length)

/-- A command for the server: its header is there, and the ids if a camera is selected. A packet
that says to be longer closes the connection or opens no camera. -/
def FitsServer (e : Meeting) (packet : List UInt8) (c : Communicator) : Prop :=
  let selects := number packet 6 2 = 0x0001 ∧ c.isInitialized = false
  let opened := (initiateUsbConnection (number packet PTP_HEADER 4) (number packet (PTP_HEADER + 4) 4)
    (number packet 8 4) e.devs c).2.isInitialized
  PTP_HEADER ≤ packet.length ∧
    (selects → PTP_HEADER + 8 ≤ number packet 0 4 → PTP_HEADER + 8 ≤ packet.length) ∧
    (packet.length < number packet 0 4 → number packet 6 2 = 0x0003 ∨
      selects ∧ (number packet 0 4 < PTP_HEADER + 8 ∨ opened = false))

/-- A command for the camera. -/
def ForCamera (packet : List UInt8) (c : Communicator) : Prop :=
  number packet 6 2 ∉ [0x0001, 0x0002, 0x0003] ∧ c.isInitialized = true

/-- What a client may send: no length of three with something behind it, and no whole packet that
does not fit. -/
def Fits (e : Meeting) (stream : List UInt8) (c : Communicator) : Prop :=
  (lengthRead e stream = some 3 → received e 3 stream ≠ none) ∧
    ∀ packet, Whole e stream packet → 8 ≤ packet.length ∧
      (ForCamera packet c → FitsUsb e packet) ∧ (¬ ForCamera packet c → FitsServer e packet c)

end EzpFirmware.Ddserver.Client
