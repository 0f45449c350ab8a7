import EzpFirmware.Lib.CString
import EzpFirmware.Lib.LittleEndian

/-! # The camera server

A client selects a USB imaging device, asks for the list of them or closes the
connection. Every reply is put together in a buffer of its own: an outer length,
then PTP packets that carry their lengths themselves. What libusb answers for
the devices on the bus is a parameter of each request.
-/
namespace EzpFirmware.Ddserver
open Lib

def PTP_HEADER : ℕ := 12

/-- The interface class of still imaging devices. -/
def IMAGING_CLASS : UInt8 := 6

/-- A device on the bus, as libusb answers for it. -/
structure UsbDevice where
  /-- `idVendor` and `idProduct`, if the descriptor can be read. -/
  descriptor : Option (UInt16 × UInt16)
  /-- The classes of the alternate settings of each interface, if the configuration can be read. -/
  interfaces : Option (List (List UInt8))
  opens : Bool
  kernelDriverActive : Bool
  /-- Whether an interface can be claimed for a moment. -/
  testClaim : Bool
  /-- Whether it can be claimed for good. -/
  claim : Bool
  /-- The names; a name that cannot be read is empty. -/
  manufacturer : CStr
  product : CStr

structure ImagingUsbDevice where
  iVendorId : UInt16
  iProductId : UInt16
  iVendorName : CStr
  iProductName : CStr

/-- The state of `Communicator`. Pointers are only told from `NULL`. -/
structure Communicator where
  mCtx : Bool
  mDevice : Bool
  mHandle : Bool
  mImagingInterface : ℤ
  mVendorId : UInt16
  mProductId : UInt16

/-- `isInitialized`. -/
def Communicator.isInitialized (c : Communicator) : Bool :=
  c.mDevice && decide (0 ≤ c.mImagingInterface)

/-- The first interface with an imaging setting. -/
def UsbDevice.imagingInterface (d : UsbDevice) : Option ℕ :=
  d.interfaces.bind fun is => is.findIdx? fun settings => settings.contains IMAGING_CLASS

/-- `canOpenUsbImagingDevice`. -/
def canOpenUsbImagingDevice (d : UsbDevice) : Bool :=
  d.imagingInterface.isSome && d.opens && !d.kernelDriverActive && d.testClaim

/-- `isUsbImagingDevice`, with what it fills in. The tests are those of `canOpenUsbImagingDevice`. -/
def isUsbImagingDevice (d : UsbDevice) : Option ImagingUsbDevice :=
  d.descriptor.bind fun desc =>
    if d.imagingInterface.isSome && d.opens && !d.kernelDriverActive && d.testClaim then
      some ⟨desc.1, desc.2, d.manufacturer, d.product⟩
    else none

/-- `closeUsbDevice`. -/
def closeUsbDevice (c : Communicator) : Communicator := { c with
  mImagingInterface :=
    if 0 ≤ c.mImagingInterface ∧ c.mHandle = true then -1 else c.mImagingInterface
  mHandle := false }

/-- `claimInterface`. -/
def claimInterface (d : UsbDevice) (interfaceNo : ℕ) (c : Communicator) : Bool × Communicator :=
  let c := { c with mImagingInterface := interfaceNo }
  if d.claim then (true, c) else (false, closeUsbDevice c)

/-- `initUsbDevice`. -/
def initUsbDevice (d : UsbDevice) (c : Communicator) : Communicator :=
  let c := { c with mDevice := true }
  if ¬ d.opens then c
  else
    let c := { c with mHandle := true }
    match d.descriptor, d.imagingInterface with
    | some (idVendor, idProduct), some i =>
      let r := claimInterface d i c
      if r.1 then { r.2 with mVendorId := idVendor, mProductId := idProduct } else r.2
    | _, _ => c

/-- The test of `openUsbDevice` for a device; ids of zero stand for any. -/
def selects (vendorId productId : UInt16) (d : UsbDevice) : Bool :=
  match d.descriptor with
  | some (idVendor, idProduct) =>
    decide (idVendor = vendorId ∧ idProduct = productId ∨ vendorId = 0 ∧ productId = 0) &&
      canOpenUsbImagingDevice d
  | none => false

/-- `openUsbDevice`. -/
def openUsbDevice (vendorId productId : UInt16) (devs : List UsbDevice) (c : Communicator) :
    Communicator :=
  let c := { c with mVendorId := 0, mProductId := 0 }
  if c.mCtx then
    match devs.find? (selects vendorId productId) with
    | some d => initUsbDevice d c
    | none => c
  else c

/-- The bytes of a `PtpPacket`. -/
def ptpPacket (size packetType packetCommand sessionId : ℕ) : List UInt8 :=
  leBytes 4 size ++ leBytes 2 packetType ++ leBytes 2 packetCommand ++ leBytes 4 sessionId

/-- `setPtpHeader`. -/
def setPtpHeader (buf : List UInt8) (offset size packetType packetCommand sessionId : ℕ) :
    List UInt8 :=
  poke buf offset (ptpPacket size packetType packetCommand sessionId)

/-- `sendResponsePacket`: what it sends. -/
def sendResponsePacket (responseCode sessionId : ℕ) : List UInt8 :=
  let len := PTP_HEADER + 4
  let buf := List.replicate len 0
  let buf := poke buf 0 (leBytes 4 len)
  setPtpHeader buf 4 (len - 4) 0x0003 responseCode sessionId

/-- `initiateUsbConnection`: what it sends. -/
def initiateUsbConnection (vendorId productId sessionId : ℕ) (devs : List UsbDevice)
    (c : Communicator) : List UInt8 × Communicator :=
  let c := openUsbDevice (UInt16.ofNat vendorId) (UInt16.ofNat productId) devs c
  if c.isInitialized then
    let len := 4 + 4 + PTP_HEADER * 2
    let buf := List.replicate len 0
    let buf := poke buf 0 (leBytes 4 len)
    let buf := setPtpHeader buf 4 (PTP_HEADER + 4) 0x0002 0x0001 sessionId
    let buf := poke buf (4 + PTP_HEADER) (leBytes 2 c.mVendorId.toNat)
    let buf := poke buf (4 + PTP_HEADER + 2) (leBytes 2 c.mProductId.toNat)
    (setPtpHeader buf (4 + PTP_HEADER + 4) PTP_HEADER 0x0003 0x2001 sessionId, c)
  else (sendResponsePacket (if c.isInitialized then 0x2001 else 0x2002) sessionId, c)

/-- The length of a device in the list. -/
def ImagingUsbDevice.listLen (d : ImagingUsbDevice) : ℕ :=
  2 + 2 + d.iVendorName.len + 1 + d.iProductName.len + 1

/-- The loop of `sendUsbDeviceList` that writes the devices: the buffer, and the offset behind. -/
def writeDevices : List ImagingUsbDevice → List UInt8 → ℕ → List UInt8 × ℕ
  | [], buf, offset => (buf, offset)
  | d :: ds, buf, offset =>
    let buf := poke buf offset (leBytes 2 d.iVendorId.toNat)
    let buf := poke buf (offset + 2) (leBytes 2 d.iProductId.toNat)
    let offset := offset + 4
    let buf := poke buf offset d.iVendorName.stored
    let offset := offset + (d.iVendorName.len + 1)
    let buf := poke buf offset d.iProductName.stored
    writeDevices ds buf (offset + (d.iProductName.len + 1))

/-- The devices that `sendUsbDeviceList` finds. Each one is inserted in front of the others. -/
def imgUsbDevices (devs : List UsbDevice) (c : Communicator) : List ImagingUsbDevice :=
  if c.mCtx then (devs.filterMap isUsbImagingDevice).reverse else []

/-- `sendUsbDeviceList`: what it sends. The buffer comes from `malloc` as `stale` says. -/
def sendUsbDeviceList (sessionId : ℕ) (devs : List UsbDevice) (stale : ℕ → UInt8)
    (c : Communicator) : List UInt8 :=
  let ds := imgUsbDevices devs c
  if 0 < ds.length then
    let len := 4 + 2 + PTP_HEADER * 2
    let devLen := 2 + (ds.map ImagingUsbDevice.listLen).sum
    let buf := tabulate (len + devLen) stale
    let buf := poke buf 0 (leBytes 4 (len + devLen))
    let buf := setPtpHeader buf 4 (devLen + 12) 0x0002 0x0002 sessionId
    let offset := 4 + PTP_HEADER
    let buf := poke buf offset (leBytes 2 ds.length)
    let w := writeDevices ds buf (offset + 2)
    setPtpHeader w.1 w.2 PTP_HEADER 0x0003 0x2001 sessionId
  else sendResponsePacket 0x2002 sessionId

/-- A request, with the devices on the bus when it arrives, whether `libusb_get_device_list` gives
them, and what the allocator hands out then: the bytes behind a short request, and the bytes a reply
is written over. -/
structure Incoming where
  buf : List UInt8
  devs : List UsbDevice
  listed : Bool
  behind : List UInt8
  stale : ℕ → UInt8

/-- A number of the request. -/
def Incoming.number (m : Incoming) (offset width : ℕ) : ℕ :=
  ofLe (((m.buf ++ m.behind).drop offset).take width)

def Incoming.packetLen (m : Incoming) : ℕ := m.number 0 4

def Incoming.packetCommand (m : Incoming) : ℕ := m.number 6 2

def Incoming.sessionId (m : Incoming) : ℕ := m.number 8 4

/-- The list of devices that is freed at the end of `openUsbDevice` and `sendUsbDeviceList` has been
set. -/
def Incoming.listSet (m : Incoming) (c : Communicator) : Bool := c.mCtx && m.listed

/-- What a request leads to: what is sent, the state, and whether the connection goes on. -/
structure Processed where
  reply : Option (List UInt8)
  state : Communicator
  result : Bool

/-- `processPacket`. What an open camera makes of other commands is a parameter. There is no result
where a list of devices is freed that was never set. -/
def processPacket (processUsbPacket : Incoming → Communicator → Processed) (m : Incoming)
    (c : Communicator) : Option Processed :=
  match m.packetCommand with
  | 0x0001 =>
    if c.isInitialized then some ⟨some (sendResponsePacket 0x201e m.sessionId), c, true⟩
    else if PTP_HEADER + 8 ≤ m.packetLen then
      if m.listSet c then
        let r := initiateUsbConnection (m.number PTP_HEADER 4) (m.number (PTP_HEADER + 4) 4)
          m.sessionId m.devs c
        some ⟨some r.1, r.2, r.2.isInitialized⟩
      else none
    else some ⟨some (sendResponsePacket 0x2002 m.sessionId), c, false⟩
  | 0x0002 =>
    if m.listSet c then some ⟨some (sendUsbDeviceList m.sessionId m.devs m.stale c), c, true⟩
    else none
  | 0x0003 => some ⟨some (sendResponsePacket 0x2001 m.sessionId), c, false⟩
  | _ =>
    if ¬ c.isInitialized then some ⟨some (sendResponsePacket 0x2003 m.sessionId), c, true⟩
    else some (processUsbPacket m c)

/-- A request that is read, the state in front of it, and what it leads to. -/
structure Served where
  request : Incoming
  state : Communicator
  processed : Option Processed

/-- What is sent for a request. -/
def Served.reply (e : Served) : Option (List UInt8) := e.processed.bind Processed.reply

/-- The loop of `handleClientConnection`: the requests that are read. -/
def handleClientConnection (processUsbPacket : Incoming → Communicator → Processed) :
    List Incoming → Communicator → List Served
  | [], _ => []
  | m :: ms, c =>
    ⟨m, c, processPacket processUsbPacket m c⟩ ::
      match processPacket processUsbPacket m c with
      | some r => if r.result then handleClientConnection processUsbPacket ms r.state else []
      | none => []

end EzpFirmware.Ddserver
