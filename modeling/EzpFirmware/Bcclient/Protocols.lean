import EzpFirmware.Lib.CString
import EzpFirmware.Lib.LittleEndian

/-! # The finder protocol

A packet is a header and a list of tags. Ordinary tags have an id of one byte;
an id from 256 on is wrapped into the data of a tag of its own kind. The build
for the RT5350 is little-endian, so `SREV` and `IREV` change nothing.
-/
namespace EzpFirmware.Bcclient
open Lib

def MAX_TAG_DATA_SIZE : ℕ := 128

def EXT_DATA_TAG_MAX_SIZE : ℕ := 123

def MAX_SESSION_NODE_TAG_COUNT : ℕ := 80

def TAG_EXTENSION : UInt8 := 202

def PAD_IGNORE_SEQ_NUM : ℕ := 0x0425

/-- The size of `FINDER_CMD_HEADER`. -/
def HEADER_SIZE : ℕ := 16

/-- `DATA_TAG`. The data area is known as far as it was written. -/
structure DataTag where
  tag : UInt8
  len : UInt8
  data : List UInt8
  deriving DecidableEq

/-- `TAG_LIST`: the slots in use. -/
abbrev TagList := List DataTag

/-- What a call that adds a tag reports, and the list; nothing if it writes outside the data area of
its slot. -/
abbrev Added := Option (Bool × TagList)

/-- A tag in the next slot, with what was written to its data area. -/
def place (l : TagList) (tag len : ℕ) (data : List UInt8) : Added :=
  if MAX_TAG_DATA_SIZE < data.length then none
  else some (true, l ++ [⟨UInt8.ofNat tag, UInt8.ofNat len, data⟩])

/-- The tag of the extension kind around a tag with a long id. -/
def placeExt (l : TagList) (tag extDataLen : ℕ) (data : List UInt8) : Added :=
  place l TAG_EXTENSION.toNat (4 + 1 + extDataLen)
    (leBytes 4 tag ++ [UInt8.ofNat extDataLen] ++ data)

/-- `AddTagToTagList`. -/
def addTagToTagList (l : TagList) (tagId : ℕ) (data : List UInt8) : Added :=
  if MAX_SESSION_NODE_TAG_COUNT ≤ l.length then some (false, l)
  else if data.length > MAX_TAG_DATA_SIZE then some (false, l)
  else place l tagId data.length data

/-- `AddExtTagToTagList`. The length is cut to a byte before it is looked at. -/
def addExtTagToTagList (l : TagList) (tagId : ℕ) (data : List UInt8) : Added :=
  let extDataLen := data.length % 256
  if MAX_SESSION_NODE_TAG_COUNT ≤ l.length then some (false, l)
  else if extDataLen > EXT_DATA_TAG_MAX_SIZE then some (false, l)
  else placeExt l tagId extDataLen (data.take extDataLen)

/-- `AddTagIntegerToTagList`. -/
def addTagIntegerToTagList (l : TagList) (tagId : ℕ) (value : UInt32) : Added :=
  if MAX_SESSION_NODE_TAG_COUNT ≤ l.length then some (false, l)
  else place l tagId 4 (leBytes 4 value.toNat)

/-- `AddExtTagIntegerToTagList`. -/
def addExtTagIntegerToTagList (l : TagList) (tagId : ℕ) (value : UInt32) : Added :=
  if MAX_SESSION_NODE_TAG_COUNT ≤ l.length then some (false, l)
  else placeExt l tagId 4 (leBytes 4 value.toNat)

/-- The loops over the integers of an array; `stop` is the test for an early end. -/
def integerLoop (stop : ℕ → Bool) : List UInt32 → List UInt8 → List UInt8
  | [], data => data
  | value :: values, data =>
    if stop data.length then data else integerLoop stop values (data ++ leBytes 4 value.toNat)

/-- `AddTagIntegerArrayToTagList`. -/
def addTagIntegerArrayToTagList (l : TagList) (tagId : ℕ) (values : List UInt32) : Added :=
  if MAX_SESSION_NODE_TAG_COUNT ≤ l.length then some (false, l)
  else
    let data := integerLoop (fun len => decide (len + 4 > 0xff)) values []
    place l tagId data.length data

/-- `AddExtTagIntegerArrayToTagList`. -/
def addExtTagIntegerArrayToTagList (l : TagList) (tagId : ℕ) (values : List UInt32) : Added :=
  if MAX_SESSION_NODE_TAG_COUNT ≤ l.length then some (false, l)
  else
    let data := integerLoop (fun len => decide (len > EXT_DATA_TAG_MAX_SIZE)) values []
    placeExt l tagId data.length data

/-- `AddTagStringToTagList`. -/
def addTagStringToTagList (l : TagList) (tagId : ℕ) (szData : CStr) : Added :=
  if MAX_SESSION_NODE_TAG_COUNT ≤ l.length then some (false, l)
  else if szData.len + 1 > MAX_TAG_DATA_SIZE then some (false, l)
  else place l tagId (szData.len + 1) szData.stored

/-- `AddExtTagStringToTagList`. -/
def addExtTagStringToTagList (l : TagList) (tagId : ℕ) (szData : CStr) : Added :=
  if MAX_SESSION_NODE_TAG_COUNT ≤ l.length then some (false, l)
  else if szData.len + 1 > EXT_DATA_TAG_MAX_SIZE then some (false, l)
  else placeExt l tagId (szData.len + 1) szData.stored

/-- The bytes of a tag in a packet. -/
def DataTag.bytes (t : DataTag) : List UInt8 := t.tag :: t.len :: t.data.take t.len.toNat

/-- The loop of `TagsToBuffer`: the bytes of the length it returns. -/
def tagsToBuffer (bufSize : ℕ) : List DataTag → List UInt8 → List UInt8
  | [], buf => buf
  | t :: tags, buf =>
    if buf.length + t.len.toNat + 2 > bufSize then []
    else tagsToBuffer bufSize tags (buf ++ t.bytes)

/-- `TagListToBuffer`. -/
def tagListToBuffer (l : TagList) (bufSize : ℕ) : List UInt8 := tagsToBuffer bufSize l []

/-- The numbers of a header. -/
structure Header where
  preamble : Vector UInt8 8
  seqNum : UInt16
  cmd : UInt16
  result : UInt16

/-- `MakeFinderCommandPacket`: the bytes of the length it returns. -/
def makeFinderCommandPacket (packetBufSize : ℕ) (h : Header) (tagBuf : List UInt8) : List UInt8 :=
  if packetBufSize < HEADER_SIZE then []
  else if tagBuf.length > packetBufSize - HEADER_SIZE then []
  else h.preamble.toList ++ leBytes 2 h.seqNum.toNat ++ leBytes 2 h.cmd.toNat ++
    leBytes 2 h.result.toNat ++ leBytes 2 PAD_IGNORE_SEQ_NUM ++ tagBuf

/-- The loop of `GetTagData` from position `i` on: the bytes it copies. Every tag takes two bytes at
least, so that the length of the packet bounds the steps. -/
def getTagLoop (buf : ℕ → UInt8) (packetBufLen tagId tagBufSize : ℕ) : ℕ → ℕ → List UInt8
  | 0, _ => []
  | fuel + 1, i =>
    if ¬ i < packetBufLen then []
    else
      let len := (buf (i + 1)).toNat
      if (buf i).toNat = tagId then bytesAt buf (i + 2) (min len tagBufSize)
      else if buf i = TAG_EXTENSION ∧ ofLe (bytesAt buf (i + 2) 4) = tagId then
        bytesAt buf (i + 7) (min (buf (i + 6)).toNat tagBufSize)
      else getTagLoop buf packetBufLen tagId tagBufSize fuel (i + (len + 2))

/-- `GetTagData`: the bytes it copies, as many as it returns. -/
def getTagData (buf : ℕ → UInt8) (packetBufLen tagId tagBufSize : ℕ) : List UInt8 :=
  getTagLoop buf packetBufLen tagId tagBufSize packetBufLen HEADER_SIZE

end EzpFirmware.Bcclient
