import EzpFirmware.KernelNvram.Store
import EzpFirmware.Lib.Packing

/-! # The NVRAM image

A flash bank and the scratch buffer of a consolidation hold the same thing: a
header of five little-endian words and behind it the text `name=value NUL ...`,
ended by an empty string. This module embeds the writer, the checksum and the
reader, three separate loops over the table and over the bytes.
-/
namespace EzpFirmware.KernelNvram
open Lib

def NVRAM_MAGIC : UInt32 := 0x48534C46

def NVRAM_VERSION : UInt32 := 1

def NVRAM_HEADER_SIZE : ℕ := 20

def CRC8_INIT_VALUE : UInt8 := 0xff

/-- `ROUNDUP(x, y)`. -/
def roundup (x y : ℕ) : ℕ := (x + (y - 1)) / y * y

structure NvramHeader where
  magic : UInt32
  len : UInt32
  /-- 0:7 crc, 8:15 version, 16:31 sdram_init. -/
  crcVerInit : UInt32
  /-- 0:15 config, 16:31 refresh. -/
  configRefresh : UInt32
  configNcdl : UInt32
  deriving DecidableEq

/-- `NVRAM_SPACE` bytes seen through `struct nvram_header`. -/
structure Image where
  header : NvramHeader
  data : List UInt8
  data_length : data.length = NVRAM_SPACE - NVRAM_HEADER_SIZE
  deriving DecidableEq

/-! ## Checksum -/

def crc8Table : Array UInt8 := #[
    0x00, 0xf7, 0xb9, 0x4e, 0x25, 0xd2, 0x9c, 0x6b, 0x4a, 0xbd, 0xf3, 0x04,
    0x6f, 0x98, 0xd6, 0x21, 0x94, 0x63, 0x2d, 0xda, 0xb1, 0x46, 0x08, 0xff,
    0xde, 0x29, 0x67, 0x90, 0xfb, 0x0c, 0x42, 0xb5, 0x7f, 0x88, 0xc6, 0x31,
    0x5a, 0xad, 0xe3, 0x14, 0x35, 0xc2, 0x8c, 0x7b, 0x10, 0xe7, 0xa9, 0x5e,
    0xeb, 0x1c, 0x52, 0xa5, 0xce, 0x39, 0x77, 0x80, 0xa1, 0x56, 0x18, 0xef,
    0x84, 0x73, 0x3d, 0xca, 0xfe, 0x09, 0x47, 0xb0, 0xdb, 0x2c, 0x62, 0x95,
    0xb4, 0x43, 0x0d, 0xfa, 0x91, 0x66, 0x28, 0xdf, 0x6a, 0x9d, 0xd3, 0x24,
    0x4f, 0xb8, 0xf6, 0x01, 0x20, 0xd7, 0x99, 0x6e, 0x05, 0xf2, 0xbc, 0x4b,
    0x81, 0x76, 0x38, 0xcf, 0xa4, 0x53, 0x1d, 0xea, 0xcb, 0x3c, 0x72, 0x85,
    0xee, 0x19, 0x57, 0xa0, 0x15, 0xe2, 0xac, 0x5b, 0x30, 0xc7, 0x89, 0x7e,
    0x5f, 0xa8, 0xe6, 0x11, 0x7a, 0x8d, 0xc3, 0x34, 0xab, 0x5c, 0x12, 0xe5,
    0x8e, 0x79, 0x37, 0xc0, 0xe1, 0x16, 0x58, 0xaf, 0xc4, 0x33, 0x7d, 0x8a,
    0x3f, 0xc8, 0x86, 0x71, 0x1a, 0xed, 0xa3, 0x54, 0x75, 0x82, 0xcc, 0x3b,
    0x50, 0xa7, 0xe9, 0x1e, 0xd4, 0x23, 0x6d, 0x9a, 0xf1, 0x06, 0x48, 0xbf,
    0x9e, 0x69, 0x27, 0xd0, 0xbb, 0x4c, 0x02, 0xf5, 0x40, 0xb7, 0xf9, 0x0e,
    0x65, 0x92, 0xdc, 0x2b, 0x0a, 0xfd, 0xb3, 0x44, 0x2f, 0xd8, 0x96, 0x61,
    0x55, 0xa2, 0xec, 0x1b, 0x70, 0x87, 0xc9, 0x3e, 0x1f, 0xe8, 0xa6, 0x51,
    0x3a, 0xcd, 0x83, 0x74, 0xc1, 0x36, 0x78, 0x8f, 0xe4, 0x13, 0x5d, 0xaa,
    0x8b, 0x7c, 0x32, 0xc5, 0xae, 0x59, 0x17, 0xe0, 0x2a, 0xdd, 0x93, 0x64,
    0x0f, 0xf8, 0xb6, 0x41, 0x60, 0x97, 0xd9, 0x2e, 0x45, 0xb2, 0xfc, 0x0b,
    0xbe, 0x49, 0x07, 0xf0, 0x9b, 0x6c, 0x22, 0xd5, 0xf4, 0x03, 0x4d, 0xba,
    0xd1, 0x26, 0x68, 0x9f]

def hndcrc8 (pdata : List UInt8) (crc : UInt8) : UInt8 :=
  pdata.foldl (fun crc b => crc8Table.getD (crc ^^^ b).toNat 0) crc

/-! ## Number parsing for the header words -/

def bcmIsspace (c : UInt8) : Bool := (9 ≤ c && c ≤ 13) || c == 0x20 || c == 0xa0

def bcmIsdigit (c : UInt8) : Bool := 0x30 ≤ c && c ≤ 0x39

def bcmIsxdigit (c : UInt8) : Bool :=
  bcmIsdigit c || (0x41 ≤ c && c ≤ 0x46) || (0x61 ≤ c && c ≤ 0x66)

/-- The digit loop of `bcm_strtoul`. -/
def bcmStrtoulLoop (base : UInt32) (result : UInt32) : List UInt8 → UInt32
  | [] => result
  | c :: cs =>
    let value : UInt32 :=
      if bcmIsdigit c then (c - 0x30).toUInt32
      else if 0x61 ≤ c then (c - 0x61).toUInt32 + 10 else (c - 0x41).toUInt32 + 10
    if bcmIsxdigit c && value < base then bcmStrtoulLoop base (result * base + value) cs
    else result

/-- `bcm_strtoul(cp, NULL, 0)`; the base follows from the prefix. -/
def bcmStrtoul (cp : CStr) : UInt32 :=
  let cp := cp.val.dropWhile bcmIsspace
  let (minus, cp) := match cp with
    | 0x2b :: cs => (false, cs)
    | 0x2d :: cs => (true, cs)
    | cs => (false, cs)
  let result := match cp with
    | 0x30 :: 0x78 :: cs => bcmStrtoulLoop 16 0 cs
    | 0x30 :: 0x58 :: cs => bcmStrtoulLoop 16 0 cs
    | 0x30 :: cs => bcmStrtoulLoop 8 0 cs
    | cs => bcmStrtoulLoop 10 0 cs
  if minus then 0 - result else result

/-! ## Reader -/

/-- The separator `=`. -/
def EQ : UInt8 := 0x3d

theorem EQ_ne_zero : EQ ≠ 0 := by decide

/-- `end[0] = end[1] = NUL` on the last two bytes of the image. -/
def Image.terminate (header : Image) : Image where
  header := header.header
  data := poke header.data (NVRAM_SPACE - NVRAM_HEADER_SIZE - 2) [0, 0]
  data_length := by
    rw [poke_length, header.data_length]
    rw [header.data_length]
    decide

/-- The loop of `nvram_rehash` over the consecutive strings of the data area. It stops at an
empty string and at one without `=`. -/
def nvramRehashLoop (kmalloc : ℕ → Bool) : List CStr → Nvram → Nvram
  | [], s => s
  | name :: rest, s =>
    if name = CStr.empty then s
    else match CStr.cut EQ name with
      | none => s
      | some (name, value) =>
        nvramRehashLoop (fun i => kmalloc (i + 1)) rest (_nvramSet (kmalloc 0) name value s).2

/-- `nvram_rehash`: free the table and set every assignment of the image. `kmalloc i` answers the
request of the `i`-th assignment. The image comes back with its last two bytes cleared. -/
def nvramRehash (kmalloc : ℕ → Bool) (header : Image) (s : Nvram) : ℤ × Image × Nvram :=
  let header := header.terminate
  (0, header, nvramRehashLoop kmalloc (cstrings header.data) (nvramFree s))

/-- `_nvram_valid`: 0 for a good image. No value means that the checksum loop runs out of the
image, over memory this model knows nothing about. -/
def _nvramValid (header : Image) (failsafe : Bool) : Option ℤ :=
  if header.header.magic ≠ NVRAM_MAGIC then some 1
  else
    let nbytes := (header.header.len - 20).toNat
    if nbytes > header.data.length then none
    else
      let crc := hndcrc8 (header.data.take nbytes) CRC8_INIT_VALUE
      if !failsafe && crc != header.header.crcVerInit.toUInt8 then some 1 else some 0

/-! ## Writer -/

namespace Nvram

/-- Name and value of every live variable, one chain for each bucket. -/
def assignments (s : Nvram) (i : Fin 257) : List (CStr × CStr) :=
  (s.nvramHash i).map fun t => (t.name, s.str t.value)

/-- All live assignments, bucket by bucket. -/
def all (s : Nvram) : List (CStr × CStr) := ((List.finRange 257).map s.assignments).flatten

end Nvram

/-- The text `name=value`. -/
def assignment (a : CStr × CStr) : CStr := CStr.glue EQ EQ_ne_zero a.1 a.2

/-- `strlen(name) + 1 + strlen(value) + 1`. -/
def assignmentSize (a : CStr × CStr) : ℕ := a.1.len + 1 + a.2.len + 1

/-- The output loop of `_nvram_commit`: in each chain it stops at the first tuple that would pass
the space kept for the final double NUL. -/
def written (s : Nvram) : List (CStr × CStr) × ℕ :=
  packChains assignmentSize (NVRAM_SPACE - 2) NVRAM_HEADER_SIZE
    ((List.finRange 257).map s.assignments)

/-- The bytes the output loop leaves in the data area. -/
def writtenText (s : Nvram) : List UInt8 := (written s).1.flatMap fun a => (assignment a).stored

/-- The words of the header that come from the `sdram_*` variables. Without them the old content
of `config_ncdl` stays. -/
def sdramWords (header : NvramHeader) (s : Nvram) : UInt32 × UInt32 × UInt32 :=
  let crcVerInit := NVRAM_VERSION <<< 8
  match _nvramGet (CStr.ofString "sdram_init") s, _nvramGet (CStr.ofString "sdram_config") s,
      _nvramGet (CStr.ofString "sdram_refresh") s, _nvramGet (CStr.ofString "sdram_ncdl") s with
  | some init, some config, some refresh, some ncdl =>
    let low (w : UInt32) : UInt32 := w &&& 0xffff
    (crcVerInit ||| low (bcmStrtoul init) <<< 16,
      low (bcmStrtoul config) ||| low (bcmStrtoul refresh) <<< 16, bcmStrtoul ncdl)
  | _, _, _, _ => (crcVerInit, 0, header.configNcdl)

theorem written_size (s : Nvram) :
    NVRAM_HEADER_SIZE + totalSize assignmentSize (written s).1 ≤ NVRAM_SPACE - 2 :=
  packChains_total_le _ (by decide)

theorem stored_assignments_length (l : List (CStr × CStr)) :
    (l.flatMap fun a => (assignment a).stored).length = totalSize assignmentSize l := by
  induction l with
  | nil => rfl
  | cons a l ih =>
    rw [List.flatMap_cons, List.length_append, ih, CStr.stored_length, totalSize_cons,
      assignment, CStr.glue_len, assignmentSize]

theorem writtenText_length (s : Nvram) :
    (writtenText s).length = totalSize assignmentSize (written s).1 :=
  stored_assignments_length _

/-- The image `_nvram_commit` builds before it reads it back. -/
def regenerate (header : NvramHeader) (s : Nvram) : Image :=
  let (crcVerInit, configRefresh, configNcdl) := sdramWords header s
  let text := writtenText s
  let data := text ++ List.replicate (NVRAM_SPACE - NVRAM_HEADER_SIZE - text.length) 0
  let len := roundup (NVRAM_HEADER_SIZE + text.length + 2) 4
  let crc := hndcrc8 (data.take (len - NVRAM_HEADER_SIZE)) CRC8_INIT_VALUE
  { header := ⟨NVRAM_MAGIC, UInt32.ofNat len, crcVerInit ||| crc.toUInt32, configRefresh, configNcdl⟩
    data := data
    data_length := by
      have h := written_size s
      rw [← writtenText_length] at h
      simp only [List.length_append, List.length_replicate, data, text]
      omega }

/-- `_nvram_commit`: regenerate the image and rebuild the table from it. -/
def _nvramCommit (kmalloc : ℕ → Bool) (header : Image) (s : Nvram) : ℤ × Image × Nvram :=
  nvramRehash kmalloc (regenerate header.header s) s

/-! ## Loading -/

/-- A little-endian word. -/
def ltoh32 (bytes : List UInt8) : UInt32 :=
  bytes.reverse.foldl (fun w b => w <<< 8 ||| b.toUInt32) 0

/-- `NVRAM_SPACE` raw bytes seen through `struct nvram_header`; missing bytes read as zero. -/
def Image.ofBytes (buf : List UInt8) : Image where
  header := ⟨ltoh32 (buf.take 4), ltoh32 ((buf.drop 4).take 4), ltoh32 ((buf.drop 8).take 4),
    ltoh32 ((buf.drop 12).take 4), ltoh32 ((buf.drop 16).take 4)⟩
  data := (buf.drop NVRAM_HEADER_SIZE).takeD (NVRAM_SPACE - NVRAM_HEADER_SIZE) 0
  data_length := List.takeD_length _ _ _

/-- `_nvram_read`: a bank that cannot be read is replaced by the current arena. -/
def _nvramRead (bank : Option Image) (s : Nvram) : Image := bank.getD (Image.ofBytes s.nvramBuf)

/-- `_nvram_init`; `malloc` tells whether the buffer for the image can be allocated. -/
def _nvramInit (malloc : Bool) (kmalloc : ℕ → Bool) (bank : Option Image) (failsafe : Bool)
    (s : Nvram) : Option (ℤ × Nvram) :=
  if !malloc then some (ENOMEM, s)
  else
    let header := _nvramRead bank s
    (_nvramValid header failsafe).map fun ret =>
      if ret = 0 then (0, (nvramRehash kmalloc header s).2.2) else (ret, s)

/-! ## The length in the header

The checksum runs over as many bytes as the header says, less the header. The
length is not compared with anything, and the difference is an unsigned number.
-/

/-- The bytes from the end of the header to the length in it. -/
def Image.crcRange (image : Image) : List UInt8 :=
  image.data.take (image.header.len.toNat - NVRAM_HEADER_SIZE)

/-- The length in the header is at least that of a header and at most that of the image. -/
def Image.LengthInside (image : Image) : Prop :=
  NVRAM_HEADER_SIZE ≤ image.header.len.toNat ∧ image.header.len.toNat ≤ NVRAM_SPACE

section
variable {image : Image}

/-- The number of bytes that are summed fits the image exactly if the length does. -/
theorem nbytes_le_iff :
    (image.header.len - 20).toNat ≤ image.data.length ↔ image.LengthInside := by
  have hlen := image.header.len.toNat_lt
  have hsub : (image.header.len - 20).toNat = (2 ^ 32 - 20 + image.header.len.toNat) % 2 ^ 32 :=
    UInt32.toNat_sub _ _
  rw [hsub, image.data_length, Image.LengthInside, NVRAM_SPACE, NVRAM_HEADER_SIZE]
  omega

theorem crcRange_eq (h : image.LengthInside) :
    image.data.take (image.header.len - 20).toNat = image.crcRange := by
  have hle : (20 : UInt32) ≤ image.header.len := UInt32.le_iff_toNat_le.mpr h.1
  rw [Image.crcRange, UInt32.toNat_sub_of_le _ _ hle]
  rfl

/-- The answer on an image with the right magic and a length inside. -/
theorem nvramValid_inside (h : image.LengthInside) (hmagic : image.header.magic = NVRAM_MAGIC)
    (failsafe : Bool) : _nvramValid image failsafe =
      if failsafe = false ∧
          hndcrc8 image.crcRange CRC8_INIT_VALUE ≠ image.header.crcVerInit.toUInt8 then some 1
      else some 0 := by
  have hfit : ¬ (image.header.len - 20).toNat > image.data.length :=
    not_lt.mpr (nbytes_le_iff.mpr h)
  rw [_nvramValid, if_neg (not_not.mpr hmagic)]
  simp only [if_neg hfit, crcRange_eq h]
  cases failsafe <;> simp

/-- The validation reads the image alone and compares the checksum of the bytes up to the length,
exactly if the magic is wrong or the length is inside the image. -/
theorem nvramValid_inspects_iff (image : Image) :
    (∀ failsafe, ∃ ret, _nvramValid image failsafe = some ret ∧
      (image.header.magic = NVRAM_MAGIC → image.LengthInside ∧
        (failsafe = false → (ret = 0 ↔
          hndcrc8 image.crcRange CRC8_INIT_VALUE = image.header.crcVerInit.toUInt8)))) ↔
      (image.header.magic = NVRAM_MAGIC →
        NVRAM_HEADER_SIZE ≤ image.header.len.toNat ∧ image.header.len.toNat ≤ NVRAM_SPACE) := by
  constructor
  · intro h hmagic
    obtain ⟨ret, -, hinside⟩ := h false
    exact (hinside hmagic).1
  · intro hlen failsafe
    by_cases hmagic : image.header.magic = NVRAM_MAGIC
    · have hinside : image.LengthInside := hlen hmagic
      rw [nvramValid_inside hinside hmagic]
      by_cases hcrc : hndcrc8 image.crcRange CRC8_INIT_VALUE = image.header.crcVerInit.toUInt8
      · rw [if_neg fun h => h.2 hcrc]
        exact ⟨0, rfl, fun _ => ⟨hinside, fun _ => iff_of_true rfl hcrc⟩⟩
      · cases failsafe with
        | false =>
          rw [if_pos ⟨rfl, hcrc⟩]
          exact ⟨1, rfl, fun _ => ⟨hinside, fun _ => iff_of_false (by decide) hcrc⟩⟩
        | true =>
          rw [if_neg fun h => Bool.noConfusion h.1]
          exact ⟨0, rfl, fun _ => ⟨hinside, fun h => Bool.noConfusion h⟩⟩
    · rw [_nvramValid, if_pos hmagic]
      exact ⟨1, rfl, fun h => absurd h hmagic⟩

/-- An image with the magic, and zeros for the rest. -/
def erasedImage : Image where
  header := ⟨NVRAM_MAGIC, 0, 0, 0, 0⟩
  data := List.replicate (NVRAM_SPACE - NVRAM_HEADER_SIZE) 0
  data_length := List.length_replicate

/-- With the length 0 the checksum runs over almost the whole address space. -/
theorem nvramValid_erased :
    ¬ ∀ failsafe, ∃ ret, _nvramValid erasedImage failsafe = some ret ∧
      (erasedImage.header.magic = NVRAM_MAGIC → erasedImage.LengthInside ∧
        (failsafe = false → (ret = 0 ↔ hndcrc8 erasedImage.crcRange CRC8_INIT_VALUE =
          erasedImage.header.crcVerInit.toUInt8))) := by
  intro h
  obtain ⟨ret, -, hinside⟩ := h false
  exact absurd (hinside rfl).1.1 (by decide)

end

end EzpFirmware.KernelNvram
