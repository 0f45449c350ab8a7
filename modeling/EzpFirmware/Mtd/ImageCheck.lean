import EzpFirmware.Lib.Crc
import EzpFirmware.Lib.Layout
import EzpFirmware.Lib.LittleEndian
import EzpFirmware.Lib.Streams
import EzpFirmware.Mtd.FlashWrite

/-! # The check of an image's data

The command `mtd verify` reads an image with a boot loader's header, runs the
checksum over as many bytes behind the header as it names and compares it with
the one that stands in the header. The loop ends with the file, and what is left
of the length it counts down is not looked at.
-/
namespace EzpFirmware.Mtd
open Lib

/-- `CRC_BUF_SIZE`. -/
def CRC_BUF_SIZE : ℕ := 4096

/-- `sizeof(image_header_t)`. -/
def IMAGE_HEADER : ℕ := 64

/-- The polynomial of `make_crc_table`. -/
def CRC_POLY : UInt32 := 0xedb88320

/-- `crc32` of the variable library: the register is inverted on the way in and out. -/
def crc32 (crc : UInt32) (buf : List UInt8) : UInt32 :=
  crcBytes CRC_POLY (crc ^^^ 0xffffffff) buf ^^^ 0xffffffff

/-- A word in network byte order, as `ntohl` gives it. -/
def ntohl (field : List UInt8) : UInt32 := UInt32.ofNat (ofLe field.reverse)

/-- `ih_size` of the header at the front of a file. -/
def ihSize (file : List UInt8) : UInt32 := ntohl ((file.drop 12).take 4)

/-- `ih_dcrc` of the header at the front of a file. -/
def ihDcrc (file : List UInt8) : UInt32 := ntohl ((file.drop 24).take 4)

/-- What the check reports: its result, and whether it left the mark of a wrong image. -/
structure Verified where
  ret : ℕ
  fwIncorrect : Bool
  deriving DecidableEq, Repr

/-- The state of the loop: the checksum so far and the data that is still to come. -/
structure Summing where
  chksum : UInt32
  datalen : ℕ

/-- One turn of the loop, for a piece that was read. -/
def Summing.piece (s : Summing) (crcBuf : List UInt8) : Summing :=
  if 0 < s.datalen then
    let val := if s.datalen < crcBuf.length then s.datalen else crcBuf.length
    ⟨crc32 s.chksum (crcBuf.take val), s.datalen - val⟩
  else s

/-- `image_verify`. The reads behind the header are given by what each would hand out. -/
def imageVerify (wants : ℕ → ℕ) (file : List UInt8) : Verified :=
  if file.length < IMAGE_HEADER then ⟨1, false⟩
  else
    let s := drain CRC_BUF_SIZE Summing.piece wants ⟨0, (ihSize file).toNat⟩
      (file.drop IMAGE_HEADER)
    if ihDcrc file ≠ s.chksum then ⟨1, true⟩ else ⟨0, false⟩

@[simp] theorem crc32_nil (crc : UInt32) : crc32 crc [] = crc := by
  rw [crc32, crcBytes_nil, UInt32.xor_assoc, UInt32.xor_self, UInt32.xor_zero]

theorem crc32_append (crc : UInt32) (as bs : List UInt8) :
    crc32 crc (as ++ bs) = crc32 (crc32 crc as) bs := by
  simp only [crc32, crcBytes_append, UInt32.xor_assoc, UInt32.xor_self, UInt32.xor_zero]

/-- A turn takes the part of the piece that belongs to the data. -/
theorem Summing.piece_eq (s : Summing) (crcBuf : List UInt8) :
    s.piece crcBuf = ⟨crc32 s.chksum (crcBuf.take s.datalen), s.datalen - crcBuf.length⟩ := by
  cases s with
  | mk chksum datalen =>
    rw [piece]
    by_cases hpos : 0 < datalen
    · by_cases hlt : datalen < crcBuf.length
      · simp only [hpos, hlt, if_true]
        congr 1
        omega
      · simp only [hpos, hlt, if_true, if_false, List.take_length]
        rw [List.take_of_length_le (by omega)]
    · have hzero : datalen = 0 := by omega
      simp [hzero]

theorem Summing.piece_append (s : Summing) (as bs : List UInt8) :
    s.piece (as ++ bs) = (s.piece as).piece bs := by
  rw [piece_eq, piece_eq, piece_eq, List.take_append, crc32_append, List.length_append,
    Nat.sub_sub]

/-- The loop's result, however the reads cut the file. -/
theorem drain_piece (wants : ℕ → ℕ) (s : Summing) (rest : List UInt8) :
    drain CRC_BUF_SIZE Summing.piece wants s rest = s.piece rest := by
  apply drain_eq
  · exact Nat.zero_lt_succ _
  · intro s
    simp [Summing.piece_eq]
  · exact Summing.piece_append

/-- The data that the header names, as far as the file has it. -/
def imageData (file : List UInt8) : List UInt8 :=
  (file.drop IMAGE_HEADER).take (ihSize file).toNat

/-- An image is whole if all the data is there and its checksum is the header's. -/
def Whole (file : List UInt8) : Prop :=
  IMAGE_HEADER + (ihSize file).toNat ≤ file.length ∧ crc32 0 (imageData file) = ihDcrc file

/-- The check accepts a file with a header if the checksum of what data there is agrees. -/
theorem imageVerify_ret (wants : ℕ → ℕ) (file : List UInt8) :
    (imageVerify wants file).ret = 0 ↔
      IMAGE_HEADER ≤ file.length ∧ crc32 0 (imageData file) = ihDcrc file := by
  rw [imageVerify, drain_piece, Summing.piece_eq]
  by_cases hshort : file.length < IMAGE_HEADER
  · simp [hshort, Nat.not_le.mpr hshort]
  · by_cases heq : crc32 0 (imageData file) = ihDcrc file
    · rw [imageData] at heq
      simp [hshort, imageData, heq, Nat.le_of_not_lt hshort]
    · rw [imageData] at heq
      simp [hshort, imageData, heq, Ne.symm heq]

/-- The check tells whole images from others for every file that has all the data its header
names, and for a shorter one if the checksum of what there is differs from the header's. -/
theorem imageVerify_whole_iff (wants : ℕ → ℕ) (file : List UInt8) :
    ((imageVerify wants file).ret = 0 ↔ Whole file) ↔
      file.length < IMAGE_HEADER ∨ IMAGE_HEADER + (ihSize file).toNat ≤ file.length ∨
        crc32 0 (file.drop IMAGE_HEADER) ≠ ihDcrc file := by
  rw [imageVerify_ret, Whole]
  by_cases hfull : IMAGE_HEADER + (ihSize file).toNat ≤ file.length
  · have hheader : IMAGE_HEADER ≤ file.length := by omega
    simp [hfull, hheader]
  · have hdata : imageData file = file.drop IMAGE_HEADER := by
      apply List.take_of_length_le
      rw [List.length_drop]
      omega
    rw [hdata]
    by_cases hheader : IMAGE_HEADER ≤ file.length
    · simp [hfull, hheader]
    · simp [hfull, hheader, Nat.lt_of_not_le hheader]

/-- A header that names one byte of data, with the checksum of no data. -/
def bareHeader : List UInt8 :=
  List.replicate 15 0 ++ 1 :: List.replicate 48 0

/-- The header alone is accepted, though the byte it names is missing. -/
theorem imageVerify_accepts_bare :
    (imageVerify (fun _ => CRC_BUF_SIZE) bareHeader).ret = 0 ∧ ¬ Whole bareHeader := by
  constructor
  · rw [imageVerify_ret]
    have hdata : imageData bareHeader = [] := rfl
    rw [hdata, crc32_nil]
    exact ⟨Nat.le_refl _, rfl⟩
  · intro hwhole
    have hlen := hwhole.1
    revert hlen
    decide

/-! ## The check of an image's header

Before an image is written, its header is read to the front of a zeroed buffer
and checked. The platform stands behind an ampersand in the field of the name,
which is searched and copied as a string.
-/

def IH_MAGIC : UInt32 := 0x27051956

/-- `IH_NMLEN`. -/
def IH_NMLEN : ℕ := 32

/-- `sizeof(platform)`. -/
def PLATFORM_SIZE : ℕ := 10

def AMP : UInt8 := 0x26

/-- How a check ends. -/
inductive Verdict where
  | ret (n : ℕ)
  | exit (status : ℕ)
  deriving DecidableEq

/-- The end of a check, whether it left the mark of a wrong image, how far it has read the buffer at
most, and how much of `platform` it has written. -/
structure Checked where
  verdict : Verdict
  fwIncorrect : Bool
  readEnd : ℕ
  platformEnd : ℕ

section
variable (nvram : CStr → Option CStr) (mtdSize : Option UInt32) (file : List UInt8)

/-- `nvram_safe_get`. -/
def nvramSafeGet (name : CStr) : CStr := (nvram name).getD CStr.empty

/-- The first byte of a variable, or its terminator. -/
def firstByte (name : CStr) : UInt8 := (nvramSafeGet nvram name).val.headD 0

/-- The product category: that of the series, if there is one. -/
def category : UInt8 :=
  if nvramSafeGet nvram (.ofString "prod_supercat") = CStr.empty then
    firstByte nvram (.ofString "prod_cat")
  else firstByte nvram (.ofString "prod_supercat")

/-- The checksum of the header with its own field cleared. -/
def headerChksum : UInt32 := crc32 0 (poke (file.take IMAGE_HEADER) 4 [0, 0, 0, 0])

/-- A byte of `ih_time`. -/
def timeByte (i : ℕ) : UInt8 := file.getD (8 + i) 0

/-- What `buf` holds from `ih_name` on. -/
def nameMemory : List UInt8 :=
  (file.take IMAGE_HEADER ++ List.replicate (BUFSIZE - IMAGE_HEADER) 0).drop IH_NMLEN

/-- The last part of `image_check`: `mtd_open` and `MEMGETINFO` give the size, or one of them
fails. -/
def sizeVerdict : Verdict :=
  match mtdSize with
  | none => .exit 1
  | some size => if size < ihSize file + 64 then .ret 0 else .ret 1

/-- The part of `image_check` behind `strstr`, with what it has read of `buf` by then. -/
def platformCheck (readEnd : ℕ) : Option CStr → Checked
  | none => ⟨sizeVerdict mtdSize file, false, readEnd, 0⟩
  | some platform =>
    if platform ≠ nvramSafeGet nvram (.ofString "platform") then
      ⟨.exit 1, false, readEnd, platform.len + 1⟩
    else ⟨sizeVerdict mtdSize file, false, readEnd, platform.len + 1⟩

/-- `image_check`. -/
def imageCheck : Checked :=
  if file.length < IMAGE_HEADER then ⟨.ret 0, false, 0, 0⟩
  else if ntohl (file.take 4) ≠ IH_MAGIC then ⟨.ret 0, false, IMAGE_HEADER, 0⟩
  else if ntohl ((file.drop 4).take 4) ≠ headerChksum file then ⟨.exit 1, true, IMAGE_HEADER, 0⟩
  else if timeByte file 0 ≠ category nvram then ⟨.exit 1, true, IMAGE_HEADER, 0⟩
  else if timeByte file 1 ≠ firstByte nvram (.ofString "prod_subcat") then
    ⟨.exit 1, true, IMAGE_HEADER, 0⟩
  else
    let ihName := CStr.read (nameMemory file)
    platformCheck nvram mtdSize file (max IMAGE_HEADER (IH_NMLEN + ihName.len + 1))
      ((CStr.cut AMP ihName).map Prod.snd)

/-! ## What is asked for -/

/-- The field of the name. -/
def nameField : List UInt8 := (file.drop IH_NMLEN).take IH_NMLEN

/-- The text behind the first ampersand of a field, up to a terminator or the end of the field. -/
def platformText (field : List UInt8) : List UInt8 :=
  (field.dropWhile (· ≠ AMP)).tail.takeWhile (· ≠ 0)

/-- The checks in front of the one of the platform. -/
structure Passes : Prop where
  header : IMAGE_HEADER ≤ file.length
  magic : ntohl (file.take 4) = IH_MAGIC
  chksum : ntohl ((file.drop 4).take 4) = headerChksum file
  category : timeByte file 0 = category nvram
  subcategory : timeByte file 1 = firstByte nvram (.ofString "prod_subcat")

/-- The image is one for this router. -/
structure RightImage : Prop where
  passes : Passes nvram file
  size : ∃ size, mtdSize = some size ∧ (ihSize file).toNat + IMAGE_HEADER ≤ size.toNat
  platform : AMP ∈ nameField file →
    platformText (nameField file) = (nvramSafeGet nvram (.ofString "platform")).val

/-- The check reads only inside the header, writes only inside its array and accepts only images for
this router. -/
structure ChecksImage : Prop where
  reads : (imageCheck nvram mtdSize file).readEnd ≤ IMAGE_HEADER
  writes : (imageCheck nvram mtdSize file).platformEnd ≤ PLATFORM_SIZE
  accepts : (imageCheck nvram mtdSize file).verdict = .ret 1 → RightImage nvram mtdSize file

/-! ## The condition -/

/-- The name up to its terminator or to the end of its field, cut at the first ampersand. -/
def platformPart : Option CStr := (CStr.cut AMP (CStr.read (nameField file))).map Prod.snd

/-- Nothing but the sum of the sizes, on 32 bits, is left to decide, and it is not above the size of
the partition. -/
structure Fits : Prop where
  platform : ∀ t, platformPart file = some t → t = nvramSafeGet nvram (.ofString "platform")
  size : ∃ size, mtdSize = some size ∧ ihSize file + 64 ≤ size

/-- A header that gets to the check of the platform has a terminated name with a short platform. If
the image then fits, the sum of the sizes does not overflow, and an ampersand that stands behind the
terminator has the platform behind it. -/
structure Decent : Prop where
  terminated : 0 ∈ nameField file
  short : ∀ t, platformPart file = some t → t.len < PLATFORM_SIZE
  size : Fits nvram mtdSize file → (ihSize file).toNat + IMAGE_HEADER < 2 ^ 32
  hidden : Fits nvram mtdSize file → platformPart file = none → AMP ∈ nameField file →
    platformText (nameField file) = (nvramSafeGet nvram (.ofString "platform")).val

end

/-! ## The name -/

section
variable {nvram : CStr → Option CStr} {mtdSize : Option UInt32} {file : List UInt8}

theorem nameMemory_eq (h : IMAGE_HEADER ≤ file.length) :
    nameMemory file = nameField file ++ List.replicate (BUFSIZE - IMAGE_HEADER) 0 := by
  have htake : IH_NMLEN ≤ (file.take IMAGE_HEADER).length := by
    rw [List.length_take, min_eq_left h]
    decide
  rw [nameMemory, List.drop_append_of_le_length htake, List.drop_take]
  rfl

/-- The name is read as what its field holds of it. -/
theorem read_nameMemory (h : IMAGE_HEADER ≤ file.length) :
    CStr.read (nameMemory file) = CStr.read (nameField file) := by
  rw [nameMemory_eq h]
  by_cases hzero : (0 : UInt8) ∈ nameField file
  · exact CStr.read_append_of_mem hzero
  · have hrep : List.replicate (BUFSIZE - IMAGE_HEADER) (0 : UInt8) =
        0 :: List.replicate (BUFSIZE - IMAGE_HEADER - 1) 0 := rfl
    have hstored := CStr.read_stored_append ⟨nameField file, hzero⟩
      (List.replicate (BUFSIZE - IMAGE_HEADER - 1) 0)
    rw [CStr.stored, List.append_assoc, List.singleton_append] at hstored
    rw [CStr.read_of_free hzero, hrep, hstored]

theorem nameField_length (h : IMAGE_HEADER ≤ file.length) : (nameField file).length = IH_NMLEN := by
  rw [nameField, List.length_take, List.length_drop]
  rw [IMAGE_HEADER] at h
  rw [IH_NMLEN]
  omega

/-- The name is read inside its field exactly if it is terminated there. -/
theorem readEnd_iff (h : IMAGE_HEADER ≤ file.length) :
    max IMAGE_HEADER (IH_NMLEN + (CStr.read (nameMemory file)).len + 1) ≤ IMAGE_HEADER ↔
      0 ∈ nameField file := by
  have hlen := nameField_length h
  rw [read_nameMemory h]
  constructor
  · intro hmax
    by_contra hzero
    rw [CStr.read_of_free hzero] at hmax
    change max IMAGE_HEADER (IH_NMLEN + (nameField file).length + 1) ≤ IMAGE_HEADER at hmax
    rw [hlen, IMAGE_HEADER, IH_NMLEN] at hmax
    omega
  · intro hzero
    have hlt := CStr.read_len_lt hzero
    rw [hlen] at hlt
    rw [IMAGE_HEADER]
    rw [IH_NMLEN] at hlt ⊢
    omega

/-- The part behind an ampersand that the search finds is the platform. -/
theorem platformText_of_part {t : CStr} (h : platformPart file = some t) :
    AMP ∈ nameField file ∧ platformText (nameField file) = t.val := by
  obtain ⟨⟨a, t'⟩, hcut, rfl⟩ := Option.map_eq_some_iff.mp h
  have hamp : AMP ≠ 0 := by decide
  have hglue := congrArg Subtype.val (CStr.eq_glue_of_cut hamp hcut)
  have hfree := CStr.cut_left_not_mem hcut
  have hsplit := List.takeWhile_append_dropWhile (p := (· != 0)) (l := nameField file)
  have hrest := List.head?_dropWhile_not (· != 0) (nameField file)
  generalize (nameField file).dropWhile (· != 0) = rest at hsplit hrest
  change (nameField file).takeWhile (· != 0) = a.val ++ AMP :: t'.val at hglue
  rw [hglue, List.append_assoc, List.cons_append] at hsplit
  rw [← hsplit]
  have hfront : ∀ b ∈ a.val, decide (b ≠ AMP) = true := by
    intro b hb
    simpa using ne_of_mem_of_not_mem hb hfree
  have hplain : ∀ b ∈ t'.val, decide (b ≠ 0) = true := by
    intro b hb
    simpa using ne_of_mem_of_not_mem hb t'.property
  have hstop : rest.takeWhile (· ≠ 0) = [] := by
    cases rest with
    | nil => rfl
    | cons b rest =>
      obtain rfl : b = 0 := by simpa using hrest
      simp
  refine ⟨by simp, ?_⟩
  rw [platformText, List.dropWhile_append_of_pos hfront, List.dropWhile_cons_of_neg (by simp),
    List.tail_cons, List.takeWhile_append_of_pos hplain, hstop, List.append_nil]

/-- A header that fails an early check is rejected there. -/
theorem imageCheck_early (h : ¬ Passes nvram file) :
    (imageCheck nvram mtdSize file).readEnd ≤ IMAGE_HEADER ∧
      (imageCheck nvram mtdSize file).platformEnd = 0 ∧
      (imageCheck nvram mtdSize file).verdict ≠ .ret 1 := by
  unfold imageCheck
  split_ifs with hshort hmagic hchksum hcategory hsub
  · simp
  · simp
  · simp
  · simp
  · simp
  · exact absurd ⟨not_lt.mp hshort, not_not.mp hmagic, not_not.mp hchksum, not_not.mp hcategory,
      not_not.mp hsub⟩ h

/-- What is done with a header that passes the early checks. -/
theorem imageCheck_passes (h : Passes nvram file) :
    imageCheck nvram mtdSize file = platformCheck nvram mtdSize file
      (max IMAGE_HEADER (IH_NMLEN + (CStr.read (nameMemory file)).len + 1)) (platformPart file) := by
  rw [imageCheck, if_neg (not_lt.mpr h.header), if_neg (not_not_intro h.magic),
    if_neg (not_not_intro h.chksum), if_neg (not_not_intro h.category),
    if_neg (not_not_intro h.subcategory), platformPart, ← read_nameMemory h.header]

theorem sizeVerdict_iff :
    sizeVerdict mtdSize file = .ret 1 ↔ ∃ size, mtdSize = some size ∧ ihSize file + 64 ≤ size := by
  unfold sizeVerdict
  cases mtdSize with
  | none => simp
  | some size =>
    dsimp only
    split_ifs with hsize
    · simpa using UInt32.not_le.mpr hsize
    · simpa using UInt32.not_lt.mp hsize

/-- What becomes of a header that passes the early checks. -/
theorem imageCheck_late (h : Passes nvram file) :
    ((imageCheck nvram mtdSize file).readEnd ≤ IMAGE_HEADER ↔ 0 ∈ nameField file) ∧
      ((imageCheck nvram mtdSize file).platformEnd ≤ PLATFORM_SIZE ↔
        ∀ t, platformPart file = some t → t.len < PLATFORM_SIZE) ∧
      ((imageCheck nvram mtdSize file).verdict = .ret 1 ↔ Fits nvram mtdSize file) := by
  have hread := readEnd_iff h.header
  have hsize := @sizeVerdict_iff mtdSize file
  rw [imageCheck_passes h]
  cases hpart : platformPart file with
  | none =>
    rw [platformCheck]
    refine ⟨hread, by simp, hsize.trans ⟨fun hs => ⟨by simp [hpart], hs⟩, fun hf => hf.size⟩⟩
  | some platform =>
    rw [platformCheck]
    by_cases heq : platform = nvramSafeGet nvram (.ofString "platform")
    · rw [if_neg (not_not_intro heq)]
      refine ⟨hread, Nat.succ_le_iff.trans (by simp),
        hsize.trans ⟨fun hs => ⟨?_, hs⟩, fun hf => hf.size⟩⟩
      rintro t ht
      exact (Option.some.inj (hpart.symm.trans ht)).symm.trans heq
    · rw [if_pos heq]
      refine ⟨hread, Nat.succ_le_iff.trans (by simp), ?_⟩
      apply iff_of_false
      · simp
      · exact fun hf => heq (hf.platform platform hpart)

/-- On 32 bits the sum of the sizes is the sum or too small by `2 ^ 32`. -/
theorem sum_toNat (file : List UInt8) :
    (ihSize file + 64).toNat = ((ihSize file).toNat + IMAGE_HEADER) % 2 ^ 32 := by
  rw [UInt32.toNat_add]
  rfl

/-- An accepted image is one for this router exactly if the sum did not overflow and a hidden
platform is the right one. -/
theorem rightImage_iff (h : Passes nvram file) (hfits : Fits nvram mtdSize file) :
    RightImage nvram mtdSize file ↔ (ihSize file).toNat + IMAGE_HEADER < 2 ^ 32 ∧
      (platformPart file = none → AMP ∈ nameField file →
        platformText (nameField file) = (nvramSafeGet nvram (.ofString "platform")).val) := by
  obtain ⟨hplatform, size, hmtd, hle⟩ := hfits
  have hlt := size.toNat_lt
  have hsum := sum_toNat file
  have hle' : (ihSize file + 64).toNat ≤ size.toNat := UInt32.le_iff_toNat_le.mp hle
  constructor
  · rintro ⟨-, ⟨size', hmtd', hright⟩, htext⟩
    obtain rfl : size = size' := Option.some.inj (hmtd.symm.trans hmtd')
    exact ⟨by omega, fun _ hamp => htext hamp⟩
  · rintro ⟨hbound, hhidden⟩
    refine ⟨h, ⟨size, hmtd, ?_⟩, fun hamp => ?_⟩
    · rw [Nat.mod_eq_of_lt hbound] at hsum
      omega
    · cases hpart : platformPart file with
      | none => exact hhidden hpart hamp
      | some t => rw [(platformText_of_part hpart).2, hplatform t hpart]

end

/-- The check is sound exactly for the headers that fail an early check and for decent ones. -/
theorem imageCheck_sound_iff (nvram : CStr → Option CStr) (mtdSize : Option UInt32)
    (file : List UInt8) : ChecksImage nvram mtdSize file ↔
      (Passes nvram file → Decent nvram mtdSize file) := by
  by_cases h : Passes nvram file
  · obtain ⟨hread, hwrite, hverdict⟩ := @imageCheck_late _ mtdSize _ h
    constructor
    · rintro ⟨hreads, hwrites, haccepts⟩ -
      refine ⟨hread.mp hreads, hwrite.mp hwrites, fun hfits => ?_, fun hfits => ?_⟩
      · exact ((rightImage_iff h hfits).mp (haccepts (hverdict.mpr hfits))).1
      · exact ((rightImage_iff h hfits).mp (haccepts (hverdict.mpr hfits))).2
    · intro hdecent
      obtain ⟨hterminated, hshort, hsize, hhidden⟩ := hdecent h
      refine ⟨hread.mpr hterminated, hwrite.mpr hshort, fun hret => ?_⟩
      have hfits := hverdict.mp hret
      exact (rightImage_iff h hfits).mpr ⟨hsize hfits, hhidden hfits⟩
  · obtain ⟨hreads, hwrites, hverdict⟩ := @imageCheck_early _ mtdSize _ h
    refine iff_of_true ⟨hreads, ?_, fun hret => absurd hret hverdict⟩ fun hp => absurd hp h
    rw [hwrites]
    exact Nat.zero_le _

/-! ## A name without a terminator -/

/-- The variables of a router. -/
def routerVariables (name : CStr) : Option CStr :=
  if name = .ofString "prod_cat" then some (.ofString "A")
  else if name = .ofString "prod_subcat" then some (.ofString "B")
  else if name = .ofString "platform" then some (.ofString "RT3052")
  else none

/-- The magic number. -/
def magicBytes : List UInt8 := [0x27, 0x05, 0x19, 0x56]

/-- A header with its checksum, made from the part behind the checksum. -/
def stamped (behind : List UInt8) : List UInt8 :=
  magicBytes ++ (leBytes 4 (crc32 0 (magicBytes ++ [0, 0, 0, 0] ++ behind)).toNat).reverse ++ behind

theorem stamped_chksum {behind : List UInt8} (h : behind.length = 56) :
    (stamped behind).length = IMAGE_HEADER ∧
      ntohl (((stamped behind).drop 4).take 4) = headerChksum (stamped behind) := by
  have hsize : (stamped behind).length = IMAGE_HEADER := by
    simp [stamped, magicBytes, h, IMAGE_HEADER]
  refine ⟨hsize, ?_⟩
  rw [headerChksum, List.take_of_length_le hsize.le, stamped]
  generalize hcrc : crc32 0 (magicBytes ++ [0, 0, 0, 0] ++ behind) = crc
  have hfield : (leBytes 4 crc.toNat).reverse.length = 4 := by simp
  have hread : ofLe (leBytes 4 crc.toNat) = crc.toNat := by
    rw [ofLe_leBytes]
    exact Nat.mod_eq_of_lt crc.toNat_lt
  have hdrop : (magicBytes ++ (leBytes 4 crc.toNat).reverse ++ behind).drop 4 =
      (leBytes 4 crc.toNat).reverse ++ behind := by
    rw [List.append_assoc]
    rfl
  have hclear : poke (magicBytes ++ (leBytes 4 crc.toNat).reverse ++ behind) 4 [0, 0, 0, 0] =
      magicBytes ++ [0, 0, 0, 0] ++ behind := by
    rw [poke, List.append_assoc, List.append_assoc, List.append_assoc]
    congr 2
  rw [hdrop, List.take_left' hfield, hclear, hcrc, ntohl, List.reverse_reverse, hread,
    UInt32.ofNat_toNat]

/-- The part behind the checksum, with a name of an ampersand and 31 letters. -/
def unterminatedPart : List UInt8 :=
  [0x41, 0x42, 0x10, 0] ++ List.replicate 20 0 ++ 0x26 :: List.replicate 31 0x41

theorem unterminatedImage_passes : Passes routerVariables (stamped unterminatedPart) where
  header := (stamped_chksum (by decide)).1.ge
  magic := by decide +kernel
  chksum := (stamped_chksum (by decide)).2
  category := by decide +kernel
  subcategory := by decide +kernel

/-- The name is read past the end of the header. -/
theorem unterminatedImage_overread :
    ¬ ChecksImage routerVariables none (stamped unterminatedPart) := by
  intro h
  have hzero := (imageCheck_late unterminatedImage_passes).1.mp h.reads
  exact absurd hzero (by decide)

end EzpFirmware.Mtd
