import EzpFirmware.Lib.CString
import EzpFirmware.Lib.Crc
import EzpFirmware.Lib.LittleEndian
import EzpFirmware.Lib.Streams

/-! # Nodes of a journalling file system

A block is a row of nodes, each with its length in its head and filled up to
four bytes, with something that is not a node behind the last one. The tool takes
the fields in the byte order of the machine, here least significant byte first.
-/
namespace EzpFirmware.Jffs2
open Lib

/-- `JFFS2_MAGIC_BITMASK`. -/
def JFFS2_MAGIC_BITMASK : ℕ := 0x1985

/-- `JFFS2_NODETYPE_DIRENT`. -/
def JFFS2_NODETYPE_DIRENT : ℕ := 0xe001

/-- `JFFS2_NODETYPE_INODE`. -/
def JFFS2_NODETYPE_INODE : ℕ := 0xe002

/-- `sizeof(struct jffs2_raw_dirent)`. -/
def RAW_DIRENT : ℕ := 40

/-- `sizeof(struct jffs2_raw_inode)`. -/
def RAW_INODE : ℕ := 68

/-- `PAD` on a `uint32_t`. -/
def PAD (x : ℕ) : ℕ := (x + 3) % 2 ^ 32 / 4 * 4

/-- A `jint16_t` field. -/
def half (b : List UInt8) (o : ℕ) : ℕ := ofLe ((b.drop o).take 2)

/-- A `jint32_t` field. -/
def word (b : List UInt8) (o : ℕ) : ℕ := ofLe ((b.drop o).take 4)

/-- A `uint8_t` field. -/
def octet (b : List UInt8) (o : ℕ) : ℕ := ofLe ((b.drop o).take 1)

/-- A node is a directory entry. -/
def IsDirent (n : List UInt8) : Prop := half n 2 = JFFS2_NODETYPE_DIRENT

/-- A node carries data of an inode. -/
def IsInode (n : List UInt8) : Prop := half n 2 = JFFS2_NODETYPE_INODE

instance (n : List UInt8) : Decidable (IsDirent n) :=
  inferInstanceAs (Decidable (half n 2 = JFFS2_NODETYPE_DIRENT))

instance (n : List UInt8) : Decidable (IsInode n) :=
  inferInstanceAs (Decidable (half n 2 = JFFS2_NODETYPE_INODE))

/-- The bytes of a node agree with its own account of them. -/
structure WellFormed (n : List UInt8) : Prop where
  magic : half n 0 = JFFS2_MAGIC_BITMASK
  totlen : word n 4 = n.length
  header : 12 ≤ n.length
  dirent : IsDirent n → n.length = RAW_DIRENT + octet n 28 ∧ 0 < octet n 28 ∧
    (0 : UInt8) ∉ n.drop RAW_DIRENT
  inode : IsInode n → RAW_INODE ≤ n.length

/-- A block holds a row of nodes, and what is behind the last is not one. -/
inductive Chain : List UInt8 → List (List UInt8) → Prop where
  | nil {rest} : (rest ≠ [] → 2 ≤ rest.length ∧ half rest 0 ≠ JFFS2_MAGIC_BITMASK) → Chain rest []
  | cons {n fill rest ns} : WellFormed n → (n ++ fill).length = PAD n.length → Chain rest ns →
      Chain (n ++ fill ++ rest) (n :: ns)

/-- The blocks of a file system: each is a row of nodes, and all are of the erase size, which
is an `int`. -/
inductive FileSystem (erasesize : ℕ) : List (List UInt8) → List (List UInt8) → Prop where
  | nil : FileSystem erasesize [] []
  | cons {block ns blocks ns'} : block.length = erasesize → erasesize < 2 ^ 31 → Chain block ns →
      FileSystem erasesize blocks ns' → FileSystem erasesize (block :: blocks) (ns ++ ns')

/-! ## Appending a file to a file system

The tool collects nodes in a buffer of one erase block and writes the buffer out
when it is full. A block starts with a marker, a node never crosses the end of
one, and after the last node there is a block with an end mark.
-/

/-- `crc32` of the tool: the register is not inverted. -/
def crc32 (val : UInt32) (bytes : List UInt8) : UInt32 := crcBytes 0xedb88320 val bytes

/-- `CLEANMARKER`. -/
def CLEANMARKER : List UInt8 :=
  [0x85, 0x19, 0x03, 0x20, 0x0c, 0x00, 0x00, 0x00, 0xb1, 0xb0, 0x1e, 0xe4]

/-- `JFFS2_EOF`. -/
def JFFS2_EOF : List UInt8 := [0xde, 0xad, 0xc0, 0xde]

/-- The name of a file or directory: neither empty nor longer than `NAME_MAX`. -/
abbrev Name := {n : CStr // 0 < n.len ∧ n.len ≤ 255}

/-- What `stat` says of the file that goes into its nodes. -/
structure Stat where
  mode : ℕ
  atime : ℕ
  mtime : ℕ
  ctime : ℕ
  size : ℕ

/-- A file that `stat` accepts: its size is an `off_t`. -/
structure SourceFile where
  name : Name
  stat : Stat
  content : List UInt8
  length_lt : content.length < 2 ^ 31

/-- The fields of a struct one behind the other, each with its width. -/
def fieldBytes (fields : List (ℕ × ℕ)) : List UInt8 := fields.flatMap fun f => leBytes f.1 f.2

/-- The fields of a `jffs2_raw_dirent` in front of its last two checksums. -/
def direntFields (size type parent ino version hdrCrc : ℕ) : List UInt8 :=
  fieldBytes [(2, JFFS2_MAGIC_BITMASK), (2, JFFS2_NODETYPE_DIRENT), (4, RAW_DIRENT + size),
    (4, hdrCrc), (4, parent), (4, version), (4, ino), (4, 0), (1, size), (1, type), (2, 0)]

/-- A `jffs2_raw_dirent` as `add_dirent` fills it, and the name. -/
def rawDirent (name : List UInt8) (type parent ino version : ℕ) : List UInt8 :=
  let hdrCrc := crc32 0 ((direntFields name.length type parent ino version 0).take 8)
  let fields := direntFields name.length type parent ino version hdrCrc.toNat
  fields ++ leBytes 4 (crc32 0 fields).toNat ++ leBytes 4 (crc32 0 name).toNat ++ name

/-- The fields of a `jffs2_raw_inode` in front of its last two checksums. -/
def inodeFields (st : Stat) (ino version offset size hdrCrc : ℕ) : List UInt8 :=
  fieldBytes [(2, JFFS2_MAGIC_BITMASK), (2, JFFS2_NODETYPE_INODE), (4, RAW_INODE + size),
    (4, hdrCrc), (4, ino), (4, version), (4, st.mode), (2, 0), (2, 0), (4, st.size),
    (4, st.atime), (4, st.mtime), (4, st.ctime), (4, offset), (4, size), (4, size), (1, 0), (1, 0),
    (2, 0)]

/-- A `jffs2_raw_inode` as `add_dir` and `add_file` fill it, for the data that follows it. -/
def rawInode (st : Stat) (ino version offset : ℕ) (data : List UInt8) : List UInt8 :=
  let hdrCrc := crc32 0 ((inodeFields st ino version offset data.length 0).take 8)
  let fields := inodeFields st ino version offset data.length hdrCrc.toNat
  fields ++ leBytes 4 (crc32 0 data).toNat ++ leBytes 4 (crc32 0 fields).toNat

/-- The variables of the file: the buffer, the offset in it, the last numbers, the offset in the
partition, and the blocks that were erased and written, with their offsets. -/
structure Appender where
  buf : List UInt8
  ofs : ℕ
  lastIno : ℕ
  lastVersion : ℕ
  mtdofs : ℕ
  written : List (ℕ × List UInt8)

variable (erasesize : ℕ)

/-- The end of `pad`: a full buffer is written out. -/
def Appender.wrap (s : Appender) : Appender :=
  let s := { s with ofs := s.ofs % erasesize }
  if s.ofs = 0 then
    { s with
      written := s.written ++ [(s.mtdofs, s.buf.take erasesize)]
      mtdofs := s.mtdofs + erasesize }
  else s

/-- `memcpy` or `memset` to the offset in the buffer. -/
def Appender.put (s : Appender) (data : List UInt8) : Appender :=
  { s with buf := poke s.buf s.ofs data, ofs := s.ofs + data.length }

/-- `pad`. -/
def Appender.pad (size : ℕ) (s : Appender) : Appender :=
  if s.ofs % size = 0 ∧ s.ofs < erasesize then s
  else if s.ofs < erasesize then
    (s.put (List.replicate (size - s.ofs % size) 0xff)).wrap erasesize
  else s.wrap erasesize

/-- `rbytes`. -/
def Appender.rbytes (s : Appender) : ℕ := erasesize - s.ofs % erasesize

/-- `prep_eraseblock`. The marker has room in a block of at least its length; in a shorter one
the source calls itself without end. -/
def Appender.prepEraseblock (s : Appender) : Appender :=
  if 0 < s.ofs then s else s.put CLEANMARKER

/-- `add_data`. -/
def Appender.addData (data : List UInt8) (s : Appender) : Appender :=
  if erasesize < s.ofs + data.length then
    ((s.pad erasesize erasesize).prepEraseblock).put data
  else s.put data

/-- `add_dirent`, with the inode number that it returns. The test for room takes the difference
of two signed numbers as an unsigned one. -/
def Appender.addDirent (name : Name) (type parent : ℕ) (s : Appender) : ℕ × Appender :=
  let s := if ((s.ofs : ℤ) - erasesize) % 2 ^ 32 < (RAW_DIRENT + name.val.len : ℕ) then
    s.pad erasesize erasesize else s
  let s := s.prepEraseblock
  let s := { s with lastIno := s.lastIno + 1 }
  let ino := s.lastIno
  let de := rawDirent name.val.val type parent ino s.lastVersion
  let s := { s with lastIno := s.lastIno + 1, lastVersion := s.lastVersion + 1 }
  (ino, (s.put de).pad erasesize 4)

/-- `add_dir`, with the inode number that it returns. -/
def Appender.addDir (name : Name) (parent : ℕ) (s : Appender) : ℕ × Appender :=
  let (inode, s) := s.addDirent erasesize name 4 parent
  let s := if s.rbytes erasesize < RAW_INODE then s.pad erasesize erasesize else s
  let s := s.prepEraseblock
  let ri := rawInode ⟨0o040755, 0, 0, 0, 0⟩ inode 1 0 []
  (inode, (s.addData erasesize ri).pad erasesize 4)

/-- The loops of `add_file`, from the test for room on, for a number of turns. The size of each
read is given by what it would hand out. -/
def Appender.fileLoop (st : Stat) (inode : ℕ) :
    ℕ → (ℕ → ℕ) → List UInt8 → ℕ → Appender → Option Appender
  | 0, _, _, _, _ => none
  | turns + 1, wants, rest, offset, s =>
    if (s.rbytes erasesize : ℤ) - RAW_INODE ≤ 128 then
      fileLoop st inode turns wants rest offset (s.pad erasesize erasesize).prepEraseblock
    else
      let len := min (s.rbytes erasesize - RAW_INODE) 4096
      let n := readLen len (wants 0) rest.length
      if n = 0 then some s
      else
        let wbuf := rest.take n
        let s := { s with lastVersion := s.lastVersion + 1 }
        let s := s.addData erasesize (rawInode st inode s.lastVersion offset wbuf)
        let s := (s.addData erasesize wbuf).pad erasesize 4
        fileLoop st inode turns (fun k => wants (k + 1)) (rest.drop n) (offset + n)
          s.prepEraseblock

/-- `add_file`. -/
def Appender.addFile (turns : ℕ) (wants : ℕ → ℕ) (file : SourceFile) (parent : ℕ)
    (s : Appender) : Option Appender :=
  let (inode, s) := s.addDirent erasesize file.name 8 parent
  s.fileLoop erasesize file.stat inode turns wants file.content 0

/-- The steps of `mtd_write_jffs2` behind the parsing: the directory if it is missing, the file,
the end mark. -/
def Appender.append (turns : ℕ) (wants : ℕ → ℕ) (dir : Name) (file : SourceFile)
    (targetIno : ℕ) (s : Appender) : Option Appender :=
  let s := { s with ofs := 0, lastIno := if s.lastIno = 0 then 1 else s.lastIno }
  let (targetIno, s) := if targetIno = 0 then s.addDir erasesize dir 1 else (targetIno, s)
  (s.addFile erasesize turns wants file targetIno).map fun s =>
    ((s.pad erasesize erasesize).addData erasesize JFFS2_EOF).pad erasesize erasesize

end EzpFirmware.Jffs2
