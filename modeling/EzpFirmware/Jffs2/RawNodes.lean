import EzpFirmware.Jffs2.Append
import EzpFirmware.Jffs2.Scan

/-! # The nodes that the tool writes

Every field of a directory entry or inode node that the tool fills is read back
by the parser's own accessors, and the nodes are well formed.
-/
namespace EzpFirmware.Jffs2
open Lib

/-- A field in front of the one that is looked for. -/
theorem drop_field {w k : ℕ} (h : w ≤ k) (x : ℕ) (r : List UInt8) :
    (leBytes w x ++ r).drop k = r.drop (k - w) := by
  rw [List.drop_append, leBytes_length, List.drop_eq_nil_of_le, List.nil_append]
  rw [leBytes_length]
  exact h

section Dirent

variable (size type parent ino version hdrCrc : ℕ) (r : List UInt8)

theorem direntFields_length : (direntFields size type parent ino version hdrCrc).length = 32 := by
  simp [direntFields, fieldBytes]

theorem direntFields_magic : half (direntFields size type parent ino version hdrCrc ++ r) 0 =
    JFFS2_MAGIC_BITMASK := by
  simp [direntFields, fieldBytes, half, ofLe_leBytes, JFFS2_MAGIC_BITMASK]

theorem direntFields_nodetype : half (direntFields size type parent ino version hdrCrc ++ r) 2 =
    JFFS2_NODETYPE_DIRENT := by
  simp [direntFields, fieldBytes, half, ofLe_leBytes, JFFS2_NODETYPE_DIRENT]

theorem direntFields_totlen : word (direntFields size type parent ino version hdrCrc ++ r) 4 =
    (RAW_DIRENT + size) % 2 ^ 32 := by
  simp [direntFields, fieldBytes, word, drop_field, ofLe_leBytes]

theorem direntFields_version : word (direntFields size type parent ino version hdrCrc ++ r) 16 =
    version % 2 ^ 32 := by
  simp [direntFields, fieldBytes, word, drop_field, ofLe_leBytes]

theorem direntFields_ino : word (direntFields size type parent ino version hdrCrc ++ r) 20 =
    ino % 2 ^ 32 := by
  simp [direntFields, fieldBytes, word, drop_field, ofLe_leBytes]

theorem direntFields_nsize : octet (direntFields size type parent ino version hdrCrc ++ r) 28 =
    size % 2 ^ 8 := by
  simp [direntFields, fieldBytes, octet, drop_field, ofLe_leBytes]

end Dirent

section Entry

variable (name : List UInt8) (type parent ino version : ℕ)

theorem rawDirent_length : (rawDirent name type parent ino version).length =
    RAW_DIRENT + name.length := by
  simp only [rawDirent, List.length_append, direntFields_length, leBytes_length, RAW_DIRENT]

theorem rawDirent_isDirent : IsDirent (rawDirent name type parent ino version) := by
  simp only [IsDirent, rawDirent, List.append_assoc, direntFields_nodetype]

theorem rawDirent_version : nodeVersion (rawDirent name type parent ino version) =
    version % 2 ^ 32 := by
  simp only [nodeVersion, rawDirent, List.append_assoc, direntFields_version]

theorem rawDirent_ino : word (rawDirent name type parent ino version) 20 = ino % 2 ^ 32 := by
  simp only [rawDirent, List.append_assoc, direntFields_ino]

theorem rawDirent_name : entryName (rawDirent name type parent ino version) = name := by
  have hlen := rawDirent_length name type parent ino version
  rw [rawDirent, List.length_append, Nat.add_right_cancel_iff] at hlen
  rw [entryName, rawDirent, ← hlen, List.drop_left]

end Entry

theorem rawDirent_wellFormed (name : Name) (type parent ino version : ℕ) :
    WellFormed (rawDirent name.val.val type parent ino version) := by
  obtain ⟨hpos, hle⟩ := name.property
  rw [CStr.len] at hpos hle
  have hlen := rawDirent_length name.val.val type parent ino version
  have hdirent := rawDirent_isDirent name.val.val type parent ino version
  have hsize : octet (rawDirent name.val.val type parent ino version) 28 = name.val.val.length := by
    simp only [rawDirent, List.append_assoc, direntFields_nsize]
    omega
  constructor
  · simp only [rawDirent, List.append_assoc, direntFields_magic]
  · rw [hlen]
    simp only [rawDirent, List.append_assoc, direntFields_totlen, RAW_DIRENT]
    omega
  · rw [hlen, RAW_DIRENT]
    omega
  · intro _
    rw [hlen, hsize]
    refine ⟨rfl, hpos, ?_⟩
    have hname := rawDirent_name name.val.val type parent ino version
    rw [entryName] at hname
    rw [hname]
    exact name.val.property
  · intro hinode
    rw [IsInode, hdirent] at hinode
    exact absurd hinode (by decide)

section Inode

variable (st : Stat) (ino version offset size hdrCrc : ℕ) (r : List UInt8)

theorem inodeFields_length : (inodeFields st ino version offset size hdrCrc).length = 60 := by
  simp [inodeFields, fieldBytes]

theorem inodeFields_magic : half (inodeFields st ino version offset size hdrCrc ++ r) 0 =
    JFFS2_MAGIC_BITMASK := by
  simp [inodeFields, fieldBytes, half, ofLe_leBytes, JFFS2_MAGIC_BITMASK]

theorem inodeFields_nodetype : half (inodeFields st ino version offset size hdrCrc ++ r) 2 =
    JFFS2_NODETYPE_INODE := by
  simp [inodeFields, fieldBytes, half, ofLe_leBytes, JFFS2_NODETYPE_INODE]

theorem inodeFields_totlen : word (inodeFields st ino version offset size hdrCrc ++ r) 4 =
    (RAW_INODE + size) % 2 ^ 32 := by
  simp [inodeFields, fieldBytes, word, drop_field, ofLe_leBytes]

theorem inodeFields_ino : word (inodeFields st ino version offset size hdrCrc ++ r) 12 =
    ino % 2 ^ 32 := by
  simp [inodeFields, fieldBytes, word, drop_field, ofLe_leBytes]

theorem inodeFields_version : word (inodeFields st ino version offset size hdrCrc ++ r) 16 =
    version % 2 ^ 32 := by
  simp [inodeFields, fieldBytes, word, drop_field, ofLe_leBytes]

end Inode

section DataNode

variable (st : Stat) (ino version offset : ℕ) (data : List UInt8)

/-- An inode node with its data behind it. -/
def inodeNode : List UInt8 := rawInode st ino version offset data ++ data

theorem rawInode_length : (rawInode st ino version offset data).length = RAW_INODE := by
  simp only [rawInode, List.length_append, inodeFields_length, leBytes_length, RAW_INODE]

theorem inodeNode_length : (inodeNode st ino version offset data).length =
    RAW_INODE + data.length := by
  rw [inodeNode, List.length_append, rawInode_length]

theorem inodeNode_isInode : IsInode (inodeNode st ino version offset data) := by
  simp only [IsInode, inodeNode, rawInode, List.append_assoc, inodeFields_nodetype]

theorem inodeNode_ino : word (inodeNode st ino version offset data) 12 = ino % 2 ^ 32 := by
  simp only [inodeNode, rawInode, List.append_assoc, inodeFields_ino]

theorem inodeNode_version : nodeVersion (inodeNode st ino version offset data) =
    version % 2 ^ 32 := by
  simp only [nodeVersion, inodeNode, rawInode, List.append_assoc, inodeFields_version]

theorem inodeNode_data : (inodeNode st ino version offset data).drop RAW_INODE = data := by
  rw [inodeNode, ← rawInode_length st ino version offset data, List.drop_left]

end DataNode

theorem inodeNode_wellFormed (st : Stat) (ino version offset : ℕ) {data : List UInt8}
    (hdata : data.length ≤ 4096) : WellFormed (inodeNode st ino version offset data) := by
  have hlen := inodeNode_length st ino version offset data
  have hinode := inodeNode_isInode st ino version offset data
  constructor
  · simp only [inodeNode, rawInode, List.append_assoc, inodeFields_magic]
  · rw [hlen]
    simp only [inodeNode, rawInode, List.append_assoc, inodeFields_totlen, RAW_INODE]
    omega
  · rw [hlen, RAW_INODE]
    omega
  · intro hdirent
    rw [IsDirent, hinode] at hdirent
    exact absurd hdirent (by decide)
  · intro _
    rw [hlen]
    omega

/-- The marker at the start of a block is a node, and neither an entry nor an inode node. -/
theorem cleanmarker_wellFormed : WellFormed CLEANMARKER where
  magic := rfl
  totlen := rfl
  header := Nat.le_refl 12
  dirent h := absurd h (by decide)
  inode h := absurd h (by decide)

end EzpFirmware.Jffs2
