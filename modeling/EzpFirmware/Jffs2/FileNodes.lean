import EzpFirmware.Jffs2.Rows

/-! # The nodes of an appended file

A directory entry and a row of inode nodes with the file's data, each with the
next version, are written behind what the buffer holds. After them the block is
closed, and the end mark stands in a block of its own.
-/
namespace EzpFirmware.Jffs2
open Lib

variable {erasesize start : ℕ} {s : Appender} {nodes : List (List UInt8)}

/-- The numbers are not part of what the blocks hold. -/
theorem Appender.Carries.numbers (h : s.Carries erasesize start nodes) (ino version : ℕ) :
    Appender.Carries erasesize start { s with lastIno := ino, lastVersion := version } nodes := by
  obtain ⟨hlt, done, cur, hnodes, hb⟩ := h
  exact ⟨hlt, done, cur, hnodes, hb.length_buf, hb.ofs_le, hb.dvd, hb.row, hb.blocks, hb.offsets,
    hb.mtdofs⟩

/-- The markers that a block needs when it is begun. -/
def markers (s : Appender) : List (List UInt8) := if s.ofs = 0 then [CLEANMARKER] else []

/-- `add_dirent` puts a directory entry behind the nodes, where there is room for one. -/
theorem Appender.Carries.addDirent (hes : EraseSize erasesize)
    (h : s.Carries erasesize start nodes) (hroom : s.ofs + 308 < erasesize) (name : Name)
    (type parent : ℕ) :
    (s.addDirent erasesize name type parent).1 = s.lastIno + 1 ∧
    (s.addDirent erasesize name type parent).2.lastIno = s.lastIno + 2 ∧
    (s.addDirent erasesize name type parent).2.lastVersion = s.lastVersion + 1 ∧
    (s.addDirent erasesize name type parent).2.Carries erasesize start
      (nodes ++ markers s ++
        [rawDirent name.val.val type parent (s.lastIno + 1) s.lastVersion]) ∧
    0 < (s.addDirent erasesize name type parent).2.ofs ∧
    (s.addDirent erasesize name type parent).2.ofs ≤ s.ofs + 308 := by
  have hint := hes.int
  obtain ⟨hpos, hname⟩ := name.property
  rw [CStr.len] at hpos hname
  have htest : ¬ ((s.ofs : ℤ) - erasesize) % 2 ^ 32 < (RAW_DIRENT + name.val.len : ℕ) := by
    rw [RAW_DIRENT, CStr.len]
    omega
  obtain ⟨hprep, hofs⟩ := h.prepEraseblock hes
  have hsmall : s.prepEraseblock.ofs ≤ s.ofs + 12 := by
    rw [hofs]
    split_ifs <;> omega
  have hlen := rawDirent_length name.val.val type parent (s.lastIno + 1) s.lastVersion
  rw [RAW_DIRENT] at hlen
  have hpad : PAD (rawDirent name.val.val type parent (s.lastIno + 1) s.lastVersion).length ≤
      296 := by
    rw [hlen, PAD]
    omega
  have hmore : 0 < PAD (rawDirent name.val.val type parent (s.lastIno + 1)
      s.lastVersion).length := by
    rw [hlen, PAD]
    omega
  obtain ⟨hput, hend⟩ := (hprep.numbers (s.lastIno + 2) (s.lastVersion + 1)).put hes
    (rawDirent_wellFormed name type parent (s.lastIno + 1) s.lastVersion) (by
      rw [hlen]
      change s.prepEraseblock.ofs + _ ≤ _
      omega)
  have heq : s.addDirent erasesize name type parent = (s.lastIno + 1,
      (Appender.put { s.prepEraseblock with
          lastIno := s.lastIno + 2
          lastVersion := s.lastVersion + 1 }
        (rawDirent name.val.val type parent (s.lastIno + 1) s.lastVersion)).pad erasesize 4) := by
    rw [Appender.addDirent]
    simp only [htest, if_false, prepEraseblock_lastIno, prepEraseblock_lastVersion]
  rw [heq]
  rw [Nat.mod_eq_of_lt (by
    change s.prepEraseblock.ofs + _ < _
    omega)] at hend
  refine ⟨rfl, by simp [Appender.put], by simp [Appender.put], hput, ?_, ?_⟩
  · rw [hend]
    omega
  · rw [hend]
    change s.prepEraseblock.ofs + _ ≤ _
    omega

/-- The inode node of a directory. -/
def dirInode (ino : ℕ) : List UInt8 := rawInode ⟨0o040755, 0, 0, 0, 0⟩ ino 1 0 []

theorem dirInode_eq (ino : ℕ) : dirInode ino = inodeNode ⟨0o040755, 0, 0, 0, 0⟩ ino 1 0 [] := by
  rw [inodeNode, List.append_nil, dirInode]

/-- `add_dir` puts an entry and an inode node behind the nodes. -/
theorem Appender.Carries.addDir (hes : EraseSize erasesize)
    (h : s.Carries erasesize start nodes) (hroom : s.ofs + 376 < erasesize) (name : Name)
    (parent : ℕ) :
    (s.addDir erasesize name parent).1 = s.lastIno + 1 ∧
    (s.addDir erasesize name parent).2.lastIno = s.lastIno + 2 ∧
    (s.addDir erasesize name parent).2.lastVersion = s.lastVersion + 1 ∧
    (s.addDir erasesize name parent).2.Carries erasesize start
      (nodes ++ markers s ++ [rawDirent name.val.val 4 parent (s.lastIno + 1) s.lastVersion] ++
        [dirInode (s.lastIno + 1)]) ∧
    0 < (s.addDir erasesize name parent).2.ofs ∧
    (s.addDir erasesize name parent).2.ofs ≤ s.ofs + 376 := by
  obtain ⟨hino, hlast, hversion, hentry, hpos, hofs⟩ :=
    h.addDirent hes (by omega) name 4 parent
  set t := (s.addDirent erasesize name 4 parent).2 with ht
  have hlen : (dirInode (s.lastIno + 1)).length = 68 := rawInode_length _ _ _ _ _
  have hrbytes : t.rbytes erasesize = erasesize - t.ofs := by
    rw [rbytes, Nat.mod_eq_of_lt (by omega)]
  have hwf : WellFormed (dirInode (s.lastIno + 1)) := by
    rw [dirInode_eq]
    exact inodeNode_wellFormed _ _ _ _ (Nat.zero_le _)
  obtain ⟨hput, hend⟩ := hentry.put hes hwf (by omega)
  rw [hlen] at hend
  change _ = (t.ofs + 68) % erasesize at hend
  rw [Nat.mod_eq_of_lt (by omega)] at hend
  have heq : s.addDir erasesize name parent =
      (s.lastIno + 1, (t.put (dirInode (s.lastIno + 1))).pad erasesize 4) := by
    have hwide : ¬ t.rbytes erasesize < RAW_INODE := by
      rw [hrbytes, RAW_INODE]
      omega
    have hstay : t.prepEraseblock = t := if_pos hpos
    have hdata : t.addData erasesize (dirInode (s.lastIno + 1)) =
        t.put (dirInode (s.lastIno + 1)) := addData_eq (by omega)
    rw [Appender.addDir]
    simp only [← ht, hino, hwide, if_false, hstay]
    rw [← dirInode, hdata]
  rw [heq]
  refine ⟨rfl, ?_, ?_, hput, ?_, ?_⟩
  · simpa [Appender.put] using hlast
  · simpa [Appender.put] using hversion
  · rw [hend]
    omega
  · rw [hend]
    omega

/-- The nodes of a file's data from a version on, with the markers of the blocks between. -/
inductive FileNodes (inode : ℕ) : ℕ → List UInt8 → List (List UInt8) → Prop where
  | nil {v} : FileNodes inode v [] []
  | marker {v rest ns} : FileNodes inode v rest ns → FileNodes inode v rest (CLEANMARKER :: ns)
  | data {v st offset d rest ns} : d ≠ [] → FileNodes inode (v + 1) rest ns →
      FileNodes inode v (d ++ rest) (inodeNode st inode (v + 1) offset d :: ns)

theorem FileNodes.markers {inode v : ℕ} {rest : List UInt8} {ns : List (List UInt8)}
    (h : FileNodes inode v rest ns) (s : Appender) :
    FileNodes inode v rest (markers s ++ ns) := by
  rw [Jffs2.markers]
  split_ifs
  · exact h.marker
  · exact h

/-- A state with the next version. -/
def Appender.counted (s : Appender) : Appender := { s with lastVersion := s.lastVersion + 1 }

/-- One round of `add_file`: a node with a piece of the data. -/
theorem Appender.Carries.dataNode (hes : EraseSize erasesize)
    (h : s.Carries erasesize start nodes) (st : Stat) (inode offset : ℕ) {d : List UInt8}
    (hd : d.length ≤ 4096) (hroom : s.ofs + 68 + d.length ≤ erasesize) {u : Appender}
    (hu : u = (((s.counted.addData erasesize
      (rawInode st inode (s.lastVersion + 1) offset d)).addData erasesize d).pad erasesize 4)) :
    u.prepEraseblock.Carries erasesize start
      (nodes ++ inodeNode st inode (s.lastVersion + 1) offset d :: markers u) ∧
    u.prepEraseblock.lastVersion = s.lastVersion + 1 := by
  obtain ⟨head, hhead⟩ : ∃ head, head = rawInode st inode (s.lastVersion + 1) offset d := ⟨_, rfl⟩
  have hnode : inodeNode st inode (s.lastVersion + 1) offset d = head ++ d := by
    rw [hhead, inodeNode]
  have hlen : head.length = 68 := hhead ▸ rawInode_length _ _ _ _ _
  have hwf : WellFormed (head ++ d) := hnode ▸ inodeNode_wellFormed _ _ _ _ hd
  have hofs : s.counted.ofs = s.ofs := rfl
  have hputofs : (s.counted.put head).ofs = s.counted.ofs + head.length := rfl
  have hfirst : s.counted.addData erasesize head = s.counted.put head := addData_eq (by omega)
  have hsecond : (s.counted.put head).addData erasesize d = (s.counted.put head).put d :=
    addData_eq (by omega)
  rw [← hhead, hfirst, hsecond] at hu
  have hcounted : s.counted.Carries erasesize start nodes := h.numbers s.lastIno _
  have hput := (hcounted.putTwo hes hwf (by rw [List.length_append]; omega)).1
  rw [← hu] at hput
  have hprep := (hput.prepEraseblock hes).1
  rw [List.append_assoc] at hprep
  rw [hnode]
  refine ⟨hprep, ?_⟩
  simp [hu, Appender.put, counted]

/-- The loops of `add_file` end, and the data is in the nodes. -/
theorem Appender.fileLoop_run (hes : EraseSize erasesize) (st : Stat) (inode turns : ℕ)
    (wants : ℕ → ℕ) (rest : List UInt8) (offset : ℕ) {s : Appender} {nodes : List (List UInt8)}
    (h : s.Carries erasesize start nodes)
    (hturns : 2 * rest.length +
      (if (s.rbytes erasesize : ℤ) - RAW_INODE ≤ 128 then 2 else 1) ≤ turns) :
    ∃ s' ns, s.fileLoop erasesize st inode turns wants rest offset = some s' ∧
      s'.Carries erasesize start (nodes ++ ns) ∧ FileNodes inode s.lastVersion rest ns := by
  have hlarge := hes.large
  induction turns generalizing wants rest offset s nodes with
  | zero =>
    split_ifs at hturns <;> omega
  | succ turns ih =>
    rw [fileLoop]
    by_cases hfull : (s.rbytes erasesize : ℤ) - RAW_INODE ≤ 128
    · -- the block is closed and the next one begun, which has room
      rw [if_pos hfull] at hturns ⊢
      obtain ⟨hpad, hzero⟩ := h.padBlock hes
      obtain ⟨hprep, hofs⟩ := hpad.prepEraseblock hes
      rw [if_pos hzero] at hprep hofs
      have hroomy : ¬ ((s.pad erasesize erasesize).prepEraseblock.rbytes erasesize : ℤ) -
          RAW_INODE ≤ 128 := by
        rw [rbytes, hofs, Nat.mod_eq_of_lt (by omega), RAW_INODE]
        omega
      obtain ⟨s', ns, hrun, hcarries, hfile⟩ :=
        ih wants rest offset hprep (by rw [if_neg hroomy]; omega)
      refine ⟨s', CLEANMARKER :: ns, hrun, ?_, ?_⟩
      · simpa using hcarries
      · simp only [prepEraseblock_lastVersion, pad_lastVersion] at hfile
        exact hfile.marker
    · rw [if_neg hfull] at hturns ⊢
      have hofs : s.ofs < erasesize := h.1
      have hrbytes : s.rbytes erasesize = erasesize - s.ofs := by
        rw [rbytes, Nat.mod_eq_of_lt hofs]
      rw [RAW_INODE] at hfull
      set len := min (s.rbytes erasesize - RAW_INODE) 4096 with hlen
      set n := readLen len (wants 0) rest.length with hn
      have hcount : n ≤ len := readLen_le_count _ _ _
      have havail : n ≤ rest.length := readLen_le_avail _ _ _
      rw [RAW_INODE] at hlen
      by_cases hzero : n = 0
      · have hrest : rest = [] := by
          rcases readLen_eq_zero.mp hzero with hnone | hnone
          · omega
          · exact List.eq_nil_of_length_eq_zero hnone
        rw [if_pos hzero, hrest]
        exact ⟨s, [], rfl, by simpa using h, FileNodes.nil⟩
      · rw [if_neg hzero]
        have hdata : (rest.take n).length = n := List.length_take_of_le havail
        obtain ⟨u, hu⟩ : ∃ u, u = ((s.counted.addData erasesize (rawInode st inode
            (s.lastVersion + 1) offset (rest.take n))).addData erasesize (rest.take n)).pad
            erasesize 4 := ⟨_, rfl⟩
        obtain ⟨hprep, hversion⟩ := h.dataNode hes st inode offset (by omega) (by omega) hu
        have hleft : 2 * (rest.drop n).length + 2 ≤ turns := by
          rw [List.length_drop]
          omega
        obtain ⟨s', ns, hrun, hcarries, hfile⟩ := ih (fun k => wants (k + 1)) (rest.drop n)
          (offset + n) hprep (by split_ifs <;> omega)
        rw [hversion] at hfile
        refine ⟨s', inodeNode st inode (s.lastVersion + 1) offset (rest.take n) ::
          (markers u ++ ns), ?_, ?_, ?_⟩
        · dsimp only
          rw [counted] at hu
          rw [← hn, ← hu]
          exact hrun
        · rw [List.append_assoc] at hcarries
          exact hcarries
        · have hne : rest.take n ≠ [] := by
            intro hnil
            rw [hnil, List.length_nil] at hdata
            omega
          have hall := List.take_append_drop n rest
          conv => arg 3; rw [← hall]
          exact FileNodes.data hne (hfile.markers u)

end EzpFirmware.Jffs2
