import EzpFirmware.Jffs2.FileNodes

/-! # What an append leaves on the flash

The blocks that are written hold a directory entry for the file and its data, in
nodes whose versions rise, and behind them the end mark. The entry takes the last
version that was found, not the next one.
-/
namespace EzpFirmware.Jffs2
open Lib

/-- The variables behind the parsing, when it has found some versions. -/
def Appender.parsed (buf : List UInt8) (lastIno : ℕ) (found : List UInt32) (mtdofs : ℕ) :
    Appender where
  buf := buf
  ofs := 0
  lastIno := lastIno
  lastVersion := (found.map UInt32.toNat).foldl max 0
  mtdofs := mtdofs
  written := []

/-- The nodes with data of an inode. -/
def dataNodes (ino : ℕ) (nodes : List (List UInt8)) : List (List UInt8) :=
  nodes.filter fun n => IsInode n ∧ word n 12 = ino

/-- What should have been written: blocks from an offset on with well-formed nodes, an entry for
the file and its data in nodes of rising versions, every version above those found before, and
behind them a block with the end mark. -/
def Appended (erasesize start : ℕ) (found : List UInt32) (file : SourceFile)
    (written : List (ℕ × List UInt8)) : Prop :=
  ∃ blocks nodes eof entry,
    written.map Prod.fst = (List.range written.length).map (fun i => start + i * erasesize) ∧
    written.map Prod.snd = blocks ++ [eof] ∧
    FileSystem erasesize blocks nodes ∧
    (entry ∈ nodes ∧ IsDirent entry ∧ entryName entry = file.name.val.val) ∧
    (dataNodes (word entry 20) nodes).Pairwise (fun m n => nodeVersion m < nodeVersion n) ∧
    (dataNodes (word entry 20) nodes).flatMap (List.drop RAW_INODE) = file.content ∧
    (∀ n ∈ nodes, IsDirent n ∨ IsInode n → ∀ v ∈ found, v.toNat < nodeVersion n) ∧
    eof.length = erasesize ∧ JFFS2_EOF <+: eof

section Unique

theorem half_append {n r : List UInt8} (h : 2 ≤ n.length) : half (n ++ r) 0 = half n 0 := by
  rw [half, half, List.drop_zero, List.drop_zero, List.take_append_of_le_length h]

theorem word_append {n r : List UInt8} (h : 8 ≤ n.length) : word (n ++ r) 4 = word n 4 := by
  rw [word, word, List.drop_append_of_le_length (by omega), List.take_append_of_le_length]
  rw [List.length_drop]
  omega

/-- A block is a row of nodes in one way. -/
theorem Chain.unique {rest : List UInt8} {ns ns' : List (List UInt8)} (h : Chain rest ns)
    (h' : Chain rest ns') : ns = ns' := by
  induction h generalizing ns' with
  | @nil rest hend =>
    cases h' with
    | nil => rfl
    | @cons n fill rest' ns' hwf _ _ =>
      have hheader := hwf.header
      have hne : n ++ fill ++ rest' ≠ [] := by
        intro hnil
        have hlen := congrArg List.length hnil
        rw [List.append_assoc, List.length_append, List.length_nil] at hlen
        omega
      have hmagic := (hend hne).2
      rw [List.append_assoc, half_append (by omega)] at hmagic
      exact absurd hwf.magic hmagic
  | @cons n fill rest' ns hwf hfill _ ih =>
    have hheader := hwf.header
    generalize hrest : n ++ fill ++ rest' = rest at h'
    cases h' with
    | nil hend =>
      have hne : rest ≠ [] := by
        intro hnil
        have hlen := congrArg List.length hrest
        rw [hnil, List.append_assoc, List.length_append, List.length_nil] at hlen
        omega
      have hmagic := (hend hne).2
      rw [← hrest, List.append_assoc, half_append (by omega)] at hmagic
      exact absurd hwf.magic hmagic
    | @cons m fill₂ rest₂ ns₂ hwf₂ hfill₂ htail =>
      have hheader₂ := hwf₂.header
      have hn : word (n ++ fill ++ rest') 4 = n.length := by
        rw [List.append_assoc, word_append (by omega), hwf.totlen]
      have hm : word (m ++ fill₂ ++ rest₂) 4 = m.length := by
        rw [List.append_assoc, word_append (by omega), hwf₂.totlen]
      have hlen : n.length = m.length := by rw [← hn, hrest, hm]
      have hboth : (n ++ fill).length = (m ++ fill₂).length := by rw [hfill, hfill₂, hlen]
      obtain ⟨hfirst, hlast⟩ := List.append_inj hrest hboth
      obtain ⟨hnode, -⟩ := List.append_inj hfirst hlen
      rw [hnode, ih (hlast ▸ htail)]

theorem FileSystem.unique {erasesize : ℕ} {blocks nodes nodes' : List (List UInt8)}
    (h : FileSystem erasesize blocks nodes) (h' : FileSystem erasesize blocks nodes') :
    nodes = nodes' := by
  induction h generalizing nodes' with
  | nil =>
    cases h'
    rfl
  | cons _ _ hchain _ ih =>
    cases h' with
    | cons _ _ hchain' hrest' => rw [hchain.unique hchain', ih hrest']

end Unique

section Data

variable {inode v : ℕ} {rest : List UInt8} {ns : List (List UInt8)}

/-- The nodes of a file's data carry the data, each with the next version. -/
theorem FileNodes.dataNodes (h : FileNodes inode v rest ns) :
    (dataNodes (inode % 2 ^ 32) ns).flatMap (List.drop RAW_INODE) = rest ∧
    ∃ k ≤ rest.length, (Jffs2.dataNodes (inode % 2 ^ 32) ns).map nodeVersion =
      (List.range k).map fun i => (v + 1 + i) % 2 ^ 32 := by
  induction h with
  | nil => exact ⟨rfl, 0, Nat.le_refl 0, rfl⟩
  | @marker v rest ns _ ih =>
    have hskip : Jffs2.dataNodes (inode % 2 ^ 32) (CLEANMARKER :: ns) =
        Jffs2.dataNodes (inode % 2 ^ 32) ns := by
      have hmarker : ¬ IsInode CLEANMARKER := by decide
      simp [Jffs2.dataNodes, hmarker]
    rw [hskip]
    exact ih
  | @data v st offset d rest ns hne _ ih =>
    obtain ⟨hdata, k, hk, hversions⟩ := ih
    have htake : Jffs2.dataNodes (inode % 2 ^ 32)
        (inodeNode st inode (v + 1) offset d :: ns) =
        inodeNode st inode (v + 1) offset d :: Jffs2.dataNodes (inode % 2 ^ 32) ns := by
      have hinode := inodeNode_isInode st inode (v + 1) offset d
      have hino := inodeNode_ino st inode (v + 1) offset d
      rw [Jffs2.dataNodes, List.filter_cons_of_pos, Jffs2.dataNodes]
      simp [hinode, hino]
    rw [htake]
    constructor
    · rw [List.flatMap_cons, hdata, inodeNode_data]
    · refine ⟨k + 1, ?_, ?_⟩
      · have hpos := List.length_pos_iff.mpr hne
        rw [List.length_append]
        omega
      · rw [List.map_cons, hversions, inodeNode_version, List.range_succ_eq_map, List.map_cons,
          List.map_map]
        congr 1
        apply List.map_congr_left
        intro i _
        change (v + 1 + 1 + i) % 2 ^ 32 = (v + 1 + (i + 1)) % 2 ^ 32
        congr 1
        omega

/-- The versions rise as long as they do not wrap. -/
theorem FileNodes.rising (h : FileNodes inode v rest ns) (hsmall : v + rest.length < 2 ^ 32) :
    (Jffs2.dataNodes (inode % 2 ^ 32) ns).Pairwise
      (fun m n => nodeVersion m < nodeVersion n) := by
  obtain ⟨-, k, hk, hversions⟩ := h.dataNodes
  rw [← List.pairwise_map (f := nodeVersion) (R := (· < ·)), hversions, List.pairwise_map]
  apply List.Pairwise.imp_of_mem _ (List.pairwise_lt_range (n := k))
  intro i j _ hj hij
  rw [List.mem_range] at hj
  rw [Nat.mod_eq_of_lt (by omega), Nat.mod_eq_of_lt (by omega)]
  omega

end Data

section Run

variable {erasesize start : ℕ} {s : Appender}

/-- What stands behind the last block: the end mark and ones. -/
def endBlock (erasesize : ℕ) : List UInt8 :=
  JFFS2_EOF ++ List.replicate (erasesize - 4) 0xff

/-- The closing steps write the open block and one with the end mark. -/
theorem Appender.Carries.close (hes : EraseSize erasesize) {nodes : List (List UInt8)}
    (h : s.Carries erasesize start nodes) {u : Appender}
    (hu : u = ((s.pad erasesize erasesize).addData erasesize JFFS2_EOF).pad erasesize erasesize) :
    ∃ blocks, FileSystem erasesize blocks nodes ∧
      u.written.map Prod.snd = blocks ++ [endBlock erasesize] ∧
      u.written.map Prod.fst = (List.range u.written.length).map fun i => start + i * erasesize := by
  have hlarge := hes.large
  obtain ⟨hpad, hofs⟩ := h.padBlock hes
  obtain ⟨-, done, cur, -, hb⟩ := id hpad
  set t := s.pad erasesize erasesize with ht
  have hlen := hb.length_buf
  have hmark : JFFS2_EOF.length = 4 := rfl
  have hdata : t.addData erasesize JFFS2_EOF = t.put JFFS2_EOF := addData_eq (by omega)
  have hfour : (t.put JFFS2_EOF).ofs = 4 := by
    change t.ofs + 4 = 4
    rw [hofs]
  set fill : List UInt8 := List.replicate (erasesize - 4) 0xff with hfilldef
  have hfill : fill.length = erasesize - 4 := List.length_replicate
  have hwritten : u.written = t.written ++ [(t.mtdofs, endBlock erasesize)] := by
    have hbuf : ((t.put JFFS2_EOF).put fill).buf.take erasesize = endBlock erasesize := by
      have htake := put_take (s := t.put JFFS2_EOF) (by
        rw [put_length (by omega)]
        omega) fill
      have hend : ((t.put JFFS2_EOF).put fill).ofs = erasesize := by
        change (t.put JFFS2_EOF).ofs + fill.length = erasesize
        omega
      rw [hend, put_take (by omega), hofs, List.take_zero, List.nil_append] at htake
      exact htake
    rw [hu, hdata, pad, hfour, Nat.mod_eq_of_lt (by omega : 4 < erasesize),
      if_neg (by omega), if_pos (by omega), wrap, ← hfilldef, hbuf]
    have hend : ((t.put JFFS2_EOF).put fill).ofs % erasesize = 0 := by
      change ((t.put JFFS2_EOF).ofs + fill.length) % erasesize = 0
      rw [hfour, hfill, Nat.add_sub_cancel' (by omega), Nat.mod_self]
    rw [if_pos hend]
    rfl
  refine ⟨t.written.map Prod.snd, hpad.closed hofs, ?_, ?_⟩
  · rw [hwritten, List.map_append]
    rfl
  · rw [hwritten, List.map_append, hb.offsets, List.length_append, List.length_singleton,
      List.range_succ, List.map_append, hb.mtdofs]
    rfl

/-- `add_file` puts an entry and the data behind the nodes. -/
theorem Appender.addFile_run (hes : EraseSize erasesize) {nodes : List (List UInt8)}
    (h : s.Carries erasesize start nodes) (hroom : s.ofs + 308 < erasesize) {turns : ℕ}
    (wants : ℕ → ℕ) (file : SourceFile) (parent : ℕ)
    (hturns : 2 * file.content.length + 2 ≤ turns) :
    ∃ s' ns, s.addFile erasesize turns wants file parent = some s' ∧
      s'.Carries erasesize start (nodes ++ markers s ++
        rawDirent file.name.val.val 8 parent (s.lastIno + 1) s.lastVersion :: ns) ∧
      FileNodes (s.lastIno + 1) (s.lastVersion + 1) file.content ns := by
  obtain ⟨hino, -, hversion, hentry, -, -⟩ := h.addDirent hes hroom file.name 8 parent
  obtain ⟨s', ns, hrun, hcarries, hfile⟩ := fileLoop_run hes file.stat (s.lastIno + 1) turns wants
    file.content 0 hentry (by split_ifs <;> omega)
  rw [hversion] at hfile
  refine ⟨s', ns, ?_, ?_, hfile⟩
  · rw [← hino] at hrun
    exact hrun
  · rw [List.append_assoc] at hcarries
    exact hcarries

/-- What a run of the append leaves: nodes in front of the file's entry, the entry and the data,
and that the first entry that is written has the last version found. -/
structure Laid (erasesize start lastVersion : ℕ) (file : SourceFile)
    (written : List (ℕ × List UInt8)) (before : List (List UInt8)) (parent ino version : ℕ)
    (ns : List (List UInt8)) : Prop where
  offsets : written.map Prod.fst = (List.range written.length).map fun i => start + i * erasesize
  blocks : ∃ blocks, FileSystem erasesize blocks
      (before ++ rawDirent file.name.val.val 8 parent ino version :: ns) ∧
    written.map Prod.snd = blocks ++ [endBlock erasesize]
  data : FileNodes ino (version + 1) file.content ns
  version_le : version ≤ lastVersion + 1
  others : ∀ n ∈ before, IsInode n → word n 12 ≠ ino % 2 ^ 32
  first : ∃ d ∈ before ++ [rawDirent file.name.val.val 8 parent ino version],
    IsDirent d ∧ nodeVersion d = lastVersion % 2 ^ 32

theorem Appender.append_run (hes : EraseSize erasesize) {buf : List UInt8}
    (hbuf : buf.length = erasesize) (lastIno : ℕ) (found : List UInt32) {turns : ℕ}
    (wants : ℕ → ℕ) (dir : Name) (file : SourceFile) (targetIno : ℕ)
    (hturns : 2 * file.content.length + 2 ≤ turns) :
    ∃ s' before parent ino version ns,
      (parsed buf lastIno found start).append erasesize turns wants dir file targetIno = some s' ∧
      Laid erasesize start (parsed buf lastIno found start).lastVersion file s'.written before
        parent ino version ns := by
  have hlarge := hes.large
  obtain ⟨t, ht⟩ : ∃ t : Appender, t = { parsed buf lastIno found start with
      ofs := 0, lastIno := if lastIno = 0 then 1 else lastIno } := ⟨_, rfl⟩
  have hofs : t.ofs = 0 := by rw [ht]
  have hversion : t.lastVersion = (parsed buf lastIno found start).lastVersion := by rw [ht]
  have hmarkers : markers t = [CLEANMARKER] := if_pos hofs
  have hstart : t.Carries erasesize start [] := by
    refine ⟨by omega, [], [], rfl, ?_⟩
    rw [ht]
    exact ⟨hbuf, Nat.zero_le _, dvd_zero 4, Row.nil, FileSystem.nil, rfl, by simp [parsed]⟩
  rw [← hversion]
  by_cases htarget : targetIno = 0
  · obtain ⟨hino, hlast, hnext, hdir, hpos, hsmall⟩ := hstart.addDir hes (by omega) dir 1
    obtain ⟨s', ns, hrun, hcarries, hfile⟩ := addFile_run hes hdir (by omega) wants file
      (t.lastIno + 1) hturns
    obtain ⟨blocks, hblocks, hwritten, hoffsets⟩ := hcarries.close hes rfl
    have hopen : markers (t.addDir erasesize dir 1).2 = [] := if_neg (by omega)
    rw [hlast, hnext] at hfile hblocks
    rw [hmarkers, hopen] at hblocks
    refine ⟨_, [CLEANMARKER, rawDirent dir.val.val 4 1 (t.lastIno + 1) t.lastVersion,
      dirInode (t.lastIno + 1)], t.lastIno + 1, t.lastIno + 2 + 1, t.lastVersion + 1, ns, ?_,
      hoffsets, ⟨blocks, hblocks, hwritten⟩, hfile, Nat.le_refl _, ?_, ?_⟩
    · rw [← hino, ht] at hrun
      rw [append, if_pos htarget]
      exact congrArg (Option.map _) hrun
    · intro n hn hinode
      have hdirino : word (dirInode (t.lastIno + 1)) 12 = (t.lastIno + 1) % 2 ^ 32 := by
        rw [dirInode_eq, inodeNode_ino]
      simp only [List.mem_cons, List.not_mem_nil, or_false] at hn
      rcases hn with rfl | rfl | rfl
      · exact absurd hinode (by decide)
      · have hdirent := rawDirent_isDirent dir.val.val 4 1 (t.lastIno + 1) t.lastVersion
        rw [IsInode, hdirent] at hinode
        exact absurd hinode (by decide)
      · rw [hdirino]
        omega
    · refine ⟨_, by simp, rawDirent_isDirent dir.val.val 4 1 (t.lastIno + 1) t.lastVersion, ?_⟩
      exact rawDirent_version _ _ _ _ _
  · obtain ⟨s', ns, hrun, hcarries, hfile⟩ := addFile_run hes hstart (by omega) wants file
      targetIno hturns
    obtain ⟨blocks, hblocks, hwritten, hoffsets⟩ := hcarries.close hes rfl
    rw [hmarkers] at hblocks
    refine ⟨_, [CLEANMARKER], targetIno, t.lastIno + 1, t.lastVersion, ns, ?_,
      hoffsets, ⟨blocks, hblocks, hwritten⟩, hfile, Nat.le_succ _, ?_, ?_⟩
    · rw [ht] at hrun
      rw [append, if_neg htarget]
      exact congrArg (Option.map _) hrun
    · intro n hn hinode
      rw [List.mem_singleton] at hn
      rw [hn] at hinode
      exact absurd hinode (by decide)
    · exact ⟨_, List.mem_append_right _ List.mem_cons_self, rawDirent_isDirent _ _ _ _ _,
        rawDirent_version _ _ _ _ _⟩

end Run

section Claim

variable {erasesize start lastVersion parent ino version : ℕ} {file : SourceFile}
  {written : List (ℕ × List UInt8)} {before ns : List (List UInt8)}

/-- The last version is one of those that were found. -/
theorem exists_last {found : List UInt32} (h : found ≠ []) :
    ∃ v ∈ found, v.toNat = (found.map UInt32.toNat).foldl max 0 := by
  induction found using List.reverseRecOn with
  | nil => exact absurd rfl h
  | append_singleton found x ih =>
    rw [List.map_append, List.foldl_append]
    change ∃ v ∈ found ++ [x], v.toNat = max ((found.map UInt32.toNat).foldl max 0) x.toNat
    by_cases hle : (found.map UInt32.toNat).foldl max 0 ≤ x.toNat
    · exact ⟨x, by simp, (max_eq_right hle).symm⟩
    · have hne : found ≠ [] := by
        rintro rfl
        exact hle (Nat.zero_le _)
      obtain ⟨v, hv, heq⟩ := ih hne
      exact ⟨v, List.mem_append_left _ hv, by rw [heq, max_eq_left (by omega)]⟩

/-- Once a version was found, the first entry that is written has no larger one. -/
theorem Laid.not_appended {found : List UInt32} (hfound : found ≠ [])
    (h : Laid erasesize start ((found.map UInt32.toNat).foldl max 0) file written before parent
      ino version ns) : ¬ Appended erasesize start found file written := by
  rintro ⟨blocks', nodes', eof, entry, -, hwritten', hblocks', -, -, -, habove, -, -⟩
  obtain ⟨blocks, hblocks, hwritten⟩ := h.blocks
  rw [hwritten] at hwritten'
  obtain ⟨hsame, -⟩ := List.append_inj' hwritten' rfl
  rw [← hsame] at hblocks'
  have hnodes := hblocks.unique hblocks'
  obtain ⟨d, hd, hdirent, hversion⟩ := h.first
  have hmem : d ∈ nodes' := by
    rw [← hnodes]
    rcases List.mem_append.mp hd with hd | hd
    · exact List.mem_append_left _ hd
    · rw [List.mem_singleton] at hd
      exact List.mem_append_right _ (hd ▸ List.mem_cons_self)
  obtain ⟨v, hv, hlast⟩ := exists_last hfound
  have hlt := habove d hmem (Or.inl hdirent) v hv
  rw [hversion, ← hlast, Nat.mod_eq_of_lt v.toNat_lt] at hlt
  exact Nat.lt_irrefl _ hlt

/-- Where no version was found the append is as it should be. -/
theorem Laid.appended (hes : EraseSize erasesize)
    (h : Laid erasesize start 0 file written before parent ino version ns) :
    Appended erasesize start [] file written := by
  have hlarge := hes.large
  obtain ⟨blocks, hblocks, hwritten⟩ := h.blocks
  set entry := rawDirent file.name.val.val 8 parent ino version with hentry
  have hino : word entry 20 = ino % 2 ^ 32 := rawDirent_ino _ _ _ _ _
  have hdata : dataNodes (ino % 2 ^ 32) (before ++ entry :: ns) = dataNodes (ino % 2 ^ 32) ns := by
    have hbefore : dataNodes (ino % 2 ^ 32) before = [] := by
      rw [dataNodes, List.filter_eq_nil_iff]
      intro n hn htest
      have hboth := of_decide_eq_true htest
      exact h.others n hn hboth.1 hboth.2
    have hskip : ¬ IsInode entry := by
      have hdirent : IsDirent entry := rawDirent_isDirent _ _ _ _ _
      rw [IsInode, hdirent]
      decide
    rw [dataNodes, List.filter_append, ← dataNodes, hbefore, List.nil_append,
      List.filter_cons_of_neg]
    · rfl
    · simp [hskip]
  have hsmall := h.version_le
  have hfile := file.length_lt
  refine ⟨blocks, _, endBlock erasesize, entry, h.offsets, hwritten, hblocks, ⟨by simp,
    rawDirent_isDirent _ _ _ _ _, rawDirent_name _ _ _ _ _⟩, ?_, ?_, by simp, ?_,
    List.prefix_append _ _⟩
  · rw [hino, hdata]
    exact h.data.rising (by omega)
  · rw [hino, hdata]
    exact h.data.dataNodes.1
  · rw [endBlock, List.length_append, List.length_replicate]
    change 4 + (erasesize - 4) = erasesize
    omega

end Claim

section Parsing

variable {erasesize : ℕ} {dir : CStr} {blocks nodes : List (List UInt8)} {g : Globals}

/-- The versions that the parser finds, which are those of the directory entries. -/
def versionsFound (nodes : List (List UInt8)) : List UInt32 :=
  (nodes.filter fun n => IsDirent n).map fun n => UInt32.ofNat (word n 16)

theorem word_lt (n : List UInt8) (o : ℕ) : word n o < 2 ^ 32 := by
  have hlen : ((n.drop o).take 4).length ≤ 4 := List.length_take_le _ _
  exact (ofLe_lt _).trans_le (Nat.pow_le_pow_right (by decide) hlen)

theorem le_foldl_max (l : List ℕ) (a x : ℕ) : x ≤ l.foldl max a ↔ x ≤ a ∨ ∃ y ∈ l, x ≤ y := by
  induction l generalizing a with
  | nil => simp
  | cons b l ih => rw [List.foldl_cons, ih, le_max_iff, List.exists_mem_cons_iff, or_assoc]

/-- An append begins with what the parser has found in the blocks. -/
theorem parsed_of_parsesAll (hfs : FileSystem erasesize blocks nodes)
    {targetIno : ℕ} (h : ParsesAll dir blocks ⟨targetIno, 0, 0⟩ g) (buf : List UInt8) (mtdofs : ℕ) :
    Appender.parsed buf g.lastIno (versionsFound nodes) mtdofs =
      ⟨buf, 0, g.lastIno, g.lastVersion, mtdofs, []⟩ := by
  have hversion : ((versionsFound nodes).map UInt32.toNat).foldl max 0 = g.lastVersion := by
    rw [h.unique (hfs.parse _)]
    apply eq_of_forall_le_iff
    intro x
    rw [le_foldl_max, le_lastVersion]
    simp only [versionsFound, List.map_map, List.mem_map, List.mem_filter, decide_eq_true_eq,
      Function.comp_apply, UInt32.toNat_ofNat', Nat.mod_eq_of_lt (word_lt _ _), and_assoc]
    refine or_congr_right ⟨?_, ?_⟩
    · rintro ⟨_, ⟨d, hd, hdirent, rfl⟩, hle⟩
      exact ⟨d, hd, hdirent, hle⟩
    · rintro ⟨d, hd, hdirent, hle⟩
      exact ⟨_, ⟨d, hd, hdirent, rfl⟩, hle⟩
  rw [Appender.parsed, hversion]

end Parsing

theorem eraseSize_4096 : EraseSize 4096 where
  large := Nat.le_refl _
  int := by decide
  dvd := by decide

theorem nameA_free : (0 : UInt8) ∉ [(0x61 : UInt8)] := by decide

theorem nameA_len : 0 < CStr.len ⟨[0x61], nameA_free⟩ ∧ CStr.len ⟨[0x61], nameA_free⟩ ≤ 255 := by
  decide

/-- The name `a`. -/
def nameA : Name := ⟨⟨[0x61], nameA_free⟩, nameA_len⟩

/-- An empty file with that name. -/
def emptyFile : SourceFile where
  name := nameA
  stat := ⟨0o100644, 0, 0, 0, 0⟩
  content := []
  length_lt := Nat.two_pow_pos 31

/-- With enough turns for the file the append ends, and leaves what it should exactly if the
parsing found no version. -/
theorem append_appended_iff {erasesize : ℕ} (hes : EraseSize erasesize) {buf : List UInt8}
    (hbuf : buf.length = erasesize) (start lastIno : ℕ) (found : List UInt32) (wants : ℕ → ℕ)
    (dir : Name) (file : SourceFile) (targetIno turns : ℕ)
    (hturns : 2 * file.content.length + 2 ≤ turns) :
    (∃ s', (Appender.parsed buf lastIno found start).append erasesize turns wants dir file
        targetIno = some s' ∧ Appended erasesize start found file s'.written) ↔ found = [] := by
  obtain ⟨s', before, parent, ino, version, ns, hrun, hlaid⟩ := Appender.append_run hes hbuf
    lastIno found wants dir file targetIno hturns
  rw [hrun]
  constructor
  · rintro ⟨s'', heq, happended⟩
    cases heq
    by_contra hfound
    exact hlaid.not_appended hfound happended
  · rintro rfl
    exact ⟨s', rfl, hlaid.appended hes⟩

theorem abc_length : [(0x61 : UInt8), 0x62, 0x63].length < 2 ^ 31 := by decide

/-- A file of three bytes with that name. -/
def shortFile : SourceFile where
  name := nameA
  stat := ⟨0o100644, 0, 0, 0, 3⟩
  content := [0x61, 0x62, 0x63]
  length_lt := abc_length

/-- The file in an empty file system, read one byte at a time. -/
theorem append_appended_short :
    ∃ s', (Appender.parsed (List.replicate 4096 0xff) 1 [] 0).append 4096 8 (fun _ => 1) nameA
      shortFile 1 = some s' ∧ Appended 4096 0 [] shortFile s'.written :=
  (append_appended_iff eraseSize_4096 List.length_replicate 0 1 [] (fun _ => 1) nameA shortFile 1 8
    (Nat.le_refl 8)).mpr rfl

/-- Behind an entry of version 1 the new entry has version 1 as well. -/
theorem append_repeats_version :
    ∃ s', (Appender.parsed (List.replicate 4096 0xff) 2 [1] 0).append 4096 2 (fun _ => 1) nameA
      emptyFile 1 = some s' ∧ ¬ Appended 4096 0 [1] emptyFile s'.written := by
  have hbuf : (List.replicate 4096 (0xff : UInt8)).length = 4096 := List.length_replicate
  obtain ⟨s', before, parent, ino, version, ns, hrun, hlaid⟩ := @Appender.append_run 4096 0
    eraseSize_4096 _ hbuf 2 [1] _ (fun _ => 1) nameA emptyFile 1 (Nat.le_refl 2)
  exact ⟨s', hrun, hlaid.not_appended (List.cons_ne_nil _ _)⟩

end EzpFirmware.Jffs2
