import EzpFirmware.Jffs2.RawNodes

/-! # Blocks in the making

The buffer holds a row of nodes up to the offset, and the blocks written so far
hold the nodes in front of them. Every step of the tool keeps this: a node is
put and filled up to four bytes, a full block is written out, a block that is
not full is filled with ones first.
-/
namespace EzpFirmware.Jffs2
open Lib

/-- The start of a block that can be gone on with. -/
def Row (start : List UInt8) (ns : List (List UInt8)) : Prop :=
  ∀ rest ns', Chain rest ns' → Chain (start ++ rest) (ns ++ ns')

theorem Row.nil : Row [] [] := fun _ _ h => h

theorem Row.snoc {start n fill : List UInt8} {ns : List (List UInt8)} (h : Row start ns)
    (hwf : WellFormed n) (hfill : (n ++ fill).length = PAD n.length) :
    Row (start ++ (n ++ fill)) (ns ++ [n]) := by
  intro rest ns' hrest
  have hnext := h _ _ (Chain.cons hwf hfill hrest)
  simpa using hnext

theorem Row.chain {start : List UInt8} {ns : List (List UInt8)} (h : Row start ns) :
    Chain start ns := by
  have hend := h [] [] (Chain.nil fun hne => absurd rfl hne)
  simpa using hend

/-- Behind the last node there are ones. -/
theorem Row.chain_ones {start : List UInt8} {ns : List (List UInt8)} (h : Row start ns) {k : ℕ}
    (hk : 2 ≤ k) : Chain (start ++ List.replicate k 0xff) ns := by
  have hblank : Chain (List.replicate k 0xff) [] := by
    apply Chain.nil
    intro _
    obtain ⟨k, rfl⟩ : ∃ j, k = j + 2 := ⟨k - 2, by omega⟩
    refine ⟨by simp, ?_⟩
    simp [List.replicate_succ, half, ofLe, JFFS2_MAGIC_BITMASK]
  have hend := h _ _ hblank
  simpa using hend

theorem FileSystem.snoc {erasesize : ℕ} {blocks nodes : List (List UInt8)}
    (h : FileSystem erasesize blocks nodes) {block : List UInt8} {ns : List (List UInt8)}
    (hlen : block.length = erasesize) (hsize : erasesize < 2 ^ 31) (hchain : Chain block ns) :
    FileSystem erasesize (blocks ++ [block]) (nodes ++ ns) := by
  induction h with
  | nil => simpa using FileSystem.cons hlen hsize hchain FileSystem.nil
  | cons hlen' hsize' hchain' _ ih =>
    rw [List.append_assoc]
    exact FileSystem.cons hlen' hsize' hchain' ih

/-- An erase size of a flash device: an `int`, a multiple of four, and large enough. -/
structure EraseSize (erasesize : ℕ) : Prop where
  large : 4096 ≤ erasesize
  int : erasesize < 2 ^ 31
  dvd : 4 ∣ erasesize

/-- The blocks written since an offset hold some nodes, and the buffer holds further ones. -/
structure Appender.Building (erasesize start : ℕ) (s : Appender)
    (done cur : List (List UInt8)) : Prop where
  length_buf : s.buf.length = erasesize
  ofs_le : s.ofs ≤ erasesize
  dvd : 4 ∣ s.ofs
  row : Row (s.buf.take s.ofs) cur
  blocks : FileSystem erasesize (s.written.map Prod.snd) done
  offsets : s.written.map Prod.fst =
    (List.range s.written.length).map fun i => start + i * erasesize
  mtdofs : s.mtdofs = start + s.written.length * erasesize

/-- The blocks and the buffer together hold nodes, with room left in the buffer. -/
def Appender.Carries (erasesize start : ℕ) (s : Appender) (nodes : List (List UInt8)) : Prop :=
  s.ofs < erasesize ∧ ∃ done cur, done ++ cur = nodes ∧ s.Building erasesize start done cur

variable {erasesize start : ℕ} {s : Appender} {done cur nodes : List (List UInt8)}

@[simp] theorem Appender.wrap_lastIno : (s.wrap erasesize).lastIno = s.lastIno := by
  rw [wrap]
  split_ifs <;> rfl

@[simp] theorem Appender.wrap_lastVersion :
    (s.wrap erasesize).lastVersion = s.lastVersion := by
  rw [wrap]
  split_ifs <;> rfl

@[simp] theorem Appender.pad_lastIno (size : ℕ) :
    (s.pad erasesize size).lastIno = s.lastIno := by
  rw [pad]
  split_ifs <;> simp [put]

@[simp] theorem Appender.pad_lastVersion (size : ℕ) :
    (s.pad erasesize size).lastVersion = s.lastVersion := by
  rw [pad]
  split_ifs <;> simp [put]

@[simp] theorem Appender.prepEraseblock_lastIno : s.prepEraseblock.lastIno = s.lastIno := by
  rw [prepEraseblock]
  split_ifs <;> rfl

@[simp] theorem Appender.prepEraseblock_lastVersion :
    s.prepEraseblock.lastVersion = s.lastVersion := by
  rw [prepEraseblock]
  split_ifs <;> rfl

@[simp] theorem Appender.wrap_ofs : (s.wrap erasesize).ofs = s.ofs % erasesize := by
  rw [wrap]
  split_ifs <;> rfl

/-- A full buffer is written out. -/
theorem Appender.flush_carries (hes : EraseSize erasesize) (hofs : s.ofs = erasesize)
    (hbuf : s.buf.length = erasesize) (hchain : Chain s.buf cur)
    (hblocks : FileSystem erasesize (s.written.map Prod.snd) done)
    (hoffsets : s.written.map Prod.fst =
      (List.range s.written.length).map fun i => start + i * erasesize)
    (hmtdofs : s.mtdofs = start + s.written.length * erasesize) :
    (s.wrap erasesize).Carries erasesize start (done ++ cur) := by
  have hlarge := hes.large
  have hwrap : s.wrap erasesize = { s with
      ofs := 0
      written := s.written ++ [(s.mtdofs, s.buf)]
      mtdofs := s.mtdofs + erasesize } := by
    have htake : s.buf.take erasesize = s.buf := List.take_of_length_le hbuf.le
    simp [wrap, hofs, htake]
  rw [hwrap]
  refine ⟨by simpa using by omega, done ++ cur, [], List.append_nil _, ?_⟩
  constructor
  · exact hbuf
  · exact Nat.zero_le _
  · exact dvd_zero 4
  · exact Row.nil
  · simpa using hblocks.snoc hbuf hes.int hchain
  · simp [hoffsets, hmtdofs, List.range_succ]
  · simp only [hmtdofs, List.length_append, List.length_singleton, Nat.succ_mul]
    rw [Nat.add_assoc]

/-- The end of `pad`, behind something. -/
theorem Appender.Building.wrap (hes : EraseSize erasesize)
    (h : s.Building erasesize start done cur) (hpos : 0 < s.ofs) :
    (s.wrap erasesize).Carries erasesize start (done ++ cur) := by
  by_cases hfull : s.ofs = erasesize
  · have hrow := h.row
    rw [List.take_of_length_le (by rw [h.length_buf, hfull])] at hrow
    exact flush_carries hes hfull h.length_buf hrow.chain h.blocks h.offsets h.mtdofs
  · have hlt : s.ofs < erasesize := Nat.lt_of_le_of_ne h.ofs_le hfull
    have hsame : s.wrap erasesize = s := by
      simp [Appender.wrap, Nat.mod_eq_of_lt hlt, Nat.ne_of_gt hpos]
    rw [hsame]
    exact ⟨hlt, done, cur, rfl, h⟩

/-- A row in the buffer can be gone on with by a node and its filling. -/
theorem Appender.Building.node (h : s.Building erasesize start done cur) {n : List UInt8}
    (fill : List UInt8) (hwf : WellFormed n) (hfill : (n ++ fill).length = PAD n.length) {s' : Appender}
    (hbuf : s'.buf.length = erasesize) (hofs : s'.ofs = s.ofs + PAD n.length)
    (hroom : s'.ofs ≤ erasesize) (htake : s'.buf.take s'.ofs = s.buf.take s.ofs ++ (n ++ fill))
    (hwritten : s'.written = s.written) (hmtdofs : s'.mtdofs = s.mtdofs) :
    s'.Building erasesize start done (cur ++ [n]) where
  length_buf := hbuf
  ofs_le := hroom
  dvd := by
    have hdvd := h.dvd
    rw [hofs, PAD]
    omega
  row := by
    rw [htake]
    exact h.row.snoc hwf hfill
  blocks := hwritten ▸ h.blocks
  offsets := by rw [hwritten, h.offsets]
  mtdofs := by rw [hwritten, hmtdofs, h.mtdofs]

theorem Appender.put_take (hofs : s.ofs ≤ s.buf.length) (data : List UInt8) :
    (s.put data).buf.take (s.put data).ofs = s.buf.take s.ofs ++ data :=
  take_poke data hofs

theorem Appender.put_length {data : List UInt8} (h : s.ofs + data.length ≤ s.buf.length) :
    (s.put data).buf.length = s.buf.length :=
  poke_length h

/-- A node is in the buffer behind the row: filling up to four bytes gives a row with it. -/
theorem Appender.Building.padNode (hes : EraseSize erasesize)
    (h : s.Building erasesize start done cur) {n : List UInt8} (hwf : WellFormed n)
    (hroom : s.ofs + n.length ≤ erasesize) {s' : Appender} (hbuf : s'.buf.length = erasesize)
    (hofs : s'.ofs = s.ofs + n.length) (htake : s'.buf.take s'.ofs = s.buf.take s.ofs ++ n)
    (hwritten : s'.written = s.written) (hmtdofs : s'.mtdofs = s.mtdofs) :
    (s'.pad erasesize 4).Carries erasesize start (done ++ (cur ++ [n])) ∧
      (s'.pad erasesize 4).ofs = (s.ofs + PAD n.length) % erasesize := by
  have hdvd := h.dvd
  have hfour := hes.dvd
  have hint := hes.int
  have hheader := hwf.header
  have hround : PAD n.length = n.length + (4 - n.length % 4) % 4 := by
    rw [PAD]
    omega
  rw [pad]
  by_cases hwhole : s'.ofs % 4 = 0
  · have hpad : PAD n.length = n.length := by omega
    have hnode : s'.Building erasesize start done (cur ++ [n]) := by
      apply h.node [] hwf _ hbuf _ _ _ hwritten hmtdofs
      · rw [List.append_nil, hpad]
      · rw [hofs, hpad]
      · omega
      · rw [htake, List.append_nil]
    by_cases hlt : s'.ofs < erasesize
    · rw [if_pos ⟨hwhole, hlt⟩, hpad, ← hofs, Nat.mod_eq_of_lt hlt]
      exact ⟨⟨hlt, done, cur ++ [n], rfl, hnode⟩, rfl⟩
    · rw [if_neg (fun hboth => hlt hboth.2), if_neg hlt, wrap_ofs, hpad, ← hofs]
      exact ⟨hnode.wrap hes (by omega), rfl⟩
  · have hlt : s'.ofs < erasesize := by omega
    rw [if_neg (fun hboth => hwhole hboth.1), if_pos hlt, wrap_ofs]
    set fill : List UInt8 := List.replicate (4 - s'.ofs % 4) 0xff with hfilldef
    have hfill : fill.length = 4 - s'.ofs % 4 := List.length_replicate
    have hpad : PAD n.length = n.length + fill.length := by omega
    have hput : (s'.put fill).ofs = s.ofs + PAD n.length := by
      rw [put, hofs, hpad, Nat.add_assoc]
    have hnode : (s'.put fill).Building erasesize start done (cur ++ [n]) := by
      apply h.node fill hwf _ _ hput _ _ hwritten hmtdofs
      · rw [List.length_append, hpad]
      · rw [put_length (by omega), hbuf]
      · omega
      · rw [put_take (by omega), htake, List.append_assoc]
    refine ⟨hnode.wrap hes (by omega), ?_⟩
    rw [hput]

theorem Row.eq_nil {ns : List (List UInt8)} (h : Row [] ns) : ns = [] := by
  have hchain := h.chain
  generalize hstart : ([] : List UInt8) = b at hchain
  cases hchain with
  | nil => rfl
  | cons hwf _ _ =>
    have hheader := hwf.header
    have hlen := congrArg List.length hstart
    simp only [List.length_nil, List.length_append] at hlen
    omega

/-- With nothing in the buffer all nodes are in the blocks that were written. -/
theorem Appender.Carries.closed (h : s.Carries erasesize start nodes) (hofs : s.ofs = 0) :
    FileSystem erasesize (s.written.map Prod.snd) nodes := by
  obtain ⟨-, done, cur, rfl, hb⟩ := h
  have hrow := hb.row
  rw [hofs, List.take_zero] at hrow
  rw [hrow.eq_nil, List.append_nil]
  exact hb.blocks

/-- A block is closed: what is left of it is filled with ones. -/
theorem Appender.Carries.padBlock (hes : EraseSize erasesize)
    (h : s.Carries erasesize start nodes) :
    (s.pad erasesize erasesize).Carries erasesize start nodes ∧
      (s.pad erasesize erasesize).ofs = 0 := by
  obtain ⟨hlt, done, cur, rfl, hb⟩ := h
  have hdvd := hb.dvd
  have hfour := hes.dvd
  have hlen := hb.length_buf
  rw [pad, Nat.mod_eq_of_lt hlt]
  by_cases hzero : s.ofs = 0
  · rw [if_pos ⟨hzero, hlt⟩]
    exact ⟨⟨hlt, done, cur, rfl, hb⟩, hzero⟩
  · rw [if_neg (fun hboth => hzero hboth.1), if_pos hlt, wrap_ofs]
    set fill : List UInt8 := List.replicate (erasesize - s.ofs) 0xff with hfilldef
    have hfill : fill.length = erasesize - s.ofs := List.length_replicate
    have hofs : (s.put fill).ofs = erasesize := by
      rw [put]
      change s.ofs + fill.length = erasesize
      omega
    have hbuf : (s.put fill).buf.length = erasesize := by
      rw [put_length (by omega), hlen]
    have htake : (s.put fill).buf = s.buf.take s.ofs ++ fill := by
      rw [← put_take (by omega), hofs, List.take_of_length_le hbuf.le]
    refine ⟨flush_carries hes hofs hbuf ?_ hb.blocks hb.offsets hb.mtdofs, ?_⟩
    · rw [htake]
      exact hb.row.chain_ones (by omega)
    · rw [hofs, Nat.mod_self]

/-- A block that is begun starts with the marker. -/
theorem Appender.Carries.prepEraseblock (hes : EraseSize erasesize)
    (h : s.Carries erasesize start nodes) :
    s.prepEraseblock.Carries erasesize start
      (nodes ++ if s.ofs = 0 then [CLEANMARKER] else []) ∧
    s.prepEraseblock.ofs = if s.ofs = 0 then 12 else s.ofs := by
  obtain ⟨hlt, done, cur, rfl, hb⟩ := h
  have hlarge := hes.large
  have hlen := hb.length_buf
  rw [Appender.prepEraseblock]
  by_cases hzero : s.ofs = 0
  · have hput : (s.put CLEANMARKER).ofs = s.ofs + PAD CLEANMARKER.length := rfl
    have htwelve : (s.put CLEANMARKER).ofs = 12 := by
      rw [hput, hzero]
      rfl
    have hmarker : CLEANMARKER.length = 12 := rfl
    rw [if_neg (by omega), if_pos hzero, if_pos hzero]
    refine ⟨⟨by omega, done, cur ++ [CLEANMARKER], (List.append_assoc _ _ _).symm, ?_⟩, htwelve⟩
    apply hb.node [] cleanmarker_wellFormed rfl _ hput _ _ rfl rfl
    · rw [put_length (by omega), hlen]
    · omega
    · rw [put_take (by omega), List.append_nil]
  · rw [if_pos (by omega), if_neg hzero, if_neg hzero, List.append_nil]
    exact ⟨⟨hlt, done, cur, rfl, hb⟩, rfl⟩

/-- Bytes that fit behind the offset are copied there. -/
theorem Appender.addData_eq {data : List UInt8} (h : s.ofs + data.length ≤ erasesize) :
    s.addData erasesize data = s.put data :=
  if_neg (Nat.not_lt.mpr h)

/-- A node is put into the buffer and filled up to four bytes. -/
theorem Appender.Carries.put (hes : EraseSize erasesize) (h : s.Carries erasesize start nodes)
    {n : List UInt8} (hwf : WellFormed n) (hroom : s.ofs + n.length ≤ erasesize) :
    ((s.put n).pad erasesize 4).Carries erasesize start (nodes ++ [n]) ∧
      ((s.put n).pad erasesize 4).ofs = (s.ofs + PAD n.length) % erasesize := by
  obtain ⟨hlt, done, cur, rfl, hb⟩ := h
  have hlen := hb.length_buf
  have hofs : (s.put n).ofs = s.ofs + n.length := rfl
  have hbuf : (s.put n).buf.length = erasesize := by rw [put_length (by omega), hlen]
  have htake := put_take (by omega : s.ofs ≤ s.buf.length) n
  rw [List.append_assoc]
  exact hb.padNode hes hwf hroom hbuf hofs htake rfl rfl

/-- A node is put into the buffer in two parts. -/
theorem Appender.Carries.putTwo (hes : EraseSize erasesize) (h : s.Carries erasesize start nodes)
    {head data : List UInt8} (hwf : WellFormed (head ++ data))
    (hroom : s.ofs + (head ++ data).length ≤ erasesize) :
    (((s.put head).put data).pad erasesize 4).Carries erasesize start (nodes ++ [head ++ data]) ∧
      (((s.put head).put data).pad erasesize 4).ofs =
        (s.ofs + PAD (head ++ data).length) % erasesize := by
  obtain ⟨hlt, done, cur, rfl, hb⟩ := h
  have hlen := hb.length_buf
  rw [List.length_append] at hroom
  have hmid : (s.put head).ofs = s.ofs + head.length := rfl
  have hbuf : (s.put head).buf.length = erasesize := by rw [put_length (by omega), hlen]
  have hofs : ((s.put head).put data).ofs = s.ofs + (head ++ data).length := by
    rw [List.length_append, ← Nat.add_assoc]
    rfl
  have hbuf' : ((s.put head).put data).buf.length = erasesize := by
    rw [put_length (by omega), hbuf]
  have htake : ((s.put head).put data).buf.take ((s.put head).put data).ofs =
      s.buf.take s.ofs ++ (head ++ data) := by
    rw [put_take (by omega), put_take (by omega), List.append_assoc]
  rw [List.append_assoc]
  exact hb.padNode hes hwf (by rw [List.length_append]; omega) hbuf' hofs htake rfl rfl

end EzpFirmware.Jffs2
