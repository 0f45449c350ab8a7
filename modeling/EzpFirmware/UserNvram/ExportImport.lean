import EzpFirmware.Lib.Assignments
import EzpFirmware.Lib.Lines
import EzpFirmware.UserNvram.MapDevice

/-! # Saving and restoring the configuration

`nvram_export` writes a header and one line for each variable that is neither
protected nor temporary. The reader has a buffer of 4096 bytes, so a longer line
is taken in pieces, of which the first sets the variable and the others are read
as lines of their own.
-/
namespace EzpFirmware.UserNvram
open Lib KernelNvram

def NVRAM_TMP_LEN : ℕ := 4096

/-- What export and import leave out. -/
def skipped (option : UInt32) : Bool :=
  hasOption option NVRAM_PROTECTED || hasOption option NVRAM_TEMP

/-- The loop of `nvram_export` over the table. -/
def exportRows : List NvramTuple → Api (List UInt8)
  | [] => pure []
  | v :: rows =>
    if skipped v.option then exportRows rows
    else do
      let value ← nvramSafeGet v.name
      let rest ← exportRows rows
      pure ((assignment (v.name, value)).val ++ [NL] ++ rest)

/-- The first line, without its end. -/
def exportHeader (brand model prodCat prodSubcat EZP_PROD_VERSION : CStr) : List UInt8 :=
  (CStr.ofString "[EZP_LOG v1.1] ").val ++ brand.val ++ (CStr.ofString " ").val ++ model.val ++
    (CStr.ofString " [EZP_").val ++ prodCat.val ++ prodSubcat.val ++ (CStr.ofString "] ").val ++
    EZP_PROD_VERSION.val

/-- `nvram_export`: the text of the file. -/
def nvramExport (table : NvramDefault) (EZP_PROD_VERSION : CStr) : Api (List UInt8) := do
  let brand ← nvramSafeGet (.ofString "brand")
  let model ← nvramSafeGet (.ofString "model")
  let prodCat ← nvramSafeGet (.ofString "prod_cat")
  let prodSubcat ← nvramSafeGet (.ofString "prod_subcat")
  let lines ← exportRows table.rows
  pure (exportHeader brand model prodCat prodSubcat EZP_PROD_VERSION ++ NL :: lines)

/-- What one read of `nvram_import` asks to be set. -/
def lineAssignment (table : NvramDefault) (buf : CStr) : Option (CStr × CStr) :=
  match CStr.cut EQ buf with
  | none => none
  | some (key, p) =>
    match table.rows.find? fun v => v.name = key with
    | none => none
    | some v =>
      if skipped v.option then none
      else if p.val.head? = some NL then some (key, CStr.empty)
      else some (key, p.chop NL)

/-- The loop of `nvram_import` over what `fgets` gives. -/
def importLines (table : NvramDefault) : List CStr → Api Unit
  | [] => pure ()
  | buf :: bufs =>
    match lineAssignment table buf with
    | none => importLines table bufs
    | some a => do
      let _ ← Api.set a.1 (some a.2)
      importLines table bufs

/-- The line loop of `nvram_import`; the first read took the header. -/
def nvramImportLoop (table : NvramDefault) (file : List UInt8) : Api Unit :=
  importLines table ((pieces NL (NVRAM_TMP_LEN - 1) file).tail.map CStr.read)

/-- Every variable that is neither protected nor temporary has the same text. -/
def Restored (table : NvramDefault) (src dst : Variables) : Prop :=
  ∀ v ∈ table.rows, skipped v.option = false → text dst v.name = text src v.name

section
variable {table : NvramDefault} {p : Process Variables}

/-! ## The writer -/

theorem run_nvramSafeGet {name : CStr} (hfd : p.nvramFd = true) (hshort : name.len < 100)
    (hne : name ≠ CStr.empty) :
    (nvramSafeGet name).run (library table mapSystem) p = .ok (text p.dev name, p) := by
  rw [nvramSafeGet, run_get, nvramGet_map hfd hshort hne]
  rfl

/-- The lines of a store, without their ends. -/
def exported (rows : List NvramTuple) (M : Variables) : List (CStr × CStr) :=
  (rows.filter fun v => !skipped v.option).map fun v => (v.name, text M v.name)

theorem run_exportRows (hfd : p.nvramFd = true) (rows : List NvramTuple)
    (h : ∀ v ∈ rows, v ∈ table.rows) :
    (exportRows rows).run (library table mapSystem) p =
      .ok (((exported rows p.dev).map fun a => (assignment a).val).flatMap (· ++ [NL]), p) := by
  induction rows with
  | nil => rfl
  | cons v rows ih =>
    have hv := h v List.mem_cons_self
    have ih := ih fun w hw => h w (List.mem_cons_of_mem v hw)
    rw [exportRows, exported, List.filter_cons]
    by_cases hs : skipped v.option = true
    · rw [if_pos hs, if_neg (by simp [hs])]
      exact ih
    · rw [if_neg hs, if_pos (by simp [hs]), Program.run_bind,
        run_nvramSafeGet hfd (table.name_short v hv) (table.name_nonempty v hv)]
      dsimp only
      rw [Program.run_bind, ih]
      rfl

theorem run_nvramExport (hfd : p.nvramFd = true) (EZP_PROD_VERSION : CStr) :
    (nvramExport table EZP_PROD_VERSION).run (library table mapSystem) p =
      .ok (exportHeader (text p.dev (.ofString "brand")) (text p.dev (.ofString "model"))
        (text p.dev (.ofString "prod_cat")) (text p.dev (.ofString "prod_subcat"))
        EZP_PROD_VERSION ++ NL :: ((exported table.rows p.dev).map fun a =>
          (assignment a).val).flatMap (· ++ [NL]), p) := by
  unfold nvramExport
  rw [Program.run_bind, run_nvramSafeGet hfd (by decide) (by decide)]
  dsimp only
  rw [Program.run_bind, run_nvramSafeGet hfd (by decide) (by decide)]
  dsimp only
  rw [Program.run_bind, run_nvramSafeGet hfd (by decide) (by decide)]
  dsimp only
  rw [Program.run_bind, run_nvramSafeGet hfd (by decide) (by decide)]
  dsimp only
  rw [Program.run_bind, run_exportRows hfd table.rows fun _ h => h]
  rfl

/-! ## The reader -/

theorem lineAssignment_row {buf : CStr} {a : CStr × CStr} (h : lineAssignment table buf = some a) :
    Defined table a.1 ∧ hasOption (nvramGetOption table a.1) NVRAM_PROTECTED = false ∧
      a.1.len + a.2.len + 1 ≤ buf.len := by
  unfold lineAssignment at h
  cases hcut : CStr.cut EQ buf with
  | none =>
    rw [hcut] at h
    cases h
  | some kp =>
    obtain ⟨key, q⟩ := kp
    have hlen := CStr.cut_length hcut
    rw [hcut] at h
    dsimp only at h
    cases hf : table.rows.find? fun v => v.name = key with
    | none =>
      rw [hf] at h
      cases h
    | some v =>
      have hv := List.mem_of_find?_eq_some hf
      have hn : v.name = key := by simpa using List.find?_some hf
      rw [hf] at h
      dsimp only at h
      by_cases hs : skipped v.option = true
      · rw [if_pos hs] at h
        cases h
      · rw [if_neg hs] at h
        have hprot : hasOption (nvramGetOption table key) NVRAM_PROTECTED = false := by
          rw [nvramGetOption, hf]
          simp only [skipped, Bool.or_eq_true, not_or, Bool.not_eq_true] at hs
          exact hs.1
        split at h
        · cases h
          exact ⟨⟨v, hv, hn⟩, hprot, by dsimp only; rw [CStr.empty_len]; omega⟩
        · cases h
          have hchop := CStr.chop_len_le NL q
          exact ⟨⟨v, hv, hn⟩, hprot, by dsimp only; omega⟩

/-- The reader makes the assignments of its lines one after the other. -/
theorem run_importLines (bufs : List CStr) (hfd : p.nvramFd = true) :
    ∃ q, (importLines table bufs).run (library table mapSystem) p = .ok ((), q) ∧
      (fun n => some (text q.dev n)) =
        overwrite (fun n => some (text p.dev n)) (bufs.filterMap (lineAssignment table)) := by
  induction bufs generalizing p with
  | nil => exact ⟨p, rfl, rfl⟩
  | cons buf bufs ih =>
    rw [importLines, List.filterMap_cons]
    cases hl : lineAssignment table buf with
    | none => exact ih hfd
    | some a =>
      obtain ⟨hd, hprot, -⟩ := lineAssignment_row hl
      obtain ⟨r, hset, hr, hdev⟩ := nvramSet_map a.2 hfd hd hprot
      obtain ⟨q, hrun, hq⟩ := ih hr
      have hstep : (fun n => some (text r.2.dev n)) =
          Function.update (fun n => some (text p.dev n)) a.1 (some a.2) := by
        funext n
        rw [hdev, text, Function.update_apply, Function.update_apply]
        split
        · split
          · next he => rw [he]; rfl
          · rfl
        · rfl
      refine ⟨q, ?_, ?_⟩
      · dsimp only
        rw [run_set, hset]
        exact hrun
      · rw [hq, hstep]
        rfl

/-! ## One line -/

/-- The pieces of the line of a variable, as the reader sees them. -/
def lineBufs (a : CStr × CStr) : List CStr :=
  (pieces NL (NVRAM_TMP_LEN - 1) ((assignment a).val ++ [NL])).map CStr.read

theorem lineAssignment_cut {v : NvramTuple} (hv : v ∈ table.rows) (hs : skipped v.option = false)
    {buf q : CStr} (hcut : CStr.cut EQ buf = some (v.name, q)) :
    lineAssignment table buf =
      some (v.name, if q.val.head? = some NL then CStr.empty else q.chop NL) := by
  unfold lineAssignment
  rw [hcut]
  dsimp only
  rw [option_of_mem hv]
  dsimp only
  rw [if_neg (by simp [hs])]
  split <;> rfl

/-- Without its end, a value is read as it is. -/
theorem lineAssignment_assignment {v : NvramTuple} (hv : v ∈ table.rows)
    (hs : skipped v.option = false) {value : CStr} (hnl : NL ∉ value.val) :
    lineAssignment table (assignment (v.name, value)) = some (v.name, value) := by
  have hcut : CStr.cut EQ (assignment (v.name, value)) = some (v.name, value) :=
    CStr.cut_glue EQ_ne_zero (table.name_plain v hv) value
  have hhead : ¬ value.val.head? = some NL := fun h => hnl (List.mem_of_head? h)
  have hlast : ¬ value.val.getLast? = some NL := fun h => hnl (List.mem_of_getLast? h)
  rw [lineAssignment_cut hv hs hcut, if_neg hhead, CStr.chop, if_neg hlast]

/-- With its end, too. -/
theorem lineAssignment_line {v : NvramTuple} (hv : v ∈ table.rows) (hs : skipped v.option = false)
    {value : CStr} (hnl : NL ∉ value.val) :
    lineAssignment table (CStr.read ((assignment (v.name, value)).val ++ [NL])) =
      some (v.name, value) := by
  have hzero : (0 : UInt8) ∉ value.val ++ [NL] := by
    simpa [value.property] using (by decide : (0 : UInt8) ≠ NL)
  have hread : CStr.read ((assignment (v.name, value)).val ++ [NL]) =
      CStr.glue EQ EQ_ne_zero v.name ⟨value.val ++ [NL], hzero⟩ := by
    have hbytes : (assignment (v.name, value)).val ++ [NL] =
        (CStr.glue EQ EQ_ne_zero v.name ⟨value.val ++ [NL], hzero⟩).val :=
      List.append_assoc v.name.val (EQ :: value.val) [NL]
    rw [hbytes, CStr.read_val]
  rw [hread, lineAssignment_cut hv hs (CStr.cut_glue EQ_ne_zero (table.name_plain v hv) _)]
  congr 2
  obtain ⟨bytes, hfree⟩ := value
  cases bytes with
  | nil => rfl
  | cons b bs =>
    have hb : ¬ ((b :: bs ++ [NL]).head? = some NL) := fun h => hnl (by
      rw [List.cons_append, List.head?_cons] at h
      exact Option.some.inj h ▸ List.mem_cons_self)
    have hlast : (b :: bs ++ [NL]).getLast? = some NL := List.getLast?_concat
    apply Subtype.ext
    dsimp only
    rw [if_neg hb, CStr.chop, if_pos hlast]
    simp [CStr.take, CStr.len]

theorem assignment_line {v : NvramTuple} (hv : v ∈ table.rows) {value : CStr}
    (hnl : NL ∉ value.val) : NL ∉ (assignment (v.name, value)).val := by
  have hsep : NL ≠ EQ := by decide
  simpa [assignment, CStr.glue, hsep, hnl] using table.name_line v hv

theorem assignment_len (a : CStr × CStr) : (assignment a).val.length = a.1.len + 1 + a.2.len :=
  CStr.glue_len EQ EQ_ne_zero a.1 a.2

/-- A line that fits into the buffer, perhaps without its end, makes its assignment. -/
theorem lineBufs_short {v : NvramTuple} (hv : v ∈ table.rows) (hs : skipped v.option = false)
    {value : CStr} (hnl : NL ∉ value.val) (hlen : v.name.len + value.len ≤ 4094) :
    (lineBufs (v.name, value)).filterMap (lineAssignment table) = [(v.name, value)] := by
  have hline := assignment_line hv hnl
  have hlen' := assignment_len (v.name, value)
  dsimp only at hlen'
  by_cases hfit : v.name.len + value.len < 4094
  · rw [lineBufs, pieces_short hline (by rw [hlen', NVRAM_TMP_LEN]; omega), List.map_singleton,
      List.filterMap_cons, lineAssignment_line hv hs hnl]
    rfl
  · have hexact : (assignment (v.name, value)).val.length = NVRAM_TMP_LEN - 1 := by
      rw [hlen', NVRAM_TMP_LEN]
      omega
    have hend : pieces NL (NVRAM_TMP_LEN - 1) [NL] = [[NL]] :=
      pieces_short (l := []) List.not_mem_nil (by decide)
    rw [lineBufs, pieces_full hline (by decide) hexact.ge, ← hexact, List.take_length,
      List.drop_length, List.nil_append, hexact, hend, List.map_cons, List.map_singleton,
      CStr.read_val, List.filterMap_cons, lineAssignment_assignment hv hs hnl]
    rfl

/-- A longer one makes an assignment to its variable, too. -/
theorem lineBufs_long {v : NvramTuple} (hv : v ∈ table.rows) (hs : skipped v.option = false)
    {value : CStr} (hnl : NL ∉ value.val) (hlen : 4094 < v.name.len + value.len) :
    v.name ∈ ((lineBufs (v.name, value)).filterMap (lineAssignment table)).map Prod.fst := by
  have hline := assignment_line hv hnl
  have hlen' := assignment_len (v.name, value)
  have hshort := table.name_short v hv
  dsimp only at hlen'
  have hfirst : CStr.read ((assignment (v.name, value)).val.take (NVRAM_TMP_LEN - 1)) =
      assignment (v.name, value.take (4094 - v.name.len)) := by
    have hbytes : (assignment (v.name, value)).val.take (NVRAM_TMP_LEN - 1) =
        (assignment (v.name, value.take (4094 - v.name.len))).val := by
      have hsplit : NVRAM_TMP_LEN - 1 = v.name.val.length + (4094 - v.name.len + 1) := by
        rw [NVRAM_TMP_LEN]
        simp only [CStr.len] at hshort ⊢
        omega
      simp only [assignment, CStr.glue, CStr.take]
      rw [hsplit, List.take_length_add_append, List.take_succ_cons]
    rw [hbytes, CStr.read_val]
  have hnl' : NL ∉ (value.take (4094 - v.name.len)).val := fun h => hnl (List.mem_of_mem_take h)
  rw [lineBufs, pieces_full hline (by decide) (by rw [hlen', NVRAM_TMP_LEN]; omega), List.map_cons,
    hfirst, List.filterMap_cons, lineAssignment_assignment hv hs hnl']
  exact List.mem_cons_self

/-! ## The whole file -/

theorem mem_exported {rows : List NvramTuple} {M : Variables} {a : CStr × CStr} :
    a ∈ exported rows M ↔
      ∃ v ∈ rows, skipped v.option = false ∧ a = (v.name, text M v.name) := by
  simp only [exported, List.mem_map, List.mem_filter, Bool.not_eq_true']
  constructor
  · rintro ⟨v, ⟨hv, hs⟩, rfl⟩
    exact ⟨v, hv, hs, rfl⟩
  · rintro ⟨v, hv, hs, rfl⟩
    exact ⟨v, ⟨hv, hs⟩, rfl⟩

theorem exported_nodup (M : Variables) : ((exported table.rows M).map Prod.fst).Nodup := by
  have hnames : (exported table.rows M).map Prod.fst =
      (table.rows.filter fun v => !skipped v.option).map NvramTuple.name := by
    simp [exported]
  rw [hnames]
  exact table.names_nodup.sublist (List.filter_sublist.map _)

/-- What the reader is given after the header: pieces of an over-long header, then the lines. -/
theorem pieces_file (header : List UInt8) (l : List (CStr × CStr)) :
    (pieces NL (NVRAM_TMP_LEN - 1) (header ++ NL ::
      (l.map fun a => (assignment a).val).flatMap (· ++ [NL]))).tail.map CStr.read =
    (pieces NL (NVRAM_TMP_LEN - 1) (header ++ [NL])).tail.map CStr.read ++ l.flatMap lineBufs := by
  rw [pieces_line, List.tail_append_of_ne_nil (pieces_ne_nil (by simp)), List.map_append,
    pieces_lines, List.map_flatMap, List.flatMap_map]
  rfl

/-- The assignments that a file makes. -/
def assignmentsOf (table : NvramDefault) (file : List UInt8) : List (CStr × CStr) :=
  ((pieces NL (NVRAM_TMP_LEN - 1) file).tail.map CStr.read).filterMap (lineAssignment table)

/-- Each of them came from one buffer. -/
theorem assignmentsOf_len {file : List UInt8} {a : CStr × CStr} (h : a ∈ assignmentsOf table file) :
    a.1.len + a.2.len ≤ 4094 := by
  obtain ⟨buf, hbuf, ha⟩ := List.mem_filterMap.mp h
  obtain ⟨c, hc, rfl⟩ := List.mem_map.mp hbuf
  have hpiece := pieces_length (by decide) (List.mem_of_mem_tail hc)
  have hread := CStr.read_len_le c
  have hrow := (lineAssignment_row ha).2.2
  rw [NVRAM_TMP_LEN] at hpiece
  omega

/-- The file of a store, with any header. -/
def fileOf (table : NvramDefault) (header : List UInt8) (M : Variables) : List UInt8 :=
  header ++ NL :: ((exported table.rows M).map fun a => (assignment a).val).flatMap (· ++ [NL])

theorem assignmentsOf_file (header : List UInt8) (M : Variables) :
    assignmentsOf table (fileOf table header M) =
      ((pieces NL (NVRAM_TMP_LEN - 1) (header ++ [NL])).tail.map CStr.read).filterMap
        (lineAssignment table) ++
      (exported table.rows M).flatMap fun a => (lineBufs a).filterMap (lineAssignment table) := by
  rw [assignmentsOf, fileOf, pieces_file, List.filterMap_append, List.filterMap_flatMap]

/-- Lines that fit give back the saved texts, whatever is left of the header. -/
theorem assignmentsOf_short {M : Variables} (hM : ∀ n, NL ∉ (text M n).val) (header : List UInt8)
    (hshort : ∀ v ∈ table.rows, skipped v.option = false →
      v.name.len + (text M v.name).len ≤ 4094) (f : CStr → Option CStr) {v : NvramTuple}
    (hv : v ∈ table.rows) (hs : skipped v.option = false) :
    overwrite f (assignmentsOf table (fileOf table header M)) v.name =
      some (text M v.name) := by
  have hlines : ((exported table.rows M).flatMap fun a =>
      (lineBufs a).filterMap (lineAssignment table)) = exported table.rows M := by
    rw [List.flatMap_congr (g := fun a => [a]), List.flatMap_singleton']
    intro a ha
    obtain ⟨w, hw, hws, rfl⟩ := mem_exported.mp ha
    exact lineBufs_short hw hws (hM w.name) (hshort w hw hws)
  rw [assignmentsOf_file, hlines, overwrite_append]
  exact overwrite_of_mem (exported_nodup M) (mem_exported.mpr ⟨v, hv, hs, rfl⟩)

/-- Every saved variable is assigned by its line, with a text that came from one buffer. -/
theorem assignmentsOf_key {M : Variables} (hM : ∀ n, NL ∉ (text M n).val) (header : List UInt8)
    (f : CStr → Option CStr) {v : NvramTuple} (hv : v ∈ table.rows)
    (hs : skipped v.option = false) :
    ∃ w, overwrite f (assignmentsOf table (fileOf table header M)) v.name = some w ∧
      v.name.len + w.len ≤ 4094 := by
  have hkey : v.name ∈ (assignmentsOf table (fileOf table header M)).map Prod.fst := by
    have hmem : v.name ∈ ((lineBufs (v.name, text M v.name)).filterMap
        (lineAssignment table)).map Prod.fst := by
      by_cases hlen : v.name.len + (text M v.name).len ≤ 4094
      · rw [lineBufs_short hv hs (hM v.name) hlen]
        exact List.mem_cons_self
      · exact lineBufs_long hv hs (hM v.name) (Nat.lt_of_not_le hlen)
    obtain ⟨a, ha, hav⟩ := List.mem_map.mp hmem
    rw [assignmentsOf_file]
    exact List.mem_map.mpr ⟨a, List.mem_append_right _ (List.mem_flatMap.mpr
      ⟨_, mem_exported.mpr ⟨v, hv, hs, rfl⟩, ha⟩), hav⟩
  obtain ⟨w, hw, hm⟩ := overwrite_of_key (f := f) hkey
  exact ⟨w, hw, assignmentsOf_len hm⟩

end

/-- Both programs run to their ends, and the second store agrees with the first. -/
def Lossless (table : NvramDefault) (EZP_PROD_VERSION : CStr) (src dst : Process Variables) :
    Prop :=
  ∃ file p q, (nvramExport table EZP_PROD_VERSION).run (library table mapSystem) src =
      .ok (file, p) ∧
    (nvramImportLoop table file).run (library table mapSystem) dst = .ok ((), q) ∧
    Restored table src.dev q.dev

section
variable {table : NvramDefault} {version : CStr} {src dst : Process Variables}

/-- The two runs. -/
theorem run_file (hsrc : src.nvramFd = true) (hdst : dst.nvramFd = true) :
    ∃ header q, (nvramExport table version).run (library table mapSystem) src =
        .ok (fileOf table header src.dev, src) ∧
      (nvramImportLoop table (fileOf table header src.dev)).run (library table mapSystem) dst =
        .ok ((), q) ∧
      ∀ n, some (text q.dev n) = overwrite (fun n => some (text dst.dev n))
        (assignmentsOf table (fileOf table header src.dev)) n := by
  have hexport := @run_nvramExport table _ hsrc version
  obtain ⟨q, himport, hq⟩ := @run_importLines table _ ((pieces NL (NVRAM_TMP_LEN - 1)
    (fileOf table (exportHeader (text src.dev (.ofString "brand"))
      (text src.dev (.ofString "model")) (text src.dev (.ofString "prod_cat"))
      (text src.dev (.ofString "prod_subcat")) version) src.dev)).tail.map CStr.read) hdst
  exact ⟨_, q, hexport, himport, congrFun hq⟩

theorem Lossless.short (hsrc : src.nvramFd = true) (hdst : dst.nvramFd = true)
    (hnl : ∀ n, NL ∉ (text src.dev n).val) (h : Lossless table version src dst) :
    ∀ v ∈ table.rows, skipped v.option = false →
      v.name.len + (text src.dev v.name).len ≤ 4094 := by
  intro v hv hs
  obtain ⟨header, q, hexport, himport, htext⟩ := @run_file table version _ _ hsrc hdst
  obtain ⟨file, p, q', hfile, hrun, hrestored⟩ := h
  rw [hexport] at hfile
  cases hfile
  have hsame := himport.symm.trans hrun
  cases hsame
  obtain ⟨w, hw, hlen⟩ := assignmentsOf_key hnl header (fun n => some (text dst.dev n)) hv hs
  rw [← htext, hrestored v hv hs] at hw
  cases hw
  exact hlen

theorem lossless_of_short (hsrc : src.nvramFd = true) (hdst : dst.nvramFd = true)
    (hnl : ∀ n, NL ∉ (text src.dev n).val)
    (h : ∀ v ∈ table.rows, skipped v.option = false →
      v.name.len + (text src.dev v.name).len ≤ 4094) : Lossless table version src dst := by
  obtain ⟨header, q, hexport, himport, htext⟩ := @run_file table version _ _ hsrc hdst
  refine ⟨_, _, q, hexport, himport, fun v hv hs => ?_⟩
  have hv' := htext v.name
  rw [assignmentsOf_short hnl header h _ hv hs] at hv'
  exact Option.some.inj hv'

end

/-- For every store without ends of lines in its values, and every store to restore it to: nothing
is lost exactly if each saved name and value take at most 4094 bytes together. -/
theorem export_import_iff (table : NvramDefault) (EZP_PROD_VERSION : CStr) (src dst : Variables)
    (clock writes clock' writes' : ℕ) (hnl : ∀ n v, src n = some v → NL ∉ v.val) :
    Lossless table EZP_PROD_VERSION ⟨true, clock, writes, src⟩ ⟨true, clock', writes', dst⟩ ↔
      ∀ v ∈ table.rows, skipped v.option = false →
        v.name.len + (text src v.name).len ≤ 4094 := by
  have htext (n : CStr) : NL ∉ (text src n).val := by
    cases hn : src n with
    | none =>
      rw [text, hn]
      exact List.not_mem_nil
    | some v =>
      rw [text, hn]
      exact hnl n v hn
  constructor
  · intro h
    exact h.short rfl rfl htext
  · intro h
    apply lossless_of_short rfl rfl
    · exact htext
    · exact h

/-- A row of the table. -/
def oneRow : NvramDefault where
  rows := [⟨.ofString "lang", some (.ofString "en_US"), 0⟩]
  names_nodup := by decide
  name_short := by decide
  name_line := by decide
  name_plain := by decide
  name_nonempty := by decide
  option_defined := by decide

/-- A text with separators is restored. -/
theorem export_import_text :
    Lossless oneRow (.ofString "3.2.2") ⟨true, 0, 0, fun _ => some (.ofString "a=b=c")⟩
      ⟨true, 0, 0, fun _ => none⟩ :=
  (export_import_iff oneRow (.ofString "3.2.2") (fun _ => some (.ofString "a=b=c")) (fun _ => none)
    0 0 0 0 (fun _ _ h => Option.some.inj h ▸ by decide)).mpr (by decide)

/-- A text of 5000 letters is not. -/
theorem export_import_truncates :
    ¬ Lossless oneRow (.ofString "3.2.2") ⟨true, 0, 0, fun _ => some (letters 5000)⟩
      ⟨true, 0, 0, fun _ => none⟩ := by
  obtain ⟨value, hvalue⟩ : ∃ value, letters 5000 = value := ⟨_, rfl⟩
  have hlen : value.len = 5000 := hvalue ▸ letters_len 5000
  have hnl : NL ∉ value.val := by
    rw [← hvalue]
    exact fun hm => absurd (List.eq_of_mem_replicate hm) (by decide)
  rw [hvalue]
  have htext : ∀ n, text (fun _ => some value) n = value := fun _ => rfl
  intro h
  have hshort := h.short rfl rfl (fun n => (htext n).symm ▸ hnl)
    ⟨.ofString "lang", some (.ofString "en_US"), 0⟩ List.mem_cons_self (by decide)
  dsimp only at hshort
  rw [htext, hlen] at hshort
  omega

end EzpFirmware.UserNvram
