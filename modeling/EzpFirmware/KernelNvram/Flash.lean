import EzpFirmware.KernelNvram.Consolidate

/-! # The two flash banks

A commit writes the store to the backup bank and then to the primary one; a boot
loads the primary bank, lets a valid backup replace it, and rewrites a bank that
fails validation. Every answer of the allocator and of the flash driver is an
argument, so all exits of a commit can be taken.
-/
namespace EzpFirmware.KernelNvram
open Lib

/-- `-EIO`. -/
def EIO : ℤ := -5

/-- `-ENODEV`. -/
def ENODEV : ℤ := -19

/-- `-EINVAL`. -/
def EINVAL : ℤ := -22

/-- A flash partition: its erase size, and its last `NVRAM_SPACE` bytes. -/
structure Mtd where
  erasesize : ℕ
  image : Image

namespace Mtd

/-- Bytes of the erased region in front of the image. -/
def lead (mtd : Mtd) : ℕ := roundup NVRAM_SPACE mtd.erasesize - NVRAM_SPACE

/-- Number of blocks the erase loop visits: those that start in front of the end of the data. -/
def blocks (mtd : Mtd) (header : Image) : ℕ :=
  (mtd.lead + header.header.len.toNat + (mtd.erasesize - 1)) / mtd.erasesize

/-- Byte `j` of the data area after erasing the blocks and writing up to the end of the data:
behind the data an erased block reads as ones, and a block that was not erased keeps its bytes. -/
def byteAt (mtd : Mtd) (header : Image) (j : ℕ) : UInt8 :=
  if j < header.header.len.toNat - NVRAM_HEADER_SIZE then header.data.getD j 0
  else if mtd.lead + NVRAM_HEADER_SIZE + j < mtd.blocks header * mtd.erasesize then 0xff
  else mtd.image.data.getD j 0

/-- The image a successful commit leaves in the bank. -/
def program (mtd : Mtd) (header : Image) : Image where
  header := header.header
  data := tabulate (NVRAM_SPACE - NVRAM_HEADER_SIZE) (mtd.byteAt header)
  data_length := tabulate_length _ _

end Mtd

/-- What allocator and flash driver answer during one `nvram_mtd_commit`. -/
structure MtdAnswers where
  /-- The buffer for the erased region. -/
  buf : Bool
  /-- What the fresh buffer contains. -/
  scratch : Image
  /-- Reading the bytes in front of the image. -/
  read : Bool
  /-- A tuple for the `i`-th assignment of the rebuild. -/
  rebuild : ℕ → Bool
  /-- The result of erasing the `i`-th block. -/
  erase : ℕ → ℤ
  /-- The write takes all bytes. -/
  write : Bool
  /-- The bank after a failed erase or write. -/
  broken : Image
  /-- The result of the last, short read. -/
  verify : ℤ

/-- The erase loop from block `i` on, `n` blocks to go; the first error ends it. -/
def eraseLoop (erase : ℕ → ℤ) : (n i : ℕ) → ℤ
  | 0, _ => 0
  | n + 1, i => if erase i ≠ 0 then erase i else eraseLoop erase n (i + 1)

/-- `nvram_mtd_commit`. -/
def nvramMtdCommit (answers : MtdAnswers) (mtd : Mtd) (s : Nvram) : ℤ × Mtd × Nvram :=
  if !answers.buf then (ENOMEM, mtd, s)
  else if 0 < mtd.lead && !answers.read then ( EIO, mtd, s)
  else
    let c := _nvramCommit answers.rebuild answers.scratch s
    if c.1 ≠ 0 then (c.1, mtd, c.2.2)
    else
      let ret := eraseLoop answers.erase (mtd.blocks c.2.1) 0
      if ret ≠ 0 then (ret, { mtd with image := answers.broken }, c.2.2)
      else if !answers.write then ( EIO, { mtd with image := answers.broken }, c.2.2)
      else (answers.verify, { mtd with image := mtd.program c.2.1 }, c.2.2)

structure Flash where
  nvramMtd : Option Mtd
  nvramBackupMtd : Option Mtd

/-- The first half of `nvram_commit`; without a backup partition there is nothing to do. -/
def commitBackup (answers : MtdAnswers) (flash : Flash) (s : Nvram) : Option Mtd × Nvram :=
  match flash.nvramBackupMtd with
  | none => (none, s)
  | some mtd =>
    let r := nvramMtdCommit answers mtd s
    (some r.2.1, r.2.2)

/-- `nvram_commit`; the result of the backup bank is overwritten by that of the primary bank. -/
def nvramCommit (inInterrupt : Bool) (backup primary : MtdAnswers) (flash : Flash) (s : Nvram) :
    ℤ × Flash × Nvram :=
  match flash.nvramMtd with
  | none => (ENODEV, flash, s)
  | some mtd =>
    if inInterrupt then (EINVAL, flash, s)
    else
      let b := commitBackup backup flash s
      let r := nvramMtdCommit primary mtd b.2
      (r.1, ⟨some r.2.1, b.1⟩, r.2.2)

/-! ## Boot -/

/-- What allocator and flash driver answer during one `_nvram_init`. -/
structure InitAnswers where
  malloc : Bool
  read : Bool
  rebuild : ℕ → Bool

/-- `_nvram_init` of a bank. -/
def initBank (answers : InitAnswers) (mtd : Mtd) (failsafe : Bool) (s : Nvram) :
    Option (ℤ × Nvram) :=
  _nvramInit answers.malloc answers.rebuild (if answers.read then some mtd.image else none)
    failsafe s

structure BootAnswers where
  first : InitAnswers
  second : InitAnswers
  third : InitAnswers
  recover : MtdAnswers

/-- The bank that has to be rewritten at the end of a boot. -/
inductive Recover where
  | nothing
  | primary
  | backup
  deriving DecidableEq

/-- The part of `dev_nvram_init` that fills the table. -/
def initTable (answers : BootAnswers) (flash : Flash) (s : Nvram) : Option (Recover × Nvram) :=
  match flash.nvramMtd with
  | none => some (.nothing, s)
  | some mtd =>
    (initBank answers.first mtd false s).bind fun (ret, s) =>
      if ret ≠ 0 then
        match flash.nvramBackupMtd with
        | some backup =>
          (initBank answers.second backup false s).bind fun (ret, s) =>
            if ret ≠ 0 then (initBank answers.third mtd true s).map fun r => (.nothing, r.2)
            else some (.primary, s)
        | none => (initBank answers.third mtd true s).map fun r => (.nothing, r.2)
      else
        match flash.nvramBackupMtd with
        | some backup =>
          (initBank answers.second backup false s).bind fun (ret, s) =>
            if ret ≠ 0 then (initBank answers.third mtd false s).map fun r => (.backup, r.2)
            else some (.nothing, s)
        | none => some (.nothing, s)

/-- The part of `dev_nvram_init` that rewrites a bad bank. -/
def recoverBank (answers : MtdAnswers) (r : Recover) (flash : Flash) (s : Nvram) : Flash × Nvram :=
  match r, flash.nvramMtd, flash.nvramBackupMtd with
  | .primary, some mtd, _ =>
    let c := nvramMtdCommit answers mtd s
    ({ flash with nvramMtd := some c.2.1 }, c.2.2)
  | .backup, _, some mtd =>
    let c := nvramMtdCommit answers mtd s
    ({ flash with nvramBackupMtd := some c.2.1 }, c.2.2)
  | _, _, _ => (flash, s)

/-- `dev_nvram_init`. No value means that the validation of a bank reads out of its image. -/
def devNvramInit (answers : BootAnswers) (flash : Flash) (s : Nvram) : Option (Flash × Nvram) :=
  (initTable answers flash s).map fun r => recoverBank answers.recover r.1 flash r.2

/-! ## A single bank -/

theorem program_agrees (mtd : Mtd) (header : Image) : (mtd.program header).Agrees header where
  header := rfl
  data := take_tabulate header.data_length fun _ hj => if_pos hj

/-- The store whose image a commit writes to the bank comes back, whatever was there before. -/
theorem program_regenerate (mtd : Mtd) (header : NvramHeader) (s : Nvram) :
    (mtd.program (regenerate header s)).Agrees (regenerate header s) :=
  program_agrees mtd _

theorem commit_image (rebuild : ℕ → Bool) (header : Image) (s : Nvram) :
    (_nvramCommit rebuild header s).2.1 = regenerate header.header s :=
  regenerate_terminate header.header s

/-- The two exits in front of the first erase. -/
def MtdAnswers.Stops (answers : MtdAnswers) (mtd : Mtd) : Prop :=
  answers.buf = false ∨ (0 < mtd.lead ∧ answers.read = false)

instance (answers : MtdAnswers) (mtd : Mtd) : Decidable (answers.Stops mtd) :=
  inferInstanceAs (Decidable (_ ∨ _))

variable {answers : MtdAnswers} {mtd : Mtd} {s : Nvram}

theorem nvramMtdCommit_stops (h : answers.Stops mtd) :
    (nvramMtdCommit answers mtd s).1 ≠ 0 ∧ (nvramMtdCommit answers mtd s).2 = (mtd, s) := by
  have h1 : ENOMEM ≠ 0 := by decide
  have h2 : EIO ≠ 0 := by decide
  unfold nvramMtdCommit
  cases h with
  | inl hb => simp [hb, h1]
  | inr hr =>
    cases hb : answers.buf with
    | false => simp [h1]
    | true => simp [hr.1, hr.2, h2]

/-- Past those exits the table has been rebuilt, and the bank holds the image of the store or what
a failed step left. -/
theorem nvramMtdCommit_runs (h : ¬ answers.Stops mtd) :
    (nvramMtdCommit answers mtd s).2.2 = s.consolidated answers.rebuild ∧
      ((nvramMtdCommit answers mtd s).2.1 = { mtd with image := answers.broken } ∧
          (nvramMtdCommit answers mtd s).1 ≠ 0 ∨
        (nvramMtdCommit answers mtd s).2.1 =
          { mtd with image := mtd.program (regenerate answers.scratch.header s) } ∧
          (nvramMtdCommit answers mtd s).1 = answers.verify) := by
  have hio : EIO ≠ 0 := by decide
  have hbuf : answers.buf = true := by
    by_contra hb
    exact h (.inl (by simpa using hb))
  have hread : (decide (0 < mtd.lead) && !answers.read) = false := by
    by_contra hr
    exact h (.inr (by simpa using hr))
  have hc : (_nvramCommit answers.rebuild answers.scratch s).1 = 0 := rfl
  have hstore := Nvram.commit_store answers.rebuild answers.scratch s
  have himage := commit_image answers.rebuild answers.scratch s
  unfold nvramMtdCommit
  simp only [hbuf, hread, hc, hstore, himage, Bool.not_true, Bool.false_eq_true, if_false, ne_eq,
    not_true_eq_false]
  by_cases he : eraseLoop answers.erase (mtd.blocks (regenerate answers.scratch.header s)) 0 = 0
  · cases hw : answers.write with
    | false => simp [he, hio]
    | true => simp [he]
  · simp [he]

/-- Every step of the flash driver and the allocator succeeds. -/
structure MtdAnswers.Succeeds (answers : MtdAnswers) : Prop where
  buf : answers.buf = true
  read : answers.read = true
  rebuild : ∀ i, answers.rebuild i = true
  erase : ∀ i, answers.erase i = 0
  write : answers.write = true
  verify : answers.verify = 0

theorem eraseLoop_ok {erase : ℕ → ℤ} (h : ∀ i, erase i = 0) (n i : ℕ) :
    eraseLoop erase n i = 0 := by
  induction n generalizing i with
  | zero => rfl
  | succ n ih => rw [eraseLoop, if_neg (by simp [h]), ih]

theorem nvramMtdCommit_succeeds (h : answers.Succeeds) :
    nvramMtdCommit answers mtd s =
      (0, { mtd with image := mtd.program (regenerate answers.scratch.header s) },
        s.consolidated answers.rebuild) := by
  have hc : (_nvramCommit answers.rebuild answers.scratch s).1 = 0 := rfl
  unfold nvramMtdCommit
  simp only [h.buf, h.read, h.write, h.verify, hc, Nvram.commit_store, commit_image,
    eraseLoop_ok h.erase, Bool.not_true, Bool.and_false, Bool.false_eq_true, if_false, ne_eq,
    not_true_eq_false]

/-! ## Loading a bank -/

/-- Memory is granted and the bank can be read. -/
structure InitAnswers.Granted (answers : InitAnswers) : Prop where
  malloc : answers.malloc = true
  read : answers.read = true
  rebuild : ∀ i, answers.rebuild i = true

/-- No request of a boot is refused, and both banks can be read. -/
structure BootAnswers.Granted (answers : BootAnswers) : Prop where
  first : answers.first.Granted
  second : answers.second.Granted
  third : answers.third.Granted
  recover : ∀ i, answers.recover.rebuild i = true

/-- A bank that validation rejects. -/
def Image.Rejected (image : Image) : Prop := ∃ ret, _nvramValid image false = some ret ∧ ret ≠ 0

/-- A bank that validation accepts. -/
def Image.Accepted (image : Image) : Prop := _nvramValid image false = some 0

theorem initBank_accepted {a : InitAnswers} (ha : a.Granted) (hv : mtd.image.Accepted) :
    initBank a mtd false s = some (0, (nvramRehash a.rebuild mtd.image s).2.2) := by
  have hv' : _nvramValid mtd.image false = some 0 := hv
  simp [initBank, _nvramInit, _nvramRead, ha.malloc, ha.read, hv']

theorem initBank_rejected {a : InitAnswers} (ha : a.Granted) (hv : mtd.image.Rejected) :
    ∃ ret, ret ≠ 0 ∧ initBank a mtd false s = some (ret, s) := by
  obtain ⟨ret, hv', hret⟩ := hv
  exact ⟨ret, hret, by simp [initBank, _nvramInit, _nvramRead, ha.malloc, ha.read, hv', hret]⟩

end EzpFirmware.KernelNvram
