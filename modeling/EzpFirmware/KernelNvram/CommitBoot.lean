import EzpFirmware.KernelNvram.Flash

/-! # A commit followed by a boot

A successful commit means that the primary bank was written. The boot that
follows prefers the backup bank whenever that one is valid, so what it loads
depends on whether the backup was written too, left broken, or never touched.
-/
namespace EzpFirmware.KernelNvram
open Lib

variable {s : Nvram} {primary backup : Mtd} {answers : BootAnswers}

/-- A boot on these banks, starting from the static state, ends with the map `M` in the table. -/
def Loads (answers : BootAnswers) (flash : Flash) (M : CStr → Option CStr) : Prop :=
  ∃ flash' s', devNvramInit answers flash Nvram.initial = some (flash', s') ∧
    ∀ m, _nvramGet m s' = M m

theorem Loads.unique {flash : Flash} {M N : CStr → Option CStr} (h : Loads answers flash M) :
    Loads answers flash N ↔ ∀ m, M m = N m := by
  obtain ⟨f, s', hs, hm⟩ := h
  constructor
  · rintro ⟨g, t, ht, hn⟩
    rw [hs] at ht
    cases ht
    exact fun m => (hm m).symm.trans (hn m)
  · exact fun he => ⟨f, s', hs, fun m => (hm m).trans (he m)⟩

/-! ## The table after the loading part -/

theorem initTable_both (ha : answers.Granted) (hp : primary.image.Accepted)
    (hb : backup.image.Accepted) (hs : s.Valid) :
    ∃ t, initTable answers ⟨some primary, some backup⟩ s = some (.nothing, t) ∧ t.Valid ∧
      ∀ m, _nvramGet m t = backup.image.contents m := by
  have h1 := hs.rehash answers.first.rebuild primary.image
  refine ⟨_, ?_, h1.rehash answers.second.rebuild backup.image,
    h1.rehash_get ha.second.rebuild backup.image⟩
  simp [initTable, initBank_accepted ha.first hp, initBank_accepted ha.second hb]

theorem initTable_primary (ha : answers.Granted) (hp : primary.image.Accepted)
    (hb : backup.image.Rejected) (hs : s.Valid) :
    ∃ t, initTable answers ⟨some primary, some backup⟩ s = some (.backup, t) ∧ t.Valid ∧
      ∀ m, _nvramGet m t = primary.image.contents m := by
  have h1 := hs.rehash answers.first.rebuild primary.image
  obtain ⟨ret, hret, hinit⟩ := initBank_rejected
    (s := (nvramRehash answers.first.rebuild primary.image s).2.2) ha.second hb
  refine ⟨_, ?_, h1.rehash answers.third.rebuild primary.image,
    h1.rehash_get ha.third.rebuild primary.image⟩
  simp [initTable, initBank_accepted ha.first hp, initBank_accepted ha.third hp, hinit, hret]

theorem initTable_backup (ha : answers.Granted) (hp : primary.image.Rejected)
    (hb : backup.image.Accepted) (hs : s.Valid) :
    ∃ t, initTable answers ⟨some primary, some backup⟩ s = some (.primary, t) ∧ t.Valid ∧
      ∀ m, _nvramGet m t = backup.image.contents m := by
  obtain ⟨ret, hret, hinit⟩ := initBank_rejected (s := s) ha.first hp
  refine ⟨_, ?_, hs.rehash answers.second.rebuild backup.image,
    hs.rehash_get ha.second.rebuild backup.image⟩
  simp [initTable, initBank_accepted ha.second hb, hinit, hret]

theorem initTable_alone (ha : answers.Granted) (hp : primary.image.Accepted) (hs : s.Valid) :
    ∃ t, initTable answers ⟨some primary, none⟩ s = some (.nothing, t) ∧ t.Valid ∧
      ∀ m, _nvramGet m t = primary.image.contents m := by
  refine ⟨_, ?_, hs.rehash answers.first.rebuild primary.image,
    hs.rehash_get ha.first.rebuild primary.image⟩
  simp [initTable, initBank_accepted ha.first hp]

/-! ## Rewriting a bank at the end of a boot -/

/-- Rewriting a bank does not change the map of a store that fits into an image. -/
theorem nvramMtdCommit_get {a : MtdAnswers} {mtd : Mtd} (hs : s.Valid)
    (hk : ∀ i, a.rebuild i = true) (hn : s.Named) (hf : s.Fits) (m : CStr) :
    _nvramGet m (nvramMtdCommit a mtd s).2.2 = _nvramGet m s := by
  by_cases hstop : a.Stops mtd
  · rw [(nvramMtdCommit_stops hstop).2]
  · rw [(nvramMtdCommit_runs hstop).1, hs.consolidated_map hk, hs.imageMap_iff.mpr ⟨hn, hf⟩]

theorem recoverBank_nothing (a : MtdAnswers) (flash : Flash) (s : Nvram) :
    recoverBank a .nothing flash s = (flash, s) := rfl

theorem recoverBank_get {a : MtdAnswers} (hs : s.Valid) (hk : ∀ i, a.rebuild i = true)
    (hn : s.Named) (hf : s.Fits) (r : Recover) (flash : Flash) (m : CStr) :
    _nvramGet m (recoverBank a r flash s).2 = _nvramGet m s := by
  unfold recoverBank
  split
  · exact nvramMtdCommit_get hs hk hn hf m
  · exact nvramMtdCommit_get hs hk hn hf m
  · rfl

/-- A store whose map is that of an image of `s` fits into an image again. -/
theorem Nvram.Valid.imageMap_again {t : Nvram} (hs : s.Valid) (ht : t.Valid)
    (hm : ∀ m, _nvramGet m t = s.imageMap m) : t.Named ∧ t.Fits := by
  have hgranted : ∀ i, (fun _ : ℕ => true) i = true := fun _ => rfl
  have hc := hs.consolidated fun _ => true
  have hsame : ∀ m, _nvramGet m t = _nvramGet m (s.consolidated fun _ => true) := fun m => by
    rw [hm, hs.consolidated_map hgranted]
  constructor
  · intro m hn
    rw [hsame] at hn
    exact hs.consolidated_named _ m hn
  · have hle : totalSize assignmentSize t.all ≤
        totalSize assignmentSize (s.consolidated fun _ => true).all :=
      ht.all_size_le fun m v hv => hc.mem_all_iff.mpr (by rwa [← hsame])
    exact hle.trans (hs.consolidated_fits _)

/-- The map a boot ends with, from the one it loaded. -/
private theorem loads_of_initTable {flash : Flash} {r : Recover} {t : Nvram} (hs : s.Valid)
    (ha : answers.Granted) (hi : initTable answers flash Nvram.initial = some (r, t))
    (ht : t.Valid) (hm : ∀ m, _nvramGet m t = s.imageMap m) :
    Loads answers flash s.imageMap := by
  obtain ⟨hn, hf⟩ := hs.imageMap_again ht hm
  refine ⟨(recoverBank answers.recover r flash t).1, (recoverBank answers.recover r flash t).2, ?_,
    fun m => ?_⟩
  · rw [devNvramInit, hi]
    rfl
  · rw [recoverBank_get ht ha.recover hn hf, hm]

/-! ## The exact condition -/

/-- The commit of the backup bank, before it erased anything, did not leave a good bank with other
contents; and, unless that bank is loaded, no name carries the separator and all texts fit. -/
structure Restorable (a : MtdAnswers) (flash : Flash) (s : Nvram) : Prop where
  stale : ∀ mtd, flash.nvramBackupMtd = some mtd → a.Stops mtd → ¬ mtd.image.Rejected →
    mtd.image.Accepted ∧ ∀ m, mtd.image.contents m = _nvramGet m s
  fresh : (∀ mtd, flash.nvramBackupMtd = some mtd → a.Stops mtd → mtd.image.Rejected) →
    s.Named ∧ s.Fits

theorem accepted_of_agrees {image : Image} {header : NvramHeader}
    (h : image.Agrees (regenerate header s)) : image.Accepted := valid_of_agrees h false

/-- The primary bank after a commit that returned 0. -/
private theorem nvramMtdCommit_zero {a : MtdAnswers} {mtd : Mtd} (h : (nvramMtdCommit a mtd s).1 = 0) :
    ∃ header, (nvramMtdCommit a mtd s).2.1.image.Agrees (regenerate header s) := by
  by_cases hstop : a.Stops mtd
  · exact absurd h (nvramMtdCommit_stops hstop).1
  · rcases (nvramMtdCommit_runs hstop).2 with ⟨-, hne⟩ | ⟨he, -⟩
    · exact absurd h hne
    · refine ⟨a.scratch.header, ?_⟩
      rw [he]
      exact program_regenerate _ _ _

/-- Only a commit of a primary bank outside of interrupts returns 0. -/
theorem nvramCommit_zero {inInterrupt : Bool} {a b : MtdAnswers} {nvramMtd bank : Option Mtd}
    (h : (nvramCommit inInterrupt b a ⟨nvramMtd, bank⟩ s).1 = 0) :
    ∃ mtd, nvramMtd = some mtd ∧ inInterrupt = false := by
  have hend : ENODEV ≠ 0 ∧ EINVAL ≠ 0 := by decide
  cases nvramMtd with
  | none => exact absurd h hend.1
  | some mtd =>
    cases inInterrupt with
    | true => exact absurd h hend.2
    | false => exact ⟨mtd, rfl, rfl⟩

section
variable {a b : MtdAnswers} {mtd old : Mtd}

/-- A commit in front of a bank without backup. -/
theorem nvramCommit_alone (a b : MtdAnswers) (mtd : Mtd) (s : Nvram) :
    nvramCommit false b a ⟨some mtd, none⟩ s = ((nvramMtdCommit a mtd s).1,
      ⟨some (nvramMtdCommit a mtd s).2.1, none⟩, (nvramMtdCommit a mtd s).2.2) := rfl

/-- The commit of the backup bank stops early: nothing happened to bank and table. -/
theorem nvramCommit_stops (hstop : b.Stops old) :
    nvramCommit false b a ⟨some mtd, some old⟩ s = ((nvramMtdCommit a mtd s).1,
      ⟨some (nvramMtdCommit a mtd s).2.1, some old⟩, (nvramMtdCommit a mtd s).2.2) := by
  simp [nvramCommit, commitBackup, (nvramMtdCommit_stops (s := s) hstop).2]

/-- Past its early exits the commit of the backup bank rebuilds the table. -/
theorem nvramCommit_runs (hstop : ¬ b.Stops old) :
    nvramCommit false b a ⟨some mtd, some old⟩ s =
      ((nvramMtdCommit a mtd (s.consolidated b.rebuild)).1,
        ⟨some (nvramMtdCommit a mtd (s.consolidated b.rebuild)).2.1,
          some (nvramMtdCommit b old s).2.1⟩,
        (nvramMtdCommit a mtd (s.consolidated b.rebuild)).2.2) := by
  simp [nvramCommit, commitBackup, (nvramMtdCommit_runs (s := s) hstop).1]

variable (hs : s.Valid) (hboot : answers.Granted)
include hs hboot

theorem loads_alone (hz : (nvramMtdCommit a mtd s).1 = 0) :
    Loads answers ⟨some (nvramMtdCommit a mtd s).2.1, none⟩ s.imageMap := by
  obtain ⟨header, hagr⟩ := nvramMtdCommit_zero hz
  obtain ⟨t, hi, ht, hm⟩ := initTable_alone hboot (accepted_of_agrees hagr) Nvram.initial_valid
  rw [Nvram.contents_of_agrees hagr] at hm
  exact loads_of_initTable hs hboot hi ht hm

theorem loads_rejected (hz : (nvramMtdCommit a mtd s).1 = 0) (hold : old.image.Rejected) :
    Loads answers ⟨some (nvramMtdCommit a mtd s).2.1, some old⟩ s.imageMap := by
  obtain ⟨header, hagr⟩ := nvramMtdCommit_zero hz
  obtain ⟨t, hi, ht, hm⟩ := initTable_primary hboot (accepted_of_agrees hagr) hold
    Nvram.initial_valid
  rw [Nvram.contents_of_agrees hagr] at hm
  exact loads_of_initTable hs hboot hi ht hm

omit hs in
theorem loads_stale (hz : (nvramMtdCommit a mtd s).1 = 0) (hold : old.image.Accepted) :
    Loads answers ⟨some (nvramMtdCommit a mtd s).2.1, some old⟩ old.image.contents := by
  obtain ⟨header, hagr⟩ := nvramMtdCommit_zero hz
  obtain ⟨t, hi, -, hm⟩ := initTable_both hboot (accepted_of_agrees hagr) hold
    Nvram.initial_valid
  exact ⟨_, t, by rw [devNvramInit, hi, Option.map_some, recoverBank_nothing], hm⟩

omit hs in
/-- The checksum loop leaves the image: there is no telling what a boot does. -/
theorem not_loads (hz : (nvramMtdCommit a mtd s).1 = 0) (hrej : ¬ old.image.Rejected)
    (hacc : ¬ old.image.Accepted) (M : CStr → Option CStr) :
    ¬ Loads answers ⟨some (nvramMtdCommit a mtd s).2.1, some old⟩ M := by
  obtain ⟨header, hagr⟩ := nvramMtdCommit_zero hz
  have hnone : _nvramValid old.image false = none := by
    cases hv : _nvramValid old.image false with
    | none => rfl
    | some ret =>
      by_cases h0 : ret = 0
      · exact absurd (hv.trans (congrArg some h0)) hacc
      · exact absurd ⟨ret, hv, h0⟩ hrej
  have hinit (t : Nvram) : initBank answers.second old false t = none := by
    simp [initBank, _nvramInit, _nvramRead, hboot.second.malloc, hboot.second.read, hnone]
  rintro ⟨f, t, ht, -⟩
  simp [devNvramInit, initTable, initBank_accepted hboot.first (accepted_of_agrees hagr),
    hinit] at ht

/-- The backup bank was rewritten or broken, and the primary bank written from the rebuilt
table. -/
theorem loads_runs (hstop : ¬ b.Stops old)
    (hz : (nvramMtdCommit a mtd (s.consolidated b.rebuild)).1 = 0)
    (hb : ∀ i, b.rebuild i = true) (hbroken : b.broken.Rejected) :
    Loads answers ⟨some (nvramMtdCommit a mtd (s.consolidated b.rebuild)).2.1,
      some (nvramMtdCommit b old s).2.1⟩ s.imageMap := by
  cases (nvramMtdCommit_runs (s := s) hstop).2 with
  | inl he =>
    rw [← hs.consolidated_imageMap hb, he.1]
    exact loads_rejected (hs.consolidated b.rebuild) hboot hz hbroken
  | inr he =>
    have hagr : Image.Agrees { old with
        image := old.program (regenerate b.scratch.header s) }.image
        (regenerate b.scratch.header s) := program_regenerate _ _ _
    have hl := loads_stale hboot hz (accepted_of_agrees hagr)
    rw [Nvram.contents_of_agrees hagr] at hl
    rw [he.1]
    exact hl

end

/-- A commit that returns 0 is restored by the next boot exactly under that condition, whatever
the banks held and whichever step of the backup commit failed. -/
theorem nvramCommit_restored_iff (rs : List Request) (flash : Flash) (inInterrupt : Bool)
    (a b : MtdAnswers) (answers : BootAnswers)
    (hret : (nvramCommit inInterrupt b a flash (serve rs)).1 = 0)
    (hb : ∀ i, b.rebuild i = true) (hbroken : b.broken.Rejected) (hboot : answers.Granted) :
    Loads answers (nvramCommit inInterrupt b a flash (serve rs)).2.1
      (fun m => _nvramGet m (serve rs)) ↔ Restorable b flash (serve rs) := by
  have hs := Nvram.serve_valid rs
  generalize serve rs = s at *
  obtain ⟨nvramMtd, nvramBackupMtd⟩ := flash
  obtain ⟨mtd, rfl, rfl⟩ := nvramCommit_zero hret
  -- unless a stale bank is loaded, the map of the image comes back
  have hfresh : Loads answers (nvramCommit false b a ⟨some mtd, nvramBackupMtd⟩ s).2.1
      s.imageMap → (∀ m, nvramBackupMtd = some m → b.Stops m → m.image.Rejected) →
      (Loads answers (nvramCommit false b a ⟨some mtd, nvramBackupMtd⟩ s).2.1
        (fun m => _nvramGet m s) ↔ Restorable b ⟨some mtd, nvramBackupMtd⟩ s) := by
    intro hl hr
    rw [hl.unique, hs.imageMap_iff]
    exact ⟨fun h => ⟨fun m hm hst hn => absurd (hr m hm hst) hn, fun _ => h⟩, fun h => h.fresh hr⟩
  cases nvramBackupMtd with
  | none =>
    rw [nvramCommit_alone] at hret hfresh ⊢
    exact hfresh (loads_alone hs hboot hret) (fun m hm => by cases hm)
  | some old =>
    by_cases hstop : b.Stops old
    · rw [nvramCommit_stops hstop] at hret hfresh ⊢
      by_cases hrej : old.image.Rejected
      · exact hfresh (loads_rejected hs hboot hret hrej) (fun m hm _ => by cases hm; exact hrej)
      · have hstale : Restorable b ⟨some mtd, some old⟩ s ↔
            old.image.Accepted ∧ ∀ m, old.image.contents m = _nvramGet m s :=
          ⟨fun h => h.stale old rfl hstop hrej,
            fun h => ⟨fun m hm _ _ => by cases hm; exact h,
              fun hr => absurd (hr old rfl hstop) hrej⟩⟩
        rw [hstale]
        by_cases hold : old.image.Accepted
        · rw [(loads_stale hboot hret hold).unique]
          exact ⟨fun h => ⟨hold, h⟩, fun h => h.2⟩
        · exact ⟨fun h => absurd h (not_loads hboot hret hrej hold _), fun h => absurd h.1 hold⟩
    · rw [nvramCommit_runs hstop] at hret hfresh ⊢
      exact hfresh (loads_runs hs hboot hstop hret hb hbroken)
        (fun m hm hst => by cases hm; exact absurd hst hstop)

/-! ## Two concrete commits -/

/-- Allocator and flash driver do all they are asked to. -/
def smooth : MtdAnswers :=
  ⟨true, Image.ofBytes [], true, fun _ => true, fun _ => 0, true, Image.ofBytes [], 0⟩

def smoothBoot : BootAnswers :=
  ⟨⟨true, true, fun _ => true⟩, ⟨true, true, fun _ => true⟩, ⟨true, true, fun _ => true⟩, smooth⟩

theorem smooth_succeeds : smooth.Succeeds :=
  ⟨rfl, rfl, fun _ => rfl, fun _ => rfl, rfl, rfl⟩

theorem smoothBoot_granted : smoothBoot.Granted :=
  ⟨⟨rfl, rfl, fun _ => rfl⟩, ⟨rfl, rfl, fun _ => rfl⟩, ⟨rfl, rfl, fun _ => rfl⟩, fun _ => rfl⟩

/-- A bank of zeros. -/
def blank : Mtd := ⟨0x10000, Image.ofBytes []⟩

theorem blank_rejected : (Image.ofBytes []).Rejected := ⟨1, rfl, by decide⟩

/-- A store with one short variable fits into an image. -/
theorem Nvram.Valid.single_fits {name value : CStr} (hs : s.Valid)
    (hget : ∀ m, _nvramGet m s = if m = name then some value else none) (hn : EQ ∉ name.val)
    (hl : name.len + value.len + 24 ≤ NVRAM_SPACE) : s.Named ∧ s.Fits := by
  constructor
  · intro m hm
    rw [hget] at hm
    by_cases he : m = name
    · exact he ▸ hn
    · simp [he] at hm
  · have hle : totalSize assignmentSize s.all ≤ totalSize assignmentSize [(name, value)] := by
      apply hs.all_size_le
      intro m v hv
      rw [hget] at hv
      by_cases he : m = name
      · rw [if_pos he] at hv
        cases hv
        simp [he]
      · simp [he] at hv
    have hsize : assignmentSize (name, value) = name.len + 1 + value.len + 1 := rfl
    rw [totalSize_cons, totalSize_nil, hsize] at hle
    rw [Nvram.Fits]
    omega

/-- Both banks are rewritten, and the store comes back. -/
theorem nvramCommit_restored_single :
    Loads smoothBoot (nvramCommit false smooth smooth ⟨some blank, some blank⟩
        (serve [.set plenty (CStr.ofString "a") (CStr.ofString "1")])).2.1
      (fun m => _nvramGet m (serve [.set plenty (CStr.ofString "a") (CStr.ofString "1")])) := by
  have hruns : ¬ smooth.Stops blank := by simp [MtdAnswers.Stops, smooth]
  refine (nvramCommit_restored_iff [.set plenty (CStr.ofString "a") (CStr.ofString "1")]
    ⟨some blank, some blank⟩ false smooth smooth smoothBoot ?_ (fun _ => rfl) blank_rejected
    smoothBoot_granted).mpr ⟨?_, fun _ => (Nvram.serve_valid _).single_fits
      (serve_single (by decide)) (by decide) (by decide)⟩
  · rw [nvramCommit_runs hruns, nvramMtdCommit_succeeds smooth_succeeds]
  · intro mtd hm hstop
    cases hm
    exact absurd hstop hruns

/-- A backup bank with an older store, `a=1`. -/
def older : Mtd := ⟨0x10000, regenerate (Image.ofBytes []).header
  (serve [.set plenty (CStr.ofString "a") (CStr.ofString "1")])⟩

/-- The buffer for the backup bank cannot be allocated: the commit of `a=2` returns 0, and the next
boot loads `a=1`. -/
theorem nvramCommit_stale :
    (nvramCommit false { smooth with buf := false } smooth ⟨some blank, some older⟩
        (serve [.set plenty (CStr.ofString "a") (CStr.ofString "2")])).1 = 0 ∧
      ¬ Loads smoothBoot (nvramCommit false { smooth with buf := false } smooth
          ⟨some blank, some older⟩
          (serve [.set plenty (CStr.ofString "a") (CStr.ofString "2")])).2.1
        (fun m => _nvramGet m (serve [.set plenty (CStr.ofString "a") (CStr.ofString "2")])) := by
  have hstop : MtdAnswers.Stops { smooth with buf := false } older := .inl rfl
  have hagr : older.image.Agrees (regenerate (Image.ofBytes []).header
      (serve [.set plenty (CStr.ofString "a") (CStr.ofString "1")])) := .refl _
  have hz : (nvramMtdCommit smooth blank
      (serve [.set plenty (CStr.ofString "a") (CStr.ofString "2")])).1 = 0 := by
    rw [nvramMtdCommit_succeeds smooth_succeeds]
  rw [nvramCommit_stops hstop]
  dsimp only
  refine ⟨hz, ?_⟩
  rw [(loads_stale smoothBoot_granted hz (accepted_of_agrees hagr)).unique,
    Nvram.contents_of_agrees hagr]
  intro hm
  have hs := Nvram.serve_valid [.set plenty (CStr.ofString "a") (CStr.ofString "1")]
  have hone := hs.imageMap_iff.mpr
    (hs.single_fits (serve_single (by decide)) (by decide) (by decide)) (CStr.ofString "a")
  have htwo := hm (CStr.ofString "a")
  rw [hone, serve_single (by decide), serve_single (by decide)] at htwo
  exact absurd htwo (by decide)

end EzpFirmware.KernelNvram
