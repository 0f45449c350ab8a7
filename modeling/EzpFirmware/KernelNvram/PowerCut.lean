import EzpFirmware.Lib.Mirror
import EzpFirmware.KernelNvram.CommitBoot

/-! # Power cuts

A run sets variables, commits and boots, and the power may fail inside any
commit, that of a boot included. Every step of the run is a step of two mirrored
copies, whose values are the maps of the banks; from there it follows when no
boot brings an older configuration back.
-/
namespace EzpFirmware.KernelNvram
open Lib

/-- The bank after the power failed at some point of its commit. -/
def nvramMtdCommitCut (answers : MtdAnswers) (p : Progress) (mtd : Mtd) (s : Nvram) : Mtd :=
  match p with
  | .untouched => mtd
  | .broken => { mtd with image := answers.broken }
  | .rewritten => (nvramMtdCommit answers mtd s).2.1

/-- The banks after the power failed at some point of `nvram_commit`. -/
def nvramCommitCut (backup primary : MtdAnswers) (c : Cut) (flash : Flash) (s : Nvram) : Flash :=
  match c with
  | .backup p =>
    { flash with nvramBackupMtd :=
      flash.nvramBackupMtd.map fun mtd => nvramMtdCommitCut backup p mtd s }
  | .primary p =>
    let b := commitBackup backup flash s
    ⟨flash.nvramMtd.map fun mtd => nvramMtdCommitCut primary p mtd b.2, b.1⟩

/-- The banks after the power failed while a boot rewrote a bad one. -/
def recoverBankCut (answers : MtdAnswers) (p : Progress) (r : Recover) (flash : Flash)
    (s : Nvram) : Flash :=
  match r with
  | .nothing => flash
  | .primary =>
    { flash with nvramMtd := flash.nvramMtd.map fun mtd => nvramMtdCommitCut answers p mtd s }
  | .backup =>
    { flash with nvramBackupMtd :=
      flash.nvramBackupMtd.map fun mtd => nvramMtdCommitCut answers p mtd s }

/-- The device: its banks, its table while the power is on, and for reference the map of the last
boot or whole commit and the map the commit was writing when the power failed. -/
structure Device where
  flash : Flash
  live : Option Nvram
  saved : CStr → Option CStr
  writing : CStr → Option CStr

inductive Step where
  | set (kmalloc : SetAnswers) (name value : CStr)
  | unset (name : CStr)
  | commit (backup primary : MtdAnswers)
  | cut (backup primary : MtdAnswers) (c : Cut)
  | off
  | boot (answers : BootAnswers) (c : Option Progress)

/-- The map of a table. -/
def Nvram.map (s : Nvram) : CStr → Option CStr := fun m => _nvramGet m s

def Step.apply (d : Device) : Step → Option Device
  | .set kmalloc name value =>
    some { d with live := d.live.map fun s => (nvramSet kmalloc name value s).2 }
  | .unset name => some { d with live := d.live.map fun s => (nvramUnset name s).2 }
  | .commit backup primary =>
    match d.live with
    | none => some d
    | some s =>
      let c := nvramCommit false backup primary d.flash s
      some ⟨c.2.1, some c.2.2, c.2.2.map, c.2.2.map⟩
  | .cut backup primary c =>
    match d.live with
    | none => some d
    | some s => some ⟨nvramCommitCut backup primary c d.flash s, none, d.saved, s.imageMap⟩
  | .off =>
    some { d with live := none, writing := if d.live.isSome then d.saved else d.writing }
  | .boot answers c =>
    match d.live with
    | some _ => some d
    | none =>
      (initTable answers d.flash Nvram.initial).map fun (r, s) =>
        match c with
        | none =>
          let f := recoverBank answers.recover r d.flash s
          ⟨f.1, some f.2, s.map, s.map⟩
        | some p => ⟨recoverBankCut answers.recover p r d.flash s, none, s.map, s.map⟩

/-- Steps one after the other; no value when a boot runs out of an image. -/
def run : List Step → Device → Option Device
  | [], d => some d
  | st :: steps, d => (st.apply d).bind (run steps)

/-- Nothing but the power fails: no request is refused, every flash operation succeeds, and what a
cut leaves of a bank is rejected by validation. -/
def Step.Allowed : Step → Prop
  | .commit backup primary => backup.Succeeds ∧ primary.Succeeds
  | .cut backup primary _ => backup.Succeeds ∧ primary.Succeeds ∧ backup.broken.Rejected ∧
      primary.broken.Rejected
  | .boot answers _ => answers.Granted ∧ answers.recover.Succeeds ∧
      answers.recover.broken.Rejected
  | _ => True

/-! ## The banks as two copies -/

instance (image : Image) : Decidable image.Accepted := inferInstanceAs (Decidable (_ = _))

/-- The map of a bank that validation accepts. -/
def Mtd.value (mtd : Mtd) : Option (CStr → Option CStr) :=
  if mtd.image.Accepted then some mtd.image.contents else none

def Flash.mirror (flash : Flash) : Mirror (CStr → Option CStr) :=
  ⟨flash.nvramMtd.bind Mtd.value, flash.nvramBackupMtd.bind Mtd.value⟩

def Device.node (d : Device) : Node (CStr → Option CStr) :=
  ⟨d.flash.mirror, d.live.map Nvram.map, d.saved, d.writing⟩

/-- A bank is rejected, or its texts leave room for the final double NUL. -/
def Mtd.Sound (mtd : Mtd) : Prop := mtd.image.Rejected ∨
  (mtd.image.Accepted ∧ totalSize assignmentSize mtd.image.assigned ≤ NVRAM_SPACE - 22)

/-- What every step keeps. -/
structure Device.Sound (d : Device) : Prop where
  banks : ∃ p q : Mtd, d.flash = ⟨some p, some q⟩ ∧ p.Sound ∧ q.Sound
  live : ∀ s, d.live = some s → s.Valid

/-- The action on the two copies that a step stands for. -/
def Step.act (d : Device) : Step → Act (CStr → Option CStr)
  | .set kmalloc name value =>
    .change ((d.live.map fun s => (nvramSet kmalloc name value s).2.map).getD fun _ => none)
  | .unset name => .change ((d.live.map fun s => (nvramUnset name s).2.map).getD fun _ => none)
  | .commit _ _ => .commit ((d.live.map Nvram.imageMap).getD fun _ => none)
  | .cut _ _ c => .cut ((d.live.map Nvram.imageMap).getD fun _ => none) c
  | .off => .off
  | .boot _ c => .boot c

section
variable {mtd p q : Mtd} {s t : Nvram} {a b : MtdAnswers} {M : CStr → Option CStr}

theorem Image.Rejected.not_accepted {image : Image} (h : image.Rejected) : ¬ image.Accepted := by
  obtain ⟨ret, hv, hne⟩ := h
  intro ha
  have he := hv.symm.trans ha
  cases he
  exact hne rfl

theorem Mtd.value_accepted (h : mtd.image.Accepted) : mtd.value = some mtd.image.contents :=
  if_pos h

theorem Mtd.value_rejected (h : mtd.image.Rejected) : mtd.value = none :=
  if_neg h.not_accepted

theorem Mtd.Sound.accepted (h : mtd.Sound) (hv : mtd.value = some M) :
    mtd.image.Accepted ∧ mtd.image.contents = M ∧
      totalSize assignmentSize mtd.image.assigned ≤ NVRAM_SPACE - 22 := by
  cases h with
  | inl hr =>
    rw [Mtd.value_rejected hr] at hv
    cases hv
  | inr ha =>
    rw [Mtd.value_accepted ha.1] at hv
    exact ⟨ha.1, Option.some.inj hv, ha.2⟩

theorem Mtd.Sound.rejected (h : mtd.Sound) (hv : mtd.value = none) : mtd.image.Rejected := by
  cases h with
  | inl hr => exact hr
  | inr ha =>
    rw [Mtd.value_accepted ha.1] at hv
    cases hv

/-- A bank that carries an image of a store. -/
theorem Mtd.of_agrees {header : NvramHeader} (h : mtd.image.Agrees (regenerate header s)) :
    mtd.Sound ∧ mtd.value = some s.imageMap := by
  have ha := accepted_of_agrees h
  refine ⟨.inr ⟨ha, ?_⟩, ?_⟩
  · rw [assigned_of_agrees h]
    exact Nvram.written_reread_size s
  · rw [Mtd.value_accepted ha, Nvram.contents_of_agrees h]

theorem nvramMtdCommit_value (ha : a.Succeeds) : (nvramMtdCommit a p s).2.1.Sound ∧
    (nvramMtdCommit a p s).2.1.value = some s.imageMap := by
  rw [nvramMtdCommit_succeeds ha]
  exact Mtd.of_agrees (program_regenerate p a.scratch.header s)

theorem nvramMtdCommitCut_value (hm : mtd.Sound) (ha : a.Succeeds) (hr : a.broken.Rejected)
    (c : Progress) : (nvramMtdCommitCut a c mtd s).Sound ∧
      (nvramMtdCommitCut a c mtd s).value = c.result mtd.value s.imageMap := by
  cases c with
  | untouched => exact ⟨hm, rfl⟩
  | broken =>
    have hbroken : Image.Rejected { mtd with image := a.broken }.image := hr
    exact ⟨.inl hbroken, Mtd.value_rejected hbroken⟩
  | rewritten => exact nvramMtdCommit_value ha

/-- A table loaded from a sound bank fits into an image. -/
theorem fits_of_sound (ht : t.Valid) {image : Image} (hm : ∀ m, _nvramGet m t = image.contents m)
    (hl : totalSize assignmentSize image.assigned ≤ NVRAM_SPACE - 22) : t.Named ∧ t.Fits := by
  have hmem : ∀ m v, _nvramGet m t = some v → (m, v) ∈ image.assigned := by
    intro m v hv
    rw [hm] at hv
    cases overwrite_mem hv with
    | inl hn => cases hn
    | inr h => exact h
  constructor
  · intro m hs
    obtain ⟨v, hv⟩ := Option.isSome_iff_exists.mp hs
    exact parsed_name (hmem m v hv)
  · exact (ht.all_size_le hmem).trans hl

/-- What a boot does to banks and table, as a boot of the two copies. -/
theorem initTable_mirror {answers : BootAnswers} (ha : answers.Granted) (hp : p.Sound)
    (hq : q.Sound) (hl : (Flash.mirror ⟨some p, some q⟩).load = some M) :
    ∃ r t, initTable answers ⟨some p, some q⟩ Nvram.initial = some (r, t) ∧ t.Valid ∧
      t.map = M ∧ t.imageMap = M ∧
      (r = .nothing ∧ p.value.isSome ∧ q.value = some M ∨
        r = .backup ∧ p.value = some M ∧ q.value = none ∨
        r = .primary ∧ p.value = none ∧ q.value = some M) := by
  have hload : q.value.or p.value = some M := hl
  -- the map of the table fits into an image, whichever bank it came from
  have hmap {mtd : Mtd} {t : Nvram} (hm : mtd.Sound) (hv : mtd.value = some M) (ht : t.Valid)
      (hg : ∀ m, _nvramGet m t = mtd.image.contents m) : t.map = M ∧ t.imageMap = M := by
    obtain ⟨-, hc, hsize⟩ := hm.accepted hv
    have hmap : t.map = M := by
      rw [← hc]
      funext m
      exact hg m
    refine ⟨hmap, ?_⟩
    rw [← hmap]
    funext m
    exact ht.imageMap_iff.mpr (fits_of_sound ht hg hsize) m
  cases hqv : q.value with
  | none =>
    rw [hqv, Option.none_or] at hload
    obtain ⟨t, hi, ht, hg⟩ := initTable_primary ha (hp.accepted hload).1 (hq.rejected hqv)
      Nvram.initial_valid
    obtain ⟨h1, h2⟩ := hmap hp hload ht hg
    exact ⟨.backup, t, hi, ht, h1, h2, .inr (.inl ⟨rfl, hload, rfl⟩)⟩
  | some N =>
    rw [hqv, Option.some_or] at hload
    cases hload
    cases hpv : p.value with
    | none =>
      obtain ⟨t, hi, ht, hg⟩ := initTable_backup ha (hp.rejected hpv) (hq.accepted hqv).1
        Nvram.initial_valid
      obtain ⟨h1, h2⟩ := hmap hq hqv ht hg
      exact ⟨.primary, t, hi, ht, h1, h2, .inr (.inr ⟨rfl, rfl, rfl⟩)⟩
    | some N' =>
      obtain ⟨t, hi, ht, hg⟩ := initTable_both ha (hp.accepted hpv).1 (hq.accepted hqv).1
        Nvram.initial_valid
      obtain ⟨h1, h2⟩ := hmap hq hqv ht hg
      exact ⟨.nothing, t, hi, ht, h1, h2, .inl ⟨rfl, rfl, rfl⟩⟩

theorem MtdAnswers.Succeeds.not_stops (h : a.Succeeds) (mtd : Mtd) : ¬ a.Stops mtd := by
  rw [MtdAnswers.Stops, h.buf, h.read]
  simp

/-- A whole commit. -/
theorem nvramCommit_mirror (hs : s.Valid) (hb : b.Succeeds) (ha : a.Succeeds) (p q : Mtd) :
    ∃ p' q' t, nvramCommit false b a ⟨some p, some q⟩ s = (0, ⟨some p', some q'⟩, t) ∧
      p'.Sound ∧ q'.Sound ∧ t.Valid ∧ p'.value = some s.imageMap ∧
      q'.value = some s.imageMap ∧ t.map = s.imageMap := by
  have hc := hs.consolidated b.rebuild
  have hp := nvramMtdCommit_value (p := p) (s := s.consolidated b.rebuild) ha
  have hq := nvramMtdCommit_value (p := q) (s := s) hb
  have hmap : ((s.consolidated b.rebuild).consolidated a.rebuild).map = s.imageMap := by
    rw [← hs.consolidated_imageMap hb.rebuild]
    funext m
    exact hc.consolidated_map ha.rebuild m
  rw [hs.consolidated_imageMap hb.rebuild] at hp
  refine ⟨_, _, _, ?_, hp.1, hq.1, hc.consolidated a.rebuild, hp.2, hq.2, hmap⟩
  rw [nvramCommit_runs (hb.not_stops q), nvramMtdCommit_succeeds ha]

/-- A commit with a power cut. -/
theorem nvramCommitCut_mirror (hs : s.Valid) (hb : b.Succeeds) (ha : a.Succeeds)
    (hbr : b.broken.Rejected) (har : a.broken.Rejected) (hp : p.Sound) (hq : q.Sound) (c : Cut) :
    ∃ p' q', nvramCommitCut b a c ⟨some p, some q⟩ s = ⟨some p', some q'⟩ ∧ p'.Sound ∧
      q'.Sound ∧ Flash.mirror ⟨some p', some q'⟩ =
        (Flash.mirror ⟨some p, some q⟩).cut s.imageMap c := by
  cases c with
  | backup g =>
    have hcut := nvramMtdCommitCut_value (s := s) hq hb hbr g
    refine ⟨p, nvramMtdCommitCut b g q s, rfl, hp, hcut.1, ?_⟩
    exact congrArg (Mirror.mk p.value) hcut.2
  | primary g =>
    have hstore : (nvramMtdCommit b q s).2.2 = s.consolidated b.rebuild :=
      (nvramMtdCommit_runs (hb.not_stops q)).1
    have hcut := nvramMtdCommitCut_value (s := s.consolidated b.rebuild) hp ha har g
    have hbank := nvramMtdCommit_value (p := q) (s := s) hb
    rw [hs.consolidated_imageMap hb.rebuild] at hcut
    refine ⟨nvramMtdCommitCut a g p (s.consolidated b.rebuild), (nvramMtdCommit b q s).2.1, ?_,
      hcut.1, hbank.1, ?_⟩
    · rw [← hstore]
      rfl
    · exact congrArg₂ Mirror.mk hcut.2 hbank.2

/-- The banks after a boot, its repair cut or not. -/
theorem recoverBankCut_mirror (ht : t.imageMap = M) (ha : a.Succeeds) (har : a.broken.Rejected)
    (hp : p.Sound) (hq : q.Sound) (g : Progress) {r : Recover}
    (hr : r = .nothing ∧ p.value.isSome ∧ q.value = some M ∨
      r = .backup ∧ p.value = some M ∧ q.value = none ∨
      r = .primary ∧ p.value = none ∧ q.value = some M) :
    ∃ p' q', recoverBankCut a g r ⟨some p, some q⟩ t = ⟨some p', some q'⟩ ∧ p'.Sound ∧
      q'.Sound ∧ Flash.mirror ⟨some p', some q'⟩ =
        (Flash.mirror ⟨some p, some q⟩).repair g := by
  have hmirror : Flash.mirror ⟨some p, some q⟩ = ⟨p.value, q.value⟩ := rfl
  rcases hr with ⟨rfl, hpv, hqv⟩ | ⟨rfl, hpv, hqv⟩ | ⟨rfl, hpv, hqv⟩
  · obtain ⟨N, hN⟩ := Option.isSome_iff_exists.mp hpv
    refine ⟨p, q, rfl, hp, hq, ?_⟩
    rw [hmirror, hN, hqv]
    rfl
  · have hcut := nvramMtdCommitCut_value (s := t) hq ha har g
    rw [ht, hqv] at hcut
    refine ⟨p, nvramMtdCommitCut a g q t, rfl, hp, hcut.1, ?_⟩
    rw [hmirror, hpv, hqv]
    exact congrArg₂ Mirror.mk hpv hcut.2
  · have hcut := nvramMtdCommitCut_value (s := t) hp ha har g
    rw [ht, hpv] at hcut
    refine ⟨nvramMtdCommitCut a g p t, q, rfl, hcut.1, hq, ?_⟩
    rw [hmirror, hpv, hqv]
    exact congrArg₂ Mirror.mk hcut.2 hqv

/-- A boot that is not cut writes the same banks as one that is cut after its last write. -/
theorem recoverBank_flash (a : MtdAnswers) (r : Recover) (p q : Mtd) (t : Nvram) :
    (recoverBank a r ⟨some p, some q⟩ t).1 =
      recoverBankCut a .rewritten r ⟨some p, some q⟩ t := by
  cases r <;> rfl

theorem recoverBank_valid (ht : t.Valid) (a : MtdAnswers) (r : Recover) (flash : Flash) :
    (recoverBank a r flash t).2.Valid := by
  have hc (mtd : Mtd) : (nvramMtdCommit a mtd t).2.2.Valid := by
    by_cases hstop : a.Stops mtd
    · rw [(nvramMtdCommit_stops hstop).2]
      exact ht
    · rw [(nvramMtdCommit_runs hstop).1]
      exact ht.consolidated _
  unfold recoverBank
  split
  · exact hc _
  · exact hc _
  · exact ht

end

/-! ## The simulation -/

/-- Every step of the device is a step of the two copies. -/
theorem Step.simulates {d : Device} {st : Step} (hd : d.Sound) (ha : st.Allowed)
    (hc : d.node.Consistent) :
    ∃ d', st.apply d = some d' ∧ d'.Sound ∧ d'.node = d.node.step (st.act d) := by
  obtain ⟨⟨p, q, hflash, hp, hq⟩, hlive⟩ := hd
  obtain ⟨flash, live, saved, writing⟩ := d
  cases hflash
  cases st with
  | set kmalloc name value =>
    refine ⟨_, rfl, ⟨⟨p, q, rfl, hp, hq⟩, ?_⟩, ?_⟩
    · rintro t ht
      obtain ⟨s, hs, rfl⟩ := Option.map_eq_some_iff.mp ht
      exact (hlive s hs).nvramSet kmalloc name value
    · cases live <;> rfl
  | unset name =>
    refine ⟨_, rfl, ⟨⟨p, q, rfl, hp, hq⟩, ?_⟩, ?_⟩
    · rintro t ht
      obtain ⟨s, hs, rfl⟩ := Option.map_eq_some_iff.mp ht
      exact ((hlive s hs).unset name).1
    · cases live <;> rfl
  | commit backup primary =>
    cases live with
    | none => exact ⟨_, rfl, ⟨⟨p, q, rfl, hp, hq⟩, hlive⟩, rfl⟩
    | some s =>
      obtain ⟨p', q', t, hcommit, hp', hq', ht, hpv, hqv, hmap⟩ :=
        nvramCommit_mirror (hlive s rfl) ha.1 ha.2 p q
      refine ⟨⟨⟨some p', some q'⟩, some t, t.map, t.map⟩, ?_, ⟨⟨p', q', rfl, hp', hq'⟩, ?_⟩, ?_⟩
      · rw [Step.apply]
        simp only [hcommit]
      · rintro u hu
        cases hu
        exact ht
      · change Node.mk ⟨p'.value, q'.value⟩ (some t.map) t.map t.map = _
        rw [hpv, hqv, hmap]
        rfl
  | cut backup primary c =>
    cases live with
    | none => exact ⟨_, rfl, ⟨⟨p, q, rfl, hp, hq⟩, hlive⟩, rfl⟩
    | some s =>
      obtain ⟨hb, hpr, hbr, har⟩ := ha
      obtain ⟨p', q', hcut, hp', hq', hmirror⟩ :=
        nvramCommitCut_mirror (hlive s rfl) hb hpr hbr har hp hq c
      refine ⟨⟨⟨some p', some q'⟩, none, saved, s.imageMap⟩, ?_, ⟨⟨p', q', rfl, hp', hq'⟩, ?_⟩, ?_⟩
      · rw [Step.apply]
        simp only [hcut]
      · rintro u hu
        cases hu
      · change Node.mk (Flash.mirror ⟨some p', some q'⟩) none saved s.imageMap = _
        rw [hmirror]
        rfl
  | off =>
    refine ⟨_, rfl, ⟨⟨p, q, rfl, hp, hq⟩, ?_⟩, ?_⟩
    · rintro u hu
      cases hu
    · cases live <;> rfl
  | boot answers c =>
    cases live with
    | some s => exact ⟨_, rfl, ⟨⟨p, q, rfl, hp, hq⟩, hlive⟩, rfl⟩
    | none =>
      obtain ⟨M, hM⟩ : ∃ M, (Flash.mirror ⟨some p, some q⟩).load = some M := by
        cases hc.off rfl with
        | inl h => exact ⟨_, h⟩
        | inr h => exact ⟨_, h⟩
      obtain ⟨hgr, hok, hbroken⟩ := ha
      obtain ⟨r, t, hi, ht, hmap, himage, hr⟩ := initTable_mirror hgr hp hq hM
      obtain ⟨p', q', hflash, hp', hq', hmirror⟩ :=
        recoverBankCut_mirror himage hok hbroken hp hq (c.getD .rewritten) hr
      have hstep : Node.step ⟨Flash.mirror ⟨some p, some q⟩, none, saved, writing⟩ (.boot c) =
          ⟨(Flash.mirror ⟨some p, some q⟩).repair (c.getD .rewritten),
            if c.isSome then none else some M, M, M⟩ := by
        simp [Node.step, hM]
      cases c with
      | none =>
        have hget : (recoverBank answers.recover r ⟨some p, some q⟩ t).2.map = M := by
          have hfit := ht.imageMap_iff.mp fun m => (congrFun himage m).trans (congrFun hmap m).symm
          rw [← hmap]
          funext m
          exact recoverBank_get ht hgr.recover hfit.1 hfit.2 r _ m
        refine ⟨⟨⟨some p', some q'⟩, some (recoverBank answers.recover r ⟨some p, some q⟩ t).2, M, M⟩,
          ?_, ⟨⟨p', q', rfl, hp', hq'⟩, ?_⟩, ?_⟩
        · rw [Step.apply]
          simp only [hi, Option.map_some, recoverBank_flash, hmap]
          exact congrArg some (congrArg (fun f => Device.mk f _ M M) hflash)
        · rintro u hu
          cases hu
          exact recoverBank_valid ht _ _ _
        · refine Eq.trans ?_ hstep.symm
          rw [← hmirror]
          exact congrArg (fun N => Node.mk _ (some N) M M) hget
      | some g =>
        refine ⟨⟨⟨some p', some q'⟩, none, M, M⟩, ?_, ⟨⟨p', q', rfl, hp', hq'⟩, ?_⟩, ?_⟩
        · rw [Step.apply]
          simp only [hi, Option.map_some, hmap]
          exact congrArg some (congrArg (fun f => Device.mk f none M M) hflash)
        · rintro u hu
          cases hu
        · refine Eq.trans ?_ hstep.symm
          rw [← hmirror]
          rfl

end EzpFirmware.KernelNvram
