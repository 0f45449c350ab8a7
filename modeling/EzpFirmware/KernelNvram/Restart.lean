import EzpFirmware.KernelNvram.PowerCut

/-! # What a boot brings back

A run starts with the same image in both banks. As long as no power cut breaks
the backup bank while the primary one is behind it, every boot loads the store
of the last boot or whole commit or the one that was being written. A cut
between the two banks followed by a cut inside the backup bank breaks this.
-/
namespace EzpFirmware.KernelNvram
open Lib

/-- The power may fail while the backup bank is rewritten only if the primary bank has the same
map as the backup bank, or already the one that is being written. -/
def Device.Safe (d : Device) : Step → Prop
  | .cut _ _ (.backup .broken) => ∀ s, d.live = some s →
      d.flash.mirror.primary = d.flash.mirror.backup ∨ d.flash.mirror.primary = some s.imageMap
  | _ => True

/-- Every step of the run is allowed, and safe where it is made. -/
def SafeRun : List Step → Device → Prop
  | [], _ => True
  | st :: steps, d => st.Allowed ∧ d.Safe st ∧ ∀ d', st.apply d = some d' → SafeRun steps d'

/-- Two banks with the same image, and the power off. -/
def Device.start (e₁ e₂ : ℕ) (image : Image) : Device where
  flash := ⟨some ⟨e₁, image⟩, some ⟨e₂, image⟩⟩
  live := none
  saved := image.contents
  writing := image.contents

theorem Device.Safe.act {d : Device} {st : Step} (h : d.Safe st) (hl : d.live.isSome) :
    d.node.Safe (st.act d) := by
  obtain ⟨s, hs⟩ := Option.isSome_iff_exists.mp hl
  cases st with
  | cut backup primary c =>
    cases c with
    | primary p => trivial
    | backup p =>
      cases p with
      | untouched => trivial
      | rewritten => trivial
      | broken =>
        have hsafe := h s hs
        simpa [Step.act, Node.Safe, Device.node, hs] using hsafe
  | _ => trivial

/-- While the power is off, a commit and its cuts do nothing. -/
theorem Device.node_consistent {d : Device} {st : Step} (h : d.Safe st)
    (hc : d.node.Consistent) : (d.node.step (st.act d)).Consistent := by
  cases hl : d.live with
  | some s => exact hc.step (h.act (by rw [hl]; rfl))
  | none =>
    cases st with
    | cut backup primary c =>
      have hsame : d.node.step (Step.act d (.cut backup primary c)) = d.node := by
        simp [Step.act, Node.step, Device.node, hl]
      rw [hsame]
      exact hc
    | _ => exact hc.step trivial

/-- One step keeps the banks sound and in order. -/
theorem Device.step {d : Device} {s : Step} (hd : d.Sound) (hc : d.node.Consistent)
    (ha : s.Allowed) (hs : d.Safe s) :
    ∃ d', s.apply d = some d' ∧ d'.Sound ∧ d'.node.Consistent ∧
      d'.node = d.node.step (s.act d) := by
  obtain ⟨d', happly, hsound, hnode⟩ := Step.simulates hd ha hc
  exact ⟨d', happly, hsound, hnode ▸ Device.node_consistent hs hc, hnode⟩

/-- So does a whole run. -/
theorem Device.run {steps : List Step} {d : Device} (hd : d.Sound) (hc : d.node.Consistent)
    (hs : SafeRun steps d) : ∃ d', run steps d = some d' ∧ d'.Sound ∧ d'.node.Consistent := by
  induction steps generalizing d with
  | nil => exact ⟨d, rfl, hd, hc⟩
  | cons st steps ih =>
    obtain ⟨ha, hsafe, hrest⟩ := hs
    obtain ⟨d', happly, hd', hc', -⟩ := Device.step hd hc ha hsafe
    obtain ⟨d'', hrun, h⟩ := ih hd' hc' (hrest d' happly)
    refine ⟨d'', ?_, h⟩
    rw [KernelNvram.run, happly]
    exact hrun

theorem Device.start_node {e₁ e₂ : ℕ} {image : Image} (hv : image.Accepted) :
    (Device.start e₁ e₂ image).node =
      ⟨⟨some image.contents, some image.contents⟩, none, image.contents, image.contents⟩ := by
  change Node.mk ⟨Mtd.value ⟨e₁, image⟩, Mtd.value ⟨e₂, image⟩⟩ none _ _ = _
  rw [Mtd.value_accepted hv, Mtd.value_accepted hv]
  rfl

theorem Device.start_sound (e₁ e₂ : ℕ) {image : Image} (hv : image.Accepted)
    (hl : totalSize assignmentSize image.assigned ≤ NVRAM_SPACE - 22) :
    (Device.start e₁ e₂ image).Sound ∧ (Device.start e₁ e₂ image).node.Consistent := by
  have hbank (e : ℕ) : Mtd.Sound ⟨e, image⟩ := .inr ⟨hv, hl⟩
  refine ⟨⟨⟨_, _, rfl, hbank e₁, hbank e₂⟩, nofun⟩, ?_⟩
  rw [Device.start_node hv]
  exact ⟨nofun, fun _ => .inl rfl⟩

/-- What the mirrored copies say a boot loads is what it loads. -/
theorem Device.Sound.loads {d : Device} (hd : d.Sound) {M : CStr → Option CStr}
    (hl : d.node.banks.load = some M) {answers : BootAnswers} (ha : answers.Granted) :
    Loads answers d.flash M := by
  obtain ⟨⟨p, q, hflash, hp, hq⟩, -⟩ := hd
  rw [Device.node, hflash] at hl
  obtain ⟨r, t, hi, ht, hmap, himage, -⟩ := initTable_mirror ha hp hq hl
  have hfit := ht.imageMap_iff.mp fun m => (congrFun himage m).trans (congrFun hmap m).symm
  rw [hflash]
  refine ⟨(recoverBank answers.recover r ⟨some p, some q⟩ t).1,
    (recoverBank answers.recover r ⟨some p, some q⟩ t).2, ?_, fun m => ?_⟩
  · rw [devNvramInit, hi]
    rfl
  · rw [recoverBank_get ht ha.recover hfit.1 hfit.2, ← hmap]
    rfl

/-- In every run whose cuts are safe, every boot loads the store of the last boot or whole commit,
or the store that the interrupted commit was writing. -/
theorem run_loads (e₁ e₂ : ℕ) (image : Image) (hv : image.Accepted)
    (hl : totalSize assignmentSize image.assigned ≤ NVRAM_SPACE - 22) (steps : List Step)
    (hs : SafeRun steps (Device.start e₁ e₂ image)) :
    ∃ d, run steps (Device.start e₁ e₂ image) = some d ∧
      (d.live = none → ∀ answers : BootAnswers, answers.Granted →
        Loads answers d.flash d.saved ∨ Loads answers d.flash d.writing) := by
  obtain ⟨hsound, hcons⟩ := Device.start_sound _ _ hv hl
  obtain ⟨d, hrun, hd, hc⟩ := Device.run hsound hcons hs
  refine ⟨d, hrun, fun hoff answers ha => ?_⟩
  have hnode : d.node.live = none := by rw [Device.node, hoff, Option.map_none]
  cases hc.off hnode with
  | inl h => exact .inl (hd.loads h ha)
  | inr h => exact .inr (hd.loads h ha)

/-! ## Two runs -/

/-- A run with a cut inside the primary bank. -/
theorem run_loads_older :
    ∃ d, run [.boot smoothBoot none, .set plenty (CStr.ofString "a") (CStr.ofString "2"),
        .cut smooth smooth (.primary .broken)] (Device.start 0x10000 0x10000 older.image) = some d ∧
      (d.live = none → ∀ answers : BootAnswers, answers.Granted →
        Loads answers d.flash d.saved ∨ Loads answers d.flash d.writing) :=
  run_loads 0x10000 0x10000 older.image (accepted_of_agrees (.refl _))
    (by
      have h := Nvram.written_reread_size
        (serve [.set plenty (CStr.ofString "a") (CStr.ofString "1")])
      rwa [← assigned_of_agrees (.refl older.image)] at h) _
    ⟨⟨smoothBoot_granted, smooth_succeeds, blank_rejected⟩, trivial, fun _ _ =>
      ⟨trivial, trivial, fun _ _ => ⟨⟨smooth_succeeds, smooth_succeeds, blank_rejected,
        blank_rejected⟩, trivial, fun _ _ => trivial⟩⟩⟩

/-- The map with the single variable `a`. -/
def one (value : CStr) : CStr → Option CStr :=
  fun m => if m = CStr.ofString "a" then some value else none

private theorem one_fits {s : Nvram} (hs : s.Valid) {value : CStr} (hm : s.map = one value)
    (hl : value.len ≤ 1) : s.imageMap = one value ∧ totalSize valueSize s.all ≤ 5 := by
  have hget : ∀ m, _nvramGet m s = one value m := congrFun hm
  have hlen : (CStr.ofString "a").len = 1 := rfl
  have hfit := hs.single_fits hget (by decide) (by rw [hlen, NVRAM_SPACE]; omega)
  refine ⟨?_, ?_⟩
  · rw [← hm]
    funext m
    exact hs.imageMap_iff.mpr hfit m
  · have hle : totalSize assignmentSize s.all ≤
        totalSize assignmentSize [(CStr.ofString "a", value)] := by
      apply hs.all_size_le
      intro m v hv
      rw [hget, one] at hv
      by_cases he : m = CStr.ofString "a"
      · rw [if_pos he] at hv
        cases hv
        simp [he]
      · simp [he] at hv
    have hsize : assignmentSize (CStr.ofString "a", value) = 1 + 1 + value.len + 1 := rfl
    rw [totalSize_cons, totalSize_nil, hsize] at hle
    exact (totalSize_value_le _).trans (by omega)

private theorem older_contents : older.image.contents = one (CStr.ofString "1") := by
  have hs := Nvram.serve_valid [.set plenty (CStr.ofString "a") (CStr.ofString "1")]
  rw [Nvram.contents_of_agrees (.refl older.image)]
  refine (one_fits hs ?_ (by decide)).1
  funext m
  exact serve_single (by decide) m

/-- From the map of the live table in the mirrored copies to the table. -/
private theorem live_of_node {d : Device} (hd : d.Sound) {M : CStr → Option CStr}
    (h : d.node.live = some M) : ∃ s, d.live = some s ∧ s.Valid ∧ s.map = M := by
  obtain ⟨s, hs, hm⟩ := Option.map_eq_some_iff.mp h
  exact ⟨s, hs, hd.live s hs, hm⟩

/-- Two cuts in a row: after the backup bank was written with `a=2` and before the primary one, and
then, at the next commit, inside the backup bank. The boot loads `a=1`, which is neither the store
that was live before the second commit nor what that commit was writing. -/
theorem run_brings_back :
    ∃ d₁ d₂ s, run [.boot smoothBoot none, .set plenty (CStr.ofString "a") (CStr.ofString "2"),
        .cut smooth smooth (.primary .untouched), .boot smoothBoot none]
        (Device.start 0x10000 0x10000 older.image) = some d₁ ∧ d₁.live = some s ∧
      Step.apply d₁ (.cut smooth smooth (.backup .broken)) = some d₂ ∧
      Loads smoothBoot d₂.flash (one (CStr.ofString "1")) ∧ ¬ Loads smoothBoot d₂.flash s.map ∧
      ¬ Loads smoothBoot d₂.flash d₂.saved ∧ ¬ Loads smoothBoot d₂.flash d₂.writing := by
  have hboot : Step.Allowed (.boot smoothBoot none) :=
    ⟨smoothBoot_granted, smooth_succeeds, blank_rejected⟩
  have hcut (c : Cut) : Step.Allowed (.cut smooth smooth c) :=
    ⟨smooth_succeeds, smooth_succeeds, blank_rejected, blank_rejected⟩
  have hvalid : older.image.Accepted := accepted_of_agrees (.refl _)
  have hsize := Nvram.written_reread_size
    (serve [.set plenty (CStr.ofString "a") (CStr.ofString "1")])
  rw [← assigned_of_agrees (.refl older.image)] at hsize
  obtain ⟨hd0, hc0⟩ := Device.start_sound 0x10000 0x10000 hvalid hsize
  have hn0 : (Device.start 0x10000 0x10000 older.image).node =
      ⟨⟨some (one (CStr.ofString "1")), some (one (CStr.ofString "1"))⟩, none,
        one (CStr.ofString "1"), one (CStr.ofString "1")⟩ := by
    rw [Device.start_node hvalid, older_contents]
  obtain ⟨d1, ha1, hd1, hc1, hn1⟩ := Device.step hd0 hc0 hboot trivial
  rw [hn0] at hn1
  obtain ⟨s1, hl1, hv1, hm1⟩ := live_of_node (M := one (CStr.ofString "1")) hd1 (by rw [hn1]; rfl)
  obtain ⟨d2, ha2, hd2, hc2, hn2⟩ := Device.step hd1 hc1
    (s := .set plenty (CStr.ofString "a") (CStr.ofString "2")) trivial trivial
  have hset : (nvramSet plenty (CStr.ofString "a") (CStr.ofString "2") s1).2.map =
      one (CStr.ofString "2") := by
    have hget : ∀ m, _nvramGet m s1 = one (CStr.ofString "1") m := congrFun hm1
    have hfit := hv1.single_fits hget (by decide) (by decide)
    have hroom := (one_fits hv1 hm1 (by decide)).2
    have hlen : (CStr.ofString "2").len = 1 := rfl
    funext m
    refine (hv1.nvramSet_fits rfl (fun _ => rfl) rfl hfit.1 hfit.2 ?_ m).trans ?_
    · rw [hlen, NVRAM_SPACE]
      omega
    · rw [hget, one, one]
      split <;> rfl
  rw [hn1, Step.act, hl1, Option.map_some, Option.getD_some, hset] at hn2
  obtain ⟨s2, hl2, hv2, hm2⟩ := live_of_node (M := one (CStr.ofString "2")) hd2 (by rw [hn2]; rfl)
  obtain ⟨d3, ha3, hd3, hc3, hn3⟩ := Device.step hd2 hc2 (hcut (.primary .untouched)) trivial
  rw [hn2, Step.act, hl2, Option.map_some, Option.getD_some, (one_fits hv2 hm2 (by decide)).1] at hn3
  obtain ⟨d4, ha4, hd4, hc4, hn4⟩ := Device.step hd3 hc3 hboot trivial
  rw [hn3] at hn4
  obtain ⟨s4, hl4, hv4, hm4⟩ := live_of_node (M := one (CStr.ofString "2")) hd4 (by rw [hn4]; rfl)
  obtain ⟨d5, ha5, hd5, hn5⟩ := Step.simulates hd4 (hcut (.backup .broken)) hc4
  rw [hn4, Step.act, hl4, Option.map_some, Option.getD_some, (one_fits hv4 hm4 (by decide)).1] at hn5
  have hload : Loads smoothBoot d5.flash (one (CStr.ofString "1")) :=
    hd5.loads (by rw [hn5]; rfl) smoothBoot_granted
  have hsaved : d5.saved = one (CStr.ofString "2") := congrArg Node.saved hn5
  have hwriting : d5.writing = one (CStr.ofString "2") := congrArg Node.writing hn5
  have hnot : ¬ Loads smoothBoot d5.flash (one (CStr.ofString "2")) := by
    rw [hload.unique]
    intro he
    exact absurd (he (CStr.ofString "a")) (by decide)
  refine ⟨d4, d5, s4, ?_, hl4, ha5, hload, hm4 ▸ hnot, hsaved ▸ hnot, hwriting ▸ hnot⟩
  simp only [run, ha1, ha2, ha3, ha4, Option.bind_some]

end EzpFirmware.KernelNvram
