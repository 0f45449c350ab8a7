import EzpFirmware.Lib.Numerals
import EzpFirmware.Switch.VlanMasks

/-! # The VLAN table of a switch chip

A valid entry of the table is printed as a port list, and a port list that is written goes
into the table. An entry that was written is printed as a list with the same ports.
-/
namespace EzpFirmware.Switch
open Lib

section
/-- The registers of the chip: an entry of the table as a read shows it, and the default VLAN
tags of the ports. -/
structure Robo where
  is5350 : Bool
  vlanTable : ℕ → BitVec 32
  defTag : ℕ → BitVec 16

/-- The driver that `robo_init` registers. -/
def roboDriver : SwitchDriver where
  cpuport := 5
  ports := 6

/-- The flags of a printed port. -/
def portFlags (robo : Robo) (nr : ℕ) (untag : Bool) (j : ℕ) : List UInt8 :=
  if untag then if j = 5 then [0x75] else []
  else 0x74 :: if (robo.defTag j).toNat = nr then [0x2a] else []

/-- The text of an entry, whose untag bits start at `off`. -/
def portsText {k : ℕ} (robo : Robo) (nr : ℕ) (val : BitVec k) (off : ℕ) : List UInt8 :=
  ((List.range 6).flatMap fun j =>
    if val.getLsbD j then
      (decimal j).val ++ portFlags robo nr (val.getLsbD (j + off)) j ++ [0x09]
    else []) ++ [0x0a]

/-- `handle_vlan_port_read`. -/
def handleVlanPortRead (robo : Robo) (nr : ℕ) : CStr :=
  if robo.is5350 then
    let val32 := robo.vlanTable nr
    CStr.read (if val32.getLsbD 20 then portsText robo nr val32 6 else [])
  else
    let val16 := (robo.vlanTable nr).setWidth 16
    CStr.read (if val16.getLsbD 14 then portsText robo nr val16 7 else [])

/-- The default tag of a port changes. -/
def Robo.setDefTag (robo : Robo) (nr j : ℕ) : Robo :=
  { robo with defTag := Function.update robo.defTag j (BitVec.ofNat 16 nr) }

def EINVAL : ℤ := 22

/-- `handle_vlan_port_write`. -/
def handleVlanPortWrite (robo : Robo) (d : SwitchDriver) (buf : CStr) (nr : ℕ) : Robo × ℤ :=
  match (switchParseVlan d buf).join with
  | none => (robo, -EINVAL)
  | some c =>
    let robo' := (List.range d.ports).foldl (fun robo j =>
      if (c.untag ||| c.pvid).getLsbD j then robo.setDefTag nr j else robo) robo
    let val := if robo.is5350 then 1#32 <<< 20 ||| c.untag <<< 6 ||| c.port
      else ((1#32 <<< 14 ||| c.untag <<< 7 ||| c.port).setWidth 16).setWidth 32
    ({ robo' with vlanTable := Function.update robo'.vlanTable nr val }, 0)

/-! ## The entry of a table -/

/-- Where the untag bits start. -/
def untagOffset (robo : Robo) : ℕ := if robo.is5350 then 6 else 7

def IsValid (robo : Robo) (nr : ℕ) : Prop :=
  (robo.vlanTable nr).getLsbD (if robo.is5350 then 20 else 14) = true

/-- The member mask of an entry. -/
def member (robo : Robo) (nr j : ℕ) : Bool := decide (j < 6) && (robo.vlanTable nr).getLsbD j

/-- The untag mask of an entry. -/
def untag (robo : Robo) (nr j : ℕ) : Bool :=
  decide (j < 6) && (robo.vlanTable nr).getLsbD (j + untagOffset robo)

/-- The text of an entry is read back as its masks. -/
def ReadsBack (robo : Robo) (nr : ℕ) : Prop :=
  ∃ c, switchParseVlan roboDriver (handleVlanPortRead robo nr) = some (some c) ∧
    (∀ j, c.port.getLsbD j = member robo nr j) ∧ ∀ j, c.untag.getLsbD j = untag robo nr j

/-! ## The words of the text -/

variable {robo : Robo} {nr : ℕ}

/-- A printed port. -/
def portWord (robo : Robo) (nr j : ℕ) : List UInt8 :=
  (decimal j).val ++ portFlags robo nr (untag robo nr j) j

/-- The flags that are printed. -/
theorem portFlags_mem (u : Bool) (j : ℕ) :
    portFlags robo nr u j ∈ [[], [0x75], ([0x74] : List UInt8), [0x74, 0x2a]] := by
  by_cases hu : u = true
  · by_cases hj : j = 5 <;> simp [portFlags, hu, hj]
  · by_cases htag : (robo.defTag j).toNat = nr <;> simp [portFlags, hu, htag]

theorem word_parts : ∀ j : ℕ, j < 6 → ∀ fs ∈ [[], [0x75], ([0x74] : List UInt8), [0x74, 0x2a]],
    (∀ b ∈ (decimal j).val ++ fs, isspace b = false ∧ b ≠ 0) ∧
      digits ((decimal j).val ++ fs) ≠ [] ∧ number ((decimal j).val ++ fs) = j ∧
      flags ((decimal j).val ++ fs) = fs := by
  decide +kernel

theorem portWord_parts {j : ℕ} (hj : j < 6) :
    (∀ b ∈ portWord robo nr j, isspace b = false ∧ b ≠ 0) ∧ digits (portWord robo nr j) ≠ [] ∧
      number (portWord robo nr j) = j ∧
      flags (portWord robo nr j) = portFlags robo nr (untag robo nr j) j :=
  word_parts j hj _ (portFlags_mem _ j)

/-- A printed port is untagged if and only if its bit is set. -/
theorem isUntagged_portWord {j : ℕ} (hj : j < 6) :
    IsUntagged roboDriver (portWord robo nr j) ↔ untag robo nr j = true := by
  obtain ⟨-, -, hnumber, hflags⟩ := @portWord_parts robo nr _ hj
  rw [IsUntagged, hnumber, hflags]
  cases untag robo nr j with
  | true =>
    by_cases h5 : j = 5
    · simp [portFlags, h5, lastMark, isMark]
    · have hcpu : BitVec.ofNat 32 j ≠ roboDriver.cpuport := fun h => h5 (by
        have := congrArg BitVec.toNat h
        simpa [roboDriver, Nat.mod_eq_of_lt (hj.trans (by decide : 6 < 4294967296))] using this)
      simp [portFlags, h5, lastMark, hcpu]
  | false =>
    by_cases htag : (robo.defTag j).toNat = nr <;>
      simp [portFlags, htag, lastMark, isMark]

/-- The text of an entry, one printed port for each member. -/
def entryText (robo : Robo) (nr : ℕ) (js : List ℕ) : List UInt8 :=
  (js.flatMap fun j => if member robo nr j then portWord robo nr j ++ [0x09] else []) ++ [0x0a]

theorem words_entryText {js : List ℕ} (hjs : ∀ j ∈ js, j < 6) :
    words isspace (entryText robo nr js) =
      (js.filter (member robo nr)).map (portWord robo nr) := by
  induction js with
  | nil => exact (words_sep rfl []).trans words_nil
  | cons j js ih =>
    have hrest := ih fun i hi => hjs i (List.mem_cons_of_mem j hi)
    obtain ⟨hspace, hdigits, -, -⟩ :=
      @portWord_parts robo nr _ (hjs j List.mem_cons_self)
    have hne : portWord robo nr j ≠ [] := fun h => hdigits (by rw [h]; rfl)
    by_cases hj : member robo nr j = true
    · have htext : entryText robo nr (j :: js) =
          portWord robo nr j ++ 0x09 :: entryText robo nr js := by
        simp [entryText, hj]
      rw [htext, words_word_sep (fun b hb => (hspace b hb).1) hne rfl, hrest]
      simp [hj]
    · have htext : entryText robo nr (j :: js) = entryText robo nr js := by
        simp [entryText, hj]
      rw [htext, hrest]
      simp [hj]

theorem zero_notMem_entryText {js : List ℕ} (hjs : ∀ j ∈ js, j < 6) :
    (0 : UInt8) ∉ entryText robo nr js := by
  simp only [entryText, List.mem_append, List.mem_flatMap, List.mem_singleton, not_or, not_exists,
    not_and]
  refine ⟨fun j hj => ?_, by decide⟩
  by_cases hm : member robo nr j = true
  · rw [if_pos hm, List.mem_append, not_or]
    exact ⟨fun h => ((portWord_parts (hjs j hj)).1 0 h).2 rfl, by decide⟩
  · rw [if_neg hm]
    exact List.not_mem_nil

/-- A valid entry is printed as its members. -/
theorem handleVlanPortRead_valid (h : IsValid robo nr) :
    (handleVlanPortRead robo nr).val = entryText robo nr (List.range 6) := by
  have hfree : (0 : UInt8) ∉ entryText robo nr (List.range 6) :=
    zero_notMem_entryText fun j => List.mem_range.mp
  have htext {k : ℕ} (val : BitVec k) (hval : ∀ i < 16, val.getLsbD i =
      (robo.vlanTable nr).getLsbD i) :
      portsText robo nr val (untagOffset robo) = entryText robo nr (List.range 6) := by
    rw [portsText, entryText]
    congr 1
    refine List.flatMap_congr fun j hj => ?_
    have hlt : j < 6 := List.mem_range.mp hj
    have hoff : j + untagOffset robo < 16 := by
      unfold untagOffset
      split <;> omega
    rw [hval j (by omega), hval _ hoff]
    simp [member, portWord, untag, hlt]
  unfold IsValid at h
  by_cases hchip : robo.is5350 = true
  · have hsix : untagOffset robo = 6 := if_pos hchip
    have hsame := htext (robo.vlanTable nr) fun i _ => rfl
    rw [hsix] at hsame
    rw [if_pos hchip] at h
    rw [handleVlanPortRead, if_pos hchip]
    simp only [h, if_true]
    rw [hsame, CStr.read_of_free hfree]
  · have hseven : untagOffset robo = 7 := if_neg hchip
    rw [if_neg hchip] at h
    have hlow : ∀ i < 16, ((robo.vlanTable nr).setWidth 16).getLsbD i =
        (robo.vlanTable nr).getLsbD i := fun i hi => by simp [hi]
    have hsame := htext _ hlow
    rw [hseven] at hsame
    rw [handleVlanPortRead, if_neg hchip]
    simp only [hlow 14 (by omega), h, if_true]
    rw [hsame, CStr.read_of_free hfree]

/-! ## The text is read -/

/-- The text of a valid entry is read as its members, and of the untag mask what belongs to
members. -/
theorem switchParseVlan_read (h : IsValid robo nr) :
    ∃ c, switchParseVlan roboDriver (handleVlanPortRead robo nr) = some (some c) ∧
      (∀ j, c.port.getLsbD j = member robo nr j) ∧
      ∀ j, c.untag.getLsbD j = (member robo nr j && untag robo nr j) := by
  have hwords : words isspace (handleVlanPortRead robo nr).val =
      ((List.range 6).filter (member robo nr)).map (portWord robo nr) := by
    rw [handleVlanPortRead_valid h, words_entryText fun j => List.mem_range.mp]
  have hdigits : ∀ w ∈ words isspace (handleVlanPortRead robo nr).val, digits w ≠ [] := by
    rw [hwords]
    intro w hw
    obtain ⟨j, hj, rfl⟩ := List.mem_map.mp hw
    exact (portWord_parts (List.mem_range.mp (List.mem_of_mem_filter hj))).2.1
  have hlt {j : ℕ} (hj : member robo nr j = true) : j < 6 := by
    rw [member, Bool.and_eq_true, decide_eq_true_eq] at hj
    exact hj.1
  -- a word that lists `j` is the one of the member `j`
  have hlists (P : List UInt8 → Prop) (j : ℕ) :
      (j < roboDriver.ports ∧ ∃ w ∈ words isspace (handleVlanPortRead robo nr).val,
        number w % 32 = j ∧ P w) ↔ member robo nr j = true ∧ P (portWord robo nr j) := by
    rw [hwords]
    constructor
    · rintro ⟨-, w, hw, hn, hP⟩
      obtain ⟨i, hi, rfl⟩ := List.mem_map.mp hw
      have hm := (List.mem_filter.mp hi).2
      rw [(portWord_parts (hlt hm)).2.2.1, Nat.mod_eq_of_lt ((hlt hm).trans (by decide))] at hn
      exact hn ▸ ⟨hm, hP⟩
    · rintro ⟨hm, hP⟩
      refine ⟨hlt hm, _, List.mem_map_of_mem (List.mem_filter.mpr
        ⟨List.mem_range.mpr (hlt hm), hm⟩), ?_, hP⟩
      rw [(portWord_parts (hlt hm)).2.2.1, Nat.mod_eq_of_lt ((hlt hm).trans (by decide))]
  rw [switchParseVlan_eq, if_pos hdigits]
  have hmasks := @masks_of_words roboDriver (by decide)
    (words isspace (handleVlanPortRead robo nr).val)
  refine ⟨_, rfl, fun j => ?_, fun j => ?_⟩
  · rw [Bool.eq_iff_iff, (hmasks j).1, hlists]
    simp
  · rw [Bool.eq_iff_iff, (hmasks j).2.1, hlists, Bool.and_eq_true]
    exact and_congr_right fun hm => isUntagged_portWord (hlt hm)

theorem readsBack_iff (h : IsValid robo nr) :
    ReadsBack robo nr ↔ ∀ j, untag robo nr j = true → member robo nr j = true := by
  obtain ⟨c, hc, hport, huntag⟩ := switchParseVlan_read h
  constructor
  · rintro ⟨c', hc', -, huntag'⟩ j hj
    obtain rfl : c = c' := Option.some.inj (Option.some.inj (hc.symm.trans hc'))
    have := (huntag j).symm.trans (huntag' j)
    rw [hj, Bool.and_true] at this
    exact this
  · intro hsub
    refine ⟨c, hc, hport, fun j => ?_⟩
    rw [huntag j]
    by_cases hj : untag robo nr j = true
    · rw [hj, hsub j hj, Bool.and_self]
    · rw [Bool.eq_false_iff.mpr hj, Bool.and_false]

end

/-! ## Port lists in both directions

A written list is a valid entry, and it is printed as a list that is read as the same ports.
A list with a number of 32 or more can change a port that it does not name.
-/

variable {robo : Robo} {driver : SwitchDriver} {nr : ℕ} {s : CStr} {c : SwitchVlanConfig}

/-! ## What a write leaves -/

/-- The default tags change no other register. -/
theorem setDefTags_is5350 (js : List ℕ) (p : ℕ → Bool) :
    (js.foldl (fun robo j => if p j then robo.setDefTag nr j else robo) robo).is5350 =
      robo.is5350 := by
  induction js generalizing robo with
  | nil => rfl
  | cons j js ih =>
    rw [List.foldl_cons, ih]
    by_cases hj : p j = true
    · rw [if_pos hj]
      rfl
    · rw [if_neg hj]

theorem handleVlanPortWrite_is5350 (s : CStr) :
    (handleVlanPortWrite robo driver s nr).1.is5350 = robo.is5350 := by
  rw [handleVlanPortWrite]
  cases (switchParseVlan driver s).join with
  | none => rfl
  | some c => exact setDefTags_is5350 _ _

/-- The entry that is written. -/
theorem handleVlanPortWrite_entry (hc : switchParseVlan driver s = some (some c)) :
    (handleVlanPortWrite robo driver s nr).1.vlanTable nr =
      if robo.is5350 then 1#32 <<< 20 ||| c.untag <<< 6 ||| c.port
      else ((1#32 <<< 14 ||| c.untag <<< 7 ||| c.port).setWidth 16).setWidth 32 := by
  rw [handleVlanPortWrite, hc]
  exact Function.update_self ..

/-- The masks of a text keep to the ports, and an untagged port is a listed one. -/
theorem switchParseVlan_masks (hports : driver.ports < 32)
    (hc : switchParseVlan driver s = some (some c)) (j : ℕ) :
    (c.port.getLsbD j = true → j < driver.ports) ∧
      (c.untag.getLsbD j = true → c.port.getLsbD j = true) := by
  rw [switchParseVlan_eq] at hc
  split at hc
  · obtain ⟨hport, huntag, -⟩ := masks_of_words hports (words isspace s.val) j
    obtain rfl := Option.some.inj (Option.some.inj hc)
    refine ⟨fun h => (hport.mp h).1, fun h => ?_⟩
    obtain ⟨hj, w, hw, hn, -⟩ := huntag.mp h
    exact hport.mpr ⟨hj, w, hw, hn, trivial⟩
  · cases hc

/-- A list that is written becomes a valid entry with its masks. -/
theorem handleVlanPortWrite_masks (hc : switchParseVlan roboDriver s = some (some c)) :
    IsValid (handleVlanPortWrite robo roboDriver s nr).1 nr ∧
      (∀ j, member (handleVlanPortWrite robo roboDriver s nr).1 nr j = c.port.getLsbD j) ∧
      ∀ j, untag (handleVlanPortWrite robo roboDriver s nr).1 nr j = c.untag.getLsbD j := by
  have hports : roboDriver.ports < 32 := Nat.le_of_ble_eq_true rfl
  have hlow (j : ℕ) (hj : 6 ≤ j) : c.port.getLsbD j = false := by
    by_contra h
    exact absurd ((switchParseVlan_masks hports hc j).1 (by simpa using h)) (not_lt.mpr hj)
  have hlow' (j : ℕ) (hj : 6 ≤ j) : c.untag.getLsbD j = false := by
    by_contra h
    have hport := (switchParseVlan_masks hports hc j).2 (by simpa using h)
    rw [hlow j hj] at hport
    cases hport
  have hentry := @handleVlanPortWrite_entry robo _ nr _ _ hc
  have hchip := @handleVlanPortWrite_is5350 robo roboDriver nr s
  have hone (k j : ℕ) (hk : k < 32) : (1#32 <<< k).getLsbD j = decide (k = j) := by
    rw [← BitVec.twoPow_eq, BitVec.getLsbD_twoPow]
    simp [hk]
  unfold IsValid member untag untagOffset
  rw [hchip, hentry]
  by_cases h5350 : robo.is5350 = true
  · simp only [h5350, if_true, BitVec.getLsbD_or, hone 20 _ (by omega), BitVec.getLsbD_shiftLeft]
    refine ⟨by simp, fun j => ?_, fun j => ?_⟩
    · by_cases hj : j < 6
      · simp [hj, show 20 ≠ j by omega]
      · simp [hj, hlow j (not_lt.mp hj)]
    · by_cases hj : j < 6
      · rw [hlow (j + 6) (Nat.le_add_left 6 j)]
        simp [hj, show 20 ≠ j + 6 by omega, show j + 6 < 32 by omega]
      · simp [hj, hlow' j (not_lt.mp hj)]
  · simp only [h5350, Bool.false_eq_true, if_false, BitVec.getLsbD_setWidth, BitVec.getLsbD_or,
      hone 14 _ (by omega), BitVec.getLsbD_shiftLeft]
    refine ⟨by simp, fun j => ?_, fun j => ?_⟩
    · by_cases hj : j < 6
      · simp [hj, show 14 ≠ j by omega, show j < 7 by omega, show j < 16 by omega,
          show j < 32 by omega]
      · simp [hj, hlow j (not_lt.mp hj)]
    · by_cases hj : j < 6
      · rw [hlow (j + 7) (by omega)]
        simp [hj, show 14 ≠ j + 7 by omega, show j + 7 < 32 by omega, show j + 7 < 16 by omega]
      · simp [hj, hlow' j (not_lt.mp hj)]

/-- What was written is printed, and the text is read as the masks that were written. -/
theorem handleVlanPortWrite_readsBack (hc : switchParseVlan roboDriver s = some (some c)) :
    ReadsBack (handleVlanPortWrite robo roboDriver s nr).1 nr := by
  obtain ⟨hvalid, hport, huntag⟩ := @handleVlanPortWrite_masks robo nr _ _ hc
  rw [readsBack_iff hvalid]
  intro j hj
  rw [huntag] at hj
  rw [hport]
  exact (switchParseVlan_masks (Nat.le_of_ble_eq_true rfl) hc j).2 hj

/-- A text that the driver refuses changes nothing. -/
theorem handleVlanPortWrite_refused (hs : switchParseVlan driver s = some none) :
    handleVlanPortWrite robo driver s nr = (robo, -EINVAL) := by
  rw [handleVlanPortWrite, hs]
  rfl

/-! ## Both directions -/

/-- A text is accepted when its words start with digits. It is read as it says if and only if
its numbers of 32 or more change no port. The text of an entry is read as the entry if and only
if no port outside of it is untagged. -/
theorem vlanText_means_iff (hports : driver.ports < 32) (s : CStr) (hvalid : IsValid robo nr) :
    (∃ r, switchParseVlan driver s = some r ∧ (r ≠ none ↔ IsList s) ∧
      ∀ c, r = some c → (Means driver s c ↔ FarNumbersHarmless driver s)) ∧
    (ReadsBack robo nr ↔ ∀ j, untag robo nr j = true → member robo nr j = true) := by
  refine ⟨⟨_, switchParseVlan_eq driver s, ?_, ?_⟩, readsBack_iff hvalid⟩
  · rw [IsList]
    split
    · rename_i h
      exact iff_of_true (Option.some_ne_none _) h
    · rename_i h
      exact iff_of_false (fun hne => hne rfl) h
  · intro c hc
    split at hc
    · obtain rfl := Option.some.inj hc
      exact means_iff hports s
    · cases hc

/-- An entry with the tagged port 1 and the untagged port 0, and a text for it. -/
theorem vlanText_of_two :
    (∃ r, switchParseVlan roboDriver (CStr.read [0x30, 0x20, 0x31, 0x74]) = some r ∧
      (r ≠ none ↔ IsList (CStr.read [0x30, 0x20, 0x31, 0x74])) ∧
      ∀ c, r = some c → (Means roboDriver (CStr.read [0x30, 0x20, 0x31, 0x74]) c ↔
        FarNumbersHarmless roboDriver (CStr.read [0x30, 0x20, 0x31, 0x74]))) ∧
    (ReadsBack ⟨true, fun _ => 0x100043, fun _ => 0⟩ 1 ↔
      ∀ j, untag ⟨true, fun _ => 0x100043, fun _ => 0⟩ 1 j = true →
        member ⟨true, fun _ => 0x100043, fun _ => 0⟩ 1 j = true) :=
  vlanText_means_iff (Nat.le_of_ble_eq_true rfl) _ rfl

/-- The text `32` puts port 0 into the masks. -/
theorem thirtyTwo_sets_port_zero :
    ∃ c, switchParseVlan roboDriver (CStr.read [0x33, 0x32]) = some (some c) ∧
      ¬Means roboDriver (CStr.read [0x33, 0x32]) c := by
  refine ⟨⟨1, 1, 0⟩, by decide, fun h => ?_⟩
  obtain ⟨-, w, hw, hn⟩ := (h.port 0).mp (by decide)
  have hwords : words isspace (CStr.read [0x33, 0x32]).val = [[0x33, 0x32]] := by decide
  rw [hwords, List.mem_singleton] at hw
  rw [hw] at hn
  exact absurd hn (by decide)

end EzpFirmware.Switch
