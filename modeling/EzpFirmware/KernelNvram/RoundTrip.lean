import EzpFirmware.KernelNvram.Rehash

/-! # An image read back

The writer ends its text with at least two NULs and pads the length to whole
words, so that a reader which sees the header and the data up to that length
finds the text again, whatever stands behind it. The map survives exactly when
all variables fit and no name carries the separator.
-/
namespace EzpFirmware.KernelNvram
open Lib

/-! ## Length and checksum -/

theorem writtenText_le (s : Nvram) : (writtenText s).length + 22 ≤ NVRAM_SPACE := by
  have h := written_size s
  rw [← writtenText_length] at h
  simp only [NVRAM_HEADER_SIZE, NVRAM_SPACE] at h ⊢
  omega

theorem roundup_four (n : ℕ) : roundup n 4 % 4 = 0 ∧ n ≤ roundup n 4 ∧ roundup n 4 < n + 4 := by
  unfold roundup
  omega

/-- The length field, before it is stored in a word. -/
def imageLength (s : Nvram) : ℕ := roundup (NVRAM_HEADER_SIZE + (writtenText s).length + 2) 4

theorem imageLength_bounds (s : Nvram) :
    imageLength s % 4 = 0 ∧ 24 ≤ imageLength s ∧ imageLength s ≤ NVRAM_SPACE ∧
      NVRAM_HEADER_SIZE + (writtenText s).length + 2 ≤ imageLength s := by
  have h := writtenText_le s
  obtain ⟨h4, hge, hlt⟩ := roundup_four (NVRAM_HEADER_SIZE + (writtenText s).length + 2)
  simp only [imageLength, NVRAM_HEADER_SIZE, NVRAM_SPACE] at *
  omega

section
variable (header : NvramHeader) (s : Nvram)

theorem regenerate_magic : (regenerate header s).header.magic = NVRAM_MAGIC := rfl

theorem regenerate_data : (regenerate header s).data = writtenText s ++
    List.replicate (NVRAM_SPACE - NVRAM_HEADER_SIZE - (writtenText s).length) 0 := rfl

theorem regenerate_len : (regenerate header s).header.len.toNat = imageLength s := by
  have h := (imageLength_bounds s).2.2.1
  have hlt : imageLength s < 2 ^ 32 := lt_of_le_of_lt h (by decide)
  exact UInt32.toNat_ofNat_of_lt hlt

private theorem shift_low (w : UInt32) : (w <<< 16).toUInt8 = 0 := by
  apply UInt8.toNat_inj.mp
  simp [Nat.shiftLeft_eq]
  omega

/-- Version and refresh words leave the low byte free for the checksum. -/
theorem sdramWords_low : (sdramWords header s).1.toUInt8 = 0 := by
  have hver : (NVRAM_VERSION <<< 8).toUInt8 = 0 := by decide
  unfold sdramWords
  split
  · simp only [UInt32.toUInt8_or, shift_low, hver, UInt8.or_self]
  · exact hver

theorem regenerate_crc : (regenerate header s).header.crcVerInit.toUInt8 =
    hndcrc8 ((regenerate header s).data.take (imageLength s - NVRAM_HEADER_SIZE))
      CRC8_INIT_VALUE := by
  have hlow := sdramWords_low header s
  have hw : (regenerate header s).header.crcVerInit = (sdramWords header s).1 |||
      (hndcrc8 ((regenerate header s).data.take (imageLength s - NVRAM_HEADER_SIZE))
        CRC8_INIT_VALUE).toUInt32 := rfl
  rw [hw, UInt32.toUInt8_or, hlow]
  simp

end

/-- Same header, and the same data up to the length in it: what a write to flash makes sure of. -/
structure Image.Agrees (flash image : Image) : Prop where
  header : flash.header = image.header
  data : flash.data.take (image.header.len.toNat - NVRAM_HEADER_SIZE) =
    image.data.take (image.header.len.toNat - NVRAM_HEADER_SIZE)

theorem Image.Agrees.refl (image : Image) : image.Agrees image := ⟨rfl, rfl⟩

variable {header : NvramHeader} {s : Nvram} {flash : Image}

/-- A written image passes validation, whatever follows it. -/
theorem valid_of_agrees (h : flash.Agrees (regenerate header s)) (failsafe : Bool) :
    _nvramValid flash failsafe = some 0 := by
  have hb := imageLength_bounds s
  have hlen := regenerate_len header s
  have hsub : ((regenerate header s).header.len - 20).toNat =
      imageLength s - NVRAM_HEADER_SIZE := by
    rw [UInt32.toNat_sub_of_le _ _ (UInt32.le_iff_toNat_le.mpr (by
      rw [hlen]
      exact le_trans (by decide) hb.2.1)), hlen]
    rfl
  have hdata := h.data
  rw [hlen] at hdata
  have hfit : ¬ imageLength s - NVRAM_HEADER_SIZE > flash.data.length := by
    rw [flash.data_length]
    omega
  rw [_nvramValid, h.header]
  simp only [regenerate_magic, ne_eq, not_true_eq_false, if_false, hsub, hfit, hdata,
    ← regenerate_crc]
  simp

/-! ## The text -/

theorem EQ_mem_assignment (a : CStr × CStr) : EQ ∈ (assignment a).val := by
  simp [assignment, CStr.glue]

/-- What the reader makes of an assignment: it splits at the first separator. -/
def reread (a : CStr × CStr) : CStr × CStr := (CStr.cut EQ (assignment a)).getD a

theorem cut_assignment (a : CStr × CStr) : CStr.cut EQ (assignment a) = some (reread a) := by
  have hs : CStr.cut EQ (assignment a) ≠ none := by
    rw [Ne, CStr.cut_eq_none, not_not]
    exact EQ_mem_assignment a
  obtain ⟨b, hb⟩ := Option.ne_none_iff_exists'.mp hs
  rw [reread, hb]
  rfl

theorem reread_eq {a : CStr × CStr} (h : EQ ∉ a.1.val) : reread a = a := by
  rw [reread, assignment, CStr.cut_glue EQ_ne_zero h]
  rfl

theorem reread_name (a : CStr × CStr) : EQ ∉ (reread a).1.val :=
  CStr.cut_left_not_mem (b := (reread a).2) (cut_assignment a)

theorem reread_size (a : CStr × CStr) : assignmentSize (reread a) = assignmentSize a := by
  have h := CStr.cut_length (a := (reread a).1) (b := (reread a).2) (cut_assignment a)
  rw [assignment, CStr.glue_len] at h
  rw [assignmentSize, assignmentSize]
  omega

theorem parsed_assignments (l : List (CStr × CStr)) (rest : List CStr) :
    parsed (l.map assignment ++ CStr.empty :: rest) = l.map reread := by
  induction l with
  | nil => rfl
  | cons a l ih =>
    have hne : assignment a ≠ CStr.empty := by
      intro he
      have hm := EQ_mem_assignment a
      rw [he] at hm
      simp [CStr.empty] at hm
    rw [List.map_cons, List.cons_append, parsed, if_neg hne, cut_assignment, ih, List.map_cons]

/-- Clearing the last two bytes leaves a text that ends in front of them, and its NUL, alone. -/
theorem terminate_text {text rest : List UInt8} (hd : flash.data = text ++ 0 :: 0 :: rest) :
    ∃ rest', flash.terminate.data = text ++ 0 :: rest' := by
  have hl := flash.data_length
  rw [hd, List.length_append, List.length_cons, List.length_cons] at hl
  have hend : text.length ≤ NVRAM_SPACE - NVRAM_HEADER_SIZE - 2 := by omega
  have hq : NVRAM_SPACE - NVRAM_HEADER_SIZE - 2 ≤ flash.data.length := by
    rw [flash.data_length]
    exact Nat.sub_le _ _
  change ∃ rest', poke flash.data (NVRAM_SPACE - NVRAM_HEADER_SIZE - 2) [0, 0] = _
  rcases Nat.lt_or_eq_of_le hend with hlt | heq
  · have hk : Holds flash.data 0 (text ++ [0]) := ⟨0 :: rest, by simp [hd]⟩
    have hle : 0 + (text ++ [0]).length ≤ NVRAM_SPACE - NVRAM_HEADER_SIZE - 2 := by
      rw [List.length_append, List.length_singleton]
      omega
    obtain ⟨rest', hr⟩ : Holds (poke flash.data (NVRAM_SPACE - NVRAM_HEADER_SIZE - 2) [0, 0]) 0
        (text ++ [0]) := hk.poke hle hq
    exact ⟨rest', by simpa using hr.symm⟩
  · refine ⟨0 :: flash.data.drop (NVRAM_SPACE - NVRAM_HEADER_SIZE - 2 + 2), ?_⟩
    rw [poke, ← heq, hd, List.take_left' rfl]
    simp

theorem assigned_of_text {l : List (CStr × CStr)} {rest : List UInt8}
    (hd : flash.data = (l.flatMap fun a => (assignment a).stored) ++ 0 :: 0 :: rest) :
    flash.assigned = l.map reread := by
  obtain ⟨rest', hr⟩ := terminate_text hd
  have hm : (l.flatMap fun a => (assignment a).stored) =
      (l.map assignment).flatMap CStr.stored := by rw [List.flatMap_map]
  rw [Image.assigned, hr, hm, cstrings_flatMap_stored]
  exact parsed_assignments l (cstrings rest')

/-- The reader finds the written variables, split anew at their first separators. -/
theorem assigned_of_agrees (h : flash.Agrees (regenerate header s)) :
    flash.assigned = (written s).1.map reread := by
  have hb := imageLength_bounds s
  have ht := writtenText_le s
  have hdata := h.data
  rw [regenerate_len, regenerate_data] at hdata
  obtain ⟨k, hk⟩ : ∃ k, imageLength s - NVRAM_HEADER_SIZE = (writtenText s).length + (k + 2) :=
    ⟨imageLength s - NVRAM_HEADER_SIZE - (writtenText s).length - 2, by omega⟩
  obtain ⟨j, hj⟩ : ∃ j, NVRAM_SPACE - NVRAM_HEADER_SIZE - (writtenText s).length = j + (k + 2) :=
    ⟨NVRAM_SPACE - imageLength s, by omega⟩
  have hle : (writtenText s).length ≤ (writtenText s).length + (k + 2) := Nat.le_add_right _ _
  rw [hk, hj, List.take_append, List.take_of_length_le hle, Nat.add_sub_cancel_left,
    List.take_replicate, Nat.min_eq_left (Nat.le_add_left _ _)] at hdata
  have hsplit := List.take_append_drop ((writtenText s).length + (k + 2)) flash.data
  rw [hdata, List.replicate_succ, List.replicate_succ, List.append_assoc] at hsplit
  exact assigned_of_text hsplit.symm

/-! ## The map -/

namespace Nvram

theorem mem_all {a : CStr × CStr} :
    a ∈ s.all ↔ ∃ t ∈ s.live, a = (t.name, s.str t.value) := by
  simp only [Nvram.all, assignments, live, List.mem_flatten, List.mem_map, Chains.mem_entries]
  constructor
  · rintro ⟨l, ⟨i, -, rfl⟩, ha⟩
    obtain ⟨t, ht, rfl⟩ := List.mem_map.mp ha
    exact ⟨t, ⟨i, ht⟩, rfl⟩
  · rintro ⟨t, ⟨i, ht⟩, rfl⟩
    exact ⟨_, ⟨i, List.mem_finRange i, rfl⟩, List.mem_map_of_mem ht⟩

theorem all_names (s : Nvram) : s.all.map Prod.fst = s.live.map NvramTuple.name := by
  simp only [Nvram.all, live, Chains.entries, List.flatMap_def, List.map_flatten, List.map_map]
  congr 2
  funext i
  simp [assignments]

theorem Valid.all_nodup (h : s.Valid) : (s.all.map Prod.fst).Nodup := by
  rw [all_names]
  exact h.live_nodup

/-- The variables of the store are its lookups. -/
theorem Valid.mem_all_iff (h : s.Valid) {m v : CStr} :
    (m, v) ∈ s.all ↔ _nvramGet m s = some v := by
  rw [mem_all]
  constructor
  · rintro ⟨t, ht, he⟩
    cases he
    rw [_nvramGet, h.mem_live.mp ht]
    rfl
  · intro hg
    obtain ⟨t, ht, hv⟩ := Option.map_eq_some_iff.mp hg
    obtain rfl := find_name ht
    exact ⟨t, h.mem_live.mpr ht, by rw [hv]⟩

theorem written_sublist (s : Nvram) : (written s).1.Sublist s.all := packChains_sublist _ _

/-- The names of all live variables are free of the separator. -/
def Named (s : Nvram) : Prop := ∀ m, (_nvramGet m s).isSome → EQ ∉ m.val

/-- The texts of all live variables and the final double NUL fit into an image. -/
def Fits (s : Nvram) : Prop := totalSize assignmentSize s.all ≤ NVRAM_SPACE - 22

instance (s : Nvram) : Decidable s.Fits := inferInstanceAs (Decidable (_ ≤ _))

theorem fits_iff_written : s.Fits ↔ (written s).1 = s.all := by
  rw [written, Nvram.all, packChains_all_iff (by decide), Fits, Nvram.all]
  simp only [NVRAM_HEADER_SIZE, NVRAM_SPACE]
  omega

theorem Valid.named_iff (h : s.Valid) : s.Named ↔ ∀ a ∈ s.all, EQ ∉ a.1.val := by
  constructor
  · intro hn a ha
    exact hn a.1 (by rw [h.mem_all_iff.mp ha]; rfl)
  · intro hn m hm
    obtain ⟨v, hv⟩ := Option.isSome_iff_exists.mp hm
    exact hn (m, v) (h.mem_all_iff.mpr hv)

/-- A bound for the image from a list that has all lookups. -/
theorem Valid.all_size_le (h : s.Valid) {l : List (CStr × CStr)}
    (hl : ∀ m v, _nvramGet m s = some v → (m, v) ∈ l) :
    totalSize assignmentSize s.all ≤ totalSize assignmentSize l :=
  totalSize_le_of_subset (h.all_nodup.of_map _) fun ⟨m, v⟩ ha => hl m v (h.mem_all_iff.mp ha)

theorem Valid.reread_written (h : s.Valid) (hn : s.Named) :
    (written s).1.map reread = (written s).1 := by
  refine (List.map_congr_left fun a ha => ?_).trans (List.map_id _)
  exact reread_eq (h.named_iff.mp hn a ((written_sublist s).subset ha))

theorem Valid.written_nodup (h : s.Valid) : ((written s).1.map Prod.fst).Nodup :=
  h.all_nodup.sublist ((written_sublist s).map Prod.fst)

theorem written_reread_size (s : Nvram) :
    totalSize assignmentSize ((written s).1.map reread) ≤ NVRAM_SPACE - 22 := by
  have hspace := written_size s
  have hsize : totalSize assignmentSize ((written s).1.map reread) =
      totalSize assignmentSize (written s).1 := by
    rw [totalSize, List.map_map, totalSize]
    congr 2
    funext a
    exact reread_size a
  simp only [NVRAM_HEADER_SIZE, NVRAM_SPACE] at hspace ⊢
  omega

/-- The map that an image of the store stands for. -/
def imageMap (s : Nvram) : CStr → Option CStr :=
  overwrite (fun _ => none) ((written s).1.map reread)

theorem contents_of_agrees (h : flash.Agrees (regenerate header s)) :
    flash.contents = s.imageMap := by
  rw [Image.contents, assigned_of_agrees h, imageMap]

/-- The image agrees with the store it was written from exactly when no name has the separator in
it and every text fits. -/
theorem Valid.imageMap_iff (h : s.Valid) :
    (∀ m, s.imageMap m = _nvramGet m s) ↔ s.Named ∧ s.Fits := by
  rw [fits_iff_written]
  constructor
  · intro hc
    have hn : s.Named := by
      intro m hm
      obtain ⟨v, hv⟩ := Option.isSome_iff_exists.mp hm
      rw [← hc] at hv
      cases overwrite_mem hv with
      | inl hnone => cases hnone
      | inr hmem =>
        obtain ⟨a, -, ha⟩ := List.mem_map.mp hmem
        have hname := reread_name a
        rw [ha] at hname
        exact hname
    refine ⟨hn, ?_⟩
    have hsub : s.all ⊆ (written s).1 := by
      rintro ⟨m, v⟩ hmem
      have hg := (hc m).trans (h.mem_all_iff.mp hmem)
      rw [imageMap, h.reread_written hn] at hg
      exact (overwrite_eq_some h.written_nodup).mp hg
    have hnd : s.all.Nodup := h.all_nodup.of_map _
    exact (written_sublist s).eq_of_length_le (hnd.subperm hsub).length_le
  · rintro ⟨hn, hf⟩ m
    rw [imageMap, h.reread_written hn, hf]
    refine Option.ext fun v => ?_
    rw [overwrite_eq_some h.all_nodup, h.mem_all_iff]

end Nvram

/-- The last two bytes of a written image are clear already. -/
theorem regenerate_terminate (header : NvramHeader) (s : Nvram) :
    (regenerate header s).terminate = regenerate header s := by
  have ht := writtenText_le s
  obtain ⟨j, hj⟩ : ∃ j, NVRAM_SPACE - NVRAM_HEADER_SIZE - (writtenText s).length = j + 2 :=
    ⟨NVRAM_SPACE - NVRAM_HEADER_SIZE - (writtenText s).length - 2, by
      simp only [NVRAM_SPACE, NVRAM_HEADER_SIZE] at ht ⊢
      omega⟩
  have hp : NVRAM_SPACE - NVRAM_HEADER_SIZE - 2 =
      (writtenText s ++ List.replicate j 0).length := by
    simp only [List.length_append, List.length_replicate]
    omega
  have hd : (regenerate header s).data = writtenText s ++ List.replicate j 0 ++ [0, 0] := by
    rw [regenerate_data, hj, List.replicate_add, List.append_assoc]
    rfl
  have hpoke : poke (regenerate header s).data (NVRAM_SPACE - NVRAM_HEADER_SIZE - 2) [0, 0] =
      (regenerate header s).data := by
    have hlen : (writtenText s ++ List.replicate j 0 ++ [0, 0]).length ≤
        (writtenText s ++ List.replicate j 0).length + [(0 : UInt8), 0].length := by
      rw [List.length_append]
    rw [hd, hp, poke, List.take_left' rfl, List.drop_eq_nil_of_le hlen, List.append_nil]
  rw [Image.terminate]
  generalize regenerate header s = image at *
  cases image
  simp only [hpoke]

/-- A store whose texts fit comes back from its image, whatever stands on flash behind the image:
the length is in range, validation succeeds, and the loaded table has the same map. -/
theorem commit_init (ops : List Op) (kmalloc : ℕ → Bool) (header : Image) :
    let s := (history ops).1
    let image := (_nvramCommit kmalloc header s).2.1
    (∀ a ∈ s.all, EQ ∉ a.1.val) → totalSize assignmentSize s.all ≤ NVRAM_SPACE - 22 →
      image.header.len.toNat % 4 = 0 ∧ 24 ≤ image.header.len.toNat ∧
      image.header.len.toNat ≤ NVRAM_SPACE ∧ _nvramValid image false = some 0 ∧
      ∀ flash : Image, flash.Agrees image →
        ∀ (init : List Op) (kmalloc' : ℕ → Bool), (∀ i, kmalloc' i = true) →
          ∃ s', _nvramInit true kmalloc' (some flash) false (history init).1 = some (0, s') ∧
            ∀ m, _nvramGet m s' = _nvramGet m s := by
  intro s image hn hf
  have hs : s.Valid := (Logged.history ops).valid
  have himage : image = regenerate header.header s := regenerate_terminate header.header s
  have hb := imageLength_bounds s
  rw [himage, regenerate_len]
  refine ⟨hb.1, hb.2.1, hb.2.2.1, valid_of_agrees (.refl _) false, ?_⟩
  intro flash hflash init kmalloc' hk
  have hinit : (history init).1.Valid := (Logged.history init).valid
  have hval : _nvramValid flash false = some 0 := valid_of_agrees hflash false
  refine ⟨(nvramRehash kmalloc' flash (history init).1).2.2, ?_, fun m => ?_⟩
  · simp [_nvramInit, _nvramRead, hval]
  · rw [hinit.rehash_get hk, Nvram.contents_of_agrees hflash]
    exact hs.imageMap_iff.mpr ⟨hs.named_iff.mpr hn, hf⟩ m

/-- One variable with a separator in its value. -/
theorem commit_init_one :
    let s := (history [.set true (CStr.ofString "a") (CStr.ofString "x=y")]).1
    let image := (_nvramCommit (fun _ => true) (Image.ofBytes []) s).2.1
    ∃ s', _nvramInit true (fun _ => true) (some image) false Nvram.initial = some (0, s') ∧
      _nvramGet (CStr.ofString "a") s' = some (CStr.ofString "x=y") := by
  intro s image
  have hacc : Nvram.initial.Accepts true (CStr.ofString "a") (CStr.ofString "x=y") :=
    ⟨by decide, fun _ => rfl⟩
  obtain ⟨-, hv, hg, -⟩ := Nvram.initial_valid.set_accepted hacc
  have hs : s.Valid := hv
  have hget : ∀ m, _nvramGet m s = if m = CStr.ofString "a" then some (CStr.ofString "x=y")
      else _nvramGet m Nvram.initial := hg
  have hall : ∀ m v, _nvramGet m s = some v →
      (m, v) ∈ [(CStr.ofString "a", CStr.ofString "x=y")] := by
    intro m v h
    rw [hget] at h
    by_cases hm : m = CStr.ofString "a"
    · rw [if_pos hm] at h
      cases h
      simp [hm]
    · rw [if_neg hm, Logged.initial.agrees] at h
      cases h
  obtain ⟨-, -, -, -, hload⟩ := commit_init [.set true (CStr.ofString "a") (CStr.ofString "x=y")]
    (fun _ => true) (Image.ofBytes [])
    (fun a ha => by
      obtain rfl : a = _ := List.mem_singleton.mp (hall a.1 a.2 (hs.mem_all_iff.mp ha))
      decide)
    ((hs.all_size_le hall).trans (by decide))
  obtain ⟨s', hs', hm⟩ := hload image (.refl _) [] (fun _ => true) fun _ => rfl
  exact ⟨s', hs', (hm _).trans ((hget _).trans (if_pos rfl))⟩

end EzpFirmware.KernelNvram
