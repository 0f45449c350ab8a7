import Mathlib.Data.Int.Basic
import Mathlib.Data.List.Pairwise
import Mathlib.Data.Nat.Init
import Mathlib.Tactic.Ring

/-! # The generator of partition tables

`ptgen` places the partitions one behind the other. Each starts a track behind the
end of the one in front of it and ends where a cylinder ends. Sectors are counted in
an `unsigned long`, but an entry is computed in variables of type `int`.
-/
namespace EzpFirmware.FirmwareUtils

/-- The number of heads and of sectors on a track. -/
structure Geometry where
  heads : ℕ
  sectors : ℕ
  heads_pos : 0 < heads
  heads_le : heads ≤ 255
  sectors_pos : 0 < sectors
  sectors_le : sectors ≤ 63

/-- The sectors of a cylinder. -/
def Geometry.cyl (g : Geometry) : ℕ := g.heads * g.sectors

/-- `struct partinfo`. The size is in kilobytes. -/
structure PartInfo where
  size : ℕ
  type : ℤ

/-- `unsigned char chs[3]`. -/
structure Chs where
  first : BitVec 8
  second : BitVec 8
  third : BitVec 8

/-- `struct pte`. -/
structure Pte where
  active : ℕ
  chsStart : Chs
  type : BitVec 8
  chsEnd : Chs
  start : ℕ
  length : ℕ

/-! ## The generator -/

/-- A value in a signed type of `w` bits. -/
def signed (w : ℕ) (x : ℤ) : ℤ := x.bmod (2 ^ w)

/-- A value in an unsigned type of `w` bits. -/
def unsigned (w : ℕ) (x : ℤ) : ℤ := x % 2 ^ w

/-- `to_chs`. -/
def toChs (g : Geometry) (sect : ℤ) : Chs :=
  let s := BitVec.ofInt 32 (sect.tmod g.sectors + 1)
  let sect := sect.tdiv g.sectors
  let h := BitVec.ofInt 32 (sect.tmod g.heads)
  let c := BitVec.ofInt 32 (sect.tdiv g.heads)
  ⟨h.setWidth 8, (s ||| ((c.sshiftRight 2) &&& 0xC0#32)).setWidth 8, (c &&& 0xFF#32).setWidth 8⟩

/-- `round_to_cyl`, where a `long` has `w` bits. -/
def roundToCyl (w : ℕ) (g : Geometry) (sect : ℤ) : ℤ :=
  unsigned w (sect + g.cyl - sect.tmod g.cyl)

/-- The loop of `gen_ptable` from partition `i` on. -/
def genPtable (w : ℕ) (g : Geometry) (active : ℤ) : List PartInfo → ℕ → ℤ → Option (List Pte)
  | [], _, _ => some []
  | p :: parts, i, sect =>
    if p.size = 0 then none
    else
      let start := signed 32 (unsigned w (sect + g.sectors))
      let sect := roundToCyl w g (signed w (unsigned w (start + p.size * 2)))
      let len := signed 32 (unsigned w (sect - start))
      (genPtable w g active parts (i + 1) sect).map fun entries =>
        { active := if (i : ℤ) + 1 = active then 0x80 else 0
          type := BitVec.ofInt 8 p.type
          start := (unsigned 32 start).toNat
          length := (unsigned 32 len).toNat
          chsStart := toChs g start
          chsEnd := toChs g (signed 32 (start + len - 1)) } :: entries

/-! ## What a table is for -/

/-- The sector behind an entry. -/
def Pte.stop (e : Pte) : ℕ := e.start + e.length

/-- The sector that three bytes name. -/
def decodeChs (g : Geometry) (chs : Chs) : ℕ :=
  let c := (chs.second &&& 0xC0#8).toNat * 4 + chs.third.toNat
  let s := (chs.second &&& 0x3F#8).toNat
  (c * g.heads + chs.first.toNat) * g.sectors + s - 1

/-- A table for these partitions. -/
structure Partitioned (g : Geometry) (parts : List PartInfo) (entries : List Pte) : Prop where
  count : entries.length = parts.length
  room : ∀ (i : ℕ) (p : PartInfo) (e : Pte), parts[i]? = some p → entries[i]? = some e →
    2 * p.size ≤ e.length
  cylinder : ∀ e ∈ entries, g.cyl ∣ e.stop
  next : ∀ (i : ℕ) (e e' : Pte), entries[i]? = some e → entries[i + 1]? = some e' →
    e'.start = e.stop + g.sectors
  apart : entries.Pairwise fun e e' => e.stop ≤ e'.start
  chsStart : ∀ e ∈ entries, e.start / g.cyl < 1024 → decodeChs g e.chsStart = e.start
  chsEnd : ∀ e ∈ entries, (e.stop - 1) / g.cyl < 1024 → decodeChs g e.chsEnd = e.stop - 1

/-- The end of the first cylinder that ends behind a sector. -/
def Geometry.nextCyl (g : Geometry) (sect : ℕ) : ℕ := (sect / g.cyl + 1) * g.cyl

/-- Where the last partition ends, with a track in front of each and the rounding to cylinders. -/
def tableEnd (g : Geometry) (sect : ℕ) : List PartInfo → ℕ
  | [] => sect
  | p :: parts => tableEnd g (g.nextCyl (sect + g.sectors + 2 * p.size)) parts

/-! ## Sectors as bytes -/

section
variable {g : Geometry}

theorem Geometry.cyl_pos (g : Geometry) : 0 < g.cyl := Nat.mul_pos g.heads_pos g.sectors_pos

theorem cylinder_bits : ∀ c < 1024,
    (BitVec.ofNat 32 c).sshiftRight 2 &&& 0xC0#32 = BitVec.ofNat 32 (64 * (c / 256)) ∧
      ((BitVec.ofNat 32 c &&& 0xFF#32).setWidth 8).toNat = c % 256 := by decide +kernel

theorem sector_bits : ∀ s < 64, ∀ k < 4,
    let b := (BitVec.ofNat 32 s ||| BitVec.ofNat 32 (64 * k)).setWidth 8
    (b &&& 0xC0#8).toNat = 64 * k ∧ (b &&& 0x3F#8).toNat = s := by decide +kernel

/-- A sector of the first 1024 cylinders is named by its bytes. -/
theorem decodeChs_toChs (g : Geometry) (n : ℕ) (h : n / g.cyl < 1024) :
    decodeChs g (toChs g n) = n := by
  have hdiv : n / g.cyl = n / g.sectors / g.heads := by
    rw [Geometry.cyl, Nat.mul_comm, Nat.div_div_eq_div_mul]
  rw [hdiv] at h
  have hs := Nat.mod_lt n g.sectors_pos
  have hh := Nat.mod_lt (n / g.sectors) g.heads_pos
  have hsectors := g.sectors_le
  have hheads := g.heads_le
  obtain ⟨hhigh, hlow⟩ := cylinder_bits _ h
  obtain ⟨hc, hsect⟩ := sector_bits (n % g.sectors + 1) (by omega) (n / g.sectors / g.heads / 256)
    (by omega)
  have hsplit : n = (n / g.sectors) * g.sectors + n % g.sectors := by
    rw [Nat.mul_comm]
    exact (Nat.div_add_mod n g.sectors).symm
  have hsplit' : n / g.sectors = n / g.sectors / g.heads * g.heads + n / g.sectors % g.heads := by
    rw [Nat.mul_comm]
    exact (Nat.div_add_mod _ _).symm
  have hhead : ((BitVec.ofNat 32 (n / g.sectors % g.heads)).setWidth 8).toNat =
      n / g.sectors % g.heads := by
    rw [BitVec.toNat_setWidth, BitVec.toNat_ofNat]
    omega
  have hbytes : toChs g n = ⟨(BitVec.ofNat 32 (n / g.sectors % g.heads)).setWidth 8,
      (BitVec.ofNat 32 (n % g.sectors + 1) |||
        ((BitVec.ofNat 32 (n / g.sectors / g.heads)).sshiftRight 2 &&& 0xC0#32)).setWidth 8,
      (BitVec.ofNat 32 (n / g.sectors / g.heads) &&& 0xFF#32).setWidth 8⟩ := rfl
  have hcyl : 64 * (n / g.sectors / g.heads / 256) * 4 + n / g.sectors / g.heads % 256 =
      n / g.sectors / g.heads := by omega
  rw [hbytes, decodeChs, hhigh]
  dsimp only
  rw [hc, hsect, hlow, hhead, hcyl, ← hsplit', ← Nat.add_assoc, ← hsplit, Nat.add_sub_cancel]

/-! ## Entries without overflow -/

variable {w : ℕ}

theorem signed_eq {x : ℤ} (hw : 32 ≤ w) (h : 0 ≤ x) (hx : x < 2 ^ 31) : signed w x = x := by
  have hpow : (2 : ℤ) ^ 32 ≤ ((2 ^ w : ℕ) : ℤ) := by exact_mod_cast Nat.pow_le_pow_right (by decide) hw
  rw [signed]
  apply Int.bmod_eq_of_le <;> omega

theorem unsigned_eq {x : ℤ} (hw : 32 ≤ w) (h : 0 ≤ x) (hx : x < 2 ^ 31) : unsigned w x = x := by
  have hpow : (2 : ℤ) ^ 32 ≤ 2 ^ w := by exact_mod_cast Nat.pow_le_pow_right (by decide) hw
  exact Int.emod_eq_of_lt h (by omega)

theorem nextCyl_eq (g : Geometry) (n : ℕ) :
    (n : ℤ) + g.cyl - (n : ℤ).tmod g.cyl = (g.nextCyl n : ℕ) := by
  have hsplit := Nat.div_add_mod n g.cyl
  have hmod : (n : ℤ).tmod g.cyl = ((n % g.cyl : ℕ) : ℤ) := rfl
  have hnext : g.nextCyl n + n % g.cyl = n + g.cyl := by
    rw [Geometry.nextCyl, Nat.add_mul, Nat.one_mul, Nat.mul_comm]
    omega
  rw [hmod]
  omega

theorem Geometry.lt_nextCyl (g : Geometry) (n : ℕ) : n < g.nextCyl n := by
  have h := Nat.lt_mul_div_succ n g.cyl_pos
  rwa [Nat.mul_comm] at h

theorem Geometry.cyl_dvd_nextCyl (g : Geometry) (n : ℕ) : g.cyl ∣ g.nextCyl n :=
  Nat.dvd_mul_left g.cyl _

theorem le_tableEnd (g : Geometry) (sect : ℕ) (parts : List PartInfo) :
    sect ≤ tableEnd g sect parts := by
  induction parts generalizing sect with
  | nil => exact le_rfl
  | cons p parts ih =>
    have hnext := g.lt_nextCyl (sect + g.sectors + 2 * p.size)
    exact le_trans (by omega) (ih _)

/-- The entry for a partition behind a sector. -/
def entryAt (g : Geometry) (active : ℤ) (i sect : ℕ) (p : PartInfo) : Pte :=
  let start := sect + g.sectors
  let stop := g.nextCyl (start + 2 * p.size)
  { active := if (i : ℤ) + 1 = active then 0x80 else 0
    type := BitVec.ofInt 8 p.type
    start := start
    length := stop - start
    chsStart := toChs g start
    chsEnd := toChs g (stop - 1 : ℕ) }

theorem entryAt_stop (g : Geometry) (active : ℤ) (i sect : ℕ) (p : PartInfo) :
    (entryAt g active i sect p).stop = g.nextCyl (sect + g.sectors + 2 * p.size) := by
  have hnext := g.lt_nextCyl (sect + g.sectors + 2 * p.size)
  rw [Pte.stop, entryAt]
  dsimp only
  omega

/-- The entries for partitions behind a sector. -/
def placed (g : Geometry) (active : ℤ) : List PartInfo → ℕ → ℕ → List Pte
  | [], _, _ => []
  | p :: parts, i, sect =>
    entryAt g active i sect p ::
      placed g active parts (i + 1) (g.nextCyl (sect + g.sectors + 2 * p.size))

variable {active : ℤ} {parts : List PartInfo} {i sect : ℕ}

/-- The loop places the partitions, if the table ends before the first sector that an `int` does not
hold. -/
theorem genPtable_run (hw : 32 ≤ w) (hsizes : ∀ p ∈ parts, p.size ≠ 0)
    (hend : tableEnd g sect parts < 2 ^ 31) :
    genPtable w g active parts i sect = some (placed g active parts i sect) := by
  induction parts generalizing i sect with
  | nil => rfl
  | cons p parts ih =>
    have hp := hsizes p List.mem_cons_self
    have hrest := fun q hq => hsizes q (List.mem_cons_of_mem p hq)
    rw [tableEnd] at hend
    have hnext := g.lt_nextCyl (sect + g.sectors + 2 * p.size)
    have hlast := le_tableEnd g (g.nextCyl (sect + g.sectors + 2 * p.size)) parts
    have hsect : (sect : ℤ) + g.sectors = (sect + g.sectors : ℕ) := by push_cast; rfl
    have hstart : signed 32 (unsigned w (sect + g.sectors)) = (sect + g.sectors : ℕ) := by
      rw [hsect, unsigned_eq hw (by omega) (by omega), signed_eq le_rfl (by omega) (by omega)]
    have harg : signed w (unsigned w (((sect + g.sectors : ℕ) : ℤ) + p.size * 2)) =
        (sect + g.sectors + 2 * p.size : ℕ) := by
      have hsum : ((sect + g.sectors : ℕ) : ℤ) + p.size * 2 =
          (sect + g.sectors + 2 * p.size : ℕ) := by
        push_cast
        ring
      rw [hsum, unsigned_eq hw (by omega) (by omega), signed_eq hw (by omega) (by omega)]
    have hround : roundToCyl w g (sect + g.sectors + 2 * p.size : ℕ) =
        (g.nextCyl (sect + g.sectors + 2 * p.size) : ℕ) := by
      rw [roundToCyl, nextCyl_eq, unsigned_eq hw (by omega) (by omega)]
    have hlen : signed 32 (unsigned w ((g.nextCyl (sect + g.sectors + 2 * p.size) : ℤ) -
        (sect + g.sectors : ℕ))) =
          (g.nextCyl (sect + g.sectors + 2 * p.size) - (sect + g.sectors) : ℕ) := by
      have hsub : (g.nextCyl (sect + g.sectors + 2 * p.size) : ℤ) - (sect + g.sectors : ℕ) =
          (g.nextCyl (sect + g.sectors + 2 * p.size) - (sect + g.sectors) : ℕ) := by omega
      rw [hsub, unsigned_eq hw (by omega) (by omega), signed_eq le_rfl (by omega) (by omega)]
    have hstop : signed 32 (((sect + g.sectors : ℕ) : ℤ) +
        (g.nextCyl (sect + g.sectors + 2 * p.size) - (sect + g.sectors) : ℕ) - 1) =
          (g.nextCyl (sect + g.sectors + 2 * p.size) - 1 : ℕ) := by
      have hsum : ((sect + g.sectors : ℕ) : ℤ) +
          (g.nextCyl (sect + g.sectors + 2 * p.size) - (sect + g.sectors) : ℕ) - 1 =
            (g.nextCyl (sect + g.sectors + 2 * p.size) - 1 : ℕ) := by omega
      rw [hsum, signed_eq le_rfl (by omega) (by omega)]
    rw [genPtable, if_neg hp]
    dsimp only
    rw [hstart, harg, hround, hlen, hstop, ih hrest hend,
      unsigned_eq le_rfl (by omega) (by omega), unsigned_eq le_rfl (by omega) (by omega)]
    rfl

theorem placed_head {e : Pte} (h : (placed g active parts i sect)[0]? = some e) :
    e.start = sect + g.sectors := by
  cases parts with
  | nil => cases h
  | cons p parts =>
    cases h
    rfl

theorem le_start_of_mem_placed {e : Pte} (h : e ∈ placed g active parts i sect) :
    sect ≤ e.start := by
  induction parts generalizing i sect with
  | nil => cases h
  | cons p parts ih =>
    rcases List.mem_cons.mp h with rfl | h
    · exact Nat.le_add_right sect g.sectors
    · have hnext := g.lt_nextCyl (sect + g.sectors + 2 * p.size)
      have hle := ih h
      omega

theorem placed_partitioned : Partitioned g parts (placed g active parts i sect) := by
  induction parts generalizing i sect with
  | nil =>
    constructor <;> simp [placed]
  | cons p parts ih =>
    have hrest := @ih (i + 1) (g.nextCyl (sect + g.sectors + 2 * p.size))
    have hstop := entryAt_stop g active i sect p
    have hnext := g.lt_nextCyl (sect + g.sectors + 2 * p.size)
    rw [placed]
    constructor
    · rw [List.length_cons, hrest.count, List.length_cons]
    · intro j q e hq he
      cases j with
      | zero =>
        cases hq
        cases he
        rw [entryAt]
        dsimp only
        omega
      | succ j => exact hrest.room j q e hq he
    · intro e he
      rcases List.mem_cons.mp he with rfl | he
      · rw [hstop]
        exact g.cyl_dvd_nextCyl _
      · exact hrest.cylinder e he
    · intro j e e' he he'
      cases j with
      | zero =>
        cases he
        rw [hstop]
        exact placed_head he'
      | succ j => exact hrest.next j e e' he he'
    · rw [List.pairwise_cons]
      refine ⟨fun e he => ?_, hrest.apart⟩
      rw [hstop]
      exact le_start_of_mem_placed he
    · intro e he hlow
      rcases List.mem_cons.mp he with rfl | he
      · exact decodeChs_toChs g _ hlow
      · exact hrest.chsStart e he hlow
    · intro e he hlow
      rcases List.mem_cons.mp he with rfl | he
      · rw [hstop] at hlow ⊢
        exact decodeChs_toChs g _ hlow
      · exact hrest.chsEnd e he hlow

end

/-- The generated entries make a table for the partitions, if the table ends before sector 2³¹. -/
theorem genPtable_partitioned (w : ℕ) (hw : 32 ≤ w) (g : Geometry) (active : ℤ)
    (parts : List PartInfo) (hsizes : ∀ p ∈ parts, p.size ≠ 0)
    (hend : tableEnd g 0 parts < 2 ^ 31) :
    ∃ entries, genPtable w g active parts 0 0 = some entries ∧ Partitioned g parts entries :=
  ⟨_, genPtable_run hw hsizes hend, placed_partitioned⟩

theorem geometry_disk : 0 < 16 ∧ 16 ≤ 255 ∧ 0 < 63 ∧ 63 ≤ 63 := by decide

/-- A disk with 16 heads and 63 sectors on a track. -/
def disk : Geometry :=
  ⟨16, 63, geometry_disk.1, geometry_disk.2.1, geometry_disk.2.2.1, geometry_disk.2.2.2⟩

theorem genPtable_disk : ∃ entries,
    genPtable 64 disk 1 [⟨4096, 0x83⟩, ⟨49152, 0x83⟩] 0 0 = some entries ∧
      Partitioned disk [⟨4096, 0x83⟩, ⟨49152, 0x83⟩] entries :=
  genPtable_partitioned 64 (by decide) disk 1 [⟨4096, 0x83⟩, ⟨49152, 0x83⟩] (by decide)
    (by decide +kernel)

/-- Two partitions of 2³¹ - 2 sectors together: the second starts behind the sectors that an `int`
holds, and does not end where a cylinder ends. -/
theorem genPtable_overflows : 2 * (2 ^ 30 - 2) + 2 * 1 < 2 ^ 31 ∧
    ¬ ∃ entries, genPtable 64 disk 1 [⟨2 ^ 30 - 2, 0x83⟩, ⟨1, 0x83⟩] 0 0 = some entries ∧
      Partitioned disk [⟨2 ^ 30 - 2, 0x83⟩, ⟨1, 0x83⟩] entries := by
  refine ⟨by decide, ?_⟩
  rintro ⟨entries, hrun, htable⟩
  have hstops : (genPtable 64 disk 1 [⟨2 ^ 30 - 2, 0x83⟩, ⟨1, 0x83⟩] 0 0).map
      (fun entries => entries.all fun e => e.stop % disk.cyl = 0) = some false := by decide +kernel
  rw [hrun, Option.map_some, Option.some.injEq, List.all_eq_false] at hstops
  obtain ⟨e, he, hstop⟩ := hstops
  exact hstop (decide_eq_true (Nat.mod_eq_zero_of_dvd (htable.cylinder e he)))

end EzpFirmware.FirmwareUtils
