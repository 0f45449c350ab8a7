import EzpFirmware.Lib.Flash
import EzpFirmware.Lib.Streams
import Mathlib.Tactic.IntervalCases

/-! # Writing an image to flash

The command `mtd write` reads the image piece by piece, erases blocks until they
reach past what has been read, and programs the piece. What the system answers is
left open: a call may fail, and a read or a write may move less than was asked
for. The counts are unsigned, and the results of the calls are signed.
-/
namespace EzpFirmware.Mtd
open Lib

/-- `BUFSIZE`. -/
def BUFSIZE : ℕ := 16 * 1024

/-- The number of values of a `size_t` of the 32-bit targets. -/
def SIZE_T : ℕ := 2 ^ 32

/-- A signed result, converted to `size_t`. -/
def toSize (result : ℤ) : ℕ := (result % SIZE_T).toNat

/-- The fields of `mtd_info_user` that the command uses. -/
structure MtdInfo where
  size : ℕ
  erasesize : ℕ

/-- The system's answers, by the turn in which it is asked: whether `open` and `ioctl`
succeed, and how much a read or a write moves, if it does not fail. -/
structure Answers where
  opens : ℕ → Bool
  ioctl : ℕ → Bool
  read : ℕ → Option ℕ
  write : ℕ → Option ℕ

/-- The places in `mtd_write` where it asks the system, and its two ends. -/
inductive Place where
  | opening
  | asking
  | reading
  | erasing (r : ℕ)
  | writing (r : ℕ)
  | returned (ret : ℕ)
  | exited (code : ℕ)
  deriving DecidableEq

/-- The state of a run: the buffer and how much of it is in use, what is left of the image
file, the counts `w` and `e`, the device and its file position. -/
structure Writer where
  place : Place
  buf : List UInt8
  buflen : ℕ
  rest : List UInt8
  w : ℕ
  e : ℕ
  pos : ℕ
  flash : Flash

variable (ans : Answers) (info : MtdInfo) (turn : ℕ)

/-- The result of the read into the free part of the buffer. -/
def Writer.readResult (s : Writer) : ℤ :=
  match ans.read turn with
  | none => -1
  | some want => readLen (BUFSIZE - s.buflen) want s.rest.length

/-- The result of writing `r` bytes. The device takes nothing beyond its end, and a size that
is negative as a signed number is refused. -/
def Writer.writeResult (s : Writer) (r : ℕ) : ℤ :=
  match ans.write turn with
  | none => -1
  | some want => if SIZE_T / 2 ≤ r then -1 else (min want (min r (info.size - s.pos)) : ℕ)

/-- One read, at the head of the loop. -/
def Writer.readPiece (s : Writer) : Writer :=
  let n := (s.readResult ans turn).toNat
  let r := (s.buflen + toSize (s.readResult ans turn)) % SIZE_T
  { s with
    place := if r = 0 then .returned 0 else .erasing r
    buf := poke s.buf s.buflen (s.rest.take n)
    rest := s.rest.drop n
    w := (s.w + r) % SIZE_T }

/-- One turn of the loop that erases. The device erases nothing beyond its end. -/
def Writer.eraseBlock (s : Writer) (r : ℕ) : Writer :=
  if s.e < s.w then
    if ans.ioctl turn ∧ s.e + info.erasesize ≤ info.size then
      { s with
        flash := s.flash.erase s.e info.erasesize
        e := (s.e + info.erasesize) % SIZE_T }
    else { s with place := .exited 1 }
  else { s with place := .writing r }

/-- The write, and the check of its result. -/
def Writer.writePiece (s : Writer) (r : ℕ) : Writer :=
  let result := s.writeResult ans info turn r
  let s' := { s with
    flash := s.flash.program s.pos (s.buf.take result.toNat)
    pos := s.pos + result.toNat }
  if toSize result < r then { s' with place := .exited 1 }
  else { s' with place := .reading, buflen := 0 }

/-- One turn of `mtd_write`: from one call of the system to the next. -/
def Writer.step (s : Writer) : Writer :=
  match s.place with
  | .opening => { s with place := if ans.opens turn then .asking else .exited 1 }
  | .asking => { s with place := if ans.ioctl turn then .reading else .exited 1, w := 0, e := 0 }
  | .reading => s.readPiece ans turn
  | .erasing r => s.eraseBlock ans info turn r
  | .writing r => s.writePiece ans info turn r
  | .returned _ => s
  | .exited _ => s

/-- A number of turns. -/
def Writer.run (s : Writer) (turn : ℕ) : ℕ → Writer
  | 0 => s
  | n + 1 => (s.step ans info turn).run (turn + 1) n

/-- The buffer as the check of the image leaves it. -/
structure Prefilled where
  buf : List UInt8
  buflen : ℕ
  length_buf : buf.length = BUFSIZE
  buflen_le : buflen ≤ BUFSIZE

/-- `mtd_write` at its start: the rest of the image file, and a device with any contents. -/
def mtdWrite (pre : Prefilled) (imagefd : List UInt8) (mem : ℕ → UInt8) : Writer :=
  ⟨.opening, pre.buf, pre.buflen, imagefd, 0, 0, 0, ⟨mem, []⟩⟩

/-- The image: what is in the buffer already, and the rest of the file. -/
def Prefilled.image (pre : Prefilled) (imagefd : List UInt8) : List UInt8 :=
  pre.buf.take pre.buflen ++ imagefd

/-- The system answers a turn with a count: no read and no write fails. -/
def Writer.Answered (s : Writer) : Prop :=
  match s.place with
  | .reading => 0 ≤ s.readResult ans turn
  | .writing r => 0 ≤ s.writeResult ans info turn r
  | _ => True

/-- The device carries the image as far as its file position. -/
structure Writer.Fits (image : List UInt8) (s : Writer) : Prop where
  filled : s.flash.Filled s.pos s.e
  e_le : s.e ≤ info.size
  held : bytesAt s.flash.mem 0 s.pos = image.take s.pos
  length_buf : s.buf.length = BUFSIZE

/-- A piece of `r` bytes is in the buffer, and the rest of the image in the file. -/
structure Writer.Pending (image : List UInt8) (r : ℕ) (s : Writer) : Prop extends
    Writer.Fits info image s where
  le_buf : r ≤ BUFSIZE
  ahead : image.drop s.pos = s.buf.take r ++ s.rest

/-- What holds in each place of a run without failing reads and writes. -/
def Writer.Inv (image : List UInt8) (s : Writer) : Prop :=
  match s.place with
  | .opening | .asking => s.Pending info image s.buflen ∧ s.pos = 0 ∧ s.e = 0
  | .reading => s.Pending info image s.buflen ∧ s.w = s.pos
  | .erasing r => s.Pending info image r ∧ 0 < r ∧ s.w = (s.pos + r) % SIZE_T
  | .writing r => s.Pending info image r ∧ 0 < r ∧ s.w = (s.pos + r) % SIZE_T ∧ s.w ≤ s.e
  | .returned ret => s.Fits info image ∧ ret = 0 ∧ s.pos = image.length
  | .exited code => Careful s.flash.ops ∧ code = 1

variable {ans : Answers} {info : MtdInfo} {turn : ℕ} {image : List UInt8} {s : Writer}

theorem toSize_natCast (n : ℕ) : toSize n = n % SIZE_T := by
  rw [toSize]
  norm_cast

/-- A read that does not fail gives what it hands out. -/
theorem Writer.readResult_eq (h : 0 ≤ s.readResult ans turn) :
    ∃ want, s.readResult ans turn = readLen (BUFSIZE - s.buflen) want s.rest.length := by
  rw [readResult] at h ⊢
  cases hread : ans.read turn with
  | none => simp [hread] at h
  | some want => exact ⟨want, rfl⟩

/-- A write that does not fail gives what the device takes. -/
theorem Writer.writeResult_eq {r : ℕ} (h : 0 ≤ s.writeResult ans info turn r) :
    ∃ want, s.writeResult ans info turn r = (min want (min r (info.size - s.pos)) : ℕ) := by
  rw [writeResult] at h ⊢
  cases hwrite : ans.write turn with
  | none => simp [hwrite] at h
  | some want =>
    by_cases hbig : SIZE_T / 2 ≤ r
    · simp [hwrite, hbig] at h
    · exact ⟨want, if_neg hbig⟩

theorem Writer.Fits.pos_le (h : s.Fits info image) : s.pos ≤ image.length := by
  have hlen := congrArg List.length h.held
  rw [bytesAt_length, List.length_take] at hlen
  omega

/-- The step of `reading`. -/
theorem Writer.Inv.readPiece (h : s.Pending info image s.buflen) (hw : s.w = s.pos)
    (hans : 0 ≤ s.readResult ans turn) : (s.readPiece ans turn).Inv info image := by
  obtain ⟨want, hresult⟩ := readResult_eq hans
  set n := readLen (BUFSIZE - s.buflen) want s.rest.length with hn
  have hcount : n ≤ BUFSIZE - s.buflen := readLen_le_count _ _ _
  have havail : n ≤ s.rest.length := readLen_le_avail _ _ _
  have hbuf := h.le_buf
  have hr : (s.buflen + toSize n) % SIZE_T = s.buflen + n := by
    have hbound : s.buflen + n < SIZE_T := by
      rw [BUFSIZE, SIZE_T] at *
      omega
    rw [toSize_natCast, Nat.add_mod_mod, Nat.mod_eq_of_lt hbound]
  have hlen : (s.rest.take n).length = n := List.length_take_of_le havail
  have hpoke : (poke s.buf s.buflen (s.rest.take n)).take (s.buflen + n) =
      s.buf.take s.buflen ++ s.rest.take n := by
    have htake := take_poke (s.rest.take n) (h.length_buf ▸ hbuf)
    rwa [hlen] at htake
  have hpending : (s.readPiece ans turn).Pending info image (s.buflen + n) := by
    refine ⟨⟨h.filled, h.e_le, h.held, ?_⟩, by omega, ?_⟩
    · rw [Writer.readPiece, hresult, Int.toNat_natCast, poke_length, h.length_buf]
      rw [hlen, h.length_buf]
      omega
    · simp only [Writer.readPiece, hresult, Int.toNat_natCast]
      rw [hpoke, List.append_assoc, List.take_append_drop, h.ahead]
  by_cases hzero : s.buflen + n = 0
  · have hend : (s.readPiece ans turn).place = .returned 0 := by
      simp [Writer.readPiece, hresult, hr, hzero]
    have hnil : s.rest = [] := by
      have hread : readLen (BUFSIZE - s.buflen) want s.rest.length = 0 := by omega
      rcases readLen_eq_zero.mp hread with hfull | hempty
      · rw [BUFSIZE] at hfull
        omega
      · exact List.eq_nil_of_length_eq_zero hempty
    have hover : image.drop s.pos = [] := by
      have hbuflen : s.buflen = 0 := by omega
      rw [h.ahead, hnil, hbuflen]
      rfl
    rw [Inv, hend]
    refine ⟨hpending.toFits, rfl, ?_⟩
    have hle := h.pos_le
    have hge := List.drop_eq_nil_iff.mp hover
    exact Nat.le_antisymm hle hge
  · have hgo : (s.readPiece ans turn).place = .erasing (s.buflen + n) := by
      simp only [Writer.readPiece, hresult, hr, hzero, if_false]
    rw [Inv, hgo]
    refine ⟨hpending, Nat.pos_of_ne_zero hzero, ?_⟩
    simp [Writer.readPiece, hresult, hr, hw]

/-- The step of `erasing`. -/
theorem Writer.Inv.eraseBlock (hsize : info.size + BUFSIZE ≤ SIZE_T) {r : ℕ}
    (hplace : s.place = .erasing r) (h : s.Pending info image r) (hr : 0 < r)
    (hw : s.w = (s.pos + r) % SIZE_T) : (s.eraseBlock ans info turn r).Inv info image := by
  rw [Writer.eraseBlock]
  split_ifs with hlt hok
  · have he : (s.e + info.erasesize) % SIZE_T = s.e + info.erasesize := by
      apply Nat.mod_eq_of_lt
      rw [BUFSIZE] at hsize
      omega
    rw [Inv, hplace]
    refine ⟨⟨⟨?_, ?_, ?_, h.length_buf⟩, h.le_buf, h.ahead⟩, hr, hw⟩
    · simp only [he]
      exact h.filled.erase info.erasesize
    · simp only [he]
      exact hok.2
    · exact (h.filled.bytesAt_erase info.erasesize).trans h.held
  · exact ⟨h.filled.careful, rfl⟩
  · have hfits : Fits info image { s with place := .writing r } :=
      ⟨h.filled, h.e_le, h.held, h.length_buf⟩
    exact ⟨⟨hfits, h.le_buf, h.ahead⟩, hr, hw, Nat.le_of_not_lt hlt⟩

/-- The step of `writing`. -/
theorem Writer.Inv.writePiece (hsize : info.size + BUFSIZE ≤ SIZE_T) {r : ℕ}
    (h : s.Pending info image r) (hr : 0 < r) (hw : s.w = (s.pos + r) % SIZE_T)
    (he : s.w ≤ s.e) (hans : 0 ≤ s.writeResult ans info turn r) :
    (s.writePiece ans info turn r).Inv info image := by
  obtain ⟨want, hresult⟩ := writeResult_eq hans
  set n := min want (min r (info.size - s.pos)) with hn
  have hbuf := h.le_buf
  have hposle := h.filled.le
  have hele := h.e_le
  have hlen : (s.buf.take n).length = n := by
    rw [List.length_take, h.length_buf]
    omega
  -- a count that has wrapped stands behind the end of the device, which then takes nothing
  have hroom : s.pos + n ≤ s.e := by
    by_cases hwrap : s.pos + r < SIZE_T
    · rw [Nat.mod_eq_of_lt hwrap] at hw
      omega
    · omega
  have hfilled := h.filled.program (hlen.symm ▸ hroom)
  rw [hlen] at hfilled
  have hsizeT : toSize n = n := by
    rw [toSize_natCast]
    apply Nat.mod_eq_of_lt
    rw [BUFSIZE, SIZE_T] at *
    omega
  rw [Writer.writePiece]
  simp only [hresult, Int.toNat_natCast, hsizeT]
  split_ifs with hshort
  · exact ⟨hfilled.careful, rfl⟩
  · have hall : n = r := by omega
    have hnext : s.pos + n < SIZE_T := by
      rw [BUFSIZE] at *
      omega
    have hheld := h.filled.bytesAt_program (hlen.symm ▸ hroom)
    rw [hlen, h.held, hall] at hheld
    refine ⟨⟨⟨hfilled, hele, ?_, h.length_buf⟩, Nat.zero_le _, ?_⟩, ?_⟩
    · simp only [hall]
      rw [hheld, List.take_add, h.ahead, List.take_append_of_le_length]
      · rw [List.take_take, Nat.min_self]
      · rw [← hall, hlen]
    · simp only [hall]
      rw [← List.drop_drop, h.ahead, List.take_zero, List.nil_append]
      apply List.drop_left'
      rw [← hall, hlen]
    · simp only [hw, hall]
      rw [← hall, Nat.mod_eq_of_lt hnext]

/-- One turn keeps the invariant if the system answers it. -/
theorem Writer.Inv.step (hsize : info.size + BUFSIZE ≤ SIZE_T) (h : s.Inv info image)
    (hans : s.Answered ans info turn) : (s.step ans info turn).Inv info image := by
  rw [Inv] at h
  rw [Answered] at hans
  rw [Writer.step]
  cases hplace : s.place with
  | opening =>
    rw [hplace] at h
    obtain ⟨hp, hpos, he⟩ := h
    by_cases hok : ans.opens turn
    · simp only [hok, if_true]
      exact ⟨⟨⟨hp.filled, hp.e_le, hp.held, hp.length_buf⟩, hp.le_buf, hp.ahead⟩, hpos, he⟩
    · simp only [hok]
      exact ⟨hp.filled.careful, rfl⟩
  | asking =>
    rw [hplace] at h
    obtain ⟨hp, hpos, he⟩ := h
    have hfilled := hp.filled
    rw [he] at hfilled
    by_cases hok : ans.ioctl turn
    · simp only [hok, if_true]
      exact ⟨⟨⟨hfilled, Nat.zero_le _, hp.held, hp.length_buf⟩, hp.le_buf, hp.ahead⟩, hpos.symm⟩
    · simp only [hok]
      exact ⟨hp.filled.careful, rfl⟩
  | reading =>
    rw [hplace] at h hans
    exact Inv.readPiece h.1 h.2 hans
  | erasing r =>
    rw [hplace] at h
    exact Inv.eraseBlock hsize hplace h.1 h.2.1 h.2.2
  | writing r =>
    rw [hplace] at h hans
    exact Inv.writePiece hsize h.1 h.2.1 h.2.2.1 h.2.2.2 hans
  | returned ret =>
    rw [hplace] at h
    simp only [Inv, hplace]
    exact h
  | exited code =>
    rw [hplace] at h
    simp only [Inv, hplace]
    exact h

/-- A run keeps the invariant as long as the system answers. -/
theorem Writer.Inv.run (hsize : info.size + BUFSIZE ≤ SIZE_T) (n : ℕ) (h : s.Inv info image)
    (hans : ∀ m < n, (s.run ans info turn m).Answered ans info (turn + m)) :
    (s.run ans info turn n).Inv info image := by
  induction n generalizing s turn with
  | zero => exact h
  | succ n ih =>
    have hstep : (s.step ans info turn).Inv info image := h.step hsize (hans 0 (by omega))
    apply ih hstep
    intro m hm
    have hnext := hans (m + 1) (by omega)
    rwa [Nat.add_assoc, Nat.add_comm 1 m]

/-- The function returns or exits. -/
def Writer.Ended (s : Writer) : Prop :=
  s.place = .returned 0 ∨ s.place = .exited 1

/-- What the invariant says at the ends of the function. -/
theorem Writer.Inv.careful (h : s.Inv info image) : Careful s.flash.ops := by
  rw [Inv] at h
  split at h
  · exact h.1.filled.careful
  · exact h.1.filled.careful
  · exact h.1.filled.careful
  · exact h.1.filled.careful
  · exact h.1.filled.careful
  · exact h.1.filled.careful
  · exact h.1

theorem Writer.Inv.returned (h : s.Inv info image) {ret : ℕ} (hplace : s.place = .returned ret) :
    bytesAt s.flash.mem 0 image.length = image := by
  rw [Inv, hplace] at h
  rw [← h.2.2, h.1.held, h.2.2, List.take_length]

/-- From here on the system answers every turn. -/
def Writer.AlwaysAnswered (ans : Answers) (info : MtdInfo) (turn : ℕ) (s : Writer) : Prop :=
  ∀ m, (s.run ans info turn m).Answered ans info (turn + m)

/-- Some number of turns leads to an end. -/
def Writer.Ends (ans : Answers) (info : MtdInfo) (turn : ℕ) (s : Writer) : Prop :=
  ∃ n, (s.run ans info turn n).Ended

theorem Writer.AlwaysAnswered.now (h : s.AlwaysAnswered ans info turn) :
    s.Answered ans info turn := h 0

theorem Writer.AlwaysAnswered.step (h : s.AlwaysAnswered ans info turn) :
    (s.step ans info turn).AlwaysAnswered ans info (turn + 1) := by
  intro m
  have hnext := h (m + 1)
  rwa [Nat.add_assoc, Nat.add_comm 1 m]

theorem Writer.Ends.of_step (h : (s.step ans info turn).Ends ans info (turn + 1)) :
    s.Ends ans info turn := by
  obtain ⟨n, hn⟩ := h
  exact ⟨n + 1, hn⟩

theorem Writer.Ends.of_ended (h : s.Ended) : s.Ends ans info turn := ⟨0, h⟩

/-- A state from which every answered run that keeps the invariant ends. -/
def Writer.Settles (ans : Answers) (info : MtdInfo) (image : List UInt8) (s : Writer) : Prop :=
  ∀ turn, s.Inv info image → s.AlwaysAnswered ans info turn → s.Ends ans info turn

section Termination

variable (hsize : info.size + BUFSIZE ≤ SIZE_T)
include hsize

/-- A state settles if each next one does. -/
theorem Writer.Settles.of_step
    (h : ∀ turn, s.Inv info image → s.Answered ans info turn →
      (s.step ans info turn).Ended ∨ (s.step ans info turn).Settles ans info image) :
    s.Settles ans info image := by
  intro turn hinv hans
  apply Ends.of_step
  rcases h turn hinv hans.now with hend | hsettles
  · exact Ends.of_ended hend
  · exact hsettles (turn + 1) (hinv.step hsize hans.now) hans.step

/-- The loop that erases comes to the write: each block leaves less of the device. -/
theorem Writer.Settles.erasing (herase : 0 < info.erasesize) {r : ℕ} (hplace : s.place = .erasing r)
    (hthen : ∀ s' : Writer, s'.place = .writing r → s'.rest = s.rest →
      s'.Settles ans info image) : s.Settles ans info image := by
  induction hleft : info.size - s.e using Nat.strong_induction_on generalizing s with
  | _ left ih =>
    apply Settles.of_step hsize
    intro turn hinv _
    simp only [Writer.step, hplace, Writer.eraseBlock]
    split_ifs with hlt hok
    · have he : (s.e + info.erasesize) % SIZE_T = s.e + info.erasesize := by
        apply Nat.mod_eq_of_lt
        rw [BUFSIZE] at hsize
        omega
      simp only [he]
      right
      exact ih (info.size - (s.e + info.erasesize)) (by omega) rfl hthen rfl
    · exact Or.inl (Or.inr rfl)
    · exact Or.inr (hthen _ rfl rfl)

/-- What is still to be read or written at the head of the loop. -/
def Writer.load (s : Writer) : ℕ := s.rest.length + min s.buflen 1

/-- The loop comes to an end: each round takes something from the file or empties the buffer. -/
theorem Writer.Settles.reading (herase : 0 < info.erasesize) (hplace : s.place = .reading) :
    s.Settles ans info image := by
  induction hload : s.load using Nat.strong_induction_on generalizing s with
  | _ load ih =>
    apply Settles.of_step hsize
    intro turn hinv hans
    rw [Writer.Answered, hplace] at hans
    obtain ⟨want, hresult⟩ := readResult_eq hans
    have havail := readLen_le_avail (BUFSIZE - s.buflen) want s.rest.length
    set n := readLen (BUFSIZE - s.buflen) want s.rest.length with hn
    rw [Writer.step, hplace]
    by_cases hzero : (s.buflen + toSize n) % SIZE_T = 0
    · left
      left
      simp [Writer.readPiece, hresult, hzero]
    · right
      have hnext : (s.readPiece ans turn).place = .erasing ((s.buflen + toSize n) % SIZE_T) := by
        simp only [Writer.readPiece, hresult, hzero, if_false]
      have hless : (s.readPiece ans turn).rest.length < load := by
        have hpos : 0 < s.buflen + n := by
          by_contra hnone
          have hsum : s.buflen = 0 ∧ n = 0 := by omega
          rw [hsum.1, hsum.2] at hzero
          exact hzero rfl
        simp only [Writer.readPiece, hresult, Int.toNat_natCast, List.length_drop]
        rw [Writer.load] at hload
        omega
      apply Settles.erasing hsize herase hnext
      intro s' hwriting hrest
      apply Settles.of_step hsize
      intro turn' _ _
      simp only [Writer.step, hwriting, Writer.writePiece]
      split_ifs with hshort
      · exact Or.inl (Or.inr rfl)
      · right
        apply ih s'.rest.length
        · rwa [hrest]
        · rfl
        · simp [Writer.load]

/-- Every answered run of the function ends. -/
theorem Writer.Settles.opening (herase : 0 < info.erasesize) (hplace : s.place = .opening) :
    s.Settles ans info image := by
  apply Settles.of_step hsize
  intro turn _ _
  simp only [Writer.step, hplace]
  split_ifs with hopens
  · right
    apply Settles.of_step hsize
    intro turn' _ _
    simp only [Writer.step]
    split_ifs with hioctl
    · exact Or.inr (Settles.reading hsize herase rfl)
    · exact Or.inl (Or.inr rfl)
  · exact Or.inl (Or.inr rfl)

end Termination

/-- The invariant at the start of the function. -/
theorem mtdWrite_inv (pre : Prefilled) (imagefd : List UInt8) (mem : ℕ → UInt8) :
    (mtdWrite pre imagefd mem).Inv info (pre.image imagefd) := by
  refine ⟨⟨⟨Flash.filled_new mem, Nat.zero_le _, rfl, pre.length_buf⟩, pre.buflen_le, ?_⟩, rfl, rfl⟩
  rfl

/-- In a run in which no read and no write fails, every byte is programmed once and after its
block was erased; the function comes to an end, and it returns only if the device carries the
image, otherwise it exits with an error. -/
theorem mtdWrite_programs (pre : Prefilled) (imagefd : List UInt8) (mem : ℕ → UInt8)
    (ans : Answers) (info : MtdInfo) (herase : 0 < info.erasesize)
    (hsize : info.size + BUFSIZE ≤ SIZE_T) :
    (∀ n, (∀ m < n, ((mtdWrite pre imagefd mem).run ans info 0 m).Answered ans info m) →
      Careful ((mtdWrite pre imagefd mem).run ans info 0 n).flash.ops ∧
      ∀ ret, ((mtdWrite pre imagefd mem).run ans info 0 n).place = .returned ret →
        bytesAt ((mtdWrite pre imagefd mem).run ans info 0 n).flash.mem 0
          (pre.image imagefd).length = pre.image imagefd) ∧
    ((∀ m, ((mtdWrite pre imagefd mem).run ans info 0 m).Answered ans info m) →
      ∃ n, ((mtdWrite pre imagefd mem).run ans info 0 n).place = .returned 0 ∨
        ((mtdWrite pre imagefd mem).run ans info 0 n).place = .exited 1) := by
  have hstart : (mtdWrite pre imagefd mem).Inv info (pre.image imagefd) :=
    mtdWrite_inv pre imagefd mem
  constructor
  · intro n hans
    have hinv : ((mtdWrite pre imagefd mem).run ans info 0 n).Inv info (pre.image imagefd) := by
      apply hstart.run hsize
      intro m hm
      simpa using hans m hm
    exact ⟨hinv.careful, fun ret hplace => hinv.returned hplace⟩
  · intro hans
    apply Writer.Settles.opening hsize herase rfl 0 hstart
    intro m
    simpa using hans m

/-- A buffer in which nothing is left of the check. -/
def emptyBuffer : Prefilled where
  buf := List.replicate BUFSIZE 0
  buflen := 0
  length_buf := List.length_replicate
  buflen_le := Nat.zero_le _

/-- A system whose calls succeed, apart from the writes. -/
def answersWith (write : ℕ → Option ℕ) : Answers :=
  ⟨fun _ => true, fun _ => true, fun _ => some 1, write⟩

theorem mtdWrite_programs_byte :
    Careful ((mtdWrite emptyBuffer [0x55] fun _ => 0).run (answersWith fun _ => some 1)
      ⟨16, 16⟩ 0 7).flash.ops ∧
    bytesAt ((mtdWrite emptyBuffer [0x55] fun _ => 0).run (answersWith fun _ => some 1)
      ⟨16, 16⟩ 0 7).flash.mem 0 (emptyBuffer.image [0x55]).length = emptyBuffer.image [0x55] := by
  have hruns := (mtdWrite_programs emptyBuffer [0x55] (fun _ => 0) (answersWith fun _ => some 1)
    ⟨16, 16⟩ (by decide) (by decide)).1 7
  have hanswered : ∀ m < 7, ((mtdWrite emptyBuffer [0x55] fun _ => 0).run
      (answersWith fun _ => some 1) ⟨16, 16⟩ 0 m).Answered (answersWith fun _ => some 1)
      ⟨16, 16⟩ m := by
    intro m hm
    interval_cases m
    · trivial
    · trivial
    · exact Int.natCast_nonneg _
    · trivial
    · trivial
    · exact Int.natCast_nonneg _
    · exact Int.natCast_nonneg _
  obtain ⟨hcareful, hreturned⟩ := hruns hanswered
  exact ⟨hcareful, hreturned 0 rfl⟩

/-- A write that fails passes for a full one: the piece is lost, and the function returns 0. -/
theorem mtdWrite_loses_piece :
    ((mtdWrite emptyBuffer [0x55] fun _ => 0).run (answersWith fun _ => none) ⟨16, 16⟩ 0 7).place =
      .returned 0 ∧
    bytesAt ((mtdWrite emptyBuffer [0x55] fun _ => 0).run (answersWith fun _ => none)
      ⟨16, 16⟩ 0 7).flash.mem 0 (emptyBuffer.image [0x55]).length ≠ emptyBuffer.image [0x55] := by
  constructor
  · rfl
  · have himage : emptyBuffer.image [0x55] = [0x55] := rfl
    rw [himage]
    intro hheld
    have hfirst := congrArg List.head? hheld
    exact absurd hfirst (by decide)

end EzpFirmware.Mtd
