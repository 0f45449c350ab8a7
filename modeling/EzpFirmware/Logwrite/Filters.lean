import EzpFirmware.Lib.Terminators
import EzpFirmware.Logwrite.Ring
import Mathlib.Data.List.Infix

/-! # The filters of log lines

A line of the system log is rewritten to the name of its category, the time and the
text. Where these parts lie is told from characters of the line.
-/
namespace EzpFirmware.Logwrite
open Lib Lib.CStr

def GREATER : UInt8 := 62
def COLON : UInt8 := 58
def BLANK : UInt8 := 32

/-- `strstr`: the first place of a text. -/
def strstr (line text : List UInt8) : Option ℕ := line.tails.findIdx? text.isPrefixOf

/-- `strchr` from a place on. -/
def strchr (line : List UInt8) (c : UInt8) (p : ℕ) : Option ℕ :=
  ((line.drop p).findIdx? (· == c)).map (p + ·)

/-- `strrchr` from a place on. -/
def strrchr (line : List UInt8) (c : UInt8) (p : ℕ) : Option ℕ :=
  ((line.drop p).reverse.findIdx? (· == c)).map (line.length - 1 - ·)

/-- `snprintf` of one string. -/
def snprintf (dst : List UInt8) (cur : ℕ) (size : ℤ) (s : CStr) : Option (List UInt8) :=
  if size = 0 then some dst
  -- a negative size is a huge one
  else if size < 0 then pokeIn dst cur s.stored
  else pokeIn dst cur (s.take (size.toNat - 1)).stored

/-- `<%s>` with a tabulator. -/
def category (keycat : CStr) : CStr := ((ofString "<").append keycat).append (ofString ">\t")

/-- Where the time ends, and how that was told. -/
structure Mark where
  p3 : ℕ
  checkEZP : ℕ

/-- What `filt_f_message` takes for the end of the time. -/
def findMark (line : List UInt8) : Mark :=
  match strstr line (ofString "EZP_").val with
  | some p3 => ⟨p3, 0⟩
  | none =>
    match strstr line (ofString "(").val with
    | some p3 => ⟨p3, 1⟩
    | none =>
      let found := (strstr line (ofString "]: ").val).or (strstr line (ofString ": ").val)
      match found.bind (strrchr line BLANK) with
      | some p3 => ⟨p3, 2⟩
      | none => ⟨19, 3⟩

/-- The place of the text behind a mark, where only places of the line and that of its terminator
can be read. -/
def textAt (line : List UInt8) (mark : Mark) : Option ℕ :=
  if mark.checkEZP = 0 then if mark.p3 + 7 ≤ line.length then some (mark.p3 + 7) else none
  else if mark.p3 ≤ line.length then strchr line COLON mark.p3
  else none

/-- `filt_f_message` with a buffer `dst`: what it leaves in the message buffer. There is no result
if something is read outside of the line or written outside of a buffer. -/
def filtFMessage (keycat : CStr) (dst msg : List UInt8) : Option (List UInt8) :=
  let line := CStr.read msg
  let mark := findMark line.val
  match strchr line.val GREATER 0 with
  | none => some msg
  | some p1 => do
    let dst ← snprintf dst 0 (keycat.len + 4) (category keycat)
    let cur := keycat.len + 3
    let p1 := p1 + 1
    -- a negative length is a huge one for `strncpy`
    if mark.p3 < p1 then none
    else
      let dst ← pokeIn dst cur (strncpy [] (line.skip p1).stored (mark.p3 - p1))
      let cur := cur + (mark.p3 - p1) - 1
      let p3 ← textAt line.val mark
      let dst ← snprintf dst cur (MSGBUF_SIZE - cur) (line.skip p3)
      some (strncpy msg dst MSGBUF_SIZE)

/-- `filt_b_message` in the same way. -/
def filtBMessage (keycat : CStr) (dst msg : List UInt8) : Option (List UInt8) :=
  let line := CStr.read msg
  do
    let p1 ← (strchr line.val GREATER 0).map (· + 1)
    let p3 ← ((strstr line.val (ofString "]: ").val).map (· + 3)).or
      ((strstr line.val (ofString ": ").val).map (· + 2))
    let dst ← snprintf dst 0 MSGBUF_SIZE (category keycat)
    let cur := (category keycat).len
    if line.len + 1 < p1 + 16 then none
    else
      let dst ← pokeIn dst cur ((line.stored.drop p1).take 16)
      let cur := cur + 16
      let dst ← snprintf dst cur (MSGBUF_SIZE - cur) (line.skip p3)
      some (strncpy msg dst MSGBUF_SIZE)

/-- A buffer of the right size that holds a terminator. -/
structure Filled (buf : List UInt8) : Prop where
  length : buf.length = MSGBUF_SIZE
  terminated : (0 : UInt8) ∈ buf

/-- The marks of a line stand as `filt_f_message` takes them to stand. -/
def InOrderF (k : ℕ) (line : List UInt8) : Prop :=
  ∀ p1, strchr line GREATER 0 = some p1 →
    p1 < (findMark line).p3 ∧ k + 2 + ((findMark line).p3 - p1) ≤ MSGBUF_SIZE ∧
      (textAt line (findMark line)).isSome

/-- The marks of a line stand as `filt_b_message` takes them to stand. -/
def InOrderB (line : List UInt8) : Prop :=
  (∃ p1, strchr line GREATER 0 = some p1 ∧ p1 + 16 ≤ line.length) ∧
    (strstr line (ofString ": ").val).isSome

variable {keycat s : CStr} {dst dst' msg : List UInt8} {cur n : ℕ}

/-! ## The writes -/

theorem category_len (keycat : CStr) : (category keycat).len = keycat.len + 3 := by
  rw [category, append_len, append_len]
  change 1 + keycat.len + 2 = _
  omega

theorem strncpy_nil_length (src : List UInt8) (n : ℕ) : (strncpy [] src n).length = n := by
  simp only [strncpy, List.length_append, List.length_replicate, List.length_take, List.drop_nil,
    List.length_nil]
  omega

theorem pokeIn_of_le {xs : List UInt8} (h : cur + xs.length ≤ dst.length) :
    ∃ dst', pokeIn dst cur xs = some dst' ∧ dst'.length = dst.length := by
  refine ⟨poke dst cur xs, ?_, poke_length h⟩
  rw [pokeIn, if_pos h]

/-- A string that is cut to a room inside of the buffer leaves a terminator. -/
theorem snprintf_of_le {size : ℤ} (hsize : 0 < size) (h : cur + size ≤ dst.length) (s : CStr) :
    ∃ dst', snprintf dst cur size s = some dst' ∧ dst'.length = dst.length ∧ (0 : UInt8) ∈ dst' := by
  have hlen : (s.take (size.toNat - 1)).stored.length ≤ size.toNat := by
    have hcut := take_len (size.toNat - 1) s
    rw [stored_length]
    omega
  have hin : cur + (s.take (size.toNat - 1)).stored.length ≤ dst.length := by omega
  refine ⟨poke dst cur (s.take (size.toNat - 1)).stored, ?_, poke_length hin, ?_⟩
  · rw [snprintf, if_neg (by omega), if_neg (by omega), pokeIn, if_pos hin]
  · rw [poke, CStr.stored]
    simp

/-- The buffer goes back to the message with its terminator. -/
theorem filled_strncpy (hmsg : msg.length = MSGBUF_SIZE) (hdst : dst.length = MSGBUF_SIZE)
    (hzero : (0 : UInt8) ∈ dst) : Filled (strncpy msg dst MSGBUF_SIZE) := by
  constructor
  · rw [strncpy_length hmsg.ge, hmsg]
  · have hlen := read_len_lt hzero
    have hcut : ((CStr.read dst).val.take MSGBUF_SIZE).length ≤ (CStr.read dst).len :=
      List.length_take_le' _ _
    simp only [strncpy, List.mem_append, List.mem_replicate]
    left
    right
    exact ⟨by omega, trivial⟩

/-! ## When the filters are safe -/

/-- The parts behind the check of the marks. -/
theorem writeParts_iff {k p1 : ℕ} {mark : Mark} {line : CStr} (hdst : dst.length = MSGBUF_SIZE)
    (hmsg : msg.length = MSGBUF_SIZE) (hle : p1 + 1 ≤ mark.p3) :
    (∃ msg', (do
        let dst ← pokeIn dst (k + 3) (strncpy [] (line.skip (p1 + 1)).stored (mark.p3 - (p1 + 1)))
        let cur := k + 3 + (mark.p3 - (p1 + 1)) - 1
        let p3 ← textAt line.val mark
        let dst ← snprintf dst cur (MSGBUF_SIZE - cur) (line.skip p3)
        some (strncpy msg dst MSGBUF_SIZE)) = some msg' ∧ Filled msg') ↔
      k + 2 + (mark.p3 - p1) ≤ MSGBUF_SIZE ∧ (textAt line.val mark).isSome := by
  have hlen := strncpy_nil_length (line.skip (p1 + 1)).stored (mark.p3 - (p1 + 1))
  constructor
  · rintro ⟨msg', hrun, -⟩
    obtain ⟨time, htime, hrun⟩ := Option.bind_eq_some_iff.mp hrun
    obtain ⟨p3, hp3, -⟩ := Option.bind_eq_some_iff.mp hrun
    rw [pokeIn, Option.ite_none_right_eq_some, hlen, hdst] at htime
    refine ⟨by omega, by rw [hp3]; rfl⟩
  · rintro ⟨hroom, htext⟩
    obtain ⟨p3, hp3⟩ := Option.isSome_iff_exists.mp htext
    obtain ⟨time, htime, htimeLen⟩ := @pokeIn_of_le dst (k + 3)
      (strncpy [] (line.skip (p1 + 1)).stored (mark.p3 - (p1 + 1)))
      (by rw [hlen, hdst]; omega)
    obtain ⟨text, hput, htextLen, hzero⟩ := @snprintf_of_le time
      (k + 3 + (mark.p3 - (p1 + 1)) - 1)
      (MSGBUF_SIZE - (k + 3 + (mark.p3 - (p1 + 1)) - 1 : ℕ)) (by omega)
      (by rw [htimeLen, hdst]; omega) (line.skip p3)
    refine ⟨_, ?_, filled_strncpy hmsg (htextLen.trans (htimeLen.trans hdst)) hzero⟩
    rw [htime, Option.bind_eq_bind, Option.bind_some, hp3]
    simp only [Option.bind_eq_bind, Option.bind_some, hput]

theorem filtFMessage_iff (hkey : keycat.len < 16) (hdst : dst.length = MSGBUF_SIZE)
    (hmsg : Filled msg) :
    (∃ msg', filtFMessage keycat dst msg = some msg' ∧ Filled msg') ↔
      InOrderF keycat.len (CStr.read msg).val := by
  rw [filtFMessage, InOrderF]
  simp only
  cases hp1 : strchr (CStr.read msg).val GREATER 0 with
  | none => exact iff_of_true ⟨msg, rfl, hmsg⟩ (by simp)
  | some p1 =>
    obtain ⟨tag, htag, htagLen, -⟩ := @snprintf_of_le dst 0
      (keycat.len + 4) (by omega) (by rw [hdst, MSGBUF_SIZE]; omega) (category keycat)
    simp only [htag, Option.bind_eq_bind, Option.bind_some]
    by_cases hneg : (findMark (CStr.read msg).val).p3 < p1 + 1
    · rw [if_pos hneg]
      constructor
      · rintro ⟨msg', hnone, -⟩
        cases hnone
      · intro h
        obtain ⟨hlt, -⟩ := h p1 rfl
        omega
    · rw [if_neg hneg]
      refine (writeParts_iff (htagLen.trans hdst) hmsg.length (not_lt.mp hneg)).trans ?_
      constructor
      · rintro ⟨hroom, htext⟩ p1' heq
        obtain rfl := Option.some.inj heq
        exact ⟨by omega, hroom, htext⟩
      · intro h
        exact (h p1 rfl).2

theorem strstr_isSome (line text : List UInt8) : (strstr line text).isSome ↔ text <:+: line := by
  rw [strstr, List.findIdx?_isSome, List.any_eq_true, List.infix_iff_prefix_suffix]
  apply exists_congr
  intro t
  rw [List.mem_tails, List.isPrefixOf_iff_prefix, and_comm]

/-- A text with `]: ` has `: `. -/
theorem isSome_colon_of_bracket {line : List UInt8}
    (h : (strstr line (ofString "]: ").val).isSome) :
    (strstr line (ofString ": ").val).isSome := by
  rw [strstr_isSome] at h ⊢
  exact List.IsInfix.trans ⟨[93], [], rfl⟩ h

theorem filtBMessage_iff (hkey : keycat.len < 16) (hdst : dst.length = MSGBUF_SIZE)
    (hmsg : Filled msg) :
    (∃ msg', filtBMessage keycat dst msg = some msg' ∧ Filled msg') ↔
      InOrderB (CStr.read msg).val := by
  rw [filtBMessage, InOrderB]
  simp only [Option.bind_eq_bind]
  constructor
  · rintro ⟨msg', hrun, -⟩
    obtain ⟨p1', hfirst, hrun⟩ := Option.bind_eq_some_iff.mp hrun
    obtain ⟨p3, hp3, hrun⟩ := Option.bind_eq_some_iff.mp hrun
    obtain ⟨tag, htag, hrun⟩ := Option.bind_eq_some_iff.mp hrun
    obtain ⟨p1, hp1, rfl⟩ := Option.map_eq_some_iff.mp hfirst
    rw [Option.ite_none_left_eq_some] at hrun
    refine ⟨⟨p1, hp1, ?_⟩, ?_⟩
    · have hlen : ¬ (CStr.read msg).val.length + 1 < p1 + 1 + 16 := hrun.1
      omega
    · rcases Option.or_eq_some_iff.mp hp3 with hfound | ⟨-, hfound⟩
      · obtain ⟨p, hp, -⟩ := Option.map_eq_some_iff.mp hfound
        exact isSome_colon_of_bracket (by rw [hp]; rfl)
      · obtain ⟨p, hp, -⟩ := Option.map_eq_some_iff.mp hfound
        rw [hp]
        rfl
  · rintro ⟨⟨p1, hp1, hroom⟩, hcolon⟩
    obtain ⟨p, hp⟩ := Option.isSome_iff_exists.mp hcolon
    obtain ⟨p3, hp3⟩ : ∃ p3, ((strstr (CStr.read msg).val (ofString "]: ").val).map (· + 3)).or
        ((strstr (CStr.read msg).val (ofString ": ").val).map (· + 2)) = some p3 := by
      rw [hp]
      cases strstr (CStr.read msg).val (ofString "]: ").val with
      | none => exact ⟨p + 2, rfl⟩
      | some q => exact ⟨q + 3, rfl⟩
    obtain ⟨tag, htag, htagLen, -⟩ := @snprintf_of_le dst 0 MSGBUF_SIZE
      (by decide) (by rw [hdst]; omega) (category keycat)
    have hpiece : (((CStr.read msg).stored.drop (p1 + 1)).take 16).length ≤ 16 :=
      List.length_take_le _ _
    have hcat := category_len keycat
    have hsize : MSGBUF_SIZE = 512 := rfl
    obtain ⟨time, htime, htimeLen⟩ := @pokeIn_of_le tag (category keycat).len
      (((CStr.read msg).stored.drop (p1 + 1)).take 16) (by rw [htagLen, hdst]; omega)
    obtain ⟨text, hput, htextLen, hzero⟩ := @snprintf_of_le time
      ((category keycat).len + 16)
      (MSGBUF_SIZE - ((category keycat).len + 16 : ℕ)) (by omega)
      (by rw [htimeLen, htagLen, hdst]; omega) ((CStr.read msg).skip p3)
    have hfits : ¬ (CStr.read msg).len + 1 < p1 + 1 + 16 := by
      have hlen : (CStr.read msg).val.length = (CStr.read msg).len := rfl
      omega
    refine ⟨_, ?_, filled_strncpy hmsg.length
      (htextLen.trans (htimeLen.trans (htagLen.trans hdst))) hzero⟩
    rw [hp1, hp3]
    simp only [Option.map_some, Option.bind_some, htag, if_neg hfits, htime, hput]

/-- What the two filters do with a line is safe and leaves a line with a terminator if and only
if the marks of the line stand as each of them takes them to stand. -/
theorem filters_safe_iff (keycat : CStr) (dst msg : List UInt8) (hkey : keycat.len < 16)
    (hdst : dst.length = MSGBUF_SIZE) (hmsg : Filled msg) :
    ((∃ msg', filtFMessage keycat dst msg = some msg' ∧ Filled msg') ↔
      InOrderF keycat.len (CStr.read msg).val) ∧
    ((∃ msg', filtBMessage keycat dst msg = some msg' ∧ Filled msg') ↔
      InOrderB (CStr.read msg).val) :=
  ⟨filtFMessage_iff hkey hdst hmsg, filtBMessage_iff hkey hdst hmsg⟩

/-- A message buffer with a line. -/
def bufferOf (line : CStr) : List UInt8 :=
  line.stored ++ List.replicate (MSGBUF_SIZE - (line.len + 1)) 0

theorem filled_bufferOf {line : CStr} (h : line.len < MSGBUF_SIZE) : Filled (bufferOf line) := by
  constructor
  · rw [bufferOf, List.length_append, stored_length, List.length_replicate]
    omega
  · rw [bufferOf, CStr.stored]
    simp

theorem read_bufferOf (line : CStr) : CStr.read (bufferOf line) = line :=
  read_stored_append line _

theorem filters_safe_of_line :
    ((∃ msg', filtFMessage (ofString "FW") (List.replicate MSGBUF_SIZE 0)
        (bufferOf (ofString "<13>Jul 27 11:27:46 (none) root: x")) = some msg' ∧ Filled msg') ↔
      InOrderF (ofString "FW").len
        (CStr.read (bufferOf (ofString "<13>Jul 27 11:27:46 (none) root: x"))).val) ∧
    ((∃ msg', filtBMessage (ofString "FW") (List.replicate MSGBUF_SIZE 0)
        (bufferOf (ofString "<13>Jul 27 11:27:46 (none) root: x")) = some msg' ∧ Filled msg') ↔
      InOrderB (CStr.read (bufferOf (ofString "<13>Jul 27 11:27:46 (none) root: x"))).val) :=
  filters_safe_iff _ _ _ (by decide) List.length_replicate (filled_bufferOf (by decide))

/-- A parenthesis in front of the priority makes the length of the time negative. -/
theorem plain_line_unsafe :
    ¬ ∃ msg', filtFMessage (ofString "FW") (List.replicate MSGBUF_SIZE 0)
      (bufferOf (ofString "(a)<30>b: c")) = some msg' ∧ Filled msg' := by
  rw [filtFMessage_iff (by decide) List.length_replicate (filled_bufferOf (by decide)),
    read_bufferOf]
  intro h
  exact absurd (h 6 (by decide)).1 (by decide)

end EzpFirmware.Logwrite
