import EzpFirmware.Httpd.FieldChecks
import EzpFirmware.Httpd.Auth
import EzpFirmware.Lib.Memory

/-! # Templates

A page is copied from a template through one buffer, which holds back what may
become a tag. A tag runs handlers, and a dollar with a digit stands for a
parameter of the page.
-/
namespace EzpFirmware.Httpd
open Lib

def DOLLAR : UInt8 := 0x24

def PATTERN_LEN : ℕ := 512

def DO_EJ_PARA_MAX : ℕ := 8

/-- The start of a tag. -/
def TAG : List UInt8 := [0x3c, 0x25]

/-! ## The parser -/

/-- `unqstrstr`: the place of a text in another one outside of quotation marks. -/
def unqstrstr (needle : List UInt8) : Bool → List UInt8 → Option ℕ
  | _, [] => none
  | quoted, b :: s =>
    if !quoted && needle.isPrefixOf (b :: s) then some 0
    else (unqstrstr needle (if b = 0x22 then !quoted else quoted) s).map (· + 1)

/-- What the parser works on. The start of a tag, when there is one, is always behind its two
characters in the buffer. -/
structure Ej where
  pattern : List UInt8
  len : ℕ
  asp : Bool
  ejPrint : Bool
  /-- What was written to the stream. -/
  out : CStr

/-- The text in the buffer. -/
def Ej.text (st : Ej) : CStr := CStr.read st.pattern

/-- A text behind what the buffer holds, with its terminator. -/
def Ej.put (st : Ej) (text : List UInt8) : Ej :=
  { st with pattern := poke st.pattern st.len (text ++ [0]), len := st.len + text.length }

/-- A text behind what the buffer holds, as long as the buffer has room for it. -/
def Ej.hold (st : Ej) (text : List UInt8) : Option Ej :=
  if st.len + text.length < PATTERN_LEN then some (st.put text) else none

/-- The characters of the buffer go to the stream. -/
def Ej.release (st : Ej) : Ej :=
  { st with out := if st.ejPrint then st.out.append st.text else st.out, len := 0 }

section
variable (call : CStr → Bool → CStr × Bool)

/-- The statements of a tag from the place `func` on, for so many rounds at most. `call` is what a
handler writes and whether printing is allowed afterwards. -/
def statements : ℕ → ℕ → List UInt8 → Ej → Ej
  | 0, _, _, st => st
  | rounds + 1, func, s, st =>
    if ¬ func < st.len - 3 then st
    else
      let stripped := s.dropWhile isSpace
      match unqstrstr [0x3b] false stripped with
      | none => st
      | some n =>
        let statement := CStr.read (stripped.take n)
        let called : CStr × Bool :=
          if st.ejPrint || (CStr.ofString "do_print_end").val.isPrefixOf statement.val then
            call statement st.ejPrint
          else (CStr.empty, st.ejPrint)
        statements rounds (func + (s.length - stripped.length) + n + 1) (stripped.drop (n + 1))
          { st with ejPrint := called.2, out := st.out.append called.1 }

/-- What follows a character: the buffer is full, starts or ends a tag, or is released. -/
def Ej.look (st : Ej) : Ej :=
  if st.len = PATTERN_LEN - 1 then st.release
  else if !st.asp && st.text.val.take st.len = TAG.take st.len then { st with asp := st.len = 2 }
  else if st.asp then
    let tag := CStr.read (st.pattern.drop 2)
    if (unqstrstr [0x25, 0x3e] false tag.val).isSome then
      { statements call (tag.len + 1) 2 tag.val st with asp := false, len := 0 }
    else st
  else st.release

/-- Whether a character is the number of a parameter. -/
def isParaNum (paras : List CStr) (c : UInt8) : Bool :=
  0x30 ≤ c ∧ c.toNat - 0x30 < paras.length

/-- The parameter of a number. -/
def paraAt (paras : List CStr) (c : UInt8) : CStr := paras.getD (c.toNat - 0x30) CStr.empty

/-- What is put for a dollar with another character. -/
def replacement (paras : List CStr) (c : UInt8) : List UInt8 :=
  if isParaNum paras c then (paraAt paras c).val else [DOLLAR, c]

/-- The loop of `do_ej` over the characters of the file. There is no result if a character would be
written behind the buffer. -/
def ejLoop (paras : List CStr) : List UInt8 → Ej → Option Ej
  | [], st => some st
  | c :: file, st =>
    if c = DOLLAR then
      match file with
      | [] => some st
      | k :: file => (st.hold (replacement paras k)).bind (ejLoop paras file)
    else (st.hold [c]).bind fun st => ejLoop paras file (st.look call)

/-- The parameters that `do_ej` takes: those in front of the first empty one. -/
def readParas (args : List CStr) : List CStr :=
  (args.takeWhile (· ≠ CStr.empty)).take DO_EJ_PARA_MAX

/-- `do_ej`, with what the buffer held before. A parameter has a buffer of its own. -/
def doEj (junk : List UInt8) (ejPrint : Bool) (file : List UInt8) (args : List CStr) : Option Ej :=
  if (readParas args).any (SHORT_BUF_LEN ≤ ·.len) then none
  else ejLoop call (readParas args) file ⟨junk, 0, false, ejPrint, CStr.empty⟩

end

/-! ## Room in the buffer -/

section
variable (call : CStr → Bool → CStr × Bool) (paras : List CStr)

/-- Each dollar of a run finds room for what is put for it, and room for a character behind that if
the next one is none. -/
def RoomFor : List UInt8 → Ej → Prop
  | [], _ => True
  | c :: file, st =>
    if c = DOLLAR then
      match file with
      | [] => True
      | k :: file =>
        (st.len + (replacement paras k).length + 1 < PATTERN_LEN ∨
          st.len + (replacement paras k).length + 1 = PATTERN_LEN ∧
            (file = [] ∨ file.head? = some DOLLAR)) ∧
          RoomFor file (st.put (replacement paras k))
    else RoomFor file ((st.put [c]).look call)

variable {call paras}

theorem ejLoop_plain {c : UInt8} (hc : c ≠ DOLLAR) (file : List UInt8) (st : Ej) :
    ejLoop call paras (c :: file) st =
      (st.hold [c]).bind fun st => ejLoop call paras file (st.look call) := by
  cases file <;> simp [ejLoop, hc]

theorem ejLoop_dollar (k : UInt8) (file : List UInt8) (st : Ej) :
    ejLoop call paras (DOLLAR :: k :: file) st =
      (st.hold (replacement paras k)).bind (ejLoop call paras file) := by
  simp [ejLoop]

theorem ejLoop_end (st : Ej) : ejLoop call paras [DOLLAR] st = some st := by
  simp [ejLoop]

theorem roomFor_plain {c : UInt8} (hc : c ≠ DOLLAR) (file : List UInt8) (st : Ej) :
    RoomFor call paras (c :: file) st ↔ RoomFor call paras file ((st.put [c]).look call) := by
  cases file <;> simp [RoomFor, hc]

theorem Ej.hold_of_room {st : Ej} {text : List UInt8} (h : st.len + text.length < PATTERN_LEN) :
    st.hold text = some (st.put text) := if_pos h

theorem Ej.hold_of_full {st : Ej} {text : List UInt8} (h : PATTERN_LEN ≤ st.len + text.length) :
    st.hold text = none := if_neg (not_lt.mpr h)

/-- A character never leaves a full buffer behind. -/
theorem look_len {st : Ej} (h : st.len < PATTERN_LEN) : (st.look call).len + 1 < PATTERN_LEN := by
  unfold Ej.look
  rw [PATTERN_LEN] at *
  split_ifs with hfull
  · simp [Ej.release]
  · dsimp only
    omega
  · dsimp only
    split_ifs
    · simp
    · omega
  · simp [Ej.release]

/-- The buffer has room for a character, or none comes next. -/
def Ej.Ready (st : Ej) (file : List UInt8) : Prop :=
  st.len + 1 < PATTERN_LEN ∨
    st.len + 1 = PATTERN_LEN ∧ (file = [] ∨ file.head? = some DOLLAR)

/-- A character that finds the buffer full is written past its end. -/
theorem ejLoop_of_not_ready {file : List UInt8} {st : Ej} (h : ¬ st.Ready file) :
    st.len + 1 < PATTERN_LEN ∨ PATTERN_LEN ≤ st.len ∨ ejLoop call paras file st = none := by
  by_cases hlen : st.len + 1 = PATTERN_LEN
  · refine .inr (.inr ?_)
    cases file with
    | nil => exact absurd (.inr ⟨hlen, .inl rfl⟩) h
    | cons c file =>
      have hc : c ≠ DOLLAR := fun hc => h (.inr ⟨hlen, .inr (by simp [hc])⟩)
      rw [ejLoop_plain hc, Ej.hold_of_full (by simpa using hlen.ge)]
      rfl
  · omega

/-- The buffer is never written past its end if and only if each dollar finds room. -/
theorem ejLoop_isSome_iff {file : List UInt8} {st : Ej} (h : st.Ready file) :
    (ejLoop call paras file st).isSome = true ↔ RoomFor call paras file st := by
  induction hn : file.length using Nat.strong_induction_on generalizing file st with
  | _ n ih =>
  cases file with
  | nil => simp [ejLoop, RoomFor]
  | cons c file =>
    rw [List.length_cons] at hn
    by_cases hc : c = DOLLAR
    · subst hc
      cases file with
      | nil => simp [ejLoop, RoomFor]
      | cons k file =>
        rw [List.length_cons] at hn
        have hroom : RoomFor call paras (DOLLAR :: k :: file) st ↔
            (st.put (replacement paras k)).Ready file ∧
              RoomFor call paras file (st.put (replacement paras k)) := by
          simp [RoomFor, Ej.Ready, Ej.put]
        rw [ejLoop_dollar, hroom]
        by_cases hready : (st.put (replacement paras k)).Ready file
        · have hfits : st.len + (replacement paras k).length < PATTERN_LEN := by
            simp only [Ej.Ready, Ej.put] at hready
            omega
          rw [Ej.hold_of_room hfits, Option.bind_some, and_iff_right hready]
          exact ih file.length (by omega) hready rfl
        · refine iff_of_false ?_ fun h => hready h.1
          by_cases hfits : st.len + (replacement paras k).length < PATTERN_LEN
          · rw [Ej.hold_of_room hfits, Option.bind_some]
            rcases @ejLoop_of_not_ready call paras _ _ hready with h | h | h
            · exact absurd (.inl h) hready
            · simp only [Ej.put] at h
              omega
            · simp [h]
          · rw [Ej.hold_of_full (not_lt.mp hfits)]
            simp
    · have hlen : st.len + 1 < PATTERN_LEN := by simpa [Ej.Ready, hc] using h
      rw [ejLoop_plain hc, roomFor_plain hc, Ej.hold_of_room (by simp; omega), Option.bind_some]
      exact ih file.length (by omega) (.inl (look_len (by simpa [Ej.put] using by omega))) rfl

end

/-! ## What a template stands for -/

/-- The text of a template with each parameter in its place. -/
def expand (paras : List CStr) : List UInt8 → List UInt8
  | [] => []
  | [c] => [c]
  | c :: k :: file =>
    if c = DOLLAR ∧ isParaNum paras k then
      (paraAt paras k).val ++ expand paras file
    else c :: expand paras (k :: file)

end EzpFirmware.Httpd
