import Mathlib.Algebra.Group.Basic
import Mathlib.Data.UInt
import Mathlib.Logic.Function.Iterate

/-! # Ciphers

A block is two words. A round moves the sum on and adds to each word a function of
the other one and of the sum. Running the rounds backwards from the last sum gives
the block back, whatever the two functions are.
-/
namespace EzpFirmware.Lib.Feistel

variable {W : Type*} [AddGroup W] (f g : W → W → W) (δ : W)

/-- A round of encryption, on the two words and the sum. -/
def encRound (s : W × W × W) : W × W × W :=
  let sum := s.2.2 + δ
  let v0 := s.1 + f s.2.1 sum
  let v1 := s.2.1 + g v0 sum
  (v0, v1, sum)

/-- A round of decryption. -/
def decRound (s : W × W × W) : W × W × W :=
  let v1 := s.2.1 - g s.1 s.2.2
  let v0 := s.1 - f v1 s.2.2
  (v0, v1, s.2.2 - δ)

theorem decRound_encRound : Function.LeftInverse (decRound f g δ) (encRound f g δ) := by
  intro s
  simp [decRound, encRound]

/-- The sum counts the rounds. -/
theorem encRound_sum (n : ℕ) (v0 v1 : W) :
    ((encRound f g δ)^[n] (v0, v1, 0)).2.2 = n • δ := by
  induction n with
  | zero => simp
  | succ n ih => rw [Function.iterate_succ_apply', encRound, ih, succ_nsmul]

/-- Decryption from the last sum undoes encryption. -/
theorem decrypt_encrypt {n : ℕ} {v0 v1 : W} {r : W × W × W}
    (hr : (encRound f g δ)^[n] (v0, v1, 0) = r) :
    (decRound f g δ)^[n] (r.1, r.2.1, n • δ) = (v0, v1, 0) := by
  have hstate : (r.1, r.2.1, n • δ) = (encRound f g δ)^[n] (v0, v1, 0) := by
    rw [← encRound_sum f g δ n v0 v1, hr]
  rw [hstate]
  exact (decRound_encRound f g δ).iterate n (v0, v1, 0)

end EzpFirmware.Lib.Feistel

/-! ## Stream ciphers

A generator gives one byte of its stream after the other, and a text is added
to the stream byte by byte. The state is carried from one piece of the text to
the next, so that the pieces do not matter, and adding the stream twice gives
the text back.
-/

namespace EzpFirmware.Lib

variable {σ : Type*} (next : σ → UInt8 × σ)

/-- The text added to the stream, and the state behind it. -/
def addStream : List UInt8 → σ → List UInt8 × σ
  | [], s => ([], s)
  | b :: text, s =>
    let r := addStream text (next s).2
    ((b ^^^ (next s).1) :: r.1, r.2)

@[simp] theorem addStream_nil (s : σ) : addStream next [] s = ([], s) := rfl

theorem addStream_length (text : List UInt8) (s : σ) :
    (addStream next text s).1.length = text.length := by
  induction text generalizing s with
  | nil => rfl
  | cons b text ih => exact congrArg (· + 1) (ih (next s).2)

/-- Two pieces one after the other. -/
theorem addStream_append (as bs : List UInt8) (s : σ) :
    addStream next (as ++ bs) s =
      ((addStream next as s).1 ++ (addStream next bs (addStream next as s).2).1,
        (addStream next bs (addStream next as s).2).2) := by
  induction as generalizing s with
  | nil => rfl
  | cons a as ih =>
    rw [List.cons_append, addStream, ih (next s).2]
    rfl

/-- The stream is taken off again. -/
theorem addStream_addStream (text : List UInt8) (s : σ) :
    (addStream next (addStream next text s).1 s).1 = text := by
  induction text generalizing s with
  | nil => rfl
  | cons b text ih =>
    have hbyte : b ^^^ (next s).1 ^^^ (next s).1 = b := by
      rw [UInt8.xor_assoc, UInt8.xor_self, UInt8.xor_zero]
    exact congrArg₂ List.cons hbyte (ih (next s).2)

end EzpFirmware.Lib
