import Mathlib.Logic.Function.Iterate
import Mathlib.Data.UInt

/-! # Cyclic redundancy checks, a byte at a time

The reflected shift register over one polynomial. An entry of the usual table is
eight shifts of its index, and the register after a text is a fold over its
bytes, so it can be carried from one piece of the text to the next.
-/
namespace EzpFirmware.Lib

variable (poly : UInt32)

/-- One shift of the register; the bit that falls out adds the polynomial. -/
def crcShift (c : UInt32) : UInt32 := if c &&& 1 = 1 then poly ^^^ (c >>> 1) else c >>> 1

/-- The entry of the table for a byte. -/
def crcEntry (n : UInt32) : UInt32 := (crcShift poly)^[8] n

/-- The register after one byte. -/
def crcByte (c : UInt32) (b : UInt8) : UInt32 :=
  crcEntry poly ((c ^^^ b.toUInt32) &&& 0xff) ^^^ (c >>> 8)

/-- The register after a run of bytes. -/
def crcBytes (c : UInt32) (bs : List UInt8) : UInt32 := bs.foldl (crcByte poly) c

@[simp] theorem crcBytes_nil (c : UInt32) : crcBytes poly c [] = c := rfl

theorem crcBytes_append (c : UInt32) (as bs : List UInt8) :
    crcBytes poly c (as ++ bs) = crcBytes poly (crcBytes poly c as) bs :=
  List.foldl_append

end EzpFirmware.Lib
