import EzpFirmware.Lib.Terminators

/-! # The shared log

Messages are kept with their terminators in a ring of shared memory. A message
that does not fit in front of the end is broken up, and the head moves to the
first message that is not overwritten.
-/
namespace EzpFirmware.Logwrite
open Lib Lib.CStr

def MSGBUF_SIZE : ℕ := 512

/-- `struct shbuf_ds`. The field `size` is the length of `data`. -/
structure Logbuf where
  head : ℕ
  tail : ℕ
  data : List UInt8
  deriving DecidableEq

def Logbuf.size (logbuf : Logbuf) : ℕ := logbuf.data.length

/-- `ipcsyslog_init` with a new segment that holds `data`. -/
def ipcsyslogInit (data : List UInt8) : Logbuf := ⟨0, 0, data⟩

/-- `circ_message` with a message of `l` bytes that fits in front of the end. -/
def Logbuf.appendMessage (logbuf : Logbuf) (msg : CStr) : Option Logbuf :=
  let l := msg.len + 1
  let head :=
    if logbuf.tail < logbuf.head ∧ logbuf.head ≤ logbuf.tail + l then
      let k := logbuf.tail + l - logbuf.head
      match memchr logbuf.data (logbuf.head + k) with
      | some c => c + 1
      | none => 0
    else logbuf.head
  (pokeIn logbuf.data logbuf.tail (strncpy [] msg.stored l)).map fun data =>
    ⟨head, logbuf.tail + l, data⟩

/-- The writes of a message of which the first `n` bytes go to the end of the ring. -/
def Logbuf.writeCircled (logbuf : Logbuf) (msg : CStr) (n : ℕ) : Option (List UInt8) := do
  let data ← pokeIn logbuf.data logbuf.tail (strncpy [] msg.stored n)
  let data ← pokeIn data (logbuf.size - 1) [0]
  pokeIn data 0 (msg.skip n).stored

/-- `circ_message` with a message that is broken up. -/
def Logbuf.circleMessage (logbuf : Logbuf) (msg : CStr) : Option Logbuf :=
  let l := msg.len + 1
  let k := logbuf.tail + l - logbuf.size
  match memchr logbuf.data k with
  | some c =>
    -- a negative length is a huge one for `strncpy`
    if l < k + 1 then none
    else (logbuf.writeCircled msg (l - k - 1)).map fun data => ⟨c + 1, k + 1, data⟩
  | none => some { logbuf with head := 0, tail := 0 }

/-- `circ_message`. There is no result if something is written outside of `data`. -/
def circMessage (msg : CStr) (logbuf : Logbuf) : Option Logbuf :=
  if logbuf.tail + (msg.len + 1) < logbuf.size then logbuf.appendMessage msg
  else logbuf.circleMessage msg

/-- `log_write_msg_clear` for a ring. -/
def logWriteMsgClear (logbuf : Logbuf) : Option Logbuf :=
  (pokeIn logbuf.data 0 [0]).map fun data => ⟨0, 1, data⟩

/-- A message that is handed to `circ_message`. -/
abbrev Msg := {msg : CStr // msg.len < MSGBUF_SIZE}

inductive Call where
  | circMessage (msg : Msg)
  | logWriteMsgClear

def Call.exec : Call → Logbuf → Option Logbuf
  | .circMessage msg, logbuf => Logwrite.circMessage msg.val logbuf
  | .logWriteMsgClear, logbuf => Logwrite.logWriteMsgClear logbuf

/-- One call after the other. -/
def run : List Call → Logbuf → Option Logbuf
  | [], logbuf => some logbuf
  | call :: calls, logbuf => (call.exec logbuf).bind (run calls)

/-! ## What a reader sees -/

/-- From head to tail, wrapping at the end and dropping the terminators. -/
def Logbuf.readOut (logbuf : Logbuf) : List UInt8 :=
  (if logbuf.head ≤ logbuf.tail then (logbuf.data.take logbuf.tail).drop logbuf.head
    else logbuf.data.drop logbuf.head ++ logbuf.data.take logbuf.tail).filter (· != 0)

/-- The messages of some calls after `ms`, since the last clear. -/
def logged (ms : List CStr) : List Call → List CStr
  | [] => ms
  | .circMessage msg :: calls => logged (ms ++ [msg.val]) calls
  | .logWriteMsgClear :: calls => logged [] calls

/-- The head and the tail are places of the ring, and what is read are the last of the messages
`ms`, at least one if there is one. -/
def Logbuf.Shows (logbuf : Logbuf) (ms : List CStr) : Prop :=
  logbuf.head < logbuf.size ∧ logbuf.tail < logbuf.size ∧
    ∃ last, last <:+ ms ∧ (ms ≠ [] → last ≠ []) ∧ logbuf.readOut = last.flatMap (·.val)

/-- The first terminator behind a message that reaches the head is not the last byte, and a message
that is broken up does not end on a terminator unless it is empty. -/
def Logbuf.Spares (logbuf : Logbuf) (msg : CStr) : Prop :=
  let l := msg.len + 1
  if logbuf.tail + l < logbuf.size then
    logbuf.tail < logbuf.head → logbuf.head ≤ logbuf.tail + l →
      memchr logbuf.data (logbuf.tail + l) ≠ some (logbuf.size - 1)
  else
    msg.len ≠ 0 → memchr logbuf.data (logbuf.tail + l - logbuf.size) ≠
      some (logbuf.tail + l - logbuf.size)

def Call.Spares : Call → Logbuf → Prop
  | .circMessage msg, logbuf => logbuf.Spares msg.val
  | .logWriteMsgClear, _ => True

/-! ## Where the messages stand -/

/-- The messages `strs` are kept: behind at most one end of a message, or around the end of the
ring. -/
inductive Kept : Logbuf → List CStr → Prop
  | flat (ends strs : List CStr) (rest : List UInt8) (hends : ends.length ≤ 1)
      (hrest : rest ≠ []) :
      Kept ⟨(storedAll ends).length, (storedAll (ends ++ strs)).length,
        storedAll (ends ++ strs) ++ rest⟩ strs
  | wrapped (rem : CStr) (new : List CStr) (gap : List UInt8) (old : List CStr) (front : CStr)
      (hgap : gap ≠ []) :
      Kept ⟨(storedAll (rem :: new)).length + gap.length, (storedAll (rem :: new)).length,
        storedAll (rem :: new) ++ gap ++ storedAll (old ++ [front])⟩
        (old ++ [front.append rem] ++ new)

end EzpFirmware.Logwrite
