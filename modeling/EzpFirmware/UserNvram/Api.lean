import EzpFirmware.Lib.Programs
import EzpFirmware.KernelNvram.Image

/-! # The checked interface to the variables

`nvram_set` looks a name up in the table of defaults. It refuses names that are
not there, and protected variables that have a value; everything else it hands
to the device. The device, its allocator and the memory behind the buffers of a
process are a parameter, so that a program over `nvram_get` and `nvram_set` can
be run on the kernel table or on a plain map.
-/
namespace EzpFirmware.UserNvram
open Lib KernelNvram

/-- Behaviour the language does not define. -/
inductive Fault where
  /-- A copy past the end of a buffer. -/
  | overflow
  /-- A number is compared before it was set. -/
  | uninitialised
  /-- A row of a table that does not exist. -/
  | outOfTable (i : ℤ)
  deriving DecidableEq

def EINVAL : ℤ := 22

def EACCES : ℤ := 13

/-- Not allowed to be overwritten; an empty value can be written once. -/
def NVRAM_PROTECTED : UInt32 := 0x02

/-- For temporary use. -/
def NVRAM_TEMP : UInt32 := 0x04

def NVRAM_UNDEFINED : UInt32 := 0x80000000

/-- A flag of an option. -/
def hasOption (option flag : UInt32) : Bool := option &&& flag != 0

/-- `struct nvram_tuple` of the table of defaults. -/
structure NvramTuple where
  name : CStr
  value : Option CStr
  option : UInt32

/-- The end of a line. -/
def NL : UInt8 := 0x0a

/-- `nvram_ezpacket_default` as a build defines it. -/
structure NvramDefault where
  rows : List NvramTuple
  names_nodup : (rows.map NvramTuple.name).Nodup
  name_short : ∀ v ∈ rows, v.name.len < 100
  name_plain : ∀ v ∈ rows, EQ ∉ v.name.val
  name_line : ∀ v ∈ rows, NL ∉ v.name.val
  name_nonempty : ∀ v ∈ rows, v.name ≠ CStr.empty
  option_defined : ∀ v ∈ rows, hasOption v.option NVRAM_UNDEFINED = false

/-- `nvram_get_option`. -/
def nvramGetOption (table : NvramDefault) (name : CStr) : UInt32 :=
  match table.rows.find? fun v => v.name = name with
  | some v => v.option
  | none => NVRAM_UNDEFINED

/-- A process that uses the library, and the device behind it. -/
structure Process (δ : Type) where
  nvramFd : Bool
  /-- Requests the system has answered so far. -/
  clock : ℕ
  /-- Writes to the device so far. -/
  writes : ℕ
  dev : δ

/-- The system under a process. The number of a request, or of a write, stands for everything its
answer can depend on besides the device. -/
structure System (δ : Type) where
  /-- What `open` and `mmap` give in `nvram_init`: 0 or an error number. -/
  openDev : ℕ → ℤ
  malloc : ℕ → Bool
  /-- The string that follows an unterminated copy on the stack. -/
  stack : CStr
  /-- The value a read of the device leads to. -/
  read : CStr → δ → Option CStr
  write : ℕ → CStr → δ → ℤ × δ

section
variable {δ : Type} (table : NvramDefault) (S : System δ)

/-- The test of `nvram_fd` and `nvram_init`. -/
def nvramInit (p : Process δ) : ℤ × Process δ :=
  if p.nvramFd then (0, p)
  else (S.openDev p.clock, { p with nvramFd := S.openDev p.clock == 0, clock := p.clock + 1 })

/-- `nvram_get`. The memory allocated for a long name is forgotten at once, and the name is copied
to the buffer of 100 bytes all the same. -/
def nvramGet (name : CStr) (p : Process δ) : Except Fault (Option CStr × Process δ) :=
  let i := nvramInit S p
  if i.1 ≠ 0 then .ok (none, i.2)
  else if name.len + 1 > 100 then
    if S.malloc i.2.clock then .error .overflow
    else .ok (none, { i.2 with clock := i.2.clock + 1 })
  else .ok (S.read name i.2.dev, i.2)

/-- The text for the device: a bare name unsets. -/
def writeText (name : CStr) (value : Option CStr) : CStr :=
  match value with
  | some v => assignment (name, v)
  | none => name

/-- `_nvram_set`. -/
def _nvramSet (name : CStr) (value : Option CStr) (p : Process δ) : ℤ × Process δ :=
  let i := nvramInit S p
  if i.1 ≠ 0 then i
  else
    let buf := writeText name value
    let count := buf.len + 1
    if count > 100 ∧ S.malloc i.2.clock = false then
      (ENOMEM, { i.2 with clock := i.2.clock + 1 })
    else
      let r := S.write i.2.writes buf i.2.dev
      (if r.1 = count then 0 else r.1,
        { i.2 with clock := i.2.clock + 1, writes := i.2.writes + 1, dev := r.2 })

/-- `strncpy(tmpname, name, sizeof(tmpname))`, which leaves a long name unterminated. -/
def tmpname (name : CStr) : CStr :=
  if name.len < 100 then name
  else ⟨name.val.take 100 ++ S.stack.val, fun h => (List.mem_append.mp h).elim
    (fun h => name.property (List.mem_of_mem_take h)) S.stack.property⟩

/-- `nvram_set`, in a build without product categories. -/
def nvramSet (name : CStr) (value : Option CStr) (p : Process δ) :
    Except Fault (ℤ × Process δ) :=
  let tmp := tmpname S name
  let opt := nvramGetOption table tmp
  if hasOption opt NVRAM_UNDEFINED then .ok (EINVAL, p)
  else if hasOption opt NVRAM_PROTECTED then
    match nvramGet S tmp p with
    | .error e => .error e
    | .ok (exist, q) =>
      if exist.any (· ≠ CStr.empty) then .ok (EACCES, q) else .ok (_nvramSet S tmp value q)
  else .ok (_nvramSet S tmp value p)

/-- The two calls through which other code reaches the variables. -/
inductive NvramCall where
  | get (name : CStr)
  | set (name : CStr) (value : Option CStr)

abbrev NvramCall.Answer : NvramCall → Type
  | .get _ => Option CStr
  | .set _ _ => ℤ

/-- Code that uses the variables. -/
abbrev Api := Program NvramCall NvramCall.Answer

def Api.get (name : CStr) : Api (Option CStr) := .call (NvramCall.get name) .done

def Api.set (name : CStr) (value : Option CStr) : Api ℤ := .call (NvramCall.set name value) .done

def nvramSafeGet (name : CStr) : Api CStr := do
  let value ← Api.get name
  pure (value.getD CStr.empty)

/-- The library as a machine. -/
def library : Machine NvramCall NvramCall.Answer (Process δ) Fault
  | .get name, p => nvramGet S name p
  | .set name value, p => nvramSet table S name value p

end

theorem run_get {δ α : Type} {table : NvramDefault} {S : System δ} (name : CStr)
    (f : Option CStr → Api α) (p : Process δ) :
    (Api.get name >>= f).run (library table S) p =
      match nvramGet S name p with
      | .ok (r, q) => (f r).run (library table S) q
      | .error e => .error e := by
  have hcall : Api.get name >>= f = .call (NvramCall.get name) f := rfl
  rw [hcall, Program.run, library]
  cases nvramGet S name p <;> rfl

theorem run_set {δ α : Type} {table : NvramDefault} {S : System δ} (name : CStr)
    (value : Option CStr) (f : ℤ → Api α) (p : Process δ) :
    (Api.set name value >>= f).run (library table S) p =
      match nvramSet table S name value p with
      | .ok (r, q) => (f r).run (library table S) q
      | .error e => .error e := by
  have hcall : Api.set name value >>= f = .call (NvramCall.set name value) f := rfl
  rw [hcall, Program.run, library]
  cases nvramSet table S name value p <;> rfl

/-! ## One call -/

section
variable {δ : Type} {S : System δ} {p : Process δ}

@[simp] theorem nvramInit_dev : (nvramInit S p).2.dev = p.dev := by
  unfold nvramInit
  split <;> rfl

@[simp] theorem nvramInit_writes : (nvramInit S p).2.writes = p.writes := by
  unfold nvramInit
  split <;> rfl

/-- A device that could be opened stays open. -/
theorem nvramInit_again (h : (nvramInit S p).1 = 0) :
    nvramInit S (nvramInit S p).2 = (0, (nvramInit S p).2) := by
  by_cases hfd : p.nvramFd
  · simp [nvramInit, hfd]
  · have ho : S.openDev p.clock = 0 := by simpa [nvramInit, hfd] using h
    simp [nvramInit, hfd, ho]

/-- Opening the device once more after a failure. -/
theorem nvramInit_retry (h : (nvramInit S p).1 ≠ 0) :
    (nvramInit S (nvramInit S p).2).1 = S.openDev (p.clock + 1) := by
  by_cases hfd : p.nvramFd
  · simp [nvramInit, hfd] at h
  · have ho : S.openDev p.clock ≠ 0 := by simpa [nvramInit, hfd] using h
    simp [nvramInit, hfd, ho]

/-- A name that fits is looked up if the device can be opened. -/
theorem nvramGet_short {name : CStr} (h : name.len < 100) :
    nvramGet S name p =
      .ok (if (nvramInit S p).1 = 0 then S.read name p.dev else none, (nvramInit S p).2) := by
  have hlen : ¬ name.len + 1 > 100 := by omega
  unfold nvramGet
  dsimp only
  by_cases hi : (nvramInit S p).1 = 0
  · rw [if_neg (not_not_intro hi), if_neg hlen, if_pos hi, nvramInit_dev]
  · rw [if_pos hi, if_neg hi]

/-- Where the device ends up after a write that is not preceded by a check. -/
theorem _nvramSet_dev (name : CStr) (value : Option CStr) :
    (_nvramSet S name value p).2.dev = p.dev ∨
      (nvramInit S p).1 = 0 ∧ (_nvramSet S name value p).2.dev =
        (S.write p.writes (writeText name value) p.dev).2 := by
  unfold _nvramSet
  dsimp only
  by_cases hi : (nvramInit S p).1 = 0
  · rw [if_neg (not_not_intro hi)]
    split
    · exact .inl nvramInit_dev
    · exact .inr ⟨hi, by rw [nvramInit_dev, nvramInit_writes]⟩
  · rw [if_pos hi]
    exact .inl nvramInit_dev

/-- With the device open and memory at hand, the text reaches the device. -/
theorem _nvramSet_granted (hfd : p.nvramFd = true) (hm : ∀ i, S.malloc i = true) (name : CStr)
    (value : Option CStr) :
    (_nvramSet S name value p).2 = { p with
      clock := p.clock + 1
      writes := p.writes + 1
      dev := (S.write p.writes (writeText name value) p.dev).2 } := by
  have hi : nvramInit S p = (0, p) := by simp [nvramInit, hfd]
  unfold _nvramSet
  simp [hi, hm]

end

/-! ## The table -/

/-- The name has a row. -/
def Defined (table : NvramDefault) (name : CStr) : Prop := ∃ v ∈ table.rows, v.name = name

theorem option_undefined_iff {table : NvramDefault} {name : CStr} :
    hasOption (nvramGetOption table name) NVRAM_UNDEFINED = true ↔ ¬ Defined table name := by
  unfold nvramGetOption
  cases hv : table.rows.find? fun v => v.name = name with
  | none =>
    rw [List.find?_eq_none] at hv
    constructor
    · rintro - ⟨v, hm, hn⟩
      exact hv v hm (by simpa using hn)
    · exact fun _ => by decide
  | some v =>
    have hm := List.mem_of_find?_eq_some hv
    have hn : v.name = name := by simpa using List.find?_some hv
    constructor
    · intro h
      have hd := table.option_defined v hm
      rw [hd] at h
      cases h
    · exact fun h => absurd ⟨v, hm, hn⟩ h

theorem option_of_mem {table : NvramDefault} {v : NvramTuple} (hv : v ∈ table.rows) :
    table.rows.find? (fun w => w.name = v.name) = some v := by
  cases hf : table.rows.find? fun w => w.name = v.name with
  | none => exact absurd (List.find?_eq_none.mp hf v hv) (by simp)
  | some w =>
    have hw := List.mem_of_find?_eq_some hf
    have hn : w.name = v.name := by simpa using List.find?_some hf
    rw [List.inj_on_of_nodup_map table.names_nodup hw hv hn]

/-- A long name is in no row. -/
theorem tmpname_defined {table : NvramDefault} {δ : Type} {S : System δ} {name : CStr}
    (h : Defined table (tmpname S name)) :
    tmpname S name = name ∧ name.len < 100 ∧ EQ ∉ name.val ∧ Defined table name := by
  by_cases hl : name.len < 100
  · have ht : tmpname S name = name := if_pos hl
    rw [ht] at h
    obtain ⟨v, hv, hn⟩ := h
    exact ⟨ht, hl, hn ▸ table.name_plain v hv, v, hv, hn⟩
  · obtain ⟨v, hv, hn⟩ := h
    have hshort := table.name_short v hv
    rw [hn, tmpname, if_neg hl] at hshort
    simp only [CStr.len, List.length_append, List.length_take] at hshort hl
    omega

/-- A defined variable that is not protected is written at once. -/
theorem nvramSet_unprotected {table : NvramDefault} {δ : Type} {S : System δ} {name : CStr}
    (hd : Defined table name) (hprot : hasOption (nvramGetOption table name) NVRAM_PROTECTED = false)
    (value : Option CStr) (p : Process δ) :
    nvramSet table S name value p = .ok (_nvramSet S name value p) := by
  have hshort : name.len < 100 := by
    obtain ⟨v, hv, hn⟩ := hd
    exact hn ▸ table.name_short v hv
  have htmp : tmpname S name = name := if_pos hshort
  have hdef : ¬ hasOption (nvramGetOption table name) NVRAM_UNDEFINED = true := fun hu =>
    option_undefined_iff.mp hu hd
  unfold nvramSet
  dsimp only
  rw [htmp, if_neg hdef, if_neg (by simp [hprot])]

end EzpFirmware.UserNvram
