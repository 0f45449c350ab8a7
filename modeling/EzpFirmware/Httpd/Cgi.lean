import EzpFirmware.KernelNvram.Image
import EzpFirmware.Lib.Memory
import EzpFirmware.Lib.Scanning

/-! # The variables of a request

A form is decoded in place, in the memory it was read into. One hash table of
the process holds pointers to the names and values found there; it is filled for
a request and has to be emptied by the code that serves it. The memory from a
buffer on is a list of bytes, with zeros behind its end.
-/
namespace EzpFirmware.Httpd
open Lib

/-- What the C library leaves to its implementation. -/
structure Libc where
  /-- The hash of a key in `hsearch_r`. -/
  hash : CStr → ℕ
  /-- The room of a table that `hcreate_r` makes for a number of entries. -/
  tableSize : ℕ → ℕ
  /-- What `sscanf` with `%02x` stores for a text, as a `char`. -/
  sscanf : CStr → Option UInt8

def isPrime (n : ℕ) : Bool := 2 ≤ n && (List.range n).all fun d => d < 2 || n % d ≠ 0

/-- The usual library, for texts that start with a digit or with none. -/
def libc : Libc where
  hash key := max 1 (key.val.foldr (fun b h => (h * 16 + b.toNat) % 2 ^ 32) key.len)
  tableSize nel :=
    let least := max nel 3
    ((List.range (least + 1)).map (least + ·)).find? isPrime |>.getD least
  sscanf s :=
    match s.val.map hexDigit with
    | some a :: some b :: _ => some (a * 16 + b)
    | some a :: _ => some a
    | _ => none

/-- The two buffers that forms are in: `post_buf`, and the line of the request. -/
inductive Buffer where
  | post
  | line
  deriving DecidableEq

structure Ptr where
  buf : Buffer
  pos : ℕ
  deriving DecidableEq

/-- `ENTRY`, with the hash under which it was entered. -/
structure Entry where
  hash : ℕ
  key : Ptr
  data : Ptr
  deriving DecidableEq

/-- The table of `hsearch_r`, its entries in the order of their insertion. -/
structure Table where
  size : ℕ
  entries : List Entry
  deriving DecidableEq

/-- The memory behind the variables, and `htab`. -/
structure Cgi where
  post : List UInt8
  line : List UInt8
  htab : Option Table

def Cgi.mem (c : Cgi) : Buffer → List UInt8
  | .post => c.post
  | .line => c.line

def Cgi.setMem (c : Cgi) (m : List UInt8) : Buffer → Cgi
  | .post => { c with post := m }
  | .line => { c with line := m }

/-- The string at a pointer. -/
def Cgi.text (c : Cgi) (p : Ptr) : CStr := CStr.read ((c.mem p.buf).drop p.pos)

def PERCENT : UInt8 := 0x25

def AMP : UInt8 := 0x26

def SEMICOLON : UInt8 := 0x3b

section
variable (L : Libc)

/-- `unescape` on the memory from `s` on, which it leaves behind changed. `c` keeps its value when
`sscanf` finds no number, and the text behind the escape is moved with the length it has with its
first two bytes. -/
def unescape : ℕ → UInt8 → List UInt8 → List UInt8
  | 0, _, s => s
  | _ + 1, _, [] => []
  | n + 1, c, b :: s =>
    if b = 0 then b :: s
    else if b = PERCENT then
      let c := (L.sscanf (CStr.read s)).getD c
      c :: unescape n c (strncpy s (s.drop 2) ((CStr.read s).len + 1))
    else if b = PLUS then SPACE :: unescape n c s
    else b :: unescape n c s

/-- `unescape` at a position of the memory. -/
def unescapeAt (junk : UInt8) (q : ℕ) (m : List UInt8) : List UInt8 :=
  m.take q ++ unescape L (m.drop q).length junk (m.drop q)

/-- The search of `hsearch_r`: an entry is met if its hash is right, and taken if its key, as the
memory has it now, is. -/
def hsearch (c : Cgi) (name : CStr) (e : Entry) : Bool :=
  e.hash = L.hash name ∧ c.text e.key = name

/-- What `get_cgi` gives for each name. -/
abbrev Form := CStr → Option CStr

/-- `get_cgi`. -/
def getCgi (c : Cgi) : Form := fun name =>
  match c.htab with
  | none => none
  | some t => (t.entries.find? (hsearch L c name)).map fun e => c.text e.data

/-- Another value for the first entry that is found. -/
def setData (found : Entry → Bool) (value : Ptr) : List Entry → List Entry
  | [] => []
  | e :: es => if found e then { e with data := value } :: es else e :: setData found value es

/-- `set_cgi`. A full table takes no further entry. -/
def setCgi (name value : Ptr) (c : Cgi) : Cgi :=
  match c.htab with
  | none => c
  | some t =>
    let found := hsearch L c (c.text name)
    if t.entries.any found then
      { c with htab := some { t with entries := setData found value t.entries } }
    else if t.entries.length < t.size then
      { c with htab := some { t with
          entries := t.entries ++ [⟨L.hash (c.text name), name, value⟩] } }
    else c

/-- The memory after all calls of `strsep` with the separators of assignments. -/
def cutSeparators (s : List UInt8) : List UInt8 :=
  s.map fun b => if b = AMP ∨ b = SEMICOLON then 0 else b

/-- The first position from `q` on that is not zero, or `stop`. -/
def skipZeros (m : List UInt8) (stop q : ℕ) : ℕ :=
  q + (((m.drop q).take (stop - q)).takeWhile (· = 0)).length

/-- One round of the loop of `init_cgi`: where the next assignment starts, and the state. `junk` is
what the unset variable of `unescape` holds. -/
def assignCgi (junk : UInt8) (b : Buffer) (stop q : ℕ) (c : Cgi) : ℕ × Cgi :=
  let m := unescapeAt L junk q (c.mem b)
  let name := CStr.read (m.drop q)
  let next := skipZeros m stop (q + name.len)
  match CStr.cut KernelNvram.EQ name with
  | none => (next, c.setMem m b)
  | some a =>
    let c := c.setMem (poke m (q + a.1.len) [0]) b
    (next, setCgi L ⟨b, q⟩ ⟨b, q + a.1.len + 1⟩ c)

/-- The loop of `init_cgi` from `q` on. -/
def assignments (junk : UInt8) (b : Buffer) (stop : ℕ) : ℕ → ℕ → Cgi → Cgi
  | 0, _, c => c
  | n + 1, q, c =>
    if q < stop then
      let r := assignCgi L junk b stop q c
      assignments junk b stop n r.1 r.2
    else c

/-- The first part of `init_cgi`: the separators are cut, and there is a table. One that is there
already stays in place. -/
def openCgi (q : Ptr) (c : Cgi) : Cgi :=
  let text := (c.text q).val
  let nel := text.countP (fun b => b = AMP ∨ b = SEMICOLON) + 2
  let m := c.mem q.buf
  { c.setMem (m.take q.pos ++ cutSeparators text ++ m.drop (q.pos + text.length)) q.buf with
    htab := some (c.htab.getD ⟨L.tableSize nel, []⟩) }

/-- `init_cgi`. -/
def initCgi (junk : UInt8) (query : Option Ptr) (c : Cgi) : Cgi :=
  match query with
  | none => { c with htab := none }
  | some q =>
    let len := (c.text q).len
    assignments L junk q.buf (q.pos + len) len q.pos (openCgi L q c)

end

/-! ## The memory behind the table -/

section
variable {L : Libc}

@[simp] theorem setMem_mem (c : Cgi) (m : List UInt8) (b : Buffer) : (c.setMem m b).mem b = m := by
  cases b <;> rfl

@[simp] theorem setMem_htab (c : Cgi) (m : List UInt8) (b : Buffer) :
    (c.setMem m b).htab = c.htab := by
  cases b <;> rfl

@[simp] theorem mem_htab (c : Cgi) (t : Option Table) (b : Buffer) :
    Cgi.mem { c with htab := t } b = c.mem b := by
  cases b <;> rfl

theorem setCgi_mem (name value : Ptr) (c : Cgi) (b : Buffer) :
    (setCgi L name value c).mem b = c.mem b := by
  unfold setCgi
  cases c.htab with
  | none => rfl
  | some t =>
    dsimp only
    split_ifs <;> cases b <;> rfl

/-- A decoder never shortens the memory. -/
theorem unescape_length_ge (n : ℕ) (c : UInt8) (s : List UInt8) :
    s.length ≤ (unescape L n c s).length := by
  induction n generalizing c s with
  | zero => exact le_rfl
  | succ n ih =>
    cases s with
    | nil => exact le_rfl
    | cons b s =>
      rw [unescape]
      split_ifs
      · exact le_rfl
      · have hs := ih ((L.sscanf (CStr.read s)).getD c)
          (strncpy s (s.drop 2) ((CStr.read s).len + 1))
        simp only [strncpy, List.length_append, List.length_replicate, List.length_drop] at hs
        simp only [List.length_cons, strncpy]
        omega
      · simpa using ih c s
      · simpa using ih c s

theorem unescapeAt_length_ge (junk : UInt8) (q : ℕ) (m : List UInt8) :
    m.length ≤ (unescapeAt L junk q m).length := by
  have h := unescape_length_ge (L := L) (m.drop q).length junk (m.drop q)
  simp only [unescapeAt, List.length_append, List.length_take, List.length_drop] at h ⊢
  omega

/-- Every round of the loop comes closer to the end and keeps the memory. -/
theorem assignCgi_step {b : Buffer} {stop q : ℕ} {c : Cgi} (junk : UInt8) (hq : q < stop)
    (hm : stop ≤ (c.mem b).length) :
    q < (assignCgi L junk b stop q c).1 ∧
      stop ≤ ((assignCgi L junk b stop q c).2.mem b).length := by
  have hl := unescapeAt_length_ge (L := L) junk q (c.mem b)
  unfold assignCgi
  dsimp only
  generalize unescapeAt L junk q (c.mem b) = m at hl
  have hnext : q < skipZeros m stop (q + (CStr.read (m.drop q)).len) := by
    cases hd : m.drop q with
    | nil => exact absurd (List.drop_eq_nil_iff.mp hd) (by omega)
    | cons a s =>
      by_cases ha : a = 0
      · -- an empty assignment: its terminator is skipped
        obtain ⟨k, hk⟩ := Nat.exists_eq_succ_of_ne_zero (Nat.sub_ne_zero_of_lt hq)
        have hread : (CStr.read (a :: s)).len = 0 := by simp [CStr.read, CStr.len, ha]
        rw [hread, Nat.add_zero, skipZeros, hd, hk, List.take_succ_cons, ha, List.takeWhile_cons]
        simp
      · have hread : 0 < (CStr.read (a :: s)).len := by simp [CStr.read, CStr.len, ha]
        exact (Nat.lt_add_of_pos_right hread).trans_le (Nat.le_add_right _ _)
  cases hcut : CStr.cut KernelNvram.EQ (CStr.read (m.drop q)) with
  | none => exact ⟨hnext, by rw [setMem_mem]; omega⟩
  | some a =>
    have hcl := CStr.cut_length hcut
    have hrl := CStr.read_len_le (m.drop q)
    rw [List.length_drop] at hrl
    refine ⟨hnext, ?_⟩
    rw [setCgi_mem, setMem_mem, poke_length (by rw [List.length_singleton]; omega)]
    omega

/-- The loop ends within the length of the text: more rounds change nothing. -/
theorem assignments_fuel {b : Buffer} {stop n n' : ℕ} (junk : UInt8) :
    ∀ {q : ℕ} {c : Cgi}, stop - q ≤ n → stop - q ≤ n' → stop ≤ (c.mem b).length →
      assignments L junk b stop n q c = assignments L junk b stop n' q c := by
  induction n generalizing n' with
  | zero =>
    intro q c hn _ _
    cases n' with
    | zero => rfl
    | succ n' => rw [assignments, assignments, if_neg (by omega)]
  | succ n ih =>
    intro q c hn hn' hm
    by_cases hq : q < stop
    · obtain ⟨n', rfl⟩ := Nat.exists_eq_succ_of_ne_zero (show n' ≠ 0 by omega)
      obtain ⟨hlt, hm'⟩ := assignCgi_step (L := L) junk hq hm
      rw [assignments, assignments, if_pos hq, if_pos hq]
      exact ih (by omega) (by omega) hm'
    · cases n' with
      | zero => rw [assignments, assignments, if_neg hq]
      | succ n' => rw [assignments, assignments, if_neg hq, if_neg hq]

end

end EzpFirmware.Httpd
