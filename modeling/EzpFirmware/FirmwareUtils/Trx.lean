import EzpFirmware.Lib.Crc
import EzpFirmware.Lib.LittleEndian

/-! # The packer of flash images

`trx` puts files one behind the other into one block of memory, with a header at
its front. Its options act one after the other on the end of what is there. The
block is allocated once and enlarged or cut by `-m`, but the pointer to the header
is the one into the first block. Lengths are `size_t`, of 64 bits, and `cur_len`
is a `uint32_t`.
-/
namespace EzpFirmware.FirmwareUtils
open Lib

/-- "HDR0". -/
def TRX_MAGIC : ℕ := 0x30524448

def TRX_VERSION : ℕ := 1

def TRX_MAX_LEN : ℕ := 0x5A0000

/-- `sizeof(struct trx_header)`. -/
def TRX_HEADER : ℕ := 28

/-- `struct trx_header`, by the offsets of its fields. -/
def MAGIC : ℕ := 0

def LEN : ℕ := 4

def CRC32 : ℕ := 8

def FLAG_VERSION : ℕ := 12

def OFFSETS : ℕ := 16

/-- A value in a `size_t` or an `unsigned long`. -/
def ulong (n : ℕ) : ℕ := n % 2 ^ 64

/-- A value in a `uint32_t`. -/
def uint32 (n : ℕ) : ℕ := n % 2 ^ 32

/-- `crc32buf`. -/
def crc32buf (buf : List UInt8) : UInt32 := crcBytes 0xedb88320 0xffffffff buf

/-! ## The command line -/

/-- What `strtoul` makes of an argument, if it is a number to its end. -/
abbrev Number := Option (Fin (2 ^ 64))

/-- A file that is named. -/
inductive File where
  /-- It cannot be opened. -/
  | missing
  /-- Reading fails on the way. -/
  | broken
  | holds (bytes : List UInt8)

/-- What `realloc` answers. -/
inductive Realloc where
  | failed
  | block (moved : Bool)

/-- An option with its argument, and what the system answers to it. -/
inductive Opt where
  /-- `-f` and a plain argument, or `-A`. -/
  | file (append : Bool) (arg : File)
  /-- `-o`. -/
  | output (opens : Bool)
  /-- `-m`. -/
  | maxlen (arg : Number) (answer : Realloc)
  /-- `-a`. -/
  | align (arg : Number)
  /-- `-b`. -/
  | offset (arg : Number)
  | unknown

/-! ## The block -/

/-- How the program ends without an image. -/
inductive Stop where
  /-- It leaves with a message. -/
  | rejected
  /-- An access outside the block, or by a pointer to a block that is given back. -/
  | outside
  deriving DecidableEq

/-- The local variables of `main`. `maxlen` is the length of `buf`. -/
structure Packing where
  buf : List UInt8
  /-- `p` points to the block. -/
  held : Bool
  curLen : ℕ
  /-- The slot of the next offset. -/
  i : ℕ
  /-- `in` is set. -/
  opened : Bool
  /-- The number of blocks that were allocated before. -/
  blocks : ℕ

/-- A write to a block. -/
def put (buf : List UInt8) (at' : ℕ) (bytes : List UInt8) : Except Stop (List UInt8) :=
  if bytes = [] ∨ at' + bytes.length ≤ buf.length then .ok (poke buf at' bytes)
  else .error .outside

/-- A word that is stored by `p`. -/
def Packing.store (s : Packing) (field n : ℕ) : Except Stop Packing :=
  if s.held then do
    let buf ← put s.buf field (leBytes 4 n)
    pure { s with buf := buf }
  else .error .outside

/-- Zeros behind what is there. -/
def Packing.clear (s : Packing) (n : ℕ) : Except Stop Packing := do
  let buf ← put s.buf s.curLen (List.replicate n 0)
  pure { s with buf := buf, curLen := uint32 (s.curLen + n) }

/-- The distance to the next multiple of `round`, a power of two. -/
def toRound (round n : ℕ) : ℕ := if n &&& (round - 1) = 0 then 0 else round - (n &&& (round - 1))

/-! ## The options -/

/-- What follows the opening of a file. -/
def Packing.read (s : Packing) (bytes : List UInt8) : Except Stop Packing :=
  if ulong (s.buf.length + 2 ^ 64 - s.curLen) ≤ bytes.length then .error .rejected
  else do
    let buf ← put s.buf s.curLen bytes
    let pad := toRound 4 bytes.length
    let buf ← put buf (s.curLen + bytes.length) (List.replicate pad 0)
    pure { s with buf := buf, curLen := uint32 (s.curLen + (bytes.length + pad)), opened := true }

/-- `-f` and `-A`. -/
def Packing.addFile (s : Packing) (append : Bool) (arg : File) : Except Stop Packing := do
  let s ← if append then pure s
    else do
      let s ← s.store (OFFSETS + 4 * s.i) s.curLen
      pure { s with i := s.i + 1 }
  match arg with
  | .missing => .error .rejected
  | .broken => .error .rejected
  | .holds bytes => s.read bytes

/-- `-m`. `heap` is what stands in the memory that each allocation adds. -/
def Packing.resize (heap : ℕ → ℕ → UInt8) (s : Packing) (arg : Number) (answer : Realloc) :
    Except Stop Packing :=
  match arg with
  | none => .error .rejected
  | some n =>
    let maxlen := ulong (n + toRound 0x1000 n)
    if maxlen < 0x1000 then .error .rejected
    else
      match answer with
      | .failed => .error .rejected
      | .block moved =>
        .ok { s with
          buf := s.buf.take maxlen ++ tabulate (maxlen - s.buf.length) (heap s.blocks)
          held := s.held && !moved
          blocks := s.blocks + 1 }

/-- What `-a` adds. -/
def alignBy (n curLen : ℕ) : ℕ :=
  let rest := curLen &&& ulong (n + 2 ^ 64 - 1)
  if rest = 0 then 0 else ulong (n + 2 ^ 64 - rest)

/-- `-a`. -/
def Packing.align (s : Packing) (arg : Number) : Except Stop Packing :=
  match arg with
  | none => .error .rejected
  | some n => s.clear (alignBy n s.curLen)

/-- `-b`. An offset that lies in front of the end is only warned about. -/
def Packing.moveTo (s : Packing) (arg : Number) : Except Stop Packing :=
  match arg with
  | none => .error .rejected
  | some n => if (n : ℕ) < s.curLen then .ok s else s.clear (n - s.curLen)

/-- A turn of the loop over the options. -/
def Packing.option (heap : ℕ → ℕ → UInt8) (s : Packing) : Opt → Except Stop Packing
  | .file append arg => s.addFile append arg
  | .output opens => if opens then .ok s else .error .rejected
  | .maxlen arg answer => s.resize heap arg answer
  | .align arg => s.align arg
  | .offset arg => s.moveTo arg
  | .unknown => .error .rejected

/-- The loop over the options. -/
def Packing.options (heap : ℕ → ℕ → UInt8) : Packing → List Opt → Except Stop Packing
  | s, [] => .ok s
  | s, o :: os => do
    let s ← s.option heap o
    options heap s os

/-! ## The image -/

/-- `p->crc32` and `p->len`. -/
def Packing.seal (s : Packing) : Except Stop Packing :=
  let len := ulong (s.curLen + 2 ^ 64 - FLAG_VERSION)
  if s.held ∧ FLAG_VERSION + len ≤ s.buf.length then do
    let s ← s.store CRC32 (crc32buf ((s.buf.drop FLAG_VERSION).take len)).toNat
    s.store LEN s.curLen
  else .error .outside

/-- `fwrite`, which reports that nothing was written if there is nothing to write. -/
def Packing.write (s : Packing) : Except Stop (List UInt8) :=
  if s.curLen = 0 then .error .rejected
  else if s.buf.length < s.curLen then .error .outside
  else .ok (s.buf.take s.curLen)

/-- What follows the options. -/
def Packing.finish (s : Packing) : Except Stop (List UInt8) :=
  if s.opened then do
    let s ← s.clear (toRound 0x1000 s.curLen)
    let s ← s.seal
    s.write
  else .error .rejected

/-- The first block, with what is known of the header. -/
def Packing.start (heap : ℕ → ℕ → UInt8) : Packing where
  buf := poke (poke (tabulate TRX_MAX_LEN (heap 0)) MAGIC (leBytes 4 TRX_MAGIC)) FLAG_VERSION
    (leBytes 4 (TRX_VERSION <<< 16))
  held := true
  curLen := TRX_HEADER
  i := 0
  opened := false
  blocks := 1

/-- `main`: the image that is written. -/
def trx (heap : ℕ → ℕ → UInt8) (opts : List Opt) : Except Stop (List UInt8) := do
  let s ← (Packing.start heap).options heap opts
  s.finish

/-! ## Where the files of an image belong

The layout that a command line asks for, in numbers without bounds: where each
`-f` file starts, which bytes belong to it, and where the end and the room of the
block are between the options. `Fits` says that the options stay in the room, and
`Described` what an image of this layout looks like.
-/

/-- A file with the zeros behind it. -/
def padded (bytes : List UInt8) : List UInt8 := bytes ++ List.replicate (toRound 4 bytes.length) 0

/-- A `-f` file with its `-A` files. -/
structure Group where
  start : ℕ
  bytes : List UInt8
  /-- Each `-A` file was put right behind what is in front of it. -/
  joined : Bool

/-- Where the next file goes, the room of the block, and what was put down, the latest first. -/
structure Cursor where
  pos : ℕ
  room : ℕ
  groups : List Group

def Cursor.start : Cursor := ⟨TRX_HEADER, TRX_MAX_LEN, []⟩

/-- What an option puts behind the end of what is there. -/
def Opt.adds (pos : ℕ) : Opt → List UInt8
  | .file _ (.holds bytes) => padded bytes
  | .align (some n) => List.replicate (alignBy n pos) 0
  | .offset (some n) => List.replicate (n - pos) 0
  | _ => []

/-- A length in whole pages. -/
def toPage (n : ℕ) : ℕ := n + toRound 0x1000 n

/-- The room behind an option. -/
def Cursor.leaves (c : Cursor) : Opt → ℕ
  | .maxlen (some n) _ => toPage n
  | _ => c.room

/-- A `-A` file belongs to the latest `-f` file. -/
def Cursor.extend (pos : ℕ) (bytes : List UInt8) : List Group → List Group
  | [] => []
  | g :: gs => ⟨g.start, g.bytes ++ bytes, g.joined && pos == g.start + g.bytes.length⟩ :: gs

/-- The groups behind an option. -/
def Cursor.placed (c : Cursor) : Opt → List Group
  | .file true (.holds bytes) => extend c.pos (padded bytes) c.groups
  | .file false (.holds bytes) => ⟨c.pos, padded bytes, true⟩ :: c.groups
  | _ => c.groups

/-- What an option does to the layout. -/
def Cursor.next (c : Cursor) (o : Opt) : Cursor :=
  ⟨c.pos + (o.adds c.pos).length, c.leaves o, c.placed o⟩

/-- The layout of a command line. -/
def layout (opts : List Opt) : Cursor := opts.foldl Cursor.next Cursor.start

/-- The `-f` files in their order. -/
def files (opts : List Opt) : List Group := (layout opts).groups.reverse

/-! ## What fits -/

/-- What an option puts down stays in the room, in front of 4 GiB. -/
def Cursor.Roomy (c : Cursor) (o : Opt) : Prop :=
  o.adds c.pos = [] ∨
    c.pos + (o.adds c.pos).length ≤ c.room ∧ c.pos + (o.adds c.pos).length < 2 ^ 32

/-- No byte of a file lies behind the room. -/
def Cursor.Within (c : Cursor) (room : ℕ) : Prop :=
  ∀ g ∈ c.groups, g.bytes = [] ∨ g.start + g.bytes.length ≤ room

/-- An option `-m` leaves the block where it is and cuts off no file. -/
def Cursor.Keeps (c : Cursor) : Opt → Prop
  | .maxlen (some n) (.block moved) => moved = false ∧ c.Within (toPage n)
  | _ => True

/-- The last page fits. -/
def Cursor.Ends (c : Cursor) : Prop := c.pos ≤ c.room ∧ toPage c.pos < 2 ^ 32

/-- Each option of a command line fits, and so does the last page. -/
def Cursor.Fit : Cursor → List Opt → Prop
  | c, [] => c.Ends
  | c, o :: os => (c.Roomy o ∧ c.Keeps o) ∧ (c.next o).Fit os

/-- A command line whose files have a place in the block and in the header. -/
structure Fits (opts : List Opt) : Prop where
  fit : Cursor.start.Fit opts
  slots : (files opts).length ≤ 3
  joined : ∀ g ∈ files opts, g.joined

/-! ## What an image is -/

/-- A word of the header. -/
def word (image : List UInt8) (field : ℕ) : ℕ := ofLe ((image.drop field).take 4)

/-- An image as the command line describes it. -/
structure Described (opts : List Opt) (image : List UInt8) : Prop where
  magic : word image MAGIC = TRX_MAGIC
  len : word image LEN = image.length
  whole : 4096 ∣ image.length
  crc : word image CRC32 = (crc32buf (image.drop FLAG_VERSION)).toNat
  /-- There is an offset for each `-f` file, which says where it is. -/
  offsets : ∀ k g, (files opts)[k]? = some g → k < 3 ∧ word image (OFFSETS + 4 * k) = g.start
  /-- There stand its bytes, followed by those of its `-A` files. -/
  stands : ∀ g ∈ files opts, Holds image g.start g.bytes
  joined : ∀ g ∈ files opts, g.joined

/-! ## The arithmetic of rounding -/

theorem toRound_page (n : ℕ) : toRound 0x1000 n = (4096 - n % 4096) % 4096 := by
  have hmask : n &&& (0x1000 - 1) = n % 4096 := Nat.and_two_pow_sub_one_eq_mod n 12
  rw [toRound, hmask]
  split_ifs <;> omega

theorem padded_length (bytes : List UInt8) :
    (padded bytes).length = bytes.length + toRound 4 bytes.length := by
  rw [padded, List.length_append, List.length_replicate]

theorem toPage_eq (n : ℕ) : toPage n = (n + 4095) / 4096 * 4096 := by
  rw [toPage, toRound_page]
  omega

/-! ## How the layout grows -/

/-- A `-f` file that is read gets an offset. -/
def Opt.first : Opt → Bool
  | .file false (.holds _) => true
  | _ => false

/-- What an option does to the groups. -/
inductive Cursor.Placing (c : Cursor) (o : Opt) : Prop where
  | behind (bytes : List UInt8) (ho : o = .file true (.holds bytes)) (hfirst : o.first = false)
      (h : c.placed o = extend c.pos (o.adds c.pos) c.groups)
  | new (bytes : List UInt8) (ho : o = .file false (.holds bytes)) (hfirst : o.first = true)
      (h : c.placed o = ⟨c.pos, o.adds c.pos, true⟩ :: c.groups)
  | none (hfirst : o.first = false) (h : c.placed o = c.groups)

theorem Cursor.placing (c : Cursor) (o : Opt) : c.Placing o := by
  cases o with
  | file append arg =>
    cases arg with
    | holds bytes =>
      cases append with
      | true => exact .behind bytes rfl rfl rfl
      | false => exact .new bytes rfl rfl rfl
    | _ => cases append <;> exact .none rfl rfl
  | _ => exact .none rfl rfl

/-- A group that is complete, or to which more was added. -/
structure Group.Grows (g g' : Group) : Prop where
  start : g'.start = g.start
  bytes : g.bytes <+: g'.bytes
  joined : g'.joined → g.joined

theorem Group.Grows.refl (g : Group) : g.Grows g := ⟨rfl, List.prefix_rfl, id⟩

theorem Group.Grows.trans {g g' g'' : Group} (h : g.Grows g') (h' : g'.Grows g'') :
    g.Grows g'' :=
  ⟨h'.start.trans h.start, h.bytes.trans h'.bytes, h.joined ∘ h'.joined⟩

/-- A group of an extended list is one of the list, or its first one with more bytes. -/
theorem Cursor.mem_extend {pos : ℕ} {bytes : List UInt8} {gs : List Group} {g : Group}
    (h : g ∈ extend pos bytes gs) : g ∈ gs ∨ ∃ a ∈ gs, g.start = a.start ∧
      g.bytes = a.bytes ++ bytes ∧ (g.joined → a.joined ∧ pos = a.start + a.bytes.length) := by
  cases gs with
  | nil => cases h
  | cons a gs =>
    rcases List.mem_cons.mp h with rfl | h
    · refine Or.inr ⟨a, List.mem_cons_self, rfl, rfl, fun hj => ?_⟩
      rw [Bool.and_eq_true_iff, beq_iff_eq] at hj
      exact hj
    · exact Or.inl (List.mem_cons_of_mem _ h)

theorem Cursor.grows_next (c : Cursor) (o : Opt) {g : Group} (hg : g ∈ c.groups) :
    ∃ g' ∈ (c.next o).groups, g.Grows g' := by
  change ∃ g' ∈ c.placed o, g.Grows g'
  cases c.placing o with
  | behind bytes ho hfirst h =>
    rw [h]
    cases hgs : c.groups with
    | nil => simp [hgs] at hg
    | cons a gs =>
      rw [hgs] at hg
      rcases List.mem_cons.mp hg with rfl | hg
      · refine ⟨_, List.mem_cons_self, rfl, List.prefix_append _ _, fun hj => ?_⟩
        exact (Bool.and_eq_true_iff.mp hj).1
      · exact ⟨g, List.mem_cons_of_mem _ hg, Group.Grows.refl g⟩
  | new bytes ho hfirst h =>
    rw [h]
    exact ⟨g, List.mem_cons_of_mem _ hg, Group.Grows.refl g⟩
  | none hfirst h =>
    rw [h]
    exact ⟨g, hg, Group.Grows.refl g⟩

theorem Cursor.grows (opts : List Opt) : ∀ (c : Cursor) {g : Group}, g ∈ c.groups →
    ∃ g' ∈ (opts.foldl Cursor.next c).groups, g.Grows g' := by
  induction opts with
  | nil => exact fun c g hg => ⟨g, hg, Group.Grows.refl g⟩
  | cons o os ih =>
    intro c g hg
    obtain ⟨g₁, hg₁, hgrow₁⟩ := c.grows_next o hg
    obtain ⟨g₂, hg₂, hgrow₂⟩ := ih (c.next o) hg₁
    exact ⟨g₂, hg₂, hgrow₁.trans hgrow₂⟩

/-- Where the `-f` files start, in their order. -/
def Cursor.starts (c : Cursor) : List ℕ := (c.groups.map Group.start).reverse

theorem Cursor.starts_next (c : Cursor) (o : Opt) :
    (c.next o).starts = c.starts ++ if o.first then [c.pos] else [] := by
  change ((c.placed o).map Group.start).reverse = _
  cases c.placing o with
  | behind bytes ho hfirst h =>
    rw [h, hfirst]
    cases hgs : c.groups <;> simp [starts, hgs, extend]
  | new bytes ho hfirst h =>
    rw [h, hfirst]
    simp [starts]
  | none hfirst h =>
    rw [h, hfirst]
    simp [starts]

theorem Cursor.length_starts (c : Cursor) : c.starts.length = c.groups.length := by simp [starts]

theorem Cursor.length_next (c : Cursor) (o : Opt) :
    (c.next o).groups.length = if o.first then c.groups.length + 1 else c.groups.length := by
  rw [← length_starts, starts_next, List.length_append, length_starts]
  split_ifs <;> rfl

theorem Cursor.length_le (opts : List Opt) : ∀ c : Cursor,
    c.groups.length ≤ (opts.foldl Cursor.next c).groups.length := by
  induction opts with
  | nil => exact fun c => le_rfl
  | cons o os ih =>
    intro c
    apply le_trans _ (ih (c.next o))
    rw [length_next]
    split_ifs <;> omega

/-- What has been put down lies between the header and the end. -/
structure Cursor.Sound (c : Cursor) : Prop where
  front : TRX_HEADER ≤ c.pos
  starts : ∀ g ∈ c.groups, TRX_HEADER ≤ g.start ∧ g.start ≤ c.pos
  ends : ∀ g ∈ c.groups, g.joined → g.start + g.bytes.length ≤ c.pos

theorem Cursor.Sound.start : Cursor.start.Sound := ⟨le_rfl, nofun, nofun⟩

theorem Cursor.Sound.next {c : Cursor} (h : c.Sound) (o : Opt) : (c.next o).Sound := by
  have hpos : (c.next o).pos = c.pos + (o.adds c.pos).length := rfl
  constructor
  · exact h.front.trans (Nat.le_add_right _ _)
  · intro g hg
    change g ∈ c.placed o at hg
    have hold : ∀ a ∈ c.groups, TRX_HEADER ≤ a.start ∧ a.start ≤ (c.next o).pos :=
      fun a ha => ⟨(h.starts a ha).1, (h.starts a ha).2.trans (Nat.le_add_right _ _)⟩
    cases c.placing o with
    | behind bytes ho hfirst hplaced =>
      rw [hplaced] at hg
      rcases mem_extend hg with hg | ⟨a, ha, hstart, -⟩
      · exact hold g hg
      · rw [hstart]
        exact hold a ha
    | new bytes ho hfirst hplaced =>
      rw [hplaced] at hg
      rcases List.mem_cons.mp hg with rfl | hg
      · exact ⟨h.front, Nat.le_add_right _ _⟩
      · exact hold g hg
    | none hfirst hplaced =>
      rw [hplaced] at hg
      exact hold g hg
  · intro g hg hj
    change g ∈ c.placed o at hg
    have hold : ∀ a ∈ c.groups, a.joined → a.start + a.bytes.length ≤ (c.next o).pos :=
      fun a ha hj => (h.ends a ha hj).trans (Nat.le_add_right _ _)
    cases c.placing o with
    | behind bytes ho hfirst hplaced =>
      rw [hplaced] at hg
      rcases mem_extend hg with hg | ⟨a, ha, hstart, hbytes, hja⟩
      · exact hold g hg hj
      · have hend := (hja hj).2
        rw [hstart, hbytes, List.length_append, hpos]
        omega
    | new bytes ho hfirst hplaced =>
      rw [hplaced] at hg
      rcases List.mem_cons.mp hg with rfl | hg
      · exact le_rfl
      · exact hold g hg hj
    | none hfirst hplaced =>
      rw [hplaced] at hg
      exact hold g hg hj

theorem Cursor.Sound.foldl (opts : List Opt) : ∀ {c : Cursor}, c.Sound →
    (opts.foldl Cursor.next c).Sound := by
  induction opts with
  | nil => exact fun h => h
  | cons o os ih => exact fun h => ih (h.next o)

theorem Cursor.pos_le (opts : List Opt) : ∀ c : Cursor,
    c.pos ≤ (opts.foldl Cursor.next c).pos := by
  induction opts with
  | nil => exact fun c => le_rfl
  | cons o os ih => exact fun c => (Nat.le_add_right _ _).trans (ih (c.next o))

end EzpFirmware.FirmwareUtils
