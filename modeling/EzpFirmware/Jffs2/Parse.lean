import EzpFirmware.Jffs2.Append
import EzpFirmware.Lib.Walks
import Mathlib.Logic.Function.Iterate

/-! # Parsing a block of nodes

The tool goes through the nodes of an erase block to find the inode of a
directory, and the last inode and version numbers. It goes on by the length that
stands in each node, and takes the fields it needs from the memory behind the
node's start without a look at the block's end.
-/
namespace EzpFirmware.Jffs2
open Lib

/-- The variables of the file that the parser sets. The numbers are compared as unsigned. -/
structure Globals where
  targetIno : ℕ
  lastIno : ℕ
  lastVersion : ℕ
  deriving DecidableEq

/-- A field of `n` bytes, if all of it lies inside the block. -/
def load (block : List UInt8) (o n : ℕ) : Option ℕ :=
  if o + n ≤ block.length then some (ofLe ((block.drop o).take n)) else none

/-- Whether `strncmp` finds no difference between the memory at a name and the directory's
name, if it does not leave the block before it knows. -/
def strncmp : List UInt8 → List UInt8 → ℕ → Option Bool
  | _, _, 0 => some true
  | [], _, _ + 1 => none
  | c :: _, [], _ + 1 => some (c = 0)
  | c :: cs, d :: ds, n + 1 => if c = d then strncmp cs ds n else some false

section Model

variable (block : List UInt8) (dir : CStr)

/-- The test for the directory: an entry of the root whose name compares as equal over the
length of the stored name. -/
def lookForDir (ofs : ℕ) (g : Globals) : Option Globals :=
  if dir.val ≠ [] then do
    let pino ← load block (ofs + 12) 4
    if pino = 1 then do
      let nsize ← load block (ofs + 28) 1
      let same ← strncmp (block.drop (ofs + RAW_DIRENT)) dir.val nsize
      let ino ← load block (ofs + 20) 4
      return if same then { g with targetIno := ino } else g
    else return g
  else return g

/-- What is done for a directory entry. -/
def parseDirent (ofs : ℕ) (g : Globals) : Option Globals := do
  let g ← lookForDir block dir ofs g
  let ino ← load block (ofs + 20) 4
  let version ← load block (ofs + 16) 4
  return { g with
    lastIno := if g.lastIno < ino then ino else g.lastIno
    lastVersion := if g.lastVersion < version then version else g.lastVersion }

/-- A state of the parser: at an offset, done, or reading outside the block. -/
inductive Parser where
  | at (ofs : ℕ) (g : Globals)
  | stopped (g : Globals)
  | outside

/-- The body of the loop, for a node whose magic number was found. -/
def parseNode (ofs : ℕ) (g : Globals) : Option Parser := do
  let totlen ← load block (ofs + 4) 4
  let nodetype ← load block (ofs + 2) 2
  let ofs' := (ofs + PAD totlen) % 2 ^ 32
  if nodetype = JFFS2_NODETYPE_DIRENT then
    let g ← parseDirent block dir ofs g
    return .at ofs' g
  else return .at ofs' g

/-- One turn of the loop of `mtd_parse_jffs2data`. -/
def parseStep : Parser → Parser
  | .at ofs g =>
    if ofs < block.length then
      match load block ofs 2 with
      | none => .outside
      | some magic =>
        if magic ≠ JFFS2_MAGIC_BITMASK then .stopped g
        else (parseNode block dir ofs g).getD .outside
    else .stopped g
  | p => p

/-- `mtd_parse_jffs2data` ends inside the block and leaves the variables so. -/
def Parses (g g' : Globals) : Prop := ∃ n, (parseStep block dir)^[n] (.at 0 g) = .stopped g'

end Model

/-- The parser runs over block after block. -/
def ParsesAll (dir : CStr) : List (List UInt8) → Globals → Globals → Prop
  | [], g, g'' => g = g''
  | block :: blocks, g, g'' => ∃ g', Parses block dir g g' ∧ ParsesAll dir blocks g' g''

section Walk

variable {block : List UInt8} {dir : CStr}

/-- The offset of the node behind one. -/
def nextNode (block : List UInt8) (ofs : ℕ) : Option ℕ :=
  if ofs < block.length ∧ half block ofs = JFFS2_MAGIC_BITMASK then
    some ((ofs + PAD (word block (ofs + 4))) % 2 ^ 32)
  else none

/-- The stored name is inside the block, or what of it is inside is not the start of the
directory's name. -/
def NameInside (block : List UInt8) (dir : CStr) (ofs : ℕ) : Prop :=
  octet block (ofs + 28) ≤ (block.drop (ofs + RAW_DIRENT)).length ∨
    ¬ block.drop (ofs + RAW_DIRENT) <+: dir.val

/-- The fields of a directory entry that are looked at are inside the block. -/
def DirentInside (block : List UInt8) (dir : CStr) (ofs : ℕ) : Prop :=
  (dir.val ≠ [] → word block (ofs + 12) = 1 → ofs + 29 ≤ block.length ∧ NameInside block dir ofs) ∧
    ofs + 24 ≤ block.length

/-- The fields that are looked at of what stands at an offset are inside the block. -/
def HeaderInside (block : List UInt8) (dir : CStr) (ofs : ℕ) : Prop :=
  ofs + 2 ≤ block.length ∧ (half block ofs = JFFS2_MAGIC_BITMASK → ofs + 8 ≤ block.length ∧
    (half block (ofs + 2) = JFFS2_NODETYPE_DIRENT → DirentInside block dir ofs))

/-- The nodes of a block lead through it: the headers that are met lie inside it, and no length
leads back to a node that was met. -/
def Walkable (block : List UInt8) (dir : CStr) : Prop :=
  (∀ k ofs, walk (nextNode block) 0 k = some ofs → ofs < block.length →
    HeaderInside block dir ofs) ∧ NoReturn (nextNode block) 0

theorem strncmp_isSome (region dir : List UInt8) (n : ℕ) :
    (strncmp region dir n).isSome ↔ n ≤ region.length ∨ ¬ region <+: dir := by
  fun_induction strncmp region dir n with
  | case1 => simp
  | case2 => simp
  | case3 => simp
  | case4 cs c ds n ih =>
    rw [ih]
    simp
  | case5 c cs d ds n hne => simp [hne]

theorem load_word {o : ℕ} (h : o + 4 ≤ block.length) : load block o 4 = some (word block o) :=
  if_pos h

theorem load_half {o : ℕ} (h : o + 2 ≤ block.length) : load block o 2 = some (half block o) :=
  if_pos h

theorem load_octet {o : ℕ} (h : o + 1 ≤ block.length) : load block o 1 = some (octet block o) :=
  if_pos h

theorem load_outside {o n : ℕ} (h : block.length < o + n) : load block o n = none :=
  if_neg (Nat.not_le.mpr h)

/-- The test for the directory needs its fields inside the block. -/
theorem lookForDir_isSome {ofs : ℕ} (g : Globals) (h : ofs + 24 ≤ block.length) :
    (lookForDir block dir ofs g).isSome ↔
      (dir.val ≠ [] → word block (ofs + 12) = 1 →
        ofs + 29 ≤ block.length ∧ NameInside block dir ofs) := by
  rw [lookForDir]
  by_cases hdir : dir.val = []
  · simp [hdir]
  · rw [load_word (by omega)]
    by_cases hpino : word block (ofs + 12) = 1
    · by_cases hsize : ofs + 29 ≤ block.length
      · have hname : _ ↔ NameInside block dir ofs := strncmp_isSome
          (block.drop (ofs + RAW_DIRENT)) dir.val (octet block (ofs + 28))
        rw [load_octet (by omega), load_word (by omega)]
        cases hcmp : strncmp (block.drop (ofs + RAW_DIRENT)) dir.val (octet block (ofs + 28)) with
        | none =>
          have houtside : ¬ NameInside block dir ofs := by simpa [hcmp] using hname
          simp [hdir, hpino, hcmp, houtside]
        | some same =>
          have hinside : NameInside block dir ofs := by simpa [hcmp] using hname
          simp [hdir, hsize, hpino, hcmp, hinside]
      · rw [load_outside (by omega)]
        simp [hdir, hpino, hsize]
    · simp [hdir, hpino]

theorem parseDirent_isSome (ofs : ℕ) (g : Globals) :
    (parseDirent block dir ofs g).isSome ↔ DirentInside block dir ofs := by
  rw [parseDirent, DirentInside]
  by_cases hfields : ofs + 24 ≤ block.length
  · have hlook := @lookForDir_isSome block dir ofs g hfields
    rw [load_word (by omega), load_word (by omega)]
    cases hg : lookForDir block dir ofs g with
    | none =>
      rw [hg] at hlook
      simpa [hfields] using hlook
    | some g' =>
      rw [hg] at hlook
      simpa [hfields] using hlook
  · rw [load_outside (o := ofs + 20) (by omega)]
    cases lookForDir block dir ofs g <;> simp [hfields]

/-- A node is parsed if its fields are inside the block, and leads to the next one. -/
theorem parseNode_isSome (ofs : ℕ) (g : Globals) :
    (parseNode block dir ofs g).isSome ↔ ofs + 8 ≤ block.length ∧
      (half block (ofs + 2) = JFFS2_NODETYPE_DIRENT → DirentInside block dir ofs) := by
  rw [parseNode]
  by_cases hheader : ofs + 8 ≤ block.length
  · rw [load_word (by omega), load_half (by omega)]
    by_cases htype : half block (ofs + 2) = JFFS2_NODETYPE_DIRENT
    · have hdirent := @parseDirent_isSome block dir ofs g
      cases hg : parseDirent block dir ofs g with
      | none =>
        rw [hg] at hdirent
        simpa [htype, hheader, hg] using hdirent
      | some g' =>
        rw [hg] at hdirent
        simpa [htype, hheader, hg] using hdirent
    · simp [htype, hheader]
  · rw [load_outside (by omega)]
    simp [hheader]

theorem parseNode_next {ofs : ℕ} {g : Globals} {p : Parser}
    (h : parseNode block dir ofs g = some p) :
    ∃ g', p = .at ((ofs + PAD (word block (ofs + 4))) % 2 ^ 32) g' := by
  have hsome : (parseNode block dir ofs g).isSome := by
    rw [h]
    rfl
  have hheader := ((parseNode_isSome ofs g).mp hsome).1
  rw [parseNode, load_word (by omega), load_half (by omega)] at h
  by_cases htype : half block (ofs + 2) = JFFS2_NODETYPE_DIRENT
  · cases hg : parseDirent block dir ofs g with
    | none => simp [htype, hg] at h
    | some g' => exact ⟨g', by simpa [htype, hg] using h.symm⟩
  · exact ⟨g, by simpa [htype] using h.symm⟩

/-- The parser leaves the block at a header that does not lie inside it. -/
theorem parseStep_outside {ofs : ℕ} (g : Globals) (hlt : ofs < block.length)
    (h : ¬ HeaderInside block dir ofs) : parseStep block dir (.at ofs g) = .outside := by
  simp only [parseStep, hlt, if_true]
  by_cases hroom : ofs + 2 ≤ block.length
  · rw [load_half hroom]
    have hnode := @parseNode_isSome block dir ofs g
    by_cases hmagic : half block ofs = JFFS2_MAGIC_BITMASK
    · have hnone : parseNode block dir ofs g = none := by
        rw [← Option.not_isSome_iff_eq_none, hnode]
        intro hinside
        exact h ⟨hroom, fun _ => hinside⟩
      simp [hmagic, hnone]
    · exact absurd ⟨hroom, fun hm => absurd hm hmagic⟩ h
  · rw [load_outside (by omega)]

/-- The parser stops behind the block, or at what is not a node. -/
theorem parseStep_stop {ofs : ℕ} (g : Globals) (hend : nextNode block ofs = none)
    (h : ofs < block.length → HeaderInside block dir ofs) :
    parseStep block dir (.at ofs g) = .stopped g := by
  by_cases hlt : ofs < block.length
  · have hhalf : half block ofs ≠ JFFS2_MAGIC_BITMASK := by
      intro hmagic
      simp [nextNode, hlt, hmagic] at hend
    simp only [parseStep, hlt, if_true]
    rw [load_half (h hlt).1]
    exact if_pos hhalf
  · simp [parseStep, hlt]

/-- The parser goes on from a node to the next one. -/
theorem parseStep_next {ofs ofs' : ℕ} (g : Globals) (hnext : nextNode block ofs = some ofs')
    (h : HeaderInside block dir ofs) :
    ∃ g', parseStep block dir (.at ofs g) = .at ofs' g' := by
  rw [nextNode] at hnext
  split_ifs at hnext with hnode
  obtain ⟨hlt, hmagic⟩ := hnode
  rw [Option.some.injEq] at hnext
  obtain ⟨p, hp⟩ := Option.isSome_iff_exists.mp ((parseNode_isSome ofs g).mpr (h.2 hmagic))
  obtain ⟨g', rfl⟩ := parseNode_next hp
  refine ⟨g', ?_⟩
  simp only [parseStep, hlt, if_true]
  rw [load_half h.1, ← hnext]
  simp [hmagic, hp]

/-- What holds along the walk from an offset, at the offset and from the next one on. -/
theorem forall_walk {ofs ofs' : ℕ} (hnext : nextNode block ofs = some ofs') {P : ℕ → Prop} :
    (∀ k o, walk (nextNode block) ofs k = some o → P o) ↔
      P ofs ∧ ∀ k o, walk (nextNode block) ofs' k = some o → P o := by
  constructor
  · intro h
    refine ⟨h 0 ofs rfl, ?_⟩
    intro k o hk
    exact h (k + 1) o (by rw [walk_succ_of_some hnext, hk])
  · rintro ⟨hfirst, hrest⟩ k o hk
    cases k with
    | zero =>
      rw [walk_zero, Option.some.injEq] at hk
      exact hk ▸ hfirst
    | succ k =>
      rw [walk_succ_of_some hnext] at hk
      exact hrest k o hk

/-- A parser that stops has gone along the nodes to an end, over headers inside the block. -/
theorem stops_walk {n ofs : ℕ} {g g' : Globals}
    (h : (parseStep block dir)^[n] (.at ofs g) = .stopped g') :
    WalkEnds (nextNode block) ofs ∧ ∀ k o, walk (nextNode block) ofs k = some o →
      o < block.length → HeaderInside block dir o := by
  induction n generalizing ofs g with
  | zero => cases h
  | succ n ih =>
    rw [Function.iterate_succ_apply] at h
    have hinside : ofs < block.length → HeaderInside block dir ofs := by
      intro hlt
      by_contra hout
      rw [parseStep_outside g hlt hout, Function.iterate_fixed rfl] at h
      cases h
    cases hnext : nextNode block ofs with
    | none =>
      refine ⟨⟨1, hnext⟩, ?_⟩
      intro k o hk
      cases k with
      | zero =>
        rw [walk_zero, Option.some.injEq] at hk
        exact hk ▸ hinside
      | succ k =>
        rw [walk_succ_of_none hnext] at hk
        cases hk
    | some ofs' =>
      have hlt : ofs < block.length := by
        rw [nextNode] at hnext
        split_ifs at hnext with hnode
        exact hnode.1
      obtain ⟨g₁, hstep⟩ := parseStep_next g hnext (hinside hlt)
      rw [hstep] at h
      obtain ⟨⟨m, hm⟩, hrest⟩ := ih h
      refine ⟨⟨m + 1, ?_⟩, ?_⟩
      · rw [walk_succ_of_some hnext, hm]
      · rw [forall_walk hnext]
        exact ⟨hinside, hrest⟩

/-- Where the nodes lead to an end, the parser stops there. -/
theorem walk_stops {n ofs : ℕ} (g : Globals) (hend : walk (nextNode block) ofs n = none)
    (hinside : ∀ k o, walk (nextNode block) ofs k = some o →
      o < block.length → HeaderInside block dir o) :
    ∃ m g', (parseStep block dir)^[m] (.at ofs g) = .stopped g' := by
  induction n generalizing ofs g with
  | zero => cases hend
  | succ n ih =>
    cases hnext : nextNode block ofs with
    | none => exact ⟨1, g, parseStep_stop g hnext (hinside 0 ofs rfl)⟩
    | some ofs' =>
      rw [walk_succ_of_some hnext] at hend
      rw [forall_walk hnext] at hinside
      have hlt : ofs < block.length := by
        rw [nextNode] at hnext
        split_ifs at hnext with hnode
        exact hnode.1
      obtain ⟨g₁, hstep⟩ := parseStep_next g hnext (hinside.1 hlt)
      obtain ⟨m, g', hm⟩ := ih g₁ hend hinside.2
      refine ⟨m + 1, g', ?_⟩
      rw [Function.iterate_succ_apply, hstep, hm]

theorem nextNode_finite : {ofs | (nextNode block ofs).isSome}.Finite := by
  apply (Set.finite_lt_nat block.length).subset
  intro ofs hofs
  change (nextNode block ofs).isSome at hofs
  rw [nextNode] at hofs
  split_ifs at hofs with hnode
  · exact hnode.1
  · cases hofs

/-- The parser ends inside a block exactly if the block can be walked. -/
theorem parses_iff (g : Globals) : (∃ g', Parses block dir g g') ↔ Walkable block dir := by
  constructor
  · rintro ⟨g', n, hn⟩
    obtain ⟨hends, hinside⟩ := stops_walk hn
    exact ⟨hinside, NoReturn.of_ends hends⟩
  · rintro ⟨hinside, hreturn⟩
    obtain ⟨n, hn⟩ := WalkEnds.of_noReturn nextNode_finite hreturn
    obtain ⟨m, g', hm⟩ := walk_stops g hn hinside
    exact ⟨g', m, hm⟩

/-- Blocks one after another are parsed exactly if each can be walked. -/
theorem parsesAll_iff (blocks : List (List UInt8)) (g : Globals) :
    (∃ g', ParsesAll dir blocks g g') ↔ ∀ b ∈ blocks, Walkable b dir := by
  induction blocks generalizing g with
  | nil => simp [ParsesAll]
  | cons b blocks ih =>
    rw [List.forall_mem_cons, ← parses_iff g]
    constructor
    · rintro ⟨g'', g', hfirst, hrest⟩
      exact ⟨⟨g', hfirst⟩, (ih g').mp ⟨g'', hrest⟩⟩
    · rintro ⟨⟨g', hfirst⟩, hrest⟩
      obtain ⟨g'', hg''⟩ := (ih g').mpr hrest
      exact ⟨g'', g', hfirst, hg''⟩

end Walk

end EzpFirmware.Jffs2
