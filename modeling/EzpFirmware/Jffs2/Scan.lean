import EzpFirmware.Jffs2.Parse

/-! # What the parser finds in a file system

Over the blocks of a file system the parser visits every node. It takes the
largest numbers of the directory entries, and leaves the numbers of inode nodes
alone; the directory is the last entry of the root whose name starts the name
looked for, so a shorter name is taken as well.
-/
namespace EzpFirmware.Jffs2
open Lib

/-- An entry of the root. -/
def RootEntry (n : List UInt8) : Prop := IsDirent n ∧ word n 12 = 1

instance (n : List UInt8) : Decidable (RootEntry n) :=
  inferInstanceAs (Decidable (IsDirent n ∧ word n 12 = 1))

/-- The name of a directory entry. -/
def entryName (n : List UInt8) : List UInt8 := n.drop RAW_DIRENT

/-- The test of the parser: an entry of the root whose name starts the directory's name. -/
def Taken (dir : CStr) (n : List UInt8) : Prop :=
  dir.val ≠ [] ∧ RootEntry n ∧ entryName n <+: dir.val

instance (dir : CStr) (n : List UInt8) : Decidable (Taken dir n) :=
  inferInstanceAs (Decidable (dir.val ≠ [] ∧ RootEntry n ∧ entryName n <+: dir.val))

/-- What a node does to the variables. -/
def visit (dir : CStr) (g : Globals) (n : List UInt8) : Globals :=
  if IsDirent n then
    { targetIno := if Taken dir n then word n 20 else g.targetIno
      lastIno := max g.lastIno (word n 20)
      lastVersion := max g.lastVersion (word n 16) }
  else g

/-- The inode number in a node that has one. -/
def nodeIno (n : List UInt8) : ℕ := if IsDirent n then word n 20 else word n 12

/-- The version in a node that has one. -/
def nodeVersion (n : List UInt8) : ℕ := word n 16

/-- The entry of the root with exactly the directory's name: the newest one, if it does not
say that the name is gone. -/
structure Current (nodes : List (List UInt8)) (dir : CStr) (e : List UInt8) : Prop where
  mem : e ∈ nodes
  root : RootEntry e
  name : entryName e = dir.val
  linked : word e 20 ≠ 0
  newest : ∀ e' ∈ nodes, RootEntry e' → entryName e' = dir.val → nodeVersion e' ≤ nodeVersion e

/-- What the variables should be after the nodes of a file system. -/
structure Found (dir : CStr) (nodes : List (List UInt8)) (g g' : Globals) : Prop where
  ino : ∀ n ∈ nodes, IsDirent n ∨ IsInode n → nodeIno n ≤ g'.lastIno
  version : ∀ n ∈ nodes, IsDirent n ∨ IsInode n → nodeVersion n ≤ g'.lastVersion
  target : ∀ e, Current nodes dir e → g'.targetIno = word e 20
  kept : (∀ e, ¬ Current nodes dir e) → g'.targetIno = g.targetIno

/-- No inode node has a larger number than every directory entry and than the start. -/
structure Numbered (nodes : List (List UInt8)) (g : Globals) : Prop where
  ino : ∀ n ∈ nodes, IsInode n →
    nodeIno n ≤ g.lastIno ∨ ∃ d ∈ nodes, IsDirent d ∧ nodeIno n ≤ word d 20
  version : ∀ n ∈ nodes, IsInode n →
    nodeVersion n ≤ g.lastVersion ∨ ∃ d ∈ nodes, IsDirent d ∧ nodeVersion n ≤ word d 16

/-- The last entry of the root whose name starts the directory's name. -/
def lastTaken (dir : CStr) (nodes : List (List UInt8)) : Option (List UInt8) :=
  (nodes.filter fun n => Taken dir n).getLast?

/-- The last entry that passes the test is the one with the directory's name, or has its inode;
without one of that name none passes, or it has the inode that was the target before. -/
structure Aimed (dir : CStr) (nodes : List (List UInt8)) (g : Globals) : Prop where
  target : ∀ e, Current nodes dir e → ∀ m, lastTaken dir nodes = some m → word m 20 = word e 20
  kept : (∀ e, ¬ Current nodes dir e) → ∀ m, lastTaken dir nodes = some m →
    word m 20 = g.targetIno

section Fields

variable {block n r : List UInt8} {o : ℕ}

/-- A field of a node that stands in a block. -/
theorem field_at (h : block.drop o = n ++ r) {k w : ℕ} (hk : k + w ≤ n.length) :
    (block.drop (o + k)).take w = (n.drop k).take w := by
  rw [← List.drop_drop, h, List.drop_append_of_le_length (by omega),
    List.take_append_of_le_length]
  rw [List.length_drop]
  omega

theorem word_at (h : block.drop o = n ++ r) {k : ℕ} (hk : k + 4 ≤ n.length) :
    word block (o + k) = word n k := congrArg ofLe (field_at h hk)

theorem half_at (h : block.drop o = n ++ r) {k : ℕ} (hk : k + 2 ≤ n.length) :
    half block (o + k) = half n k := congrArg ofLe (field_at h hk)

theorem octet_at (h : block.drop o = n ++ r) {k : ℕ} (hk : k + 1 ≤ n.length) :
    octet block (o + k) = octet n k := congrArg ofLe (field_at h hk)

theorem length_at (h : block.drop o = n ++ r) (hn : 0 < n.length) :
    o + n.length + r.length = block.length := by
  have hlen := congrArg List.length h
  rw [List.length_drop, List.length_append] at hlen
  omega

end Fields

/-- The comparison over the length of a stored name. -/
theorem strncmp_name {name : List UInt8} (hname : (0 : UInt8) ∉ name) (r dir : List UInt8) :
    strncmp (name ++ r) dir name.length = some (decide (name <+: dir)) := by
  induction name generalizing dir with
  | nil => simp [strncmp]
  | cons c name ih =>
    rw [List.mem_cons, not_or] at hname
    cases dir with
    | nil => simp [strncmp, Ne.symm hname.1]
    | cons d dir =>
      rw [List.cons_append, List.length_cons, strncmp, ih hname.2]
      by_cases hcd : c = d
      · simp [hcd]
      · simp [hcd]

variable {dir : CStr} {block n r : List UInt8} {o : ℕ}

theorem lookForDir_node (hwf : WellFormed n) (hd : IsDirent n) (h : block.drop o = n ++ r)
    (g : Globals) : lookForDir block dir o g =
      some (if Taken dir n then { g with targetIno := word n 20 } else g) := by
  obtain ⟨hsize, -, hfree⟩ := hwf.dirent hd
  rw [RAW_DIRENT] at hsize
  have hlen := length_at h (by omega)
  rw [lookForDir]
  by_cases hdir : dir.val = []
  · simp [hdir, Taken]
  · rw [load_word (by omega), word_at h (by omega)]
    by_cases hpino : word n 12 = 1
    · have hregion : block.drop (o + RAW_DIRENT) = entryName n ++ r := by
        rw [← List.drop_drop, h, List.drop_append_of_le_length]
        · rfl
        · rw [RAW_DIRENT]
          omega
      have hname : (entryName n).length = octet n 28 := by
        rw [entryName, List.length_drop, RAW_DIRENT]
        omega
      rw [load_octet (by omega), octet_at h (by omega), load_word (by omega),
        word_at h (by omega)]
      have hcmp : strncmp (entryName n ++ r) dir.val (octet n 28) =
          some (decide (entryName n <+: dir.val)) := by
        rw [← hname]
        exact strncmp_name hfree r dir.val
      simp [hdir, hpino, hregion, hcmp, Taken, RootEntry, hd]
    · simp [hdir, hpino, Taken, RootEntry]

theorem parseDirent_node (hwf : WellFormed n) (hd : IsDirent n) (h : block.drop o = n ++ r)
    (g : Globals) : parseDirent block dir o g = some (visit dir g n) := by
  have hsize := (hwf.dirent hd).1
  rw [RAW_DIRENT] at hsize
  have hlen := length_at h (by omega)
  rw [parseDirent, lookForDir_node hwf hd h, load_word (by omega), load_word (by omega),
    word_at h (by omega), word_at h (by omega), visit, if_pos hd]
  by_cases htaken : Taken dir n
  · simp only [htaken, if_true, max_def_lt]
    rfl
  · simp only [htaken, if_false, max_def_lt]
    rfl

/-- One turn of the parser at a node: it is visited, and the next one follows its filling. -/
theorem parseStep_node (hwf : WellFormed n) (h : block.drop o = n ++ r)
    (hsize : block.length < 2 ^ 31) (hnext : o + PAD n.length ≤ block.length) (g : Globals) :
    parseStep block dir (.at o g) = .at (o + PAD n.length) (visit dir g n) := by
  have hheader := hwf.header
  have hlen := length_at h (by omega)
  have hlt : o < block.length := by omega
  have hmod : (o + PAD n.length) % 2 ^ 32 = o + PAD n.length := by
    apply Nat.mod_eq_of_lt
    omega
  have hmagic : half block o = JFFS2_MAGIC_BITMASK := by
    rw [← hwf.magic, ← half_at h (by omega), Nat.add_zero]
  have hnode : parseNode block dir o g = some (.at (o + PAD n.length) (visit dir g n)) := by
    rw [parseNode, load_word (by omega), load_half (by omega), word_at h (by omega),
      half_at h (by omega), hwf.totlen]
    by_cases hd : IsDirent n
    · have hparse := @parseDirent_node dir block n r o hwf hd h g
      rw [IsDirent] at hd
      simp only [hd, hparse, hmod, Option.bind_eq_bind, Option.bind_some, if_true]
      rfl
    · rw [visit, if_neg hd]
      rw [IsDirent] at hd
      simp only [hd, hmod, Option.bind_eq_bind, Option.bind_some, if_false]
      rfl
  simp only [parseStep, hlt, if_true]
  rw [load_half (by omega), hmagic, hnode]
  simp

/-- The parser visits the nodes of a row one after another. -/
theorem Chain.parse {rest : List UInt8} {ns : List (List UInt8)} (hchain : Chain rest ns)
    (hsize : block.length < 2 ^ 31) {o : ℕ} (ho : o ≤ block.length) (h : block.drop o = rest)
    (g : Globals) :
    ∃ m, (parseStep block dir)^[m] (.at o g) = .stopped (ns.foldl (visit dir) g) := by
  induction hchain generalizing o g with
  | @nil rest hend =>
    refine ⟨1, ?_⟩
    have hlen := congrArg List.length h
    rw [List.length_drop] at hlen
    by_cases hlt : o < block.length
    · have hrest : rest ≠ [] := by
        intro hnil
        rw [hnil, List.length_nil] at hlen
        omega
      obtain ⟨htwo, hhalf⟩ := hend hrest
      have hmagic : half block o ≠ JFFS2_MAGIC_BITMASK := by
        rwa [half, h]
      simp only [Function.iterate_one, parseStep, hlt, if_true]
      rw [load_half (by omega)]
      exact if_pos hmagic
    · simp [parseStep, hlt]
  | @cons n fill rest ns hwf hfill _ ih =>
    have hlen := congrArg List.length h
    rw [List.length_drop, List.length_append, hfill] at hlen
    have hnext : o + PAD n.length ≤ block.length := by omega
    have hrest : block.drop (o + PAD n.length) = rest := by
      rw [← List.drop_drop, h, ← hfill, List.drop_left]
    obtain ⟨m, hm⟩ := ih hnext hrest (visit dir g n)
    refine ⟨m + 1, ?_⟩
    rw [List.append_assoc] at h
    rw [Function.iterate_succ_apply, parseStep_node hwf h hsize hnext, hm, List.foldl_cons]

/-- Over a file system the parser visits every node in order. -/
theorem FileSystem.parse {erasesize : ℕ} {blocks nodes : List (List UInt8)}
    (hfs : FileSystem erasesize blocks nodes) (g : Globals) :
    ParsesAll dir blocks g (nodes.foldl (visit dir) g) := by
  induction hfs generalizing g with
  | nil => rfl
  | @cons block ns blocks ns' hlen hsize hchain _ ih =>
    rw [List.foldl_append]
    refine ⟨ns.foldl (visit dir) g, ?_, ih _⟩
    exact hchain.parse (hlen ▸ hsize) (Nat.zero_le _) rfl g

/-- The result of the parser is determined. -/
theorem Parses.unique {g g₁ g₂ : Globals} (h₁ : Parses block dir g g₁)
    (h₂ : Parses block dir g g₂) : g₁ = g₂ := by
  obtain ⟨m, hm⟩ := h₁
  obtain ⟨n, hn⟩ := h₂
  have hstay : ∀ k g, (parseStep block dir)^[k] (.stopped g) = .stopped g :=
    fun k g => Function.iterate_fixed rfl k
  have hfar : (parseStep block dir)^[m + n] (.at 0 g) = .stopped g₂ := by
    rw [Function.iterate_add_apply, hn, hstay]
  rw [Nat.add_comm, Function.iterate_add_apply, hm, hstay] at hfar
  exact Parser.stopped.inj hfar

theorem ParsesAll.unique {blocks : List (List UInt8)} {g g₁ g₂ : Globals}
    (h₁ : ParsesAll dir blocks g g₁) (h₂ : ParsesAll dir blocks g g₂) : g₁ = g₂ := by
  induction blocks generalizing g with
  | nil => exact h₁.symm.trans h₂
  | cons b blocks ih =>
    obtain ⟨g', hfirst, hrest⟩ := h₁
    obtain ⟨g'', hfirst', hrest'⟩ := h₂
    rw [hfirst.unique hfirst'] at hrest
    exact ih hrest hrest'

section Visits

variable {nodes : List (List UInt8)} (g : Globals)

/-- A number that takes the larger value at every directory entry. -/
theorem le_foldl_visit {proj : Globals → ℕ} {field : List UInt8 → ℕ}
    (hvisit : ∀ g n, proj (visit dir g n) = if IsDirent n then max (proj g) (field n) else proj g)
    (x : ℕ) : x ≤ proj (nodes.foldl (visit dir) g) ↔
      x ≤ proj g ∨ ∃ d ∈ nodes, IsDirent d ∧ x ≤ field d := by
  induction nodes generalizing g with
  | nil => simp
  | cons n nodes ih =>
    rw [List.foldl_cons, ih, hvisit]
    by_cases hd : IsDirent n
    · simp [hd, or_assoc]
    · simp [hd]

theorem le_lastIno (x : ℕ) : x ≤ (nodes.foldl (visit dir) g).lastIno ↔
    x ≤ g.lastIno ∨ ∃ d ∈ nodes, IsDirent d ∧ x ≤ word d 20 := by
  apply le_foldl_visit
  intro g n
  rw [visit]
  split_ifs <;> rfl

theorem le_lastVersion (x : ℕ) : x ≤ (nodes.foldl (visit dir) g).lastVersion ↔
    x ≤ g.lastVersion ∨ ∃ d ∈ nodes, IsDirent d ∧ x ≤ word d 16 := by
  apply le_foldl_visit
  intro g n
  rw [visit]
  split_ifs <;> rfl

/-- The target is the inode of the last entry that passes the test. -/
theorem foldl_visit_target : (nodes.foldl (visit dir) g).targetIno =
    ((lastTaken dir nodes).map fun m => word m 20).getD g.targetIno := by
  induction nodes using List.reverseRecOn generalizing g with
  | nil => rfl
  | append_singleton nodes n ih =>
    rw [List.foldl_append, List.foldl_cons, List.foldl_nil, lastTaken, List.filter_append, visit]
    by_cases htaken : Taken dir n
    · have hd : IsDirent n := htaken.2.1.1
      simp [htaken, hd]
    · have hlast : (visit dir (nodes.foldl (visit dir) g) n).targetIno =
          (nodes.foldl (visit dir) g).targetIno := by
        rw [visit]
        split_ifs <;> rfl
      rw [visit] at hlast
      rw [hlast, ih]
      simp [htaken, lastTaken]

end Visits

/-- An entry with the directory's name passes the test. -/
theorem Current.taken {nodes : List (List UInt8)} {e : List UInt8} (h : Current nodes dir e)
    (hwf : WellFormed e) : Taken dir e := by
  refine ⟨?_, h.root, h.name ▸ List.prefix_rfl⟩
  intro hnil
  have hname := h.name
  rw [hnil] at hname
  have hlen := congrArg List.length hname
  obtain ⟨hsize, hpos, -⟩ := hwf.dirent h.root.1
  rw [entryName, List.length_drop, List.length_nil] at hlen
  omega

theorem Chain.wellFormed {rest : List UInt8} {ns : List (List UInt8)} (h : Chain rest ns) :
    ∀ n ∈ ns, WellFormed n := by
  induction h with
  | nil => simp
  | cons hwf _ _ ih =>
    rw [List.forall_mem_cons]
    exact ⟨hwf, ih⟩

theorem FileSystem.wellFormed {erasesize : ℕ} {blocks nodes : List (List UInt8)}
    (h : FileSystem erasesize blocks nodes) : ∀ n ∈ nodes, WellFormed n := by
  induction h with
  | nil => simp
  | cons _ _ hchain _ ih =>
    rw [List.forall_mem_append]
    exact ⟨hchain.wellFormed, ih⟩

theorem foldl_visit_taken {nodes : List (List UInt8)} {m : List UInt8} (g : Globals)
    (h : lastTaken dir nodes = some m) :
    (nodes.foldl (visit dir) g).targetIno = word m 20 := by
  rw [foldl_visit_target, h]
  rfl

theorem foldl_visit_none {nodes : List (List UInt8)} (g : Globals)
    (h : lastTaken dir nodes = none) :
    (nodes.foldl (visit dir) g).targetIno = g.targetIno := by
  rw [foldl_visit_target, h]
  rfl

theorem exists_lastTaken {nodes : List (List UInt8)} {e : List UInt8} (he : e ∈ nodes)
    (htaken : Taken dir e) : ∃ m, lastTaken dir nodes = some m := by
  cases hlast : lastTaken dir nodes with
  | some m => exact ⟨m, rfl⟩
  | none =>
    rw [lastTaken, List.getLast?_eq_none_iff, List.filter_eq_nil_iff] at hlast
    exact absurd (decide_eq_true htaken) (hlast e he)

/-- What was visited is what should be found, exactly if no inode node has a larger number and
the last entry that passed the test is the right one. -/
theorem found_iff {nodes : List (List UInt8)} (hwf : ∀ n ∈ nodes, WellFormed n) (g : Globals) :
    Found dir nodes g (nodes.foldl (visit dir) g) ↔ Numbered nodes g ∧ Aimed dir nodes g := by
  constructor
  · intro h
    constructor
    · constructor
      · intro n hn hinode
        exact (le_lastIno g _).mp (h.ino n hn (Or.inr hinode))
      · intro n hn hinode
        exact (le_lastVersion g _).mp (h.version n hn (Or.inr hinode))
    · constructor
      · intro e he m hm
        rw [← foldl_visit_taken g hm]
        exact h.target e he
      · intro hnone m hm
        rw [← foldl_visit_taken g hm]
        exact h.kept hnone
  · rintro ⟨hnumbered, haimed⟩
    constructor
    · rintro n hn (hd | hinode)
      · rw [nodeIno, if_pos hd, le_lastIno]
        exact Or.inr ⟨n, hn, hd, Nat.le_refl _⟩
      · rw [le_lastIno]
        exact hnumbered.ino n hn hinode
    · rintro n hn (hd | hinode)
      · rw [nodeVersion, le_lastVersion]
        exact Or.inr ⟨n, hn, hd, Nat.le_refl _⟩
      · rw [le_lastVersion]
        exact hnumbered.version n hn hinode
    · intro e he
      obtain ⟨m, hm⟩ := exists_lastTaken he.mem (he.taken (hwf e he.mem))
      rw [foldl_visit_taken g hm]
      exact haimed.target e he m hm
    · intro hnone
      cases hlast : lastTaken dir nodes with
      | none => exact foldl_visit_none g hlast
      | some m =>
        rw [foldl_visit_taken g hlast]
        exact haimed.kept hnone m hlast

/-- The parser ends inside every block and finds what it should in every file system, exactly if
the blocks can be walked, no inode node of a file system has a larger number than all directory
entries, and the last entry of the root whose name starts the directory's is the one looked for. -/
theorem mtdParse_finds_iff (dir : CStr) (g : Globals) (erasesize : ℕ)
    (blocks : List (List UInt8)) :
    ((∃ g', ParsesAll dir blocks g g') ∧ ∀ nodes, FileSystem erasesize blocks nodes →
      ∀ g', ParsesAll dir blocks g g' → Found dir nodes g g') ↔
    (∀ b ∈ blocks, Walkable b dir) ∧ ∀ nodes, FileSystem erasesize blocks nodes →
      Numbered nodes g ∧ Aimed dir nodes g := by
  rw [parsesAll_iff]
  apply and_congr_right
  intro _
  apply forall_congr'
  intro nodes
  apply forall_congr'
  intro hfs
  have hparse : ParsesAll dir blocks g (nodes.foldl (visit dir) g) := hfs.parse g
  rw [← found_iff hfs.wellFormed]
  constructor
  · intro h
    exact h _ hparse
  · intro h g' hg'
    rwa [hg'.unique hparse]

/-- A node that says that it is 0 bytes long. -/
def emptyNode : List UInt8 := [0x85, 0x19, 0x03, 0x20, 0, 0, 0, 0, 0, 0, 0, 0]

/-- The parser does not get past a node of length 0. -/
theorem mtdParse_stuck : ¬ ∃ g g', ParsesAll CStr.empty [emptyNode] g g' := by
  rintro ⟨g, g'', g', ⟨n, hn⟩, -⟩
  have hstay : parseStep emptyNode CStr.empty (.at 0 g) = .at 0 g := rfl
  rw [Function.iterate_fixed hstay] at hn
  cases hn

end EzpFirmware.Jffs2
