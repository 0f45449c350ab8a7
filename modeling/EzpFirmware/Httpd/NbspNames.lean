import EzpFirmware.Lib.CString
import EzpFirmware.Lib.Escaping
import EzpFirmware.Lib.Memory

/-! # Names without blanks and colons

The pages write names of networks with `&nbsp;` for a blank and `&semi;` for a
colon, and read them back. The room is counted without the end of the string, and
an ampersand stays as it is.
-/
namespace EzpFirmware.Httpd.Nbsp
open Lib

/-- `struct pattern`. -/
structure Pattern where
  ch : UInt8
  string : CStr

def patterns : List Pattern := [⟨0x20, .ofString "&nbsp;"⟩, ⟨0x3a, .ofString "&semi;"⟩]

def SET : ℤ := 0

def GET : ℤ := 1

/-- Bytes written to the buffer of the caller, if they lie inside it. -/
def putBytes (mem : List UInt8) (p : ℕ) (bytes : List UInt8) : Option (List UInt8) :=
  if p + bytes.length ≤ mem.length then some (poke mem p bytes) else none

/-- The loop of `nbsp_translate` over the characters of a name. -/
def setLoop (size : ℕ) : List UInt8 → List UInt8 → Option (List UInt8)
  | [], newName => some newName
  | ch :: old, newName =>
    let strlen := (CStr.read newName).len
    match patterns.find? fun v => v.ch = ch with
    | some v =>
      if strlen + v.string.len > size then putBytes newName strlen [0]
      else (putBytes newName strlen v.string.stored).bind (setLoop size old)
    | none =>
      if strlen + 1 > size then putBytes newName strlen [0]
      else (putBytes newName strlen [ch, 0]).bind (setLoop size old)

/-- The loop back. `memcmp` tells a text that ends early from every pattern. -/
def getLoop : List UInt8 → ℕ → List UInt8 → Option (List UInt8)
  | [], i, newName => putBytes newName i [0]
  | ch :: old, i, newName =>
    match patterns.find? fun v => v.string.val.isPrefixOf (ch :: old) with
    | some v =>
      (putBytes newName i [v.ch]).bind (getLoop (old.drop (v.string.len - 1)) (i + 1))
    | none => (putBytes newName i [ch]).bind (getLoop old (i + 1))
termination_by old => old.length
decreasing_by all_goals simp; try omega

/-- `nbsp_translate`: the buffer of the caller afterwards, if nothing else is written. -/
def nbspTranslate (oldName : CStr) (newName : List UInt8) (size : ℕ) (type : ℤ) :
    Option (List UInt8) :=
  (putBytes newName 0 [0]).bind fun newName =>
    if type = SET then setLoop size oldName.val newName
    else if type = GET then getLoop oldName.val 0 newName
    else some newName

/-! ## The words -/

def wordTable : List (UInt8 × List UInt8) := patterns.map fun v => (v.ch, v.string.val)

def AMPERSAND : UInt8 := 0x26

theorem wordTable_word : ∀ e ∈ wordTable, ∃ w ≠ [], e.2 = AMPERSAND :: w ∧ AMPERSAND ∉ w := by
  intro e he
  simp only [wordTable, patterns, List.map_cons, List.map_nil, List.mem_cons, List.not_mem_nil,
    or_false] at he
  rcases he with rfl | rfl
  · exact ⟨(CStr.ofString "nbsp;").val, by decide, by decide, by decide⟩
  · exact ⟨(CStr.ofString "semi;").val, by decide, by decide, by decide⟩

theorem wordTable_free : ∀ e ∈ wordTable, ∀ e' ∈ wordTable, e.1 ∉ e'.2 := by decide

theorem wordTable_apart : ∀ e ∈ wordTable, ∀ e' ∈ wordTable, e.2 <+: e'.2 → e = e' := by decide

/-- The words for a blank and for a colon. -/
def words : Entities UInt8 where
  table := wordTable
  mark := AMPERSAND
  word := wordTable_word
  free := wordTable_free
  apart := wordTable_apart

theorem zero_not_mem_spell {c : UInt8} (hc : c ≠ 0) : (0 : UInt8) ∉ words.spell c := by
  have hwords : ∀ e ∈ words.table, (0 : UInt8) ∉ e.2 := by decide
  rcases words.spell_cases c with ⟨h, -⟩ | ⟨e, he, -, h⟩
  · rw [h]
    simpa using hc.symm
  · rw [h]
    exact hwords e he

theorem zero_not_mem_encode {s : List UInt8} (hs : (0 : UInt8) ∉ s) :
    (0 : UInt8) ∉ words.encode s := by
  intro h
  obtain ⟨c, hc, hmem⟩ := List.mem_flatMap.mp h
  exact zero_not_mem_spell (fun h0 => hs (h0 ▸ hc)) hmem

/-- A name with its blanks and colons spelled. -/
def escaped (name : CStr) : CStr := ⟨words.encode name.val, zero_not_mem_encode name.property⟩

/-- Names are written inside the buffer, and one that fits is read back. -/
def Reversible (name : CStr) (size : ℕ) : Prop :=
  ∀ buf : List UInt8, buf.length = size → ∃ new, nbspTranslate name buf size SET = some new ∧
    ((escaped name).len < size → ∀ back : List UInt8, name.len < back.length →
      ∃ old, nbspTranslate (CStr.read new) back back.length GET = some old ∧
        CStr.read old = name)

/-! ## Writing a name -/

section
variable {mem old : List UInt8} {size : ℕ} {t : CStr} {ch : UInt8}

/-- Every character is written as its word, if the count of the room lets it. -/
theorem setLoop_cons : setLoop size (ch :: old) mem =
    if (CStr.read mem).len + (words.spell ch).length > size then
      putBytes mem (CStr.read mem).len [0]
    else (putBytes mem (CStr.read mem).len (words.spell ch ++ [0])).bind (setLoop size old) := by
  have hfind : (words.table.find? fun e => e.1 = ch) =
      (patterns.find? fun v => v.ch = ch).map fun v => (v.ch, v.string.val) := List.find?_map
  rw [setLoop, Entities.spell, hfind]
  cases patterns.find? fun v => v.ch = ch with
  | none => rfl
  | some v => rfl

/-- A string at the start of the buffer. -/
def Shows (mem : List UInt8) (t : CStr) : Prop := ∃ rest, mem = t.stored ++ rest

theorem Shows.read (h : Shows mem t) : CStr.read mem = t := by
  obtain ⟨rest, rfl⟩ := h
  exact CStr.read_stored_append t rest

theorem Shows.len_lt (h : Shows mem t) : t.len < mem.length := by
  obtain ⟨rest, rfl⟩ := h
  rw [List.length_append, CStr.stored, List.length_append, List.length_singleton]
  change t.val.length < _
  omega

/-- A word behind the string. -/
theorem Shows.put (h : Shows mem t) {w t' : CStr} (hval : t'.val = t.val ++ w.val) :
    (t.len + w.len < mem.length → ∃ mem', putBytes mem t.len w.stored = some mem' ∧
      mem'.length = mem.length ∧ Shows mem' t') ∧
    (mem.length ≤ t.len + w.len → putBytes mem t.len w.stored = none) := by
  have hstored : w.stored.length = w.len + 1 := by
    rw [CStr.stored, List.length_append]
    rfl
  constructor
  · intro hfit
    refine ⟨poke mem t.len w.stored, if_pos (by omega), poke_length (by omega), ?_⟩
    obtain ⟨rest, rfl⟩ := h
    refine ⟨(t.stored ++ rest).drop (t.len + w.stored.length), ?_⟩
    have htake : (t.stored ++ rest).take t.len = t.val := by
      rw [CStr.stored, List.append_assoc]
      exact List.take_left
    have htext : t'.stored = t.val ++ w.stored := by
      rw [CStr.stored, hval, CStr.stored, List.append_assoc]
    rw [poke, htake, htext]
  · exact fun hover => if_neg (by omega)

/-- What the loop leads to: a fault exactly if the string takes all of the buffer at some time, and
the whole name where it fits. -/
structure SetRun (size : ℕ) (old : List UInt8) (t : CStr) (run : Option (List UInt8)) : Prop where
  inside : run.isSome = true ↔
    ∀ k ≤ old.length, t.len + (words.encode (old.take k)).length ≠ size
  whole : t.len + (words.encode old).length < size →
    ∃ new, run = some new ∧ (CStr.read new).val = t.val ++ words.encode old

theorem setLoop_run (h : Shows mem t) (hsize : mem.length = size) (hold : (0 : UInt8) ∉ old) :
    SetRun size old t (setLoop size old mem) := by
  induction old generalizing mem t with
  | nil =>
    have hroom := h.len_lt
    rw [setLoop]
    constructor
    · apply iff_of_true rfl
      intro k hk
      rw [List.take_nil, Entities.encode_nil, List.length_nil]
      omega
    · intro _
      refine ⟨mem, rfl, ?_⟩
      rw [h.read, Entities.encode_nil, List.append_nil]
  | cons ch old ih =>
    rw [List.mem_cons, not_or] at hold
    have hroom := h.len_lt
    have hpos := words.spell_length_pos ch
    have hword : (0 : UInt8) ∉ words.spell ch := zero_not_mem_spell (Ne.symm hold.1)
    have hcount (k : ℕ) : (words.encode ((ch :: old).take (k + 1))).length =
        (words.spell ch).length + (words.encode (old.take k)).length := by
      rw [List.take_succ_cons, words.encode_cons, List.length_append]
    have hall : (words.encode (ch :: old)).length =
        (words.spell ch).length + (words.encode old).length := by
      rw [words.encode_cons, List.length_append]
    have hval : (t.append ⟨words.spell ch, hword⟩).val =
      t.val ++ (⟨words.spell ch, hword⟩ : CStr).val := rfl
    obtain ⟨hput, hover⟩ := h.put hval
    change t.len + (words.spell ch).length < mem.length → _ at hput
    change mem.length ≤ t.len + (words.spell ch).length → _ at hover
    rw [setLoop_cons, h.read]
    by_cases hlong : t.len + (words.spell ch).length > size
    · have hend : putBytes mem t.len [0] = some (poke mem t.len [0]) := if_pos hroom
      rw [if_pos hlong, hend]
      constructor
      · apply iff_of_true rfl
        intro k hk
        cases k with
        | zero =>
          rw [List.take_zero, Entities.encode_nil, List.length_nil]
          omega
        | succ k =>
          rw [hcount]
          omega
      · rw [hall]
        omega
    · rw [if_neg hlong]
      by_cases hfull : t.len + (words.spell ch).length = size
      · have hnone := hover (by omega)
        rw [CStr.stored] at hnone
        rw [hnone, Option.bind_none]
        constructor
        · apply iff_of_false Bool.false_ne_true
          intro hne
          apply hne 1 (by simp)
          rw [hcount 0, List.take_zero, Entities.encode_nil, List.length_nil,
            Nat.add_zero, hfull]
        · rw [hall]
          omega
      · obtain ⟨mem', hmem', hsize', hshows⟩ := hput (by omega)
        have hnext := ih hshows (hsize'.trans hsize) hold.2
        have hlen : (t.append ⟨words.spell ch, hword⟩).len = t.len + (words.spell ch).length :=
          CStr.append_len _ _
        rw [CStr.stored] at hmem'
        rw [hmem', Option.bind_some]
        constructor
        · rw [hnext.inside, hlen]
          constructor
          · intro hne k hk
            cases k with
            | zero =>
              rw [List.take_zero, Entities.encode_nil, List.length_nil]
              omega
            | succ k =>
              rw [hcount, ← Nat.add_assoc]
              exact hne k (Nat.le_of_succ_le_succ hk)
          · intro hne k hk
            have h := hne (k + 1) (Nat.succ_le_succ hk)
            rwa [hcount, ← Nat.add_assoc] at h
        · intro hfit
          obtain ⟨new, hnew, hval⟩ := hnext.whole (by rw [hlen]; rw [hall] at hfit; omega)
          refine ⟨new, hnew, ?_⟩
          rw [hval, words.encode_cons, ← List.append_assoc]
          rfl

/-! ## Reading a name -/

section
variable {i : ℕ} {e : UInt8 × List UInt8}

theorem find_pattern (s : List UInt8) : words.leading s =
    (patterns.find? fun v => v.string.val.isPrefixOf s).map fun v => (v.ch, v.string.val) :=
  List.find?_map

theorem getLoop_word (h : words.leading (ch :: old) = some e) : getLoop (ch :: old) i mem =
    (putBytes mem i [e.1]).bind (getLoop (old.drop (e.2.length - 1)) (i + 1)) := by
  rw [find_pattern, Option.map_eq_some_iff] at h
  obtain ⟨v, hfind, rfl⟩ := h
  rw [getLoop, hfind]
  rfl

theorem getLoop_plain (h : words.leading (ch :: old) = none) : getLoop (ch :: old) i mem =
    (putBytes mem i [ch]).bind (getLoop old (i + 1)) := by
  rw [find_pattern, Option.map_eq_none_iff] at h
  rw [getLoop, h]

end

/-- One more character of the name. -/
theorem putBytes_next {o rest : List UInt8} (c : UInt8) (h : mem = o ++ rest)
    (hroom : o.length < mem.length) : ∃ rest', putBytes mem o.length [c] = some (o ++ [c] ++ rest') ∧
      (o ++ [c] ++ rest').length = mem.length := by
  have hput : putBytes mem o.length [c] = some (poke mem o.length [c]) := if_pos hroom
  have hlen : (poke mem o.length [c]).length = mem.length := poke_length hroom
  have htake : mem.take o.length = o := by rw [h, List.take_left]
  refine ⟨mem.drop (o.length + 1), ?_, ?_⟩
  · rw [hput, poke, htake]
    rfl
  · rw [← hlen, poke, htake]
    rfl

/-- The loop reads the words. -/
theorem getLoop_run {o rest : List UInt8} (h : mem = o ++ rest)
    (hroom : o.length + (words.decode old).length < mem.length) :
    ∃ rest', getLoop old o.length mem = some (o ++ words.decode old ++ 0 :: rest') := by
  fun_induction words.decode old generalizing o rest mem with
  | case1 =>
    obtain ⟨rest', hput, -⟩ := putBytes_next 0 h hroom
    refine ⟨rest', ?_⟩
    rw [getLoop, hput]
    simp
  | case2 c s e hlead ih =>
    obtain ⟨rest', hput, hlen⟩ := putBytes_next e.1 h (by rw [List.length_cons] at hroom; omega)
    obtain ⟨rest'', hrun⟩ := ih (rfl : o ++ [e.1] ++ rest' = o ++ [e.1] ++ rest') (by
      rw [hlen, List.length_append, List.length_singleton]
      rw [List.length_cons] at hroom
      omega)
    rw [List.length_append, List.length_singleton] at hrun
    refine ⟨rest'', ?_⟩
    rw [getLoop_word hlead, hput, Option.bind_some, hrun]
    simp
  | case3 c s hlead ih =>
    obtain ⟨rest', hput, hlen⟩ := putBytes_next c h (by rw [List.length_cons] at hroom; omega)
    obtain ⟨rest'', hrun⟩ := ih (rfl : o ++ [c] ++ rest' = o ++ [c] ++ rest') (by
      rw [hlen, List.length_append, List.length_singleton]
      rw [List.length_cons] at hroom
      omega)
    rw [List.length_append, List.length_singleton] at hrun
    refine ⟨rest'', ?_⟩
    rw [getLoop_plain hlead, hput, Option.bind_some, hrun]
    simp

theorem zero_not_mem_decode (hold : (0 : UInt8) ∉ old) : (0 : UInt8) ∉ words.decode old := by
  have hwords : ∀ e ∈ words.table, e.1 ≠ 0 := by decide
  fun_induction words.decode old with
  | case1 => exact hold
  | case2 c s e hlead ih =>
    rw [List.mem_cons, not_or] at hold ⊢
    exact ⟨(hwords e (Entities.leading_some hlead).1).symm,
      ih fun h => hold.2 (List.mem_of_mem_drop h)⟩
  | case3 c s hlead ih =>
    rw [List.mem_cons, not_or] at hold ⊢
    exact ⟨hold.1, ih hold.2⟩

theorem putBytes_start (hpos : 0 < mem.length) : ∃ mem', putBytes mem 0 [0] = some mem' ∧
    mem'.length = mem.length ∧ Shows mem' CStr.empty :=
  ⟨poke mem 0 [0], if_pos hpos, poke_length hpos, mem.drop 1, rfl⟩

/-- What a name is read as, in a buffer with room for it. -/
theorem nbspTranslate_get (name : CStr) (hroom : (words.decode name.val).length < mem.length) :
    ∃ new, nbspTranslate name mem mem.length GET = some new ∧
      (CStr.read new).val = words.decode name.val := by
  obtain ⟨mem', hput, hlen, -⟩ := putBytes_start (by omega : 0 < mem.length)
  obtain ⟨rest, hrun⟩ := @getLoop_run mem' name.val [] mem' rfl
    (by rw [hlen, List.length_nil]; omega)
  refine ⟨words.decode name.val ++ 0 :: rest, ?_, ?_⟩
  · rw [nbspTranslate, hput, Option.bind_some, if_neg (by decide), if_pos rfl]
    exact hrun
  · have hread := CStr.read_stored_append
      ⟨words.decode name.val, zero_not_mem_decode name.property⟩ rest
    rw [CStr.stored, List.append_assoc] at hread
    exact congrArg Subtype.val hread

/-- What a name is written as. -/
theorem nbspTranslate_set (name : CStr) (hsize : mem.length = size) (hpos : 0 < size) :
    SetRun size name.val CStr.empty (nbspTranslate name mem size SET) := by
  obtain ⟨mem', hput, hlen, hshows⟩ := putBytes_start (hsize ▸ hpos)
  rw [nbspTranslate, hput, Option.bind_some, if_pos rfl]
  exact setLoop_run hshows (hlen.trans hsize) name.property

variable {name : CStr} {run : Option (List UInt8)}

theorem SetRun.isSome_iff (h : SetRun size name.val CStr.empty run) :
    run.isSome = true ↔ ∀ k ≤ name.len, (escaped (name.take k)).len ≠ size := by
  rw [h.inside]
  simp only [CStr.empty_len, Nat.zero_add]
  rfl

/-- What is read back from the name that was written. -/
theorem SetRun.reads_back {new back : List UInt8}
    (h : SetRun size name.val CStr.empty (some new)) (hfit : (escaped name).len < size)
    (hroom : name.len < back.length) :
    ∃ old, nbspTranslate (CStr.read new) back back.length GET = some old ∧
      (CStr.read old = name ↔ ¬ words.HasWord name.val) := by
  obtain ⟨new', hnew', hval⟩ := h.whole (by rw [CStr.empty_len, Nat.zero_add]; exact hfit)
  obtain rfl := Option.some.inj hnew'
  have hval : (CStr.read new).val = words.encode name.val := hval
  have hshort := (Entities.decode_encode_length (E := words) name.val).1
  obtain ⟨old, hold, hread⟩ := @nbspTranslate_get back (CStr.read new)
    (by rw [hval]; exact lt_of_le_of_lt hshort hroom)
  refine ⟨old, hold, ?_⟩
  rw [← Entities.decode_encode_iff, ← hval, ← hread]
  exact Subtype.ext_iff

/-! ## Both ways -/

theorem Reversible.inside (h : Reversible name size) (hsize : 0 < size) :
    ∀ k ≤ name.len, (escaped (name.take k)).len ≠ size := by
  obtain ⟨new, hnew, -⟩ := h (List.replicate size 0) List.length_replicate
  have hrun := nbspTranslate_set name (List.length_replicate (a := (0 : UInt8))) hsize
  rw [hnew] at hrun
  exact hrun.isSome_iff.mp rfl

theorem Reversible.free (h : Reversible name size) (hsize : 0 < size)
    (hfit : (escaped name).len < size) : ¬ words.HasWord name.val := by
  obtain ⟨new, hnew, hread⟩ := h (List.replicate size 0) List.length_replicate
  have hrun := nbspTranslate_set name (List.length_replicate (a := (0 : UInt8))) hsize
  rw [hnew] at hrun
  have hroom : name.len < (List.replicate (name.len + 1) (0 : UInt8)).length := by
    rw [List.length_replicate]
    exact Nat.lt_succ_self _
  obtain ⟨old, hold, hsame⟩ := hread hfit _ hroom
  obtain ⟨old', hold', hiff⟩ := hrun.reads_back hfit hroom
  obtain rfl : old = old' := Option.some.inj (hold.symm.trans hold')
  exact hiff.mp hsame

end

/-- A name is written inside the buffer and read back exactly if none of its starts fills the buffer
when it is spelled and, where it fits, it has none of the words. -/
theorem nbspTranslate_reversible_iff (name : CStr) (size : ℕ) (hsize : 0 < size) :
    Reversible name size ↔ (∀ k ≤ name.len, (escaped (name.take k)).len ≠ size) ∧
      ((escaped name).len < size → ¬ words.HasWord name.val) := by
  constructor
  · exact fun h => ⟨h.inside hsize, h.free hsize⟩
  · rintro ⟨hfull, hfree⟩ buf hbuf
    have hrun := nbspTranslate_set name hbuf hsize
    obtain ⟨new, hnew⟩ := Option.isSome_iff_exists.mp (hrun.isSome_iff.mpr hfull)
    rw [hnew] at hrun
    refine ⟨new, hnew, fun hfit back hroom => ?_⟩
    obtain ⟨old, hold, hiff⟩ := hrun.reads_back hfit hroom
    exact ⟨old, hold, hiff.mpr (hfree hfit)⟩

theorem nbspTranslate_reversible_name : Reversible (.ofString "test 123:abc") 64 :=
  (nbspTranslate_reversible_iff (.ofString "test 123:abc") 64 (by decide)).mpr
    ⟨by decide +kernel, fun _ => by decide +kernel⟩

/-- A character fills a buffer of one byte, and the end of the string goes behind it; and a name
that looks spelled is read as another one. -/
theorem nbspTranslate_irreversible : ¬ Reversible (.ofString "a") 1 ∧
    ¬ Reversible (.ofString "a&nbsp;b") 64 :=
  ⟨fun h => h.inside (by decide) 1 (by decide) (by decide),
    fun h => h.free (by decide) (by decide) (by decide)⟩

end EzpFirmware.Httpd.Nbsp
