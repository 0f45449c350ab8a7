import EzpFirmware.KernelNvram.Image
import EzpFirmware.Lib.Assignments

/-! # Rebuilding the table from an image

The parsing loop of `nvram_rehash` makes a list of assignments that depends on
the bytes only. Every value it stores comes from the image together with a name
and a separator, so the arena cannot run out; what the table holds afterwards
is the partial map of the assignments whose memory requests were answered.
-/
namespace EzpFirmware.KernelNvram
open Lib

/-- The assignments in front of the first empty string or string without `=`. -/
def parsed : List CStr → List (CStr × CStr)
  | [] => []
  | name :: rest =>
    if name = CStr.empty then []
    else match CStr.cut EQ name with
      | none => []
      | some a => a :: parsed rest

/-- One `_nvram_set` for each assignment. -/
def setAll (kmalloc : ℕ → Bool) : List (CStr × CStr) → Nvram → Nvram
  | [], s => s
  | a :: l, s => setAll (fun i => kmalloc (i + 1)) l (_nvramSet (kmalloc 0) a.1 a.2 s).2

/-- Arena space of the value of an assignment. -/
def valueSize (a : CStr × CStr) : ℕ := a.2.len + 1

theorem nvramRehashLoop_eq (kmalloc : ℕ → Bool) (ss : List CStr) (s : Nvram) :
    nvramRehashLoop kmalloc ss s = setAll kmalloc (parsed ss) s := by
  induction ss generalizing kmalloc s with
  | nil => rfl
  | cons name rest ih =>
    rw [nvramRehashLoop, parsed]
    by_cases hn : name = CStr.empty
    · rw [if_pos hn, if_pos hn]
      rfl
    · rw [if_neg hn, if_neg hn]
      cases CStr.cut EQ name with
      | none => rfl
      | some a => exact ih _ _

/-! ## Sizes -/

/-- The strings of a region and their terminators fit into it. -/
theorem cstrings_length (mem : List UInt8) :
    totalSize (fun s : CStr => s.len + 1) (cstrings mem) ≤ mem.length := by
  induction mem with
  | nil => exact Nat.zero_le _
  | cons b bs ih =>
    rw [cstrings, List.length_cons]
    split
    case isTrue =>
      rw [totalSize_cons, CStr.empty_len]
      omega
    case isFalse =>
      split
      case h_1 => exact Nat.zero_le _
      case h_2 s ss he =>
        rw [he, totalSize_cons] at ih
        simp only [totalSize_cons, CStr.len, List.length_cons] at ih ⊢
        omega

theorem parsed_size (ss : List CStr) :
    totalSize assignmentSize (parsed ss) ≤ totalSize (fun s : CStr => s.len + 1) ss := by
  induction ss with
  | nil => exact le_rfl
  | cons name rest ih =>
    rw [parsed]
    split
    case isTrue => exact Nat.zero_le _
    case isFalse =>
      cases hc : CStr.cut EQ name with
      | none => exact Nat.zero_le _
      | some a =>
        have hl := CStr.cut_length (a := a.1) (b := a.2) hc
        simp only [totalSize_cons, assignmentSize]
        omega

theorem totalSize_value_le (l : List (CStr × CStr)) :
    totalSize valueSize l ≤ totalSize assignmentSize l := by
  induction l with
  | nil => exact le_rfl
  | cons a l ih =>
    rw [totalSize_cons, totalSize_cons, assignmentSize, valueSize]
    omega

/-- Names that come from the parser have no separator. -/
theorem parsed_name {ss : List CStr} {a : CStr × CStr} (h : a ∈ parsed ss) : EQ ∉ a.1.val := by
  induction ss with
  | nil => simp [parsed] at h
  | cons name rest ih =>
    rw [parsed] at h
    split at h
    case isTrue => simp at h
    case isFalse =>
      cases hc : CStr.cut EQ name with
      | none => simp [hc] at h
      | some b =>
        rw [hc] at h
        rcases List.mem_cons.mp h with rfl | h
        · exact CStr.cut_left_not_mem hc
        · exact ih h

/-! ## The assignments one after the other -/

namespace Nvram

variable {s : Nvram} {kmalloc : ℕ → Bool} {l : List (CStr × CStr)}

theorem get_eq_none {m : CStr} : _nvramGet m s = none ↔ s.find m = none := by
  simp [_nvramGet]

theorem Valid.setAll (h : s.Valid) (kmalloc : ℕ → Bool) (l : List (CStr × CStr)) :
    (setAll kmalloc l s).Valid := by
  induction l generalizing s kmalloc with
  | nil => exact h
  | cons a l ih => exact ih (h.set _ _ _) _

/-- What the table maps a name to after a write of any outcome. -/
theorem Valid.set_get (h : s.Valid) (k : Bool) (name value m : CStr) :
    _nvramGet m (_nvramSet k name value s).2 =
      if m = name ∧ (_nvramSet k name value s).1 = 0 then some value else _nvramGet m s := by
  by_cases ha : s.Accepts k name value
  · obtain ⟨h0, -, hg, -⟩ := h.set_accepted ha
    rw [hg, h0]
    simp
  · rw [set_refused ha]
    simp [ENOMEM]

/-- Every lookup afterwards is an old one or one of the assignments. -/
theorem Valid.setAll_mem (h : s.Valid) {m v : CStr}
    (hm : _nvramGet m (KernelNvram.setAll kmalloc l s) = some v) :
    _nvramGet m s = some v ∨ (m, v) ∈ l := by
  induction l generalizing s kmalloc with
  | nil => exact .inl hm
  | cons a l ih =>
    rw [List.mem_cons]
    cases ih (h.set _ a.1 a.2) hm with
    | inl hs =>
      rw [h.set_get] at hs
      split at hs
      case isTrue ha =>
        cases hs
        exact .inr (.inl (Prod.ext ha.1 rfl))
      case isFalse => exact .inl hs
    | inr hs => exact .inr (.inr hs)

/-- Fresh, distinct names: exactly the assignments whose request is answered are made, and the
arena grows by their values. -/
theorem Valid.setAll_answered {k : ℕ → Bool} (h : s.Valid) (hl : (l.map Prod.fst).Nodup)
    (hf : ∀ a ∈ l, _nvramGet a.1 s = none)
    (hr : s.nvramOffset + totalSize valueSize l ≤ NVRAM_SPACE) :
    (∀ m, _nvramGet m (KernelNvram.setAll k l s) =
        overwrite (fun m => _nvramGet m s) (answered k l) m) ∧
      (KernelNvram.setAll k l s).nvramOffset =
        s.nvramOffset + totalSize valueSize (answered k l) := by
  induction l generalizing s k with
  | nil => exact ⟨fun m => rfl, rfl⟩
  | cons a l ih =>
    rw [List.map_cons, List.nodup_cons] at hl
    rw [totalSize_cons, valueSize] at hr
    have hfa : _nvramGet a.1 s = none := hf a List.mem_cons_self
    rw [answered]
    by_cases hk : k 0 = true
    · have ha : s.Accepts (k 0) a.1 a.2 := ⟨by rw [Room]; omega, fun _ => hk⟩
      obtain ⟨-, hv, hg, ho⟩ := h.set_accepted ha
      rw [hfa, if_neg (by simp)] at ho
      have hstep := ih (k := fun i => k (i + 1)) hv hl.2
        (fun b hb => by
          have hne : b.1 ≠ a.1 := fun he => hl.1 (he ▸ List.mem_map_of_mem hb)
          rw [hg, if_neg hne]
          exact hf b (List.mem_cons_of_mem a hb))
        (by omega)
      have hfun : (fun m => _nvramGet m (_nvramSet (k 0) a.1 a.2 s).2) =
          Function.update (fun m => _nvramGet m s) a.1 (some a.2) := by
        funext m
        rw [hg, Function.update_apply]
      rw [if_pos hk, overwrite_cons, totalSize_cons, valueSize]
      refine ⟨fun m => ?_, ?_⟩
      · rw [← hfun]
        exact hstep.1 m
      · refine hstep.2.trans ?_
        omega
    · have hset : _nvramSet (k 0) a.1 a.2 s = (ENOMEM, s) :=
        set_refused fun ha => hk (ha.2 (get_eq_none.mp hfa))
      rw [if_neg hk, KernelNvram.setAll, hset]
      exact ih h hl.2 (fun b hb => hf b (List.mem_cons_of_mem a hb))
        (show s.nvramOffset + totalSize valueSize l ≤ NVRAM_SPACE by omega)

/-- All requests answered and room for all values: every assignment is made in turn. -/
theorem Valid.setAll_granted (h : s.Valid) (hk : ∀ i, kmalloc i = true)
    (hr : s.nvramOffset + totalSize valueSize l ≤ NVRAM_SPACE) (m : CStr) :
    _nvramGet m (KernelNvram.setAll kmalloc l s) = overwrite (fun m => _nvramGet m s) l m := by
  induction l generalizing s kmalloc with
  | nil => rfl
  | cons a l ih =>
    rw [totalSize_cons, valueSize] at hr
    have ha : s.Accepts (kmalloc 0) a.1 a.2 := ⟨by rw [Room]; omega, fun _ => hk 0⟩
    obtain ⟨-, hv, hg, ho⟩ := h.set_accepted ha
    have hfun : (fun m => _nvramGet m (_nvramSet (kmalloc 0) a.1 a.2 s).2) =
        Function.update (fun m => _nvramGet m s) a.1 (some a.2) := by
      funext m
      rw [hg, Function.update_apply]
    rw [overwrite_cons, ← hfun]
    refine ih hv (fun i => hk (i + 1)) ?_
    rw [ho]
    split <;> omega

end Nvram

/-! ## Images -/

namespace Image

/-- The assignments `nvram_rehash` finds in an image. -/
def assigned (header : Image) : List (CStr × CStr) := parsed (cstrings header.terminate.data)

/-- The partial map an image stands for. -/
def contents (header : Image) : CStr → Option CStr := overwrite (fun _ => none) header.assigned

theorem assigned_size (header : Image) :
    NVRAM_HEADER_SIZE + totalSize assignmentSize header.assigned ≤ NVRAM_SPACE := by
  have h1 := parsed_size (cstrings header.terminate.data)
  have h2 := cstrings_length header.terminate.data
  rw [header.terminate.data_length] at h2
  have h3 : NVRAM_HEADER_SIZE ≤ NVRAM_SPACE := by decide
  rw [assigned]
  omega

theorem assigned_value_size (header : Image) :
    totalSize valueSize header.assigned ≤ NVRAM_SPACE :=
  (totalSize_value_le _).trans (by have := header.assigned_size; omega)

end Image

theorem nvramRehash_store (kmalloc : ℕ → Bool) (header : Image) (s : Nvram) :
    (nvramRehash kmalloc header s).2.2 = setAll kmalloc header.assigned (nvramFree s) :=
  nvramRehashLoop_eq _ _ _

namespace Nvram

variable {s : Nvram} {kmalloc : ℕ → Bool}

theorem Valid.rehash (h : s.Valid) (kmalloc : ℕ → Bool) (header : Image) :
    (nvramRehash kmalloc header s).2.2.Valid := by
  rw [nvramRehash_store]
  exact h.free.setAll _ _

theorem Valid.commit (h : s.Valid) (kmalloc : ℕ → Bool) (header : Image) :
    (_nvramCommit kmalloc header s).2.2.Valid :=
  h.rehash kmalloc _

/-- With all requests answered, a rebuilt table holds the map of the image and nothing else. -/
theorem Valid.rehash_get (h : s.Valid) (hk : ∀ i, kmalloc i = true) (header : Image) (m : CStr) :
    _nvramGet m (nvramRehash kmalloc header s).2.2 = header.contents m := by
  rw [nvramRehash_store, h.free.setAll_granted hk (by simpa using header.assigned_value_size)]
  simp only [get_free]
  rfl

end Nvram

/-! ## Runs of the table operations

A run starts from the empty table and applies writes, removals and rebuilds in
any order, with any answers of the allocator. Beside the table it keeps a log of
what was done; a lookup must agree with a backwards reading of that log.
-/

inductive Op where
  | set (kmalloc : Bool) (name value : CStr)
  | unset (name : CStr)
  | rehash (kmalloc : ℕ → Bool) (header : Image)

inductive Event where
  | set (name value : CStr) (ret : ℤ)
  | unset (name : CStr)
  | free
  deriving DecidableEq

/-- The latest successful write to a name, unless a removal of the name or a rebuild came after
it. The newest event is in front. -/
def latest (name : CStr) : List Event → Option CStr
  | [] => none
  | .set n value ret :: log => if n = name ∧ ret = 0 then some value else latest name log
  | .unset n :: log => if n = name then none else latest name log
  | .free :: _ => none

/-- The log of the writes of a rebuild. -/
def logAll (kmalloc : ℕ → Bool) : List (CStr × CStr) → Nvram → List Event → List Event
  | [], _, log => log
  | a :: l, s, log =>
    let r := _nvramSet (kmalloc 0) a.1 a.2 s
    logAll (fun i => kmalloc (i + 1)) l r.2 (.set a.1 a.2 r.1 :: log)

def Op.apply : Op → Nvram × List Event → Nvram × List Event
  | .set kmalloc name value, (s, log) =>
    let r := _nvramSet kmalloc name value s
    (r.2, .set name value r.1 :: log)
  | .unset name, (s, log) => ((_nvramUnset name s).2, .unset name :: log)
  | .rehash kmalloc header, (s, log) =>
    ((nvramRehash kmalloc header s).2.2,
      logAll kmalloc header.assigned (nvramFree s) (.free :: log))

/-- The table and its log after a run, the first operation first. -/
def history (ops : List Op) : Nvram × List Event :=
  ops.foldl (fun r op => op.apply r) (Nvram.initial, [])

/-- The table is valid and its lookups agree with the log. -/
structure Logged (r : Nvram × List Event) : Prop where
  valid : r.1.Valid
  agrees : ∀ name, _nvramGet name r.1 = latest name r.2

namespace Logged

variable {s : Nvram} {log : List Event}

theorem initial : Logged (Nvram.initial, []) where
  valid := Nvram.initial_valid
  agrees name := by simp [_nvramGet, Nvram.find, Chains.find, Nvram.initial, latest]

theorem set (h : Logged (s, log)) (kmalloc : Bool) (name value : CStr) :
    Logged ((_nvramSet kmalloc name value s).2,
      .set name value (_nvramSet kmalloc name value s).1 :: log) where
  valid := h.valid.set kmalloc name value
  agrees m := by
    rw [latest, h.valid.set_get, h.agrees]
    simp only [eq_comm]

theorem unset (h : Logged (s, log)) (name : CStr) :
    Logged ((_nvramUnset name s).2, .unset name :: log) where
  valid := (h.valid.unset name).1
  agrees m := by
    rw [latest, (h.valid.unset name).2, h.agrees]
    simp only [eq_comm]

theorem free (h : Logged (s, log)) : Logged (nvramFree s, .free :: log) where
  valid := h.valid.free
  agrees m := by rw [Nvram.get_free, latest]

theorem setAll (h : Logged (s, log)) (kmalloc : ℕ → Bool) (l : List (CStr × CStr)) :
    Logged (KernelNvram.setAll kmalloc l s, logAll kmalloc l s log) := by
  induction l generalizing s log kmalloc with
  | nil => exact h
  | cons a l ih => exact ih (h.set (kmalloc 0) a.1 a.2) _

/-- One operation of any kind. -/
theorem apply {r : Nvram × List Event} (h : Logged r) (op : Op) : Logged (op.apply r) := by
  cases op with
  | set kmalloc name value => exact h.set kmalloc name value
  | unset name => exact h.unset name
  | rehash kmalloc header =>
    rw [Op.apply, nvramRehash_store]
    exact h.free.setAll kmalloc header.assigned

/-- Every run. -/
theorem history (ops : List Op) : Logged (history ops) := by
  unfold KernelNvram.history
  have hrun (r : Nvram × List Event) (h : Logged r) :
      Logged (ops.foldl (fun r op => op.apply r) r) := by
    induction ops generalizing r with
    | nil => exact h
    | cons op ops ih => exact ih _ (h.apply op)
  exact hrun _ initial

end Logged

/-- The byte ranges of two values do not overlap. -/
def Nvram.Apart (s : Nvram) (t u : NvramTuple) : Prop :=
  t.value + (s.str t.value).len + 1 ≤ u.value ∨ u.value + (s.str u.value).len + 1 ≤ t.value

theorem Nvram.Valid.live_nodup {s : Nvram} (h : s.Valid) : (s.live.map NvramTuple.name).Nodup :=
  h.chained.entries_nodup

theorem Nvram.Valid.live_apart {s : Nvram} (h : s.Valid) : s.live.Pairwise s.Apart := by
  refine (List.pairwise_map.mp h.live_nodup).imp_of_mem ?_
  intro t u ht hu hne
  exact h.disjoint _ _ t u (h.mem_live.mp ht) (h.mem_live.mp hu) hne

/-- After any run the live tuples sit in their buckets under distinct names, their values are
disjoint strings below the fill level of the arena, and a lookup gives the latest write. -/
theorem history_consistent (ops : List Op) :
    let s := (history ops).1
    (∀ i, ∀ t ∈ s.nvramHash i, (hash t.name).toNat % 257 = i.val) ∧
      (s.live.map NvramTuple.name).Nodup ∧
      s.nvramBuf.length = NVRAM_SPACE ∧ s.nvramOffset ≤ NVRAM_SPACE ∧
      (∀ t ∈ s.live, Holds s.nvramBuf t.value (s.str t.value).stored ∧
        t.value + (s.str t.value).stored.length ≤ s.nvramOffset) ∧
      s.live.Pairwise s.Apart ∧
      ∀ name, _nvramGet name s = latest name (history ops).2 := by
  intro s
  have h : s.Valid := (Logged.history ops).valid
  refine ⟨fun i t ht => ?_, h.live_nodup, h.buf_length, h.offset_le, fun t ht => ?_,
    h.live_apart, (Logged.history ops).agrees⟩
  · exact congrArg Fin.val (h.chained.placed i t ht)
  · obtain ⟨hs, he⟩ := h.stored t.name t (h.mem_live.mp ht)
    exact ⟨hs, by rw [CStr.stored_length]; omega⟩

end EzpFirmware.KernelNvram
