import EzpFirmware.KernelNvram.RoundTrip

/-! # Setting a variable with consolidation

When the arena refuses a value, `nvram_set` writes the store into a scratch
image, rebuilds the table from it and tries again. The image has to hold names
and separators besides the values, so it can be too small for a store that the
arena took. This module states exactly when a set changes its own variable only.
-/
namespace EzpFirmware.KernelNvram
open Lib

/-- What the kernel allocator answers during one `nvram_set`. -/
structure SetAnswers where
  /-- A tuple for the first attempt. -/
  first : Bool
  /-- The scratch header. -/
  header : Bool
  /-- What the fresh scratch header contains. -/
  scratch : Image
  /-- A tuple for the `i`-th assignment of the rebuild. -/
  rebuild : ℕ → Bool
  /-- A tuple for the second attempt. -/
  retry : Bool

/-- `nvram_set`. -/
def nvramSet (kmalloc : SetAnswers) (name value : CStr) (s : Nvram) : ℤ × Nvram :=
  let r := _nvramSet kmalloc.first name value s
  if r.1 ≠ 0 then
    if kmalloc.header then
      let c := _nvramCommit kmalloc.rebuild kmalloc.scratch r.2
      if c.1 = 0 then _nvramSet kmalloc.retry name value c.2.2 else (r.1, c.2.2)
    else r
  else r

/-- `nvram_unset`. -/
def nvramUnset (name : CStr) (s : Nvram) : ℤ × Nvram := _nvramUnset name s

inductive Request where
  | set (kmalloc : SetAnswers) (name value : CStr)
  | unset (name : CStr)
  | commit (kmalloc : ℕ → Bool) (header : Image)
  | load (kmalloc : ℕ → Bool) (header : Image)

def Request.apply : Request → Nvram → Nvram
  | .set kmalloc name value, s => (nvramSet kmalloc name value s).2
  | .unset name, s => (nvramUnset name s).2
  | .commit kmalloc header, s => (_nvramCommit kmalloc header s).2.2
  | .load kmalloc header, s => (nvramRehash kmalloc header s).2.2

/-- The store after a run of requests. -/
def serve (rs : List Request) : Nvram := rs.foldl (fun s r => r.apply s) Nvram.initial

/-- A successful set gives the name its value and leaves every other name alone; a failed one
leaves every name alone. -/
def SetsOnly (name value : CStr) (r : ℤ × Nvram) (s : Nvram) : Prop :=
  if r.1 = 0 then ∀ m, _nvramGet m r.2 = if m = name then some value else _nvramGet m s
  else ∀ m, _nvramGet m r.2 = _nvramGet m s

theorem setsOnly_refused {name value : CStr} {s s' : Nvram} :
    SetsOnly name value (ENOMEM, s') s ↔ ∀ m, _nvramGet m s' = _nvramGet m s := by
  have hret : ENOMEM ≠ 0 := by decide
  rw [SetsOnly, if_neg hret]

/-- The variables that come out of a consolidation: written to the image before the space ends,
and given a tuple again. -/
def kept (rebuild : ℕ → Bool) (s : Nvram) : List (CStr × CStr) := answered rebuild (written s).1

/-- A consolidation on behalf of `name` does no damage: no name carries the separator, every other
variable is kept, and the variable itself is kept or its second attempt is accepted. -/
structure Lossless (kmalloc : SetAnswers) (name value : CStr) (s : Nvram) : Prop where
  named : s.Named
  others : ∀ m v, m ≠ name → _nvramGet m s = some v → (m, v) ∈ kept kmalloc.rebuild s
  self : ∀ w, _nvramGet name s = some w → (name, w) ∈ kept kmalloc.rebuild s ∨
    (totalSize valueSize (kept kmalloc.rebuild s) + value.len + 1 ≤ NVRAM_SPACE ∧
      kmalloc.retry = true)

namespace Nvram

variable {s : Nvram} {kmalloc : SetAnswers} {name value : CStr}

/-- The store a consolidation leaves for the second attempt. -/
def consolidated (rebuild : ℕ → Bool) (s : Nvram) : Nvram :=
  setAll rebuild ((written s).1.map reread) (nvramFree s)

theorem commit_store (rebuild : ℕ → Bool) (header : Image) (s : Nvram) :
    (_nvramCommit rebuild header s).2.2 = s.consolidated rebuild := by
  rw [_nvramCommit, nvramRehash_store, assigned_of_agrees (.refl _), consolidated]

theorem Valid.consolidated (h : s.Valid) (rebuild : ℕ → Bool) : (s.consolidated rebuild).Valid :=
  h.free.setAll _ _

theorem Valid.nvramSet (h : s.Valid) (kmalloc : SetAnswers) (name value : CStr) :
    (nvramSet kmalloc name value s).2.Valid := by
  have h1 := h.set kmalloc.first name value
  have h2 := h1.commit kmalloc.rebuild kmalloc.scratch
  unfold KernelNvram.nvramSet
  dsimp only
  split_ifs
  · exact h2.set _ _ _
  · simpa only using h2
  · exact h1
  · exact h1

/-- Every run keeps the table valid. -/
theorem serve_valid (rs : List Request) : (serve rs).Valid := by
  have hstep (s : Nvram) (h : s.Valid) (r : Request) : (r.apply s).Valid := by
    cases r with
    | set kmalloc name value => exact h.nvramSet kmalloc name value
    | unset name => exact (h.unset name).1
    | commit kmalloc header => exact h.commit kmalloc header
    | load kmalloc header => exact h.rehash kmalloc header
  have hrun (s : Nvram) (h : s.Valid) : (rs.foldl (fun s r => r.apply s) s).Valid := by
    induction rs generalizing s with
    | nil => exact h
    | cons r rs ih => exact ih _ (hstep s h r)
  exact hrun _ initial_valid

theorem nvramSet_fast (h : s.Valid) (ha : s.Accepts kmalloc.first name value) :
    nvramSet kmalloc name value s = _nvramSet kmalloc.first name value s := by
  unfold KernelNvram.nvramSet
  simp [(h.set_accepted ha).1]

theorem nvramSet_no_header (ha : ¬ s.Accepts kmalloc.first name value)
    (hh : kmalloc.header = false) : nvramSet kmalloc name value s = (ENOMEM, s) := by
  unfold KernelNvram.nvramSet
  simp [set_refused ha, hh]

theorem nvramSet_slow (ha : ¬ s.Accepts kmalloc.first name value) (hh : kmalloc.header = true) :
    nvramSet kmalloc name value s =
      _nvramSet kmalloc.retry name value (s.consolidated kmalloc.rebuild) := by
  rw [← commit_store kmalloc.rebuild kmalloc.scratch s]
  unfold KernelNvram.nvramSet
  simp [set_refused ha, hh, ENOMEM, _nvramCommit, nvramRehash]

theorem Valid.setsOnly_set (h : s.Valid) (k : Bool) (name value : CStr) :
    SetsOnly name value (_nvramSet k name value s) s := by
  by_cases ha : s.Accepts k name value
  · obtain ⟨h0, -, hg, -⟩ := h.set_accepted ha
    rw [SetsOnly, if_pos h0]
    exact hg
  · rw [set_refused ha, setsOnly_refused]
    exact fun m => rfl

/-- What a consolidation leaves of a store without separators in its names. -/
theorem Valid.consolidated_get (h : s.Valid) (hn : s.Named) (rebuild : ℕ → Bool) :
    (∀ m v, _nvramGet m (s.consolidated rebuild) = some v ↔ (m, v) ∈ kept rebuild s) ∧
      (s.consolidated rebuild).nvramOffset = totalSize valueSize (kept rebuild s) := by
  have hsize : totalSize valueSize (written s).1 ≤ NVRAM_SPACE :=
    (totalSize_value_le _).trans (by have := written_size s; omega)
  obtain ⟨hg, ho⟩ := h.free.setAll_answered (k := rebuild) h.written_nodup
    (fun a _ => get_free a.1) (by simpa using hsize)
  rw [Nvram.consolidated, h.reread_written hn]
  refine ⟨fun m v => ?_, by simpa [kept] using ho⟩
  rw [hg]
  simp only [get_free]
  exact overwrite_eq_some (h.written_nodup.sublist ((answered_sublist _ _).map Prod.fst))

theorem Valid.kept_get (h : s.Valid) {rebuild : ℕ → Bool} {m v : CStr}
    (hm : (m, v) ∈ kept rebuild s) : _nvramGet m s = some v :=
  h.mem_all_iff.mp ((written_sublist s).subset ((answered_sublist _ _).subset hm))

theorem Valid.consolidated_mem (h : s.Valid) {rebuild : ℕ → Bool} {m v : CStr}
    (hm : _nvramGet m (s.consolidated rebuild) = some v) : (m, v) ∈ (written s).1.map reread := by
  cases h.free.setAll_mem hm with
  | inl hf => simp at hf
  | inr hf => exact hf

/-- After a consolidation no name carries the separator. -/
theorem Valid.consolidated_named (h : s.Valid) (rebuild : ℕ → Bool) :
    (s.consolidated rebuild).Named := by
  intro m hm
  obtain ⟨v, hv⟩ := Option.isSome_iff_exists.mp hm
  obtain ⟨a, -, ha⟩ := List.mem_map.mp (h.consolidated_mem hv)
  have hname := reread_name a
  rw [ha] at hname
  exact hname

/-- What a consolidation leaves fits into an image again. -/
theorem Valid.consolidated_fits (h : s.Valid) (rebuild : ℕ → Bool) :
    (s.consolidated rebuild).Fits :=
  ((h.consolidated rebuild).all_size_le fun _ _ hv => h.consolidated_mem hv).trans
    (written_reread_size s)

/-- With all requests answered, a consolidation leaves what an image of the store stands for, and
so does every further one. -/
theorem Valid.consolidated_map (h : s.Valid) {k : ℕ → Bool} (hk : ∀ i, k i = true) (m : CStr) :
    _nvramGet m (s.consolidated k) = s.imageMap m := by
  rw [← commit_store k (Image.ofBytes []) s, _nvramCommit, h.rehash_get hk,
    contents_of_agrees (.refl _)]

theorem Valid.consolidated_imageMap (h : s.Valid) {k : ℕ → Bool} (hk : ∀ i, k i = true) :
    (s.consolidated k).imageMap = s.imageMap := by
  funext m
  have hc := h.consolidated k
  rw [hc.imageMap_iff.mpr ⟨h.consolidated_named k, h.consolidated_fits k⟩ m,
    h.consolidated_map hk]

/-- The second attempt on a store that lost nothing of importance. -/
theorem Valid.setsOnly_of_lossless (h : s.Valid) (hl : Lossless kmalloc name value s) :
    SetsOnly name value
      (_nvramSet kmalloc.retry name value (s.consolidated kmalloc.rebuild)) s := by
  have hc := h.consolidated kmalloc.rebuild
  obtain ⟨hg, ho⟩ := h.consolidated_get hl.named kmalloc.rebuild
  have hother : ∀ m, m ≠ name → _nvramGet m (s.consolidated kmalloc.rebuild) = _nvramGet m s := by
    intro m hm
    refine Option.ext fun v => ?_
    rw [hg]
    exact ⟨h.kept_get, hl.others m v hm⟩
  by_cases ha : (s.consolidated kmalloc.rebuild).Accepts kmalloc.retry name value
  · obtain ⟨h0, -, hset, -⟩ := hc.set_accepted ha
    rw [SetsOnly, if_pos h0]
    intro m
    rw [hset]
    by_cases hm : m = name
    · rw [if_pos hm, if_pos hm]
    · rw [if_neg hm, if_neg hm, hother m hm]
  · rw [set_refused ha, setsOnly_refused]
    intro m
    by_cases hm : m = name
    · subst hm
      refine Option.ext fun v => ?_
      rw [hg]
      refine ⟨h.kept_get, fun hv => ?_⟩
      rcases hl.self v hv with hk | ⟨hr, hk⟩
      · exact hk
      · exact absurd ⟨by rw [Room, ho]; exact hr, fun _ => hk⟩ ha
    · exact hother m hm

/-- If the second attempt leaves the other variables alone, they were kept. -/
theorem Valid.kept_of_others (h : s.Valid) (hname : EQ ∉ name.val)
    (hs : ∀ m, m ≠ name →
      _nvramGet m (_nvramSet kmalloc.retry name value (s.consolidated kmalloc.rebuild)).2 =
        _nvramGet m s) :
    s.Named ∧ ∀ m v, m ≠ name → _nvramGet m s = some v → (m, v) ∈ kept kmalloc.rebuild s := by
  have hother : ∀ m, m ≠ name → _nvramGet m (s.consolidated kmalloc.rebuild) = _nvramGet m s := by
    intro m hm
    have hset := (h.consolidated kmalloc.rebuild).set_get kmalloc.retry name value m
    rw [if_neg (fun hx => hm hx.1)] at hset
    rw [← hset]
    exact hs m hm
  have hnamed : s.Named := by
    intro m hm
    by_cases he : m = name
    · exact he ▸ hname
    · rw [← hother m he] at hm
      exact h.consolidated_named _ m hm
  refine ⟨hnamed, fun m v hm hv => ?_⟩
  rw [← (h.consolidated_get hnamed kmalloc.rebuild).1, hother m hm]
  exact hv

theorem setsOnly_others {r : ℤ × Nvram} (hs : SetsOnly name value r s) {m : CStr}
    (hm : m ≠ name) : _nvramGet m r.2 = _nvramGet m s := by
  unfold SetsOnly at hs
  split at hs
  · rw [hs, if_neg hm]
  · exact hs m

/-- If the second attempt leaves the right map, nothing of importance was lost. -/
theorem Valid.lossless_of_setsOnly (h : s.Valid) (hname : EQ ∉ name.val)
    (hs : SetsOnly name value
      (_nvramSet kmalloc.retry name value (s.consolidated kmalloc.rebuild)) s) :
    Lossless kmalloc name value s := by
  obtain ⟨hnamed, hkept⟩ := h.kept_of_others hname fun m hm => setsOnly_others hs hm
  obtain ⟨hg, ho⟩ := h.consolidated_get hnamed kmalloc.rebuild
  refine ⟨hnamed, hkept, fun w hw => ?_⟩
  by_cases hk : (name, w) ∈ kept kmalloc.rebuild s
  · exact .inl hk
  · have hnone : _nvramGet name (s.consolidated kmalloc.rebuild) = none := by
      refine Option.eq_none_iff_forall_ne_some.mpr fun v hv => ?_
      have hm := (hg name v).mp hv
      have hvw := (h.kept_get hm).symm.trans hw
      cases hvw
      exact hk hm
    have ha : (s.consolidated kmalloc.rebuild).Accepts kmalloc.retry name value := by
      by_contra ha
      rw [set_refused ha, setsOnly_refused] at hs
      have hx := hs name
      rw [hnone, hw] at hx
      cases hx
    refine .inr ⟨?_, ha.2 (get_eq_none.mp hnone)⟩
    rw [← ho]
    exact ha.1

/-- With memory at hand, a store that fits into an image takes every value that fits into an arena
with nothing but the live values. -/
theorem Valid.nvramSet_fits (h : s.Valid)
    (hheader : kmalloc.header = true) (hrebuild : ∀ i, kmalloc.rebuild i = true)
    (hretry : kmalloc.retry = true) (hn : s.Named) (hf : s.Fits)
    (hr : totalSize valueSize s.all + value.len + 1 ≤ NVRAM_SPACE) (m : CStr) :
    _nvramGet m (KernelNvram.nvramSet kmalloc name value s).2 =
      if m = name then some value else _nvramGet m s := by
  by_cases ha : s.Accepts kmalloc.first name value
  · rw [nvramSet_fast h ha, (h.set_accepted ha).2.2.1]
  · have hc := h.consolidated kmalloc.rebuild
    obtain ⟨-, ho⟩ := h.consolidated_get hn kmalloc.rebuild
    rw [kept, answered_all hrebuild, fits_iff_written.mp hf] at ho
    have hacc : (s.consolidated kmalloc.rebuild).Accepts kmalloc.retry name value :=
      ⟨by rw [Room, ho]; exact hr, fun _ => hretry⟩
    rw [nvramSet_slow ha hheader, (hc.set_accepted hacc).2.2.1, h.consolidated_map hrebuild,
      h.imageMap_iff.mpr ⟨hn, hf⟩]

/-- A consolidation damages a store whose other variables are too much for an image. -/
theorem Valid.not_others (h : s.Valid) {l : List (CStr × CStr)}
    (ha : ¬ s.Accepts kmalloc.first name value) (hh : kmalloc.header = true)
    (hname : EQ ∉ name.val) (hl : ∀ a ∈ l, a.1 ≠ name ∧ _nvramGet a.1 s = some a.2)
    (hn : (l.map Prod.fst).Nodup)
    (hsize : NVRAM_SPACE - 22 < totalSize assignmentSize l) :
    ¬ ∀ m, m ≠ name → _nvramGet m (KernelNvram.nvramSet kmalloc name value s).2 =
      _nvramGet m s := by
  rw [nvramSet_slow ha hh]
  intro hs
  have hkept := (h.kept_of_others hname hs).2
  have hsub : l ⊆ (written s).1 := fun a ha' =>
    (answered_sublist _ _).subset (hkept a.1 a.2 (hl a ha').1 (hl a ha').2)
  have hle : totalSize assignmentSize l ≤ totalSize assignmentSize (written s).1 :=
    totalSize_le_of_subset (hn.of_map _) hsub
  have hspace := written_size s
  simp only [NVRAM_HEADER_SIZE, NVRAM_SPACE] at hspace hsize
  omega

end Nvram

/-- In every reachable store: a set changes its own variable only, and a failed set nothing, if
and only if the value is accepted at once, no scratch header can be had, or the consolidation is
lossless. -/
theorem nvramSet_setsOnly_iff (rs : List Request) (kmalloc : SetAnswers) (name value : CStr)
    (hname : EQ ∉ name.val) :
    SetsOnly name value (nvramSet kmalloc name value (serve rs)) (serve rs) ↔
      (serve rs).Accepts kmalloc.first name value ∨ kmalloc.header = false ∨
        Lossless kmalloc name value (serve rs) := by
  have h := Nvram.serve_valid rs
  by_cases ha : (serve rs).Accepts kmalloc.first name value
  · simp only [ha, true_or, iff_true]
    rw [Nvram.nvramSet_fast h ha]
    exact h.setsOnly_set _ _ _
  · cases hh : kmalloc.header with
    | false =>
      simp only [true_or, or_true, iff_true]
      rw [Nvram.nvramSet_no_header ha hh, setsOnly_refused]
      exact fun m => rfl
    | true =>
      simp only [ha, false_or, Bool.true_eq_false]
      rw [Nvram.nvramSet_slow ha hh]
      exact ⟨h.lossless_of_setsOnly hname, h.setsOnly_of_lossless⟩

/-- An allocator that never refuses. -/
def plenty : SetAnswers := ⟨true, true, Image.ofBytes [], fun _ => true, true⟩

/-- A store with a single variable. -/
theorem serve_single {name value : CStr} (h : value.len < NVRAM_SPACE) (m : CStr) :
    _nvramGet m (serve [.set plenty name value]) = if m = name then some value else none := by
  have hacc : Nvram.initial.Accepts true name value := by
    refine ⟨?_, fun _ => rfl⟩
    have hzero : Nvram.initial.nvramOffset = 0 := rfl
    rw [Nvram.Room, hzero]
    omega
  have hfast : nvramSet plenty name value Nvram.initial = _nvramSet true name value Nvram.initial :=
    Nvram.nvramSet_fast Nvram.initial_valid hacc
  have hempty : _nvramGet m Nvram.initial = none := Logged.initial.agrees m
  rw [serve, List.foldl_cons, List.foldl_nil, Request.apply, hfast,
    (Nvram.initial_valid.set_accepted hacc).2.2.1, hempty]

/-- A value of `n` letters. -/
def letters (n : ℕ) : CStr := ⟨List.replicate n 0x78, fun h => by simp at h⟩

@[simp] theorem letters_len (n : ℕ) : (letters n).len = n := List.length_replicate

theorem assignmentSize_letters (name : CStr) (n : ℕ) :
    assignmentSize (name, letters n) = name.len + 1 + n + 1 := by
  rw [assignmentSize, letters_len]

/-- Two sets that are accepted at once. -/
theorem serve_pair {a b v w : CStr} (hroom : v.len + 1 + w.len + 1 ≤ NVRAM_SPACE)
    (hvw : b = a → v ≠ w) {s : Nvram} (hs : serve [.set plenty a v, .set plenty b w] = s) :
    s.Valid ∧
      (∀ m, _nvramGet m s = if m = b then some w else if m = a then some v else none) ∧
      s.nvramOffset = v.len + 1 + w.len + 1 := by
  have hempty : ∀ m, _nvramGet m Nvram.initial = none := fun m => Logged.initial.agrees m
  have hzero : Nvram.initial.nvramOffset = 0 := rfl
  have hacc : Nvram.initial.Accepts true a v := by
    refine ⟨?_, fun _ => rfl⟩
    rw [Nvram.Room, hzero]
    omega
  obtain ⟨-, hv, hg, ho⟩ := Nvram.initial_valid.set_accepted hacc
  rw [hempty, if_neg (by simp), hzero, Nat.zero_add] at ho
  have hfirst : nvramSet plenty a v Nvram.initial = _nvramSet true a v Nvram.initial :=
    Nvram.nvramSet_fast Nvram.initial_valid hacc
  set t := (_nvramSet true a v Nvram.initial).2 with ht
  have hacc' : t.Accepts true b w := by
    refine ⟨?_, fun _ => rfl⟩
    rw [Nvram.Room, ho]
    exact hroom
  obtain ⟨-, hv', hg', hoff⟩ := hv.set_accepted hacc'
  have hother : _nvramGet b t ≠ some w := by
    rw [hg, hempty]
    by_cases hab : b = a
    · rw [if_pos hab]
      exact fun h => hvw hab (Option.some.inj h)
    · simp [hab]
  rw [if_neg hother, ho] at hoff
  have hserve : s = (_nvramSet true b w t).2 := by
    have hsecond : nvramSet plenty b w t = _nvramSet true b w t := Nvram.nvramSet_fast hv hacc'
    rw [← hs, serve, List.foldl_cons, List.foldl_cons, List.foldl_nil, Request.apply,
      Request.apply, hfirst, ← ht, hsecond]
  rw [hserve]
  refine ⟨hv', fun m => ?_, hoff⟩
  rw [hg', hg, hempty]

/-- A variable that was set twice. Its first value still takes its place. -/
def rewritten : List Request :=
  [.set plenty (CStr.ofString "a") (letters 20000), .set plenty (CStr.ofString "a") (letters 10000)]

/-- One value is live, whatever the name. -/
theorem rewritten_store {a : CStr} {s : Nvram}
    (hs : serve [.set plenty a (letters 20000), .set plenty a (letters 10000)] = s) :
    s.Valid ∧ (∀ m, _nvramGet m s = if m = a then some (letters 10000) else none) ∧
      s.nvramOffset = 30002 := by
  have hne : letters 20000 ≠ letters 10000 := by
    intro he
    have hlen := congrArg CStr.len he
    rw [letters_len, letters_len] at hlen
    omega
  obtain ⟨h, hg, ho⟩ := serve_pair (by rw [letters_len, letters_len]; decide) (fun _ => hne) hs
  rw [letters_len, letters_len] at ho
  refine ⟨h, fun m => ?_, ho⟩
  rw [hg]
  split_ifs <;> rfl

/-- There is no room for another variable before a consolidation, which loses nothing. -/
theorem rewritten_lossless {a b : CStr} (ha : a.len ≤ 100) (hname : EQ ∉ a.val) {s : Nvram}
    (hs : serve [.set plenty a (letters 20000), .set plenty a (letters 10000)] = s) (hab : b ≠ a) :
    ¬ s.Accepts plenty.first b (letters 5000) ∧ Lossless plenty b (letters 5000) s := by
  obtain ⟨h, hg, ho⟩ := rewritten_store hs
  have hfits : s.Fits := by
    refine (h.all_size_le (l := [(a, letters 10000)]) fun m v hv => ?_).trans ?_
    · rw [hg] at hv
      by_cases hm : m = a
      · rw [if_pos hm] at hv
        rw [hm, Option.some.inj hv]
        exact List.mem_singleton_self _
      · simp [hm] at hv
    · rw [totalSize_cons, totalSize_nil, assignmentSize_letters, NVRAM_SPACE]
      omega
  constructor
  · rintro ⟨hroom, -⟩
    rw [Nvram.Room, ho, letters_len, NVRAM_SPACE] at hroom
    omega
  · constructor
    · intro m hm
      rw [hg] at hm
      by_cases he : m = a
      · exact he ▸ hname
      · simp [he] at hm
    · intro m v _ hv
      have hall : answered plenty.rebuild (written s).1 = (written s).1 :=
        answered_all (fun _ => rfl) _
      rw [kept, hall, Nvram.fits_iff_written.mp hfits]
      exact h.mem_all_iff.mpr hv
    · intro w hw
      rw [hg, if_neg hab] at hw
      cases hw

/-- The set of another variable is accepted after a consolidation. -/
theorem nvramSet_setsOnly_again :
    ¬ (serve rewritten).Accepts plenty.first (CStr.ofString "b") (letters 5000) ∧
      SetsOnly (CStr.ofString "b") (letters 5000)
        (nvramSet plenty (CStr.ofString "b") (letters 5000) (serve rewritten))
        (serve rewritten) := by
  have hiff := nvramSet_setsOnly_iff rewritten plenty (CStr.ofString "b") (letters 5000) (by decide)
  obtain ⟨s, hs⟩ : ∃ s, serve rewritten = s := ⟨_, rfl⟩
  rw [hs] at hiff ⊢
  rw [rewritten] at hs
  obtain ⟨hfull, hl⟩ := rewritten_lossless (b := CStr.ofString "b") (by decide) (by decide) hs
    (by decide)
  rw [hiff]
  exact ⟨hfull, .inr (.inr hl)⟩

/-- Two variables that fill the arena, but with their names do not fit into an image. -/
def crowded : List Request :=
  [.set plenty (CStr.ofString "a") (letters 32740), .set plenty (CStr.ofString "b") (letters 20)]

/-- Any two names will do. -/
theorem filled_store {a b : CStr} (hab : b ≠ a) {s : Nvram}
    (hs : serve [.set plenty a (letters 32740), .set plenty b (letters 20)] = s) :
    s.Valid ∧ _nvramGet a s = some (letters 32740) ∧ _nvramGet b s = some (letters 20) ∧
      s.nvramOffset = 32762 := by
  obtain ⟨h, hg, ho⟩ := serve_pair (by rw [letters_len, letters_len]; decide)
    (fun he => absurd he hab) hs
  rw [letters_len, letters_len] at ho
  exact ⟨h, by rw [hg, if_neg hab.symm, if_pos rfl], by rw [hg, if_pos rfl], ho⟩

/-- A third variable then costs one of the two. -/
theorem filled_drops {a b c : CStr} (hab : b ≠ a) (hac : a ≠ c) (hbc : b ≠ c) {s : Nvram}
    (hs : serve [.set plenty a (letters 32740), .set plenty b (letters 20)] = s)
    (hlen : 2 ≤ a.len + b.len) (hname : EQ ∉ c.val) :
    ¬ ∀ m, m ≠ c → _nvramGet m (nvramSet plenty c (letters 7) s).2 = _nvramGet m s := by
  obtain ⟨h, ha, hb, ho⟩ := filled_store hab hs
  have hfull : ¬ s.Accepts plenty.first c (letters 7) := by
    rintro ⟨hr, -⟩
    rw [Nvram.Room, ho, letters_len, NVRAM_SPACE] at hr
    omega
  have hl : ∀ x ∈ [(a, letters 32740), (b, letters 20)], x.1 ≠ c ∧ _nvramGet x.1 s = some x.2 := by
    intro x hx
    cases List.mem_cons.mp hx with
    | inl hx => exact hx ▸ ⟨hac, ha⟩
    | inr hx => exact List.mem_singleton.mp hx ▸ ⟨hbc, hb⟩
  apply h.not_others hfull rfl hname hl
  · simpa using hab.symm
  · rw [totalSize_cons, totalSize_cons, totalSize_nil, assignmentSize_letters,
      assignmentSize_letters, NVRAM_SPACE]
    omega

/-- The set of a third variable returns 0 and drops one of the two. -/
theorem nvramSet_crowded :
    ¬ SetsOnly (CStr.ofString "c") (letters 7)
      (nvramSet plenty (CStr.ofString "c") (letters 7) (serve crowded)) (serve crowded) := by
  obtain ⟨s, hs⟩ : ∃ s, serve crowded = s := ⟨_, rfl⟩
  rw [hs]
  rw [crowded] at hs
  intro h
  exact filled_drops (by decide) (by decide) (by decide) hs (by decide) (by decide)
    fun m hm => Nvram.setsOnly_others h hm

end EzpFirmware.KernelNvram
