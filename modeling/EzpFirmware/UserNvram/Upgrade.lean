import EzpFirmware.UserNvram.Api
import EzpFirmware.UserNvram.FwTable

/-! # Migration between firmware releases

`nvram_upgrade` looks up the release a configuration comes from and the running
release, and calls the migration functions in between. A lookup keeps the last
row with the string, and four rows carry the string of one release; a string
that is not found leaves a negative number, with which the table is indexed.
-/
namespace EzpFirmware.UserNvram
open Lib

/-- What an upgrade does to the variables. -/
inductive Event where
  | specialProcessing
  | fwVersionUpdate (newStr : CStr)
  | run (f : FwFunc)
  | unsetProdSubsubcat
  deriving DecidableEq

def isdigit (c : UInt8) : Bool := 0x30 ≤ c && c ≤ 0x39

/-- The leading digits and dots, e.g. `1.6.5` for `1.6.5-RC1`. -/
def purify (s : CStr) : CStr :=
  ⟨s.val.takeWhile fun c => c == 0x2e || isdigit c,
    fun h => s.property (List.takeWhile_subset _ h)⟩

/-- `0xEFFFFFFF` in an `int`. -/
@[irreducible] def NOT_FOUND : ℤ := 0xEFFFFFFF - 0x100000000

theorem NOT_FOUND_neg : NOT_FOUND + 1 < 0 := by simp [NOT_FOUND]

/-- The scan of the table: the last row with the string decides. -/
def lookup (start : Option ℤ) (s : CStr) : Option ℤ :=
  nvramFwTable.foldl (fun r v => if v.fwStr = s then some v.fwVersion.ctorIdx else r) start

/-- `nvram_fw_table[i]`. -/
def fwEntry (i : ℤ) : Option NvramFwTuple := if i < 0 then none else nvramFwTable[i.toNat]?

/-- The loop over the releases, `n` of them from `i` on. -/
def upgradeLoop : ℕ → ℤ → Except Fault (List Event)
  | 0, _ => .ok []
  | n + 1, i =>
    match fwEntry i with
    | none => .error (.outOfTable i)
    | some v =>
      (upgradeLoop n (i + 1)).map fun es => (v.fwUpgradeFunc.map Event.run).toList ++ es

/-- The version the configuration comes from, before it is purified. -/
def oldString (source : Option CStr) (fwVersion : CStr) : CStr :=
  match source with
  | none => fwVersion
  | some s => if s = CStr.empty then fwVersion else s

/-- The string that is looked up: an empty version stands for the first row. -/
def oldRelease (oldStr : CStr) : CStr :=
  if purify oldStr = CStr.empty then .ofString "0.0.0" else purify oldStr

/-- `nvram_upgrade`, in a build without the platform and brand specials: whether something
changed, and what was done. `fwVersion` and `prodSubsubcat` are the values of these variables. -/
def nvramUpgrade (EZP_PROD_VERSION : CStr) (source : Option CStr) (fwVersion prodSubsubcat : CStr) :
    Except Fault (Bool × List Event) :=
  let oldStr := oldString source fwVersion
  let newStr := EZP_PROD_VERSION
  if 32 ≤ oldStr.len ∨ 32 ≤ newStr.len then .error .overflow
  else
    let start := if oldStr = newStr then [] else [.specialProcessing, .fwVersionUpdate newStr]
    let stop := if prodSubsubcat = CStr.empty then [] else [.unsetProdSubsubcat]
    match lookup (some NOT_FOUND) (oldRelease oldStr), lookup none (purify newStr) with
    | some old, some new =>
      (if old < new then upgradeLoop (new - old).toNat (old + 1) else .ok []).map fun es =>
        (!start.isEmpty || decide (old < new) || !stop.isEmpty, start ++ es ++ stop)
    | _, _ => .error .uninitialised

/-- The migration functions among the events. -/
def migrations (es : List Event) : List FwFunc :=
  es.filterMap fun e => match e with
    | .run f => some f
    | _ => none

/-! ## What should run -/

/-- The row of a release: the first one with its string. -/
def releaseIndex (s : CStr) : Option ℕ := nvramFwTable.findIdx? fun v => v.fwStr = s

/-- The functions of the rows after row `k` up to row `m`. -/
def between (k m : ℕ) : List FwFunc :=
  ((nvramFwTable.drop (k + 1)).take (m - k)).filterMap NvramFwTuple.fwUpgradeFunc

/-- An upgrade runs the functions between the two releases, in order, and nothing if the old
version is no release; and it stays inside buffers and table. -/
def Migrates (EZP_PROD_VERSION : CStr) (source : Option CStr) (fwVersion prodSubsubcat : CStr) :
    Prop :=
  ∃ change es, nvramUpgrade EZP_PROD_VERSION source fwVersion prodSubsubcat = .ok (change, es) ∧
    migrations es =
      match releaseIndex (oldRelease (oldString source fwVersion)),
        releaseIndex (purify EZP_PROD_VERSION) with
      | some k, some m => between k m
      | _, _ => []

/-! ## The table -/

/-- The string that four rows share. -/
def shared : CStr := .ofString "2.0.12"

/-- Row `i` has release number `i`; a lookup gives the first row of the string, but for the shared
string the last of its four rows. -/
theorem table_lookup : ∀ i : Fin 67,
    let s := (nvramFwTable.get (i.cast (by decide))).fwStr
    lookup none s = some (if s = shared then 31 else (i : ℤ)) ∧
      releaseIndex s = some (if s = shared then 28 else i.val) := by
  decide +kernel

theorem table_length : nvramFwTable.length = 67 := by decide

/-- Every row but the first has a function. -/
theorem table_upgrade : ∀ v ∈ nvramFwTable.drop 1, v.fwUpgradeFunc.isSome := by decide +kernel

private theorem foldl_start (l : List NvramFwTuple) (s : CStr) (start : Option ℤ) :
    l.foldl (fun r v => if v.fwStr = s then some (v.fwVersion.ctorIdx : ℤ) else r) start =
      (l.foldl (fun r v => if v.fwStr = s then some (v.fwVersion.ctorIdx : ℤ) else r) none).or
        start := by
  induction l generalizing start with
  | nil => rfl
  | cons v l ih =>
    rw [List.foldl_cons, List.foldl_cons, ih, ih (if v.fwStr = s then _ else none), Option.or_assoc]
    congr 1
    split <;> rfl

theorem lookup_start (start : Option ℤ) (s : CStr) : lookup start s = (lookup none s).or start :=
  foldl_start _ _ _

/-- A string of the table. -/
theorem lookup_release {s : CStr} {k : ℕ} (h : releaseIndex s = some k) :
    k < 67 ∧ lookup none s = some (if s = shared then 31 else (k : ℤ)) ∧
      (s = shared → k = 28) := by
  obtain ⟨hk, hs, -⟩ := List.findIdx?_eq_some_iff_getElem.mp h
  rw [table_length] at hk
  have hrow := table_lookup ⟨k, hk⟩
  have hget : (nvramFwTable.get ((⟨k, hk⟩ : Fin 67).cast (by decide))).fwStr = s := by
    simpa using hs
  rw [hget] at hrow
  refine ⟨hk, hrow.1, fun he => ?_⟩
  have hi := h.symm.trans hrow.2
  rw [if_pos he] at hi
  exact Option.some.inj hi

/-- The number a lookup gives for a release, and a bound for it. -/
theorem lookup_row {s : CStr} {k : ℕ} (h : releaseIndex s = some k) :
    (if s = shared then 31 else k) < 67 ∧
      lookup none s = some ((if s = shared then 31 else k : ℕ) : ℤ) := by
  obtain ⟨hk, hl, -⟩ := lookup_release h
  rw [hl]
  split
  · exact ⟨by decide, rfl⟩
  · exact ⟨hk, rfl⟩

private theorem shared_rows : ∀ i : Fin 67, 28 ≤ i.val → i.val ≤ 31 →
    (nvramFwTable.get (i.cast (by decide))).fwStr = shared := by
  decide +kernel

theorem shared_row {s : CStr} {k : ℕ} (h : releaseIndex s = some k) (h28 : 28 ≤ k) (h31 : k ≤ 31) :
    s = shared := by
  obtain ⟨hk, hs, -⟩ := List.findIdx?_eq_some_iff_getElem.mp h
  have hrow := shared_rows ⟨k, by omega⟩ h28 h31
  have hget : nvramFwTable[k].fwStr = s := by simpa using hs
  rw [← hget]
  simpa using hrow

/-- A string that is not in the table. -/
theorem lookup_other {s : CStr} (h : releaseIndex s = none) : lookup none s = none := by
  have hne : ∀ v ∈ nvramFwTable, v.fwStr ≠ s := by
    simpa [releaseIndex, List.findIdx?_eq_none_iff] using h
  have hfold (l : List NvramFwTuple) (hl : ∀ v ∈ l, v.fwStr ≠ s) :
      l.foldl (fun r v => if v.fwStr = s then some (v.fwVersion.ctorIdx : ℤ) else r) none =
        none := by
    induction l with
    | nil => rfl
    | cons v l ih =>
      rw [List.foldl_cons, if_neg (hl v List.mem_cons_self)]
      exact ih fun w hw => hl w (List.mem_cons_of_mem v hw)
  exact hfold _ hne

/-! ## The loop -/

/-- Inside the table the loop calls the functions of the rows it visits. -/
theorem upgradeLoop_inside (n i : ℕ) (h : i + n ≤ 67) :
    upgradeLoop n i = .ok ((((nvramFwTable.drop i).take n).filterMap
      NvramFwTuple.fwUpgradeFunc).map Event.run) := by
  induction n generalizing i with
  | zero => simp [upgradeLoop]
  | succ n ih =>
    have hi : i < nvramFwTable.length := by
      rw [table_length]
      omega
    have hentry : fwEntry (i : ℤ) = some nvramFwTable[i] := by
      rw [fwEntry, if_neg (by omega), Int.toNat_natCast]
      exact List.getElem?_eq_getElem hi
    have hnext : ((i : ℤ) + 1) = ((i + 1 : ℕ) : ℤ) := by omega
    rw [upgradeLoop, hentry, hnext, ih (i + 1) (by omega), List.drop_eq_getElem_cons hi,
      List.take_succ_cons, List.filterMap_cons]
    cases hf : nvramFwTable[i].fwUpgradeFunc <;> simp [Except.map, hf]

/-- The loop from a marker in front of the table: there is no row. -/
theorem upgradeLoop_outside {z b : ℤ} (hz : z + 1 < 0) (hb : 0 ≤ b) :
    (if z < b then upgradeLoop (b - z).toNat (z + 1) else .ok []) =
      .error (.outOfTable (z + 1)) := by
  obtain ⟨n, hn⟩ : ∃ n, (b - z).toNat = n + 1 := ⟨(b - z).toNat - 1, by omega⟩
  rw [if_pos (by omega), hn, upgradeLoop, fwEntry, if_pos hz]

theorem between_length {k m : ℕ} (hm : m < 67) : (between k m).length = m - k := by
  have hall : ∀ v ∈ (nvramFwTable.drop (k + 1)).take (m - k), v.fwUpgradeFunc.isSome := by
    intro v hv
    apply table_upgrade v
    have hdrop : v ∈ (nvramFwTable.drop 1).drop k := by
      rw [List.drop_drop, Nat.add_comm]
      exact List.mem_of_mem_take hv
    exact List.mem_of_mem_drop hdrop
  rw [between, List.filterMap_length_eq_length.mpr hall, List.length_take, List.length_drop,
    table_length]
  omega

@[simp] theorem migrations_append (a b : List Event) :
    migrations (a ++ b) = migrations a ++ migrations b := List.filterMap_append

theorem migrations_run (fs : List FwFunc) : migrations (fs.map Event.run) = fs := by
  induction fs with
  | nil => rfl
  | cons f fs ih => exact congrArg (List.cons f) ih

/-! ## The exact condition -/

/-- The version fits into its buffer and is a release of the table, and no release on either side
of the shared string is involved. -/
structure Traceable (EZP_PROD_VERSION oldStr : CStr) : Prop where
  short : oldStr.len < 32
  release : (releaseIndex (oldRelease oldStr)).isSome
  old_shared : oldRelease oldStr = shared → ∀ m, releaseIndex (purify EZP_PROD_VERSION) = some m →
    m ≤ 28
  new_shared : purify EZP_PROD_VERSION = shared → ∀ k, releaseIndex (oldRelease oldStr) = some k →
    28 ≤ k

/-- The upgrade between two rows found by lookup. -/
theorem nvramUpgrade_rows {prod fwVersion u : CStr} {source : Option CStr} {a b : ℕ}
    (hshort : (oldString source fwVersion).len < 32) (hprod : prod.len < 32)
    (ha : lookup none (oldRelease (oldString source fwVersion)) = some (a : ℤ))
    (hb : lookup none (purify prod) = some (b : ℤ)) (hb' : b < 67) :
    ∃ change es, nvramUpgrade prod source fwVersion u = .ok (change, es) ∧
      migrations es = between a b := by
  have hbuf : ¬ (32 ≤ (oldString source fwVersion).len ∨ 32 ≤ prod.len) := by omega
  have hloop : (if (a : ℤ) < b then upgradeLoop ((b : ℤ) - a).toNat ((a : ℤ) + 1) else .ok []) =
      .ok ((between a b).map Event.run) := by
    by_cases hlt : a < b
    · rw [if_pos (by omega), (by omega : ((b : ℤ) - a).toNat = b - a),
        (by omega : ((a : ℤ) + 1) = ((a + 1 : ℕ) : ℤ)), upgradeLoop_inside _ _ (by omega), between]
    · rw [if_neg (by omega), between, (by omega : b - a = 0)]
      rfl
  have hquiet : ∀ c : Prop, ∀ [Decidable c], ∀ e : List Event, migrations e = [] →
      migrations (if c then [] else e) = [] := by
    intro c _ e he
    split
    · rfl
    · exact he
  unfold nvramUpgrade
  rw [if_neg hbuf, lookup_start, ha, hb]
  simp only [Option.some_or, hloop, Except.map]
  refine ⟨_, _, rfl, ?_⟩
  rw [migrations_append, migrations_append, migrations_run, hquiet _ _ rfl, hquiet _ _ rfl,
    List.append_nil, List.nil_append]

/-- An old version that is not in the table: the marker is smaller than every release, and the row
after it does not exist. -/
theorem nvramUpgrade_missing {prod fwVersion prodSubsubcat : CStr} {source : Option CStr} {b : ℕ}
    (hshort : (oldString source fwVersion).len < 32) (hprod : prod.len < 32)
    (ho : releaseIndex (oldRelease (oldString source fwVersion)) = none)
    (hb : lookup none (purify prod) = some (b : ℤ)) :
    nvramUpgrade prod source fwVersion prodSubsubcat = .error (.outOfTable (NOT_FOUND + 1)) := by
  have hbuf : ¬ (32 ≤ (oldString source fwVersion).len ∨ 32 ≤ prod.len) := by omega
  unfold nvramUpgrade
  rw [if_neg hbuf, lookup_start, lookup_other ho, hb]
  dsimp only [Option.none_or]
  rw [upgradeLoop_outside NOT_FOUND_neg (Int.natCast_nonneg b)]
  rfl

/-- The rows that lookups give in place of the rows `k` and `m` of the two releases: the functions
in between are the same unless the shared string stands between them. -/
theorem between_lookup {o n : CStr} {k m : ℕ} (hk : releaseIndex o = some k)
    (hm : releaseIndex n = some m) :
    between (if o = shared then 31 else k) (if n = shared then 31 else m) = between k m ↔
      (o = shared → m ≤ 28) ∧ (n = shared → 28 ≤ k) := by
  obtain ⟨hk', -, hok⟩ := lookup_release hk
  obtain ⟨hm', -, hnm⟩ := lookup_release hm
  have hempty {x y : ℕ} (hy : y < 67) (hxy : y ≤ x) : between x y = [] :=
    List.eq_nil_of_length_eq_zero (by rw [between_length hy]; omega)
  by_cases ho : o = shared
  · have hk28 := hok ho
    by_cases hn : n = shared
    · have hm28 := hnm hn
      rw [if_pos ho, if_pos hn, hempty (by omega) le_rfl, hempty hm' (by omega)]
      exact ⟨fun _ => ⟨fun _ => by omega, fun _ => by omega⟩, fun _ => rfl⟩
    · rw [if_pos ho, if_neg hn]
      constructor
      · intro he
        have hlen := congrArg List.length he
        rw [between_length hm', between_length hm'] at hlen
        exact ⟨fun _ => by omega, fun h => absurd h hn⟩
      · rintro ⟨h, -⟩
        have := h ho
        rw [hempty hm' (by omega), hempty hm' (by omega)]
  · rw [if_neg ho]
    by_cases hn : n = shared
    · have hm28 := hnm hn
      rw [if_pos hn]
      constructor
      · intro he
        have hlen := congrArg List.length he
        rw [between_length (by omega), between_length hm'] at hlen
        exact ⟨fun h => absurd h ho, fun _ => by omega⟩
      · rintro ⟨-, h⟩
        have h28 := h hn
        have h31 : 31 < k := by
          by_contra hlt
          exact ho (shared_row hk h28 (by omega))
        rw [hempty (by omega) (by omega), hempty hm' (by omega)]
    · rw [if_neg hn]
      exact ⟨fun _ => ⟨fun h => absurd h ho, fun h => absurd h hn⟩, fun _ => rfl⟩

/-- For a running firmware that is a release of the table, an upgrade runs the right functions
exactly for those versions. -/
theorem nvramUpgrade_migrates_iff (prod fwVersion prodSubsubcat : CStr) (source : Option CStr)
    (hlen : prod.len < 32) (hprod : (releaseIndex (purify prod)).isSome) :
    Migrates prod source fwVersion prodSubsubcat ↔
      Traceable prod (oldString source fwVersion) := by
  obtain ⟨m, hm⟩ := Option.isSome_iff_exists.mp hprod
  obtain ⟨hm', hnew⟩ := lookup_row hm
  by_cases hshort : (oldString source fwVersion).len < 32
  · cases hk : releaseIndex (oldRelease (oldString source fwVersion)) with
    | none =>
      constructor
      · rintro ⟨change, es, hrun, -⟩
        rw [nvramUpgrade_missing hshort hlen hk hnew] at hrun
        cases hrun
      · intro h
        have hr := h.release
        rw [hk] at hr
        cases hr
    | some k =>
      obtain ⟨-, hold⟩ := lookup_row hk
      obtain ⟨change, es, hrun, hes⟩ := nvramUpgrade_rows (u := prodSubsubcat) hshort hlen hold
        hnew hm'
      have hmig : Migrates prod source fwVersion prodSubsubcat ↔ between (if oldRelease (oldString
          source fwVersion) = shared then 31 else k) (if purify prod = shared then 31 else m) =
          between k m := by
        constructor
        · rintro ⟨change', es', hrun', hes'⟩
          rw [hrun] at hrun'
          cases hrun'
          rw [hk, hm, hes] at hes'
          exact hes'
        · intro he
          refine ⟨change, es, hrun, ?_⟩
          rw [hk, hm, hes]
          exact he
      rw [hmig, between_lookup hk hm]
      constructor
      · rintro ⟨h1, h2⟩
        refine ⟨hshort, by rw [hk]; rfl, fun ho m' he => ?_, fun hn k' he => ?_⟩
        · rw [← Option.some.inj (hm.symm.trans he)]
          exact h1 ho
        · rw [← Option.some.inj (hk.symm.trans he)]
          exact h2 hn
      · exact fun h => ⟨fun ho => h.old_shared ho m hm, fun hn => h.new_shared hn k hk⟩
  · constructor
    · rintro ⟨change, es, hrun, -⟩
      unfold nvramUpgrade at hrun
      rw [if_pos (by omega)] at hrun
      cases hrun
    · exact fun h => absurd h.short hshort

/-- From release 3.2.1 to a running 3.2.2. -/
theorem nvramUpgrade_migrates_321 :
    Migrates (.ofString "3.2.2") (some (.ofString "3.2.1")) CStr.empty CStr.empty :=
  (nvramUpgrade_migrates_iff (.ofString "3.2.2") CStr.empty CStr.empty (some (.ofString "3.2.1"))
    (by decide) (by decide +kernel)).mpr
    ⟨by decide, by decide +kernel, fun h => absurd h (by decide), fun h => absurd h (by decide)⟩

/-- Release 2.0.13 has a row and functions, but the row carries another string. -/
theorem nvramUpgrade_strays :
    ¬ Migrates (.ofString "3.2.2") (some (.ofString "2.0.13")) CStr.empty CStr.empty := by
  rintro ⟨change, es, hrun, -⟩
  have hnew : lookup none (purify (.ofString "3.2.2")) = some ((66 : ℕ) : ℤ) := by decide +kernel
  rw [nvramUpgrade_missing (by decide) (by decide) (by decide +kernel) hnew] at hrun
  cases hrun

end EzpFirmware.UserNvram
