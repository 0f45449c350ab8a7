import EzpFirmware.Lib.CString
import EzpFirmware.Stats.Days

/-! # Saving and loading the history

The history goes through a compressed file, and from there to the NVRAM or to
another file. A new process starts with an empty history and reads the file back.
-/
namespace EzpFirmware.Stats
open Lib

/-- `hist_v0_t`. -/
structure HistV0 where
  id : ℕ
  daily : Fin MAX_NDAILY → Data
  dailyp : Fin MAX_NDAILY
  monthly : Fin 12 → Data
  monthlyp : Fin 12

def ID_V0 : ℕ := 0x30305352

/-- The programs and the library that the bytes go through, and the memory images of the
two kinds of history. -/
structure Tools where
  gzip : List UInt8 → List UInt8
  /-- There is no result if `gzip -dc` fails. -/
  gunzip : List UInt8 → Option (List UInt8)
  base64Encode : List UInt8 → CStr
  base64Decode : CStr → List UInt8
  image : Hist → List UInt8
  size : ℕ
  fetch : List UInt8 → Hist
  sizeV0 : ℕ
  fetchV0 : List UInt8 → HistV0

def histFn : CStr := .ofString "/var/stats/stats-hist"
def hgz : CStr := .ofString "/var/stats/stats-hist.gz"
def sourceFn : CStr := .ofString "/var/stats/stats-source"
def starNvram : CStr := .ofString "*nvram"
def statsData : CStr := .ofString "stats_data"
def statsPath : CStr := .ofString "stats_path"

/-- The files, the variables, and the variables that outlive a reboot. -/
structure Machine where
  files : CStr → Option (List UInt8)
  nvram : CStr → CStr
  committed : CStr → CStr

def Machine.write (m : Machine) (path : CStr) (bytes : List UInt8) : Machine :=
  { m with files := Function.update m.files path (some bytes) }

def Machine.unlink (m : Machine) (path : CStr) : Machine :=
  { m with files := Function.update m.files path none }

/-- `comp` of a history. -/
def Machine.comp (tools : Tools) (m : Machine) (hist : Hist) : Machine :=
  ((m.write histFn (tools.image hist)).unlink histFn).write hgz (tools.gzip (tools.image hist))

/-- `nvram_set` of `stats_data`, and `nvram_commit` unless it is turned off. -/
def Machine.setStatsData (m : Machine) (value : CStr) : Machine :=
  let m := { m with nvram := Function.update m.nvram statsData value }
  if m.nvram (.ofString "debug_nocommit") = .ofString "1" then m else { m with committed := m.nvram }

/-- `save`, as far as it is about the history. -/
def save (tools : Tools) (savePath : CStr) (quick : Bool) (hist : Hist) (m : Machine) : Machine :=
  let m := (m.comp tools hist).write sourceFn savePath.val
  if quick then m
  else if savePath = starNvram then
    match m.files hgz with
    | none => m
    | some gz =>
      let bi := gz.take (20 * 1024)
      -- the bytes are measured as a string
      if 0 < bi.length then m.setStatsData (tools.base64Encode (CStr.read bi).val) else m
  else if savePath ≠ CStr.empty then
    match m.files hgz with
    | none => m
    | some gz => m.write savePath gz
  else m

/-- `decomp` into one item of some size: whether it was there, and the bytes. -/
def decomp (tools : Tools) (m : Machine) (fname : CStr) (size : ℕ) : Option (List UInt8) :=
  match (m.files fname).bind tools.gunzip with
  | none => none
  | some bytes => if size ≤ bytes.length then some (bytes.take size) else none

/-- What `load_hist` leaves: its result, the history of the process, and the variable of the
same name that is declared in the function. -/
structure Loaded where
  result : Bool
  hist : Hist
  localHist : Option Hist

/-- A history of the older kind in the newer one. -/
def HistV0.convert (v0 : HistV0) : Hist where
  id := CURRENT_ID
  daily := v0.daily
  dailyp := v0.dailyp
  monthly i := if h : i.val < 12 then v0.monthly ⟨i, h⟩ else Data.zero
  monthlyp := v0.monthlyp.castLE (Nat.le_of_ble_eq_true rfl)

/-- `load_hist` in a process with a history. -/
def loadHist (tools : Tools) (m : Machine) (fname : CStr) (hist : Hist) : Loaded :=
  let read := (decomp tools m fname tools.size).map tools.fetch
  match read.filter fun h => h.id = CURRENT_ID with
  | some h => ⟨true, hist, some h⟩
  | none =>
    match ((decomp tools m fname tools.sizeV0).map tools.fetchV0).filter fun v0 => v0.id = ID_V0 with
    | none => ⟨false, hist, read⟩
    | some v0 => ⟨true, clearHist, some v0.convert⟩

/-- The path to save to. A directory gets a name that is made of the hardware address. -/
def savePathOf (m : Machine) (name : CStr) : CStr :=
  let path := (m.nvram statsPath).take 95
  if path.val.getLast? = some 47 then path.append name else path

/-- `load`: the history of the process from then on. Without the file, a path is waited for and
never read. -/
def load (tools : Tools) (m : Machine) (name : CStr) (hist : Hist) : Hist :=
  let savePath := savePathOf m name
  let fromFile := loadHist tools m hgz hist
  if m.files sourceFn = some savePath.val ∧ fromFile.result then fromFile.hist
  else
    let hist := if m.files sourceFn = some savePath.val then fromFile.hist else hist
    if savePath = starNvram then
      let bi := m.nvram statsData
      if 0 < bi.len then
        (loadHist tools (m.write hgz (tools.base64Decode bi)) hgz hist).hist
      else hist
    else hist

/-- After a reboot there are no files, and the variables are those that were committed. -/
def Machine.reboot (m : Machine) : Machine := ⟨fun _ => none, m.committed, m.committed⟩

variable {tools : Tools} {m : Machine} {hist : Hist}

/-- The history of the process stays, or is cleared for an older kind. -/
theorem loadHist_hist (fname : CStr) :
    (loadHist tools m fname hist).hist = hist ∨ (loadHist tools m fname hist).hist = clearHist := by
  simp only [loadHist]
  split
  · exact .inl rfl
  · split
    · exact .inl rfl
    · exact .inr rfl

/-- A new process keeps its empty history. -/
theorem load_clearHist (tools : Tools) (m : Machine) (name : CStr) :
    load tools m name clearHist = clearHist := by
  have hfile : ∀ m' : Machine, (loadHist tools m' hgz clearHist).hist = clearHist := by
    intro m'
    rcases @loadHist_hist tools m' clearHist hgz with h | h <;> exact h
  simp only [load, hfile, ite_self]

theorem hgz_ne_sourceFn : hgz ≠ sourceFn := by decide

theorem save_quick_hgz (savePath : CStr) (saved : Hist) :
    (save tools savePath true saved m).files hgz = some (tools.gzip (tools.image saved)) := by
  simp only [save, Machine.comp, Machine.write, Machine.unlink, if_true]
  rw [Function.update_of_ne hgz_ne_sourceFn, Function.update_self]

/-- The saved bytes are read back, into the variable of the function. -/
theorem loadHist_localHist {saved : Hist} (hgzip : ∀ b, tools.gunzip (tools.gzip b) = some b)
    (hsize : (tools.image saved).length = tools.size)
    (hfetch : tools.fetch (tools.image saved) = saved) (hid : saved.id = CURRENT_ID)
    (savePath : CStr) :
    loadHist tools (save tools savePath true saved m) hgz hist = ⟨true, hist, some saved⟩ := by
  have hread : decomp tools (save tools savePath true saved m) hgz tools.size =
      some (tools.image saved) := by
    rw [decomp, save_quick_hgz, Option.bind_some, hgzip]
    simp only
    rw [if_pos hsize.ge, List.take_of_length_le hsize.le]
  simp only [loadHist, hread, Option.map_some, hfetch, Option.filter_some, hid, decide_true,
    if_true]

/-- The history that is used behind a restart is the saved one if and only if that is the empty
one, whether the process starts again on its files or the machine with its NVRAM. -/
theorem restart_restores_iff (tools : Tools) (m : Machine) (savePath name : CStr) (saved : Hist) :
    (load tools (save tools savePath false saved m) name clearHist = saved ↔ saved = clearHist) ∧
      (load tools (save tools savePath false saved m).reboot name clearHist = saved ↔
        saved = clearHist) := by
  rw [load_clearHist, load_clearHist]
  exact ⟨eq_comm, eq_comm⟩

/-- The day of a sample is lost, although the history is a valid one. -/
theorem day_is_lost :
    (history [sampleAt 60 0]).hist.id = CURRENT_ID ∧
      ∀ (tools : Tools) (m : Machine) (savePath name : CStr),
        load tools (save tools savePath false (history [sampleAt 60 0]).hist m) name clearHist ≠
          (history [sampleAt 60 0]).hist := by
  refine ⟨rfl, ?_⟩
  intro tools m savePath name heq
  rw [load_clearHist] at heq
  exact absurd (congrArg Hist.dailyp heq) (by decide)

end EzpFirmware.Stats
