import EzpFirmware.Lib.CString
import EzpFirmware.Lib.Words
import Mathlib.Data.List.TakeWhile

/-! # The port list of a VLAN

A text lists ports by their numbers, each with flags behind it, and is read into three
masks. The masks are shifted by the numbers of the text and cut to the ports at the end.
-/
namespace EzpFirmware.Switch
open Lib

/-- What the text is read for. -/
structure SwitchDriver where
  cpuport : BitVec 32
  ports : ℕ

structure SwitchVlanConfig where
  port : BitVec 32 := 0
  untag : BitVec 32 := 0
  pvid : BitVec 32 := 0
  deriving DecidableEq

def isspace (c : UInt8) : Bool := c == 0x20 || c == 0x09 || c == 0x0a || c == 0x0d

def isDigit (c : UInt8) : Bool := decide (0x30 ≤ c) && decide (c ≤ 0x39)

/-- `1 << j`. The processor takes the last five bits of the count; the language leaves a count
of 32 or more open. -/
def shiftOne (j : BitVec 32) : BitVec 32 := 1#32 <<< (j.toNat % 32)

/-- `j *= 10; j += *buf++ - '0'`. -/
def addDigit (j : BitVec 32) (b : UInt8) : BitVec 32 := j * 10 + BitVec.ofNat 32 (b.toNat - 0x30)

/-- The flags of a number up to white space, over what they start with. -/
def flagLoop (u p : Bool) : List UInt8 → (Bool × Bool) × List UInt8
  | [] => ((u, p), [])
  | b :: buf =>
    if isspace b then ((u, p), b :: buf)
    else flagLoop (if b = 0x75 then true else if b = 0x74 then false else u)
      (if b = 0x2a then true else p) buf

/-- A port goes into the masks. -/
def SwitchVlanConfig.mark (c : SwitchVlanConfig) (j : BitVec 32) (u p : Bool) : SwitchVlanConfig where
  port := c.port ||| shiftOne j
  untag := if u then c.untag ||| shiftOne j else c.untag
  pvid := if p then c.pvid ||| shiftOne j else c.pvid

/-- The loop of `switch_parse_vlan` over the digits: the masks and the text that is left. -/
def parseLoop (driver : SwitchDriver) :
    ℕ → SwitchVlanConfig → BitVec 32 → List UInt8 → Option (SwitchVlanConfig × List UInt8)
  | 0, _, _, _ => none
  | _ + 1, c, _, [] => some (c, [])
  | fuel + 1, c, j, b :: buf =>
    if isDigit b then
      let j := addDigit j b
      let u := if j = driver.cpuport then false else true
      if (buf.head?.map isDigit).getD false then parseLoop driver fuel c j (skipSep isspace buf)
      else
        let flags := flagLoop u false buf
        parseLoop driver fuel (c.mark j flags.1.1 flags.1.2) 0 (skipSep isspace flags.2)
    else some (c, b :: buf)

/-- `c->port &= (1 << driver->ports) - 1`, and so for the other masks. -/
def SwitchVlanConfig.cut (c : SwitchVlanConfig) (ports : ℕ) : SwitchVlanConfig where
  port := c.port &&& (1#32 <<< ports - 1#32)
  untag := c.untag &&& (1#32 <<< ports - 1#32)
  pvid := c.pvid &&& (1#32 <<< ports - 1#32)

/-- `switch_parse_vlan`: no result while it has not ended, and `none` inside for `NULL`. -/
def switchParseVlan (driver : SwitchDriver) (s : CStr) : Option (Option SwitchVlanConfig) :=
  (parseLoop driver (s.len + 1) {} 0 (skipSep isspace s.val)).map fun r =>
    if r.2 = [] then some (r.1.cut driver.ports) else none

/-! ## The words of the text -/

/-- The digits of a word. -/
def digits (w : List UInt8) : List UInt8 := w.takeWhile isDigit

/-- What is behind them. -/
def flags (w : List UInt8) : List UInt8 := w.dropWhile isDigit

/-- The number that a word lists. -/
def number (w : List UInt8) : ℕ := (digits w).foldl (fun n b => n * 10 + (b.toNat - 0x30)) 0

/-- The flags `u` and `t`. -/
def isMark (b : UInt8) : Bool := b == 0x75 || b == 0x74

/-- The last of `u` and `t` among flags is `u`, if there is one. -/
def lastMark (fs : List UInt8) : Option Bool := (fs.filter isMark).getLast?.map (· == 0x75)

/-- A word is marked `u` last, or is unmarked and lists no CPU port. -/
def IsUntagged (driver : SwitchDriver) (w : List UInt8) : Prop :=
  lastMark (flags w) = some true ∨
    lastMark (flags w) = none ∧ BitVec.ofNat 32 (number w) ≠ driver.cpuport

def IsStarred (w : List UInt8) : Prop := (0x2a : UInt8) ∈ flags w

/-- Every word of the text starts with a digit. -/
def IsList (s : CStr) : Prop := ∀ w ∈ words isspace s.val, digits w ≠ []

/-- A word that lists `j`. -/
def Lists (s : CStr) (j : ℕ) (w : List UInt8) : Prop := w ∈ words isspace s.val ∧ number w = j

/-- The masks hold exactly the ports that the text lists, with their marks. -/
structure Means (driver : SwitchDriver) (s : CStr) (c : SwitchVlanConfig) : Prop where
  port (j : ℕ) : c.port.getLsbD j = true ↔ j < driver.ports ∧ ∃ w, Lists s j w
  untag (j : ℕ) : c.untag.getLsbD j = true ↔
    j < driver.ports ∧ ∃ w, Lists s j w ∧ IsUntagged driver w
  pvid (j : ℕ) : c.pvid.getLsbD j = true ↔ j < driver.ports ∧ ∃ w, Lists s j w ∧ IsStarred w

/-- A listed number of 32 or more does to the port of its last five bits what some word that
lists this port does anyway. -/
def FarNumbersHarmless (driver : SwitchDriver) (s : CStr) : Prop :=
  ∀ w ∈ words isspace s.val, 32 ≤ number w → number w % 32 < driver.ports →
    (∃ w', Lists s (number w % 32) w') ∧
    (IsUntagged driver w → ∃ w', Lists s (number w % 32) w' ∧ IsUntagged driver w') ∧
    (IsStarred w → ∃ w', Lists s (number w % 32) w' ∧ IsStarred w')

/-! ## What the loop over a port list does

One round of the loop over the digits takes a digit, and the digits of a word together with
its flags mark one port. So the loop goes over the words of the text up to the first one that
does not start with a digit.
-/

variable {driver : SwitchDriver} {c : SwitchVlanConfig} {j : BitVec 32}

theorem not_isspace_of_isDigit {b : UInt8} (h : isDigit b = true) : isspace b = false := by
  simp only [isDigit, Bool.and_eq_true, decide_eq_true_eq, UInt8.le_iff_toNat_le] at h
  have hne (k : UInt8) (hk : k.toNat < 0x30) : b ≠ k := fun hb => by
    rw [hb] at h
    exact absurd h.1 (Nat.not_le.mpr hk)
  simp [isspace, hne 0x20 (Nat.le_of_ble_eq_true rfl), hne 0x09 (Nat.le_of_ble_eq_true rfl),
    hne 0x0a (Nat.le_of_ble_eq_true rfl), hne 0x0d (Nat.le_of_ble_eq_true rfl)]

/-! ## The flags of a number -/

theorem lastMark_cons (b : UInt8) (fs : List UInt8) (u : Bool) :
    (lastMark (b :: fs)).getD u =
      (lastMark fs).getD (if b = 0x75 then true else if b = 0x74 then false else u) := by
  by_cases hmark : isMark b = true
  · rw [lastMark, List.filter_cons_of_pos hmark, List.getLast?_cons, lastMark]
    rw [isMark, Bool.or_eq_true, beq_iff_eq, beq_iff_eq] at hmark
    cases (fs.filter isMark).getLast? with
    | none => obtain rfl | rfl := hmark <;> rfl
    | some m => rfl
  · rw [lastMark, List.filter_cons_of_neg hmark, lastMark]
    rw [isMark, Bool.or_eq_true, beq_iff_eq, beq_iff_eq, not_or] at hmark
    rw [if_neg hmark.1, if_neg hmark.2]

theorem flagLoop_eq (u p : Bool) (buf : List UInt8) :
    flagLoop u p buf =
      (((lastMark (firstWord isspace buf)).getD u,
        p || decide ((0x2a : UInt8) ∈ firstWord isspace buf)), behindWord isspace buf) := by
  induction buf generalizing u p with
  | nil => simp [flagLoop, firstWord, behindWord, lastMark]
  | cons b buf ih =>
    by_cases hb : isspace b = true
    · simp [flagLoop, hb, firstWord, behindWord, lastMark]
    · have hfirst : firstWord isspace (b :: buf) = b :: firstWord isspace buf := by
        simp [firstWord, hb]
      have hbehind : behindWord isspace (b :: buf) = behindWord isspace buf := by
        simp [behindWord, hb]
      rw [flagLoop, if_neg hb, ih, hfirst, hbehind, lastMark_cons]
      by_cases hstar : b = 0x2a
      · simp [hstar]
      · simp [hstar, Ne.symm hstar]

/-! ## The digits of a number -/

theorem foldl_addDigit (ds : List UInt8) (n : ℕ) :
    ds.foldl addDigit (BitVec.ofNat 32 n) =
      BitVec.ofNat 32 (ds.foldl (fun n b => n * 10 + (b.toNat - 0x30)) n) := by
  induction ds generalizing n with
  | nil => rfl
  | cons b ds ih =>
    have hstep : addDigit (BitVec.ofNat 32 n) b = BitVec.ofNat 32 (n * 10 + (b.toNat - 0x30)) := by
      rw [addDigit, BitVec.ofNat_add, BitVec.ofNat_mul]
      rfl
    rw [List.foldl_cons, hstep, ih, List.foldl_cons]

/-- A round that ends a number. -/
theorem parseLoop_last {b : UInt8} (hb : isDigit b = true) {buf : List UInt8}
    (hbuf : ∀ b' ∈ buf.head?, isDigit b' = false) (fuel : ℕ) :
    parseLoop driver (fuel + 1) c j (b :: buf) =
      parseLoop driver fuel
        (c.mark (addDigit j b)
          ((lastMark (firstWord isspace buf)).getD (decide (addDigit j b ≠ driver.cpuport)))
          (decide ((0x2a : UInt8) ∈ firstWord isspace buf)))
        0 (skipSep isspace (behindWord isspace buf)) := by
  have hs : (buf.head?.map isDigit).getD false = false := by
    cases hhead : buf.head? with
    | none => rfl
    | some b' => simpa using hbuf b' hhead
  by_cases hcpu : addDigit j b = driver.cpuport
  · simp [parseLoop, hb, hs, flagLoop_eq, hcpu]
  · simp [parseLoop, hb, hs, flagLoop_eq, hcpu]

/-- The rounds of a number. -/
theorem parseLoop_digits {b : UInt8} {ds : List UInt8} (hb : isDigit b = true)
    (hds : ∀ d ∈ ds, isDigit d = true) {buf : List UInt8}
    (hbuf : ∀ b' ∈ buf.head?, isDigit b' = false) (fuel : ℕ) :
    parseLoop driver (fuel + (b :: ds).length) c j (b :: ds ++ buf) =
      parseLoop driver fuel
        (c.mark ((b :: ds).foldl addDigit j)
          ((lastMark (firstWord isspace buf)).getD
            (decide ((b :: ds).foldl addDigit j ≠ driver.cpuport)))
          (decide ((0x2a : UInt8) ∈ firstWord isspace buf)))
        0 (skipSep isspace (behindWord isspace buf)) := by
  induction ds generalizing b j with
  | nil => exact parseLoop_last hb hbuf fuel
  | cons d ds ih =>
    have hd : isDigit d = true := hds d List.mem_cons_self
    have hskip : skipSep isspace (d :: ds ++ buf) = d :: ds ++ buf :=
      skipSep_of_not (not_isspace_of_isDigit hd) _
    have hstep : parseLoop driver (fuel + (b :: d :: ds).length) c j (b :: d :: ds ++ buf) =
        parseLoop driver (fuel + (d :: ds).length) c (addDigit j b) (d :: ds ++ buf) := by
      rw [List.length_cons, ← Nat.add_assoc, List.cons_append, parseLoop, if_pos hb]
      simp [hd, not_isspace_of_isDigit hd, skipSep]
    rw [hstep, ih hd fun d' hd' => hds d' (List.mem_cons_of_mem d hd')]
    rfl

/-! ## A word -/

/-- What a word marks. -/
def SwitchVlanConfig.markWord (driver : SwitchDriver) (c : SwitchVlanConfig) (w : List UInt8) :
    SwitchVlanConfig :=
  c.mark (BitVec.ofNat 32 (number w))
    ((lastMark (flags w)).getD (decide (BitVec.ofNat 32 (number w) ≠ driver.cpuport)))
    (decide ((0x2a : UInt8) ∈ flags w))

theorem digits_append_flags (w : List UInt8) : digits w ++ flags w = w :=
  List.takeWhile_append_dropWhile

theorem flags_head (w : List UInt8) {b : UInt8} (h : b ∈ (flags w).head?) : isDigit b = false := by
  have hhead := List.head?_dropWhile_not isDigit w
  rw [flags, Option.mem_def] at h
  simpa [h] using hhead

/-- The rounds of a word that starts with a digit. -/
theorem parseLoop_word {w rest : List UInt8} (hw : ∀ b ∈ w, isspace b = false)
    (hne : digits w ≠ []) (hrest : ∀ b ∈ rest.head?, isspace b = true) (fuel : ℕ) :
    parseLoop driver (fuel + (digits w).length) c 0 (w ++ rest) =
      parseLoop driver fuel (c.markWord driver w) 0 (skipSep isspace rest) := by
  have hflags : ∀ b ∈ flags w, isspace b = false := fun b hb =>
    hw b ((List.dropWhile_suffix isDigit).subset hb)
  have hall : ∀ d ∈ digits w, isDigit d = true := fun d hd => List.mem_takeWhile_imp hd
  have hfirst : firstWord isspace (flags w ++ rest) = flags w := by
    rw [firstWord, List.takeWhile_append_of_pos (by simpa using hflags)]
    cases rest with
    | nil => simp
    | cons b rest => simp [hrest b rfl]
  have hbehind : behindWord isspace (flags w ++ rest) = rest := by
    rw [behindWord, List.dropWhile_append_of_pos (by simpa using hflags)]
    cases rest with
    | nil => rfl
    | cons b rest => simp [hrest b rfl]
  have hhead : ∀ b ∈ (flags w ++ rest).head?, isDigit b = false := by
    intro b hb
    cases hfl : flags w with
    | nil =>
      rw [hfl, List.nil_append] at hb
      have hspace := hrest b hb
      by_contra hdigit
      rw [not_isspace_of_isDigit (by simpa using hdigit)] at hspace
      exact absurd hspace Bool.false_ne_true
    | cons f fs =>
      rw [hfl] at hb
      exact flags_head w (by rw [hfl]; exact hb)
  cases hdigits : digits w with
  | nil => exact absurd hdigits hne
  | cons d ds =>
    have hsplit : w ++ rest = d :: ds ++ (flags w ++ rest) := by
      rw [← hdigits, ← List.append_assoc, digits_append_flags]
    rw [hdigits] at hall
    rw [hsplit, parseLoop_digits (hall d List.mem_cons_self)
      (fun d' hd' => hall d' (List.mem_cons_of_mem d hd')) hhead, hfirst, hbehind]
    have hnumber : (d :: ds).foldl addDigit 0 = BitVec.ofNat 32 (number w) := by
      rw [number, hdigits]
      exact foldl_addDigit (d :: ds) 0
    rw [hnumber]
    rfl

/-! ## All words -/

/-- The loop marks the words up to the first one without a digit in front, and leaves the text
from there. -/
theorem parseLoop_run (n : ℕ) {text : List UInt8} (hn : text.length ≤ n)
    (hhead : ∀ b ∈ text.head?, isspace b = false) {fuel : ℕ} (hfuel : text.length < fuel) :
    ∃ rest, parseLoop driver fuel c 0 text =
        some (((words isspace text).takeWhile fun w => decide (digits w ≠ [])).foldl
          (SwitchVlanConfig.markWord driver) c, rest) ∧
      (rest = [] ↔ ∀ w ∈ words isspace text, digits w ≠ []) := by
  induction n generalizing text c fuel with
  | zero =>
    obtain rfl : text = [] := List.eq_nil_of_length_eq_zero (Nat.le_zero.mp hn)
    obtain ⟨fuel, rfl⟩ := Nat.exists_eq_add_one_of_ne_zero (Nat.ne_of_gt hfuel)
    exact ⟨[], by simp [parseLoop], by simp⟩
  | succ n ih =>
    obtain ⟨fuel, rfl⟩ := Nat.exists_eq_add_one_of_ne_zero (Nat.ne_of_gt (Nat.zero_lt_of_lt hfuel))
    cases text with
    | nil => exact ⟨[], by simp [parseLoop], by simp⟩
    | cons b text =>
      have hb : isspace b = false := hhead b rfl
      have hwords := words_cons hb text
      have happ := @firstWord_append _ isspace (b :: text)
      have hw : ∀ b' ∈ firstWord isspace (b :: text), isspace b' = false :=
        fun b' => not_sep_of_mem_firstWord
      have hbehind : ∀ b' ∈ (behindWord isspace (b :: text)).head?, isspace b' = true := by
        intro b' hb'
        obtain ⟨rest, hrest⟩ := List.head?_eq_some_iff.mp hb'
        exact behindWord_head hrest
      have hdigit : isDigit b = true ↔ digits (firstWord isspace (b :: text)) ≠ [] := by
        simp [firstWord, hb, digits, List.takeWhile_cons]
      by_cases hd : isDigit b = true
      · -- the rounds of the first word, and the induction behind it
        have hne := hdigit.mp hd
        generalize firstWord isspace (b :: text) = w at hwords happ hw hne
        generalize behindWord isspace (b :: text) = rest at hwords happ hbehind
        have hlen : (digits w).length + (skipSep isspace rest).length ≤ (b :: text).length := by
          have h₁ := @skipSep_length_le _ isspace rest
          have h₂ : (digits w).length ≤ w.length := (List.takeWhile_prefix isDigit).length_le
          rw [← happ, List.length_append]
          omega
        have hpos : 0 < (digits w).length := List.length_pos_of_ne_nil hne
        obtain ⟨rest', hrun, hnil⟩ := @ih (c.markWord driver w)
          (skipSep isspace rest) (by omega)
          (fun b' hb' => by
            obtain ⟨tail, htail⟩ := List.head?_eq_some_iff.mp hb'
            exact skipSep_head rest htail) (fuel + 1 - (digits w).length) (by omega)
        refine ⟨rest', ?_, ?_⟩
        · rw [← happ, show fuel + 1 = fuel + 1 - (digits w).length + (digits w).length by omega,
            parseLoop_word hw hne hbehind, hrun, happ, hwords, words_skipSep]
          simp [hne]
        · rw [hnil, hwords, words_skipSep]
          simp [hne]
      · have hempty : digits (firstWord isspace (b :: text)) = [] := by
          by_contra hne
          exact hd (hdigit.mpr hne)
        refine ⟨b :: text, ?_, ?_⟩
        · rw [parseLoop, if_neg hd, hwords]
          simp [hempty]
        · rw [hwords]
          simp [hempty]

/-- `switch_parse_vlan` ends, and reads every word of a text whose words start with digits. -/
theorem switchParseVlan_eq (driver : SwitchDriver) (s : CStr) :
    switchParseVlan driver s = some (if ∀ w ∈ words isspace s.val, digits w ≠ [] then
      some (((words isspace s.val).foldl (SwitchVlanConfig.markWord driver) {}).cut driver.ports)
      else none) := by
  have hlen : (skipSep isspace s.val).length < s.len + 1 :=
    Nat.lt_succ_of_le (skipSep_length_le s.val)
  obtain ⟨rest, hrun, hnil⟩ := @parseLoop_run driver {} _ _ le_rfl
    (fun b hb => by
      obtain ⟨tail, htail⟩ := List.head?_eq_some_iff.mp hb
      exact skipSep_head s.val htail) _ hlen
  rw [words_skipSep] at hrun hnil
  rw [switchParseVlan, hrun, Option.map_some]
  by_cases hall : ∀ w ∈ words isspace s.val, digits w ≠ []
  · have htake : ((words isspace s.val).takeWhile fun w => decide (digits w ≠ [])) =
        words isspace s.val := List.takeWhile_eq_self_iff.mpr (by simpa using hall)
    rw [if_pos hall, if_pos (hnil.mpr hall), htake]
  · rw [if_neg hall, if_neg fun h => hall (hnil.mp h)]

end EzpFirmware.Switch
