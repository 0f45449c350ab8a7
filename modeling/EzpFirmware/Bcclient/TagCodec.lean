import EzpFirmware.Bcclient.Protocols

/-! # What the tags of a packet are read as

The calls that succeed are the first ones, up to the number of slots, whose data
pass their size test. Their tags are read back as long as no array of integers
runs out of its slot, and no long data lost its length to a byte.
-/
namespace EzpFirmware.Bcclient
open Lib

/-- What is added under an id. -/
inductive Value where
  | data (d : List UInt8)
  | integer (v : UInt32)
  | integers (vs : List UInt32)
  | string (s : CStr)
  deriving DecidableEq

/-- The bytes of a value. -/
def Value.bytes : Value → List UInt8
  | .data d => d
  | .integer v => leBytes 4 v.toNat
  | .integers vs => vs.flatMap fun v => leBytes 4 v.toNat
  | .string s => s.stored

/-- A call of one of the functions that add a tag, ordinary or of the extension kind. -/
structure AddCall where
  ext : Bool
  id : ℕ
  value : Value
  deriving DecidableEq

/-- The function that is called. -/
def AddCall.apply (c : AddCall) (l : TagList) : Added :=
  match c.ext, c.value with
  | false, .data d => addTagToTagList l c.id d
  | false, .integer v => addTagIntegerToTagList l c.id v
  | false, .integers vs => addTagIntegerArrayToTagList l c.id vs
  | false, .string s => addTagStringToTagList l c.id s
  | true, .data d => addExtTagToTagList l c.id d
  | true, .integer v => addExtTagIntegerToTagList l c.id v
  | true, .integers vs => addExtTagIntegerArrayToTagList l c.id vs
  | true, .string s => addExtTagStringToTagList l c.id s

/-- The calls in turn: what each reports, and the list. -/
def addCalls : List AddCall → TagList → Option (List (AddCall × Bool) × TagList)
  | [], l => some ([], l)
  | c :: cs, l =>
    (c.apply l).bind fun r => (addCalls cs r.2).map fun t => ((c, r.1) :: t.1, t.2)

/-- Ordinary ids have one byte and are not the one of the extension kind; others start at 256. -/
def AddCall.WellIded (c : AddCall) : Prop :=
  if c.ext then 256 ≤ c.id ∧ c.id < 2 ^ 31 else 1 ≤ c.id ∧ c.id ≤ 255 ∧ c.id ≠ TAG_EXTENSION.toNat

/-- The data pass the size test of the function. -/
def AddCall.accepted (c : AddCall) : Bool :=
  match c.ext, c.value with
  | false, .data d => decide (d.length ≤ MAX_TAG_DATA_SIZE)
  | false, .string s => decide (s.len + 1 ≤ MAX_TAG_DATA_SIZE)
  | true, .data d => decide (d.length % 256 ≤ EXT_DATA_TAG_MAX_SIZE)
  | true, .string s => decide (s.len + 1 ≤ EXT_DATA_TAG_MAX_SIZE)
  | _, _ => true

/-- An array of integers fits the data area. -/
def AddCall.InArea (c : AddCall) : Prop :=
  match c.ext, c.value with
  | false, .integers vs => vs.length ≤ 32
  | true, .integers vs => vs.length ≤ 30
  | _, _ => True

/-- Data of the extension kind that are longer than the area. -/
def AddCall.Oversized (c : AddCall) : Prop :=
  c.ext = true ∧ ∃ d, c.value = .data d ∧ EXT_DATA_TAG_MAX_SIZE < d.length

/-- What is left of the data. -/
def AddCall.payload (c : AddCall) : List UInt8 :=
  match c.ext, c.value with
  | true, .data d => d.take (d.length % 256)
  | _, v => v.bytes

/-- The slot that a successful call fills. -/
def AddCall.slot (c : AddCall) : DataTag :=
  if c.ext then
    ⟨TAG_EXTENSION, UInt8.ofNat (4 + 1 + c.payload.length),
      leBytes 4 c.id ++ [UInt8.ofNat c.payload.length] ++ c.payload⟩
  else ⟨UInt8.ofNat c.id, UInt8.ofNat c.payload.length, c.payload⟩

/-! ## One call -/

section
variable {stop : ℕ → Bool}

theorem length_le_integerLoop (vs : List UInt32) (data : List UInt8) :
    data.length ≤ (integerLoop stop vs data).length := by
  induction vs generalizing data with
  | nil => exact le_rfl
  | cons v vs ih =>
    rw [integerLoop]
    split_ifs
    · exact le_rfl
    · exact le_trans (by simp) (ih _)

/-- As long as the test does not stop it, the loop writes the integers. -/
theorem integerLoop_take (n : ℕ) {vs : List UInt32} {data : List UInt8} (hn : n ≤ vs.length)
    (hgo : ∀ k < n, stop (data.length + 4 * k) = false) :
    integerLoop stop vs data = integerLoop stop (vs.drop n)
      (data ++ (vs.take n).flatMap fun v => leBytes 4 v.toNat) := by
  induction n generalizing vs data with
  | zero => simp
  | succ n ih =>
    cases vs with
    | nil => simp at hn
    | cons v vs =>
      have hfirst : stop data.length = false := by simpa using hgo 0 (by omega)
      have hrest : ∀ k < n, stop ((data ++ leBytes 4 v.toNat).length + 4 * k) = false := by
        intro k hk
        have hpos : (data ++ leBytes 4 v.toNat).length + 4 * k = data.length + 4 * (k + 1) := by
          rw [List.length_append, leBytes_length]
          omega
        rw [hpos]
        exact hgo (k + 1) (by omega)
      rw [integerLoop, if_neg (by simp [hfirst]), ih (by simpa using hn) hrest]
      simp

theorem flatMap_leBytes_length (vs : List UInt32) :
    (vs.flatMap fun v => leBytes 4 v.toNat).length = 4 * vs.length := by
  induction vs with
  | nil => rfl
  | cons v vs ih =>
    rw [List.flatMap_cons, List.length_append, leBytes_length, ih, List.length_cons]
    omega

/-- An array is written completely if the test does not stop it. -/
theorem integerLoop_all {vs : List UInt32} (hgo : ∀ k < vs.length, stop (4 * k) = false) :
    integerLoop stop vs [] = vs.flatMap fun v => leBytes 4 v.toNat := by
  rw [integerLoop_take vs.length le_rfl (by simpa using hgo)]
  simp [integerLoop]

/-- An array is written at least as far as the test does not stop it. -/
theorem le_integerLoop_length {n : ℕ} {vs : List UInt32} (hn : n ≤ vs.length)
    (hgo : ∀ k < n, stop (4 * k) = false) : 4 * n ≤ (integerLoop stop vs []).length := by
  rw [integerLoop_take n hn (by simpa using hgo)]
  refine le_trans ?_ (length_le_integerLoop _ _)
  simp only [List.nil_append, flatMap_leBytes_length, List.length_take]
  omega

end

theorem place_eq {l : TagList} {tag len : ℕ} {data : List UInt8}
    (h : data.length ≤ MAX_TAG_DATA_SIZE) :
    place l tag len data = some (true, l ++ [⟨UInt8.ofNat tag, UInt8.ofNat len, data⟩]) :=
  if_neg (not_lt.mpr h)

theorem placeExt_eq {l : TagList} {tag : ℕ} {data : List UInt8}
    (h : data.length ≤ EXT_DATA_TAG_MAX_SIZE) :
    placeExt l tag data.length data = some (true, l ++ [⟨TAG_EXTENSION,
      UInt8.ofNat (4 + 1 + data.length),
      leBytes 4 tag ++ [UInt8.ofNat data.length] ++ data⟩]) := by
  rw [EXT_DATA_TAG_MAX_SIZE] at h
  have harea : (leBytes 4 tag ++ [UInt8.ofNat data.length] ++ data).length ≤ MAX_TAG_DATA_SIZE := by
    simp [MAX_TAG_DATA_SIZE]
    omega
  exact place_eq harea

section
variable {c : AddCall} {l : TagList}

/-- A full list takes nothing. -/
theorem apply_full (h : MAX_SESSION_NODE_TAG_COUNT ≤ l.length) : c.apply l = some (false, l) := by
  obtain ⟨ext, id, value⟩ := c
  cases ext <;> cases value <;> exact if_pos h

/-- What a call keeps of its data fits the data area. -/
theorem payload_length_le (ha : c.accepted = true) (hin : c.InArea) :
    c.payload.length ≤ if c.ext then EXT_DATA_TAG_MAX_SIZE else MAX_TAG_DATA_SIZE := by
  obtain ⟨ext, id, value⟩ := c
  cases ext with
  | false =>
    change (AddCall.payload ⟨false, id, value⟩).length ≤ MAX_TAG_DATA_SIZE
    cases value with
    | data d => exact of_decide_eq_true ha
    | integer v => exact (leBytes_length 4 v.toNat).le.trans (by decide)
    | integers vs =>
      have hin' : vs.length ≤ 32 := hin
      have hbytes := flatMap_leBytes_length vs
      exact hbytes.le.trans (by rw [MAX_TAG_DATA_SIZE]; omega)
    | string s => exact s.stored_length.le.trans (of_decide_eq_true ha)
  | true =>
    change (AddCall.payload ⟨true, id, value⟩).length ≤ EXT_DATA_TAG_MAX_SIZE
    cases value with
    | data d => exact (List.length_take_le _ d).trans (of_decide_eq_true ha)
    | integer v => exact (leBytes_length 4 v.toNat).le.trans (by decide)
    | integers vs =>
      have hin' : vs.length ≤ 30 := hin
      have hbytes := flatMap_leBytes_length vs
      exact hbytes.le.trans (by rw [EXT_DATA_TAG_MAX_SIZE]; omega)
    | string s => exact s.stored_length.le.trans (of_decide_eq_true ha)

variable (hroom : ¬ MAX_SESSION_NODE_TAG_COUNT ≤ l.length)
include hroom

/-- Data that do not pass the test are refused. -/
theorem apply_refused (h : c.accepted = false) : c.apply l = some (false, l) := by
  obtain ⟨ext, id, value⟩ := c
  cases ext <;> cases value <;> simp only [AddCall.accepted, decide_eq_false_iff_not, not_le,
    Bool.true_eq_false] at h
  all_goals exact (if_neg hroom).trans (if_pos h)

/-- Other data take the next slot. -/
theorem apply_placed (ha : c.accepted = true) (hin : c.InArea) :
    c.apply l = some (true, l ++ [c.slot]) := by
  have hlen := payload_length_le ha hin
  obtain ⟨ext, id, value⟩ := c
  cases ext with
  | false =>
    simp only [Bool.false_eq_true, if_false] at hlen
    have hplace (len : ℕ) := @place_eq l id len _ hlen
    cases value with
    | data d =>
      have hd : ¬ d.length > MAX_TAG_DATA_SIZE := not_lt.mpr hlen
      exact ((if_neg hroom).trans (if_neg hd)).trans (hplace _)
    | integer v => exact (if_neg hroom).trans (hplace 4)
    | integers vs =>
      have hin' : vs.length ≤ 32 := hin
      have hall := @integerLoop_all (fun len => decide (len + 4 > 0xff)) vs fun k hk =>
        decide_eq_false (by omega)
      refine (if_neg hroom).trans ?_
      dsimp only
      rw [hall]
      exact hplace _
    | string s =>
      have hs : ¬ s.len + 1 > MAX_TAG_DATA_SIZE := by simpa [AddCall.accepted] using ha
      refine ((if_neg hroom).trans (if_neg hs)).trans ?_
      rw [← s.stored_length]
      exact hplace _
  | true =>
    simp only [if_true] at hlen
    have hplace := @placeExt_eq l id _ hlen
    cases value with
    | data d =>
      have hd : ¬ d.length % 256 > EXT_DATA_TAG_MAX_SIZE := by simpa [AddCall.accepted] using ha
      have htake : (d.take (d.length % 256)).length = d.length % 256 := by
        rw [List.length_take]
        exact min_eq_left (Nat.mod_le _ _)
      refine ((if_neg hroom).trans (if_neg hd)).trans ?_
      have hd' : placeExt l id (d.length % 256) (d.take (d.length % 256)) =
          placeExt l id (d.take (d.length % 256)).length (d.take (d.length % 256)) := by rw [htake]
      exact hd'.trans hplace
    | integer v => exact (if_neg hroom).trans hplace
    | integers vs =>
      have hin' : vs.length ≤ 30 := hin
      have hall := @integerLoop_all (fun len => decide (len > EXT_DATA_TAG_MAX_SIZE)) vs fun k hk =>
        decide_eq_false (by rw [EXT_DATA_TAG_MAX_SIZE]; omega)
      refine (if_neg hroom).trans ?_
      dsimp only
      rw [hall]
      exact hplace
    | string s =>
      have hs : ¬ s.len + 1 > EXT_DATA_TAG_MAX_SIZE := by simpa [AddCall.accepted] using ha
      refine ((if_neg hroom).trans (if_neg hs)).trans ?_
      rw [← s.stored_length]
      exact hplace

/-- A longer array runs out of its slot. -/
theorem apply_outside (hin : ¬ c.InArea) : c.apply l = none := by
  obtain ⟨ext, id, value⟩ := c
  cases ext <;> cases value <;> try exact absurd trivial hin
  · rename_i vs
    have hlong : ¬ vs.length ≤ 32 := hin
    have hwritten := @le_integerLoop_length (fun len => decide (len + 4 > 0xff)) 33 vs (by omega)
      fun k hk => decide_eq_false (by omega)
    refine (if_neg hroom).trans (if_pos ?_)
    simp only [MAX_TAG_DATA_SIZE]
    omega
  · rename_i vs
    have hlong : ¬ vs.length ≤ 30 := hin
    have hwritten := @le_integerLoop_length (fun len => decide (len > EXT_DATA_TAG_MAX_SIZE)) 31 vs
      (by omega) fun k hk => decide_eq_false (by rw [EXT_DATA_TAG_MAX_SIZE]; omega)
    refine (if_neg hroom).trans (if_pos ?_)
    simp only [MAX_TAG_DATA_SIZE, List.length_append, leBytes_length, List.length_singleton]
    omega

end

/-! ## A sequence of calls -/

/-- The calls that succeed from a list with `n` slots in use on. -/
def successful (n : ℕ) (cs : List AddCall) : List AddCall :=
  (cs.filter AddCall.accepted).take (MAX_SESSION_NODE_TAG_COUNT - n)

theorem successful_refused {n : ℕ} {c : AddCall} {cs : List AddCall} (h : c.accepted = false) :
    successful n (c :: cs) = successful n cs := by
  simp [successful, h]

theorem successful_full {n : ℕ} {cs : List AddCall} (h : MAX_SESSION_NODE_TAG_COUNT ≤ n) :
    successful n cs = [] := by
  simp [successful, Nat.sub_eq_zero_of_le h]

theorem successful_placed {n : ℕ} {c : AddCall} {cs : List AddCall} (h : c.accepted = true)
    (hroom : ¬ MAX_SESSION_NODE_TAG_COUNT ≤ n) :
    successful n (c :: cs) = c :: successful (n + 1) cs := by
  obtain ⟨k, hk⟩ : ∃ k, MAX_SESSION_NODE_TAG_COUNT - n = k + 1 :=
    Nat.exists_eq_succ_of_ne_zero (by omega)
  have hk' : MAX_SESSION_NODE_TAG_COUNT - (n + 1) = k := by omega
  simp [successful, h, hk, hk']

/-- The calls of a report that succeeded. -/
def reported (rs : List (AddCall × Bool)) : List AddCall := (rs.filter Prod.snd).map Prod.fst

/-- As long as no array runs out of its slot, the successful calls fill the slots. -/
theorem addCalls_eq {cs : List AddCall} {l : TagList}
    (hin : ∀ c ∈ successful l.length cs, c.InArea) :
    ∃ rs, addCalls cs l = some (rs, l ++ (successful l.length cs).map AddCall.slot) ∧
      reported rs = successful l.length cs := by
  induction cs generalizing l with
  | nil => exact ⟨[], by simp [addCalls, successful], by simp [reported, successful]⟩
  | cons c cs ih =>
    by_cases hroom : MAX_SESSION_NODE_TAG_COUNT ≤ l.length
    · rw [successful_full hroom] at hin ⊢
      rcases ih (l := l) (by rw [successful_full hroom]; simp) with ⟨rs, hrun, hrs⟩
      rw [successful_full hroom] at hrun hrs
      refine ⟨(c, false) :: rs, ?_, by simpa [reported] using hrs⟩
      rw [addCalls, apply_full hroom, Option.bind_some, hrun]
      rfl
    · cases ha : c.accepted with
      | false =>
        rw [successful_refused ha] at hin ⊢
        rcases ih hin with ⟨rs, hrun, hrs⟩
        refine ⟨(c, false) :: rs, ?_, by simpa [reported] using hrs⟩
        rw [addCalls, apply_refused hroom ha, Option.bind_some, hrun]
        rfl
      | true =>
        rw [successful_placed ha hroom] at hin ⊢
        have hc := hin c List.mem_cons_self
        have hlen : (l ++ [c.slot]).length = l.length + 1 := by simp
        rcases ih (l := l ++ [c.slot]) (by
          rw [hlen]
          exact fun d hd => hin d (List.mem_cons_of_mem c hd)) with ⟨rs, hrun, hrs⟩
        rw [hlen] at hrun hrs
        refine ⟨(c, true) :: rs, ?_, by simpa [reported] using hrs⟩
        rw [addCalls, apply_placed hroom ha hc, Option.bind_some, hrun]
        simp

/-- Otherwise some call writes outside its slot. -/
theorem addCalls_outside {cs : List AddCall} {l : TagList}
    (hout : ¬ ∀ c ∈ successful l.length cs, c.InArea) : addCalls cs l = none := by
  induction cs generalizing l with
  | nil => simp [successful] at hout
  | cons c cs ih =>
    by_cases hroom : MAX_SESSION_NODE_TAG_COUNT ≤ l.length
    · rw [successful_full hroom] at hout
      simp at hout
    · cases ha : c.accepted with
      | false =>
        rw [successful_refused ha] at hout
        rw [addCalls, apply_refused hroom ha, Option.bind_some, ih hout]
        rfl
      | true =>
        rw [successful_placed ha hroom] at hout
        by_cases hc : c.InArea
        · have hlen : (l ++ [c.slot]).length = l.length + 1 := by simp
          have hrest : ¬ ∀ d ∈ successful (l ++ [c.slot]).length cs, d.InArea := by
            rw [hlen]
            simpa [hc] using hout
          rw [addCalls, apply_placed hroom ha hc, Option.bind_some, ih hrest]
          rfl
        · rw [addCalls, apply_outside hroom hc]
          rfl

end EzpFirmware.Bcclient
