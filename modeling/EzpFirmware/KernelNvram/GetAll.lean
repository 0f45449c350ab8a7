import EzpFirmware.KernelNvram.RoundTrip

/-! # All variables at once

The buffer of the caller is cleared and filled with assignments, chain by chain.
An assignment that does not fit ends its chain, but not the others, and one byte
always stays free behind the last one.
-/
namespace EzpFirmware.KernelNvram
open Lib

/-- The loop over one chain. The room is a difference of two `int`s, compared as an unsigned
number. -/
def getallChain (count : ℕ) : List (CStr × CStr) → List UInt8 × ℕ → List UInt8 × ℕ
  | [], st => st
  | a :: as, (buf, len) =>
    if ((count : ℤ) - len) % 2 ^ 32 > assignmentSize a then
      getallChain count as (poke buf len (assignment a).stored, len + assignmentSize a)
    else (buf, len)

/-- `_nvram_getall` on the memory from `buf` on. -/
def _nvramGetall (buf : List UInt8) (count : ℕ) (s : Nvram) : ℤ × List UInt8 :=
  let buf := poke buf 0 (List.replicate count 0)
  (0, (((List.finRange 257).map s.assignments).foldl (fun st chain => getallChain count chain st)
    (buf, 0)).1)

/-- A buffer with these assignments, zeros up to `count`, and `rest` behind it. -/
def listing (count : ℕ) (l : List (CStr × CStr)) (rest : List UInt8) : List UInt8 :=
  (l.flatMap fun a => (assignment a).stored) ++
    List.replicate (count - totalSize assignmentSize l) 0 ++ rest

section
variable {count : ℕ} {l : List (CStr × CStr)} {rest : List UInt8} {a : CStr × CStr} {s : Nvram}

theorem assignment_stored_length (a : CStr × CStr) :
    (assignment a).stored.length = assignmentSize a := by
  rw [CStr.stored_length, assignment, CStr.glue_len, assignmentSize]

/-- One more assignment takes the place of zeros. -/
theorem poke_listing (hfit : totalSize assignmentSize l + assignmentSize a ≤ count) :
    poke (listing count l rest) (totalSize assignmentSize l) (assignment a).stored =
      listing count (l ++ [a]) rest := by
  have hl := stored_assignments_length l
  have hdrop : (l.flatMap (fun a => (assignment a).stored) ++
      List.replicate (count - totalSize assignmentSize l) 0 ++ rest).drop
        (totalSize assignmentSize l + assignmentSize a) =
      List.replicate (count - (totalSize assignmentSize l + assignmentSize a)) 0 ++ rest := by
    rw [List.append_assoc, List.drop_append, hl, List.drop_eq_nil_of_le (by omega),
      List.nil_append, Nat.add_sub_cancel_left, List.drop_append_of_le_length
        (by rw [List.length_replicate]; omega), List.drop_replicate, Nat.sub_sub]
  have htake : (l.flatMap (fun a => (assignment a).stored) ++
      List.replicate (count - totalSize assignmentSize l) 0 ++ rest).take
        (totalSize assignmentSize l) = l.flatMap fun a => (assignment a).stored := by
    rw [List.append_assoc, List.take_left' hl]
  rw [poke, listing, assignment_stored_length, hdrop, htake, listing, List.flatMap_append,
    totalSize_append]
  simp [List.append_assoc]

/-- A chain is written as far as it fits. -/
theorem getallChain_listing (hint : count < 2 ^ 32) (chain : List (CStr × CStr))
    (hlen : totalSize assignmentSize l < count) :
    getallChain count chain (listing count l rest, totalSize assignmentSize l) =
      let packed := packChain assignmentSize (count - 1) (totalSize assignmentSize l) chain
      (listing count (l ++ packed.1) rest, packed.2) := by
  induction chain generalizing l with
  | nil =>
    rw [getallChain, packChain]
    simp
  | cons a chain ih =>
    have hroom : ((count : ℤ) - totalSize assignmentSize l) % 2 ^ 32 > assignmentSize a ↔
        ¬ totalSize assignmentSize l + assignmentSize a > count - 1 := by
      rw [Int.emod_eq_of_lt (by omega) (by omega)]
      omega
    rw [getallChain, packChain]
    by_cases hfit : totalSize assignmentSize l + assignmentSize a > count - 1
    · rw [if_neg (mt hroom.mp (not_not.mpr hfit)), if_pos hfit]
      simp
    · have hnext : totalSize assignmentSize (l ++ [a]) =
          totalSize assignmentSize l + assignmentSize a := by
        rw [totalSize_append, totalSize_cons, totalSize_nil, Nat.add_zero]
      have hrest := ih (l := l ++ [a]) (by omega)
      rw [hnext] at hrest
      rw [if_pos (hroom.mpr hfit), if_neg hfit, poke_listing (by omega), hrest]
      simp

/-- All chains are. -/
theorem getallChains_listing (hint : count < 2 ^ 32) (chains : List (List (CStr × CStr)))
    (hlen : totalSize assignmentSize l < count) :
    (chains.foldl (fun st chain => getallChain count chain st)
      (listing count l rest, totalSize assignmentSize l)).1 =
      listing count (l ++ (packChains assignmentSize (count - 1) (totalSize assignmentSize l)
        chains).1) rest := by
  induction chains generalizing l with
  | nil => simp [packChains]
  | cons chain chains ih =>
    have hused := @packChain_used _ assignmentSize (count - 1) chain
      (totalSize assignmentSize l)
    have hle : (packChain assignmentSize (count - 1) (totalSize assignmentSize l) chain).2 ≤
        count - 1 := packChain_le chain (by omega)
    have hnext : totalSize assignmentSize
        (l ++ (packChain assignmentSize (count - 1) (totalSize assignmentSize l) chain).1) =
        (packChain assignmentSize (count - 1) (totalSize assignmentSize l) chain).2 := by
      rw [totalSize_append, hused]
    have hrest := ih (l := l ++ (packChain assignmentSize (count - 1)
      (totalSize assignmentSize l) chain).1) (by omega)
    rw [hnext] at hrest
    rw [List.foldl_cons, getallChain_listing hint chain hlen, hrest, packChains,
      List.append_assoc]

theorem clear_listing (buf : List UInt8) :
    poke buf 0 (List.replicate count 0) = listing count [] (buf.drop count) := by
  simp [poke, listing]

end

/-- The variables that are written are live ones with their values, each once, and all of them if
there is room. Nothing is written behind the buffer, and the last string in it is empty. -/
theorem nvramGetall_lists {s : Nvram} (hs : s.Valid) (buf : List UInt8) {count : ℕ}
    (hcount : 0 < count) (hint : count < 2 ^ 31) :
    ∃ l : List (CStr × CStr),
      (_nvramGetall buf count s).2 = (l.flatMap fun a => (assignment a).stored) ++
        List.replicate (count - totalSize assignmentSize l) 0 ++ buf.drop count ∧
      totalSize assignmentSize l < count ∧
      (∀ a ∈ l, _nvramGet a.1 s = some a.2) ∧ (l.map Prod.fst).Nodup ∧
      (totalSize assignmentSize s.all < count →
        ∀ name value, _nvramGet name s = some value → (name, value) ∈ l) := by
  let l := (packChains assignmentSize (count - 1) 0 ((List.finRange 257).map s.assignments)).1
  have hsub : l.Sublist s.all := packChains_sublist _ _
  have htotal : 0 + totalSize assignmentSize l ≤ count - 1 :=
    packChains_total_le _ (Nat.zero_le _)
  refine ⟨l, ?_, by omega, ?_, ?_, ?_⟩
  · have hrun := @getallChains_listing count [] (buf.drop count)
      (by omega) ((List.finRange 257).map s.assignments) hcount
    rw [_nvramGetall, clear_listing buf]
    exact hrun
  · exact fun a ha => hs.mem_all_iff.mp (hsub.subset ha)
  · exact hs.all_nodup.sublist (hsub.map Prod.fst)
  · intro hroom name value hvalue
    have hall : l = s.all := packChains_all (by
      change 0 + totalSize assignmentSize s.all ≤ count - 1
      omega)
    rw [hall]
    exact hs.mem_all_iff.mpr hvalue

/-- A table with one variable. -/
def oneVariable : Nvram := (_nvramSet true (CStr.ofString "a") (CStr.ofString "b") Nvram.initial).2

theorem nvramGetall_lists_one :
    ∃ l : List (CStr × CStr),
      (_nvramGetall [1, 2, 3, 4, 5, 6, 7] 6 oneVariable).2 =
        (l.flatMap fun a => (assignment a).stored) ++
          List.replicate (6 - totalSize assignmentSize l) 0 ++ [7] ∧
      totalSize assignmentSize l < 6 ∧
      (∀ a ∈ l, _nvramGet a.1 oneVariable = some a.2) ∧ (l.map Prod.fst).Nodup ∧
      (totalSize assignmentSize oneVariable.all < 6 →
        ∀ name value, _nvramGet name oneVariable = some value → (name, value) ∈ l) :=
  nvramGetall_lists (Nvram.initial_valid.set true (CStr.ofString "a") (CStr.ofString "b"))
    [1, 2, 3, 4, 5, 6, 7] (by decide) (by decide)

end EzpFirmware.KernelNvram
