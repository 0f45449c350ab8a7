import EzpFirmware.Httpd.Handlers
import EzpFirmware.Lib.Layout
import EzpFirmware.Lib.Patterns

/-! # Patterns for files

The matcher is handed a pointer into the pattern and the length of one
alternative. It looks one character behind a star, which can lie behind the
alternative, and starts again on the rest of the pattern for every place that
the star may reach.
-/
namespace EzpFirmware.Httpd
open Lib

/-! ## One alternative -/

section
variable {p q : UInt8} {ps qs s : List UInt8}

theorem matchOne_question (hs : s ≠ []) :
    matchOne (QUESTION :: ps) s = matchOne ps s.tail := by
  rw [matchOne.eq_def]
  exact if_pos ⟨rfl, hs⟩

theorem matchOne_star_end : matchOne [STAR] s =
    (List.range ((s.takeWhile (· != SLASH)).length + 1)).any fun i => (s.drop i).isEmpty := by
  have hno : ¬ (STAR = QUESTION ∧ s ≠ []) := fun h => absurd h.1 (by decide)
  rw [matchOne.eq_def]
  exact (if_neg hno).trans (if_pos rfl)

theorem matchOne_two_stars : matchOne (STAR :: STAR :: qs) s =
    (List.range (s.length + 1)).any fun i => matchOne qs (s.drop i) := by
  have hno : ¬ (STAR = QUESTION ∧ s ≠ []) := fun h => absurd h.1 (by decide)
  rw [matchOne.eq_def]
  exact (if_neg hno).trans ((if_pos rfl).trans (if_pos rfl))

theorem matchOne_star (hq : q ≠ STAR) : matchOne (STAR :: q :: qs) s =
    (List.range ((s.takeWhile (· != SLASH)).length + 1)).any fun i =>
      matchOne (q :: qs) (s.drop i) := by
  have hno : ¬ (STAR = QUESTION ∧ s ≠ []) := fun h => absurd h.1 (by decide)
  rw [matchOne.eq_def]
  exact (if_neg hno).trans ((if_pos rfl).trans (if_neg hq))

theorem matchOne_self_nil (hp : p ≠ STAR) : matchOne (p :: ps) [] = false := by
  rw [matchOne.eq_def]
  exact (if_neg fun h => h.2 rfl).trans (if_neg hp)

theorem matchOne_self_cons (hquestion : p ≠ QUESTION) (hp : p ≠ STAR) :
    matchOne (p :: ps) (q :: qs) = if p ≠ q then false else matchOne ps qs := by
  rw [matchOne.eq_def]
  exact (if_neg fun h => hquestion h.1).trans (if_neg hp)

end

namespace Pointer

/-- `for (; i >= 0; --i)`: the rest of the pattern is tried at each place. -/
def tryFrom (rest : List UInt8 → Bool) (string : List UInt8) : ℕ → Bool
  | 0 => rest (string.drop 0)
  | i + 1 => if rest (string.drop (i + 1)) then true else tryFrom rest string i

/-- `match_one`. What a pointer points at has the byte 0 behind it. -/
def matchOne (p : List UInt8) (patternlen : ℕ) (string : List UInt8) : Bool :=
  if patternlen = 0 then string.headD 0 = 0
  else if p.headD 0 = QUESTION ∧ string.headD 0 ≠ 0 then
    matchOne p.tail (patternlen - 1) string.tail
  else if p.headD 0 = STAR then
    if p.tail.headD 0 = STAR then
      tryFrom (matchOne p.tail.tail (patternlen - 2)) string string.length
    else
      tryFrom (matchOne p.tail (patternlen - 1)) string
        (string.takeWhile (· != SLASH)).length
  else if p.headD 0 ≠ string.headD 0 then false
  else matchOne p.tail (patternlen - 1) string.tail
termination_by patternlen

/-- `match`. -/
def patternMatch (pattern string : CStr) : Bool :=
  match _ : pattern.cut BAR with
  | none => matchOne pattern.val pattern.len string.val
  | some (one, rest) =>
    if matchOne pattern.val one.len string.val then true else patternMatch rest string
termination_by pattern.len
decreasing_by
  have hlen := CStr.cut_length ‹_›
  omega

/-- A place is found exactly if there is one. -/
theorem tryFrom_eq {rest rest' : List UInt8 → Bool} {string : List UInt8}
    (h : ∀ i, rest (string.drop i) = rest' (string.drop i)) (n : ℕ) :
    tryFrom rest string n = (List.range (n + 1)).any fun i => rest' (string.drop i) := by
  induction n with
  | zero => simpa [tryFrom] using h 0
  | succ n ih =>
    rw [tryFrom, ih, List.range_succ (n := n + 1), List.any_append, List.any_cons, List.any_nil,
      Bool.or_false, h]
    cases rest' (string.drop (n + 1)) <;> simp

theorem headD_eq_zero_iff {s : List UInt8} (hs : (0 : UInt8) ∉ s) : s.headD 0 = 0 ↔ s = [] := by
  cases s with
  | nil => simp
  | cons c s => simpa using fun h : c = 0 => hs (h ▸ List.mem_cons_self)

/-- At the end of the pattern. -/
theorem matchOne_end (p : List UInt8) {s : List UInt8} (hs : (0 : UInt8) ∉ s) :
    matchOne p 0 s = s.isEmpty := by
  rw [matchOne, if_pos rfl, Bool.eq_iff_iff, decide_eq_true_iff, headD_eq_zero_iff hs,
    List.isEmpty_iff]

theorem matchOne_cons (p : UInt8) (ps : List UInt8) (n : ℕ) (s : List UInt8) :
    matchOne (p :: ps) (n + 1) s =
      if p = QUESTION ∧ s.headD 0 ≠ 0 then matchOne ps n s.tail
      else if p = STAR then
        if ps.headD 0 = STAR then tryFrom (matchOne ps.tail (n - 1)) s s.length
        else tryFrom (matchOne ps n) s (s.takeWhile (· != SLASH)).length
      else if p ≠ s.headD 0 then false
      else matchOne ps n s.tail := by
  rw [matchOne, if_neg (Nat.succ_ne_zero n)]
  rfl

/-- What stands behind an alternative is not looked at, unless it is a star. -/
theorem matchOne_eq {alt behind s : List UInt8} (hstar : behind.headD 0 ≠ STAR)
    (halt : (0 : UInt8) ∉ alt) (hs : (0 : UInt8) ∉ s) :
    matchOne (alt ++ behind) alt.length s = Httpd.matchOne alt s := by
  have hdrop (i : ℕ) : (0 : UInt8) ∉ s.drop i := fun h => hs (List.mem_of_mem_drop h)
  have hno : ¬ (STAR = QUESTION ∧ s.headD 0 ≠ 0) := fun h => absurd h.1 (by decide)
  induction alt, s using Httpd.matchOne.induct with
  | case1 s => exact matchOne_end behind hs
  | case2 p ps s hquestion ih =>
    obtain ⟨rfl, hne⟩ := hquestion
    have htail : (0 : UInt8) ∉ s.tail := fun h => hs (List.mem_of_mem_tail h)
    have hps : (0 : UInt8) ∉ ps := fun h => halt (List.mem_cons_of_mem _ h)
    have hnext : QUESTION = QUESTION ∧ s.headD 0 ≠ 0 :=
      ⟨rfl, fun h => hne ((headD_eq_zero_iff hs).mp h)⟩
    rw [matchOne_question hne, List.cons_append, List.length_cons, matchOne_cons, if_pos hnext]
    exact ih hps htail (fun i h => htail (List.mem_of_mem_drop h)) fun h => absurd h.1 (by decide)
  | case3 s hquestion =>
    rw [matchOne_star_end, List.cons_append, List.nil_append, List.length_cons, List.length_nil,
      matchOne_cons, if_neg hno, if_pos rfl, if_neg hstar]
    exact tryFrom_eq (fun i => matchOne_end behind (hdrop i)) _
  | case4 s qs hquestion ih =>
    have hqs : (0 : UInt8) ∉ qs := fun h =>
      halt (List.mem_cons_of_mem _ (List.mem_cons_of_mem _ h))
    rw [matchOne_two_stars, List.cons_append, List.cons_append, List.length_cons,
      List.length_cons, matchOne_cons, if_neg hno, if_pos rfl, List.headD_cons, if_pos rfl]
    exact tryFrom_eq (fun i => ih i hqs (hdrop i) (fun j h => hdrop i (List.mem_of_mem_drop h))
      fun h => absurd h.1 (by decide)) _
  | case5 s q qs hq hquestion ih =>
    have hqs : (0 : UInt8) ∉ q :: qs := fun h => halt (List.mem_cons_of_mem _ h)
    rw [matchOne_star hq, List.cons_append, List.length_cons, matchOne_cons, if_neg hno,
      if_pos rfl, List.cons_append, List.headD_cons, if_neg hq]
    exact tryFrom_eq (fun i => ih i hqs (hdrop i) (fun j h => hdrop i (List.mem_of_mem_drop h))
      fun h => absurd h.1 (by decide)) _
  | case6 p ps hp hquestion =>
    have hend : ¬ (p = QUESTION ∧ ([] : List UInt8).headD 0 ≠ 0) := fun h => h.2 rfl
    have hne : p ≠ ([] : List UInt8).headD 0 := fun h => halt (h ▸ List.mem_cons_self)
    rw [matchOne_self_nil hp, List.cons_append, List.length_cons, matchOne_cons, if_neg hend,
      if_neg hp, if_pos hne]
  | case7 p ps hp q qs hne hquestion =>
    have hself : p ≠ QUESTION := fun h => hquestion ⟨h, List.cons_ne_nil q qs⟩
    rw [matchOne_self_cons hself hp, if_pos hne, List.cons_append, List.length_cons,
      matchOne_cons, if_neg fun h => hself h.1, if_neg hp, List.headD_cons, if_pos hne]
  | case8 p ps hp q qs heq hquestion ih =>
    have hself : p ≠ QUESTION := fun h => hquestion ⟨h, List.cons_ne_nil q qs⟩
    have hqs : (0 : UInt8) ∉ qs := fun h => hs (List.mem_cons_of_mem q h)
    have hps : (0 : UInt8) ∉ ps := fun h => halt (List.mem_cons_of_mem p h)
    rw [matchOne_self_cons hself hp, if_neg heq, List.cons_append, List.length_cons,
      matchOne_cons, if_neg fun h => hself h.1, if_neg hp, List.headD_cons, if_neg heq,
      List.tail_cons]
    exact ih hps hqs (fun i h => hqs (List.mem_of_mem_drop h)) fun h => absurd h.1 (by decide)

section
variable {pattern one rest : CStr} (string : CStr) (hcut : pattern.cut BAR = some (one, rest))
include hcut

/-- An alternative ends at a bar, which is no star. -/
theorem matchOne_cut :
    matchOne pattern.val one.len string.val = Httpd.matchOne one.val string.val := by
  have hglue := CStr.eq_glue_of_cut (by decide) hcut
  have hone := @matchOne_eq one.val (BAR :: rest.val) string.val (show BAR ≠ STAR by decide)
    one.property string.property
  rw [hglue]
  exact hone

theorem patternMatch_cut : Httpd.patternMatch pattern string =
    (Httpd.matchOne one.val string.val || Httpd.patternMatch rest string) := by
  rw [Httpd.patternMatch, CStr.eq_glue_of_cut (by decide) hcut,
    CStr.fields_glue _ (CStr.cut_left_not_mem hcut), List.any_cons]
  rfl

end

/-- The loop over the bars tries the alternatives one by one. -/
theorem patternMatch_eq (pattern string : CStr) :
    patternMatch pattern string = Httpd.patternMatch pattern string := by
  fun_induction patternMatch pattern string with
  | case1 pattern hcut =>
    have hone := matchOne_eq (show ([] : List UInt8).headD 0 ≠ STAR by decide) pattern.property
      string.property
    rw [List.append_nil] at hone
    rw [Httpd.patternMatch, CStr.fields_of_not_mem (CStr.cut_eq_none.mp hcut), List.any_cons,
      List.any_nil, Bool.or_false]
    exact hone
  | case2 pattern one rest hcut hmatch =>
    rw [patternMatch_cut string hcut, ← matchOne_cut string hcut, hmatch]
    rfl
  | case3 pattern one rest hcut hmatch ih =>
    rw [patternMatch_cut string hcut, ← matchOne_cut string hcut, Bool.eq_false_iff.mpr hmatch]
    exact ih

end Pointer

/-! ## The language of a pattern -/

/-- What an alternative of a pattern stands for. -/
def alternative (p : CStr) : Language UInt8 :=
  Wildcard.languageOf SLASH (Wildcard.parse QUESTION STAR p.val)

theorem any_range_iff {f : ℕ → Bool} {n : ℕ} :
    (List.range (n + 1)).any f = true ↔ ∃ i ≤ n, f i = true := by
  simp only [List.any_eq_true, List.mem_range, Nat.lt_succ_iff]

theorem matchOne_iff (p s : List UInt8) : matchOne p s = true ↔
    s ∈ Wildcard.languageOf SLASH (Wildcard.parse QUESTION STAR p) := by
  have hstar : STAR ≠ QUESTION := by decide
  fun_induction matchOne p s with
  | case1 s => exact List.isEmpty_iff.trans Wildcard.mem_nil.symm
  | case2 p ps s hquestion ih =>
    obtain ⟨rfl, hne⟩ := hquestion
    obtain ⟨c, t, rfl⟩ := List.exists_cons_of_ne_nil hne
    rw [Wildcard.parse_question, Wildcard.mem_one_cons]
    apply Iff.trans ih
    constructor
    · exact fun ht => ⟨c, t, rfl, ht⟩
    · rintro ⟨c', t', h, ht⟩
      obtain ⟨-, rfl⟩ := List.cons.inj h
      exact ht
  | case3 s =>
    rw [any_range_iff, Wildcard.parse_star_end hstar, Wildcard.mem_run_cons]
    simp only [List.isEmpty_iff, Wildcard.mem_nil]
    rfl
  | case4 s qs hquestion ih =>
    rw [any_range_iff, Wildcard.parse_two_stars hstar, Wildcard.mem_any_cons]
    simp only [ih]
  | case5 s single q qs hq hquestion ih =>
    rw [any_range_iff, Wildcard.parse_star hstar hq, Wildcard.mem_run_cons]
    simp only [ih]
    rfl
  | case6 p ps hp hquestion =>
    apply iff_of_false Bool.false_ne_true
    by_cases hself : p = QUESTION
    · subst hself
      rw [Wildcard.parse_question, Wildcard.mem_one_cons]
      rintro ⟨c, t, h, -⟩
      cases h
    · rw [Wildcard.parse_self hself hp, Wildcard.mem_self_cons]
      rintro ⟨t, h, -⟩
      cases h
  | case7 p ps hp q qs hne hquestion =>
    have hself : p ≠ QUESTION := fun h => hquestion ⟨h, List.cons_ne_nil q qs⟩
    apply iff_of_false Bool.false_ne_true
    rw [Wildcard.parse_self hself hp, Wildcard.mem_self_cons]
    rintro ⟨t, h, -⟩
    exact hne (List.cons.inj h).1.symm
  | case8 p ps hp q qs heq hquestion ih =>
    have hself : p ≠ QUESTION := fun h => hquestion ⟨h, List.cons_ne_nil q qs⟩
    obtain rfl := not_not.mp heq
    rw [Wildcard.parse_self hself hp, Wildcard.mem_self_cons]
    apply Iff.trans ih
    constructor
    · exact fun ht => ⟨qs, rfl, ht⟩
    · rintro ⟨t, h, ht⟩
      obtain ⟨-, rfl⟩ := List.cons.inj h
      exact ht

/-- A pattern matches exactly the strings in the language of one of its alternatives. -/
theorem patternMatch_language (pattern string : CStr) :
    Pointer.patternMatch pattern string = true ↔
      ∃ p ∈ pattern.fields BAR, string.val ∈ alternative p := by
  rw [Pointer.patternMatch_eq, patternMatch, List.any_eq_true]
  simp only [matchOne_iff, alternative]

end EzpFirmware.Httpd
