import EzpFirmware.Httpd.Escapes
import EzpFirmware.Httpd.Templates
import Mathlib.Data.List.GetD

/-! # Templates without tags

What is put for dollars stays in the buffer until a character releases it. A
template is copied if a character comes behind the last dollar, and if the
dollars in a row have room.
-/
namespace EzpFirmware.Httpd
open Lib

/-- The rest of a template is copied behind what is held. Dollars add to what is held, and other
characters release it, apart from one that may start a tag. -/
inductive Copies (paras : List CStr) : List UInt8 → List UInt8 → Prop where
  | nil : Copies paras [] []
  | para {held file : List UInt8} {k : UInt8} : isParaNum paras k = true →
      held.length + (paraAt paras k).len ≤ 510 → Copies paras (held ++ (paraAt paras k).val) file →
      Copies paras held (DOLLAR :: k :: file)
  | pair {held file : List UInt8} {k : UInt8} : isParaNum paras k = false → k ≠ 0 →
      (k = DOLLAR → ∀ d ∈ file.head?, isParaNum paras d = false) → held.length + 2 ≤ 510 →
      Copies paras (held ++ [DOLLAR, k]) file → Copies paras held (DOLLAR :: k :: file)
  | tagStart {file : List UInt8} : Copies paras [0x3c] file → Copies paras [] (0x3c :: file)
  | release {held file : List UInt8} {c : UInt8} : c ≠ DOLLAR → c ≠ 0 → held ++ [c] ≠ [0x3c] →
      held ++ [c] ≠ TAG → Copies paras [] file → Copies paras held (c :: file)

/-! ## Expansions -/

section
variable {paras : List CStr} {file : List UInt8} {c k : UInt8}

theorem expand_plain (hc : c ≠ DOLLAR) : expand paras (c :: file) = c :: expand paras file := by
  cases file <;> simp [expand, hc]

theorem expand_para (hk : isParaNum paras k = true) :
    expand paras (DOLLAR :: k :: file) = (paraAt paras k).val ++ expand paras file := by
  simp [expand, hk]

theorem expand_other (hk : isParaNum paras k = false) :
    expand paras (DOLLAR :: k :: file) = DOLLAR :: expand paras (k :: file) := by
  simp [expand, hk]

/-- A dollar without a number behind it is copied. -/
theorem expand_dollar (hfile : ∀ d ∈ file.head?, isParaNum paras d = false) :
    expand paras (DOLLAR :: file) = DOLLAR :: expand paras file := by
  cases file with
  | nil => simp [expand]
  | cons d file => exact expand_other (hfile d rfl)

theorem expand_pair (hk : isParaNum paras k = false)
    (hfile : k = DOLLAR → ∀ d ∈ file.head?, isParaNum paras d = false) :
    expand paras (DOLLAR :: k :: file) = [DOLLAR, k] ++ expand paras file := by
  rw [expand_other hk]
  by_cases hd : k = DOLLAR
  · subst hd
    rw [expand_dollar (hfile rfl)]
    rfl
  · rw [expand_plain hd]
    rfl

theorem paraAt_mem (hk : isParaNum paras k = true) : paraAt paras k ∈ paras := by
  simp only [isParaNum, decide_eq_true_iff] at hk
  rw [paraAt, List.getD_eq_getElem _ _ hk.2]
  exact List.getElem_mem hk.2

/-- With parameters that are not empty nothing but the empty template stands for the empty text. -/
theorem expand_ne_nil (hparas : CStr.empty ∉ paras) (hfile : file ≠ []) :
    expand paras file ≠ [] := by
  cases file with
  | nil => exact absurd rfl hfile
  | cons c file =>
    by_cases hc : c = DOLLAR
    · subst hc
      cases file with
      | nil => simp [expand]
      | cons k file =>
        cases hk : isParaNum paras k with
        | true =>
          rw [expand_para hk]
          intro h
          have hempty : paraAt paras k = CStr.empty := Subtype.ext (List.append_eq_nil_iff.mp h).1
          exact hparas (hempty ▸ paraAt_mem hk)
        | false =>
          rw [expand_other hk]
          exact List.cons_ne_nil _ _
    · rw [expand_plain hc]
      exact List.cons_ne_nil _ _

end

/-! ## The buffer outside of tags -/

/-- The buffer holds some characters outside of a tag, and printing is allowed. -/
structure Ej.Holding (st : Ej) (held : List UInt8) : Prop where
  size : st.pattern.length = PATTERN_LEN
  len : st.len = held.length
  take : st.pattern.take held.length = held
  asp : st.asp = false
  ejPrint : st.ejPrint = true

namespace Ej.Holding

variable {call : CStr → Bool → CStr × Bool} {st : Ej} {held text : List UInt8}

theorem pattern_put (h : st.Holding held) (text : List UInt8) : ∃ rest,
    (st.put text).pattern = held ++ text ++ 0 :: rest := by
  refine ⟨st.pattern.drop (st.len + (text ++ [0]).length), ?_⟩
  rw [Ej.put, poke]
  dsimp only
  rw [h.len, h.take]
  simp

theorem put (h : st.Holding held) (hroom : held.length + text.length < PATTERN_LEN) :
    (st.put text).Holding (held ++ text) := by
  obtain ⟨rest, hrest⟩ := h.pattern_put text
  refine ⟨?_, ?_, ?_, h.asp, h.ejPrint⟩
  · rw [Ej.put]
    dsimp only
    rw [poke_length, h.size]
    rw [h.len, h.size, List.length_append, List.length_singleton]
    omega
  · rw [Ej.put, List.length_append, h.len]
  · rw [hrest, List.take_left']
    rfl

/-- What is put is read back up to its end. -/
theorem text_put (h : st.Holding held) (hzero : (0 : UInt8) ∉ held ++ text) :
    (st.put text).text.val = held ++ text := by
  obtain ⟨rest, hrest⟩ := h.pattern_put text
  rw [Ej.text, hrest, read_append_zero hzero]

/-- A character that cannot be in the start of a tag releases what is held. -/
theorem look_release (h : st.Holding held) {c : UInt8} (hroom : held.length ≤ 510)
    (hzero : (0 : UInt8) ∉ held ++ [c]) (hopen : held ++ [c] ≠ [0x3c]) (htag : held ++ [c] ≠ TAG) :
    ((st.put [c]).look call).Holding [] ∧
      ((st.put [c]).look call).out.val = st.out.val ++ (held ++ [c]) := by
  have hput := @Holding.put _ _ [c] h (by rw [PATTERN_LEN, List.length_singleton]; omega)
  have htext := h.text_put hzero
  have hrelease : (st.put [c]).look call = (st.put [c]).release := by
    have hno : ¬ (st.put [c]).text.val.take (st.put [c]).len = TAG.take (st.put [c]).len := by
      rw [htext, hput.len, List.take_length]
      intro hsame
      by_cases hone : held = []
      · exact hopen (by simpa [hone, TAG] using hsame)
      · have hlong : TAG.length ≤ (held ++ [c]).length := by
          have hpos := List.length_pos_of_ne_nil hone
          rw [List.length_append, TAG, List.length_singleton]
          exact Nat.succ_le_succ hpos
        exact htag (hsame.trans (List.take_of_length_le hlong))
    have hasp : (st.put [c]).asp = false := hput.asp
    unfold Ej.look
    simp [hno, hasp]
  have hprint : (st.put [c]).ejPrint = true := hput.ejPrint
  rw [hrelease]
  refine ⟨⟨hput.size, rfl, rfl, hput.asp, hput.ejPrint⟩, ?_⟩
  rw [Ej.release, hprint, if_pos rfl, CStr.append]
  dsimp only
  rw [htext]
  rfl

/-- The first character of a tag stays in the buffer. -/
theorem look_open (h : st.Holding []) :
    ((st.put [0x3c]).look call).Holding [0x3c] ∧ ((st.put [0x3c]).look call).out = st.out := by
  have hput := @Holding.put _ _ [0x3c] h (by decide)
  have htext := @text_put _ _ [0x3c] h (by decide)
  have hlen : (st.put [0x3c]).len = 1 := hput.len
  have hlook : (st.put [0x3c]).look call = { st.put [0x3c] with asp := false } := by
    have hasp : (st.put [0x3c]).asp = false := hput.asp
    unfold Ej.look
    simp [hlen, hasp, htext, PATTERN_LEN, TAG]
  rw [hlook]
  exact ⟨⟨hput.size, hput.len, hput.take, rfl, hput.ejPrint⟩, rfl⟩

end Ej.Holding

/-! ## Copying -/

section
variable {call : CStr → Bool → CStr × Bool} {paras : List CStr} {held file : List UInt8} {st : Ej}

theorem replacement_para {k : UInt8} (hk : isParaNum paras k = true) :
    replacement paras k = (paraAt paras k).val := if_pos hk

theorem replacement_pair {k : UInt8} (hk : isParaNum paras k = false) :
    replacement paras k = [DOLLAR, k] := if_neg (by simp [hk])

/-- A template that is copied comes out as what it stands for, behind what is held. -/
theorem Copies.run (h : Copies paras held file) (hst : st.Holding held) (hroom : held.length ≤ 510)
    (hzero : (0 : UInt8) ∉ held) : ∃ st', ejLoop call paras file st = some st' ∧
      st'.out.val = st.out.val ++ (held ++ expand paras file) := by
  induction h generalizing st with
  | nil => exact ⟨st, rfl, by simp [expand]⟩
  | @para held file k hk hlen _ ih =>
    have hfits : held.length + (paraAt paras k).val.length < PATTERN_LEN :=
      Nat.lt_of_le_of_lt hlen (by decide)
    obtain ⟨st', hrun, hout⟩ := ih (hst.put hfits) (by simpa [CStr.len] using hlen)
      (by simp [hzero, (paraAt paras k).property])
    refine ⟨st', ?_, ?_⟩
    · rw [ejLoop_dollar, replacement_para hk, Ej.hold_of_room (by rwa [hst.len]), Option.bind_some]
      exact hrun
    · rw [hout, expand_para hk, List.append_assoc]
      rfl
  | @pair held file k hk hk0 hnext hlen _ ih =>
    have hfits : held.length + [DOLLAR, k].length < PATTERN_LEN :=
      Nat.lt_of_le_of_lt hlen (by decide)
    obtain ⟨st', hrun, hout⟩ := ih (hst.put hfits) (by simpa using hlen)
      (by simp [hzero, Ne.symm hk0, show (0 : UInt8) ≠ DOLLAR by decide])
    refine ⟨st', ?_, ?_⟩
    · rw [ejLoop_dollar, replacement_pair hk, Ej.hold_of_room (by rwa [hst.len]), Option.bind_some]
      exact hrun
    · rw [hout, expand_pair hk hnext, List.append_assoc]
      rfl
  | @tagStart file _ ih =>
    obtain ⟨hnext, hsame⟩ := @Ej.Holding.look_open call _ hst
    obtain ⟨st', hrun, hout⟩ := ih hnext (by decide) (by decide)
    refine ⟨st', ?_, ?_⟩
    · rw [ejLoop_plain (by decide), Ej.hold_of_room (by rw [hst.len]; decide), Option.bind_some]
      exact hrun
    · rw [hout, hsame, expand_plain (by decide)]
      rfl
  | @release held file c hc hc0 hopen htag _ ih =>
    obtain ⟨hnext, hwritten⟩ := @Ej.Holding.look_release call _ _ hst _ hroom
      (by simp [hzero, Ne.symm hc0]) hopen htag
    obtain ⟨st', hrun, hout⟩ := ih hnext (by decide) (by decide)
    refine ⟨st', ?_, ?_⟩
    · rw [ejLoop_plain hc, Ej.hold_of_room (by rw [hst.len, PATTERN_LEN]; simp; omega),
        Option.bind_some]
      exact hrun
    · rw [hout, hwritten, expand_plain hc]
      simp

end

/-! ## What is copied at all -/

section
variable {call : CStr → Bool → CStr × Bool} {paras : List CStr} {held file : List UInt8}
  {st st' : Ej}

theorem append_out (st : Ej) (t : CStr) : st.out.val <+: (st.out.append t).val :=
  List.prefix_append _ _

theorem release_out (st : Ej) : st.out.val <+: st.release.out.val := by
  unfold Ej.release
  dsimp only
  split_ifs
  · exact append_out st _
  · exact List.prefix_rfl

theorem statements_out (rounds func : ℕ) (s : List UInt8) (st : Ej) :
    st.out.val <+: (statements call rounds func s st).out.val := by
  induction rounds generalizing func s st with
  | zero => exact List.prefix_rfl
  | succ rounds ih =>
    rw [statements]
    split
    · exact List.prefix_rfl
    · dsimp only
      split
      · exact List.prefix_rfl
      · generalize (if (st.ejPrint || _) = true then _ else _ : CStr × Bool) = called
        exact (append_out st called.1).trans
          (ih _ _ { st with ejPrint := called.2, out := st.out.append called.1 })

theorem look_out (st : Ej) : st.out.val <+: (st.look call).out.val := by
  unfold Ej.look
  dsimp only
  split_ifs
  · exact release_out st
  · exact List.prefix_rfl
  · exact statements_out _ _ _ st
  · exact List.prefix_rfl
  · exact release_out st

/-- What was written stays. -/
theorem ejLoop_out (h : ejLoop call paras file st = some st') : st.out.val <+: st'.out.val := by
  induction hn : file.length using Nat.strong_induction_on generalizing file st with
  | _ n ih =>
  cases file with
  | nil =>
    cases h
    exact List.prefix_rfl
  | cons c file =>
    rw [List.length_cons] at hn
    by_cases hc : c = DOLLAR
    · subst hc
      cases file with
      | nil =>
        rw [ejLoop_end] at h
        cases h
        exact List.prefix_rfl
      | cons k file =>
        rw [List.length_cons] at hn
        rw [ejLoop_dollar, Option.bind_eq_some_iff] at h
        obtain ⟨next, hnext, h⟩ := h
        obtain ⟨-, hput⟩ := Option.ite_none_right_eq_some.mp hnext
        cases Option.some.inj hput
        have hkept := ih file.length (by omega) h rfl
        exact hkept
    · rw [ejLoop_plain hc, Option.bind_eq_some_iff] at h
      obtain ⟨next, hnext, h⟩ := h
      obtain ⟨-, hput⟩ := Option.ite_none_right_eq_some.mp hnext
      cases Option.some.inj hput
      exact (@look_out call (st.put [c])).trans (ih file.length (by omega) h rfl)

/-- A buffer that is full is not written out any more. -/
theorem ejLoop_full (hfull : st.len + 1 = PATTERN_LEN) (hempty : CStr.empty ∉ paras)
    (h : ejLoop call paras file st = some st') : st'.out = st.out := by
  cases file with
  | nil =>
    cases h
    rfl
  | cons c file =>
    by_cases hc : c = DOLLAR
    · subst hc
      cases file with
      | nil =>
        rw [ejLoop_end] at h
        cases h
        rfl
      | cons k file =>
        have hpos : 0 < (replacement paras k).length := by
          cases hk : isParaNum paras k with
          | true =>
            rw [replacement_para hk]
            refine List.length_pos_of_ne_nil fun hnil => hempty ?_
            rw [← show paraAt paras k = CStr.empty from Subtype.ext hnil]
            exact paraAt_mem hk
          | false =>
            rw [replacement_pair hk]
            exact Nat.zero_lt_succ _
        rw [ejLoop_dollar, Ej.hold_of_full (by omega)] at h
        cases h
    · rw [ejLoop_plain hc, Ej.hold_of_full (by simpa using hfull.ge)] at h
      cases h

theorem zero_mem_expand (h : (0 : UInt8) ∈ file) : (0 : UInt8) ∈ expand paras file := by
  induction hn : file.length using Nat.strong_induction_on generalizing file with
  | _ n ih =>
  cases file with
  | nil => exact h
  | cons c file =>
    rw [List.length_cons] at hn
    by_cases hpara : c = DOLLAR ∧ ∃ k rest, file = k :: rest ∧ isParaNum paras k = true
    · obtain ⟨rfl, k, rest, rfl, hk⟩ := hpara
      rw [List.length_cons] at hn
      have hk0 : (0 : UInt8) ≠ k := by
        rintro rfl
        simp [isParaNum] at hk
      have hrest : (0 : UInt8) ∈ rest := by
        simpa [hk0, show (0 : UInt8) ≠ DOLLAR by decide] using h
      rw [expand_para hk]
      exact List.mem_append_right _ (ih rest.length (by omega) hrest rfl)
    · have hcopy : expand paras (c :: file) = c :: expand paras file := by
        by_cases hc : c = DOLLAR
        · subst hc
          refine expand_dollar fun d hd => Bool.eq_false_iff.mpr fun hdk => hpara ⟨rfl, ?_⟩
          cases file with
          | nil => cases hd
          | cons k rest =>
            cases hd
            exact ⟨_, rest, rfl, hdk⟩
        · exact expand_plain hc
      rw [hcopy]
      rcases List.mem_cons.mp h with rfl | hfile
      · exact List.mem_cons_self
      · exact List.mem_cons_of_mem _ (ih file.length (by omega) hfile rfl)

/-- Two dollars in front of a number are copied with the number. -/
theorem ejLoop_pair_out {d : UInt8} (hst : st.Holding held) (hroom : held.length ≤ 510)
    (hlong : 2 ≤ held.length) (hd : isParaNum paras d = true) (hzero : (0 : UInt8) ∉ held)
    (h : ejLoop call paras (d :: file) st = some st') :
    st.out.val ++ (held ++ [d]) <+: st'.out.val := by
  have hnum : (0x30 : UInt8) ≤ d := by
    simp only [isParaNum, decide_eq_true_iff] at hd
    exact hd.1
  have hdollar : d ≠ DOLLAR := by
    rintro rfl
    exact absurd hnum (by decide)
  have hd0 : (0 : UInt8) ≠ d := by
    rintro rfl
    exact absurd hnum (by decide)
  have hlen : 3 ≤ (held ++ [d]).length := by simpa using hlong
  obtain ⟨hnext, hout⟩ := @Ej.Holding.look_release call _ _ hst d hroom (by simp [hzero, hd0])
    (fun h => by simp [h] at hlen) (fun h => by simp [h, TAG] at hlen)
  rw [ejLoop_plain hdollar, Ej.hold_of_room (by rw [hst.len, PATTERN_LEN]; simp; omega),
    Option.bind_some] at h
  rw [← hout]
  exact ejLoop_out h

/-- Only what is copied comes out as what it stands for, if no parameter has a dollar or the first
character of a tag in it. -/
theorem Copies.of_run (hempty : CStr.empty ∉ paras)
    (hparas : ∀ p ∈ paras, DOLLAR ∉ p.val ∧ 0x3c ∉ p.val) (hst : st.Holding held)
    (hroom : held.length ≤ 510) (hzero : (0 : UInt8) ∉ held ++ file) (htag : ¬ TAG <:+: file)
    (hlead : held = [0x3c] → file.head? ≠ some PERCENT)
    (hrun : ejLoop call paras file st = some st')
    (hout : st'.out.val = st.out.val ++ (held ++ expand paras file)) : Copies paras held file := by
  induction hn : file.length using Nat.strong_induction_on generalizing file st held with
  | _ n ih =>
  cases file with
  | nil =>
    cases hrun
    have hheld : held = [] := by simpa [expand] using hout
    rw [hheld]
    exact .nil
  | cons c file =>
    rw [List.length_cons] at hn
    have htail : ¬ TAG <:+: file := fun h => htag (h.trans (List.suffix_cons c file).isInfix)
    by_cases hc : c = DOLLAR
    · subst hc
      cases file with
      | nil =>
        rw [ejLoop_end] at hrun
        cases hrun
        simp [expand] at hout
      | cons k file =>
        rw [List.length_cons] at hn
        have hnext : ¬ TAG <:+: file := fun h => htail (h.trans (List.suffix_cons k file).isInfix)
        rw [ejLoop_dollar, Option.bind_eq_some_iff] at hrun
        obtain ⟨next, hhold, hrun⟩ := hrun
        obtain ⟨hfits, hput⟩ := Option.ite_none_right_eq_some.mp hhold
        cases Option.some.inj hput
        rw [hst.len] at hfits
        have hlen : held.length + (replacement paras k).length ≤ 510 := by
          by_contra hlong
          have hsame : st'.out = st.out := by
            refine @ejLoop_full _ _ _ (st.put (replacement paras k)) _ ?_ hempty hrun
            rw [Ej.put, hst.len, PATTERN_LEN] at *
            dsimp only
            omega
          have hnil : expand paras (DOLLAR :: k :: file) = [] := by
            rw [hsame] at hout
            exact (List.append_eq_nil_iff.mp (List.self_eq_append_right.mp hout)).2
          exact expand_ne_nil hempty (List.cons_ne_nil _ _) hnil
        have hheld := @Ej.Holding.put _ _ (replacement paras k) hst hfits
        cases hk : isParaNum paras k with
        | true =>
          have hmem := paraAt_mem hk
          rw [replacement_para hk] at hrun hlen hheld
          refine .para hk hlen (ih file.length (by omega) hheld (by simpa using hlen) ?_ hnext ?_
            hrun ?_ rfl)
          · have hpara := (paraAt paras k).property
            simp only [List.mem_append, List.mem_cons, not_or] at hzero ⊢
            exact ⟨⟨hzero.1, hpara⟩, hzero.2.2.2⟩
          · intro hone
            have hin : (paraAt paras k).val ≠ [] := fun h =>
              hempty ((Subtype.ext h : paraAt paras k = CStr.empty) ▸ hmem)
            rcases List.append_eq_singleton_iff.mp hone with ⟨-, h⟩ | ⟨-, h⟩
            · exact absurd (by simp [h]) (hparas _ hmem).2
            · exact absurd h hin
          · rw [hout, expand_para hk, List.append_assoc]
            rfl
        | false =>
          have hk0 : k ≠ 0 := by
            rintro rfl
            simp at hzero
          have hheld0 : (0 : UInt8) ∉ held ++ [DOLLAR, k] := by
            simp only [List.mem_append, List.mem_cons, not_or] at hzero ⊢
            exact ⟨hzero.1, hzero.2.1, hzero.2.2.1, List.not_mem_nil⟩
          rw [replacement_pair hk] at hrun hlen hheld
          have hdollar : k = DOLLAR → ∀ d ∈ file.head?, isParaNum paras d = false := by
            rintro rfl d hd
            refine Bool.eq_false_iff.mpr fun hdk => ?_
            cases file with
            | nil => cases hd
            | cons d' file =>
              cases hd
              have hlead := ejLoop_pair_out hheld (by simpa using hlen) (by simp) hdk hheld0 hrun
              have hmem := paraAt_mem hdk
              have hsame : [DOLLAR, d] <+: (paraAt paras d).val ++ expand paras file := by
                have h : st.out.val ++ (held ++ [DOLLAR]) ++ [DOLLAR, d] <+:
                    st.out.val ++ (held ++ [DOLLAR]) ++
                      ((paraAt paras d).val ++ expand paras file) := by
                  rw [expand_other hk, expand_para hdk] at hout
                  rw [hout] at hlead
                  simpa [Ej.put] using hlead
                exact (List.prefix_append_right_inj _).mp h
              cases hp : (paraAt paras d).val with
              | nil =>
                exact hempty ((Subtype.ext hp : paraAt paras d = CStr.empty) ▸ hmem)
              | cons b p =>
                rw [hp, List.cons_append] at hsame
                have hb : DOLLAR = b := (List.cons_prefix_cons.mp hsame).1
                exact (hparas _ hmem).1 (by rw [hp, ← hb]; exact List.mem_cons_self)
          refine .pair hk hk0 hdollar hlen (ih file.length (by omega) hheld (by simpa using hlen) ?_
            hnext ?_ hrun ?_ rfl)
          · simp only [List.mem_append, List.mem_cons, not_or] at hzero hheld0 ⊢
            exact ⟨hheld0, hzero.2.2.2⟩
          · intro hone
            have hlength := congrArg List.length hone
            simp at hlength
          · rw [hout, expand_pair hk hdollar, List.append_assoc]
            rfl
    · rw [ejLoop_plain hc, Ej.hold_of_room (by rw [hst.len, PATTERN_LEN]; simp; omega),
        Option.bind_some] at hrun
      simp only [List.mem_append, List.mem_cons, not_or] at hzero
      rw [expand_plain hc] at hout
      by_cases hopen : held ++ [c] = [0x3c]
      · obtain ⟨rfl, rfl⟩ : held = [] ∧ c = 0x3c := by
          rcases List.append_eq_singleton_iff.mp hopen with ⟨h, hc⟩ | ⟨-, h⟩
          · exact ⟨h, by simpa using hc⟩
          · simp at h
        obtain ⟨hheld, hsame⟩ := @Ej.Holding.look_open call _ hst
        refine .tagStart (ih file.length (by omega) hheld (by decide) ?_ htail ?_ hrun ?_ rfl)
        · simp only [List.mem_append, not_or]
          exact ⟨by decide, hzero.2.2⟩
        · intro _ hhead
          cases file with
          | nil => cases hhead
          | cons b file =>
            cases hhead
            exact htag ⟨[], file, rfl⟩
        · rw [hout, hsame]
          rfl
      · have hclosed : held ++ [c] ≠ TAG := by
          intro h
          obtain ⟨hheld, hlast⟩ := List.append_inj' (h.trans (show TAG = [0x3c] ++ [PERCENT] from rfl))
            rfl
          cases hlast
          exact hlead hheld rfl
        obtain ⟨hheld, hwritten⟩ := @Ej.Holding.look_release call _ _ hst c hroom
          (by simp [hzero.1, hzero.2.1]) hopen hclosed
        refine .release hc (Ne.symm hzero.2.1) hopen hclosed
          (ih file.length (by omega) hheld (by decide) ?_ htail (by simp) hrun ?_ rfl)
        · simpa using hzero.2.2
        · rw [hout, hwritten]
          simp

end

/-! ## Pages -/

section
variable (call : CStr → Bool → CStr × Bool)

/-- A page starts with nothing held. -/
theorem holding_start {junk : List UInt8} (h : junk.length = PATTERN_LEN) :
    (⟨junk, 0, false, true, CStr.empty⟩ : Ej).Holding [] :=
  ⟨h, rfl, rfl, rfl, rfl⟩

theorem empty_notMem_readParas (args : List CStr) : CStr.empty ∉ readParas args := fun h => by
  simpa using List.mem_takeWhile_imp (List.mem_of_mem_take h)

theorem doEj_of_short {args : List CStr} (h : ∀ p ∈ readParas args, p.len < SHORT_BUF_LEN)
    (junk : List UInt8) (ejPrint : Bool) (file : List UInt8) :
    doEj call junk ejPrint file args =
      ejLoop call (readParas args) file ⟨junk, 0, false, ejPrint, CStr.empty⟩ := by
  refine if_neg ?_
  simpa using h

/-- A page is written inside of its buffer if and only if each dollar finds room. Without tags it
comes out as what it stands for if the template is copied, and for parameters without dollars and
without the first character of a tag only then. -/
theorem page_copied_iff (junk : List UInt8) (ejPrint : Bool) (file : List UInt8) (args : List CStr)
    (hjunk : junk.length = PATTERN_LEN) (hargs : ∀ p ∈ readParas args, p.len < SHORT_BUF_LEN) :
    ((doEj call junk ejPrint file args).isSome = true ↔
        RoomFor call (readParas args) file ⟨junk, 0, false, ejPrint, CStr.empty⟩) ∧
      (¬ TAG <:+: file →
        (Copies (readParas args) [] file → ∃ st, doEj call junk true file args = some st ∧
          st.out.val = expand (readParas args) file) ∧
        ((∀ p ∈ readParas args, DOLLAR ∉ p.val ∧ 0x3c ∉ p.val) →
          (∃ st, doEj call junk true file args = some st ∧
            st.out.val = expand (readParas args) file) → Copies (readParas args) [] file)) := by
  rw [doEj_of_short call hargs, doEj_of_short call hargs]
  refine ⟨ejLoop_isSome_iff (.inl (show 0 + 1 < PATTERN_LEN by decide)), fun htag => ⟨fun h => ?_, ?_⟩⟩
  · obtain ⟨st, hrun, hout⟩ := @Copies.run call _ _ _ _ h (holding_start hjunk) (by simp) (by simp)
    exact ⟨st, hrun, hout⟩
  · rintro hparas ⟨st, hrun, hout⟩
    refine Copies.of_run (empty_notMem_readParas args) hparas (holding_start hjunk) (by simp) ?_
      htag (by simp) hrun hout
    rw [List.nil_append]
    intro hzero
    exact st.out.property (hout ▸ zero_mem_expand hzero)

end

/-- No handler of a page writes anything. -/
def silent (_ : CStr) (ejPrint : Bool) : CStr × Bool := (CStr.empty, ejPrint)

theorem page_copied_name : ∃ st, doEj silent (List.replicate 512 0) true
    [0x61, DOLLAR, 0x30, 0x62] [CStr.ofString "x1"] = some st ∧
      st.out.val = [0x61, 0x78, 0x31, 0x62] := by
  have hargs : ∀ p ∈ readParas [CStr.ofString "x1"], p.len < SHORT_BUF_LEN := by decide +kernel
  have htag : ¬ TAG <:+: [0x61, DOLLAR, 0x30, 0x62] := by decide
  have hcopy : Copies (readParas [CStr.ofString "x1"]) [] [0x61, DOLLAR, 0x30, 0x62] :=
    .release (by decide) (by decide) (by decide) (by decide)
      (.para (by decide +kernel) (by decide +kernel)
        (.release (by decide) (by decide) (by decide +kernel) (by decide +kernel) .nil))
  have h := page_copied_iff silent (List.replicate 512 0) true [0x61, DOLLAR, 0x30, 0x62]
    [CStr.ofString "x1"] List.length_replicate hargs
  exact (h.2 htag).1 hcopy

/-- Seventeen times a parameter of 31 characters leaves the buffer. The last character of a template
is lost if it may start a tag. -/
theorem page_overflow :
    doEj silent (List.replicate 512 0) true (List.replicate 17 [DOLLAR, 0x30]).flatten
        [CStr.read (List.replicate 31 0x61)] = none ∧
      (doEj silent (List.replicate 512 0) true [0x61, 0x3c] []).map (·.out.val) = some [0x61] ∧
      expand [] [0x61, 0x3c] = [0x61, 0x3c] := by
  refine ⟨?_, ?_, ?_⟩
  · decide +kernel
  · decide +kernel
  · decide

end EzpFirmware.Httpd
