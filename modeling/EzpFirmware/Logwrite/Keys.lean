import EzpFirmware.Lib.CString
import Mathlib.Data.List.Infix

/-! # Keys that messages are matched against

A key is a row of strings that have to occur in a message or must not. The strings
are told apart by `&`, and the character behind it is read one step ahead.
-/
namespace EzpFirmware.Logwrite
open Lib

def AMP : UInt8 := 38
def MINUS : UInt8 := 45

/-- `tolower` of the C locale. -/
def tolower (b : UInt8) : UInt8 := if 65 ≤ b ∧ b ≤ 90 then b + 32 else b

/-- `strcasestr`: the message from the first place on where the string occurs. -/
def strcasestr (msg s : List UInt8) : Option (List UInt8) :=
  msg.tails.find? fun t => decide (s.map tolower <+: t.map tolower)

/-- `KEYSTR_GET_OP`. -/
def KEYSTR_GET_OP (opchr : UInt8) : Bool := opchr ≠ MINUS

def logxor (log1 log2 : Bool) : Bool := (log1 || log2) && (!log1 || !log2)

/-- The string that starts at a place of the key. -/
def termAt (cur : List UInt8) : List UInt8 := cur.takeWhile fun b => b ≠ 0 && b ≠ AMP

/-- The place behind the next `&`, if there is one. -/
def behindAmp (cur : List UInt8) : Option (List UInt8) :=
  match cur.dropWhile fun b => b ≠ 0 && b ≠ AMP with
  | [] => none
  | b :: rest => if b = AMP then some rest else none

theorem behindAmp_length {cur rest : List UInt8} (h : behindAmp cur = some rest) :
    rest.length < cur.length := by
  rw [behindAmp] at h
  split at h
  case h_1 => cases h
  case h_2 b rest' hdrop =>
    have hsub := (List.dropWhile_sublist (l := cur) fun b => b ≠ 0 && b ≠ AMP).length_le
    rw [hdrop, List.length_cons] at hsub
    obtain ⟨-, heq⟩ := Option.ite_none_right_eq_some.mp h
    rw [← Option.some.inj heq]
    exact hsub

/-- The loop of `keystr_match` from a place of the key on, which ends with the terminator. There
is no result if something is read behind it. -/
def keystrLoop (msg cur : List UInt8) (op : Bool) : Option ℕ :=
  if cur = [] then none
  else if logxor (strcasestr msg (termAt cur)).isSome op then some 0
  else
    match _h : behindAmp cur with
    | none => some 1
    | some [] => none
    | some (opchr :: cur') => keystrLoop msg cur' (KEYSTR_GET_OP opchr)
termination_by cur.length
decreasing_by
  have hlen := behindAmp_length _h
  rw [List.length_cons] at hlen
  omega

/-- `keystr_match` with a message and a key. -/
def keystrMatch (msg key : CStr) : Option ℕ :=
  match key.stored with
  | [] => none
  | b :: cur =>
    if b = AMP then
      match cur with
      | [] => none
      | opchr :: cur => keystrLoop msg.val cur (KEYSTR_GET_OP opchr)
    else keystrLoop msg.val (b :: cur) true

/-! ## The meaning of a key -/

/-- A string that has to occur or must not. -/
structure Term where
  required : Bool
  text : List UInt8

/-- The string occurs, ignoring the case. -/
def Occurs (msg s : List UInt8) : Prop := s.map tolower <:+: msg.map tolower

def Term.Holds (msg : List UInt8) (t : Term) : Prop := t.required = true ↔ Occurs msg t.text

/-- The strings of a key text, and whether it ends with one of them. -/
structure KeyText where
  terms : List Term
  closed : Bool

def KeyText.cons (t : Term) (k : KeyText) : KeyText := ⟨t :: k.terms, k.closed⟩

/-- How a text is read, the first string of which has a mark. -/
def readTerms : List UInt8 → Bool → List UInt8 → KeyText
  | [], op, text => ⟨[⟨op, text⟩], true⟩
  | [b], op, text => if b = AMP then ⟨[⟨op, text⟩], false⟩ else ⟨[⟨op, text ++ [b]⟩], true⟩
  | b :: opchr :: rest, op, text =>
    if b = AMP then (readTerms rest (KEYSTR_GET_OP opchr) []).cons ⟨op, text⟩
    else readTerms (opchr :: rest) op (text ++ [b])

/-- How a key is read. -/
def readKey : List UInt8 → KeyText
  | [] => readTerms [] true []
  | [b] => if b = AMP then ⟨[], false⟩ else readTerms [b] true []
  | b :: opchr :: rest =>
    if b = AMP then readTerms rest (KEYSTR_GET_OP opchr) []
    else readTerms (b :: opchr :: rest) true []

instance (msg s : List UInt8) : Decidable (Occurs msg s) := inferInstanceAs (Decidable (_ <:+: _))

instance (msg : List UInt8) (t : Term) : Decidable (t.Holds msg) :=
  inferInstanceAs (Decidable (_ ↔ _))

/-- What the strings of a key say of a message. There is no result if all of them hold and the
key goes on without another one. -/
def KeyText.outcome (msg : List UInt8) (k : KeyText) : Option ℕ :=
  if ∀ t ∈ k.terms, t.Holds msg then if k.closed then some 1 else none else some 0

variable {msg t r : List UInt8} {op : Bool} {opchr : UInt8}

theorem strcasestr_isSome (msg s : List UInt8) : (strcasestr msg s).isSome ↔ Occurs msg s := by
  rw [strcasestr, List.find?_isSome, Occurs, List.infix_iff_prefix_suffix]
  constructor
  · rintro ⟨t, ht, hlead⟩
    exact ⟨t.map tolower, of_decide_eq_true hlead, ((List.mem_tails _ _).mp ht).map tolower⟩
  · rintro ⟨t, hlead, hsuffix⟩
    obtain ⟨u, hu, rfl⟩ := List.suffix_map_iff.mp hsuffix
    exact ⟨u, (List.mem_tails _ _).mpr hu, decide_eq_true hlead⟩

theorem logxor_eq_false (msg s : List UInt8) (op : Bool) :
    logxor (strcasestr msg s).isSome op = false ↔ Term.Holds msg ⟨op, s⟩ := by
  rw [Term.Holds, ← strcasestr_isSome]
  cases (strcasestr msg s).isSome <;> cases op <;> simp [logxor]

theorem outcome_cons (t : Term) (k : KeyText) :
    (k.cons t).outcome msg = if t.Holds msg then k.outcome msg else some 0 := by
  simp only [KeyText.outcome, KeyText.cons, List.forall_mem_cons]
  split_ifs <;> simp_all

/-! ## Reading a key -/

theorem forall_plain (hzero : 0 ∉ t) (hamp : AMP ∉ t) :
    ∀ b ∈ t, (decide (b ≠ 0) && decide (b ≠ AMP)) = true := by
  intro b hb
  rw [Bool.and_eq_true, decide_eq_true_iff, decide_eq_true_iff]
  exact ⟨fun h => hzero (h ▸ hb), fun h => hamp (h ▸ hb)⟩

theorem termAt_amp (hzero : 0 ∉ t) (hamp : AMP ∉ t) : termAt (t ++ AMP :: r) = t := by
  rw [termAt, List.takeWhile_append_of_pos (forall_plain hzero hamp)]
  simp [AMP]

theorem termAt_end (hzero : 0 ∉ t) (hamp : AMP ∉ t) : termAt (t ++ [0]) = t := by
  rw [termAt, List.takeWhile_append_of_pos (forall_plain hzero hamp)]
  simp

theorem behindAmp_amp (hzero : 0 ∉ t) (hamp : AMP ∉ t) : behindAmp (t ++ AMP :: r) = some r := by
  rw [behindAmp, List.dropWhile_append_of_pos (forall_plain hzero hamp)]
  simp

theorem behindAmp_end (hzero : 0 ∉ t) (hamp : AMP ∉ t) : behindAmp (t ++ [0]) = none := by
  rw [behindAmp, List.dropWhile_append_of_pos (forall_plain hzero hamp)]
  simp [AMP]

theorem readTerms_of_ne {b : UInt8} (hb : b ≠ AMP) (l : List UInt8) (op : Bool)
    (text : List UInt8) : readTerms (b :: l) op text = readTerms l op (text ++ [b]) := by
  cases l with
  | nil =>
    rw [readTerms]
    simp only [readTerms]
    rw [if_neg hb]
  | cons c l => rw [readTerms, if_neg hb]

/-- The characters in front of an `&` go to the string. -/
theorem readTerms_append (hamp : AMP ∉ t) (l : List UInt8) (op : Bool) (text : List UInt8) :
    readTerms (t ++ l) op text = readTerms l op (text ++ t) := by
  induction t generalizing text with
  | nil => rw [List.nil_append, List.append_nil]
  | cons b t ih =>
    rw [List.mem_cons, not_or] at hamp
    rw [List.cons_append, readTerms_of_ne (Ne.symm hamp.1), ih hamp.2, List.append_assoc]
    rfl

theorem readTerms_plain (hamp : AMP ∉ t) (op : Bool) :
    readTerms t op [] = ⟨[⟨op, t⟩], true⟩ := by
  have happend := readTerms_append hamp [] op []
  rwa [List.append_nil, List.nil_append, readTerms] at happend

theorem readTerms_open (hamp : AMP ∉ t) (op : Bool) :
    readTerms (t ++ [AMP]) op [] = ⟨[⟨op, t⟩], false⟩ := by
  rw [readTerms_append hamp, readTerms, if_pos rfl, List.nil_append]

theorem readTerms_marked (hamp : AMP ∉ t) (op : Bool) (opchr : UInt8) (r : List UInt8) :
    readTerms (t ++ AMP :: opchr :: r) op [] =
      (readTerms r (KEYSTR_GET_OP opchr) []).cons ⟨op, t⟩ := by
  rw [readTerms_append hamp, readTerms, if_pos rfl, List.nil_append]

/-- A string that does not hold ends the loop. -/
theorem keystrLoop_of_not_holds {cur : List UInt8} (hcur : cur ≠ [])
    (h : ¬ Term.Holds msg ⟨op, termAt cur⟩) : keystrLoop msg cur op = some 0 := by
  rw [keystrLoop, if_neg hcur, if_pos]
  rw [← logxor_eq_false] at h
  exact Bool.not_eq_false _ ▸ h

theorem keystrLoop_of_holds {cur : List UInt8} (hcur : cur ≠ [])
    (h : Term.Holds msg ⟨op, termAt cur⟩) :
    keystrLoop msg cur op =
      match behindAmp cur with
      | none => some 1
      | some [] => none
      | some (opchr :: cur') => keystrLoop msg cur' (KEYSTR_GET_OP opchr) := by
  rw [← logxor_eq_false] at h
  rw [keystrLoop, if_neg hcur, if_neg (by rw [h]; decide)]
  split <;> simp_all

theorem keystrLoop_nil (msg : List UInt8) (op : Bool) : keystrLoop msg [] op = none := by
  rw [keystrLoop, if_pos rfl]

/-- The loop says what the strings of the key say. -/
theorem keystrLoop_eq (msg rest : List UInt8) (op : Bool) (hzero : 0 ∉ rest) :
    keystrLoop msg (rest ++ [0]) op = (readTerms rest op []).outcome msg := by
  induction hlen : rest.length using Nat.strong_induction_on generalizing rest op with
  | _ n ih =>
  have hne : rest ++ [0] ≠ [] := List.append_ne_nil_of_right_ne_nil _ (List.cons_ne_nil _ _)
  by_cases hamp : AMP ∈ rest
  · obtain ⟨t, r, rfl, htamp⟩ := List.eq_append_cons_of_mem hamp
    have htzero : 0 ∉ t := fun h => hzero (List.mem_append_left _ h)
    have hterm : termAt (t ++ AMP :: r ++ [0]) = t := by
      rw [List.append_assoc, List.cons_append, termAt_amp htzero htamp]
    have hbehind : behindAmp (t ++ AMP :: r ++ [0]) = some (r ++ [0]) := by
      rw [List.append_assoc, List.cons_append, behindAmp_amp htzero htamp]
    by_cases hholds : Term.Holds msg ⟨op, t⟩
    · rw [keystrLoop_of_holds hne (hterm.symm ▸ hholds), hbehind]
      cases r with
      | nil =>
        -- the terminator is taken for the mark, and the loop goes on behind it
        rw [readTerms_open htamp]
        simp [KeyText.outcome, hholds, keystrLoop_nil]
      | cons opchr r =>
        have hr : 0 ∉ r := fun h =>
          hzero (List.mem_append_right t (List.mem_cons_of_mem _ (List.mem_cons_of_mem _ h)))
        rw [readTerms_marked htamp, outcome_cons, if_pos hholds]
        apply ih r.length _ r (KEYSTR_GET_OP opchr) hr rfl
        rw [← hlen, List.length_append, List.length_cons, List.length_cons]
        omega
    · rw [keystrLoop_of_not_holds hne (hterm.symm ▸ hholds)]
      cases r with
      | nil =>
        rw [readTerms_open htamp]
        simp [KeyText.outcome, hholds]
      | cons opchr r => rw [readTerms_marked htamp, outcome_cons, if_neg hholds]
  · rw [readTerms_plain hamp]
    have hterm := termAt_end hzero hamp
    by_cases hholds : Term.Holds msg ⟨op, rest⟩
    · rw [keystrLoop_of_holds hne (hterm.symm ▸ hholds), behindAmp_end hzero hamp]
      simp [KeyText.outcome, hholds]
    · rw [keystrLoop_of_not_holds hne (hterm.symm ▸ hholds)]
      simp [KeyText.outcome, hholds]

/-- The whole of a key. -/
theorem keystrMatch_eq (msg key : CStr) :
    keystrMatch msg key = (readKey key.val).outcome msg.val := by
  obtain ⟨key, hkey⟩ := key
  rw [keystrMatch]
  cases key with
  | nil => exact keystrLoop_eq msg.val [] true hkey
  | cons b rest =>
    rw [List.mem_cons, not_or] at hkey
    change (if b = AMP then _ else _) = _
    cases rest with
    | nil =>
      rw [readKey]
      by_cases hb : b = AMP
      · rw [if_pos hb, if_pos hb]
        exact keystrLoop_nil _ _
      · rw [if_neg hb, if_neg hb]
        exact keystrLoop_eq msg.val [b] true (by simpa using hkey.1)
    | cons opchr rest =>
      have hrest : 0 ∉ rest := fun h => hkey.2 (List.mem_cons_of_mem _ h)
      rw [readKey]
      by_cases hb : b = AMP
      · rw [if_pos hb, if_pos hb]
        exact keystrLoop_eq msg.val rest _ hrest
      · rw [if_neg hb, if_neg hb]
        apply keystrLoop_eq msg.val (b :: opchr :: rest) true
        exact List.not_mem_cons_of_ne_of_not_mem hkey.1 hkey.2

/-! ## Keys as they are meant -/

/-- A key as it is meant: the first string with or without a mark, and the others each with one. -/
structure Expression where
  mark : Option Bool
  first : List UInt8
  others : List Term

def markOf (required : Bool) : UInt8 := if required then 43 else MINUS

/-- A string with its mark. -/
def Term.write (t : Term) : List UInt8 := AMP :: markOf t.required :: t.text

/-- The text of a key: `[&(+|-)]s1&(+|-)s2&...`. -/
def Expression.write (e : Expression) : List UInt8 :=
  (match e.mark with
    | none => e.first
    | some required => Term.write ⟨required, e.first⟩) ++ e.others.flatMap Term.write

/-- The strings of a key. The first one has to occur if it is not marked. -/
def Expression.terms (e : Expression) : List Term := ⟨e.mark.getD true, e.first⟩ :: e.others

/-- No string has an `&`. -/
def Expression.Free (e : Expression) : Prop := ∀ t ∈ e.terms, AMP ∉ t.text

theorem op_markOf (required : Bool) : KEYSTR_GET_OP (markOf required) = required := by
  cases required <;> decide

/-- A marked string behind another one. -/
theorem readTerms_write {others : List Term} (hothers : ∀ u ∈ others, AMP ∉ u.text)
    (hamp : AMP ∉ t) (op : Bool) :
    readTerms (t ++ others.flatMap Term.write) op [] = ⟨⟨op, t⟩ :: others, true⟩ := by
  induction others generalizing t op with
  | nil => rw [List.flatMap_nil, List.append_nil, readTerms_plain hamp]
  | cons u others ih =>
    have hu := hothers u List.mem_cons_self
    have hrest := ih (fun v hv => hothers v (List.mem_cons_of_mem u hv)) hu u.required
    rw [List.flatMap_cons, Term.write, List.cons_append, List.cons_append,
      readTerms_marked hamp, op_markOf, hrest]
    rfl

theorem readKey_marked (opchr : UInt8) (r : List UInt8) :
    readKey (AMP :: opchr :: r) = readTerms r (KEYSTR_GET_OP opchr) [] := by
  rw [readKey, if_pos rfl]

theorem readKey_plain {b : UInt8} (hb : b ≠ AMP) (l : List UInt8) :
    readKey (b :: l) = readTerms (b :: l) true [] := by
  cases l with
  | nil => rw [readKey, if_neg hb]
  | cons c l => rw [readKey, if_neg hb]

theorem holds_empty (msg : List UInt8) : Term.Holds msg ⟨true, []⟩ :=
  iff_of_true rfl (List.nil_infix (l := msg.map tolower))

theorem outcome_closed (msg : List UInt8) (terms : List Term) :
    KeyText.outcome msg ⟨terms, true⟩ = some (if ∀ t ∈ terms, t.Holds msg then 1 else 0) := by
  simp only [KeyText.outcome]
  split_ifs <;> rfl

/-- A key that is meant says what its strings say. -/
theorem outcome_write (msg : List UInt8) (e : Expression) (h : e.Free) :
    (readKey e.write).outcome msg = some (if ∀ t ∈ e.terms, t.Holds msg then 1 else 0) := by
  obtain ⟨mark, first, others⟩ := e
  have hfirst : AMP ∉ first := h _ List.mem_cons_self
  have hothers : ∀ u ∈ others, AMP ∉ u.text := fun u hu => h u (List.mem_cons_of_mem _ hu)
  have hread := readTerms_write hothers hfirst
  cases mark with
  | some required =>
    change (readKey (AMP :: markOf required :: (first ++ others.flatMap Term.write))).outcome msg = _
    rw [readKey_marked, op_markOf, hread, outcome_closed]
    rfl
  | none =>
    change (readKey (first ++ others.flatMap Term.write)).outcome msg = _
    cases first with
    | cons b first =>
      have hb : b ≠ AMP := fun heq => hfirst (heq ▸ List.mem_cons_self)
      rw [List.cons_append, readKey_plain hb, ← List.cons_append, hread, outcome_closed]
      rfl
    | nil =>
      cases others with
      | nil => exact outcome_closed msg [⟨true, []⟩]
      | cons u others =>
        -- an empty string without a mark is not seen, and occurs in every message
        have hu := readTerms_write (fun v hv => hothers v (List.mem_cons_of_mem u hv))
          (hothers u List.mem_cons_self) u.required
        rw [List.nil_append, List.flatMap_cons, Term.write, List.cons_append, List.cons_append,
          readKey_marked, op_markOf, hu, outcome_closed]
        simp only [Expression.terms, Option.getD_none, List.forall_mem_cons, holds_empty, true_and]

/-- For every key text of the form that is meant the strings decide, and no key text is read
behind its end, if and only if not all strings hold in front of an `&` at the end. -/
theorem keystrMatch_means_iff (msg key : CStr) :
    ((keystrMatch msg key).isSome ∧ ∀ e : Expression, e.Free → e.write = key.val →
      keystrMatch msg key = some (if ∀ t ∈ e.terms, t.Holds msg.val then 1 else 0)) ↔
      ¬ ((readKey key.val).closed = false ∧ ∀ t ∈ (readKey key.val).terms, t.Holds msg.val) := by
  have hmeant : ∀ e : Expression, e.Free → e.write = key.val →
      keystrMatch msg key = some (if ∀ t ∈ e.terms, t.Holds msg.val then 1 else 0) := by
    intro e hfree hwrite
    rw [keystrMatch_eq, ← hwrite, outcome_write msg.val e hfree]
  rw [keystrMatch_eq] at hmeant ⊢
  constructor
  · rintro ⟨hsome, -⟩ ⟨hopen, hholds⟩
    rw [KeyText.outcome, if_pos hholds, hopen] at hsome
    exact absurd hsome (by decide)
  · intro h
    refine ⟨?_, hmeant⟩
    rw [KeyText.outcome]
    split_ifs with hholds hclosed
    · rfl
    · exact absurd ⟨Bool.eq_false_iff.mpr hclosed, hholds⟩ h
    · rfl

/-- An `&` at the end, behind a string that occurs. -/
theorem open_key_overruns :
    keystrMatch (.ofString "warning") (.ofString "warn&") = none := by
  rw [keystrMatch_eq]
  decide

end EzpFirmware.Logwrite
