import EzpFirmware.UserNvram.Api
import EzpFirmware.UserNvram.MapDevice

/-! # Rule sets

A rule set is one variable: rules separated by `|`, each of attributes separated
by `^`. Every edit reads the variable rule by rule, builds the new text in a
buffer of fixed size and hands it to `nvram_set`, whose answer is not looked at.
-/
namespace EzpFirmware.UserNvram
open Lib

def EZPLIB_BUF_LEN : ℕ := 8192

def EZPLIB_INVALID : ℤ := -1

def EZPLIB_VAL_TRUNC : ℤ := -2

def EZPLIB_NO_RULE_SET : ℤ := -3

def EZPLIB_NO_RULE : ℤ := -4

def EZPLIB_NO_ATTRIBUTE : ℤ := -5

def EZPLIB_IDX_OUT_RANGE : ℤ := -6

/-- The separator `|`. -/
def RULE_SEP : UInt8 := 0x7c

theorem RULE_SEP_ne : RULE_SEP ≠ 0 := by decide

/-- The separator `^`. -/
def ATTR_SEP : UInt8 := 0x5e

theorem ATTR_SEP_ne : ATTR_SEP ≠ 0 := by decide

def MAX_ATTR_NUM : ℕ := 32

/-- The byte that starts a conversion in a format. -/
def PERCENT : UInt8 := 0x25

/-- A text without conversions is printed as it is. -/
theorem Unspecified.id_plain : ∀ s : CStr, PERCENT ∉ s.val → id s = s := fun _ _ => rfl

/-- What the language leaves open. -/
structure Unspecified where
  /-- What a text gives that is used as a format without arguments. -/
  printf : CStr → CStr
  printf_plain : ∀ s, PERCENT ∉ s.val → printf s = s
  /-- What an uninitialised buffer reads as. -/
  buf : CStr
  /-- The byte in front of it. -/
  below : UInt8

/-- `struct rule`, with the names of its attributes up to the end that a scan finds. -/
structure Rule where
  name : CStr
  attr : List CStr

/-- A string and a separator at the end of a buffer, if there is room for them. -/
def emit (sep : UInt8) (hsep : sep ≠ 0) (word buf : CStr) : Option CStr :=
  let text := CStr.glue sep hsep word CStr.empty
  if EZPLIB_BUF_LEN - buf.len ≤ text.len then none else some (buf.append text)

/-- The loop of `ezplib_get_rule` over the rules. -/
def ruleLoop (u : Unspecified) (bsize : ℕ) : List CStr → ℤ → ℤ × CStr
  | [], nth => (if 0 ≤ nth then EZPLIB_NO_RULE else 0, CStr.empty)
  | ptr :: str, nth =>
    if nth ≠ 0 then ruleLoop u bsize str (nth - 1)
    else
      let text := u.printf ptr
      (if bsize ≤ text.len then EZPLIB_VAL_TRUNC else text.len, text.take (bsize - 1))

/-- `ezplib_get_rule`: what it returns, and the buffer. -/
def ezplibGetRule (u : Unspecified) (ruleSet : CStr) (nth : ℤ) (bsize : ℕ) : Api (ℤ × CStr) :=
  if ruleSet = CStr.empty then pure (EZPLIB_INVALID, CStr.empty)
  else do
    match ← Api.get ruleSet with
    | none => pure (EZPLIB_NO_RULE_SET, CStr.empty)
    | some wordlist =>
      if wordlist = CStr.empty then pure (EZPLIB_NO_RULE, CStr.empty)
      else if EZPLIB_BUF_LEN ≤ wordlist.len then pure (EZPLIB_VAL_TRUNC, CStr.empty)
      else pure (ruleLoop u bsize (wordlist.fields RULE_SEP) nth)

/-- `ezplib_get_rule_num`. -/
def ezplibGetRuleNum (ruleSet : CStr) : Api ℤ := do
  match ← Api.get ruleSet with
  | none => pure EZPLIB_NO_RULE_SET
  | some text => pure (if text = CStr.empty then 0 else text.val.count RULE_SEP + 1)

/-- `show_value`: what it returns, and the buffer. -/
def showValue (val : CStr) (bsize : ℕ) : ℤ × CStr :=
  (if bsize ≤ val.len then EZPLIB_VAL_TRUNC else val.len, val.take (bsize - 1))

/-- `ezplib_get_attr_val` with `EZPLIB_USE_CLI`: what it returns, and the buffer. `funcOrig` is the
function of an attribute that gives its value as it is stored. -/
def ezplibGetAttrVal (u : Unspecified) (rules : List Rule)
    (funcOrig : CStr → CStr → CStr → ℕ → ℤ × CStr) (ruleSet : CStr) (nth : ℤ) (type : CStr)
    (bsize : ℕ) : Api (ℤ × CStr) :=
  if ruleSet = CStr.empty ∨ type = CStr.empty then pure (EZPLIB_INVALID, CStr.empty)
  else do
    let r ← ezplibGetRule u ruleSet nth EZPLIB_BUF_LEN
    if r.1 < 0 then pure (r.1, CStr.empty)
    else
      let ptrArray := (r.2.fields ATTR_SEP).take MAX_ATTR_NUM
      let attrs := (rules.filter fun v => v.name = ruleSet).flatMap fun v => v.attr.zip ptrArray
      match attrs.find? fun a => a.1 = type with
      | some a => pure (funcOrig ruleSet type a.2 bsize)
      | none => pure (EZPLIB_NO_ATTRIBUTE, CStr.empty)

inductive Opcode where
  | ADD_RULE
  | DELETE_RULE
  | REPLACE_RULE
  deriving DecidableEq

/-- The loop of `ezplib_op_rule` from rule `i` on. An added rule takes a round of its own, in which
the `i`-th rule stays; after it no rule is the `nth` any more. -/
def opLoop (u : Unspecified) (ruleSet : CStr) (op : Opcode) (newRule : CStr) (ruleNum : ℤ) :
    ℕ → ℤ → ℤ → CStr → Api (Except ℤ CStr)
  | 0, _, _, buf => pure (.ok buf)
  | n + 1, i, nth, buf =>
    if ¬ i < ruleNum then pure (.ok buf)
    else do
      let r ← ezplibGetRule u ruleSet i EZPLIB_BUF_LEN
      if r.1 < 0 then pure (.error r.1)
      else if i ≠ nth then
        match emit RULE_SEP RULE_SEP_ne r.2 buf with
        | none => pure (.error EZPLIB_VAL_TRUNC)
        | some buf => opLoop u ruleSet op newRule ruleNum n (i + 1) nth buf
      else match op with
        | .ADD_RULE =>
          match emit RULE_SEP RULE_SEP_ne newRule buf with
          | none => pure (.error EZPLIB_VAL_TRUNC)
          | some buf => opLoop u ruleSet op newRule ruleNum n i (-1) buf
        | .DELETE_RULE => opLoop u ruleSet op newRule ruleNum n (i + 1) nth buf
        | .REPLACE_RULE =>
          match emit RULE_SEP RULE_SEP_ne newRule buf with
          | none => pure (.error EZPLIB_VAL_TRUNC)
          | some buf => opLoop u ruleSet op newRule ruleNum n (i + 1) nth buf

/-- `ezplib_op_rule`. If no rule was written, the buffer is stored as it is, and the byte in front
of it is compared with the separator. -/
def ezplibOpRule (u : Unspecified) (ruleSet : CStr) (op : Opcode) (nth : ℤ) (newRule : CStr) :
    Api ℤ := do
  let ruleNum ← ezplibGetRuleNum ruleSet
  if ruleNum < 0 then pure EZPLIB_NO_RULE_SET
  else
    match ← opLoop u ruleSet op newRule ruleNum (ruleNum.toNat + 1) 0 nth CStr.empty with
    | .error e => pure e
    | .ok buf =>
      if buf = CStr.empty then
        let _ ← Api.set ruleSet (some u.buf)
        pure (if u.below = RULE_SEP then -1 else 0)
      else
        let _ ← Api.set ruleSet (some (buf.chop RULE_SEP))
        pure (buf.chop RULE_SEP).len

/-- `ezplib_replace_rule`. -/
def ezplibReplaceRule (u : Unspecified) (ruleSet : CStr) (nth : ℤ) (newRule : CStr) : Api ℤ :=
  if ruleSet = CStr.empty then pure EZPLIB_INVALID
  else do
    let ruleNum ← ezplibGetRuleNum ruleSet
    if ruleNum < 0 then pure EZPLIB_NO_RULE_SET
    else if nth > ruleNum ∨ nth < 0 then pure EZPLIB_IDX_OUT_RANGE
    else
      let _ ← ezplibOpRule u ruleSet .REPLACE_RULE nth newRule
      pure 0

/-- The loop of `ezplib_replace_attr` over the attributes that have both a name and a text. -/
def attrLoop (attrName newAttr : CStr) : List (CStr × CStr) → CStr → Option CStr
  | [], tmp => some tmp
  | (name, ptr) :: rest, tmp =>
    let val := if name = attrName then newAttr else ptr
    match emit ATTR_SEP ATTR_SEP_ne val tmp with
    | none => none
    | some tmp => attrLoop attrName newAttr rest tmp

/-- `ezplib_replace_attr`. -/
def ezplibReplaceAttr (u : Unspecified) (rules : List Rule) (ruleSet : CStr) (nth : ℤ)
    (attrName newAttr : CStr) : Api ℤ :=
  if ruleSet = CStr.empty ∨ attrName = CStr.empty then pure EZPLIB_INVALID
  else do
    let r ← ezplibGetRule u ruleSet nth EZPLIB_BUF_LEN
    if r.1 < 0 then pure r.1
    else
      match rules.find? fun v => v.name = ruleSet with
      | none => pure EZPLIB_NO_ATTRIBUTE
      | some rule =>
        let ptrArray := (r.2.fields ATTR_SEP).take MAX_ATTR_NUM
        match attrLoop attrName newAttr (rule.attr.zip ptrArray) CStr.empty with
        | none => pure EZPLIB_VAL_TRUNC
        | some tmp =>
          ezplibReplaceRule u ruleSet nth
            (if tmp = CStr.empty then u.buf else tmp.chop ATTR_SEP)

/-- `ezplib_delete_rule`. -/
def ezplibDeleteRule (u : Unspecified) (ruleSet : CStr) (nth : ℤ) : Api ℤ :=
  if ruleSet = CStr.empty then pure EZPLIB_INVALID
  else do
    let _ ← ezplibOpRule u ruleSet .DELETE_RULE nth CStr.empty
    pure 0

/-- `ezplib_append_rule`. -/
def ezplibAppendRule (ruleSet newRule : CStr) : Api ℤ :=
  if ruleSet = CStr.empty then pure EZPLIB_INVALID
  else do
    match ← Api.get ruleSet with
    | none => pure EZPLIB_NO_RULE_SET
    | some oldRules =>
      let text :=
        if oldRules = CStr.empty then newRule
        else CStr.glue RULE_SEP RULE_SEP_ne oldRules newRule
      if EZPLIB_BUF_LEN ≤ text.len then pure EZPLIB_VAL_TRUNC
      else
        let _ ← Api.set ruleSet (some text)
        pure text.len

/-- `ezplib_add_rule`. -/
def ezplibAddRule (u : Unspecified) (ruleSet : CStr) (nth : ℤ) (newRule : CStr) : Api ℤ :=
  if ruleSet = CStr.empty then pure EZPLIB_INVALID
  else do
    let ruleNum ← ezplibGetRuleNum ruleSet
    if ruleNum < 0 then pure EZPLIB_NO_RULE_SET
    else if nth > ruleNum ∨ nth < 0 then pure EZPLIB_IDX_OUT_RANGE
    else
      let _ ← if nth = ruleNum then ezplibAppendRule ruleSet newRule
        else ezplibOpRule u ruleSet .ADD_RULE nth newRule
      pure 0

/-- `ezplib_prepend_rule`. -/
def ezplibPrependRule (u : Unspecified) (ruleSet newRule : CStr) : Api ℤ :=
  if ruleSet = CStr.empty then pure EZPLIB_INVALID
  else ezplibOpRule u ruleSet .ADD_RULE 0 newRule

/-! ## What the rule functions leave alone

A read sets nothing, and an edit sets nothing but its own rule set.
-/

section
variable {P : CStr → Prop} (u : Unspecified)

theorem confined_getRule (ruleSet : CStr) (nth : ℤ) (bsize : ℕ) :
    Confined P (ezplibGetRule u ruleSet nth bsize) := by
  unfold ezplibGetRule
  split_ifs
  · trivial
  · apply (confined_get ruleSet).bind
    intro wordlist
    cases wordlist with
    | none => trivial
    | some wordlist =>
      dsimp only
      split_ifs <;> trivial

theorem confined_getRuleNum (ruleSet : CStr) : Confined P (ezplibGetRuleNum ruleSet) := by
  apply (confined_get ruleSet).bind
  intro text
  cases text <;> trivial

theorem confined_getAttrVal (rules : List Rule) (funcOrig : CStr → CStr → CStr → ℕ → ℤ × CStr)
    (ruleSet : CStr) (nth : ℤ) (type : CStr) (bsize : ℕ) :
    Confined P (ezplibGetAttrVal u rules funcOrig ruleSet nth type bsize) := by
  unfold ezplibGetAttrVal
  split_ifs
  · trivial
  · apply (confined_getRule u ruleSet nth EZPLIB_BUF_LEN).bind
    intro r
    split_ifs
    · trivial
    · dsimp only
      split <;> trivial

theorem confined_set {name : CStr} (hname : P name) (value : Option CStr) :
    Confined P (Api.set name value) :=
  ⟨hname, fun _ => trivial⟩

theorem confined_opLoop (ruleSet : CStr) (op : Opcode) (newRule : CStr) (ruleNum : ℤ) (n : ℕ)
    (i nth : ℤ) (buf : CStr) : Confined P (opLoop u ruleSet op newRule ruleNum n i nth buf) := by
  induction n generalizing i nth buf with
  | zero => trivial
  | succ n ih =>
    unfold opLoop
    split
    · trivial
    · apply (confined_getRule u ruleSet i EZPLIB_BUF_LEN).bind
      intro r
      split
      · trivial
      · split
        · split
          · trivial
          · exact ih _ _ _
        · cases op with
          | ADD_RULE =>
            dsimp only
            split
            · trivial
            · exact ih _ _ _
          | DELETE_RULE => exact ih _ _ _
          | REPLACE_RULE =>
            dsimp only
            split
            · trivial
            · exact ih _ _ _

variable {ruleSet : CStr} (hset : P ruleSet)
include hset

theorem confined_opRule (op : Opcode) (nth : ℤ) (newRule : CStr) :
    Confined P (ezplibOpRule u ruleSet op nth newRule) := by
  apply (confined_getRuleNum ruleSet).bind
  intro ruleNum
  split
  · trivial
  · apply (confined_opLoop u ruleSet op newRule ruleNum _ 0 nth CStr.empty).bind
    intro r
    cases r with
    | error e => trivial
    | ok buf =>
      dsimp only
      split_ifs <;> exact (confined_set hset _).bind fun _ => trivial

theorem confined_replaceRule (nth : ℤ) (newRule : CStr) :
    Confined P (ezplibReplaceRule u ruleSet nth newRule) := by
  unfold ezplibReplaceRule
  split_ifs
  · trivial
  · apply (confined_getRuleNum ruleSet).bind
    intro ruleNum
    split_ifs
    · trivial
    · trivial
    · exact (confined_opRule u hset .REPLACE_RULE nth newRule).bind fun _ => trivial

theorem confined_replaceAttr (rules : List Rule) (nth : ℤ) (attrName newAttr : CStr) :
    Confined P (ezplibReplaceAttr u rules ruleSet nth attrName newAttr) := by
  unfold ezplibReplaceAttr
  split_ifs
  · trivial
  · apply (confined_getRule u ruleSet nth EZPLIB_BUF_LEN).bind
    intro r
    split_ifs
    · trivial
    · split
      · trivial
      · dsimp only
        split
        · trivial
        · exact confined_replaceRule u hset nth _

end

end EzpFirmware.UserNvram
