import EzpFirmware.KernelNvram.Driver
import EzpFirmware.UserNvram.Rules

/-! # Protected variables

All edits end in `nvram_set`, so what a run of them can do to the variables is
known from its calls. A protected variable that has a value, and a name without
a row in the table, change only when the kernel table loses them on behalf of
another variable, or when the device cannot be opened for the check of a
protected variable and can be opened right after it.
-/
namespace EzpFirmware.UserNvram
open Lib KernelNvram

/-- `nvram_default`. -/
def nvramDefault (table : NvramDefault) : Api Unit :=
  table.rows.foldr (fun v rest => do
    let _ ← Api.set v.name v.value
    rest) (pure ())

/-- `nvram_default_rule`. -/
def nvramDefaultRule (table : NvramDefault) (rulename : CStr) : Api Unit :=
  match table.rows.find? fun v => v.name = rulename with
  | none => pure ()
  | some v => do
    let _ ← Api.set v.name v.value
    pure ()

/-- The ways to change variables that check them. -/
inductive Edit where
  | set (name : CStr) (value : Option CStr)
  | replaceRule (ruleSet : CStr) (nth : ℤ) (newRule : CStr)
  | addRule (ruleSet : CStr) (nth : ℤ) (newRule : CStr)
  | prependRule (ruleSet newRule : CStr)
  | appendRule (ruleSet newRule : CStr)
  | deleteRule (ruleSet : CStr) (nth : ℤ)
  | replaceAttr (ruleSet : CStr) (nth : ℤ) (attrName newAttr : CStr)
  | default
  | defaultRule (rulename : CStr)

/-- What an edit runs; nobody looks at the answer. -/
def Edit.program (table : NvramDefault) (u : Unspecified) (rules : List Rule) : Edit → Api Unit
  | .set name value => do let _ ← Api.set name value
  | .replaceRule ruleSet nth newRule => do let _ ← ezplibReplaceRule u ruleSet nth newRule
  | .addRule ruleSet nth newRule => do let _ ← ezplibAddRule u ruleSet nth newRule
  | .prependRule ruleSet newRule => do let _ ← ezplibPrependRule u ruleSet newRule
  | .appendRule ruleSet newRule => do let _ ← ezplibAppendRule ruleSet newRule
  | .deleteRule ruleSet nth => do let _ ← ezplibDeleteRule u ruleSet nth
  | .replaceAttr ruleSet nth attrName newAttr => do
    let _ ← ezplibReplaceAttr u rules ruleSet nth attrName newAttr
  | .default => nvramDefault table
  | .defaultRule rulename => nvramDefaultRule table rulename

/-- A sequence of edits. -/
def session (table : NvramDefault) (u : Unspecified) (rules : List Rule) : List Edit → Api Unit
  | [] => pure ()
  | e :: es => do
    let _ ← e.program table u rules
    session table u rules es

/-- The system under a process, with the answers of the kernel allocator. -/
structure Kernel where
  openDev : ℕ → ℤ
  malloc : ℕ → Bool
  stack : CStr
  kmalloc : ℕ → WriteAnswers

/-- The device is the kernel table; a failed `write` gives -1. -/
def Kernel.system (k : Kernel) : System Nvram where
  openDev := k.openDev
  malloc := k.malloc
  stack := k.stack
  read := devNvramRead
  write i buf s :=
    let r := devNvramWrite (k.kmalloc i) buf s
    (if r.1 < 0 then -1 else r.1, r.2)

/-- What nobody may change: names without a row, and protected variables that have a value. -/
def Guarded (table : NvramDefault) (s : Nvram) (m : CStr) : Prop :=
  ¬ Defined table m ∨
    hasOption (nvramGetOption table m) NVRAM_PROTECTED = true ∧
      ∃ v, v ≠ CStr.empty ∧ _nvramGet m s = some v

/-- The condition on a call in the state in which it is made. A set of a guarded name is refused, so
only the values of other names reach the device. -/
def Harmless (table : NvramDefault) (k : Kernel) : NvramCall → Process Nvram → Prop
  | .get name, _ => name.len < 100
  | .set name value, p =>
    (Guarded table p.dev name →
      p.nvramFd = true ∨ k.openDev p.clock = 0 ∨ k.openDev (p.clock + 1) ≠ 0) ∧
    (¬ Guarded table p.dev name → ∀ v, value = some v → v ≠ CStr.empty →
      Spares (Guarded table p.dev) (k.kmalloc p.writes).set name v p.dev)

/-- No guarded variable differs. -/
def Keeps (table : NvramDefault) (s t : Nvram) : Prop :=
  ∀ m, Guarded table s m → _nvramGet m t = _nvramGet m s

theorem Keeps.trans {table : NvramDefault} {s t u : Nvram} (h : Keeps table s t)
    (h' : Keeps table t u) : Keeps table s u := by
  intro m hm
  have ht : Guarded table t m := by
    rw [Guarded, h m hm]
    exact hm
  rw [h' m ht, h m hm]

section
variable {table : NvramDefault} {k : Kernel} {p : Process Nvram} {name : CStr}
  {value : Option CStr}

variable (value) in
/-- The write of `_nvram_set`, for a name that is not guarded. -/
theorem _nvramSet_keeps (hp : p.dev.Valid) (hname : EQ ∉ name.val)
    (hg : ¬ Guarded table p.dev name)
    (hs : ∀ v, value = some v → v ≠ CStr.empty →
      Spares (Guarded table p.dev) (k.kmalloc p.writes).set name v p.dev) :
    (_nvramSet k.system name value p).2.dev.Valid ∧
      Keeps table p.dev (_nvramSet k.system name value p).2.dev := by
  cases _nvramSet_dev (S := k.system) (p := p) name value with
  | inl h =>
    rw [h]
    exact ⟨hp, fun _ _ => rfl⟩
  | inr h =>
    rw [h.2]
    refine ⟨hp.write _ _, fun m hm => ?_⟩
    have hne : m ≠ name := fun he => hg (he ▸ hm)
    cases value with
    | none => exact hp.write_name_get hname hne
    | some v => exact hp.write_get hname (hs v rfl) hm hne

/-- A set of a variable that its table entry protects. -/
theorem nvramSet_protected (hd : Defined table name) (hshort : name.len < 100)
    (hprot : hasOption (nvramGetOption table name) NVRAM_PROTECTED = true) :
    nvramSet table k.system name value p =
      .ok (if (if (nvramInit k.system p).1 = 0 then _nvramGet name p.dev else none).any
          (· ≠ CStr.empty) then (EACCES, (nvramInit k.system p).2)
        else _nvramSet k.system name value (nvramInit k.system p).2) := by
  have htmp : tmpname k.system name = name := if_pos hshort
  have hread : k.system.read name p.dev = _nvramGet name p.dev := by
    obtain ⟨v, hv, hn⟩ := hd
    exact if_neg (hn ▸ table.name_nonempty v hv)
  have hdef : ¬ hasOption (nvramGetOption table name) NVRAM_UNDEFINED = true := fun hu =>
    option_undefined_iff.mp hu hd
  unfold nvramSet
  dsimp only
  rw [htmp, if_neg hdef, if_pos hprot, nvramGet_short hshort, hread]
  dsimp only
  split_ifs <;> rfl

variable (value) in
/-- A guarded variable of the table is left alone by its own set. -/
theorem nvramSet_refused (hd : Defined table name) (hshort : name.len < 100)
    (hg : Guarded table p.dev name)
    (hopen : p.nvramFd = true ∨ k.openDev p.clock = 0 ∨ k.openDev (p.clock + 1) ≠ 0) :
    ∃ r q, nvramSet table k.system name value p = .ok (r, q) ∧ q.dev = p.dev := by
  obtain hx | ⟨hprot, v, hne, hv⟩ := hg
  · exact absurd hd hx
  · rw [nvramSet_protected hd hshort hprot, hv]
    by_cases hi : (nvramInit k.system p).1 = 0
    · have hany : (some v).any (· ≠ CStr.empty) = true := by simpa using hne
      rw [if_pos hi, if_pos hany]
      exact ⟨_, _, rfl, nvramInit_dev⟩
    · -- the check could not be made, and the write cannot be made either
      have hretry : (nvramInit k.system (nvramInit k.system p).2).1 ≠ 0 := by
        rw [nvramInit_retry hi]
        by_cases hfd : p.nvramFd = true
        · exact absurd (by simp [nvramInit, hfd]) hi
        · have hfirst : k.openDev p.clock ≠ 0 := by
            simpa [nvramInit, hfd, Kernel.system] using hi
          exact (hopen.resolve_left hfd).resolve_left hfirst
      have hdev := _nvramSet_dev (S := k.system) (p := (nvramInit k.system p).2) name value
      rw [if_neg hi, Option.any_none, if_neg Bool.false_ne_true]
      generalize _nvramSet k.system name value (nvramInit k.system p).2 = r at hdev ⊢
      refine ⟨r.1, r.2, rfl, ?_⟩
      cases hdev with
      | inl h => rw [h, nvramInit_dev]
      | inr h => exact absurd h.1 hretry

/-- One checked set. -/
theorem nvramSet_keeps (hp : p.dev.Valid) (h : Harmless table k (.set name value) p) :
    ∃ r q, nvramSet table k.system name value p = .ok (r, q) ∧ q.dev.Valid ∧
      Keeps table p.dev q.dev := by
  by_cases hu : hasOption (nvramGetOption table (tmpname k.system name)) NVRAM_UNDEFINED = true
  · unfold nvramSet
    dsimp only
    rw [if_pos hu]
    exact ⟨_, _, rfl, hp, fun _ _ => rfl⟩
  · obtain ⟨-, hshort, hname, hd⟩ :=
      tmpname_defined (not_not.mp fun hd => hu (option_undefined_iff.mpr hd))
    by_cases hg : Guarded table p.dev name
    · obtain ⟨r, q, hset, hdev⟩ := nvramSet_refused value hd hshort hg (h.1 hg)
      exact ⟨r, q, hset, hdev ▸ hp, fun _ _ => by rw [hdev]⟩
    · by_cases hprot : hasOption (nvramGetOption table name) NVRAM_PROTECTED = true
      · have hset := _nvramSet_keeps value (p := (nvramInit k.system p).2)
          (by rwa [nvramInit_dev]) hname (by rwa [nvramInit_dev])
          (by rw [nvramInit_dev, nvramInit_writes]; exact h.2 hg)
        rw [nvramInit_dev] at hset
        rw [nvramSet_protected hd hshort hprot]
        split_ifs
        · exact ⟨_, _, rfl, by rwa [nvramInit_dev], fun _ _ => by rw [nvramInit_dev]⟩
        · exact ⟨_, _, rfl, hset.1, hset.2⟩
        · exact ⟨_, _, rfl, by rwa [nvramInit_dev], fun _ _ => by rw [nvramInit_dev]⟩
        · exact ⟨_, _, rfl, hset.1, hset.2⟩
      · have hset := _nvramSet_keeps value hp hname hg (h.2 hg)
        rw [nvramSet_unprotected hd (by simpa using hprot)]
        exact ⟨_, _, rfl, hset.1, hset.2⟩

/-- One call of either kind. -/
theorem library_keeps (hp : p.dev.Valid) {c : NvramCall} (h : Harmless table k c p) :
    ∃ r q, library table k.system c p = .ok (r, q) ∧ q.dev.Valid ∧ Keeps table p.dev q.dev := by
  cases c with
  | get name =>
    refine ⟨_, _, nvramGet_short h, ?_, fun _ _ => ?_⟩
    · rwa [nvramInit_dev]
    · rw [nvramInit_dev]
  | set name value => exact nvramSet_keeps hp h

end

/-- From every store of the device, every sequence of edits whose calls are harmless ends without a
fault and leaves the guarded variables alone. -/
theorem session_keeps (table : NvramDefault) (u : Unspecified) (rules : List Rule) (k : Kernel)
    (rs : List Request) (edits : List Edit) (nvramFd : Bool) (clock writes : ℕ)
    (h : (session table u rules edits).Along (library table k.system) (Harmless table k)
      ⟨nvramFd, clock, writes, serve rs⟩) :
    ∃ p, (session table u rules edits).run (library table k.system)
        ⟨nvramFd, clock, writes, serve rs⟩ = .ok ((), p) ∧
      ∀ m, Guarded table (serve rs) m → _nvramGet m p.dev = _nvramGet m (serve rs) := by
  obtain ⟨⟨⟩, p, hrun, -, hkeeps⟩ := h.run_ok (I := fun p => p.dev.Valid)
    (R := fun p q => Keeps table p.dev q.dev) (fun _ _ _ => rfl)
    (fun _ _ _ => Keeps.trans)
    (fun c q hq hc => library_keeps hq hc) (Nvram.serve_valid rs)
  exact ⟨p, hrun, hkeeps⟩

/-- Three rows of the table. -/
def threeRows : NvramDefault where
  rows := [
    ⟨.ofString "arch", some (.ofString "mips"), NVRAM_PROTECTED⟩,
    ⟨.ofString "machine_id", some CStr.empty, NVRAM_PROTECTED⟩,
    ⟨.ofString "wan_weight_type", some (.ofString "1"), 0⟩]
  names_nodup := by decide
  name_short := by decide
  name_line := by decide
  name_plain := by decide
  name_nonempty := by decide
  option_defined := by decide

/-- A kernel whose allocator answers all sets alike. -/
def steadyKernel (answers : SetAnswers) : Kernel := ⟨fun _ => 0, fun _ => true, CStr.empty,
  fun _ => ⟨true, answers⟩⟩

/-- The rule library on texts without conversions, with clean buffers. -/
def clean : Unspecified := ⟨id, Unspecified.id_plain, CStr.empty, 0⟩

/-- A second `arch` is refused. -/
theorem session_keeps_arch :
    ∃ p, (session threeRows clean [] [.set (.ofString "arch") (some (.ofString "arm"))]).run
        (library threeRows (steadyKernel { plenty with header := false }).system)
        ⟨true, 0, 0, serve [.set plenty (.ofString "arch") (.ofString "mips")]⟩ = .ok ((), p) ∧
      _nvramGet (.ofString "arch") p.dev = some (.ofString "mips") := by
  have hstore : _nvramGet (.ofString "arch")
      (serve [.set plenty (.ofString "arch") (.ofString "mips")]) = some (.ofString "mips") := by
    rw [serve_single (by decide), if_pos rfl]
  obtain ⟨p, hrun, hkeeps⟩ := session_keeps threeRows clean []
    (steadyKernel { plenty with header := false })
    [.set plenty (.ofString "arch") (.ofString "mips")]
    [.set (.ofString "arch") (some (.ofString "arm"))] true 0 0
    ⟨⟨fun _ => .inl rfl, fun _ _ _ _ => .inr (.inl rfl)⟩, fun _ _ _ => trivial⟩
  refine ⟨p, hrun, ?_⟩
  rw [hkeeps _ (.inr ⟨by decide, _, by decide, hstore⟩), hstore]

/-- Two protected variables that fill the store, and a set of a third one: a protected variable or
an undefined name does not keep its value. -/
theorem session_drops : ∃ p,
    (session threeRows clean [] [.set (.ofString "wan_weight_type") (some (letters 7))]).run
        (library threeRows (steadyKernel plenty).system)
        ⟨true, 0, 0, serve [.set plenty (.ofString "arch") (letters 32740),
          .set plenty (.ofString "machine_id") (letters 20)]⟩ = .ok ((), p) ∧
      ¬ ∀ m, Guarded threeRows (serve [.set plenty (.ofString "arch") (letters 32740),
          .set plenty (.ofString "machine_id") (letters 20)]) m →
        _nvramGet m p.dev = _nvramGet m (serve [.set plenty (.ofString "arch") (letters 32740),
          .set plenty (.ofString "machine_id") (letters 20)]) := by
  obtain ⟨s, hs⟩ : ∃ s, serve [.set plenty (.ofString "arch") (letters 32740),
    .set plenty (.ofString "machine_id") (letters 20)] = s := ⟨_, rfl⟩
  rw [hs]
  obtain ⟨-, ha, hb, -⟩ := filled_store (by decide) hs
  set S := (steadyKernel plenty).system with hS
  let p : Process Nvram := ⟨true, 0, 0, s⟩
  have hd : Defined threeRows (.ofString "wan_weight_type") :=
    ⟨⟨.ofString "wan_weight_type", some (.ofString "1"), 0⟩, by simp [threeRows], rfl⟩
  have hset : nvramSet threeRows S (.ofString "wan_weight_type") (some (letters 7)) p =
      .ok (_nvramSet S (.ofString "wan_weight_type") (some (letters 7)) p) :=
    nvramSet_unprotected hd (by decide) (some (letters 7)) p
  have hdev := congrArg Process.dev (_nvramSet_granted (p := p) (S := S) rfl (fun _ => rfl)
    (.ofString "wan_weight_type") (some (letters 7)))
  have hwrite : (_nvramSet S (.ofString "wan_weight_type") (some (letters 7)) p).2.dev =
      (KernelNvram.nvramSet plenty (.ofString "wan_weight_type") (letters 7) s).2 :=
    hdev.trans (devNvramWrite_assignment rfl (by decide) (by decide) s)
  generalize _nvramSet S (.ofString "wan_weight_type") (some (letters 7)) p = r at hset hwrite
  refine ⟨r.2, ?_, fun hkeeps => ?_⟩
  · rw [session, Edit.program, Program.run_bind, run_set, hset]
    rfl
  · have hne : CStr.ofString "arch" ≠ CStr.ofString "wan_weight_type" ∧
        CStr.ofString "machine_id" ≠ CStr.ofString "wan_weight_type" ∧
        EQ ∉ (CStr.ofString "wan_weight_type").val := by decide
    apply filled_drops (by decide) hne.1 hne.2.1 hs (by decide) hne.2.2
    intro m hm
    rw [← hwrite]
    apply hkeeps
    by_cases hd : Defined threeRows m
    · refine .inr ?_
      obtain ⟨v, hv, rfl⟩ := hd
      simp only [threeRows, List.mem_cons, List.not_mem_nil, or_false] at hv
      obtain rfl | rfl | rfl := hv
      · exact ⟨by decide, _, by decide, ha⟩
      · exact ⟨by decide, _, by decide, hb⟩
      · exact absurd rfl hm
    · exact .inl hd

end EzpFirmware.UserNvram
