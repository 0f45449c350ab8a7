import EzpFirmware.Httpd.FieldChecks
import EzpFirmware.Httpd.VlanRules
import EzpFirmware.Lib.Printing
import EzpFirmware.UserNvram.RuleFetch

/-! # Member texts

The flags are put behind one another, rotated, and followed by the entries that
are kept. Whatever the rotation leaves behind the flags is written over, or cut
off by the end of the text.
-/
namespace EzpFirmware.Httpd
open Lib UserNvram

/-! ## Buffers with a text -/

/-- A buffer of some bytes with a text at its start. -/
structure HasText (mem : List UInt8) (size : ℕ) (t : CStr) : Prop where
  length : mem.length = size
  text : t.stored <+: mem

namespace HasText

variable {mem : List UInt8} {size : ℕ} {t s : CStr}

theorem read (h : HasText mem size t) : CStr.read mem = t := by
  obtain ⟨rest, hrest⟩ := h.text
  rw [← hrest, CStr.read_stored_append]

theorem zero_mem (h : HasText mem size t) : (0 : UInt8) ∈ mem :=
  h.text.subset (by simp [CStr.stored])

theorem of_zero_mem (hlen : mem.length = size) (hzero : (0 : UInt8) ∈ mem) :
    HasText mem size (CStr.read mem) := by
  refine ⟨hlen, ?_⟩
  obtain ⟨front, rest, rfl⟩ := List.append_of_mem hzero
  obtain ⟨tail, htail⟩ := CStr.exists_stored_append front rest
  rw [htail, CStr.read_stored_append]
  exact List.prefix_append _ _

theorem strcat (h : HasText mem size t) (hroom : t.len + s.len < size) :
    ∃ mem', strcat mem s = some mem' ∧ HasText mem' size (t.append s) := by
  refine ⟨poke mem t.len s.stored, ?_, ?_, ?_⟩
  · rw [Httpd.strcat, h.read, h.length, if_pos ⟨h.zero_mem, hroom⟩]
  · rw [poke_length, h.length]
    rw [CStr.stored_length, h.length]
    omega
  · obtain ⟨rest, hrest⟩ := h.text
    have htake : mem.take t.len = t.val := by
      rw [← hrest, CStr.stored, List.append_assoc]
      exact List.take_left' rfl
    rw [poke, htake]
    exact ⟨_, by simp [CStr.stored, CStr.append]; rfl⟩

theorem strcpy {src : List UInt8} {size' : ℕ} (h : HasText src size' s) (hlen : mem.length = size)
    (hroom : s.len < size) : ∃ mem', strcpy mem src = some mem' ∧ HasText mem' size s := by
  refine ⟨poke mem 0 s.stored, ?_, ?_, ?_⟩
  · rw [Httpd.strcpy, h.read, hlen, if_pos ⟨h.zero_mem, hroom⟩]
  · rw [poke_length, hlen]
    rw [CStr.stored_length, hlen]
    omega
  · rw [poke, List.take_zero, List.nil_append]
    exact List.prefix_append _ _

theorem printTo (hlen : mem.length = size) (hroom : s.len < size) :
    HasText (printTo mem s) size s := by
  have htake : s.take (mem.length - 1) = s := take_of_len_le (by omega)
  refine ⟨?_, ?_⟩
  · rw [Httpd.printTo, htake, poke_length, hlen]
    rw [CStr.stored_length, hlen]
    omega
  · rw [Httpd.printTo, htake, poke, List.take_zero, List.nil_append]
    exact List.prefix_append _ _

end HasText

theorem printTo_length {mem : List UInt8} {size : ℕ} (hlen : mem.length = size) (hsize : 0 < size)
    (s : CStr) : (printTo mem s).length = size := by
  rw [printTo, poke_length, hlen]
  have hle : (s.take (mem.length - 1)).len ≤ mem.length - 1 := List.length_take_le _ _
  rw [CStr.stored_length]
  omega

theorem strcat_length {mem mem' : List UInt8} {s : CStr} (h : strcat mem s = some mem') :
    mem'.length = mem.length := by
  obtain ⟨⟨-, hroom⟩, hput⟩ := Option.ite_none_right_eq_some.mp h
  cases Option.some.inj hput
  rw [poke_length]
  rw [CStr.stored_length]
  omega

theorem strcpy_length {mem mem' src : List UInt8} (h : strcpy mem src = some mem') :
    mem'.length = mem.length := by
  obtain ⟨⟨-, hroom⟩, hput⟩ := Option.ite_none_right_eq_some.mp h
  cases Option.some.inj hput
  rw [poke_length]
  rw [CStr.stored_length]
  omega

/-! ## Flags -/

/-- A text that is a flag. -/
def IsFlag (s : CStr) : Prop := s = .ofString "0" ∨ s = .ofString "1"

/-- A character that is a flag. -/
def IsFlagByte (b : UInt8) : Prop := b = CHAR_0 ∨ b = CHAR_1

theorem IsFlag.val {s : CStr} (h : IsFlag s) : ∃ b, IsFlagByte b ∧ s.val = [b] := by
  rcases h with rfl | rfl
  · exact ⟨CHAR_0, .inl rfl, by decide⟩
  · exact ⟨CHAR_1, .inr rfl, by decide⟩

theorem IsFlag.of_val {s : CStr} {b : UInt8} (hb : IsFlagByte b) (hs : s.val = [b]) : IsFlag s := by
  rcases hb with rfl | rfl
  · exact .inl (Subtype.ext (hs.trans (by decide)))
  · exact .inr (Subtype.ext (hs.trans (by decide)))

theorem IsFlag.len {s : CStr} (h : IsFlag s) : s.len = 1 := by
  rcases h with rfl | rfl <;> decide

theorem IsFlagByte.ne_zero {b : UInt8} (h : IsFlagByte b) : b ≠ 0 := by
  rcases h with rfl | rfl <;> decide

section
variable {u : Unspecified} {form : Form} {nvram : Variables} {i n : ℕ}

/-- The flags of the ports. -/
def portFlags (form : Form) (i n : ℕ) : List CStr := (List.range n).map fun j => portFlag form i (j + 1)

theorem portFlags_succ : portFlags form i (n + 1) = portFlags form i n ++ [portFlag form i (n + 1)] := by
  rw [portFlags, List.range_succ, List.map_append]
  rfl

theorem concat_flags_len (h : ∀ f ∈ portFlags form i n, IsFlag f) :
    (CStr.concat (portFlags form i n)).len = n := by
  induction n with
  | zero => rfl
  | succ n ih =>
    rw [portFlags_succ] at h ⊢
    rw [CStr.concat_append, CStr.append_len, CStr.concat_singleton,
      ih fun f hf => h f (List.mem_append_left _ hf),
      (h _ (List.mem_append_right _ List.mem_cons_self)).len]

theorem gatherPorts_length {st st' : VlanRoom} (hsize : st.tmp.length = TMP_LEN)
    (h : gatherPorts form i n st = some st') :
    st'.tmp.length = TMP_LEN ∧ st'.portmember.length = st.portmember.length := by
  induction n generalizing st' with
  | zero =>
    cases h
    exact ⟨hsize, rfl⟩
  | succ n ih =>
    rw [gatherPorts, Option.bind_eq_some_iff] at h
    obtain ⟨before, hbefore, h⟩ := h
    obtain ⟨portmember, hcat, hlast⟩ := Option.map_eq_some_iff.mp h
    cases hlast
    obtain ⟨htmp, hlen⟩ := ih hbefore
    exact ⟨printTo_length htmp (by decide) _, (strcat_length hcat).trans hlen⟩

/-- The flags are put behind one another, and the name of the last one stays in `tmp`. -/
theorem gatherPorts_run {st : VlanRoom} (htmp : st.tmp.length = TMP_LEN)
    (hempty : HasText st.portmember SHORT_BUF_LEN CStr.empty) (hn : n < SHORT_BUF_LEN)
    (hname : ∀ j ≤ n, (portName i j).len < TMP_LEN) (hflags : ∀ f ∈ portFlags form i n, IsFlag f) :
    ∃ st', gatherPorts form i n st = some st' ∧ st'.tmp.length = TMP_LEN ∧
      HasText st'.portmember SHORT_BUF_LEN (CStr.concat (portFlags form i n)) ∧
      (0 < n → HasText st'.tmp TMP_LEN (portName i n)) := by
  induction n with
  | zero => exact ⟨st, rfl, htmp, hempty, fun h => absurd h (by decide)⟩
  | succ n ih =>
    rw [portFlags_succ] at hflags ⊢
    have hbefore := fun f hf => hflags f (List.mem_append_left _ hf)
    obtain ⟨st', hrun, hsize, htext, -⟩ := ih (by omega)
      (fun j hj => hname j (by omega)) hbefore
    have hflag := hflags _ (List.mem_append_right _ List.mem_cons_self)
    obtain ⟨mem, hcat, hmem⟩ := htext.strcat (s := portFlag form i (n + 1))
      (by rw [concat_flags_len hbefore, hflag.len]; exact hn)
    refine ⟨⟨printTo st'.tmp (portName i (n + 1)), mem⟩, ?_, ?_, ?_, ?_⟩
    · rw [gatherPorts, hrun, Option.bind_some, hcat]
      rfl
    · exact printTo_length hsize (by decide) _
    · rw [CStr.concat_append, CStr.concat_singleton]
      exact hmem
    · exact fun _ => .printTo hsize (hname _ le_rfl)

end

/-! ## The rotation and the entries behind the ports -/

/-- The last element comes first. -/
def lastFirst (l : List UInt8) : List UInt8 := l.drop (l.length - 1) ++ l.take (l.length - 1)

theorem mem_lastFirst {l : List UInt8} {b : UInt8} : b ∈ lastFirst l ↔ b ∈ l := by
  rw [lastFirst, List.mem_append, or_comm, ← List.mem_append, List.take_append_drop]

theorem lastFirst_length (l : List UInt8) : (lastFirst l).length = l.length := by
  simp only [lastFirst, List.length_append, List.length_drop, List.length_take]
  omega

section
variable {st st' : VlanRoom} {t : CStr} {num max : ℤ} {orig : CStr} {pm pm' : List UInt8}

theorem rotatePorts_length (hsize : st.tmp.length = TMP_LEN) (hlen : st.portmember.length < TMP_LEN)
    (h : rotatePorts num st = some st') :
    st'.tmp.length = TMP_LEN ∧ st'.portmember.length = st.portmember.length := by
  rw [rotatePorts, Option.bind_eq_some_iff] at h
  obtain ⟨b, hb, h⟩ := h
  obtain ⟨portmember, hcopy, hlast⟩ := Option.map_eq_some_iff.mp h
  cases hlast
  have hin := (List.getElem?_eq_some_iff.mp hb).1
  refine ⟨?_, strcpy_length hcopy⟩
  dsimp only
  rw [poke_length, hsize]
  rw [List.length_cons, List.length_take, hsize]
  omega

/-- The flags are rotated; the name that was in `tmp` comes behind them. -/
theorem rotatePorts_run {name : CStr} (hpm : HasText st.portmember SHORT_BUF_LEN t)
    (hnum : num = t.len) (htmp : st.tmp.length = TMP_LEN)
    (hname : 0 < t.len → HasText st.tmp TMP_LEN name ∧ t.len ≤ name.len ∧ name.len < SHORT_BUF_LEN) :
    ∃ st', rotatePorts num st = some st' ∧ st'.tmp.length = TMP_LEN ∧
      st'.portmember.length = SHORT_BUF_LEN ∧ st'.portmember.take t.len = lastFirst t.val := by
  obtain ⟨rest, hrest⟩ := hpm.text
  by_cases hzero : t.len = 0
  · have ht : t.val = [] := List.length_eq_zero_iff.mp hzero
    have hfirst : st.portmember[(num - 1).toNat]? = some 0 := by
      rw [← hrest, CStr.stored, ht, hnum, hzero]
      rfl
    have htext : HasText (poke st.tmp 0 [0]) TMP_LEN CStr.empty := by
      refine ⟨?_, ?_⟩
      · rw [poke_length, htmp]
        rw [htmp]
        decide
      · rw [poke, List.take_zero, List.nil_append]
        exact List.prefix_append _ _
    obtain ⟨mem, hcopy, hmem⟩ := htext.strcpy hpm.length (by decide)
    refine ⟨⟨poke st.tmp 0 [0], mem⟩, ?_, htext.length, hmem.length, ?_⟩
    · have hlast : (num - 1).toNat = 0 := by omega
      rw [rotatePorts, hfirst, Option.bind_some, hlast, List.take_zero]
      dsimp only
      rw [hcopy]
      rfl
    · rw [hzero, ht]
      rfl
  · obtain ⟨hstored, hle, hlt⟩ := hname (Nat.pos_of_ne_zero hzero)
    obtain ⟨tail, htail⟩ := hstored.text
    have hlen : t.val.length = t.len := rfl
    have hlast : (num - 1).toNat = t.val.length - 1 := by omega
    obtain ⟨b, hb⟩ : ∃ b, t.val.drop (t.val.length - 1) = [b] :=
      List.length_eq_one_iff.mp (by rw [List.length_drop]; omega)
    have hin : t.val.length - 1 < t.val.length := by omega
    have hget : t.val[t.val.length - 1] = b := by
      rw [List.drop_eq_getElem_cons hin] at hb
      exact (List.cons.inj hb).1
    have hfirst : st.portmember[(num - 1).toNat]? = some b := by
      rw [← hrest, CStr.stored, hlast, List.append_assoc, List.getElem?_append_left hin,
        List.getElem?_eq_getElem hin, hget]
    have hfront : b :: st.portmember.take (num - 1).toNat = lastFirst t.val := by
      rw [← hrest, CStr.stored, hlast, List.append_assoc,
        List.take_append_of_le_length (by omega), lastFirst, hb]
      rfl
    have hne : (0 : UInt8) ∉ lastFirst t.val ++ name.val.drop t.len := by
      rw [List.mem_append, mem_lastFirst, not_or]
      exact ⟨t.property, fun h => name.property (List.mem_of_mem_drop h)⟩
    have htext : HasText (poke st.tmp 0 (lastFirst t.val)) TMP_LEN
        ⟨lastFirst t.val ++ name.val.drop t.len, hne⟩ := by
      refine ⟨?_, tail, ?_⟩
      · rw [poke_length, htmp]
        rw [lastFirst_length, htmp, hlen]
        exact Nat.le_trans (by omega) (show SHORT_BUF_LEN ≤ TMP_LEN by decide)
      · rw [poke, List.take_zero, List.nil_append, lastFirst_length, Nat.zero_add, hlen, ← htail,
          CStr.stored, CStr.stored, List.append_assoc, List.append_assoc, List.append_assoc,
          List.drop_append_of_le_length hle]
    have hroom : (lastFirst t.val ++ name.val.drop t.len).length < SHORT_BUF_LEN := by
      rw [List.length_append, lastFirst_length, List.length_drop]
      have hnlen : name.val.length = name.len := rfl
      omega
    obtain ⟨mem, hcopy, hmem⟩ := htext.strcpy hpm.length hroom
    refine ⟨⟨poke st.tmp 0 (lastFirst t.val), mem⟩, ?_, htext.length, hmem.length, ?_⟩
    · rw [rotatePorts, hfirst, Option.bind_some, hfront]
      dsimp only
      rw [hcopy]
      rfl
    · obtain ⟨more, hmore⟩ := hmem.text
      rw [← hmore, CStr.stored, List.append_assoc, List.append_assoc]
      exact List.take_left' (lastFirst_length _)

theorem restPorts_length : (restPorts num max orig).length = (max - num).toNat := by
  simp [restPorts]

theorem keepPorts_bounds (h : keepPorts num max orig pm = some pm') :
    0 ≤ num ∧ num < SHORT_BUF_LEN ∧ 0 ≤ max ∧ max < SHORT_BUF_LEN :=
  (Option.ite_none_right_eq_some.mp h).1

theorem keepPorts_length (hlen : pm.length = SHORT_BUF_LEN) (h : keepPorts num max orig pm = some pm') :
    pm'.length = SHORT_BUF_LEN := by
  obtain ⟨hbounds, hput⟩ := Option.ite_none_right_eq_some.mp h
  cases Option.some.inj hput
  have hinner : (poke pm num.toNat (restPorts num max orig)).length = SHORT_BUF_LEN := by
    rw [poke_length, hlen]
    rw [restPorts_length, hlen]
    omega
  rw [poke_length, hinner]
  rw [List.length_singleton, hinner]
  omega

/-- The text ends where it has to, at the latest. A text that is no shorter has the kept entries
behind its ports. -/
theorem keepPorts_text (hlen : pm.length = SHORT_BUF_LEN) (h : keepPorts num max orig pm = some pm') :
    (CStr.read pm').len ≤ max.toNat ∧
      (num ≤ max → (CStr.read pm').len = max.toNat →
        (CStr.read pm').val.drop num.toNat = restPorts num max orig) := by
  obtain ⟨hbounds, hput⟩ := Option.ite_none_right_eq_some.mp h
  cases Option.some.inj hput
  set mem := poke pm num.toNat (restPorts num max orig) with hmem
  have hsplit : poke mem max.toNat [0] = mem.take max.toNat ++ 0 :: mem.drop (max.toNat + 1) := by
    rw [poke, List.append_assoc]
    rfl
  have hread : CStr.read (poke mem max.toNat [0]) = CStr.read (mem.take max.toNat ++ [0]) := by
    rw [hsplit, List.append_cons, CStr.read_append_of_mem (by simp)]
  rw [hread]
  have hlt := CStr.read_len_lt (m := mem.take max.toNat ++ [0]) (by simp)
  rw [List.length_append, List.length_singleton] at hlt
  have htake : (mem.take max.toNat).length ≤ max.toNat := List.length_take_le _ _
  refine ⟨by omega, fun hle hfull => ?_⟩
  have hzero : (0 : UInt8) ∉ mem.take max.toNat := by
    intro hzero
    have hshort := CStr.read_len_lt hzero
    rw [← CStr.read_append_of_mem (r := [0]) hzero] at hshort
    omega
  have hval : (CStr.read (mem.take max.toNat ++ [0])).val = mem.take max.toNat := by
    rw [read_append_zero hzero]
  have hsize : max.toNat = num.toNat + (restPorts num max orig).length := by
    rw [restPorts_length]
    omega
  have hfront : (pm.take num.toNat).length = num.toNat := by
    rw [List.length_take, hlen]
    omega
  rw [hval, hmem, poke, hsize, List.take_left' (by rw [List.length_append, hfront]),
    List.drop_left' hfront]

/-- Flags and kept entries without a zero are the whole text. -/
theorem keepPorts_run {front : List UInt8} (hlen : pm.length = SHORT_BUF_LEN)
    (hfront : pm.take num.toNat = front) (hnum : 0 ≤ num) (hle : num ≤ max)
    (hmax : max < SHORT_BUF_LEN) (hzero : (0 : UInt8) ∉ front ++ restPorts num max orig) :
    ∃ pm', keepPorts num max orig pm = some pm' ∧
      HasText pm' SHORT_BUF_LEN ⟨front ++ restPorts num max orig, hzero⟩ := by
  obtain ⟨pm', hput⟩ : ∃ pm', keepPorts num max orig pm = some pm' :=
    ⟨_, if_pos ⟨hnum, by omega, by omega, hmax⟩⟩
  refine ⟨pm', hput, keepPorts_length hlen hput, ?_⟩
  obtain ⟨-, hval⟩ := Option.ite_none_right_eq_some.mp hput
  cases Option.some.inj hval
  have hflen : front.length = num.toNat := by
    rw [← hfront, List.length_take, hlen]
    omega
  have hsize : max.toNat = (front ++ restPorts num max orig).length := by
    rw [List.length_append, hflen, restPorts_length]
    omega
  rw [poke, poke, hfront, hsize, List.take_left' rfl]
  exact List.prefix_append _ _

end

/-! ## Rounds -/

section
variable {u : Unspecified} {form : Form} {nvram : Variables} {i n : ℕ} {st st' : VlanRoom}
  {buf buf' : CStr}

/-- The entries that are kept from the old rule. -/
def keptPorts (u : Unspecified) (nvram : Variables) (i : ℕ) : List UInt8 :=
  restPorts (vlanportNum nvram) (vlanportMax nvram)
    (vlanAttr u nvram "vlan_rule" i "portmember" SHORT_BUF_LEN)

/-- What every member text of a rule is like. -/
structure Member (u : Unspecified) (nvram : Variables) (i : ℕ) (member : CStr) : Prop where
  len : member.len ≤ (vlanportMax nvram).toNat
  rest : vlanportNum nvram ≤ vlanportMax nvram → member.len = (vlanportMax nvram).toNat →
    member.val.drop (vlanportNum nvram).toNat = keptPorts u nvram i

/-- The numbers of ports that a round goes through with. -/
structure PortBounds (nvram : Variables) : Prop where
  num_nonneg : 0 ≤ vlanportNum nvram
  num_lt : vlanportNum nvram < SHORT_BUF_LEN
  max_nonneg : 0 ≤ vlanportMax nvram
  max_lt : vlanportMax nvram < SHORT_BUF_LEN

/-- The buffers of a round. -/
structure VlanRoom.Sized (st : VlanRoom) : Prop where
  tmp : st.tmp.length = TMP_LEN
  portmember : st.portmember.length = SHORT_BUF_LEN

/-- A rule behind the others. -/
def addVlanRow (i : ℕ) (buf row : CStr) : CStr :=
  (if i = 0 then row else CStr.glue RULE_SEP RULE_SEP_ne buf row).take (LONG_BUF_LEN - 1)

theorem printNames_length {tmp : List UInt8} (h : tmp.length = TMP_LEN) :
    (["name", "enable", "vid"].foldl (fun tmp field => printTo tmp (rowName "vlan" i field))
      tmp).length = TMP_LEN := by
  have hpos : 0 < TMP_LEN := by decide
  exact printTo_length (printTo_length (printTo_length h hpos _) hpos _) hpos _

theorem vlanRound_spec (hst : st.Sized)
    (h : vlanRound u form nvram i buf st = some (st', buf')) :
    st'.Sized ∧ PortBounds nvram ∧ ∃ member, Member u nvram i member ∧
      buf' = addVlanRow i buf (vlanRow form i member) := by
  rw [vlanRound, Option.bind_eq_some_iff] at h
  obtain ⟨gathered, hgather, h⟩ := h
  rw [Option.bind_eq_some_iff] at h
  obtain ⟨turned, hturn, h⟩ := h
  obtain ⟨pm, hkeep, hlast⟩ := Option.map_eq_some_iff.mp h
  cases hlast
  obtain ⟨hgtmp, hgpm⟩ := gatherPorts_length (printNames_length hst.tmp) hgather
  have hgsize : gathered.portmember.length = SHORT_BUF_LEN := hgpm.trans hst.portmember
  have hturned : turned.tmp.length = TMP_LEN ∧ turned.portmember.length = SHORT_BUF_LEN := by
    split_ifs at hturn with hrot
    · obtain ⟨htmp, hpm⟩ := rotatePorts_length hgtmp (by rw [hgsize]; decide) hturn
      exact ⟨htmp, hpm.trans hgsize⟩
    · cases hturn
      exact ⟨hgtmp, hgsize⟩
  have hpm := keepPorts_length hturned.2 hkeep
  obtain ⟨hlen, hrest⟩ := keepPorts_text hturned.2 hkeep
  obtain ⟨h1, h2, h3, h4⟩ := keepPorts_bounds hkeep
  refine ⟨⟨hturned.1, ?_⟩, ⟨h1, h2, h3, h4⟩, CStr.read pm, ⟨hlen, hrest⟩, rfl⟩
  dsimp only
  rw [poke_length, hpm]
  rw [hpm]
  decide

/-- The flags as they are stored. -/
def storedFlags (form : Form) (nvram : Variables) (i : ℕ) : List UInt8 :=
  let flags := (CStr.concat (portFlags form i (vlanportNum nvram).toNat)).val
  if rotated nvram then lastFirst flags else flags

/-- The member text of a rule. -/
def memberText (u : Unspecified) (form : Form) (nvram : Variables) (i : ℕ) : CStr :=
  CStr.read (storedFlags form nvram i ++ keptPorts u nvram i)

/-- The flags of a rule are flags, and so are its old entries. -/
structure RuleFits (u : Unspecified) (form : Form) (nvram : Variables) (i : ℕ) : Prop where
  flags : ∀ f ∈ portFlags form i (vlanportNum nvram).toNat, IsFlag f
  rest : ∀ b ∈ keptPorts u nvram i, IsFlagByte b

/-- The ports that the page shows, and those that a rule has. -/
structure PortsFit (nvram : Variables) : Prop where
  num_nonneg : 0 ≤ vlanportNum nvram
  num_shown : vlanportNum nvram ≤ VLAN_PORT_MAX
  num_le : vlanportNum nvram ≤ vlanportMax nvram
  max_lt : vlanportMax nvram < SHORT_BUF_LEN

theorem mem_concat {b : UInt8} {ws : List CStr} (h : b ∈ (CStr.concat ws).val) :
    ∃ w ∈ ws, b ∈ w.val := by
  by_contra hno
  push Not at hno
  exact CStr.notMem_concat hno h

theorem RuleFits.flagByte (h : RuleFits u form nvram i) :
    ∀ b ∈ storedFlags form nvram i, IsFlagByte b := by
  intro b hb
  have hflags : b ∈ (CStr.concat (portFlags form i (vlanportNum nvram).toNat)).val := by
    unfold storedFlags at hb
    split_ifs at hb
    · exact mem_lastFirst.mp hb
    · exact hb
  obtain ⟨f, hf, hbf⟩ := mem_concat hflags
  obtain ⟨b', hb', hval⟩ := (h.flags f hf).val
  rw [hval, List.mem_singleton] at hbf
  exact hbf ▸ hb'

theorem RuleFits.zero_notMem (h : RuleFits u form nvram i) :
    (0 : UInt8) ∉ storedFlags form nvram i ++ keptPorts u nvram i := by
  intro hzero
  rcases List.mem_append.mp hzero with hzero | hzero
  · exact (h.flagByte 0 hzero).ne_zero rfl
  · exact (h.rest 0 hzero).ne_zero rfl

theorem RuleFits.memberText_val (h : RuleFits u form nvram i) :
    (memberText u form nvram i).val = storedFlags form nvram i ++ keptPorts u nvram i := by
  rw [memberText, CStr.read_of_free h.zero_notMem]

theorem RuleFits.storedFlags_length (h : RuleFits u form nvram i) :
    (storedFlags form nvram i).length = (vlanportNum nvram).toNat := by
  have hlen : (CStr.concat (portFlags form i (vlanportNum nvram).toNat)).val.length =
      (vlanportNum nvram).toNat := concat_flags_len h.flags
  unfold storedFlags
  split_ifs
  · rw [lastFirst_length, hlen]
  · exact hlen

theorem decimal_len_le {k : ℕ} (h : n < 10 ^ (k + 1)) : (decimal n).len ≤ k + 1 := by
  change (decimal n).val.length ≤ k + 1
  rw [decimal_val]
  exact numeral_length_le h

/-- The name of a flag, which `tmp` holds, is longer than the flags and fits the text. -/
theorem portName_len {j : ℕ} (hi : i < 10 ^ 4) (hj : j ≤ VLAN_PORT_MAX) :
    VLAN_PORT_MAX ≤ (portName i j).len ∧ (portName i j).len < SHORT_BUF_LEN := by
  have hrule : (CStr.ofString ("vlan" ++ "_rule")).len = 9 := by decide
  have hport : (CStr.ofString ("_" ++ "p")).len = 2 := by decide
  have hshort : VLAN_PORT_MAX < 10 ^ 1 := by decide
  have hilen := decimal_len_le (k := 3) hi
  have hjlen := decimal_len_le (k := 0) (Nat.lt_of_le_of_lt hj hshort)
  simp only [portName, rowName, CStr.append_len, hrule, hport, VLAN_PORT_MAX, SHORT_BUF_LEN]
  omega

/-- A round with flags goes through, and leaves the member text. -/
theorem vlanRound_run (hports : PortsFit nvram) (hi : i < 10 ^ 4) (h : RuleFits u form nvram i)
    (htmp : st.tmp.length = TMP_LEN) (hpm : HasText st.portmember SHORT_BUF_LEN CStr.empty) :
    ∃ st', vlanRound u form nvram i buf st =
        some (st', addVlanRow i buf (vlanRow form i (memberText u form nvram i))) ∧
      st'.tmp.length = TMP_LEN ∧ HasText st'.portmember SHORT_BUF_LEN CStr.empty := by
  obtain ⟨hnonneg, hshown, hle, hlt⟩ := hports
  have hnum : (vlanportNum nvram).toNat ≤ VLAN_PORT_MAX := by omega
  have hsmall : VLAN_PORT_MAX < SHORT_BUF_LEN := by decide
  have hshort : SHORT_BUF_LEN < TMP_LEN := by decide
  have hnames : (VlanRoom.mk (["name", "enable", "vid"].foldl
      (fun tmp field => printTo tmp (rowName "vlan" i field)) st.tmp) st.portmember).tmp.length =
      TMP_LEN := printNames_length htmp
  obtain ⟨gathered, hgather, hgtmp, hgpm, hgname⟩ := gatherPorts_run hnames hpm
    (by omega : (vlanportNum nvram).toNat < _)
    (fun j hj => (portName_len hi (hj.trans hnum)).2.trans hshort) h.flags
  have hflen := concat_flags_len h.flags
  obtain ⟨turned, hturn, httmp, htlen, htake⟩ : ∃ turned,
      (if rotated nvram then rotatePorts (vlanportNum nvram) gathered else some gathered) =
        some turned ∧ turned.tmp.length = TMP_LEN ∧ turned.portmember.length = SHORT_BUF_LEN ∧
        turned.portmember.take (vlanportNum nvram).toNat = storedFlags form nvram i := by
    unfold storedFlags
    split_ifs with hrot
    · have hname : 0 < (CStr.concat (portFlags form i (vlanportNum nvram).toNat)).len →
          HasText gathered.tmp TMP_LEN (portName i (vlanportNum nvram).toNat) ∧
            (CStr.concat (portFlags form i (vlanportNum nvram).toNat)).len ≤
              (portName i (vlanportNum nvram).toNat).len ∧
            (portName i (vlanportNum nvram).toNat).len < SHORT_BUF_LEN := by
        rw [hflen]
        intro hpos
        obtain ⟨hlong, hfits⟩ := portName_len hi hnum
        exact ⟨hgname hpos, hnum.trans hlong, hfits⟩
      have hsame : vlanportNum nvram =
          (CStr.concat (portFlags form i (vlanportNum nvram).toNat)).len := by
        rw [hflen]
        omega
      obtain ⟨turned, hrun, htmp', hlen', htake'⟩ := rotatePorts_run hgpm hsame hgtmp hname
      rw [hflen] at htake'
      exact ⟨turned, hrun, htmp', hlen', htake'⟩
    · obtain ⟨rest, hrest⟩ := hgpm.text
      refine ⟨gathered, rfl, hgtmp, hgpm.length, ?_⟩
      rw [← hrest, CStr.stored, List.append_assoc]
      exact List.take_left' hflen
  obtain ⟨pm, hkeep, hmem⟩ := keepPorts_run htlen htake hnonneg hle hlt h.zero_notMem
  have hmember : CStr.read pm = memberText u form nvram i := by
    rw [hmem.read]
    exact Subtype.ext h.memberText_val.symm
  refine ⟨⟨turned.tmp, poke pm 0 [0]⟩, ?_, httmp, ?_, ?_⟩
  · rw [vlanRound, hgather, Option.bind_some, hturn, Option.bind_some, hkeep, Option.map_some,
      hmember]
    rfl
  · rw [poke_length, hmem.length]
    rw [hmem.length]
    decide
  · rw [poke, List.take_zero, List.nil_append]
    exact List.prefix_append _ _

end

end EzpFirmware.Httpd
