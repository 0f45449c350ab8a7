import EzpFirmware.Httpd.VlanPages
import EzpFirmware.UserNvram.RuleEdits

/-! # Rules on the page of the virtual networks

The rotation is undone, and each rule becomes a row with its flags, if the buffer
of the row starts empty. The script of the page is longer than the text it is
made of, by what quotes and brackets take.
-/
namespace EzpFirmware.Httpd
open Lib UserNvram

/-! ## A rule on the page -/

section
variable {u : Unspecified} {form : Form} {nvram : Variables} {i n : ℕ} {port : List UInt8}

theorem map_flagText {n : ℕ} (h : ∀ f ∈ portFlags form i n, IsFlag f) :
    (CStr.concat (portFlags form i n)).val.map (fun b => flagText (b = CHAR_1)) =
      portFlags form i n := by
  induction n with
  | zero => rfl
  | succ n ih =>
    rw [portFlags_succ] at h ⊢
    have hlast := h _ (List.mem_append_right _ List.mem_cons_self)
    rw [CStr.concat_append, CStr.concat_singleton, CStr.append]
    dsimp only
    rw [List.map_append, ih fun f hf => h f (List.mem_append_left _ hf)]
    refine congrArg (portFlags form i n ++ ·) ?_
    rcases hlast with hlast | hlast <;> rw [hlast] <;> decide

/-- A buffer that starts with the flags in order shows them. -/
theorem shownFlags_eq (hports : PortsFit nvram) (h : RuleFits u form nvram i)
    (htake : port.take (vlanportNum nvram).toNat =
      (CStr.concat (portFlags form i (vlanportNum nvram).toNat)).val) :
    shownFlags port = portFlags form i (vlanportNum nvram).toNat ++
      (shownFlags port).drop (vlanportNum nvram).toNat := by
  have hnum : (vlanportNum nvram).toNat ≤ VLAN_PORT_MAX := by
    have hshown := hports.num_shown
    omega
  have hfront : (shownFlags port).take (vlanportNum nvram).toNat =
      portFlags form i (vlanportNum nvram).toNat := by
    rw [shownFlags, ← List.map_take, List.take_take, min_eq_left hnum, htake, map_flagText h.flags]
  conv_lhs => rw [← List.take_append_drop (vlanportNum nvram).toNat (shownFlags port), hfront]

/-- The first byte goes behind the others again. -/
theorem lastFirst_back {flags : List UInt8} (hport : port.take flags.length = lastFirst flags)
    (hpos : flags.length ≠ 0) : (port.drop 1).take (flags.length - 1) ++ port.take 1 = flags := by
  have hsplit : port = lastFirst flags ++ port.drop flags.length := by
    rw [← hport, List.take_append_drop]
  have hone : (flags.drop (flags.length - 1)).length = 1 := by
    rw [List.length_drop]
    omega
  have hbefore : (flags.take (flags.length - 1)).length = flags.length - 1 := by
    rw [List.length_take]
    omega
  rw [hsplit, lastFirst, List.append_assoc, List.drop_left' hone, List.take_left' hbefore,
    List.take_left' hone, List.take_append_drop]

/-- The rotation is undone. -/
theorem unrotatePorts_run (hlen : port.length = SHORT_BUF_LEN) {flags : List UInt8}
    (hflags : (0 : UInt8) ∉ flags) (hshort : flags.length < SHORT_BUF_LEN)
    (hport : port.take flags.length = lastFirst flags) {num : ℤ} (hnum : num = flags.length) :
    ∃ port', unrotatePorts num port = some port' ∧ port'.length = SHORT_BUF_LEN ∧
      port'.take flags.length = flags := by
  have hsrc : HasText ((port.drop 1).take (num - 1).toNat ++ port.take 1 ++ [0]) _ _ :=
    .of_zero_mem rfl (by simp)
  have hroom : (CStr.read ((port.drop 1).take (num - 1).toNat ++ port.take 1 ++ [0])).len <
      SHORT_BUF_LEN := by
    have hlt := CStr.read_len_lt (m := (port.drop 1).take (num - 1).toNat ++ port.take 1 ++ [0])
      (by simp)
    simp only [List.length_append, List.length_take, List.length_drop, List.length_singleton,
      hlen] at hlt
    rw [SHORT_BUF_LEN] at *
    omega
  obtain ⟨port', hcopy, htext⟩ := hsrc.strcpy hlen hroom
  refine ⟨port', ?_, htext.length, ?_⟩
  · rw [unrotatePorts, if_pos (by rw [hlen]; omega)]
    exact hcopy
  · by_cases hzero : flags.length = 0
    · rw [List.length_eq_zero_iff.mp hzero]
      rfl
    · have hnum' : (num - 1).toNat = flags.length - 1 := by omega
      have hval : (CStr.read ((port.drop 1).take (num - 1).toNat ++ port.take 1 ++ [0])).val =
          flags := by
        rw [hnum', lastFirst_back hport hzero, read_append_zero hflags]
      obtain ⟨rest, hrest⟩ := htext.text
      rw [← hrest, CStr.stored, hval, List.append_assoc]
      exact List.take_left' rfl

end

section
variable {u : Unspecified} {form : Form} {nvram M : Variables} {i n : ℕ} {junk : ℕ → CStr}

/-- The length of a rule on the page, with the separator behind it. -/
def shownLen (form : Form) (nvram : Variables) (i : ℕ) : ℕ :=
  (vlanField form i "name").len + min (vlanField form i "enable").len (SHORT_BUF_LEN - 1) +
    min (vlanField form i "vid").len (SHORT_BUF_LEN - 1) + 9 + (2 * (wlvNum nvram + 2) - 1) + 5

/-- The length of a rule in the script of the page, with what separates it from the next one: a
quoted text for each attribute, each of the five ports and each network. -/
def webLen (form : Form) (nvram : Variables) (i : ℕ) : ℕ :=
  (vlanField form i "name").len + min (vlanField form i "enable").len (SHORT_BUF_LEN - 1) +
    min (vlanField form i "vid").len (SHORT_BUF_LEN - 1) + 17 + (4 * (wlvNum nvram + 2) - 3) +
      4 * 3 + 5

/-- A row of the page for a rule of the form. -/
structure RowOf (form : Form) (nvram : Variables) (i : ℕ) (row : VlanShown) : Prop where
  name : row.name = vlanField form i "name"
  enable : row.enable = (vlanField form i "enable").take (SHORT_BUF_LEN - 1)
  vid : row.vid = (vlanField form i "vid").take (SHORT_BUF_LEN - 1)
  port : ∃ fs : List CStr, fs.length = VLAN_PORT_MAX ∧ (∀ f ∈ fs, IsFlag f) ∧
    row.port = CStr.join ATTR_SEP ATTR_SEP_ne fs
  ifnames : ∃ fs : List CStr, fs.length = wlvNum nvram + 2 ∧ (∀ f ∈ fs, IsFlag f) ∧
    row.ifnames = CStr.join ATTR_SEP ATTR_SEP_ne fs

/-- Rules that were built from a valid form without a percent sign in a name. -/
structure Stored (u : Unspecified) (form : Form) (nvram : Variables) (n : ℕ) : Prop where
  ports : PortsFit nvram
  rules : RulesFit u form nvram n
  valid : ∀ i < n, ValidFields form i
  plain : ∀ i < n, PERCENT ∉ (vlanField form i "name").val

theorem Stored.flagText (h : Stored u form nvram n) :
    ∀ i < n, FlagText (memberText u form nvram i) := by
  intro i hi
  have hlt := h.ports.max_lt
  refine ⟨fun b hb => ?_, ?_⟩
  · rw [(h.rules.rule i hi).memberText_val] at hb
    rcases List.mem_append.mp hb with hb | hb
    · exact (h.rules.rule i hi).flagByte b hb
    · exact (h.rules.rule i hi).rest b hb
  · have hpos : 0 < SHORT_BUF_LEN := by decide
    rw [(h.rules.rule i hi).memberText_len h.ports]
    omega

/-- The text that is stored. -/
def storedText (u : Unspecified) (form : Form) (nvram : Variables) (n : ℕ) : CStr :=
  vlanText form (memberText u form nvram) n

theorem storedText_ne (u : Unspecified) (form : Form) (nvram : Variables) (hn : 0 < n) :
    storedText u form nvram n ≠ CStr.empty := vlanText_ne hn

theorem Stored.text_len (h : Stored u form nvram n) (hn : 0 < n) :
    (storedText u form nvram n).len < LONG_BUF_LEN := by
  have hroom := h.rules.room
  rw [← vlanText_len hn fun i hi => (h.rules.rule i hi).memberText_len h.ports] at hroom
  exact Nat.lt_of_succ_le hroom

/-- What the page finds in a field of a rule that was built. -/
theorem Stored.attr (h : Stored u form nvram n) (hM : Rereads nvram M (storedText u form nvram n))
    (hi : i < n) (type : String) (value : CStr) (hmem : (type, value) ∈
      [("name", vlanField form i "name"), ("enable", vlanField form i "enable"),
        ("vid", vlanField form i "vid"), ("portmember", memberText u form nvram i)]) :
    vlanAttr u M "vlan_rule" i type SHORT_BUF_LEN = value.take (SHORT_BUF_LEN - 1) :=
  vlanAttr_saved hM.rule hi h.valid h.flagText (h.plain i hi) (h.text_len (Nat.zero_lt_of_lt hi))
    hmem

/-- The buffer of the page with the flags of a rule. -/
def memberBuf (u : Unspecified) (form : Form) (nvram : Variables) (i : ℕ) : List UInt8 :=
  (memberText u form nvram i).val ++
    List.replicate (SHORT_BUF_LEN - (memberText u form nvram i).len) 0

theorem Stored.memberBuf_length (h : Stored u form nvram n) (hi : i < n) :
    (memberBuf u form nvram i).length = SHORT_BUF_LEN := by
  have hlt := (h.flagText i hi).len
  rw [memberBuf, List.length_append, List.length_replicate]
  change (memberText u form nvram i).len + _ = _
  omega

/-- The flags are turned back to the order of the form. -/
theorem Stored.turned (h : Stored u form nvram n) (hi : i < n) : ∃ port,
    (if rotated nvram then unrotatePorts (vlanportNum nvram) (memberBuf u form nvram i)
      else some (memberBuf u form nvram i)) = some port ∧
    port.length = SHORT_BUF_LEN ∧ port.take (vlanportNum nvram).toNat =
      (CStr.concat (portFlags form i (vlanportNum nvram).toNat)).val := by
  have hrule := h.rules.rule i hi
  have hlen := h.memberBuf_length hi
  have hstored : (memberBuf u form nvram i).take (vlanportNum nvram).toNat =
      storedFlags form nvram i := by
    rw [memberBuf, hrule.memberText_val, List.append_assoc]
    exact List.take_left' hrule.storedFlags_length
  have hflen : (CStr.concat (portFlags form i (vlanportNum nvram).toNat)).val.length =
      (vlanportNum nvram).toNat := concat_flags_len hrule.flags
  unfold storedFlags at hstored
  split_ifs at hstored ⊢ with hrot
  · have hnum : vlanportNum nvram = (vlanportNum nvram).toNat ∧
        (vlanportNum nvram).toNat < SHORT_BUF_LEN := by
      obtain ⟨h1, -, h3, h4⟩ := h.ports
      have hpos : 0 < SHORT_BUF_LEN := by decide
      omega
    have hsame : vlanportNum nvram =
        (CStr.concat (portFlags form i (vlanportNum nvram).toNat)).val.length := by
      rw [hflen]
      exact hnum.1
    obtain ⟨port, hrun, hplen, htake⟩ := unrotatePorts_run hlen
      (CStr.concat (portFlags form i (vlanportNum nvram).toNat)).property
      (by rw [hflen]; exact hnum.2) (by rw [hflen]; exact hstored) hsame
    rw [hflen] at htake
    exact ⟨port, hrun, hplen, htake⟩
  · exact ⟨memberBuf u form nvram i, rfl, hlen, hstored⟩

/-- A round of the page for a rule that was built. -/
theorem Stored.round (h : Stored u form nvram n)
    (hM : Rereads nvram M (storedText u form nvram n)) (hi : i < n) : ∃ port,
    port.length = SHORT_BUF_LEN ∧
    shownFlags port = portFlags form i (vlanportNum nvram).toNat ++
      (shownFlags port).drop (vlanportNum nvram).toNat ∧
    vlanShowRound u M junk i =
      (vlanPortTrans (junk i) port).bind fun port =>
        (vlanIfnamesTrans M
          (vlanAttr u M "br_rule" i "ifnames"
            TMP_LEN)).map fun ifnames =>
          ⟨vlanField form i "name", (vlanField form i "enable").take (SHORT_BUF_LEN - 1),
            (vlanField form i "vid").take (SHORT_BUF_LEN - 1), CStr.read port, ifnames⟩ := by
  have hname := h.attr hM hi "name" (vlanField form i "name") (by simp)
  have henable := h.attr hM hi "enable" (vlanField form i "enable") (by simp)
  have hvid := h.attr hM hi "vid" (vlanField form i "vid") (by simp)
  have hport := h.attr hM hi "portmember" (memberText u form nvram i) (by simp)
  rw [take_of_len_le (Nat.le_sub_one_of_lt (h.valid i hi).name_len)] at hname
  rw [take_of_len_le (Nat.le_sub_one_of_lt (h.flagText i hi).len)] at hport
  obtain ⟨port, hturn, hplen, htake⟩ := h.turned hi
  refine ⟨port, hplen, shownFlags_eq h.ports (h.rules.rule i hi) htake, ?_⟩
  unfold vlanShowRound
  dsimp only
  rw [hM.rotated, hM.vlanportNum, hport, hname, henable, hvid, ← memberBuf, hturn,
    Option.bind_some]

/-- The flags of a rule are shown in their order, with flags behind them. -/
def ShowsFlags (form : Form) (nvram : Variables) (i : ℕ) (row : VlanShown) : Prop :=
  ∃ rest, (∀ f ∈ rest, IsFlag f) ∧
    (portFlags form i (vlanportNum nvram).toNat ++ rest).length = VLAN_PORT_MAX ∧
    row.port = CStr.join ATTR_SEP ATTR_SEP_ne
      (portFlags form i (vlanportNum nvram).toNat ++ rest)

theorem Rereads.wlvNum {buf : CStr} (h : Rereads nvram M buf) : wlvNum M = wlvNum nvram := by
  rw [Httpd.wlvNum, Httpd.wlvNum, h.networks]

theorem shownFlags_join_len {port : List UInt8} (h : port.length = SHORT_BUF_LEN) :
    (CStr.join ATTR_SEP ATTR_SEP_ne (shownFlags port)).len = 9 := by
  have hfive := shownFlags_length h
  have hne : shownFlags port ≠ [] := fun hnil => by
    rw [hnil] at hfive
    cases hfive
  have hlen := flags_join_len hne shownFlags_flag
  rw [hfive, VLAN_PORT_MAX] at hlen
  omega

theorem take_len_min (s : CStr) (k : ℕ) : (s.take k).len = min s.len k := by
  rw [min_comm]
  exact List.length_take

theorem RowOf.text_len {row : VlanShown} (h : RowOf form nvram i row) :
    row.text.len + 1 = shownLen form nvram i := by
  obtain ⟨ps, hplen, hpflags, hport⟩ := h.port
  obtain ⟨ns, hnlen, hnflags, hifnames⟩ := h.ifnames
  have hp := flags_join_len (List.ne_nil_of_length_pos (hplen ▸ (by decide))) hpflags
  have hn := flags_join_len (List.ne_nil_of_length_pos (by omega)) hnflags
  rw [← hport, hplen, VLAN_PORT_MAX] at hp
  rw [← hifnames, hnlen] at hn
  simp only [VlanShown.text, ruleText, CStr.join, CStr.glue_len, h.name, h.enable, h.vid,
    take_len_min, shownLen]
  omega

/-- What a row becomes in the script. -/
theorem RowOf.web_len {row : VlanShown} (h : RowOf form nvram i row) (hvalid : ValidFields form i) :
    (trans2web row.text).length + 5 = webLen form nvram i := by
  obtain ⟨ps, hplen, hpflags, hport⟩ := h.port
  obtain ⟨ns, hnlen, hnflags, hifnames⟩ := h.ifnames
  have hp := trans2web_flags (List.ne_nil_of_length_pos (hplen ▸ (by decide))) hpflags
  have hn := trans2web_flags (List.ne_nil_of_length_pos (by omega)) hnflags
  rw [← hport, hplen, VLAN_PORT_MAX] at hp
  rw [← hifnames, hnlen] at hn
  have hdigits {s : CStr} (hs : ∀ b ∈ s.val, isDigit b = true) (k : ℕ) :
      (trans2web (s.take k)).length = min s.len k := by
    have htake : ∀ b ∈ (s.take k).val, isDigit b = true := fun b hb =>
      hs b (List.mem_of_mem_take hb)
    rw [trans2web_plain ⟨digit_plain htake (by decide), digit_plain htake (by decide)⟩,
      take_len_min]
  have hsep : (webByte ATTR_SEP).length = 3 := by decide
  have hjoin := trans2web_join_length ATTR_SEP_ne (List.cons_ne_nil (vlanField form i "name")
    [(vlanField form i "enable").take (SHORT_BUF_LEN - 1),
      (vlanField form i "vid").take (SHORT_BUF_LEN - 1), row.port, row.ifnames])
  rw [hsep] at hjoin
  simp only [List.map_cons, List.map_nil, List.sum_cons, List.sum_nil] at hjoin
  rw [trans2web_plain hvalid.name, hdigits hvalid.enable, hdigits hvalid.vid] at hjoin
  rw [VlanShown.text, ruleText, h.name, h.enable, h.vid, webLen]
  omega

/-- A buffer that is empty shows the flags. -/
theorem Stored.round_run (h : Stored u form nvram n)
    (hM : Rereads nvram M (storedText u form nvram n)) (hi : i < n) (hjunk : junk i = CStr.empty)
    (hifnames : 2 * (wlvNum nvram + 2) < TMP_LEN) :
    ∃ row, vlanShowRound u M junk i = some row ∧ ShowsFlags form nvram i row ∧
      RowOf form nvram i row := by
  obtain ⟨port, hlen, hflags, hround⟩ := @Stored.round u form nvram M i n junk h hM hi
  obtain ⟨port', htrans⟩ := vlanPortTrans_run hlen
  obtain ⟨ifnames, hshown⟩ := Option.isSome_iff_exists.mp
    ((vlanIfnamesTrans_isSome_iff M (vlanAttr u M "br_rule" i "ifnames" TMP_LEN)).mpr
      (by rwa [hM.wlvNum]))
  have hread := vlanPortTrans_spec hlen htrans
  rw [CStr.empty_append] at hread
  obtain ⟨ns, hnlen, hnflags, hnames⟩ := vlanIfnamesTrans_spec hshown
  rw [hM.wlvNum] at hnlen
  rw [hjunk, htrans, Option.bind_some, hshown, Option.map_some] at hround
  refine ⟨_, hround, ⟨(shownFlags port).drop (vlanportNum nvram).toNat,
    fun f hf => shownFlags_flag f (List.mem_of_mem_drop hf), ?_, ?_⟩,
    ⟨rfl, rfl, rfl, ⟨_, shownFlags_length hlen, shownFlags_flag, hread⟩,
      ⟨ns, hnlen, hnflags, hnames⟩⟩⟩
  · rw [← hflags, shownFlags_length hlen]
  · rw [← hflags]
    exact hread

/-- Only such a buffer does. -/
theorem Stored.round_spec (h : Stored u form nvram n)
    (hM : Rereads nvram M (storedText u form nvram n)) (hi : i < n) {row : VlanShown}
    (hround : vlanShowRound u M junk i = some row) (hshows : ShowsFlags form nvram i row) :
    junk i = CStr.empty ∧ 2 * (wlvNum nvram + 2) < TMP_LEN ∧ RowOf form nvram i row := by
  obtain ⟨port, hlen, hflags, hrun⟩ := @Stored.round u form nvram M i n junk h hM hi
  rw [hround] at hrun
  obtain ⟨port', htrans, hrun⟩ := Option.bind_eq_some_iff.mp hrun.symm
  obtain ⟨ifnames, hshown, hrow⟩ := Option.map_eq_some_iff.mp hrun
  subst hrow
  obtain ⟨rest, hrest, hfive, hport⟩ := hshows
  have hread := vlanPortTrans_spec hlen htrans
  have hall : ∀ f ∈ portFlags form i (vlanportNum nvram).toNat ++ rest, IsFlag f := fun f hf =>
    (List.mem_append.mp hf).elim ((h.rules.rule i hi).flags f) (hrest f)
  have hnine : (CStr.read port').len = 9 := by
    dsimp only at hport
    have hjoin := flags_join_len (fun hnil => by rw [hnil] at hfive; cases hfive) hall
    rw [hfive, VLAN_PORT_MAX, ← hport] at hjoin
    omega
  obtain ⟨ns, hnlen, hnflags, hnames⟩ := vlanIfnamesTrans_spec hshown
  rw [hM.wlvNum] at hnlen
  refine ⟨?_, ?_, ⟨rfl, rfl, rfl, ⟨_, hfive, hall, hport⟩, ⟨ns, hnlen, hnflags, hnames⟩⟩⟩
  · have hlens := hnine
    rw [hread, CStr.append_len, shownFlags_join_len hlen] at hlens
    exact Subtype.ext (List.length_eq_zero_iff.mp (by change (junk i).len = 0; omega))
  · have hsome := (vlanIfnamesTrans_isSome_iff _ _).mp (Option.isSome_iff_exists.mpr ⟨_, hshown⟩)
    rwa [hM.wlvNum] at hsome

/-- The buffers of the page have room, and `vlan_port_trans` finds nothing in its own. Nothing is
written behind the last rule of the script. -/
structure ShownFits (form : Form) (nvram : Variables) (n : ℕ) (junk : ℕ → CStr) : Prop where
  junk : ∀ i < n, junk i = CStr.empty
  ifnames : 2 * (wlvNum nvram + 2) < TMP_LEN
  room : ((List.range n).map (webLen form nvram)).sum < LONG_BUF_LEN + 5

theorem sum_range_succ (f : ℕ → ℕ) (k : ℕ) :
    ((List.range (k + 1)).map f).sum = ((List.range k).map f).sum + f k := by
  rw [List.range_succ, List.map_append, List.sum_append]
  simp

theorem sum_range_le (f : ℕ → ℕ) {k n : ℕ} (h : k ≤ n) :
    ((List.range k).map f).sum ≤ ((List.range n).map f).sum := by
  induction n, h using Nat.le_induction with
  | base => exact le_rfl
  | succ n _ ih =>
    rw [sum_range_succ]
    omega

/-- The script is longer than the text it is made of. -/
theorem shownLen_sum_le (form : Form) (nvram : Variables) (n : ℕ) :
    ((List.range n).map (shownLen form nvram)).sum + 22 * n ≤
      ((List.range n).map (webLen form nvram)).sum := by
  induction n with
  | zero => exact le_rfl
  | succ n ih =>
    have hrule : shownLen form nvram n + 22 ≤ webLen form nvram n := by
      rw [shownLen, webLen]
      omega
    rw [sum_range_succ, sum_range_succ]
    omega

/-- The rows of the page for the first rules of the form. -/
def RowsOf (form : Form) (nvram : Variables) (k : ℕ) (rows : List VlanShown) : Prop :=
  rows.length = k ∧ ∀ i < k, ∃ row, rows[i]? = some row ∧ RowOf form nvram i row

theorem RowsOf.concat {k : ℕ} {rows : List VlanShown} {row : VlanShown}
    (h : RowsOf form nvram k rows) (hrow : RowOf form nvram k row) :
    RowsOf form nvram (k + 1) (rows ++ [row]) := by
  obtain ⟨hlength, hrows⟩ := h
  refine ⟨by rw [List.length_append, hlength]; rfl, fun i hi => ?_⟩
  rcases Nat.lt_succ_iff_lt_or_eq.mp hi with hi | rfl
  · rw [List.getElem?_append_left (by omega)]
    exact hrows i hi
  · exact ⟨row, by rw [← hlength, List.getElem?_concat_length], hrow⟩

/-- The length of the script for such rows. -/
theorem RowsOf.web_len {rows : List VlanShown} (h : RowsOf form nvram n rows) (hn : 0 < n)
    (hvalid : ∀ i < n, ValidFields form i) :
    (trans2web (CStr.join RULE_SEP RULE_SEP_ne (rows.map VlanShown.text))).length + 5 =
      ((List.range n).map (webLen form nvram)).sum := by
  obtain ⟨hlength, hrows⟩ := h
  have hsep : (webByte RULE_SEP).length = 5 := by decide
  have hne : rows.map VlanShown.text ≠ [] :=
    List.ne_nil_of_length_pos (by rw [List.length_map]; omega)
  have hjoin := trans2web_join_length RULE_SEP_ne hne
  rw [hsep, List.map_map] at hjoin
  rw [hjoin]
  congr 1
  apply List.ext_getElem?
  intro i
  by_cases hi : i < n
  · obtain ⟨row, hget, hrow⟩ := hrows i hi
    rw [List.getElem?_map, hget, List.getElem?_map, List.getElem?_range hi]
    exact congrArg some (hrow.web_len (hvalid i hi))
  · rw [List.getElem?_eq_none (by rw [List.length_map]; omega),
      List.getElem?_eq_none (by rw [List.length_map, List.length_range]; omega)]

theorem Stored.rounds_run (h : Stored u form nvram n)
    (hM : Rereads nvram M (storedText u form nvram n)) (hfits : ShownFits form nvram n junk) {k : ℕ}
    (hk : k ≤ n) : ∃ rows,
      vlanShowRounds u M junk k =
        some (rows, ((List.range k).map (shownLen form nvram)).sum) ∧ RowsOf form nvram k rows ∧
      ∀ i < k, ∃ row, rows[i]? = some row ∧ ShowsFlags form nvram i row := by
  induction k with
  | zero =>
    exact ⟨[], rfl, ⟨rfl, fun i hi => absurd hi (Nat.not_lt_zero i)⟩,
      fun i hi => absurd hi (Nat.not_lt_zero i)⟩
  | succ k ih =>
    obtain ⟨rows, hrows, hof, hshows⟩ := ih (by omega)
    obtain ⟨row, hround, hrow, hrowOf⟩ := h.round_run hM (by omega) (hfits.junk k (by omega))
      hfits.ifnames
    have hroom := hfits.room
    have hweb := shownLen_sum_le form nvram n
    have hle := sum_range_le (shownLen form nvram) hk
    rw [sum_range_succ] at hle
    refine ⟨rows ++ [row], ?_, hof.concat hrowOf, fun i hi => ?_⟩
    · rw [vlanShowRounds, hrows, Option.bind_some, hround, Option.bind_some, Nat.add_assoc,
        hrowOf.text_len, if_pos (by omega), sum_range_succ]
    · rcases Nat.lt_succ_iff_lt_or_eq.mp hi with hi | rfl
      · rw [List.getElem?_append_left (by rw [hof.1]; exact hi)]
        exact hshows i hi
      · exact ⟨row, by rw [← hof.1, List.getElem?_concat_length], hrow⟩

theorem vlanShowRounds_length {k total : ℕ} {rows : List VlanShown}
    (h : vlanShowRounds u nvram junk k = some (rows, total)) : rows.length = k := by
  induction k generalizing rows total with
  | zero =>
    cases h
    rfl
  | succ k ih =>
    rw [vlanShowRounds, Option.bind_eq_some_iff] at h
    obtain ⟨⟨before, sum⟩, hbefore, h⟩ := h
    obtain ⟨row, -, h⟩ := Option.bind_eq_some_iff.mp h
    obtain ⟨-, hlast⟩ := Option.ite_none_right_eq_some.mp h
    cases Option.some.inj hlast
    rw [List.length_append, ih hbefore]
    rfl

theorem Stored.rounds_spec (h : Stored u form nvram n)
    (hM : Rereads nvram M (storedText u form nvram n)) {k : ℕ} (hk : k ≤ n)
    {rows : List VlanShown} {total : ℕ} (hrun : vlanShowRounds u M junk k = some (rows, total))
    (hshows : ∀ i < k, ∃ row, rows[i]? = some row ∧ ShowsFlags form nvram i row) :
    RowsOf form nvram k rows ∧ (∀ i < k, junk i = CStr.empty) ∧
      (0 < k → 2 * (wlvNum nvram + 2) < TMP_LEN) := by
  induction k generalizing rows total with
  | zero =>
    cases hrun
    exact ⟨⟨rfl, fun i hi => absurd hi (Nat.not_lt_zero i)⟩,
      fun i hi => absurd hi (Nat.not_lt_zero i), fun h => absurd h (by decide)⟩
  | succ k ih =>
    rw [vlanShowRounds, Option.bind_eq_some_iff] at hrun
    obtain ⟨⟨before, sum⟩, hbefore, hrun⟩ := hrun
    obtain ⟨row, hround, hrun⟩ := Option.bind_eq_some_iff.mp hrun
    obtain ⟨-, hlast⟩ := Option.ite_none_right_eq_some.mp hrun
    cases Option.some.inj hlast
    dsimp only at hshows
    have hbeforeLen := vlanShowRounds_length hbefore
    obtain ⟨hof, hjunk, -⟩ := ih (by omega) hbefore fun i hi => by
      obtain ⟨row', hget, hrow'⟩ := hshows i (Nat.lt_succ_of_lt hi)
      rw [List.getElem?_append_left (by omega)] at hget
      exact ⟨row', hget, hrow'⟩
    obtain ⟨row', hget, hrow'⟩ := hshows k (Nat.lt_succ_self k)
    rw [← hbeforeLen, List.getElem?_concat_length] at hget
    cases Option.some.inj hget
    obtain ⟨hempty, hifnames, hrowOf⟩ := h.round_spec hM (by omega) hround hrow'
    refine ⟨hof.concat hrowOf, fun i hi => ?_, fun _ => hifnames⟩
    rcases Nat.lt_succ_iff_lt_or_eq.mp hi with hi | rfl
    · exact hjunk i hi
    · exact hempty

end

end EzpFirmware.Httpd
