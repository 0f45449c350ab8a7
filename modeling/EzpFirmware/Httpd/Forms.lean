import Mathlib.Data.List.Find
import EzpFirmware.Httpd.Cgi

/-! # A form on its own

What a form gives is known from its text alone, as long as every escape in it
is whole: two bytes of its assignment follow it, and they are a number. The
decoder then leaves alone what is behind the text, and the pointers it makes are
those it would make for the text alone, moved to where the text is.
-/
namespace EzpFirmware.Httpd
open Lib

section
variable (L : Libc)

/-- Every escape that `unescape` meets is followed by two bytes from which a number is read. -/
def wholeEscapes : ℕ → List UInt8 → Bool
  | 0, _ => true
  | _ + 1, [] => true
  | n + 1, b :: s =>
    if b = 0 then true
    else if b = PERCENT then
      decide (2 ≤ (CStr.read s).len) && (L.sscanf (CStr.read s)).isSome &&
        wholeEscapes n (strncpy s (s.drop 2) ((CStr.read s).len + 1))
    else wholeEscapes n s

/-- The same for the loop of `init_cgi`. -/
def wholeAssignments (b : Buffer) (stop : ℕ) : ℕ → ℕ → Cgi → Bool
  | 0, _, _ => true
  | n + 1, q, c =>
    if q < stop then
      let s := (c.mem b).drop q
      let r := assignCgi L 0 b stop q c
      wholeEscapes L s.length s && wholeAssignments b stop n r.1 r.2
    else true

/-- A process that has nothing but a text. -/
def alone (text : CStr) : Cgi := ⟨text.stored, [], none⟩

/-- Where the text is. -/
def start : Ptr := ⟨.post, 0⟩

/-- The variables of a text on its own. -/
def formOf (text : CStr) : Form := getCgi L (initCgi L 0 (some start) (alone text))

/-- Every escape of a text is whole. -/
def Whole (text : CStr) : Prop :=
  wholeAssignments L .post text.len text.len 0 (openCgi L start (alone text)) = true

end

/-! ## Decoding in place -/

section
variable {L : Libc} {s rest : List UInt8}

/-- The byte region ends in a terminator. -/
def Terminated (s : List UInt8) : Prop := s.getLast? = some 0

theorem Terminated.mem (h : Terminated s) : (0 : UInt8) ∈ s := List.mem_of_getLast? h

theorem Terminated.tail {b : UInt8} (h : Terminated (b :: s)) (hb : b ≠ 0) : Terminated s := by
  cases s with
  | nil => exact absurd (Option.some.inj h) hb
  | cons a s => rwa [Terminated, List.getLast?_cons_cons] at h

theorem Terminated.cons (h : Terminated s) (b : UInt8) : Terminated (b :: s) := by
  cases s with
  | nil => cases h
  | cons a s => rwa [Terminated, List.getLast?_cons_cons]

theorem Terminated.drop (h : Terminated s) {k : ℕ} (hk : k < s.length) : Terminated (s.drop k) := by
  rw [Terminated, List.getLast?_drop, if_neg (by omega)]
  exact h

theorem Terminated.append (h : Terminated s) (pre : List UInt8) : Terminated (pre ++ s) := by
  rw [Terminated, List.getLast?_append, h]
  rfl

/-- Moving the text down by two bytes. -/
theorem shift_spec (h : Terminated s) (h2 : 2 ≤ (CStr.read s).len) :
    (strncpy s (s.drop 2) ((CStr.read s).len + 1)).length = s.length ∧
      Terminated (strncpy s (s.drop 2) ((CStr.read s).len + 1)) ∧
      (CStr.read (strncpy s (s.drop 2) ((CStr.read s).len + 1))).len = (CStr.read s).len - 2 := by
  have hlt := CStr.read_len_lt h.mem
  have hread : (CStr.read (s.drop 2)).len = (CStr.read s).len - 2 := by
    rw [CStr.len, CStr.read_drop h2, List.length_drop, CStr.len]
  refine ⟨strncpy_length hlt, ?_, ?_⟩
  · by_cases he : (CStr.read s).len + 1 = s.length
    · -- nothing is left behind the text, so the last byte is one of the zeros
      rw [he]
      have hk : (CStr.read (s.drop 2)).val.length < s.length := by
        rw [← CStr.len]
        omega
      rw [Terminated, strncpy, List.drop_length, List.append_nil, List.getLast?_append,
        List.getLast?_replicate, List.length_take, if_neg (by omega)]
      rfl
    · exact (h.drop (by omega)).append _
  · rw [read_strncpy (by omega), hread]

theorem shift_append (h : Terminated s) (h2 : 2 ≤ (CStr.read s).len) (rest : List UInt8) :
    strncpy (s ++ rest) ((s ++ rest).drop 2) ((CStr.read s).len + 1) =
      strncpy s (s.drop 2) ((CStr.read s).len + 1) ++ rest := by
  have hlt := CStr.read_len_lt h.mem
  rw [List.drop_append_of_le_length (by omega)]
  exact strncpy_append hlt (h.drop (by omega)).mem

theorem percent_ne : PERCENT ≠ 0 := by decide

theorem unescape_escape (n : ℕ) (c : UInt8) (s : List UInt8) :
    unescape L (n + 1) c (PERCENT :: s) =
      (L.sscanf (CStr.read s)).getD c ::
        unescape L n ((L.sscanf (CStr.read s)).getD c)
          (strncpy s (s.drop 2) ((CStr.read s).len + 1)) := by
  rw [unescape, if_neg percent_ne, if_pos rfl]

theorem unescape_plain {b : UInt8} (hb : b ≠ 0) (hp : b ≠ PERCENT) (n : ℕ) (c : UInt8)
    (s : List UInt8) :
    unescape L (n + 1) c (b :: s) = (if b = PLUS then SPACE else b) :: unescape L n c s := by
  rw [unescape, if_neg hb, if_neg hp]
  split <;> rfl

theorem wholeEscapes_escape {n : ℕ} (h : wholeEscapes L (n + 1) (PERCENT :: s) = true) :
    2 ≤ (CStr.read s).len ∧ (∃ c, L.sscanf (CStr.read s) = some c) ∧
      wholeEscapes L n (strncpy s (s.drop 2) ((CStr.read s).len + 1)) = true := by
  rw [wholeEscapes, if_neg percent_ne, if_pos rfl, Bool.and_eq_true, Bool.and_eq_true,
    Option.isSome_iff_exists] at h
  exact ⟨of_decide_eq_true h.1.1, h.1.2, h.2⟩

theorem read_len_cons {b : UInt8} (hb : b ≠ 0) (s : List UInt8) :
    (CStr.read (b :: s)).len = (CStr.read s).len + 1 := by
  simp [CStr.read, CStr.len, hb]

/-- Behind the terminator nothing is read or written, and the unset variable is not used. The
induction is on the length of the text, of which an escape takes three bytes. -/
theorem unescape_append {n n' : ℕ} (c d : UInt8) (h : Terminated s)
    (hn : (CStr.read s).len ≤ n) (hn' : (CStr.read s).len ≤ n') (hw : wholeEscapes L n' s = true) :
    unescape L n c (s ++ rest) = unescape L n' d s ++ rest ∧
      (unescape L n' d s).length = s.length ∧ Terminated (unescape L n' d s) := by
  induction n' generalizing n c d s with
  | zero =>
    cases s with
    | nil => cases h
    | cons b s =>
      have hb : b = 0 := by
        by_contra hb
        rw [read_len_cons hb] at hn'
        omega
      subst hb
      cases n <;> exact ⟨by simp [unescape], rfl, h⟩
  | succ n' ih =>
    cases s with
    | nil => cases h
    | cons b s =>
      by_cases hb : b = 0
      · subst hb
        cases n <;> simpa [unescape] using h
      · have hs := h.tail hb
        rw [read_len_cons hb] at hn hn'
        obtain ⟨n, rfl⟩ := Nat.exists_eq_succ_of_ne_zero (show n ≠ 0 by omega)
        by_cases hp : b = PERCENT
        · subst hp
          obtain ⟨h2, ⟨a, ha⟩, hw⟩ := wholeEscapes_escape hw
          obtain ⟨hl, ht, hread⟩ := shift_spec hs h2
          obtain ⟨happ, hlen, hterm⟩ := ih (n := n) a a ht (by omega) (by omega) hw
          rw [List.cons_append, unescape_escape, unescape_escape, CStr.read_append_of_mem hs.mem,
            shift_append hs h2, ha, Option.getD_some, Option.getD_some, happ]
          exact ⟨rfl, by rw [List.length_cons, hlen, hl, List.length_cons], hterm.cons a⟩
        · have hw : wholeEscapes L n' s = true := by
            rwa [wholeEscapes, if_neg hb, if_neg hp] at hw
          obtain ⟨happ, hlen, hterm⟩ := ih (n := n) c d hs (by omega) (by omega) hw
          rw [List.cons_append, unescape_plain hb hp, unescape_plain hb hp, happ]
          exact ⟨rfl, by rw [List.length_cons, hlen, List.length_cons], hterm.cons _⟩

end

/-! ## The same text elsewhere -/

def Ptr.move (b : Buffer) (p : ℕ) (a : Ptr) : Ptr := ⟨b, p + a.pos⟩

def Entry.move (b : Buffer) (p : ℕ) (e : Entry) : Entry :=
  ⟨e.hash, e.key.move b p, e.data.move b p⟩

def Table.move (b : Buffer) (p : ℕ) (t : Table) : Table := ⟨t.size, t.entries.map (Entry.move b p)⟩

/-- The pointer is in the text of a process that has nothing else. -/
def Ptr.Inside (len : ℕ) (a : Ptr) : Prop := a.buf = .post ∧ a.pos ≤ len

def Entry.Inside (len : ℕ) (e : Entry) : Prop := e.key.Inside len ∧ e.data.Inside len

/-- `c` has at `p` what `c'` has, and its table is that of `c'` with the pointers moved there. -/
structure Moved (b : Buffer) (p len : ℕ) (c c' : Cgi) : Prop where
  mem : ∃ pre rest, pre.length = p ∧ c.mem b = pre ++ c'.post ++ rest
  terminated : Terminated c'.post
  length : c'.post.length = len + 1
  table : ∃ t, c'.htab = some t ∧ c.htab = some (t.move b p) ∧ ∀ e ∈ t.entries, e.Inside len

theorem drop_at {pre m rest : List UInt8} {k : ℕ} (hk : k ≤ m.length) :
    (pre ++ m ++ rest).drop (pre.length + k) = m.drop k ++ rest := by
  rw [List.append_assoc, List.drop_append, List.drop_eq_nil_of_le (by omega), List.nil_append,
    Nat.add_sub_cancel_left, List.drop_append_of_le_length hk]

theorem take_at {pre m rest : List UInt8} {k : ℕ} (hk : k ≤ m.length) :
    (pre ++ m ++ rest).take (pre.length + k) = pre ++ m.take k := by
  rw [List.append_assoc, List.take_append, List.take_of_length_le (by omega),
    Nat.add_sub_cancel_left, List.take_append_of_le_length hk]

theorem poke_at {pre m rest : List UInt8} {i : ℕ} (hi : i < m.length) :
    poke (pre ++ m ++ rest) (pre.length + i) [0] = pre ++ poke m i [0] ++ rest := by
  simp only [poke, List.length_singleton]
  rw [take_at hi.le, Nat.add_assoc, drop_at hi]
  simp only [List.append_assoc]

theorem skipZeros_at {pre m rest : List UInt8} {stop q : ℕ} (hstop : stop < m.length)
    (hq : q ≤ stop) :
    skipZeros (pre ++ m ++ rest) (pre.length + stop) (pre.length + q) =
      pre.length + skipZeros m stop q := by
  have hn : pre.length + stop - (pre.length + q) = stop - q := by omega
  have hl : stop - q ≤ (m.drop q).length := by
    rw [List.length_drop]
    omega
  rw [skipZeros, skipZeros, drop_at (by omega), hn, List.take_append_of_le_length hl]
  omega

theorem Terminated.poke {m : List UInt8} (h : Terminated m) {i : ℕ} (hi : i < m.length) :
    Terminated (poke m i [0]) := by
  rw [Lib.poke, List.length_singleton]
  by_cases he : i + 1 = m.length
  · rw [he, List.drop_length, List.append_nil]
    exact Terminated.append (rfl : Terminated [0]) _
  · exact (h.drop (by omega)).append _

section
variable {L : Libc} {b : Buffer} {p len : ℕ} {c c' : Cgi}

theorem Moved.text (h : Moved b p len c c') {a : Ptr} (ha : a.Inside len) :
    c.text (a.move b p) = c'.text a := by
  obtain ⟨pre, rest, rfl, hmem⟩ := h.mem
  have hl := h.length
  have hk := ha.2
  have hpost : c'.mem a.buf = c'.post := by rw [ha.1]; rfl
  rw [Cgi.text, Cgi.text, Ptr.move, hpost]
  dsimp only
  rw [hmem, drop_at (by omega), CStr.read_append_of_mem (h.terminated.drop (by omega)).mem]

/-- Other contents of the text. -/
theorem Moved.setMem (h : Moved b p len c c') {pre rest m : List UInt8} (hpre : pre.length = p)
    (hl : m.length = len + 1) (ht : Terminated m) :
    Moved b p len (c.setMem (pre ++ m ++ rest) b) (c'.setMem m .post) where
  mem := ⟨pre, rest, hpre, setMem_mem _ _ _⟩
  terminated := ht
  length := hl
  table := by
    rw [setMem_htab, setMem_htab]
    exact h.table

theorem Moved.found (h : Moved b p len c c') {e : Entry} (he : e.Inside len) (name : CStr) :
    hsearch L c name (e.move b p) = hsearch L c' name e := by
  rw [hsearch, hsearch, Entry.move, h.text he.1]

theorem Moved.form (h : Moved b p len c c') : getCgi L c = getCgi L c' := by
  obtain ⟨t, ht', ht, hin⟩ := h.table
  funext name
  rw [getCgi, getCgi, ht, ht']
  dsimp only [Table.move]
  rw [List.find?_map, Option.map_map]
  have hfind : t.entries.find? (hsearch L c name ∘ Entry.move b p) =
      t.entries.find? (hsearch L c' name) :=
    List.find?_congr fun e he => h.found (hin e he) name
  rw [hfind]
  cases hf : t.entries.find? (hsearch L c' name) with
  | none => rfl
  | some e =>
    exact congrArg some (h.text (hin e (List.mem_of_find?_eq_some hf)).2)

theorem setData_map {found found' : Entry → Bool} {es : List Entry}
    (h : ∀ e ∈ es, found' (e.move b p) = found e) (value : Ptr) :
    setData found' (value.move b p) (es.map (Entry.move b p)) =
      (setData found value es).map (Entry.move b p) := by
  induction es with
  | nil => rfl
  | cons e es ih =>
    rw [List.map_cons, setData, setData, h e List.mem_cons_self]
    cases found e with
    | true => rfl
    | false => exact congrArg (e.move b p :: ·) (ih fun a ha => h a (List.mem_cons_of_mem e ha))

theorem setData_inside {found : Entry → Bool} {es : List Entry} {value : Ptr}
    (h : ∀ e ∈ es, e.Inside len) (hv : value.Inside len) :
    ∀ e ∈ setData found value es, e.Inside len := by
  induction es with
  | nil => exact h
  | cons a es ih =>
    rw [setData]
    cases found a with
    | true =>
      exact List.forall_mem_cons.mpr
        ⟨⟨(h a List.mem_cons_self).1, hv⟩, fun e he => h e (List.mem_cons_of_mem a he)⟩
    | false =>
      exact List.forall_mem_cons.mpr
        ⟨h a List.mem_cons_self, ih fun e he => h e (List.mem_cons_of_mem a he)⟩

theorem Moved.setCgi (h : Moved b p len c c') {name value : Ptr} (hn : name.Inside len)
    (hv : value.Inside len) :
    Moved b p len (setCgi L (name.move b p) (value.move b p) c) (setCgi L name value c') := by
  obtain ⟨t, ht', ht, hin⟩ := h.table
  have hpost : (Httpd.setCgi L name value c').post = c'.post := setCgi_mem name value c' .post
  have hfound : ∀ e ∈ t.entries, hsearch L c (c'.text name) (e.move b p) =
      hsearch L c' (c'.text name) e := fun e he => h.found (hin e he) _
  have hany : (t.entries.map (Entry.move b p)).any (hsearch L c (c'.text name)) =
      t.entries.any (hsearch L c' (c'.text name)) := by
    rw [List.any_map, Bool.eq_iff_iff, List.any_eq_true, List.any_eq_true]
    exact exists_congr fun e => and_congr_right fun he => by rw [Function.comp_apply, hfound e he]
  refine ⟨?_, hpost ▸ h.terminated, hpost ▸ h.length, ?_⟩
  · rw [setCgi_mem, hpost]
    exact h.mem
  · unfold Httpd.setCgi
    rw [ht', ht, h.text hn]
    dsimp only [Table.move]
    rw [hany, List.length_map]
    split_ifs
    · exact ⟨_, rfl, by rw [setData_map hfound], setData_inside hin hv⟩
    · exact ⟨_, rfl, by dsimp only [Table.move]; rw [List.map_append]; rfl,
        List.forall_mem_append.mpr ⟨hin, List.forall_mem_singleton.mpr ⟨hn, hv⟩⟩⟩
    · exact ⟨t, ht', ht, hin⟩

/-! ## One assignment -/

theorem skipZeros_ge (m : List UInt8) (stop q : ℕ) : q ≤ skipZeros m stop q := Nat.le_add_right _ _

theorem skipZeros_le {m : List UInt8} {stop q : ℕ} (h : q ≤ stop) : skipZeros m stop q ≤ stop := by
  have hl := (List.takeWhile_sublist (l := (m.drop q).take (stop - q)) (· = 0)).length_le
  have ht : ((m.drop q).take (stop - q)).length ≤ stop - q := List.length_take_le _ _
  rw [skipZeros]
  omega

theorem unescapeAt_at (pre rest : List UInt8) {m : List UInt8} {k : ℕ} (hm : Terminated m)
    (hk : k < m.length) (hw : wholeEscapes L (m.drop k).length (m.drop k) = true) (junk junk' : UInt8) :
    unescapeAt L junk (pre.length + k) (pre ++ m ++ rest) =
        pre ++ unescapeAt L junk' k m ++ rest ∧
      (unescapeAt L junk' k m).length = m.length ∧ Terminated (unescapeAt L junk' k m) := by
  have hs := hm.drop hk
  have hlt := CStr.read_len_lt hs.mem
  have hfuel : (CStr.read (m.drop k)).len ≤ (m.drop k ++ rest).length := by
    rw [List.length_append]
    omega
  obtain ⟨happ, hlen, hterm⟩ :=
    unescape_append junk junk' hs hfuel hlt.le hw
  refine ⟨?_, ?_, hterm.append _⟩
  · rw [unescapeAt, drop_at hk.le, take_at hk.le, happ, unescapeAt]
    simp only [List.append_assoc]
  · rw [unescapeAt, List.length_append, hlen, List.length_take, List.length_drop]
    omega

/-- The assignment at `k`, with the bytes of the text from there on. -/
theorem Moved.assign (h : Moved b p len c c') {k : ℕ} (hk : k < len) (junk junk' : UInt8)
    (hw : wholeEscapes L (c'.post.drop k).length (c'.post.drop k) = true) :
    (assignCgi L junk b (p + len) (p + k) c).1 = p + (assignCgi L junk' .post len k c').1 ∧
      (assignCgi L junk' .post len k c').1 ≤ len ∧
      Moved b p len (assignCgi L junk b (p + len) (p + k) c).2
        (assignCgi L junk' .post len k c').2 := by
  obtain ⟨pre, rest, rfl, hmem⟩ := h.mem
  have hl := h.length
  obtain ⟨hat, hml, hmt⟩ :=
    unescapeAt_at pre rest h.terminated (by omega) hw junk junk'
  rw [hl] at hml
  unfold assignCgi
  rw [hmem, hat]
  simp only [Cgi.mem]
  generalize unescapeAt L junk' k c'.post = m at hml hmt
  have hs := hmt.drop (k := k) (by omega)
  have hname : CStr.read ((pre ++ m ++ rest).drop (pre.length + k)) = CStr.read (m.drop k) := by
    rw [drop_at (by omega), CStr.read_append_of_mem hs.mem]
  have hnl := CStr.read_len_lt hs.mem
  rw [List.length_drop] at hnl
  rw [hname, Nat.add_assoc, skipZeros_at (by omega) (by omega)]
  have hnext : skipZeros m len (k + (CStr.read (m.drop k)).len) ≤ len := skipZeros_le (by omega)
  cases hcut : CStr.cut KernelNvram.EQ (CStr.read (m.drop k)) with
  | none => exact ⟨rfl, hnext, h.setMem rfl hml hmt⟩
  | some a =>
    have hcl := CStr.cut_length hcut
    refine ⟨rfl, hnext, ?_⟩
    dsimp only
    rw [Nat.add_assoc pre.length k, poke_at (by omega)]
    have hpl : (poke m (k + a.1.len) [0]).length = len + 1 := by
      rw [poke_length (by simp; omega), hml]
    have hname : Ptr.Inside len ⟨.post, k⟩ := ⟨rfl, hk.le⟩
    have hvalue : Ptr.Inside len ⟨.post, k + a.1.len + 1⟩ := ⟨rfl, by dsimp only; omega⟩
    exact (h.setMem rfl hpl (hmt.poke (by omega))).setCgi hname hvalue

/-- All assignments from `k` on. -/
theorem Moved.assignments {n : ℕ} (h : Moved b p len c c') {k : ℕ} (hk : k ≤ len)
    (junk : UInt8) (hw : wholeAssignments L .post len n k c' = true) :
    Moved b p len (assignments L junk b (p + len) n (p + k) c)
      (assignments L 0 .post len n k c') := by
  induction n generalizing k c c' with
  | zero => exact h
  | succ n ih =>
    by_cases hlt : k < len
    · rw [wholeAssignments, if_pos hlt, Bool.and_eq_true] at hw
      obtain ⟨hnext, hle, hmoved⟩ := h.assign hlt junk 0 hw.1
      rw [Httpd.assignments, Httpd.assignments, if_pos hlt, if_pos (by omega)]
      dsimp only
      rw [hnext]
      exact ih hmoved hle hw.2
    · rw [Httpd.assignments, Httpd.assignments, if_neg hlt, if_neg (by omega)]
      exact h

/-! ## The whole form -/

theorem cutSeparators_length (s : List UInt8) : (cutSeparators s).length = s.length :=
  List.length_map _

theorem openCgi_htab (q : Ptr) (c : Cgi) :
    (openCgi L q c).htab = some (c.htab.getD
      ⟨L.tableSize ((c.text q).val.countP (fun b => b = AMP ∨ b = SEMICOLON) + 2), []⟩) := rfl

/-- What `openCgi` does to a text with a terminator. -/
theorem openCgi_mem {text : CStr} {pre rest : List UInt8} (htext : c.text ⟨b, pre.length⟩ = text)
    (hmem : c.mem b = pre ++ text.stored ++ rest) :
    (openCgi L ⟨b, pre.length⟩ c).mem b = pre ++ (cutSeparators text.val ++ [0]) ++ rest := by
  have hlen : text.val.length ≤ text.stored.length := by
    rw [CStr.stored_length, CStr.len]
    omega
  have htake : (pre ++ text.stored ++ rest).take pre.length = pre := by
    rw [← Nat.add_zero pre.length, take_at (Nat.zero_le _), List.take_zero, List.append_nil]
  have hdrop : text.stored.drop text.val.length = [0] := List.drop_left
  rw [openCgi, mem_htab, setMem_mem, htext, hmem]
  dsimp only
  rw [htake, drop_at hlen, hdrop]
  simp only [List.append_assoc]

theorem alone_text (text : CStr) : (alone text).text start = text := by
  have hr := CStr.read_stored_append text []
  rwa [List.append_nil] at hr

/-- A text at a pointer, with a terminator behind it, and no table. -/
theorem openCgi_moved {text : CStr} {pre rest : List UInt8} (hnone : c.htab = none)
    (hmem : c.mem b = pre ++ text.stored ++ rest) :
    c.text ⟨b, pre.length⟩ = text ∧
      Moved b pre.length text.len (openCgi L ⟨b, pre.length⟩ c)
        (openCgi L start (alone text)) := by
  have htext : c.text ⟨b, pre.length⟩ = text := by
    rw [Cgi.text, hmem, ← Nat.add_zero pre.length, drop_at (Nat.zero_le _), List.drop_zero,
      CStr.read_stored_append]
  have hpost : (openCgi L start (alone text)).post = cutSeparators text.val ++ [0] := by
    have hmem : (alone text).mem .post = [] ++ text.stored ++ [] := by simp [alone, Cgi.mem]
    have hm := openCgi_mem (L := L) (alone_text text) hmem
    rwa [List.nil_append, List.append_nil] at hm
  refine ⟨htext, ⟨pre, rest, rfl, ?_⟩, ?_, ?_, ⟨_, openCgi_htab _ _, ?_, ?_⟩⟩
  · rw [hpost, openCgi_mem htext hmem]
  · rw [hpost]
    exact Terminated.append (rfl : Terminated [0]) _
  · rw [hpost, List.length_append, cutSeparators_length]
    rfl
  · rw [openCgi_htab, hnone, htext, alone_text]
    rfl
  · exact fun e he => absurd he List.not_mem_nil

/-- Such a form gives what its text gives alone. -/
theorem form_alone {text : CStr} {pre rest : List UInt8} (hnone : c.htab = none)
    (hmem : c.mem b = pre ++ text.stored ++ rest) (hw : Whole L text) (junk : UInt8) :
    getCgi L (initCgi L junk (some ⟨b, pre.length⟩) c) = formOf L text := by
  obtain ⟨htext, hopen⟩ := openCgi_moved (L := L) hnone hmem
  have hmoved := (hopen.assignments (Nat.zero_le _) junk hw).form (L := L)
  have hstart : start.pos + text.len = text.len := Nat.zero_add _
  rw [initCgi, formOf, initCgi]
  dsimp only
  rw [htext, alone_text, hstart]
  exact hmoved

end

end EzpFirmware.Httpd
