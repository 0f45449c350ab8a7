import EzpFirmware.Httpd.Escapes
import EzpFirmware.Httpd.FieldChecks
import EzpFirmware.Httpd.RowBuffers
import EzpFirmware.UserNvram.Protected

/-! # Lines of the schedule

`schedule_cgi` prints each rule to one buffer and writes it to the page. The
name goes to the start of the buffer and the rest to a running length, which is
never reset.
-/
namespace EzpFirmware.Httpd
open Lib UserNvram

/-- The row of `rules` that the page reads. -/
def schedRules : List Rule :=
  [⟨.ofString "sched_rule",
    [.ofString "name", .ofString "enable", .ofString "used", .ofString "start_hour",
      .ofString "start_min", .ofString "stop_hour", .ofString "stop_min", .ofString "sun",
      .ofString "mon", .ofString "tue", .ofString "wed", .ofString "thu", .ofString "fri",
      .ofString "sat"]⟩]

/-- `days`. -/
def DAYS : List (String × String) :=
  [("sun", "Sun"), ("mon", "Mon"), ("tue", "Tue"), ("wed", "Wed"), ("thu", "Thu"), ("fri", "Fri"),
    ("sat", "Sat")]

/-- The closing bracket. -/
def BRACKET : UInt8 := 0x29

section
variable (u : Unspecified) (langTranslate : CStr → CStr) (nvram : Variables)

/-- An attribute of a rule in `tmp`, which is empty if there is none. -/
def schedAttr (i : ℕ) (type : String) : CStr :=
  (onMap (ezplibGetAttrVal u schedRules (fun _ _ => showValue) (.ofString "sched_rule") i
    (.ofString type) SHORT_BUF_LEN) nvram).1.2

def schedName (i : ℕ) : CStr := (schedAttr u nvram i "name").append (.ofString "=")

/-- The times of a rule. -/
def schedTimes (i : ℕ) : List CStr :=
  [(schedAttr u nvram i "start_hour").append (.ofString ":"),
    (schedAttr u nvram i "start_min").append (.ofString " - "),
    (schedAttr u nvram i "stop_hour").append (.ofString ":"),
    (schedAttr u nvram i "stop_min").append (.ofString " (")]

/-- The days of a rule. -/
def schedDays (i : ℕ) : List CStr :=
  (DAYS.filter fun d => startsWith CHAR_1 (schedAttr u nvram i d.1)).map fun d =>
    (langTranslate (.ofString d.2)).append (.ofString ", ")

/-- A round of `schedule_cgi`: the buffer with the running length, and the text for the page. -/
def scheduleRound (i : ℕ) (p : Print) : Option (Print × CStr) :=
  (Print.put ⟨p.buf, 0⟩ (schedName u nvram i)).bind fun q =>
    (Print.putAll (schedTimes u nvram i ++ schedDays u langTranslate nvram i)
        ⟨q.buf, p.pos + (schedName u nvram i).len⟩).bind fun r =>
      -- The bracket replaces the comma behind the last day; the blank behind it stays.
      if r.pos - 2 < r.buf.length then
        some (⟨poke r.buf (r.pos - 2) [BRACKET], r.pos⟩,
          CStr.read (poke r.buf (r.pos - 2) [BRACKET]))
      else none

/-- The first rounds of `schedule_cgi`. -/
def scheduleRounds : ℕ → Print → Option (Print × List CStr)
  | 0, p => some (p, [])
  | n + 1, p => (scheduleRounds n p).bind fun s =>
    (scheduleRound u langTranslate nvram n s.1).map fun r => (r.1, s.2 ++ [r.2])

/-- The number of rounds. -/
def schedNum : ℕ := (atoi (text nvram (.ofString "sched_rule_num"))).toNat

/-- `schedule_cgi`: the lines of the page. The text of a rule is the format of its line. -/
def scheduleCgi (junk : List UInt8) : Option (List CStr) :=
  (scheduleRounds u langTranslate nvram (schedNum nvram) ⟨junk, 0⟩).map (·.2.map u.printf)

/-! ## The texts of a rule -/

/-- The texts of a rule, in the order of the line. -/
def schedTexts (i : ℕ) : List CStr :=
  schedName u nvram i :: (schedTimes u nvram i ++ schedDays u langTranslate nvram i)

/-- The running length in front of a rule. -/
def schedStart : ℕ → ℕ
  | 0 => 0
  | i + 1 => schedStart i + (CStr.concat (schedTexts u langTranslate nvram i)).len

/-- The texts of a rule in front of the last one end in the buffer, and so does the comma. -/
structure ScheduleFits (i : ℕ) : Prop where
  heads : schedStart u langTranslate nvram i +
    (CStr.concat (schedTexts u langTranslate nvram i).dropLast).len ≤ LONG_BUF_LEN
  comma : schedStart u langTranslate nvram (i + 1) ≤ LONG_BUF_LEN + 1

/-- The text of a rule that comes first. -/
def ownLine (junk : List UInt8) (i : ℕ) : Option CStr :=
  (scheduleRound u langTranslate nvram i ⟨junk, 0⟩).map fun r => u.printf r.2

end

/-! ## A round -/

section
variable {u : Unspecified} {langTranslate : CStr → CStr} {nvram : Variables} {i n : ℕ} {p q : Print}
  {line : CStr}

theorem showValue_len_lt {bsize : ℕ} (h : 0 < bsize) (val : CStr) :
    (showValue val bsize).2.len < bsize := by
  have hlen : (val.take (bsize - 1)).len ≤ bsize - 1 := List.length_take_le _ _
  exact Nat.lt_of_le_of_lt hlen (Nat.sub_one_lt_of_lt h)

/-- An attribute is cut where its buffer ends. -/
theorem schedAttr_len_lt (type : String) : (schedAttr u nvram i type).len < SHORT_BUF_LEN := by
  have hpos : 0 < SHORT_BUF_LEN := by decide
  unfold schedAttr ezplibGetAttrVal
  split_ifs with hempty
  · exact hpos
  · rw [onMap_bind]
    dsimp only
    split_ifs with hrule
    · exact hpos
    · split
      · exact showValue_len_lt hpos _
      · exact hpos

theorem schedName_len : (schedName u nvram i).len ≤ SHORT_BUF_LEN := by
  have hlen := @schedAttr_len_lt u nvram i "name"
  rw [schedName, CStr.append_len, show (CStr.ofString "=").len = 1 by decide]
  omega

theorem times_ne_nil : schedTimes u nvram i ++ schedDays u langTranslate nvram i ≠ [] :=
  List.append_ne_nil_of_left_ne_nil (List.cons_ne_nil _ _) _

theorem times_len :
    7 ≤ (CStr.concat (schedTimes u nvram i ++ schedDays u langTranslate nvram i)).len := by
  have hseps : (CStr.ofString ":").len = 1 ∧ (CStr.ofString " - ").len = 3 ∧
      (CStr.ofString " (").len = 2 := by decide
  rw [CStr.concat_append, CStr.append_len]
  simp only [schedTimes, CStr.concat, CStr.append_len, hseps]
  omega

/-- What a round does if nothing is written behind the buffer. -/
theorem scheduleRound_isSome_iff (hsize : p.buf.length = LONG_BUF_LEN) :
    (scheduleRound u langTranslate nvram i p).isSome = true ↔
      p.pos + (CStr.concat (schedTexts u langTranslate nvram i).dropLast).len ≤ LONG_BUF_LEN ∧
        p.pos + (CStr.concat (schedTexts u langTranslate nvram i)).len ≤ LONG_BUF_LEN + 1 := by
  obtain ⟨q, hq⟩ : ∃ q, Print.put ⟨p.buf, 0⟩ (schedName u nvram i) = some q :=
    Option.isSome_iff_exists.mp (Print.put_isSome_iff.mpr (Nat.zero_le _))
  have hqsize : q.buf.length = LONG_BUF_LEN := (Print.put_size hq).2.trans hsize
  have hlong := @times_len u langTranslate nvram i
  have hheads := @Print.putAll_isSome_iff
    ⟨q.buf, p.pos + (schedName u nvram i).len⟩
    (schedTimes u nvram i ++ schedDays u langTranslate nvram i)
  rw [or_iff_right times_ne_nil, hqsize] at hheads
  rw [scheduleRound, hq, Option.bind_some, schedTexts,
    List.dropLast_cons_of_ne_nil times_ne_nil, CStr.concat, CStr.concat, CStr.append_len,
    CStr.append_len, ← Nat.add_assoc, ← Nat.add_assoc, ← hheads]
  cases hall : Print.putAll (schedTimes u nvram i ++ schedDays u langTranslate nvram i)
      ⟨q.buf, p.pos + (schedName u nvram i).len⟩ with
  | none => simp
  | some r =>
    obtain ⟨hpos, hlen⟩ := Print.putAll_size hall
    dsimp only at hpos hlen
    have hcomma : r.pos - 2 < LONG_BUF_LEN ↔ p.pos + (schedName u nvram i).len +
        (CStr.concat (schedTimes u nvram i ++ schedDays u langTranslate nvram i)).len ≤
          LONG_BUF_LEN + 1 := by
      omega
    rw [← hcomma, Option.bind_some, hlen, hqsize]
    split_ifs with hroom <;> simp [hroom]

theorem scheduleRound_spec (hsize : p.buf.length = LONG_BUF_LEN)
    (h : scheduleRound u langTranslate nvram i p = some (q, line)) :
    q.pos = p.pos + (CStr.concat (schedTexts u langTranslate nvram i)).len ∧
      q.buf.length = LONG_BUF_LEN ∧ line = CStr.read q.buf := by
  rw [scheduleRound, Option.bind_eq_some_iff] at h
  obtain ⟨named, hnamed, h⟩ := h
  rw [Option.bind_eq_some_iff] at h
  obtain ⟨r, hall, h⟩ := h
  split_ifs at h with hroom
  cases h
  obtain ⟨hpos, hlen⟩ := Print.putAll_size hall
  have hrlen : r.buf.length = LONG_BUF_LEN :=
    hlen.trans ((Print.put_size hnamed).2.trans hsize)
  refine ⟨?_, ?_, rfl⟩
  · rw [schedTexts, CStr.concat, CStr.append_len, ← Nat.add_assoc]
    exact hpos
  · dsimp only
    rw [poke_length, hrlen]
    rw [List.length_singleton]
    exact hroom

/-- Behind another rule the line is the name only: the terminator behind the name stays. -/
theorem scheduleRound_behind (hsize : p.buf.length = LONG_BUF_LEN) (hpos : p.pos ≠ 0)
    (h : scheduleRound u langTranslate nvram i p = some (q, line)) : line = schedName u nvram i := by
  have hqpos := (scheduleRound_spec hsize h).1
  rw [scheduleRound, Option.bind_eq_some_iff] at h
  obtain ⟨named, hnamed, h⟩ := h
  rw [Option.bind_eq_some_iff] at h
  obtain ⟨r, hall, h⟩ := h
  split_ifs at h with hroom
  cases h
  have hlong := @times_len u langTranslate nvram i
  have hname := @schedName_len u nvram i
  have hfits : (schedName u nvram i).len < LONG_BUF_LEN :=
    Nat.lt_of_le_of_lt hname (by decide)
  have hstart : (schedName u nvram i).stored <+: named.buf := by
    have hcut := Print.put_start rfl (by rw [hsize]; decide) hnamed
    exact (hcut.shows (by rw [(Print.put_size hnamed).2, hsize]; exact hfits)).text
  have hrest : (schedName u nvram i).stored <+: r.buf := by
    refine Print.putAll_leading (p := ⟨named.buf, p.pos + (schedName u nvram i).len⟩) hstart ?_ hall
    rw [CStr.stored_length]
    dsimp only
    omega
  have hkept : Holds (poke r.buf (r.pos - 2) [BRACKET]) 0 (schedName u nvram i).stored := by
    have hholds : Holds r.buf 0 (schedName u nvram i).stored := hrest
    refine hholds.poke ?_ hroom.le
    rw [CStr.stored_length]
    rw [schedTexts, CStr.concat, CStr.append_len] at hqpos
    dsimp only at hqpos
    omega
  obtain ⟨rest, hrest⟩ := hkept
  rw [List.drop_zero] at hrest
  rw [← hrest, CStr.read_stored_append]

/-- In front of the others the line is the whole text, closed by the bracket. -/
theorem scheduleRound_start (hsize : p.buf.length = LONG_BUF_LEN) (hpos : p.pos = 0)
    (hfits : (CStr.concat (schedTexts u langTranslate nvram i)).len < LONG_BUF_LEN)
    (h : scheduleRound u langTranslate nvram i p = some (q, line)) :
    line.val = poke (CStr.concat (schedTexts u langTranslate nvram i)).val
      ((CStr.concat (schedTexts u langTranslate nvram i)).len - 2) [BRACKET] := by
  have hlong := @times_len u langTranslate nvram i
  rw [scheduleRound, Option.bind_eq_some_iff] at h
  obtain ⟨named, hnamed, h⟩ := h
  rw [Option.bind_eq_some_iff] at h
  obtain ⟨r, hall, h⟩ := h
  split_ifs at h with hroom
  cases h
  set t := CStr.concat (schedTexts u langTranslate nvram i) with ht
  have htlen : t.len = (schedName u nvram i).len +
      (CStr.concat (schedTimes u nvram i ++ schedDays u langTranslate nvram i)).len := by
    rw [ht, schedTexts, CStr.concat, CStr.append_len]
  obtain ⟨hnpos, hnlen⟩ := Print.put_size hnamed
  have hshows : named.Shows (schedName u nvram i) :=
    (Print.put_start rfl (by rw [hsize]; decide) hnamed).shows (by rw [hnlen, hsize]; omega)
  have hsame : (⟨named.buf, p.pos + (schedName u nvram i).len⟩ : Print) = named := by
    rw [hpos]
    exact congrArg (Print.mk named.buf) hnpos.symm
  rw [hsame] at hall
  obtain ⟨r', hall', hr, -⟩ := @Print.Shows.putAll _ _
    (schedTimes u nvram i ++ schedDays u langTranslate nvram i) hshows
    (by rw [hnlen, hsize]; omega)
  cases hall.symm.trans hall'
  have hrt : r.Shows t := by
    rw [ht, schedTexts, CStr.concat]
    exact hr
  obtain ⟨rest, hrest⟩ := hrt.text
  have hpoke : poke r.buf (r.pos - 2) [BRACKET] = poke t.val (t.len - 2) [BRACKET] ++ 0 :: rest := by
    have hlen : t.val.length = t.len := rfl
    rw [hrt.pos, ← hrest, CStr.stored, List.append_assoc, poke, poke,
      List.take_append_of_le_length (by omega), List.drop_append_of_le_length (by simp; omega)]
    simp
  rw [hpoke, read_append_zero]
  intro hzero
  rcases List.mem_append.mp hzero with hzero | hzero
  · rcases List.mem_append.mp hzero with hzero | hzero
    · exact t.property (List.mem_of_mem_take hzero)
    · exact absurd hzero (by decide)
  · exact t.property (List.mem_of_mem_drop hzero)

end

/-! ## The page -/

section
variable {u : Unspecified} {langTranslate : CStr → CStr} {nvram : Variables} {n : ℕ} {q : Print}
  {junk : List UInt8} {lines : List CStr}

/-- What some rounds leave, and what they write. -/
structure Written (u : Unspecified) (langTranslate : CStr → CStr) (nvram : Variables)
    (junk : List UInt8) (n : ℕ) (q : Print) (lines : List CStr) : Prop where
  pos : q.pos = schedStart u langTranslate nvram n
  size : q.buf.length = LONG_BUF_LEN
  length : lines.length = n
  first : 0 < n →
    (scheduleRound u langTranslate nvram 0 ⟨junk, 0⟩).map (·.2) = lines[0]?
  behind : ∀ i, 0 < i → i < n → lines[i]? = some (schedName u nvram i)

theorem schedStart_pos (hn : 0 < n) : schedStart u langTranslate nvram n ≠ 0 := by
  obtain ⟨n, rfl⟩ := Nat.exists_eq_succ_of_ne_zero hn.ne'
  have hlong := @times_len u langTranslate nvram n
  rw [schedStart, schedTexts, CStr.concat, CStr.append_len]
  omega

theorem scheduleRounds_written (hjunk : junk.length = LONG_BUF_LEN)
    (h : scheduleRounds u langTranslate nvram n ⟨junk, 0⟩ = some (q, lines)) :
    Written u langTranslate nvram junk n q lines := by
  induction n generalizing q lines with
  | zero =>
    cases h
    exact ⟨rfl, hjunk, rfl, fun h => absurd h (by decide), fun _ _ h => absurd h (by omega)⟩
  | succ n ih =>
    rw [scheduleRounds, Option.bind_eq_some_iff] at h
    obtain ⟨⟨p, before⟩, hbefore, h⟩ := h
    obtain ⟨⟨r, line⟩, hround, hlast⟩ := Option.map_eq_some_iff.mp h
    cases hlast
    have hp := ih hbefore
    obtain ⟨hrpos, hrsize, -⟩ := scheduleRound_spec hp.size hround
    refine ⟨?_, hrsize, ?_, ?_, ?_⟩
    · rw [schedStart, ← hp.pos]
      exact hrpos
    · rw [List.length_append, hp.length, List.length_singleton]
    · intro _
      cases n with
      | zero =>
        cases hbefore
        rw [hround]
        rfl
      | succ n =>
        rw [hp.first (Nat.zero_lt_succ n),
          List.getElem?_append_left (by rw [hp.length]; exact Nat.zero_lt_succ n)]
    · intro i hi hin
      rcases Nat.lt_succ_iff_lt_or_eq.mp hin with hin | rfl
      · rw [List.getElem?_append_left (by rw [hp.length]; exact hin)]
        exact hp.behind i hi hin
      · rw [← hp.length, List.getElem?_concat_length, hp.length]
        exact congrArg some
          (scheduleRound_behind hp.size (by rw [hp.pos]; exact schedStart_pos hi) hround)

/-- The rounds stay in the buffer if and only if every rule does. -/
theorem scheduleRounds_isSome_iff (hjunk : junk.length = LONG_BUF_LEN) :
    (scheduleRounds u langTranslate nvram n ⟨junk, 0⟩).isSome = true ↔
      ∀ i < n, ScheduleFits u langTranslate nvram i := by
  induction n with
  | zero => simp [scheduleRounds]
  | succ n ih =>
    rw [Nat.forall_lt_succ_right, ← ih, scheduleRounds]
    cases hrun : scheduleRounds u langTranslate nvram n ⟨junk, 0⟩ with
    | none => simp
    | some s =>
      obtain ⟨p, before⟩ := s
      have hp := scheduleRounds_written hjunk hrun
      have hround := @scheduleRound_isSome_iff u langTranslate nvram n _ hp.size
      rw [hp.pos] at hround
      rw [Option.bind_some, Option.isSome_map, hround]
      simp only [Option.isSome_some, true_and]
      exact ⟨fun h => ⟨h.1, h.2⟩, fun h => ⟨h.heads, h.comma⟩⟩

theorem scheduleCgi_isSome_iff (hjunk : junk.length = LONG_BUF_LEN) :
    (scheduleCgi u langTranslate nvram junk).isSome = true ↔
      ∀ i < schedNum nvram, ScheduleFits u langTranslate nvram i := by
  rw [scheduleCgi, Option.isSome_map, scheduleRounds_isSome_iff hjunk]

/-- The only rule has its own line. -/
theorem lines_own (hjunk : junk.length = LONG_BUF_LEN) (hnum : schedNum nvram ≤ 1)
    (h : scheduleCgi u langTranslate nvram junk = some lines) :
    ∀ i < schedNum nvram, lines[i]? = ownLine u langTranslate nvram junk i := by
  intro i hi
  obtain rfl : i = 0 := by omega
  obtain ⟨⟨q, texts⟩, hrun, hlines⟩ := Option.map_eq_some_iff.mp h
  subst hlines
  have hfirst := (scheduleRounds_written hjunk hrun).first hi
  rw [ownLine, List.getElem?_map, ← hfirst, Option.map_map]
  rfl

/-- A line behind another one is cut behind its name. -/
theorem lines_cut (hjunk : junk.length = LONG_BUF_LEN)
    (hplain : ∀ w ∈ schedTexts u langTranslate nvram 1, PERCENT ∉ w.val)
    (hnum : 1 < schedNum nvram) (h : scheduleCgi u langTranslate nvram junk = some lines) :
    lines[1]? ≠ ownLine u langTranslate nvram junk 1 := by
  have hfits := (scheduleCgi_isSome_iff hjunk).mp (by rw [h]; rfl) 1 hnum
  obtain ⟨⟨q, texts⟩, hrun, hlines⟩ := Option.map_eq_some_iff.mp h
  subst hlines
  have hname : PERCENT ∉ (schedName u nvram 1).val := hplain _ List.mem_cons_self
  have hline := (scheduleRounds_written hjunk hrun).behind 1 (by decide) hnum
  have hstart : 7 ≤ schedStart u langTranslate nvram 1 := by
    have hlong := @times_len u langTranslate nvram 0
    rw [schedStart, schedTexts, CStr.concat, CStr.append_len]
    omega
  have hlong := @times_len u langTranslate nvram 1
  have hcomma := hfits.comma
  rw [schedStart] at hcomma
  have htext : (CStr.concat (schedTexts u langTranslate nvram 1)).len < LONG_BUF_LEN := by omega
  have hheads := hfits.heads
  obtain ⟨⟨r, line⟩, hround⟩ : ∃ r,
      scheduleRound u langTranslate nvram 1 ⟨junk, 0⟩ = some r := by
    refine Option.isSome_iff_exists.mp ((scheduleRound_isSome_iff hjunk).mpr ⟨?_, ?_⟩)
    · dsimp only
      omega
    · dsimp only
      omega
  have hval := scheduleRound_start hjunk rfl htext hround
  have hline' : PERCENT ∉ line.val := by
    have hconcat := CStr.notMem_concat hplain
    rw [hval, poke, List.append_assoc]
    intro hmem
    rcases List.mem_append.mp hmem with hmem | hmem
    · exact hconcat (List.mem_of_mem_take hmem)
    · rcases List.mem_append.mp hmem with hmem | hmem
      · exact absurd hmem (by decide)
      · exact hconcat (List.mem_of_mem_drop hmem)
  rw [ownLine, hround, Option.map_some, List.getElem?_map, hline, Option.map_some,
    u.printf_plain _ hname, u.printf_plain _ hline']
  intro hsame
  have hlen : line.len = (CStr.concat (schedTexts u langTranslate nvram 1)).len := by
    change line.val.length = _
    rw [hval, poke_length]
    · rfl
    · rw [List.length_singleton]
      change _ ≤ (CStr.concat (schedTexts u langTranslate nvram 1)).len
      rw [schedTexts, CStr.concat, CStr.append_len]
      omega
  rw [← Option.some.inj hsame, schedTexts, CStr.concat, CStr.append_len] at hlen
  omega

/-- Every line of the page is the line its rule has when it comes first. -/
def OwnLines (u : Unspecified) (langTranslate : CStr → CStr) (nvram : Variables)
    (junk : List UInt8) (lines : List CStr) : Prop :=
  ∀ i < schedNum nvram, lines[i]? = ownLine u langTranslate nvram junk i

/-- The rows of `_save_dmz`, the addresses of `save_factory` and the lines of `schedule_cgi` stay in
their buffers if and only if what is in front of the last text does; the addresses have to fit as a
whole, unless only the last one is there. Only a line that comes first is whole. -/
theorem texts_inside_iff (u : Unspecified) (langTranslate : CStr → CStr) (form : Form)
    (nvram : Variables) (rule tmpWan tmpLan junk : List UInt8) (hrule : rule.length = TMP_LEN)
    (hwan : tmpWan.length = TMP_LEN) (hlan : tmpLan.length = TMP_LEN)
    (hjunk : junk.length = LONG_BUF_LEN) :
    ((dmzBuf rule form (wanNum (text nvram (.ofString "wan_num")))).isSome = true ↔
        (dmzText form ((wanNum (text nvram (.ofString "wan_num"))).toNat - 1)).len ≤ TMP_LEN) ∧
      ((saveFactory tmpWan tmpLan form).isSome = true ↔
        HwaddrsFit form "wan" ∧ HwaddrsFit form "lan") ∧
      ((scheduleCgi u langTranslate nvram junk).isSome = true ↔
        ∀ i < schedNum nvram, ScheduleFits u langTranslate nvram i) ∧
      ∀ lines, scheduleCgi u langTranslate nvram junk = some lines →
        (schedNum nvram ≤ 1 → OwnLines u langTranslate nvram junk lines) ∧
          ((∀ i < schedNum nvram, ∀ w ∈ schedTexts u langTranslate nvram i, PERCENT ∉ w.val) →
            OwnLines u langTranslate nvram junk lines → schedNum nvram ≤ 1) := by
  refine ⟨dmzBuf_isSome_iff hrule, saveFactory_isSome_iff hwan hlan form,
    scheduleCgi_isSome_iff hjunk, fun lines hlines => ⟨fun hnum => lines_own hjunk hnum hlines, ?_⟩⟩
  intro hplain hown
  by_contra hnum
  rw [not_le] at hnum
  exact lines_cut hjunk (hplain 1 hnum) hnum hlines (hown 1 hnum)

end

/-- Two WANs, and so many rules of the schedule. -/
def officeStore (rules : String) : Variables := fun m =>
  ([("wan_num", "2"), ("sched_rule_num", rules),
    ("sched_rule", "night^1^0^22^0^6^0^1^0^0^0^0^0^1|day^1^0^8^0^18^0^0^1^1^1^1^1^0")].find? fun f =>
      CStr.ofString f.1 = m).map fun f => .ofString f.2

/-- A form with an address for each of two WANs. -/
def officeForm (ipaddr hwaddr : CStr) : Form := fun m =>
  ([("fr_dmz0_enable", CStr.ofString "0"), ("fr_dmz0_ipaddr", ipaddr),
    ("wan_num", CStr.ofString "2"), ("wan1_hwaddr_default", hwaddr),
    ("wan2_hwaddr_default", CStr.ofString "00:11:22:33:44:66")].find? fun f =>
      CStr.ofString f.1 = m).map (·.2)

theorem texts_inside_office :
    (dmzBuf (List.replicate TMP_LEN 0)
        (officeForm (.ofString "192.168.1.5") (.ofString "00:11:22:33:44:55"))
        (wanNum (text (officeStore "1") (.ofString "wan_num")))).isSome = true ∧
      (scheduleCgi clean id (officeStore "1") (List.replicate LONG_BUF_LEN 0)).isSome =
        true := by
  have h := texts_inside_iff clean id
    (officeForm (.ofString "192.168.1.5") (.ofString "00:11:22:33:44:55")) (officeStore "1")
    (List.replicate TMP_LEN 0) (List.replicate TMP_LEN 0) (List.replicate TMP_LEN 0)
    (List.replicate LONG_BUF_LEN 0) List.length_replicate List.length_replicate
    List.length_replicate List.length_replicate
  have hnum : schedNum (officeStore "1") = 1 := by decide +kernel
  refine ⟨h.1.mpr (by decide +kernel), h.2.2.1.mpr fun i hi => ?_⟩
  obtain rfl : i = 0 := by omega
  exact ⟨by decide +kernel, by decide +kernel⟩

/-- An address that nothing looks at while the zone is disabled, and an address of 256 characters,
leave no room for the second WAN. The line of a second rule is its name. -/
theorem texts_outside :
    (dmzBuf (List.replicate TMP_LEN 0)
        (officeForm (CStr.read (List.replicate 300 0x31)) (.ofString "00:11:22:33:44:55"))
        (wanNum (text (officeStore "2") (.ofString "wan_num")))).isSome = false ∧
      (saveFactory (List.replicate TMP_LEN 0) (List.replicate TMP_LEN 0)
        (officeForm (.ofString "192.168.1.5") (CStr.read (List.replicate 256 0x30)))).isSome =
          false ∧
      ∀ junk : List UInt8, junk.length = LONG_BUF_LEN → ∀ lines,
        scheduleCgi clean id (officeStore "2") junk = some lines →
          ¬ OwnLines clean id (officeStore "2") junk lines := by
  refine ⟨?_, ?_, ?_⟩
  · rw [← Bool.not_eq_true, dmzBuf_isSome_iff List.length_replicate]
    decide +kernel
  · rw [← Bool.not_eq_true, saveFactory_isSome_iff List.length_replicate List.length_replicate]
    unfold HwaddrsFit
    decide +kernel
  · intro junk hjunk lines hlines hown
    have hnum : 1 < schedNum (officeStore "2") := by decide +kernel
    exact lines_cut hjunk (by decide +kernel) hnum hlines (hown 1 hnum)

end EzpFirmware.Httpd
