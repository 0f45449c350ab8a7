import EzpFirmware.Logwrite.Kept

/-! # Runs of the log

The messages that are read are the last ones in every state of a run as long as
no call makes the head run into the end of the ring or meet the tail.
-/
namespace EzpFirmware.Logwrite
open Lib Lib.CStr

variable {logbuf logbuf' : Logbuf} {ms : List CStr}

/-! ## One call -/

/-- The ring keeps the last of the messages `ms`, perhaps behind the empty string of a clear. It
keeps none only before the first and behind an empty one. -/
def Logs (logbuf : Logbuf) (ms : List CStr) : Prop :=
  ∃ strs, Kept logbuf strs ∧ strs <:+ CStr.empty :: ms ∧
    (strs = [] → ms ≠ [] → [CStr.empty] <:+ ms)

theorem Logs.shows (h : Logs logbuf ms) : logbuf.Shows ms := by
  obtain ⟨strs, hkept, hlast, hnone⟩ := h
  refine ⟨hkept.bounds.1, hkept.bounds.2, ?_⟩
  rw [hkept.readOut]
  by_cases hnil : strs = [] ∧ ms ≠ []
  · exact ⟨[CStr.empty], hnone hnil.1 hnil.2, fun _ => List.cons_ne_nil _ _, by rw [hnil.1]; rfl⟩
  · rcases List.suffix_cons_iff.mp hlast with rfl | hsuffix
    · exact ⟨ms, List.suffix_refl _, id, rfl⟩
    · exact ⟨strs, hsuffix, fun hms hstrs => hnil ⟨hstrs, hms⟩, rfl⟩

/-- A new message behind the last ones. -/
theorem Logs.of_append {strs bs : List CStr} {msg : CStr} (hkept : Kept logbuf (bs ++ [msg]))
    (hbs : bs <:+ strs) (hlast : strs <:+ CStr.empty :: ms) : Logs logbuf (ms ++ [msg]) := by
  refine ⟨bs ++ [msg], hkept, ?_, fun hnil => ?_⟩
  · rw [← List.cons_append]
    exact List.suffix_append_inj_of_length_eq rfl |>.mpr ⟨hbs.trans hlast, rfl⟩
  · exact absurd hnil (List.append_ne_nil_of_right_ne_nil _ (List.cons_ne_nil _ _))

theorem Logs.circMessage (h : Logs logbuf ms) (hsize : MSGBUF_SIZE < logbuf.size) (msg : Msg)
    (hspares : logbuf.Spares msg.val) :
    ∃ logbuf', circMessage msg.val logbuf = some logbuf' ∧ Logs logbuf' (ms ++ [msg.val]) := by
  obtain ⟨strs, hkept, hlast, -⟩ := h
  by_cases hfits : logbuf.tail + (msg.val.len + 1) < logbuf.size
  · obtain ⟨logbuf', bs, happend, hbs, hkept'⟩ := hkept.append hfits hspares
    exact ⟨logbuf', by rw [Logwrite.circMessage, if_pos hfits, happend],
      Logs.of_append hkept' hbs hlast⟩
  · obtain ⟨logbuf', hcircle, hcases⟩ := @Kept.circle _ _ msg.val hkept (not_lt.mp hfits)
      (lt_of_le_of_lt msg.property hsize)
    refine ⟨logbuf', by rw [Logwrite.circMessage, if_neg hfits, hcircle], ?_⟩
    rcases hcases with ⟨bs, hbs, hkept'⟩ | ⟨hkept', hmeets⟩
    · exact Logs.of_append hkept' hbs hlast
    · rw [Logbuf.Spares, if_neg hfits] at hspares
      have hempty : msg.val = CStr.empty := by
        apply Subtype.ext
        exact List.eq_nil_of_length_eq_zero (not_not.mp fun hne => hspares hne hmeets)
      refine ⟨[], hkept', List.nil_suffix, fun _ _ => ?_⟩
      rw [hempty]
      exact List.suffix_append _ _

theorem Logs.clear (hsize : MSGBUF_SIZE < logbuf.size) :
    ∃ logbuf', logWriteMsgClear logbuf = some logbuf' ∧ Logs logbuf' [] := by
  have hlong : 1 < logbuf.data.length := lt_of_le_of_lt (by decide) hsize
  obtain ⟨b, rest, hdata⟩ := List.exists_cons_of_length_pos (Nat.zero_lt_of_lt hlong)
  have hrest : rest ≠ [] := by
    rintro rfl
    rw [hdata] at hlong
    exact absurd hlong (lt_irrefl 1)
  have hwrite := @pokeIn_middle _ [] [b] [0] rest rfl
  refine ⟨⟨0, 1, [0] ++ rest⟩, ?_, [CStr.empty], ?_, List.suffix_refl _, fun hnil => nomatch hnil⟩
  · rw [logWriteMsgClear, hdata]
    exact congrArg (Option.map _) hwrite
  · exact Kept.flat [] [CStr.empty] rest (Nat.zero_le 1) hrest

/-- A call that spares the ring keeps the last messages. -/
theorem Logs.exec (h : Logs logbuf ms) (hsize : MSGBUF_SIZE < logbuf.size) (call : Call)
    (hspares : call.Spares logbuf) :
    ∃ logbuf', call.exec logbuf = some logbuf' ∧ Logs logbuf' (logged ms [call]) := by
  cases call with
  | circMessage msg => exact h.circMessage hsize msg hspares
  | logWriteMsgClear => exact Logs.clear hsize

/-- What a message that is broken up leaves, and that the size stays. -/
theorem circleMessage_cases {msg : CStr} (h : logbuf.circleMessage msg = some logbuf') :
    logbuf' = { logbuf with head := 0, tail := 0 } ∨
      ∃ c data, memchr logbuf.data (logbuf.tail + (msg.len + 1) - logbuf.size) = some c ∧
        data.length = logbuf.data.length ∧
        logbuf' = ⟨c + 1, logbuf.tail + (msg.len + 1) - logbuf.size + 1, data⟩ := by
  rw [Logbuf.circleMessage] at h
  split at h
  case h_1 c hc =>
    right
    rw [Option.ite_none_left_eq_some] at h
    obtain ⟨data, hdata, rfl⟩ := Option.map_eq_some_iff.mp h.2
    obtain ⟨data₁, hwrite, hrest⟩ := Option.bind_eq_some_iff.mp hdata
    obtain ⟨data₂, hterm, hwrap⟩ := Option.bind_eq_some_iff.mp hrest
    refine ⟨c, data, hc, ?_, rfl⟩
    rw [pokeIn_length hwrap, pokeIn_length hterm, pokeIn_length hwrite]
  case h_2 => exact .inl (Option.some.inj h).symm

/-- No call changes the size. -/
theorem exec_size {call : Call} (h : call.exec logbuf = some logbuf') :
    logbuf'.size = logbuf.size := by
  cases call with
  | circMessage msg =>
    rw [Call.exec, Logwrite.circMessage] at h
    split at h
    · obtain ⟨data, hdata, rfl⟩ := Option.map_eq_some_iff.mp h
      exact pokeIn_length hdata
    · rcases circleMessage_cases h with rfl | ⟨c, data, -, hlen, rfl⟩
      · rfl
      · exact hlen
  | logWriteMsgClear =>
    obtain ⟨data, hdata, rfl⟩ := Option.map_eq_some_iff.mp h
    exact pokeIn_length hdata

/-- A message that runs into the last byte leaves the head behind the ring. -/
theorem appendMessage_runs_out {msg : CStr} (hover : logbuf.tail < logbuf.head)
    (hreach : logbuf.head ≤ logbuf.tail + (msg.len + 1)) (hpos : 0 < logbuf.size)
    (hlast : memchr logbuf.data (logbuf.tail + (msg.len + 1)) = some (logbuf.size - 1))
    (happend : logbuf.appendMessage msg = some logbuf') : logbuf'.head = logbuf.size := by
  simp only [Logbuf.appendMessage] at happend
  rw [if_pos ⟨hover, hreach⟩, Nat.add_sub_cancel' hreach, hlast] at happend
  obtain ⟨data, -, rfl⟩ := Option.map_eq_some_iff.mp happend
  exact Nat.sub_add_cancel hpos

/-- A message whose end falls on a terminator makes the ring look empty. -/
theorem circleMessage_meets {msg : CStr}
    (hmeets : memchr logbuf.data (logbuf.tail + (msg.len + 1) - logbuf.size) =
      some (logbuf.tail + (msg.len + 1) - logbuf.size))
    (hcircle : logbuf.circleMessage msg = some logbuf') : logbuf'.readOut = [] := by
  rcases circleMessage_cases hcircle with rfl | ⟨c, data, hc, -, rfl⟩
  · rfl
  · rw [hmeets] at hc
    cases hc
    rw [Logbuf.readOut, if_pos le_rfl, List.drop_eq_nil_of_le (List.length_take_le _ _)]
    rfl

/-- The condition is no more than what the state behind the call shows. -/
theorem spares_of_shows {call : Call} (hpos : 0 < logbuf.size)
    (h : call.exec logbuf = some logbuf') (hshows : logbuf'.Shows (logged ms [call])) :
    call.Spares logbuf := by
  cases call with
  | circMessage msg =>
    have hsame := exec_size h
    rw [Call.exec, Logwrite.circMessage] at h
    rw [Call.Spares, Logbuf.Spares]
    split at h
    case isTrue hfits =>
      rw [if_pos hfits]
      intro hover hreach hlast
      have hhead := appendMessage_runs_out hover hreach hpos hlast h
      have hin := hshows.1
      omega
    case isFalse hfits =>
      rw [if_neg hfits]
      intro hne hmeets
      obtain ⟨last, hsuffix, hsome, hread⟩ := hshows.2.2
      rw [circleMessage_meets hmeets h] at hread
      rcases List.suffix_concat_iff.mp hsuffix with rfl | ⟨earlier, rfl, -⟩
      · exact hsome (List.append_ne_nil_of_right_ne_nil _ (List.cons_ne_nil _ _)) rfl
      · apply hne
        rw [List.flatMap_append, List.flatMap_singleton, eq_comm, List.append_eq_nil_iff] at hread
        exact List.length_eq_zero_iff.mpr hread.2
  | logWriteMsgClear => trivial

/-! ## Runs -/

theorem run_concat (calls : List Call) (call : Call) (logbuf : Logbuf) :
    run (calls ++ [call]) logbuf = (run calls logbuf).bind call.exec := by
  induction calls generalizing logbuf with
  | nil =>
    change (call.exec logbuf).bind some = _
    rw [Option.bind_fun_some]
    rfl
  | cons c calls ih =>
    change (c.exec logbuf).bind (run (calls ++ [call])) = ((c.exec logbuf).bind (run calls)).bind _
    rw [Option.bind_assoc, funext ih]

theorem run_pair {first second : Call} {next : Logbuf} (hfirst : first.exec logbuf = some next)
    (hsecond : second.exec next = some logbuf') :
    run [first, second] logbuf = some logbuf' := by
  rw [run, hfirst, Option.bind_some, run, hsecond]
  rfl

theorem logged_concat (calls : List Call) (call : Call) (ms : List CStr) :
    logged ms (calls ++ [call]) = logged (logged ms calls) [call] := by
  induction calls generalizing ms with
  | nil => rfl
  | cons c calls ih =>
    cases c with
    | circMessage msg => exact ih _
    | logWriteMsgClear => exact ih _

theorem run_size {calls : List Call} (h : run calls logbuf = some logbuf') :
    logbuf'.size = logbuf.size := by
  induction calls generalizing logbuf with
  | nil => rw [Option.some.inj h]
  | cons call calls ih =>
    obtain ⟨next, hexec, hrun⟩ := Option.bind_eq_some_iff.mp h
    rw [ih hrun, exec_size hexec]

section
variable {data : List UInt8}

/-- A new ring keeps nothing. -/
theorem logs_init (hsize : MSGBUF_SIZE < data.length) : Logs (ipcsyslogInit data) [] :=
  ⟨[], Kept.flat [] [] data (Nat.zero_le 1) (List.ne_nil_of_length_pos (Nat.zero_lt_of_lt hsize)),
    List.nil_suffix, fun _ hms => absurd rfl hms⟩

/-- The ring behind a run that it has kept the last messages in. -/
theorem logs_concat (hsize : MSGBUF_SIZE < data.length) {calls : List Call} {call : Call}
    (hrun : run calls (ipcsyslogInit data) = some logbuf) (hlogs : Logs logbuf (logged [] calls))
    (hspares : call.Spares logbuf) :
    ∃ logbuf', run (calls ++ [call]) (ipcsyslogInit data) = some logbuf' ∧
      Logs logbuf' (logged [] (calls ++ [call])) := by
  have hsize' : MSGBUF_SIZE < logbuf.size := (run_size hrun).symm ▸ hsize
  rw [run_concat, logged_concat, hrun]
  exact hlogs.exec hsize' call hspares

theorem logs_of_spares (hsize : MSGBUF_SIZE < data.length) {calls : List Call}
    (h : ∀ pre call, pre ++ [call] <+: calls → ∀ logbuf,
      run pre (ipcsyslogInit data) = some logbuf → call.Spares logbuf) :
    ∃ logbuf, run calls (ipcsyslogInit data) = some logbuf ∧ Logs logbuf (logged [] calls) := by
  induction calls using List.reverseRecOn with
  | nil => exact ⟨_, rfl, logs_init hsize⟩
  | append_singleton calls call ih =>
    obtain ⟨logbuf, hrun, hlogs⟩ := ih fun pre call hpre =>
      h pre call (hpre.trans (List.prefix_append _ _))
    exact logs_concat hsize hrun hlogs (h calls call (List.prefix_refl _) logbuf hrun)

end

/-- **In every state of a run the head and the tail are places of the ring, nothing was written
outside of it and the last messages are read, exactly if every call spares the ring.** -/
theorem run_shows_iff {data : List UInt8} (hsize : MSGBUF_SIZE < data.length)
    (calls : List Call) :
    (∀ pre, pre <+: calls → ∃ logbuf, run pre (ipcsyslogInit data) = some logbuf ∧
      logbuf.Shows (logged [] pre)) ↔
    ∀ pre call, pre ++ [call] <+: calls → ∀ logbuf,
      run pre (ipcsyslogInit data) = some logbuf → call.Spares logbuf := by
  constructor
  · intro h pre call hpre logbuf hrun
    obtain ⟨logbuf', hrun', hshows⟩ := h _ hpre
    rw [run_concat, hrun] at hrun'
    rw [logged_concat] at hshows
    have hpos : 0 < logbuf.size := (run_size hrun).symm ▸ Nat.zero_lt_of_lt hsize
    exact spares_of_shows hpos hrun' hshows
  · intro h pre hpre
    obtain ⟨logbuf, hrun, hlogs⟩ := logs_of_spares hsize fun earlier call hearlier =>
      h earlier call (hearlier.trans hpre)
    exact ⟨logbuf, hrun, hlogs.shows⟩

/-- A call that does not spare the ring is seen. -/
theorem not_shows {data : List UInt8} {calls : List Call} {call : Call}
    (hrun : run calls (ipcsyslogInit data) = some logbuf) (hpos : 0 < logbuf.size)
    (hnot : ¬ call.Spares logbuf) :
    ¬ ∀ pre, pre <+: calls ++ [call] → ∃ logbuf, run pre (ipcsyslogInit data) = some logbuf ∧
      logbuf.Shows (logged [] pre) := by
  intro h
  obtain ⟨logbuf', hrun', hshows⟩ := h _ (List.prefix_refl _)
  rw [run_concat, hrun] at hrun'
  rw [logged_concat] at hshows
  exact hnot (spares_of_shows hpos hrun' hshows)

theorem line_bytes : (0 : UInt8) ∉ List.replicate 255 (65 : UInt8) := by
  rw [List.mem_replicate]
  decide

/-- A line of 255 bytes. -/
def lineText : CStr := ⟨List.replicate 255 65, line_bytes⟩

theorem lineText_len : lineText.len = 255 := List.length_replicate

theorem lineText_short : lineText.len < MSGBUF_SIZE := by
  rw [lineText_len]
  decide

def line : Msg := ⟨lineText, lineText_short⟩

/-- A line and a clear spare a ring of 513 bytes. -/
theorem line_shows :
    (∀ pre, pre <+: [Call.circMessage line, .logWriteMsgClear] → ∃ logbuf,
      run pre (ipcsyslogInit (List.replicate 513 0)) = some logbuf ∧
        logbuf.Shows (logged [] pre)) ↔
    ∀ pre call, pre ++ [call] <+: [Call.circMessage line, .logWriteMsgClear] → ∀ logbuf,
      run pre (ipcsyslogInit (List.replicate 513 0)) = some logbuf → call.Spares logbuf :=
  run_shows_iff (by rw [List.length_replicate]; decide) _

/-- Two lines fill the ring but for a byte. -/
theorem run_two_lines :
    run [.circMessage line, .circMessage line] (ipcsyslogInit (List.replicate 513 0)) =
      some ⟨0, 512, lineText.stored ++ lineText.stored ++ [0]⟩ := by
  have hroom : (List.replicate 256 (0 : UInt8)).length = lineText.len + 1 := by
    rw [List.length_replicate, lineText_len]
  have hdata : List.replicate 513 (0 : UInt8) =
      [] ++ List.replicate 256 0 ++ (List.replicate 256 0 ++ [0]) := by
    rw [← List.replicate_succ', List.nil_append, ← List.replicate_add]
  have hlen : lineText.stored.length = 256 := by rw [stored_length, lineText_len]
  have hfirst : circMessage lineText ⟨0, 0, List.replicate 513 0⟩ =
      some ⟨0, 256, lineText.stored ++ List.replicate 256 0 ++ [0]⟩ := by
    rw [Logwrite.circMessage, if_pos, hdata]
    · refine (appendMessage_still (x := []) hroom (by omega)).trans ?_
      rw [lineText_len, List.nil_append, List.append_assoc]
      rfl
    · rw [Logbuf.size, List.length_replicate, lineText_len]
      decide
  have hsecond : circMessage lineText ⟨0, 256, lineText.stored ++ List.replicate 256 0 ++ [0]⟩ =
      some ⟨0, 512, lineText.stored ++ lineText.stored ++ [0]⟩ := by
    rw [Logwrite.circMessage, if_pos]
    · have happend := @appendMessage_still _ lineText.stored _ [0] 0 hroom
        (by omega)
      rwa [hlen, lineText_len] at happend
    · simp only [Logbuf.size, List.length_append, hlen, List.length_replicate, lineText_len]
      decide
  rw [ipcsyslogInit]
  exact run_pair hfirst hsecond

/-- The end of a third line falls on the terminator of the first, and nothing is read. -/
theorem three_lines_hidden :
    ¬ ∀ pre, pre <+: [Call.circMessage line, .circMessage line] ++ [.circMessage line] →
      ∃ logbuf, run pre (ipcsyslogInit (List.replicate 513 0)) = some logbuf ∧
        logbuf.Shows (logged [] pre) := by
  have hsize : Logbuf.size ⟨0, 512, lineText.stored ++ lineText.stored ++ [0]⟩ = 513 := by
    simp only [Logbuf.size, List.length_append, stored_length, lineText_len]
    rfl
  have hmeets := memchr_stored [] lineText (lineText.stored ++ [0]) (k := 255) (Nat.zero_le _)
    (by rw [lineText_len]; exact le_rfl)
  rw [List.nil_append, ← List.append_assoc, lineText_len] at hmeets
  apply not_shows run_two_lines
  · rw [hsize]
    decide
  · have hlen : line.val.len = 255 := lineText_len
    rw [Call.Spares, Logbuf.Spares, hsize, hlen, if_neg (by decide)]
    exact fun hspares => hspares (by decide) hmeets

end EzpFirmware.Logwrite
