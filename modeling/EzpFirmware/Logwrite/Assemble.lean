import EzpFirmware.Lib.Terminators

/-! # The message of a command line

The arguments are put together with spaces in a buffer. The last space becomes the
end of the line.
-/
namespace EzpFirmware.Logwrite
open Lib Lib.CStr

/-- The loop of `assemble_msg`: the place behind the last space, and the buffer. There is no
result if something is written outside of the buffer. -/
def assembleLoop (bufsz : ℕ) : List CStr → ℕ → List UInt8 → Option (ℕ × List UInt8)
  | [], n, msgbuf => some (n, msgbuf)
  | arg :: argv, n, msgbuf =>
    let sl := arg.len
    let wl : ℤ := bufsz - n - 2
    if wl = 0 then some (n, msgbuf)
    else
      let wl := if wl > sl then (sl : ℤ) else wl
      -- a negative length is a huge one for `strncpy`
      if wl < 0 then none
      else do
        let msgbuf ← pokeIn msgbuf n (strncpy [] arg.stored wl.toNat)
        let msgbuf ← pokeIn msgbuf (n + wl.toNat) [32]
        assembleLoop bufsz argv (n + wl.toNat + 1) msgbuf

/-- `assemble_msg` with a buffer of `bufsz` bytes. -/
def assembleMsg (argv : List CStr) (msgbuf : List UInt8) : Option (List UInt8) := do
  let (n, msgbuf) ← assembleLoop msgbuf.length argv 0 msgbuf
  if n = 0 then none
  else
    let msgbuf ← pokeIn msgbuf (n - 1) [10]
    pokeIn msgbuf n [0]

/-- The arguments joined by single spaces. -/
def joined (argv : List CStr) : List UInt8 := [32].intercalate (argv.map Subtype.val)

/-- The buffer holds the longest front of the joined arguments that fits, with the end of the line
and the terminator behind it. -/
def HoldsLine (argv : List CStr) (msgbuf : List UInt8) : Prop :=
  ((joined argv).take (msgbuf.length - 2) ++ [10, 0]) <+: msgbuf

/-- Arguments with a space behind each. -/
def spaced (argv : List CStr) : List UInt8 := argv.flatMap fun arg => arg.val ++ [32]

variable {bufsz n : ℕ} {arg last : CStr} {argv init : List CStr} {w msgbuf : List UInt8}

theorem spaced_cons (arg : CStr) (argv : List CStr) :
    spaced (arg :: argv) = arg.val ++ [32] ++ spaced argv := rfl

theorem append_spaced_nil (w : List UInt8) : w ++ spaced [] = w := List.append_nil w

theorem length_spaced_cons (arg : CStr) (argv : List CStr) :
    (spaced (arg :: argv)).length = arg.len + 1 + (spaced argv).length := by
  rw [spaced_cons, List.length_append, List.length_append]
  rfl

theorem joined_concat (init : List CStr) (last : CStr) :
    joined (init ++ [last]) = spaced init ++ last.val := by
  induction init with
  | nil => exact List.intercalate_singleton
  | cons arg init ih =>
    have hne : (init ++ [last]).map Subtype.val ≠ [] := by simp
    have hrest : [32].intercalate ((init ++ [last]).map Subtype.val) = spaced init ++ last.val := ih
    rw [joined, List.cons_append, List.map_cons, List.intercalate_cons_of_ne_nil hne, hrest,
      spaced_cons]
    simp only [List.append_assoc]

/-- Room in front of a place is overwritten. -/
theorem pokeIn_room {xs : List UInt8} (h : w.length + xs.length ≤ bufsz) (hbuf : msgbuf.length = bufsz)
    (hw : w <+: msgbuf) :
    ∃ msgbuf', pokeIn msgbuf w.length xs = some msgbuf' ∧ msgbuf'.length = bufsz ∧
      (w ++ xs) <+: msgbuf' := by
  obtain ⟨rest, rfl⟩ := hw
  rw [List.length_append] at hbuf
  have hlen : (rest.take xs.length).length = xs.length := List.length_take_of_le (by omega)
  have hpoke := @pokeIn_middle _ w _ xs (rest.drop xs.length) hlen
  rw [List.append_assoc, List.take_append_drop] at hpoke
  refine ⟨_, hpoke, ?_, List.prefix_append _ _⟩
  have hsame := pokeIn_length hpoke
  rw [hsame, List.length_append, hbuf]

/-- One argument goes in as far as there is room for it and the two bytes behind. -/
theorem assembleLoop_cons (hbuf : msgbuf.length = bufsz) (hw : w <+: msgbuf)
    (hroom : w.length + 2 < bufsz) (arg : CStr) (argv : List CStr) :
    ∃ msgbuf', assembleLoop bufsz (arg :: argv) w.length msgbuf =
        assembleLoop bufsz argv
          (w ++ ((arg.take (bufsz - w.length - 2)).val ++ [32])).length msgbuf' ∧
      msgbuf'.length = bufsz ∧
      (w ++ ((arg.take (bufsz - w.length - 2)).val ++ [32])) <+: msgbuf' := by
  set piece := arg.take (bufsz - w.length - 2) with hpiece
  have hlen : piece.val.length = min (bufsz - w.length - 2) arg.len := take_len _ arg
  have hwl : (if (bufsz - w.length - 2 : ℤ) > arg.len then (arg.len : ℤ)
      else bufsz - w.length - 2) = piece.val.length := by
    rw [hlen]
    split <;> omega
  have hcopy : strncpy [] arg.stored piece.val.length = piece.val := by
    rw [strncpy_front arg (by omega), hlen]
    exact List.take_eq_take_min.symm
  obtain ⟨first, hfirst, hfirstLen, hfirstIn⟩ := @pokeIn_room _ _ _ piece.val (by omega) hbuf hw
  obtain ⟨second, hsecond, hsecondLen, hsecondIn⟩ := @pokeIn_room _ _ _ [32]
    (by rw [List.length_append, List.length_singleton]; omega) hfirstLen hfirstIn
  refine ⟨second, ?_, hsecondLen, ?_⟩
  · rw [assembleLoop]
    simp only [hwl]
    rw [if_neg (by omega), if_neg (by omega), Int.toNat_natCast, hcopy, hfirst]
    rw [List.length_append] at hsecond
    simp only [Option.bind_eq_bind, Option.bind_some, hsecond]
    rw [List.length_append, List.length_append]
    rfl
  · rw [← List.append_assoc]
    exact hsecondIn

theorem take_of_len_le {k : ℕ} (h : arg.len ≤ k) : (arg.take k).val = arg.val :=
  List.take_of_length_le h

/-- Arguments that fit go in with a space behind each. -/
theorem assembleLoop_append (hbuf : msgbuf.length = bufsz) (hw : w <+: msgbuf)
    (init argv : List CStr) (hroom : w.length + (spaced init).length + 2 ≤ bufsz) :
    ∃ msgbuf', assembleLoop bufsz (init ++ argv) w.length msgbuf =
        assembleLoop bufsz argv (w ++ spaced init).length msgbuf' ∧
      msgbuf'.length = bufsz ∧ (w ++ spaced init) <+: msgbuf' := by
  induction init generalizing w msgbuf with
  | nil =>
    rw [append_spaced_nil]
    exact ⟨msgbuf, rfl, hbuf, hw⟩
  | cons arg init ih =>
    rw [length_spaced_cons] at hroom
    obtain ⟨next, hstep, hnextLen, hnextIn⟩ :=
      assembleLoop_cons hbuf hw (by omega) arg (init ++ argv)
    rw [take_of_len_le (by omega)] at hstep hnextIn
    have hlen : (w ++ (arg.val ++ [32])).length = w.length + (arg.len + 1) := by
      rw [List.length_append, List.length_append]
      rfl
    obtain ⟨final, hrest, hfinalLen, hfinalIn⟩ := ih hnextLen hnextIn (by omega)
    rw [List.append_assoc] at hrest hfinalIn
    exact ⟨final, hstep.trans hrest, hfinalLen, hfinalIn⟩

/-- The last space becomes the end of the line. -/
theorem finish_line {text : List UInt8} (hbuf : msgbuf.length = bufsz)
    (hw : (text ++ [32]) <+: msgbuf) (hroom : text.length + 2 ≤ bufsz) :
    ∃ msgbuf', (pokeIn msgbuf text.length [10]).bind (pokeIn · (text.length + 1) [0]) =
        some msgbuf' ∧
      msgbuf'.length = bufsz ∧ (text ++ [10, 0]) <+: msgbuf' := by
  have htext : text <+: msgbuf := (List.prefix_append text [32]).trans hw
  obtain ⟨first, hfirst, hfirstLen, hfirstIn⟩ := @pokeIn_room _ _ _ [10]
    (by rw [List.length_singleton]; omega) hbuf htext
  have hlen : (text ++ [10]).length = text.length + 1 := List.length_append
  obtain ⟨second, hsecond, hsecondLen, hsecondIn⟩ := @pokeIn_room _ _ _ [0]
    (by rw [hlen, List.length_singleton]; omega) hfirstLen hfirstIn
  rw [hlen] at hsecond
  rw [List.append_assoc] at hsecondIn
  exact ⟨second, by rw [hfirst, Option.bind_some, hsecond], hsecondLen, hsecondIn⟩

/-- What `assemble_msg` leaves behind its loop. -/
theorem assembleMsg_of_loop {text loopBuf : List UInt8}
    (hloop : assembleLoop msgbuf.length argv 0 msgbuf = some ((text ++ [32]).length, loopBuf))
    (hbuf : loopBuf.length = msgbuf.length) (hw : (text ++ [32]) <+: loopBuf)
    (hroom : text.length + 2 ≤ msgbuf.length) :
    ∃ msgbuf', assembleMsg argv msgbuf = some msgbuf' ∧ msgbuf'.length = msgbuf.length ∧
      (text ++ [10, 0]) <+: msgbuf' := by
  obtain ⟨final, hfinal, hfinalLen, hfinalIn⟩ := finish_line hbuf hw hroom
  refine ⟨final, ?_, hfinalLen, hfinalIn⟩
  have hlen : (text ++ [32]).length = text.length + 1 := List.length_append
  rw [hlen] at hloop
  rw [assembleMsg, hloop]
  exact hfinal

/-- The last argument goes in as far as there is room, with the end of the line behind it. -/
theorem assembleMsg_of_room (init : List CStr) (last : CStr) (msgbuf : List UInt8)
    (hroom : (spaced init).length + 2 < msgbuf.length) :
    ∃ msgbuf', assembleMsg (init ++ [last]) msgbuf = some msgbuf' ∧
      msgbuf'.length = msgbuf.length ∧ HoldsLine (init ++ [last]) msgbuf' := by
  obtain ⟨before, hbefore, hbeforeLen, hbeforeIn⟩ := assembleLoop_append rfl
    (List.nil_prefix (l := msgbuf)) init [last] (by rw [List.length_nil]; omega)
  rw [List.nil_append] at hbefore hbeforeIn
  obtain ⟨loopBuf, hloop, hloopLen, hloopIn⟩ :=
    assembleLoop_cons hbeforeLen hbeforeIn hroom last []
  rw [← List.append_assoc] at hloop hloopIn
  have hpiece : (last.take (msgbuf.length - (spaced init).length - 2)).val.length ≤
      msgbuf.length - (spaced init).length - 2 := List.length_take_le _ _
  obtain ⟨final, hfinal, hfinalLen, hfinalIn⟩ := assembleMsg_of_loop (hbefore.trans hloop) hloopLen
    hloopIn (by rw [List.length_append]; omega)
  refine ⟨final, hfinal, hfinalLen, ?_⟩
  have hwhole : (spaced init).take (msgbuf.length - 2) = spaced init :=
    List.take_of_length_le (by omega)
  have hrest : msgbuf.length - 2 - (spaced init).length =
      msgbuf.length - (spaced init).length - 2 := by omega
  rw [HoldsLine, joined_concat, hfinalLen, List.take_append, hwhole, hrest]
  exact hfinalIn

theorem assembleLoop_past (hn : n + 1 = bufsz) (argv : List CStr) (hne : argv ≠ [])
    (msgbuf : List UInt8) : assembleLoop bufsz argv n msgbuf = none := by
  cases argv with
  | nil => exact absurd rfl hne
  | cons arg argv =>
    have hwl : (bufsz - n - 2 : ℤ) = -1 := by omega
    have hlt : ¬ (-1 : ℤ) > arg.len := by omega
    simp only [assembleLoop, hwl, if_neg hlt]
    rfl

/-- Without room for a byte the loop is left. -/
theorem assembleLoop_stop (hn : n + 2 = bufsz) (argv : List CStr) (hne : argv ≠ [])
    (msgbuf : List UInt8) : assembleLoop bufsz argv n msgbuf = some (n, msgbuf) := by
  cases argv with
  | nil => exact absurd rfl hne
  | cons arg argv => rw [assembleLoop, if_pos (by omega)]

/-- Arguments that leave no room for the last one either stop in front of it or are written
past the end of the buffer. -/
theorem assembleLoop_of_full (hbuf : msgbuf.length = bufsz) (hw : w <+: msgbuf)
    (hin : w.length + 2 ≤ bufsz) (init : List CStr) (last : CStr)
    (hfull : bufsz ≤ w.length + (spaced init).length + 2) :
    assembleLoop bufsz (init ++ [last]) w.length msgbuf = none ∨
      ∃ front msgbuf', front <+: init ∧ (w ++ spaced front).length + 2 = bufsz ∧
        assembleLoop bufsz (init ++ [last]) w.length msgbuf =
          some ((w ++ spaced front).length, msgbuf') ∧
        msgbuf'.length = bufsz ∧ (w ++ spaced front) <+: msgbuf' := by
  induction init generalizing w msgbuf with
  | nil =>
    have heq : w.length + 2 = bufsz := le_antisymm hin hfull
    right
    refine ⟨[], msgbuf, List.nil_prefix, ?_⟩
    rw [append_spaced_nil]
    exact ⟨heq, assembleLoop_stop heq _ (List.cons_ne_nil _ _) msgbuf, hbuf, hw⟩
  | cons arg init ih =>
    by_cases heq : w.length + 2 = bufsz
    · right
      refine ⟨[], msgbuf, List.nil_prefix, ?_⟩
      rw [append_spaced_nil]
      exact ⟨heq, assembleLoop_stop heq _ (List.cons_ne_nil _ _) msgbuf, hbuf, hw⟩
    · obtain ⟨next, hstep, hnextLen, hnextIn⟩ :=
        assembleLoop_cons hbuf hw (by omega) arg (init ++ [last])
      rw [List.cons_append, hstep]
      by_cases hfits : w.length + arg.len + 3 ≤ bufsz
      · rw [take_of_len_le (by omega)] at hnextIn ⊢
        have hlen : (w ++ (arg.val ++ [32])).length = w.length + (arg.len + 1) := by
          rw [List.length_append, List.length_append]
          rfl
        rw [length_spaced_cons] at hfull
        rcases ih hnextLen hnextIn (by omega) (by omega) with
          hnone | ⟨front, final, hfront, hstopped, hloop, hfinal⟩
        · exact .inl hnone
        · have hspaced : w ++ spaced (arg :: front) = w ++ (arg.val ++ [32]) ++ spaced front := by
            rw [spaced_cons, List.append_assoc w]
          right
          refine ⟨arg :: front, final, List.cons_prefix_cons.mpr ⟨rfl, hfront⟩, ?_⟩
          rw [hspaced]
          exact ⟨hstopped, hloop, hfinal⟩
      · left
        apply assembleLoop_past _ _ (List.append_ne_nil_of_right_ne_nil _ (List.cons_ne_nil _ _))
        have hpiece : (arg.take (bufsz - w.length - 2)).val.length = bufsz - w.length - 2 := by
          have hmin := take_len (bufsz - w.length - 2) arg
          rw [CStr.len] at hmin
          omega
        rw [List.length_append, List.length_append, hpiece, List.length_singleton]
        omega

theorem spaced_leading {front : List CStr} (h : front <+: init) : spaced front <+: spaced init := by
  obtain ⟨rest, rfl⟩ := h
  rw [spaced, spaced, List.flatMap_append]
  exact List.prefix_append _ _

theorem spaced_concat (front : List CStr) (arg : CStr) :
    spaced (front ++ [arg]) = spaced front ++ arg.val ++ [32] := by
  rw [spaced, List.flatMap_append, List.flatMap_singleton, ← List.append_assoc]
  rfl

/-- The end of the line stands where the longest front that fits has a space. -/
theorem line_ne_space {text rest line : List UInt8} (hspace : (text ++ [32] ++ rest) <+: line)
    (hend : (text ++ [10, 0]) <+: line) : False := by
  have hleft : (text ++ [32]) <+: line := (List.prefix_append _ _).trans hspace
  have hright : (text ++ [10]) <+: line := by
    refine List.IsPrefix.trans ?_ hend
    exact ⟨[0], List.append_assoc ..⟩
  have hlen : (text ++ [32]).length = (text ++ [10]).length := by
    rw [List.length_append, List.length_append]
    rfl
  have hsame := (List.prefix_of_prefix_length_le hleft hright hlen.le).eq_of_length hlen
  exact absurd (List.append_cancel_left hsame) (by decide)

/-- Where the loop stops for want of room, the line is one byte shorter than it could be. -/
theorem not_holds_of_stopped {front : List CStr} {loopBuf final : List UInt8}
    (hsize : 3 ≤ msgbuf.length) (hfront : front <+: init)
    (hstopped : (spaced front).length + 2 = msgbuf.length)
    (hloop : assembleLoop msgbuf.length (init ++ [last]) 0 msgbuf =
      some ((spaced front).length, loopBuf))
    (hloopLen : loopBuf.length = msgbuf.length) (hloopIn : spaced front <+: loopBuf)
    (hfinal : assembleMsg (init ++ [last]) msgbuf = some final)
    (hlen : final.length = msgbuf.length) : ¬ HoldsLine (init ++ [last]) final := by
  intro hholds
  have hlead : spaced front <+: joined (init ++ [last]) := by
    rw [joined_concat]
    exact (spaced_leading hfront).trans (List.prefix_append _ _)
  have htake : (joined (init ++ [last])).take (final.length - 2) = spaced front := by
    have hroom : final.length - 2 = (spaced front).length := by omega
    rw [hroom]
    exact (List.prefix_iff_eq_take.mp hlead).symm
  rw [HoldsLine, htake] at hholds
  cases front using List.reverseRecOn with
  | nil =>
    rw [spaced, List.flatMap_nil, List.length_nil] at hstopped
    omega
  | append_singleton front arg =>
    rw [spaced_concat] at hstopped hloop hloopIn hholds
    rw [List.length_append, List.length_singleton] at hstopped
    obtain ⟨final', hfinal', -, hin⟩ := assembleMsg_of_loop hloop hloopLen hloopIn (by omega)
    obtain rfl := Option.some.inj (hfinal'.symm.trans hfinal)
    exact line_ne_space hholds hin

/-- The line is right if and only if all arguments but the last one, with a space behind each,
leave room in front of the two bytes at the end. -/
theorem assembleMsg_holds_iff (init : List CStr) (last : CStr) (msgbuf : List UInt8)
    (hsize : 3 ≤ msgbuf.length) :
    (∃ msgbuf', assembleMsg (init ++ [last]) msgbuf = some msgbuf' ∧
      msgbuf'.length = msgbuf.length ∧ HoldsLine (init ++ [last]) msgbuf') ↔
      (spaced init).length + 2 < msgbuf.length := by
  constructor
  · rintro ⟨final, hfinal, hlen, hholds⟩
    by_contra hfull
    have hcases := assembleLoop_of_full rfl (List.nil_prefix (l := msgbuf))
      (by rw [List.length_nil]; omega) init last (by rw [List.length_nil]; omega)
    rw [List.length_nil] at hcases
    rcases hcases with hnone | ⟨front, loopBuf, hfront, hstopped, hloop, hloopLen, hloopIn⟩
    · rw [assembleMsg, hnone] at hfinal
      exact Option.some_ne_none final hfinal.symm
    · rw [List.nil_append] at hstopped hloop hloopIn
      exact not_holds_of_stopped hsize hfront hstopped hloop hloopLen hloopIn hfinal hlen hholds
  · exact assembleMsg_of_room init last msgbuf

theorem assembleMsg_of_two :
    (∃ msgbuf', assembleMsg ([.ofString "a"] ++ [.ofString "b"]) (List.replicate 8 0) =
        some msgbuf' ∧ msgbuf'.length = (List.replicate 8 (0 : UInt8)).length ∧
      HoldsLine ([.ofString "a"] ++ [.ofString "b"]) msgbuf') ↔
      (spaced [.ofString "a"]).length + 2 < (List.replicate 8 (0 : UInt8)).length :=
  assembleMsg_holds_iff [.ofString "a"] (.ofString "b") (List.replicate 8 0) (by decide)

/-- An argument that takes all the room, and another one behind it. -/
theorem full_then_another :
    assembleMsg [.ofString "abc", .ofString "d"] (List.replicate 5 0) = none := by
  decide

end EzpFirmware.Logwrite
