import EzpFirmware.Logwrite.Ring

/-! # What the ring keeps

Each call keeps the last of the messages that were kept before, and the new one
behind them.
-/
namespace EzpFirmware.Logwrite
open Lib Lib.CStr

variable {logbuf : Logbuf} {strs : List CStr}

theorem filter_stored (s : CStr) : s.stored.filter (· != 0) = s.val := by
  have hkeep : s.val.filter (· != 0) = s.val := by
    apply List.filter_eq_self.mpr
    intro b hb
    exact bne_iff_ne.mpr fun hz => s.property (hz.subst (motive := (· ∈ s.val)) hb)
  rw [stored, List.filter_append, hkeep]
  exact List.append_nil _

theorem filter_storedAll (ss : List CStr) :
    (storedAll ss).filter (· != 0) = ss.flatMap (·.val) := by
  induction ss with
  | nil => rfl
  | cons s ss ih => rw [storedAll_cons, List.filter_append, filter_stored, ih, List.flatMap_cons]

/-- Head and tail are places of the ring. -/
theorem Kept.bounds (h : Kept logbuf strs) :
    logbuf.head < logbuf.size ∧ logbuf.tail < logbuf.size := by
  cases h with
  | flat ends strs rest hends hrest =>
    have hpos := List.length_pos_iff.mpr hrest
    simp only [Logbuf.size, storedAll_append, List.length_append]
    omega
  | wrapped rem new gap old front hgap =>
    simp only [Logbuf.size, storedAll_append, storedAll_singleton, List.length_append,
      stored_length]
    omega

/-- What is read are the messages that are kept. -/
theorem Kept.readOut (h : Kept logbuf strs) : logbuf.readOut = strs.flatMap (·.val) := by
  cases h with
  | flat ends strs rest hends hrest =>
    have hle : (storedAll ends).length ≤ (storedAll (ends ++ strs)).length := by
      rw [storedAll_append, List.length_append]
      exact Nat.le_add_right _ _
    rw [Logbuf.readOut, if_pos hle, List.take_left, storedAll_append, List.drop_left,
      filter_storedAll]
  | wrapped rem new gap old front hgap =>
    have hlt : ¬ (storedAll (rem :: new)).length + gap.length ≤ (storedAll (rem :: new)).length :=
      not_le.mpr (Nat.lt_add_of_pos_right (List.length_pos_iff.mpr hgap))
    have hdrop : (storedAll (rem :: new) ++ gap ++ storedAll (old ++ [front])).drop
        ((storedAll (rem :: new)).length + gap.length) = storedAll (old ++ [front]) := by
      rw [← List.length_append, List.drop_left]
    have htake : (storedAll (rem :: new) ++ gap ++ storedAll (old ++ [front])).take
        (storedAll (rem :: new)).length = storedAll (rem :: new) := by
      rw [List.append_assoc, List.take_left]
    rw [Logbuf.readOut, if_neg hlt, hdrop, htake, List.filter_append, filter_storedAll,
      filter_storedAll]
    simp [CStr.append]

/-- What stands in front of the tail are strings, of which all but the first are kept. -/
theorem Kept.strings (h : Kept logbuf strs) : ∃ zs rest, logbuf.tail = (storedAll zs).length ∧
    logbuf.data = storedAll zs ++ rest ∧ rest ≠ [] ∧
      ∀ as s bs, zs = as ++ s :: bs → bs <:+ strs := by
  cases h with
  | flat ends strs rest hends hrest =>
    refine ⟨ends ++ strs, rest, rfl, rfl, hrest, ?_⟩
    intro as s bs hsplit
    apply @List.suffix_of_suffix_length_le _ _ (ends ++ strs) _ ⟨as ++ [s], ?_⟩ ⟨ends, rfl⟩
    · have hlen := congrArg List.length hsplit
      simp only [List.length_append, List.length_cons] at hlen
      omega
    · rw [hsplit, List.append_assoc]
      rfl
  | wrapped rem new gap old front hgap =>
    refine ⟨rem :: new, gap ++ storedAll (old ++ [front]), rfl, List.append_assoc .., ?_, ?_⟩
    · exact List.append_ne_nil_of_left_ne_nil hgap _
    · intro as s bs hsplit
      have hnew : bs <:+ new := by
        cases as with
        | nil =>
          cases hsplit
          exact List.suffix_refl _
        | cons a as =>
          cases hsplit
          exact ⟨as ++ [s], by rw [List.append_assoc]; rfl⟩
      exact hnew.trans (List.suffix_append _ _)

/-! ## A message that fits -/

/-- The head stays where it is. -/
theorem appendMessage_still {msg : CStr} {x y z : List UInt8} {head : ℕ}
    (hy : y.length = msg.len + 1) (hstill : ¬(x.length < head ∧ head ≤ x.length + (msg.len + 1))) :
    Logbuf.appendMessage ⟨head, x.length, x ++ y ++ z⟩ msg =
      some ⟨head, x.length + (msg.len + 1), x ++ msg.stored ++ z⟩ := by
  simp only [Logbuf.appendMessage]
  rw [if_neg hstill, strncpy_stored, pokeIn_middle x z (hy.trans (stored_length msg).symm)]
  rfl

/-- The head moves behind the string that the end of the message falls on. -/
theorem appendMessage_moves {msg : CStr} {x y z : List UInt8} {head c : ℕ}
    (hy : y.length = msg.len + 1) (hover : x.length < head) (hreach : head ≤ x.length + (msg.len + 1))
    (hc : memchr (x ++ y ++ z) (x.length + (msg.len + 1)) = some c) :
    Logbuf.appendMessage ⟨head, x.length, x ++ y ++ z⟩ msg =
      some ⟨c + 1, x.length + (msg.len + 1), x ++ msg.stored ++ z⟩ := by
  simp only [Logbuf.appendMessage]
  rw [if_pos ⟨hover, hreach⟩, Nat.add_sub_cancel' hreach, hc, strncpy_stored,
    pokeIn_middle x z (hy.trans (stored_length msg).symm)]
  rfl

/-- The room behind the tail that a message takes. -/
theorem split_room {room : List UInt8} {l : ℕ} (h : l < room.length) :
    ∃ y z, room = y ++ z ∧ y.length = l ∧ z ≠ [] ∧ z.length = room.length - l := by
  refine ⟨room.take l, room.drop l, (List.take_append_drop l room).symm,
    List.length_take_of_le h.le, ?_, List.length_drop⟩
  exact List.ne_nil_of_length_pos (by rw [List.length_drop]; omega)

theorem kept_behind (ends strs : List CStr) (msg : CStr) {z : List UInt8} (hends : ends.length ≤ 1)
    (hz : z ≠ []) :
    Kept ⟨(storedAll ends).length, (storedAll (ends ++ strs)).length + (msg.len + 1),
      storedAll (ends ++ strs) ++ msg.stored ++ z⟩ (strs ++ [msg]) := by
  have hstored : storedAll (ends ++ strs) ++ msg.stored = storedAll (ends ++ (strs ++ [msg])) := by
    rw [← List.append_assoc, storedAll_append (ends ++ strs), storedAll_singleton]
  rw [← stored_length msg, ← List.length_append, hstored]
  exact Kept.flat ends (strs ++ [msg]) z hends hz

theorem kept_between (rem : CStr) (new : List CStr) (msg : CStr) {z : List UInt8}
    (old : List CStr) (front : CStr) (hz : z ≠ []) {head : ℕ}
    (hhead : head = (storedAll (rem :: new)).length + (msg.len + 1) + z.length) :
    Kept ⟨head, (storedAll (rem :: new)).length + (msg.len + 1),
      storedAll (rem :: new) ++ msg.stored ++ (z ++ storedAll (old ++ [front]))⟩
      (old ++ [front.append rem] ++ new ++ [msg]) := by
  have hstored : storedAll (rem :: new) ++ msg.stored = storedAll (rem :: (new ++ [msg])) := by
    rw [← List.cons_append, storedAll_append, storedAll_singleton]
  rw [hhead, ← stored_length msg, ← List.length_append, hstored, ← List.append_assoc,
    List.append_assoc _ new]
  exact Kept.wrapped rem (new ++ [msg]) z old front hz

/-- A message in front of the strings that are kept at the end of the ring. -/
theorem Kept.append_gap (rem : CStr) (new : List CStr) (gap : List UInt8) (old : List CStr)
    (front : CStr) {msg : CStr} (hgap : msg.len + 1 < gap.length) :
    ∃ logbuf', Logbuf.appendMessage ⟨(storedAll (rem :: new)).length + gap.length,
        (storedAll (rem :: new)).length,
        storedAll (rem :: new) ++ gap ++ storedAll (old ++ [front])⟩ msg = some logbuf' ∧
      Kept logbuf' (old ++ [front.append rem] ++ new ++ [msg]) := by
  obtain ⟨y, z, rfl, hy, hz, -⟩ := split_room hgap
  rw [← List.append_assoc, List.append_assoc _ z, appendMessage_still hy]
  · refine ⟨_, rfl, kept_between rem new msg old front hz ?_⟩
    rw [List.length_append, hy, ← Nat.add_assoc]
  · rw [not_and, not_le]
    exact fun _ => Nat.add_lt_add_left hgap _

/-- A message that overwrites strings at the end of the ring. -/
theorem Kept.append_over (rem : CStr) (new : List CStr) (gap : List UInt8) (as : List CStr)
    (s : CStr) (bs : List CStr) (front : CStr) {msg : CStr} (hgap : gap ≠ [])
    (hle : gap.length + (storedAll as).length ≤ msg.len + 1)
    (hge : msg.len + 1 ≤ gap.length + (storedAll as).length + s.len) :
    ∃ logbuf', Logbuf.appendMessage ⟨(storedAll (rem :: new)).length + gap.length,
        (storedAll (rem :: new)).length,
        storedAll (rem :: new) ++ gap ++ storedAll ((as ++ s :: bs) ++ [front])⟩ msg =
          some logbuf' ∧
      Kept logbuf' (bs ++ [front.append rem] ++ new ++ [msg]) := by
  have hpos := List.length_pos_iff.mpr hgap
  have hdata : storedAll (rem :: new) ++ gap ++ storedAll ((as ++ s :: bs) ++ [front]) =
      storedAll (rem :: new) ++ gap ++ storedAll as ++ s.stored ++ storedAll (bs ++ [front]) := by
    simp only [List.append_assoc, List.cons_append, storedAll_append, storedAll_cons]
  have hc := memchr_stored (storedAll (rem :: new) ++ gap ++ storedAll as) s
    (storedAll (bs ++ [front])) (k := (storedAll (rem :: new)).length + (msg.len + 1))
    (by simp only [List.length_append]; omega) (by simp only [List.length_append]; omega)
  obtain ⟨y, z, hroom, hy, hz, hzlen⟩ := @split_room (gap ++ storedAll as ++ s.stored)
    (msg.len + 1) (by simp only [List.length_append, stored_length]; omega)
  have hsplit : storedAll (rem :: new) ++ gap ++ storedAll as ++ s.stored ++
      storedAll (bs ++ [front]) =
        storedAll (rem :: new) ++ y ++ (z ++ storedAll (bs ++ [front])) := by
    rw [List.append_assoc _ y, ← List.append_assoc y, ← hroom]
    simp only [List.append_assoc]
  rw [hsplit] at hc
  rw [hdata, hsplit, appendMessage_moves hy (by omega) (by omega) hc]
  refine ⟨_, rfl, kept_between rem new msg bs front hz ?_⟩
  rw [hzlen]
  simp only [List.length_append, stored_length] at hge ⊢
  omega

/-- A search from within the last string of the ring. -/
theorem memchr_last (x : List UInt8) (old : List CStr) (front : CStr) {k : ℕ}
    (hle : x.length + (storedAll old).length ≤ k)
    (hlt : k < (x ++ storedAll (old ++ [front])).length) :
    memchr (x ++ storedAll (old ++ [front])) k =
      some ((x ++ storedAll (old ++ [front])).length - 1) := by
  have hdata : x ++ storedAll (old ++ [front]) = x ++ storedAll old ++ front.stored ++ [] := by
    rw [storedAll_append, storedAll_singleton, List.append_nil, List.append_assoc]
  rw [hdata] at hlt ⊢
  simp only [List.length_append, stored_length, List.length_nil] at hlt
  rw [memchr_stored _ front [] (by rw [List.length_append]; exact hle)
    (by rw [List.length_append]; omega)]
  simp only [List.length_append, stored_length, List.length_nil]
  rfl

/-- A message that fits is kept with the last of the others. -/
theorem Kept.append {msg : CStr} (h : Kept logbuf strs)
    (hfits : logbuf.tail + (msg.len + 1) < logbuf.size) (hspares : logbuf.Spares msg) :
    ∃ logbuf' bs, logbuf.appendMessage msg = some logbuf' ∧ bs <:+ strs ∧
      Kept logbuf' (bs ++ [msg]) := by
  rw [Logbuf.Spares, if_pos hfits] at hspares
  cases h with
  | flat ends strs rest hends hrest =>
    have hroom : msg.len + 1 < rest.length := by
      rw [Logbuf.size, List.length_append] at hfits
      exact Nat.lt_of_add_lt_add_left hfits
    obtain ⟨y, z, rfl, hy, hz, -⟩ := split_room hroom
    refine ⟨_, strs, ?_, List.suffix_refl _, kept_behind ends strs msg hends hz⟩
    rw [← List.append_assoc]
    apply appendMessage_still hy
    rw [storedAll_append, List.length_append]
    omega
  | wrapped rem new gap old front hgap =>
    rcases Nat.lt_or_ge (msg.len + 1) gap.length with hshort | hreach
    · obtain ⟨logbuf', happend, hkept⟩ := Kept.append_gap rem new gap old front hshort
      exact ⟨logbuf', _, happend, List.suffix_refl _, hkept⟩
    · have hpos := List.length_pos_iff.mpr hgap
      have hold : msg.len + 1 < gap.length + (storedAll old).length := by
        by_contra hover
        apply hspares (Nat.lt_add_of_pos_right hpos) (Nat.add_le_add_left hreach _)
        exact memchr_last _ old front (by rw [List.length_append]; dsimp only; omega) hfits
      obtain ⟨as, s, bs, rfl, hle, hge⟩ := @exists_at old (msg.len + 1 - gap.length)
        (by omega)
      obtain ⟨logbuf', happend, hkept⟩ := @Kept.append_over rem new gap as s bs front
        msg hgap (by omega) (by omega)
      refine ⟨logbuf', _, happend, ⟨as ++ [s], ?_⟩, hkept⟩
      simp only [List.append_assoc, List.cons_append, List.nil_append]

/-! ## A message that is broken up -/

/-- What the writes leave: the end of the message in front, its front at the end of the ring. -/
theorem writeCircled_eq {msg : CStr} {head : ℕ} {x front : List UInt8} {b : UInt8}
    (hfront : front.length ≤ msg.len) (hroom : msg.len - front.length < x.length) :
    Logbuf.writeCircled ⟨head, x.length, x ++ (front ++ [b])⟩ msg front.length =
      some ((msg.skip front.length).stored ++ x.drop (msg.len - front.length + 1) ++
        (msg.take front.length).stored) := by
  have hlen : (msg.take front.length).val.length = front.length := by
    rw [← CStr.len, take_len, min_eq_left hfront]
  have hlast : (x ++ (front ++ [b])).length - 1 = (x ++ (msg.take front.length).val).length := by
    rw [← List.append_assoc, List.length_append, List.length_append, List.length_append, hlen]
    rfl
  have hend : (x.take (msg.len - front.length + 1)).length =
      (msg.skip front.length).stored.length := by
    rw [List.length_take, stored_length, skip_len]
    omega
  have hwrite := pokeIn_middle x [b] hlen.symm
  have hterm := @pokeIn_middle _ (x ++ (msg.take front.length).val) [b] [0] [] rfl
  have hwrap := pokeIn_middle [] (x.drop (msg.len - front.length + 1) ++
    (msg.take front.length).stored) hend
  rw [List.append_assoc] at hwrite
  rw [List.append_nil, List.append_nil] at hterm
  rw [List.nil_append, List.nil_append, ← List.append_assoc, List.take_append_drop, stored,
    ← List.append_assoc] at hwrap
  rw [Logbuf.writeCircled, strncpy_front msg hfront, hwrite, Option.bind_eq_bind, Option.bind_some,
    Logbuf.size, hlast, hterm, Option.bind_some]
  refine hwrap.trans ?_
  simp only [stored, List.append_assoc]

/-- The ring after a message that is broken up. -/
theorem circleMessage_eq {msg : CStr} {head c : ℕ} {x front : List UInt8} {b : UInt8}
    (hfront : front.length ≤ msg.len) (hroom : msg.len - front.length < x.length)
    (hc : memchr (x ++ (front ++ [b])) (msg.len - front.length) = some c) :
    Logbuf.circleMessage ⟨head, x.length, x ++ (front ++ [b])⟩ msg =
      some ⟨c + 1, msg.len - front.length + 1,
        (msg.skip front.length).stored ++ x.drop (msg.len - front.length + 1) ++
          (msg.take front.length).stored⟩ := by
  have hk : x.length + (msg.len + 1) - (x ++ (front ++ [b])).length = msg.len - front.length := by
    rw [List.length_append, List.length_append, List.length_singleton]
    omega
  have hnot : ¬ msg.len + 1 < msg.len - front.length + 1 := by omega
  have hcount : msg.len + 1 - (msg.len - front.length) - 1 = front.length := by omega
  simp only [Logbuf.circleMessage, Logbuf.size, hk, hc, hcount, writeCircled_eq hfront hroom,
    if_neg hnot, Option.map_some]

/-- A message that is broken up is kept with the last of the others, or its end falls on a
terminator. -/
theorem Kept.circle {msg : CStr} (h : Kept logbuf strs)
    (hlong : logbuf.size ≤ logbuf.tail + (msg.len + 1)) (hroom : msg.len + 1 < logbuf.size) :
    ∃ logbuf', logbuf.circleMessage msg = some logbuf' ∧
      ((∃ bs, bs <:+ strs ∧ Kept logbuf' (bs ++ [msg])) ∨
        (Kept logbuf' [] ∧ memchr logbuf.data (logbuf.tail + (msg.len + 1) - logbuf.size) =
          some (logbuf.tail + (msg.len + 1) - logbuf.size))) := by
  obtain ⟨zs, rest, htail, hdata, hrest, hsuffix⟩ := h.strings
  obtain ⟨front, b, rfl⟩ : ∃ front b, rest = front ++ [b] :=
    ⟨_, _, (List.dropLast_append_getLast hrest).symm⟩
  obtain ⟨head, tail, data⟩ := logbuf
  simp only [Logbuf.size] at htail hdata hlong hroom ⊢
  subst htail hdata
  rw [List.length_append, List.length_append, List.length_singleton] at hlong hroom ⊢
  have hk : (storedAll zs).length + (msg.len + 1) - ((storedAll zs).length + (front.length + 1)) =
      msg.len - front.length := by omega
  rw [hk]
  obtain ⟨as, s, bs, rfl, hle, hge⟩ := @exists_at zs (msg.len - front.length)
    (by omega)
  have hdata : storedAll (as ++ s :: bs) = storedAll as ++ s.stored ++ storedAll bs := by
    rw [storedAll_append, storedAll_cons, List.append_assoc]
  have hc : memchr (storedAll (as ++ s :: bs) ++ (front ++ [b])) (msg.len - front.length) =
      some ((storedAll as).length + s.len) := by
    rw [hdata, List.append_assoc]
    exact memchr_stored _ s _ hle hge
  refine ⟨_, circleMessage_eq (by omega) (by omega) hc, ?_⟩
  have hgap : (storedAll (as ++ s :: bs)).drop (msg.len - front.length + 1) =
      (storedAll as ++ s.stored).drop (msg.len - front.length + 1) ++ storedAll bs := by
    rw [hdata, List.drop_append_of_le_length]
    rw [List.length_append, stored_length]
    omega
  have hend : (msg.skip front.length).stored = storedAll [msg.skip front.length] :=
    (storedAll_singleton _).symm
  have hendlen : (storedAll [msg.skip front.length]).length = msg.len - front.length + 1 := by
    rw [← hend, stored_length, skip_len]
  have hstart : storedAll bs ++ (msg.take front.length).stored =
      storedAll (bs ++ [msg.take front.length]) := by
    rw [storedAll_append, storedAll_singleton]
  rw [hgap, hend, ← List.append_assoc, List.append_assoc _ (storedAll bs), hstart, ← hendlen]
  have hgaplen : ((storedAll as ++ s.stored).drop (storedAll [msg.skip front.length]).length).length =
      (storedAll as).length + s.len - (msg.len - front.length) := by
    rw [List.length_drop, List.length_append, stored_length, hendlen]
    omega
  rcases Nat.eq_or_lt_of_le hge with hon | hbehind
  · right
    have hempty := List.eq_nil_of_length_eq_zero (hgaplen.trans (by omega))
    have hhead : (storedAll as).length + s.len + 1 =
        (storedAll [msg.skip front.length]).length := by rw [hendlen, hon]
    refine ⟨?_, by rw [hc, hon]⟩
    rw [hempty, List.append_nil, hhead]
    exact Kept.flat [msg.skip front.length] [] _ le_rfl
      (List.ne_nil_of_length_pos (by
        rw [← hstart, List.length_append, stored_length]
        omega))
  · left
    refine ⟨bs, hsuffix as s bs rfl, ?_⟩
    have hkept := Kept.wrapped (msg.skip front.length) [] _ bs (msg.take front.length)
      (List.ne_nil_of_length_pos (lt_of_lt_of_eq (by omega) hgaplen.symm))
    have hhead : (storedAll as).length + s.len + 1 = (storedAll [msg.skip front.length]).length +
        ((storedAll as ++ s.stored).drop (storedAll [msg.skip front.length]).length).length := by
      rw [hgaplen, hendlen]
      omega
    rwa [← hhead, take_append_skip, List.append_nil] at hkept

end EzpFirmware.Logwrite
