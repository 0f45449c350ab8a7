import EzpFirmware.FirmwareUtils.TrxSteps

/-! # The image that is packed

Where each option fits, the block follows the layout: the files stand where they
belong and the header says so, and the image that is written at the end is the one
that the command line describes.
-/
namespace EzpFirmware.FirmwareUtils
open Lib

variable {heap : ℕ → ℕ → UInt8} {s s' t : Packing} {c : Cursor} {o : Opt} {opts : List Opt}

/-! ## The block follows the layout -/

/-- The lengths are those of the layout. -/
structure Tracks (s : Packing) (c : Cursor) : Prop where
  held : s.held
  curLen : s.curLen = c.pos
  room : s.buf.length = c.room
  i : s.i = c.groups.length
  low : c.pos < 2 ^ 32
  page : 4096 ∣ c.room
  least : 4096 ≤ c.room
  size : c.room < 2 ^ 64
  sound : c.Sound

theorem four_page (n : ℕ) : 4096 ∣ toPage n := by
  rw [toPage_eq]
  exact Nat.dvd_mul_left _ _

theorem Tracks.slot (ht : Tracks s c) (hslots : (c.next o).groups.length ≤ 3) : s.Slot o := by
  intro hfirst
  have hleast := ht.least
  rw [Cursor.length_next, if_pos hfirst] at hslots
  refine ⟨ht.held, ?_⟩
  rw [ht.i, ht.room, OFFSETS]
  omega

theorem Tracks.inside (ht : Tracks s c) (hroomy : c.Roomy o) :
    Inside s.buf.length s.curLen (o.adds s.curLen) := by
  rw [ht.curLen, ht.room]
  exact hroomy.imp_right And.left

theorem slotted_length (hslot : s.Slot o) : (s.slotted o).length = s.buf.length := by
  rw [Packing.slotted]
  split_ifs with hfirst
  · exact Lib.poke_length (by rw [leBytes_length]; exact (hslot hfirst).2)
  · rfl

theorem laid_length (hslot : s.Slot o) (hin : Inside s.buf.length s.curLen (o.adds s.curLen)) :
    (s.laid o).buf.length = s.buf.length := by
  rw [← slotted_length hslot] at hin ⊢
  exact hin.poke_length

theorem Tracks.laid (ht : Tracks s c) (ho : ∀ arg answer, o ≠ .maxlen arg answer)
    (hslot : s.Slot o) (hroomy : c.Roomy o) : Tracks (s.laid o) (c.next o) := by
  have hleaves : (c.next o).room = c.room := by
    cases o with
    | maxlen arg answer => exact absurd rfl (ho arg answer)
    | _ => rfl
  have hlow : c.pos + (o.adds c.pos).length < 2 ^ 32 := by
    rcases hroomy with hnil | ⟨-, hlow⟩
    · rw [hnil]
      exact ht.low
    · exact hlow
  constructor
  · exact ht.held
  · change uint32 (s.curLen + (o.adds s.curLen).length) = _
    rw [ht.curLen, uint32, Nat.mod_eq_of_lt hlow]
    rfl
  · rw [laid_length hslot (ht.inside hroomy), hleaves, ht.room]
  · rw [Cursor.length_next, ← ht.i]
    rfl
  · exact hlow
  · rw [hleaves]
    exact ht.page
  · rw [hleaves]
    exact ht.least
  · rw [hleaves]
    exact ht.size
  · exact ht.sound.next o

theorem Tracks.resized (ht : Tracks s c) {n : Fin (2 ^ 64)} {answer : Realloc}
    (hleast : 4096 ≤ toPage n) (hsize : toPage n < 2 ^ 64) :
    Tracks (s.resized heap (toPage n) false) (c.next (.maxlen (some n) answer)) := by
  constructor
  · change (s.held && !false) = true
    rw [ht.held]
    rfl
  · exact ht.curLen
  · change (s.buf.take (toPage n) ++ tabulate _ _).length = toPage n
    rw [List.length_append, List.length_take, tabulate_length]
    omega
  · exact ht.i
  · exact ht.low
  · exact four_page n
  · exact hleast
  · exact hsize
  · exact ht.sound.next _

/-! ## What stands in the block -/

/-- A write in front of the end changes nothing but the new offset. -/
theorem Tracks.laid_getElem? (ht : Tracks s c) (hslot : s.Slot o)
    (hin : Inside s.buf.length s.curLen (o.adds s.curLen)) {k : ℕ} (hk : k < c.pos)
    (hout : o.first → ¬ (OFFSETS + 4 * c.groups.length ≤ k ∧
      k < OFFSETS + 4 * c.groups.length + 4)) : (s.laid o).buf[k]? = s.buf[k]? := by
  have hback : (s.laid o).buf[k]? = (s.slotted o)[k]? := by
    change (poke (s.slotted o) s.curLen (o.adds s.curLen))[k]? = _
    rcases hin with hnil | hle
    · rw [hnil, poke_nil]
    · rw [← slotted_length hslot] at hle
      rw [getElem?_poke hle, if_neg]
      rw [ht.curLen]
      omega
  rw [hback, Packing.slotted]
  split_ifs with hfirst
  · have hle := (hslot hfirst).2
    have hnot := hout hfirst
    rw [getElem?_poke (by rw [leBytes_length]; exact hle), leBytes_length, ht.i, if_neg hnot]
  · rfl

/-- What an option adds stands behind the end. -/
theorem Tracks.laid_adds (ht : Tracks s c) (hslot : s.Slot o)
    (hin : Inside s.buf.length s.curLen (o.adds s.curLen)) :
    Holds (s.laid o).buf c.pos (o.adds c.pos) := by
  rw [← ht.curLen]
  change Holds (poke (s.slotted o) s.curLen (o.adds s.curLen)) _ _
  rcases hin with hnil | hle
  · rw [hnil]
    exact holds_nil _ _
  · rw [← slotted_length hslot] at hle
    exact poke_holds _ (by omega)

/-- What is known of the block: the header so far, and the files. -/
structure Carries (s : Packing) (c : Cursor) : Prop where
  magic : Holds s.buf MAGIC (leBytes 4 TRX_MAGIC)
  slots : ∀ k pos, c.starts[k]? = some pos → Holds s.buf (OFFSETS + 4 * k) (leBytes 4 pos)
  stands : ∀ g ∈ c.groups, g.joined → Holds s.buf g.start g.bytes

theorem Carries.laid (hc : Carries s c) (ht : Tracks s c) (hslot : s.Slot o)
    (hroomy : c.Roomy o) (hslots : (c.next o).groups.length ≤ 3) :
    Carries (s.laid o) (c.next o) := by
  have hin := ht.inside hroomy
  have hfront : 28 ≤ c.pos := ht.sound.front
  have hadds := ht.laid_adds hslot hin
  have hthree : o.first → c.groups.length < 3 := by
    intro hfirst
    rw [Cursor.length_next, if_pos hfirst] at hslots
    omega
  have hold : ∀ g ∈ c.groups, g.joined → Holds (s.laid o).buf g.start g.bytes := by
    intro g hg hj
    have hstart : 28 ≤ g.start := (ht.sound.starts g hg).1
    have hend := ht.sound.ends g hg hj
    apply (hc.stands g hg hj).agree
    intro k hk hlt
    refine ht.laid_getElem? hslot hin (by omega) fun hfirst => ?_
    have hlast := hthree hfirst
    rw [OFFSETS]
    omega
  constructor
  · apply hc.magic.agree
    intro k hk hlt
    rw [MAGIC, leBytes_length] at hlt
    refine ht.laid_getElem? hslot hin (by omega) fun hfirst => ?_
    rw [OFFSETS]
    omega
  · intro k pos hk
    rw [Cursor.starts_next, List.getElem?_append] at hk
    split_ifs at hk with hlt hfirst
    · apply (hc.slots k pos hk).agree
      intro j hj hjlt
      rw [Cursor.length_starts] at hlt
      rw [leBytes_length, OFFSETS] at hjlt
      rw [OFFSETS] at hj
      rw [Cursor.length_next] at hslots
      refine ht.laid_getElem? hslot hin ?_ fun hfirst => ?_
      · split_ifs at hslots <;> omega
      · rw [OFFSETS]
        omega
    · rw [Cursor.length_starts] at hlt hk
      have hkeq : k = c.groups.length := by
        by_contra hne
        rw [List.getElem?_singleton, if_neg (by omega)] at hk
        cases hk
      rw [hkeq, Nat.sub_self] at hk
      obtain rfl : c.pos = pos := Option.some.inj hk
      have hlast := hthree hfirst
      have hle := (hslot hfirst).2
      have hslotted : Holds (s.slotted o) (OFFSETS + 4 * k) (leBytes 4 c.pos) := by
        rw [Packing.slotted, if_pos hfirst, ht.i, ht.curLen, hkeq]
        exact poke_holds _ (by rw [ht.i] at hle; omega)
      apply hslotted.agree
      intro j hj hjlt
      rw [leBytes_length, OFFSETS] at hjlt
      change (poke (s.slotted o) s.curLen (o.adds s.curLen))[j]? = _
      rcases hin with hnil | hlein
      · rw [hnil, poke_nil]
      · rw [← slotted_length hslot] at hlein
        rw [getElem?_poke hlein, if_neg]
        rw [ht.curLen]
        omega
    · simp at hk
  · intro g hg hj
    change g ∈ c.placed o at hg
    cases c.placing o with
    | behind bytes ho hfirst hplaced =>
      rw [hplaced] at hg
      rcases Cursor.mem_extend hg with hg | ⟨a, ha, hstart, hbytes, hja⟩
      · exact hold g hg hj
      · obtain ⟨hjoined, hpos⟩ := hja hj
        rw [hstart, hbytes]
        apply (hold a ha hjoined).append
        rw [← hpos]
        exact hadds
    | new bytes ho hfirst hplaced =>
      rw [hplaced] at hg
      rcases List.mem_cons.mp hg with rfl | hg
      · exact hadds
      · exact hold g hg hj
    | none hfirst hplaced =>
      rw [hplaced] at hg
      exact hold g hg hj

/-- A longer or shorter block has the bytes of the old one as far as it goes. -/
theorem holds_resized {xs : List UInt8} {pos n : ℕ} {moved : Bool} (h : Holds s.buf pos xs)
    (hn : xs = [] ∨ pos + xs.length ≤ n) : Holds (s.resized heap n moved).buf pos xs := by
  rcases hn with rfl | hn
  · exact holds_nil _ _
  · rw [holds_iff_getElem?] at h ⊢
    intro k hk
    have hget := h k hk
    have hlt : pos + k < s.buf.length := by
      by_contra hge
      rw [List.getElem?_eq_none (by omega), List.getElem?_eq_getElem hk] at hget
      cases hget
    change (s.buf.take n ++ tabulate _ _)[pos + k]? = _
    rw [List.getElem?_append_left (by rw [List.length_take]; omega), List.getElem?_take, if_pos, hget]
    omega

theorem Carries.resized (hc : Carries s c) {n : Fin (2 ^ 64)} {answer : Realloc}
    {moved : Bool} (hleast : 4096 ≤ toPage n) (hslots : c.groups.length ≤ 3)
    (hwithin : c.Within (toPage n)) :
    Carries (s.resized heap (toPage n) moved) (c.next (.maxlen (some n) answer)) := by
  constructor
  · apply holds_resized hc.magic
    rw [MAGIC, leBytes_length]
    omega
  · intro k pos hk
    apply holds_resized (hc.slots k pos hk)
    have hlt : k < c.starts.length := by
      by_contra hge
      rw [show (c.next (.maxlen (some n) answer)).starts = c.starts from rfl,
        List.getElem?_eq_none (by omega)] at hk
      cases hk
    rw [Cursor.length_starts] at hlt
    rw [OFFSETS, leBytes_length]
    omega
  · intro g hg hj
    exact holds_resized (hc.stands g hg hj) (hwithin g hg)

/-! ## The end -/

/-- A block with its checksum and its length. -/
def sealed (buf : List UInt8) (len : ℕ) : List UInt8 :=
  let crc := crc32buf ((buf.drop FLAG_VERSION).take (len - FLAG_VERSION))
  poke (poke buf CRC32 (leBytes 4 crc.toNat)) LEN (leBytes 4 len)

theorem sealed_length {buf : List UInt8} {len : ℕ} (h : 12 ≤ buf.length) :
    (sealed buf len).length = buf.length := by
  rw [sealed, Lib.poke_length, Lib.poke_length]
  · rw [leBytes_length, CRC32]
    exact h
  · rw [Lib.poke_length, leBytes_length, LEN]
    · omega
    · rw [leBytes_length, CRC32]
      exact h

theorem sealed_getElem? {buf : List UInt8} {len k : ℕ} (h : 12 ≤ buf.length)
    (hk : k < LEN ∨ FLAG_VERSION ≤ k) : (sealed buf len)[k]? = buf[k]? := by
  rw [LEN, FLAG_VERSION] at hk
  have hcrc : CRC32 + 4 ≤ buf.length := h
  rw [sealed, getElem?_poke, getElem?_poke, leBytes_length, leBytes_length, LEN, CRC32, if_neg,
    if_neg]
  · omega
  · omega
  · rw [leBytes_length]
    exact hcrc
  · rw [Lib.poke_length, leBytes_length, LEN]
    · omega
    · rw [leBytes_length]
      exact hcrc

/-- The two words that the seal stores. -/
theorem sealed_words {buf : List UInt8} {len : ℕ} (h : 12 ≤ buf.length) :
    Holds (sealed buf len) LEN (leBytes 4 len) ∧ Holds (sealed buf len) CRC32
      (leBytes 4 (crc32buf ((buf.drop FLAG_VERSION).take (len - FLAG_VERSION))).toNat) := by
  have hcrc : CRC32 + 4 ≤ buf.length := h
  have hlen : ∀ n, (poke buf CRC32 (leBytes 4 n)).length = buf.length :=
    fun n => Lib.poke_length (by rw [leBytes_length]; exact hcrc)
  constructor
  · apply poke_holds
    rw [hlen, LEN]
    omega
  · have hstored := poke_holds (leBytes 4
        (crc32buf ((buf.drop FLAG_VERSION).take (len - FLAG_VERSION))).toNat)
      (Nat.le_of_add_right_le hcrc)
    apply hstored.agree
    intro k hk hlt
    rw [sealed, getElem?_poke, if_neg]
    · rw [leBytes_length, LEN]
      rw [CRC32] at hk
      omega
    · rw [leBytes_length, hlen, LEN]
      omega

theorem holds_take {mem xs : List UInt8} {p n : ℕ} (h : Holds mem p xs) (hn : p + xs.length ≤ n) :
    Holds (mem.take n) p xs := by
  apply h.agree
  intro k hk hlt
  rw [List.getElem?_take, if_pos (by omega)]

/-- The block, filled up to a whole page. -/
def Packing.filled (s : Packing) : List UInt8 :=
  poke s.buf s.curLen (List.replicate (toRound 0x1000 s.curLen) 0)

/-- The image that is written. -/
def Packing.image (s : Packing) : List UInt8 :=
  (sealed s.filled (toPage s.curLen)).take (toPage s.curLen)

theorem seal_fits {len size : ℕ} (hlen : len < 2 ^ 32) (hsize : size < 2 ^ 64) :
    FLAG_VERSION + ulong (len + 2 ^ 64 - FLAG_VERSION) ≤ size ↔ FLAG_VERSION ≤ len ∧ len ≤ size := by
  rw [FLAG_VERSION, ulong]
  omega

theorem seal_eq (hlow : s.curLen < 2 ^ 32) (hsize : s.buf.length < 2 ^ 64) : s.seal =
    if s.held ∧ FLAG_VERSION ≤ s.curLen ∧ s.curLen ≤ s.buf.length then
      .ok { s with buf := sealed s.buf s.curLen }
    else .error .outside := by
  rw [Packing.seal]
  simp only [seal_fits hlow hsize]
  by_cases hfits : s.held ∧ FLAG_VERSION ≤ s.curLen ∧ s.curLen ≤ s.buf.length
  · have hlen : ulong (s.curLen + 2 ^ 64 - FLAG_VERSION) = s.curLen - FLAG_VERSION := by
      have hle := hfits.2.1
      rw [FLAG_VERSION] at hle ⊢
      rw [ulong]
      omega
    have hle : 12 ≤ s.buf.length := hfits.2.1.trans hfits.2.2
    have hcrc : s.held ∧ CRC32 + 4 ≤ s.buf.length := ⟨hfits.1, hle⟩
    have hpoke : (poke s.buf CRC32 (leBytes 4 (crc32buf
        ((s.buf.drop FLAG_VERSION).take (s.curLen - FLAG_VERSION))).toNat)).length =
        s.buf.length := Lib.poke_length (by rw [leBytes_length]; exact hcrc.2)
    rw [if_pos hfits, if_pos hfits, hlen, store_eq, if_pos hcrc, ok_bind, store_eq, if_pos, sealed]
    exact ⟨hfits.1, by rw [hpoke, LEN]; omega⟩
  · rw [if_neg hfits, if_neg hfits]

theorem Tracks.finish (ht : Tracks s c) : s.finish = if s.opened then
      if c.pos ≤ c.room ∧ toPage c.pos < 2 ^ 32 then .ok s.image else .error .outside
    else .error .rejected := by
  have hlow := ht.low
  have hpage := ht.page
  have hsize := ht.size
  have hfront : 28 ≤ c.pos := ht.sound.front
  have hround := toPage_eq c.pos
  have hfill : toPage c.pos = c.pos + toRound 0x1000 c.pos := rfl
  by_cases hopened : s.opened
  · rw [Packing.finish, if_pos hopened, if_pos hopened, clear_eq]
    by_cases hin : Inside s.buf.length s.curLen (List.replicate (toRound 0x1000 s.curLen) 0)
    · have hlen : (poke s.buf c.pos (List.replicate (toRound 0x1000 c.pos) 0)).length =
          c.room := by rw [← ht.curLen, hin.poke_length, ht.room]
      rw [if_pos hin, ok_bind, seal_eq]
      · dsimp only
        rw [ht.curLen, hlen, ← hfill]
        by_cases hfits : c.pos ≤ c.room ∧ toPage c.pos < 2 ^ 32
        · have hmod : uint32 (toPage c.pos) = toPage c.pos := Nat.mod_eq_of_lt hfits.2
          have hle : toPage c.pos ≤ c.room := by omega
          have hseal : s.held ∧ FLAG_VERSION ≤ toPage c.pos ∧ toPage c.pos ≤ c.room :=
            ⟨ht.held, by rw [FLAG_VERSION]; omega, hle⟩
          rw [if_pos hfits, hmod, if_pos hseal, ok_bind, Packing.write, if_neg (by dsimp only; omega),
            if_neg]
          · rw [Packing.image, Packing.filled, ht.curLen]
          · dsimp only
            rw [sealed_length (by rw [hlen]; omega), hlen]
            omega
        · rw [if_neg hfits, if_neg]
          · rfl
          · rintro ⟨-, hfront', hle⟩
            apply hfits
            rw [uint32] at hfront' hle
            rw [FLAG_VERSION] at hfront'
            omega
      · exact Nat.mod_lt _ (by decide)
      · dsimp only
        rw [ht.curLen, hlen]
        exact hsize
    · have hover : ¬ c.pos ≤ c.room := by
        intro hle
        apply hin
        right
        rw [List.length_replicate, ht.curLen, ht.room]
        omega
      rw [if_neg hin, if_neg fun h => hover h.1]
      rfl
  · rw [Packing.finish, if_neg hopened, if_neg hopened]

theorem Tracks.finish_ends (ht : Tracks s c) (hends : c.Ends) :
    s.finish = .error .rejected ∨ s.finish = .ok s.image := by
  rw [ht.finish]
  by_cases hopened : s.opened
  · rw [if_pos hopened]
    exact Or.inr (if_pos hends)
  · exact Or.inl (if_neg hopened)

theorem Tracks.ends (ht : Tracks s c) {image : List UInt8} (h : s.finish = .ok image) :
    c.Ends ∧ image = s.image := by
  rw [ht.finish] at h
  split_ifs at h with hopened hends
  exact ⟨hends, (Except.ok.inj h).symm⟩

theorem word_eq {image : List UInt8} {field n : ℕ} (h : Holds image field (leBytes 4 n))
    (hn : n < 2 ^ 32) : word image field = n := by
  have htake := List.prefix_iff_eq_take.mp h
  rw [leBytes_length] at htake
  rw [word, ← htake, ofLe_leBytes]
  exact Nat.mod_eq_of_lt hn

/-! ## What the image is -/

theorem Tracks.filled_length (ht : Tracks s c) (hends : c.Ends) : s.filled.length = c.room := by
  have hpage := ht.page
  have hle := hends.1
  rw [Packing.filled, Lib.poke_length, ht.room]
  rw [List.length_replicate, ht.curLen, ht.room]
  change toPage c.pos ≤ c.room
  rw [toPage_eq]
  omega

theorem Tracks.toPage_le (ht : Tracks s c) (hends : c.Ends) : toPage c.pos ≤ c.room := by
  have hpage := ht.page
  have hle := hends.1
  rw [toPage_eq]
  omega

theorem Tracks.image_length (ht : Tracks s c) (hends : c.Ends) :
    s.image.length = toPage c.pos := by
  have hfilled := ht.filled_length hends
  have hleast := ht.least
  rw [Packing.image, List.length_take, sealed_length (by omega), hfilled, ht.curLen]
  exact Nat.min_eq_left (ht.toPage_le hends)

/-- What the seal leaves alone. -/
theorem Tracks.image_getElem? (ht : Tracks s c) (hends : c.Ends) {k : ℕ} (hk : k < c.pos)
    (hout : k < LEN ∨ FLAG_VERSION ≤ k) : s.image[k]? = s.buf[k]? := by
  have hfilled := ht.filled_length hends
  have hleast := ht.least
  have hlen := ht.image_length hends
  have hle : toPage c.pos ≤ c.room := ht.toPage_le hends
  have hpos : c.pos ≤ toPage c.pos := Nat.le_add_right _ _
  rw [Packing.image, List.getElem?_take, if_pos (by rw [ht.curLen]; omega),
    sealed_getElem? (by omega) hout, Packing.filled, getElem?_poke, if_neg]
  · rw [ht.curLen]
    omega
  · rw [List.length_replicate, ht.curLen, ht.room]
    exact hle

/-- The words that are stored last. -/
theorem Tracks.image_words (ht : Tracks s c) (hends : c.Ends) :
    word s.image LEN = s.image.length ∧
      word s.image CRC32 = (crc32buf (s.image.drop FLAG_VERSION)).toNat := by
  have hfront : 28 ≤ c.pos := ht.sound.front
  have hpos : c.pos ≤ toPage c.pos := Nat.le_add_right _ _
  have hlow := hends.2
  have htwelve : 12 ≤ s.filled.length := by
    rw [ht.filled_length hends]
    exact le_trans (by decide) ht.least
  have hwords : Holds (sealed s.filled (toPage s.curLen)) LEN (leBytes 4 (toPage s.curLen)) ∧ _ :=
    sealed_words htwelve
  have hdrop : s.image.drop FLAG_VERSION =
      (s.filled.drop FLAG_VERSION).take (toPage s.curLen - FLAG_VERSION) := by
    rw [Packing.image, List.drop_take]
    congr 1
    ext1 k
    rw [List.getElem?_drop, List.getElem?_drop]
    exact sealed_getElem? htwelve (Or.inr (Nat.le_add_right _ _))
  rw [hdrop, ht.image_length hends]
  rw [ht.curLen] at hwords ⊢
  constructor
  · apply word_eq _ hlow
    rw [Packing.image, ht.curLen]
    apply holds_take hwords.1
    rw [leBytes_length, LEN]
    omega
  · apply word_eq _ (UInt32.toNat_lt _)
    rw [Packing.image, ht.curLen]
    apply holds_take hwords.2
    rw [leBytes_length, CRC32]
    omega

/-- An image of a layout that fits is the one that is described. -/
theorem Tracks.described (ht : Tracks s (layout opts)) (hc : Carries s (layout opts))
    (hends : (layout opts).Ends) (hslots : (files opts).length ≤ 3)
    (hjoined : ∀ g ∈ files opts, g.joined) : Described opts s.image := by
  have hfront : 28 ≤ (layout opts).pos := ht.sound.front
  have hlen := ht.image_length hends
  have hkept : ∀ {pos xs}, Holds s.buf pos xs → pos + xs.length ≤ (layout opts).pos →
      (pos + xs.length ≤ LEN ∨ FLAG_VERSION ≤ pos) → Holds s.image pos xs := by
    intro pos xs h hend hout
    apply h.agree
    intro k hk hlt
    apply ht.image_getElem? hends (by omega)
    omega
  constructor
  · apply word_eq _ (by decide)
    apply hkept hc.magic
    · rw [leBytes_length, MAGIC]
      omega
    · exact Or.inl (by rw [leBytes_length, MAGIC, LEN])
  · exact (ht.image_words hends).1
  · rw [hlen]
    exact four_page _
  · exact (ht.image_words hends).2
  · intro k g hk
    have hlt : k < (files opts).length := by
      by_contra hge
      rw [List.getElem?_eq_none (by omega)] at hk
      cases hk
    have hthree : k < 3 := by omega
    refine ⟨hthree, ?_⟩
    have hmem : g ∈ (layout opts).groups := List.mem_reverse.mp (List.mem_of_getElem? hk)
    have hstart := (ht.sound.starts g hmem).2
    apply word_eq _ (lt_of_le_of_lt hstart ht.low)
    apply hkept (hc.slots k g.start _)
    · rw [leBytes_length, OFFSETS]
      omega
    · right
      rw [FLAG_VERSION, OFFSETS]
      omega
    · rw [Cursor.starts, ← List.map_reverse, List.getElem?_map]
      change Option.map _ (files opts)[k]? = _
      rw [hk]
      rfl
  · intro g hg
    have hmem : g ∈ (layout opts).groups := List.mem_reverse.mp hg
    have hstart : 28 ≤ g.start := (ht.sound.starts g hmem).1
    apply hkept (hc.stands g hmem (hjoined g hg)) (ht.sound.ends g hmem (hjoined g hg))
    right
    rw [FLAG_VERSION]
    omega
  · exact hjoined

end EzpFirmware.FirmwareUtils
