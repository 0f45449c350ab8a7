import Mathlib.Data.List.GetD
import Mathlib.Logic.Relation
import EzpFirmware.Bcclient.Protocols

/-! # What the search for a tag looks at

`GetTagData` tests that a tag begins inside the packet, and nothing else. The search is
followed here with every byte it reads and the end of the tag it returns, over all
contents of the memory behind the packet.
-/
namespace EzpFirmware.Bcclient
open Lib

def MAX_PACKET_SIZE : ℕ := 23412

/-- A packet at the start of `recv_buf`, as the receiver leaves it there. -/
structure Received where
  bytes : List UInt8
  fits : bytes.length ≤ MAX_PACKET_SIZE

/-- What a search comes to: the bytes it copies, the end of the tag that it returns, and the
positions it reads. -/
@[ext] structure Search where
  copied : List UInt8
  found : Option ℕ
  reads : List ℕ

/-- A search after some other reads. -/
def Search.after (rs : List ℕ) (s : Search) : Search := { s with reads := rs ++ s.reads }

/-- The loop of `GetTagData`, with its reads. -/
def searchLoop (buf : ℕ → UInt8) (packetBufLen tagId tagBufSize : ℕ) : ℕ → ℕ → Search
  | 0, _ => ⟨[], none, []⟩
  | fuel + 1, i =>
    if ¬ i < packetBufLen then ⟨[], none, []⟩
    else
      let len := (buf (i + 1)).toNat
      if (buf i).toNat = tagId then
        ⟨bytesAt buf (i + 2) (min len tagBufSize), some (i + 2 + len),
          [i, i + 1] ++ List.range' (i + 2) (min len tagBufSize)⟩
      else if buf i = TAG_EXTENSION then
        let extLen := (buf (i + 6)).toNat
        if ofLe (bytesAt buf (i + 2) 4) = tagId then
          ⟨bytesAt buf (i + 7) (min extLen tagBufSize), some (i + 7 + extLen),
            i :: List.range' (i + 2) 5 ++ List.range' (i + 7) (min extLen tagBufSize)⟩
        else (searchLoop buf packetBufLen tagId tagBufSize fuel (i + (len + 2))).after
          (i :: List.range' (i + 2) 4 ++ [i + 1])
      else (searchLoop buf packetBufLen tagId tagBufSize fuel (i + (len + 2))).after [i, i + 1]

/-- The search copies what the loop copies. -/
theorem searchLoop_copied (buf : ℕ → UInt8) (packetBufLen tagId tagBufSize fuel i : ℕ) :
    (searchLoop buf packetBufLen tagId tagBufSize fuel i).copied =
      getTagLoop buf packetBufLen tagId tagBufSize fuel i := by
  induction fuel generalizing i with
  | zero => rfl
  | succ fuel ih =>
    rw [searchLoop, getTagLoop]
    by_cases hout : ¬ i < packetBufLen
    · rw [if_pos hout, if_pos hout]
    · rw [if_neg hout, if_neg hout]
      by_cases hid : (buf i).toNat = tagId
      · simp only [if_pos hid]
      · simp only [if_neg hid]
        by_cases hext : buf i = TAG_EXTENSION
        · by_cases hinner : ofLe (bytesAt buf (i + 2) 4) = tagId
          · simp only [hext, hinner, and_self, if_true]
          · simp only [hext, hinner, and_false, if_true, if_false]
            exact ih _
        · simp only [hext, false_and, if_false]
          exact ih _

/-- A search that starts behind the packet. -/
theorem searchLoop_behind {packetBufLen i : ℕ} (hi : packetBufLen ≤ i) (buf : ℕ → UInt8)
    (tagId tagBufSize fuel : ℕ) :
    searchLoop buf packetBufLen tagId tagBufSize fuel i = ⟨[], none, []⟩ := by
  cases fuel with
  | zero => rfl
  | succ fuel => rw [searchLoop, if_pos (not_lt.mpr hi)]

/-! ## Packets in their buffer -/

variable (p : List UInt8)

theorem regionThen_inside (behind : ℕ → UInt8) {i : ℕ} (hi : i < p.length) :
    regionThen p behind i = p.getD i 0 := by
  rw [regionThen, List.getD_eq_getElem _ _ hi, List.getD_eq_getElem _ _ hi]

theorem regionThen_outside (behind : ℕ → UInt8) {i : ℕ} (hi : p.length ≤ i) :
    regionThen p behind i = behind i := by
  rw [regionThen, List.getD_eq_default _ _ hi]

theorem bytesAt_inside (behind : ℕ → UInt8) {i n : ℕ} (h : i + n ≤ p.length) :
    bytesAt (regionThen p behind) i n = (p.drop i).take n := by
  apply List.ext_getElem
  · rw [bytesAt_length, List.length_take, List.length_drop]
    omega
  · intro k hk hk'
    rw [bytesAt_length] at hk
    simp [bytesAt, regionThen, List.getD_eq_getElem?_getD, show i + k < p.length by omega]

/-- Bytes at a position that may reach behind the packet can be any that agree with it. -/
theorem exists_bytesAt {i : ℕ} {l : List UInt8} (h : (p.drop i).take l.length <+: l) :
    ∃ behind, bytesAt (regionThen p behind) i l.length = l := by
  refine ⟨fun k => l.getD (k - i) 0, ?_⟩
  apply List.ext_getElem
  · simp
  · intro k hk hk'
    rw [bytesAt_length] at hk
    simp only [bytesAt, List.getElem_map, List.getElem_range]
    by_cases hin : i + k < p.length
    · have hfront : k < ((p.drop i).take l.length).length := by
        rw [List.length_take, List.length_drop]
        omega
      have hsame := h.getElem hfront
      rw [regionThen_inside p _ hin, List.getD_eq_getElem _ _ hin, ← hsame]
      simp
    · rw [regionThen_outside p _ (not_lt.mp hin), Nat.add_sub_cancel_left,
        List.getD_eq_getElem _ _ hk]

/-- The packet's share of bytes at a position is the front of them. -/
theorem take_drop_leading (behind : ℕ → UInt8) (i n : ℕ) :
    (p.drop i).take n <+: bytesAt (regionThen p behind) i n := by
  rw [List.prefix_iff_getElem?]
  intro k hk
  rw [List.length_take, List.length_drop] at hk
  have hin : i + k < p.length := by omega
  have hkn : k < n := by omega
  simp [bytesAt, regionThen, List.getD_eq_getElem?_getD, hin, hkn]

/-! ## The condition -/

variable (tagId tagBufSize : ℕ)

/-- A length byte, and the data it announces, lie in the packet. -/
def Inside (k : ℕ) : Prop := k < p.length ∧ k + 1 + (p.getD k 0).toNat ≤ p.length

/-- A tag with the id, plain or wrapped. -/
def Carries (i : ℕ) : Prop :=
  (p.getD i 0).toNat = tagId ∨
    p.getD i 0 = TAG_EXTENSION ∧ (p.drop (i + 2)).take 4 = leBytes 4 tagId

/-- The walk over the tags goes on from `i` to `j`. -/
def NextTag (i j : ℕ) : Prop :=
  i + 1 < p.length ∧ ¬ Carries p tagId i ∧ j = i + ((p.getD (i + 1) 0).toNat + 2)

/-- A tag that the search may look at: one with the id is complete, and so is a wrapped one whose
id the packet does not rule out. Of any other one the bytes looked at lie in the buffer. -/
def Whole (i : ℕ) : Prop :=
  if (p.getD i 0).toNat = tagId then Inside p (i + 1)
  else if p.getD i 0 = TAG_EXTENSION then
    i + 6 ≤ MAX_PACKET_SIZE ∧ ((p.drop (i + 2)).take 4 <+: leBytes 4 tagId → Inside p (i + 6))
  else i + 2 ≤ MAX_PACKET_SIZE

/-- A search over the packet from a position, for every content of the memory behind it: the
bytes copied are always the same, a tag that is returned ends in the packet, and no byte behind
the receive buffer is read. -/
structure Confined (fuel i : ℕ) : Prop where
  same : ∀ behind behind',
    (searchLoop (regionThen p behind) p.length tagId tagBufSize fuel i).copied =
      (searchLoop (regionThen p behind') p.length tagId tagBufSize fuel i).copied
  inside : ∀ behind,
    ∀ e ∈ (searchLoop (regionThen p behind) p.length tagId tagBufSize fuel i).found, e ≤ p.length
  read : ∀ behind, ∀ r ∈ (searchLoop (regionThen p behind) p.length tagId tagBufSize fuel i).reads,
    r < MAX_PACKET_SIZE

variable {p tagId tagBufSize} {fuel i : ℕ}

theorem confined_behind (hi : p.length ≤ i) : Confined p tagId tagBufSize fuel i := by
  constructor <;> simp [searchLoop_behind hi]

/-- A tag that is passed over is as good as what follows it. -/
theorem confined_passed {rs : List ℕ} (hrs : ∀ r ∈ rs, r < MAX_PACKET_SIZE)
    (hpass : ∀ behind, searchLoop (regionThen p behind) p.length tagId tagBufSize (fuel + 1) i =
      (searchLoop (regionThen p behind) p.length tagId tagBufSize fuel
        (i + ((regionThen p behind (i + 1)).toNat + 2))).after rs) :
    Confined p tagId tagBufSize (fuel + 1) i ↔
      (i + 1 < p.length → Confined p tagId tagBufSize fuel (i + ((p.getD (i + 1) 0).toNat + 2))) := by
  by_cases hin : i + 1 < p.length
  · simp only [regionThen_inside p _ hin] at hpass
    constructor
    · rintro ⟨hsame, hinside, hread⟩ -
      simp only [hpass, Search.after] at hsame hinside hread
      exact ⟨hsame, hinside, fun b r hr => hread b r (List.mem_append_right _ hr)⟩
    · intro h
      obtain ⟨hsame, hinside, hread⟩ := h hin
      constructor
      · simpa only [hpass, Search.after] using hsame
      · simpa only [hpass, Search.after] using hinside
      · intro b r hr
        rw [hpass, Search.after, List.mem_append] at hr
        rcases hr with hr | hr
        · exact hrs r hr
        · exact hread b r hr
  · -- The length is not known, but the search ends.
    have hend : ∀ behind, searchLoop (regionThen p behind) p.length tagId tagBufSize (fuel + 1) i =
        ⟨[], none, rs⟩ := by
      intro b
      rw [hpass, searchLoop_behind (by omega), Search.after, List.append_nil]
    constructor
    · intro _ h
      exact absurd h hin
    · intro _
      constructor
      · simp [hend]
      · simp [hend]
      · intro b r hr
        rw [hend] at hr
        exact hrs r hr

/-- The same, with what is read on the way. -/
theorem confined_passed_iff {rs : List ℕ} (hcarries : ¬ Carries p tagId i)
    (hpass : ∀ behind, searchLoop (regionThen p behind) p.length tagId tagBufSize (fuel + 1) i =
      (searchLoop (regionThen p behind) p.length tagId tagBufSize fuel
        (i + ((regionThen p behind (i + 1)).toNat + 2))).after rs) :
    Confined p tagId tagBufSize (fuel + 1) i ↔ (∀ r ∈ rs, r < MAX_PACKET_SIZE) ∧
      ∀ j, NextTag p tagId i j → Confined p tagId tagBufSize fuel j := by
  have hnext : (∀ j, NextTag p tagId i j → Confined p tagId tagBufSize fuel j) ↔
      (i + 1 < p.length → Confined p tagId tagBufSize fuel
        (i + ((p.getD (i + 1) 0).toNat + 2))) := by
    constructor
    · intro h hin
      exact h _ ⟨hin, hcarries, rfl⟩
    · rintro h j ⟨hin, -, rfl⟩
      exact h hin
  rw [hnext]
  constructor
  · intro h
    have hrs : ∀ r ∈ rs, r < MAX_PACKET_SIZE := by
      intro r hr
      apply h.read (fun _ => 0)
      rw [hpass]
      exact List.mem_append_left _ hr
    exact ⟨hrs, (confined_passed hrs hpass).mp h⟩
  · rintro ⟨hrs, h⟩
    exact (confined_passed hrs hpass).mpr h

/-- A plain tag with the id. -/
theorem confined_plain (hp : p.length ≤ MAX_PACKET_SIZE) (hi : i < p.length)
    (hid : (p.getD i 0).toNat = tagId) :
    Confined p tagId tagBufSize (fuel + 1) i ↔ Inside p (i + 1) := by
  have hsearch : ∀ behind, searchLoop (regionThen p behind) p.length tagId tagBufSize (fuel + 1) i =
      ⟨bytesAt (regionThen p behind) (i + 2) (min (regionThen p behind (i + 1)).toNat tagBufSize),
        some (i + 2 + (regionThen p behind (i + 1)).toNat),
        [i, i + 1] ++ List.range' (i + 2) (min (regionThen p behind (i + 1)).toNat tagBufSize)⟩ := by
    intro b
    rw [searchLoop, if_neg (not_not_intro hi), regionThen_inside p b hi]
    simp only [if_pos hid]
  constructor
  · rintro ⟨-, hinside, -⟩
    have hend := hinside (fun _ => 0)
    simp only [hsearch, Option.mem_some_iff, forall_eq'] at hend
    have hlen : i + 1 < p.length := by omega
    rw [regionThen_inside p _ hlen] at hend
    exact ⟨hlen, by omega⟩
  · rintro ⟨hlen, hend⟩
    simp only [regionThen_inside p _ hlen] at hsearch
    constructor
    · intro b b'
      rw [hsearch, hsearch, bytesAt_inside p b (by omega), bytesAt_inside p b' (by omega)]
    · intro b e he
      rw [hsearch, Option.mem_some_iff] at he
      omega
    · intro b r hr
      rw [hsearch, List.mem_append, List.mem_range'_1] at hr
      simp only [List.mem_cons, List.not_mem_nil, or_false] at hr
      omega

/-- A wrapped tag with the id, whatever is behind the packet. -/
theorem confined_wrapped (hp : p.length ≤ MAX_PACKET_SIZE) (hi : i < p.length)
    (hid : ¬ (p.getD i 0).toNat = tagId) (hext : p.getD i 0 = TAG_EXTENSION)
    (hinside : Inside p (i + 6)) (hinner : ofLe ((p.drop (i + 2)).take 4) = tagId) :
    Confined p tagId tagBufSize (fuel + 1) i := by
  obtain ⟨hlen, hend⟩ := hinside
  have hsearch : ∀ behind, searchLoop (regionThen p behind) p.length tagId tagBufSize (fuel + 1) i =
      ⟨(p.drop (i + 7)).take (min (p.getD (i + 6) 0).toNat tagBufSize),
        some (i + 7 + (p.getD (i + 6) 0).toNat), i :: List.range' (i + 2) 5 ++
          List.range' (i + 7) (min (p.getD (i + 6) 0).toNat tagBufSize)⟩ := by
    intro b
    rw [searchLoop, if_neg (not_not_intro hi), regionThen_inside p b hi,
      bytesAt_inside p b (by omega), regionThen_inside p b hlen]
    simp only [if_neg hid, if_pos hext, if_pos hinner]
    rw [bytesAt_inside p b (by omega)]
  constructor
  · simp [hsearch]
  · intro b e he
    rw [hsearch, Option.mem_some_iff] at he
    omega
  · intro b r hr
    rw [hsearch, List.mem_append, List.mem_cons, List.mem_range'_1, List.mem_range'_1] at hr
    omega

/-- Four bytes that stand for an id are the bytes of the id. -/
theorem ofLe_bytesAt_iff (hwidth : tagId < 256 ^ 4) (buf : ℕ → UInt8) (k : ℕ) :
    ofLe (bytesAt buf k 4) = tagId ↔ bytesAt buf k 4 = leBytes 4 tagId := by
  constructor
  · rintro rfl
    have h := leBytes_ofLe (bytesAt buf k 4)
    rw [bytesAt_length] at h
    exact h.symm
  · intro h
    rw [h, ofLe_leBytes, Nat.mod_eq_of_lt hwidth]

/-- A tag of the extension kind whose id the packet does not rule out. -/
theorem confined_possible (hwidth : tagId < 256 ^ 4) (hp : p.length ≤ MAX_PACKET_SIZE)
    (hi : i < p.length) (hid : ¬ (p.getD i 0).toNat = tagId) (hext : p.getD i 0 = TAG_EXTENSION)
    (hpossible : (p.drop (i + 2)).take 4 <+: leBytes 4 tagId) :
    Confined p tagId tagBufSize (fuel + 1) i ↔ Inside p (i + 6) := by
  constructor
  · rintro ⟨-, hinside, -⟩
    have hlen4 : (leBytes 4 tagId).length = 4 := leBytes_length _ _
    obtain ⟨b, hb⟩ := exists_bytesAt p (i := i + 2) (l := leBytes 4 tagId) (by rwa [hlen4])
    rw [hlen4] at hb
    have hinner := (ofLe_bytesAt_iff hwidth _ _).mpr hb
    have hend := hinside b
    rw [searchLoop, if_neg (not_not_intro hi), regionThen_inside p b hi] at hend
    simp only [if_neg hid, if_pos hext, if_pos hinner, Option.mem_some_iff, forall_eq'] at hend
    have hlen : i + 6 < p.length := by omega
    rw [regionThen_inside p _ hlen] at hend
    exact ⟨hlen, by omega⟩
  · intro hinside
    have hfour : ((p.drop (i + 2)).take 4).length = (leBytes 4 tagId).length := by
      have hlt := hinside.1
      rw [leBytes_length, List.length_take, List.length_drop]
      omega
    have hinner : ofLe ((p.drop (i + 2)).take 4) = tagId := by
      rw [hpossible.eq_of_length hfour, ofLe_leBytes, Nat.mod_eq_of_lt hwidth]
    exact confined_wrapped hp hi hid hext hinside hinner

/-- The tag at a position, and the search from the next one. -/
theorem confined_step (hwidth : tagId < 256 ^ 4) (hp : p.length ≤ MAX_PACKET_SIZE)
    (hi : i < p.length) :
    Confined p tagId tagBufSize (fuel + 1) i ↔
      Whole p tagId i ∧ ∀ j, NextTag p tagId i j → Confined p tagId tagBufSize fuel j := by
  by_cases hid : (p.getD i 0).toNat = tagId
  · have hend : ∀ j, ¬ NextTag p tagId i j := fun j h => h.2.1 (.inl hid)
    rw [confined_plain hp hi hid, Whole, if_pos hid]
    exact (and_iff_left fun j hj => absurd hj (hend j)).symm
  · by_cases hext : p.getD i 0 = TAG_EXTENSION
    · by_cases hpossible : (p.drop (i + 2)).take 4 <+: leBytes 4 tagId
      · rw [confined_possible hwidth hp hi hid hext hpossible, Whole, if_neg hid, if_pos hext]
        constructor
        · intro hinside
          have hlt := hinside.1
          have hfour : ((p.drop (i + 2)).take 4).length = (leBytes 4 tagId).length := by
            rw [leBytes_length, List.length_take, List.length_drop]
            omega
          exact ⟨⟨by omega, fun _ => hinside⟩, fun j hj =>
            absurd (.inr ⟨hext, hpossible.eq_of_length hfour⟩) hj.2.1⟩
        · intro h
          exact h.1.2 hpossible
      · -- No content behind the packet makes this the tag.
        have hcarries : ¬ Carries p tagId i := by
          rintro (h | ⟨-, h⟩)
          · exact hid h
          · exact hpossible (h ▸ List.prefix_rfl)
        have hpass : ∀ behind,
            searchLoop (regionThen p behind) p.length tagId tagBufSize (fuel + 1) i =
              (searchLoop (regionThen p behind) p.length tagId tagBufSize fuel
                (i + ((regionThen p behind (i + 1)).toNat + 2))).after
                (i :: List.range' (i + 2) 4 ++ [i + 1]) := by
          intro b
          have hinner : ¬ ofLe (bytesAt (regionThen p b) (i + 2) 4) = tagId := by
            rw [ofLe_bytesAt_iff hwidth]
            intro h
            exact hpossible (h ▸ take_drop_leading p b (i + 2) 4)
          rw [searchLoop, if_neg (not_not_intro hi), regionThen_inside p b hi]
          simp only [if_neg hid, if_pos hext, if_neg hinner]
        have hreads : (∀ r ∈ i :: List.range' (i + 2) 4 ++ [i + 1], r < MAX_PACKET_SIZE) ↔
            i + 6 ≤ MAX_PACKET_SIZE := by
          constructor
          · intro h
            exact h (i + 5) (by simp)
          · intro h r hr
            rw [List.mem_append, List.mem_cons, List.mem_range'_1, List.mem_singleton] at hr
            omega
        rw [confined_passed_iff hcarries hpass, hreads, Whole, if_neg hid, if_pos hext]
        simp [hpossible]
    · have hcarries : ¬ Carries p tagId i := by
        rintro (h | ⟨h, -⟩)
        · exact hid h
        · exact hext h
      have hpass : ∀ behind,
          searchLoop (regionThen p behind) p.length tagId tagBufSize (fuel + 1) i =
            (searchLoop (regionThen p behind) p.length tagId tagBufSize fuel
              (i + ((regionThen p behind (i + 1)).toNat + 2))).after [i, i + 1] := by
        intro b
        rw [searchLoop, if_neg (not_not_intro hi), regionThen_inside p b hi]
        simp only [if_neg hid, if_neg hext]
      have hreads : (∀ r ∈ [i, i + 1], r < MAX_PACKET_SIZE) ↔ i + 2 ≤ MAX_PACKET_SIZE := by
        simp only [List.mem_cons, List.not_mem_nil, or_false, forall_eq_or_imp, forall_eq]
        omega
      rw [confined_passed_iff hcarries hpass, hreads, Whole, if_neg hid, if_neg hext]

/-- The search is confined exactly if every tag that it comes to is whole. -/
theorem confined_run (hwidth : tagId < 256 ^ 4) (hp : p.length ≤ MAX_PACKET_SIZE)
    (hfuel : p.length ≤ i + fuel) :
    Confined p tagId tagBufSize fuel i ↔
      ∀ j, Relation.ReflTransGen (NextTag p tagId) i j → j < p.length → Whole p tagId j := by
  induction fuel generalizing i with
  | zero =>
    have hbehind : ∀ j, Relation.ReflTransGen (NextTag p tagId) i j → ¬ j < p.length := by
      intro j hj
      rcases hj.cases_head with rfl | ⟨k, ⟨hk, -, -⟩, -⟩
      · omega
      · omega
    exact iff_of_true (confined_behind hfuel) fun j hj hlt => absurd hlt (hbehind j hj)
  | succ fuel ih =>
    by_cases hi : i < p.length
    · rw [confined_step hwidth hp hi]
      have hnext : (∀ j, NextTag p tagId i j → Confined p tagId tagBufSize fuel j) ↔
          ∀ k, NextTag p tagId i k → ∀ j, Relation.ReflTransGen (NextTag p tagId) k j →
            j < p.length → Whole p tagId j := by
        apply forall_congr'
        intro k
        apply imp_congr_right
        rintro ⟨-, -, rfl⟩
        exact ih (by omega)
      rw [hnext]
      constructor
      · rintro ⟨hhere, hlater⟩ j hj hlt
        rcases hj.cases_head with rfl | ⟨k, hk, hkj⟩
        · exact hhere
        · exact hlater k hk j hkj hlt
      · intro h
        exact ⟨h i .refl hi, fun k hk j hkj => h j (.head hk hkj)⟩
    · have hbehind : ∀ j, Relation.ReflTransGen (NextTag p tagId) i j → ¬ j < p.length := by
        intro j hj
        rcases hj.cases_head with rfl | ⟨k, ⟨hk, -, -⟩, -⟩
        · exact hi
        · omega
      exact iff_of_true (confined_behind (not_lt.mp hi)) fun j hj hlt => absurd hlt (hbehind j hj)

/-- `GetTagData` keeps to a packet in the receive buffer, whatever is behind it: what it copies
is the same, the tag it returns lies in the packet, and it reads nothing behind the buffer. -/
def KeepsToPacket (r : Received) (tagId : UInt32) (tagBufSize : ℕ) : Prop :=
  (∀ behind behind',
    getTagData (regionThen r.bytes behind) r.bytes.length tagId.toNat tagBufSize =
      getTagData (regionThen r.bytes behind') r.bytes.length tagId.toNat tagBufSize) ∧
  ∀ behind, ∀ s, s = searchLoop (regionThen r.bytes behind) r.bytes.length tagId.toNat tagBufSize
      r.bytes.length HEADER_SIZE →
    (∀ e ∈ s.found, e ≤ r.bytes.length) ∧ ∀ k ∈ s.reads, k < MAX_PACKET_SIZE

/-- `GetTagData` keeps to the packet exactly if every tag that it comes to is whole. -/
theorem keepsToPacket_iff (r : Received) (tagId : UInt32) (tagBufSize : ℕ) :
    KeepsToPacket r tagId tagBufSize ↔
      ∀ i, Relation.ReflTransGen (NextTag r.bytes tagId.toNat) HEADER_SIZE i →
        i < r.bytes.length → Whole r.bytes tagId.toNat i := by
  have hwidth : tagId.toNat < 256 ^ 4 := tagId.toNat_lt
  have hrun : Confined r.bytes tagId.toNat tagBufSize r.bytes.length HEADER_SIZE ↔ _ :=
    confined_run hwidth r.fits (Nat.le_add_left _ _)
  rw [← hrun]
  constructor
  · rintro ⟨hsame, hrun⟩
    constructor
    · intro b b'
      rw [searchLoop_copied, searchLoop_copied]
      exact hsame b b'
    · intro b
      exact (hrun b _ rfl).1
    · intro b
      exact (hrun b _ rfl).2
  · rintro ⟨hsame, hinside, hread⟩
    constructor
    · intro b b'
      rw [getTagData, getTagData, ← searchLoop_copied, ← searchLoop_copied]
      exact hsame b b'
    · rintro b s rfl
      exact ⟨hinside b, hread b⟩

theorem cutBytes_fits :
    (List.replicate HEADER_SIZE 0 ++ [TAG_EXTENSION]).length ≤ MAX_PACKET_SIZE := by
  decide

/-- A header, and the first byte of a tag. -/
def cutPacket : Received := ⟨List.replicate HEADER_SIZE 0 ++ [TAG_EXTENSION], cutBytes_fits⟩

/-- The rest of the tag is what an earlier packet left in the buffer. -/
theorem cutPacket_reads_on : ¬ KeepsToPacket cutPacket 202 10 := by
  rintro ⟨hsame, -⟩
  have h := hsame (fun _ => 1) (fun _ => 2)
  revert h
  decide

end EzpFirmware.Bcclient
