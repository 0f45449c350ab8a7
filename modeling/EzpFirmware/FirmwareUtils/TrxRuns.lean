import EzpFirmware.FirmwareUtils.TrxImage

/-! # Which command lines are packed

A command line whose options fit gives the image that it describes, whatever stands
in the memory. One that gives it fits, as long as no block of 4 GiB is asked for:
beyond that the end may come round to the front of the block.
-/
namespace EzpFirmware.FirmwareUtils
open Lib

variable {heap : ℕ → ℕ → UInt8} {s t : Packing} {c : Cursor} {o : Opt} {os opts : List Opt}

/-- The image that the command line describes comes out, whatever stands in the memory. -/
def Packs (opts : List Opt) : Prop :=
  ∀ heap, ∃ image, trx heap opts = .ok image ∧ Described opts image

/-- The room that an option asks for can be counted in `cur_len`. -/
def Opt.Moderate : Opt → Prop
  | .maxlen (some n) _ => toPage n < 2 ^ 32
  | _ => True

/-! ## From the front to the end -/

theorem magic_length : (poke (tabulate TRX_MAX_LEN (heap 0)) MAGIC (leBytes 4 TRX_MAGIC)).length =
    TRX_MAX_LEN := by
  rw [Lib.poke_length, tabulate_length]
  rw [leBytes_length, tabulate_length]
  decide

theorem start_length : (Packing.start heap).buf.length = TRX_MAX_LEN := by
  rw [Packing.start, Lib.poke_length, magic_length]
  rw [leBytes_length, magic_length]
  decide

theorem Tracks.start : Tracks (Packing.start heap) Cursor.start where
  held := rfl
  curLen := rfl
  room := start_length
  i := rfl
  low := by decide
  page := by decide
  least := by decide
  size := by decide
  sound := Cursor.Sound.start

theorem Carries.start : Carries (Packing.start heap) Cursor.start := by
  constructor
  · apply Lib.Holds.poke
    · exact poke_holds _ (Nat.zero_le _)
    · rw [leBytes_length]
      decide
    · rw [magic_length]
      decide
  · intro k pos hk
    cases hk
  · exact nofun

theorem options_cons : s.options heap (o :: os) = s.option heap o >>= fun s' => s'.options heap os :=
  rfl

/-- A run whose options fit is rejected or follows the layout to its end. -/
theorem Tracks.options : ∀ {s : Packing} {c : Cursor}, Tracks s c → Carries s c → c.Fit os →
    (os.foldl Cursor.next c).groups.length ≤ 3 →
    s.options heap os = .error .rejected ∨ ∃ t, s.options heap os = .ok t ∧
      Tracks t (os.foldl Cursor.next c) ∧ Carries t (os.foldl Cursor.next c) ∧
        (os.foldl Cursor.next c).Ends := by
  induction os with
  | nil => exact fun ht hc hfit hslots => Or.inr ⟨_, rfl, ht, hc, hfit⟩
  | cons o os ih =>
    intro s c ht hc hfit hslots
    obtain ⟨⟨hroomy, hkeeps⟩, hfit⟩ := hfit
    have hnext := (Cursor.length_le os (c.next o)).trans hslots
    have hthree : c.groups.length ≤ 3 := (Cursor.length_le (o :: os) c).trans hslots
    rw [options_cons]
    have hcurLen : s.curLen < 2 ^ 32 := by
      rw [ht.curLen]
      exact ht.low
    cases outcome heap hcurLen o with
    | rejected h =>
      rw [h]
      exact Or.inl rfl
    | resizes h =>
      obtain ⟨n, moved, rfl, hleast, hsize, hrun⟩ := h
      obtain ⟨rfl, hwithin⟩ := hkeeps
      rw [hrun, ok_bind]
      exact ih (ht.resized hleast hsize) (hc.resized hleast hthree hwithin) hfit hslots
    | lays ho h =>
      have hslot := ht.slot hnext
      rw [h, if_pos ⟨hslot, ht.inside hroomy⟩, ok_bind]
      exact ih (ht.laid ho hslot hroomy) (hc.laid ht hslot hroomy hnext) hfit hslots
    | outside ho h =>
      refine absurd ⟨ht.held, ?_⟩ ho
      have hleast := ht.least
      rw [ht.i, ht.room, OFFSETS]
      omega

/-- A command line that fits is rejected or packed. -/
theorem Fits.trx (h : Fits opts) (heap : ℕ → ℕ → UInt8) : trx heap opts = .error .rejected ∨
    ∃ image, trx heap opts = .ok image ∧ Described opts image := by
  have hslots : (layout opts).groups.length ≤ 3 := by
    have hfiles := h.slots
    rwa [files, List.length_reverse] at hfiles
  rw [FirmwareUtils.trx]
  rcases Tracks.options Tracks.start Carries.start h.fit hslots with hrun | ⟨t, hrun, ht, hc, hends⟩
  · rw [hrun]
    exact Or.inl rfl
  · rw [hrun, ok_bind]
    rcases ht.finish_ends hends with hfinish | hfinish
    · exact Or.inl hfinish
    · exact Or.inr ⟨_, hfinish, ht.described hc hends h.slots h.joined⟩

/-! ## From the image to the options -/

/-- Each option stays in the room and leaves the block where it is. -/
def Cursor.Runs : Cursor → List Opt → Prop
  | _, [] => True
  | c, o :: os => (c.Roomy o ∧ ∀ n moved, o = .maxlen n (.block moved) → moved = false) ∧
      (c.next o).Runs os

theorem bind_eq_ok {ε α β : Type} {x : Except ε α} {f : α → Except ε β} {b : β}
    (h : (x >>= f) = .ok b) : ∃ a, x = .ok a ∧ f a = .ok b := by
  cases x with
  | error e => cases h
  | ok a => exact ⟨a, rfl, h⟩

/-- A pointer to a block that was given back stays one. -/
theorem not_held_options : ∀ {s : Packing}, s.held = false → s.curLen < 2 ^ 32 →
    s.options heap os = .ok t → t.held = false ∧ t.curLen < 2 ^ 32 := by
  induction os with
  | nil =>
    intro s hheld hlow h
    obtain rfl := Except.ok.inj h
    exact ⟨hheld, hlow⟩
  | cons o os ih =>
    intro s hheld hlow h
    rw [options_cons] at h
    obtain ⟨s', hs', h⟩ := bind_eq_ok h
    cases outcome heap hlow o with
    | rejected hrun =>
      rw [hrun] at hs'
      cases hs'
    | resizes hrun =>
      obtain ⟨n, moved, -, -, -, hrun⟩ := hrun
      obtain rfl := Except.ok.inj (hrun.symm.trans hs')
      refine ih (s := s.resized heap (toPage n) moved) ?_ hlow h
      change (s.held && !moved) = false
      rw [hheld, Bool.false_and]
    | lays ho hrun =>
      rw [hrun] at hs'
      split_ifs at hs'
      obtain rfl := Except.ok.inj hs'
      exact ih (s := s.laid o) hheld (Nat.mod_lt _ (by decide)) h
    | outside ho hrun =>
      rw [hrun] at hs'
      cases hs'

theorem not_held_finish (hheld : s.held = false) (image : List UInt8) : s.finish ≠ .ok image := by
  intro h
  rw [Packing.finish] at h
  split_ifs at h
  obtain ⟨s', hs', h⟩ := bind_eq_ok h
  rw [clear_eq] at hs'
  split_ifs at hs'
  obtain rfl := Except.ok.inj hs'
  obtain ⟨s', hs', -⟩ := bind_eq_ok h
  rw [Packing.seal, if_neg] at hs'
  · cases hs'
  · dsimp only
    rw [hheld]
    exact fun h => Bool.false_ne_true h.1

/-- A run that comes to an image stays in the room. -/
theorem Tracks.runs {image : List UInt8} : ∀ {s : Packing} {c : Cursor}, Tracks s c →
    c.room < 2 ^ 32 → (∀ o ∈ os, o.Moderate) → s.options heap os = .ok t → t.finish = .ok image →
    (os.foldl Cursor.next c).groups.length ≤ 3 → c.Runs os ∧ (os.foldl Cursor.next c).Ends := by
  induction os with
  | nil =>
    intro s c ht hroom hmoderate hrun hfinish hslots
    obtain rfl := Except.ok.inj hrun
    exact ⟨trivial, (ht.ends hfinish).1⟩
  | cons o os ih =>
    intro s c ht hroom hmoderate hrun hfinish hslots
    rw [options_cons] at hrun
    obtain ⟨s', hs', hrun⟩ := bind_eq_ok hrun
    have hcurLen : s.curLen < 2 ^ 32 := by
      rw [ht.curLen]
      exact ht.low
    have hrest : ∀ o' ∈ os, o'.Moderate := fun o' ho' => hmoderate o' (List.mem_cons_of_mem _ ho')
    have hnext := (Cursor.length_le os (c.next o)).trans hslots
    cases outcome heap hcurLen o with
    | rejected h =>
      rw [h] at hs'
      cases hs'
    | resizes h =>
      obtain ⟨n, moved, rfl, hleast, hsize, h⟩ := h
      obtain rfl := Except.ok.inj (h.symm.trans hs')
      have hmoved : moved = false := by
        cases moved with
        | false => rfl
        | true =>
          have hheld : (s.resized heap (toPage n) true).held = false := Bool.and_false _
          exact absurd hfinish (not_held_finish (not_held_options hheld hcurLen hrun).1 image)
      subst hmoved
      have hmodest : toPage n < 2 ^ 32 := hmoderate _ List.mem_cons_self
      obtain ⟨hruns, hends⟩ := ih (ht.resized hleast hsize) hmodest hrest hrun hfinish hslots
      refine ⟨⟨⟨Or.inl rfl, ?_⟩, hruns⟩, hends⟩
      intro arg moved heq
      cases heq
      rfl
    | lays ho h =>
      rw [h] at hs'
      split_ifs at hs' with hin
      obtain rfl := Except.ok.inj hs'
      have hroomy : c.Roomy o := by
        have hinside := hin.2
        rw [ht.curLen, ht.room] at hinside
        exact hinside.imp_right fun hle => ⟨hle, by omega⟩
      have hleaves : (c.next o).room = c.room := by
        cases o with
        | maxlen arg answer => exact absurd rfl (ho arg answer)
        | _ => rfl
      have hnextroom : (c.next o).room < 2 ^ 32 := by
        rw [hleaves]
        exact hroom
      obtain ⟨hruns, hends⟩ := ih (ht.laid ho hin.1 hroomy) hnextroom hrest hrun hfinish hslots
      exact ⟨⟨⟨hroomy, fun n moved heq => absurd heq (ho _ _)⟩, hruns⟩, hends⟩
    | outside ho h =>
      rw [h] at hs'
      cases hs'

theorem Cursor.runs_append (pre : List Opt) : ∀ {c : Cursor} {post : List Opt},
    c.Runs (pre ++ post) → c.Runs pre ∧ (pre.foldl Cursor.next c).Runs post := by
  induction pre with
  | nil => exact fun h => ⟨trivial, h⟩
  | cons o pre ih =>
    intro c post h
    obtain ⟨hpre, hpost⟩ := ih h.2
    exact ⟨⟨h.1, hpre⟩, hpost⟩

theorem options_append (pre post : List Opt) : ∀ s : Packing,
    s.options heap (pre ++ post) = s.options heap pre >>= fun s' => s'.options heap post := by
  induction pre with
  | nil => exact fun s => rfl
  | cons o pre ih =>
    intro s
    rw [List.cons_append, options_cons, options_cons, bind_assoc]
    exact congrArg _ (funext ih)

/-- Options that stay in the room fit, or one of them cuts off a file. -/
theorem Cursor.Runs.fit_or : ∀ {c : Cursor}, c.Runs os → (os.foldl Cursor.next c).Ends →
    c.Fit os ∨ ∃ pre n post, os = pre ++ .maxlen (some n) (.block false) :: post ∧
      ¬ (pre.foldl Cursor.next c).Within (toPage n) := by
  induction os with
  | nil => exact fun _ hends => Or.inl hends
  | cons o os ih =>
    intro c hruns hends
    rcases ih hruns.2 hends with hfit | ⟨pre, n, post, rfl, hcut⟩
    · by_cases hkeeps : c.Keeps o
      · exact Or.inl ⟨⟨hruns.1.1, hkeeps⟩, hfit⟩
      · right
        cases o with
        | maxlen arg answer =>
          cases arg with
          | none => exact absurd trivial hkeeps
          | some n =>
            cases answer with
            | failed => exact absurd trivial hkeeps
            | block moved =>
              obtain rfl := hruns.1.2 _ _ rfl
              exact ⟨[], n, os, rfl, fun hwithin => hkeeps ⟨rfl, hwithin⟩⟩
        | _ => exact absurd trivial hkeeps
    · exact Or.inr ⟨o :: pre, n, post, rfl, hcut⟩

/-- Memory that was cut off and filled with a byte holds no other one. -/
def Lost (b : UInt8) (k : ℕ) (buf : List UInt8) : Prop := ∀ x, buf[k]? = some x → x = b

theorem lost_resized {b : UInt8} {k n : ℕ} {moved : Bool} (h : Lost b k s.buf) :
    Lost b k (s.resized (fun _ _ => b) n moved).buf := by
  intro x hx
  change (s.buf.take n ++ tabulate (n - s.buf.length) fun _ => b)[k]? = some x at hx
  rw [List.getElem?_append] at hx
  split_ifs at hx with hlt
  · rw [List.getElem?_take] at hx
    split_ifs at hx
    exact h x hx
  · unfold tabulate at hx
    rw [List.getElem?_map] at hx
    obtain ⟨j, -, rfl⟩ := Option.map_eq_some_iff.mp hx
    rfl

/-- A run in the room follows the layout, and brings no lost byte back. -/
theorem Tracks.follows : ∀ {s : Packing} {c : Cursor}, Tracks s c → c.Runs os →
    s.options heap os = .ok t → (os.foldl Cursor.next c).groups.length ≤ 3 →
    Tracks t (os.foldl Cursor.next c) ∧
      ∀ b k, (heap = fun _ _ => b) → TRX_HEADER ≤ k → k < c.pos → Lost b k s.buf →
        Lost b k t.buf := by
  induction os with
  | nil =>
    intro s c ht hruns hrun hslots
    obtain rfl := Except.ok.inj hrun
    exact ⟨ht, fun _ _ _ _ _ h => h⟩
  | cons o os ih =>
    intro s c ht hruns hrun hslots
    obtain ⟨⟨hroomy, hmoved⟩, hruns⟩ := hruns
    rw [options_cons] at hrun
    obtain ⟨s', hs', hrun⟩ := bind_eq_ok hrun
    have hcurLen : s.curLen < 2 ^ 32 := by
      rw [ht.curLen]
      exact ht.low
    have hnext := (Cursor.length_le os (c.next o)).trans hslots
    cases outcome heap hcurLen o with
    | rejected h =>
      rw [h] at hs'
      cases hs'
    | resizes h =>
      obtain ⟨n, moved, rfl, hleast, hsize, h⟩ := h
      obtain rfl := Except.ok.inj (h.symm.trans hs')
      obtain rfl := hmoved _ _ rfl
      obtain ⟨htracks, hlost⟩ := ih (ht.resized hleast hsize) hruns hrun hslots
      refine ⟨htracks, fun b k hheap hk hlt h => ?_⟩
      apply hlost b k hheap hk hlt
      rw [hheap]
      exact lost_resized h
    | lays ho h =>
      rw [h] at hs'
      split_ifs at hs' with hin
      obtain rfl := Except.ok.inj hs'
      obtain ⟨htracks, hlost⟩ := ih (ht.laid ho hin.1 hroomy) hruns hrun hslots
      refine ⟨htracks, fun b k hheap hk hlt h => ?_⟩
      apply hlost b k hheap hk (lt_of_lt_of_le hlt (Nat.le_add_right _ _))
      intro x hx
      rw [ht.laid_getElem? hin.1 hin.2 hlt] at hx
      · exact h x hx
      · intro hfirst
        rw [Cursor.length_next, if_pos hfirst] at hnext
        rw [TRX_HEADER] at hk
        rw [OFFSETS]
        omega
    | outside ho h =>
      rw [h] at hs'
      cases hs'

/-- The memory behind a cut holds what the allocation put there, up to the end of a run. -/
theorem Packs.lost {pre post : List Opt} {n : Fin (2 ^ 64)} {b : UInt8} {image : List UInt8}
    (hrun : trx (fun _ _ => b) (pre ++ .maxlen (some n) (.block false) :: post) = .ok image)
    (hslots : (layout (pre ++ .maxlen (some n) (.block false) :: post)).groups.length ≤ 3)
    (hruns : Cursor.start.Runs (pre ++ .maxlen (some n) (.block false) :: post))
    (hends : (layout (pre ++ .maxlen (some n) (.block false) :: post)).Ends) {k : ℕ}
    (hcut : toPage n ≤ k) (hk : k < (pre.foldl Cursor.next Cursor.start).pos) :
    Lost b k image := by
  obtain ⟨hpre, hmaxlen, hpost⟩ := Cursor.runs_append pre hruns
  obtain ⟨t, hoptions, hfinish⟩ := bind_eq_ok hrun
  rw [options_append] at hoptions
  obtain ⟨s₁, hs₁, hoptions⟩ := bind_eq_ok hoptions
  rw [options_cons] at hoptions
  obtain ⟨s₂, hs₂, hoptions⟩ := bind_eq_ok hoptions
  rw [layout, List.foldl_append, List.foldl_cons] at hslots hends
  have hlen := (Cursor.length_le _ _).trans hslots
  obtain ⟨ht₁, -⟩ := Tracks.start.follows hpre hs₁ ((Cursor.length_le [_] _).trans hlen)
  have hresize : s₁.option (fun _ _ => b) (.maxlen (some n) (.block false)) = .error .rejected ∨ _ :=
    resizes_block n false
  rcases hresize with h | ⟨n', moved, heq, hle, hlt, h⟩
  · rw [h] at hs₂
    cases hs₂
  · cases heq
    obtain rfl := Except.ok.inj (h.symm.trans hs₂)
    have ht₂ : Tracks (s₁.resized (fun _ _ => b) (toPage n) false)
        ((pre.foldl Cursor.next Cursor.start).next (.maxlen (some n) (.block false))) :=
      ht₁.resized hle hlt
    obtain ⟨ht, hlost⟩ := ht₂.follows hpost hoptions hslots
    have hheader : TRX_HEADER ≤ k := by
      rw [TRX_HEADER]
      omega
    have hgone : Lost b k (s₁.resized (fun _ _ => b) (toPage n) false).buf := by
      intro x hx
      have hlength : (s₁.resized (fun _ _ => b) (toPage n) false).buf.length = toPage n := ht₂.room
      rw [List.getElem?_eq_none (by omega)] at hx
      cases hx
    have hkept := hlost b k rfl hheader hk hgone
    have himage := (ht.ends hfinish).2
    intro x hx
    apply hkept
    rw [himage, ht.image_getElem? hends] at hx
    · exact hx
    · exact lt_of_lt_of_le hk (Cursor.pos_le (.maxlen (some n) (.block false) :: post) _)
    · right
      rw [FLAG_VERSION]
      omega

/-- A block that is cut in front of the end of a file does not give the image in every memory. -/
theorem Packs.within {pre post : List Opt} {n : Fin (2 ^ 64)}
    (hpacks : Packs (pre ++ .maxlen (some n) (.block false) :: post))
    (hslots : (layout (pre ++ .maxlen (some n) (.block false) :: post)).groups.length ≤ 3)
    (hruns : Cursor.start.Runs (pre ++ .maxlen (some n) (.block false) :: post))
    (hends : (layout (pre ++ .maxlen (some n) (.block false) :: post)).Ends) :
    (pre.foldl Cursor.next Cursor.start).Within (toPage n) := by
  intro g hg
  by_contra hcut
  rw [not_or] at hcut
  have hpos : 0 < g.bytes.length := List.length_pos_iff.mpr hcut.1
  obtain ⟨x, hx⟩ : ∃ x, g.bytes[g.bytes.length - 1]? = some x :=
    ⟨_, List.getElem?_eq_getElem (by omega)⟩
  obtain ⟨image, hrun, hdescribed⟩ := hpacks fun _ _ => x + 1
  obtain ⟨g', hg', hgrows⟩ :=
    Cursor.grows (.maxlen (some n) (.block false) :: post) _ hg
  rw [← List.foldl_append] at hg'
  have hfile : g' ∈ files (pre ++ .maxlen (some n) (.block false) :: post) :=
    List.mem_reverse.mpr hg'
  have hsound : (pre.foldl Cursor.next Cursor.start).Sound := Cursor.Sound.start.foldl pre
  have hend := hsound.ends g hg (hgrows.joined (hdescribed.joined g' hfile))
  have hlost := Packs.lost hrun hslots hruns hends (k := g.start + (g.bytes.length - 1)) (by omega)
    (by omega)
  obtain ⟨rest, hrest⟩ := hgrows.bytes
  have hstands := holds_iff_getElem?.mp (hdescribed.stands g' hfile) (g.bytes.length - 1) (by
    rw [← hrest, List.length_append]
    omega)
  rw [hgrows.start, ← hrest, List.getElem?_append_left (by omega), hx] at hstands
  have heq : x = x + 1 := hlost x hstands
  exact absurd (left_eq_add.mp heq) (by decide)

/-- A command line that is packed fits. -/
theorem Packs.fits (hpacks : Packs opts) (hmoderate : ∀ o ∈ opts, o.Moderate) : Fits opts := by
  obtain ⟨image, hrun, hdescribed⟩ := hpacks fun _ _ => 0
  have hthree : (files opts).length ≤ 3 := by
    by_contra hmore
    have hget : (files opts)[3]? = some ((files opts).get ⟨3, by omega⟩) :=
      List.getElem?_eq_getElem (by omega)
    exact absurd (hdescribed.offsets 3 _ hget).1 (lt_irrefl 3)
  have hslots : (layout opts).groups.length ≤ 3 := by
    rwa [files, List.length_reverse] at hthree
  obtain ⟨t, hoptions, hfinish⟩ := bind_eq_ok hrun
  obtain ⟨hruns, hends⟩ :=
    Tracks.start.runs (by decide) hmoderate hoptions hfinish hslots
  rcases hruns.fit_or hends with hfit | ⟨pre, n, post, hopts, hcut⟩
  · exact ⟨hfit, hthree, hdescribed.joined⟩
  · subst hopts
    exact absurd (hpacks.within hslots hruns hends) hcut

/-- A command line that the program takes is packed as it describes if it fits, and only then as
long as it asks for less than 4 GiB. -/
theorem trx_packs_iff (opts : List Opt) (haccept : ∀ heap, trx heap opts ≠ .error .rejected) :
    (Fits opts → Packs opts) ∧ ((∀ o ∈ opts, o.Moderate) → (Packs opts ↔ Fits opts)) := by
  have hpacks : Fits opts → Packs opts :=
    fun h heap => (h.trx heap).resolve_left (haccept heap)
  exact ⟨hpacks, fun hmoderate => ⟨fun h => h.fits hmoderate, hpacks⟩⟩

/-- A file of one byte. -/
def oneByte : Opt := .file false (.holds [1])

theorem options_oneByte : (Packing.start heap).options heap (oneByte :: os) =
    ((Packing.start heap).laid oneByte).options heap os := by
  have hfits : OFFSETS + 4 * 0 + 4 ≤ TRX_MAX_LEN ∧
      1 < ulong (TRX_MAX_LEN + 2 ^ 64 - TRX_HEADER) ∧ TRX_HEADER + 4 ≤ TRX_MAX_LEN := by decide
  have hslot : (Packing.start heap).held ∧
      OFFSETS + 4 * (Packing.start heap).i + 4 ≤ (Packing.start heap).buf.length := by
    rw [start_length]
    exact ⟨rfl, hfits.1⟩
  have hlays : (Packing.start heap).Lays heap oneByte := by
    apply lays_first _ hslot
    rw [start_length]
    exact hfits.2.1
  rw [options_cons, hlays, if_pos, ok_bind]
  refine ⟨fun _ => hslot, Or.inr ?_⟩
  rw [start_length]
  exact hfits.2.2

theorem tracks_oneByte :
    Tracks ((Packing.start heap).laid oneByte) (Cursor.start.next oneByte) := by
  apply Tracks.start.laid
  · exact fun arg answer heq => Opt.noConfusion heq
  · exact Tracks.start.slot (by decide)
  · exact Or.inr (by decide)

/-- One file is taken. -/
theorem trx_packs_iff_oneByte : (∀ heap, trx heap [oneByte] ≠ .error .rejected) ∧
    (Fits [oneByte] → Packs [oneByte]) ∧
      ((∀ o ∈ [oneByte], o.Moderate) → (Packs [oneByte] ↔ Fits [oneByte])) := by
  have haccept : ∀ heap, trx heap [oneByte] ≠ .error .rejected := by
    intro heap
    have hopened : ((Packing.start heap).laid oneByte).opened = true := rfl
    rw [trx, options_oneByte, Packing.options, ok_bind, tracks_oneByte.finish, if_pos hopened]
    split_ifs <;> exact fun h => by cases h
  exact ⟨haccept, trx_packs_iff [oneByte] haccept⟩

/-- An offset one byte behind the end of the block is taken, and the block overrun. -/
theorem trx_overruns : ∃ opts, (∀ heap, trx heap opts ≠ .error .rejected) ∧ ¬ Packs opts := by
  have hrun : ∀ heap, trx heap [oneByte, .offset (some 0x5A0001)] = .error .outside := by
    intro heap
    have hout : ¬ Inside TRX_MAX_LEN 32 (List.replicate (0x5A0001 - 32) (0 : UInt8)) := by
      rintro (hnil | hle)
      · exact absurd (congrArg List.length hnil) (by rw [List.length_replicate]; decide)
      · rw [List.length_replicate] at hle
        exact absurd hle (by decide)
    have hlen : ((Packing.start heap).laid oneByte).buf.length = TRX_MAX_LEN := tracks_oneByte.room
    have hcurLen : ((Packing.start heap).laid oneByte).curLen = 32 := tracks_oneByte.curLen
    rw [trx, options_oneByte, options_cons, Packing.option, Packing.moveTo, hcurLen, if_neg,
      clear_eq, hlen, hcurLen]
    · change (if Inside TRX_MAX_LEN 32 (List.replicate (0x5A0001 - 32) (0 : UInt8)) then _
        else _) >>= _ >>= _ = _
      rw [if_neg hout]
      rfl
    · decide
  refine ⟨[oneByte, .offset (some 0x5A0001)], fun heap h => ?_, fun hpacks => ?_⟩
  · rw [hrun] at h
    cases h
  · obtain ⟨image, himage, -⟩ := hpacks fun _ _ => 0
    rw [hrun] at himage
    cases himage

end EzpFirmware.FirmwareUtils
