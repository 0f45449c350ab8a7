import EzpFirmware.Httpd.MergedPieces

/-! # The forms of queries

Where the first escape of each piece is whole, a query gives for a name what the
only assignment to that name gives by itself.
-/
namespace EzpFirmware.Httpd
open Lib

section
variable (L : Libc)

/-- The variables of a piece by itself. -/
def formWith (junk : UInt8) (p : List UInt8) : Form :=
  getCgi L (initCgi L junk (some start) (alone (CStr.read p)))

/-- In every memory, the only assignment to a name gives what it gives by itself, whatever the unset
variable of the decoder holds. -/
def DecodedAlone (query : CStr) : Prop :=
  ∀ (junk junk' : UInt8) (c : Cgi) (b : Buffer) (pos : ℕ) (rest : List UInt8),
    Holding c b pos query rest →
      ∀ (i : ℕ) (p : List UInt8), (pieces query)[i]? = some p → ∀ name,
        formWith L junk' p name ≠ none →
          (∀ j p', j ≠ i → (pieces query)[j]? = some p' → formWith L junk' p' name = none) →
            getCgi L (initCgi L junk (some ⟨b, pos⟩) c) name = formWith L junk' p name

/-- The first escape of each piece is a number, and has its two bytes or an empty piece behind its
own. -/
def firstEscapes : List (List UInt8) → Bool
  | [] => true
  | p :: ps => ((behindPercent p).all fun s => (L.sscanf (CStr.read s)).isSome &&
      (2 ≤ s.length || ps.head? = some [])) && firstEscapes ps

end

section
variable {L : Libc} {ps qs : List (List UInt8)} {p : List UInt8} {query : CStr}

theorem firstEscapes_cons : firstEscapes L (p :: ps) = true ↔
    (∀ s, behindPercent p = some s → (L.sscanf (CStr.read s)).isSome = true ∧
      (2 ≤ s.length ∨ ps.head? = some [])) ∧ firstEscapes L ps = true := by
  rw [firstEscapes, Bool.and_eq_true]
  refine and_congr_left fun _ => ?_
  cases behindPercent p <;> simp

/-- Such escapes are whole in every memory. -/
theorem wholePieces_of_first (h : firstEscapes L ps = true) (rest : List UInt8) :
    WholePieces L ps rest := by
  induction ps with
  | nil => trivial
  | cons p ps ih =>
    obtain ⟨hp, hps⟩ := firstEscapes_cons.mp h
    refine ⟨fun s hs => ⟨(hp s hs).1, (hp s hs).2.imp id fun hhead => ?_⟩, ih hps⟩
    obtain ⟨qs, rfl⟩ : ∃ qs, ps = [] :: qs := by
      cases ps with
      | nil => cases hhead
      | cons q qs => exact ⟨qs, by rw [Option.some.inj hhead]⟩
    rfl

/-! ## A piece by itself -/

theorem holding_alone (text : CStr) : Holding (alone text) .post 0 text [] :=
  ⟨⟨[], rfl, (List.append_nil _).symm⟩, rfl⟩

/-- A piece whose first escape is whole. -/
theorem formWith_whole (hE : L.EmptyFails) (hR : L.Roomy) (h : p ∈ pieces query)
    (hnum : ∀ s, behindPercent p = some s → (L.sscanf (CStr.read s)).isSome = true)
    (hnul : NulsLast L p) (junk : UInt8) :
    formWith L junk p = assigned (fun _ => none) (decoded L p) := by
  have hone := pieces_alone h
  have hwhole : WholePieces L (pieces (CStr.read p)) [] := by
    rw [hone]
    exact ⟨fun s hs => ⟨hnum s hs, .inr rfl⟩, trivial⟩
  have hnuls : ∀ p' ∈ pieces (CStr.read p), NulsLast L p' := by
    rw [hone]
    exact List.forall_mem_singleton.mpr hnul
  rw [formWith, start, initCgi_whole hE hR (holding_alone _) hwhole hnuls junk, hone]
  rfl

/-- A piece, whatever its escapes are. -/
theorem formWith_any (hR : L.Roomy) (h : p ∈ pieces query) (hp : p ≠ []) (hnul : NulFree L p)
    {junk : UInt8} (hjunk : junk ≠ 0) :
    formWith L junk p = assigned (fun _ => none) ⟨decode L junk p, hnul junk hjunk⟩ := by
  have h0 := notMem_pieces h
  obtain ⟨hat, hnone⟩ := (holding_alone (CStr.read p)).opened hR
  rw [pieces_alone h] at hat
  obtain ⟨n, hn, hstart⟩ := hat.start (L := L) (Nat.le_add_right _ _) junk
  rw [Nat.add_sub_cancel_left] at hstart
  obtain ⟨n', hn', hround⟩ := @AtPieces.round L _ _ _ _ _ _ _ _ hat hp h0 junk _ hn
  obtain ⟨z, hm⟩ := @Merged.of_apart L _ (p ++ 0 :: pieceMem []).length _ []
    h0 hnul hjunk (by rw [List.length_append]; omega) fun s hs =>
      apart_end fun hmem => h0 ((behindPercent_suffix hs).subset hmem)
  obtain ⟨q', k', hnext, hat', hget⟩ := hat.step_merged hm
  rw [formWith, initCgi, start]
  dsimp only
  rw [(holding_alone (CStr.read p)).text, hstart, hround, hnext, hat'.done, hget, hnone]

/-! ## All pieces -/

theorem assigned_apply (F : Form) (t : CStr) (name : CStr) :
    assigned F t name = (assigned (fun _ => none) t name).or (F name) := by
  unfold assigned
  cases CStr.cut KernelNvram.EQ t with
  | none => rfl
  | some a =>
    dsimp only
    by_cases hname : name = a.1
    · subst hname
      rw [Function.update_self, Function.update_self]
      rfl
    · rw [Function.update_of_ne hname, Function.update_of_ne hname]
      rfl

theorem assignedAll_of_none {F : Form} {name : CStr}
    (h : ∀ p ∈ ps, assigned (fun _ => none) (decoded L p) name = none) :
    assignedAll L F ps name = F name := by
  induction ps generalizing F with
  | nil => rfl
  | cons p ps ih =>
    have hp := h p List.mem_cons_self
    rw [assignedAll, List.foldl_cons, ← assignedAll, ih fun q hq => h q (List.mem_cons_of_mem p hq),
      assigned_apply, hp, Option.none_or]

/-- The only piece that is assigned to a name decides what it is. -/
theorem assignedAll_unique {F : Form} {name value : CStr}
    (hp : assigned (fun _ => none) (decoded L p) name = some value)
    (hqs : ∀ q ∈ qs, assigned (fun _ => none) (decoded L q) name = none) :
    assignedAll L F (ps ++ p :: qs) name = some value := by
  rw [assignedAll, List.foldl_append, List.foldl_cons, ← assignedAll, ← assignedAll,
    assignedAll_of_none hqs, assigned_apply, hp, Option.some_or]

theorem decodedAlone_of_first (hE : L.EmptyFails) (hR : L.Roomy)
    (h : firstEscapes L (pieces query) = true) (hnul : ∀ p ∈ pieces query, NulsLast L p) :
    DecodedAlone L query := by
  have hnum : ∀ p ∈ pieces query, ∀ s, behindPercent p = some s →
      (L.sscanf (CStr.read s)).isSome = true := by
    generalize pieces query = ps at h
    induction ps with
    | nil => exact fun p hp => absurd hp List.not_mem_nil
    | cons p ps ih =>
      obtain ⟨hp, hps⟩ := firstEscapes_cons.mp h
      exact List.forall_mem_cons.mpr ⟨fun s hs => (hp s hs).1, ih hps⟩
  intro junk junk' c b pos rest hc i p hi name hsome hothers
  have hmem := List.mem_of_getElem? hi
  obtain ⟨hlt, hget⟩ := List.getElem?_eq_some_iff.mp hi
  have hform {p' : List UInt8} (hp' : p' ∈ pieces query) :=
    formWith_whole hE hR hp' (hnum p' hp') (hnul p' hp') junk'
  obtain ⟨value, hvalue⟩ := Option.ne_none_iff_exists'.mp hsome
  have hsplit : pieces query = (pieces query).take i ++ p :: (pieces query).drop (i + 1) := by
    rw [← hget, List.getElem_cons_drop, List.take_append_drop]
  rw [initCgi_whole hE hR hc (wholePieces_of_first h rest) hnul junk, hvalue, hsplit]
  refine assignedAll_unique (by rw [← hform hmem, hvalue]) fun q hq => ?_
  obtain ⟨j, hj⟩ := List.mem_iff_getElem?.mp hq
  rw [List.getElem?_drop] at hj
  rw [← hform (List.mem_of_getElem? hj)]
  exact hothers _ q (by omega) hj

end

end EzpFirmware.Httpd
