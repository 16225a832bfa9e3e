import StreamSplice.Proofs.Masks

/-! Streams that a transition leaves alone. If a word takes no byte from a stream and does not
skip it, then at most a byte of the stream is required to be there: none is required to be
absent, no word to be the last one, and no byte is masked. -/
namespace StreamSplice

open Std

namespace Transition

/-- Whether a transition leaves a stream alone. -/
structure Spares (t : Transition) (stream : Nat) : Prop where
  last : ∀ stage guard, t.guard? stream stage = some guard → guard.last = .any
  present : ∀ stage guard, t.guard? stream stage = some guard →
    ∀ byte : Nat, guard.keep[byte]? ≠ some .zero
  masks : ∀ stage byte kept, t.mask? stream stage byte = some kept → kept = true

variable {t : Transition} {stream : Nat}

theorem spares_idle (state nextState : Nat) (last : Bool) (wordBytes : Nat)
    (lookahead : List Nat) (stream : Nat) :
    (idle state nextState last wordBytes lookahead).Spares stream := by
  have hGuard : ∀ stage guard,
      (idle state nextState last wordBytes lookahead).guard? stream stage = some guard →
        guard = .dontCare wordBytes := by
    intro stage guard h
    obtain ⟨row, hRow, hStage⟩ := guard?_eq_some.mp h
    rw [idle, List.getElem?_map] at hRow
    obtain ⟨l, _, rfl⟩ := Option.map_eq_some_iff.mp hRow
    exact List.eq_of_mem_replicate (List.mem_of_getElem? hStage)
  refine ⟨fun stage guard h => ?_, fun stage guard h byte hZero => ?_, fun stage byte kept h => ?_⟩
  · rw [hGuard stage guard h]
    rfl
  · rw [hGuard stage guard h] at hZero
    cases List.eq_of_mem_replicate (List.mem_of_getElem? hZero)
  · obtain ⟨masks, mask, hMasks, hMask, hKept⟩ := mask?_eq_some.mp h
    rw [idle, List.getElem?_map] at hMasks
    obtain ⟨l, _, rfl⟩ := Option.map_eq_some_iff.mp hMasks
    obtain rfl := List.eq_of_mem_replicate (List.mem_of_getElem? hMask)
    exact List.eq_of_mem_replicate (List.mem_of_getElem? hKept)

namespace Spares

/-- Sources of other streams clear nothing of the stream. -/
theorem deliver (h : t.Spares stream) {sources : List (Option Source)}
    (hSources : ∀ source, some source ∈ sources → source.stream ≠ stream) :
    (t.deliver sources).Spares stream := by
  refine ⟨h.last, h.present, fun stage byte kept hKept => ?_⟩
  obtain ⟨masks, mask, hMasks, hMask, hKept⟩ := mask?_eq_some.mp hKept
  dsimp only [Transition.deliver] at hMasks
  rw [List.getElem?_mapIdx] at hMasks
  obtain ⟨masks', hMasks', rfl⟩ := Option.map_eq_some_iff.mp hMasks
  split at hMask
  · next hFed =>
      obtain ⟨source, hMem, hStream⟩ := List.any_eq_true.mp hFed
      exact absurd (beq_iff_eq.mp hStream) (hSources source (by simpa using hMem))
  · exact h.masks stage byte kept (mask?_eq_some.mpr ⟨_, _, hMasks', hMask, hKept⟩)

/-- Guards of other streams do not matter. -/
theorem modifyGuard (h : t.Spares stream) {other stage : Nat} (hOther : other ≠ stream)
    (f : RegisterGuard → RegisterGuard) : (t.modifyGuard other stage f).Spares stream := by
  have hSame : ∀ stage', (t.modifyGuard other stage f).guard? stream stage' =
      t.guard? stream stage' := fun stage' =>
    guard?_modifyGuard_of_ne t f fun h => hOther h.1
  exact ⟨fun stage' guard hGuard => h.last stage' guard (hSame stage' ▸ hGuard),
    fun stage' guard hGuard => h.present stage' guard (hSame stage' ▸ hGuard), h.masks⟩

/-- A byte of the stream may be required to be there. -/
theorem requirePresent (h : t.Spares stream) (other stage byte : Nat) :
    (t.requireKeep other stage byte .one).Spares stream := by
  by_cases hOther : other = stream
  · subst hOther
    have hGuard : ∀ stage' guard,
        (t.requireKeep other stage byte .one).guard? other stage' = some guard →
          guard.last = .any ∧ ∀ b : Nat, guard.keep[b]? ≠ some .zero := by
      intro stage' guard hGuard
      by_cases hStage : stage = stage'
      · subst hStage
        rw [Transition.requireKeep, guard?_modifyGuard_self] at hGuard
        obtain ⟨original, hOriginal, rfl⟩ := Option.map_eq_some_iff.mp hGuard
        refine ⟨h.last stage original hOriginal, fun b hZero => ?_⟩
        rw [List.getElem?_set] at hZero
        split at hZero
        · split at hZero
          · cases hZero
          · cases hZero
        · exact h.present stage original hOriginal b hZero
      · rw [Transition.requireKeep, guard?_modifyGuard_of_ne t _ fun h => hStage h.2] at hGuard
        exact ⟨h.last stage' guard hGuard, h.present stage' guard hGuard⟩
    exact ⟨fun stage' guard hGuard' => (hGuard stage' guard hGuard').1,
      fun stage' guard hGuard' => (hGuard stage' guard hGuard').2, h.masks⟩
  · exact h.modifyGuard hOther _

/-- Other streams may be skipped. -/
theorem skipEmpty (h : t.Spares stream) {start stop : Nat}
    (hOutside : ¬(start ≤ stream ∧ stream < stop)) : (t.skipEmpty start stop).Spares stream := by
  have hSame : ∀ stage, (t.skipEmpty start stop).guard? stream stage = t.guard? stream stage := by
    intro stage
    rw [guard?_skipEmpty, if_neg fun hSkipped => hOutside hSkipped.2]
  refine ⟨fun stage guard hGuard => h.last stage guard (hSame stage ▸ hGuard),
    fun stage guard hGuard => h.present stage guard (hSame stage ▸ hGuard), ?_⟩
  intro stage byte kept hKept
  rw [mask?_skipEmpty hOutside] at hKept
  exact h.masks stage byte kept hKept

/-- Since no byte is required to be absent, none is masked for that reason. -/
theorem maskAbsent (h : t.Spares stream) : t.maskAbsent.Spares stream := by
  refine ⟨h.last, h.present, fun stage byte kept hKept => ?_⟩
  obtain ⟨masks, mask, hMasks, hMask, hKept⟩ := mask?_eq_some.mp hKept
  dsimp only [Transition.maskAbsent] at hMasks
  obtain ⟨guards, masks', hGuards, hMasks', rfl⟩ := List.getElem?_zipWith_eq_some.mp hMasks
  obtain ⟨guard, mask', hGuard, hMask', rfl⟩ := List.getElem?_zipWith_eq_some.mp hMask
  obtain ⟨bit, kept', hBit, hKept', rfl⟩ := List.getElem?_zipWith_eq_some.mp hKept
  have hOwn := h.masks stage byte kept' (mask?_eq_some.mpr ⟨_, _, hMasks', hMask', hKept'⟩)
  have hNotZero : bit ≠ .zero := by
    rintro rfl
    exact h.present stage guard (guard?_eq_some.mpr ⟨guards, hGuards, hGuard⟩) byte hBit
  simp [hOwn, hNotZero]

end Spares

end Transition

namespace Setting

open Transition

variable {setting : Setting} {before after following : Option Source} {atEnd : Bool}
  {source : Source} {sources : List (Option Source)} {t : Transition} {stream : Nat}

theorem spares_close (h : t.Spares stream)
    (hOutside : ¬(source.stream + 1 ≤ stream ∧
      stream < after.elim setting.streamCount Source.stream)) :
    (setting.close after source t).Spares stream := by
  have hSkipped := h.skipEmpty hOutside
  unfold close
  dsimp only
  split
  · split
    · exact hSkipped.requirePresent _ _ _
    · exact hSkipped
  · exact hSkipped

theorem spares_requireTrailing (h : t.Spares stream) (hOther : source.stream ≠ stream)
    (closes continues atEnd : Bool) :
    (setting.requireTrailing closes continues atEnd source t).Spares stream := by
  unfold requireTrailing
  dsimp only
  split
  · exact h.modifyGuard hOther _
  · exact h

/-- A driven byte of another stream leaves a stream alone that is not skipped after it. -/
theorem spares_drive (h : t.Spares stream) (hOther : source.stream ≠ stream)
    (hSkips : ¬setting.SkipsAfter after source stream) :
    (setting.drive before after atEnd source t).Spares stream := by
  have hSource : (t.requireSource source).Spares stream := h.modifyGuard hOther _
  have hClosed : (if (after.all (·.stream ≠ source.stream)) = true then
      setting.close after source (t.requireSource source) else t.requireSource source).Spares
      stream := by
    split
    · next hCloses =>
        exact spares_close hSource fun hRange => hSkips ⟨all_iff_closes.mp hCloses, hRange⟩
    · exact hSource
  simp only [drive]
  apply spares_requireTrailing _ hOther
  split
  · exact hClosed.modifyGuard hOther _
  · exact hClosed

theorem spares_driveAll (h : t.Spares stream)
    (hOther : ∀ source, some source ∈ sources → source.stream ≠ stream)
    (hSkips : ¬setting.Skips following sources stream) :
    (setting.driveAll following before sources t).Spares stream := by
  induction sources generalizing before t with
  | nil => exact h
  | cons cell rest ih =>
      rw [skips_cons, not_or] at hSkips
      have hRest : ∀ source, some source ∈ rest → source.stream ≠ stream :=
        fun source hMem => hOther source (List.mem_cons_of_mem _ hMem)
      cases cell with
      | none => exact ih h hRest hSkips.2
      | some source =>
          refine ih (spares_drive h (hOther source List.mem_cons_self) fun hAfter => ?_) hRest
            hSkips.2
          exact hSkips.1 ⟨source, rfl, hAfter⟩

/-- The transition of a context leaves every stream alone that it neither takes a byte from nor
skips. -/
theorem spares_transition {context : Context}
    (hOther : ∀ source, some source ∈ context.sources → source.stream ≠ stream)
    (hSkips : ¬setting.Skips context.following context.sources stream) :
    (setting.transition context).Spares stream := by
  have hIdle := Transition.spares_idle context.state context.nextState context.last
    setting.wordBytes setting.lookahead stream
  have hDriven : (setting.driven context).Spares stream :=
    spares_driveAll (hIdle.deliver hOther) hOther hSkips
  simp only [transition]
  split
  · next source hFirst =>
      exact hDriven.maskAbsent.modifyGuard
        (hOther source (by simpa using List.mem_of_head? hFirst)) _
  · exact hDriven.maskAbsent

/-- So does the transition that skips leading streams on entry, apart from these. -/
theorem spares_enter {context : Context}
    (hOther : ∀ source, some source ∈ context.sources → source.stream ≠ stream)
    (hSkips : ¬setting.Skips context.following context.sources stream) (state : Nat)
    {leading : Nat} (hLeading : ¬stream < leading) :
    (setting.enter context state leading).Spares stream := by
  have h := spares_transition hOther hSkips
  have hOwn : Transition.Spares { setting.transition context with state := state } stream :=
    ⟨h.last, h.present, h.masks⟩
  exact hOwn.skipEmpty fun hSkipped => hLeading hSkipped.2

end Setting

end StreamSplice
