import StreamSplice.Proofs.Masks

/-! Requirements persist. The guards of a transition are put together one requirement at a time,
and a later one may replace the value that an earlier one asked for; but no bit that takes part
in a guard is ever left open again. Registers that meet all guards in the end tell therefore
which value each bit that was required on the way has come to have. -/
namespace StreamSplice

/-- A bit of a register. -/
inductive RegisterBit where
  | keep (byte : Nat)
  | relict
  | last
  deriving DecidableEq, Repr

/-- The value of a bit. -/
def Register.bit? (register : Register) : RegisterBit → Option Bool
  | .keep byte => register.keep[byte]?
  | .relict => some register.relict
  | .last => some register.last

theorem BitGuard.eq_exactly {guard : BitGuard} {value : Bool} (hCare : guard.isCare)
    (hAccepts : guard.accepts value) : guard = .exactly value := by
  cases guard <;> cases value <;> simp_all [isCare, accepts, exactly]

theorem BitGuard.isCare_exactly (value : Bool) : (exactly value).isCare := by
  cases value <;> rfl

namespace RegisterGuard

/-- The required value of a bit. -/
def bit? (guard : RegisterGuard) : RegisterBit → Option BitGuard
  | .keep byte => guard.keep[byte]?
  | .relict => some guard.relict
  | .last => some guard.last

variable {guard other third : RegisterGuard}

theorem accepts_bit? {register : Register} {bit : RegisterBit} {required : BitGuard} {value : Bool}
    (h : guard.accepts register) (hRequired : guard.bit? bit = some required)
    (hValue : register.bit? bit = some value) : required.accepts value := by
  obtain ⟨hKeep, hRelict, hLast⟩ := accepts_iff.mp h
  cases bit with
  | keep byte => exact rel_of_forall₂ hKeep hRequired hValue
  | relict =>
      cases hRequired
      cases hValue
      exact hRelict
  | last =>
      cases hRequired
      cases hValue
      exact hLast

/-- All bits of an empty last word take part. -/
theorem isCare_emptyLastWord {wordBytes : Nat} {bit : RegisterBit} {required : BitGuard}
    (h : (emptyLastWord wordBytes).bit? bit = some required) : required.isCare := by
  cases bit with
  | keep byte =>
      rw [List.eq_of_mem_replicate (List.mem_of_getElem? h)]
      rfl
  | relict =>
      cases h
      rfl
  | last =>
      cases h
      rfl

/-- Whether every bit that takes part in a guard takes part in another one as well, which has
no further bits. -/
def Within (guard other : RegisterGuard) : Prop :=
  ∀ bit required', other.bit? bit = some required' →
    ∃ required, guard.bit? bit = some required ∧ (required.isCare → required'.isCare)

theorem Within.refl (guard : RegisterGuard) : guard.Within guard :=
  fun _ required h => ⟨required, h, id⟩

/-- A keep bit that is required takes part. -/
theorem within_set {byte : Nat} {required : BitGuard} (hCare : required.isCare) :
    guard.Within { guard with keep := guard.keep.set byte required } := by
  intro bit required' h
  cases bit with
  | keep other =>
      simp only [bit?, List.getElem?_set] at h
      split at h
      · next hSame =>
          subst hSame
          split at h
          · next hBound =>
              cases h
              exact ⟨_, List.getElem?_eq_getElem hBound, fun _ => hCare⟩
          · cases h
      · exact ⟨required', h, id⟩
  | relict => exact ⟨required', h, id⟩
  | last => exact ⟨required', h, id⟩

/-- So do bits that are required to be absent. -/
theorem within_mapIdx {byte : Nat} : guard.Within
    { guard with keep := guard.keep.mapIdx fun b bit => if b < byte then .zero else bit } := by
  intro bit required' h
  cases bit with
  | keep other =>
      simp only [bit?, List.getElem?_mapIdx] at h
      obtain ⟨required, hRequired, rfl⟩ := Option.map_eq_some_iff.mp h
      refine ⟨required, hRequired, fun hCare => ?_⟩
      split
      · rfl
      · exact hCare
  | relict => exact ⟨required', h, id⟩
  | last => exact ⟨required', h, id⟩

end RegisterGuard

namespace Transition

/-- Whether a bit takes part in the guard of a register, if it has one. -/
def Requires (t : Transition) (stream stage : Nat) (bit : RegisterBit) : Prop :=
  ∀ guard required, t.guard? stream stage = some guard → guard.bit? bit = some required →
    required.isCare

/-- Whether the guards of a transition are within those of another one. -/
def Within (t other : Transition) : Prop :=
  ∀ stream stage guard', other.guard? stream stage = some guard' →
    ∃ guard, t.guard? stream stage = some guard ∧ guard.Within guard'

variable {t other third : Transition} {stream stage : Nat} {bit : RegisterBit}

theorem Within.refl (t : Transition) : t.Within t :=
  fun _ _ guard h => ⟨guard, h, .refl guard⟩

theorem Within.trans (h : t.Within other) (h' : other.Within third) : t.Within third := by
  intro stream stage guard'' hGuard''
  obtain ⟨guard', hGuard', hOuter⟩ := h' stream stage guard'' hGuard''
  obtain ⟨guard, hGuard, hInner⟩ := h stream stage guard' hGuard'
  refine ⟨guard, hGuard, fun bit required'' hRequired'' => ?_⟩
  obtain ⟨required', hRequired', hLater⟩ := hOuter bit required'' hRequired''
  obtain ⟨required, hRequired, hEarlier⟩ := hInner bit required' hRequired'
  exact ⟨required, hRequired, hLater ∘ hEarlier⟩

theorem Within.ite (condition : Bool) (h : t.Within other) :
    t.Within (if condition then other else t) := by
  split
  · exact h
  · exact .refl t

/-- A bit that takes part keeps doing so. -/
theorem Requires.mono (h : t.Requires stream stage bit) (hWithin : t.Within other) :
    other.Requires stream stage bit := by
  intro guard' required' hGuard' hRequired'
  obtain ⟨guard, hGuard, hBits⟩ := hWithin stream stage guard' hGuard'
  obtain ⟨required, hRequired, hCare⟩ := hBits bit required' hRequired'
  exact hCare (h guard required hGuard hRequired)

section Values

variable {registers : Nat → Nat → Register} {guard : RegisterGuard} {wordBytes : Nat}

/-- What registers that meet the guards show of a required bit is what the guard requires. -/
theorem Requires.eq_exactly {required : BitGuard} {value : Bool} (h : t.Requires stream stage bit)
    (hMeets : t.Meets registers) (hGuard : t.guard? stream stage = some guard)
    (hRequired : guard.bit? bit = some required)
    (hValue : (registers stream stage).bit? bit = some value) : required = .exactly value :=
  BitGuard.eq_exactly (h guard required hGuard hRequired)
    (RegisterGuard.accepts_bit? (hMeets stream stage guard hGuard) hRequired hValue)

theorem Requires.keep_eq {byte : Nat} {value : Bool} (h : t.Requires stream stage (.keep byte))
    (hMeets : t.Meets registers) (hGuard : t.guard? stream stage = some guard)
    (hValue : (registers stream stage).keep[byte]? = some value) :
    guard.keep[byte]? = some (.exactly value) := by
  have hWidth := RegisterGuard.length_eq_of_accepts (hMeets stream stage guard hGuard)
  have hRequired := List.getElem?_eq_getElem
    (hWidth ▸ (List.getElem?_eq_some_iff.mp hValue).1)
  rw [hRequired, h.eq_exactly hMeets hGuard hRequired hValue]

theorem Requires.last_eq (h : t.Requires stream stage .last) (hMeets : t.Meets registers)
    (hGuard : t.guard? stream stage = some guard) :
    guard.last = .exactly (registers stream stage).last :=
  h.eq_exactly hMeets hGuard rfl rfl

/-- If all bits of an empty frame are required, then its word is the one that is required. -/
theorem eq_emptyLastWord (h : ∀ bit, t.Requires stream stage bit) (hMeets : t.Meets registers)
    (hGuard : t.guard? stream stage = some guard)
    (hEmpty : registers stream stage = .emptyFrame wordBytes) :
    guard = .emptyLastWord wordBytes := by
  have hRelict : guard.relict = .exactly (registers stream stage).relict :=
    (h .relict).eq_exactly hMeets hGuard rfl rfl
  have hLast := (h .last).last_eq hMeets hGuard
  have hWidth := RegisterGuard.length_eq_of_accepts (hMeets stream stage guard hGuard)
  rw [hEmpty, Register.emptyFrame] at hRelict hLast hWidth
  have hKeep : guard.keep = List.replicate wordBytes .zero := by
    rw [List.eq_replicate_iff]
    refine ⟨by simpa using hWidth, fun required hMem => ?_⟩
    obtain ⟨byte, hByte⟩ := List.mem_iff_getElem?.mp hMem
    have hBound := (List.getElem?_eq_some_iff.mp hByte).1
    have hAbsent : (registers stream stage).keep[byte]? = some false := by
      rw [hEmpty, Register.emptyFrame, List.getElem?_replicate,
        if_pos (by simpa [hWidth] using hBound)]
    exact Option.some.inj (hByte.symm.trans ((h (.keep byte)).keep_eq hMeets hGuard hAbsent))
  cases guard
  simp_all [RegisterGuard.emptyLastWord, BitGuard.exactly]

end Values

theorem within_modifyGuard {f : RegisterGuard → RegisterGuard}
    (h : ∀ guard : RegisterGuard, guard.Within (f guard)) :
    t.Within (t.modifyGuard stream stage f) := by
  intro stream' stage' guard' hGuard'
  by_cases hSame : stream = stream' ∧ stage = stage'
  · obtain ⟨rfl, rfl⟩ := hSame
    rw [guard?_modifyGuard_self] at hGuard'
    obtain ⟨guard, hGuard, rfl⟩ := Option.map_eq_some_iff.mp hGuard'
    exact ⟨guard, hGuard, h guard⟩
  · rw [guard?_modifyGuard_of_ne t f hSame] at hGuard'
    exact ⟨guard', hGuard', .refl guard'⟩

/-- A changed guard requires a bit if it does so whatever it was before. -/
theorem requires_modifyGuard {f : RegisterGuard → RegisterGuard}
    (h : ∀ guard required, (f guard).bit? bit = some required → required.isCare) :
    (t.modifyGuard stream stage f).Requires stream stage bit := by
  intro guard' required hGuard' hRequired
  rw [guard?_modifyGuard_self] at hGuard'
  obtain ⟨guard, _, rfl⟩ := Option.map_eq_some_iff.mp hGuard'
  exact h guard required hRequired

theorem within_requireKeep {byte : Nat} {required : BitGuard} (hCare : required.isCare) :
    t.Within (t.requireKeep stream stage byte required) :=
  within_modifyGuard fun _ => RegisterGuard.within_set hCare

theorem requires_requireKeep {byte : Nat} {required : BitGuard} (hCare : required.isCare) :
    (t.requireKeep stream stage byte required).Requires stream stage (.keep byte) :=
  requires_modifyGuard fun guard required' h => by
    rw [RegisterGuard.bit?, List.getElem?_set_self'] at h
    obtain ⟨_, _, rfl⟩ := Option.map_eq_some_iff.mp h
    exact hCare

theorem within_requireSource (source : Source) : t.Within (t.requireSource source) := by
  refine within_modifyGuard fun guard bit required' h => ?_
  cases bit with
  | keep byte =>
      have hPresent : guard.Within { guard with keep := guard.keep.set source.byte .one } :=
        RegisterGuard.within_set rfl
      exact hPresent (.keep byte) required' h
  | relict => exact ⟨required', h, id⟩
  | last =>
      cases h
      exact ⟨guard.last, rfl, fun _ => BitGuard.isCare_exactly _⟩

theorem requires_requireSource (source : Source) :
    (t.requireSource source).Requires source.stream source.stage (.keep source.byte) :=
  requires_modifyGuard fun guard required' h => by
    rw [RegisterGuard.bit?, List.getElem?_set_self'] at h
    obtain ⟨_, _, rfl⟩ := Option.map_eq_some_iff.mp h
    rfl

theorem requires_last_requireSource (source : Source) :
    (t.requireSource source).Requires source.stream source.stage .last :=
  requires_modifyGuard fun guard required' h => by
    cases h
    exact BitGuard.isCare_exactly _

theorem within_requireFirst (source : Source) : t.Within (t.requireFirst source) :=
  within_modifyGuard fun _ => RegisterGuard.within_mapIdx

theorem requires_requireFirst (source : Source) {byte : Nat} (hByte : byte < source.byte) :
    (t.requireFirst source).Requires source.stream source.stage (.keep byte) :=
  requires_modifyGuard fun guard required' h => by
    rw [RegisterGuard.bit?, List.getElem?_mapIdx] at h
    obtain ⟨_, _, rfl⟩ := Option.map_eq_some_iff.mp h
    rw [if_pos hByte]
    rfl

theorem within_requireRelict (source : Source) (relict : Bool) :
    t.Within (t.requireRelict source relict) := by
  refine within_modifyGuard fun guard bit required' h => ?_
  split at h
  · cases bit with
    | keep byte => exact ⟨required', h, id⟩
    | relict =>
        cases h
        exact ⟨guard.relict, rfl, fun _ => BitGuard.isCare_exactly _⟩
    | last => exact ⟨required', h, id⟩
  · exact ⟨required', h, id⟩

theorem within_maskAbsent (t : Transition) : t.Within t.maskAbsent := .refl t

variable {wordBytes : Nat} {lookahead : List Nat}

/-- The width of a guard. -/
theorem Shaped.length_keep (h : t.Shaped wordBytes lookahead) {guard : RegisterGuard}
    (hGuard : t.guard? stream stage = some guard) : guard.keep.length = wordBytes := by
  obtain ⟨row, hRow, hStage⟩ := guard?_eq_some.mp hGuard
  have hWidths : row.map (fun guard => guard.keep.length) ∈ registerShape wordBytes lookahead :=
    h.guards ▸ List.mem_map_of_mem (List.mem_of_getElem? hRow)
  obtain ⟨l, _, hWidths⟩ := List.mem_map.mp hWidths
  have hMem : guard.keep.length ∈ row.map (fun guard => guard.keep.length) :=
    List.mem_map_of_mem (List.mem_of_getElem? hStage)
  rw [← hWidths] at hMem
  exact List.eq_of_mem_replicate hMem

/-- There is a guard for every register. -/
theorem Shaped.exists_guard (h : t.Shaped wordBytes lookahead) {l : Nat}
    (hLookahead : lookahead[stream]? = some l) (hStage : stage ≤ l) :
    ∃ guard, t.guard? stream stage = some guard := by
  have hRow := congrArg (fun rows => rows[stream]?) h.guards
  simp only [guardShape, registerShape, List.getElem?_map, hLookahead, Option.map_some] at hRow
  obtain ⟨row, hRow, hWidths⟩ := Option.map_eq_some_iff.mp hRow
  have hLength : row.length = l + 1 := by simpa using congrArg List.length hWidths
  exact ⟨_, guard?_eq_some.mpr ⟨row, hRow, List.getElem?_eq_getElem (by omega)⟩⟩

theorem within_skipEmpty (h : t.Shaped wordBytes lookahead) (start stop : Nat) :
    t.Within (t.skipEmpty start stop) := by
  intro stream stage guard' hGuard'
  rw [guard?_skipEmpty, h.outputKeep] at hGuard'
  split at hGuard'
  · obtain ⟨guard, hGuard, rfl⟩ := Option.map_eq_some_iff.mp hGuard'
    refine ⟨guard, hGuard, fun bit required' hRequired => ?_⟩
    have hCare := RegisterGuard.isCare_emptyLastWord hRequired
    cases bit with
    | keep byte =>
        have hBound : byte < guard.keep.length := by
          rw [h.length_keep hGuard]
          simpa [RegisterGuard.emptyLastWord] using (List.getElem?_eq_some_iff.mp hRequired).1
        exact ⟨_, List.getElem?_eq_getElem hBound, fun _ => hCare⟩
    | relict => exact ⟨_, rfl, fun _ => hCare⟩
    | last => exact ⟨_, rfl, fun _ => hCare⟩
  · exact ⟨guard', hGuard', .refl guard'⟩

theorem requires_skipEmpty (t : Transition) {start stop : Nat} (hStart : start ≤ stream)
    (hStop : stream < stop) (bit : RegisterBit) :
    (t.skipEmpty start stop).Requires stream 0 bit := by
  intro guard required hGuard hRequired
  rw [guard?_skipEmpty, if_pos ⟨rfl, hStart, hStop⟩] at hGuard
  obtain ⟨_, _, rfl⟩ := Option.map_eq_some_iff.mp hGuard
  exact RegisterGuard.isCare_emptyLastWord hRequired

end Transition

namespace Setting

open Transition

variable {setting : Setting} {before after following : Option Source} {atEnd : Bool}
  {source : Source} {sources : List (Option Source)} {t other : Transition} {lookahead : List Nat}

theorem within_close (h : t.Shaped setting.wordBytes lookahead) :
    t.Within (setting.close after source t) := by
  have hSkipped := within_skipEmpty h (source.stream + 1)
    (after.elim setting.streamCount Source.stream)
  unfold close
  dsimp only
  split
  · split
    · exact hSkipped.trans (within_requireKeep rfl)
    · exact hSkipped
  · exact hSkipped

theorem requires_close {stream : Nat} (hStart : source.stream + 1 ≤ stream)
    (hStop : stream < after.elim setting.streamCount Source.stream) (bit : RegisterBit) :
    (setting.close after source t).Requires stream 0 bit := by
  have hSkipped := requires_skipEmpty t hStart hStop bit
  unfold close
  dsimp only
  split
  · split
    · exact hSkipped.mono (within_requireKeep rfl)
    · exact hSkipped
  · exact hSkipped

theorem within_requireTrailing (closes continues atEnd : Bool) :
    t.Within (setting.requireTrailing closes continues atEnd source t) := by
  unfold requireTrailing
  dsimp only
  split
  · exact within_requireKeep (BitGuard.isCare_exactly _)
  · exact .refl t

/-- The byte after the last one of a stream takes part, unless it is in another register. -/
theorem requires_requireTrailing (hByte : source.byte + 1 < setting.wordBytes)
    (continues atEnd : Bool) :
    (setting.requireTrailing true continues atEnd source t).Requires source.stream source.stage
      (.keep (source.byte + 1)) := by
  have hInside : (source.byte == setting.wordBytes - 1) = false :=
    beq_eq_false_iff_ne.mpr (by omega)
  unfold requireTrailing
  simp only [hInside, Bool.and_false, Bool.not_false, Bool.and_true, Bool.true_or, if_true,
    Bool.false_eq_true, if_false, Nat.mod_eq_of_lt hByte]
  exact requires_requireKeep (BitGuard.isCare_exactly _)

/-- The bits that a driven byte makes part of the guards, given the bytes before and after it. -/
structure Demands (setting : Setting) (t : Transition) (before after : Option Source)
    (source : Source) : Prop where
  present : t.Requires source.stream source.stage (.keep source.byte)
  last : t.Requires source.stream source.stage .last
  /-- Those before the first byte of a stream. -/
  first : (∀ b, before = some b → b.stream ≠ source.stream) → ∀ byte < source.byte,
    t.Requires source.stream source.stage (.keep byte)
  /-- That after the last byte of a stream, in the same register. -/
  closed : Closes after source → source.byte + 1 < setting.wordBytes →
    t.Requires source.stream source.stage (.keep (source.byte + 1))
  /-- All bits of the streams that are skipped. -/
  skipped : ∀ stream, setting.SkipsAfter after source stream → ∀ bit, t.Requires stream 0 bit

theorem Demands.mono (h : setting.Demands t before after source) (hWithin : t.Within other) :
    setting.Demands other before after source where
  present := h.present.mono hWithin
  last := h.last.mono hWithin
  first := fun hOpens byte hByte => (h.first hOpens byte hByte).mono hWithin
  closed := fun hCloses hByte => (h.closed hCloses hByte).mono hWithin
  skipped := fun stream hSkips bit => (h.skipped stream hSkips bit).mono hWithin

/-- The steps that drive a byte. -/
theorem within_drive_steps (before after : Option Source) (atEnd : Bool) (source : Source)
    (h : t.Shaped setting.wordBytes lookahead) :
    let closes := after.all (·.stream ≠ source.stream)
    let closed := if closes then setting.close after source (t.requireSource source)
      else t.requireSource source
    let opened := if before.all (·.stream ≠ source.stream) then closed.requireFirst source
      else closed
    (t.requireSource source).Within closed ∧ closed.Within opened ∧
      opened.Within (setting.drive before after atEnd source t) := by
  exact ⟨.ite _ (within_close (h.requireSource source)), .ite _ (within_requireFirst source),
    within_requireTrailing _ _ _⟩

theorem within_drive (h : t.Shaped setting.wordBytes lookahead) :
    t.Within (setting.drive before after atEnd source t) := by
  obtain ⟨hClosed, hOpened, hDriven⟩ := within_drive_steps before after atEnd source h
  exact (within_requireSource source).trans (hClosed.trans (hOpened.trans hDriven))

theorem demands_drive (h : t.Shaped setting.wordBytes lookahead) :
    setting.Demands (setting.drive before after atEnd source t) before after source := by
  obtain ⟨hClosed, hOpened, hDriven⟩ := within_drive_steps before after atEnd source h
  constructor
  case present =>
    exact (requires_requireSource source).mono (hClosed.trans (hOpened.trans hDriven))
  case last =>
    exact (requires_last_requireSource source).mono (hClosed.trans (hOpened.trans hDriven))
  case first =>
    intro hOpens byte hByte
    refine Requires.mono ?_ hDriven
    rw [if_pos (by simpa [Option.all_eq_true] using hOpens)]
    exact requires_requireFirst source hByte
  case closed =>
    intro hCloses hByte
    simp only [drive]
    rw [all_iff_closes.mpr hCloses]
    exact requires_requireTrailing hByte _ _
  case skipped =>
    rintro stream ⟨hCloses, hStart, hStop⟩ bit
    refine Requires.mono ?_ (hOpened.trans hDriven)
    rw [if_pos (all_iff_closes.mpr hCloses)]
    exact requires_close hStart hStop bit

theorem within_driveAll (h : t.Shaped setting.wordBytes lookahead) :
    t.Within (setting.driveAll following before sources t) := by
  induction sources generalizing before t with
  | nil => exact .refl t
  | cons cell rest ih =>
      cases cell with
      | none => exact ih h
      | some source => exact (within_drive h).trans (ih (setting.shaped_drive _ _ _ source h))

/-- Each byte of a word makes its bits part of the guards, and no other byte leaves them open
again. -/
theorem demands_driveAll (h : t.Shaped setting.wordBytes lookahead) {outputByte : Nat}
    (hSource : sources[outputByte]? = some (some source)) :
    setting.Demands (setting.driveAll following before sources t)
      (sourceBefore before sources outputByte) (sources[outputByte + 1]?.getD following)
      source := by
  induction sources generalizing before t outputByte with
  | nil => cases hSource
  | cons cell rest ih =>
      cases outputByte with
      | zero =>
          cases hSource
          rw [List.getElem?_cons_succ, ← List.head?_eq_getElem?]
          exact (demands_drive h).mono (within_driveAll (setting.shaped_drive _ _ _ source h))
      | succ outputByte =>
          have hBefore : sourceBefore before (cell :: rest) (outputByte + 1) =
              sourceBefore cell rest outputByte := by
            cases outputByte <;> rfl
          rw [List.getElem?_cons_succ] at hSource
          rw [hBefore, List.getElem?_cons_succ]
          cases cell with
          | none => exact ih h hSource
          | some head => exact ih (setting.shaped_drive _ _ _ head h) hSource

theorem within_driven (context : Context) :
    (setting.driven context).Within (setting.transition context) := by
  simp only [transition]
  split
  · exact (within_maskAbsent _).trans (within_requireRelict _ _)
  · exact within_maskAbsent _

/-- Each byte of a context makes its bits part of the guards of the transition. -/
theorem demands_transition {context : Context}
    (hSources : context.sources.length = setting.wordBytes) {outputByte : Nat}
    (hSource : context.sources[outputByte]? = some (some source)) :
    setting.Demands (setting.transition context) (sourceBefore none context.sources outputByte)
      (context.sources[outputByte + 1]?.getD context.following) source := by
  have hShaped := (Transition.shaped_idle context.state context.nextState context.last
    setting.wordBytes setting.lookahead).deliver hSources
  exact (demands_driveAll hShaped hSource).mono (within_driven context)

end Setting

end StreamSplice
