import StreamSplice.Proofs.Enabling
import StreamSplice.Proofs.StateTransitions

/-! What a transition reads and clears. Of all the steps that put a transition together only
two clear bytes: delivering the sources of the output word, and skipping empty frames. Bytes
that a guard requires to be absent are masked as well, but registers that meet the guard do
not hold them. -/
namespace StreamSplice

open Std

namespace Transition

/-- The mask bit of one register byte. -/
def mask? (t : Transition) (stream stage byte : Nat) : Option Bool := do
  (← (← t.keepMasks[stream]?)[stage]?)[byte]?

theorem mask?_eq_some {t : Transition} {stream stage byte : Nat} {kept : Bool} :
    t.mask? stream stage byte = some kept ↔
      ∃ masks mask, t.keepMasks[stream]? = some masks ∧ masks[stage]? = some mask ∧
        mask[byte]? = some kept := by
  simp [mask?, Option.bind_eq_some_iff]

/-- The masks of streams that are not skipped stay. -/
theorem mask?_skipEmpty {t : Transition} {start stop stream stage byte : Nat}
    (h : ¬(start ≤ stream ∧ stream < stop)) :
    (t.skipEmpty start stop).mask? stream stage byte = t.mask? stream stage byte := by
  simp only [skipEmpty]
  split
  · have hKept : (decide (start ≤ stream) && decide (stream < stop)) = false := by
      simpa using h
    simp only [mask?, List.getElem?_mapIdx, hKept]
    cases t.keepMasks[stream]? <;> simp
  · rfl

/-- Whether registers hold no byte that a guard requires to be absent. -/
def Absent (t : Transition) (registers : Nat → Nat → Register) : Prop :=
  ∀ stream stage guard, t.guard? stream stage = some guard →
    ∀ byte : Nat, guard.keep[byte]? = some .zero →
      (registers stream stage).keep[byte]? ≠ some true

/-- Registers that meet the guards hold no such byte. -/
theorem absent_of_meets {t : Transition} {registers : Nat → Nat → Register}
    (h : t.Meets registers) : t.Absent registers := by
  intro stream stage guard hGuard byte hZero hByte
  have hAccepts := RegisterGuard.accepts_iff.mp (h stream stage guard hGuard)
  cases rel_of_forall₂ hAccepts.1 hZero hByte

/-- Which streams a transition reads, and which of the bytes that its registers hold it
clears. -/
structure Consumes (t : Transition) (registers : Nat → Nat → Register) (read : Nat → Prop)
    (cleared : Nat → Nat → Nat → Prop) : Prop where
  reads : ∀ stream value, t.reads[stream]? = some value → (value = true ↔ read stream)
  masks : ∀ stream stage byte kept, t.mask? stream stage byte = some kept →
    (registers stream stage).keep[byte]? = some true → (kept = true ↔ ¬cleared stream stage byte)

variable {t other : Transition} {registers : Nat → Nat → Register} {read : Nat → Prop}
  {cleared : Nat → Nat → Nat → Prop} {wordBytes : Nat} {lookahead : List Nat}

theorem consumes_idle (state nextState : Nat) (last : Bool) (wordBytes : Nat)
    (lookahead : List Nat) (registers : Nat → Nat → Register) :
    (idle state nextState last wordBytes lookahead).Consumes registers (fun _ => False)
      fun _ _ _ => False where
  reads := by
    intro stream value hValue
    rw [idle, List.getElem?_map] at hValue
    obtain ⟨_, _, rfl⟩ := Option.map_eq_some_iff.mp hValue
    simp
  masks := by
    intro stream stage byte kept hKept _
    obtain ⟨masks, mask, hMasks, hMask, hKept⟩ := mask?_eq_some.mp hKept
    rw [idle, List.getElem?_map] at hMasks
    obtain ⟨_, _, rfl⟩ := Option.map_eq_some_iff.mp hMasks
    obtain rfl := List.eq_of_mem_replicate (List.mem_of_getElem? hMask)
    obtain rfl := List.eq_of_mem_replicate (List.mem_of_getElem? hKept)
    simp

namespace Consumes

/-- What is read and cleared is up to the masks and reads of a transition. -/
theorem congr (h : t.Consumes registers read cleared) (hMasks : other.keepMasks = t.keepMasks)
    (hReads : other.reads = t.reads) : other.Consumes registers read cleared := by
  refine ⟨by rw [hReads]; exact h.reads, ?_⟩
  simp only [mask?]
  rw [hMasks]
  exact h.masks

theorem imp (h : t.Consumes registers read cleared) {read' : Nat → Prop}
    {cleared' : Nat → Nat → Nat → Prop} (hRead : ∀ stream, read stream ↔ read' stream)
    (hCleared : ∀ stream stage byte, cleared stream stage byte ↔ cleared' stream stage byte) :
    t.Consumes registers read' cleared' where
  reads := fun stream value hValue => (h.reads stream value hValue).trans (hRead stream)
  masks := fun stream stage byte kept hKept hByte =>
    (h.masks stream stage byte kept hKept hByte).trans (not_congr (hCleared stream stage byte))

/-- Delivered sources are read and cleared. -/
theorem deliver (h : t.Consumes registers read cleared) (sources : List (Option Source)) :
    (t.deliver sources).Consumes registers
      (fun stream => read stream ∨ ∃ source, some source ∈ sources ∧ source.stream = stream)
      fun stream stage byte => cleared stream stage byte ∨
        ∃ source, some source ∈ sources ∧ source.selection = ⟨stream, stage, byte⟩ where
  reads := by
    intro stream value hValue
    dsimp only [Transition.deliver] at hValue
    rw [List.getElem?_mapIdx] at hValue
    obtain ⟨before, hBefore, rfl⟩ := Option.map_eq_some_iff.mp hValue
    simp only [Bool.or_eq_true, h.reads stream before hBefore, List.any_eq_true,
      List.mem_filterMap, id, exists_eq_right, beq_iff_eq]
  masks := by
    intro stream stage byte kept hKept hByte
    obtain ⟨masks, mask, hMasks, hMask, hKept⟩ := mask?_eq_some.mp hKept
    dsimp only [Transition.deliver] at hMasks
    rw [List.getElem?_mapIdx] at hMasks
    obtain ⟨masks', hMasks', rfl⟩ := Option.map_eq_some_iff.mp hMasks
    split at hMask
    · rw [List.getElem?_mapIdx] at hMask
      obtain ⟨mask', hMask', rfl⟩ := Option.map_eq_some_iff.mp hMask
      rw [List.getElem?_mapIdx] at hKept
      obtain ⟨kept', hKept', rfl⟩ := Option.map_eq_some_iff.mp hKept
      have hOwn := h.masks stream stage byte kept'
        (mask?_eq_some.mpr ⟨_, _, hMasks', hMask', hKept'⟩) hByte
      simp [hOwn, TreeSet.contains_ofList, not_or]
    · next hFeeds =>
        have hOwn := h.masks stream stage byte kept
          (mask?_eq_some.mpr ⟨_, _, hMasks', hMask, hKept⟩) hByte
        rw [hOwn, not_or, iff_self_and]
        rintro _ ⟨source, hSource, hSelection⟩
        refine hFeeds (List.any_eq_true.mpr ⟨source, by simpa using hSource, ?_⟩)
        rw [beq_iff_eq]
        exact congrArg Selection.stream hSelection

/-- Skipped streams are read, and their first registers are cleared. -/
theorem skipEmpty (h : t.Consumes registers read cleared) (start stop : Nat) :
    (t.skipEmpty start stop).Consumes registers
      (fun stream => read stream ∨ start ≤ stream ∧ stream < stop)
      fun stream stage byte => cleared stream stage byte ∨
        stage = 0 ∧ start ≤ stream ∧ stream < stop := by
  simp only [Transition.skipEmpty]
  split
  · constructor
    · intro stream value hValue
      dsimp only at hValue
      rw [List.getElem?_mapIdx] at hValue
      obtain ⟨before, hBefore, rfl⟩ := Option.map_eq_some_iff.mp hValue
      simp [h.reads stream before hBefore]
    · intro stream stage byte kept hKept hByte
      obtain ⟨masks, mask, hMasks, hMask, hKept⟩ := mask?_eq_some.mp hKept
      dsimp only at hMasks
      rw [List.getElem?_mapIdx] at hMasks
      obtain ⟨masks', hMasks', rfl⟩ := Option.map_eq_some_iff.mp hMasks
      have hOwn : masks'[stage]? = some mask → (kept = true ↔ ¬cleared stream stage byte) :=
        fun hMask => h.masks stream stage byte kept
          (mask?_eq_some.mpr ⟨_, _, hMasks', hMask, hKept⟩) hByte
      split at hMask
      · next hSkipped =>
          simp only [Bool.and_eq_true, decide_eq_true_eq] at hSkipped
          rw [List.getElem?_set] at hMask
          split at hMask
          · next hStage =>
              subst hStage
              split at hMask
              · cases hMask
                obtain rfl := List.eq_of_mem_replicate (List.mem_of_getElem? hKept)
                simp [hSkipped]
              · cases hMask
          · next hStage =>
              rw [hOwn hMask]
              simp [Ne.symm hStage]
      · next hOther =>
          simp only [Bool.and_eq_true, decide_eq_true_eq] at hOther
          rw [hOwn hMask]
          simp only [hOther, and_false, or_false]
  · next hNone =>
      refine h.imp (fun stream => ?_) fun stream stage byte => ?_
      · rw [iff_self_or]
        omega
      · rw [iff_self_or]
        omega

/-- Bytes that are required to be absent are not there to be cleared. -/
theorem maskAbsent (h : t.Consumes registers read cleared) (hAbsent : t.Absent registers) :
    t.maskAbsent.Consumes registers read cleared where
  reads := h.reads
  masks := by
    intro stream stage byte kept hKept hByte
    obtain ⟨masks, mask, hMasks, hMask, hKept⟩ := mask?_eq_some.mp hKept
    dsimp only [Transition.maskAbsent] at hMasks
    obtain ⟨guards, masks', hGuards, hMasks', rfl⟩ := List.getElem?_zipWith_eq_some.mp hMasks
    obtain ⟨guard, mask', hGuard, hMask', rfl⟩ := List.getElem?_zipWith_eq_some.mp hMask
    obtain ⟨bit, kept', hBit, hKept', rfl⟩ := List.getElem?_zipWith_eq_some.mp hKept
    have hNotZero : bit ≠ .zero := by
      rintro rfl
      exact hAbsent stream stage guard (guard?_eq_some.mpr ⟨guards, hGuards, hGuard⟩) byte hBit
        hByte
    rw [← h.masks stream stage byte kept' (mask?_eq_some.mpr ⟨_, _, hMasks', hMask', hKept'⟩) hByte]
    simp [hNotZero]

end Consumes

end Transition

namespace Setting

variable {setting : Setting} {registers : Nat → Nat → Register} {read : Nat → Prop}
  {cleared : Nat → Nat → Nat → Prop} {before after following : Option Source} {atEnd : Bool}
  {source : Source} {sources : List (Option Source)} {t : Transition}

/-- Whether a stream is skipped between a driven byte and the byte after it. -/
def SkipsAfter (setting : Setting) (after : Option Source) (source : Source) (stream : Nat) :
    Prop :=
  Closes after source ∧ source.stream + 1 ≤ stream ∧
    stream < after.elim setting.streamCount Source.stream

/-- Whether a stream is skipped by a word, after one of its bytes. -/
def Skips (setting : Setting) (following : Option Source) (sources : List (Option Source))
    (stream : Nat) : Prop :=
  ∃ outputByte source, sources[outputByte]? = some (some source) ∧
    setting.SkipsAfter (sources[outputByte + 1]?.getD following) source stream

theorem skips_cons {cell : Option Source} {stream : Nat} :
    setting.Skips following (cell :: sources) stream ↔
      (∃ source, cell = some source ∧
        setting.SkipsAfter (sources.head?.getD following) source stream) ∨
      setting.Skips following sources stream := by
  simp only [Skips]
  rw [← Nat.or_exists_add_one]
  simp [List.head?_eq_getElem?]

/-- Closing a stream masks and reads what it skips. -/
theorem masks_close (setting : Setting) (after : Option Source) (source : Source)
    (t : Transition) :
    let skipped := t.skipEmpty (source.stream + 1) (after.elim setting.streamCount Source.stream)
    (setting.close after source t).keepMasks = skipped.keepMasks ∧
      (setting.close after source t).reads = skipped.reads := by
  unfold close
  dsimp only
  split
  · split <;> exact ⟨rfl, rfl⟩
  · exact ⟨rfl, rfl⟩

theorem masks_requireTrailing (setting : Setting) (closes continues atEnd : Bool)
    (source : Source) (t : Transition) :
    (setting.requireTrailing closes continues atEnd source t).keepMasks = t.keepMasks ∧
      (setting.requireTrailing closes continues atEnd source t).reads = t.reads := by
  unfold requireTrailing
  dsimp only
  split <;> exact ⟨rfl, rfl⟩

/-- The last byte of a stream clears the streams that are skipped after it. -/
theorem consumes_close (h : t.Consumes registers read cleared) (hCloses : Closes after source) :
    (setting.close after source t).Consumes registers
      (fun stream => read stream ∨ setting.SkipsAfter after source stream)
      fun stream stage byte => cleared stream stage byte ∨
        stage = 0 ∧ setting.SkipsAfter after source stream := by
  obtain ⟨hMasks, hReads⟩ := setting.masks_close after source t
  have hSkipped := h.skipEmpty (source.stream + 1) (after.elim setting.streamCount Source.stream)
  refine (hSkipped.congr hMasks hReads).imp (fun stream => ?_) fun stream stage byte => ?_
  · simp only [SkipsAfter, hCloses, true_and]
  · simp only [SkipsAfter, hCloses, true_and]

/-- A driven byte clears the streams that are skipped after it. -/
theorem consumes_drive (h : t.Consumes registers read cleared) :
    (setting.drive before after atEnd source t).Consumes registers
      (fun stream => read stream ∨ setting.SkipsAfter after source stream)
      fun stream stage byte => cleared stream stage byte ∨
        stage = 0 ∧ setting.SkipsAfter after source stream := by
  have hSource : (t.requireSource source).Consumes registers read cleared := h.congr rfl rfl
  have hClosed : (if (after.all (·.stream ≠ source.stream)) = true then
      setting.close after source (t.requireSource source) else t.requireSource source).Consumes
      registers (fun stream => read stream ∨ setting.SkipsAfter after source stream)
      fun stream stage byte => cleared stream stage byte ∨
        stage = 0 ∧ setting.SkipsAfter after source stream := by
    split
    · next hCloses => exact consumes_close hSource (all_iff_closes.mp hCloses)
    · next hOpen =>
        have hNot : ¬Closes after source := fun hc => hOpen (all_iff_closes.mpr hc)
        exact hSource.imp (by simp [SkipsAfter, hNot]) (by simp [SkipsAfter, hNot])
  simp only [drive]
  obtain ⟨hMasks, hReads⟩ := setting.masks_requireTrailing
    (after.all (·.stream ≠ source.stream)) _ atEnd source _
  refine Transition.Consumes.congr ?_ hMasks hReads
  split
  · exact hClosed.congr rfl rfl
  · exact hClosed

/-- The driven bytes of a word clear the streams that are skipped after any of them. -/
theorem consumes_driveAll (h : t.Consumes registers read cleared) :
    (setting.driveAll following before sources t).Consumes registers
      (fun stream => read stream ∨ setting.Skips following sources stream)
      fun stream stage byte => cleared stream stage byte ∨
        stage = 0 ∧ setting.Skips following sources stream := by
  induction sources generalizing before t read cleared with
  | nil => exact h.imp (by simp [Skips]) (by simp [Skips])
  | cons cell rest ih =>
      cases cell with
      | none => exact (ih h).imp (by simp [skips_cons]) (by simp [skips_cons])
      | some source =>
          refine (ih (consumes_drive h)).imp (fun stream => ?_) fun stream stage byte => ?_
          · simp [skips_cons, or_assoc]
          · simp [skips_cons, or_assoc, and_or_left]

/-- A transition reads and clears its sources and the streams it skips. -/
theorem consumes_transition {context : Context}
    (hAbsent : (setting.driven context).Absent registers) :
    (setting.transition context).Consumes registers
      (fun stream => (∃ source, some source ∈ context.sources ∧ source.stream = stream) ∨
        setting.Skips context.following context.sources stream)
      fun stream stage byte =>
        (∃ source, some source ∈ context.sources ∧ source.selection = ⟨stream, stage, byte⟩) ∨
          stage = 0 ∧ setting.Skips context.following context.sources stream := by
  have hIdle := Transition.consumes_idle context.state context.nextState context.last
    setting.wordBytes setting.lookahead registers
  have hConsumes : (setting.driven context).Consumes registers _ _ :=
    consumes_driveAll (hIdle.deliver context.sources)
  have hMasked := (hConsumes.maskAbsent hAbsent).imp (fun _ => by rw [false_or])
    fun _ _ _ => by rw [false_or]
  simp only [transition]
  split
  · exact hMasked.congr rfl rfl
  · exact hMasked

/-- The leading streams that a transition skips on entry are read and cleared as well. -/
theorem consumes_enter {context : Context} (hAbsent : (setting.driven context).Absent registers)
    (state leading : Nat) :
    (setting.enter context state leading).Consumes registers
      (fun stream => (∃ source, some source ∈ context.sources ∧ source.stream = stream) ∨
        setting.Skips context.following context.sources stream ∨ stream < leading)
      fun stream stage byte =>
        (∃ source, some source ∈ context.sources ∧ source.selection = ⟨stream, stage, byte⟩) ∨
          stage = 0 ∧ (setting.Skips context.following context.sources stream ∨
            stream < leading) := by
  have hOwn : ({ setting.transition context with state := state } : Transition).Consumes
      registers _ _ := (consumes_transition hAbsent).congr rfl rfl
  refine (hOwn.skipEmpty 0 leading).imp (fun stream => ?_) fun stream stage byte => ?_
  · simp only [Nat.zero_le, true_and, or_assoc]
  · simp only [Nat.zero_le, true_and, or_assoc, and_or_left]

end Setting

end StreamSplice
