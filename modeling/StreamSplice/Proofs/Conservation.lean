import StreamSplice.Proofs.Guarding
import StreamSplice.Proofs.Sparing

/-! Conservation of bytes. What a transition takes out of the registers that enable it is what
it sends: masks and guards are written from several places and overwrite each other, but a byte
that is masked without being sent is always one that the guards require to be absent. -/
namespace StreamSplice

open Layout Pipeline

/-- Whether the registers hold a byte. -/
def Holds (rows : List (List Register)) (selection : Selection) : Prop :=
  (registerIn rows selection.stream selection.stage).keep[selection.byte]? = some true

namespace Transition

/-- The mask bit of the byte that a selection names. -/
def maskOf? (t : Transition) (selection : Selection) : Option Bool :=
  t.mask? selection.stream selection.stage selection.byte

/-- A transition neither loses nor duplicates bytes. -/
structure Conserves (t : Transition) (wordBytes : Nat) : Prop where
  /-- The bytes that leave the registers are those that are sent. -/
  consumed : ∀ rows, t.isEnabled rows → ∀ selection,
    Holds rows selection ∧ t.maskOf? selection = some false ↔ some selection ∈ t.outputMux
  /-- No byte is sent twice. -/
  once : ∀ (i j : Nat) selection, t.outputMux[i]? = some (some selection) →
    t.outputMux[j]? = some (some selection) → i = j
  /-- A byte is sent only if it is there. -/
  required : ∀ selection, some selection ∈ t.outputMux →
    ∃ guard, t.guard? selection.stream selection.stage = some guard ∧
      guard.keep[selection.byte]? = some .one
  kept : t.outputKeep = t.outputMux.map Option.isSome
  reads : ∀ stream, t.reads[stream]? = some true ↔
    (∃ selection, some selection ∈ t.outputMux ∧ selection.stream = stream) ∨
      t.guard? stream 0 = some (.emptyLastWord wordBytes)
  /-- Streams that are not read keep all their bytes. -/
  unread : ∀ stream, t.reads[stream]? ≠ some true → ∀ selection, selection.stream = stream →
    t.maskOf? selection ≠ some false

variable {t : Transition} {wordBytes : Nat} {lookahead : List Nat}

section Masks

variable (hShaped : t.Shaped wordBytes lookahead)

include hShaped

/-- There are masks for the registers of the streams only. -/
theorem lt_of_mask? {stream stage byte : Nat} {kept : Bool}
    (h : t.mask? stream stage byte = some kept) : stream < lookahead.length := by
  obtain ⟨masks, _, hMasks, _⟩ := mask?_eq_some.mp h
  have hCount := congrArg List.length hShaped.keepMasks
  simp only [registerShape, List.length_map] at hCount
  rw [← hCount]
  exact (List.getElem?_eq_some_iff.mp hMasks).1

/-- Every bit of a guard has a mask. -/
theorem exists_mask? {stream stage byte : Nat} {guard : RegisterGuard} {bit : BitGuard}
    (hGuard : t.guard? stream stage = some guard) (hBit : guard.keep[byte]? = some bit) :
    ∃ kept, t.mask? stream stage byte = some kept := by
  obtain ⟨guards, hGuards, hStage⟩ := guard?_eq_some.mp hGuard
  have hRows := map_eq_map_iff_forall₂.mp (hShaped.guards.trans hShaped.keepMasks.symm)
  obtain ⟨masks, hMasks, hRow⟩ := exists_rel_of_forall₂ hRows hGuards
  obtain ⟨mask, hMask, hWidth⟩ := exists_rel_of_forall₂ (map_eq_map_iff_forall₂.mp hRow) hStage
  have hByte : byte < mask.length := hWidth ▸ (List.getElem?_eq_some_iff.mp hBit).1
  exact ⟨_, mask?_eq_some.mpr ⟨masks, mask, hMasks, hMask, List.getElem?_eq_getElem hByte⟩⟩

/-- There are guards for the registers of the streams only. -/
theorem lt_of_guard? {stream stage : Nat} {guard : RegisterGuard}
    (h : t.guard? stream stage = some guard) : stream < lookahead.length := by
  obtain ⟨guards, hGuards, _⟩ := guard?_eq_some.mp h
  have hCount := congrArg List.length hShaped.guards
  simp only [guardShape, registerShape, List.length_map] at hCount
  rw [← hCount]
  exact (List.getElem?_eq_some_iff.mp hGuards).1

/-- Skipping a stream does not give up that a byte has to be absent. -/
theorem Absent.of_skipEmpty {registers : Nat → Nat → Register} {start stop : Nat}
    (h : (t.skipEmpty start stop).Absent registers) : t.Absent registers := by
  intro stream stage guard hGuard byte hZero
  have hSkipped := guard?_skipEmpty t start stop stream stage
  rw [hGuard, Option.map_some] at hSkipped
  split at hSkipped
  · refine h stream stage _ hSkipped byte ?_
    have hByte := (List.getElem?_eq_some_iff.mp hZero).1
    rw [hShaped.length_keep hGuard] at hByte
    simp [RegisterGuard.emptyLastWord, hShaped.outputKeep, hByte]
  · exact h stream stage guard hSkipped byte hZero

end Masks

theorem Absent.of_requireRelict {registers : Nat → Nat → Register} {source : Source} {relict : Bool}
    (h : (t.requireRelict source relict).Absent registers) : t.Absent registers := by
  intro stream stage guard hGuard byte hZero
  by_cases hSame : source.stream = stream ∧ source.stage = stage
  · obtain ⟨rfl, rfl⟩ := hSame
    have hChanged := guard?_modifyGuard_self t source.stream source.stage fun g =>
      if g.last = .one then { g with relict := .exactly relict } else g
    rw [hGuard, Option.map_some] at hChanged
    refine h _ _ _ hChanged byte ?_
    split <;> exact hZero
  · exact h stream stage guard ((guard?_modifyGuard_of_ne t _ hSame).trans hGuard) byte hZero

/-- A transition takes sources out of the registers and skips streams, and does nothing else to
its registers. -/
structure Takes (t : Transition) (wordBytes : Nat) (lookahead : List Nat)
    (sources : List (Option Source)) (skipped : Nat → Prop) : Prop where
  shaped : t.Shaped wordBytes lookahead
  keep : t.outputKeep = sources.map Option.isSome
  mux : t.outputMux = sources.map (Option.map Source.selection)
  consumes : ∀ registers, t.Meets registers → t.Consumes registers
    (fun stream => (∃ source, some source ∈ sources ∧ source.stream = stream) ∨ skipped stream)
    fun stream stage byte =>
      (∃ source, some source ∈ sources ∧ source.selection = ⟨stream, stage, byte⟩) ∨
        stage = 0 ∧ skipped stream
  once : ∀ (i j : Nat) a b, sources[i]? = some (some a) → sources[j]? = some (some b) →
    a.selection = b.selection → i = j
  required : ∀ source, some source ∈ sources →
    ∃ guard, t.guard? source.stream source.stage = some guard ∧
      guard.keep[source.byte]? = some .one
  skips : ∀ stream < lookahead.length, skipped stream →
    t.guard? stream 0 = some (.emptyLastWord wordBytes)
  spares : ∀ stream, (∀ source, some source ∈ sources → source.stream ≠ stream) →
    ¬skipped stream → t.Spares stream

namespace Takes

variable {sources : List (Option Source)} {skipped : Nat → Prop}
  (h : t.Takes wordBytes lookahead sources skipped)

include h

theorem mem_outputMux {selection : Selection} :
    some selection ∈ t.outputMux ↔ ∃ source, some source ∈ sources ∧
      source.selection = selection := by
  rw [h.mux, List.mem_map]
  constructor
  · rintro ⟨cell, hMem, hCell⟩
    obtain ⟨source, rfl, hSelection⟩ := Option.map_eq_some_iff.mp hCell
    exact ⟨source, hMem, hSelection⟩
  · rintro ⟨source, hMem, rfl⟩
    exact ⟨some source, hMem, rfl⟩

theorem required_of_mem {selection : Selection} (hMem : some selection ∈ t.outputMux) :
    ∃ guard, t.guard? selection.stream selection.stage = some guard ∧
      guard.keep[selection.byte]? = some .one := by
  obtain ⟨source, hSource, rfl⟩ := h.mem_outputMux.mp hMem
  exact h.required source hSource

theorem consumed {rows : List (List Register)} (hEnabled : t.isEnabled rows)
    (selection : Selection) :
    Holds rows selection ∧ t.maskOf? selection = some false ↔ some selection ∈ t.outputMux := by
  have hMeets := meets_of_isEnabled hEnabled
  have hConsumes := h.consumes _ hMeets
  constructor
  · rintro ⟨hHolds, hMask⟩
    have hCleared := not_not.mp
      ((hConsumes.masks _ _ _ false hMask hHolds).not.mp Bool.false_ne_true)
    rcases hCleared with hSource | ⟨hStage, hSkipped⟩
    · exact h.mem_outputMux.mpr hSource
    · -- A skipped stream presents an empty word, so no byte of it is held.
      have hGuard := h.skips _ (lt_of_mask? h.shaped hMask) hSkipped
      rw [← hStage] at hGuard
      have hKeep := (RegisterGuard.accepts_iff.mp (hMeets _ _ _ hGuard)).1
      have hByte := (List.getElem?_eq_some_iff.mp hHolds).1
      rw [← hKeep.length_eq] at hByte
      have hZero := List.getElem?_eq_getElem hByte
      have hAccepts := rel_of_forall₂ hKeep hZero hHolds
      cases List.eq_of_mem_replicate (List.mem_of_getElem? hZero) ▸ hAccepts
  · intro hMem
    obtain ⟨guard, hGuard, hOne⟩ := h.required_of_mem hMem
    have hKeep := (RegisterGuard.accepts_iff.mp (hMeets _ _ guard hGuard)).1
    obtain ⟨value, hValue, hAccepts⟩ := exists_rel_of_forall₂ hKeep hOne
    have hHolds : Holds rows selection := by
      rw [Holds, hValue]
      exact congrArg some hAccepts
    obtain ⟨kept, hKept⟩ := exists_mask? h.shaped hGuard hOne
    have hCleared := (hConsumes.masks _ _ _ kept hKept hHolds).not.mpr
      (not_not.mpr (.inl (h.mem_outputMux.mp hMem)))
    rw [Bool.not_eq_true] at hCleared
    exact ⟨hHolds, hCleared ▸ hKept⟩

theorem once_of_getElem? {i j : Nat} {selection : Selection}
    (hi : t.outputMux[i]? = some (some selection)) (hj : t.outputMux[j]? = some (some selection)) :
    i = j := by
  rw [h.mux, List.getElem?_map] at hi hj
  obtain ⟨_, hAt, hCell⟩ := Option.map_eq_some_iff.mp hi
  obtain ⟨a, rfl, hSelection⟩ := Option.map_eq_some_iff.mp hCell
  obtain ⟨_, hAt', hCell'⟩ := Option.map_eq_some_iff.mp hj
  obtain ⟨b, rfl, hSelection'⟩ := Option.map_eq_some_iff.mp hCell'
  exact h.once i j a b hAt hAt' (hSelection.trans hSelection'.symm)

/-- A stream is read if it is taken from or skipped. -/
theorem read_iff {stream : Nat} {value : Bool} (hValue : t.reads[stream]? = some value) :
    value = true ↔
      (∃ source, some source ∈ sources ∧ source.stream = stream) ∨ skipped stream := by
  obtain ⟨rows, hEnabled⟩ := t.exists_isEnabled
  exact (h.consumes _ (meets_of_isEnabled hEnabled)).reads stream value hValue

/-- A stream that is not read is left alone. -/
theorem spares_of_unread {stream : Nat} (hStream : stream < lookahead.length)
    (hUnread : t.reads[stream]? ≠ some true) : t.Spares stream := by
  have hValue := List.getElem?_eq_getElem (h.shaped.reads.symm ▸ hStream)
  have hNone := (h.read_iff hValue).not.mp fun hTrue => hUnread (hTrue ▸ hValue)
  rw [not_or] at hNone
  exact h.spares stream (fun source hMem hSame => hNone.1 ⟨source, hMem, hSame⟩) hNone.2

theorem reads_iff (stream : Nat) :
    t.reads[stream]? = some true ↔
      (∃ selection, some selection ∈ t.outputMux ∧ selection.stream = stream) ∨
        t.guard? stream 0 = some (.emptyLastWord wordBytes) := by
  constructor
  · intro hRead
    have hStream : stream < lookahead.length :=
      h.shaped.reads ▸ (List.getElem?_eq_some_iff.mp hRead).1
    rcases (h.read_iff hRead).mp rfl with ⟨source, hMem, rfl⟩ | hSkipped
    · exact .inl ⟨_, h.mem_outputMux.mpr ⟨source, hMem, rfl⟩, rfl⟩
    · exact .inr (h.skips stream hStream hSkipped)
  · rintro (⟨selection, hMem, rfl⟩ | hGuard)
    · obtain ⟨guard, hGuard, _⟩ := h.required_of_mem hMem
      have hStream := lt_of_guard? h.shaped hGuard
      have hValue := List.getElem?_eq_getElem (h.shaped.reads.symm ▸ hStream)
      obtain ⟨source, hSource, rfl⟩ := h.mem_outputMux.mp hMem
      rw [hValue, (h.read_iff hValue).mpr (.inl ⟨source, hSource, rfl⟩)]
    · by_contra hUnread
      have hLast := (h.spares_of_unread (lt_of_guard? h.shaped hGuard) hUnread).last 0 _ hGuard
      cases hLast

/-- A transition that takes sources conserves bytes. -/
theorem conserves : t.Conserves wordBytes where
  consumed := fun _ hEnabled => h.consumed hEnabled
  once := fun _ _ _ => h.once_of_getElem?
  required := fun _ => h.required_of_mem
  kept := by
    rw [h.keep, h.mux, List.map_map]
    exact List.map_congr_left fun cell _ => by cases cell <;> rfl
  reads := h.reads_iff
  unread := by
    rintro stream hUnread selection rfl hMask
    cases (h.spares_of_unread (lt_of_mask? h.shaped hMask) hUnread).masks _ _ false hMask

end Takes

end Transition

namespace Setting

variable {setting : Setting} {context : Context} {state leading : Nat}

/-- Registers that meet the guards of a word hold no byte that its sources require to be
absent. -/
theorem absent_driven {registers : Nat → Nat → Register}
    (hSources : context.sources.length = setting.wordBytes)
    (h : (setting.enter context state leading).Meets registers) :
    (setting.driven context).Absent registers := by
  have hShaped := (setting.shaped_transition hSources).withState state
  have hAbsent : (setting.transition context).Absent registers :=
    Transition.Absent.of_skipEmpty hShaped (Transition.absent_of_meets h)
  simp only [transition] at hAbsent
  split at hAbsent
  · exact hAbsent.of_requireRelict
  · exact hAbsent

/-- The transition of empty frames skips all streams. -/
theorem takes_allEmpty (setting : Setting) :
    setting.allEmpty.Takes setting.wordBytes setting.lookahead
      (List.replicate setting.wordBytes none) fun stream => stream < setting.streamCount := by
  have hEffect := setting.effect_allEmpty
  simp only [Transition.effect, Prod.mk.injEq] at hEffect
  have hNone : ∀ (i : Nat) a, (List.replicate setting.wordBytes none)[i]? ≠
      some (some (a : Source)) := by
    intro i a hCell
    cases List.eq_of_mem_replicate (List.mem_of_getElem? hCell)
  have hNever : ∀ source : Source, some source ∉ List.replicate setting.wordBytes none :=
    fun source hMem => by cases List.eq_of_mem_replicate hMem
  have hShaped := Transition.shaped_idle 0 0 true setting.wordBytes setting.lookahead
  constructor
  case shaped => exact setting.shaped_allEmpty
  case keep => rw [hEffect.2.2.1, List.map_replicate, Option.isSome_none]
  case mux => rw [hEffect.2.2.2.1, List.map_replicate, Option.map_none]
  case consumes =>
    intro registers _
    have hIdle := Transition.consumes_idle 0 0 true setting.wordBytes setting.lookahead registers
    exact (hIdle.skipEmpty 0 setting.streamCount).imp (by simp [hNever]) (by simp [hNever])
  case once => exact fun i _ a _ hCell => absurd hCell (hNone i a)
  case required => exact fun source hMem => absurd hMem (hNever source)
  case skips =>
    intro stream hStream hSkipped
    obtain ⟨guard, hGuard⟩ := hShaped.exists_guard (List.getElem?_eq_getElem hStream)
      (Nat.zero_le _)
    rw [allEmpty, Transition.guard?_skipEmpty, if_pos ⟨rfl, Nat.zero_le _, hSkipped⟩, hGuard,
      Option.map_some, hShaped.outputKeep]
  case spares =>
    intro stream _ hKept
    exact (Transition.spares_idle 0 0 true setting.wordBytes setting.lookahead stream).skipEmpty
      fun hSkipped => hKept hSkipped.2

end Setting

namespace Pipeline

variable {setting : Setting} {contexts : SortedSet Context} {offset word : Nat}
  {context : Context} {frames : List Frame} {first : Origin}

/-- The sources of a word are different bytes. -/
theorem Occurs.selection_unique (h : Occurs setting contexts offset context frames word first)
    {i j : Nat} {a b : Source} (ha : context.sources[i]? = some (some a))
    (hb : context.sources[j]? = some (some b)) (hSame : a.selection = b.selection) : i = j := by
  obtain ⟨_, hData, _, _, hPresents⟩ := h.presents ha
  obtain ⟨_, hData', _, _, hPresents'⟩ := h.presents hb
  have hIndex := hPresents.index_unique hPresents' (by unfold wordStart; omega)
    (by unfold wordStart; omega) hSame
  omega

/-- The transition of a word takes its bytes. -/
theorem Occurs.takes (h : Occurs setting contexts offset context frames word first)
    (hSound : Sound setting contexts) {state leading : Nat} (hLeading : leading ≤ context.state) :
    (setting.enter context state leading).Takes setting.wordBytes setting.lookahead
      context.sources fun stream =>
        setting.Skips context.following context.sources stream ∨ stream < leading := by
  have hEffect := setting.effect_enter context state leading
  simp only [Transition.effect, Prod.mk.injEq] at hEffect
  constructor
  case shaped => exact h.shaped state leading
  case keep => exact hEffect.2.2.1
  case mux => exact hEffect.2.2.2.1
  case consumes =>
    intro registers hMeets
    exact Setting.consumes_enter (Setting.absent_driven h.length_sources hMeets) state leading
  case once => exact fun i j a b => h.selection_unique
  case required =>
    intro source hMem
    obtain ⟨byte, hSource⟩ := List.mem_iff_getElem?.mp hMem
    obtain ⟨guard, hGuard, hByte⟩ := h.exists_guardsByte state hLeading hSource
    exact ⟨guard, hGuard, hByte.present⟩
  case skips =>
    intro stream hStream hSkips
    exact h.guard?_of_skips hSound state (hSound.lookahead ▸ hStream) hSkips
  case spares =>
    intro stream hOther hKept
    rw [not_or] at hKept
    exact Setting.spares_enter hOther hKept.1 state hKept.2

/-- The transitions of a machine whose contexts occur conserve bytes. -/
theorem conserves_of_mem_items (hSound : Sound setting contexts)
    (hGrounded : Grounded setting contexts offset) {t : Transition}
    (ht : t ∈ (Table.ofContexts setting contexts).items) : t.Conserves setting.wordBytes := by
  rcases of_mem_items ht with ⟨context, hContext, state, leading, hLeading, rfl⟩ | ⟨_, rfl⟩
  · obtain ⟨frames, word, first, hOccurs⟩ := hGrounded context hContext
    exact (hOccurs.takes hSound hLeading).conserves
  · exact setting.takes_allEmpty.conserves

end Pipeline

namespace Join

/-- The machine of a description conserves bytes. Whatever the registers that enable one of its
transitions, the bytes that they hold and that the transition masks are exactly the sources of
its output word, each of which is sent once and required to be there. A stream is read exactly
if it is the source of a byte or presents an empty last word, and otherwise keeps everything. -/
theorem conserves_of_synthesize {join : Join} {table : Table} (h : join.synthesize = .ok table) :
    ∀ t ∈ table.items, t.Conserves join.wordBytes := by
  obtain ⟨layouts, inversion, contexts, hPasses, rfl, hSound⟩ := exists_passes_of_synthesize h
  exact fun t ht => conserves_of_mem_items hSound hPasses.grounded ht

/-- An optional byte between a byte and one or two bytes, from the second byte of a word on. -/
def optionalBetween : Join :=
  ⟨2, 1, [⟨8, .ofList [0], ⟨1, some 1⟩⟩, ⟨8, .ofList [0], ⟨0, some 1⟩⟩,
    ⟨8, .ofList [0], ⟨1, some 2⟩⟩], 16⟩

theorem conserves_of_synthesize_optionalBetween :
    ∃ table, optionalBetween.synthesize = .ok table ∧ table.items.length = 7 ∧
      ∀ t ∈ table.items, t.Conserves 2 := by
  obtain ⟨table, hTable⟩ := exists_eq_ok_of_isOk
    (show optionalBetween.synthesize.isOk = true by decide +kernel)
  have hCount : optionalBetween.synthesize.toOption.map (·.items.length) = some 7 := by
    decide +kernel
  rw [hTable] at hCount
  exact ⟨table, hTable, Option.some.inj hCount, conserves_of_synthesize hTable⟩

end Join

end StreamSplice
