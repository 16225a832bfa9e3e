import StreamSplice.Proofs.Determinism
import StreamSplice.Proofs.Firing
import StreamSplice.Proofs.Requirements

/-! Skipping empty leading streams is a shortcut. A state has advanced past the streams before
it, so its transitions pay no attention to them. Their copies in state 0 additionally consume
an empty frame of each of these streams; where a state selects a transition, state 0 selects
its copy once the skipped streams show empty frames. -/
namespace StreamSplice

namespace Transition

/-- What a transition tests, masks and reads of one stream. -/
def row (t : Transition) (stream : Nat) :
    Option (List RegisterGuard) × Option (List (List Bool)) × Option Bool :=
  (t.guards[stream]?, t.keepMasks[stream]?, t.reads[stream]?)

/-- A transition that neither tests, masks nor reads a stream. -/
structure Ignores (t : Transition) (stream : Nat) : Prop where
  guards : ∃ guards, t.guards[stream]? = some guards ∧ ∀ guard ∈ guards, guard.isCare = false
  masks : ∃ masks, t.keepMasks[stream]? = some masks ∧ ∀ mask ∈ masks, ∀ kept ∈ mask, kept = true
  read : t.reads[stream]? = some false

/-- A transition that consumes an empty frame of a stream: it requires the word of that frame in
the first register, clears the whole register, and reads the stream. -/
structure TakesEmpty (t : Transition) (wordBytes stream : Nat) : Prop where
  guard : t.guard? stream 0 = some (.emptyLastWord wordBytes)
  mask : (t.keepMasks[stream]?.bind (·[0]?)) = some (List.replicate wordBytes false)
  read : t.reads[stream]? = some true

variable {t : Transition} {stream : Nat}

theorem row_modifyGuard_of_ne {other : Nat} (h : other ≠ stream) (t : Transition) (stage : Nat)
    (f : RegisterGuard → RegisterGuard) :
    (t.modifyGuard other stage f).row stream = t.row stream := by
  simp only [row, modifyGuard, List.getElem?_modify]
  cases t.guards[stream]? <;> simp [h]

theorem row_skipEmpty_of_not {start stop : Nat} (h : ¬(start ≤ stream ∧ stream < stop))
    (t : Transition) : (t.skipEmpty start stop).row stream = t.row stream := by
  have hKept : (decide (start ≤ stream) && decide (stream < stop)) = false := by simpa using h
  simp only [skipEmpty]
  split
  · simp only [row, List.getElem?_mapIdx, hKept]
    simp
  · rfl

theorem row_deliver {sources : List (Option Source)}
    (h : ∀ source, some source ∈ sources → source.stream ≠ stream) (t : Transition) :
    (t.deliver sources).row stream = t.row stream := by
  have hFed : ((sources.filterMap id).any (·.stream == stream)) = false := by
    rw [List.any_eq_false]
    intro source hMem
    simpa using h source (by simpa using hMem)
  simp only [row, deliver, List.getElem?_mapIdx, hFed]
  simp

/-- The row of a stream that nothing is required of and nothing is consumed from. -/
def idleRow (wordBytes : Nat) (lookahead : List Nat) (stream : Nat) :
    Option (List RegisterGuard) × Option (List (List Bool)) × Option Bool :=
  (lookahead[stream]?.map fun l => List.replicate (l + 1) (.dontCare wordBytes),
    lookahead[stream]?.map fun l => List.replicate (l + 1) (List.replicate wordBytes true),
    lookahead[stream]?.map fun _ => false)

theorem row_idle (state nextState : Nat) (last : Bool) (wordBytes : Nat) (lookahead : List Nat)
    (stream : Nat) :
    (idle state nextState last wordBytes lookahead).row stream =
      idleRow wordBytes lookahead stream := by
  simp only [row, idle, idleRow, List.getElem?_map]

/-- Where nothing is required to be absent, nothing is masked for that reason. -/
theorem row_maskAbsent {wordBytes : Nat} {lookahead : List Nat}
    (h : t.row stream = idleRow wordBytes lookahead stream) :
    t.maskAbsent.row stream = idleRow wordBytes lookahead stream := by
  simp only [row, idleRow, Prod.mk.injEq] at h ⊢
  obtain ⟨hGuards, hMasks, hReads⟩ := h
  refine ⟨hGuards, ?_, hReads⟩
  simp only [maskAbsent, List.getElem?_zipWith, hGuards, hMasks]
  cases lookahead[stream]? with
  | none => rfl
  | some l => simp [RegisterGuard.dontCare]

end Transition

namespace Setting

open Transition

variable {setting : Setting} {after following before : Option Source} {atEnd : Bool}
  {source : Source} {stream : Nat}

/-- Driving a byte pays no attention to the streams before it. -/
theorem row_drive (hSource : stream < source.stream)
    (hAfter : ∀ next, after = some next → source.stream ≤ next.stream) (t : Transition) :
    (setting.drive before after atEnd source t).row stream = t.row stream := by
  have hOther : source.stream ≠ stream := Nat.ne_of_gt hSource
  have hClose : ∀ t : Transition, (setting.close after source t).row stream = t.row stream := by
    intro t
    simp only [close]
    cases after with
    | none => exact row_skipEmpty_of_not (by omega) t
    | some next =>
        have hNext := hAfter next rfl
        dsimp only
        split
        · rw [requireKeep, row_modifyGuard_of_ne (by omega), row_skipEmpty_of_not (by omega)]
        · exact row_skipEmpty_of_not (by omega) t
  have hTrailing : ∀ (closes continues : Bool) (t : Transition),
      (setting.requireTrailing closes continues atEnd source t).row stream = t.row stream := by
    intro closes continues t
    simp only [requireTrailing]
    split
    · exact row_modifyGuard_of_ne hOther t _ _
    · rfl
  simp only [drive]
  rw [hTrailing]
  split <;> split <;>
    simp only [requireFirst, requireSource, row_modifyGuard_of_ne hOther, hClose]

/-- Driving the bytes of a word in stream order pays no attention to the streams before it. -/
theorem row_driveAll {sources : List (Option Source)} {outputByte : Nat}
    (hSources : ∀ source, some source ∈ sources → stream < source.stream)
    (hOrder : SubState.disorder? following outputByte sources = none) (t : Transition) :
    (setting.driveAll following before sources t).row stream = t.row stream := by
  induction sources generalizing before outputByte t with
  | nil => rfl
  | cons cell rest ih =>
      rw [SubState.disorder?] at hOrder
      split at hOrder
      · cases hOrder
      · next hHead =>
          have hRest : ∀ source, some source ∈ rest → stream < source.stream :=
            fun source hMem => hSources source (List.mem_cons_of_mem _ hMem)
          cases cell with
          | none => exact ih hRest hOrder t
          | some source =>
              rw [driveAll, ih hRest hOrder]
              refine row_drive (hSources source List.mem_cons_self) (fun next hNext => ?_) t
              simpa [hNext] using hHead

/-- A transition pays no attention to the streams before its state. -/
theorem row_transition {context : Context}
    (hState : ∀ source, some source ∈ context.sources → context.state ≤ source.stream)
    (hOrder : SubState.disorder? context.following 0 context.sources = none)
    (hStream : stream < context.state) :
    (setting.transition context).row stream =
      idleRow setting.wordBytes setting.lookahead stream := by
  have hSources : ∀ source, some source ∈ context.sources → stream < source.stream :=
    fun source hMem => Nat.lt_of_lt_of_le hStream (hState source hMem)
  have hDriven : (setting.driven context).row stream =
      idleRow setting.wordBytes setting.lookahead stream := by
    rw [driven, row_driveAll hSources hOrder,
      row_deliver fun source hMem => Nat.ne_of_gt (hSources source hMem), row_idle]
  simp only [transition]
  split
  · next source hFirst =>
      have hMem : some source ∈ context.sources := by simpa using List.mem_of_head? hFirst
      rw [requireRelict, row_modifyGuard_of_ne (Nat.ne_of_gt (hSources source hMem))]
      exact row_maskAbsent hDriven
  · exact row_maskAbsent hDriven

end Setting

/-- The registers, except that the first one of each stream before `state` shows an empty
frame. -/
def emptiedBefore (wordBytes state : Nat) (registers : List (List Register)) :
    List (List Register) :=
  registers.mapIdx fun stream row =>
    if stream < state then row.set 0 (.emptyFrame wordBytes) else row

namespace Transition

variable {t : Transition} {wordBytes state stream stages : Nat} {lookahead : List Nat}

theorem ignores_of_row (hRow : t.row stream = idleRow wordBytes lookahead stream)
    (hStream : lookahead[stream]? = some stages) : t.Ignores stream := by
  simp only [row, idleRow, hStream, Option.map_some, Prod.mk.injEq] at hRow
  obtain ⟨hGuards, hMasks, hRead⟩ := hRow
  refine ⟨⟨_, hGuards, fun guard hMem => ?_⟩, ⟨_, hMasks, fun mask hMem kept hKept => ?_⟩, hRead⟩
  · rw [List.eq_of_mem_replicate hMem]
    simp [RegisterGuard.isCare, RegisterGuard.bits, RegisterGuard.dontCare, BitGuard.isCare]
  · rw [List.eq_of_mem_replicate hMem] at hKept
    exact List.eq_of_mem_replicate hKept

theorem row_fromStart_of_le (h : state ≤ stream) :
    (Setting.fromStart state t).row stream = t.row stream :=
  row_skipEmpty_of_not (by omega) { t with state := 0 }

/-- The copy in state 0 consumes an empty frame of every stream before the state. -/
theorem takesEmpty_fromStart (hShaped : t.Shaped wordBytes lookahead)
    (hStream : lookahead[stream]? = some stages) (hBefore : stream < state) :
    (Setting.fromStart state t).TakesEmpty wordBytes stream where
  guard := by
    obtain ⟨guard, hGuard⟩ := hShaped.exists_guard hStream (Nat.zero_le _)
    have hSame : ({ t with state := 0 } : Transition).guard? stream 0 = some guard := hGuard
    rw [Setting.fromStart, guard?_skipEmpty, if_pos ⟨rfl, Nat.zero_le _, hBefore⟩, hSame]
    exact congrArg (some <| RegisterGuard.emptyLastWord ·) hShaped.outputKeep
  mask := by
    obtain ⟨l, masks, _, hMasks, hCount, _⟩ :=
      Pipeline.exists_masks hShaped (List.getElem?_eq_some_iff.mp hStream).1
    have hFirst : 0 < masks.length := by omega
    simp [Setting.fromStart, skipEmpty, Nat.zero_lt_of_lt hBefore, hMasks, hBefore,
      hShaped.outputKeep, hFirst]
  read := by
    obtain ⟨read, hRead⟩ : ∃ read, t.reads[stream]? = some read :=
      ⟨_, List.getElem?_eq_getElem (hShaped.reads ▸ (List.getElem?_eq_some_iff.mp hStream).1)⟩
    simp [Setting.fromStart, skipEmpty, Nat.zero_lt_of_lt hBefore, hRead, hBefore]

/-- Registers that enable a transition enable its copy once the skipped streams show empty
frames. -/
theorem isEnabled_fromStart (hShaped : t.Shaped wordBytes lookahead) (hState : 0 < state)
    {registers : List (List Register)} (h : t.isEnabled registers) :
    (Setting.fromStart state t).isEnabled (emptiedBefore wordBytes state registers) := by
  rw [isEnabled_iff] at h ⊢
  have hGuards : (Setting.fromStart state t).guards = t.guards.mapIdx fun stream guards =>
      if stream < state then guards.set 0 (.emptyLastWord wordBytes) else guards := by
    simp [Setting.fromStart, skipEmpty, hState, hShaped.outputKeep]
  rw [hGuards, emptiedBefore]
  refine forall₂_of_getElem? (by simp [h.length_eq]) fun i guards values hGuards hValues => ?_
  rw [List.getElem?_mapIdx] at hGuards hValues
  obtain ⟨guards, hOwn, rfl⟩ := Option.map_eq_some_iff.mp hGuards
  obtain ⟨values, hValue, rfl⟩ := Option.map_eq_some_iff.mp hValues
  have hRow := rel_of_forall₂ h hOwn hValue
  by_cases hSkipped : i < state
  · rw [if_pos hSkipped, if_pos hSkipped]
    cases hRow with
    | nil => exact .nil
    | cons _ hRest => exact .cons (RegisterGuard.accepts_emptyLastWord wordBytes) hRest
  · rw [if_neg hSkipped, if_neg hSkipped]
    exact hRow

end Transition

namespace Table

/-- Skipping empty leading streams is a shortcut. In every machine that is built, a transition
that is selected in a state past the first one, up to which all streams may be empty, ignores
the streams before the state. If these streams show empty frames instead, state 0 selects its
copy, whatever the other registers hold: the copy leads to the same state and emits the same
output, treats the other streams alike, and consumes the empty frames. -/
theorem select_emptiedBefore {wordBytes streamCount : Nat} {inversion : Inversion}
    {emptiable : List Bool} {table : Table}
    (h : build wordBytes streamCount inversion emptiable = .ok table) {state : Nat}
    (hFirst : 1 ≤ state) (hPrefix : state ≤ (emptiable.takeWhile id).length)
    (hState : state < streamCount) {registers : List (List Register)} {t : Transition}
    (hSelect : table.select state registers = some t) :
    (∀ stream < state, t.Ignores stream) ∧
      ∃ copy, table.select 0 (emptiedBefore wordBytes state registers) = some copy ∧
        copy.nextState = t.nextState ∧ copy.last = t.last ∧ copy.outputKeep = t.outputKeep ∧
        copy.outputMux = t.outputMux ∧ (∀ stream ≥ state, copy.row stream = t.row stream) ∧
        ∀ stream < state, copy.TakesEmpty wordBytes stream := by
  obtain ⟨hStreams, _, _, contexts, hContexts, rfl, hUniform, hNone⟩ := build_eq_ok h
  obtain ⟨hMem, hEnabled⟩ := (select_eq_some_iff hNone).mp hSelect
  have hShaped := hUniform state t hMem
  obtain ⟨hOwn, rfl⟩ := (Setting.mem_stateTransitions (.inl (by omega))).mp
    (mem_transitions_ofContexts.mp hMem).2
  have hStages : ∀ stream < t.state, ∃ stages, inversion.lookahead[stream]? = some stages := by
    intro stream hStream
    have hLength : inversion.lookahead.length = streamCount := by
      simp [Inversion.lookahead, hStreams]
    exact ⟨_, List.getElem?_eq_getElem (by omega)⟩
  have hEffect := Setting.effect_fromStart t.state t
  simp only [Transition.effect, Prod.mk.injEq] at hEffect
  obtain ⟨_, hNext, hKeep, hMux, hLast⟩ := hEffect
  refine ⟨fun stream hStream => ?_, Setting.fromStart t.state t, ?_, hNext, hLast, hKeep, hMux,
    fun stream hStream => Transition.row_fromStart_of_le hStream, fun stream hStream => ?_⟩
  · obtain ⟨context, hContext, rfl⟩ := List.mem_map.mp hOwn
    obtain ⟨stages, hStages⟩ := hStages stream hStream
    obtain ⟨hSources, hOrder⟩ := Inversion.ordered_of_contexts hContexts hContext
    rw [Setting.state_transition] at hStream
    exact Transition.ignores_of_row (Setting.row_transition hSources hOrder hStream) hStages
  · have hZero : 0 < streamCount := by omega
    have hCopy := mem_transitions_ofContexts.mpr
      ⟨hZero, Setting.fromStart_mem_stateTransitions hOwn hPrefix hState⟩
    exact (select_eq_some_iff hNone).mpr
      ⟨hCopy, Transition.isEnabled_fromStart hShaped (by omega) hEnabled⟩
  · obtain ⟨stages, hStages⟩ := hStages stream hStream
    exact Transition.takesEmpty_fromStart hShaped hStages hStream

/-- Three bytes behind an optional one. -/
def behindOptional : List Layout :=
  [Pipeline.tupleLayout 2 0 [⟨1, 0⟩, ⟨3, 0⟩], Pipeline.tupleLayout 2 0 [⟨0, 0⟩, ⟨3, 0⟩]]

/-- The second word of the longer join also comes after an empty frame, as far as the registers
tell. -/
theorem select_emptiedBefore_behindOptional :
    ∃ inversion table t copy, Inversion.ofLayouts 2 behindOptional 2 = .ok inversion ∧
      build 2 2 inversion [true, false] = .ok table ∧
      table.select 1 [[⟨[true, false], false, false⟩],
        [⟨[false, true], true, false⟩, ⟨[true, false], false, true⟩]] = some t ∧
      table.select 0 [[⟨[false, false], true, true⟩],
        [⟨[false, true], true, false⟩, ⟨[true, false], false, true⟩]] = some copy ∧
      copy.TakesEmpty 2 0 ∧ copy.outputMux = t.outputMux := by
  have hOk : ∃ inversion table t, Inversion.ofLayouts 2 behindOptional 2 = .ok inversion ∧
      build 2 2 inversion [true, false] = .ok table ∧
      table.select 1 [[⟨[true, false], false, false⟩],
        [⟨[false, true], true, false⟩, ⟨[true, false], false, true⟩]] = some t :=
    ⟨_, _, _, rfl, rfl, rfl⟩
  obtain ⟨inversion, table, t, hInversion, hTable, hSelect⟩ := hOk
  obtain ⟨_, copy, hCopy, _, _, _, hMux, _, hTakes⟩ :=
    select_emptiedBefore hTable (by decide) (by decide) (by decide) hSelect
  exact ⟨inversion, table, t, copy, hInversion, hTable, hSelect, hCopy, hTakes 0 (by decide), hMux⟩

end Table

end StreamSplice
