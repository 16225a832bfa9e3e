import StreamSplice.Proofs.Determinism
import StreamSplice.Proofs.Firing
import StreamSplice.Proofs.InvertedContexts

/-! The machine joins the frames of a tuple. In every cycle, the transition of the context of
the next word is the one that the registers enable; it emits the bytes of the word and moves
the queues on to the word after it. -/
namespace StreamSplice.Pipeline

open Layout

/-- The byte of a tuple of frames that a byte of its joined layout stands for. -/
def frameByte (wordBytes tuple : Nat) (frames : List Frame) (origin : Origin) : FrameByte :=
  ⟨tuple, origin.stream, origin.word * wordBytes + origin.byte -
    frames[origin.stream]?.elim 0 Frame.startOffset⟩

/-- The output word that shows a word of a layout. -/
def outputOf (wordBytes tuple : Nat) (frames : List Frame) (cells : List Cell) (last : Bool) :
    OutputWord :=
  ⟨cells.map (Option.map fun origin => some (frameByte wordBytes tuple frames origin)), last⟩

section Output

variable {wordBytes offset tuple emitted index row word : Nat} {frames : List Frame}
  {frame : Frame} {later : List (List InputWord)} {source : Source} {first : Origin}

/-- A source selects the byte that it names. -/
theorem Presents.selected?_eq (h : Presents wordBytes frames emitted index source frame row)
    (hLater : Behind wordBytes frames later) (hEmitted : emitted ≤ index) :
    selected? (tupleQueues wordBytes tuple frames later emitted) source.selection =
      some ⟨tuple, source.stream, index - startOf frames source.stream⟩ := by
  have hEnd := h.lt_endPosition
  have hInWord := h.inWord
  have hPosition := h.position
  have hWord : (tupleQueues wordBytes tuple frames later emitted)[source.stream]?.bind
      (·[source.stage]?) = some (frame.wordFrom wordBytes tuple source.stream
        (frame.front (startOf frames source.stream) emitted) row) :=
    h.wordAt_eq hLater hEmitted (show (row + 0) * wordBytes < _ by rw [Nat.add_zero]; omega)
  obtain ⟨queue, hQueue, hStage⟩ := Option.bind_eq_some_iff.mp hWord
  have hByte : frame.byteAt? tuple source.stream (row * wordBytes + source.byte) =
      some ⟨tuple, source.stream, index - startOf frames source.stream⟩ := by
    rw [← hPosition, Frame.byteAt?, if_pos (by unfold Frame.endPosition at hEnd; omega),
      Nat.add_sub_cancel_left]
  simp only [selected?, Source.selection, hQueue, hStage, Option.bind_eq_bind, Option.bind_some,
    Frame.wordFrom, List.getElem?_map, List.getElem?_range hInWord, Option.map_some, hByte]

/-- The multiplexers of a word route the bytes of the word. -/
theorem selected?_wordSources (hLater : Behind wordBytes frames later) :
    (wordSources (tupleWord wordBytes offset frames word)).map
        (Option.map fun source => selected? (tupleQueues wordBytes tuple frames later
          (wordStart wordBytes offset word)) source.selection) =
      (tupleWord wordBytes offset frames word).map
        (Option.map fun origin => some (frameByte wordBytes tuple frames origin)) := by
  refine List.ext_getElem? fun byte => ?_
  rw [List.getElem?_map, List.getElem?_map, getElem?_dataWord, getElem?_wordSources]
  by_cases hByte : byte < wordBytes
  · rw [if_pos hByte, if_pos hByte]
    cases hCell : cellAt offset (tupleOrigins wordBytes 0 frames) (word * wordBytes + byte) with
    | none => rfl
    | some origin =>
        have hSource : (wordSources (tupleWord wordBytes offset frames word))[byte]? =
            some (some (sourceIn (tupleWord wordBytes offset frames word) origin)) := by
          rw [getElem?_wordSources, if_pos hByte, hCell]
          rfl
        obtain ⟨_, hData, frame, row, hPresents⟩ := presents_wordSources hSource
        rw [cellAt, if_neg (by omega)] at hCell
        obtain ⟨stream, sent, hFrame, hStart, hEnd, rfl⟩ := getElem?_tupleOrigins.mp hCell
        rw [Option.map_some, Option.map_some, Option.map_some, Option.map_some, Option.map_some,
          hPresents.selected?_eq hLater (by unfold wordStart; omega)]
        simp only [frameByte, sourceIn, originAt, Nat.zero_add, hFrame, Option.elim_some,
          Nat.div_add_mod', Nat.add_sub_cancel_left]
  · rw [if_neg hByte, if_neg hByte]
    rfl

/-- The output of a word of a tuple. -/
def wordOutput (wordBytes offset tuple : Nat) (frames : List Frame) (word : Nat) : OutputWord :=
  let data := tupleOrigins wordBytes 0 frames
  outputOf wordBytes tuple frames (dataWord wordBytes offset data word)
    data[wordStart wordBytes offset (word + 1)]?.isNone

variable {setting : Setting}

/-- What the transition of a word drives, and where it leads. -/
theorem effect_wordTransition (setting : Setting) (word : Nat) (context : Context) :
    (wordTransition setting word context).nextState = context.nextState ∧
      (wordTransition setting word context).outputMux =
        context.sources.map (Option.map Source.selection) ∧
      (wordTransition setting word context).last = context.last := by
  have hOwn : (setting.transition context).nextState = context.nextState ∧
      (setting.transition context).outputMux = context.sources.map (Option.map Source.selection) ∧
      (setting.transition context).last = context.last :=
    ⟨setting.nextState_transition context, setting.outputMux_transition context,
      setting.last_transition context⟩
  simp only [wordTransition]
  split
  · rwa [Setting.nextState_fromStart, Setting.outputMux_fromStart, Setting.last_fromStart]
  · exact hOwn

/-- The transition of a word assembles the word. -/
theorem output_wordTransition (hLater : Behind setting.wordBytes frames later) :
    output (wordTransition setting word (tupleContext setting.wordBytes offset frames word first))
        (tupleQueues setting.wordBytes tuple frames later
          (wordStart setting.wordBytes offset word)) =
      wordOutput setting.wordBytes offset tuple frames word := by
  obtain ⟨_, hMux, hLast⟩ := effect_wordTransition setting word
    (tupleContext setting.wordBytes offset frames word first)
  rw [output, hMux, hLast, wordOutput, outputOf, List.map_map, ← selected?_wordSources hLater]
  congr 1
  apply List.map_congr_left
  intro cell _
  cases cell <;> rfl

end Output

/-- Sizes of a machine that is deterministic. -/
structure Sound (setting : Setting) (contexts : SortedSet Context) : Prop where
  streams : 0 < setting.streamCount
  lookahead : setting.lookahead.length = setting.streamCount
  emptiable : setting.emptiable.length = setting.streamCount
  deterministic : ∀ state first second,
    ¬(Table.ofContexts setting contexts).Overlap state first second

/-- A tuple of frames whose words a machine has transitions and registers for. -/
structure Handles (setting : Setting) (contexts : SortedSet Context) (offset : Nat)
    (frames : List Frame) : Prop where
  offset_lt : offset < setting.wordBytes
  streams : setting.streamCount = frames.length
  emptiable : ∀ (stream : Nat) frame, frames[stream]? = some frame → frame.byteCount = 0 →
    setting.emptiable[stream]? = some true
  known : ∀ context, (tupleLayout setting.wordBytes offset frames).HasContext context →
    context ∈ contexts
  reach : ∀ context, (tupleLayout setting.wordBytes offset frames).HasContext context →
    ∀ source, some source ∈ context.sources →
      ∃ l, setting.lookahead[source.stream]? = some l ∧ source.stage ≤ l

section Cycle

variable {setting : Setting} {contexts : SortedSet Context} {offset word tuple : Nat}
  {frames : List Frame} {later : List (List InputWord)} {first : Origin}

/-- The leading streams that may all be empty are part of the empty prefix. -/
theorem le_emptyPrefix {stream : Nat} (hStream : stream ≤ setting.emptiable.length)
    (h : ∀ i < stream, setting.emptiable[i]? = some true) : stream ≤ setting.emptyPrefix := by
  simp only [Setting.emptyPrefix]
  generalize setting.emptiable = flags at *
  induction flags generalizing stream with
  | nil => simpa using hStream
  | cons flag flags ih =>
      cases stream with
      | zero => exact Nat.zero_le _
      | succ stream =>
          have hFlag : flag = true := by simpa using h 0 (Nat.succ_pos stream)
          rw [hFlag, List.takeWhile_cons_of_pos rfl, List.length_cons]
          exact Nat.succ_le_succ (ih (Nat.le_of_succ_le_succ hStream) fun i hi =>
            by simpa using h (i + 1) (Nat.succ_lt_succ hi))

/-- An enabled transition of a state fires. -/
theorem cycle?_eq (hSound : Sound setting contexts) {state : Nat} {t : Transition}
    {queues : List (List InputWord)} (hQueues : queues.length = setting.lookahead.length)
    (hMem : t ∈ (Table.ofContexts setting contexts).transitions state)
    (hShaped : t.Shaped setting.wordBytes setting.lookahead)
    (hMeets : t.Meets (registerAt setting.wordBytes queues)) :
    cycle? (Table.ofContexts setting contexts) ⟨state, queues⟩ =
      some (output t queues, ⟨t.nextState, advance t queues⟩) := by
  have hEnabled : t.isEnabled (registers (Table.ofContexts setting contexts) queues) :=
    Transition.isEnabled_of_meets hShaped (map_length_registers hQueues)
      (fun _ _ _ _ hRow hStage => registerAt_eq hRow hStage) hMeets
  have hSelect := (Table.select_eq_some_iff hSound.deterministic).mpr ⟨hMem, hEnabled⟩
  simp [cycle?, hSelect]

/-- State of the machine before a word of a tuple is assembled. -/
def stateBefore (wordBytes offset : Nat) (frames : List Frame) (word : Nat) : Nat :=
  if word = 0 then 0
  else ((tupleOrigins wordBytes 0 frames)[wordStart wordBytes offset word]?.map
    Origin.stream).getD 0

/-- The streams before the one that a tuple starts with may all be empty. -/
theorem stream_le_emptyPrefix (hSound : Sound setting contexts)
    (hHandles : Handles setting contexts offset frames) {stream : Nat} {frame : Frame}
    (hFirst : Covers frames stream frame 0) : stream ≤ setting.emptyPrefix := by
  have hBound := (List.getElem?_eq_some_iff.mp hFirst.sent).1
  rw [← hHandles.streams] at hBound
  apply le_emptyPrefix (by rw [hSound.emptiable]; omega)
  intro i hi
  have hFrame := List.getElem?_eq_getElem (show i < frames.length by
    rw [← hHandles.streams]
    omega)
  exact hHandles.emptiable i _ hFrame ((lt_stream_iff hFirst hFrame).mp hi).1

/-- The transition of a word is there in the state before the word. -/
theorem mem_transitions_wordTransition (hSound : Sound setting contexts)
    (hHandles : Handles setting contexts offset frames)
    (hFirst : (tupleOrigins setting.wordBytes 0 frames)[wordStart setting.wordBytes offset
      word]? = some first) :
    wordTransition setting word (tupleContext setting.wordBytes offset frames word first) ∈
      (Table.ofContexts setting contexts).transitions
        (stateBefore setting.wordBytes offset frames word) := by
  have hKnown := hHandles.known _
    ((hasContext_tupleLayout_iff hHandles.offset_lt).mpr ⟨word, first, hFirst, rfl⟩)
  obtain ⟨context, hContext⟩ :
      ∃ context, tupleContext setting.wordBytes offset frames word first = context := ⟨_, rfl⟩
  have hState : context.state = first.stream := by rw [← hContext, tupleContext, dataContext]
  have hOwn : setting.transition context ∈ contexts.toList.map setting.transition :=
    List.mem_map_of_mem (SortedSet.mem_toList.mpr (hContext ▸ hKnown))
  have hOwnState : (setting.transition context).state = context.state :=
    setting.state_transition context
  obtain ⟨stream, frame, hSent, hStart, hEnd, hOrigin⟩ := getElem?_tupleOrigins.mp hFirst
  have hStream : context.state = stream := by rw [hState, hOrigin, originAt, Nat.zero_add]
  have hBound : stream < setting.streamCount := by
    rw [hHandles.streams]
    exact (List.getElem?_eq_some_iff.mp hSent).1
  rw [hContext, Table.mem_transitions_ofContexts, wordTransition, stateBefore]
  split
  · next hZero =>
      rw [(wordStart_eq_zero hHandles.offset_lt).mpr hZero] at hStart hEnd
      have hPrefix := stream_le_emptyPrefix hSound hHandles ⟨hSent, hStart, hEnd⟩
      refine ⟨hSound.streams, ?_⟩
      rw [← hOwnState]
      exact Setting.fromStart_mem_stateTransitions hOwn (by omega) (by omega)
  · rw [hFirst, Option.map_some, Option.getD_some, ← hState, ← hOwnState]
    exact ⟨by omega, Setting.mem_stateTransitions_own hOwn⟩

/-- In the cycle of a word, the machine emits the word and moves on to the next one. -/
theorem cycle?_word (hSound : Sound setting contexts)
    (hHandles : Handles setting contexts offset frames)
    (hLater : Behind setting.wordBytes frames later)
    (hFirst : (tupleOrigins setting.wordBytes 0 frames)[wordStart setting.wordBytes offset
      word]? = some first) :
    cycle? (Table.ofContexts setting contexts)
        ⟨stateBefore setting.wordBytes offset frames word,
          tupleQueues setting.wordBytes tuple frames later
            (wordStart setting.wordBytes offset word)⟩ =
      some (wordOutput setting.wordBytes offset tuple frames word,
        ⟨stateBefore setting.wordBytes offset frames (word + 1),
          tupleQueues setting.wordBytes tuple frames later
            (wordStart setting.wordBytes offset (word + 1))⟩) := by
  have hStreams := hHandles.streams
  have hLookahead : setting.lookahead.length = frames.length := hSound.lookahead.trans hStreams
  have hStages := hHandles.reach _
    ((hasContext_tupleLayout_iff hHandles.offset_lt).mpr ⟨word, first, hFirst, rfl⟩)
  have hNext : (wordTransition setting word
      (tupleContext setting.wordBytes offset frames word first)).nextState =
        stateBefore setting.wordBytes offset frames (word + 1) := (effect_wordTransition ..).1
  rw [cycle?_eq hSound ((length_tupleQueues hLater).trans hLookahead.symm)
    (mem_transitions_wordTransition hSound hHandles hFirst) shaped_wordTransition
    (meets_wordTransition hHandles.offset_lt hStreams hLater hFirst), output_wordTransition hLater,
    hNext, advance_wordTransition hHandles.offset_lt hStreams hLater hFirst hLookahead hStages]

/-- The machine assembles the words of a tuple one after the other. -/
theorem cycles?_words (hSound : Sound setting contexts)
    (hHandles : Handles setting contexts offset frames)
    (hLater : Behind setting.wordBytes frames later) {count : Nat}
    (hCount : word + count ≤ wordsSpanned setting.wordBytes (offset + byteTotal frames))
    (hBytes : 0 < byteTotal frames) :
    cycles? (Table.ofContexts setting contexts) count
        ⟨stateBefore setting.wordBytes offset frames word,
          tupleQueues setting.wordBytes tuple frames later
            (wordStart setting.wordBytes offset word)⟩ =
      some ((List.range' word count).map (wordOutput setting.wordBytes offset tuple frames),
        ⟨stateBefore setting.wordBytes offset frames (word + count),
          tupleQueues setting.wordBytes tuple frames later
            (wordStart setting.wordBytes offset (word + count))⟩) := by
  have hOffset := hHandles.offset_lt
  induction count generalizing word with
  | zero => rfl
  | succ count ih =>
      have hWord := (lt_wordsSpanned_iff (show 0 < setting.wordBytes by omega)).mp
        (show word < wordsSpanned setting.wordBytes (offset + byteTotal frames) by omega)
      have hBound : wordStart setting.wordBytes offset word <
          (tupleOrigins setting.wordBytes 0 frames).length := by
        rw [length_tupleOrigins]
        simp only [wordStart]
        omega
      rw [cycles?, cycle?_word hSound hHandles hLater (List.getElem?_eq_getElem hBound)]
      have hRest := @ih (word + 1) (by omega)
      rw [show word + (count + 1) = word + 1 + count by omega, List.range'_succ, List.map_cons]
      simp only [Option.bind_eq_bind, Option.bind_some, hRest]
      rfl

/-- Number of cycles that a tuple of frames takes. -/
def cycleCount (wordBytes offset : Nat) (frames : List Frame) : Nat :=
  max 1 (wordsSpanned wordBytes (offset + byteTotal frames))

/-- Number of cycles that tuples of frames take one after the other. -/
def cycleTotal (wordBytes offset : Nat) : List (List Frame) → Nat
  | [] => 0
  | frames :: rest => cycleCount wordBytes offset frames + cycleTotal wordBytes offset rest

/-- The transition of empty frames is there in state 0, if a machine handles empty frames. -/
theorem allEmpty_mem_transitions (hSound : Sound setting contexts)
    (hHandles : Handles setting contexts offset frames) (hBytes : byteTotal frames = 0) :
    setting.allEmpty ∈ (Table.ofContexts setting contexts).transitions 0 := by
  have hPrefix : setting.emptyPrefix = setting.streamCount := by
    refine (Setting.emptyPrefix_eq_iff hSound.emptiable).mpr fun flag hMem => ?_
    obtain ⟨i, hFlag⟩ := List.mem_iff_getElem?.mp hMem
    have hBound := (List.getElem?_eq_some_iff.mp hFlag).1
    rw [hSound.emptiable, hHandles.streams] at hBound
    have hFrame := List.getElem?_eq_getElem hBound
    have hEmpty := hHandles.emptiable i _ hFrame (byteCount_eq_zero hFrame hBytes)
    exact Option.some.inj (hFlag.symm.trans hEmpty)
  exact Table.mem_transitions_ofContexts.mpr ⟨hSound.streams, (Setting.mem_stateTransitions_zero
    (hPrefix ▸ hSound.streams)).mpr (.inr (.inr ⟨hPrefix, rfl⟩))⟩

/-- Empty frames take a single cycle, which emits a word without bytes. -/
theorem cycle?_allEmpty (hSound : Sound setting contexts)
    (hHandles : Handles setting contexts offset frames)
    (hLater : Behind setting.wordBytes frames later) (hBytes : byteTotal frames = 0) :
    cycle? (Table.ofContexts setting contexts)
        ⟨0, tupleQueues setting.wordBytes tuple frames later 0⟩ =
      some (wordOutput setting.wordBytes offset tuple frames 0, ⟨0, later⟩) := by
  have hStreams := hHandles.streams
  have hWidth : 0 < setting.wordBytes := Nat.zero_lt_of_lt hHandles.offset_lt
  have hLookahead : setting.lookahead.length = frames.length := hSound.lookahead.trans hStreams
  have hMem := allEmpty_mem_transitions hSound hHandles hBytes
  have hEffect := setting.effect_allEmpty
  simp only [Transition.effect, Prod.mk.injEq] at hEffect
  obtain ⟨_, hNext, _, hMux, hLast⟩ := hEffect
  have hData : tupleOrigins setting.wordBytes 0 frames = [] :=
    List.eq_nil_of_length_eq_zero ((length_tupleOrigins ..).trans hBytes)
  have hOutput : output setting.allEmpty (tupleQueues setting.wordBytes tuple frames later 0) =
      wordOutput setting.wordBytes offset tuple frames 0 := by
    rw [output, hMux, hLast, wordOutput, outputOf, hData, dataWord_nil]
    simp
  rw [cycle?_eq hSound ((length_tupleQueues hLater).trans hLookahead.symm) hMem
    setting.shaped_allEmpty (meets_allEmpty hStreams hLater hBytes), hOutput, hNext,
    advance_allEmpty hStreams hLater hBytes hWidth hLookahead]

/-- The machine joins the frames of a tuple: from state 0 it takes a cycle for every output
word, or a single one if all frames are empty, and comes back to state 0 with nothing of the
tuple left. -/
theorem cycles?_tuple (hSound : Sound setting contexts)
    (hHandles : Handles setting contexts offset frames)
    (hLater : Behind setting.wordBytes frames later) :
    cycles? (Table.ofContexts setting contexts) (cycleCount setting.wordBytes offset frames)
        ⟨0, tupleQueues setting.wordBytes tuple frames later 0⟩ =
      some ((List.range (cycleCount setting.wordBytes offset frames)).map
        (wordOutput setting.wordBytes offset tuple frames), ⟨0, later⟩) := by
  have hOffset := hHandles.offset_lt
  have hWidth : 0 < setting.wordBytes := by omega
  simp only [cycleCount]
  rcases Nat.eq_zero_or_pos (byteTotal frames) with hEmpty | hBytes
  · have hSpan : wordsSpanned setting.wordBytes (offset + byteTotal frames) ≤ 1 :=
      Nat.not_lt.mp ((lt_wordsSpanned_iff hWidth).not.mpr (by omega))
    rw [Nat.max_eq_left hSpan, cycles?, cycle?_allEmpty hSound hHandles hLater hEmpty]
    rfl
  · obtain ⟨count, hCount⟩ :
        ∃ count, wordsSpanned setting.wordBytes (offset + byteTotal frames) = count := ⟨_, rfl⟩
    have hPositive : 0 < count := hCount ▸ (lt_wordsSpanned_iff hWidth).mpr (by omega)
    have hEnd : offset + byteTotal frames ≤ count * setting.wordBytes :=
      Nat.not_lt.mp ((lt_wordsSpanned_iff hWidth).not.mp (by omega))
    have hLeast := Nat.le_mul_of_pos_left setting.wordBytes hPositive
    have hWords := @cycles?_words setting contexts offset 0 tuple frames later hSound hHandles
      hLater count (by omega) hBytes
    have hStart : wordStart setting.wordBytes offset 0 = 0 := (wordStart_eq_zero hOffset).mpr rfl
    have hState : stateBefore setting.wordBytes offset frames count = 0 := by
      rw [stateBefore, if_neg (by omega), List.getElem?_eq_none (by
        rw [length_tupleOrigins]
        simp only [wordStart]
        omega)]
      rfl
    have hQueues : tupleQueues setting.wordBytes tuple frames later
        (wordStart setting.wordBytes offset count) = later :=
      tupleQueues_of_le hLater (by unfold wordStart; omega) (by unfold wordStart; omega)
    rw [Nat.zero_add, hStart, hState, hQueues, stateBefore, if_pos rfl,
      ← List.range_eq_range'] at hWords
    rw [hCount, Nat.max_eq_right hPositive]
    exact hWords

end Cycle

end StreamSplice.Pipeline
