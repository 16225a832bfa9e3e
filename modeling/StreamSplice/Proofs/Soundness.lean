import StreamSplice.Proofs.Simulation

/-! Soundness of the machine for the layouts it is built from. Whatever the layouts are, a
machine that could be built from them joins the frames of each. -/
namespace StreamSplice.Pipeline

open Layout

/-- Behind a tuple, the words of the tuples after it. -/
theorem behind_queuesOf {wordBytes streamCount tuple : Nat} {frames : List Frame}
    {rest : List (List Frame)} (hStarts : ∀ frame ∈ frames, frame.startOffset < wordBytes)
    (hStreams : frames.length = streamCount)
    (hRest : ∀ frames ∈ rest, frames.length = streamCount) :
    Behind wordBytes frames (queuesOf wordBytes streamCount tuple rest) := by
  refine ⟨hStarts, ?_, ?_⟩
  · rw [hStreams]
    induction rest generalizing tuple with
    | nil => simp [queuesOf]
    | cons head rest ih =>
        rw [List.forall_mem_cons] at hRest
        simp [queuesOf, ih hRest.2, hRest.1]
  · clear hRest
    induction rest generalizing tuple with
    | nil =>
        intro queue hQueue word hWord
        rw [List.eq_of_mem_replicate hQueue] at hWord
        cases hWord
    | cons head rest ih =>
        intro queue hQueue word hWord
        obtain ⟨stream, hStream⟩ := List.mem_iff_getElem?.mp hQueue
        obtain ⟨words, later, hWords, hLater, rfl⟩ := List.getElem?_zipWith_eq_some.mp hStream
        rcases List.mem_append.mp hWord with h | h
        · obtain ⟨⟨frame, index⟩, _, rfl⟩ := List.mem_map.mp (List.mem_of_getElem? hWords)
          exact Frame.length_keep_of_mem_inputWords h
        · exact ih later (List.mem_of_getElem? hLater) word h

/-- The queues of several tuples hold the whole of the first one. -/
theorem queuesOf_cons {wordBytes streamCount tuple : Nat} {frames : List Frame}
    {rest : List (List Frame)}
    (hLater : Behind wordBytes frames (queuesOf wordBytes streamCount (tuple + 1) rest)) :
    queuesOf wordBytes streamCount tuple (frames :: rest) =
      tupleQueues wordBytes tuple frames (queuesOf wordBytes streamCount (tuple + 1) rest) 0 := by
  rw [tupleQueues_zero hLater]
  rfl

/-- The output words that show a layout. A layout without words is shown as a single word
without bytes. -/
def layoutOutput (wordBytes tuple : Nat) (frames : List Frame) (layout : Layout) :
    List OutputWord :=
  let words := if layout.words = [] then [List.replicate wordBytes none] else layout.words
  words.mapIdx fun word cells => outputOf wordBytes tuple frames cells (word + 1 == words.length)

section Layouts

variable {wordBytes offset tuple : Nat} {frames : List Frame}

theorem length_words_tupleLayout :
    (tupleLayout wordBytes offset frames).words.length =
      wordsSpanned wordBytes (offset + byteTotal frames) := by
  rw [tupleLayout, length_words_ofData, length_tupleOrigins]

/-- A word is the last one of its tuple if there is no word after it. -/
theorem isNone_wordStart_succ (hOffset : offset < wordBytes) {word : Nat}
    (hWord : word < cycleCount wordBytes offset frames) :
    (tupleOrigins wordBytes 0 frames)[wordStart wordBytes offset (word + 1)]?.isNone =
      (word + 1 == cycleCount wordBytes offset frames) := by
  have hNext : word + 1 < wordsSpanned wordBytes (offset + byteTotal frames) ↔ _ :=
    lt_wordsSpanned_iff (by omega)
  have hLeast := Nat.le_mul_of_pos_left wordBytes (show 0 < word + 1 by omega)
  rw [Bool.eq_iff_iff, Option.isNone_iff_eq_none, List.getElem?_eq_none_iff, length_tupleOrigins,
    beq_iff_eq]
  simp only [wordStart]
  simp only [cycleCount] at hWord ⊢
  omega

/-- The words that a machine emits for a tuple show its joined layout. -/
theorem map_wordOutput_range (hOffset : offset < wordBytes) :
    (List.range (cycleCount wordBytes offset frames)).map
        (wordOutput wordBytes offset tuple frames) =
      layoutOutput wordBytes tuple frames (tupleLayout wordBytes offset frames) := by
  have hLength : (tupleLayout wordBytes offset frames).words.length = _ :=
    length_words_tupleLayout
  unfold layoutOutput
  rcases Nat.eq_zero_or_pos (wordsSpanned wordBytes (offset + byteTotal frames)) with hNone | hWords
  · rw [hNone] at hLength
    have hData : tupleOrigins wordBytes 0 frames = [] := by
      refine List.eq_nil_of_length_eq_zero ((length_tupleOrigins ..).trans ?_)
      have hFirst : 0 < wordsSpanned wordBytes (offset + byteTotal frames) ↔ _ :=
        lt_wordsSpanned_iff (by omega)
      omega
    rw [cycleCount, hNone, if_pos (List.eq_nil_of_length_eq_zero hLength)]
    simp [wordOutput, outputOf, hData, dataWord_nil]
  · have hCycles : cycleCount wordBytes offset frames =
        wordsSpanned wordBytes (offset + byteTotal frames) := Nat.max_eq_right hWords
    rw [if_neg (List.ne_nil_of_length_pos (by omega))]
    refine List.ext_getElem? fun word => ?_
    dsimp only
    rw [List.getElem?_map, List.getElem?_mapIdx, tupleLayout, getElem?_words_ofData,
      length_tupleOrigins, ← hCycles]
    split
    · next hWord =>
        rw [List.getElem?_range hWord, Option.map_some, Option.map_some, wordOutput,
          isNone_wordStart_succ hOffset hWord, ← tupleLayout, hLength, hCycles]
    · next hWord => rw [List.getElem?_eq_none (by simpa using hWord)]; rfl

end Layouts

section Runs

variable {setting : Setting} {contexts : SortedSet Context} {offset : Nat}

/-- Cycles after cycles. -/
theorem cycles?_add (table : Table) (count more : Nat) (c : Configuration) :
    cycles? table (count + more) c = (cycles? table count c).bind fun (words, middle) =>
      (cycles? table more middle).map fun (rest, final) => (words ++ rest, final) := by
  induction count generalizing c with
  | zero =>
      rw [Nat.zero_add]
      simp [cycles?]
  | succ count ih =>
      rw [Nat.succ_add, cycles?, cycles?]
      cases hCycle : cycle? table c with
      | none => rfl
      | some fired =>
          simp only [Option.bind_eq_bind, Option.bind_some, ih]
          cases cycles? table count fired.2 with
          | none => rfl
          | some run => cases hRest : cycles? table more run.2 <;> simp [hRest]

/-- The machine joins tuples of frames one after the other. -/
theorem cycles?_queuesOf (hSound : Sound setting contexts) {before after : List (List Frame)}
    (hHandles : ∀ frames ∈ before, Handles setting contexts offset frames ∧
      ∀ frame ∈ frames, frame.startOffset < setting.wordBytes)
    (hAfter : ∀ frames ∈ after, frames.length = setting.streamCount) (tuple : Nat) :
    cycles? (Table.ofContexts setting contexts) (cycleTotal setting.wordBytes offset before)
        ⟨0, queuesOf setting.wordBytes setting.streamCount tuple (before ++ after)⟩ =
      some ((before.zipIdx tuple).flatMap fun (frames, index) =>
          (List.range (cycleCount setting.wordBytes offset frames)).map
            (wordOutput setting.wordBytes offset index frames),
        ⟨0, queuesOf setting.wordBytes setting.streamCount (tuple + before.length) after⟩) := by
  induction before generalizing tuple with
  | nil => rfl
  | cons frames before ih =>
      rw [List.forall_mem_cons] at hHandles
      obtain ⟨⟨hFrames, hStarts⟩, hBefore⟩ := hHandles
      have hRest : ∀ frames ∈ before ++ after, frames.length = setting.streamCount := by
        intro frames hMem
        rcases List.mem_append.mp hMem with h | h
        · exact (hBefore frames h).1.streams.symm
        · exact hAfter frames h
      have hLater : Behind setting.wordBytes frames
          (queuesOf setting.wordBytes setting.streamCount (tuple + 1) (before ++ after)) :=
        behind_queuesOf hStarts hFrames.streams.symm hRest
      rw [List.cons_append, queuesOf_cons hLater, cycleTotal, cycles?_add,
        cycles?_tuple hSound hFrames hLater, Option.bind_some]
      dsimp only
      rw [ih hBefore (tuple + 1), Option.map_some, List.zipIdx_cons, List.flatMap_cons,
        List.length_cons, Nat.add_assoc tuple 1, Nat.add_comm 1]

end Runs

section Build

variable {wordBytes streamCount offset : Nat} {layouts : List Layout} {inversion : Inversion}
  {emptiable : List Bool} {table : Table}

/-- Machines that can be built are sound. -/
theorem sound_of_build (hStreams : 0 < streamCount)
    (hTable : Table.build wordBytes streamCount inversion emptiable = .ok table) :
    ∃ contexts, inversion.contexts = .ok contexts ∧
      table = .ofContexts ⟨wordBytes, streamCount, inversion.lookahead, emptiable⟩ contexts ∧
      Sound ⟨wordBytes, streamCount, inversion.lookahead, emptiable⟩ contexts := by
  obtain ⟨hCount, hEmptiable, _, contexts, hContexts, rfl, _, hNone⟩ := Table.build_eq_ok hTable
  refine ⟨contexts, hContexts, rfl, hStreams, ?_, hEmptiable, hNone⟩
  simp [Inversion.lookahead, hCount]

/-- A machine that can be built from layouts joins the frames of each layout that is the join
of frames, one per stream, of which only those are empty that may be: every cycle finds a
transition and emits a word of the layout, the last one flagged as such, and in the end all
input words are consumed. -/
theorem cycles?_of_build (hStreams : 0 < streamCount)
    (hInversion : Inversion.ofLayouts wordBytes layouts streamCount = .ok inversion)
    (hTable : Table.build wordBytes streamCount inversion emptiable = .ok table) :
    (∀ t ∈ table.items, t.outputKeep = t.outputMux.map Option.isSome) ∧
    ∀ layout ∈ layouts, ∀ offset frames, JoinOf wordBytes offset frames layout →
      frames.length = streamCount →
      (∀ (stream : Nat) frame, frames[stream]? = some frame → frame.byteCount = 0 →
        emptiable[stream]? = some true) →
      ∀ tuple, cycles? table (max 1 layout.words.length)
          ⟨0, queuesOf wordBytes streamCount tuple [frames]⟩ =
        some (layoutOutput wordBytes tuple frames layout,
          ⟨0, List.replicate streamCount []⟩) := by
  obtain ⟨contexts, hContexts, rfl, hSound⟩ := sound_of_build hStreams hTable
  refine ⟨fun t ht => Table.outputKeep_of_mem_items ht, ?_⟩
  intro layout hLayout offset frames hJoin hCount hEmptiable tuple
  obtain ⟨hOffset, rfl⟩ := hJoin.eq_tupleLayout
  have hHandles : Handles ⟨wordBytes, streamCount, inversion.lookahead, emptiable⟩ contexts
      offset frames :=
    { offset_lt := hOffset
      streams := hCount.symm
      emptiable := hEmptiable
      known := fun _ hContext =>
        Inversion.mem_contexts_of_tuple hInversion hContexts hOffset hLayout hContext
      reach := fun _ hContext _ hSource =>
        Inversion.stage_le_lookahead hInversion hLayout hContext hSource }
  have hOnly : ∀ other ∈ [frames], Handles ⟨wordBytes, streamCount, inversion.lookahead,
      emptiable⟩ contexts offset other ∧ ∀ frame ∈ other, frame.startOffset < wordBytes := by
    simpa using ⟨hHandles, hJoin.startOffset_lt⟩
  have hNoMore : ∀ other ∈ ([] : List (List Frame)), other.length = streamCount := by simp
  have hRun := cycles?_queuesOf hSound hOnly hNoMore tuple
  rw [length_words_tupleLayout, ← map_wordOutput_range hOffset]
  simpa [cycleTotal, cycleCount, queuesOf] using hRun

/-- Layouts that start at different offsets, some of them from empty frames. -/
def mixedLayouts : List Layout :=
  [tupleLayout 2 0 [⟨1, 0⟩, ⟨2, 0⟩], tupleLayout 2 1 [⟨3, 1⟩, ⟨0, 0⟩],
    tupleLayout 2 1 [⟨0, 0⟩, ⟨0, 0⟩]]

theorem cycles?_of_build_mixedLayouts :
    ∃ inversion table, Inversion.ofLayouts 2 mixedLayouts 2 = .ok inversion ∧
      Table.build 2 2 inversion [true, true] = .ok table ∧
      cycles? table 2 ⟨0, queuesOf 2 2 0 [[⟨3, 1⟩, ⟨0, 0⟩]]⟩ =
        some ([⟨[none, some (some ⟨0, 0, 0⟩)], false⟩,
          ⟨[some (some ⟨0, 0, 1⟩), some (some ⟨0, 0, 2⟩)], true⟩], ⟨0, [[], []]⟩) := by
  have hOk : (Inversion.ofLayouts 2 mixedLayouts 2 >>= fun inversion =>
      Table.build 2 2 inversion [true, true]).isOk = true := by decide +kernel
  cases hBuilt : Inversion.ofLayouts 2 mixedLayouts 2 >>= fun inversion =>
      Table.build 2 2 inversion [true, true] with
  | error e =>
      rw [hBuilt] at hOk
      cases hOk
  | ok table =>
      obtain ⟨inversion, hInversion, hTable⟩ := bind_eq_ok.mp hBuilt
      have hJoin : JoinOf 2 1 [⟨3, 1⟩, ⟨0, 0⟩] (tupleLayout 2 1 [⟨3, 1⟩, ⟨0, 0⟩]) :=
        joinOf_tupleLayout (by decide) (by decide)
      have hEmptiable : ∀ (stream : Nat) (frame : Frame),
          [⟨3, 1⟩, ⟨0, 0⟩][stream]? = some frame → frame.byteCount = 0 →
          [true, true][stream]? = some true := by
        intro stream frame hFrame _
        rcases stream with _ | _ | stream
        · rfl
        · rfl
        · cases hFrame
      exact ⟨inversion, table, hInversion, hTable, (cycles?_of_build (by decide) hInversion
        hTable).2 _ (by simp [mixedLayouts]) 1 _ hJoin rfl hEmptiable 0⟩

end Build

end StreamSplice.Pipeline
