import StreamSplice.Proofs.ClosedForm
import StreamSplice.Proofs.LayoutSet

/-! Streams out of order. However layouts were joined, the construction of a machine reports the
first byte that is followed by a byte of an earlier stream, and nothing else before it. -/
namespace StreamSplice

open Std Layout

namespace Layout

variable {wordBytes offset : Nat} {data : List Origin} {layout : Layout}

/-- Layouts of single frames, and layouts that are joined of such in any order. -/
inductive Built (wordBytes : Nat) : Layout → Prop
  | place {stream count outputOffset inputOffset : Nat} {layout : Layout}
      (h : place wordBytes stream count outputOffset inputOffset = .ok layout) :
      Built wordBytes layout
  | splice {parts : List Layout} {offset : Nat} {layout : Layout}
      (hParts : ∀ part ∈ parts, Built wordBytes part)
      (h : splice wordBytes parts offset = .ok layout) : Built wordBytes layout

/-- The number of bytes before a place of the output. -/
def bytesBefore (layout : Layout) (place : Nat) : Nat :=
  ((layout.cells.take place).filterMap id).length

/-- Whether a place of the output holds a byte and the next byte is one of an earlier stream. -/
def DescendsAt (layout : Layout) (place : Nat) : Prop :=
  ∃ origin next, layout.cells[place]? = some (some origin) ∧
    layout.data[layout.bytesBefore place + 1]? = some next ∧ next.stream < origin.stream

/-- The bytes of a layout that was built are consecutive, and are bytes of input words. -/
theorem Built.exists_ofData (h : Built wordBytes layout) :
    (∃ offset < wordBytes, layout = ofData wordBytes offset layout.data) ∧
      ∀ origin ∈ layout.data, origin.byte < wordBytes := by
  induction h with
  | place h =>
      obtain ⟨hOffset, hInput, hLayout⟩ := place_eq_ok.mp h
      have hWidth : 0 < wordBytes := by omega
      constructor
      · rcases hLayout with ⟨_, rfl⟩ | ⟨_, _, rfl⟩
        · exact ⟨0, hWidth, congrArg Layout.mk (words_ofCells_nil hWidth).symm⟩
        · exact ⟨_, hOffset, by rw [data_ofData hWidth]⟩
      · rw [Pipeline.data_of_place h]
        intro origin hOrigin
        obtain ⟨position, _, rfl⟩ := List.mem_map.mp hOrigin
        exact Nat.mod_lt _ hWidth
  | splice hParts h ih =>
      obtain ⟨hOffset, rfl⟩ := splice_eq_ok.mp h
      rw [data_ofData (by omega)]
      refine ⟨⟨_, hOffset, rfl⟩, fun origin hOrigin => ?_⟩
      obtain ⟨part, hPart, hOrigin⟩ := List.mem_flatMap.mp hOrigin
      exact (ih part hPart).2 origin hOrigin

section Data

variable (hOffset : offset < wordBytes)

include hOffset

/-- The bytes before a place of consecutive bytes are those that are placed first. -/
theorem bytesBefore_ofData {index : Nat} (hIndex : index ≤ data.length) :
    (ofData wordBytes offset data).bytesBefore (offset + index) = index := by
  have hTake : (List.replicate offset none ++ data.map some).take (offset + index) =
      List.replicate offset none ++ (data.take index).map some := by
    simp [List.take_append, List.map_take]
  rw [bytesBefore, ofData, cells_ofCells (by omega), List.rightpad,
    List.take_append_of_le_length (by simpa using hIndex), hTake, List.filterMap_append,
    List.filterMap_replicate, List.filterMap_map, Function.id_comp, List.filterMap_some]
  simpa using hIndex

/-- Consecutive bytes descend where two of them do that are placed next to each other. -/
theorem descendsAt_ofData_iff {place : Nat} :
    (ofData wordBytes offset data).DescendsAt place ↔ ∃ index origin next,
      place = offset + index ∧ data[index]? = some origin ∧ data[index + 1]? = some next ∧
        next.stream < origin.stream := by
  have hWidth : 0 < wordBytes := by omega
  simp only [DescendsAt, getElem?_cells_ofData_eq_some hWidth, data_ofData hWidth]
  constructor
  · rintro ⟨origin, next, ⟨index, rfl, hOrigin⟩, hNext, hLess⟩
    have hIndex := (List.getElem?_eq_some_iff.mp hOrigin).1
    rw [bytesBefore_ofData hOffset (Nat.le_of_lt hIndex)] at hNext
    exact ⟨index, origin, next, rfl, hOrigin, hNext, hLess⟩
  · rintro ⟨index, origin, next, rfl, hOrigin, hNext, hLess⟩
    have hIndex := (List.getElem?_eq_some_iff.mp hOrigin).1
    refine ⟨origin, next, ⟨index, rfl, hOrigin⟩, ?_, hLess⟩
    rwa [bytesBefore_ofData hOffset (Nat.le_of_lt hIndex)]

end Data

theorem cellAt_eq_some_iff {place : Nat} {origin : Origin} :
    cellAt offset data place = some origin ↔
      ∃ index, place = offset + index ∧ data[index]? = some origin := by
  rw [cellAt]
  split
  · next hBefore =>
      refine iff_of_false (Option.some_ne_none origin).symm ?_
      rintro ⟨index, rfl, _⟩
      omega
  · next hBound =>
      constructor
      · intro hOrigin
        exact ⟨place - offset, by omega, hOrigin⟩
      · rintro ⟨index, rfl, hOrigin⟩
        rwa [Nat.add_sub_cancel_left]

end Layout

namespace Inversion

section Places

variable {wordBytes streamCount offset index word : Nat} {data : List Origin}
  {layouts : List Layout} {inversion : Inversion} {subStates : SubStates} {s : SubState}

/-- The stream of a source of a word is the stream of the byte at its place. -/
theorem map_stream_getElem?_of_sources
    (hSources : s.sources = wordSources (dataWord wordBytes offset data word)) {outputByte : Nat}
    (hByte : outputByte < wordBytes) :
    s.sources[outputByte]?.join.map Source.stream =
      (cellAt offset data (word * wordBytes + outputByte)).map Origin.stream := by
  rw [hSources, wordSources, List.getElem?_map, getElem?_dataWord, if_pos hByte, Option.map_some,
    Option.join_some, Option.map_map]
  rfl

variable (h : ofLayouts wordBytes layouts streamCount = .ok inversion)
  (hStates : inversion.subStates = .ok subStates) (hOffset : offset < wordBytes)
  (hIndex : layouts[index]? = some (ofData wordBytes offset data))

include h hStates hOffset hIndex

/-- The next word starts with the byte at its first place, if there is one. -/
theorem map_stream_following :
    (subStates[(⟨index, word + 1⟩ : WordLabel)]?.bind (·.sources.head?.join)).map Source.stream =
      (cellAt offset data ((word + 1) * wordBytes)).map Origin.stream := by
  have hStart : offset ≤ (word + 1) * wordBytes :=
    (Nat.le_of_lt hOffset).trans (Nat.le_mul_of_pos_left _ (Nat.succ_pos word))
  have hCells := @getElem?_words_succ wordBytes offset data word hOffset
  rw [cellAt, if_neg (Nat.not_lt.mpr hStart)]
  cases hFirst : data[(word + 1) * wordBytes - offset]? with
  | none =>
      rw [wordStart, hFirst, Option.map_none] at hCells
      rw [getElem?_subStates_eq_none h hStates ((wordAt?_of_layout hIndex).trans hCells)]
      rfl
  | some first =>
      rw [wordStart, hFirst, Option.map_some] at hCells
      obtain ⟨next, hNext, hSources⟩ := getElem?_subStates h hStates
        ((wordAt?_of_layout hIndex).trans hCells) (first_mem_dataWord hOffset hFirst)
      have hHead := map_stream_getElem?_of_sources hSources (show 0 < wordBytes by omega)
      rw [Nat.add_zero, cellAt, if_neg (Nat.not_lt.mpr hStart), hFirst] at hHead
      rw [hNext, Option.bind_some, List.head?_eq_getElem?, hHead]

omit hOffset in
/-- The words of consecutive bytes have the sources of their bytes. -/
theorem sources_of_ofData (hFound : subStates[(⟨index, word⟩ : WordLabel)]? = some s) :
    s.sources = wordSources (dataWord wordBytes offset data word) := by
  obtain ⟨cells, hCells, hSources, _⟩ := exists_word_of_subState h hStates hFound
  rw [wordAt?_of_layout hIndex, getElem?_words_ofData] at hCells
  split at hCells
  · cases hCells
    exact hSources
  · cases hCells

/-- After a place of a word comes the next one, in the same word or in the next. -/
theorem map_stream_after (hFound : subStates[(⟨index, word⟩ : WordLabel)]? = some s)
    {outputByte : Nat} (hByte : outputByte < wordBytes) :
    (s.sources[outputByte + 1]?.getD
        (subStates[(⟨index, word + 1⟩ : WordLabel)]?.bind (·.sources.head?.join))).map
          Source.stream =
      (cellAt offset data (word * wordBytes + outputByte + 1)).map Origin.stream := by
  have hSources := sources_of_ofData h hStates hIndex hFound
  have hLength : s.sources.length = wordBytes := by simp [hSources, wordSources, dataWord]
  by_cases hLast : outputByte + 1 < wordBytes
  · have hNext := map_stream_getElem?_of_sources hSources hLast
    rw [List.getElem?_eq_getElem (hLength ▸ hLast)] at hNext ⊢
    exact hNext
  · rw [List.getElem?_eq_none (by omega), Option.getD_none,
      map_stream_following h hStates hOffset hIndex]
    congr 2
    rw [Nat.succ_mul]
    omega

/-- A word shows disorder where its layout descends. -/
theorem disorderAt_iff_descendsAt (hFound : subStates[(⟨index, word⟩ : WordLabel)]? = some s)
    {outputByte : Nat} :
    SubState.DisorderAt (subStates[(⟨index, word + 1⟩ : WordLabel)]?.bind (·.sources.head?.join))
        s.sources outputByte ↔
      outputByte < wordBytes ∧
        (ofData wordBytes offset data).DescendsAt (word * wordBytes + outputByte) := by
  have hSources := sources_of_ofData h hStates hIndex hFound
  have hLength : s.sources.length = wordBytes := by simp [hSources, wordSources, dataWord]
  rw [SubState.DisorderAt, descendsAt_ofData_iff hOffset]
  by_cases hByte : outputByte < wordBytes
  · have hHere := map_stream_getElem?_of_sources hSources hByte
    have hAfter := map_stream_after h hStates hOffset hIndex hFound hByte
    constructor
    · rintro ⟨source, after, hSource, hNext, hLess⟩
      rw [hSource, Option.join_some, Option.map_some, eq_comm, Option.map_eq_some_iff] at hHere
      rw [hNext, Option.map_some, eq_comm, Option.map_eq_some_iff] at hAfter
      obtain ⟨origin, hOrigin, hStream⟩ := hHere
      obtain ⟨next, hNextOrigin, hNextStream⟩ := hAfter
      obtain ⟨position, hPlace, hData⟩ := cellAt_eq_some_iff.mp hOrigin
      obtain ⟨position', hPlace', hNextData⟩ := cellAt_eq_some_iff.mp hNextOrigin
      obtain rfl : position' = position + 1 := by omega
      exact ⟨hByte, position, origin, next, hPlace, hData, hNextData, by omega⟩
    · rintro ⟨_, position, origin, next, hPlace, hData, hNextData, hLess⟩
      rw [cellAt_eq_some_iff.mpr ⟨position, hPlace, hData⟩, Option.map_some,
        Option.map_eq_some_iff] at hHere
      rw [cellAt_eq_some_iff.mpr ⟨position + 1, by omega, hNextData⟩, Option.map_some,
        Option.map_eq_some_iff] at hAfter
      obtain ⟨source, hSource, hStream⟩ := hHere
      obtain ⟨after, hNext, hNextStream⟩ := hAfter
      exact ⟨source, after, Option.join_eq_some_iff.mp hSource, hNext, by omega⟩
  · refine iff_of_false ?_ fun hPlace => hByte hPlace.1
    rintro ⟨source, after, hSource, _⟩
    exact hByte (hLength ▸ (List.getElem?_eq_some_iff.mp hSource).1)

end Places

section Built

variable {wordBytes streamCount : Nat} {layouts : List Layout} {inversion : Inversion}
  {subStates : SubStates} {emptiable : List Bool}

/-- A place of a list of layouts at which the bytes of its layout descend. -/
def Descends (wordBytes : Nat) (layouts : List Layout) (label : WordLabel) (outputByte : Nat) :
    Prop :=
  ∃ layout, layouts[label.layout]? = some layout ∧ outputByte < wordBytes ∧
    layout.DescendsAt (label.word * wordBytes + outputByte)

variable (hBuilt : ∀ layout ∈ layouts, Built wordBytes layout)
  (h : ofLayouts wordBytes layouts streamCount = .ok inversion)

include hBuilt

/-- Some place descends if and only if the bytes of some layout do. -/
theorem exists_descends_iff :
    (∃ label outputByte, Descends wordBytes layouts label outputByte) ↔
      ∃ layout ∈ layouts, ∃ (index : Nat) (origin next : Origin), layout.data[index]? = some origin ∧
        layout.data[index + 1]? = some next ∧ next.stream < origin.stream := by
  constructor
  · rintro ⟨label, outputByte, layout, hLayout, _, hDescends⟩
    have hMem := List.mem_of_getElem? hLayout
    obtain ⟨⟨offset, hOffset, hData⟩, _⟩ := (hBuilt layout hMem).exists_ofData
    rw [hData, descendsAt_ofData_iff hOffset] at hDescends
    obtain ⟨index, origin, next, _, hOrigin, hNext, hLess⟩ := hDescends
    exact ⟨layout, hMem, index, origin, next, hOrigin, hNext, hLess⟩
  · rintro ⟨layout, hMem, index, origin, next, hOrigin, hNext, hLess⟩
    obtain ⟨⟨offset, hOffset, hData⟩, _⟩ := (hBuilt layout hMem).exists_ofData
    obtain ⟨number, hLayout⟩ := List.mem_iff_getElem?.mp hMem
    refine ⟨⟨number, (offset + index) / wordBytes⟩, (offset + index) % wordBytes, layout, hLayout,
      Nat.mod_lt _ (by omega), ?_⟩
    rw [Nat.div_add_mod', hData, descendsAt_ofData_iff hOffset]
    exact ⟨index, origin, next, rfl, hOrigin, hNext, hLess⟩

include h

/-- A word shows disorder where its layout descends. -/
theorem disorderAt_iff_descends (hStates : inversion.subStates = .ok subStates) {label : WordLabel}
    {s : SubState} (hFound : subStates[label]? = some s) {outputByte : Nat} :
    SubState.DisorderAt (subStates[label.next]?.bind (·.sources.head?.join)) s.sources outputByte ↔
      Descends wordBytes layouts label outputByte := by
  obtain ⟨cells, hCells, _⟩ := exists_word_of_subState h hStates hFound
  obtain ⟨layout, hLayout, _⟩ := Option.bind_eq_some_iff.mp hCells
  obtain ⟨⟨offset, hOffset, hData⟩, _⟩ :=
    (hBuilt layout (List.mem_of_getElem? hLayout)).exists_ofData
  have hPlaces := @disorderAt_iff_descendsAt _ _ _ _ _ layout.data _ _ _ _ h hStates hOffset
    (hData ▸ hLayout) hFound outputByte
  rw [← hData] at hPlaces
  refine hPlaces.trans ⟨fun hDescends => ⟨layout, hLayout, hDescends⟩, ?_⟩
  rintro ⟨other, hOther, hDescends⟩
  cases hLayout.symm.trans hOther
  exact hDescends

/-- A place that descends is one of a word with a sub-state. -/
theorem exists_subState_of_descends (hStates : inversion.subStates = .ok subStates)
    {label : WordLabel} {outputByte : Nat}
    (hDescends : Descends wordBytes layouts label outputByte) :
    ∃ s, subStates[label]? = some s := by
  obtain ⟨layout, hLayout, hByte, hDescends⟩ := hDescends
  obtain ⟨⟨offset, hOffset, hData⟩, _⟩ :=
    (hBuilt layout (List.mem_of_getElem? hLayout)).exists_ofData
  rw [hData, descendsAt_ofData_iff hOffset] at hDescends
  obtain ⟨index, origin, _, hPlace, hOrigin, _⟩ := hDescends
  have hBound := (List.getElem?_eq_some_iff.mp hOrigin).1
  have hWord : layout.words[label.word]? =
      some (dataWord wordBytes offset layout.data label.word) := by
    conv => lhs; rw [hData]
    rw [getElem?_words_ofData, if_pos]
    exact (lt_wordsSpanned_iff (by omega)).mpr (by omega)
  have hMem : some origin ∈ dataWord wordBytes offset layout.data label.word :=
    some_mem_dataWord.mpr ⟨outputByte, hByte, by omega,
      by rw [hPlace, Nat.add_sub_cancel_left, hOrigin]⟩
  obtain ⟨s, hFound, _⟩ :=
    getElem?_subStates h hStates ((wordAt?_of_layout hLayout).trans hWord) hMem
  exact ⟨s, hFound⟩

theorem firstDisorder?_eq_some_iff (hStates : inversion.subStates = .ok subStates)
    {label : WordLabel} {s : SubState} (hFound : subStates[label]? = some s) {outputByte : Nat} :
    firstDisorder? subStates label s = some outputByte ↔
      Descends wordBytes layouts label outputByte ∧
        ∀ earlier < outputByte, ¬Descends wordBytes layouts label earlier := by
  rw [firstDisorder?, SubState.disorder?_eq_some_iff]
  simp only [disorderAt_iff_descends hBuilt h hStates hFound, Nat.zero_add, exists_eq_left]

theorem firstDisorder?_eq_none_iff (hStates : inversion.subStates = .ok subStates)
    {label : WordLabel} {s : SubState} (hFound : subStates[label]? = some s) :
    firstDisorder? subStates label s = none ↔
      ∀ outputByte, ¬Descends wordBytes layouts label outputByte := by
  rw [firstDisorder?, SubState.disorder?_eq_none_iff]
  simp only [disorderAt_iff_descends hBuilt h hStates hFound]

/-- The search for contexts fails at the first place that descends. -/
theorem contexts_eq_streamOrder_iff {label : WordLabel} {outputByte : Nat} :
    inversion.contexts = .error (.streamOrder label outputByte) ↔
      Descends wordBytes layouts label outputByte ∧
        ∀ other otherByte, Descends wordBytes layouts other otherByte →
          compare label other = .lt ∨ label = other ∧ outputByte ≤ otherByte := by
  obtain ⟨subStates, hStates⟩ := exists_subStates h
  rw [contexts_eq_error_iff h hStates]
  constructor
  · rintro ⟨label, s, hFound, ⟨outputByte, hFirst, ⟨⟩⟩, hEarlier⟩
    obtain ⟨hDescends, hLeast⟩ :=
      (firstDisorder?_eq_some_iff hBuilt h hStates hFound).mp hFirst
    refine ⟨hDescends, fun other otherByte hOther => ?_⟩
    cases hOrder : compare label other with
    | lt => exact .inl rfl
    | eq =>
        obtain rfl := LawfulEqOrd.eq_of_compare hOrder
        exact .inr ⟨rfl, Nat.not_lt.mp fun hLess => hLeast otherByte hLess hOther⟩
    | gt =>
        obtain ⟨s', hFound'⟩ := exists_subState_of_descends hBuilt h hStates hOther
        have hNone := hEarlier other s' hFound' (OrientedCmp.lt_of_gt hOrder)
        exact absurd hOther
          ((firstDisorder?_eq_none_iff hBuilt h hStates hFound').mp hNone otherByte)
  · rintro ⟨hDescends, hFirst⟩
    obtain ⟨s, hFound⟩ := exists_subState_of_descends hBuilt h hStates hDescends
    refine ⟨label, s, hFound, ⟨outputByte,
      (firstDisorder?_eq_some_iff hBuilt h hStates hFound).mpr ⟨hDescends, ?_⟩, rfl⟩, ?_⟩
    · intro earlier hEarlier hOther
      rcases hFirst label earlier hOther with hLess | ⟨_, hLe⟩
      · simp [ReflOrd.compare_self] at hLess
      · omega
    · intro earlier s' hFound' hEarlier
      rw [firstDisorder?_eq_none_iff hBuilt h hStates hFound']
      intro otherByte hOther
      rcases hFirst earlier otherByte hOther with hLater | ⟨rfl, _⟩
      · simp [OrientedCmp.gt_of_lt hLater] at hEarlier
      · simp [ReflOrd.compare_self] at hEarlier

/-- If some place descends, the search for contexts fails, and for no other reason. -/
theorem exists_contexts_eq_streamOrder {label : WordLabel} {outputByte : Nat}
    (hDescends : Descends wordBytes layouts label outputByte) :
    ∃ label outputByte, inversion.contexts = .error (.streamOrder label outputByte) := by
  obtain ⟨subStates, hStates⟩ := exists_subStates h
  cases hContexts : inversion.contexts with
  | error e =>
      obtain ⟨label, _, _, ⟨outputByte, _, rfl⟩, _⟩ :=
        (contexts_eq_error_iff h hStates).mp hContexts
      exact ⟨label, outputByte, rfl⟩
  | ok contexts =>
      obtain ⟨s, hFound⟩ := exists_subState_of_descends hBuilt h hStates hDescends
      obtain ⟨found, hFoundStates, hEach, _⟩ := contexts_eq_ok hContexts
      cases hStates.symm.trans hFoundStates
      obtain ⟨context, _, hContext⟩ := hEach label s hFound
      have hNone : firstDisorder? subStates label s = none :=
        (SubState.exists_context_iff (exists_state h hStates hFound)
          (exists_nextState h hStates label.next)).mp ⟨context, hContext⟩
      exact absurd hDescends
        ((firstDisorder?_eq_none_iff hBuilt h hStates hFound).mp hNone outputByte)

/-- Every source is a byte of a register. -/
theorem source_in_registers (hStates : inversion.subStates = .ok subStates) {label : WordLabel}
    {s : SubState} (hFound : subStates[label]? = some s) {source : Source}
    (hSource : some source ∈ s.sources) :
    source.stream < streamCount ∧ source.byte < wordBytes ∧
      ∃ stage, inversion.lookahead[source.stream]? = some stage ∧ source.stage ≤ stage := by
  obtain ⟨outputByte, hAt⟩ := List.mem_iff_getElem?.mp hSource
  obtain ⟨cells, hCells, _, _, _, hSources⟩ :=
    (getElem?_subStates_eq_some_iff h hStates).mp hFound
  have hSits := (hSources outputByte source).mp hAt
  obtain ⟨origin, hCell, rfl⟩ := sitsAt_iff.mp hSits
  have hMem := List.mem_of_getElem? hCell
  have hStream := ((ofLayouts_eq_ok h).2.2.1 label cells hCells).2 origin hMem
  obtain ⟨layout, hLayout, hData⟩ := exists_mem_data hCells hMem
  refine ⟨hStream, (hBuilt layout hLayout).exists_ofData.2 origin hData, ?_⟩
  have hTaken : TakenAt layouts origin.stream (sourceIn cells origin).stage :=
    ⟨label, cells, outputByte, _, hCells, hSits, rfl, rfl⟩
  obtain ⟨stage, hStage, ⟨_, hMost⟩ | ⟨hNone, _⟩⟩ := exists_lookahead h hStream
  · exact ⟨stage, hStage, hMost hTaken⟩
  · exact absurd hTaken (hNone _)

end Built

end Inversion

namespace Table

variable {wordBytes streamCount : Nat} {layouts : List Layout} {inversion : Inversion}
  {emptiable : List Bool}

/-- A machine is not built because of streams out of order if and only if its contexts are not
found because of that. -/
theorem build_eq_streamOrder_iff (hStreams : inversion.streamCount = streamCount)
    (hEmptiable : emptiable.length = streamCount) (hWidth : inversion.wordBytes = wordBytes)
    {label : WordLabel} {outputByte : Nat} :
    build wordBytes streamCount inversion emptiable = .error (.streamOrder label outputByte) ↔
      inversion.contexts = .error (.streamOrder label outputByte) := by
  cases hContexts : inversion.contexts with
  | error e => rw [build_eq_error_of_contexts hStreams hEmptiable hWidth hContexts]; simp
  | ok contexts =>
      -- The checks that are left report other violations.
      rw [build_eq hStreams hEmptiable hWidth hContexts]
      refine iff_of_false (fun hError => ?_) nofun
      rcases bind_eq_error.mp hError with hOverlap | ⟨_, _, hError⟩
      · obtain ⟨_, _, _, _, _, _, hOther, _⟩ := requireDeterministic_eq_error hOverlap
        cases hOther
      · rcases bind_eq_error.mp hError with hDead | ⟨_, _, hError⟩
        · rw [requireLive] at hDead
          split at hDead <;> cases hDead
        · cases hError

/-- Streams out of order are reported exactly. A machine for layouts that were joined in any way is
not built because of the order of streams if and only if a byte of some layout is followed by one
of an earlier stream, and the first such byte is reported: no other violation is in its place. The
sources that are looked at on the way are bytes of registers that are there. -/
theorem build_streamOrder_exact (hBuilt : ∀ layout ∈ layouts, Built wordBytes layout)
    (h : Inversion.ofLayouts wordBytes layouts streamCount = .ok inversion)
    (hEmptiable : emptiable.length = streamCount) :
    (∀ label outputByte, build wordBytes streamCount inversion emptiable =
        .error (.streamOrder label outputByte) ↔
      Inversion.Descends wordBytes layouts label outputByte ∧
        ∀ other otherByte, Inversion.Descends wordBytes layouts other otherByte →
          compare label other = .lt ∨ label = other ∧ outputByte ≤ otherByte) ∧
    ((∃ label outputByte, build wordBytes streamCount inversion emptiable =
        .error (.streamOrder label outputByte)) ↔
      ∃ layout ∈ layouts, ∃ (index : Nat) (origin next : Origin),
        layout.data[index]? = some origin ∧ layout.data[index + 1]? = some next ∧
          next.stream < origin.stream) ∧
    ∀ subStates, inversion.subStates = .ok subStates → ∀ (label : WordLabel) s source,
      subStates[label]? = some s → some source ∈ s.sources →
        source.stream < streamCount ∧ source.byte < wordBytes ∧
          ∃ stage, inversion.lookahead[source.stream]? = some stage ∧ source.stage ≤ stage := by
  obtain ⟨hWidth, hStreams, _⟩ := Inversion.ofLayouts_eq_ok h
  have hReported : ∀ label outputByte, build wordBytes streamCount inversion emptiable =
      .error (.streamOrder label outputByte) ↔ _ := fun label outputByte =>
    (build_eq_streamOrder_iff hStreams hEmptiable hWidth).trans
      (Inversion.contexts_eq_streamOrder_iff hBuilt h)
  refine ⟨hReported, ?_, fun subStates hStates label s source hFound hSource =>
    Inversion.source_in_registers hBuilt h hStates hFound hSource⟩
  rw [← Inversion.exists_descends_iff hBuilt]
  constructor
  · rintro ⟨label, outputByte, hError⟩
    exact ⟨label, outputByte, ((hReported label outputByte).mp hError).1⟩
  · rintro ⟨label, outputByte, hDescends⟩
    obtain ⟨first, firstByte, hError⟩ :=
      Inversion.exists_contexts_eq_streamOrder hBuilt h hDescends
    exact ⟨first, firstByte,
      (build_eq_streamOrder_iff hStreams hEmptiable hWidth).mpr hError⟩

/-- A word of the second stream, then a byte of the first one. -/
def secondThenFirst : Layout :=
  ⟨[[some ⟨1, 0, 0, true⟩, some ⟨1, 0, 1, true⟩], [some ⟨0, 0, 0, true⟩, none]]⟩

theorem built_secondThenFirst : Built 2 secondThenFirst := by
  have hSecond : Built 2 ⟨[[some ⟨1, 0, 0, true⟩, some ⟨1, 0, 1, true⟩]]⟩ :=
    .place (show place 2 1 2 0 0 = _ from rfl)
  have hFirst : Built 2 ⟨[[some ⟨0, 0, 0, true⟩, none]]⟩ :=
    .place (show place 2 0 1 0 0 = _ from rfl)
  exact .splice (List.forall_mem_cons.mpr ⟨hSecond, List.forall_mem_singleton.mpr hFirst⟩)
    (show splice 2 _ 0 = _ from rfl)

theorem build_streamOrder_exact_secondThenFirst : ∃ inversion label outputByte,
    Inversion.ofLayouts 2 [secondThenFirst] 2 = .ok inversion ∧
      build 2 2 inversion [false, false] = .error (.streamOrder label outputByte) ∧
      Inversion.Descends 2 [secondThenFirst] label outputByte := by
  have h : Inversion.ofLayouts 2 [secondThenFirst] 2 = .ok _ := rfl
  obtain ⟨hFirst, hReported, _⟩ := @build_streamOrder_exact 2 2 [secondThenFirst] _ [false, false]
    (List.forall_mem_singleton.mpr built_secondThenFirst) h rfl
  obtain ⟨label, outputByte, hError⟩ := hReported.mpr ⟨secondThenFirst, List.mem_cons_self, 1,
    ⟨1, 0, 1, true⟩, ⟨0, 0, 0, true⟩, rfl, rfl, Nat.zero_lt_one⟩
  exact ⟨_, label, outputByte, h, hError, ((hFirst label outputByte).mp hError).1⟩

end Table

end StreamSplice
