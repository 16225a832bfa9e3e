import StreamSplice.Proofs.Enabling
import StreamSplice.Proofs.Queues

/-! What the registers show of a tuple of frames. Once the output words before a word have
been emitted, each of its bytes is in the register that its source names. -/
namespace StreamSplice.Pipeline

open Layout

/-- What a register shows of the queues. -/
def registerAt (wordBytes : Nat) (queues : List (List InputWord)) (stream stage : Nat) :
    Register :=
  match queues[stream]?.bind (·[stage]?) with
  | some word => word.register
  | none => vacant wordBytes

section Registers

variable {wordBytes : Nat} {queues : List (List InputWord)} {table : Table}

theorem map_length_registers (h : queues.length = table.lookahead.length) :
    (registers table queues).map List.length = table.lookahead.map (· + 1) := by
  apply List.ext_getElem (by simp [registers, Table.registerCounts, h])
  intro stream hRow _
  simp [registers, Table.registerCounts, shown]

theorem registerAt_eq {stream stage : Nat} {row : List Register} {register : Register}
    (hRow : (registers table queues)[stream]? = some row) (hStage : row[stage]? = some register) :
    registerAt table.wordBytes queues stream stage = register := by
  obtain ⟨count, queue, _, hQueue, rfl⟩ := List.getElem?_zipWith_eq_some.mp hRow
  rw [shown, List.getElem?_map] at hStage
  obtain ⟨stage', hStage', rfl⟩ := Option.map_eq_some_iff.mp hStage
  obtain ⟨_, rfl⟩ := List.getElem?_eq_some_iff.mp hStage'
  rw [List.getElem_range]
  cases hWord : queue[stage]? <;> simp [registerAt, hQueue, hWord]

theorem length_keep_registerAt (h : ∀ queue ∈ queues, ∀ word ∈ queue, word.keep.length = wordBytes)
    (stream stage : Nat) : (registerAt wordBytes queues stream stage).keep.length = wordBytes := by
  simp only [registerAt]
  split
  · next word hWord =>
      obtain ⟨queue, hQueue, hWord⟩ := Option.bind_eq_some_iff.mp hWord
      exact h queue (List.mem_of_getElem? hQueue) word (List.mem_of_getElem? hWord)
  · exact List.length_replicate

end Registers

/-- The queues that hold the rest of a tuple, of which `emitted` bytes are gone, and the
words of later tuples behind it. -/
def tupleQueues (wordBytes tuple : Nat) (frames : List Frame) (later : List (List InputWord))
    (emitted : Nat) : List (List InputWord) :=
  List.zipWith (· ++ ·)
    (frames.zipIdx.map fun (frame, stream) =>
      frame.pending wordBytes tuple stream (startOf frames stream) emitted) later

/-- Queues behind a tuple of frames that start in a word. -/
structure Behind (wordBytes : Nat) (frames : List Frame) (later : List (List InputWord)) :
    Prop where
  starts : ∀ frame ∈ frames, frame.startOffset < wordBytes
  streams : later.length = frames.length
  widths : ∀ queue ∈ later, ∀ word ∈ queue, word.keep.length = wordBytes

section Queues

variable {wordBytes tuple stream emitted : Nat} {frames : List Frame} {frame : Frame}
  {later : List (List InputWord)}

theorem getElem?_tupleQueues {queue : List InputWord} :
    (tupleQueues wordBytes tuple frames later emitted)[stream]? = some queue ↔
      ∃ frame rest, frames[stream]? = some frame ∧ later[stream]? = some rest ∧
        queue = frame.pending wordBytes tuple stream (startOf frames stream) emitted ++ rest := by
  rw [tupleQueues, List.getElem?_zipWith_eq_some]
  simp only [List.getElem?_map, List.getElem?_zipIdx, Nat.zero_add, Option.map_map,
    Option.map_eq_some_iff, Function.comp_apply]
  constructor
  · rintro ⟨_, rest, ⟨frame, hFrame, rfl⟩, hRest, rfl⟩
    exact ⟨frame, rest, hFrame, hRest, rfl⟩
  · rintro ⟨frame, rest, hFrame, hRest, rfl⟩
    exact ⟨_, rest, ⟨frame, hFrame, rfl⟩, hRest, rfl⟩

theorem length_tupleQueues (hLater : Behind wordBytes frames later) :
    (tupleQueues wordBytes tuple frames later emitted).length = frames.length := by
  simp [tupleQueues, hLater.streams]

theorem length_keep_of_mem_tupleQueues (hLater : Behind wordBytes frames later) :
    ∀ queue ∈ tupleQueues wordBytes tuple frames later emitted, ∀ word ∈ queue,
      word.keep.length = wordBytes := by
  intro queue hQueue word hWord
  obtain ⟨stream, hStream⟩ := List.mem_iff_getElem?.mp hQueue
  obtain ⟨frame, rest, _, hRest, rfl⟩ := getElem?_tupleQueues.mp hStream
  rcases List.mem_append.mp hWord with h | h
  · exact Frame.length_keep_of_mem_pending h
  · exact hLater.widths rest (List.mem_of_getElem? hRest) word h

/-- Before the first output word, the queues hold all words of the tuple. -/
theorem tupleQueues_zero (hLater : Behind wordBytes frames later) :
    tupleQueues wordBytes tuple frames later 0 =
      List.zipWith (· ++ ·) (frames.zipIdx.map fun (frame, stream) =>
        frame.inputWords wordBytes tuple stream) later := by
  rw [tupleQueues]
  congr 1
  apply List.map_congr_left
  rintro ⟨frame, stream⟩ hMem
  have hFrame := List.mem_zipIdx_iff_getElem?.mp hMem
  exact Frame.pending_zero (hLater.starts frame (List.mem_of_getElem? hFrame))

/-- Once all bytes have been emitted, nothing of the tuple is left. -/
theorem tupleQueues_of_le (hLater : Behind wordBytes frames later) (hEmitted : 0 < emitted)
    (hBytes : byteTotal frames ≤ emitted) :
    tupleQueues wordBytes tuple frames later emitted = later := by
  refine List.ext_getElem? fun stream => ?_
  cases hRest : later[stream]? with
  | none =>
      refine List.getElem?_eq_none ?_
      rw [length_tupleQueues hLater, ← hLater.streams]
      exact List.getElem?_eq_none_iff.mp hRest
  | some rest =>
      obtain ⟨hBound, _⟩ := List.getElem?_eq_some_iff.mp hRest
      have hFrame := List.getElem?_eq_getElem (hLater.streams ▸ hBound)
      refine getElem?_tupleQueues.mpr ⟨_, rest, hFrame, hRest, ?_⟩
      have hEnd := startOf_le_byteTotal frames (stream + 1)
      rw [startOf_succ hFrame] at hEnd
      rw [Frame.pending_eq_nil hEmitted (Nat.le_trans hEnd hBytes), List.nil_append]

end Queues

/-- The frame of a stream holds the byte at an index of its tuple. -/
structure Covers (frames : List Frame) (stream : Nat) (frame : Frame) (index : Nat) : Prop where
  sent : frames[stream]? = some frame
  le : startOf frames stream ≤ index
  lt : index < startOf frames stream + frame.byteCount

namespace Covers

variable {frames : List Frame} {stream other index : Nat} {frame frame' : Frame}

theorem lt_byteTotal (h : Covers frames stream frame index) : index < byteTotal frames := by
  have := h.lt
  rw [← startOf_succ h.sent] at this
  exact Nat.lt_of_lt_of_le this (startOf_le_byteTotal frames _)

/-- A byte belongs to one frame. -/
theorem stream_unique (h : Covers frames stream frame index)
    (h' : Covers frames other frame' index) : stream = other := by
  have := h.le
  have := h.lt
  have := h'.le
  have := h'.lt
  rcases Nat.lt_trichotomy stream other with hLt | hEq | hLt
  · have := startOf_add_le h.sent hLt
    omega
  · exact hEq
  · have := startOf_add_le h'.sent hLt
    omega

/-- Later bytes are of the same stream or of later ones. -/
theorem stream_le {next : Nat} (h : Covers frames stream frame index)
    (h' : Covers frames other frame' next) (hLe : index ≤ next) : stream ≤ other := by
  have hStart := h.le
  have hEnd := h'.lt
  by_contra hEarlier
  have := startOf_add_le h'.sent (Nat.not_le.mp hEarlier)
  omega

/-- A frame that starts behind a byte is of a later stream. -/
theorem lt_stream (h : Covers frames stream frame index)
    (hStart : index < startOf frames other) : stream < other := by
  by_contra hNot
  have hEarlier : startOf frames other ≤ startOf frames stream :=
    startOf_le_of_le (Nat.not_lt.mp hNot)
  have hLe := h.le
  omega

/-- An empty frame that does not start behind a byte is of an earlier stream. -/
theorem stream_lt (h : Covers frames stream frame index) (hFrame : frames[other]? = some frame')
    (hEmpty : frame'.byteCount = 0) (hStart : startOf frames other ≤ index) : other < stream := by
  have hLt := h.lt
  rcases Nat.lt_trichotomy other stream with hBefore | rfl | hBehind
  · exact hBefore
  · rw [Option.some.inj (hFrame.symm.trans h.sent)] at hEmpty
    omega
  · have := startOf_add_le h.sent hBehind
    omega

end Covers

/-- A source names the byte at an index of a tuple, of which `emitted` bytes are gone. The
byte is in word `row` of its frame. -/
structure Presents (wordBytes : Nat) (frames : List Frame) (emitted index : Nat)
    (source : Source) (frame : Frame) (row : Nat) : Prop where
  covers : Covers frames source.stream frame index
  inWord : source.byte < wordBytes
  position : frame.startOffset + (index - startOf frames source.stream) =
    row * wordBytes + source.byte
  stage : source.stage = row - frame.front (startOf frames source.stream) emitted / wordBytes
  last : source.inLastWord = (row == frame.lastWord wordBytes)

section Sources

variable {wordBytes offset word byte : Nat} {frames : List Frame} {source : Source}

theorem getElem?_wordSources {data : List Origin} :
    (wordSources (dataWord wordBytes offset data word))[byte]? =
      if byte < wordBytes then
        some ((cellAt offset data (word * wordBytes + byte)).map
          (sourceIn (dataWord wordBytes offset data word)))
      else none := by
  rw [wordSources, List.getElem?_map, getElem?_dataWord]
  split <;> rfl

/-- A source that is counted from the front of its frame names its byte. -/
theorem presents_of_covers (hWidth : 0 < wordBytes) {stream index emitted : Nat} {frame : Frame}
    (h : Covers frames stream frame index) :
    let position := frame.startOffset + (index - startOf frames stream)
    Presents wordBytes frames emitted index
      ⟨stream, position / wordBytes - frame.front (startOf frames stream) emitted / wordBytes,
        position % wordBytes, position / wordBytes == frame.lastWord wordBytes⟩
      frame (position / wordBytes) :=
  ⟨h, Nat.mod_lt _ hWidth, (Nat.div_add_mod' _ _).symm, rfl, rfl⟩

/-- The least input word that a word takes from a stream is the one around the front. -/
theorem leastWord_tupleWord {stream index : Nat} {frame : Frame}
    (h : Covers frames stream frame index) (hFrom : wordStart wordBytes offset word ≤ index)
    (hTo : index < wordStart wordBytes offset (word + 1)) :
    leastWord (tupleWord wordBytes offset frames word) stream =
      frame.front (startOf frames stream) (wordStart wordBytes offset word) / wordBytes := by
  have hLe := h.le
  have hLt := h.lt
  obtain ⟨first, hFirst⟩ : ∃ first,
      max (wordStart wordBytes offset word) (startOf frames stream) = first := ⟨_, rfl⟩
  have hFront : frame.front (startOf frames stream) (wordStart wordBytes offset word) =
      frame.startOffset + (first - startOf frames stream) := by
    simp only [Frame.front]
    omega
  have hFirstByte : (tupleOrigins wordBytes 0 frames)[first]? =
      some (originAt wordBytes stream (frame.lastWord wordBytes)
        (frame.startOffset + (first - startOf frames stream))) :=
    getElem?_tupleOrigins.mpr
      ⟨stream, frame, h.sent, by omega, by omega, by rw [Nat.zero_add]⟩
  have hEarlier : ∀ i other, wordStart wordBytes offset word ≤ i → i < first →
      (tupleOrigins wordBytes 0 frames)[i]? = some other → other.stream ≠ stream := by
    intro i other hWord hBefore hOther
    obtain ⟨_, _, _, hStart, _, rfl⟩ := getElem?_tupleOrigins.mp hOther
    rintro rfl
    simp only [originAt, Nat.zero_add] at hFirst
    omega
  rw [hFront]
  exact leastWord_dataWord (ordered_tupleOrigins wordBytes 0 frames) hFirstByte (by omega)
    (by omega) hEarlier

/-- The sources of a word of a tuple name its bytes. -/
theorem presents_wordSources
    (hSource : (wordSources (tupleWord wordBytes offset frames word))[byte]? = some (some source)) :
    byte < wordBytes ∧ offset ≤ word * wordBytes + byte ∧ ∃ frame row,
      Presents wordBytes frames (wordStart wordBytes offset word)
        (word * wordBytes + byte - offset) source frame row := by
  rw [getElem?_wordSources] at hSource
  split at hSource
  · next hByte =>
      rw [Option.some.injEq, cellAt] at hSource
      split at hSource
      · cases hSource
      · next hData =>
          obtain ⟨origin, hOrigin, rfl⟩ := Option.map_eq_some_iff.mp hSource
          obtain ⟨stream, frame, hFrame, hStart, hEnd, rfl⟩ := getElem?_tupleOrigins.mp hOrigin
          have hCovers : Covers frames stream frame (word * wordBytes + byte - offset) :=
            ⟨hFrame, hStart, hEnd⟩
          have hFrom : wordStart wordBytes offset word ≤ word * wordBytes + byte - offset := by
            simp only [wordStart]
            omega
          have hTo : word * wordBytes + byte - offset < wordStart wordBytes offset (word + 1) := by
            simp only [wordStart]
            rw [Nat.succ_mul]
            omega
          have hPresents := @presents_of_covers wordBytes frames (by omega) stream _
            (wordStart wordBytes offset word) frame hCovers
          simp only [sourceIn, originAt, Nat.zero_add, leastWord_tupleWord hCovers hFrom hTo]
          exact ⟨hByte, Nat.not_lt.mp hData, frame, _, hPresents⟩
  · cases hSource

/-- Every byte of a word of a tuple has a source. -/
theorem exists_source (hByte : byte < wordBytes) (hData : offset ≤ word * wordBytes + byte)
    (hBytes : word * wordBytes + byte - offset < byteTotal frames) :
    ∃ source frame row,
      (wordSources (tupleWord wordBytes offset frames word))[byte]? = some (some source) ∧
      Presents wordBytes frames (wordStart wordBytes offset word)
        (word * wordBytes + byte - offset) source frame row := by
  rw [← length_tupleOrigins wordBytes 0] at hBytes
  obtain ⟨source, hSource⟩ : ∃ source,
      (wordSources (tupleWord wordBytes offset frames word))[byte]? = some (some source) := by
    rw [getElem?_wordSources, if_pos hByte, cellAt, if_neg (by omega),
      List.getElem?_eq_getElem hBytes, Option.map_some]
    exact ⟨_, rfl⟩
  obtain ⟨_, _, frame, row, hPresents⟩ := presents_wordSources hSource
  exact ⟨source, frame, row, hSource, hPresents⟩

/-- A byte of a stream in a word is among the sources of the word. -/
theorem exists_source_of_covers (hOffset : offset < wordBytes) {stream index : Nat} {frame : Frame}
    (hCovers : Covers frames stream frame index)
    (hFrom : wordStart wordBytes offset word ≤ index)
    (hTo : index < wordStart wordBytes offset (word + 1)) :
    ∃ source row, some source ∈ wordSources (tupleWord wordBytes offset frames word) ∧
      source.stream = stream ∧
      Presents wordBytes frames (wordStart wordBytes offset word) index source frame row := by
  simp only [wordStart] at hFrom hTo
  rw [Nat.succ_mul] at hTo
  obtain ⟨byte, hByte⟩ : ∃ byte, word * wordBytes + byte = index + offset :=
    ⟨index + offset - word * wordBytes, by omega⟩
  have hIndex : word * wordBytes + byte - offset = index := by omega
  have hBound := hCovers.lt_byteTotal
  obtain ⟨source, frame', row, hSource, hPresents⟩ := exists_source
    (show byte < wordBytes by omega) (show offset ≤ word * wordBytes + byte by omega)
    (show _ < byteTotal frames by rwa [hIndex])
  rw [hIndex] at hPresents
  obtain rfl := hCovers.stream_unique hPresents.covers
  obtain rfl := Option.some.inj (hPresents.covers.sent.symm.trans hCovers.sent)
  exact ⟨source, row, List.mem_of_getElem? hSource, rfl, hPresents⟩

end Sources

section Contents

variable {wordBytes tuple emitted index row : Nat} {frames : List Frame} {frame : Frame}
  {later : List (List InputWord)} {source : Source}

/-- The word of a frame at a stage of its queue. -/
theorem wordAt_tupleQueues (hWidth : 0 < wordBytes) (hLater : Behind wordBytes frames later)
    {stream : Nat} (hFrame : frames[stream]? = some frame)
    (hFront : frame.front (startOf frames stream) emitted < frame.endPosition)
    (hRow : frame.front (startOf frames stream) emitted / wordBytes ≤ row)
    (hEnd : row * wordBytes < frame.endPosition) :
    (tupleQueues wordBytes tuple frames later emitted)[stream]?.bind
        (·[row - frame.front (startOf frames stream) emitted / wordBytes]?) =
      some (frame.wordFrom wordBytes tuple stream
        (frame.front (startOf frames stream) emitted) row) := by
  have hBytes : frame.byteCount ≠ 0 := by
    simp only [Frame.front, Frame.endPosition] at hFront
    omega
  have hBound : stream < later.length := by
    rw [hLater.streams]
    exact (List.getElem?_eq_some_iff.mp hFrame).1
  have hQueue : (tupleQueues wordBytes tuple frames later emitted)[stream]? = some _ :=
    getElem?_tupleQueues.mpr ⟨frame, later[stream], hFrame, List.getElem?_eq_getElem hBound, rfl⟩
  rw [hQueue, Option.bind_some, Frame.pending, if_neg hBytes, Frame.getElem?_left hFront (by
      rwa [Nat.add_sub_cancel' hRow, Frame.lt_wordCount_iff hWidth]),
    Nat.add_sub_cancel' hRow]

namespace Presents

variable (h : Presents wordBytes frames emitted index source frame row)

include h

theorem lt_endPosition : row * wordBytes + source.byte < frame.endPosition := by
  have := h.covers.le
  have := h.covers.lt
  have := h.position
  simp only [Frame.endPosition]
  omega

theorem front_le (hEmitted : emitted ≤ index) :
    frame.front (startOf frames source.stream) emitted ≤ row * wordBytes + source.byte := by
  have := h.position
  simp only [Frame.front]
  omega

theorem div_front_le (hEmitted : emitted ≤ index) :
    frame.front (startOf frames source.stream) emitted / wordBytes ≤ row := by
  refine Nat.le_of_lt_succ (Nat.div_lt_of_lt_mul ?_)
  have := h.front_le hEmitted
  have := h.inWord
  rw [Nat.mul_comm, Nat.succ_mul]
  omega

/-- Different bytes are in different places. -/
theorem index_unique {index' row' : Nat} {source' : Source} {frame' : Frame}
    (h' : Presents wordBytes frames emitted index' source' frame' row')
    (hEmitted : emitted ≤ index) (hEmitted' : emitted ≤ index')
    (hSame : source.selection = source'.selection) : index = index' := by
  simp only [Source.selection, Selection.mk.injEq] at hSame
  obtain ⟨hStream, hStage, hByte⟩ := hSame
  have hSent := h'.covers.sent
  rw [← hStream, h.covers.sent] at hSent
  obtain rfl := Option.some.inj hSent
  have hFront := h.div_front_le hEmitted
  have hFront' := h'.div_front_le hEmitted'
  have hLe := h'.covers.le
  have hPosition' := h'.position
  rw [h.stage, h'.stage] at hStage
  rw [← hStream] at hStage hFront' hLe hPosition'
  have hRow : row = row' := by omega
  have hPosition := h.position
  rw [hRow, hByte, ← hPosition'] at hPosition
  have := h.covers.le
  omega

/-- The word at the stage that a source names, or after it. -/
theorem wordAt_eq (hLater : Behind wordBytes frames later) (hEmitted : emitted ≤ index)
    {ahead : Nat} (hAhead : (row + ahead) * wordBytes < frame.endPosition) :
    (tupleQueues wordBytes tuple frames later emitted)[source.stream]?.bind
        (·[source.stage + ahead]?) =
      some (frame.wordFrom wordBytes tuple source.stream
        (frame.front (startOf frames source.stream) emitted) (row + ahead)) := by
  have hInWord := h.inWord
  have hFront := h.front_le hEmitted
  have hRow := h.div_front_le hEmitted
  have hEnd := h.lt_endPosition
  rw [h.stage, ← Nat.sub_add_comm hRow]
  exact wordAt_tupleQueues (by omega) hLater h.covers.sent (by omega) (by omega) hAhead

/-- The register that a source names, or one after it, shows the word of its frame. -/
theorem registerAt_eq (hLater : Behind wordBytes frames later) (hEmitted : emitted ≤ index)
    {ahead : Nat} (hAhead : (row + ahead) * wordBytes < frame.endPosition) :
    registerAt wordBytes (tupleQueues wordBytes tuple frames later emitted) source.stream
        (source.stage + ahead) =
      (frame.wordFrom wordBytes tuple source.stream
        (frame.front (startOf frames source.stream) emitted) (row + ahead)).register := by
  rw [registerAt, h.wordAt_eq hLater hEmitted hAhead]

/-- The register that a source names shows the word of its frame. -/
theorem registerAt_stage_eq (hLater : Behind wordBytes frames later)
    (hEmitted : emitted ≤ index) :
    registerAt wordBytes (tupleQueues wordBytes tuple frames later emitted) source.stream
        source.stage =
      (frame.wordFrom wordBytes tuple source.stream
        (frame.front (startOf frames source.stream) emitted) row).register := by
  have hEnd := h.lt_endPosition
  exact h.registerAt_eq hLater hEmitted
    (show (row + 0) * wordBytes < _ by rw [Nat.add_zero]; omega)

/-- The bytes that the register of a source shows. -/
theorem keep_registerAt (hLater : Behind wordBytes frames later) (hEmitted : emitted ≤ index)
    {ahead byte : Nat} {kept : Bool} (hAhead : (row + ahead) * wordBytes < frame.endPosition) :
    (registerAt wordBytes (tupleQueues wordBytes tuple frames later emitted) source.stream
        (source.stage + ahead)).keep[byte]? = some kept ↔
      byte < wordBytes ∧ kept = decide
        (frame.front (startOf frames source.stream) emitted ≤ (row + ahead) * wordBytes + byte ∧
          (row + ahead) * wordBytes + byte < frame.endPosition) := by
  rw [h.registerAt_eq hLater hEmitted hAhead]
  exact Frame.keep_wordFrom (Nat.le_add_right _ _)

/-- The bytes that the register named by a source shows. -/
theorem keep_registerAt_stage (hLater : Behind wordBytes frames later) (hEmitted : emitted ≤ index)
    {byte : Nat} {kept : Bool} :
    (registerAt wordBytes (tupleQueues wordBytes tuple frames later emitted) source.stream
        source.stage).keep[byte]? = some kept ↔
      byte < wordBytes ∧ kept = decide
        (frame.front (startOf frames source.stream) emitted ≤ row * wordBytes + byte ∧
          row * wordBytes + byte < frame.endPosition) := by
  rw [h.registerAt_stage_eq hLater hEmitted]
  exact Frame.keep_wordFrom (Nat.le_add_right _ _)

/-- A byte is in the register that its source names. -/
theorem keep_registerAt_self (hLater : Behind wordBytes frames later)
    (hEmitted : emitted ≤ index) :
    (registerAt wordBytes (tupleQueues wordBytes tuple frames later emitted) source.stream
        source.stage).keep[source.byte]? = some true := by
  rw [h.keep_registerAt_stage hLater hEmitted]
  exact ⟨h.inWord, (decide_eq_true ⟨h.front_le hEmitted, h.lt_endPosition⟩).symm⟩

/-- The register that a source names is flagged as the source says. -/
theorem last_registerAt (hLater : Behind wordBytes frames later) (hEmitted : emitted ≤ index) :
    (registerAt wordBytes (tupleQueues wordBytes tuple frames later emitted) source.stream
        source.stage).last = source.inLastWord := by
  have hInWord := h.inWord
  have hEnd := h.lt_endPosition
  rw [h.registerAt_stage_eq hLater hEmitted, h.last]
  show (row + 1 == frame.wordCount wordBytes) = _
  rw [Frame.wordCount_eq (by omega) (by omega)]
  simp

/-- A byte stands at the end of its frame exactly if it is the last one of it. -/
theorem endPosition_eq_iff : frame.endPosition = row * wordBytes + source.byte + 1 ↔
    index + 1 = startOf frames source.stream + frame.byteCount := by
  have hPosition := h.position
  have hLe := h.covers.le
  have hLt := h.covers.lt
  simp only [Frame.endPosition]
  omega

/-- Nothing follows the last byte of a frame in its register. -/
theorem eq_false_of_last (hLater : Behind wordBytes frames later) (hEmitted : emitted ≤ index)
    (hLast : index + 1 = startOf frames source.stream + frame.byteCount) {value : Bool}
    (hValue : (registerAt wordBytes (tupleQueues wordBytes tuple frames later emitted)
      source.stream source.stage).keep[source.byte + 1]? = some value) : value = false := by
  obtain ⟨_, rfl⟩ := (h.keep_registerAt_stage hLater hEmitted).mp hValue
  have hEnd := h.endPosition_eq_iff.mpr hLast
  rw [decide_eq_false_iff_not]
  omega

/-- Within an input word, the next byte of a frame is in the same register. -/
theorem keep_registerAt_next (hLater : Behind wordBytes frames later) (hEmitted : emitted ≤ index)
    (hMore : index + 1 ≠ startOf frames source.stream + frame.byteCount)
    (hByte : source.byte + 1 < wordBytes) :
    (registerAt wordBytes (tupleQueues wordBytes tuple frames later emitted) source.stream
        source.stage).keep[source.byte + 1]? = some true := by
  have hFront := h.front_le hEmitted
  have hEnd := h.lt_endPosition
  have hNotEnd := h.endPosition_eq_iff.not.mpr hMore
  rw [h.keep_registerAt_stage hLater hEmitted]
  exact ⟨hByte, (decide_eq_true ⟨by omega, by omega⟩).symm⟩

/-- After the end of an input word, the next byte of a frame is the first one of the next
register. -/
theorem keep_registerAt_wrap (hLater : Behind wordBytes frames later) (hEmitted : emitted ≤ index)
    (hMore : index + 1 ≠ startOf frames source.stream + frame.byteCount)
    (hByte : source.byte + 1 = wordBytes) :
    source.inLastWord = false ∧
      (registerAt wordBytes (tupleQueues wordBytes tuple frames later emitted) source.stream
        (source.stage + 1)).keep[0]? = some true := by
  have hFront := h.front_le hEmitted
  have hEnd := h.lt_endPosition
  have hNotEnd := h.endPosition_eq_iff.not.mpr hMore
  have hSucc : (row + 1) * wordBytes = row * wordBytes + wordBytes := Nat.succ_mul ..
  constructor
  · have hCount : row + 1 < frame.wordCount wordBytes :=
      (Frame.lt_wordCount_iff (by omega)).mpr (by omega)
    rw [Frame.wordCount_eq (by omega) (by omega)] at hCount
    rw [h.last, beq_eq_false_iff_ne]
    omega
  · rw [h.keep_registerAt hLater hEmitted (by omega)]
    exact ⟨by omega, (decide_eq_true ⟨by omega, by omega⟩).symm⟩

/-- The first byte of a frame is in its first word. -/
theorem row_eq_zero (hStart : frame.startOffset < wordBytes)
    (hIndex : index = startOf frames source.stream) : row = 0 := by
  have hPosition := h.position
  rcases Nat.eq_zero_or_pos row with hZero | hPositive
  · exact hZero
  · have := Nat.le_mul_of_pos_left wordBytes hPositive
    omega

/-- So it is in the first stage. -/
theorem stage_eq_zero (hStart : frame.startOffset < wordBytes)
    (hIndex : index = startOf frames source.stream) : source.stage = 0 := by
  rw [h.stage, h.row_eq_zero hStart hIndex, Nat.zero_sub]

/-- It is there whatever has been emitted before. -/
theorem of_start (hStart : frame.startOffset < wordBytes)
    (hIndex : index = startOf frames source.stream) {emitted' : Nat} :
    Presents wordBytes frames emitted' index source frame row := by
  refine { h with stage := ?_ }
  rw [h.stage_eq_zero hStart hIndex, h.row_eq_zero hStart hIndex, Nat.zero_sub]

/-- Whether a byte is the last one of its frame. -/
theorem inLastWord_of_last (hLast : index + 1 = startOf frames source.stream + frame.byteCount) :
    source.inLastWord = true := by
  have hPosition := h.position
  have hLe := h.covers.le
  rw [h.last, beq_iff_eq, Frame.lastWord,
    show frame.startOffset + frame.byteCount - 1 = row * wordBytes + source.byte by omega]
  exact (div_mod_of_lt h.inWord).1.symm

end Presents

/-- The register of the only word of an empty frame. -/
theorem registerAt_emptyFrame (hLater : Behind wordBytes frames later) {stream : Nat}
    (hFrame : frames[stream]? = some frame) (hBytes : frame.byteCount = 0)
    (hNext : emitted = 0 ∨ emitted < startOf frames stream) :
    registerAt wordBytes (tupleQueues wordBytes tuple frames later emitted) stream 0 =
      .emptyFrame wordBytes := by
  have hBound : stream < later.length := by
    rw [hLater.streams]
    exact (List.getElem?_eq_some_iff.mp hFrame).1
  have hQueue : (tupleQueues wordBytes tuple frames later emitted)[stream]? = some _ :=
    getElem?_tupleQueues.mpr ⟨frame, later[stream], hFrame, List.getElem?_eq_getElem hBound, rfl⟩
  rw [registerAt, hQueue, Option.bind_some, Frame.pending, if_pos hBytes, if_neg (by omega),
    Frame.inputWords, if_pos hBytes]
  rfl

end Contents

end StreamSplice.Pipeline
