import StreamSplice.Proofs.Fitting
import StreamSplice.Proofs.Masks

/-! Firing the transition of a word. It clears exactly the bytes of the word and skips
exactly the empty frames up to its end, so every queue moves on to the next word. -/
namespace StreamSplice.Pipeline

open Layout

namespace Frame

variable {frame : Frame} {start emitted next : Nat}

theorem front_mono (h : emitted ≤ next) : frame.front start emitted ≤ frame.front start next := by
  simp only [front]
  omega

theorem startOffset_le_front : frame.startOffset ≤ frame.front start emitted :=
  Nat.le_add_right _ _

theorem front_le_endPosition : frame.front start emitted ≤ frame.endPosition := by
  simp only [front, endPosition]
  omega

/-- Whether the word of an empty frame leaves between two numbers of emitted bytes. -/
def Expires (frame : Frame) (start emitted next : Nat) : Prop :=
  frame.byteCount = 0 ∧ start ≤ next ∧ (emitted = 0 ∨ emitted < start)

theorem not_lt_of_expires (h : frame.Expires start emitted next) :
    ¬frame.front start emitted < frame.front start next := by
  simp only [front]
  rw [h.1]
  omega

theorem expires_iff (hCount : frame.byteCount = 0) :
    frame.Expires start emitted next ↔ start ≤ next ∧ (emitted = 0 ∨ emitted < start) := by
  rw [Expires]
  simp [hCount]

variable {wordBytes tuple stream : Nat}

section Consumption

variable {read : Bool} {masks : List (List Bool)} {rest : List InputWord}
  (hNext : emitted < next)
  (hMasks : ∀ (stage : Nat) mask, masks[stage]? = some mask → mask.length = wordBytes)
  (hRest : ∀ w ∈ rest, w.keep.length = wordBytes)
  (hRead : read = true ↔ frame.front start emitted < frame.front start next ∨
    frame.Expires start emitted next)
  (hClears : ∀ (stage : Nat) w mask (byte : Nat) kept,
    (frame.pending wordBytes tuple stream start emitted ++ rest)[stage]? = some w →
    masks[stage]? = some mask → mask[byte]? = some kept → w.keep[byte]? = some true →
    (kept = true ↔ ¬((frame.front start emitted ≤
        (frame.front start emitted / wordBytes + stage) * wordBytes + byte ∧
      (frame.front start emitted / wordBytes + stage) * wordBytes + byte <
        frame.front start next) ∨ stage = 0 ∧ frame.Expires start emitted next)))

include hNext hMasks hRest hRead hClears

/-- The word of an empty frame leaves if its stream is read, and otherwise stays. -/
theorem consume_pending_of_empty (hCount : frame.byteCount = 0) (hPositive : 0 < masks.length) :
    (if read then consume true (frame.pending wordBytes tuple stream start emitted ++ rest) masks
      else frame.pending wordBytes tuple stream start emitted ++ rest) =
      frame.pending wordBytes tuple stream start next ++ rest := by
  have hStill : ∀ e, frame.front start e = frame.startOffset := by
    intro e
    rw [front, hCount, Nat.zero_min, Nat.add_zero]
  simp only [hStill, Nat.lt_irrefl, false_or] at hRead
  by_cases hExpires : frame.Expires start emitted next
  · have hThere : frame.pending wordBytes tuple stream start emitted =
        frame.inputWords wordBytes tuple stream := by
      have hEarlier := hExpires.2.2
      rw [pending, if_pos hCount, if_neg (by omega)]
    have hGone : frame.pending wordBytes tuple stream start next = [] :=
      pending_eq_nil (by omega) (by rw [hCount]; exact hExpires.2.1)
    rw [hThere] at hClears ⊢
    rw [if_pos (hRead.mpr hExpires), hGone, List.nil_append]
    apply consume_empty hCount hPositive hMasks hRest
    intro stage w mask byte kept hWord hMask hBit hByte
    rw [hClears stage w mask byte kept hWord hMask hBit hByte]
    simp only [hStill, hExpires, and_true]
    omega
  · rw [if_neg (hRead.not.mpr hExpires)]
    rw [expires_iff hCount] at hExpires
    congr 1
    rw [pending, pending, if_pos hCount, if_pos hCount]
    split <;> split <;> first | rfl | omega

/-- The words of a frame with bytes lose what is before the next front, if the front moves. -/
theorem consume_pending_of_bytes (hCount : frame.byteCount ≠ 0) (hWidth : 0 < wordBytes)
    (hReach : frame.front start emitted < frame.front start next →
      frame.front start next ≤
        (frame.front start emitted / wordBytes + masks.length) * wordBytes) :
    (if read then consume true (frame.pending wordBytes tuple stream start emitted ++ rest) masks
      else frame.pending wordBytes tuple stream start emitted ++ rest) =
      frame.pending wordBytes tuple stream start next ++ rest := by
  have hNever : ¬frame.Expires start emitted next := fun h => hCount h.1
  simp only [hNever, or_false, and_false] at hRead hClears
  rw [pending, pending, if_neg hCount, if_neg hCount] at *
  rcases Nat.lt_or_ge (frame.front start emitted) (frame.front start next) with hMoves | hStays
  · rw [if_pos (hRead.mpr hMoves)]
    have hEnd : frame.front start next ≤ frame.endPosition := front_le_endPosition
    apply consume_left hWidth startOffset_le_front hMoves hEnd (hReach hMoves) hMasks hRest
    intro stage w mask byte kept hWord hMask hBit hByte
    rw [hClears stage w mask byte kept hWord hMask hBit hByte]
    -- A byte of the frame is in a word of the frame, and if it is left, behind the front.
    refine not_congr ⟨fun h => ⟨?_, h.2⟩, fun h => ⟨?_, h.2⟩⟩
    · have hWordCount : frame.front start emitted / wordBytes + stage <
          frame.wordCount wordBytes := (lt_wordCount_iff hWidth).mpr (by omega)
      omega
    · rw [getElem?_left (by omega) (by omega), Option.some.injEq] at hWord
      rw [← hWord, keep_wordFrom startOffset_le_front, eq_comm, decide_eq_true_eq] at hByte
      exact hByte.2.1
  · rw [if_neg (hRead.not.mpr (Nat.not_lt.mpr hStays)),
      Nat.le_antisymm hStays (front_mono (Nat.le_of_lt hNext))]

/-- Reading and clearing what leaves between two numbers of emitted bytes moves a queue from
one to the other. -/
theorem consume_pending (hWidth : 0 < wordBytes) (hPositive : 0 < masks.length)
    (hReach : frame.front start emitted < frame.front start next →
      frame.front start next ≤
        (frame.front start emitted / wordBytes + masks.length) * wordBytes) :
    (if read then consume true (frame.pending wordBytes tuple stream start emitted ++ rest) masks
      else frame.pending wordBytes tuple stream start emitted ++ rest) =
      frame.pending wordBytes tuple stream start next ++ rest := by
  by_cases hCount : frame.byteCount = 0
  · exact consume_pending_of_empty hNext hMasks hRest hRead hClears hCount hPositive
  · exact consume_pending_of_bytes hNext hMasks hRest hRead hClears hCount hWidth hReach

end Consumption

end Frame

/-- What a transition reads and clears between two numbers of emitted bytes. -/
structure Advances (wordBytes : Nat) (frames : List Frame) (lookahead : List Nat)
    (emitted next : Nat) (read : Nat → Prop) (cleared : Nat → Nat → Nat → Prop) : Prop where
  reads : ∀ stream frame, frames[stream]? = some frame →
    let start := startOf frames stream
    (read stream ↔ frame.front start emitted < frame.front start next ∨
      frame.Expires start emitted next)
  clears : ∀ stream frame, frames[stream]? = some frame →
    let start := startOf frames stream
    let front := frame.front start emitted
    ∀ stage byte, byte < wordBytes → (cleared stream stage byte ↔
      (front ≤ (front / wordBytes + stage) * wordBytes + byte ∧
        (front / wordBytes + stage) * wordBytes + byte < frame.front start next) ∨
      stage = 0 ∧ frame.Expires start emitted next)
  /-- The registers reach as far as the bytes that leave. -/
  reach : ∀ stream frame l, frames[stream]? = some frame → lookahead[stream]? = some l →
    let start := startOf frames stream
    frame.front start emitted < frame.front start next →
    frame.front start next ≤ (frame.front start emitted / wordBytes + (l + 1)) * wordBytes

section Queues

variable {wordBytes tuple emitted next : Nat} {frames : List Frame}
  {later : List (List InputWord)} {lookahead : List Nat} {t : Transition} {read : Nat → Prop}
  {cleared : Nat → Nat → Nat → Prop}

theorem getElem?_advance {queues : List (List InputWord)} {stream : Nat}
    {queue : List InputWord} (h : queues[stream]? = some queue) :
    (advance t queues)[stream]? = some (if t.reads[stream]?.getD false then
      consume true queue (t.keepMasks[stream]?.getD []) else queue) := by
  simp [advance, h]

/-- The masks of a stream, in a transition of the shape of the registers. -/
theorem exists_masks (hShaped : t.Shaped wordBytes lookahead) {stream : Nat}
    (hStream : stream < lookahead.length) :
    ∃ l masks, lookahead[stream]? = some l ∧ t.keepMasks[stream]? = some masks ∧
      masks.length = l + 1 ∧
      ∀ (stage : Nat) mask, masks[stage]? = some mask → mask.length = wordBytes := by
  have hRow := congrArg (fun rows => rows[stream]?) hShaped.keepMasks
  simp only [registerShape, List.getElem?_map, List.getElem?_eq_getElem hStream,
    Option.map_some] at hRow
  obtain ⟨masks, hMasks, hLengths⟩ := Option.map_eq_some_iff.mp hRow
  refine ⟨lookahead[stream], masks, List.getElem?_eq_getElem hStream, hMasks, ?_, ?_⟩
  · simpa using congrArg List.length hLengths
  · intro stage mask hMask
    have hMem : mask.length ∈ masks.map List.length :=
      List.mem_map_of_mem (List.mem_of_getElem? hMask)
    rw [hLengths] at hMem
    exact List.eq_of_mem_replicate hMem

/-- A transition that reads and clears what leaves between two numbers of emitted bytes
moves the queues from one to the other. -/
theorem advance_tupleQueues (hWidth : 0 < wordBytes) (hLater : Behind wordBytes frames later)
    (hShaped : t.Shaped wordBytes lookahead) (hStreams : lookahead.length = frames.length)
    (hNext : emitted < next)
    (hConsumes : t.Consumes
      (registerAt wordBytes (tupleQueues wordBytes tuple frames later emitted)) read cleared)
    (hAdvances : Advances wordBytes frames lookahead emitted next read cleared) :
    advance t (tupleQueues wordBytes tuple frames later emitted) =
      tupleQueues wordBytes tuple frames later next := by
  refine List.ext_getElem? fun stream => ?_
  cases hFrame : frames[stream]? with
  | none =>
      have hBeyond := List.getElem?_eq_none_iff.mp hFrame
      rw [List.getElem?_eq_none (by simpa [advance, length_tupleQueues hLater] using hBeyond),
        List.getElem?_eq_none (by simpa [length_tupleQueues hLater] using hBeyond)]
  | some frame =>
      have hBound := (List.getElem?_eq_some_iff.mp hFrame).1
      obtain ⟨rest, hRest⟩ : ∃ rest, later[stream]? = some rest :=
        ⟨_, List.getElem?_eq_getElem (hLater.streams ▸ hBound)⟩
      obtain ⟨read, hReadAt⟩ : ∃ read, t.reads[stream]? = some read :=
        ⟨_, List.getElem?_eq_getElem (by rw [hShaped.reads]; omega)⟩
      obtain ⟨l, masks, hLookahead, hMasks, hCount, hWidths⟩ :=
        exists_masks hShaped (show stream < lookahead.length by omega)
      have hQueue : (tupleQueues wordBytes tuple frames later emitted)[stream]? = some _ :=
        getElem?_tupleQueues.mpr ⟨frame, rest, hFrame, hRest, rfl⟩
      rw [getElem?_advance hQueue, hReadAt, Option.getD_some, hMasks, Option.getD_some,
        getElem?_tupleQueues.mpr ⟨frame, rest, hFrame, hRest, rfl⟩, Option.some.injEq]
      have hRead := (hConsumes.reads stream read hReadAt).trans
        (hAdvances.reads stream frame hFrame)
      have hReach := hAdvances.reach stream frame l hFrame hLookahead
      rw [← hCount] at hReach
      apply Frame.consume_pending hNext hWidths (hLater.widths rest (List.mem_of_getElem? hRest))
        hRead _ hWidth (by omega) hReach
      intro stage w mask byte kept hWord hMask hBit hByte
      have hWide : byte < wordBytes := by
        rw [← hWidths stage mask hMask]
        exact (List.getElem?_eq_some_iff.mp hBit).1
      rw [← hAdvances.clears stream frame hFrame stage byte hWide]
      refine hConsumes.masks stream stage byte kept
        (Transition.mask?_eq_some.mpr ⟨_, _, hMasks, hMask, hBit⟩) ?_
      rw [registerAt, hQueue, Option.bind_some, hWord]
      exact hByte

end Queues

section Words

variable {wordBytes offset word stream : Nat} {frames : List Frame} {frame : Frame}

/-- The sources of a word name bytes between its start and the start of the next word. -/
theorem exists_presents_of_mem {source : Source}
    (hMem : some source ∈ wordSources (tupleWord wordBytes offset frames word)) :
    ∃ index frame row, wordStart wordBytes offset word ≤ index ∧
      index < wordStart wordBytes offset (word + 1) ∧
      Presents wordBytes frames (wordStart wordBytes offset word) index source frame row := by
  obtain ⟨byte, hSource⟩ := List.mem_iff_getElem?.mp hMem
  obtain ⟨hByte, hData, frame, row, hPresents⟩ := presents_wordSources hSource
  have hSucc : (word + 1) * wordBytes = word * wordBytes + wordBytes := Nat.succ_mul ..
  exact ⟨_, frame, row, by unfold wordStart; omega, by unfold wordStart; omega, hPresents⟩

/-- The selections of a word that belong to a stream name the bytes that leave its queue. -/
theorem exists_selection_iff (hOffset : offset < wordBytes) (hFrame : frames[stream]? = some frame)
    {stage byte : Nat} (hByte : byte < wordBytes) :
    let front := frame.front (startOf frames stream) (wordStart wordBytes offset word)
    (∃ source, some source ∈ wordSources (tupleWord wordBytes offset frames word) ∧
        source.selection = ⟨stream, stage, byte⟩) ↔
      front ≤ (front / wordBytes + stage) * wordBytes + byte ∧
        (front / wordBytes + stage) * wordBytes + byte <
          frame.front (startOf frames stream) (wordStart wordBytes offset (word + 1)) := by
  intro front
  constructor
  · rintro ⟨source, hMem, hSelection⟩
    obtain ⟨index, frame', row, hFrom, hTo, hPresents⟩ := exists_presents_of_mem hMem
    cases hSelection
    obtain rfl := Option.some.inj (hPresents.covers.sent.symm.trans hFrame)
    have hRow : front / wordBytes + source.stage = row := by
      rw [hPresents.stage]
      exact Nat.add_sub_cancel' (hPresents.div_front_le hFrom)
    have hPosition := hPresents.position
    have hLe := hPresents.covers.le
    have hLt := hPresents.covers.lt
    rw [hRow]
    refine ⟨hPresents.front_le hFrom, ?_⟩
    simp only [Frame.front]
    omega
  · rintro ⟨hLe, hLt⟩
    obtain ⟨position, hRow⟩ :
        ∃ position, (front / wordBytes + stage) * wordBytes + byte = position := ⟨_, rfl⟩
    have hFront : front = frame.startOffset +
      min frame.byteCount (wordStart wordBytes offset word - startOf frames stream) := rfl
    rw [hRow] at hLe hLt
    simp only [Frame.front] at hLt
    obtain ⟨index, hIndex⟩ : ∃ index, index = startOf frames stream + (position -
      frame.startOffset) := ⟨_, rfl⟩
    obtain ⟨source, row, hMem, hStream, hPresents⟩ := exists_source_of_covers hOffset
      ⟨hFrame, show startOf frames stream ≤ index by omega, by omega⟩
      (show wordStart wordBytes offset word ≤ index by omega)
      (show index < wordStart wordBytes offset (word + 1) by omega)
    subst hStream
    have hPosition := hPresents.position
    rw [show frame.startOffset + (index - startOf frames source.stream) = position by omega,
      ← hRow] at hPosition
    have hDivision : (row * wordBytes + source.byte) / wordBytes = row ∧
      (row * wordBytes + source.byte) % wordBytes = source.byte := div_mod_of_lt hPresents.inWord
    rw [← hPosition, (div_mod_of_lt hByte).1, (div_mod_of_lt hByte).2] at hDivision
    refine ⟨source, hMem, ?_⟩
    have hStage := hPresents.stage
    rw [← hDivision.1, Nat.add_sub_cancel_left] at hStage
    rw [Source.selection, hStage, ← hDivision.2]

/-- A word takes bytes from a stream exactly if its queue moves. -/
theorem exists_source_iff (hOffset : offset < wordBytes) (hFrame : frames[stream]? = some frame) :
    (∃ source, some source ∈ wordSources (tupleWord wordBytes offset frames word) ∧
        source.stream = stream) ↔
      frame.front (startOf frames stream) (wordStart wordBytes offset word) <
        frame.front (startOf frames stream) (wordStart wordBytes offset (word + 1)) := by
  constructor
  · rintro ⟨source, hMem, rfl⟩
    obtain ⟨_, _, _, _, _, hPresents⟩ := exists_presents_of_mem hMem
    have h := (exists_selection_iff hOffset hFrame hPresents.inWord).mp ⟨source, hMem, rfl⟩
    exact Nat.lt_of_le_of_lt h.1 h.2
  · intro h
    have hDivision := Nat.div_add_mod'
      (frame.front (startOf frames stream) (wordStart wordBytes offset word)) wordBytes
    have hMod := Nat.mod_lt
      (frame.front (startOf frames stream) (wordStart wordBytes offset word))
      (show 0 < wordBytes by omega)
    obtain ⟨source, hMem, hSelection⟩ :=
      (@exists_selection_iff _ _ word _ _ _ hOffset hFrame 0 _ hMod).mpr (by
        rw [Nat.add_zero, hDivision]
        exact ⟨Nat.le_refl _, h⟩)
    exact ⟨source, hMem, congrArg Selection.stream hSelection⟩

/-- If the registers reach the stages of all sources of a word, then they reach as far as the
word takes bytes from a stream: its last one of these has a source. -/
theorem front_le_of_stages {lookahead : List Nat} {l : Nat} (hOffset : offset < wordBytes)
    (hStages : ∀ source, some source ∈ wordSources (tupleWord wordBytes offset frames word) →
      ∃ l, lookahead[source.stream]? = some l ∧ source.stage ≤ l)
    (hFrame : frames[stream]? = some frame) (hLookahead : lookahead[stream]? = some l) :
    let front := frame.front (startOf frames stream) (wordStart wordBytes offset word)
    let next := frame.front (startOf frames stream) (wordStart wordBytes offset (word + 1))
    front < next → next ≤ (front / wordBytes + (l + 1)) * wordBytes := by
  intro front next hMoves
  obtain ⟨last, hLast⟩ : ∃ last, next = last + 1 :=
    ⟨_, (Nat.succ_pred_eq_of_pos (by omega)).symm⟩
  have hWidth : 0 < wordBytes := by omega
  have hRow : front / wordBytes ≤ last / wordBytes := Nat.div_le_div_right (by omega)
  have hPosition := Nat.div_add_mod' last wordBytes
  have hMod := Nat.mod_lt last hWidth
  obtain ⟨source, hMem, hSelection⟩ : ∃ source,
      some source ∈ wordSources (tupleWord wordBytes offset frames word) ∧
        source.selection =
          ⟨stream, last / wordBytes - front / wordBytes, last % wordBytes⟩ := by
    apply (exists_selection_iff hOffset hFrame hMod).mpr
    show front ≤ (front / wordBytes + (last / wordBytes - front / wordBytes)) * wordBytes + _ ∧
      (front / wordBytes + (last / wordBytes - front / wordBytes)) * wordBytes + _ < next
    rw [Nat.add_sub_cancel' hRow, hPosition]
    omega
  obtain ⟨l', hAt, hStage⟩ := hStages source hMem
  simp only [Source.selection, Selection.mk.injEq] at hSelection
  rw [hSelection.1] at hAt
  obtain rfl := Option.some.inj (hLookahead.symm.trans hAt)
  have hReach := Nat.mul_le_mul_right wordBytes
    (show last / wordBytes + 1 ≤ front / wordBytes + (l + 1) by omega)
  rw [Nat.succ_mul] at hReach
  omega

/-- The streams that are skipped after a byte are those whose empty frames start right
behind it. -/
theorem skipsAfter_iff {setting : Setting} {emitted index row : Nat} {source : Source}
    {after : Option Source} {sent : Frame} (hStreams : setting.streamCount = frames.length)
    (h : Presents wordBytes frames emitted index source sent row)
    (hAfter : Follows wordBytes frames index after) (hFrame : frames[stream]? = some frame) :
    setting.SkipsAfter after source stream ↔
      frame.byteCount = 0 ∧ startOf frames stream = index + 1 := by
  constructor
  · rintro ⟨hCloses, hFrom, hTo⟩
    rw [hStreams] at hTo
    exact startOf_of_skipped h hAfter ((closes_iff h hAfter).mp hCloses) hFrame hFrom hTo
  · rintro ⟨hEmpty, hStart⟩
    have hBefore : source.stream < stream := h.covers.lt_stream (by omega)
    have hEnd := startOf_add_le h.covers.sent hBefore
    have hLt := h.covers.lt
    refine ⟨(closes_iff h hAfter).mpr (by omega), hBefore, ?_⟩
    cases hSource : after with
    | none =>
        rw [hStreams]
        exact (List.getElem?_eq_some_iff.mp hFrame).1
    | some a =>
        obtain ⟨_, next, _, hNext⟩ := hAfter.next a hSource
        exact hNext.covers.stream_lt hFrame hEmpty (Nat.le_of_eq hStart)

/-- A word skips the streams whose empty frames lie between two of its bytes, or behind its
last byte. -/
theorem skips_iff {setting : Setting} {first : Origin}
    (hStreams : setting.streamCount = frames.length) (hFrame : frames[stream]? = some frame) :
    let context := tupleContext setting.wordBytes offset frames word first
    setting.Skips context.following context.sources stream ↔ frame.byteCount = 0 ∧
      wordStart setting.wordBytes offset word < startOf frames stream ∧
        startOf frames stream ≤ wordStart setting.wordBytes offset (word + 1) := by
  intro context
  have hSucc : (word + 1) * setting.wordBytes = word * setting.wordBytes + setting.wordBytes :=
    Nat.succ_mul ..
  simp only [wordStart]
  constructor
  · rintro ⟨byte, source, hSource, hSkips⟩
    obtain ⟨hByte, hData, _, row, hPresents⟩ := presents_wordSources hSource
    obtain ⟨hEmpty, hStart⟩ := (skipsAfter_iff hStreams hPresents
      (follows_tupleContext hByte hData) hFrame).mp hSkips
    exact ⟨hEmpty, by omega, by omega⟩
  · rintro ⟨hEmpty, hFrom, hTo⟩
    obtain ⟨byte, hIndex⟩ : ∃ byte,
        word * setting.wordBytes + byte = startOf frames stream - 1 + offset :=
      ⟨startOf frames stream - 1 + offset - word * setting.wordBytes, by omega⟩
    have hByte : byte < setting.wordBytes := by omega
    have hData : offset ≤ word * setting.wordBytes + byte := by omega
    have hBytes := startOf_le_byteTotal frames stream
    obtain ⟨source, sent, row, hSource, hPresents⟩ := exists_source hByte hData
      (show _ < byteTotal frames by omega)
    exact ⟨byte, source, hSource, (skipsAfter_iff hStreams hPresents
      (follows_tupleContext hByte hData) hFrame).mpr ⟨hEmpty, by omega⟩⟩

/-- Before the first byte of a tuple, there are only empty frames. -/
theorem lt_stream_iff {first : Nat} {frame' : Frame} (hFirst : Covers frames first frame' 0)
    (hFrame : frames[stream]? = some frame) :
    stream < first ↔ frame.byteCount = 0 ∧ startOf frames stream = 0 := by
  constructor
  · intro h
    have hLe := hFirst.le
    have := startOf_add_le hFrame h
    omega
  · rintro ⟨hEmpty, hStart⟩
    exact hFirst.stream_lt hFrame hEmpty (Nat.le_of_eq hStart)

end Words

section Transitions

variable {setting : Setting} {offset word tuple : Nat} {frames : List Frame}
  {later : List (List InputWord)} {first : Origin}

theorem wordStart_eq_zero {wordBytes : Nat} (hOffset : offset < wordBytes) :
    wordStart wordBytes offset word = 0 ↔ word = 0 := by
  simp only [wordStart]
  constructor
  · intro h
    rcases Nat.eq_zero_or_pos word with hZero | hPositive
    · exact hZero
    · have := Nat.le_mul_of_pos_left wordBytes hPositive
      omega
  · rintro rfl
    omega

/-- The empty frames that leave with a word are those that it skips, and with the first word
also those of the leading streams. -/
theorem expires_iff_skips (hOffset : offset < setting.wordBytes)
    (hStreams : setting.streamCount = frames.length)
    (hFirst : (tupleOrigins setting.wordBytes 0 frames)[wordStart setting.wordBytes offset
      word]? = some first) {stream : Nat} {frame : Frame} (hFrame : frames[stream]? = some frame) :
    let context := tupleContext setting.wordBytes offset frames word first
    frame.Expires (startOf frames stream) (wordStart setting.wordBytes offset word)
        (wordStart setting.wordBytes offset (word + 1)) ↔
      setting.Skips context.following context.sources stream ∨
        word = 0 ∧ stream < first.stream := by
  intro context
  refine Iff.trans ?_ (or_congr_left (skips_iff hStreams hFrame).symm)
  rw [Frame.Expires, wordStart_eq_zero hOffset]
  by_cases hZero : word = 0
  · subst hZero
    have hStart : wordStart setting.wordBytes offset 0 = 0 := (wordStart_eq_zero hOffset).mpr rfl
    rw [hStart] at hFirst ⊢
    obtain ⟨firstStream, frame', hSent, hLe, hLt, rfl⟩ := getElem?_tupleOrigins.mp hFirst
    have hLeading := lt_stream_iff ⟨hSent, hLe, hLt⟩ hFrame
    show _ ↔ _ ∨ _ ∧ stream < 0 + firstStream
    rw [Nat.zero_add firstStream, hLeading]
    omega
  · simp only [hZero, false_or, false_and, or_false]
    exact and_congr_right fun _ => and_comm

/-- The transition that assembles a word. At the start of a tuple, state 0 skips the streams
before the one that the word starts with. -/
def wordTransition (setting : Setting) (word : Nat) (context : Context) : Transition :=
  if word = 0 then Setting.fromStart context.state (setting.transition context)
  else setting.transition context

variable (hOffset : offset < setting.wordBytes) (hStreams : setting.streamCount = frames.length)
  (hLater : Behind setting.wordBytes frames later)
  (hFirst : (tupleOrigins setting.wordBytes 0 frames)[wordStart setting.wordBytes offset
    word]? = some first)

theorem shaped_wordTransition :
    (wordTransition setting word (tupleContext setting.wordBytes offset frames word first)).Shaped
      setting.wordBytes setting.lookahead := by
  have hShaped := setting.shaped_transition
    (length_sources_dataContext offset word (tupleOrigins setting.wordBytes 0 frames) first)
  simp only [wordTransition]
  split
  · exact Setting.shaped_fromStart _ hShaped
  · exact hShaped

include hOffset hStreams hLater hFirst

/-- The registers meet the guards of the transition of a word. -/
theorem meets_wordTransition :
    (wordTransition setting word (tupleContext setting.wordBytes offset frames word first)).Meets
      (registerAt setting.wordBytes (tupleQueues setting.wordBytes tuple frames later
        (wordStart setting.wordBytes offset word))) := by
  have hMeets : (setting.transition _).Meets (registerAt setting.wordBytes (tupleQueues
      setting.wordBytes tuple frames later (wordStart setting.wordBytes offset word))) :=
    meets_transition_word hOffset hStreams hLater hFirst
  have hShaped := setting.shaped_transition
    (length_sources_dataContext offset word (tupleOrigins setting.wordBytes 0 frames) first)
  simp only [wordTransition]
  split
  · next hZero =>
      subst hZero
      apply Transition.Meets.skipEmpty (t := { setting.transition _ with state := 0 }) hMeets
      intro stream _ hStream
      obtain ⟨firstStream, frame, hSent, hStart, hEnd, rfl⟩ := getElem?_tupleOrigins.mp hFirst
      have hZero : wordStart setting.wordBytes offset 0 = 0 := (wordStart_eq_zero hOffset).mpr rfl
      rw [hZero] at hStart hEnd
      simp only [dataContext, originAt, Nat.zero_add] at hStream
      have hBound : stream < frames.length :=
        Nat.lt_trans hStream (List.getElem?_eq_some_iff.mp hSent).1
      have hFrame := List.getElem?_eq_getElem hBound
      have hEmpty := (lt_stream_iff ⟨hSent, hStart, hEnd⟩ hFrame).mp hStream
      rw [show ({ setting.transition _ with state := 0 } : Transition).outputKeep.length =
        setting.wordBytes from hShaped.outputKeep]
      exact registerAt_emptyFrame hLater hFrame hEmpty.1 (.inl hZero)
  · exact hMeets

omit hOffset hFirst in
/-- The transition of a word reads and clears its bytes and the empty frames it skips. -/
theorem consumes_wordTransition :
    let context := tupleContext setting.wordBytes offset frames word first
    (wordTransition setting word context).Consumes
      (registerAt setting.wordBytes (tupleQueues setting.wordBytes tuple frames later
        (wordStart setting.wordBytes offset word)))
      (fun stream => (∃ source, some source ∈ context.sources ∧ source.stream = stream) ∨
        setting.Skips context.following context.sources stream ∨ word = 0 ∧ stream < first.stream)
      fun stream stage byte =>
        (∃ source, some source ∈ context.sources ∧ source.selection = ⟨stream, stage, byte⟩) ∨
          stage = 0 ∧ (setting.Skips context.following context.sources stream ∨
            word = 0 ∧ stream < first.stream) := by
  intro context
  have hDriven : (setting.driven context).Meets (registerAt setting.wordBytes (tupleQueues
      setting.wordBytes tuple frames later (wordStart setting.wordBytes offset word))) :=
    meets_driven_word hStreams hLater
  have hConsumes := Setting.consumes_enter (Transition.absent_of_meets hDriven)
  have hState : context.state = first.stream := rfl
  by_cases hZero : word = 0
  · rw [wordTransition, if_pos hZero, ← setting.state_transition context, ← setting.enter_start]
    exact (hConsumes 0 context.state).imp (by simp [hZero, hState]) (by simp [hZero, hState])
  · rw [wordTransition, if_neg hZero, ← setting.enter_own]
    exact (hConsumes context.state 0).imp (by simp [hZero]) (by simp [hZero])

omit hLater in
/-- What the transition of a word reads and clears is what leaves with the word. -/
theorem advances_wordTransition
    (hStages : ∀ source,
      some source ∈ (tupleContext setting.wordBytes offset frames word first).sources →
      ∃ l, setting.lookahead[source.stream]? = some l ∧ source.stage ≤ l) :
    let context := tupleContext setting.wordBytes offset frames word first
    Advances setting.wordBytes frames setting.lookahead
      (wordStart setting.wordBytes offset word) (wordStart setting.wordBytes offset (word + 1))
      (fun stream => (∃ source, some source ∈ context.sources ∧ source.stream = stream) ∨
        setting.Skips context.following context.sources stream ∨ word = 0 ∧ stream < first.stream)
      fun stream stage byte =>
        (∃ source, some source ∈ context.sources ∧ source.selection = ⟨stream, stage, byte⟩) ∨
          stage = 0 ∧ (setting.Skips context.following context.sources stream ∨
            word = 0 ∧ stream < first.stream) := by
  intro context
  constructor
  case reads =>
    intro stream frame hFrame
    exact or_congr (exists_source_iff hOffset hFrame)
      (expires_iff_skips hOffset hStreams hFirst hFrame).symm
  case clears =>
    intro stream frame hFrame start front stage byte hByte
    exact or_congr (exists_selection_iff hOffset hFrame hByte)
      (and_congr_right fun _ => (expires_iff_skips hOffset hStreams hFirst hFrame).symm)
  case reach => exact fun stream frame l => front_le_of_stages hOffset hStages

/-- Firing the transition of a word moves the queues on to the next word. -/
theorem advance_wordTransition (hLookahead : setting.lookahead.length = frames.length)
    (hStages : ∀ source,
      some source ∈ (tupleContext setting.wordBytes offset frames word first).sources →
      ∃ l, setting.lookahead[source.stream]? = some l ∧ source.stage ≤ l) :
    advance (wordTransition setting word (tupleContext setting.wordBytes offset frames word first))
        (tupleQueues setting.wordBytes tuple frames later
          (wordStart setting.wordBytes offset word)) =
      tupleQueues setting.wordBytes tuple frames later
        (wordStart setting.wordBytes offset (word + 1)) := by
  refine advance_tupleQueues (by omega) hLater shaped_wordTransition hLookahead ?_
    (consumes_wordTransition hStreams hLater)
    (advances_wordTransition hOffset hStreams hFirst hStages)
  simp only [wordStart]
  rw [Nat.succ_mul]
  omega

end Transitions

section AllEmpty

variable {setting : Setting} {tuple : Nat} {frames : List Frame} {later : List (List InputWord)}
  (hStreams : setting.streamCount = frames.length)
  (hLater : Behind setting.wordBytes frames later) (hBytes : byteTotal frames = 0)

include hStreams hLater hBytes

/-- Empty frames meet the guards of the transition that joins empty frames only. -/
theorem meets_allEmpty :
    setting.allEmpty.Meets
      (registerAt setting.wordBytes (tupleQueues setting.wordBytes tuple frames later 0)) := by
  refine (Transition.meets_idle 0 0 true setting.lookahead
    (length_keep_registerAt (length_keep_of_mem_tupleQueues hLater))).skipEmpty ?_
  intro stream _ hStream
  have hFrame := List.getElem?_eq_getElem (hStreams ▸ hStream)
  rw [Transition.idle, List.length_replicate]
  exact registerAt_emptyFrame hLater hFrame (byteCount_eq_zero hFrame hBytes) (.inl rfl)

/-- The transition that joins empty frames only consumes them all. -/
theorem advance_allEmpty (hWidth : 0 < setting.wordBytes)
    (hLookahead : setting.lookahead.length = frames.length) :
    advance setting.allEmpty (tupleQueues setting.wordBytes tuple frames later 0) = later := by
  have hConsumes := (Transition.consumes_idle 0 0 true setting.wordBytes setting.lookahead
    (registerAt setting.wordBytes (tupleQueues setting.wordBytes tuple frames later 0))).skipEmpty 0
      setting.streamCount
  have hStart : ∀ stream, startOf frames stream = 0 := fun stream =>
    Nat.eq_zero_of_le_zero (hBytes ▸ startOf_le_byteTotal frames stream)
  have hExpires : ∀ stream frame, frames[stream]? = some frame →
      frame.Expires (startOf frames stream) 0 1 ∧ stream < setting.streamCount :=
    fun stream frame hFrame => ⟨⟨byteCount_eq_zero hFrame hBytes, by simp [hStart], .inl rfl⟩,
      hStreams ▸ (List.getElem?_eq_some_iff.mp hFrame).1⟩
  rw [advance_tupleQueues hWidth hLater setting.shaped_allEmpty hLookahead Nat.zero_lt_one
    hConsumes, tupleQueues_of_le hLater Nat.zero_lt_one (by omega)]
  constructor
  case reads =>
    intro stream frame hFrame
    simp [hExpires stream frame hFrame]
  case clears =>
    intro stream frame hFrame start front stage byte _
    have hStill : frame.front start 1 = front := by
      simp only [front, Frame.front]
      rw [byteCount_eq_zero hFrame hBytes, Nat.zero_min, Nat.zero_min]
    have hNone : ¬(front ≤ (front / setting.wordBytes + stage) * setting.wordBytes + byte ∧
        (front / setting.wordBytes + stage) * setting.wordBytes + byte < front) := by
      omega
    rw [hStill]
    simp [hNone, start, hExpires stream frame hFrame]
  case reach =>
    intro stream frame l hFrame _ start hMoves
    exact absurd hMoves (Frame.not_lt_of_expires (hExpires stream frame hFrame).1)

end AllEmpty

end StreamSplice.Pipeline
