import StreamSplice.Proofs.Presentation

/-! Words of a tuple meet the guards of their contexts. The registers show each byte of the
word and the bytes around it, the empty frames that are skipped between two bytes, and
whether the word starts with the rest of an input word. -/
namespace StreamSplice.Pipeline

open Layout

section Contents

variable {wordBytes tuple emitted index row : Nat} {frames : List Frame} {frame : Frame}
  {later : List (List InputWord)} {source : Source}

/-- The source after that of a byte of a tuple, if any, names the next byte. -/
structure Follows (wordBytes : Nat) (frames : List Frame) (index : Nat) (after : Option Source) :
    Prop where
  atLast : after = none → byteTotal frames ≤ index + 1
  next : ∀ a, after = some a →
    ∃ emitted frame row, Presents wordBytes frames emitted (index + 1) a frame row

section Fitting

variable {after : Option Source} (h : Presents wordBytes frames emitted index source frame row)
  (hAfter : Follows wordBytes frames index after)

include h hAfter

/-- A byte is the last one that its stream contributes exactly if it ends its frame. -/
theorem closes_iff : Setting.Closes after source ↔
    index + 1 = startOf frames source.stream + frame.byteCount := by
  have hLe := h.covers.le
  have hLt := h.covers.lt
  constructor
  · intro hCloses
    by_contra hInside
    have hNext : Covers frames source.stream frame (index + 1) :=
      ⟨h.covers.sent, by omega, by omega⟩
    cases hSource : after with
    | none => exact absurd hNext.lt_byteTotal (Nat.not_lt.mpr (hAfter.atLast hSource))
    | some a =>
        obtain ⟨_, _, _, hPresents⟩ := hAfter.next a hSource
        exact hCloses a hSource (hPresents.covers.stream_unique hNext)
  · rintro hLast a hSource hStream
    obtain ⟨_, _, _, hPresents⟩ := hAfter.next a hSource
    have hFrame := hPresents.covers.sent.symm.trans (hStream ▸ h.covers.sent)
    have hEnd := hPresents.covers.lt
    rw [Option.some.inj hFrame, hStream] at hEnd
    omega

/-- The byte after the last one of a stream starts its frame. -/
theorem start_of_follows {a : Source} (hSource : after = some a)
    (hStream : a.stream ≠ source.stream) : index + 1 = startOf frames a.stream := by
  obtain ⟨_, next, _, hPresents⟩ := hAfter.next a hSource
  have hLe := hPresents.covers.le
  by_contra hInside
  have hThis : Covers frames a.stream next index :=
    ⟨hPresents.covers.sent, by omega, by have := hPresents.covers.lt; omega⟩
  exact hStream (hThis.stream_unique h.covers)

/-- A stream between a byte and the next one sends an empty frame, which is still there. -/
theorem startOf_of_skipped (hLast : index + 1 = startOf frames source.stream + frame.byteCount)
    {stream : Nat} {skipped : Frame} (hSkipped : frames[stream]? = some skipped)
    (hFrom : source.stream < stream) (hTo : stream < after.elim frames.length Source.stream) :
    skipped.byteCount = 0 ∧ startOf frames stream = index + 1 := by
  have hStart := startOf_add_le h.covers.sent hFrom
  have hEnd : startOf frames stream + skipped.byteCount ≤ index + 1 := by
    cases hSource : after with
    | none =>
        rw [← startOf_succ hSkipped]
        exact Nat.le_trans (startOf_le_byteTotal frames _) (hAfter.atLast hSource)
    | some a =>
        obtain ⟨_, _, _, hPresents⟩ := hAfter.next a hSource
        rw [hSource, Option.elim_some] at hTo
        exact Nat.le_trans (startOf_add_le hSkipped hTo) hPresents.covers.le
  omega

/-- If the next byte is of the same stream and does not start an input word, then it is the
next one of its input word. -/
theorem byte_of_follows {a : Source} (hSource : after = some a)
    (hStream : a.stream = source.stream) (hByte : source.byte + 1 < wordBytes) :
    a.byte = source.byte + 1 := by
  obtain ⟨_, next, row', hPresents⟩ := hAfter.next a hSource
  have hFrame := hPresents.covers.sent.symm.trans (hStream ▸ h.covers.sent)
  have hPosition := h.position
  have hNext := hPresents.position
  have hLe := h.covers.le
  rw [Option.some.inj hFrame, hStream] at hNext
  have hPlace : row' * wordBytes + a.byte = row * wordBytes + (source.byte + 1) := by omega
  calc a.byte = (row' * wordBytes + a.byte) % wordBytes :=
        (div_mod_of_lt hPresents.inWord).2.symm
    _ = (row * wordBytes + (source.byte + 1)) % wordBytes := by rw [hPlace]
    _ = source.byte + 1 := (div_mod_of_lt hByte).2

/-- The streams between a byte and the next one show an empty frame. -/
theorem registerAt_of_skipped (hLater : Behind wordBytes frames later)
    (hEmitted : emitted ≤ index) (hCloses : Setting.Closes after source) {stream : Nat}
    (hFrom : source.stream < stream) (hTo : stream < after.elim frames.length Source.stream) :
    registerAt wordBytes (tupleQueues wordBytes tuple frames later emitted) stream 0 =
      .emptyFrame wordBytes := by
  have hBound : stream < frames.length := by
    cases hSource : after with
    | none => rwa [hSource] at hTo
    | some a =>
        obtain ⟨_, _, _, hPresents⟩ := hAfter.next a hSource
        rw [hSource, Option.elim_some] at hTo
        exact Nat.lt_trans hTo (List.getElem?_eq_some_iff.mp hPresents.covers.sent).1
  have hSkipped := List.getElem?_eq_getElem hBound
  obtain ⟨hEmpty, hStart⟩ :=
    startOf_of_skipped h hAfter ((closes_iff h hAfter).mp hCloses) hSkipped hFrom hTo
  exact registerAt_emptyFrame hLater hSkipped hEmpty (.inr (by omega))

/-- The next byte is in the register that its source names, if it starts its stream. -/
theorem keep_registerAt_of_follows (hLater : Behind wordBytes frames later)
    (hEmitted : emitted ≤ index) {a : Source} (hSource : after = some a)
    (hStream : a.stream ≠ source.stream) :
    (registerAt wordBytes (tupleQueues wordBytes tuple frames later emitted) a.stream
        a.stage).keep[a.byte]? = some true := by
  have hStart := start_of_follows h hAfter hSource hStream
  obtain ⟨_, next, _, hPresents⟩ := hAfter.next a hSource
  have hNext := hLater.starts next (List.mem_of_getElem? hPresents.covers.sent)
  exact (hPresents.of_start hNext hStart).keep_registerAt_self hLater (by omega)

end Fitting

/-- The registers show each byte of an output word, and the bytes around it, as the guards
of the word require. -/
theorem fits_tupleQueues {setting : Setting} {before after : Option Source} {atEnd : Bool}
    (hStreams : setting.streamCount = frames.length)
    (hLater : Behind setting.wordBytes frames later) (hEmitted : emitted ≤ index)
    (h : Presents setting.wordBytes frames emitted index source frame row)
    (hBefore : (∀ b, before = some b → b.stream ≠ source.stream) →
      index = emitted ∨ index = startOf frames source.stream)
    (hAfter : Follows setting.wordBytes frames index after) :
    setting.Fits (registerAt setting.wordBytes
      (tupleQueues setting.wordBytes tuple frames later emitted)) before after atEnd source := by
  have hInWord := h.inWord
  have hCloses := closes_iff h hAfter
  constructor
  case present => exact h.keep_registerAt_self hLater hEmitted
  case last => exact h.last_registerAt hLater hEmitted
  case first =>
    intro hOpens byte hByte value hValue
    obtain ⟨_, rfl⟩ := (h.keep_registerAt_stage hLater hEmitted).mp hValue
    have hFirst := hBefore hOpens
    have hPosition := h.position
    have hLt := h.covers.lt
    rw [decide_eq_false_iff_not]
    simp only [Frame.front]
    omega
  case skipped =>
    intro hClosed stream hFrom hTo
    rw [hStreams] at hTo
    exact registerAt_of_skipped h hAfter hLater hEmitted hClosed hFrom hTo
  case followed =>
    intro a hSource hStream
    exact keep_registerAt_of_follows h hAfter hLater hEmitted hSource hStream
  case closed =>
    intro hClosed
    have hLast := hCloses.mp hClosed
    exact ⟨h.inLastWord_of_last hLast, fun _ => h.eq_false_of_last hLater hEmitted hLast⟩
  case continued =>
    intro hOpen _
    have hMore := hCloses.not.mp hOpen
    split
    · exact h.keep_registerAt_wrap hLater hEmitted hMore (by omega)
    · have hByte : source.byte + 1 < setting.wordBytes := by omega
      simp only [Setting.Closes, ne_eq, not_forall, not_not] at hOpen
      obtain ⟨a, hSource, hStream⟩ := hOpen
      exact ⟨⟨a, hSource, hStream, byte_of_follows h hAfter hSource hStream hByte⟩,
        h.keep_registerAt_next hLater hEmitted hMore hByte⟩

end Contents

section Words

variable {wordBytes offset word byte tuple : Nat} {frames : List Frame}
  {later : List (List InputWord)} {first : Origin}

/-- The byte that the next output word starts with is read from the first register. -/
theorem presents_following (hWidth : 0 < wordBytes) {index : Nat} {a : Source}
    (hSource : (tupleOrigins wordBytes 0 frames)[index]?.map (fun origin =>
      ⟨origin.stream, 0, origin.byte, origin.inLastWord⟩) = some a) :
    ∃ frame row, Presents wordBytes frames index index a frame row := by
  obtain ⟨origin, hOrigin, rfl⟩ := Option.map_eq_some_iff.mp hSource
  obtain ⟨stream, frame, hFrame, hFrom, hTo, rfl⟩ := getElem?_tupleOrigins.mp hOrigin
  have hFront : frame.front (startOf frames stream) index =
      frame.startOffset + (index - startOf frames stream) := by
    simp only [Frame.front]
    omega
  have hPresents := @presents_of_covers wordBytes _ hWidth stream index index frame
    ⟨hFrame, hFrom, hTo⟩
  simp only [hFront, Nat.sub_self] at hPresents
  simp only [originAt, Nat.zero_add]
  exact ⟨frame, _, hPresents⟩

/-- What stands after a byte of a word, or at the start of the next word, is the next byte. -/
theorem follows_tupleContext (hByte : byte < wordBytes) (hData : offset ≤ word * wordBytes + byte) :
    let context := tupleContext wordBytes offset frames word first
    Follows wordBytes frames (word * wordBytes + byte - offset)
      (context.sources[byte + 1]?.getD context.following) := by
  intro context
  have hIndex : word * wordBytes + (byte + 1) - offset =
      word * wordBytes + byte - offset + 1 := by omega
  rcases Nat.lt_or_ge (byte + 1) wordBytes with hInside | hEnd
  · have hNext : context.sources[byte + 1]? =
        some ((tupleOrigins wordBytes 0 frames)[word * wordBytes + byte - offset + 1]?.map
          (sourceIn (tupleWord wordBytes offset frames word))) := by
      rw [← hIndex]
      show (wordSources _)[byte + 1]? = _
      rw [getElem?_wordSources, if_pos hInside, cellAt, if_neg (by omega)]
    constructor
    · intro hNone
      rw [hNext, Option.getD_some, Option.map_eq_none_iff, List.getElem?_eq_none_iff,
        length_tupleOrigins] at hNone
      exact hNone
    · intro a hSource
      rw [hNext, Option.getD_some] at hSource
      rw [hSource] at hNext
      obtain ⟨_, _, frame, row, hPresents⟩ := presents_wordSources hNext
      exact ⟨_, frame, row, hIndex ▸ hPresents⟩
  · have hNext : context.sources[byte + 1]? = none := by
      show (wordSources _)[byte + 1]? = _
      rw [getElem?_wordSources, if_neg (by omega)]
    have hStart : wordStart wordBytes offset (word + 1) =
        word * wordBytes + byte - offset + 1 := by
      simp only [wordStart]
      rw [Nat.succ_mul]
      omega
    rw [hNext, Option.getD_none]
    show Follows _ _ _ (Option.map _ _)
    rw [hStart]
    constructor
    · intro hNone
      rwa [Option.map_eq_none_iff, List.getElem?_eq_none_iff, length_tupleOrigins] at hNone
    · intro a hSource
      exact ⟨_, presents_following (by omega) hSource⟩

/-- Unless it is the first one, a byte of a word comes after the byte before it. -/
theorem exists_sourceBefore (hByte : byte < wordBytes)
    (hBytes : word * wordBytes + byte - offset < byteTotal frames)
    (hFirst : wordStart wordBytes offset word < word * wordBytes + byte - offset) :
    ∃ b frame row,
      Setting.sourceBefore none (wordSources (tupleWord wordBytes offset frames word)) byte =
        some b ∧
      Presents wordBytes frames (wordStart wordBytes offset word)
        (word * wordBytes + byte - offset - 1) b frame row := by
  simp only [wordStart] at hFirst
  cases byte with
  | zero => omega
  | succ previous =>
      obtain ⟨b, frame, row, hSource, hPresents⟩ := exists_source
        (show previous < wordBytes by omega) (show offset ≤ word * wordBytes + previous by omega)
        (show _ < byteTotal frames by omega)
      refine ⟨b, frame, row, ?_, ?_⟩
      · rw [Setting.sourceBefore, hSource, Option.join_some]
      · rw [show word * wordBytes + (previous + 1) - offset - 1 =
          word * wordBytes + previous - offset by omega]
        exact hPresents

variable {setting : Setting}

/-- The registers show each byte of a word, and the bytes around it, as its guards require. -/
theorem fits_wordSources (hStreams : setting.streamCount = frames.length)
    (hLater : Behind setting.wordBytes frames later) {source : Source}
    (hSource : (wordSources (tupleWord setting.wordBytes offset frames word))[byte]? =
      some (some source)) :
    let context := tupleContext setting.wordBytes offset frames word first
    setting.Fits (registerAt setting.wordBytes (tupleQueues setting.wordBytes tuple frames later
        (wordStart setting.wordBytes offset word)))
      (Setting.sourceBefore none context.sources byte)
      (context.sources[byte + 1]?.getD context.following) (byte + 1 == context.sources.length)
      source := by
  obtain ⟨hByte, hData, frame, row, hPresents⟩ := presents_wordSources hSource
  refine fits_tupleQueues hStreams hLater ?_ hPresents ?_ (follows_tupleContext hByte hData)
  · simp only [wordStart]
    omega
  · intro hOpens
    by_contra hNot
    have hLe := hPresents.covers.le
    have hLt := hPresents.covers.lt
    obtain ⟨b, _, _, hBefore, hPrevious⟩ := exists_sourceBefore hByte
      hPresents.covers.lt_byteTotal (by unfold wordStart at hNot ⊢; omega)
    have hSame : Covers frames source.stream frame
        (word * setting.wordBytes + byte - offset - 1) :=
      ⟨hPresents.covers.sent, by omega, by omega⟩
    exact hOpens b hBefore (hPrevious.covers.stream_unique hSame)

/-- The registers show what the guards on the bytes of a word require. -/
theorem meets_driven_word (hStreams : setting.streamCount = frames.length)
    (hLater : Behind setting.wordBytes frames later) :
    (setting.driven (tupleContext setting.wordBytes offset frames word first)).Meets
      (registerAt setting.wordBytes (tupleQueues setting.wordBytes tuple frames later
        (wordStart setting.wordBytes offset word))) := by
  refine Setting.meets_driven (length_sources_dataContext ..)
    (length_keep_registerAt (length_keep_of_mem_tupleQueues hLater)) fun byte source hSource => ?_
  obtain ⟨_, _, _, _, hPresents⟩ := presents_wordSources hSource
  exact ⟨hPresents.inWord, fits_wordSources hStreams hLater hSource⟩

/-- The first source of a word names its first byte. -/
theorem presents_head_wordSources {source : Source}
    (hHead : ((wordSources (tupleWord wordBytes offset frames word)).filterMap id).head? =
      some source) :
    ∃ frame row, Presents wordBytes frames (wordStart wordBytes offset word)
      (wordStart wordBytes offset word) source frame row := by
  rw [List.head?_filterMap, List.findSome?_eq_some_iff] at hHead
  obtain ⟨earlier, cell, rest, hSources, hCell, hNone⟩ := hHead
  obtain rfl : cell = some source := hCell
  have hSource : (wordSources (tupleWord wordBytes offset frames word))[earlier.length]? =
      some (some source) := by
    rw [hSources, List.getElem?_append_right (Nat.le_refl _), Nat.sub_self]
    rfl
  obtain ⟨hByte, hData, frame, row, hPresents⟩ := presents_wordSources hSource
  rcases Nat.lt_or_ge (wordStart wordBytes offset word)
    (word * wordBytes + earlier.length - offset) with hLater | hFirst
  · -- Another byte of the word would come before the first one.
    obtain ⟨b, _, _, hBefore, _⟩ := exists_sourceBefore hByte hPresents.covers.lt_byteTotal hLater
    cases hLength : earlier.length with
    | zero =>
        rw [hLength] at hBefore
        cases hBefore
    | succ previous =>
        rw [hLength, Setting.sourceBefore, hSources,
          List.getElem?_append_left (by omega)] at hBefore
        have hMem := List.mem_of_getElem? (Option.join_eq_some_iff.mp hBefore)
        cases hNone _ hMem
  · rw [show word * wordBytes + earlier.length - offset = wordStart wordBytes offset word by
      simp only [wordStart] at hFirst ⊢
      omega] at hPresents
    exact ⟨frame, row, hPresents⟩

/-- A byte comes next in an input word exactly if it is not the first byte of its frame, nor
of its input word. -/
theorem precedes_eq (hWidth : 0 < wordBytes) {emitted index row : Nat} {source : Source}
    {frame : Frame} (h : Presents wordBytes frames emitted (index + 1) source frame row)
    {a b : Origin} (ha : (tupleOrigins wordBytes 0 frames)[index]? = some a)
    (hb : (tupleOrigins wordBytes 0 frames)[index + 1]? = some b) :
    a.precedes b = decide (startOf frames source.stream < index + 1 ∧ 0 < source.byte) := by
  have hPosition := h.position
  have hInWord := h.inWord
  rw [precedes_of_successive hWidth ha hb]
  obtain ⟨other, otherFrame, hOther, hFrom, hTo, rfl⟩ := getElem?_tupleOrigins.mp ha
  obtain ⟨stream, frame', hFrame, hStart, hEnd, rfl⟩ := getElem?_tupleOrigins.mp hb
  obtain rfl := h.covers.stream_unique ⟨hFrame, hStart, hEnd⟩
  obtain rfl := Option.some.inj (hFrame.symm.trans h.covers.sent)
  simp only [originAt, Nat.zero_add, hPosition, div_mod_of_lt hInWord]
  by_cases hInside : startOf frames source.stream ≤ index
  · obtain rfl := Covers.stream_unique ⟨hOther, hFrom, hTo⟩ ⟨hFrame, hInside, by omega⟩
    obtain rfl := Option.some.inj (hOther.symm.trans hFrame)
    cases hByte : source.byte with
    | zero => simp
    | succ byte =>
        rw [show otherFrame.startOffset + (index - startOf frames source.stream) =
          row * wordBytes + byte by omega,
          (div_mod_of_lt (show byte < wordBytes by omega)).2]
        have hNotEnd : byte ≠ wordBytes - 1 := by omega
        simp [hNotEnd, Nat.lt_succ_of_le hInside]
  · have hStreams : source.stream ≠ other := by
      rintro rfl
      omega
    have hFresh : ¬startOf frames source.stream < index + 1 := by omega
    simp [beq_eq_false_iff_ne.mpr hStreams, hFresh]

/-- The register of the first byte of a word tells whether the word starts with the rest of
an input word. -/
theorem relict_tupleContext (hOffset : offset < wordBytes) (hLater : Behind wordBytes frames later)
    (hFirst : (tupleOrigins wordBytes 0 frames)[wordStart wordBytes offset word]? = some first)
    {source : Source}
    (hHead : ((wordSources (tupleWord wordBytes offset frames word)).filterMap id).head? =
      some source) :
    (registerAt wordBytes (tupleQueues wordBytes tuple frames later
        (wordStart wordBytes offset word)) source.stream source.stage).relict =
      (tupleContext wordBytes offset frames word first).resumes := by
  obtain ⟨frame, row, h⟩ := presents_head_wordSources hHead
  have hPosition := h.position
  have hLe := h.covers.le
  have hLt := h.covers.lt
  have hEnd := h.lt_endPosition
  have hRelict : decide (startOf frames source.stream < wordStart wordBytes offset word ∧
      0 < source.byte) = (tupleContext wordBytes offset frames word first).resumes := by
    cases word with
    | zero => simp [dataContext, wordStart]
    | succ previous =>
        have hSucc : (previous + 1) * wordBytes = previous * wordBytes + wordBytes :=
          Nat.succ_mul ..
        obtain ⟨index, hIndex⟩ : ∃ index, wordStart wordBytes offset (previous + 1) = index + 1 :=
          ⟨wordStart wordBytes offset (previous + 1) - 1, by unfold wordStart; omega⟩
        have hBound : index < (tupleOrigins wordBytes 0 frames).length := by
          have := h.covers.lt_byteTotal
          rw [length_tupleOrigins]
          omega
        rw [hIndex] at h hFirst
        simp only [dataContext, hIndex, Nat.add_sub_cancel, Nat.succ_pos, decide_true,
          Bool.true_and, List.getElem?_eq_getElem hBound, Option.any_some]
        exact (precedes_eq (by omega) h (List.getElem?_eq_getElem hBound) hFirst).symm
  rw [h.registerAt_stage_eq hLater (Nat.le_refl _), ← hRelict]
  show decide (max frame.startOffset (row * wordBytes) < _) = _
  rw [decide_eq_decide]
  simp only [Frame.front]
  omega

/-- The registers meet all guards of the transition that assembles the word. -/
theorem meets_transition_word (hOffset : offset < setting.wordBytes)
    (hStreams : setting.streamCount = frames.length)
    (hLater : Behind setting.wordBytes frames later)
    (hFirst : (tupleOrigins setting.wordBytes 0 frames)[wordStart setting.wordBytes offset
      word]? = some first) :
    (setting.transition (tupleContext setting.wordBytes offset frames word first)).Meets
      (registerAt setting.wordBytes (tupleQueues setting.wordBytes tuple frames later
        (wordStart setting.wordBytes offset word))) :=
  Setting.meets_transition (meets_driven_word hStreams hLater)
    fun _ hHead => relict_tupleContext hOffset hLater hFirst hHead

end Words

end StreamSplice.Pipeline
