import StreamSplice.Proofs.Tuple

/-! Lengthening a frame by a whole word. The bytes before the last word of the frame stay
where they are, and all bytes after its first one move on by a word. A context reaches from
the byte before a word to the byte after it, so a long frame can lose or gain a body word
without any context of its tuple appearing or disappearing. -/
namespace StreamSplice

namespace Layout

section Transfer

variable {wordBytes offset word : Nat} {data other : List Origin} {first : Origin}

theorem wordStart_succ (h : 0 < wordStart wordBytes offset word) :
    wordStart wordBytes offset (word + 1) = wordStart wordBytes offset word + wordBytes := by
  simp only [wordStart] at h ⊢
  rw [Nat.succ_mul]
  omega

/-- A context depends on no byte past the first byte of the next word. -/
theorem dataContext_congr (hOffset : offset < wordBytes)
    (hSame : ∀ index ≤ wordStart wordBytes offset (word + 1), other[index]? = data[index]?) :
    dataContext wordBytes offset other word first =
      dataContext wordBytes offset data word first := by
  have hStart : wordStart wordBytes offset word - 1 ≤ wordStart wordBytes offset (word + 1) := by
    simp only [wordStart]
    rw [Nat.succ_mul]
    omega
  have hCells : dataWord wordBytes offset other word = dataWord wordBytes offset data word := by
    apply List.map_congr_left
    intro byte hByte
    rw [List.mem_range] at hByte
    simp only [cellAt]
    split
    · rfl
    · apply hSame
      simp only [wordStart]
      rw [Nat.succ_mul]
      omega
  rw [dataContext, dataContext, hSame _ (Nat.le_refl _), hSame _ hStart, hCells]

variable {shift : Origin → Origin} {start : Nat}

/-- A context does not depend on the number of words before its bytes. -/
theorem dataContext_shift (amount : Nat → Nat) (hWidth : 0 < wordBytes)
    (hStream : ∀ o, (shift o).stream = o.stream)
    (hWord : ∀ o, (shift o).word = o.word + amount o.stream)
    (hByte : ∀ o, (shift o).byte = o.byte) (hLast : ∀ o, (shift o).inLastWord = o.inLastWord)
    (hMoved : ∀ index, start ≤ index → other[index + wordBytes]? = data[index]?.map shift)
    (hStart : start < wordStart wordBytes offset word) :
    dataContext wordBytes offset other (word + 1) (shift first) =
      dataContext wordBytes offset data word first := by
  have hNext : wordStart wordBytes offset (word + 1) =
      wordStart wordBytes offset word + wordBytes := wordStart_succ (by omega)
  have hNextNext : wordStart wordBytes offset (word + 1 + 1) =
      wordStart wordBytes offset (word + 1) + wordBytes := wordStart_succ (by omega)
  have hCells : dataWord wordBytes offset other (word + 1) =
      (dataWord wordBytes offset data word).map (Option.map shift) := by
    rw [dataWord, dataWord, List.map_map]
    apply List.map_congr_left
    intro byte _
    simp only [wordStart] at hStart hNext
    rw [Nat.succ_mul] at hNext ⊢
    rw [Function.comp_apply, cellAt, cellAt, if_neg (by omega), if_neg (by omega),
      ← hMoved _ (by omega)]
    congr 1
    omega
  have hFollowing : other[wordStart wordBytes offset (word + 1 + 1)]? =
      data[wordStart wordBytes offset (word + 1)]?.map shift := by
    rw [hNextNext, hMoved _ (by omega)]
  have hPrevious : other[wordStart wordBytes offset (word + 1) - 1]? =
      data[wordStart wordBytes offset word - 1]?.map shift := by
    rw [← hMoved _ (by omega), hNext]
    congr 1
    omega
  have hPrecedes : ∀ o, (shift o).precedes (shift first) = o.precedes first := by
    intro o
    simp only [Origin.precedes, hStream, hWord, hByte]
    by_cases hEq : o.stream = first.stream
    · rw [Bool.eq_iff_iff]
      simp only [hEq, Bool.and_eq_true, beq_iff_eq, Nat.add_right_cancel_iff]
    · simp only [beq_eq_false_iff_ne.mpr hEq, Bool.false_and]
  have hPositive : 0 < word := by
    by_contra hZero
    obtain rfl : word = 0 := by omega
    simp [wordStart] at hStart
  rw [dataContext, dataContext, hCells, hFollowing, hPrevious,
    wordSources_map hStream hWord hByte hLast]
  cases data[wordStart wordBytes offset (word + 1)]? <;>
    cases data[wordStart wordBytes offset word - 1]? <;>
      simp [hStream, hByte, hLast, hPrecedes, hPositive]

end Transfer

end Layout

namespace Pipeline

open Layout

/-- A frame that is longer by a whole word. -/
def Frame.lengthened (frame : Frame) (wordBytes : Nat) : Frame :=
  { frame with byteCount := frame.byteCount + wordBytes }

@[simp]
theorem Frame.byteCount_lengthened (frame : Frame) (wordBytes : Nat) :
    (frame.lengthened wordBytes).byteCount = frame.byteCount + wordBytes := rfl

@[simp]
theorem Frame.startOffset_lengthened (frame : Frame) (wordBytes : Nat) :
    (frame.lengthened wordBytes).startOffset = frame.startOffset := rfl

/-- The same byte, with the words of stream `stream` counted from one word earlier on. -/
def shiftWord (stream : Nat) (origin : Origin) : Origin :=
  if origin.stream = stream then { origin with word := origin.word + 1 } else origin

section Lengthened

variable {wordBytes stream index : Nat} {frame : Frame} {before after : List Frame}

theorem lastWord_lengthened (hWidth : 0 < wordBytes) (hCount : 0 < frame.byteCount) :
    (frame.lengthened wordBytes).lastWord wordBytes = frame.lastWord wordBytes + 1 := by
  simp only [Frame.lastWord, Frame.lengthened]
  rw [← Nat.add_div_right _ hWidth]
  congr 1
  omega

theorem tupleOrigins_append (stream : Nat) (before after : List Frame) :
    tupleOrigins wordBytes stream (before ++ after) =
      tupleOrigins wordBytes stream before ++
        tupleOrigins wordBytes (stream + before.length) after := by
  induction before generalizing stream with
  | nil => rfl
  | cons frame rest ih =>
      rw [List.cons_append, tupleOrigins, tupleOrigins, ih, List.append_assoc, List.length_cons,
        Nat.add_right_comm, Nat.add_assoc]

/-- The bytes of a tuple around one of its frames. -/
theorem getElem?_tupleOrigins_around :
    (tupleOrigins wordBytes 0 (before ++ frame :: after))[index]? =
      if index < byteTotal before then (tupleOrigins wordBytes 0 before)[index]?
      else if index - byteTotal before < frame.byteCount then
        some (originAt wordBytes before.length (frame.lastWord wordBytes)
          (frame.startOffset + (index - byteTotal before)))
      else (tupleOrigins wordBytes (before.length + 1) after)[index - byteTotal before -
        frame.byteCount]? := by
  rw [tupleOrigins_append, List.getElem?_append, length_tupleOrigins, Nat.zero_add, tupleOrigins,
    List.getElem?_append, frame.length_origins, frame.getElem?_origins]
  split
  · rfl
  · split <;> rfl

/-- The bytes before the last word of the frame stay. -/
theorem getElem?_lengthened (hWidth : 0 < wordBytes) (hCount : 0 < frame.byteCount)
    (h : index < byteTotal before + (frame.lastWord wordBytes * wordBytes - frame.startOffset)) :
    (tupleOrigins wordBytes 0 (before ++ frame.lengthened wordBytes :: after))[index]? =
      (tupleOrigins wordBytes 0 (before ++ frame :: after))[index]? := by
  have hLast : frame.lastWord wordBytes * wordBytes ≤ frame.startOffset + frame.byteCount - 1 :=
    Nat.div_mul_le_self ..
  rw [getElem?_tupleOrigins_around, getElem?_tupleOrigins_around, lastWord_lengthened hWidth hCount]
  split
  · rfl
  · have hWord : (frame.startOffset + (index - byteTotal before)) / wordBytes <
        frame.lastWord wordBytes := by
      rw [Nat.div_lt_iff_lt_mul hWidth]
      omega
    rw [Frame.byteCount_lengthened, if_pos (by omega), if_pos (by omega)]
    simp [originAt, Nat.ne_of_lt hWord, Nat.ne_of_lt (Nat.lt_succ_of_lt hWord)]

/-- The bytes from the first byte of the frame on move by a word. -/
theorem getElem?_lengthened_add (hWidth : 0 < wordBytes) (hCount : 0 < frame.byteCount)
    (h : byteTotal before ≤ index) :
    (tupleOrigins wordBytes 0 (before ++ frame.lengthened wordBytes :: after))[index + wordBytes]? =
      (tupleOrigins wordBytes 0 (before ++ frame :: after))[index]?.map
        (shiftWord before.length) := by
  rw [getElem?_tupleOrigins_around, getElem?_tupleOrigins_around, lastWord_lengthened hWidth hCount,
    if_neg (show ¬index + wordBytes < byteTotal before by omega),
    if_neg (show ¬index < byteTotal before by omega), Frame.byteCount_lengthened,
    Frame.startOffset_lengthened]
  by_cases hFrame : index - byteTotal before < frame.byteCount
  · rw [if_pos hFrame, if_pos (by omega), Option.map_some,
      show frame.startOffset + (index + wordBytes - byteTotal before) =
        frame.startOffset + (index - byteTotal before) + wordBytes by omega]
    simp [originAt, shiftWord, Nat.add_div_right _ hWidth]
  · rw [if_neg hFrame, if_neg (by omega),
      show index + wordBytes - byteTotal before - (frame.byteCount + wordBytes) =
        index - byteTotal before - frame.byteCount by omega]
    cases hOrigin : (tupleOrigins wordBytes (before.length + 1) after)[index - byteTotal before -
        frame.byteCount]? with
    | none => rfl
    | some origin =>
        have hStream := le_stream_of_mem (List.mem_of_getElem? hOrigin)
        rw [Option.map_some, shiftWord, if_neg (by omega)]

variable {offset : Nat} {context : Context}

/-- The context of a word that ends before the last word of the frame. -/
theorem tupleContext_lengthened (hOffset : offset < wordBytes) (hCount : 0 < frame.byteCount)
    {word : Nat} {first : Origin} (h : wordStart wordBytes offset (word + 1) < byteTotal before +
      (frame.lastWord wordBytes * wordBytes - frame.startOffset)) :
    tupleContext wordBytes offset (before ++ frame.lengthened wordBytes :: after) word first =
      tupleContext wordBytes offset (before ++ frame :: after) word first :=
  dataContext_congr hOffset fun _ hIndex =>
    getElem?_lengthened (by omega) hCount (Nat.lt_of_le_of_lt hIndex h)

/-- The context of a word that starts after the first byte of the frame. -/
theorem tupleContext_lengthened_succ (hWidth : 0 < wordBytes) (hCount : 0 < frame.byteCount)
    {word : Nat} {first : Origin} (h : byteTotal before < wordStart wordBytes offset word) :
    tupleContext wordBytes offset (before ++ frame.lengthened wordBytes :: after) (word + 1)
        (shiftWord before.length first) =
      tupleContext wordBytes offset (before ++ frame :: after) word first := by
  have hShift : ∀ o, (shiftWord before.length o).stream = o.stream ∧
      (shiftWord before.length o).word = o.word + (if o.stream = before.length then 1 else 0) ∧
      (shiftWord before.length o).byte = o.byte ∧
      (shiftWord before.length o).inLastWord = o.inLastWord := by
    intro o
    simp only [shiftWord]
    split <;> simp_all
  exact dataContext_shift (fun stream => if stream = before.length then 1 else 0) hWidth
    (fun o => (hShift o).1) (fun o => (hShift o).2.1)
    (fun o => (hShift o).2.2.1) (fun o => (hShift o).2.2.2)
    (fun index => getElem?_lengthened_add hWidth hCount) h

/-- A frame that spans more than two words can be lengthened: no context is lost. -/
theorem hasContext_lengthened (hOffset : offset < wordBytes)
    (hStart : frame.startOffset < wordBytes)
    (hLong : 2 * wordBytes < frame.startOffset + frame.byteCount)
    (h : (tupleLayout wordBytes offset (before ++ frame :: after)).HasContext context) :
    (tupleLayout wordBytes offset
      (before ++ frame.lengthened wordBytes :: after)).HasContext context := by
  have hLast : 2 * wordBytes ≤ frame.lastWord wordBytes * wordBytes :=
    Nat.mul_le_mul_right _ ((Nat.le_div_iff_mul_le (by omega)).mpr (by omega))
  rw [hasContext_tupleLayout_iff hOffset] at h ⊢
  obtain ⟨word, first, hFirst, rfl⟩ := h
  rcases Nat.lt_or_ge (byteTotal before) (wordStart wordBytes offset word) with hAfter | hBefore
  · refine ⟨word + 1, shiftWord before.length first, ?_,
      tupleContext_lengthened_succ (by omega) (by omega) hAfter⟩
    rw [wordStart_succ (by omega), getElem?_lengthened_add (by omega) (by omega) (by omega),
      hFirst, Option.map_some]
  · have hNext : wordStart wordBytes offset (word + 1) ≤ byteTotal before + wordBytes := by
      simp only [wordStart] at hBefore ⊢
      rw [Nat.succ_mul]
      omega
    refine ⟨word, first, ?_, tupleContext_lengthened hOffset (by omega) (by omega)⟩
    rw [getElem?_lengthened (by omega) (by omega) (by omega), hFirst]

/-- The last word of a long frame starts more than two words after the start of the word that
its first byte is placed in, wherever in the word that is. -/
theorem two_words_lt_lastWord {position : Nat} (hPosition : position < wordBytes)
    (hStart : frame.startOffset < wordBytes)
    (hLong : 3 * wordBytes < max position frame.startOffset + frame.byteCount) :
    frame.startOffset + 2 * wordBytes < position + frame.lastWord wordBytes * wordBytes := by
  have hWidth : 0 < wordBytes := by omega
  have hRest := Nat.div_add_mod' (frame.startOffset + frame.byteCount - 1) wordBytes
  have hFill := Nat.mod_lt (frame.startOffset + frame.byteCount - 1) hWidth
  change frame.lastWord wordBytes * wordBytes + _ = _ at hRest
  rcases Nat.le_total position frame.startOffset with hLe | hLe
  · have hThree : 3 * wordBytes ≤ frame.lastWord wordBytes * wordBytes :=
      Nat.mul_le_mul_right _ ((Nat.le_div_iff_mul_le hWidth).mpr (by omega))
    omega
  · omega

/-- A frame of more than three words can also be shortened again: no context is new. The
words are counted from the start of the first input or output word of the frame, whichever
leaves more of it unused. -/
theorem hasContext_of_lengthened (hOffset : offset < wordBytes)
    (hStart : frame.startOffset < wordBytes)
    (hLong : 3 * wordBytes <
      max ((offset + byteTotal before) % wordBytes) frame.startOffset + frame.byteCount)
    (h : (tupleLayout wordBytes offset
      (before ++ frame.lengthened wordBytes :: after)).HasContext context) :
    (tupleLayout wordBytes offset (before ++ frame :: after)).HasContext context := by
  have hWidth : 0 < wordBytes := by omega
  have hPosition : (offset + byteTotal before) % wordBytes < wordBytes := Nat.mod_lt _ hWidth
  obtain ⟨row, hRow⟩ : ∃ row, row * wordBytes + (offset + byteTotal before) % wordBytes =
      offset + byteTotal before := ⟨_, Nat.div_add_mod' _ _⟩
  have hLast := two_words_lt_lastWord hPosition hStart hLong
  rw [hasContext_tupleLayout_iff hOffset] at h ⊢
  obtain ⟨word, first, hFirst, rfl⟩ := h
  rcases Nat.lt_or_ge (wordStart wordBytes offset (word + 1)) (byteTotal before +
    (frame.lastWord wordBytes * wordBytes - frame.startOffset)) with hBefore | hAfter
  · have hIndex : wordStart wordBytes offset word ≤ wordStart wordBytes offset (word + 1) := by
      simp only [wordStart]
      rw [Nat.succ_mul]
      omega
    refine ⟨word, first, ?_, (tupleContext_lengthened hOffset (by omega) hBefore).symm⟩
    rw [← hFirst, getElem?_lengthened hWidth (by omega) (by omega)]
  · have hWord : row + 2 < word + 1 := by
      apply Nat.lt_of_mul_lt_mul_right (a := wordBytes)
      simp only [wordStart] at hAfter
      rw [Nat.add_mul]
      omega
    obtain ⟨word, rfl⟩ : ∃ w, word = w + 1 := ⟨word - 1, by omega⟩
    have hPast : byteTotal before < wordStart wordBytes offset word := by
      have := Nat.mul_le_mul_right wordBytes
        (show row + 1 ≤ word by omega)
      rw [Nat.succ_mul] at this
      simp only [wordStart]
      omega
    rw [wordStart_succ (by omega), getElem?_lengthened_add hWidth (by omega) (by omega),
      Option.map_eq_some_iff] at hFirst
    obtain ⟨first, hFirst, rfl⟩ := hFirst
    exact ⟨word, first, hFirst, (tupleContext_lengthened_succ hWidth (by omega) hPast).symm⟩

variable {count words startOffset : Nat}

/-- A frame that spans more than two words can gain any number of words. -/
theorem hasContext_add_words (hOffset : offset < wordBytes) (hStart : startOffset < wordBytes)
    (hLong : 0 < words → 2 * wordBytes < startOffset + count)
    (h : (tupleLayout wordBytes offset (before ++ ⟨count, startOffset⟩ :: after)).HasContext
      context) :
    (tupleLayout wordBytes offset
      (before ++ ⟨count + words * wordBytes, startOffset⟩ :: after)).HasContext context := by
  induction words with
  | zero => simpa using h
  | succ words ih =>
      rw [Nat.succ_mul, ← Nat.add_assoc]
      have hLong := hLong (by omega)
      have hLonger := hasContext_lengthened hOffset
        (show Frame.startOffset ⟨count + words * wordBytes, startOffset⟩ < wordBytes from hStart)
        (by dsimp only; omega) (ih fun _ => hLong)
      exact hLonger

/-- A frame that spans more than three words without them can lose any number of words. -/
theorem hasContext_of_add_words (hOffset : offset < wordBytes) (hStart : startOffset < wordBytes)
    (hLong : 0 < words → 3 * wordBytes <
      max ((offset + byteTotal before) % wordBytes) startOffset + count)
    (h : (tupleLayout wordBytes offset
      (before ++ ⟨count + words * wordBytes, startOffset⟩ :: after)).HasContext context) :
    (tupleLayout wordBytes offset (before ++ ⟨count, startOffset⟩ :: after)).HasContext
      context := by
  induction words with
  | zero => simpa using h
  | succ words ih =>
      rw [Nat.succ_mul, ← Nat.add_assoc] at h
      have hLong := hLong (by omega)
      refine ih (fun _ => hLong) (hasContext_of_lengthened hOffset
        (show Frame.startOffset ⟨count + words * wordBytes, startOffset⟩ < wordBytes from hStart)
        ?_ h)
      dsimp only
      omega

end Lengthened

end Pipeline

end StreamSplice
