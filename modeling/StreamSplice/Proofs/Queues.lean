import StreamSplice.Proofs.Tuple

/-! Queues of input words. What is left of a frame is determined by the position up to
which it has been consumed, and firing a transition moves this position on: words before it
leave, the word around it becomes a relict, and the words of later frames stay as they are. -/
namespace StreamSplice.Pipeline

open Layout

section Inert

variable {queue : List InputWord} {masks : List (List Bool)}

/-- A mask that clears no byte of a word leaves it as it is. -/
theorem clear_eq_self {word : InputWord} {mask : List Bool}
    (hLength : mask.length = word.keep.length)
    (h : ∀ (byte : Nat) kept, mask[byte]? = some kept → word.keep[byte]? = some true →
      kept = true) : word.clear mask = word := by
  have hKeep : List.zipWith (· && ·) word.keep mask = word.keep := by
    apply List.ext_getElem (by simp [hLength])
    intro byte _ hByte
    rw [List.getElem_zipWith]
    cases hBit : word.keep[byte] with
    | false => rfl
    | true =>
        have hMask : byte < mask.length := by omega
        rw [h byte _ (List.getElem?_eq_getElem hMask)
          ((List.getElem?_eq_getElem hByte).trans (congrArg some hBit))]
        rfl
  rw [InputWord.clear, hKeep]

theorem clear_eq_self_of_keep {word : InputWord} {mask : List Bool}
    (h : (word.clear mask).keep = word.keep) : word.clear mask = word := by
  cases word
  simpa [InputWord.clear] using h

theorem clearAll_inert (h : ∀ (stage : Nat) word mask, queue[stage]? = some word →
    masks[stage]? = some mask → word.clear mask = word) : clearAll queue masks = queue := by
  induction queue generalizing masks with
  | nil => cases masks <;> rfl
  | cons word queue ih =>
      cases masks with
      | nil => rfl
      | cons mask masks =>
          rw [clearAll, h 0 word mask rfl rfl, ih fun stage => h (stage + 1)]

/-- Behind the oldest word, words that lose nothing stay. -/
theorem consume_inert (h : ∀ (stage : Nat) word mask, queue[stage]? = some word →
    masks[stage]? = some mask → word.clear mask = word) : consume false queue masks = queue := by
  cases queue with
  | nil => cases masks <;> rfl
  | cons word queue =>
      cases masks with
      | nil => rfl
      | cons mask masks =>
          have hWord : word.clear mask = word := h 0 word mask rfl rfl
          have hRest : clearAll queue masks = queue := clearAll_inert fun stage => h (stage + 1)
          simp [consume, hWord, hRest]

end Inert

namespace Frame

/-- Position after the last byte of a frame. -/
def endPosition (frame : Frame) : Nat := frame.startOffset + frame.byteCount

/-- Number of words of a frame that has bytes. -/
def wordCount (frame : Frame) (wordBytes : Nat) : Nat := wordsSpanned wordBytes frame.endPosition

/-- A word of a frame whose bytes before `position` have been consumed. -/
def wordFrom (frame : Frame) (wordBytes tuple stream position word : Nat) : InputWord where
  keep := (List.range wordBytes).map fun byte =>
    decide (position ≤ word * wordBytes + byte) &&
      (frame.byteAt? tuple stream (word * wordBytes + byte)).isSome
  relict := decide (max frame.startOffset (word * wordBytes) < position)
  last := word + 1 == frame.wordCount wordBytes
  bytes := (List.range wordBytes).map fun byte =>
    frame.byteAt? tuple stream (word * wordBytes + byte)

/-- The words of a frame that are left once its bytes before `position` are consumed. -/
def left (frame : Frame) (wordBytes tuple stream position : Nat) : List InputWord :=
  if position < frame.endPosition then
    (List.range' (position / wordBytes) (frame.wordCount wordBytes - position / wordBytes)).map
      (frame.wordFrom wordBytes tuple stream position)
  else []

variable {frame : Frame} {wordBytes tuple stream position word : Nat}

theorem lt_wordCount_iff (hWidth : 0 < wordBytes) :
    word < frame.wordCount wordBytes ↔ word * wordBytes < frame.endPosition :=
  lt_wordsSpanned_iff hWidth

theorem wordCount_eq (hWidth : 0 < wordBytes) (hEnd : 0 < frame.endPosition) :
    frame.wordCount wordBytes = frame.lastWord wordBytes + 1 := by
  rw [wordCount, wordsSpanned, show frame.endPosition + wordBytes - 1 =
    frame.endPosition - 1 + wordBytes by omega, Nat.add_div_right _ hWidth]
  rfl

theorem isSome_byteAt? :
    (frame.byteAt? tuple stream position).isSome =
      decide (frame.startOffset ≤ position ∧ position < frame.endPosition) := by
  unfold byteAt? endPosition
  split <;> simp_all

/-- The bytes of a word that are left. -/
theorem keep_wordFrom (hStart : frame.startOffset ≤ position) {byte : Nat} {kept : Bool} :
    (frame.wordFrom wordBytes tuple stream position word).keep[byte]? = some kept ↔
      byte < wordBytes ∧ kept = decide (position ≤ word * wordBytes + byte ∧
        word * wordBytes + byte < frame.endPosition) := by
  simp only [wordFrom, List.getElem?_map, Option.map_eq_some_iff, List.getElem?_eq_some_iff,
    List.getElem_range, List.length_range, isSome_byteAt?]
  constructor
  · rintro ⟨_, ⟨hByte, rfl⟩, rfl⟩
    refine ⟨hByte, ?_⟩
    rw [Bool.eq_iff_iff]
    simp only [Bool.and_eq_true, decide_eq_true_eq]
    omega
  · rintro ⟨hByte, rfl⟩
    refine ⟨byte, ⟨hByte, rfl⟩, ?_⟩
    rw [Bool.eq_iff_iff]
    simp only [Bool.and_eq_true, decide_eq_true_eq]
    omega

theorem length_keep_wordFrom :
    (frame.wordFrom wordBytes tuple stream position word).keep.length = wordBytes := by
  simp [wordFrom]

/-- A word has bytes left exactly if one of its positions is in the rest of the frame. -/
theorem hasBytes_wordFrom (hStart : frame.startOffset ≤ position) :
    (frame.wordFrom wordBytes tuple stream position word).hasBytes ↔
      ∃ p, word * wordBytes ≤ p ∧ p < (word + 1) * wordBytes ∧ position ≤ p ∧
        p < frame.endPosition := by
  rw [InputWord.hasBytes, List.any_eq_true, Nat.succ_mul]
  constructor
  · rintro ⟨kept, hMem, hKept⟩
    obtain ⟨byte, hByte⟩ := List.mem_iff_getElem?.mp hMem
    obtain ⟨hBound, rfl⟩ := (keep_wordFrom hStart).mp hByte
    simp only [id, decide_eq_true_eq] at hKept
    exact ⟨word * wordBytes + byte, by omega, by omega, hKept.1, hKept.2⟩
  · rintro ⟨p, hWord, hNext, hPosition, hEnd⟩
    refine ⟨true, List.mem_iff_getElem?.mpr ⟨p - word * wordBytes, ?_⟩, rfl⟩
    refine (keep_wordFrom hStart).mpr ⟨by omega, ?_⟩
    rw [eq_comm, decide_eq_true_eq]
    omega

/-- A word behind two positions has lost nothing at either of them. -/
theorem wordFrom_congr {other : Nat} (h : position ≤ word * wordBytes)
    (hOther : other ≤ word * wordBytes) :
    frame.wordFrom wordBytes tuple stream position word =
      frame.wordFrom wordBytes tuple stream other word := by
  have hBit : ∀ byte, decide (position ≤ word * wordBytes + byte) =
      decide (other ≤ word * wordBytes + byte) := fun byte => by
    rw [decide_eq_true (by omega), decide_eq_true (by omega)]
  have hRelict : decide (max frame.startOffset (word * wordBytes) < position) =
      decide (max frame.startOffset (word * wordBytes) < other) := by
    rw [decide_eq_false (by omega), decide_eq_false (by omega)]
  simp only [wordFrom, hBit, hRelict]

theorem map_wordFrom_congr {other count : Nat} (h : position ≤ word * wordBytes)
    (hOther : other ≤ word * wordBytes) :
    (List.range' word count).map (frame.wordFrom wordBytes tuple stream position) =
      (List.range' word count).map (frame.wordFrom wordBytes tuple stream other) := by
  apply List.map_congr_left
  intro w hw
  have := Nat.mul_le_mul_right wordBytes (List.mem_range'_1.mp hw).1
  exact wordFrom_congr (by omega) (by omega)

/-- What is left of a frame starts with the word around the position. -/
theorem left_eq_cons (hWidth : 0 < wordBytes) (hEnd : position < frame.endPosition)
    (hWord : word * wordBytes ≤ position) (hNext : position < (word + 1) * wordBytes) :
    frame.left wordBytes tuple stream position =
      frame.wordFrom wordBytes tuple stream position word ::
        (List.range' (word + 1) (frame.wordCount wordBytes - (word + 1))).map
          (frame.wordFrom wordBytes tuple stream position) := by
  have hCount : word < frame.wordCount wordBytes := (lt_wordCount_iff hWidth).mpr (by omega)
  rw [left, if_pos hEnd, Nat.div_eq_of_lt_le hWord hNext,
    show frame.wordCount wordBytes - word = frame.wordCount wordBytes - (word + 1) + 1 by omega,
    List.range'_succ, List.map_cons]

/-- Masks for a frame and the words after it: of the `count` words of the frame from word
`word` on, they clear the bytes from `position` up to `next`, and of later words none. -/
structure Wipes (frame : Frame) (wordBytes tuple stream position next word count : Nat)
    (masks : List (List Bool)) (later : List InputWord) : Prop where
  cleared : ∀ stage < count, ∀ mask, masks[stage]? = some mask →
    ((frame.wordFrom wordBytes tuple stream position (word + stage)).clear mask).keep =
      (frame.wordFrom wordBytes tuple stream next (word + stage)).keep
  kept : ∀ (stage : Nat) w mask, later[stage]? = some w → masks[count + stage]? = some mask →
    w.clear mask = w

namespace Wipes

variable {next count : Nat} {mask : List Bool} {masks : List (List Bool)} {later : List InputWord}

theorem tail (h : frame.Wipes wordBytes tuple stream position next word (count + 1)
    (mask :: masks) later) :
    frame.Wipes wordBytes tuple stream position next (word + 1) count masks later where
  cleared := by
    intro stage hStage mask hMask
    rw [Nat.add_assoc, Nat.add_comm 1]
    exact h.cleared (stage + 1) (by omega) mask hMask
  kept := fun stage w mask hWord hMask => h.kept stage w mask hWord (by rwa [Nat.succ_add])

/-- Words that lie behind both positions lose nothing between them. -/
theorem inert (h : frame.Wipes wordBytes tuple stream position next word count masks later)
    (hPosition : position ≤ word * wordBytes) (hNext : next ≤ word * wordBytes)
    (stage : Nat) (w : InputWord) (mask : List Bool)
    (hWord : ((List.range' word count).map (frame.wordFrom wordBytes tuple stream position) ++
      later)[stage]? = some w) (hMask : masks[stage]? = some mask) : w.clear mask = w := by
  rw [List.getElem?_append, List.length_map, List.length_range'] at hWord
  split at hWord
  · next hStage =>
      rw [List.getElem?_map, List.getElem?_range' hStage, Option.map_some, Nat.one_mul] at hWord
      cases hWord
      have hBehind := Nat.mul_le_mul_right wordBytes (Nat.le_add_right word stage)
      have hSame : frame.wordFrom wordBytes tuple stream next (word + stage) =
          frame.wordFrom wordBytes tuple stream position (word + stage) :=
        wordFrom_congr (by omega) (by omega)
      exact clear_eq_self_of_keep ((h.cleared stage hStage mask hMask).trans
        (congrArg InputWord.keep hSame))
  · next hStage =>
      exact h.kept (stage - count) w mask hWord (by
        rwa [Nat.add_sub_cancel' (Nat.not_lt.mp hStage)])

/-- A word that keeps bytes but loses some becomes a relict. -/
theorem relict (h : frame.Wipes wordBytes tuple stream position next word (count + 1)
    (mask :: masks) later) (hStart : frame.startOffset ≤ position) (hNext : position < next)
    (hInside : word * wordBytes < next) (hStays : next < (word + 1) * wordBytes)
    (hEnd : next < frame.endPosition) :
    let w := frame.wordFrom wordBytes tuple stream position word
    { w.clear mask with relict := w.relict || (w.clear mask).keep ≠ w.keep } =
      frame.wordFrom wordBytes tuple stream next word := by
  intro w
  have hKeep : (w.clear mask).keep = (frame.wordFrom wordBytes tuple stream next word).keep :=
    h.cleared 0 (Nat.succ_pos count) mask rfl
  have hLost : (w.clear mask).keep ≠ w.keep := by
    intro hSame
    rw [Nat.succ_mul] at hStays
    have hBefore : w.keep[max position (word * wordBytes) - word * wordBytes]? = some true :=
      (keep_wordFrom hStart).mpr ⟨by omega, by
        rw [eq_comm, decide_eq_true_eq]
        omega⟩
    rw [← hSame, hKeep, keep_wordFrom (by omega), eq_comm, decide_eq_true_eq] at hBefore
    omega
  have hRelict : (frame.wordFrom wordBytes tuple stream next word).relict = true := by
    simp only [wordFrom, decide_eq_true_eq]
    omega
  calc { w.clear mask with relict := w.relict || (w.clear mask).keep ≠ w.keep }
      = { w.clear mask with relict := true } := by simp [hLost]
    _ = ⟨(w.clear mask).keep, true, w.last, w.bytes⟩ := rfl
    _ = frame.wordFrom wordBytes tuple stream next word := by
        rw [hKeep, ← hRelict]
        rfl

/-- The bytes that the oldest word keeps are those behind the next position. -/
theorem hasBytes_clear (h : frame.Wipes wordBytes tuple stream position next word (count + 1)
    (mask :: masks) later) :
    ((frame.wordFrom wordBytes tuple stream position word).clear mask).hasBytes =
      (frame.wordFrom wordBytes tuple stream next word).hasBytes :=
  congrArg (List.any · id) (h.cleared 0 (Nat.succ_pos count) mask rfl)

/-- A word that keeps bytes stays at the front, and the words behind it lose none. -/
theorem consume_stays {oldest : Bool}
    (h : frame.Wipes wordBytes tuple stream position next word (count + 1) (mask :: masks) later)
    (hWidth : 0 < wordBytes) (hStart : frame.startOffset ≤ position) (hNext : position < next)
    (hCount : word + (count + 1) = frame.wordCount wordBytes) (hInside : word * wordBytes < next)
    (hStays : next < (word + 1) * wordBytes) (hEnd : next < frame.endPosition) :
    consume oldest ((List.range' word (count + 1)).map
        (frame.wordFrom wordBytes tuple stream position) ++ later) (mask :: masks) =
      frame.left wordBytes tuple stream next ++ later := by
  have hKept : (frame.wordFrom wordBytes tuple stream next word).hasBytes = true :=
    (hasBytes_wordFrom (by omega)).mpr
      ⟨next, Nat.le_of_lt hInside, hStays, Nat.le_refl _, hEnd⟩
  have hRest := clearAll_inert (h.tail.inert (by omega) (Nat.le_of_lt hStays))
  rw [List.range'_succ, List.map_cons, List.cons_append, consume, h.hasBytes_clear, hKept, hRest,
    left_eq_cons hWidth hEnd (Nat.le_of_lt hInside) hStays,
    show frame.wordCount wordBytes - (word + 1) = count by omega,
    ← map_wordFrom_congr (show position ≤ (word + 1) * wordBytes by omega) (Nat.le_of_lt hStays)]
  exact congrArg (· :: _) (h.relict hStart hNext hInside hStays hEnd)

/-- A word that is used up just now leaves. -/
theorem consume_leaves {oldest : Bool}
    (h : frame.Wipes wordBytes tuple stream position next word (count + 1) (mask :: masks) later)
    (hWidth : 0 < wordBytes) (hStart : frame.startOffset ≤ position) (hNext : position < next)
    (hFront : position < (word + 1) * wordBytes) (hInside : word * wordBytes < frame.endPosition)
    (hEnd : next ≤ frame.endPosition)
    (hUsed : (word + 1) * wordBytes ≤ next ∨ next = frame.endPosition) :
    consume oldest ((List.range' word (count + 1)).map
        (frame.wordFrom wordBytes tuple stream position) ++ later) (mask :: masks) =
      consume false ((List.range' (word + 1) count).map
        (frame.wordFrom wordBytes tuple stream position) ++ later) masks := by
  have hSucc : (word + 1) * wordBytes = word * wordBytes + wordBytes := Nat.succ_mul ..
  have hHad : (frame.wordFrom wordBytes tuple stream position word).hasBytes = true :=
    (hasBytes_wordFrom hStart).mpr
      ⟨max position (word * wordBytes), by omega, by omega, by omega, by omega⟩
  have hGone : (frame.wordFrom wordBytes tuple stream next word).hasBytes = false := by
    rw [Bool.eq_false_iff, Ne, hasBytes_wordFrom (by omega)]
    rintro ⟨p, _, hp, hFrom, hTo⟩
    omega
  rw [List.range'_succ, List.map_cons, List.cons_append, consume, h.hasBytes_clear, hHad, hGone,
    Bool.not_false, Bool.or_true, Bool.and_true, if_pos rfl]

/-- Words behind the next position stay. -/
theorem consume_behind
    (h : frame.Wipes wordBytes tuple stream position next word (count + 1) masks later)
    (hWidth : 0 < wordBytes) (hNext : position ≤ next) (hHere : next = word * wordBytes)
    (hCount : word + (count + 1) = frame.wordCount wordBytes) :
    consume false ((List.range' word (count + 1)).map
        (frame.wordFrom wordBytes tuple stream position) ++ later) masks =
      frame.left wordBytes tuple stream next ++ later := by
  have hInFrame : word * wordBytes < frame.endPosition := (lt_wordCount_iff hWidth).mp (by omega)
  have hSame := @map_wordFrom_congr frame wordBytes tuple stream position word next (count + 1)
    (by omega) (by omega)
  rw [consume_inert (h.inert (by omega) (by omega)), hSame, left, if_pos (by omega), hHere,
    Nat.mul_div_cancel _ hWidth, ← hCount, Nat.add_sub_cancel_left]

end Wipes

/-- Consuming the words of a frame from word `word` on, whose bytes before `position` are
gone, up to position `next`. The oldest word is partially consumed at most; a word behind
it has lost nothing yet. -/
theorem consume_words {oldest : Bool} {count next : Nat} {masks : List (List Bool)}
    {later : List InputWord} (hWidth : 0 < wordBytes) (hStart : frame.startOffset ≤ position)
    (hNext : position < next) (hEnd : next ≤ frame.endPosition)
    (hCount : word + count = frame.wordCount wordBytes)
    (hOldest : oldest = true → 0 < count ∧ word * wordBytes ≤ position)
    (hFront : position < (word + 1) * wordBytes)
    (hReach : word * wordBytes ≤ next ∨ next = frame.endPosition)
    (hMasks : next ≤ (word + masks.length) * wordBytes)
    (hWipes : frame.Wipes wordBytes tuple stream position next word count masks later) :
    consume oldest ((List.range' word count).map
        (frame.wordFrom wordBytes tuple stream position) ++ later) masks =
      frame.left wordBytes tuple stream next ++ later := by
  induction count generalizing oldest word masks with
  | zero =>
      have hDone : frame.endPosition ≤ word * wordBytes :=
        Nat.not_lt.mp ((lt_wordCount_iff hWidth).not.mp (by omega))
      have hYounger : oldest = false := Bool.eq_false_iff.mpr fun h => by
        have := (hOldest h).1
        omega
      have hInert : consume false later masks = later :=
        consume_inert fun stage w mask hWord hMask =>
          hWipes.kept stage w mask hWord (by rwa [Nat.zero_add])
      rw [left, if_neg (by omega), hYounger]
      exact hInert
  | succ count ih =>
      have hInFrame : word * wordBytes < frame.endPosition :=
        (lt_wordCount_iff hWidth).mp (by omega)
      have hSucc : (word + 1) * wordBytes = word * wordBytes + wordBytes := Nat.succ_mul ..
      rcases Nat.lt_or_ge (word * wordBytes) next with hInside | hBefore
      · cases masks with
        | nil =>
            simp only [List.length_nil, Nat.add_zero] at hMasks
            omega
        | cons mask masks =>
            by_cases hStays : next < (word + 1) * wordBytes ∧ next < frame.endPosition
            · exact hWipes.consume_stays hWidth hStart hNext hCount hInside hStays.1 hStays.2
            · rw [hWipes.consume_leaves hWidth hStart hNext hFront hInFrame hEnd (by omega)]
              apply ih (by omega) _ _ (by omega) _ hWipes.tail
              · intro h
                cases h
              · rw [Nat.succ_mul]
                omega
              · rw [Nat.add_assoc, Nat.add_comm 1]
                exact hMasks
      · have hYounger : oldest = false := Bool.eq_false_iff.mpr fun h => by
          have := (hOldest h).2
          omega
        rw [hYounger]
        exact hWipes.consume_behind hWidth (Nat.le_of_lt hNext) (by omega) hCount

/-- A mask that clears exactly the bytes of a word up to a position leaves those behind it. -/
theorem keep_clear_wordFrom {next : Nat} {mask : List Bool} (hStart : frame.startOffset ≤ position)
    (hNext : position ≤ next) (hLength : mask.length = wordBytes)
    (hClears : ∀ (byte : Nat) kept, mask[byte]? = some kept →
      (frame.wordFrom wordBytes tuple stream position word).keep[byte]? = some true →
      (kept = true ↔ next ≤ word * wordBytes + byte)) :
    ((frame.wordFrom wordBytes tuple stream position word).clear mask).keep =
      (frame.wordFrom wordBytes tuple stream next word).keep := by
  refine List.ext_getElem? fun byte => ?_
  rw [InputWord.clear, List.getElem?_zipWith]
  rcases Nat.lt_or_ge byte wordBytes with hByte | hBeyond
  · have hMaskByte := List.getElem?_eq_getElem (show byte < mask.length by omega)
    have hCleared := hClears byte _ hMaskByte
    rw [keep_wordFrom hStart, eq_comm, decide_eq_true_eq] at hCleared
    rw [(keep_wordFrom hStart).mpr ⟨hByte, rfl⟩, (keep_wordFrom (by omega)).mpr ⟨hByte, rfl⟩,
      hMaskByte, Option.some.injEq, Bool.eq_iff_iff, Bool.and_eq_true, decide_eq_true_eq,
      decide_eq_true_eq]
    constructor
    · rintro ⟨hLeft, hKept⟩
      exact ⟨(hCleared ⟨hByte, hLeft⟩).mp hKept, hLeft.2⟩
    · rintro ⟨hBehind, hEnd⟩
      have hLeft : position ≤ word * wordBytes + byte ∧
          word * wordBytes + byte < frame.endPosition := ⟨Nat.le_trans hNext hBehind, hEnd⟩
      exact ⟨hLeft, (hCleared ⟨hByte, hLeft⟩).mpr hBehind⟩
  · have hNoMask : mask[byte]? = none := List.getElem?_eq_none (by omega)
    have hNoByte : (frame.wordFrom wordBytes tuple stream next word).keep[byte]? = none :=
      List.getElem?_eq_none (by rwa [length_keep_wordFrom])
    rw [hNoMask, hNoByte]
    cases (frame.wordFrom wordBytes tuple stream position word).keep[byte]? <;> rfl

/-- Masks that clear exactly the bytes up to a position wipe the words of a frame. -/
theorem wipes_of_masks {count next : Nat} {masks : List (List Bool)} {later : List InputWord}
    (hStart : frame.startOffset ≤ position) (hNext : position ≤ next)
    (hMasks : ∀ (stage : Nat) mask, masks[stage]? = some mask → mask.length = wordBytes)
    (hLater : ∀ w ∈ later, w.keep.length = wordBytes)
    (hClears : ∀ (stage : Nat) w mask (byte : Nat) kept,
      ((List.range' word count).map (frame.wordFrom wordBytes tuple stream position) ++
        later)[stage]? = some w → masks[stage]? = some mask → mask[byte]? = some kept →
      w.keep[byte]? = some true →
      (kept = true ↔ ¬(stage < count ∧ (word + stage) * wordBytes + byte < next))) :
    frame.Wipes wordBytes tuple stream position next word count masks later where
  cleared := by
    intro stage hStage mask hMask
    have hWord : ((List.range' word count).map (frame.wordFrom wordBytes tuple stream position) ++
        later)[stage]? = some (frame.wordFrom wordBytes tuple stream position (word + stage)) := by
      rw [List.getElem?_append_left (by simpa using hStage), List.getElem?_map,
        List.getElem?_range' hStage, Option.map_some, Nat.one_mul]
    apply keep_clear_wordFrom hStart hNext (hMasks stage mask hMask)
    intro byte kept hKept hByte
    rw [hClears stage _ mask byte kept hWord hMask hKept hByte]
    omega
  kept := by
    intro stage w mask hWord hMask
    refine clear_eq_self ?_ fun byte kept hKept hByte => ?_
    · rw [hMasks _ _ hMask, hLater w (List.mem_of_getElem? hWord)]
    · refine (hClears (count + stage) w mask byte kept ?_ hMask hKept hByte).mpr (by omega)
      rw [List.getElem?_append_right (by simp), List.length_map, List.length_range',
        Nat.add_sub_cancel_left, hWord]

theorem left_eq_nil (h : frame.endPosition ≤ position) :
    frame.left wordBytes tuple stream position = [] := by
  rw [left, if_neg (by omega)]

/-- Before anything is consumed, all words of the frame are left. -/
theorem left_startOffset (hStart : frame.startOffset < wordBytes) (hCount : 0 < frame.byteCount) :
    frame.left wordBytes tuple stream frame.startOffset =
      frame.inputWords wordBytes tuple stream := by
  rw [left, if_pos (by unfold endPosition; omega), Nat.div_eq_of_lt hStart, Nat.sub_zero,
    ← List.range_eq_range', inputWords, if_neg (by omega)]
  apply List.map_congr_left
  intro word _
  have hKeep : ∀ byte, (decide (frame.startOffset ≤ word * wordBytes + byte) &&
      (frame.byteAt? tuple stream (word * wordBytes + byte)).isSome) =
        (frame.byteAt? tuple stream (word * wordBytes + byte)).isSome := by
    intro byte
    rw [isSome_byteAt?, Bool.eq_iff_iff]
    simp only [Bool.and_eq_true, decide_eq_true_eq]
    omega
  have hRelict : decide (max frame.startOffset (word * wordBytes) < frame.startOffset) = false :=
    decide_eq_false (by omega)
  simp only [wordFrom, hKeep, hRelict, List.map_map, Function.comp_def, wordCount, endPosition]

/-- Every word that is left is as wide as the registers. -/
theorem length_keep_of_mem_left {w : InputWord}
    (h : w ∈ frame.left wordBytes tuple stream position) : w.keep.length = wordBytes := by
  simp only [left] at h
  split at h
  · obtain ⟨word, _, rfl⟩ := List.mem_map.mp h
    exact length_keep_wordFrom
  · cases h

theorem length_keep_of_mem_inputWords {w : InputWord}
    (h : w ∈ frame.inputWords wordBytes tuple stream) : w.keep.length = wordBytes := by
  simp only [inputWords] at h
  split at h
  · rw [List.mem_singleton.mp h, List.length_replicate]
  · obtain ⟨word, _, rfl⟩ := List.mem_map.mp h
    simp

/-- The word at a stage of what is left of a frame. -/
theorem getElem?_left {later : List InputWord} (hEnd : position < frame.endPosition) {stage : Nat}
    (hStage : position / wordBytes + stage < frame.wordCount wordBytes) :
    (frame.left wordBytes tuple stream position ++ later)[stage]? =
      some (frame.wordFrom wordBytes tuple stream position (position / wordBytes + stage)) := by
  have hLength : stage < frame.wordCount wordBytes - position / wordBytes := by omega
  rw [left, if_pos hEnd, List.getElem?_append_left (by simpa using hLength), List.getElem?_map,
    List.getElem?_range' hLength, Option.map_some, Nat.one_mul]

/-- Clearing exactly the bytes up to a position, in registers that reach that far, leaves
the rest of the frame and the words after it. -/
theorem consume_left {next : Nat} {masks : List (List Bool)} {later : List InputWord}
    (hWidth : 0 < wordBytes) (hStart : frame.startOffset ≤ position) (hNext : position < next)
    (hEnd : next ≤ frame.endPosition)
    (hReach : next ≤ (position / wordBytes + masks.length) * wordBytes)
    (hMasks : ∀ (stage : Nat) mask, masks[stage]? = some mask → mask.length = wordBytes)
    (hLater : ∀ w ∈ later, w.keep.length = wordBytes)
    (hClears : ∀ (stage : Nat) w mask (byte : Nat) kept,
      (frame.left wordBytes tuple stream position ++ later)[stage]? = some w →
      masks[stage]? = some mask → mask[byte]? = some kept → w.keep[byte]? = some true →
      (kept = true ↔ ¬(stage < frame.wordCount wordBytes - position / wordBytes ∧
        (position / wordBytes + stage) * wordBytes + byte < next))) :
    consume true (frame.left wordBytes tuple stream position ++ later) masks =
      frame.left wordBytes tuple stream next ++ later := by
  have hPosition := Nat.div_add_mod' position wordBytes
  have hRest := Nat.mod_lt position hWidth
  have hCount : position / wordBytes < frame.wordCount wordBytes :=
    (lt_wordCount_iff hWidth).mpr (by omega)
  have hLeft : frame.left wordBytes tuple stream position =
      (List.range' (position / wordBytes) (frame.wordCount wordBytes - position / wordBytes)).map
        (frame.wordFrom wordBytes tuple stream position) := by
    rw [left, if_pos (by omega)]
  rw [hLeft] at hClears ⊢
  exact consume_words hWidth hStart hNext hEnd (by omega) (fun _ => ⟨by omega, by omega⟩)
    (by rw [Nat.succ_mul]; omega) (.inl (by omega)) hReach
    (wipes_of_masks hStart (Nat.le_of_lt hNext) hMasks hLater hClears)

/-- The word of an empty frame leaves as soon as its stream is read. -/
theorem consume_empty {masks : List (List Bool)} {later : List InputWord}
    (hCount : frame.byteCount = 0) (hPositive : 0 < masks.length)
    (hMasks : ∀ (stage : Nat) mask, masks[stage]? = some mask → mask.length = wordBytes)
    (hLater : ∀ w ∈ later, w.keep.length = wordBytes)
    (hClears : ∀ (stage : Nat) w mask (byte : Nat) kept,
      (frame.inputWords wordBytes tuple stream ++ later)[stage]? = some w →
      masks[stage]? = some mask → mask[byte]? = some kept → w.keep[byte]? = some true →
      (kept = true ↔ stage ≠ 0)) :
    consume true (frame.inputWords wordBytes tuple stream ++ later) masks = later := by
  cases masks with
  | nil => cases hPositive
  | cons mask masks =>
      rw [inputWords, if_pos hCount] at hClears ⊢
      have hGone : (InputWord.clear ⟨List.replicate wordBytes false, true, true,
          List.replicate wordBytes none⟩ mask).hasBytes = false := by
        rw [InputWord.hasBytes, Bool.eq_false_iff, Ne, List.any_eq_true]
        rintro ⟨bit, hBit, hTrue⟩
        obtain ⟨byte, hByte⟩ := List.mem_iff_getElem?.mp hBit
        obtain ⟨kept, _, hKept, _, rfl⟩ := List.getElem?_zipWith_eq_some.mp hByte
        obtain rfl := List.eq_of_mem_replicate (List.mem_of_getElem? hKept)
        cases hTrue
      rw [List.singleton_append, consume, hGone]
      apply consume_inert
      intro stage w mask hWord hMask
      refine clear_eq_self ?_ fun byte kept hKept hByte => ?_
      · rw [hMasks (stage + 1) mask hMask, hLater w (List.mem_of_getElem? hWord)]
      · exact (hClears (stage + 1) w mask byte kept hWord hMask hKept hByte).mpr (by omega)

/-- Position up to which a frame has been consumed once a number of bytes of its tuple have
been emitted. The frame starts at index `start` of the tuple. -/
def front (frame : Frame) (start emitted : Nat) : Nat :=
  frame.startOffset + min frame.byteCount (emitted - start)

/-- What is left of a frame, and of the word of an empty frame, once a number of bytes of
its tuple have been emitted. -/
def pending (frame : Frame) (wordBytes tuple stream start emitted : Nat) : List InputWord :=
  if frame.byteCount = 0 then
    if 0 < emitted ∧ start ≤ emitted then [] else frame.inputWords wordBytes tuple stream
  else
    frame.left wordBytes tuple stream (frame.front start emitted)

theorem pending_zero (hStart : frame.startOffset < wordBytes) {start : Nat} :
    frame.pending wordBytes tuple stream start 0 = frame.inputWords wordBytes tuple stream := by
  simp only [pending]
  split
  · rw [if_neg (by omega)]
  · rw [front, Nat.zero_sub, Nat.min_zero, Nat.add_zero, left_startOffset hStart (by omega)]

theorem pending_eq_nil {start emitted : Nat} (hEmitted : 0 < emitted)
    (h : start + frame.byteCount ≤ emitted) :
    frame.pending wordBytes tuple stream start emitted = [] := by
  simp only [pending]
  split
  · rw [if_pos ⟨hEmitted, by omega⟩]
  · exact left_eq_nil (by unfold endPosition front; omega)

theorem length_keep_of_mem_pending {start emitted : Nat} {w : InputWord}
    (h : w ∈ frame.pending wordBytes tuple stream start emitted) : w.keep.length = wordBytes := by
  simp only [pending] at h
  split at h
  · split at h
    · cases h
    · exact length_keep_of_mem_inputWords h
  · exact length_keep_of_mem_left h

end Frame

end StreamSplice.Pipeline
