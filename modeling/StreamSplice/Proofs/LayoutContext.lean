import Mathlib.Data.List.Basic
import StreamSplice.Context
import StreamSplice.Layout.Placement

/-! Contexts of the words of a layout, read off the layout itself. The bytes of a joined
layout are consecutive, so the context of a word is determined by the bytes of the word,
the byte before it and the byte after it. -/
namespace StreamSplice

namespace Origin

/-- Whether `next` is the byte after `origin` in the same input word. -/
def precedes (origin next : Origin) : Bool :=
  origin.stream == next.stream && origin.word == next.word && origin.byte + 1 == next.byte

/-- Bytes are laid out by stream and then by input word. -/
def Before (a b : Origin) : Prop := a.stream < b.stream ∨ a.stream = b.stream ∧ a.word ≤ b.word

end Origin

namespace Layout

/-- The least stream among the cells of a word. -/
def leastStream? (cells : List Cell) : Option Nat :=
  ((cells.filterMap id).map Origin.stream).min?

/-- The least input word of a stream among the cells of a word. -/
def leastWord (cells : List Cell) (stream : Nat) : Nat :=
  ((((cells.filterMap id).filter (·.stream == stream)).map Origin.word).min?).getD 0

/-- The source of a byte of a word: its input word is counted from the least one. -/
def sourceIn (cells : List Cell) (origin : Origin) : Source :=
  ⟨origin.stream, origin.word - leastWord cells origin.stream, origin.byte, origin.inLastWord⟩

/-- The source of every byte of a word. -/
def wordSources (cells : List Cell) : List (Option Source) :=
  cells.map (Option.map (sourceIn cells))

/-- The word before word `word`. -/
def wordBefore? (layout : Layout) (word : Nat) : Option (List Cell) :=
  match word with
  | 0 => none
  | word + 1 => layout.words[word]?

/-- Whether a word starts with the rest of the input word that ends the word before it. -/
def resumes (previous cells : List Cell) : Bool :=
  match previous.getLast?.join, cells.head?.join with
  | some last, some first => last.precedes first
  | _, _ => false

/-- The context of word `word`, if it holds a byte. -/
def contextAt? (layout : Layout) (word : Nat) : Option Context := do
  let cells ← layout.words[word]?
  let state ← leastStream? cells
  let next := layout.words[word + 1]?
  return {
    state := state
    nextState := (next.bind leastStream?).getD 0
    sources := wordSources cells
    following := next.bind fun cells => (wordSources cells).head?.join
    resumes := (layout.wordBefore? word).any fun previous => resumes previous cells
    last := next.isNone }

/-- A layout has the contexts of its words. -/
def HasContext (layout : Layout) (context : Context) : Prop :=
  ∃ word, layout.contextAt? word = some context

section Cells

variable {cells : List Cell} {origin : Origin}

theorem mem_filterMap_id : origin ∈ cells.filterMap id ↔ some origin ∈ cells := by
  simp

theorem leastStream?_eq_some {stream : Nat} :
    leastStream? cells = some stream ↔
      (∃ origin, some origin ∈ cells ∧ origin.stream = stream) ∧
        ∀ origin, some origin ∈ cells → stream ≤ origin.stream := by
  simp [leastStream?, List.min?_eq_some_iff]

theorem leastStream?_eq_none : leastStream? cells = none ↔ ∀ origin, some origin ∉ cells := by
  simp [leastStream?, List.min?_eq_none_iff, List.eq_nil_iff_forall_not_mem]

theorem exists_leastStream? (hMem : some origin ∈ cells) :
    ∃ stream, leastStream? cells = some stream := by
  cases hLeast : leastStream? cells with
  | none => exact absurd hMem (leastStream?_eq_none.mp hLeast origin)
  | some stream => exact ⟨stream, rfl⟩

/-- A byte whose word no other byte of the stream precedes has the least word. -/
theorem leastWord_eq (hMem : some origin ∈ cells)
    (hLeast : ∀ other, some other ∈ cells → other.stream = origin.stream →
      origin.word ≤ other.word) :
    leastWord cells origin.stream = origin.word := by
  have hMin : (((cells.filterMap id).filter (·.stream == origin.stream)).map Origin.word).min? =
      some origin.word := by
    rw [List.min?_eq_some_iff]
    constructor
    · exact List.mem_map_of_mem (by simpa using hMem)
    · intro word hWord
      obtain ⟨other, hOther, rfl⟩ := List.mem_map.mp hWord
      simp only [List.mem_filter, mem_filterMap_id, beq_iff_eq] at hOther
      exact hLeast other hOther.1 hOther.2
  rw [leastWord, hMin, Option.getD_some]

/-- Among the bytes of a stream there is one whose word is the least. -/
theorem exists_least (hMem : some origin ∈ cells) :
    ∃ least, some least ∈ cells ∧ least.stream = origin.stream ∧
      ∀ other, some other ∈ cells → other.stream = least.stream → least.word ≤ other.word := by
  have hWords : ((cells.filterMap id).filter (·.stream == origin.stream)).map Origin.word ≠ [] :=
    List.ne_nil_of_mem (List.mem_map_of_mem (by simpa using hMem) : origin.word ∈ _)
  obtain ⟨word, hWord⟩ := Option.isSome_iff_exists.mp (List.isSome_min?_of_ne_nil hWords)
  obtain ⟨hFound, hLeast⟩ := List.min?_eq_some_iff.mp hWord
  obtain ⟨least, hLeastMem, rfl⟩ := List.mem_map.mp hFound
  simp only [List.mem_filter, mem_filterMap_id, beq_iff_eq] at hLeastMem
  refine ⟨least, hLeastMem.1, hLeastMem.2, fun other hOther hStream => ?_⟩
  exact hLeast _ (List.mem_map_of_mem (by simpa using ⟨hOther, hStream.trans hLeastMem.2⟩))

/-- Counting the input words of a stream from another start changes no source. -/
theorem wordSources_map {shift : Origin → Origin} {amount : Nat → Nat}
    (hStream : ∀ o, (shift o).stream = o.stream)
    (hWord : ∀ o, (shift o).word = o.word + amount o.stream)
    (hByte : ∀ o, (shift o).byte = o.byte) (hLast : ∀ o, (shift o).inLastWord = o.inLastWord) :
    wordSources (cells.map (Option.map shift)) = wordSources cells := by
  have hShifted : ∀ {o}, some o ∈ cells.map (Option.map shift) →
      ∃ original, some original ∈ cells ∧ shift original = o := by
    simp
  have hSource : ∀ o, some o ∈ cells →
      sourceIn (cells.map (Option.map shift)) (shift o) = sourceIn cells o := by
    intro o hMem
    obtain ⟨least, hLeastMem, hSame, hLeast⟩ := exists_least hMem
    have hOriginal := leastWord_eq hLeastMem hLeast
    have hMapped : leastWord (cells.map (Option.map shift)) (shift least).stream =
        (shift least).word := by
      refine leastWord_eq (List.mem_map.mpr ⟨_, hLeastMem, rfl⟩) fun other hOther hOtherStream => ?_
      obtain ⟨original, hMem', rfl⟩ := hShifted hOther
      rw [hStream, hStream] at hOtherStream
      have := hLeast original hMem' hOtherStream
      rw [hWord, hWord, hOtherStream]
      omega
    rw [hStream, hWord, hSame] at hMapped
    rw [hSame] at hOriginal
    simp only [sourceIn, hStream, hWord, hByte, hLast, hMapped, hOriginal, Source.mk.injEq,
      true_and, and_true]
    omega
  rw [wordSources, wordSources, List.map_map]
  apply List.map_congr_left
  intro cell hCell
  cases cell with
  | none => rfl
  | some o => exact congrArg some (hSource o hCell)

end Cells

/-- Word `word` of consecutive cells holds the cells from `word * wordBytes` on. -/
theorem getElem?_cut (wordBytes count word : Nat) (cells : List Cell) :
    (cut wordBytes count cells)[word]? =
      if word < count then
        some ((List.range wordBytes).map fun byte => cells[word * wordBytes + byte]?.join)
      else none := by
  induction count generalizing cells word with
  | zero => simp [cut]
  | succ count ih =>
      cases word with
      | zero =>
          simp only [cut, List.getElem?_cons_zero, Nat.zero_lt_succ, if_true, Nat.zero_mul,
            Nat.zero_add, Option.some.injEq]
          have hLength : ((cells.take wordBytes).rightpad wordBytes none).length = wordBytes := by
            rw [List.length_rightpad, List.length_take]
            omega
          refine List.ext_getElem (by rw [hLength, List.length_map, List.length_range])
            fun byte _ hByte => ?_
          rw [List.length_map, List.length_range] at hByte
          simp only [List.getElem_map, List.getElem_range, List.rightpad, List.getElem_append]
          split
          · next hCell =>
              rw [List.length_take] at hCell
              rw [List.getElem_take, List.getElem?_eq_getElem (by omega), Option.join_some]
          · next hPadding =>
              rw [List.length_take] at hPadding
              rw [List.getElem_replicate, List.getElem?_eq_none (by omega), Option.join_none]
      | succ word =>
          rw [cut, List.getElem?_cons_succ, ih]
          simp only [Nat.succ_lt_succ_iff, List.getElem?_drop, Nat.succ_mul]
          simp only [Nat.add_comm, Nat.add_left_comm]

theorem lt_wordsSpanned_iff {wordBytes count word : Nat} (h : 0 < wordBytes) :
    word < wordsSpanned wordBytes count ↔ word * wordBytes < count := by
  rw [wordsSpanned, Nat.lt_iff_add_one_le, Nat.le_div_iff_mul_le h, Nat.succ_mul]
  omega

/-- The layout of consecutive bytes, the first of them placed at `offset`. -/
def ofData (wordBytes offset : Nat) (data : List Origin) : Layout :=
  .ofCells wordBytes (List.replicate offset none ++ data.map some)

/-- The cell at a position of consecutive bytes. -/
def cellAt (offset : Nat) (data : List Origin) (position : Nat) : Cell :=
  if position < offset then none else data[position - offset]?

/-- The cells of word `word` of consecutive bytes. -/
def dataWord (wordBytes offset : Nat) (data : List Origin) (word : Nat) : List Cell :=
  (List.range wordBytes).map fun byte => cellAt offset data (word * wordBytes + byte)

/-- Index of the first byte of word `word`, which is the number of bytes before it. -/
def wordStart (wordBytes offset word : Nat) : Nat := word * wordBytes - offset

theorem getElem?_words_ofData {wordBytes offset : Nat} (data : List Origin) (word : Nat) :
    (ofData wordBytes offset data).words[word]? =
      if word < wordsSpanned wordBytes (offset + data.length) then
        some (dataWord wordBytes offset data word)
      else none := by
  simp only [ofData, ofCells, getElem?_cut, List.length_append, List.length_replicate,
    List.length_map, dataWord]
  congr 3
  funext byte
  rw [cellAt, List.getElem?_append, List.length_replicate]
  split
  · next h => rw [List.getElem?_replicate, if_pos h, Option.join_some]
  · rw [List.getElem?_map]
    cases data[word * wordBytes + byte - offset]? <;> rfl

theorem length_words_ofData (wordBytes offset : Nat) (data : List Origin) :
    (ofData wordBytes offset data).words.length =
      wordsSpanned wordBytes (offset + data.length) := by
  refine Nat.le_antisymm ?_ ?_
  · by_contra hLong
    have hWord := List.getElem?_eq_getElem (Nat.not_le.mp hLong)
    rw [getElem?_words_ofData, if_neg (Nat.lt_irrefl _)] at hWord
    cases hWord
  · by_contra hShort
    have hWord := List.getElem?_eq_none (Nat.le_refl (ofData wordBytes offset data).words.length)
    rw [getElem?_words_ofData, if_pos (Nat.not_le.mp hShort)] at hWord
    cases hWord

section Data

variable {wordBytes offset : Nat} {data : List Origin} {word : Nat} {origin : Origin}

theorem getElem?_dataWord {byte : Nat} :
    (dataWord wordBytes offset data word)[byte]? =
      if byte < wordBytes then some (cellAt offset data (word * wordBytes + byte)) else none := by
  rw [dataWord, List.getElem?_map]
  split
  · next h => rw [List.getElem?_range h, Option.map_some]
  · next h => rw [List.getElem?_eq_none (by simpa using h), Option.map_none]

theorem dataWord_nil : dataWord wordBytes offset [] word = List.replicate wordBytes none := by
  refine List.ext_getElem? fun byte => ?_
  rw [getElem?_dataWord, List.getElem?_replicate]
  simp [cellAt]

theorem some_mem_dataWord :
    some origin ∈ dataWord wordBytes offset data word ↔
      ∃ byte < wordBytes, offset ≤ word * wordBytes + byte ∧
        data[word * wordBytes + byte - offset]? = some origin := by
  simp only [dataWord, List.mem_map, List.mem_range, cellAt]
  refine exists_congr fun byte => and_congr_right fun _ => ?_
  split
  · simp; omega
  · simp; omega

/-- The first byte of a word is among its cells. -/
theorem first_mem_dataWord (hOffset : offset < wordBytes)
    (hFirst : data[wordStart wordBytes offset word]? = some origin) :
    some origin ∈ dataWord wordBytes offset data word := by
  refine some_mem_dataWord.mpr ⟨offset - word * wordBytes, by omega, by omega, ?_⟩
  rw [← hFirst, wordStart]
  congr 1
  omega

/-- Later bytes come from the same word of the same stream or from later ones. -/
theorem le_of_ordered (hOrdered : data.Pairwise Origin.Before) {i j : Nat} {a b : Origin}
    (ha : data[i]? = some a) (hb : data[j]? = some b) (hLe : i ≤ j) :
    a.stream ≤ b.stream ∧ (b.stream = a.stream → a.word ≤ b.word) := by
  rcases Nat.eq_or_lt_of_le hLe with rfl | hLt
  · rw [ha] at hb
    cases hb
    exact ⟨Nat.le_refl _, fun _ => Nat.le_refl _⟩
  · obtain ⟨hi, rfl⟩ := List.getElem?_eq_some_iff.mp ha
    obtain ⟨hj, rfl⟩ := List.getElem?_eq_some_iff.mp hb
    rcases List.pairwise_iff_getElem.mp hOrdered i j hi hj hLt with h | ⟨h, hWord⟩
    · exact ⟨Nat.le_of_lt h, fun hEq => absurd hEq (by omega)⟩
    · exact ⟨Nat.le_of_eq h, fun _ => hWord⟩

/-- The least stream of a word is the stream of its first byte. -/
theorem leastStream?_dataWord (hOffset : offset < wordBytes)
    (hOrdered : data.Pairwise Origin.Before) :
    leastStream? (dataWord wordBytes offset data word) =
      data[wordStart wordBytes offset word]?.map Origin.stream := by
  cases hFirst : data[wordStart wordBytes offset word]? with
  | none =>
      rw [Option.map_none, leastStream?_eq_none]
      intro origin hMem
      obtain ⟨byte, _, hData, hOrigin⟩ := some_mem_dataWord.mp hMem
      have hEnd := List.getElem?_eq_none_iff.mp hFirst
      obtain ⟨hBound, _⟩ := List.getElem?_eq_some_iff.mp hOrigin
      simp only [wordStart] at hEnd
      omega
  | some first =>
      rw [Option.map_some, leastStream?_eq_some]
      constructor
      · exact ⟨first, first_mem_dataWord hOffset hFirst, rfl⟩
      · intro origin hMem
        obtain ⟨byte, _, hData, hOrigin⟩ := some_mem_dataWord.mp hMem
        exact (le_of_ordered hOrdered hFirst hOrigin (by unfold wordStart; omega)).1

/-- The input word of the first byte that a word takes from a stream is the least one. -/
theorem leastWord_dataWord (hOrdered : data.Pairwise Origin.Before) {index : Nat}
    (hFirst : data[index]? = some origin) (hStart : wordStart wordBytes offset word ≤ index)
    (hEnd : index < wordStart wordBytes offset (word + 1))
    (hEarlier : ∀ i other, wordStart wordBytes offset word ≤ i → i < index →
      data[i]? = some other → other.stream ≠ origin.stream) :
    leastWord (dataWord wordBytes offset data word) origin.stream = origin.word := by
  simp only [wordStart] at hStart hEnd hEarlier
  rw [Nat.succ_mul] at hEnd
  refine leastWord_eq (some_mem_dataWord.mpr ⟨index + offset - word * wordBytes, by omega,
    by omega, by rw [← hFirst]; congr 1; omega⟩) fun other hMem hStream => ?_
  obtain ⟨byte, _, hData, hOther⟩ := some_mem_dataWord.mp hMem
  rcases Nat.lt_or_ge (word * wordBytes + byte - offset) index with hLt | hGe
  · exact absurd hStream (hEarlier _ other (by omega) hLt hOther)
  · exact (le_of_ordered hOrdered hFirst hOther hGe).2 hStream

/-- The context of word `word` of consecutive bytes, given its first byte. -/
def dataContext (wordBytes offset : Nat) (data : List Origin) (word : Nat) (first : Origin) :
    Context :=
  let next := data[wordStart wordBytes offset (word + 1)]?
  { state := first.stream
    nextState := (next.map Origin.stream).getD 0
    sources := wordSources (dataWord wordBytes offset data word)
    following := next.map fun origin => ⟨origin.stream, 0, origin.byte, origin.inLastWord⟩
    resumes := decide (0 < word) &&
      data[wordStart wordBytes offset word - 1]?.any (·.precedes first)
    last := next.isNone }

theorem length_sources_dataContext (offset word : Nat) (data : List Origin) (first : Origin) :
    (dataContext wordBytes offset data word first).sources.length = wordBytes := by
  simp [dataContext, wordSources, dataWord]

theorem head?_dataWord (hWidth : 0 < wordBytes) (hStart : offset ≤ word * wordBytes) :
    (dataWord wordBytes offset data word).head? =
      some data[wordStart wordBytes offset word]? := by
  rw [dataWord, List.head?_map, List.head?_range, if_neg (by omega), Option.map_some, cellAt,
    if_neg (by omega), wordStart, Nat.add_zero]

theorem getLast?_dataWord (hOffset : offset < wordBytes) :
    (dataWord wordBytes offset data word).getLast? =
      some data[wordStart wordBytes offset (word + 1) - 1]? := by
  rw [dataWord, List.getLast?_map, List.getLast?_range, if_neg (by omega), Option.map_some, cellAt,
    if_neg (by have := Nat.zero_le (word * wordBytes); omega), wordStart, Nat.succ_mul]
  congr 2
  omega

/-- The first source of a word that starts with a byte is read from the first register. -/
theorem head?_wordSources_dataWord (hWidth : 0 < wordBytes) (hStart : offset ≤ word * wordBytes)
    (hOrdered : data.Pairwise Origin.Before) :
    (wordSources (dataWord wordBytes offset data word)).head?.join =
      data[wordStart wordBytes offset word]?.map fun origin =>
        ⟨origin.stream, 0, origin.byte, origin.inLastWord⟩ := by
  rw [wordSources, List.head?_map, head?_dataWord hWidth hStart, Option.map_some,
    Option.join_some]
  cases hFirst : data[wordStart wordBytes offset word]? with
  | none => rfl
  | some first =>
      have hLeast : leastWord (dataWord wordBytes offset data word) first.stream = first.word :=
        leastWord_dataWord hOrdered hFirst (Nat.le_refl _)
          (by unfold wordStart; rw [Nat.succ_mul]; omega) (by omega)
      simp [sourceIn, hLeast]

/-- A word that starts with a byte is there. -/
theorem getElem?_words_of_isSome (hWidth : 0 < wordBytes)
    (h : data[wordStart wordBytes offset word]?.isSome) :
    (ofData wordBytes offset data).words[word]? = some (dataWord wordBytes offset data word) := by
  obtain ⟨first, hFirst⟩ := Option.isSome_iff_exists.mp h
  obtain ⟨hBound, _⟩ := List.getElem?_eq_some_iff.mp hFirst
  simp only [wordStart] at hBound
  rw [getElem?_words_ofData, if_pos ((lt_wordsSpanned_iff hWidth).mpr (by omega))]

/-- Past the first word there are no words without a byte. -/
theorem getElem?_words_succ (hOffset : offset < wordBytes) :
    (ofData wordBytes offset data).words[word + 1]? =
      data[wordStart wordBytes offset (word + 1)]?.map fun _ =>
        dataWord wordBytes offset data (word + 1) := by
  cases hFirst : data[wordStart wordBytes offset (word + 1)]? with
  | none =>
      have hEnd := List.getElem?_eq_none_iff.mp hFirst
      have hStart : wordBytes ≤ (word + 1) * wordBytes := Nat.le_mul_of_pos_left _ (by omega)
      simp only [wordStart] at hEnd
      rw [Option.map_none, getElem?_words_ofData, if_neg]
      rw [lt_wordsSpanned_iff (by omega)]
      omega
  | some first =>
      rw [Option.map_some, getElem?_words_of_isSome (by omega) (by rw [hFirst]; rfl)]

theorem wordBefore?_ofData (hOffset : offset < wordBytes)
    {first : Origin} (hFirst : data[wordStart wordBytes offset word]? = some first) :
    ((ofData wordBytes offset data).wordBefore? word).any
        (fun previous => resumes previous (dataWord wordBytes offset data word)) =
      (decide (0 < word) &&
        data[wordStart wordBytes offset word - 1]?.any (·.precedes first)) := by
  cases word with
  | zero => rfl
  | succ word =>
      have hStart : wordBytes ≤ (word + 1) * wordBytes := Nat.le_mul_of_pos_left _ (by omega)
      have hBound := (List.getElem?_eq_some_iff.mp hFirst).1
      have hPrevious : data[wordStart wordBytes offset word]?.isSome := by
        simp only [wordStart] at hBound ⊢
        rw [Nat.succ_mul] at hBound
        simp only [isSome_getElem?]
        omega
      rw [wordBefore?, getElem?_words_of_isSome (by omega) hPrevious, Option.any_some, resumes,
        getLast?_dataWord hOffset, head?_dataWord (by omega) (by omega), hFirst]
      cases data[wordStart wordBytes offset (word + 1) - 1]? <;> simp

/-- The context of a word of consecutive bytes, in terms of the bytes alone. -/
theorem contextAt?_ofData (hOffset : offset < wordBytes)
    (hOrdered : data.Pairwise Origin.Before) :
    (ofData wordBytes offset data).contextAt? word =
      data[wordStart wordBytes offset word]?.map (dataContext wordBytes offset data word) := by
  cases hFirst : data[wordStart wordBytes offset word]? with
  | none =>
      rw [Option.map_none, contextAt?, getElem?_words_ofData]
      split
      · simp [leastStream?_dataWord hOffset hOrdered, hFirst]
      · rfl
  | some first =>
      have hWidth : 0 < wordBytes := by omega
      have hNext : offset ≤ (word + 1) * wordBytes :=
        Nat.le_trans (Nat.le_of_lt hOffset) (Nat.le_mul_of_pos_left _ (by omega))
      have hHead := head?_wordSources_dataWord hWidth hNext hOrdered
      simp only [contextAt?, getElem?_words_of_isSome hWidth (by rw [hFirst]; rfl),
        leastStream?_dataWord hOffset hOrdered, hFirst, getElem?_words_succ hOffset,
        wordBefore?_ofData hOffset hFirst, Option.bind_eq_bind, Option.bind_some,
        Option.map_some, dataContext, Option.pure_def, Option.some.injEq, Context.mk.injEq,
        true_and]
      cases hFollowing : data[wordStart wordBytes offset (word + 1)]? with
      | none => simp
      | some following =>
          rw [hFollowing] at hHead
          simp [leastStream?_dataWord hOffset hOrdered, hFollowing, hHead]

end Data

end Layout

end StreamSplice
