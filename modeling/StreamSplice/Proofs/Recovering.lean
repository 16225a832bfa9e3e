import Mathlib.Data.List.Nodup
import Mathlib.Order.Bounds.Basic
import StreamSplice.Proofs.Inverting

/-! Inversion loses nothing. It fails at the first word that does not fit. Otherwise every byte of
every word has one use of its own, and the uses collected by label are the words again. -/
namespace StreamSplice

open Std Layout

namespace Inversion

/-- Whether a word is as wide as it has to be and holds bytes of known streams only. -/
structure FitsWord (wordBytes streamCount : Nat) (cells : List Cell) : Prop where
  width : cells.length = wordBytes
  known : ∀ origin, some origin ∈ cells → origin.stream < streamCount

/-- Whether the byte at a position of a word is of an unknown stream, and none before it is. -/
structure IsFirstUnknown (streamCount : Nat) (cells : List Cell) (outputByte : Nat)
    (origin : Origin) : Prop where
  cell : cells[outputByte]? = some (some origin)
  unknown : streamCount ≤ origin.stream
  first : ∀ earlier < outputByte, ∀ other, cells[earlier]? = some (some other) →
    other.stream < streamCount

/-- What is wrong with a word that does not fit: its width, and if that is right, its first byte
of an unknown stream. That byte tells how many streams there are at least, unless this count is
beyond the largest size. -/
inductive Misfit (wordBytes streamCount : Nat) (cells : List Cell) : Violation → Prop
  | width (h : cells.length ≠ wordBytes) :
      Misfit wordBytes streamCount cells (.wordWidthMismatch wordBytes cells.length)
  | unknown {outputByte : Nat} {origin : Origin} (hWidth : cells.length = wordBytes)
      (hCell : IsFirstUnknown streamCount cells outputByte origin)
      (hCount : origin.stream + 1 ≤ maxSize) :
      Misfit wordBytes streamCount cells (.streamCountMismatch streamCount (origin.stream + 1))
  | uncounted {outputByte : Nat} {origin : Origin} (hWidth : cells.length = wordBytes)
      (hCell : IsFirstUnknown streamCount cells outputByte origin)
      (hCount : maxSize < origin.stream + 1) :
      Misfit wordBytes streamCount cells .countOverflow

/-- The source of the byte at a position of a word: its input word is counted from the least one
that the word takes from its stream. -/
def SitsAt (cells : List Cell) (outputByte : Nat) (source : Source) : Prop :=
  ∃ origin first, cells[outputByte]? = some (some origin) ∧
    IsLeast { word | ∃ other, some other ∈ cells ∧ other.stream = origin.stream ∧
      other.word = word } first ∧
    source = ⟨origin.stream, origin.word - first, origin.byte, origin.inLastWord⟩

/-- Whether some word takes a byte of a stream at a stage. -/
def TakenAt (layouts : List Layout) (stream stage : Nat) : Prop :=
  ∃ label cells outputByte source, wordAt? layouts label = some cells ∧
    SitsAt cells outputByte source ∧ source.stream = stream ∧ source.stage = stage

section Words

variable {wordBytes streamCount : Nat} {label : WordLabel} {cells : List Cell}

theorem sitsAt_iff {outputByte : Nat} {source : Source} :
    SitsAt cells outputByte source ↔
      ∃ origin, cells[outputByte]? = some (some origin) ∧ sourceIn cells origin = source := by
  constructor
  · rintro ⟨origin, first, hCell, ⟨⟨least, hLeast, hStream, rfl⟩, hLower⟩, rfl⟩
    refine ⟨origin, hCell, ?_⟩
    rw [sourceIn, ← hStream, leastWord_eq hLeast]
    intro other hOther hSame
    exact hLower ⟨other, hOther, hSame.trans hStream, rfl⟩
  · rintro ⟨origin, hCell, rfl⟩
    obtain ⟨least, hLeast, hStream, hLower⟩ := exists_least (List.mem_of_getElem? hCell)
    refine ⟨origin, least.word, hCell, ⟨⟨least, hLeast, hStream, rfl⟩, ?_⟩, ?_⟩
    · rintro _ ⟨other, hOther, hSame, rfl⟩
      exact hLower other hOther (hSame.trans hStream.symm)
    · rw [sourceIn, ← hStream, leastWord_eq hLeast hLower]

/-- The sources of a word, in the order of its bytes. -/
theorem eq_wordSources_iff {sources : List (Option Source)} :
    sources = wordSources cells ↔ sources.length = cells.length ∧
      ∀ outputByte source, sources[outputByte]? = some (some source) ↔
        SitsAt cells outputByte source := by
  have hSource : ∀ outputByte source, (wordSources cells)[outputByte]? = some (some source) ↔
      SitsAt cells outputByte source := by
    intro outputByte source
    rw [sitsAt_iff, wordSources, List.getElem?_map, Option.map_eq_some_iff]
    simp only [Option.map_eq_some_iff]
    constructor
    · rintro ⟨_, hCell, origin, rfl, hSource⟩
      exact ⟨origin, hCell, hSource⟩
    · rintro ⟨origin, hCell, hSource⟩
      exact ⟨_, hCell, origin, rfl, hSource⟩
  constructor
  · rintro rfl
    exact ⟨by simp [wordSources], hSource⟩
  · rintro ⟨hLength, hSources⟩
    apply List.ext_getElem (by simpa [wordSources] using hLength)
    intro outputByte hLeft hRight
    apply Option.ext
    intro source
    have hSame := (hSources outputByte source).trans (hSource outputByte source).symm
    rwa [List.getElem?_eq_getElem hLeft, List.getElem?_eq_getElem hRight, Option.some.injEq,
      Option.some.injEq] at hSame

theorem exists_wordUses_iff :
    (∃ uses, wordUses wordBytes streamCount label cells = .ok uses) ↔
      FitsWord wordBytes streamCount cells := by
  constructor
  · rintro ⟨uses, h⟩
    obtain ⟨hWidth, hKnown, _⟩ := wordUses_eq_ok h
    exact ⟨hWidth, hKnown⟩
  · rintro ⟨hWidth, hKnown⟩
    exact exists_wordUses hWidth hKnown

/-- The first byte of a word with some property. -/
theorem find?_filterMap_id_eq_some_iff {p : Origin → Bool} {origin : Origin} :
    (cells.filterMap id).find? p = some origin ↔
      ∃ outputByte : Nat, cells[outputByte]? = some (some origin) ∧ p origin ∧
        ∀ earlier < outputByte, ∀ other, cells[earlier]? = some (some other) →
          p other = false := by
  rw [List.find?_filterMap, Option.bind_eq_some_iff]
  constructor
  · rintro ⟨_, hFind, rfl⟩
    obtain ⟨hFound, outputByte, hBound, hCell, hFirst⟩ :=
      List.find?_eq_some_iff_getElem.mp hFind
    refine ⟨outputByte, List.getElem?_eq_some_iff.mpr ⟨hBound, hCell⟩, by simpa using hFound,
      fun earlier hEarlier other hOther => ?_⟩
    obtain ⟨_, hOther⟩ := List.getElem?_eq_some_iff.mp hOther
    simpa [hOther] using hFirst earlier hEarlier
  · rintro ⟨outputByte, hCell, hFound, hFirst⟩
    obtain ⟨hBound, hCell⟩ := List.getElem?_eq_some_iff.mp hCell
    refine ⟨some origin, List.find?_eq_some_iff_getElem.mpr ⟨by simpa using hFound, outputByte,
      hBound, hCell, fun earlier hEarlier => ?_⟩, rfl⟩
    cases hOther : cells[earlier] with
    | none => rfl
    | some other =>
        have hPass := hFirst earlier hEarlier other
          (List.getElem?_eq_some_iff.mpr ⟨by omega, hOther⟩)
        simp [hPass]

/-- The search for an unknown stream finds the first byte of one. -/
theorem find?_unknown_eq_some_iff {origin : Origin} :
    (cells.filterMap id).find? (streamCount ≤ ·.stream) = some origin ↔
      ∃ outputByte, IsFirstUnknown streamCount cells outputByte origin := by
  rw [find?_filterMap_id_eq_some_iff]
  simp only [decide_eq_true_eq, decide_eq_false_iff_not, Nat.not_le]
  constructor
  · rintro ⟨outputByte, hCell, hUnknown, hFirst⟩
    exact ⟨outputByte, hCell, hUnknown, hFirst⟩
  · rintro ⟨outputByte, hCell, hUnknown, hFirst⟩
    exact ⟨outputByte, hCell, hUnknown, hFirst⟩

theorem unknownStream_of_le {stream : Nat} (h : stream + 1 ≤ maxSize) :
    unknownStream streamCount stream = .streamCountMismatch streamCount (stream + 1) := by
  rw [unknownStream, sum?, if_pos h]

theorem unknownStream_of_lt {stream : Nat} (h : maxSize < stream + 1) :
    unknownStream streamCount stream = .countOverflow := by
  rw [unknownStream, sum?, if_neg (Nat.not_le.mpr h)]

/-- A word fails for what is wrong with it. -/
theorem wordUses_eq_error_iff {e : Violation} :
    wordUses wordBytes streamCount label cells = .error e ↔
      Misfit wordBytes streamCount cells e := by
  constructor
  · intro h
    rw [wordUses] at h
    split at h
    · next hWidth =>
        cases h
        exact .width hWidth
    · next hWidth =>
        split at h
        · next origin hFind =>
            cases h
            obtain ⟨outputByte, hCell⟩ := find?_unknown_eq_some_iff.mp hFind
            rcases Nat.lt_or_ge maxSize (origin.stream + 1) with hCount | hCount
            · rw [unknownStream_of_lt hCount]
              exact .uncounted (not_not.mp hWidth) hCell hCount
            · rw [unknownStream_of_le hCount]
              exact .unknown (not_not.mp hWidth) hCell hCount
        · -- No byte precedes the first word of its stream.
          have hNone : (cells.filterMap id).find? (precedesFirst (firstWords cells)) = none :=
            List.find?_eq_none.mpr fun origin hMem => by
              simp [precedesFirst_eq_false (mem_filterMap_id.mp hMem)]
          simp only [hNone] at h
          cases h
  · intro h
    cases h with
    | width hWidth => rw [wordUses, if_pos hWidth]
    | unknown hWidth hCell hCount =>
        rw [wordUses, if_neg (not_not.mpr hWidth), find?_unknown_eq_some_iff.mpr ⟨_, hCell⟩]
        exact congrArg Except.error (unknownStream_of_le hCount)
    | uncounted hWidth hCell hCount =>
        rw [wordUses, if_neg (not_not.mpr hWidth), find?_unknown_eq_some_iff.mpr ⟨_, hCell⟩]
        exact congrArg Except.error (unknownStream_of_lt hCount)

end Words

section Labels

variable {layouts : List Layout}

theorem zipIdx_ascending {α : Type} (items : List α) :
    items.zipIdx.Pairwise fun a b => a.2 < b.2 := by
  apply List.pairwise_map.mp
  rw [List.zipIdx_map_snd]
  exact List.pairwise_lt_range'

/-- Words are listed in the order of their labels. -/
theorem labelledWords_ascending (layouts : List Layout) :
    (labelledWords layouts).Pairwise fun a b => compare a.1 b.1 = .lt := by
  rw [labelledWords, List.pairwise_flatMap]
  constructor
  · rintro ⟨layout, index⟩ _
    apply List.pairwise_map.mpr
    apply (zipIdx_ascending layout.words).imp
    intro a b hWord
    exact WordLabel.compare_eq_lt_iff.mpr (.inr ⟨rfl, hWord⟩)
  · apply (zipIdx_ascending layouts).imp
    intro a b hLayout x hx y hy
    obtain ⟨_, _, rfl⟩ := List.mem_map.mp hx
    obtain ⟨_, _, rfl⟩ := List.mem_map.mp hy
    exact WordLabel.compare_eq_lt_iff.mpr (.inl hLayout)

/-- The places of all bytes: the label of the word and the position in it. -/
def places (layouts : List Layout) : List (WordLabel × Nat) :=
  (labelledWords layouts).flatMap fun (label, cells) =>
    cells.zipIdx.filterMap fun (cell, outputByte) => cell.map fun _ => (label, outputByte)

theorem mem_places {label : WordLabel} {outputByte : Nat} :
    (label, outputByte) ∈ places layouts ↔ ∃ cells origin,
      wordAt? layouts label = some cells ∧ cells[outputByte]? = some (some origin) := by
  simp only [places, List.mem_flatMap, List.mem_filterMap, Prod.exists, mem_labelledWords,
    List.mk_mem_zipIdx_iff_getElem?, Option.map_eq_some_iff, Prod.mk.injEq]
  constructor
  · rintro ⟨label, cells, hCells, _, outputByte, hCell, origin, rfl, rfl, rfl⟩
    exact ⟨cells, origin, hCells, hCell⟩
  · rintro ⟨cells, origin, hCells, hCell⟩
    exact ⟨label, cells, hCells, _, outputByte, hCell, origin, rfl, rfl, rfl⟩

/-- No place is listed twice. -/
theorem nodup_places (layouts : List Layout) : (places layouts).Nodup := by
  rw [places, List.Nodup, List.pairwise_flatMap]
  constructor
  · rintro ⟨label, cells⟩ _
    apply List.pairwise_filterMap.mpr
    apply (zipIdx_ascending cells).imp
    rintro ⟨cell, outputByte⟩ ⟨cell', outputByte'⟩ hLt place hPlace place' hPlace' rfl
    obtain ⟨_, _, rfl⟩ := Option.map_eq_some_iff.mp hPlace
    obtain ⟨_, _, hSame⟩ := Option.map_eq_some_iff.mp hPlace'
    cases hSame
    exact Nat.lt_irrefl _ hLt
  · apply (labelledWords_ascending layouts).imp
    rintro ⟨label, cells⟩ ⟨label', cells'⟩ hLt place hPlace place' hPlace' rfl
    obtain ⟨⟨_, _⟩, _, hMap⟩ := List.mem_filterMap.mp hPlace
    obtain ⟨⟨_, _⟩, _, hMap'⟩ := List.mem_filterMap.mp hPlace'
    obtain ⟨_, _, rfl⟩ := Option.map_eq_some_iff.mp hMap
    obtain ⟨_, _, hSame⟩ := Option.map_eq_some_iff.mp hMap'
    cases hSame
    simp [ReflOrd.compare_self] at hLt

theorem data_eq_flatMap (layout : Layout) : layout.data = layout.words.flatMap (·.filterMap id) :=
  List.filterMap_flatten

/-- The bytes of a word are bytes of its layout. -/
theorem exists_mem_data {label : WordLabel} {cells : List Cell} {origin : Origin}
    (hCells : wordAt? layouts label = some cells) (hMem : some origin ∈ cells) :
    ∃ layout ∈ layouts, origin ∈ layout.data := by
  obtain ⟨layout, hLayout, hWord⟩ := Option.bind_eq_some_iff.mp hCells
  refine ⟨layout, List.mem_of_getElem? hLayout, ?_⟩
  rw [data_eq_flatMap, List.mem_flatMap]
  exact ⟨cells, List.mem_of_getElem? hWord, mem_filterMap_id.mpr hMem⟩

theorem length_filterMap_zipIdx {label : WordLabel} {cells : List Cell} (start : Nat) :
    ((cells.zipIdx start).filterMap fun (cell, outputByte) =>
        cell.map fun _ => (label, outputByte)).length = (cells.filterMap id).length := by
  induction cells generalizing start with
  | nil => rfl
  | cons cell cells ih => cases cell <;> simp [List.zipIdx_cons, ih]

/-- There are as many places as bytes. -/
theorem length_places (layouts : List Layout) :
    (places layouts).length = (layouts.flatMap Layout.data).length := by
  have hCells : (labelledWords layouts).map Prod.snd = layouts.flatMap Layout.words := by
    conv => rhs; rw [← List.zipIdx_map_fst 0 layouts, List.flatMap_map]
    rw [labelledWords, List.map_flatMap]
    congr 1
    funext layout
    rw [List.map_map]
    exact List.zipIdx_map_fst ..
  calc (places layouts).length
      = (((labelledWords layouts).map Prod.snd).flatMap fun cells => cells.filterMap id).length := by
        rw [places, List.length_flatMap, List.length_flatMap, List.map_map]
        simp only [length_filterMap_zipIdx]
        rfl
    _ = (layouts.flatMap Layout.data).length := by
        rw [hCells, List.flatMap_assoc, funext data_eq_flatMap]

end Labels

section Recovery

variable {wordBytes streamCount : Nat} {layouts : List Layout} {inversion : Inversion}
  {subStates : SubStates}

/-- Layouts can be inverted if all of their words fit. -/
theorem exists_ofLayouts_iff :
    (∃ inversion, ofLayouts wordBytes layouts streamCount = .ok inversion) ↔
      ∀ label cells, wordAt? layouts label = some cells →
        FitsWord wordBytes streamCount cells := by
  constructor
  · rintro ⟨inversion, h⟩ label cells hCells
    obtain ⟨hWidth, hKnown⟩ := (ofLayouts_eq_ok h).2.2.1 label cells hCells
    exact ⟨hWidth, hKnown⟩
  · intro hFits
    apply exists_ofLayouts
    intro layout hLayout cells hCells
    obtain ⟨index, hIndex⟩ := List.mem_iff_getElem?.mp hLayout
    obtain ⟨word, hWord⟩ := List.mem_iff_getElem?.mp hCells
    obtain ⟨hWidth, hKnown⟩ := hFits ⟨index, word⟩ cells (by rw [wordAt?_of_layout hIndex, hWord])
    exact ⟨hWidth, hKnown⟩

/-- Otherwise it fails for what is wrong with the first word that does not fit. -/
theorem ofLayouts_eq_error_iff {e : Violation} :
    ofLayouts wordBytes layouts streamCount = .error e ↔
      ∃ label cells, wordAt? layouts label = some cells ∧
        Misfit wordBytes streamCount cells e ∧
        ∀ earlier cells', wordAt? layouts earlier = some cells' → compare earlier label = .lt →
          FitsWord wordBytes streamCount cells' := by
  have hPass : ofLayouts wordBytes layouts streamCount = .error e ↔
      ((labelledWords layouts).mapM fun (label, cells) =>
        wordUses wordBytes streamCount label cells) = .error e := by
    rw [ofLayouts, bind_eq_error]
    simp [pure, Except.pure]
  rw [hPass, mapM_eq_error_iff_of_pairwise
    (fun a b hLt hGt => by simp [OrientedCmp.gt_of_lt hLt] at hGt) (labelledWords_ascending layouts)]
  simp only [Prod.exists, mem_labelledWords, wordUses_eq_error_iff, Prod.forall,
    exists_wordUses_iff]

section Inverted

variable (h : ofLayouts wordBytes layouts streamCount = .ok inversion)

include h

/-- The uses are those of the bytes at all places. -/
theorem mem_uses_iff {use : ByteUse} :
    use ∈ inversion.uses ↔ ∃ cells, wordAt? layouts use.label = some cells ∧
      SitsAt cells use.outputByte use.source := by
  rw [(ofLayouts_eq_ok h).2.2.2]
  simp only [sitsAt_iff]
  constructor
  · rintro ⟨label, cells, outputByte, origin, hCells, hCell, rfl⟩
    exact ⟨cells, hCells, origin, hCell, (source_useOf ..).symm⟩
  · rintro ⟨cells, hCells, origin, hCell, hSource⟩
    refine ⟨use.label, cells, use.outputByte, origin, hCells, hCell, ?_⟩
    rw [← source_useOf use.label cells use.outputByte] at hSource
    cases use
    cases hSource
    rfl

/-- The byte at a place has one use. -/
theorem existsUnique_use {label : WordLabel} {cells : List Cell} {outputByte : Nat}
    {origin : Origin} (hCells : wordAt? layouts label = some cells)
    (hCell : cells[outputByte]? = some (some origin)) :
    ∃! use, use ∈ inversion.uses ∧ use.label = label ∧ use.outputByte = outputByte := by
  refine ⟨useOf label (firstWords cells) outputByte origin, ⟨?_, rfl, rfl⟩, ?_⟩
  · exact ((ofLayouts_eq_ok h).2.2.2 _).mpr ⟨label, cells, outputByte, origin, hCells, hCell, rfl⟩
  · rintro use ⟨hUse, rfl, rfl⟩
    exact eq_of_mem_uses h hUse
      (((ofLayouts_eq_ok h).2.2.2 _).mpr ⟨_, cells, _, origin, hCells, hCell, rfl⟩) rfl rfl

/-- There are as many uses as bytes. -/
theorem size_uses :
    inversion.uses.size = (layouts.flatMap Layout.data).length := by
  have hPlaces : (inversion.uses.toList.map fun use => (use.label, use.outputByte)).Perm
      (places layouts) := by
    rw [List.perm_ext_iff_of_nodup ?_ (nodup_places layouts)]
    · rintro ⟨label, outputByte⟩
      rw [mem_places, List.mem_map]
      constructor
      · rintro ⟨use, hUse, hPlace⟩
        cases hPlace
        obtain ⟨cells, hCells, origin, _, hCell, _⟩ := (mem_uses_iff h).mp hUse
        exact ⟨cells, origin, hCells, hCell⟩
      · rintro ⟨cells, origin, hCells, hCell⟩
        obtain ⟨use, ⟨hUse, rfl, rfl⟩, _⟩ := existsUnique_use h hCells hCell
        exact ⟨use, hUse, rfl⟩
    · refine (SortedSet.nodup_toList inversion.uses).map_on fun use hUse other hOther hSame => ?_
      exact eq_of_mem_uses h hUse hOther (Prod.mk.inj hSame).1 (Prod.mk.inj hSame).2
  rw [SortedSet.size, ← length_places, ← hPlaces.length_eq, List.length_map]

/-- The use of a byte is found under the stream and the byte. -/
theorem exists_usesOf? (hBytes : ∀ layout ∈ layouts, ∀ origin ∈ layout.data,
      origin.byte < wordBytes) {use : ByteUse} (hUse : use ∈ inversion.uses) :
    ∃ found, inversion.usesOf? use.stream use.byte = some found ∧ use ∈ found := by
  obtain ⟨hWidth, hCount, hWords, hUses⟩ := ofLayouts_eq_ok h
  obtain ⟨label, cells, outputByte, origin, hCells, hCell, rfl⟩ := (hUses use).mp hUse
  have hMem := List.mem_of_getElem? hCell
  have hStream := (hWords label cells hCells).2 origin hMem
  obtain ⟨layout, hLayout, hData⟩ := exists_mem_data hCells hMem
  have hByte := hBytes layout hLayout origin hData
  refine ⟨_, if_pos ⟨hCount ▸ hStream, hWidth ▸ hByte⟩, ?_⟩
  simpa [SortedSet.mem_toList] using hUse

/-- The sub-states are the words that hold a byte. -/
theorem getElem?_subStates_eq_some_iff (hStates : inversion.subStates = .ok subStates)
    {label : WordLabel} {s : SubState} :
    subStates[label]? = some s ↔ ∃ cells, wordAt? layouts label = some cells ∧
      (∃ origin, some origin ∈ cells) ∧ s.label = label ∧ s.sources.length = wordBytes ∧
      ∀ outputByte source, s.sources[outputByte]? = some (some source) ↔
        SitsAt cells outputByte source := by
  have hWidth := (ofLayouts_eq_ok h).1
  have hWords := (ofLayouts_eq_ok h).2.2.1
  constructor
  · intro hFound
    obtain ⟨cells, hCells, hSources, hByte⟩ := exists_word_of_subState h hStates hFound
    have hLength := length_sources_of_subStates hStates hFound
    exact ⟨cells, hCells, hByte, label_of_subStates hStates hFound, hLength.trans hWidth,
      (eq_wordSources_iff.mp hSources).2⟩
  · rintro ⟨cells, hCells, ⟨origin, hByte⟩, hLabel, hLength, hSources⟩
    obtain ⟨found, hFound, hFoundSources⟩ := getElem?_subStates h hStates hCells hByte
    have hSame : s.sources = wordSources cells :=
      eq_wordSources_iff.mpr ⟨hLength.trans (hWords label cells hCells).1.symm, hSources⟩
    have hFoundLabel := label_of_subStates hStates hFound
    rw [hFound]
    exact congrArg some (congrArg₂ SubState.mk (hFoundLabel.trans hLabel.symm)
      (hFoundSources.trans hSame.symm))

theorem takenAt_iff {stream stage : Nat} :
    TakenAt layouts stream stage ↔
      ∃ use ∈ inversion.uses, use.stream = stream ∧ use.stage = stage := by
  constructor
  · rintro ⟨label, cells, outputByte, source, hCells, hSource, rfl, rfl⟩
    exact ⟨⟨source.stream, source.byte, label, source.stage, outputByte, source.inLastWord⟩,
      (mem_uses_iff h).mpr ⟨cells, hCells, hSource⟩, rfl, rfl⟩
  · rintro ⟨use, hUse, rfl, rfl⟩
    obtain ⟨cells, hCells, hSource⟩ := (mem_uses_iff h).mp hUse
    exact ⟨use.label, cells, use.outputByte, use.source, hCells, hSource, rfl, rfl⟩

/-- The lookahead of a stream is the greatest stage at which one of its bytes is taken. -/
theorem exists_lookahead {stream : Nat} (hStream : stream < streamCount) : ∃ stage,
    inversion.lookahead[stream]? = some stage ∧
      (IsGreatest { stage | TakenAt layouts stream stage } stage ∨
        (∀ stage, ¬TakenAt layouts stream stage) ∧ stage = 0) := by
  simp only [takenAt_iff h]
  rw [lookahead_eq, (ofLayouts_eq_ok h).2.1, List.getElem?_map, List.getElem?_range hStream,
    Option.map_some]
  refine ⟨_, rfl, ?_⟩
  have hMem : ∀ stage, stage ∈
      (inversion.uses.toList.filter (·.stream == stream)).map ByteUse.stage ↔
        ∃ use ∈ inversion.uses, use.stream = stream ∧ use.stage = stage := by
    simp [SortedSet.mem_toList, and_assoc]
  simp only [← hMem]
  cases hMax : ((inversion.uses.toList.filter (·.stream == stream)).map ByteUse.stage).max? with
  | none =>
      right
      rw [List.max?_eq_none_iff.mp hMax]
      exact ⟨fun stage => List.not_mem_nil, rfl⟩
  | some stage => exact .inl (List.max?_eq_some_iff.mp hMax)

end Inverted

/-- Inversion loses nothing. It succeeds if and only if all words fit, and otherwise fails for what
is wrong with the first word that does not; a byte never precedes the first word of its stream.
The uses are those of the bytes, each byte has one, and none is found elsewhere. Collected
by label they are the words that hold a byte, and no place is taken twice. The lookahead of a
stream is its greatest stage, or zero if none of its bytes is used. -/
theorem ofLayouts_lossless (hBytes : ∀ layout ∈ layouts, ∀ origin ∈ layout.data,
      origin.byte < wordBytes) :
    (∀ e, ofLayouts wordBytes layouts streamCount = .error e ↔
      ∃ label cells, wordAt? layouts label = some cells ∧ Misfit wordBytes streamCount cells e ∧
        ∀ earlier cells', wordAt? layouts earlier = some cells' → compare earlier label = .lt →
          FitsWord wordBytes streamCount cells') ∧
    (∀ label stream, ofLayouts wordBytes layouts streamCount ≠
      .error (.negativeStage label stream)) ∧
    ((∃ inversion, ofLayouts wordBytes layouts streamCount = .ok inversion) ↔
      ∀ label cells, wordAt? layouts label = some cells →
        FitsWord wordBytes streamCount cells) ∧
    ∀ inversion, ofLayouts wordBytes layouts streamCount = .ok inversion →
      (∃ subStates, inversion.subStates = .ok subStates ∧
        ∀ (label : WordLabel) s, subStates[label]? = some s ↔
          ∃ cells, wordAt? layouts label = some cells ∧ (∃ origin, some origin ∈ cells) ∧
            s.label = label ∧ s.sources.length = wordBytes ∧
            ∀ outputByte source, s.sources[outputByte]? = some (some source) ↔
              SitsAt cells outputByte source) ∧
      (inversion.lookahead.length = streamCount ∧
        ∀ stream < streamCount, ∃ stage, inversion.lookahead[stream]? = some stage ∧
          (IsGreatest { stage | TakenAt layouts stream stage } stage ∨
            (∀ stage, ¬TakenAt layouts stream stage) ∧ stage = 0)) ∧
      (∀ use, use ∈ inversion.uses ↔ ∃ cells, wordAt? layouts use.label = some cells ∧
        SitsAt cells use.outputByte use.source) ∧
      (∀ use ∈ inversion.uses, ∃ found,
        inversion.usesOf? use.stream use.byte = some found ∧ use ∈ found) ∧
      (∀ label cells (outputByte : Nat) origin, wordAt? layouts label = some cells →
        cells[outputByte]? = some (some origin) →
          ∃! use, use ∈ inversion.uses ∧ use.label = label ∧ use.outputByte = outputByte) ∧
      inversion.uses.size = (layouts.flatMap Layout.data).length := by
  refine ⟨fun e => ofLayouts_eq_error_iff, fun label stream hError => ?_, exists_ofLayouts_iff,
    fun inversion h => ⟨?_, ⟨?_, fun stream => exists_lookahead h⟩, fun use => mem_uses_iff h,
      fun use => exists_usesOf? h hBytes,
      fun label cells outputByte origin => existsUnique_use h, size_uses h⟩⟩
  · obtain ⟨_, _, _, hMisfit, _⟩ := ofLayouts_eq_error_iff.mp hError
    cases hMisfit
  · obtain ⟨subStates, hStates⟩ := exists_subStates h
    exact ⟨subStates, hStates, fun label s => getElem?_subStates_eq_some_iff h hStates⟩
  · rw [lookahead, List.length_map, List.length_range, (ofLayouts_eq_ok h).2.1]

/-- A word with the end of an input word and the start of the next one, then a word of another
stream. -/
def splitPair : Layout :=
  ⟨[[some ⟨0, 0, 1, false⟩, some ⟨0, 1, 0, true⟩], [some ⟨1, 0, 0, true⟩, none]]⟩

/-- The same layout twice: each of its bytes has a use of its own. -/
theorem ofLayouts_lossless_splitPair : ∃ inversion subStates,
    ofLayouts 2 [splitPair, splitPair] 2 = .ok inversion ∧
      inversion.subStates = .ok subStates ∧ inversion.uses.size = 6 ∧
      ∃ s, subStates[(⟨1, 0⟩ : WordLabel)]? = some s ∧
        s.sources = [some ⟨0, 0, 1, false⟩, some ⟨0, 1, 0, true⟩] := by
  have h : ofLayouts 2 [splitPair, splitPair] 2 = .ok _ := rfl
  obtain ⟨_, _, _, hLossless⟩ :=
    @ofLayouts_lossless 2 2 [splitPair, splitPair] (by decide)
  obtain ⟨⟨subStates, hStates, hWords⟩, _, _, _, _, hSize⟩ := hLossless _ h
  have hSources : [some ⟨0, 0, 1, false⟩, some ⟨0, 1, 0, true⟩] =
      wordSources [some ⟨0, 0, 1, false⟩, some ⟨0, 1, 0, true⟩] := rfl
  refine ⟨_, subStates, h, hStates, hSize, ⟨⟨1, 0⟩, _⟩, (hWords _ _).mpr ?_, rfl⟩
  exact ⟨_, rfl, ⟨_, List.mem_cons_self⟩, rfl, rfl, (eq_wordSources_iff.mp hSources).2⟩

/-- A byte of the last stream that a size can number is not reported as one of an unknown
stream. -/
theorem ofLayouts_lastStream : ∃ layout,
    place 1 maxSize 1 0 0 = .ok layout ∧
      ofLayouts 1 [layout] 1 = .error .countOverflow ∧
      ofLayouts 1 [layout] 1 ≠ .error (.streamCountMismatch 1 (maxSize + 1)) := by
  have hPlace : place 1 maxSize 1 0 0 = .ok _ := rfl
  exact ⟨_, hPlace, by rfl, by decide⟩

end Recovery

end Inversion

end StreamSplice
