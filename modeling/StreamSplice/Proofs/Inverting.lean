import StreamSplice.Proofs.InvertedContexts

/-! Inversion never fails on layouts whose words fit. No byte precedes the first word of its
stream, and every output byte has at most one source, so the uses of the bytes can be
collected into sub-states again, and exactly the words that hold a byte have one. -/
namespace StreamSplice

open Std Layout

namespace Inversion

section Words

variable {wordBytes streamCount : Nat} {label : WordLabel} {cells : List Cell}

/-- No byte of a word precedes the first word of its stream. -/
theorem precedesFirst_eq_false {origin : Origin} (hMem : some origin ∈ cells) :
    precedesFirst (firstWords cells) origin = false := by
  have hWord : origin.word ∈
      ((cells.filterMap id).filter (·.stream == origin.stream)).map Origin.word :=
    List.mem_map_of_mem (by simpa using hMem)
  obtain ⟨first, hFirst⟩ :=
    Option.isSome_iff_exists.mp (List.isSome_min?_of_ne_nil (List.ne_nil_of_mem hWord))
  have hLeast := (List.min?_eq_some_iff.mp hFirst).2 _ hWord
  rw [precedesFirst, getElem?_firstWords, hFirst]
  simpa using hLeast

/-- A word that is as wide as it has to be, and holds bytes of known streams, has uses. -/
theorem exists_wordUses (hLength : cells.length = wordBytes)
    (hStreams : ∀ origin, some origin ∈ cells → origin.stream < streamCount) :
    ∃ uses, wordUses wordBytes streamCount label cells = .ok uses := by
  have hKnown : (cells.filterMap id).find? (streamCount ≤ ·.stream) = none :=
    List.find?_eq_none.mpr fun origin hMem => by
      simpa using hStreams origin (mem_filterMap_id.mp hMem)
  have hOrdered : (cells.filterMap id).find? (precedesFirst (firstWords cells)) = none :=
    List.find?_eq_none.mpr fun origin hMem => by
      simp [precedesFirst_eq_false (mem_filterMap_id.mp hMem)]
  simp only [wordUses, hLength, hKnown, hOrdered, ne_eq, not_true_eq_false, if_false]
  exact ⟨_, rfl⟩

/-- Layouts whose words fit can be inverted. -/
theorem exists_ofLayouts {layouts : List Layout}
    (h : ∀ layout ∈ layouts, ∀ cells ∈ layout.words, cells.length = wordBytes ∧
      ∀ origin, some origin ∈ cells → origin.stream < streamCount) :
    ∃ inversion, ofLayouts wordBytes layouts streamCount = .ok inversion := by
  have hEach : ∀ word ∈ labelledWords layouts,
      ∃ uses, wordUses wordBytes streamCount word.1 word.2 = .ok uses := by
    rintro ⟨label, cells⟩ hMem
    obtain ⟨layout, hLayout, hCells⟩ := Option.bind_eq_some_iff.mp (mem_labelledWords.mp hMem)
    obtain ⟨hLength, hStreams⟩ :=
      h layout (List.mem_of_getElem? hLayout) cells (List.mem_of_getElem? hCells)
    exact exists_wordUses hLength hStreams
  obtain ⟨perWord, hWords⟩ := exists_mapM_eq_ok hEach
  exact ⟨_, bind_eq_ok.mpr ⟨perWord, hWords, rfl⟩⟩

end Words

section Collection

variable {wordBytes : Nat} {found : SubStates} {use : ByteUse} {uses : List ByteUse}

/-- A use can be collected if its output byte is in the word and has no source yet. -/
theorem exists_collect
    (hWidth : ∀ (label : WordLabel) (s : SubState), found[label]? = some s →
      s.sources.length = wordBytes)
    (hByte : use.outputByte < wordBytes)
    (hFree : ∀ source, ¬Drives found use.label use.outputByte source) :
    ∃ next, collect wordBytes found use = .ok next := by
  have hBlank : (found[use.label]?.getD (.blank use.label wordBytes)).sources[use.outputByte]? =
      some none := by
    cases hLookup : found[use.label]? with
    | none => simp [SubState.blank, hByte]
    | some s =>
        obtain ⟨cell, hCell⟩ : ∃ cell, s.sources[use.outputByte]? = some cell :=
          ⟨_, List.getElem?_eq_getElem (hWidth _ s hLookup ▸ hByte)⟩
        cases cell with
        | none => rw [Option.getD_some, hCell]
        | some source => exact absurd ⟨s, hLookup, hCell⟩ (hFree source)
  exact ⟨_, collect_eq_ok.mpr ⟨_, SubState.assign_eq_ok.mpr ⟨hBlank, rfl⟩, rfl⟩⟩

/-- Uses of different output bytes can all be collected. -/
theorem exists_foldlM_collect
    (hWidth : ∀ (label : WordLabel) (s : SubState), found[label]? = some s →
      s.sources.length = wordBytes)
    (hBytes : ∀ use ∈ uses, use.outputByte < wordBytes)
    (hFree : ∀ use ∈ uses, ∀ source, ¬Drives found use.label use.outputByte source)
    (hDistinct : uses.Pairwise fun a b => a.label = b.label → a.outputByte ≠ b.outputByte) :
    ∃ next, uses.foldlM (collect wordBytes) found = .ok next := by
  induction uses generalizing found with
  | nil => exact ⟨found, rfl⟩
  | cons use uses ih =>
      rw [List.forall_mem_cons] at hBytes hFree
      rw [List.pairwise_cons] at hDistinct
      obtain ⟨middle, hHead⟩ := exists_collect hWidth hBytes.1 hFree.1
      have hStillFree : ∀ other ∈ uses, ∀ source,
          ¬Drives middle other.label other.outputByte source := by
        intro other hOther source hDrives
        rcases (drives_collect hHead).mp hDrives with hEarlier | ⟨hLabel, hByte, _⟩
        · exact hFree.2 other hOther source hEarlier
        · exact hDistinct.1 other hOther hLabel hByte
      obtain ⟨next, hTail⟩ :=
        ih (length_sources_collect hWidth hHead) hBytes.2 hStillFree hDistinct.2
      exact ⟨next, by rw [List.foldlM_cons, bind_eq_ok]; exact ⟨middle, hHead, hTail⟩⟩

end Collection

section SubStates

variable {wordBytes streamCount : Nat} {layouts : List Layout} {inversion : Inversion}
  {subStates : SubStates} (h : ofLayouts wordBytes layouts streamCount = .ok inversion)

include h

/-- The uses of layouts are told apart by their output bytes. -/
theorem eq_of_mem_uses {use other : ByteUse} (hUse : use ∈ inversion.uses)
    (hOther : other ∈ inversion.uses) (hLabel : use.label = other.label)
    (hByte : use.outputByte = other.outputByte) : use = other := by
  obtain ⟨_, _, _, hUses⟩ := ofLayouts_eq_ok h
  obtain ⟨label, cells, outputByte, origin, hCells, hCell, rfl⟩ := (hUses use).mp hUse
  obtain ⟨label', cells', outputByte', origin', hCells', hCell', rfl⟩ := (hUses other).mp hOther
  obtain rfl : label = label' := hLabel
  obtain rfl : outputByte = outputByte' := hByte
  cases hCells.symm.trans hCells'
  cases hCell.symm.trans hCell'
  rfl

/-- The uses of layouts can be collected into sub-states. -/
theorem exists_subStates : ∃ subStates, inversion.subStates = .ok subStates := by
  obtain ⟨hWidth, _, hWords, hUses⟩ := ofLayouts_eq_ok h
  refine exists_foldlM_collect (by simp) (fun use hUse => ?_) (by simp [Drives]) ?_
  · obtain ⟨label, cells, outputByte, origin, hCells, hCell, rfl⟩ := (hUses use).mp hUse
    rw [hWidth, ← (hWords label cells hCells).1]
    exact (List.getElem?_eq_some_iff.mp hCell).1
  · refine inversion.uses.ascending.imp_of_mem fun {a b} ha hb hOrder hLabel hByte => ?_
    rw [eq_of_mem_uses h ha hb hLabel hByte, ReflOrd.compare_self] at hOrder
    cases hOrder

/-- A sub-state belongs to a word that holds a byte, and has the sources of the word. -/
theorem exists_word_of_subState (hStates : inversion.subStates = .ok subStates)
    {label : WordLabel} {s : SubState} (hFound : subStates[label]? = some s) :
    ∃ cells, wordAt? layouts label = some cells ∧ s.sources = wordSources cells ∧
      ∃ origin, some origin ∈ cells := by
  obtain ⟨_, _, _, hUses⟩ := ofLayouts_eq_ok h
  have hPresent : subStates[label]?.isSome := by rw [hFound]; rfl
  rcases (isSome_foldlM hStates).mp hPresent with hNone | ⟨use, hUse, rfl⟩
  · simp at hNone
  · obtain ⟨label, cells, outputByte, origin, hCells, hCell, rfl⟩ := (hUses use).mp hUse
    have hByte := List.mem_of_getElem? hCell
    obtain ⟨s', hFound', hSources⟩ := getElem?_subStates h hStates hCells hByte
    cases hFound.symm.trans hFound'
    exact ⟨cells, hCells, hSources, origin, hByte⟩

end SubStates

end Inversion

end StreamSplice
