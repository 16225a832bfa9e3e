import StreamSplice.Proofs.Checking
import StreamSplice.Proofs.CrossProduct
import StreamSplice.Proofs.Following

/-! Two ways of finding where the next stream starts. The walk over all lengths, wherever it has an
outcome, finds the offsets at which the sampled frames end. -/
namespace StreamSplice

open Layout

namespace Stream

variable {stream : Stream} {wordBytes index offset : Nat} {layouts : List Layout}

/-- The layouts of a stream end where its frames do, those that are not sampled included. -/
theorem mem_map_endOffset?_iff (h : stream.layouts wordBytes index offset = .ok layouts)
    (hStarts : ∃ inputOffset, inputOffset ∈ stream.startOffsets) {next : Nat} :
    next ∈ layouts.map (fun layout => (layout.endOffset? wordBytes).getD offset) ↔
      ∃ count, stream.lengths.admits count ∧ count ≤ maxSize ∧
        (offset + count * stream.elementBytes) % wordBytes = next := by
  have hEnd : ∀ {inputOffset counts}, representativeCounts wordBytes offset inputOffset
      stream.elementBytes stream.lengths = .ok counts → ∀ count,
      (offset + representativeSize wordBytes (max offset inputOffset) stream.elementBytes count) %
        wordBytes = (offset + count * stream.elementBytes) % wordBytes := by
    intro inputOffset counts hCounts count
    obtain ⟨hOutput, hInput, _⟩ := representativeCounts_eq_ok hCounts
    rw [Nat.mul_comm count]
    exact (representativeSize_modEq _ count (Nat.max_lt.mpr ⟨hOutput, hInput⟩)).add_left offset
  obtain ⟨hEach, hFrom⟩ := layouts_eq_ok h
  rw [List.mem_map]
  constructor
  · rintro ⟨layout, hLayout, rfl⟩
    obtain ⟨inputOffset, _, counts, hCounts, size, hSize, hPlace⟩ := hFrom layout hLayout
    obtain ⟨count, hAdmits, hCount, rfl⟩ := (mem_representativeCounts hCounts).mp hSize
    refine ⟨count, hAdmits, hCount, ?_⟩
    rw [endOffset?_of_place hPlace, hEnd hCounts]
  · rintro ⟨count, hAdmits, hCount, rfl⟩
    obtain ⟨inputOffset, hInput⟩ := hStarts
    obtain ⟨counts, hCounts, hPlaced⟩ := hEach inputOffset hInput
    obtain ⟨layout, hLayout, hPlace⟩ :=
      hPlaced _ ((mem_representativeCounts hCounts).mpr ⟨count, hAdmits, hCount, rfl⟩)
    refine ⟨layout, hLayout, ?_⟩
    rw [endOffset?_of_place hPlace, hEnd hCounts]

section Fits

variable (h : stream.layouts wordBytes index offset = .ok layouts)
  (hStarts : ∃ inputOffset, inputOffset ∈ stream.startOffsets)

include h hStarts

/-- If the sampled frames can be placed, the shortest one has no more bytes than the largest
size. -/
theorem shortest_mul_le_of_layouts (hWidth : wordBytes ≤ maxSize)
    (hShortest : stream.lengths.shortest ≤ maxSize)
    (hAdmits : stream.lengths.admits stream.lengths.shortest) :
    stream.lengths.shortest * stream.elementBytes ≤ maxSize := by
  obtain ⟨inputOffset, hInput⟩ := hStarts
  obtain ⟨counts, hCounts, _⟩ := (layouts_eq_ok h).1 inputOffset hInput
  obtain ⟨hOutput, hInput, hElement, hFits, _⟩ := representativeCounts_eq_ok hCounts
  have hLast : stream.lengths.shortest ≤ stream.lengths.lastSample wordBytes := by
    rw [Lengths.lastSample_eq]
    cases hLongest : stream.lengths.longest with
    | none =>
        rw [Option.getD_none]
        omega
    | some longest =>
        have := hAdmits.2 longest hLongest
        rw [Option.getD_some]
        omega
  have hSize : max offset inputOffset + stream.elementBytes * stream.lengths.shortest ≤ maxSize :=
    (lt_leastOversized_iff hElement (by omega)).mp (by omega)
  rw [Nat.mul_comm]
  omega

/-- Unless all frames are empty, one of their layouts has a word, and that is as wide as the others.
No frame is shortened to nothing. -/
theorem exists_word_of_layouts {count : Nat} (hAdmits : stream.lengths.admits count)
    (hSize : count ≤ maxSize) (hCount : 0 < count) :
    ∃ layout ∈ layouts, ∃ word ∈ layout.words, word.length = wordBytes := by
  obtain ⟨inputOffset, hInput⟩ := hStarts
  obtain ⟨counts, hCounts, hPlaced⟩ := (layouts_eq_ok h).1 inputOffset hInput
  obtain ⟨hOutput, hInput, hElement, _⟩ := representativeCounts_eq_ok hCounts
  obtain ⟨layout, hLayout, hPlace⟩ :=
    hPlaced _ ((mem_representativeCounts hCounts).mpr ⟨count, hAdmits, hSize, rfl⟩)
  have hBytes : 0 < representativeSize wordBytes (max offset inputOffset)
      stream.elementBytes count := by
    obtain ⟨surplus, hSurplus, _, hFull⟩ := exists_eq_representativeSize_add
      stream.elementBytes count (Nat.max_lt.mpr ⟨hOutput, hInput⟩)
    have hPositive := Nat.mul_pos hElement hCount
    rcases Nat.eq_zero_or_pos surplus with rfl | hSome
    · omega
    · have := hFull hSome
      omega
  obtain ⟨_, _, ⟨hNone, _⟩ | ⟨_, _, rfl⟩⟩ := place_eq_ok.mp hPlace
  · omega
  · refine ⟨_, hLayout, (List.length_pos_iff_exists_mem.mp ?_).imp fun word hWord =>
      ⟨hWord, length_of_mem_cut hWord⟩⟩
    rw [length_words_ofData, lt_wordsSpanned_iff (by omega), Pipeline.Frame.length_origins]
    simp only
    omega

/-- If the sampled frames can be placed, all results that the walk needs are sizes. A word of a
layout is a list of cells, so a sum of two offsets in it is a size. -/
theorem fits_of_layouts (hWidth : wordBytes ≤ maxSize) (hPositive : 0 < wordBytes)
    (hShortest : stream.lengths.shortest ≤ maxSize)
    (hAdmits : stream.lengths.admits stream.lengths.shortest)
    (hLength : ∀ layout ∈ layouts, ∀ word ∈ layout.words, word.length ≤ maxLength) :
    stream.Fits wordBytes := by
  have hStep : stream.elementBytes % wordBytes < wordBytes := Nat.mod_lt _ hPositive
  constructor
  · calc stream.lengths.shortest % wordBytes * (stream.elementBytes % wordBytes)
        ≤ stream.lengths.shortest * stream.elementBytes :=
          Nat.mul_le_mul (Nat.mod_le ..) (Nat.mod_le ..)
      _ ≤ maxSize := shortest_mul_le_of_layouts h hStarts hWidth hShortest hAdmits
  · intro count hCount hHere
    rcases Nat.eq_zero_or_pos count with rfl | hSome
    · rw [offsetAfter, Nat.zero_mul, Nat.zero_mod]
      omega
    · have hOffset : stream.offsetAfter wordBytes count < wordBytes := Nat.mod_lt _ hPositive
      obtain ⟨layout, hLayout, word, hWord, rfl⟩ :=
        exists_word_of_layouts h hStarts hHere (by omega) hSome
      have := hLength layout hLayout word hWord
      simp only [maxSize, maxLength] at *
      omega

end Fits

/-- The walk and the enumeration agree on where the next stream may start: from the start of the
frames on, the walk leads to the offsets at which the layouts end. It has an outcome whenever the
words of the layouts are not longer than a list can be, since a sum of two offsets in such a word is
a size. In wider words no frame with bytes can be laid out, and the others need no sum. -/
theorem endOffsets_eq_followingOffsets {u : Unit} (hCheck : stream.check wordBytes = .ok u)
    (hWidth : wordBytes ≤ maxSize) (hShortest : stream.lengths.shortest ≤ maxSize)
    (h : stream.layouts wordBytes index offset = .ok layouts) :
    (∀ following, stream.followingOffsets wordBytes = some following →
      SortedSet.ofList (layouts.map fun layout => (layout.endOffset? wordBytes).getD offset) =
        .ofList (following.toList.map fun further => (offset + further) % wordBytes)) ∧
    ((∀ layout ∈ layouts, ∀ word ∈ layout.words, word.length ≤ maxLength) →
      ∃ following, stream.followingOffsets wordBytes = some following) := by
  obtain ⟨_, _, hSome, hInWord, hRange⟩ := check_eq_ok_iff.mp hCheck
  have hStarts : ∃ inputOffset, inputOffset ∈ stream.startOffsets :=
    List.exists_mem_of_ne_nil _ (by simpa [SortedSet.isEmpty] using hSome)
  have hPositive : 0 < wordBytes := by
    obtain ⟨inputOffset, hInput⟩ := hStarts
    exact Nat.zero_lt_of_lt (hInWord inputOffset hInput)
  constructor
  · intro following hFollowing
    have hMem := mem_followingOffsets_iff hPositive hShortest hFollowing
    refine SortedSet.ofList_eq_iff.mpr fun next => ?_
    rw [mem_map_endOffset?_iff h hStarts, List.mem_map]
    constructor
    · rintro ⟨count, hAdmits, hSize, rfl⟩
      refine ⟨stream.offsetAfter wordBytes count, (hMem _).mpr ⟨count, hAdmits, hSize, rfl⟩, ?_⟩
      exact Nat.add_mod_mod ..
    · rintro ⟨further, hFurther, rfl⟩
      obtain ⟨count, hAdmits, hSize, rfl⟩ := (hMem further).mp hFurther
      exact ⟨count, hAdmits, hSize, (Nat.add_mod_mod ..).symm⟩
  · intro hLength
    obtain ⟨following, hFollowing, _⟩ := exists_followingOffsets hPositive hShortest
      (fits_of_layouts h hStarts hWidth hPositive hShortest ⟨Nat.le_refl _, hRange⟩ hLength)
    exact ⟨following, hFollowing⟩

/-- Pairs of bytes from either byte on, in words of three, and frames without bytes in words of the
largest size. -/
theorem endOffsets_eq_followingOffsets_pairs :
    (∃ layouts following,
      (⟨16, .ofList [0, 1], ⟨3, some 4⟩⟩ : Stream).layouts 3 0 1 = .ok layouts ∧
      (⟨16, .ofList [0, 1], ⟨3, some 4⟩⟩ : Stream).followingOffsets 3 = some following ∧
      following = .ofList [0, 2] ∧
      SortedSet.ofList (layouts.map fun layout => (layout.endOffset? 3).getD 1) =
        .ofList (following.toList.map fun further => (1 + further) % 3)) ∧
    ∃ layouts following,
      (⟨16, .ofList [0], ⟨0, some 0⟩⟩ : Stream).layouts maxSize 0 7 = .ok layouts ∧
      (⟨16, .ofList [0], ⟨0, some 0⟩⟩ : Stream).followingOffsets maxSize = some following ∧
      SortedSet.ofList (layouts.map fun layout => (layout.endOffset? maxSize).getD 7) =
        .ofList (following.toList.map fun further => (7 + further) % maxSize) := by
  constructor
  · have h : (⟨16, .ofList [0, 1], ⟨3, some 4⟩⟩ : Stream).layouts 3 0 1 = .ok _ := rfl
    obtain ⟨hAgree, hExists⟩ := @endOffsets_eq_followingOffsets
      ⟨16, .ofList [0, 1], ⟨3, some 4⟩⟩ 3 0 1 _ () rfl (by decide) (by decide) h
    obtain ⟨following, hFollowing⟩ := hExists (by decide)
    refine ⟨_, following, h, hFollowing, ?_, hAgree following hFollowing⟩
    exact Option.some.inj (hFollowing.symm.trans (by decide))
  · have h : (⟨16, .ofList [0], ⟨0, some 0⟩⟩ : Stream).layouts maxSize 0 7 = .ok [.empty] := rfl
    obtain ⟨hAgree, hExists⟩ := @endOffsets_eq_followingOffsets
      ⟨16, .ofList [0], ⟨0, some 0⟩⟩ maxSize 0 7 _ () rfl (by decide) (by decide) h
    obtain ⟨following, hFollowing⟩ := hExists (by decide)
    exact ⟨_, following, h, hFollowing, hAgree following hFollowing⟩

end Stream

end StreamSplice
