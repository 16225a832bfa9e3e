import Mathlib.Order.Bounds.Basic
import StreamSplice.Layout.Stepwise
import StreamSplice.Proofs.Sampling

/-! Sampling loses no byte count. The lengths of a window of six words' worth have all
representatives that there are, and if the longest of them fits, so does every intermediate
result. -/
namespace StreamSplice

open Layout

/-- Whether a range holds no length at all. -/
def Lengths.Inverted (lengths : Lengths) : Prop :=
  ∃ longest, lengths.longest = some longest ∧ longest < lengths.shortest

/-- A byte count stands for a frame of `size` bytes. It is the same number if the frame spans at
most four words. Otherwise it fills the last word alike, and that is the fourth one. -/
def StandsFor (wordBytes offset size count : Nat) : Prop :=
  if offset + size ≤ 4 * wordBytes then count = size
  else count ≡ size [MOD wordBytes] ∧
    3 * wordBytes < offset + count ∧ offset + count ≤ 4 * wordBytes

/-- A step that stays within the range of sizes hands on its result. -/
theorem liftM_some_bind {α β : Type} (a : α) (f : α → Stepwise β) :
    (liftM (some a) : Stepwise α) >>= f = f a := rfl

section Steps

variable {wordBytes offset elementSize elementCount : Nat}

/-- A number of bytes up to the largest size spans a number of words that is a size. -/
theorem quotientUp?_eq_some (hWidth : 0 < wordBytes) {count : Nat} (hCount : count ≤ maxSize) :
    quotientUp? count wordBytes = some (wordsSpanned wordBytes count) := by
  obtain ⟨whole, rest, hRest, rfl⟩ : ∃ whole rest, rest < wordBytes ∧
      count = whole * wordBytes + rest :=
    ⟨_, _, Nat.mod_lt _ hWidth, (Nat.div_add_mod' ..).symm⟩
  obtain ⟨hQuotient, hModulus⟩ := @Pipeline.div_mod_of_lt wordBytes whole rest hRest
  rw [quotientUp?, if_neg (Nat.ne_of_gt hWidth), hQuotient, hModulus]
  split
  · next hZero =>
      rw [hZero, wordsSpanned, Nat.div_eq_of_lt_le (k := whole) (by omega)
        (by rw [Nat.succ_mul]; omega)]
  · next hMore =>
      have hWhole := Nat.le_mul_of_pos_right whole hWidth
      rw [sum?, if_pos (by omega), wordsSpanned, Nat.div_eq_of_lt_le (k := whole + 1)
        (by rw [Nat.succ_mul]; omega) (by rw [Nat.succ_mul, Nat.succ_mul]; omega)]

/-- A long frame is longer than the words that its representative lacks. -/
theorem surplus_mul_le (hOffset : offset < wordBytes) (size : Nat) :
    (wordsSpanned wordBytes (offset + size) - maxRepresentativeWords) * wordBytes ≤ size := by
  rcases Nat.le_total (wordsSpanned wordBytes (offset + size)) 4 with hFew | hMany
  · simp [maxRepresentativeWords, Nat.sub_eq_zero_of_le hFew]
  · obtain ⟨surplus, hSurplus⟩ : ∃ surplus,
        wordsSpanned wordBytes (offset + size) = surplus + 4 :=
      ⟨wordsSpanned wordBytes (offset + size) - 4, by omega⟩
    have hFull := (lt_wordsSpanned_iff (show 0 < wordBytes by omega)).mp
      (show surplus + 3 < wordsSpanned wordBytes (offset + size) by omega)
    rw [Nat.add_mul] at hFull
    rw [hSurplus, maxRepresentativeWords, Nat.add_sub_cancel]
    omega

/-- All steps stay in the range of sizes if the end of the frame does. -/
theorem stepwiseSize_eq (hOffset : offset < wordBytes) :
    stepwiseSize wordBytes offset elementSize elementCount =
      if offset + elementSize * elementCount ≤ maxSize then
        pure (representativeSize wordBytes offset elementSize elementCount)
      else throw (.sizeOverflow elementSize elementCount) := by
  have hWidth : 0 < wordBytes := by omega
  by_cases hFits : offset + elementSize * elementCount ≤ maxSize
  · have hProduct : product? elementSize elementCount = some (elementSize * elementCount) :=
      if_pos (by omega)
    have hSum : sum? offset (elementSize * elementCount) =
        some (offset + elementSize * elementCount) := if_pos hFits
    have hWords := quotientUp?_eq_some hWidth hFits
    have hSurplus := surplus_mul_le hOffset (elementSize * elementCount)
    have hDropped : product? (wordsSpanned wordBytes (offset + elementSize * elementCount) -
        maxRepresentativeWords) wordBytes = some _ := if_pos (by omega)
    have hDifference : difference? (elementSize * elementCount)
        ((wordsSpanned wordBytes (offset + elementSize * elementCount) -
          maxRepresentativeWords) * wordBytes) =
        some (representativeSize wordBytes offset elementSize elementCount) := if_pos hSurplus
    rw [if_pos hFits, stepwiseSize]
    simp only [hProduct, Option.filter_some, hSum, Option.isSome_some, if_true, liftM_some_bind,
      hWords, hDropped, hDifference]
    rfl
  · have hNone : ((product? elementSize elementCount).filter
        fun size => (sum? offset size).isSome) = none := by
      rw [product?]
      split
      · simp [Option.filter_some, sum?, hFits]
      · rfl
    rw [if_neg hFits, stepwiseSize, hNone]

/-- Representative sizes are what stands for the frames. -/
theorem standsFor_iff (hOffset : offset < wordBytes) {count : Nat} :
    StandsFor wordBytes offset (elementSize * elementCount) count ↔
      count = representativeSize wordBytes offset elementSize elementCount := by
  obtain ⟨surplus, hSize, hFits, hFull⟩ :=
    exists_eq_representativeSize_add elementSize elementCount hOffset
  rw [StandsFor]
  split
  · next hShort =>
      have hNone : surplus = 0 := by
        by_contra hSome
        have hWords := Nat.le_mul_of_pos_left wordBytes (Nat.pos_of_ne_zero hSome)
        have := hFull (Nat.pos_of_ne_zero hSome)
        omega
      rw [hSize, hNone, Nat.zero_mul, Nat.add_zero]
  · next hLong =>
      have hFourth : 3 * wordBytes <
          offset + representativeSize wordBytes offset elementSize elementCount :=
        lt_representativeSize hOffset (by omega)
      have hModEq := representativeSize_modEq elementSize elementCount hOffset
      constructor
      · rintro ⟨hCount, hFourth'⟩
        exact eq_of_fourth_word (hCount.trans hModEq.symm) hFourth' ⟨hFourth, hFits⟩
      · rintro rfl
        exact ⟨hModEq, hFourth, hFits⟩

theorem existsUnique_standsFor (hOffset : offset < wordBytes) (size : Nat) :
    ∃! count, StandsFor wordBytes offset size count := by
  rw [← Nat.one_mul size]
  simp only [standsFor_iff hOffset, existsUnique_eq]

/-- Only a frame without bytes is represented by one. -/
theorem standsFor_zero_iff (hOffset : offset < wordBytes) {size : Nat} :
    StandsFor wordBytes offset size 0 ↔ size = 0 := by
  rw [StandsFor]
  split <;> omega

/-- Lengths that are looked at one after the other are all measured, or the first one that is too
large is reported. -/
theorem mapM_range'_eq {oversized : Nat} {size : Nat → Nat} {error : Nat → LayoutError}
    {measure : Nat → Stepwise Nat}
    (hMeasure : ∀ n, measure n = if n < oversized then pure (size n) else throw (error n))
    (shortest count : Nat) :
    (List.range' shortest count).mapM measure =
      if shortest + count ≤ max shortest oversized then
        pure ((List.range' shortest count).map size)
      else throw (error (max shortest oversized)) := by
  induction count generalizing shortest with
  | zero => rw [List.range'_zero, List.mapM_nil, if_pos (by omega), List.map_nil]
  | succ count ih =>
      rw [List.range'_succ, List.mapM_cons, hMeasure]
      by_cases hFits : shortest < oversized
      · rw [if_pos hFits, pure_bind, ih, Nat.max_eq_right (Nat.le_of_lt hFits),
          Nat.max_eq_right hFits, Nat.add_right_comm, ← Nat.add_assoc]
        split
        · rw [pure_bind, List.map_cons]
        · rfl
      · -- The first length is too large already, so the others are not looked at.
        rw [if_neg hFits, Nat.max_eq_left (Nat.not_lt.mp hFits), if_neg (by omega)]
        rfl

end Steps

section Counts

variable {wordBytes outputOffset inputOffset elementSize : Nat} {lengths : Lengths}

theorem lastSample_of_isExact (hShortest : lengths.shortest ≤ maxSize) (h : lengths.isExact) :
    lengths.lastSample wordBytes = lengths.shortest := by
  have hLongest : lengths.longest = some lengths.shortest := by simpa [Lengths.isExact] using h
  rw [Lengths.lastSample_eq, hLongest, Option.getD_some]
  omega

/-- The window has all representatives that there are. -/
theorem exists_le_lastSample_iff {offset count : Nat} (hOffset : offset < wordBytes)
    (hElement : 0 < elementSize) :
    (∃ n, lengths.shortest ≤ n ∧ n ≤ lengths.lastSample wordBytes ∧
        representativeSize wordBytes offset elementSize n = count) ↔
      ∃ n, lengths.admits n ∧ n ≤ maxSize ∧
        representativeSize wordBytes offset elementSize n = count := by
  constructor
  · rintro ⟨n, hShortest, hLast, rfl⟩
    obtain ⟨hAdmits, hSize⟩ := admits_of_le_lastSample hShortest hLast
    exact ⟨n, hAdmits, hSize, rfl⟩
  · rintro ⟨n, hAdmits, hSize, rfl⟩
    obtain ⟨sample, hSample, hSame⟩ := exists_isSample hOffset hElement hAdmits hSize
    exact ⟨sample, hSample.1, hSample.2.1, hSame⟩

/-- A single length is a window of its own. -/
theorem stepwiseCounts_eq_mapM (hOutput : outputOffset < wordBytes)
    (hInput : inputOffset < wordBytes) (hElement : elementSize ≠ 0)
    (hShortest : lengths.shortest ≤ maxSize) :
    stepwiseCounts wordBytes outputOffset inputOffset elementSize lengths =
      (List.range' lengths.shortest (lengths.lastSample wordBytes + 1 - lengths.shortest)).mapM
          (stepwiseSize wordBytes (max outputOffset inputOffset) elementSize) >>=
        fun sizes => pure (.ofList sizes) := by
  rw [stepwiseCounts, requireInWord, requireInWord, if_pos hOutput, if_pos hInput, if_neg hElement]
  by_cases hExact : lengths.isExact
  · rw [lastSample_of_isExact hShortest hExact, Nat.add_sub_cancel_left, if_pos hExact]
    simp only [List.range'_one, List.mapM_cons, List.mapM_nil, pure_bind, bind_assoc]
    rfl
  · rw [if_neg hExact]
    rfl

/-- If a frame can be placed at the offsets, looking at every length of the window finds the same
counts, or the same error. -/
theorem stepwiseCounts_eq_of_lt (hOutput : outputOffset < wordBytes)
    (hInput : inputOffset < wordBytes) (hElement : elementSize ≠ 0)
    (hWidth : wordBytes ≤ maxSize) (hShortest : lengths.shortest ≤ maxSize) :
    stepwiseCounts wordBytes outputOffset inputOffset elementSize lengths =
      ExceptT.mk (some
        (representativeCounts wordBytes outputOffset inputOffset elementSize lengths)) := by
  have hOffset : max outputOffset inputOffset < wordBytes := by omega
  have hPositive : 0 < elementSize := Nat.pos_of_ne_zero hElement
  have hMeasure : ∀ n, stepwiseSize wordBytes (max outputOffset inputOffset) elementSize n =
      if n < leastOversized (max outputOffset inputOffset) elementSize then
        pure (representativeSize wordBytes (max outputOffset inputOffset) elementSize n)
      else throw (.sizeOverflow elementSize n) := by
    intro n
    rw [stepwiseSize_eq hOffset]
    simp only [lt_leastOversized_iff hPositive (hOffset.le.trans hWidth)]
  rw [stepwiseCounts_eq_mapM hOutput hInput hElement hShortest, mapM_range'_eq hMeasure]
  cases hCounts : representativeCounts wordBytes outputOffset inputOffset elementSize lengths with
  | error e =>
      obtain ⟨hLarge, rfl⟩ :=
        (representativeCounts_eq_error_iff hOutput hInput hElement).mp hCounts
      rw [if_neg (by omega)]
      rfl
  | ok counts =>
      obtain ⟨_, _, _, hFits, _⟩ := representativeCounts_eq_ok hCounts
      rw [if_pos (by omega), pure_bind]
      -- The counts were found from one period of the long lengths, and are the same set.
      refine congrArg (ExceptT.mk ∘ some ∘ Except.ok) (SortedSet.ext_mem fun count => ?_)
      rw [mem_representativeCounts hCounts, ← exists_le_lastSample_iff hOffset hPositive,
        SortedSet.mem_ofList, List.mem_map]
      refine exists_congr fun n => ?_
      rw [List.mem_range'_1, ← and_assoc]
      exact and_congr_left fun _ => by omega

/-- Every step stays within the range of sizes, whatever the outcome is. -/
theorem stepwiseCounts_eq (hWidth : wordBytes ≤ maxSize)
    (hShortest : lengths.shortest ≤ maxSize) :
    stepwiseCounts wordBytes outputOffset inputOffset elementSize lengths =
      ExceptT.mk (some
        (representativeCounts wordBytes outputOffset inputOffset elementSize lengths)) := by
  by_cases hOutput : outputOffset < wordBytes
  · by_cases hInput : inputOffset < wordBytes
    · by_cases hElement : elementSize = 0
      · rw [stepwiseCounts, representativeCounts, requireInWord, requireInWord, if_pos hOutput,
          if_pos hInput, if_pos hElement, if_pos hElement]
        rfl
      · exact stepwiseCounts_eq_of_lt hOutput hInput hElement hWidth hShortest
    · rw [stepwiseCounts, representativeCounts, requireInWord, requireInWord, if_pos hOutput,
        if_neg hInput]
      rfl
  · rw [stepwiseCounts, representativeCounts, requireInWord, if_neg hOutput]
    rfl

theorem lastSample_lt_iff (wordBytes : Nat) (hShortest : lengths.shortest ≤ maxSize) :
    lengths.lastSample wordBytes < lengths.shortest ↔ lengths.Inverted := by
  rw [Lengths.lastSample_eq, Lengths.Inverted]
  cases lengths.longest <;> simp <;> omega

/-- The samples that are too large start with the one that is reported. -/
theorem isLeast_oversized_iff {offset n : Nat} (hElement : 0 < elementSize)
    (hOffset : offset ≤ maxSize) :
    IsLeast { n | lengths.shortest ≤ n ∧ n ≤ lengths.lastSample wordBytes ∧
        maxSize < offset + elementSize * n } n ↔
      n = max lengths.shortest (leastOversized offset elementSize) ∧
        n ≤ lengths.lastSample wordBytes := by
  have hOversized : ∀ m, maxSize < offset + elementSize * m ↔
      leastOversized offset elementSize ≤ m := by
    intro m
    rw [← Nat.not_le, ← lt_leastOversized_iff hElement hOffset, Nat.not_lt]
  simp only [IsLeast, mem_lowerBounds, Set.mem_ofPred_eq, hOversized]
  constructor
  · rintro ⟨⟨hShortest, hLast, hLarge⟩, hLeast⟩
    have := hLeast (max lengths.shortest (leastOversized offset elementSize))
      ⟨by omega, by omega, by omega⟩
    exact ⟨by omega, hLast⟩
  · rintro ⟨rfl, hLast⟩
    exact ⟨⟨by omega, hLast, by omega⟩, fun m hm => by omega⟩

/-- The counts are found if and only if there are no samples or the last one fits. -/
theorem exists_representativeCounts_eq_ok_iff (hOutput : outputOffset < wordBytes)
    (hInput : inputOffset < wordBytes) (hElement : 0 < elementSize)
    (hWidth : wordBytes ≤ maxSize) (hShortest : lengths.shortest ≤ maxSize) :
    (∃ counts, representativeCounts wordBytes outputOffset inputOffset elementSize lengths =
        .ok counts) ↔
      lengths.Inverted ∨
        max outputOffset inputOffset + elementSize * lengths.lastSample wordBytes ≤ maxSize := by
  rw [← lastSample_lt_iff wordBytes hShortest, ← lt_leastOversized_iff hElement (by omega)]
  cases hCounts : representativeCounts wordBytes outputOffset inputOffset elementSize lengths with
  | error e =>
      obtain ⟨hLarge, _⟩ := (representativeCounts_eq_error_iff hOutput hInput
        (Nat.ne_of_gt hElement)).mp hCounts
      exact iff_of_false (by simp) (by omega)
  | ok counts =>
      have hFits := (representativeCounts_eq_ok hCounts).2.2.2.1
      exact iff_of_true ⟨counts, rfl⟩ (by omega)

/-- The counts are what stands for an admitted length. -/
theorem mem_counts_iff {counts : SortedSet Nat}
    (h : representativeCounts wordBytes outputOffset inputOffset elementSize lengths = .ok counts)
    {count : Nat} :
    count ∈ counts ↔ ∃ n, lengths.admits n ∧ n ≤ maxSize ∧
      StandsFor wordBytes (max outputOffset inputOffset) (elementSize * n) count := by
  obtain ⟨hOutput, hInput, _⟩ := representativeCounts_eq_ok h
  simp only [mem_representativeCounts h, standsFor_iff (Nat.max_lt.mpr ⟨hOutput, hInput⟩), eq_comm]

theorem zero_mem_counts_iff {counts : SortedSet Nat}
    (h : representativeCounts wordBytes outputOffset inputOffset elementSize lengths =
      .ok counts) : 0 ∈ counts ↔ lengths.shortest = 0 ∧ ¬lengths.Inverted := by
  obtain ⟨hOutput, hInput, hElement, _⟩ := representativeCounts_eq_ok h
  rw [mem_counts_iff h]
  simp only [standsFor_zero_iff (Nat.max_lt.mpr ⟨hOutput, hInput⟩), Nat.mul_eq_zero,
    Nat.ne_of_gt hElement, false_or]
  constructor
  · rintro ⟨_, ⟨hShortest, _⟩, _, rfl⟩
    have hZero := Nat.le_zero.mp hShortest
    exact ⟨hZero, fun ⟨_, _, hInverted⟩ => by omega⟩
  · rintro ⟨hZero, _⟩
    exact ⟨0, ⟨Nat.le_of_eq hZero, fun _ _ => Nat.zero_le _⟩, Nat.zero_le _, rfl⟩

/-- Sampling loses no byte count. It succeeds if and only if the range is inverted or the last
sample fits, and then it finds, in ascending order, all counts that stand for an admitted length,
whether it was sampled or not. Otherwise the shortest sample that does not fit is reported. No step
on the way leaves the range of sizes. -/
theorem representativeCounts_complete (hOutput : outputOffset < wordBytes)
    (hInput : inputOffset < wordBytes) (hElement : 0 < elementSize)
    (hWidth : wordBytes ≤ maxSize) (hShortest : lengths.shortest ≤ maxSize) :
    stepwiseCounts wordBytes outputOffset inputOffset elementSize lengths =
      ExceptT.mk (some
        (representativeCounts wordBytes outputOffset inputOffset elementSize lengths)) ∧
    lengths.lastSample wordBytes =
      min (lengths.longest.getD maxSize) (min (lengths.shortest + 6 * wordBytes) maxSize) ∧
    (∀ size, ∃! count, StandsFor wordBytes (max outputOffset inputOffset) size count) ∧
    ((∃ counts, representativeCounts wordBytes outputOffset inputOffset elementSize lengths =
        .ok counts) ↔
      lengths.Inverted ∨
        max outputOffset inputOffset + elementSize * lengths.lastSample wordBytes ≤ maxSize) ∧
    (∀ e, representativeCounts wordBytes outputOffset inputOffset elementSize lengths =
        .error e ↔
      ∃ n, IsLeast { n | lengths.shortest ≤ n ∧ n ≤ lengths.lastSample wordBytes ∧
          maxSize < max outputOffset inputOffset + elementSize * n } n ∧
        e = .sizeOverflow elementSize n) ∧
    ∀ counts, representativeCounts wordBytes outputOffset inputOffset elementSize lengths =
        .ok counts →
      counts.toList.Pairwise (· < ·) ∧
      (∀ count, count ∈ counts ↔ ∃ n, lengths.admits n ∧ n ≤ maxSize ∧
        StandsFor wordBytes (max outputOffset inputOffset) (elementSize * n) count) ∧
      (∀ count ∈ counts, max outputOffset inputOffset + count ≤ 4 * wordBytes) ∧
      (0 ∈ counts ↔ lengths.shortest = 0 ∧ ¬lengths.Inverted) := by
  have hOffset : max outputOffset inputOffset < wordBytes := by omega
  refine ⟨stepwiseCounts_eq hWidth hShortest, lengths.lastSample_eq wordBytes,
    existsUnique_standsFor hOffset,
    exists_representativeCounts_eq_ok_iff hOutput hInput hElement hWidth hShortest, fun e => ?_,
    fun counts hCounts => ⟨?_, fun count => mem_counts_iff hCounts, fun count hCount => ?_,
      zero_mem_counts_iff hCounts⟩⟩
  · rw [representativeCounts_eq_error_iff hOutput hInput (Nat.ne_of_gt hElement)]
    simp only [isLeast_oversized_iff hElement (hOffset.le.trans hWidth)]
    constructor
    · rintro ⟨hLast, rfl⟩
      exact ⟨_, ⟨rfl, hLast⟩, rfl⟩
    · rintro ⟨_, ⟨rfl, hLast⟩, rfl⟩
      exact ⟨hLast, rfl⟩
  · exact counts.ascending.imp Nat.compare_eq_lt.mp
  · obtain ⟨n, _, _, rfl⟩ := (mem_representativeCounts hCounts).mp hCount
    obtain ⟨_, _, hFits, _⟩ := exists_eq_representativeSize_add elementSize n hOffset
    exact hFits

/-- Elements of two bytes in words of three, and in words of two where half of the sizes are too
large. -/
theorem representativeCounts_complete_pairs :
    (∃ counts, representativeCounts 3 0 0 2 ⟨5, some 100⟩ = .ok counts ∧
      11 ∈ counts ∧ 0 ∉ counts) ∧
    representativeCounts 2 0 0 2 ⟨9223372036854775807, none⟩ =
      .error (.sizeOverflow 2 9223372036854775808) := by
  constructor
  · obtain ⟨_, hLast, _, hFound, _, hCounts⟩ := @representativeCounts_complete 3 0 0 2
      ⟨5, some 100⟩ (by decide) (by decide) (by decide) (by decide) (by decide)
    obtain ⟨counts, hOk⟩ := hFound.mpr (.inr (by rw [hLast]; decide))
    obtain ⟨_, hMem, _, hZero⟩ := hCounts counts hOk
    refine ⟨counts, hOk, (hMem 11).mpr ⟨7, ⟨by decide, ?_⟩, by decide, ?_⟩, ?_⟩
    · rintro _ ⟨⟩
      decide
    · simp [StandsFor, Nat.ModEq]
    · rw [hZero]
      simp
  · obtain ⟨_, hLast, _, _, hError, _⟩ := @representativeCounts_complete 2 0 0 2
      ⟨9223372036854775807, none⟩ (by decide) (by decide) (by decide) (by decide) (by decide)
    refine (hError _).mpr ⟨9223372036854775808, ⟨⟨by decide, ?_, by decide⟩, ?_⟩, rfl⟩
    · rw [hLast]
      decide
    · rintro n ⟨_, _, hLarge⟩
      simp only [maxSize] at hLarge
      omega

end Counts

end StreamSplice
