import Mathlib.Data.Nat.ModEq
import StreamSplice.Layout.Representative
import StreamSplice.Proofs.Tuple

/-! Representative frame lengths stand for all admitted ones. A representative size differs
from the size it stands for by whole words, and only if the frame spans more than four
words; past that the sizes repeat with the length, so one period of samples has them all. -/
namespace StreamSplice

open Layout

section Size

variable {wordBytes offset elementSize count : Nat}

/-- A representative frame spans at most four words, and lacks whole words of the frame it
stands for only if it spans more than three. -/
theorem exists_eq_representativeSize_add (elementSize count : Nat) (hOffset : offset < wordBytes) :
    ∃ surplus, elementSize * count =
        representativeSize wordBytes offset elementSize count + surplus * wordBytes ∧
      offset + representativeSize wordBytes offset elementSize count ≤ 4 * wordBytes ∧
      (0 < surplus →
        3 * wordBytes < offset + representativeSize wordBytes offset elementSize count) := by
  have hWidth : 0 < wordBytes := by omega
  obtain ⟨spanned, hSpanned⟩ : ∃ spanned,
      spanned = wordsSpanned wordBytes (offset + elementSize * count) := ⟨_, rfl⟩
  have hBelow : ∀ w, w < spanned ↔ w * wordBytes < offset + elementSize * count := by
    intro w
    rw [hSpanned, lt_wordsSpanned_iff hWidth]
  simp only [representativeSize, ← hSpanned, maxRepresentativeWords]
  generalize elementSize * count = size at hBelow ⊢
  rcases Nat.le_total spanned 4 with hFew | hMany
  · have hFits := (hBelow 4).not.mp (by omega)
    rw [Nat.sub_eq_zero_of_le hFew]
    exact ⟨0, by omega, by omega, by omega⟩
  · obtain ⟨surplus, rfl⟩ : ∃ surplus, spanned = surplus + 4 := ⟨spanned - 4, by omega⟩
    have hFits := (hBelow (surplus + 4)).not.mp (Nat.lt_irrefl _)
    have hFull := (hBelow (surplus + 3)).mp (by omega)
    rw [Nat.add_mul] at hFits hFull
    rw [Nat.add_sub_cancel]
    exact ⟨surplus, by omega, by omega, by omega⟩

/-- The representative of a frame that spans more than three words reaches into the fourth one,
and no further. -/
theorem lt_representativeSize (hOffset : offset < wordBytes)
    (hLong : 3 * wordBytes < offset + elementSize * count) :
    3 * wordBytes < offset + representativeSize wordBytes offset elementSize count := by
  obtain ⟨surplus, hSize, _, hFull⟩ := exists_eq_representativeSize_add elementSize count hOffset
  rcases Nat.eq_zero_or_pos surplus with rfl | hPositive
  · omega
  · exact hFull hPositive

theorem representativeSize_modEq (elementSize count : Nat) (hOffset : offset < wordBytes) :
    representativeSize wordBytes offset elementSize count ≡
      elementSize * count [MOD wordBytes] := by
  obtain ⟨surplus, hSize, _, _⟩ := exists_eq_representativeSize_add elementSize count hOffset
  rw [hSize, Nat.ModEq, Nat.add_mul_mod_self_right]

/-- There is one way to fill the fourth word up to a byte. -/
theorem eq_of_fourth_word {a b : Nat} (hSame : a ≡ b [MOD wordBytes])
    (ha : 3 * wordBytes < offset + a ∧ offset + a ≤ 4 * wordBytes)
    (hb : 3 * wordBytes < offset + b ∧ offset + b ≤ 4 * wordBytes) : a = b :=
  -- Both are in the same word's worth of sizes, so they are congruent only if they are equal.
  Nat.le_antisymm (hSame.le_of_lt_add (by omega)) (hSame.symm.le_of_lt_add (by omega))

/-- Sizes of long frames that differ by whole words have the same representative. -/
theorem representativeSize_congr {other : Nat} (hOffset : offset < wordBytes)
    (hLong : 3 * wordBytes < offset + elementSize * count)
    (hLong' : 3 * wordBytes < offset + elementSize * other)
    (hWords : elementSize * other ≡ elementSize * count [MOD wordBytes]) :
    representativeSize wordBytes offset elementSize other =
      representativeSize wordBytes offset elementSize count := by
  obtain ⟨_, _, hFits, _⟩ := exists_eq_representativeSize_add elementSize count hOffset
  obtain ⟨_, _, hFits', _⟩ := exists_eq_representativeSize_add elementSize other hOffset
  have hFull := lt_representativeSize hOffset hLong
  have hFull' := lt_representativeSize hOffset hLong'
  have hSame := ((representativeSize_modEq elementSize other hOffset).trans hWords).trans
    (representativeSize_modEq elementSize count hOffset).symm
  exact eq_of_fourth_word hSame ⟨hFull', hFits'⟩ ⟨hFull, hFits⟩

end Size

/-- Number of elements after which the fill of the last word repeats. -/
theorem mul_period (elementSize wordBytes : Nat) :
    elementSize * (wordBytes / Nat.gcd elementSize wordBytes) =
      elementSize / Nat.gcd elementSize wordBytes * wordBytes := by
  rw [← Nat.mul_div_assoc _ (Nat.gcd_dvd_right ..), Nat.mul_comm, Nat.mul_comm _ wordBytes,
    Nat.mul_div_assoc _ (Nat.gcd_dvd_left ..)]

section Counts

variable {wordBytes outputOffset inputOffset elementSize : Nat} {lengths : Lengths}
  {counts : SortedSet Nat}

/-- The lengths that are sampled. -/
def IsSample (wordBytes offset elementSize : Nat) (lengths : Lengths) (count : Nat) : Prop :=
  lengths.shortest ≤ count ∧ count ≤ lengths.lastSample wordBytes ∧
    count < max lengths.shortest ((4 * wordBytes - offset) / elementSize + 1) +
      wordBytes / Nat.gcd elementSize wordBytes

/-- The counts are the representatives of the samples, and all samples fit. -/
theorem representativeCounts_eq_ok
    (h : representativeCounts wordBytes outputOffset inputOffset elementSize lengths = .ok counts) :
    outputOffset < wordBytes ∧ inputOffset < wordBytes ∧ 0 < elementSize ∧
      lengths.lastSample wordBytes <
        max lengths.shortest (leastOversized (max outputOffset inputOffset) elementSize) ∧
      ∀ count, count ∈ counts ↔
        ∃ n, IsSample wordBytes (max outputOffset inputOffset) elementSize lengths n ∧
          representativeSize wordBytes (max outputOffset inputOffset) elementSize n = count := by
  simp only [representativeCounts] at h
  simp only [bind_eq_ok, requireInWord_eq_ok, exists_and_left, exists_const] at h
  obtain ⟨hOutput, hInput, h⟩ := h
  by_cases hElement : elementSize = 0
  · simp [hElement, bind, Except.bind, throw, throwThe, MonadExceptOf.throw] at h
  · by_cases hSize : max lengths.shortest (leastOversized (max outputOffset inputOffset)
        elementSize) ≤ lengths.lastSample wordBytes
    · simp [hElement, hSize, bind, Except.bind, throw, throwThe, MonadExceptOf.throw] at h
    · simp only [hElement, hSize, if_false, maxRepresentativeWords] at h
      cases h
      refine ⟨hOutput, hInput, Nat.pos_of_ne_zero hElement, Nat.not_le.mp hSize, fun count => ?_⟩
      rw [SortedSet.mem_ofList, List.mem_map]
      refine exists_congr fun n => and_congr_left fun _ => ?_
      rw [List.mem_range'_1, IsSample]
      omega

/-- The first sample that is too large is reported. -/
theorem representativeCounts_eq_error_iff (hOutput : outputOffset < wordBytes)
    (hInput : inputOffset < wordBytes) (hElement : elementSize ≠ 0) {e : LayoutError} :
    representativeCounts wordBytes outputOffset inputOffset elementSize lengths = .error e ↔
      max lengths.shortest (leastOversized (max outputOffset inputOffset) elementSize) ≤
          lengths.lastSample wordBytes ∧
        e = .sizeOverflow elementSize
          (max lengths.shortest (leastOversized (max outputOffset inputOffset) elementSize)) := by
  rw [representativeCounts, requireInWord, requireInWord, if_pos hOutput, if_pos hInput,
    if_neg hElement]
  by_cases hSize : max lengths.shortest (leastOversized (max outputOffset inputOffset) elementSize)
      ≤ lengths.lastSample wordBytes
  · simp [hSize, bind, Except.bind, throw, throwThe, MonadExceptOf.throw, eq_comm]
  · simp [hSize, bind, Except.bind, pure, Except.pure]

variable {offset : Nat} {n : Nat}

/-- Lengths up to the last sample are admitted. -/
theorem admits_of_le_lastSample (hShortest : lengths.shortest ≤ n)
    (hLast : n ≤ lengths.lastSample wordBytes) : lengths.admits n ∧ n ≤ maxSize := by
  rw [Lengths.lastSample_eq] at hLast
  refine ⟨⟨hShortest, fun longest hLongest => ?_⟩, by omega⟩
  rw [hLongest, Option.getD_some] at hLast
  omega

/-- Samples are admitted lengths. -/
theorem admits_of_isSample (h : IsSample wordBytes offset elementSize lengths n) :
    lengths.admits n ∧ n ≤ maxSize :=
  admits_of_le_lastSample h.1 h.2.1

/-- Admitted lengths beyond the last sample come after six words' worth of samples. -/
theorem lastSample_of_lt (hAdmits : lengths.admits n) (hSize : n ≤ maxSize)
    (h : lengths.lastSample wordBytes < n) :
    lengths.shortest + 6 * wordBytes ≤ lengths.lastSample wordBytes := by
  have hLongest : n ≤ lengths.longest.getD maxSize := by
    cases hLongest : lengths.longest with
    | none => exact hSize
    | some longest => exact hAdmits.2 longest hLongest
  rw [Lengths.lastSample_eq] at h ⊢
  omega

/-- Every admitted length has the representative of a sample. -/
theorem exists_isSample (hOffset : offset < wordBytes) (hElement : 0 < elementSize)
    (hAdmits : lengths.admits n) (hSize : n ≤ maxSize) :
    ∃ sample, IsSample wordBytes offset elementSize lengths sample ∧
      representativeSize wordBytes offset elementSize sample =
        representativeSize wordBytes offset elementSize n := by
  obtain ⟨period, hPeriod⟩ :
      ∃ period, period = wordBytes / Nat.gcd elementSize wordBytes := ⟨_, rfl⟩
  obtain ⟨long, hLong⟩ : ∃ long,
      long = max lengths.shortest ((4 * wordBytes - offset) / elementSize + 1) := ⟨_, rfl⟩
  have hPositive : 0 < period := hPeriod ▸
    Nat.div_pos (Nat.gcd_le_right _ (by omega)) (Nat.gcd_pos_of_pos_left _ hElement)
  have hAtMost : period ≤ wordBytes := hPeriod ▸ Nat.div_le_self ..
  simp only [IsSample]
  rw [← hPeriod, ← hLong]
  by_cases hSampled : n ≤ lengths.lastSample wordBytes ∧ n < long + period
  · exact ⟨n, ⟨hAdmits.1, hSampled⟩, rfl⟩
  · have hQuotient : (4 * wordBytes - offset) / elementSize ≤ 4 * wordBytes :=
      Nat.le_trans (Nat.div_le_self ..) (Nat.sub_le ..)
    have hWindow : long + period ≤ lengths.lastSample wordBytes + 1 := by
      rcases Nat.lt_or_ge (lengths.lastSample wordBytes) n with hLt | hGe
      · have := lastSample_of_lt hAdmits hSize hLt
        omega
      · omega
    have hBeyond : long + period ≤ n := by omega
    -- The sample within the one period of long lengths that differs from `n` by periods.
    obtain ⟨rounds, hRounds⟩ : ∃ rounds, n = long + (n - long) % period + rounds * period := by
      refine ⟨(n - long) / period, ?_⟩
      have := Nat.div_add_mod' (n - long) period
      omega
    have hRest := Nat.mod_lt (n - long) hPositive
    refine ⟨long + (n - long) % period, by omega, ?_⟩
    have hLarge : 4 * wordBytes - offset < elementSize * (long + (n - long) % period) :=
      Nat.lt_of_lt_of_le (Nat.lt_mul_div_succ _ hElement) (Nat.mul_le_mul_left _ (by omega))
    have hLarger : 4 * wordBytes - offset < elementSize * n :=
      Nat.lt_of_lt_of_le hLarge (Nat.mul_le_mul_left _ (by omega))
    have hWords : elementSize * n = elementSize * (long + (n - long) % period) +
        rounds * (elementSize / Nat.gcd elementSize wordBytes) * wordBytes := by
      conv_lhs => rw [hRounds]
      rw [Nat.mul_add, hPeriod, Nat.mul_left_comm, mul_period, Nat.mul_assoc]
    refine (representativeSize_congr hOffset (by omega) (by omega) ?_).symm
    rw [hWords, Nat.ModEq, Nat.add_mul_mod_self_right]

/-- The counts are the representatives of the admitted lengths. -/
theorem mem_representativeCounts
    (h : representativeCounts wordBytes outputOffset inputOffset elementSize lengths = .ok counts)
    {count : Nat} :
    count ∈ counts ↔ ∃ n, lengths.admits n ∧ n ≤ maxSize ∧
      representativeSize wordBytes (max outputOffset inputOffset) elementSize n = count := by
  obtain ⟨hOutput, hInput, hElement, _, hMem⟩ := representativeCounts_eq_ok h
  rw [hMem]
  constructor
  · rintro ⟨n, hSample, rfl⟩
    obtain ⟨hAdmits, hSize⟩ := admits_of_isSample hSample
    exact ⟨n, hAdmits, hSize, rfl⟩
  · rintro ⟨n, hAdmits, hSize, rfl⟩
    exact exists_isSample (by omega) hElement hAdmits hSize

/-- Every count represents an admitted length whose bytes fit. -/
theorem exists_of_mem_representativeCounts
    (h : representativeCounts wordBytes outputOffset inputOffset elementSize lengths = .ok counts)
    {count : Nat} (hCount : count ∈ counts) :
    ∃ n, lengths.admits n ∧ (n = 0 ∨ inputOffset + elementSize * n ≤ maxSize) ∧
      representativeSize wordBytes (max outputOffset inputOffset) elementSize n = count := by
  obtain ⟨_, _, hElement, hFits, hMem⟩ := representativeCounts_eq_ok h
  obtain ⟨n, hSample, hSize⟩ := (hMem count).mp hCount
  have hSmall : n < leastOversized (max outputOffset inputOffset) elementSize := by
    have := hSample.1
    have := hSample.2.1
    omega
  refine ⟨n, (admits_of_isSample hSample).1, ?_, hSize⟩
  rcases Nat.le_total (max outputOffset inputOffset) maxSize with hRoom | hRoom
  · have := (lt_leastOversized_iff hElement hRoom).mp hSmall
    omega
  · rw [leastOversized, Nat.sub_eq_zero_of_le hRoom, Nat.zero_div] at hSmall
    omega

end Counts

end StreamSplice
