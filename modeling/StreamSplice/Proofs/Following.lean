import Mathlib.Data.Nat.ModEq
import StreamSplice.Layout.Following

/-! The offsets that follow a frame. Walking the lengths up to the first offset that turns up again
finds the offsets of all lengths, as long as the results on the way are sizes. -/
namespace StreamSplice

open Std

theorem Lengths.admits_iff {lengths : Lengths} {count : Nat} :
    lengths.admits count ↔
      lengths.shortest ≤ count ∧ lengths.longest.any (· < count) = false := by
  rw [admits]
  cases lengths.longest <;> simp

/-- No length past one that is not admitted is admitted. -/
theorem Lengths.lt_of_admits {lengths : Lengths} {count n : Nat} (hAdmits : lengths.admits n)
    (hShortest : lengths.shortest ≤ count) (hPast : ¬lengths.admits count) : n < count := by
  by_contra hLe
  exact hPast ⟨hShortest, fun longest hLongest =>
    (Nat.not_lt.mp hLe).trans (hAdmits.2 longest hLongest)⟩

section Steps

variable {wordBytes step room count offset : Nat} {lengths : Lengths} {found : TreeSet Nat}

/-- The walk is over past the longest length and at an offset found before. -/
theorem followingFrom_of_done (hDone : lengths.admits count → offset ∈ found)
    (hShortest : lengths.shortest ≤ count) :
    followingFrom wordBytes step lengths.longest room count offset found = some found := by
  rw [followingFrom.eq_def, if_pos]
  rw [Bool.or_eq_true, TreeSet.contains_iff_mem, ← Bool.not_eq_false, or_iff_not_imp_left,
    Classical.not_not]
  exact fun hLongest => hDone (Lengths.admits_iff.mpr ⟨hShortest, hLongest⟩)

/-- At an offset that is new it is added, and the walk goes on if a larger length is a size. -/
theorem followingFrom_of_new (hAdmits : lengths.admits count) (hNew : offset ∉ found) :
    followingFrom wordBytes step lengths.longest room count offset found =
      match room with
      | 0 => some (found.insert offset)
      | room + 1 => sum? offset step >>= fun next =>
          followingFrom wordBytes step lengths.longest room (count + 1) (next % wordBytes)
            (found.insert offset) := by
  have hGo : ¬(lengths.longest.any (· < count) || found.contains offset) = true := by
    simp [(Lengths.admits_iff.mp hAdmits).2, hNew]
  rw [followingFrom.eq_def]
  cases room <;> exact if_neg hGo

end Steps

namespace Stream

variable {stream : Stream} {wordBytes : Nat}

/-- Where a frame of `count` elements ends that starts at offset zero. -/
def offsetAfter (stream : Stream) (wordBytes count : Nat) : Nat :=
  count * stream.elementBytes % wordBytes

/-- Whether a frame of an admitted length ends at an offset. -/
def FollowedAt (stream : Stream) (wordBytes offset : Nat) : Prop :=
  ∃ count, stream.lengths.admits count ∧ count ≤ maxSize ∧
    stream.offsetAfter wordBytes count = offset

/-- All results on the way of the walk are sizes. The offset after a length is found even if the
next length is not admitted. -/
structure Fits (stream : Stream) (wordBytes : Nat) : Prop where
  start : stream.lengths.shortest % wordBytes * (stream.elementBytes % wordBytes) ≤ maxSize
  step : ∀ count < maxSize, stream.lengths.admits count →
    stream.offsetAfter wordBytes count + stream.elementBytes % wordBytes ≤ maxSize

/-- The product of two remainders of a number up to 2 ^ 32 is a size. -/
theorem fits_of_width_le (stream : Stream) (hWidth : 0 < wordBytes)
    (h : wordBytes ≤ 4294967296) : stream.Fits wordBytes := by
  have hLast : ∀ n, n % wordBytes ≤ 4294967295 := fun n => by
    have := Nat.mod_lt n hWidth
    omega
  constructor
  · exact (Nat.mul_le_mul (hLast _) (hLast _)).trans (by decide)
  · intro count _ _
    exact (Nat.add_le_add (hLast _) (hLast _)).trans (by decide)

theorem offsetAfter_succ (stream : Stream) (wordBytes count : Nat) :
    (stream.offsetAfter wordBytes count + stream.elementBytes % wordBytes) % wordBytes =
      stream.offsetAfter wordBytes (count + 1) := by
  rw [offsetAfter, offsetAfter, ← Nat.add_mod, Nat.succ_mul]

/-- Lengths that end alike still do if both grow by the same number. -/
theorem offsetAfter_add_congr {count other : Nat}
    (h : stream.offsetAfter wordBytes count = stream.offsetAfter wordBytes other) (more : Nat) :
    stream.offsetAfter wordBytes (count + more) = stream.offsetAfter wordBytes (other + more) := by
  rw [offsetAfter, offsetAfter, Nat.add_mul, Nat.add_mul]
  exact Nat.ModEq.add_right _ h

/-- Once an offset turns up again, every further one is one of those before. -/
theorem exists_offsetAfter_eq {first found count : Nat} (hFirst : first ≤ found)
    (hFound : found < count)
    (hAgain : stream.offsetAfter wordBytes found = stream.offsetAfter wordBytes count)
    {other : Nat} (hOther : first ≤ other) : ∃ before, first ≤ before ∧ before < count ∧
      stream.offsetAfter wordBytes before = stream.offsetAfter wordBytes other := by
  induction other using Nat.strongRecOn with
  | ind other ih =>
      by_cases hBefore : other < count
      · exact ⟨other, hOther, hBefore, rfl⟩
      · obtain ⟨more, rfl⟩ := Nat.exists_eq_add_of_le (Nat.not_lt.mp hBefore)
        obtain ⟨before, hLe, hLt, hSame⟩ := ih (found + more) (by omega) (by omega)
        exact ⟨before, hLe, hLt, hSame.trans (offsetAfter_add_congr hAgain more)⟩

/-- What is known when the walk has come to a length: all shorter ones are admitted, and their
offsets are the ones found. -/
structure Walked (stream : Stream) (wordBytes count : Nat) (found : TreeSet Nat) : Prop where
  shortest_le : stream.lengths.shortest ≤ count
  admits : ∀ n, stream.lengths.shortest ≤ n → n < count → stream.lengths.admits n
  mem_iff : ∀ offset, offset ∈ found ↔ ∃ n, stream.lengths.shortest ≤ n ∧ n < count ∧
    stream.offsetAfter wordBytes n = offset

namespace Walked

variable {count : Nat} {found : TreeSet Nat}

theorem start : stream.Walked wordBytes stream.lengths.shortest ∅ where
  shortest_le := Nat.le_refl _
  admits _ hLe hLt := absurd hLt (Nat.not_lt.mpr hLe)
  mem_iff _ := iff_of_false TreeSet.not_mem_emptyc fun ⟨_, hLe, hLt, _⟩ =>
    Nat.not_lt.mpr hLe hLt

theorem step (h : stream.Walked wordBytes count found) (hCount : stream.lengths.admits count) :
    stream.Walked wordBytes (count + 1)
      (found.insert (stream.offsetAfter wordBytes count)) where
  shortest_le := Nat.le_succ_of_le h.shortest_le
  admits n hLe hLt := by
    rcases Nat.lt_succ_iff_lt_or_eq.mp hLt with hBefore | rfl
    · exact h.admits n hLe hBefore
    · exact hCount
  mem_iff offset := by
    rw [TreeSet.mem_insert, Nat.compare_eq_eq, h.mem_iff]
    constructor
    · rintro (hSame | ⟨n, hLe, hLt, hOffset⟩)
      · exact ⟨count, h.shortest_le, Nat.lt_succ_self count, hSame⟩
      · exact ⟨n, hLe, Nat.lt_succ_of_lt hLt, hOffset⟩
    · rintro ⟨n, hLe, hLt, hOffset⟩
      rcases Nat.lt_succ_iff_lt_or_eq.mp hLt with hBefore | rfl
      · exact .inr ⟨n, hLe, hBefore, hOffset⟩
      · exact .inl hOffset

/-- The offsets found are all there are once every admitted length ends like one that was
looked at. -/
theorem mem_iff_followedAt (h : stream.Walked wordBytes count found) (hCount : count ≤ maxSize + 1)
    (hAll : ∀ n, stream.lengths.admits n → n ≤ maxSize →
      ∃ before, stream.lengths.shortest ≤ before ∧ before < count ∧
        stream.offsetAfter wordBytes before = stream.offsetAfter wordBytes n) (offset : Nat) :
    offset ∈ found ↔ stream.FollowedAt wordBytes offset := by
  rw [h.mem_iff]
  constructor
  · rintro ⟨n, hLe, hLt, hOffset⟩
    exact ⟨n, h.admits n hLe hLt, by omega, hOffset⟩
  · rintro ⟨n, hAdmits, hSize, hOffset⟩
    obtain ⟨before, hLe, hLt, hSame⟩ := hAll n hAdmits hSize
    exact ⟨before, hLe, hLt, hSame.trans hOffset⟩

/-- Where the walk is over, every admitted length ends like one that was looked at. -/
theorem exists_of_done (h : stream.Walked wordBytes count found)
    (hDone : stream.lengths.admits count → stream.offsetAfter wordBytes count ∈ found) {n : Nat}
    (hAdmits : stream.lengths.admits n) : ∃ before, stream.lengths.shortest ≤ before ∧
      before < count ∧ stream.offsetAfter wordBytes before = stream.offsetAfter wordBytes n := by
  by_cases hHere : stream.lengths.admits count
  · obtain ⟨before, hLe, hLt, hSame⟩ := (h.mem_iff _).mp (hDone hHere)
    exact exists_offsetAfter_eq hLe hLt hSame hAdmits.1
  · exact ⟨n, hAdmits.1, Lengths.lt_of_admits hAdmits h.shortest_le hHere, rfl⟩

end Walked

section Walk

variable {count room offset : Nat} {found : TreeSet Nat}

/-- Where the walk is over, all offsets have been found. -/
theorem exists_followingFrom_of_done (hWalked : stream.Walked wordBytes count found)
    (hCount : count ≤ maxSize)
    (hDone : stream.lengths.admits count → stream.offsetAfter wordBytes count ∈ found) :
    ∃ result, followingFrom wordBytes (stream.elementBytes % wordBytes) stream.lengths.longest
        room count (stream.offsetAfter wordBytes count) found = some result ∧
      ∀ offset, offset ∈ result ↔ stream.FollowedAt wordBytes offset :=
  ⟨found, followingFrom_of_done hDone hWalked.shortest_le,
    hWalked.mem_iff_followedAt (by omega) fun _ hAdmits _ => hWalked.exists_of_done hDone hAdmits⟩

/-- If the results on the way are sizes, the rest of the walk finds the offsets that are left. -/
theorem exists_followingFrom (hFits : stream.Fits wordBytes)
    (hWalked : stream.Walked wordBytes count found) (hRoom : count + room = maxSize) :
    ∃ result, followingFrom wordBytes (stream.elementBytes % wordBytes) stream.lengths.longest
        room count (stream.offsetAfter wordBytes count) found = some result ∧
      ∀ offset, offset ∈ result ↔ stream.FollowedAt wordBytes offset := by
  induction room generalizing count found with
  | zero =>
      by_cases hDone : stream.lengths.admits count → stream.offsetAfter wordBytes count ∈ found
      · exact exists_followingFrom_of_done hWalked (by omega) hDone
      · rw [Classical.not_imp] at hDone
        obtain ⟨hAdmits, hNew⟩ := hDone
        refine ⟨_, followingFrom_of_new hAdmits hNew, ?_⟩
        exact (hWalked.step hAdmits).mem_iff_followedAt (by omega) fun n hAdmits hSize =>
          ⟨n, hAdmits.1, by omega, rfl⟩
  | succ room ih =>
      by_cases hDone : stream.lengths.admits count → stream.offsetAfter wordBytes count ∈ found
      · exact exists_followingFrom_of_done hWalked (by omega) hDone
      · rw [Classical.not_imp] at hDone
        obtain ⟨hAdmits, hNew⟩ := hDone
        have hSum := sum?_eq_some_iff.mpr ⟨hFits.step count (by omega) hAdmits, rfl⟩
        rw [followingFrom_of_new hAdmits hNew, hSum]
        simp only [Option.bind_eq_bind, Option.bind_some, offsetAfter_succ]
        exact ih (hWalked.step hAdmits) (by omega)

/-- The walk only comes to its end if every sum is a size. -/
theorem step_of_followingFrom {result : TreeSet Nat}
    (h : followingFrom wordBytes (stream.elementBytes % wordBytes) stream.lengths.longest room count
      (stream.offsetAfter wordBytes count) found = some result)
    (hWalked : stream.Walked wordBytes count found) (hRoom : count + room = maxSize)
    (hBefore : ∀ n, stream.lengths.shortest ≤ n → n < count →
      stream.offsetAfter wordBytes n + stream.elementBytes % wordBytes ≤ maxSize)
    {n : Nat} (hSize : n < maxSize) (hAdmits : stream.lengths.admits n) :
    stream.offsetAfter wordBytes n + stream.elementBytes % wordBytes ≤ maxSize := by
  induction room generalizing count found with
  | zero => exact hBefore n hAdmits.1 (by omega)
  | succ room ih =>
      by_cases hDone : stream.lengths.admits count → stream.offsetAfter wordBytes count ∈ found
      · obtain ⟨before, hLe, hLt, hSame⟩ := hWalked.exists_of_done hDone hAdmits
        exact hSame ▸ hBefore before hLe hLt
      · rw [Classical.not_imp] at hDone
        obtain ⟨hHere, hNew⟩ := hDone
        rw [followingFrom_of_new hHere hNew] at h
        obtain ⟨next, hNext, hRest⟩ := Option.bind_eq_some_iff.mp h
        obtain ⟨hSum, rfl⟩ := sum?_eq_some_iff.mp hNext
        rw [offsetAfter_succ] at hRest
        refine ih hRest (hWalked.step hHere) (by omega) fun m hLe hLt => ?_
        rcases Nat.lt_succ_iff_lt_or_eq.mp hLt with hLess | rfl
        · exact hBefore m hLe hLess
        · exact hSum

end Walk

section Offsets

/-- The offset after the shortest frame, and then the walk from there. -/
theorem followingOffsets_eq_some_iff (hWidth : 0 < wordBytes) {offsets : SortedSet Nat} :
    stream.followingOffsets wordBytes = some offsets ↔
      stream.lengths.shortest % wordBytes * (stream.elementBytes % wordBytes) ≤ maxSize ∧
        ∃ found, followingFrom wordBytes (stream.elementBytes % wordBytes) stream.lengths.longest
            (maxSize - stream.lengths.shortest) stream.lengths.shortest
            (stream.offsetAfter wordBytes stream.lengths.shortest) ∅ = some found ∧
          SortedSet.ofTree found = offsets := by
  rw [followingOffsets, if_neg (Nat.ne_of_gt hWidth)]
  simp [Option.bind_eq_some_iff, product?_eq_some_iff, offsetAfter, and_assoc]

/-- The offsets are found if all results on the way are sizes. -/
theorem exists_followingOffsets (hWidth : 0 < wordBytes)
    (hShortest : stream.lengths.shortest ≤ maxSize) (hFits : stream.Fits wordBytes) :
    ∃ offsets, stream.followingOffsets wordBytes = some offsets ∧
      ∀ offset, offset ∈ offsets ↔ stream.FollowedAt wordBytes offset := by
  obtain ⟨found, hFound, hMem⟩ :=
    exists_followingFrom hFits .start (Nat.add_sub_of_le hShortest)
  refine ⟨.ofTree found, ?_, fun offset => SortedSet.mem_ofTree.trans (hMem offset)⟩
  exact (followingOffsets_eq_some_iff hWidth).mpr ⟨hFits.start, found, hFound, rfl⟩

/-- The offsets are only found if all results on the way are sizes. -/
theorem fits_of_followingOffsets (hWidth : 0 < wordBytes)
    (hShortest : stream.lengths.shortest ≤ maxSize) {offsets : SortedSet Nat}
    (h : stream.followingOffsets wordBytes = some offsets) : stream.Fits wordBytes := by
  obtain ⟨hStart, found, hFound, rfl⟩ := (followingOffsets_eq_some_iff hWidth).mp h
  refine ⟨hStart, fun count hCount hAdmits => ?_⟩
  exact step_of_followingFrom hFound .start (Nat.add_sub_of_le hShortest)
    (fun n hLe hLt => absurd hLt (Nat.not_lt.mpr hLe)) hCount hAdmits

/-- The walk finds nothing else than the offsets at which the frames end. -/
theorem mem_followingOffsets_iff (hWidth : 0 < wordBytes)
    (hShortest : stream.lengths.shortest ≤ maxSize) {offsets : SortedSet Nat}
    (h : stream.followingOffsets wordBytes = some offsets) (offset : Nat) :
    offset ∈ offsets ↔ stream.FollowedAt wordBytes offset := by
  obtain ⟨found, hFound, hMem⟩ :=
    exists_followingOffsets hWidth hShortest (fits_of_followingOffsets hWidth hShortest h)
  cases hFound.symm.trans h
  exact hMem offset

/-- The offsets that follow a frame are found exactly, whatever the range of lengths is, if and only
if the product and the sums on the way are sizes. They are in words of up to 2 ^ 32 bytes. -/
theorem followingOffsets_exact (hWidth : 0 < wordBytes)
    (hShortest : stream.lengths.shortest ≤ maxSize) :
    (∀ offsets, stream.followingOffsets wordBytes = some offsets ↔
      stream.Fits wordBytes ∧
        ∀ offset, offset ∈ offsets ↔ ∃ count, stream.lengths.admits count ∧ count ≤ maxSize ∧
          count * stream.elementBytes % wordBytes = offset) ∧
    (stream.Fits wordBytes → ∃ offsets, stream.followingOffsets wordBytes = some offsets) ∧
    (wordBytes ≤ 4294967296 → stream.Fits wordBytes) := by
  refine ⟨fun offsets => ⟨fun h => ?_, fun ⟨hFits, hMem⟩ => ?_⟩, fun hFits => ?_,
    fits_of_width_le stream hWidth⟩
  · exact ⟨fits_of_followingOffsets hWidth hShortest h,
      mem_followingOffsets_iff hWidth hShortest h⟩
  · obtain ⟨found, hFound, hFoundMem⟩ := exists_followingOffsets hWidth hShortest hFits
    rw [hFound, SortedSet.ext_mem fun offset => (hFoundMem offset).trans (hMem offset).symm]
  · obtain ⟨found, hFound, _⟩ := exists_followingOffsets hWidth hShortest hFits
    exact ⟨found, hFound⟩

/-- Three lengths are left up to the largest size. -/
theorem followingOffsets_exact_lastLengths : ∃ offsets,
    (⟨24, .ofList [0], ⟨18446744073709551613, none⟩⟩ : Stream).followingOffsets 5 = some offsets ∧
      4 ∈ offsets ∧ 1 ∉ offsets := by
  obtain ⟨hExact, hExists, hNarrow⟩ := @followingOffsets_exact
    ⟨24, .ofList [0], ⟨18446744073709551613, none⟩⟩ 5 (by decide) (by decide)
  obtain ⟨offsets, hOffsets⟩ := hExists (hNarrow (by decide))
  obtain ⟨_, hMem⟩ := (hExact offsets).mp hOffsets
  refine ⟨offsets, hOffsets, (hMem 4).mpr ⟨18446744073709551613, ⟨Nat.le_refl _, ?_⟩, ?_⟩, ?_⟩
  · rintro _ ⟨⟩
  · decide
  · rw [hMem]
    rintro ⟨count, ⟨hLeast, _⟩, hSize, hOffset⟩
    simp only [maxSize, elementBytes] at hSize hLeast hOffset
    omega

/-- In words of more than 2 ^ 32 bytes the product of the two remainders may exceed the largest
size. Here both are one less than the word. The frame ends at offset one, which is not found. -/
theorem followingOffsets_wideWords :
    let stream : Stream := ⟨68719476736, .ofList [0], ⟨8589934592, some 8589934592⟩⟩
    stream.followingOffsets 8589934593 = none ∧
      ∀ offset, (∃ count, stream.lengths.admits count ∧ count ≤ maxSize ∧
        count * stream.elementBytes % 8589934593 = offset) ↔ offset = 1 := by
  intro stream
  have hEnd : 8589934592 * stream.elementBytes % 8589934593 = 1 := by decide
  refine ⟨by decide, fun offset => ?_⟩
  constructor
  · rintro ⟨count, ⟨hLeast, hMost⟩, _, rfl⟩
    cases Nat.le_antisymm hLeast (hMost _ rfl)
    exact hEnd
  · rintro rfl
    refine ⟨8589934592, ⟨Nat.le_refl _, ?_⟩, by decide, hEnd⟩
    rintro _ ⟨⟩
    exact Nat.le_refl _

end Offsets

end Stream

end StreamSplice
