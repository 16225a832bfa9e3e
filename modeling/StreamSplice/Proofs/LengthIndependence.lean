import StreamSplice.Proofs.Failures

/-! Independence of the lengths of long frames. Of a long frame only the fill of its last word
matters, so the range of the lengths of a stream can be moved by a word, or be extended at its
end, without any change to the machine: as long as the same fills occur, the same layouts are
enumerated, and nothing after the enumeration looks at the lengths again. -/
namespace StreamSplice

open Layout

namespace Lengths

/-- The range of the lengths that are `amount` longer. -/
def shift (lengths : Lengths) (amount : Nat) : Lengths :=
  ⟨lengths.shortest + amount, lengths.longest.map (· + amount)⟩

/-- Whether a range holds at least `count` successive lengths. -/
def Spans (lengths : Lengths) (count : Nat) : Prop :=
  ∀ longest, lengths.longest = some longest → lengths.shortest + count - 1 ≤ longest

/-- Whether every frame with a length of the range fills its last word like one with a length of
another range. -/
def FillsWithin (wordBytes elementSize : Nat) (lengths other : Lengths) : Prop :=
  ∀ n, lengths.admits n → n ≤ maxSize →
    ∃ m, other.admits m ∧ m ≤ maxSize ∧ elementSize * m ≡ elementSize * n [MOD wordBytes]

variable {wordBytes elementSize : Nat} {lengths other : Lengths}

/-- A word's worth of successive lengths fills the last word in all ways that there are. -/
theorem fillsWithin_of_spans (hWidth : 0 < wordBytes) (hSpans : other.Spans wordBytes)
    (hSize : other.shortest + wordBytes - 1 ≤ maxSize) :
    FillsWithin wordBytes elementSize lengths other := by
  intro n _ _
  -- The length within the first word's worth that is congruent to `n`.
  obtain ⟨rest, hRest⟩ : ∃ rest, rest = (n + other.shortest * (wordBytes - 1)) % wordBytes :=
    ⟨_, rfl⟩
  have hBound : rest < wordBytes := hRest ▸ Nat.mod_lt _ hWidth
  refine ⟨other.shortest + rest, ⟨Nat.le_add_right _ _, fun longest hLongest => ?_⟩, by omega,
    Nat.ModEq.mul_left _ ?_⟩
  · have := hSpans longest hLongest
    omega
  · have hWhole : other.shortest + (n + other.shortest * (wordBytes - 1)) =
        n + other.shortest * wordBytes := by
      obtain ⟨less, rfl⟩ : ∃ less, wordBytes = less + 1 := ⟨wordBytes - 1, by omega⟩
      rw [Nat.add_sub_cancel, Nat.mul_succ]
      omega
    calc other.shortest + rest
        ≡ other.shortest + (n + other.shortest * (wordBytes - 1)) [MOD wordBytes] :=
          Nat.ModEq.add_left _ (hRest ▸ Nat.mod_modEq _ _)
      _ = n + other.shortest * wordBytes := hWhole
      _ ≡ n [MOD wordBytes] := by rw [Nat.ModEq, Nat.add_mul_mod_self_right]

/-- A length and the one that is a word's worth longer fill the last word alike. -/
theorem mul_add_modEq (elementSize n wordBytes : Nat) :
    elementSize * (n + wordBytes) ≡ elementSize * n [MOD wordBytes] := by
  rw [Nat.mul_add, Nat.ModEq, Nat.add_mul_mod_self_right]

theorem fillsWithin_shift (hSize : lengths.shortest + 7 * wordBytes ≤ maxSize) :
    FillsWithin wordBytes elementSize lengths (lengths.shift wordBytes) := by
  intro n hAdmits hBound
  have hLongest : ∀ longest, (lengths.shift wordBytes).longest = some longest →
      ∃ own, lengths.longest = some own ∧ own + wordBytes = longest :=
    fun longest h => Option.map_eq_some_iff.mp h
  by_cases hFits : n + wordBytes ≤ maxSize
  · refine ⟨n + wordBytes, ⟨Nat.add_le_add_right hAdmits.1 _, fun longest h => ?_⟩, hFits,
      mul_add_modEq ..⟩
    obtain ⟨own, hOwn, rfl⟩ := hLongest longest h
    exact Nat.add_le_add_right (hAdmits.2 own hOwn) _
  · refine ⟨n, ⟨?_, fun longest h => ?_⟩, hBound, rfl⟩
    · show lengths.shortest + wordBytes ≤ n
      omega
    · obtain ⟨own, hOwn, rfl⟩ := hLongest longest h
      exact Nat.le_add_right_of_le (hAdmits.2 own hOwn)

theorem shift_fillsWithin :
    FillsWithin wordBytes elementSize (lengths.shift wordBytes) lengths := by
  intro n hAdmits hBound
  have hShortest : lengths.shortest + wordBytes ≤ n := hAdmits.1
  obtain ⟨m, rfl⟩ : ∃ m, n = m + wordBytes := ⟨n - wordBytes, by omega⟩
  refine ⟨m, ⟨by omega, fun longest h => ?_⟩, by omega, (mul_add_modEq ..).symm⟩
  exact Nat.le_of_add_le_add_right
    (hAdmits.2 (longest + wordBytes) (Option.map_eq_some_iff.mpr ⟨longest, h, rfl⟩))

end Lengths

/-- Whether ranges of long frames have the same layouts. -/
structure Lengths.Alike (wordBytes elementSize : Nat) (lengths other : Lengths) : Prop where
  long : 3 * wordBytes < elementSize * lengths.shortest
  long' : 3 * wordBytes < elementSize * other.shortest
  within : FillsWithin wordBytes elementSize lengths other
  within' : FillsWithin wordBytes elementSize other lengths

/-- Streams with long frames are never empty. -/
theorem Lengths.Alike.canBeEmpty_eq {wordBytes : Nat} {other : Lengths} {stream stream' : Stream}
    (h : stream.lengths.Alike wordBytes stream.elementBytes other)
    (hOther : stream'.lengths = other) : stream'.canBeEmpty = stream.canBeEmpty := by
  have hBusy : stream.lengths.shortest ≠ 0 := fun hZero => by
    have := hZero ▸ h.long
    omega
  have hBusy' : other.shortest ≠ 0 := fun hZero => by
    have := hZero ▸ h.long'
    omega
  rw [Stream.canBeEmpty, Stream.canBeEmpty, hOther, beq_eq_false_iff_ne.mpr hBusy,
    beq_eq_false_iff_ne.mpr hBusy']

section Layouts

variable {wordBytes index outputOffset inputOffset elementSize : Nat} {lengths other : Lengths}
  {counts counts' : SortedSet Nat} {stream : Stream} {streams : List Stream}

/-- Of two ranges alike, the representatives of one are among those of the other. -/
theorem mem_representativeCounts_of_fillsWithin
    (h : representativeCounts wordBytes outputOffset inputOffset elementSize lengths = .ok counts)
    (h' : representativeCounts wordBytes outputOffset inputOffset elementSize other = .ok counts')
    (hLong : 3 * wordBytes < elementSize * lengths.shortest)
    (hLong' : 3 * wordBytes < elementSize * other.shortest)
    (hWithin : Lengths.FillsWithin wordBytes elementSize lengths other) {count : Nat}
    (hCount : count ∈ counts) : count ∈ counts' := by
  obtain ⟨hOutput, hInput, _⟩ := representativeCounts_eq_ok h
  obtain ⟨n, hAdmits, hSize, rfl⟩ := (mem_representativeCounts h).mp hCount
  obtain ⟨m, hAdmits', hSize', hFill⟩ := hWithin n hAdmits hSize
  refine (mem_representativeCounts h').mpr ⟨m, hAdmits', hSize', ?_⟩
  have hBytes := Nat.mul_le_mul_left elementSize hAdmits.1
  have hBytes' := Nat.mul_le_mul_left elementSize hAdmits'.1
  exact representativeSize_congr (Nat.max_lt.mpr ⟨hOutput, hInput⟩) (by omega) (by omega) hFill

/-- Ranges alike have the same representatives. -/
theorem representativeCounts_congr (hAlike : Lengths.Alike wordBytes elementSize lengths other)
    (h : representativeCounts wordBytes outputOffset inputOffset elementSize lengths = .ok counts)
    (h' : representativeCounts wordBytes outputOffset inputOffset elementSize other =
      .ok counts') : counts = counts' :=
  SortedSet.ext_mem fun _ =>
    ⟨mem_representativeCounts_of_fillsWithin h h' hAlike.long hAlike.long' hAlike.within,
      mem_representativeCounts_of_fillsWithin h' h hAlike.long' hAlike.long hAlike.within'⟩

/-- Streams that differ in ranges alike have the same layouts. -/
theorem Stream.layouts_congr (hAlike : stream.lengths.Alike wordBytes stream.elementBytes other)
    {layouts layouts' : List Layout}
    (h : stream.layouts wordBytes index outputOffset = .ok layouts)
    (h' : ({ stream with lengths := other } : Stream).layouts wordBytes index outputOffset =
      .ok layouts') : layouts = layouts' := by
  obtain ⟨perOffset, hOffsets, h⟩ := bind_eq_ok.mp h
  obtain ⟨perOffset', hOffsets', h'⟩ := bind_eq_ok.mp h'
  cases h
  cases h'
  refine congrArg List.flatten (eq_of_mapM_eq_ok (fun inputOffset _ placed placed' h h' => ?_)
    hOffsets hOffsets')
  obtain ⟨counts, hCounts, h⟩ := bind_eq_ok.mp h
  obtain ⟨counts', hCounts', h'⟩ := bind_eq_ok.mp h'
  rw [representativeCounts_congr hAlike hCounts hCounts'] at h
  exact Except.ok.inj (h.symm.trans h')

/-- So have descriptions that differ in one such stream. -/
theorem layoutsPerStream_congr {position : Nat} {offsets : SortedSet Nat}
    {sets sets' : List (SortedSet Layout)} (hStream : streams[position]? = some stream)
    (hAlike : stream.lengths.Alike wordBytes stream.elementBytes other)
    (h : layoutsPerStream wordBytes index offsets streams = .ok sets)
    (h' : layoutsPerStream wordBytes index offsets
      (streams.set position { stream with lengths := other }) = .ok sets') : sets = sets' := by
  induction streams generalizing index offsets position sets sets' with
  | nil => cases hStream
  | cons head rest ih =>
      rw [layoutsPerStream] at h
      obtain ⟨perOffset, hOffsets, h⟩ := bind_eq_ok.mp h
      obtain ⟨later, hLater, h⟩ := bind_eq_ok.mp h
      cases h
      cases position with
      | zero =>
          cases hStream
          rw [List.set_cons_zero, layoutsPerStream] at h'
          obtain ⟨perOffset', hOffsets', h'⟩ := bind_eq_ok.mp h'
          obtain ⟨later', hLater', h'⟩ := bind_eq_ok.mp h'
          cases h'
          have hSame : perOffset = perOffset' := by
            refine eq_of_mapM_eq_ok (fun offset _ ended ended' h h' => ?_) hOffsets hOffsets'
            obtain ⟨layouts, hLayouts, h⟩ := bind_eq_ok.mp h
            obtain ⟨layouts', hLayouts', h'⟩ := bind_eq_ok.mp h'
            rw [Stream.layouts_congr hAlike hLayouts hLayouts'] at h
            exact Except.ok.inj (h.symm.trans h')
          subst hSame
          rw [Except.ok.inj (hLater.symm.trans hLater')]
      | succ position =>
          rw [List.set_cons_succ, layoutsPerStream] at h'
          obtain ⟨perOffset', hOffsets', h'⟩ := bind_eq_ok.mp h'
          obtain ⟨later', hLater', h'⟩ := bind_eq_ok.mp h'
          cases h'
          obtain rfl := Except.ok.inj (hOffsets.symm.trans hOffsets')
          rw [ih hStream hLater hLater']

end Layouts

namespace Join

variable {join : Join} {position : Nat} {stream : Stream} {lengths : Lengths}

/-- The description with another range of the lengths of a stream. -/
def withLengths (join : Join) (position : Nat) (stream : Stream) (lengths : Lengths) : Join :=
  { join with streams := join.streams.set position { stream with lengths := lengths } }

/-- Whether no frame of a description is too large. -/
def Fits (join : Join) : Prop :=
  ∀ elementSize elementCount,
    join.synthesize ≠ .error (.configuration (.frameTooLarge elementSize elementCount))

/-- If no frame is too large, the layouts of all streams are enumerated. -/
theorem Fits.exists_layoutsPerStream (hFits : join.Fits) (hCheck : join.check = .ok ()) :
    ∃ sets, layoutsPerStream join.wordBytes 0 (.ofList [join.outputOffset]) join.streams =
      .ok sets := by
  obtain ⟨hOffset, _, hEach⟩ := of_check_eq_ok hCheck
  cases h : layoutsPerStream join.wordBytes 0 (.ofList [join.outputOffset]) join.streams with
  | ok sets => exact ⟨sets, rfl⟩
  | error e =>
      have hOffsets : ∀ offset ∈ SortedSet.ofList [join.outputOffset], offset < join.wordBytes := by
        intro offset hMem
        rwa [List.mem_singleton.mp (SortedSet.mem_ofList.mp hMem)]
      obtain ⟨elementSize, elementCount, rfl⟩ := overflows_of_layoutsPerStream hOffsets hEach h
      refine absurd ?_ (hFits elementSize elementCount)
      rw [synthesize, hCheck, joinedLayouts, h]
      rfl

/-- The check accepts any range in place of another one. -/
theorem check_withLengths (hCheck : join.check = .ok ())
    (hStream : join.streams[position]? = some stream)
    (hRange : ∀ longest, lengths.longest = some longest → lengths.shortest ≤ longest) :
    (join.withLengths position stream lengths).check = .ok () := by
  obtain ⟨hOffset, hStreams, hEach⟩ := check_eq_ok_iff.mp hCheck
  refine check_eq_ok_iff.mpr ⟨hOffset, ?_, fun other hMem => ?_⟩
  · rwa [withLengths, Ne, List.set_eq_nil_iff]
  · rcases List.mem_or_eq_of_mem_set hMem with hMem | rfl
    · exact hEach other hMem
    · exact Stream.check_withLengths (hEach stream (List.mem_of_getElem? hStream)) hRange

/-- It does not matter to what may be empty if the stream may be so or not as before. -/
theorem emptiable_withLengths (hStream : join.streams[position]? = some stream)
    (hSame : ({ stream with lengths := lengths } : Stream).canBeEmpty = stream.canBeEmpty) :
    (join.withLengths position stream lengths).emptiable = join.emptiable := by
  obtain ⟨hBound, rfl⟩ := List.getElem?_eq_some_iff.mp hStream
  rw [emptiable, withLengths, List.map_set, hSame, emptiable, ← List.getElem_map Stream.canBeEmpty,
    List.set_getElem_self]
  rwa [List.length_map]

/-- Ranges alike do not matter to the machine. -/
theorem synthesize_congr (hCheck : join.check = .ok ())
    (hStream : join.streams[position]? = some stream)
    (hRange : ∀ longest, lengths.longest = some longest → lengths.shortest ≤ longest)
    (hAlike : stream.lengths.Alike join.wordBytes stream.elementBytes lengths)
    (hFits : join.Fits) (hFits' : (join.withLengths position stream lengths).Fits) :
    (join.withLengths position stream lengths).synthesize = join.synthesize := by
  have hCheck' := check_withLengths hCheck hStream hRange
  obtain ⟨sets, hSets⟩ := hFits.exists_layoutsPerStream hCheck
  obtain ⟨sets', hSets'⟩ := hFits'.exists_layoutsPerStream hCheck'
  have hSame : sets = sets' := layoutsPerStream_congr hStream hAlike hSets hSets'
  have hLayouts : joinedLayouts join.wordBytes (join.withLengths position stream lengths).streams
      join.outputOffset join.maxLayouts =
        joinedLayouts join.wordBytes join.streams join.outputOffset join.maxLayouts := by
    rw [joinedLayouts, joinedLayouts, hSets, hSame]
    exact congrArg (fun layouts => layouts >>= _) hSets'
  have hEmptiable := emptiable_withLengths hStream (hAlike.canBeEmpty_eq rfl)
  have hCount : (join.withLengths position stream lengths).streams.length = join.streams.length :=
    List.length_set
  simp only [synthesize, hCheck, hCheck', hEmptiable, hCount]
  rw [← hLayouts]
  rfl

/-- The machine does not depend on how long long frames are. If all frames of a stream span more
than three words wherever they start, then its range of lengths can be moved by a word's worth;
and if the range holds at least a word's worth of lengths, then its end can be put anywhere else
as long as it still does. Either way the result of the synthesis stays the same, be it a machine
or an error, unless a frame gets too large. -/
theorem synthesize_withLengths (hCheck : join.check = .ok ())
    (hStream : join.streams[position]? = some stream)
    (hLong : 3 * join.wordBytes < stream.elementBytes * stream.lengths.shortest) :
    (stream.lengths.shortest + 7 * join.wordBytes ≤ maxSize →
      let moved := join.withLengths position stream (stream.lengths.shift join.wordBytes)
      join.Fits → moved.Fits → moved.synthesize = join.synthesize) ∧
    ∀ longest : Option Nat,
      let extended : Lengths := ⟨stream.lengths.shortest, longest⟩
      stream.lengths.Spans join.wordBytes → extended.Spans join.wordBytes →
      stream.lengths.shortest + join.wordBytes - 1 ≤ maxSize →
      let replaced := join.withLengths position stream extended
      join.Fits → replaced.Fits → replaced.synthesize = join.synthesize := by
  obtain ⟨hOffset, _, hEach⟩ := check_eq_ok_iff.mp hCheck
  obtain ⟨_, _, _, _, hRange⟩ :=
    Stream.check_eq_ok_iff.mp (hEach stream (List.mem_of_getElem? hStream))
  have hWidth : 0 < join.wordBytes := Nat.zero_lt_of_lt hOffset
  constructor
  · intro hSize moved hFits hFits'
    refine synthesize_congr hCheck hStream (fun longest h => ?_) ?_ hFits hFits'
    · obtain ⟨own, hOwn, rfl⟩ := Option.map_eq_some_iff.mp h
      exact Nat.add_le_add_right (hRange own hOwn) _
    · exact
        { long := hLong
          long' := Nat.lt_of_lt_of_le hLong (Nat.mul_le_mul_left _ (Nat.le_add_right _ _))
          within := Lengths.fillsWithin_shift hSize
          within' := Lengths.shift_fillsWithin }
  · intro longest extended hSpans hSpans' hSize replaced hFits hFits'
    refine synthesize_congr hCheck hStream (fun longest h => ?_) ?_ hFits hFits'
    · have := hSpans' longest h
      omega
    · exact
        { long := hLong
          long' := hLong
          within := Lengths.fillsWithin_of_spans hWidth hSpans' hSize
          within' := Lengths.fillsWithin_of_spans hWidth hSpans hSize }

/-- Seven to nine bytes in words of two. -/
def longBytes : Join := ⟨2, 0, [⟨8, .ofList [0], ⟨7, some 9⟩⟩], 16⟩

theorem synthesize_withLengths_longBytes :
    (longBytes.withLengths 0 ⟨8, .ofList [0], ⟨7, some 9⟩⟩ ⟨9, some 11⟩).synthesize =
        longBytes.synthesize ∧
      (longBytes.withLengths 0 ⟨8, .ofList [0], ⟨7, some 9⟩⟩ ⟨7, none⟩).synthesize =
        longBytes.synthesize ∧
      longBytes.synthesize.isOk := by
  have hFits : ∀ join : Join, join.synthesize.isOk = true → join.Fits := by
    intro join hOk elementSize elementCount hError
    rw [hError] at hOk
    cases hOk
  have hOk : longBytes.synthesize.isOk = true := by decide +kernel
  have hResult := @synthesize_withLengths longBytes 0 _ rfl rfl (by decide)
  have hMoved := hResult.1 (by decide) (hFits _ hOk) (hFits _ (by decide +kernel))
  have hReplaced := hResult.2 none (by simp [Lengths.Spans, longBytes])
    (by simp [Lengths.Spans]) (by decide) (hFits _ hOk) (hFits _ (by decide +kernel))
  exact ⟨hMoved, hReplaced, hOk⟩

end Join

end StreamSplice
