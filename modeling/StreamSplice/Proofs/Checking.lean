import StreamSplice.Join
import StreamSplice.Proofs.Fallible

/-! Descriptions that pass their check. The check turns down one defect after the other, so it
succeeds exactly on the descriptions that have none of them. -/
namespace StreamSplice

/-- A step that turns down what meets a condition succeeds on the rest only. -/
theorem refusal_eq_ok {ε α β : Type} {c : Prop} [Decidable c] {e : ε} {f : β → Except ε α}
    {x : Except ε α} {a : α} :
    (if c then throw e >>= f else x) = .ok a ↔ ¬c ∧ x = .ok a := by
  by_cases h : c
  · simp [h, throw, throwThe, MonadExceptOf.throw, bind, Except.bind]
  · simp [h]

namespace Stream

variable {stream : Stream} {wordBytes : Nat} {u : Unit}

theorem check_eq_ok_iff :
    stream.check wordBytes = .ok u ↔
      stream.elementBits ≠ 0 ∧ stream.elementBits % 8 = 0 ∧ stream.startOffsets.isEmpty = false ∧
        (∀ offset ∈ stream.startOffsets, offset < wordBytes) ∧
        ∀ longest, stream.lengths.longest = some longest → stream.lengths.shortest ≤ longest := by
  have hOffsets : stream.startOffsets.toList.find? (wordBytes ≤ ·) = none ↔
      ∀ offset ∈ stream.startOffsets, offset < wordBytes := by
    simp [List.find?_eq_none, SortedSet.mem_toList]
  simp only [check, refusal_eq_ok, ne_eq, not_not, Bool.not_eq_true]
  refine and_congr_right fun _ => and_congr_right fun _ => and_congr_right fun _ => ?_
  rw [← hOffsets]
  cases stream.startOffsets.toList.find? (wordBytes ≤ ·) with
  | some offset => simp [throw, throwThe, MonadExceptOf.throw, bind, Except.bind]
  | none =>
      cases stream.lengths.longest with
      | none => simp [pure, Except.pure]
      | some longest =>
          by_cases hRange : longest < stream.lengths.shortest
          · simp [hRange, throw, throwThe, MonadExceptOf.throw]
          · simp [hRange, pure, Except.pure, Nat.not_lt.mp hRange]

/-- Streams that pass their check have elements of whole bytes, and frames that start in a
word. -/
theorem of_check_eq_ok (h : stream.check wordBytes = .ok u) :
    0 < stream.elementBytes ∧ ∀ offset ∈ stream.startOffsets, offset < wordBytes := by
  obtain ⟨hBits, hWhole, _, hOffsets, _⟩ := check_eq_ok_iff.mp h
  exact ⟨by unfold elementBytes; omega, hOffsets⟩

/-- Lengths do not matter to the check as long as the range is one. -/
theorem check_withLengths {lengths : Lengths} (h : stream.check wordBytes = .ok u)
    (hRange : ∀ longest, lengths.longest = some longest → lengths.shortest ≤ longest) :
    ({ stream with lengths := lengths } : Stream).check wordBytes = .ok u := by
  obtain ⟨hBits, hWhole, hStarts, hOffsets, _⟩ := check_eq_ok_iff.mp h
  exact check_eq_ok_iff.mpr ⟨hBits, hWhole, hStarts, hOffsets, hRange⟩

end Stream

namespace Join

variable {join : Join} {u : Unit}

theorem checkStreams_eq_ok_iff {wordBytes index : Nat} {streams : List Stream} :
    checkStreams wordBytes index streams = .ok u ↔
      ∀ stream ∈ streams, stream.check wordBytes = .ok () := by
  induction streams generalizing index with
  | nil => simp [checkStreams, pure, Except.pure]
  | cons stream rest ih =>
      rw [checkStreams, bind_eq_ok, List.forall_mem_cons]
      simp only [mapError_eq_ok, ih]
      exact ⟨fun ⟨_, hHead, hRest⟩ => ⟨hHead, hRest⟩, fun ⟨hHead, hRest⟩ => ⟨(), hHead, hRest⟩⟩

theorem check_eq_ok_iff :
    join.check = .ok u ↔ join.outputOffset < join.wordBytes ∧ join.streams ≠ [] ∧
      ∀ stream ∈ join.streams, stream.check join.wordBytes = .ok () := by
  simp only [check, refusal_eq_ok, checkStreams_eq_ok_iff, List.isEmpty_iff]
  constructor
  · rintro ⟨_, hOffset, hStreams, hEach⟩
    exact ⟨Nat.not_le.mp hOffset, hStreams, hEach⟩
  · rintro ⟨hOffset, hStreams, hEach⟩
    exact ⟨by omega, Nat.not_le.mpr hOffset, hStreams, hEach⟩

theorem of_check_eq_ok (h : join.check = .ok u) :
    join.outputOffset < join.wordBytes ∧ 0 < join.streams.length ∧
      ∀ stream ∈ join.streams, 0 < stream.elementBytes ∧
        ∀ offset ∈ stream.startOffsets, offset < join.wordBytes := by
  obtain ⟨hOffset, hStreams, hEach⟩ := check_eq_ok_iff.mp h
  exact ⟨hOffset, List.length_pos_iff.mpr hStreams, fun stream hMem =>
    Stream.of_check_eq_ok (hEach stream hMem)⟩

end Join

end StreamSplice
