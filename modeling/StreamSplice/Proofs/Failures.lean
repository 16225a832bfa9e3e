import StreamSplice.Proofs.Grounding

/-! Failures of the synthesis. A description is turned down by its check, or it has too large a
frame or too many layouts, or its machine is not deterministic; the passes that run after the
check fail in no other way. -/
namespace StreamSplice

open Layout Pipeline

/-- Whether a layout fails because a frame is too large. -/
def LayoutError.Overflows (e : LayoutError) : Prop :=
  ∃ elementSize elementCount, e = .sizeOverflow elementSize elementCount

section Layouts

variable {wordBytes index outputOffset inputOffset : Nat} {stream : Stream}
  {streams : List Stream} {offsets : SortedSet Nat} {e : LayoutError}

/-- What follows a layout starts in a word. -/
theorem Layout.endOffset?_getD_lt {layout : Layout} (hOffset : outputOffset < wordBytes) :
    (layout.endOffset? wordBytes).getD outputOffset < wordBytes := by
  cases hEnd : layout.endOffset? wordBytes with
  | none => exact hOffset
  | some offset =>
      obtain ⟨last, _, hEnd⟩ := Option.bind_eq_some_iff.mp hEnd
      split at hEnd
      · cases hEnd
      · cases hEnd
        exact Nat.mod_lt _ (by omega)

/-- From offsets within a word, placing a frame fails only if the frame is too large. -/
theorem overflows_of_place {count : Nat} (hOutput : outputOffset < wordBytes)
    (hInput : inputOffset < wordBytes)
    (h : place wordBytes index count outputOffset inputOffset = .error e) : e.Overflows := by
  simp only [place, requireInWord, hOutput, hInput, if_true] at h
  by_cases hCount : count = 0
  · simp [hCount, bind, Except.bind, pure, Except.pure] at h
  · by_cases hSize : maxSize < inputOffset + count
    · simp [hCount, hSize, bind, Except.bind, throw, throwThe, MonadExceptOf.throw] at h
      exact ⟨1, count, h.symm⟩
    · simp [hCount, hSize, bind, Except.bind, pure, Except.pure] at h

/-- From offsets within a word, sampling the lengths of whole elements fails only if a frame is
too large. -/
theorem overflows_of_representativeCounts {elementSize : Nat} {lengths : Lengths}
    (hOutput : outputOffset < wordBytes) (hInput : inputOffset < wordBytes)
    (hElement : 0 < elementSize)
    (h : representativeCounts wordBytes outputOffset inputOffset elementSize lengths = .error e) :
    e.Overflows := by
  obtain ⟨_, rfl⟩ :=
    (representativeCounts_eq_error_iff hOutput hInput (Nat.ne_of_gt hElement)).mp h
  exact ⟨_, _, rfl⟩

theorem overflows_of_layouts (hOutput : outputOffset < wordBytes)
    (hElement : 0 < stream.elementBytes)
    (hStarts : ∀ offset ∈ stream.startOffsets, offset < wordBytes)
    (h : stream.layouts wordBytes index outputOffset = .error e) : e.Overflows := by
  rcases bind_eq_error.mp h with h | ⟨_, _, h⟩
  · obtain ⟨inputOffset, hMem, h⟩ := exists_of_mapM_eq_error h
    have hInput := hStarts inputOffset hMem
    rcases bind_eq_error.mp h with h | ⟨_, _, h⟩
    · exact overflows_of_representativeCounts hOutput hInput hElement h
    · obtain ⟨count, _, h⟩ := exists_of_mapM_eq_error h
      exact overflows_of_place hOutput hInput h
  · cases h

/-- The streams are laid out one after the other, each from offsets within a word. -/
theorem overflows_of_layoutsPerStream (hOffsets : ∀ offset ∈ offsets, offset < wordBytes)
    (hStreams : ∀ stream ∈ streams, 0 < stream.elementBytes ∧
      ∀ offset ∈ stream.startOffsets, offset < wordBytes)
    (h : layoutsPerStream wordBytes index offsets streams = .error e) : e.Overflows := by
  induction streams generalizing index offsets with
  | nil => cases h
  | cons stream streams ih =>
      rw [List.forall_mem_cons] at hStreams
      obtain ⟨⟨hElement, hStarts⟩, hStreams⟩ := hStreams
      rw [layoutsPerStream] at h
      rcases bind_eq_error.mp h with h | ⟨perOffset, hPerOffset, h⟩
      · obtain ⟨offset, hMem, h⟩ := exists_of_mapM_eq_error h
        rcases bind_eq_error.mp h with h | ⟨_, _, h⟩
        · exact overflows_of_layouts (hOffsets offset hMem) hElement hStarts h
        · cases h
      · rcases bind_eq_error.mp h with h | ⟨_, _, h⟩
        · refine ih (fun later hLater => ?_) hStreams h
          obtain ⟨⟨layout, _⟩, hFound, rfl⟩ := List.mem_map.mp (SortedSet.mem_ofList.mp hLater)
          obtain ⟨ended, hEnded, hMem⟩ := List.mem_flatten.mp hFound
          obtain ⟨offset, hOffset, h⟩ := (mem_of_mapM_eq_ok hPerOffset).2 ended hEnded
          obtain ⟨layouts, _, h⟩ := bind_eq_ok.mp h
          cases h
          obtain ⟨placed, _, h⟩ := List.mem_map.mp hMem
          cases h
          exact endOffset?_getD_lt (hOffsets offset hOffset)
        · cases h

/-- Joining the layouts of streams fails only if a frame is too large, or if there are too many
combinations of layouts. -/
theorem of_joinedLayouts_eq_error {limit : Nat} (hOffset : outputOffset < wordBytes)
    (hStreams : ∀ stream ∈ streams, 0 < stream.elementBytes ∧
      ∀ offset ∈ stream.startOffsets, offset < wordBytes)
    (h : joinedLayouts wordBytes streams outputOffset limit = .error e) :
    e.Overflows ∨ ∃ combinations, e = .tooManyCombinations combinations limit := by
  rcases bind_eq_error.mp h with h | ⟨perStream, _, h⟩
  · refine .inl (overflows_of_layoutsPerStream (fun offset hMem => ?_) hStreams h)
    rwa [List.mem_singleton.mp (SortedSet.mem_ofList.mp hMem)]
  · rcases bind_eq_error.mp h with h | ⟨_, _, h⟩
    · simp only [requireCombinations] at h
      split at h
      · split at h
        · cases h
        · cases h
          exact .inr ⟨_, rfl⟩
      · cases h
        exact .inr ⟨_, rfl⟩
    · obtain ⟨_, hSet⟩ : ∃ set, SortedSet.collect
          (fun parts => splice wordBytes parts outputOffset)
          (choices (perStream.map SortedSet.toList)) = .ok set :=
        SortedSet.exists_collect_eq_ok fun parts _ => ⟨_, splice_eq_ok.mpr ⟨hOffset, rfl⟩⟩
      rw [hSet] at h
      cases h

end Layouts

/-- Failures that only show once a description has passed its check: a frame is too large,
there are more than `limit` combinations of layouts, or the machine is not deterministic. -/
def SynthesisError.PastCheck (limit : Nat) : SynthesisError → Prop
  | .configuration (.frameTooLarge ..) => True
  | .unsupported (.tooManyCombinations _ bound) => bound = limit
  | .invariant (.nonDeterministic ..) => True
  | _ => False

namespace Join

variable {join : Join}

/-- The check of a description reports none of the failures that show later. -/
theorem not_pastCheck_of_check_eq_error {r : Rejection} {limit : Nat}
    (h : join.check = .error r) : ¬(SynthesisError.ofRejection r).PastCheck limit := by
  have hStreams : ∀ index streams r, checkStreams join.wordBytes index streams = .error r →
      ¬(SynthesisError.ofRejection r).PastCheck limit := by
    intro index streams
    induction streams generalizing index with
    | nil => intro r h; cases h
    | cons stream rest ih =>
        intro r h
        rcases bind_eq_error.mp h with h | ⟨_, _, h⟩
        · obtain ⟨source, _, rfl⟩ := mapError_eq_error.mp h
          cases source <;> simp [Rejection.at, SynthesisError.ofRejection, SynthesisError.PastCheck]
        · exact ih _ r h
  simp only [check] at h
  split at h
  · cases h
    exact id
  · split at h
    · cases h
      exact id
    · split at h
      · cases h
        exact id
      · exact hStreams 0 join.streams r h

/-- The passes after the check of a description fail only if a frame is too large, if there are
too many combinations of layouts, or if the machine is not deterministic. -/
theorem passes_of_check (hCheck : join.check = .ok ()) :
    (∀ e, joinedLayouts join.wordBytes join.streams join.outputOffset join.maxLayouts = .error e →
      e.Overflows ∨ ∃ combinations, e = .tooManyCombinations combinations join.maxLayouts) ∧
    ∀ layouts, joinedLayouts join.wordBytes join.streams join.outputOffset join.maxLayouts =
        .ok layouts →
      ∃ inversion contexts, join.Passes layouts inversion contexts ∧
        ∀ e, Table.build join.wordBytes join.streams.length inversion join.emptiable = .error e →
          ∃ state first second, e = .nonDeterministic state first second := by
  obtain ⟨hOffset, hStreams, hEach⟩ := of_check_eq_ok hCheck
  refine ⟨fun e h => of_joinedLayouts_eq_error hOffset hEach h, fun layouts hLayouts => ?_⟩
  obtain ⟨inversion, hInversion⟩ := exists_inversion hLayouts
  obtain ⟨contexts, hContexts, _⟩ := exists_contexts hLayouts hInversion
  have hPasses : join.Passes layouts inversion contexts :=
    ⟨hCheck, hLayouts, hInversion, hContexts⟩
  refine ⟨inversion, contexts, hPasses, fun e h => ?_⟩
  obtain ⟨hWidth, hCount, _⟩ := Inversion.ofLayouts_eq_ok hInversion
  have hEmptiable : join.emptiable.length = join.streams.length := List.length_map ..
  have hUniform : (Table.ofContexts (join.setting inversion) contexts).Uniform :=
    Table.uniform_of_contexts hWidth hContexts
  rw [Table.build_eq hCount hEmptiable hWidth hContexts] at h
  rcases bind_eq_error.mp h with hOverlap | ⟨_, hDeterministic, h⟩
  · obtain ⟨state, first, second, rfl, _⟩ :=
      Table.requireDeterministic_states_eq_error hUniform hOverlap
    exact ⟨state, first, second, rfl⟩
  · have hSound : Sound (join.setting inversion) contexts :=
      { streams := hStreams
        lookahead := by simp [setting, Inversion.lookahead, hCount]
        emptiable := hEmptiable
        deterministic := (Table.requireDeterministic_states_eq_ok hUniform).mp hDeterministic }
    rcases bind_eq_error.mp h with hDead | ⟨_, _, h⟩
    · cases (requireLive_eq_ok hSound hPasses.grounded).symm.trans hDead
    · cases h

/-- Only the documented failures are reported. A description is turned down by its check if and
only if the synthesis fails with what the check reports. If it passes, then it has a machine,
or a frame is too large, or there are more combinations of layouts than it allows, or its
machine is not deterministic. No pass on the way fails otherwise: the layouts that are joined
can be inverted, their sub-states collected and the contexts of these found, and every
transition leads to a state that has transitions. -/
theorem synthesize_failures (join : Join) :
    (∀ r, join.check = .error r ↔
      join.synthesize = .error (.ofRejection r) ∧
        ¬(SynthesisError.ofRejection r).PastCheck join.maxLayouts) ∧
    (join.check = .ok () →
      ((∃ table, join.synthesize = .ok table) ∨
        ∃ e, join.synthesize = .error e ∧ e.PastCheck join.maxLayouts) ∧
      (∀ e, joinedLayouts join.wordBytes join.streams join.outputOffset join.maxLayouts =
          .error e →
        e.Overflows ∨ ∃ combinations, e = .tooManyCombinations combinations join.maxLayouts) ∧
      ∀ layouts, joinedLayouts join.wordBytes join.streams join.outputOffset join.maxLayouts =
          .ok layouts →
        ∃ inversion subStates contexts,
          Inversion.ofLayouts join.wordBytes layouts.toList join.streams.length = .ok inversion ∧
          inversion.subStates = .ok subStates ∧ inversion.contexts = .ok contexts ∧
          ∀ e, Table.build join.wordBytes join.streams.length inversion join.emptiable =
              .error e →
            ∃ state first second, e = .nonDeterministic state first second) := by
  have hChecked : join.check = .ok () → ((∃ table, join.synthesize = .ok table) ∨
      ∃ e, join.synthesize = .error e ∧ e.PastCheck join.maxLayouts) := by
    intro hCheck
    obtain ⟨hLayoutErrors, hRest⟩ := passes_of_check hCheck
    cases hResult : join.synthesize with
    | ok table => exact .inl ⟨table, rfl⟩
    | error e =>
        refine .inr ⟨e, rfl, ?_⟩
        rcases bind_eq_error.mp hResult with h | ⟨_, _, h⟩
        · rw [hCheck] at h
          cases h
        · rcases bind_eq_error.mp h with h | ⟨layouts, hLayouts, h⟩
          · obtain ⟨source, hError, rfl⟩ := mapError_eq_error.mp h
            rcases hLayoutErrors source hError with ⟨_, _, rfl⟩ | ⟨_, rfl⟩
            · exact trivial
            · exact rfl
          · obtain ⟨inversion, contexts, hPasses, hBuild⟩ :=
              hRest layouts (mapError_eq_ok.mp hLayouts)
            rw [hPasses.inverted] at h
            obtain ⟨source, hError, rfl⟩ := mapError_eq_error.mp h
            obtain ⟨_, _, _, rfl⟩ := hBuild source hError
            exact trivial
  refine ⟨fun r => ⟨fun hCheck => ⟨?_, not_pastCheck_of_check_eq_error hCheck⟩, ?_⟩,
    fun hCheck => ⟨hChecked hCheck, (passes_of_check hCheck).1, fun layouts hLayouts => ?_⟩⟩
  · rw [synthesize, hCheck]
    rfl
  · rintro ⟨hResult, hNot⟩
    cases hCheck : join.check with
    | ok u =>
        rcases hChecked hCheck with ⟨table, hTable⟩ | ⟨e, hError, hLate⟩
        · cases hTable.symm.trans hResult
        · cases hError.symm.trans hResult
          exact absurd hLate hNot
    | error r' =>
        have hError : join.synthesize = .error (.ofRejection r') := by
          rw [synthesize, hCheck]
          rfl
        have hSame := Except.error.inj (hError.symm.trans hResult)
        cases r <;> cases r' <;> simp_all [SynthesisError.ofRejection]
  · obtain ⟨inversion, contexts, hPasses, hBuild⟩ := (passes_of_check hCheck).2 layouts hLayouts
    obtain ⟨subStates, hStates, _⟩ := Inversion.contexts_eq_ok hPasses.found
    exact ⟨inversion, subStates, contexts, hPasses.inverted, hStates, hPasses.found, hBuild⟩

/-- Pairs of bytes behind a stream that only sends empty frames. -/
def emptyThenPairs : Join :=
  ⟨2, 0, [⟨8, .ofList [0], ⟨0, some 0⟩⟩, ⟨16, .ofList [0], ⟨1, none⟩⟩], 16⟩

/-- There is a machine for them, but not if no combination of layouts is allowed. If the output
starts past its first word, the description is turned down. -/
theorem synthesize_failures_emptyThenPairs :
    (emptyThenPairs.check = .ok () ∧ ∃ table, emptyThenPairs.synthesize = .ok table) ∧
    (∃ e, { emptyThenPairs with maxLayouts := 0 }.synthesize = .error e ∧ e.PastCheck 0) ∧
    { emptyThenPairs with outputOffset := 2 }.synthesize =
      .error (.configuration (.outputOffsetOutOfRange 2 2)) := by
  refine ⟨⟨rfl, ?_⟩, ?_, ?_⟩
  · refine ((synthesize_failures emptyThenPairs).2 rfl).1.resolve_right ?_
    rintro ⟨e, hError, _⟩
    have hOk : emptyThenPairs.synthesize.isOk = true := by decide +kernel
    rw [hError] at hOk
    cases hOk
  · refine ((synthesize_failures { emptyThenPairs with maxLayouts := 0 }).2 rfl).1.resolve_left ?_
    rintro ⟨table, hTable⟩
    have hNot : { emptyThenPairs with maxLayouts := 0 }.synthesize.isOk = false := by
      decide +kernel
    rw [hTable] at hNot
    cases hNot
  · exact (((synthesize_failures { emptyThenPairs with outputOffset := 2 }).1 _).mp rfl).1

end Join

end StreamSplice
