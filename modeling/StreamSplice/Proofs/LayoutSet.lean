import StreamSplice.Proofs.Determinism
import StreamSplice.Proofs.Disorder
import StreamSplice.Proofs.Recovering

/-! A machine depends on the set of its layouts only. Words are labelled by the position of
their layout, but a context is a matter of the word and its neighbours in the same layout, and
so is the stage at which a byte is consumed. Layouts in another order, or repeated, have the
same contexts and the same stages, and the same machine is built or refused. -/
namespace StreamSplice

open Std Layout

/-- The sources of word `word`, if it holds a byte. -/
def Layout.sourcesAt? (layout : Layout) (word : Nat) : Option (List (Option Source)) := do
  let cells ← layout.words[word]?
  if cells.any Option.isSome then some (wordSources cells) else none

namespace SubState

variable {s s' : SubState} {wordBytes : Nat} {previous previous' next next' : Option SubState}
  {context : Context}

/-- The context of a word is a matter of its sources and of those of its neighbours. -/
theorem context_congr (hSources : s.sources = s'.sources)
    (hPrevious : previous.map sources = previous'.map sources)
    (hNext : next.map sources = next'.map sources)
    (h : s.context wordBytes previous next = .ok context) :
    s'.context wordBytes previous' next' = .ok context := by
  have hState : ∀ {a b : SubState} {state : Nat}, a.sources = b.sources → a.state = .ok state →
      b.state = .ok state := by
    intro a b state hSame hState
    rwa [state_eq_ok, ← hSame, ← state_eq_ok]
  obtain ⟨state, nextState, hOwn, hFollowing, hOrder, rfl⟩ := context_eq_ok.mp h
  have hHead : next'.bind (·.sources.head?.join) = next.bind (·.sources.head?.join) := by
    cases next <;> cases next' <;> simp_all
  have hSplits : previous'.any (·.splitsInto s' wordBytes) =
      previous.any (·.splitsInto s wordBytes) := by
    cases previous <;> cases previous' <;> simp_all [splitsInto]
  have hLast : next'.isNone = next.isNone := by
    cases next <;> cases next' <;> simp_all
  refine context_eq_ok.mpr ⟨state, nextState, hState hSources hOwn, ?_, ?_, ?_⟩
  · cases next with
    | none =>
        cases next' with
        | none => exact hFollowing
        | some _ => cases hNext
    | some _ =>
        cases next' with
        | none => cases hNext
        | some _ => exact hState (Option.some.inj hNext) hFollowing
  · rw [hHead, ← hSources]
    exact hOrder
  · rw [hHead, ← hSources, hSplits, hLast]

end SubState

namespace Inversion

variable {wordBytes streamCount : Nat} {layouts layouts' : List Layout}
  {inversion inversion' : Inversion} {subStates subStates' : SubStates}
  {contexts contexts' : SortedSet Context}

/-- The sub-states of a layout are those of its words that hold a byte, wherever the layout
stands. -/
theorem map_sources_subStates (h : ofLayouts wordBytes layouts streamCount = .ok inversion)
    (hStates : inversion.subStates = .ok subStates) {index : Nat} {layout : Layout}
    (hIndex : layouts[index]? = some layout) (word : Nat) :
    subStates[(⟨index, word⟩ : WordLabel)]?.map SubState.sources = layout.sourcesAt? word := by
  have hWord : wordAt? layouts ⟨index, word⟩ = layout.words[word]? := wordAt?_of_layout hIndex
  simp only [sourcesAt?]
  cases hCells : layout.words[word]? with
  | none =>
      rw [getElem?_subStates_eq_none h hStates (hWord.trans hCells)]
      rfl
  | some cells =>
      simp only [Option.bind_eq_bind, Option.bind_some]
      split
      · next hByte =>
          obtain ⟨cell, hMem, hCell⟩ := List.any_eq_true.mp hByte
          obtain ⟨origin, rfl⟩ := Option.isSome_iff_exists.mp hCell
          obtain ⟨s, hFound, hSources⟩ :=
            getElem?_subStates h hStates (hWord.trans hCells) hMem
          rw [hFound, Option.map_some, hSources]
      · next hBlank =>
          cases hFound : subStates[(⟨index, word⟩ : WordLabel)]? with
          | none => rfl
          | some s =>
              obtain ⟨cells', hCells', _, origin, hByte⟩ := exists_word_of_subState h hStates hFound
              cases (hWord.trans hCells).symm.trans hCells'
              exact absurd (List.any_eq_true.mpr ⟨_, hByte, rfl⟩) hBlank

section Pair

variable (h : ofLayouts wordBytes layouts streamCount = .ok inversion)
  (h' : ofLayouts wordBytes layouts' streamCount = .ok inversion')

include h h'

/-- A layout has the same contexts wherever it stands. -/
theorem context_of_layout (hStates : inversion.subStates = .ok subStates)
    (hStates' : inversion'.subStates = .ok subStates') {index index' word : Nat} {layout : Layout}
    (hIndex : layouts[index]? = some layout) (hIndex' : layouts'[index']? = some layout)
    {s : SubState} (hFound : subStates[(⟨index, word⟩ : WordLabel)]? = some s) :
    ∃ s', subStates'[(⟨index', word⟩ : WordLabel)]? = some s' ∧ ∀ context,
      s.context inversion.wordBytes (previous? subStates ⟨index, word⟩)
          subStates[(⟨index, word⟩ : WordLabel).next]? = .ok context ↔
        s'.context inversion'.wordBytes (previous? subStates' ⟨index', word⟩)
          subStates'[(⟨index', word⟩ : WordLabel).next]? = .ok context := by
  have hSame : ∀ word, subStates[(⟨index, word⟩ : WordLabel)]?.map SubState.sources =
      subStates'[(⟨index', word⟩ : WordLabel)]?.map SubState.sources := fun word =>
    (map_sources_subStates h hStates hIndex word).trans
      (map_sources_subStates h' hStates' hIndex' word).symm
  have hPrevious : (previous? subStates ⟨index, word⟩).map SubState.sources =
      (previous? subStates' ⟨index', word⟩).map SubState.sources := by
    cases word with
    | zero => rfl
    | succ word => exact hSame word
  have hOwn := hSame word
  rw [hFound, Option.map_some] at hOwn
  obtain ⟨s', hFound', hSources⟩ := Option.map_eq_some_iff.mp hOwn.symm
  refine ⟨s', hFound', fun context => ?_⟩
  rw [(ofLayouts_eq_ok h).1, (ofLayouts_eq_ok h').1]
  exact ⟨SubState.context_congr hSources.symm hPrevious (hSame (word + 1)),
    SubState.context_congr hSources hPrevious.symm (hSame (word + 1)).symm⟩

/-- If the contexts of some layouts are found, then so are those of fewer layouts, and there are
no more of them. -/
theorem exists_contexts_of_subset (hSubset : ∀ layout ∈ layouts, layout ∈ layouts')
    (hContexts : inversion'.contexts = .ok contexts') :
    ∃ contexts, inversion.contexts = .ok contexts ∧ ∀ context ∈ contexts, context ∈ contexts' := by
  obtain ⟨subStates, hStates⟩ := exists_subStates h
  obtain ⟨subStates', hStates', hEach, _⟩ := contexts_eq_ok hContexts
  have hKnown : ∀ (label : WordLabel) s, subStates[label]? = some s →
      ∃ context ∈ contexts', s.context inversion.wordBytes (previous? subStates label)
        subStates[label.next]? = .ok context := by
    rintro ⟨index, word⟩ s hFound
    obtain ⟨cells, hCells, _⟩ := exists_word_of_subState h hStates hFound
    obtain ⟨layout, hIndex, _⟩ := Option.bind_eq_some_iff.mp hCells
    obtain ⟨index', hIndex'⟩ :=
      List.mem_iff_getElem?.mp (hSubset layout (List.mem_of_getElem? hIndex))
    obtain ⟨s', hFound', hSame⟩ :=
      context_of_layout h h' hStates hStates' hIndex hIndex' hFound
    obtain ⟨context, hMem, hContext⟩ := hEach _ s' hFound'
    exact ⟨context, hMem, (hSame context).mpr hContext⟩
  have hItems : ∀ state ∈ subStates.toList, ∃ context,
      state.2.context inversion.wordBytes (previous? subStates state.1)
        subStates[state.1.next]? = .ok context := by
    rintro ⟨label, s⟩ hItem
    obtain ⟨context, _, hContext⟩ := hKnown label s
      (TreeMap.mem_toList_iff_getElem?_eq_some.mp hItem)
    exact ⟨context, hContext⟩
  obtain ⟨contexts, hCollect⟩ := SortedSet.exists_collect_eq_ok hItems
  have hOwn : inversion.contexts = .ok contexts := bind_eq_ok.mpr ⟨subStates, hStates, hCollect⟩
  refine ⟨contexts, hOwn, fun context hMem => ?_⟩
  obtain ⟨found, hFoundStates, _, hFrom⟩ := contexts_eq_ok hOwn
  cases hStates.symm.trans hFoundStates
  obtain ⟨label, s, hFound, hContext⟩ := hFrom context hMem
  obtain ⟨context', hMem', hContext'⟩ := hKnown label s hFound
  cases hContext.symm.trans hContext'
  exact hMem'

/-- A byte that some layouts consume at a stage is consumed there by more layouts as well. -/
theorem exists_use_of_subset (hSubset : ∀ layout ∈ layouts, layout ∈ layouts') {use : ByteUse}
    (hUse : use ∈ inversion.uses) :
    ∃ use' ∈ inversion'.uses, use'.stream = use.stream ∧ use'.stage = use.stage := by
  obtain ⟨_, _, _, hUses⟩ := ofLayouts_eq_ok h
  obtain ⟨_, _, _, hUses'⟩ := ofLayouts_eq_ok h'
  obtain ⟨⟨index, word⟩, cells, outputByte, origin, hCells, hCell, rfl⟩ := (hUses use).mp hUse
  obtain ⟨layout, hIndex, hWord⟩ := Option.bind_eq_some_iff.mp hCells
  obtain ⟨index', hIndex'⟩ :=
    List.mem_iff_getElem?.mp (hSubset layout (List.mem_of_getElem? hIndex))
  have hCells' : wordAt? layouts' ⟨index', word⟩ = some cells :=
    (wordAt?_of_layout hIndex').trans hWord
  exact ⟨_, (hUses' _).mpr ⟨_, cells, outputByte, origin, hCells', hCell, rfl⟩, rfl, rfl⟩

/-- Layouts in another order, or repeated, have the same contexts. -/
theorem contexts_eq_ok_of_mem_iff (hSame : ∀ layout, layout ∈ layouts ↔ layout ∈ layouts')
    (hContexts : inversion.contexts = .ok contexts) : inversion'.contexts = .ok contexts := by
  obtain ⟨contexts', hContexts', hFewer⟩ :=
    exists_contexts_of_subset h' h (fun layout => (hSame layout).mpr) hContexts
  obtain ⟨found, hFound, hMore⟩ :=
    exists_contexts_of_subset h h' (fun layout => (hSame layout).mp) hContexts'
  cases hContexts.symm.trans hFound
  rw [hContexts', SortedSet.ext_mem fun context => ⟨hFewer context, hMore context⟩]

/-- Layouts in another order, or repeated, look ahead as far. -/
theorem lookahead_eq_of_mem_iff (hSame : ∀ layout, layout ∈ layouts ↔ layout ∈ layouts') :
    inversion.lookahead = inversion'.lookahead := by
  rw [lookahead_eq, lookahead_eq, (ofLayouts_eq_ok h).2.1, (ofLayouts_eq_ok h').2.1]
  refine List.map_congr_left fun stream _ => congrArg (Option.getD · 0) (Option.ext fun stage => ?_)
  have hStages : ∀ stage,
      stage ∈ (inversion.uses.toList.filter (·.stream == stream)).map ByteUse.stage ↔
        stage ∈ (inversion'.uses.toList.filter (·.stream == stream)).map ByteUse.stage := by
    intro stage
    simp only [List.mem_map, List.mem_filter, beq_iff_eq, SortedSet.mem_toList]
    constructor
    · rintro ⟨use, ⟨hUse, rfl⟩, rfl⟩
      obtain ⟨use', hUse', hStream, hStage⟩ :=
        exists_use_of_subset h h' (fun layout => (hSame layout).mp) hUse
      exact ⟨use', ⟨hUse', hStream⟩, hStage⟩
    · rintro ⟨use, ⟨hUse, rfl⟩, rfl⟩
      obtain ⟨use', hUse', hStream, hStage⟩ :=
        exists_use_of_subset h' h (fun layout => (hSame layout).mpr) hUse
      exact ⟨use', ⟨hUse', hStream⟩, hStage⟩
  rw [List.max?_eq_some_iff, List.max?_eq_some_iff]
  simp only [hStages]

end Pair

/-- Layouts can be inverted if more layouts can be. -/
theorem exists_ofLayouts_of_subset (hSubset : ∀ layout ∈ layouts, layout ∈ layouts')
    (h' : ofLayouts wordBytes layouts' streamCount = .ok inversion') :
    ∃ inversion, ofLayouts wordBytes layouts streamCount = .ok inversion := by
  refine exists_ofLayouts fun layout hLayout cells hCells => ?_
  obtain ⟨index, hIndex⟩ := List.mem_iff_getElem?.mp (hSubset layout hLayout)
  obtain ⟨word, hWord⟩ := List.mem_iff_getElem?.mp hCells
  exact (ofLayouts_eq_ok h').2.2.1 ⟨index, word⟩ cells ((wordAt?_of_layout hIndex).trans hWord)

/-- Inversion names no transitions when it fails. -/
theorem ofLayouts_ne_nonDeterministic {state : Nat} {first second : Transition} :
    ofLayouts wordBytes layouts streamCount ≠ .error (.nonDeterministic state first second) := by
  intro h
  obtain ⟨_, _, _, hMisfit, _⟩ := ofLayouts_eq_error_iff.mp h
  cases hMisfit

/-- Nor does the search for contexts. -/
theorem contexts_ne_nonDeterministic
    (h : ofLayouts wordBytes layouts streamCount = .ok inversion) {state : Nat}
    {first second : Transition} :
    inversion.contexts ≠ .error (.nonDeterministic state first second) := by
  obtain ⟨subStates, hStates⟩ := exists_subStates h
  intro hError
  obtain ⟨_, _, _, ⟨_, _, hReported⟩, _⟩ := (contexts_eq_error_iff h hStates).mp hError
  cases hReported

end Inversion

namespace Table

variable {wordBytes streamCount : Nat} {layouts layouts' : List Layout} {emptiable : List Bool}

/-- Build the machine of a list of layouts. -/
def ofLayouts (wordBytes streamCount : Nat) (layouts : List Layout) (emptiable : List Bool) :
    Except Violation Table := do
  let inversion ← Inversion.ofLayouts wordBytes layouts streamCount
  build wordBytes streamCount inversion emptiable

/-- The construction looks at nothing but the contexts and the stages of an inversion. -/
theorem build_congr {inversion inversion' : Inversion}
    (hWidth : inversion.wordBytes = inversion'.wordBytes)
    (hStreams : inversion.streamCount = inversion'.streamCount)
    (hLookahead : inversion.lookahead = inversion'.lookahead)
    (hContexts : inversion.contexts = inversion'.contexts) :
    build wordBytes streamCount inversion emptiable =
      build wordBytes streamCount inversion' emptiable := by
  simp only [build, hWidth, hStreams, hLookahead, hContexts]

/-- Without contexts nothing is built. -/
theorem build_eq_error_of_contexts {inversion : Inversion} {e : Violation}
    (hStreams : inversion.streamCount = streamCount) (hEmptiable : emptiable.length = streamCount)
    (hWidth : inversion.wordBytes = wordBytes) (hContexts : inversion.contexts = .error e) :
    build wordBytes streamCount inversion emptiable = .error e := by
  simp [build, hStreams, hEmptiable, hWidth, hContexts, bind, Except.bind]

/-- Two attempts that fail, neither of them because of an overlap. -/
def Refused (x y : Except Violation Table) : Prop :=
  ∃ e e', x = .error e ∧ y = .error e' ∧ ∀ state first second,
    e ≠ .nonDeterministic state first second ∧ e' ≠ .nonDeterministic state first second

/-- Inversions of the same layouts in another order, or repeated, lead to the same outcome,
unless no contexts are found in either case. -/
theorem build_eq_or_refused {inversion inversion' : Inversion}
    (h : Inversion.ofLayouts wordBytes layouts streamCount = .ok inversion)
    (h' : Inversion.ofLayouts wordBytes layouts' streamCount = .ok inversion')
    (hSame : ∀ layout, layout ∈ layouts ↔ layout ∈ layouts') :
    build wordBytes streamCount inversion emptiable =
        build wordBytes streamCount inversion' emptiable ∨
      Refused (build wordBytes streamCount inversion emptiable)
        (build wordBytes streamCount inversion' emptiable) := by
  obtain ⟨hWidth, hStreams, _⟩ := Inversion.ofLayouts_eq_ok h
  obtain ⟨hWidth', hStreams', _⟩ := Inversion.ofLayouts_eq_ok h'
  by_cases hEmptiable : emptiable.length = streamCount
  · cases hContexts : inversion.contexts with
    | ok contexts =>
        have hContexts' := Inversion.contexts_eq_ok_of_mem_iff h h' hSame hContexts
        exact .inl (build_congr (hWidth.trans hWidth'.symm) (hStreams.trans hStreams'.symm)
          (Inversion.lookahead_eq_of_mem_iff h h' hSame) (hContexts.trans hContexts'.symm))
    | error e =>
        cases hContexts' : inversion'.contexts with
        | ok contexts =>
            have hFound := Inversion.contexts_eq_ok_of_mem_iff h' h
              (fun layout => (hSame layout).symm) hContexts'
            cases hContexts.symm.trans hFound
        | error e' =>
            refine .inr ⟨e, e', build_eq_error_of_contexts hStreams hEmptiable hWidth hContexts,
              build_eq_error_of_contexts hStreams' hEmptiable hWidth' hContexts', ?_⟩
            intro state first second
            exact ⟨fun hError => Inversion.contexts_ne_nonDeterministic h (hError ▸ hContexts),
              fun hError => Inversion.contexts_ne_nonDeterministic h' (hError ▸ hContexts')⟩
  · left
    simp [build, hStreams, hStreams', hEmptiable, bind, Except.bind, throw, throwThe,
      MonadExceptOf.throw]

/-- The machines of layouts in another order, or repeated, are built with the same outcome,
unless the words of the layouts are refused in either case. -/
theorem ofLayouts_eq_or_refused (hSame : ∀ layout, layout ∈ layouts ↔ layout ∈ layouts') :
    ofLayouts wordBytes streamCount layouts emptiable =
        ofLayouts wordBytes streamCount layouts' emptiable ∨
      Refused (ofLayouts wordBytes streamCount layouts emptiable)
        (ofLayouts wordBytes streamCount layouts' emptiable) := by
  simp only [ofLayouts]
  cases h : Inversion.ofLayouts wordBytes layouts streamCount with
  | ok inversion =>
      obtain ⟨inversion', h'⟩ :=
        Inversion.exists_ofLayouts_of_subset (fun layout => (hSame layout).mpr) h
      rw [h']
      exact build_eq_or_refused h h' hSame
  | error e =>
      cases h' : Inversion.ofLayouts wordBytes layouts' streamCount with
      | ok inversion' =>
          obtain ⟨inversion, hInversion⟩ :=
            Inversion.exists_ofLayouts_of_subset (fun layout => (hSame layout).mp) h'
          cases h.symm.trans hInversion
      | error e' =>
          refine .inr ⟨e, e', rfl, rfl, fun state first second => ⟨fun hError => ?_,
            fun hError => ?_⟩⟩
          · exact Inversion.ofLayouts_ne_nonDeterministic (hError ▸ h)
          · exact Inversion.ofLayouts_ne_nonDeterministic (hError ▸ h')

/-- The machine depends on the set of layouts only. With layouts in another order, or repeated,
the construction fails if and only if it fails without, an overlap that it reports is the same,
and a machine that it builds is the same as well. -/
theorem ofLayouts_of_mem_iff (hSame : ∀ layout, layout ∈ layouts ↔ layout ∈ layouts') :
    ((∃ e, ofLayouts wordBytes streamCount layouts emptiable = .error e) ↔
      ∃ e, ofLayouts wordBytes streamCount layouts' emptiable = .error e) ∧
    (∀ table, ofLayouts wordBytes streamCount layouts emptiable = .ok table ↔
      ofLayouts wordBytes streamCount layouts' emptiable = .ok table) ∧
    ∀ state first second,
      ofLayouts wordBytes streamCount layouts emptiable =
          .error (.nonDeterministic state first second) ↔
        ofLayouts wordBytes streamCount layouts' emptiable =
          .error (.nonDeterministic state first second) := by
  rcases @ofLayouts_eq_or_refused wordBytes streamCount layouts layouts' emptiable hSame with
    hEq | ⟨e, e', hError, hError', hNot⟩
  · rw [hEq]
    exact ⟨Iff.rfl, fun _ => Iff.rfl, fun _ _ _ => Iff.rfl⟩
  · rw [hError, hError']
    refine ⟨⟨fun _ => ⟨e', rfl⟩, fun _ => ⟨e, rfl⟩⟩, fun table => by simp, ?_⟩
    intro state first second
    simp [(hNot state first second).1, (hNot state first second).2]

/-- Two or three bytes from the middle of a word on. -/
def twoOrThree : List Layout :=
  [Pipeline.tupleLayout 2 1 [⟨2, 0⟩], Pipeline.tupleLayout 2 1 [⟨3, 0⟩]]

theorem ofLayouts_of_mem_iff_twoOrThree :
    (∀ layout, layout ∈ twoOrThree ↔ layout ∈ twoOrThree.reverse ++ twoOrThree) ∧
      ∃ table, ofLayouts 2 1 twoOrThree [false] = .ok table ∧
        ofLayouts 2 1 (twoOrThree.reverse ++ twoOrThree) [false] = .ok table := by
  have hSame : ∀ layout, layout ∈ twoOrThree ↔ layout ∈ twoOrThree.reverse ++ twoOrThree := by
    simp
  have hTable : ofLayouts 2 1 twoOrThree [false] = .ok _ := rfl
  exact ⟨hSame, _, hTable, ((ofLayouts_of_mem_iff hSame).2.1 _).mp hTable⟩

end Table

end StreamSplice
