import StreamSplice.Proofs.Grounding

/-! Runs of a machine never get stuck. Whatever the registers hold from cycle to cycle, the
states that are visited from state 0 on all have transitions, and each of these is selected for
some registers. A step that ends a joined frame leads back to state 0, and the other ones never
lead back to an earlier stream. -/
namespace StreamSplice

open Layout Pipeline

namespace Table

variable {table : Table} {state : Nat}

/-- A state of a table that can be left: it has transitions, and each of them is selected for
some registers of the machine. -/
structure Live (table : Table) (state : Nat) : Prop where
  lt_stateCount : state < table.stateCount
  populated : table.transitions state ≠ []
  selected : ∀ t ∈ table.transitions state, ∃ registers : List (List Register),
    registers.map (List.map fun register => register.keep.length) =
        table.registerCounts.map (List.replicate · table.wordBytes) ∧
      table.select state registers = some t

/-- Every transition of a table leads to a state that has transitions. -/
def Closed (table : Table) : Prop := ∀ t ∈ table.items, table.transitions t.nextState ≠ []

theorem walk_append (table : Table) (state : Nat) (history later : List (List (List Register))) :
    table.walk state (history ++ later) =
      ((table.walk state history).1 ++ (table.walk (table.walk state history).2 later).1,
        (table.walk (table.walk state history).2 later).2) := by
  induction history generalizing state with
  | nil => rfl
  | cons registers rest ih => simp only [List.cons_append, walk, ih]

/-- What every step keeps still holds after a run. -/
theorem walk_of_step {P : Nat → Prop}
    (hStep : ∀ state registers, P state → P (table.step state registers).2) (hStart : P state)
    (history : List (List (List Register))) : P (table.walk state history).2 := by
  induction history generalizing state with
  | nil => exact hStart
  | cons registers rest ih => exact ih (hStep state registers hStart)

theorem mem_items_of_select {registers : List (List Register)} {t : Transition}
    (h : table.select state registers = some t) : t ∈ table.items :=
  mem_items.mpr ⟨state, List.mem_of_find?_eq_some h⟩

/-- A step leads to a state that has transitions, or stays in one. -/
theorem Closed.populated_step (hClosed : table.Closed) (registers : List (List Register))
    (h : table.transitions state ≠ []) :
    table.transitions (table.step state registers).2 ≠ [] := by
  rw [step]
  cases hSelect : table.select state registers with
  | none => exact h
  | some t => exact hClosed t (mem_items_of_select hSelect)

/-- In a table without overlap, the states that have transitions can be left. -/
theorem live_of_populated (hUniform : table.Uniform)
    (hNone : ∀ state first second, ¬table.Overlap state first second)
    (h : table.transitions state ≠ []) : table.Live state where
  lt_stateCount := by
    by_contra hBound
    apply h
    rw [transitions, List.getElem?_eq_none (Nat.not_lt.mp hBound)]
  populated := h
  selected := by
    intro t ht
    obtain ⟨registers, hEnabled⟩ := t.exists_isEnabled
    exact ⟨registers, shape_of_isEnabled hUniform ht hEnabled,
      (select_eq_some_iff hNone).mpr ⟨ht, hEnabled⟩⟩

end Table

namespace Pipeline

section Machine

variable {setting : Setting} {contexts : SortedSet Context} {offset word : Nat}
  {context : Context} {frames : List Frame} {first : Origin} {t : Transition}

/-- After the last word of a tuple the machine is back in state 0; the next word of any other
one starts with a byte of the same stream or of a later one. -/
theorem Occurs.nextState (h : Occurs setting contexts offset context frames word first) :
    (context.last = true ∧ context.nextState = 0) ∨
      (context.last = false ∧ context.state ≤ context.nextState) := by
  rw [← h.context_eq]
  simp only [tupleContext, dataContext]
  cases hNext : (tupleOrigins setting.wordBytes 0 frames)[wordStart setting.wordBytes offset
      (word + 1)]? with
  | none => exact .inl ⟨rfl, rfl⟩
  | some following =>
      have hLater : wordStart setting.wordBytes offset word ≤
          wordStart setting.wordBytes offset (word + 1) := by
        simp only [wordStart, Nat.succ_mul]
        omega
      exact .inr ⟨rfl, (le_of_ordered (ordered_tupleOrigins setting.wordBytes 0 frames) h.begins
        hNext hLater).1⟩

/-- The last word of a joined frame leads back to state 0, and no other one to an earlier
state. The copies in state 0 of the transitions of later states are no exception. -/
theorem nextState_of_mem_transitions (hGrounded : Grounded setting contexts offset) {state : Nat}
    (ht : t ∈ (Table.ofContexts setting contexts).transitions state) :
    (t.last = true ∧ t.nextState = 0) ∨ (t.last = false ∧ state ≤ t.nextState) := by
  have hOwn : ∀ own ∈ contexts.toList.map setting.transition,
      (own.last = true ∧ own.nextState = 0) ∨
        (own.last = false ∧ own.state ≤ own.nextState) := by
    intro own hMem
    obtain ⟨context, hContext, rfl⟩ := List.mem_map.mp hMem
    obtain ⟨frames, word, first, hOccurs⟩ := hGrounded context hContext
    rw [Setting.last_transition, Setting.nextState_transition, Setting.state_transition]
    exact hOccurs.nextState
  rcases Setting.of_mem_stateTransitions (Table.mem_transitions_ofContexts.mp ht).2 with
    ⟨hMem, rfl⟩ | ⟨rfl, own, hMem, rfl⟩ | ⟨_, _, rfl⟩
  · exact hOwn t hMem
  · rw [Setting.last_fromStart, Setting.nextState_fromStart]
    exact (hOwn own hMem).imp_right fun ⟨hLast, _⟩ => ⟨hLast, Nat.zero_le _⟩
  · have hEffect := setting.effect_allEmpty
    simp only [Transition.effect, Prod.mk.injEq] at hEffect
    exact .inl ⟨hEffect.2.2.2.2, hEffect.2.1⟩

theorem Grounded.uniform (hGrounded : Grounded setting contexts offset) :
    (Table.ofContexts setting contexts).Uniform := by
  refine Table.uniform_ofContexts fun context hContext => ?_
  obtain ⟨frames, word, first, hOccurs⟩ := hGrounded context hContext
  rw [← hOccurs.context_eq]
  exact length_sources_dataContext _ _ _ _

theorem Grounded.closed (hSound : Sound setting contexts)
    (hGrounded : Grounded setting contexts offset) :
    (Table.ofContexts setting contexts).Closed := by
  intro t ht
  obtain ⟨next, hNext⟩ := exists_mem_transitions_nextState hSound hGrounded ht
  exact List.ne_nil_of_mem hNext

end Machine

end Pipeline

/-- A stream that passes its check may send its shortest frame, from any of its start offsets,
if the length of that frame is a size. -/
theorem Stream.exists_sends {stream : Stream} {wordBytes : Nat} {u : Unit}
    (hCheck : stream.check wordBytes = .ok u) (hSize : stream.lengths.shortest ≤ maxSize) :
    ∃ frame, stream.Sends frame := by
  obtain ⟨_, _, hStarts, _, hRange⟩ := check_eq_ok_iff.mp hCheck
  cases hOffsets : stream.startOffsets.toList with
  | nil =>
      rw [SortedSet.isEmpty, hOffsets] at hStarts
      cases hStarts
  | cons offset _ =>
      exact ⟨⟨stream.elementBytes * stream.lengths.shortest, offset⟩,
        SortedSet.mem_toList.mp (hOffsets ▸ List.mem_cons_self), stream.lengths.shortest,
        ⟨Nat.le_refl _, hRange⟩, hSize, rfl⟩

namespace Join

variable {join : Join} {table : Table}

/-- The streams of a description that passes its check may send a tuple of frames. -/
theorem exists_sends (hCheck : join.check = .ok ())
    (hSizes : ∀ stream ∈ join.streams, stream.lengths.shortest ≤ maxSize) :
    ∃ frames, List.Forall₂ Stream.Sends join.streams frames := by
  obtain ⟨_, _, hEach⟩ := check_eq_ok_iff.mp hCheck
  have hFrames : ∀ stream ∈ join.streams, ∃ frame, stream.Sends frame := fun stream hMem =>
    Stream.exists_sends (hEach stream hMem) (hSizes stream hMem)
  generalize join.streams = streams at hFrames
  induction streams with
  | nil => exact ⟨[], .nil⟩
  | cons stream rest ih =>
      obtain ⟨⟨frame, hFrame⟩, hRest⟩ := List.forall_mem_cons.mp hFrames
      obtain ⟨frames, hFrames⟩ := ih hRest
      exact ⟨frame :: frames, .cons hFrame hFrames⟩

/-- A synthesized machine never gets stuck. It has one state for each stream, and whatever the
registers hold in the cycles of a run from state 0, the state that the run ends in can be left:
it has transitions, and each of them is selected for some registers. In the next cycle,
registers that select nothing leave the state as it is. A selected transition with the last
word of a joined frame leads to state 0, and any other one does not lead to an earlier state.
The shortest length of every stream is a size: a stream without such a length has no layouts,
and the machine no transitions. -/
theorem walk_of_synthesize (h : join.synthesize = .ok table)
    (hSizes : ∀ stream ∈ join.streams, stream.lengths.shortest ≤ maxSize) :
    table.stateCount = join.streams.length ∧
    ∀ history : List (List (List Register)), table.Live (table.walk 0 history).2 ∧
      ∀ registers,
        match table.select (table.walk 0 history).2 registers with
        | none => (table.walk 0 (history ++ [registers])).2 = (table.walk 0 history).2
        | some t =>
            (table.walk 0 (history ++ [registers])).2 = t.nextState ∧
              ((t.last = true ∧ t.nextState = 0) ∨
                (t.last = false ∧ (table.walk 0 history).2 ≤ t.nextState)) := by
  obtain ⟨layouts, inversion, contexts, hPasses, rfl, hSound⟩ := exists_passes_of_synthesize h
  have hGrounded := hPasses.grounded
  obtain ⟨frames, hSends⟩ := exists_sends hPasses.checked hSizes
  obtain ⟨start, hStart⟩ := exists_mem_transitions_zero hSound (hPasses.handles hSends).1
  refine ⟨by simp [Table.stateCount, Table.ofContexts, setting], fun history => ⟨?_, ?_⟩⟩
  · have hPopulated := Table.walk_of_step (P := fun state =>
        (Table.ofContexts (join.setting inversion) contexts).transitions state ≠ [])
      (fun state registers => (hGrounded.closed hSound).populated_step registers)
      (List.ne_nil_of_mem hStart) history
    exact Table.live_of_populated hGrounded.uniform hSound.deterministic hPopulated
  · intro registers
    rw [Table.walk_append]
    generalize (Table.walk _ 0 history).2 = state
    simp only [Table.walk, Table.step]
    cases hSelect : Table.select _ state registers with
    | none => rfl
    | some t =>
        exact ⟨rfl, nextState_of_mem_transitions hGrounded (List.mem_of_find?_eq_some hSelect)⟩

/-- A stream that only sends empty frames, in front of any number of pairs of bytes. The first
state has no transitions of its own. -/
def silentThenPairs : Join :=
  ⟨2, 0, [⟨8, .ofList [0], ⟨0, some 0⟩⟩, ⟨16, .ofList [0], ⟨1, none⟩⟩], 16⟩

theorem walk_of_synthesize_silentThenPairs :
    ∃ table, silentThenPairs.synthesize = .ok table ∧
      (∀ stream ∈ silentThenPairs.streams, stream.lengths.shortest ≤ maxSize) ∧
      table.stateCount = 2 ∧ ∀ history, table.Live (table.walk 0 history).2 := by
  obtain ⟨table, hTable⟩ : ∃ table, silentThenPairs.synthesize = .ok table :=
    exists_eq_ok_of_isOk (by decide +kernel)
  have hSizes : ∀ stream ∈ silentThenPairs.streams, stream.lengths.shortest ≤ maxSize := by
    decide
  obtain ⟨hStates, hRuns⟩ := walk_of_synthesize hTable hSizes
  exact ⟨table, hTable, hSizes, hStates, fun history => (hRuns history).1⟩

end Join

end StreamSplice
