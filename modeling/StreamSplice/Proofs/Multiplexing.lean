import StreamSplice.Proofs.Determinism

/-! Selector codes of the output multiplexers. The code of a source is its rank among the sources
of its output byte, and the sources are listed in ascending order, so a code is decoded by looking
it up in the list. The code past the last source is left for a byte that is not driven. -/
namespace StreamSplice

open Std

namespace SortedSet

variable {α : Type} [Ord α] [TransOrd α] [LawfulEqOrd α]

/-- The position of a member is the number of members below it. -/
theorem getElem?_eq_some_iff_countP {xs : List α}
    (hAscending : xs.Pairwise fun a b => compare a b = .lt) {i : Nat} {a : α} :
    xs[i]? = some a ↔ a ∈ xs ∧ xs.countP (fun b => compare b a == .lt) = i := by
  induction xs generalizing i with
  | nil => simp
  | cons head rest ih =>
      obtain ⟨hHead, hRest⟩ := List.pairwise_cons.mp hAscending
      -- Nothing is below the head, and the head is below everything else.
      have hNone : rest.countP (fun b => compare b head == .lt) = 0 := by
        rw [List.countP_eq_zero]
        intro b hb
        rw [OrientedCmp.gt_of_lt (hHead b hb)]
        decide
      cases i with
      | zero =>
          rw [List.getElem?_cons_zero, Option.some.injEq, List.mem_cons]
          constructor
          · rintro rfl
            simp [hNone, ReflOrd.compare_self]
          · rintro ⟨rfl | hMem, hCount⟩
            · rfl
            · simp [hHead a hMem] at hCount
      | succ i =>
          rw [List.getElem?_cons_succ, ih hRest, List.mem_cons]
          constructor
          · rintro ⟨hMem, hCount⟩
            exact ⟨.inr hMem, by simp [hHead a hMem, hCount]⟩
          · rintro ⟨rfl | hMem, hCount⟩
            · simp [hNone, ReflOrd.compare_self] at hCount
            · exact ⟨hMem, by simpa [hHead a hMem] using hCount⟩

end SortedSet

namespace Table

variable {table : Table} {outputByte : Nat}

/-- The sources of an output byte are the selections that some transition makes for it. -/
theorem mem_byteSources {s : Selection} :
    s ∈ table.byteSources outputByte ↔
      ∃ t ∈ table.items, t.outputMux[outputByte]? = some (some s) := by
  simp only [byteSources, SortedSet.mem_ofList, List.mem_filterMap, Option.join_eq_some_iff]

theorem getElem?_muxSources (h : outputByte < table.wordBytes) :
    table.muxSources[outputByte]? = some (table.byteSources outputByte) := by
  rw [muxSources, List.getElem?_map, List.getElem?_range h, Option.map_some]

/-- The code of a source is its position in the list of sources, and no other selection of a byte
has a code. -/
theorem muxIndex?_some_eq_some_iff (h : outputByte < table.wordBytes) {s : Selection} {code : Nat} :
    table.muxIndex? outputByte (some s) = some code ↔
      (table.byteSources outputByte).toList[code]? = some s := by
  rw [SortedSet.getElem?_eq_some_iff_countP (table.byteSources outputByte).ascending, muxIndex?,
    if_pos h, Option.ite_none_right_eq_some, Option.some.injEq]

theorem muxIndex?_none (h : outputByte < table.wordBytes) :
    table.muxIndex? outputByte none = some (table.byteSources outputByte).toList.length := by
  rw [muxIndex?, if_pos h]

theorem muxIndex?_eq_none (h : table.wordBytes ≤ outputByte) (selection : Option Selection) :
    table.muxIndex? outputByte selection = none := by
  rw [muxIndex?, if_neg (Nat.not_lt.mpr h)]

/-- The codes of an output byte are the positions in its list of sources and the one past them. -/
theorem muxIndex?_le (h : outputByte < table.wordBytes) {selection : Option Selection} {code : Nat}
    (hCode : table.muxIndex? outputByte selection = some code) :
    code ≤ (table.byteSources outputByte).toList.length ∧
      (table.byteSources outputByte).toList[code]? = selection := by
  cases selection with
  | none =>
      rw [muxIndex?_none h, Option.some.injEq] at hCode
      subst hCode
      exact ⟨Nat.le_refl _, List.getElem?_eq_none (Nat.le_refl _)⟩
  | some s =>
      have hAt := (muxIndex?_some_eq_some_iff h).mp hCode
      exact ⟨(List.getElem?_eq_some_iff.mp hAt).1.le, hAt⟩

/-- Every code up to the one past the sources belongs to a selection. -/
theorem exists_muxIndex?_eq_some (h : outputByte < table.wordBytes) {code : Nat}
    (hCode : code ≤ (table.byteSources outputByte).toList.length) :
    ∃ selection, table.muxIndex? outputByte selection = some code := by
  cases hAt : (table.byteSources outputByte).toList[code]? with
  | none =>
      have hPast := List.getElem?_eq_none_iff.mp hAt
      exact ⟨none, by rw [muxIndex?_none h, Nat.le_antisymm hPast hCode]⟩
  | some s => exact ⟨some s, (muxIndex?_some_eq_some_iff h).mpr hAt⟩

/-- Whatever a transition selects for an output byte has a code. -/
theorem exists_muxIndex?_of_mem_items (h : outputByte < table.wordBytes) {t : Transition}
    (ht : t ∈ table.items) {selection : Option Selection}
    (hMux : t.outputMux[outputByte]? = some selection) :
    ∃ code, table.muxIndex? outputByte selection = some code := by
  cases selection with
  | none => exact ⟨_, muxIndex?_none h⟩
  | some s =>
      obtain ⟨code, hAt⟩ := List.mem_iff_getElem?.mp (mem_byteSources.mpr ⟨t, ht, hMux⟩)
      exact ⟨code, (muxIndex?_some_eq_some_iff h).mpr hAt⟩

/-- The multiplexer of an output byte: its sources, and a code for each of them and for the byte
that is not driven. -/
structure Multiplexes (table : Table) (outputByte : Nat) (sources : List Selection) : Prop where
  listed : (table.muxSources[outputByte]?.map SortedSet.toList) = some sources
  ascending : sources.Pairwise fun a b => compare a b = .lt
  mem_iff : ∀ s, s ∈ sources ↔ ∃ t ∈ table.items, t.outputMux[outputByte]? = some (some s)
  code_iff : ∀ s code, table.muxIndex? outputByte (some s) = some code ↔ sources[code]? = some s
  code_of_notMem : ∀ s, s ∉ sources → table.muxIndex? outputByte (some s) = none
  code_none : table.muxIndex? outputByte none = some sources.length
  injective : ∀ a b code, table.muxIndex? outputByte a = some code →
    table.muxIndex? outputByte b = some code → a = b
  codes : ∀ code, (∃ selection, table.muxIndex? outputByte selection = some code) ↔
    code ≤ sources.length
  total : ∀ t ∈ table.items, ∃ selection code, t.outputMux[outputByte]? = some selection ∧
    table.muxIndex? outputByte selection = some code

theorem multiplexes (hUniform : table.Uniform) (h : outputByte < table.wordBytes) :
    table.Multiplexes outputByte (table.byteSources outputByte).toList where
  listed := by rw [getElem?_muxSources h, Option.map_some]
  ascending := (table.byteSources outputByte).ascending
  mem_iff _ := mem_byteSources
  code_iff _ _ := muxIndex?_some_eq_some_iff h
  code_of_notMem s hNot := by
    rw [Option.eq_none_iff_forall_ne_some]
    intro code hCode
    exact hNot (List.mem_of_getElem? ((muxIndex?_some_eq_some_iff h).mp hCode))
  code_none := muxIndex?_none h
  injective a b code ha hb := (muxIndex?_le h ha).2.symm.trans (muxIndex?_le h hb).2
  codes code := ⟨fun ⟨_, hCode⟩ => (muxIndex?_le h hCode).1, exists_muxIndex?_eq_some h⟩
  total t ht := by
    obtain ⟨state, hState⟩ := mem_items.mp ht
    have hMux := List.getElem?_eq_getElem ((hUniform state t hState).outputMux ▸ h)
    obtain ⟨code, hCode⟩ := exists_muxIndex?_of_mem_items h ht hMux
    exact ⟨_, code, hMux, hCode⟩

/-- The codes of a multiplexer are a bijection. In a machine that is built, an output byte inside
the word lists the sources that its transitions select, in ascending order. The code of a source is
its position in this list, a byte that is not driven has the code past the last one, and no other
selection has a code. So different selections have different codes, each code up to the last one is
the code of some selection, and what a transition selects has a code at every output byte. An
output byte outside the word has no codes. -/
theorem muxIndex?_of_build {wordBytes streamCount : Nat} {inversion : Inversion}
    {emptiable : List Bool} (h : build wordBytes streamCount inversion emptiable = .ok table)
    (outputByte : Nat) :
    (outputByte < wordBytes → ∃ sources, table.Multiplexes outputByte sources) ∧
      (wordBytes ≤ outputByte → ∀ selection, table.muxIndex? outputByte selection = none) := by
  obtain ⟨_, _, _, _, _, rfl, hUniform, _⟩ := build_eq_ok h
  exact ⟨fun hInside => ⟨_, multiplexes hUniform hInside⟩, fun hOutside => muxIndex?_eq_none hOutside⟩

/-- An optional byte of one stream before a byte of another one, in words of three bytes. -/
def optionalThenByte : Inversion where
  wordBytes := 3
  streamCount := 2
  uses := .ofList [⟨0, 0, ⟨0, 0⟩, 0, 0, true⟩, ⟨1, 0, ⟨0, 0⟩, 0, 1, true⟩, ⟨1, 0, ⟨1, 0⟩, 0, 0, true⟩]

/-- The first output byte has two sources, and the last one has none. -/
theorem muxIndex?_of_build_optionalThenByte : ∃ table,
    build 3 2 optionalThenByte [true, false] = .ok table ∧
      table.Multiplexes 0 [⟨0, 0, 0⟩, ⟨1, 0, 0⟩] ∧ table.Multiplexes 2 [] ∧
      ∀ selection, table.muxIndex? 3 selection = none := by
  obtain ⟨table, hTable⟩ := exists_eq_ok_of_isOk
    (show (build 3 2 optionalThenByte [true, false]).isOk = true by decide +kernel)
  have hSources : (build 3 2 optionalThenByte [true, false]).toOption.map
      (·.muxSources.map SortedSet.toList) =
        some [[⟨0, 0, 0⟩, ⟨1, 0, 0⟩], [⟨1, 0, 0⟩], []] := by
    decide +kernel
  rw [hTable] at hSources
  have hListed : table.muxSources.map SortedSet.toList = _ := Option.some.inj hSources
  have hCoded : ∀ outputByte < 3, ∀ sources,
      (table.muxSources.map SortedSet.toList)[outputByte]? = some sources →
        table.Multiplexes outputByte sources := by
    intro outputByte hInside sources hAt
    obtain ⟨found, hFound⟩ := (muxIndex?_of_build hTable outputByte).1 hInside
    rw [List.getElem?_map, hFound.listed] at hAt
    exact Option.some.inj hAt ▸ hFound
  refine ⟨table, hTable, hCoded 0 (by decide) _ ?_, hCoded 2 (by decide) _ ?_,
    (muxIndex?_of_build hTable 3).2 (by decide)⟩ <;> rw [hListed] <;> rfl

end Table

end StreamSplice
