import Mathlib.Logic.Relation
import StreamSplice.Layout.Filling
import StreamSplice.Proofs.Tuple

/-! Joining layouts piecemeal. A join depends on the bytes of its parts and on nothing else, and
it has those bytes. So layouts may be joined in groups first, at whatever widths and offsets, and
layouts without bytes may be among them. -/
namespace StreamSplice.Layout

variable {wordBytes offset : Nat} {parts others : List Layout} {joined : Layout}

/-- The words of a join are filled with leading padding and the bytes of its parts. -/
theorem words_of_splice (h : splice wordBytes parts offset = .ok joined) :
    joined.words =
      fill wordBytes (List.replicate offset none ++ (parts.flatMap data).map some) := by
  obtain ⟨hOffset, rfl⟩ := splice_eq_ok.mp h
  exact words_ofCells_eq_fill (by omega) _

/-- A join has words of one width, whatever the widths of its parts. -/
theorem length_of_mem_words_of_splice (h : splice wordBytes parts offset = .ok joined)
    {word : List Cell} (hWord : word ∈ joined.words) : word.length = wordBytes := by
  obtain ⟨_, rfl⟩ := splice_eq_ok.mp h
  exact length_of_mem_cut hWord

/-- Joins at one offset are equal if and only if their parts have the same bytes. -/
theorem splice_eq_splice_iff (hOffset : offset < wordBytes) :
    splice wordBytes parts offset = splice wordBytes others offset ↔
      parts.flatMap data = others.flatMap data := by
  rw [splice_of_lt hOffset, splice_of_lt hOffset, Except.ok.injEq]
  constructor
  · intro hSame
    have hWidth : 0 < wordBytes := by omega
    rw [← data_ofData hWidth (parts.flatMap data), hSame, data_ofData hWidth]
  · intro hSame
    rw [hSame]

/-- A step of joining a list of layouts piecemeal. -/
inductive Regroup : List Layout → List Layout → Prop where
  /-- Successive layouts are replaced with a join of them. -/
  | join (before after : List Layout) {group : List Layout} {width offset : Nat} {joined : Layout}
      (h : splice width group offset = .ok joined) :
      Regroup (before ++ group ++ after) (before ++ joined :: after)
  /-- A layout without bytes is put in. -/
  | insert (before after : List Layout) {blank : Layout} (h : blank.data = []) :
      Regroup (before ++ after) (before ++ blank :: after)

/-- A step keeps the bytes of the layouts. -/
theorem Regroup.flatMap_data_eq (h : Regroup parts others) :
    parts.flatMap data = others.flatMap data := by
  cases h with
  | join before after h =>
      simp only [List.flatMap_append, List.flatMap_cons, data_splice h, List.append_assoc]
  | insert before after h =>
      simp only [List.flatMap_append, List.flatMap_cons, h, List.nil_append]

/-- So do any number of steps, forwards or backwards. -/
theorem flatMap_data_eq_of_eqvGen (h : Relation.EqvGen Regroup parts others) :
    parts.flatMap data = others.flatMap data := by
  induction h with
  | rel _ _ hStep => exact hStep.flatMap_data_eq
  | refl _ => rfl
  | symm _ _ _ ih => exact ih.symm
  | trans _ _ _ _ _ ihFirst ihSecond => exact ihFirst.trans ihSecond

/-- Joining is associative. Two joins that are joined are the join of all their parts, which has
the bytes of the parts in order, in words of one width that are filled up one after the other.
More generally, all ways to join the parts piecemeal have one result, with or without layouts that
have no bytes. -/
theorem splice_assoc {firstOffset secondOffset : Nat} (hFirst : firstOffset < wordBytes)
    (hSecond : secondOffset < wordBytes) (hOffset : offset < wordBytes)
    (parts others : List Layout) :
    ∃ first second joined,
      splice wordBytes parts firstOffset = .ok first ∧
      splice wordBytes others secondOffset = .ok second ∧
      splice wordBytes [first, second] offset = .ok joined ∧
      splice wordBytes (parts ++ others) offset = .ok joined ∧
      joined.data = parts.flatMap data ++ others.flatMap data ∧
      (∀ word ∈ joined.words, word.length = wordBytes) ∧
      joined.words = fill wordBytes
        (List.replicate offset none ++ ((parts ++ others).flatMap data).map some) ∧
      ∀ regrouped, Relation.EqvGen Regroup (parts ++ others) regrouped →
        splice wordBytes regrouped offset = .ok joined := by
  obtain ⟨first, hFront⟩ : ∃ first, splice wordBytes parts firstOffset = .ok first :=
    ⟨_, splice_of_lt hFirst parts⟩
  obtain ⟨second, hBack⟩ : ∃ second, splice wordBytes others secondOffset = .ok second :=
    ⟨_, splice_of_lt hSecond others⟩
  obtain ⟨joined, hJoined⟩ : ∃ joined, splice wordBytes (parts ++ others) offset = .ok joined :=
    ⟨_, splice_of_lt hOffset (parts ++ others)⟩
  have hRegrouped : ∀ regrouped, Relation.EqvGen Regroup (parts ++ others) regrouped →
      splice wordBytes regrouped offset = .ok joined := by
    intro regrouped hSteps
    rw [← hJoined, splice_eq_splice_iff hOffset]
    exact (flatMap_data_eq_of_eqvGen hSteps).symm
  -- The parts are replaced with their join, and then the others with theirs.
  have hSteps : Relation.EqvGen Regroup (parts ++ others) [first, second] := by
    have hStep : Regroup (first :: others) [first, second] := by
      simpa using Regroup.join [first] [] hBack
    exact .trans _ _ _ (.rel _ _ (.join [] others hFront)) (.rel _ _ hStep)
  refine ⟨first, second, joined, hFront, hBack, hRegrouped _ hSteps, hJoined, ?_, ?_,
    words_of_splice hJoined, hRegrouped⟩
  · rw [data_splice hJoined, List.flatMap_append]
  · exact fun _ hWord => length_of_mem_words_of_splice hJoined hWord

/-- Two bytes of a stream in words of three bytes, with padding around them. -/
def padded : Layout := ⟨[[none, some ⟨0, 0, 1, false⟩, none], [some ⟨0, 1, 0, true⟩, none, none]]⟩

/-- A byte of another stream in words of one byte. -/
def lateByte : Layout := ⟨[[none], [some ⟨1, 0, 0, true⟩]]⟩

theorem splice_assoc_padded :
    ∃ first second,
      splice 2 [padded, .empty] 1 = .ok first ∧ splice 2 [lateByte] 0 = .ok second ∧
      splice 2 [first, second] 1 = .ok
        ⟨[[none, some ⟨0, 0, 1, false⟩], [some ⟨0, 1, 0, true⟩, some ⟨1, 0, 0, true⟩]]⟩ ∧
      splice 2 [padded, lateByte] 1 = splice 2 [padded, .empty, lateByte] 1 := by
  obtain ⟨first, second, joined, hFirst, hSecond, hJoined, hAll, _, _, hWords, hRegrouped⟩ :=
    splice_assoc (by decide : 1 < 2) (by decide : 0 < 2) (by decide : 1 < 2)
      [padded, .empty] [lateByte]
  refine ⟨first, second, hFirst, hSecond, ?_, ?_⟩
  · rw [hJoined]
    cases joined
    exact congrArg (Except.ok ∘ Layout.mk) hWords
  · have hInsert : Regroup [padded, lateByte] [padded, .empty, lateByte] :=
      .insert [padded] [lateByte] rfl
    exact (hRegrouped _ (.symm _ _ (.rel _ _ hInsert))).trans hAll.symm

end StreamSplice.Layout
