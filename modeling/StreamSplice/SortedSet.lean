import Std.Data.TreeSet.Lemmas

/-! Finite sets held as ascending lists. The representation is canonical: two sets
with the same members are equal, so a set obtained from a list forgets the order
and the repetitions of that list and nothing else. -/
namespace StreamSplice

open Std

/-- A finite set, held as the list of its members in strictly ascending order. -/
structure SortedSet (α : Type) [Ord α] where
  toList : List α
  ascending : toList.Pairwise fun a b => compare a b = .lt

namespace SortedSet

variable {α : Type} [Ord α]

instance [DecidableEq α] : DecidableEq (SortedSet α) := fun s t =>
  decidable_of_iff (s.toList = t.toList) (by cases s; cases t; simp)

instance : Membership α (SortedSet α) := ⟨fun s a => a ∈ s.toList⟩

instance : EmptyCollection (SortedSet α) := ⟨⟨[], .nil⟩⟩

instance : Inhabited (SortedSet α) := ⟨∅⟩

/-- The members of a search tree. -/
def ofTree [TransOrd α] (tree : TreeSet α compare) : SortedSet α :=
  ⟨tree.toList, TreeSet.ordered_toList⟩

/-- The members of a list, each once and in ascending order. A balanced search
tree sorts them, so long lists of candidates cost little more than a sort. -/
def ofList [TransOrd α] (xs : List α) : SortedSet α := ofTree (TreeSet.ofList xs compare)

/-- The distinct results of a computation on each item of a list, unless it fails on one
of them. No more is kept than the results found so far. -/
def collect {ε β : Type} [TransOrd α] (f : β → Except ε α) (items : List β) :
    Except ε (SortedSet α) :=
  (items.foldlM (fun found item => (f item).map found.insert) ∅).map ofTree

/-- Number of members. -/
def size (s : SortedSet α) : Nat := s.toList.length

def isEmpty (s : SortedSet α) : Bool := s.toList.isEmpty

theorem mem_toList {s : SortedSet α} {a : α} : a ∈ s.toList ↔ a ∈ s := Iff.rfl

theorem mem_ofTree [TransOrd α] [LawfulEqOrd α] {tree : TreeSet α compare} {a : α} :
    a ∈ ofTree tree ↔ a ∈ tree :=
  TreeSet.mem_toList

theorem mem_ofList [TransOrd α] [LawfulEqOrd α] [DecidableEq α] {xs : List α} {a : α} :
    a ∈ ofList xs ↔ a ∈ xs := by
  rw [ofList, mem_ofTree, TreeSet.mem_ofList, List.contains_iff_mem]

/-- No member is listed twice. -/
theorem nodup_toList [ReflOrd α] (s : SortedSet α) : s.toList.Nodup :=
  s.ascending.imp fun hOrder hEq => by
    rw [hEq, ReflOrd.compare_self] at hOrder
    cases hOrder

/-- Ascending lists with the same members are equal. -/
theorem eq_of_ascending [TransOrd α] {xs ys : List α}
    (hxs : xs.Pairwise fun a b => compare a b = .lt)
    (hys : ys.Pairwise fun a b => compare a b = .lt)
    (hMem : ∀ a, a ∈ xs ↔ a ∈ ys) : xs = ys := by
  have irrefl : ∀ a : α, compare a a ≠ .lt := fun a h => by
    rw [ReflOrd.compare_self] at h
    cases h
  induction xs generalizing ys with
  | nil =>
      cases ys with
      | nil => rfl
      | cons b bs => simpa using hMem b
  | cons a as ih =>
      cases ys with
      | nil => simpa using hMem a
      | cons b bs =>
          rw [List.pairwise_cons] at hxs hys
          have hab : a = b := by
            rcases List.mem_cons.mp ((hMem a).mp List.mem_cons_self) with h | ha
            · exact h
            · rcases List.mem_cons.mp ((hMem b).mpr List.mem_cons_self) with h | hb
              · exact h.symm
              · exact absurd (TransCmp.lt_trans (hxs.1 b hb) (hys.1 a ha)) (irrefl a)
          subst hab
          refine congrArg _ (ih hxs.2 hys.2 fun c => ⟨fun hc => ?_, fun hc => ?_⟩)
          · rcases List.mem_cons.mp ((hMem c).mp (List.mem_cons_of_mem _ hc)) with h | h
            · exact absurd (hxs.1 c hc) (h ▸ irrefl c)
            · exact h
          · rcases List.mem_cons.mp ((hMem c).mpr (List.mem_cons_of_mem _ hc)) with h | h
            · exact absurd (hys.1 c hc) (h ▸ irrefl c)
            · exact h

/-- Sets are determined by their members. -/
theorem ext_mem [TransOrd α] {s t : SortedSet α} (h : ∀ a, a ∈ s ↔ a ∈ t) : s = t := by
  cases s
  cases t
  simp only [mk.injEq]
  exact eq_of_ascending (by assumption) (by assumption) h

/-- Repetitions and order do not matter, and nothing else is dropped. -/
theorem ofList_eq_iff [TransOrd α] [LawfulEqOrd α] [DecidableEq α] {xs ys : List α} :
    ofList xs = ofList ys ↔ ∀ a, a ∈ xs ↔ a ∈ ys := by
  constructor
  · intro h a
    exact mem_ofList.symm.trans (h ▸ mem_ofList)
  · intro h
    exact ext_mem fun a => by rw [mem_ofList, mem_ofList, h]

/-- Repetitions are dropped on the way as they would be in the end. -/
theorem collect_eq {ε β : Type} [TransOrd α] (f : β → Except ε α) (items : List β) :
    collect f items = (items.mapM f).map ofList := by
  suffices h : ∀ found : TreeSet α compare,
      (items.foldlM (fun found item => (f item).map found.insert) found).map ofTree =
        (items.mapM f).map fun results => ofTree (found.insertMany results) from h ∅
  induction items with
  | nil =>
      intro found
      exact congrArg (Except.ok ∘ ofTree) TreeSet.insertMany_nil.symm
  | cons item items ih =>
      intro found
      rw [List.foldlM_cons, List.mapM_cons]
      cases f item with
      | error e => rfl
      | ok a =>
          refine (ih (found.insert a)).trans ?_
          cases items.mapM f with
          | error e => rfl
          | ok results => exact congrArg (Except.ok ∘ ofTree) TreeSet.insertMany_cons.symm

end SortedSet

end StreamSplice
