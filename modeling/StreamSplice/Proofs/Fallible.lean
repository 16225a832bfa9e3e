import Mathlib.Data.List.Forall2
import StreamSplice.SortedSet

/-! Computations that may fail, run over the items of a list. A success is a success on
every item, and a failure is the failure of the first item that fails. -/
namespace StreamSplice

variable {ε α β : Type}

theorem bind_eq_ok {x : Except ε α} {f : α → Except ε β} {b : β} :
    x >>= f = .ok b ↔ ∃ a, x = .ok a ∧ f a = .ok b := by
  constructor
  · intro h
    cases x with
    | error e => cases h
    | ok a => exact ⟨a, rfl, h⟩
  · rintro ⟨a, rfl, h⟩
    exact h

theorem bind_eq_error {x : Except ε α} {f : α → Except ε β} {e : ε} :
    x >>= f = .error e ↔ x = .error e ∨ ∃ a, x = .ok a ∧ f a = .error e := by
  cases x <;> simp [bind, Except.bind]

theorem exists_eq_ok_of_isOk {x : Except ε α} (h : x.isOk = true) : ∃ a, x = .ok a := by
  cases x with
  | error e => cases h
  | ok a => exact ⟨a, rfl⟩

theorem mapError_eq_ok {ε' : Type} {x : Except ε α} {f : ε → ε'} {a : α} :
    x.mapError f = .ok a ↔ x = .ok a := by
  cases x <;> simp [Except.mapError]

theorem mapError_eq_error {ε' : Type} {x : Except ε α} {f : ε → ε'} {e : ε'} :
    x.mapError f = .error e ↔ ∃ e', x = .error e' ∧ f e' = e := by
  cases x <;> simp [Except.mapError]

/-- Checks that fail in the same way are the same check. -/
theorem eq_of_eq_error_iff {x y : Except ε Unit}
    (h : ∀ e, x = .error e ↔ y = .error e) : x = y := by
  cases x with
  | error e => exact ((h e).mp rfl).symm
  | ok _ =>
      cases y with
      | error e => cases (h e).mpr rfl
      | ok _ => rfl

theorem eq_ok_iff_forall_ne_error {x : Except ε Unit} :
    x = .ok () ↔ ∀ e, x ≠ .error e := by
  cases x <;> simp

theorem exists_related_right {R : α → β → Prop} {as : List α} {bs : List β}
    (h : List.Forall₂ R as bs) {a : α} (hMem : a ∈ as) : ∃ b ∈ bs, R a b := by
  induction h with
  | nil => cases hMem
  | cons hHead _ ih =>
      rcases List.mem_cons.mp hMem with rfl | hMem
      · exact ⟨_, List.mem_cons_self, hHead⟩
      · obtain ⟨b, hb, hRel⟩ := ih hMem
        exact ⟨b, List.mem_cons_of_mem _ hb, hRel⟩

theorem forall₂_of_getElem? {R : α → β → Prop} {l : List α} {m : List β}
    (hLength : l.length = m.length)
    (h : ∀ (i : Nat) a b, l[i]? = some a → m[i]? = some b → R a b) : List.Forall₂ R l m := by
  refine List.forall₂_iff_get.mpr ⟨hLength, fun i hl hm => ?_⟩
  exact h i _ _ (List.getElem?_eq_getElem hl) (List.getElem?_eq_getElem hm)

theorem rel_of_forall₂ {R : α → β → Prop} {l : List α} {m : List β}
    (h : List.Forall₂ R l m) {i : Nat} {a : α} {b : β} (ha : l[i]? = some a)
    (hb : m[i]? = some b) : R a b := by
  obtain ⟨hl, rfl⟩ := List.getElem?_eq_some_iff.mp ha
  obtain ⟨hm, rfl⟩ := List.getElem?_eq_some_iff.mp hb
  exact (List.forall₂_iff_get.mp h).2 i hl hm

theorem exists_rel_of_forall₂ {R : α → β → Prop} {l : List α} {m : List β}
    (h : List.Forall₂ R l m) {i : Nat} {a : α} (ha : l[i]? = some a) :
    ∃ b, m[i]? = some b ∧ R a b := by
  obtain ⟨hl, _⟩ := List.getElem?_eq_some_iff.mp ha
  have hb := List.getElem?_eq_getElem (h.length_eq ▸ hl)
  exact ⟨_, hb, rel_of_forall₂ h ha hb⟩

/-- Lists that are related item by item are the same when their items are expanded alike. -/
theorem flatMap_eq_of_forall₂ {γ : Type} {R : α → β → Prop} {f : α → List γ} {g : β → List γ}
    {l : List α} {m : List β} (h : List.Forall₂ R l m) (hItems : ∀ a b, R a b → f a = g b) :
    l.flatMap f = m.flatMap g := by
  have hExpanded := @List.rel_flatMap _ _ _ _ R Eq l m h f g fun a b hRelated => by
    rw [List.forall₂_eq_eq_eq]
    exact hItems a b hRelated
  rwa [List.forall₂_eq_eq_eq] at hExpanded

/-- A pass over a list succeeds with one result for each item. -/
theorem mapM_eq_ok_iff {f : α → Except ε β} {items : List α} {results : List β} :
    items.mapM f = .ok results ↔ List.Forall₂ (fun a b => f a = .ok b) items results := by
  induction items generalizing results with
  | nil =>
      constructor
      · intro h
        cases h
        exact .nil
      · intro h
        cases h
        rfl
  | cons a items ih =>
      simp only [List.mapM_cons, bind_eq_ok, ih]
      constructor
      · rintro ⟨b, hHead, rest, hTail, h⟩
        cases h
        exact .cons hHead hTail
      · intro h
        cases h with
        | cons hHead hTail => exact ⟨_, hHead, _, hTail, rfl⟩

/-- Every item of a successful pass has a result, and there are no other results. -/
theorem mem_of_mapM_eq_ok {f : α → Except ε β} {items : List α} {results : List β}
    (h : items.mapM f = .ok results) :
    (∀ a ∈ items, ∃ b ∈ results, f a = .ok b) ∧ ∀ b ∈ results, ∃ a ∈ items, f a = .ok b := by
  have hPairs := mapM_eq_ok_iff.mp h
  exact ⟨fun _ => exists_related_right hPairs, fun _ => exists_related_right hPairs.flip⟩

/-- Successful passes have the same results if each item has. -/
theorem eq_of_mapM_eq_ok {f g : α → Except ε β} {items : List α} {results results' : List β}
    (hSame : ∀ a ∈ items, ∀ b b', f a = .ok b → g a = .ok b' → b = b')
    (h : items.mapM f = .ok results) (h' : items.mapM g = .ok results') : results = results' := by
  rw [mapM_eq_ok_iff] at h h'
  induction h generalizing results' with
  | nil =>
      cases h'
      rfl
  | cons hHead _ ih =>
      cases h' with
      | cons hHead' hTail' =>
          rw [List.forall_mem_cons] at hSame
          rw [hSame.1 _ _ hHead hHead', ih hSame.2 hTail']

/-- A pass in which every item succeeds is a success. -/
theorem exists_mapM_eq_ok {f : α → Except ε β} {items : List α}
    (h : ∀ a ∈ items, ∃ b, f a = .ok b) : ∃ results, items.mapM f = .ok results := by
  simp only [mapM_eq_ok_iff]
  induction items with
  | nil => exact ⟨[], .nil⟩
  | cons a items ih =>
      rw [List.forall_mem_cons] at h
      obtain ⟨⟨b, hHead⟩, hTail⟩ := h
      obtain ⟨results, hResults⟩ := ih hTail
      exact ⟨b :: results, .cons hHead hResults⟩

/-- A pass fails as its first failing item does. -/
theorem mapM_eq_error_iff {f : α → Except ε β} {items : List α} {e : ε} :
    items.mapM f = .error e ↔ ∃ before item after, items = before ++ item :: after ∧
      (∀ a ∈ before, ∃ b, f a = .ok b) ∧ f item = .error e := by
  induction items with
  | nil => simp [pure, Except.pure]
  | cons head items ih =>
      rw [List.mapM_cons, bind_eq_error]
      constructor
      · rintro (hHead | ⟨b, hHead, h⟩)
        · exact ⟨[], head, items, rfl, nofun, hHead⟩
        · rcases bind_eq_error.mp h with hTail | ⟨_, _, h⟩
          · obtain ⟨before, item, after, rfl, hBefore, hItem⟩ := ih.mp hTail
            exact ⟨head :: before, item, after, rfl, List.forall_mem_cons.mpr ⟨⟨b, hHead⟩, hBefore⟩,
              hItem⟩
          · cases h
      · rintro ⟨before, item, after, hItems, hBefore, hItem⟩
        cases before with
        | nil =>
            cases hItems
            exact .inl hItem
        | cons first before =>
            cases hItems
            obtain ⟨⟨b, hHead⟩, hBefore⟩ := List.forall_mem_cons.mp hBefore
            have hTail := ih.mpr ⟨before, item, after, rfl, hBefore, hItem⟩
            exact .inr ⟨b, hHead, bind_eq_error.mpr (.inl hTail)⟩

/-- A failed pass failed on one of its items. -/
theorem exists_of_mapM_eq_error {f : α → Except ε β} {items : List α} {e : ε}
    (h : items.mapM f = .error e) : ∃ a ∈ items, f a = .error e := by
  obtain ⟨before, item, after, rfl, _, hItem⟩ := mapM_eq_error_iff.mp h
  exact ⟨item, List.mem_append_right _ List.mem_cons_self, hItem⟩

/-- A pass over an ascending list fails as the least failing item does. -/
theorem mapM_eq_error_iff_of_pairwise {precedes : α → α → Prop}
    (hAsymm : ∀ a b, precedes a b → ¬precedes b a) {f : α → Except ε β} {items : List α}
    (hAscending : items.Pairwise precedes) {e : ε} :
    items.mapM f = .error e ↔ ∃ item ∈ items, f item = .error e ∧
      ∀ a ∈ items, precedes a item → ∃ b, f a = .ok b := by
  rw [mapM_eq_error_iff]
  constructor
  · rintro ⟨before, item, after, rfl, hBefore, hItem⟩
    refine ⟨item, List.mem_append_right _ List.mem_cons_self, hItem, fun a hMem hPrecedes => ?_⟩
    rcases List.mem_append.mp hMem with hMem | hMem
    · exact hBefore a hMem
    · rcases List.mem_cons.mp hMem with rfl | hMem
      · exact absurd hPrecedes (hAsymm a a hPrecedes)
      · have hLater := (List.pairwise_cons.mp (List.pairwise_append.mp hAscending).2.1).1 a hMem
        exact absurd hPrecedes (hAsymm item a hLater)
  · rintro ⟨item, hMem, hItem, hBefore⟩
    obtain ⟨before, after, rfl⟩ := List.append_of_mem hMem
    refine ⟨before, item, after, rfl, fun a hEarlier => ?_, hItem⟩
    exact hBefore a (List.mem_append_left _ hEarlier)
      ((List.pairwise_append.mp hAscending).2.2 a hEarlier item List.mem_cons_self)

/-- What every step keeps holds at the end of a successful pass. -/
theorem foldlM_invariant {σ : Type} {P : σ → Prop} {f : σ → α → Except ε σ}
    (hStep : ∀ s a s', P s → f s a = .ok s' → P s') {items : List α} {s s' : σ}
    (hStart : P s) (h : items.foldlM f s = .ok s') : P s' := by
  induction items generalizing s with
  | nil =>
      cases h
      exact hStart
  | cons a items ih =>
      rw [List.foldlM_cons, bind_eq_ok] at h
      obtain ⟨middle, hHead, hTail⟩ := h
      exact ih (hStep s a middle hStart hHead) hTail

namespace SortedSet

variable [Ord α] [Std.TransOrd α] [Std.LawfulEqOrd α] [DecidableEq α]

omit [Std.LawfulEqOrd α] [DecidableEq α] in
/-- A collected set is made from the results of a pass over the items. -/
theorem exists_mapM_of_collect {f : β → Except ε α} {items : List β} {set : SortedSet α}
    (h : collect f items = .ok set) :
    ∃ results, items.mapM f = .ok results ∧ ofList results = set := by
  rw [collect_eq] at h
  cases hResults : items.mapM f with
  | error e =>
      rw [hResults] at h
      cases h
  | ok results =>
      rw [hResults] at h
      cases h
      exact ⟨results, rfl, rfl⟩

/-- The collected set holds the results, and every item has one. -/
theorem collect_eq_ok {f : β → Except ε α} {items : List β} {set : SortedSet α}
    (h : collect f items = .ok set) :
    (∀ item ∈ items, ∃ a ∈ set, f item = .ok a) ∧ ∀ a ∈ set, ∃ item ∈ items, f item = .ok a := by
  obtain ⟨results, hResults, rfl⟩ := exists_mapM_of_collect h
  obtain ⟨hItems, hFrom⟩ := mem_of_mapM_eq_ok hResults
  constructor
  · intro item hItem
    obtain ⟨a, hMem, ha⟩ := hItems item hItem
    exact ⟨a, mem_ofList.mpr hMem, ha⟩
  · intro a hMem
    exact hFrom a (mem_ofList.mp hMem)

/-- The collected set holds the results of the items. -/
theorem mem_iff_of_collect {f : β → Except ε α} {items : List β} {set : SortedSet α}
    (h : collect f items = .ok set) {a : α} : a ∈ set ↔ ∃ item ∈ items, f item = .ok a := by
  obtain ⟨hItems, hFrom⟩ := collect_eq_ok h
  constructor
  · exact hFrom a
  · rintro ⟨item, hItem, ha⟩
    obtain ⟨a', hMem, ha'⟩ := hItems item hItem
    cases ha.symm.trans ha'
    exact hMem

omit [Std.LawfulEqOrd α] [DecidableEq α] in
/-- A collection to which every item contributes is a success. -/
theorem exists_collect_eq_ok {f : β → Except ε α} {items : List β}
    (h : ∀ item ∈ items, ∃ a, f item = .ok a) : ∃ set, collect f items = .ok set := by
  obtain ⟨results, hResults⟩ := exists_mapM_eq_ok h
  rw [collect_eq, hResults]
  exact ⟨_, rfl⟩

omit [Std.LawfulEqOrd α] [DecidableEq α] in
theorem collect_eq_error_iff {f : β → Except ε α} {items : List β} {e : ε} :
    collect f items = .error e ↔ items.mapM f = .error e := by
  rw [collect_eq]
  cases items.mapM f <;> simp [Except.map]

end SortedSet

end StreamSplice
