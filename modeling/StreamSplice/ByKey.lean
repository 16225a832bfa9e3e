import Std.Data.TreeMap.Lemmas

/-! Tables of values that are combined by key, such as the least value under each key. -/
namespace StreamSplice

open Std

/-- Values by key. Values under the same key are combined in their order. -/
def combineByKey (combine : Nat → Nat → Nat) (entries : List (Nat × Nat)) : TreeMap Nat Nat :=
  entries.foldl (fun found (key, value) =>
    found.alter key fun
      | some earlier => some (combine earlier value)
      | none => some value) ∅

/-- The values under a key, in their order. -/
def valuesOf (key : Nat) (entries : List (Nat × Nat)) : List Nat :=
  (entries.filter (·.1 == key)).map Prod.snd

theorem getElem?_combineByKey (combine : Nat → Nat → Nat) (entries : List (Nat × Nat))
    (key : Nat) :
    (combineByKey combine entries)[key]? =
      match valuesOf key entries with
      | [] => none
      | value :: rest => some (rest.foldl combine value) := by
  suffices h : ∀ found : TreeMap Nat Nat,
      (entries.foldl (fun found (key, value) =>
        found.alter key fun
          | some earlier => some (combine earlier value)
          | none => some value) found)[key]? =
        match found[key]?.toList ++ valuesOf key entries with
        | [] => none
        | value :: rest => some (rest.foldl combine value) by
    simpa [combineByKey] using h ∅
  induction entries with
  | nil =>
      intro found
      cases h : found[key]? <;> simp [valuesOf, h]
  | cons entry entries ih =>
      intro found
      obtain ⟨other, value⟩ := entry
      rw [List.foldl_cons, ih]
      simp only [TreeMap.getElem?_alter, Nat.compare_eq_eq]
      by_cases hKey : other = key
      · subst hKey
        cases h : found[other]? <;> simp [valuesOf]
      · simp [valuesOf, hKey]

/-- The least value under each key. -/
theorem getElem?_combineByKey_min (entries : List (Nat × Nat)) (key : Nat) :
    (combineByKey min entries)[key]? = (valuesOf key entries).min? := by
  rw [getElem?_combineByKey]
  cases valuesOf key entries <;> rfl

/-- The greatest value under each key. -/
theorem getElem?_combineByKey_max (entries : List (Nat × Nat)) (key : Nat) :
    (combineByKey max entries)[key]? = (valuesOf key entries).max? := by
  rw [getElem?_combineByKey]
  cases valuesOf key entries <;> rfl

end StreamSplice
