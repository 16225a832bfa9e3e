import Mathlib.Algebra.BigOperators.Group.List.Basic
import Mathlib.Algebra.Order.BigOperators.Group.List
import StreamSplice.Layout.Enumeration
import StreamSplice.Proofs.Tuple

/-! The limit on combinations of layouts. The numbers of layouts are multiplied out from the left,
and a product that exceeds the largest size on the way is beyond every limit, even if it ends up
at zero. All other products are compared with the limit as they are. -/
namespace StreamSplice

open Layout

/-- Whether a product exceeds the largest size on the way, multiplied out from the left. -/
def Overshoots (sizes : List Nat) : Prop := ∃ count, maxSize < (sizes.take count).prod

theorem saturate_saturate_mul (a b : Nat) : saturate (saturate a * b) = saturate (a * b) := by
  simp only [saturate]
  rcases Nat.le_total a maxSize with hSmall | hLarge
  · rw [Nat.min_eq_left hSmall]
  · rw [Nat.min_eq_right hLarge]
    rcases Nat.eq_zero_or_pos b with rfl | hPositive
    · rfl
    · have hProduct := Nat.le_mul_of_pos_right maxSize hPositive
      have hWhole := hProduct.trans (Nat.mul_le_mul_right b hLarge)
      rw [Nat.min_eq_right hProduct, Nat.min_eq_right hWhole]

section Products

variable {sizes : List Nat}

/-- Saturating on the way or only in the end makes no difference. -/
theorem reportedCombinations_eq (sizes : List Nat) :
    reportedCombinations sizes = saturate sizes.prod := by
  suffices h : ∀ product, sizes.foldl (fun product size => saturate (product * size))
      (saturate product) = saturate (product * sizes.prod) by
    simpa [reportedCombinations, saturate, maxSize] using h 1
  induction sizes with
  | nil => simp
  | cons size sizes ih =>
      intro product
      rw [List.foldl_cons, saturate_saturate_mul, ih, List.prod_cons, Nat.mul_assoc]

/-- The combinations are counted unless a product exceeds the largest size on the way. -/
theorem combinations?_eq_some_iff {combinations : Nat} :
    combinations? sizes = some combinations ↔
      ¬Overshoots sizes ∧ combinations = sizes.prod := by
  suffices h : ∀ product ≤ maxSize,
      sizes.foldlM (fun product size =>
        if product * size ≤ maxSize then some (product * size) else none) product =
          some combinations ↔
        (∀ count, product * (sizes.take count).prod ≤ maxSize) ∧
          combinations = product * sizes.prod by
    simpa [combinations?, Overshoots, maxSize] using h 1 (by simp [maxSize])
  induction sizes with
  | nil =>
      intro product hProduct
      simp [hProduct, eq_comm]
  | cons size sizes ih =>
      intro product hProduct
      rw [List.foldlM_cons]
      by_cases hNext : product * size ≤ maxSize
      · rw [if_pos hNext, Option.bind_eq_bind, Option.bind_some, ih _ hNext]
        rw [List.prod_cons, Nat.mul_assoc]
        refine and_congr_left fun _ => ⟨fun h count => ?_, fun h count => ?_⟩
        · cases count with
          | zero => simpa using hProduct
          | succ count => simpa [Nat.mul_assoc] using h count
        · simpa [Nat.mul_assoc] using h (count + 1)
      · rw [if_neg hNext]
        refine iff_of_false (by simp) fun h => hNext ?_
        simpa using h.1 1

/-- What is reported about too many combinations, and when. -/
theorem requireCombinations_eq_error_iff {limit : Nat} {e : LayoutError} :
    requireCombinations sizes limit = .error e ↔
      e = .tooManyCombinations (min sizes.prod maxSize) limit ∧
        (limit < sizes.prod ∨ Overshoots sizes) := by
  rw [requireCombinations, reportedCombinations_eq, saturate]
  by_cases hOvershoots : Overshoots sizes
  · have hNone : combinations? sizes = none :=
      Option.eq_none_iff_forall_ne_some.mpr fun _ h =>
        (combinations?_eq_some_iff.mp h).1 hOvershoots
    simp [hNone, hOvershoots, eq_comm]
  · rw [combinations?_eq_some_iff.mpr ⟨hOvershoots, rfl⟩]
    by_cases hLimit : sizes.prod ≤ limit
    · simp [hLimit, hOvershoots, Nat.not_lt.mpr hLimit]
    · simp [hLimit, Nat.not_le.mp hLimit, eq_comm]

/-- A product that exceeds the largest size on the way exceeds it in the end, or it is zero. -/
theorem Overshoots.prod (h : Overshoots sizes) : maxSize < sizes.prod ∨ sizes.prod = 0 := by
  obtain ⟨count, hCount⟩ := h
  rcases Nat.eq_zero_or_pos sizes.prod with hZero | hPositive
  · exact .inr hZero
  · left
    rw [← List.prod_take_mul_prod_drop sizes count] at hPositive ⊢
    exact hCount.trans_le (Nat.le_mul_of_pos_right _ (Nat.pos_of_mul_pos_left hPositive))

/-- The reason for which the numbers of layouts are turned down depends on their product, and on
their order only if the product is zero. -/
theorem requireCombinations_eq_error_iff_of_perm {limit : Nat} (hLimit : limit ≤ maxSize)
    {other : List Nat} (hPerm : other.Perm sizes) {e : LayoutError} :
    requireCombinations other limit = .error e ↔
      e = .tooManyCombinations (min sizes.prod maxSize) limit ∧
        (limit < sizes.prod ∨ sizes.prod = 0 ∧ Overshoots other) := by
  rw [requireCombinations_eq_error_iff, hPerm.prod_eq]
  refine and_congr_right fun _ => ⟨fun h => ?_, fun h => h.imp_right And.right⟩
  rcases h with hAbove | hOvershoots
  · exact .inl hAbove
  · rcases hOvershoots.prod with hLarge | hZero
    · exact .inl (hPerm.prod_eq ▸ hLimit.trans_lt hLarge)
    · exact .inr ⟨hPerm.prod_eq ▸ hZero, hOvershoots⟩

end Products

/-- Number of combinations of one layout of each set. -/
def combinationCount (sets : List (SortedSet Layout)) : Nat := (sets.map SortedSet.size).prod

section Limit

variable {wordBytes outputOffset limit : Nat} {streams : List Stream}
  {sets : List (SortedSet Layout)}

/-- Once the layouts of all streams are enumerated, joining them fails only because of their
number. -/
theorem joinedLayouts_eq_error_iff
    (hSets : layoutsPerStream wordBytes 0 (.ofList [outputOffset]) streams = .ok sets)
    (hOffset : outputOffset < wordBytes) {e : LayoutError} :
    joinedLayouts wordBytes streams outputOffset limit = .error e ↔
      requireCombinations (sets.map SortedSet.size) limit = .error e := by
  obtain ⟨set, hSet⟩ : ∃ set, SortedSet.collect (fun parts => splice wordBytes parts outputOffset)
      (choices (sets.map SortedSet.toList)) = .ok set :=
    SortedSet.exists_collect_eq_ok fun parts _ => ⟨_, splice_of_lt hOffset parts⟩
  simp [joinedLayouts, hSets, hSet, bind_eq_error]

/-- The limit on combinations is exact, but for products that exceed the largest size on the way
to zero. Joining fails if and only if there are more combinations than the limit, or if there are
none and the product overshoots. What is reported is the number of combinations, or the largest
size if that is less; of too many combinations it is at most the limit only if no size is above the
limit. A product other than zero is judged the same in any order of its factors. Zero is accepted
in exactly those orders that do not overshoot. -/
theorem joinedLayouts_eq_tooMany_iff
    (hSets : layoutsPerStream wordBytes 0 (.ofList [outputOffset]) streams = .ok sets)
    (hOffset : outputOffset < wordBytes) (hLimit : limit ≤ maxSize) :
    (∀ e, joinedLayouts wordBytes streams outputOffset limit = .error e ↔
      e = .tooManyCombinations (min (combinationCount sets) maxSize) limit ∧
        (limit < combinationCount sets ∨
          combinationCount sets = 0 ∧ Overshoots (sets.map SortedSet.size))) ∧
    (limit < combinationCount sets → min (combinationCount sets) maxSize ≤ limit →
      maxSize < combinationCount sets ∧ limit = maxSize) ∧
    ∀ sizes, sizes.Perm (sets.map SortedSet.size) →
      (combinationCount sets ≠ 0 →
        requireCombinations sizes limit = requireCombinations (sets.map SortedSet.size) limit) ∧
      (combinationCount sets = 0 →
        (requireCombinations sizes limit = .ok () ↔ ¬Overshoots sizes)) := by
  refine ⟨fun e => ?_, fun hAbove hWithin => ?_,
    fun sizes hPerm => ⟨fun hSome => ?_, fun hNone => ?_⟩⟩
  · rw [joinedLayouts_eq_error_iff hSets hOffset]
    exact requireCombinations_eq_error_iff_of_perm hLimit (.refl _)
  · omega
  · apply eq_of_eq_error_iff
    intro e
    rw [requireCombinations_eq_error_iff_of_perm hLimit hPerm,
      requireCombinations_eq_error_iff_of_perm hLimit (.refl _)]
    simp only [combinationCount] at hSome
    simp only [hSome, false_and, or_false]
  · simp only [combinationCount] at hNone
    rw [eq_ok_iff_forall_ne_error]
    simp only [ne_eq, requireCombinations_eq_error_iff_of_perm hLimit hPerm, hNone]
    simp

/-- A byte that may be missing, and one or two more behind it. -/
def oneByteThenTwo : List Stream :=
  [⟨8, .ofList [0], ⟨0, some 1⟩⟩, ⟨8, .ofList [0], ⟨1, some 2⟩⟩]

theorem joinedLayouts_eq_tooMany_iff_oneByteThenTwo :
    ∃ sets, layoutsPerStream 2 0 (.ofList [0]) oneByteThenTwo = .ok sets ∧
      combinationCount sets = 8 ∧
      joinedLayouts 2 oneByteThenTwo 0 7 = .error (.tooManyCombinations 8 7) ∧
      requireCombinations (sets.map SortedSet.size).reverse 7 =
        requireCombinations (sets.map SortedSet.size) 7 := by
  obtain ⟨sets, hSets, hCount⟩ : ∃ sets,
      layoutsPerStream 2 0 (.ofList [0]) oneByteThenTwo = .ok sets ∧ combinationCount sets = 8 :=
    ⟨_, rfl, rfl⟩
  have hLimit : 7 ≤ maxSize := by simp [maxSize]
  obtain ⟨hError, _, hOrder⟩ := joinedLayouts_eq_tooMany_iff hSets (by decide) hLimit
  refine ⟨sets, hSets, hCount, (hError _).mpr ⟨?_, .inl ?_⟩, ?_⟩
  · rw [hCount]
    rfl
  · rw [hCount]
    decide
  · exact (hOrder _ (List.reverse_perm _)).1 (by rw [hCount]; decide)

/-- A stream of frames of at most one byte. -/
def optionalByte : Stream := ⟨8, .ofList [0], ⟨0, some 1⟩⟩

/-- A stream that has nowhere to start. -/
def unstarted : Stream := ⟨8, .ofList [], ⟨0, some 1⟩⟩

/-- The layout of a single byte in a word of its own. -/
def byteLayout (index : Nat) : Layout := ⟨[[some ⟨index, 0, 0, true⟩]]⟩

theorem place_byte (index : Nat) : place 1 index 1 0 0 = .ok (byteLayout index) := by
  simp [place, requireInWord, ofCells, wordsSpanned, cut, originAt, maxSize, List.rightpad, pure,
    Except.pure, bind, Except.bind, byteLayout]

theorem layouts_optionalByte (index : Nat) :
    optionalByte.layouts 1 index 0 = .ok [.empty, byteLayout index] := by
  rw [Stream.layouts, bind_eq_ok]
  refine ⟨[[.empty, byteLayout index]], mapM_eq_ok_iff.mpr (.cons ?_ .nil), rfl⟩
  refine bind_eq_ok.mpr ⟨.ofList [0, 1], rfl, ?_⟩
  exact mapM_eq_ok_iff.mpr (.cons rfl (.cons (place_byte index) .nil))

/-- What follows a byte in a word of its own starts a new word. -/
theorem endOffset?_byteLayout (index : Nat) : (byteLayout index).endOffset? 1 = some 0 := by
  simp [endOffset?, byteLayout]

/-- Behind any number of optional bytes there are no layouts of a stream that never starts. -/
theorem exists_layoutsPerStream_optionalBytes (count index : Nat) :
    ∃ sets, layoutsPerStream 1 index (.ofList [0])
        (List.replicate count optionalByte ++ [unstarted]) = .ok sets ∧
      sets.map SortedSet.size = List.replicate count 2 ++ [0] := by
  induction count generalizing index with
  | zero => exact ⟨_, rfl, rfl⟩
  | succ count ih =>
      obtain ⟨sets, hSets, hSizes⟩ := ih (index + 1)
      refine ⟨.ofList [.empty, byteLayout index] :: sets, ?_, ?_⟩
      · rw [List.replicate_succ, List.cons_append, layoutsPerStream, bind_eq_ok]
        refine ⟨[[(.empty, 0), (byteLayout index, 0)]], mapM_eq_ok_iff.mpr (.cons ?_ .nil), ?_⟩
        · refine bind_eq_ok.mpr ⟨_, layouts_optionalByte index, ?_⟩
          rw [List.map_cons, List.map_singleton, endOffset?_byteLayout]
          rfl
        · exact bind_eq_ok.mpr ⟨sets, hSets, rfl⟩
      · rw [List.map_cons, hSizes]
        rfl

/-- Sixty-four optional bytes before a stream that never starts cannot be combined in any way, and
that is reported as more ways than the limit. Counted from the other end they are accepted. -/
theorem joinedLayouts_overshoots_optionalBytes :
    ∃ sets, layoutsPerStream 1 0 (.ofList [0])
        (List.replicate 64 optionalByte ++ [unstarted]) = .ok sets ∧
      combinationCount sets = 0 ∧
      joinedLayouts 1 (List.replicate 64 optionalByte ++ [unstarted]) 0 65536 =
        .error (.tooManyCombinations 0 65536) ∧
      requireCombinations (sets.map SortedSet.size).reverse 65536 = .ok () := by
  obtain ⟨sets, hSets, hSizes⟩ := exists_layoutsPerStream_optionalBytes 64 0
  have hNone : (List.replicate 64 2 ++ [0]).prod = 0 := by simp
  refine ⟨sets, hSets, by rw [combinationCount, hSizes, hNone], ?_, ?_⟩
  · rw [joinedLayouts_eq_error_iff hSets (by decide), hSizes, requireCombinations_eq_error_iff,
      hNone]
    refine ⟨rfl, .inr ⟨64, ?_⟩⟩
    simp [maxSize]
  · rw [hSizes, List.reverse_append, eq_ok_iff_forall_ne_error]
    intro e h
    obtain ⟨_, hAbove | ⟨count, hCount⟩⟩ := requireCombinations_eq_error_iff.mp h
    · simp at hAbove
    · cases count <;> simp [maxSize] at hCount

end Limit

end StreamSplice
