import Mathlib.Data.List.Dedup
import StreamSplice.Layout.Basic
import StreamSplice.Proofs.Coverage
import StreamSplice.Proofs.Determinism

/-! The orders in which sets are kept. Each is the order of its fields, the first field in which
two values differ deciding, and tells all values apart that differ at all. So a set that is kept in
order holds every value that was put into it, and drops the repetitions only. -/
namespace StreamSplice

open Std

section Lexicographic

variable {α β : Type}

/-- The values of a field decide, and values that share it are left to what comes after. -/
def Decides (field : α → β) (before : β → β → Prop) (next : α → α → Prop) (a b : α) : Prop :=
  before (field a) (field b) ∨ field a = field b ∧ next a b

/-- A criterion that tells apart the values of a field lets the field decide. -/
theorem compareLex_eq_lt_iff {field : α → β} {before : β → β → Prop}
    {first second : α → α → Ordering} {next : α → α → Prop}
    (hEqual : ∀ a b, first a b = .eq ↔ field a = field b)
    (hBefore : ∀ a b, first a b = .lt ↔ before (field a) (field b))
    (hNext : ∀ a b, second a b = .lt ↔ next a b) (a b : α) :
    compareLex first second a b = .lt ↔ Decides field before next a b := by
  rw [compareLex, Ordering.then_eq_lt, hEqual, hBefore, hNext, Decides]

theorem compareLex_compareOn_eq_lt_iff [Ord β] [LawfulEqOrd β] {field : α → β}
    {before : β → β → Prop} {second : α → α → Ordering} {next : α → α → Prop}
    (hBefore : ∀ x y, compare x y = .lt ↔ before x y) (hNext : ∀ a b, second a b = .lt ↔ next a b)
    (a b : α) : compareLex (compareOn field) second a b = .lt ↔ Decides field before next a b :=
  compareLex_eq_lt_iff (fun _ _ => compareOn_eq_iff) (fun a b => hBefore (field a) (field b)) hNext
    a b

/-- Lists are compared by keys at the first place where the keys differ, and a list comes before
those that continue it. -/
theorem compare_map_eq_lt_iff [Ord β] [LawfulEqOrd β] {key : α → β} {before : α → α → Prop}
    (hKey : ∀ a b, key a = key b → a = b)
    (hBefore : ∀ a b, compare (key a) (key b) = .lt ↔ before a b) (as bs : List α) :
    compare (as.map key) (bs.map key) = .lt ↔ List.Lex before as bs := by
  induction as generalizing bs with
  | nil =>
      cases bs with
      | nil => simp
      | cons b bs => simp
  | cons a as ih =>
      cases bs with
      | nil => simp
      | cons b bs =>
          have hHead : compare (key a) (key b) = .eq ↔ a = b :=
            LawfulEqOrd.compare_eq_iff_eq.trans ⟨hKey a b, congrArg key⟩
          rw [List.map_cons, List.map_cons, List.compare_cons_cons, Ordering.then_eq_lt,
            List.cons_lex_cons_iff, hBefore, hHead, ih]

theorem compare_list_eq_lt_iff [Ord α] [LawfulEqOrd α] {before : α → α → Prop}
    (hBefore : ∀ a b, compare a b = .lt ↔ before a b) (as bs : List α) :
    compare as bs = .lt ↔ List.Lex before as bs := by
  have h := @compare_map_eq_lt_iff _ _ _ _ id before (fun _ _ h => h) hBefore as bs
  rwa [List.map_id, List.map_id] at h

/-- What is absent comes before what is there. -/
theorem compare_option_eq_lt_iff [Ord α] {before : α → α → Prop}
    (hBefore : ∀ a b, compare a b = .lt ↔ before a b) (a b : Option α) :
    compare a b = .lt ↔ Option.lt before a b := by
  cases a with
  | none => cases b <;> simp [Option.lt, compare]
  | some a =>
      cases b with
      | none => simp [Option.lt, compare]
      | some b => exact hBefore a b

theorem compare_nat_eq_lt_iff (a b : Nat) : compare a b = .lt ↔ a < b := Nat.compare_eq_lt

theorem compare_bool_eq_lt_iff (a b : Bool) : compare a b = .lt ↔ a < b := by
  decide +revert

end Lexicographic

/-- A forbidden bit comes before a required one, and both come before an open one. -/
inductive BitGuard.Less : BitGuard → BitGuard → Prop
  | zero_one : Less zero one
  | zero_any : Less zero any
  | one_any : Less one any

theorem BitGuard.compare_eq_lt_iff (a b : BitGuard) : compare a b = .lt ↔ a.Less b := by
  constructor
  · intro h
    cases a <;> cases b <;> first | constructor | cases h
  · rintro (_ | _ | _) <;> rfl

/-- By the keep bits, then by relict, then by last. -/
def RegisterGuard.Less : RegisterGuard → RegisterGuard → Prop :=
  Decides keep (List.Lex BitGuard.Less) <| Decides relict BitGuard.Less fun a b =>
    a.last.Less b.last

theorem RegisterGuard.compare_eq_lt_iff (a b : RegisterGuard) :
    compare a b = .lt ↔ a.Less b :=
  compareLex_compareOn_eq_lt_iff (compare_list_eq_lt_iff BitGuard.compare_eq_lt_iff)
    (compareLex_compareOn_eq_lt_iff BitGuard.compare_eq_lt_iff fun a b =>
      BitGuard.compare_eq_lt_iff a.last b.last) a b

/-- By stream, then by input word, then by byte, those of a last word after the others. -/
def Origin.Less : Origin → Origin → Prop :=
  Decides stream (· < ·) <| Decides word (· < ·) <| Decides byte (· < ·) fun a b =>
    a.inLastWord < b.inLastWord

theorem Origin.compare_eq_lt_iff (a b : Origin) : compare a b = .lt ↔ a.Less b :=
  compareLex_compareOn_eq_lt_iff compare_nat_eq_lt_iff (compareLex_compareOn_eq_lt_iff
    compare_nat_eq_lt_iff (compareLex_compareOn_eq_lt_iff compare_nat_eq_lt_iff fun a b =>
      compare_bool_eq_lt_iff a.inLastWord b.inLastWord)) a b

/-- By words, then by cells, padding before every byte. -/
def Layout.Less (a b : Layout) : Prop :=
  List.Lex (List.Lex (Option.lt Origin.Less)) a.words b.words

theorem Layout.compare_eq_lt_iff (a b : Layout) : compare a b = .lt ↔ a.Less b :=
  compare_list_eq_lt_iff (compare_list_eq_lt_iff
    (compare_option_eq_lt_iff Origin.compare_eq_lt_iff)) a.words b.words

/-- By stream, then by stage, then by byte. -/
def Selection.Less : Selection → Selection → Prop :=
  Decides stream (· < ·) <| Decides stage (· < ·) fun a b => a.byte < b.byte

/-- An output byte that selects nothing comes after every one that selects something. -/
def Selection.LessNoneLast : Option Selection → Option Selection → Prop
  | some a, some b => a.Less b
  | some _, none => True
  | none, _ => False

theorem Selection.compare_muxKey_eq_lt_iff (a b : Option Selection) :
    compare (Transition.muxKey a) (Transition.muxKey b) = .lt ↔ LessNoneLast a b := by
  cases a with
  | none =>
      cases b with
      | none => exact iff_of_false (by decide) not_false
      | some b => exact iff_of_false nofun not_false
  | some a =>
      cases b with
      | none => exact iff_of_true rfl trivial
      | some b =>
          simp [Transition.muxKey, LessNoneLast, Less, Decides, List.compare_cons_cons,
            Ordering.then_eq_lt, Nat.compare_eq_lt]

/-- By the fields in their order. -/
def Transition.Less : Transition → Transition → Prop :=
  Decides state (· < ·) <| Decides nextState (· < ·) <|
    Decides guards (List.Lex (List.Lex RegisterGuard.Less)) <|
    Decides keepMasks (List.Lex (List.Lex (List.Lex (· < ·)))) <|
    Decides reads (List.Lex (· < ·)) <| Decides outputKeep (List.Lex (· < ·)) <|
    Decides outputMux (List.Lex Selection.LessNoneLast) fun a b => a.last < b.last

theorem Transition.compare_eq_lt_iff (t other : Transition) :
    compare t other = .lt ↔ t.Less other := by
  have hBits := compare_list_eq_lt_iff compare_bool_eq_lt_iff
  have hGuards := compare_list_eq_lt_iff (compare_list_eq_lt_iff RegisterGuard.compare_eq_lt_iff)
  have hMux : ∀ t other : Transition,
      compareOn (fun t => t.outputMux.map muxKey) t other = .eq ↔ t.outputMux = other.outputMux := by
    intro t other
    rw [compareOn_eq_iff, List.map_inj_right fun _ _ => muxKey_injective]
  apply compareLex_compareOn_eq_lt_iff compare_nat_eq_lt_iff
  apply compareLex_compareOn_eq_lt_iff compare_nat_eq_lt_iff
  apply compareLex_compareOn_eq_lt_iff hGuards
  apply compareLex_compareOn_eq_lt_iff (compare_list_eq_lt_iff (compare_list_eq_lt_iff hBits))
  apply compareLex_compareOn_eq_lt_iff hBits
  apply compareLex_compareOn_eq_lt_iff hBits
  apply compareLex_eq_lt_iff hMux
  · intro t other
    exact compare_map_eq_lt_iff (fun _ _ => muxKey_injective) Selection.compare_muxKey_eq_lt_iff
      t.outputMux other.outputMux
  · intro t other
    exact compare_bool_eq_lt_iff t.last other.last

/-- Transitions are equal if they compare equal in every field. -/
theorem Transition.compare_eq_eq_iff (t other : Transition) :
    compare t other = .eq ↔ t.state = other.state ∧ t.nextState = other.nextState ∧
      t.guards = other.guards ∧ t.keepMasks = other.keepMasks ∧ t.reads = other.reads ∧
      t.outputKeep = other.outputKeep ∧ t.outputMux = other.outputMux ∧ t.last = other.last := by
  rw [LawfulEqOrd.compare_eq_iff_eq]
  cases t
  cases other
  simp

/-- A comparison that totally orders its values, by the given order, and finds no different values
equal. -/
structure TotallyOrders {α : Type} [Ord α] (less : α → α → Prop) : Prop where
  less_iff : ∀ a b : α, compare a b = .lt ↔ less a b
  equal_iff : ∀ a b : α, compare a b = .eq ↔ a = b
  reversed : ∀ a b : α, compare b a = (compare a b).swap
  transitive : ∀ a b c : α, (compare a b).isLE → (compare b c).isLE → (compare a c).isLE

theorem TotallyOrders.of_less_iff {α : Type} [Ord α] [TransOrd α] [LawfulEqOrd α]
    {less : α → α → Prop} (h : ∀ a b : α, compare a b = .lt ↔ less a b) : TotallyOrders less where
  less_iff := h
  equal_iff _ _ := LawfulEqOrd.compare_eq_iff_eq
  reversed _ _ := OrientedCmp.eq_swap
  transitive _ _ _ := TransCmp.isLE_trans

/-- A set made from a list holds the members of the list, each once. -/
theorem SortedSet.perm_dedup {α : Type} [Ord α] [TransOrd α] [LawfulEqOrd α] [DecidableEq α]
    (xs : List α) : (ofList xs).toList.Perm xs.dedup := by
  rw [List.perm_ext_iff_of_nodup (ofList xs).nodup_toList xs.nodup_dedup]
  intro a
  rw [mem_toList, mem_ofList, List.mem_dedup]

/-- The joined layouts are the splices of all combinations, each once. -/
theorem exists_perm_dedup_of_joinedLayouts {wordBytes outputOffset limit : Nat}
    {streams : List Stream} {set : SortedSet Layout}
    (h : joinedLayouts wordBytes streams outputOffset limit = .ok set) :
    ∃ sets joined, layoutsPerStream wordBytes 0 (.ofList [outputOffset]) streams = .ok sets ∧
      (choices (sets.map SortedSet.toList)).mapM (Layout.splice wordBytes · outputOffset) =
        .ok joined ∧
      set.toList.Perm joined.dedup := by
  obtain ⟨sets, hSets, hCollect⟩ := exists_collect_of_joinedLayouts h
  obtain ⟨joined, hJoined, rfl⟩ := SortedSet.exists_mapM_of_collect hCollect
  exact ⟨sets, joined, hSets, hJoined, SortedSet.perm_dedup joined⟩

/-- The transitions of a state are those that it collects from the contexts of all sub-states,
each once. -/
theorem Table.exists_perm_dedup_of_build {wordBytes streamCount : Nat} {inversion : Inversion}
    {emptiable : List Bool} {table : Table}
    (h : build wordBytes streamCount inversion emptiable = .ok table) :
    ∃ subStates contexts, inversion.subStates = .ok subStates ∧
      (subStates.toList.mapM fun (label, s) => s.context wordBytes
        (Inversion.previous? subStates label) subStates[label.next]?) = .ok contexts ∧
      let setting : Setting := ⟨wordBytes, streamCount, inversion.lookahead, emptiable⟩
      ∀ state < streamCount, (table.transitions state).Perm
        (setting.stateTransitions (contexts.map setting.transition) state).dedup := by
  obtain ⟨_, _, rfl, _, hContexts, rfl, _, _⟩ := build_eq_ok h
  obtain ⟨subStates, hSubStates, hCollect⟩ := bind_eq_ok.mp hContexts
  obtain ⟨contexts, hAll, rfl⟩ := SortedSet.exists_mapM_of_collect hCollect
  refine ⟨subStates, contexts, hSubStates, hAll, ?_⟩
  intro setting state hState
  have hNodup := (ascending_transitions (ofContexts setting (.ofList contexts)) state).imp ne_of_lt
  rw [List.perm_ext_iff_of_nodup hNodup (List.nodup_dedup _)]
  intro t
  rw [mem_transitions_ofContexts, List.mem_dedup, and_iff_right hState]
  apply Setting.mem_stateTransitions_congr
  intro own
  simp only [List.mem_map, SortedSet.mem_toList, SortedSet.mem_ofList]

/-- Guards, transitions and layouts of any shapes are totally ordered, field by field, and only equal
ones compare equal: transitions if all eight fields are equal. So a set of layouts or of transitions
drops exactly the repetitions. The joined layouts are the splices of all combinations, each once,
and a state of a machine has the transitions that it collects from all sub-states, each once. -/
theorem compare_totallyOrders :
    TotallyOrders RegisterGuard.Less ∧ TotallyOrders Transition.Less ∧ TotallyOrders Layout.Less ∧
    (∀ t other : Transition, compare t other = .eq ↔
      t.state = other.state ∧ t.nextState = other.nextState ∧ t.guards = other.guards ∧
        t.keepMasks = other.keepMasks ∧ t.reads = other.reads ∧ t.outputKeep = other.outputKeep ∧
        t.outputMux = other.outputMux ∧ t.last = other.last) ∧
    (∀ layouts : List Layout, (SortedSet.ofList layouts).toList.Perm layouts.dedup) ∧
    (∀ transitions : List Transition,
      (SortedSet.ofList transitions).toList.Perm transitions.dedup) ∧
    (∀ wordBytes streams outputOffset limit set,
      joinedLayouts wordBytes streams outputOffset limit = .ok set →
      ∃ sets joined, layoutsPerStream wordBytes 0 (.ofList [outputOffset]) streams = .ok sets ∧
        (choices (sets.map SortedSet.toList)).mapM (Layout.splice wordBytes · outputOffset) =
          .ok joined ∧
        set.toList.Perm joined.dedup) ∧
    ∀ wordBytes streamCount inversion emptiable table,
      Table.build wordBytes streamCount inversion emptiable = .ok table →
      ∃ subStates contexts, inversion.subStates = .ok subStates ∧
        (subStates.toList.mapM fun (label, s) => s.context wordBytes
          (Inversion.previous? subStates label) subStates[label.next]?) = .ok contexts ∧
        let setting : Setting := ⟨wordBytes, streamCount, inversion.lookahead, emptiable⟩
        ∀ state < streamCount, (table.transitions state).Perm
          (setting.stateTransitions (contexts.map setting.transition) state).dedup :=
  ⟨.of_less_iff RegisterGuard.compare_eq_lt_iff, .of_less_iff Transition.compare_eq_lt_iff,
    .of_less_iff Layout.compare_eq_lt_iff, Transition.compare_eq_eq_iff, SortedSet.perm_dedup,
    SortedSet.perm_dedup, fun _ _ _ _ _ => exists_perm_dedup_of_joinedLayouts,
    fun _ _ _ _ _ => Table.exists_perm_dedup_of_build⟩

/-- An optional byte, and a byte behind it that starts a word or not. -/
def optionalThenOne : List Stream := [⟨8, .ofList [0], ⟨0, some 1⟩⟩, ⟨8, .ofList [0], ⟨1, some 1⟩⟩]

/-- The same byte in two layouts. -/
def sameByteTwice : Inversion where
  wordBytes := 1
  streamCount := 1
  uses := .ofList [⟨0, 0, ⟨0, 0⟩, 0, 0, true⟩, ⟨0, 0, ⟨1, 0⟩, 0, 0, true⟩]

/-- Four combinations have two splices, and two sub-states have one transition. -/
theorem compare_totallyOrders_repetitions :
    (∃ set sets, ∃ joined : List Layout, joinedLayouts 2 optionalThenOne 0 64 = .ok set ∧
      layoutsPerStream 2 0 (.ofList [0]) optionalThenOne = .ok sets ∧
      (choices (sets.map SortedSet.toList)).mapM (Layout.splice 2 · 0) = .ok joined ∧
      joined.length = 4 ∧ set.size = 2 ∧ set.toList.Perm joined.dedup) ∧
    ∃ table, ∃ contexts : List Context, Table.build 1 1 sameByteTwice [false] = .ok table ∧
      contexts.length = 2 ∧ (table.transitions 0).length = 1 ∧
      let setting : Setting := ⟨1, 1, [0], [false]⟩
      (table.transitions 0).Perm
        (setting.stateTransitions (contexts.map setting.transition) 0).dedup := by
  obtain ⟨_, _, _, _, _, _, hJoined, hBuilt⟩ := compare_totallyOrders
  constructor
  · have h : joinedLayouts 2 optionalThenOne 0 64 = .ok _ := rfl
    obtain ⟨sets, joined, hSets, hSplices, hPerm⟩ := hJoined _ _ _ _ _ h
    refine ⟨_, sets, joined, h, hSets, hSplices, ?_, rfl, hPerm⟩
    cases hSets
    cases hSplices
    rfl
  · have h : Table.build 1 1 sameByteTwice [false] = .ok _ := rfl
    obtain ⟨subStates, contexts, hSubStates, hContexts, hPerm⟩ := hBuilt _ _ _ _ _ h
    refine ⟨_, contexts, h, ?_, rfl, hPerm 0 (by decide)⟩
    cases hSubStates
    cases hContexts
    rfl

end StreamSplice
