import StreamSplice.Proofs.Exclusion
import StreamSplice.Table.Construction

/-! Shape of transitions. Whatever the contexts, each transition of a machine has a guard
and a mask for every register, all as wide as a word. The copies that skip empty streams
are no exception, so the transitions of a state can be compared bit by bit. -/
namespace StreamSplice

/-- Widths of the registers of each stream. -/
def registerShape (wordBytes : Nat) (lookahead : List Nat) : List (List Nat) :=
  lookahead.map fun l => List.replicate (l + 1) wordBytes

section Rows

variable {α : Type} {width : α → Nat} {wordBytes : Nat} {lookahead : List Nat}

theorem map_modify_of_eq {β : Type} {f : α → α} {g : α → β} (h : ∀ a, g (f a) = g a)
    (l : List α) (i : Nat) : (l.modify i f).map g = l.map g := by
  induction l generalizing i with
  | nil => simp
  | cons a l ih => cases i <;> simp [h, ih]

theorem map_mapIdx_of_eq {β : Type} {f : Nat → α → α} {g : α → β} {l : List α}
    (h : ∀ i a, l[i]? = some a → g (f i a) = g a) : (l.mapIdx f).map g = l.map g := by
  refine List.ext_getElem? fun i => ?_
  rw [List.getElem?_map, List.getElem?_mapIdx, List.getElem?_map]
  cases hItem : l[i]? with
  | none => rfl
  | some a => exact congrArg some (h i a hItem)

theorem map_zipWith_of_eq {β γ : Type} {f : β → α → α} {g : α → γ} {l : List β} {m : List α}
    (h : List.Forall₂ (fun b a => g (f b a) = g a) l m) : (List.zipWith f l m).map g = m.map g := by
  induction h with
  | nil => rfl
  | cons hHead _ ih => simp [hHead, ih]

/-- Replacing the first registers of some streams keeps the shape. -/
theorem map_mapIdx_set {rows : List (List α)}
    (hShape : rows.map (List.map width) = registerShape wordBytes lookahead)
    (chosen : Nat → Bool) {first : α} (hFirst : width first = wordBytes) :
    (rows.mapIdx fun stream row => if chosen stream then row.set 0 first else row).map
      (List.map width) = registerShape wordBytes lookahead := by
  rw [← hShape]
  apply map_mapIdx_of_eq
  intro i row hRow
  have hWidths : (rows.map (List.map width))[i]? = some (row.map width) := by
    rw [List.getElem?_map, hRow]
    rfl
  rw [hShape, registerShape, List.getElem?_map] at hWidths
  obtain ⟨l, _, hWidths⟩ := Option.map_eq_some_iff.mp hWidths
  split
  · rw [List.map_set, ← hWidths, hFirst, List.set_replicate_self]
  · rfl

end Rows

namespace Transition

/-- Every register of the streams has a guard and a mask of its width, and every output
byte a selection. -/
structure Shaped (wordBytes : Nat) (lookahead : List Nat) (t : Transition) : Prop where
  guards : t.guardShape = registerShape wordBytes lookahead
  keepMasks : t.keepMasks.map (List.map List.length) = registerShape wordBytes lookahead
  reads : t.reads.length = lookahead.length
  outputKeep : t.outputKeep.length = wordBytes
  outputMux : t.outputMux.length = wordBytes

variable {wordBytes : Nat} {lookahead : List Nat} {t : Transition}

theorem shaped_idle (state nextState : Nat) (last : Bool) (wordBytes : Nat)
    (lookahead : List Nat) :
    (idle state nextState last wordBytes lookahead).Shaped wordBytes lookahead where
  guards := by simp [idle, guardShape, registerShape, RegisterGuard.dontCare]
  keepMasks := by simp [idle, registerShape]
  reads := by simp [idle]
  outputKeep := by simp [idle]
  outputMux := by simp [idle]

theorem guardShape_modifyGuard (t : Transition) (stream stage : Nat)
    {f : RegisterGuard → RegisterGuard} (h : ∀ g, (f g).keep.length = g.keep.length) :
    (t.modifyGuard stream stage f).guardShape = t.guardShape :=
  map_modify_of_eq (fun guards => map_modify_of_eq h guards stage) _ _

namespace Shaped

theorem modifyGuard (h : t.Shaped wordBytes lookahead) (stream stage : Nat)
    {f : RegisterGuard → RegisterGuard} (hWidth : ∀ g, (f g).keep.length = g.keep.length) :
    (t.modifyGuard stream stage f).Shaped wordBytes lookahead :=
  { h with guards := (guardShape_modifyGuard t stream stage hWidth).trans h.guards }

theorem requireKeep (h : t.Shaped wordBytes lookahead) (stream stage byte : Nat)
    (bit : BitGuard) : (t.requireKeep stream stage byte bit).Shaped wordBytes lookahead :=
  h.modifyGuard _ _ fun _ => List.length_set

theorem requireSource (h : t.Shaped wordBytes lookahead) (source : Source) :
    (t.requireSource source).Shaped wordBytes lookahead :=
  h.modifyGuard _ _ fun _ => List.length_set

theorem requireFirst (h : t.Shaped wordBytes lookahead) (source : Source) :
    (t.requireFirst source).Shaped wordBytes lookahead :=
  h.modifyGuard _ _ fun _ => List.length_mapIdx

theorem requireRelict (h : t.Shaped wordBytes lookahead) (source : Source) (relict : Bool) :
    (t.requireRelict source relict).Shaped wordBytes lookahead :=
  h.modifyGuard _ _ fun g => by split <;> rfl

theorem withState (h : t.Shaped wordBytes lookahead) (state : Nat) :
    Shaped wordBytes lookahead { t with state := state } :=
  ⟨h.guards, h.keepMasks, h.reads, h.outputKeep, h.outputMux⟩

theorem skipEmpty (h : t.Shaped wordBytes lookahead) (start stop : Nat) :
    (t.skipEmpty start stop).Shaped wordBytes lookahead := by
  simp only [Transition.skipEmpty]
  split
  · exact {
      guards := map_mapIdx_set h.guards _ (by simp [RegisterGuard.emptyLastWord, h.outputKeep])
      keepMasks := map_mapIdx_set h.keepMasks _ (by simp [h.outputKeep])
      reads := by simp [h.reads]
      outputKeep := h.outputKeep
      outputMux := h.outputMux }
  · exact h

theorem deliver (h : t.Shaped wordBytes lookahead) {sources : List (Option Source)}
    (hSources : sources.length = wordBytes) :
    (t.deliver sources).Shaped wordBytes lookahead where
  guards := h.guards
  keepMasks := by
    rw [← h.keepMasks]
    apply map_mapIdx_of_eq
    intro _ _ _
    split
    · exact map_mapIdx_of_eq fun _ _ _ => List.length_mapIdx
    · rfl
  reads := by simp [Transition.deliver, h.reads]
  outputKeep := by simp [Transition.deliver, hSources]
  outputMux := by simp [Transition.deliver, hSources]

theorem maskAbsent (h : t.Shaped wordBytes lookahead) :
    t.maskAbsent.Shaped wordBytes lookahead where
  guards := h.guards
  keepMasks := by
    have hRows := map_eq_map_iff_forall₂.mp (h.guards.trans h.keepMasks.symm)
    rw [← h.keepMasks]
    refine map_zipWith_of_eq (hRows.imp fun _ _ hRow => map_zipWith_of_eq ?_)
    apply (map_eq_map_iff_forall₂.mp hRow).imp
    intro _ _ hWidth
    rw [List.length_zipWith, hWidth, Nat.min_self]
  reads := h.reads
  outputKeep := h.outputKeep
  outputMux := h.outputMux

end Shaped

end Transition

namespace Setting

open Transition

variable {wordBytes : Nat} {lookahead : List Nat}

theorem shaped_close (setting : Setting) (after : Option Source) (source : Source)
    {t : Transition} (h : t.Shaped wordBytes lookahead) :
    (setting.close after source t).Shaped wordBytes lookahead := by
  simp only [close]
  split
  · split
    · exact (h.skipEmpty _ _).requireKeep _ _ _ _
    · exact h.skipEmpty _ _
  · exact h.skipEmpty _ _

theorem shaped_requireTrailing (setting : Setting) (closes continues atEnd : Bool)
    (source : Source) {t : Transition} (h : t.Shaped wordBytes lookahead) :
    (setting.requireTrailing closes continues atEnd source t).Shaped wordBytes lookahead := by
  unfold requireTrailing
  dsimp only
  split
  · exact h.requireKeep _ _ _ _
  · exact h

theorem shaped_drive (setting : Setting) (before after : Option Source) (atEnd : Bool)
    (source : Source) {t : Transition} (h : t.Shaped wordBytes lookahead) :
    (setting.drive before after atEnd source t).Shaped wordBytes lookahead := by
  simp only [drive]
  apply setting.shaped_requireTrailing _ _ _ source
  have hClosed : (if (after.all (·.stream ≠ source.stream)) = true then
      setting.close after source (t.requireSource source) else t.requireSource source).Shaped
      wordBytes lookahead := by
    split
    · exact setting.shaped_close after source (h.requireSource source)
    · exact h.requireSource source
  split
  · exact hClosed.requireFirst source
  · exact hClosed

theorem shaped_driveAll (setting : Setting) (following before : Option Source)
    (sources : List (Option Source)) {t : Transition} (h : t.Shaped wordBytes lookahead) :
    (setting.driveAll following before sources t).Shaped wordBytes lookahead := by
  induction sources generalizing before t with
  | nil => exact h
  | cons cell rest ih =>
      cases cell with
      | none => exact ih none h
      | some source => exact ih (some source) (setting.shaped_drive _ _ _ source h)

theorem shaped_transition (setting : Setting) {context : Context}
    (hSources : context.sources.length = setting.wordBytes) :
    (setting.transition context).Shaped setting.wordBytes setting.lookahead := by
  have hIdle := shaped_idle context.state context.nextState context.last setting.wordBytes
    setting.lookahead
  have hDriven := setting.shaped_driveAll context.following none context.sources
    (hIdle.deliver hSources)
  simp only [transition]
  split
  · exact hDriven.maskAbsent.requireRelict _ _
  · exact hDriven.maskAbsent

theorem shaped_fromStart (state : Nat) {t : Transition} (h : t.Shaped wordBytes lookahead) :
    (fromStart state t).Shaped wordBytes lookahead :=
  (h.withState 0).skipEmpty 0 state

theorem shaped_allEmpty (setting : Setting) :
    setting.allEmpty.Shaped setting.wordBytes setting.lookahead :=
  (shaped_idle 0 0 true setting.wordBytes setting.lookahead).skipEmpty 0 setting.streamCount

end Setting

end StreamSplice
