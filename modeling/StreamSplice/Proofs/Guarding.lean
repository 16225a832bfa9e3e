import StreamSplice.Proofs.Grounding
import StreamSplice.Proofs.Requirements

/-! What the guards of a machine come to be. The registers that a word is assembled from meet all
guards of its transition, so they tell the value of every bit that the bytes of the word make
part of these: a byte of the word is required to be there, no byte of its register before the
first one or behind the last one that a stream contributes, and the whole of the empty word of
a stream that is skipped. -/
namespace StreamSplice

open Layout Pipeline

namespace Setting

variable {setting : Setting} {context : Context} {state leading stream stage : Nat}

/-- The guards of the streams that are not skipped on entry are those of the context. -/
theorem guard?_enter (h : leading ≤ stream) :
    (setting.enter context state leading).guard? stream stage =
      (setting.transition context).guard? stream stage := by
  rw [enter, Transition.guard?_skipEmpty, if_neg (by omega)]
  rfl

/-- What a guard requires of the register of a driven byte, given the bytes before and after
it. -/
structure GuardsByte (setting : Setting) (before after : Option Source) (source : Source)
    (guard : RegisterGuard) : Prop where
  present : guard.keep[source.byte]? = some .one
  last : guard.last = .exactly source.inLastWord
  /-- Nothing precedes the first byte of a stream. -/
  first : (∀ b, before = some b → b.stream ≠ source.stream) → ∀ byte < source.byte,
    guard.keep[byte]? = some .zero
  /-- Nothing follows the last byte of a stream, which is in its last word. -/
  closed : Closes after source → guard.last = .one ∧
    (source.byte + 1 < setting.wordBytes → guard.keep[source.byte + 1]? = some .zero)

/-- A byte whose bits take part in the guards, and that fits registers which meet them, has them
require what the registers show. -/
theorem guardsByte_of_demands {t : Transition} {before after : Option Source} {atEnd : Bool}
    {source : Source} {registers : Nat → Nat → Register} {guard : RegisterGuard}
    (hShaped : t.Shaped setting.wordBytes setting.lookahead)
    (hDemands : setting.Demands t before after source)
    (hFits : setting.Fits registers before after atEnd source) (hMeets : t.Meets registers)
    (hGuard : t.guard? source.stream source.stage = some guard) :
    setting.GuardsByte before after source guard := by
  have hLast := hDemands.last.last_eq hMeets hGuard
  rw [hFits.last] at hLast
  have hWidth : (registers source.stream source.stage).keep.length = setting.wordBytes := by
    rw [← hShaped.length_keep hGuard]
    exact (RegisterGuard.length_eq_of_accepts (hMeets _ _ guard hGuard)).symm
  have hAbsent : ∀ byte < setting.wordBytes,
      (∀ value, (registers source.stream source.stage).keep[byte]? = some value →
        value = false) →
      (registers source.stream source.stage).keep[byte]? = some false := by
    intro byte hByte h
    have hAt := List.getElem?_eq_getElem (hWidth ▸ hByte)
    rwa [h _ hAt] at hAt
  constructor
  case present => exact hDemands.present.keep_eq hMeets hGuard hFits.present
  case last => exact hLast
  case first =>
    intro hOpens byte hByte
    have hInWord : source.byte < setting.wordBytes := by
      rw [← hWidth]
      exact (List.getElem?_eq_some_iff.mp hFits.present).1
    exact (hDemands.first hOpens byte hByte).keep_eq hMeets hGuard
      (hAbsent byte (by omega) (hFits.first hOpens byte hByte))
  case closed =>
    intro hCloses
    obtain ⟨hInLast, hNone⟩ := hFits.closed hCloses
    rw [hInLast] at hLast
    exact ⟨hLast, fun hByte => (hDemands.closed hCloses hByte).keep_eq hMeets hGuard
      (hAbsent _ hByte hNone)⟩

end Setting

namespace Pipeline

/-- The registers that a word of a tuple is assembled from, with no tuple behind it. -/
def shownAt (setting : Setting) (offset : Nat) (frames : List Frame) (word : Nat) :
    Nat → Nat → Register :=
  registerAt setting.wordBytes (tupleQueues setting.wordBytes 0 frames
    (queuesOf setting.wordBytes frames.length 1 []) (wordStart setting.wordBytes offset word))

namespace Occurs

variable {setting : Setting} {contexts : SortedSet Context} {offset word : Nat}
  {context : Context} {frames : List Frame} {first : Origin} {source : Source} {byte : Nat}
  (h : Occurs setting contexts offset context frames word first)

include h

theorem behind : Behind setting.wordBytes frames
    (queuesOf setting.wordBytes frames.length 1 []) :=
  behind_queuesOf h.starts rfl (by simp)

theorem length_sources : context.sources.length = setting.wordBytes := by
  rw [← h.context_eq]
  exact length_sources_dataContext ..

theorem shaped (state leading : Nat) :
    (setting.enter context state leading).Shaped setting.wordBytes setting.lookahead :=
  setting.shaped_enter h.length_sources state leading

theorem meets : (setting.transition context).Meets (shownAt setting offset frames word) := by
  rw [← h.context_eq]
  exact meets_transition_word h.handles.offset_lt h.handles.streams h.behind h.begins

/-- The sources of the word name its bytes. -/
theorem presents (hSource : context.sources[byte]? = some (some source)) :
    byte < setting.wordBytes ∧ offset ≤ word * setting.wordBytes + byte ∧ ∃ frame row,
      Presents setting.wordBytes frames (wordStart setting.wordBytes offset word)
        (word * setting.wordBytes + byte - offset) source frame row := by
  rw [← h.context_eq] at hSource
  exact presents_wordSources hSource

theorem fits (hSource : context.sources[byte]? = some (some source)) :
    setting.Fits (shownAt setting offset frames word)
      (Setting.sourceBefore none context.sources byte)
      (context.sources[byte + 1]?.getD context.following) (byte + 1 == context.sources.length)
      source := by
  have hEq := h.context_eq
  subst hEq
  exact fits_wordSources h.handles.streams h.behind hSource

/-- What stands after a byte of the word is the next byte. -/
theorem follows (hSource : context.sources[byte]? = some (some source)) :
    Follows setting.wordBytes frames (word * setting.wordBytes + byte - offset)
      (context.sources[byte + 1]?.getD context.following) := by
  obtain ⟨hByte, hData, _⟩ := h.presents hSource
  rw [← h.context_eq]
  exact follows_tupleContext hByte hData

/-- The state of the word is its least stream. -/
theorem state_le (hMem : some source ∈ context.sources) : context.state ≤ source.stream := by
  obtain ⟨byte, hSource⟩ := List.mem_iff_getElem?.mp hMem
  obtain ⟨_, _, frame, row, hPresents⟩ := h.presents hSource
  obtain ⟨stream, sent, hSent, hFrom, hTo, hFirst⟩ := getElem?_tupleOrigins.mp h.begins
  have hState : context.state = stream := by
    rw [← h.context_eq, tupleContext, dataContext, hFirst, originAt, Nat.zero_add]
  rw [hState]
  exact Covers.stream_le ⟨hSent, hFrom, hTo⟩ hPresents.covers (by unfold wordStart; omega)

/-- There is a register for every source. -/
theorem exists_lookahead (hMem : some source ∈ context.sources) :
    ∃ l, setting.lookahead[source.stream]? = some l ∧ source.stage ≤ l := by
  refine h.handles.reach context ?_ source hMem
  exact (hasContext_tupleLayout_iff h.handles.offset_lt).mpr
    ⟨word, first, h.begins, h.context_eq⟩

variable {leading : Nat}

/-- The guard of the register that a byte of the word is taken from. -/
theorem exists_guardsByte (state : Nat) (hLeading : leading ≤ context.state)
    (hSource : context.sources[byte]? = some (some source)) :
    ∃ guard, (setting.enter context state leading).guard? source.stream source.stage =
        some guard ∧
      setting.GuardsByte (Setting.sourceBefore none context.sources byte)
        (context.sources[byte + 1]?.getD context.following) source guard := by
  have hMem := List.mem_of_getElem? hSource
  have hShaped := setting.shaped_transition h.length_sources
  obtain ⟨l, hLookahead, hStage⟩ := h.exists_lookahead hMem
  obtain ⟨guard, hGuard⟩ := hShaped.exists_guard hLookahead hStage
  refine ⟨guard, ?_, Setting.guardsByte_of_demands hShaped
    (Setting.demands_transition h.length_sources hSource) (h.fits hSource) h.meets hGuard⟩
  rw [Setting.guard?_enter (Nat.le_trans hLeading (h.state_le hMem)), hGuard]

/-- The streams that are skipped by a word, or on entry, present an empty last word. -/
theorem guard?_of_skips (hSound : Sound setting contexts) (state : Nat) {stream : Nat}
    (hStream : stream < setting.streamCount)
    (hSkips : setting.Skips context.following context.sources stream ∨ stream < leading) :
    (setting.enter context state leading).guard? stream 0 =
      some (.emptyLastWord setting.wordBytes) := by
  have hShaped := setting.shaped_transition h.length_sources
  have hLookahead := List.getElem?_eq_getElem (hSound.lookahead.symm ▸ hStream)
  obtain ⟨guard, hGuard⟩ := hShaped.exists_guard hLookahead (Nat.zero_le _)
  by_cases hLeading : stream < leading
  · have hOwn : Transition.guard? { setting.transition context with state := state } stream 0 =
        some guard := hGuard
    rw [Setting.enter, Transition.guard?_skipEmpty, if_pos ⟨rfl, Nat.zero_le _, hLeading⟩, hOwn,
      Option.map_some]
    exact congrArg (fun width => some (RegisterGuard.emptyLastWord width)) hShaped.outputKeep
  · obtain ⟨byte, source, hSource, hAfter⟩ := hSkips.resolve_right hLeading
    have hEmpty := (h.fits hSource).skipped hAfter.1 stream hAfter.2.1 hAfter.2.2
    rw [Setting.guard?_enter (Nat.not_lt.mp hLeading), hGuard, Transition.eq_emptyLastWord
      ((Setting.demands_transition h.length_sources hSource).skipped stream hAfter) h.meets hGuard
      hEmpty]

end Occurs

end Pipeline

end StreamSplice
