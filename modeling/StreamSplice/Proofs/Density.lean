import StreamSplice.Proofs.Conservation

/-! Density and order of the output. The bytes that a transition sends stand next to each other,
from the beginning of the frame or of the word on and up to the end of the word unless the frame
ends before. Neighbours are neighbours in their stream as well, or else the transition requires
that the earlier stream ends, that the later one begins, and that what is between them is empty. -/
namespace StreamSplice

open Layout Pipeline

namespace Transition

/-- What is required where a byte of a stream is followed by a byte of another one. -/
structure HandsOver (t : Transition) (wordBytes : Nat) (before after : Selection) : Prop where
  later : before.stream < after.stream
  fresh : after.stage = 0
  /-- The byte after is the first one of its word. -/
  opens : ∃ guard, t.guard? after.stream after.stage = some guard ∧
    ∀ byte < after.byte, guard.keep[byte]? = some .zero
  /-- The byte before is the last one of a last word. -/
  closes : ∃ guard, t.guard? before.stream before.stage = some guard ∧ guard.last = .one ∧
    (before.byte + 1 < wordBytes → guard.keep[before.byte + 1]? = some .zero)
  /-- The streams in between are skipped. -/
  skipped : ∀ stream, before.stream < stream → stream < after.stream →
    t.guard? stream 0 = some (.emptyLastWord wordBytes) ∧ t.reads[stream]? = some true

/-- The output word of a transition is a run of bytes in order. -/
structure Dense (t : Transition) (wordBytes offset : Nat) : Prop where
  run : ∃ start stop, (start = 0 ∨ start = offset) ∧ start ≤ stop ∧ stop ≤ wordBytes ∧
    ∀ byte, t.outputKeep[byte]? = some true ↔ start ≤ byte ∧ byte < stop
  /-- Only the last word of a frame may end early. -/
  full : t.last = false → t.outputKeep.getLast? = some true
  kept : t.outputKeep = t.outputMux.map Option.isSome
  /-- Neighbours of one stream are successive bytes of it. -/
  next : ∀ (byte : Nat) before after, t.outputMux[byte]? = some (some before) →
    t.outputMux[byte + 1]? = some (some after) → before.stream = after.stream →
    after.stage * wordBytes + after.byte = before.stage * wordBytes + before.byte + 1
  handsOver : ∀ (byte : Nat) before after, t.outputMux[byte]? = some (some before) →
    t.outputMux[byte + 1]? = some (some after) → before.stream ≠ after.stream →
    t.HandsOver wordBytes before after
  valid : t.outputValid

/-- Whether a transition sends no byte. -/
def Blank (t : Transition) : Prop := ∀ kept ∈ t.outputKeep, kept = false

/-- A transition that joins empty frames of all streams. -/
structure JoinsEmpty (t : Transition) (wordBytes streamCount : Nat) : Prop where
  state : t.state = 0
  nextState : t.nextState = 0
  last : t.last = true
  reads : t.reads = List.replicate streamCount true
  skipped : ∀ stream < streamCount, t.guard? stream 0 = some (.emptyLastWord wordBytes)

end Transition

/-- A table sends runs of bytes in order, and words without bytes for empty frames only. -/
structure Table.Dense (table : Table) (join : Join) : Prop where
  runs : ∀ t ∈ table.items, t.Dense join.wordBytes join.outputOffset
  joinsEmpty : ∀ t ∈ table.items, t.Blank → t.JoinsEmpty join.wordBytes join.streams.length
  single : ∀ t ∈ table.items, ∀ other ∈ table.items, t.Blank → other.Blank → t = other
  present : (∃ t ∈ table.items, t.Blank) ↔ ∀ stream ∈ join.streams, stream.lengths.shortest = 0

namespace Pipeline

section Follows

variable {wordBytes index emitted row row' : Nat} {frames : List Frame} {frame frame' : Frame}
  {a b : Source}

/-- Successive bytes of one stream are next to each other in its registers. -/
theorem Presents.place_succ (h : Presents wordBytes frames emitted index a frame row)
    (h' : Presents wordBytes frames emitted (index + 1) b frame' row') (hEmitted : emitted ≤ index)
    (hStream : a.stream = b.stream) :
    b.stage * wordBytes + b.byte = a.stage * wordBytes + a.byte + 1 := by
  have hSent := h'.covers.sent
  rw [← hStream, h.covers.sent] at hSent
  obtain rfl := Option.some.inj hSent
  have hFront := h.div_front_le hEmitted
  have hFront' := h'.div_front_le (Nat.le_succ_of_le hEmitted)
  have hPosition := h.position
  have hPosition' := h'.position
  have hLe := h.covers.le
  rw [← hStream] at hFront' hPosition'
  have hRow := Nat.mul_le_mul_right wordBytes hFront
  have hRow' := Nat.mul_le_mul_right wordBytes hFront'
  rw [h.stage, h'.stage, ← hStream, Nat.sub_mul, Nat.sub_mul]
  omega

end Follows

namespace Occurs

variable {setting : Setting} {contexts : SortedSet Context} {offset word : Nat}
  {context : Context} {frames : List Frame} {first : Origin} {byte state leading : Nat}
  {a b : Source}
  (h : Occurs setting contexts offset context frames word first)

include h

theorem wordStart_lt : wordStart setting.wordBytes offset word < byteTotal frames := by
  have hBound := (List.getElem?_eq_some_iff.mp h.begins).1
  rwa [length_tupleOrigins] at hBound

/-- The output bytes that have a source. -/
theorem exists_source_iff :
    (∃ source, context.sources[byte]? = some (some source)) ↔
      byte < setting.wordBytes ∧ offset ≤ word * setting.wordBytes + byte ∧
        word * setting.wordBytes + byte - offset < byteTotal frames := by
  constructor
  · rintro ⟨source, hSource⟩
    obtain ⟨hByte, hData, _, _, hPresents⟩ := h.presents hSource
    exact ⟨hByte, hData, hPresents.covers.lt_byteTotal⟩
  · rintro ⟨hByte, hData, hBytes⟩
    obtain ⟨source, _, _, hSource, _⟩ := exists_source hByte hData hBytes
    rw [← h.context_eq]
    exact ⟨source, hSource⟩

/-- The output bytes that are driven. -/
theorem outputKeep_iff :
    (setting.enter context state leading).outputKeep[byte]? = some true ↔
      byte < setting.wordBytes ∧ offset ≤ word * setting.wordBytes + byte ∧
        word * setting.wordBytes + byte - offset < byteTotal frames := by
  have hEffect := setting.effect_enter context state leading
  simp only [Transition.effect, Prod.mk.injEq] at hEffect
  rw [hEffect.2.2.1, List.getElem?_map, ← h.exists_source_iff]
  cases context.sources[byte]? with
  | none => simp
  | some cell => cases cell <;> simp

/-- The driven bytes of a word are a run. -/
theorem run : ∃ start stop, (start = 0 ∨ start = offset) ∧ start ≤ stop ∧
    stop ≤ setting.wordBytes ∧
    ∀ byte, (setting.enter context state leading).outputKeep[byte]? = some true ↔
      start ≤ byte ∧ byte < stop := by
  have hBytes := h.wordStart_lt
  have hOffset := h.handles.offset_lt
  unfold wordStart at hBytes
  refine ⟨offset - word * setting.wordBytes,
    min setting.wordBytes (offset + byteTotal frames - word * setting.wordBytes), ?_, ?_,
    Nat.min_le_left _ _, fun byte => ?_⟩
  · rcases Nat.eq_zero_or_pos word with rfl | hPositive
    · exact .inr (by omega)
    · have := Nat.le_mul_of_pos_left setting.wordBytes hPositive
      exact .inl (by omega)
  · omega
  · rw [h.outputKeep_iff]
    omega

/-- A word has a driven byte. -/
theorem exists_driven (state leading : Nat) :
    ∃ byte : Nat, (setting.enter context state leading).outputKeep[byte]? = some true := by
  have hBytes := h.wordStart_lt
  have hOffset := h.handles.offset_lt
  unfold wordStart at hBytes
  refine ⟨offset - word * setting.wordBytes, h.outputKeep_iff.mpr ⟨?_, ?_, ?_⟩⟩ <;> omega

theorem not_blank : ¬(setting.enter context state leading).Blank := by
  intro hBlank
  obtain ⟨byte, hByte⟩ := h.exists_driven state leading
  cases hBlank true (List.mem_of_getElem? hByte)

/-- A word that is not the last one is driven up to its end. -/
theorem full (hLast : (setting.enter context state leading).last = false) :
    (setting.enter context state leading).outputKeep.getLast? = some true := by
  rw [setting.last_enter, ← h.context_eq] at hLast
  have hNext : wordStart setting.wordBytes offset (word + 1) < byteTotal frames := by
    rw [tupleContext, dataContext, Option.isNone_eq_false_iff, Option.isSome_iff_exists] at hLast
    obtain ⟨next, hNext⟩ := hLast
    have hBound := (List.getElem?_eq_some_iff.mp hNext).1
    rwa [length_tupleOrigins] at hBound
  have hOffset := h.handles.offset_lt
  unfold wordStart at hNext
  rw [Nat.succ_mul] at hNext
  rw [List.getLast?_eq_getElem?, (h.shaped state leading).outputKeep, h.outputKeep_iff]
  omega

/-- A byte and the next one, as bytes of the tuple. -/
theorem presents_succ (ha : context.sources[byte]? = some (some a))
    (hb : context.sources[byte + 1]? = some (some b)) :
    let emitted := wordStart setting.wordBytes offset word
    let index := word * setting.wordBytes + byte - offset
    emitted ≤ index ∧ ∃ frame frame' row row',
      Presents setting.wordBytes frames emitted index a frame row ∧
      Presents setting.wordBytes frames emitted (index + 1) b frame' row' := by
  intro emitted index
  obtain ⟨_, hData, frame, row, hPresents⟩ := h.presents ha
  obtain ⟨_, _, frame', row', hPresents'⟩ := h.presents hb
  rw [show word * setting.wordBytes + (byte + 1) - offset = index + 1 by omega] at hPresents'
  exact ⟨by simp only [emitted, wordStart]; omega, frame, frame', row, row', hPresents, hPresents'⟩

/-- A byte of a word that is followed by one of another stream ends its frame, and the byte
after it begins its own. -/
theorem handsOver (hSound : Sound setting contexts) (hLeading : leading ≤ context.state)
    (ha : context.sources[byte]? = some (some a))
    (hb : context.sources[byte + 1]? = some (some b)) (hStream : a.stream ≠ b.stream) :
    (setting.enter context state leading).HandsOver setting.wordBytes a.selection b.selection := by
  obtain ⟨_, _, frame', _, _, hPresents, hPresents'⟩ := h.presents_succ ha hb
  have hFollows := h.follows ha
  have hAfter : context.sources[byte + 1]?.getD context.following = some b := by
    rw [hb, Option.getD_some]
  have hCloses : Setting.Closes (some b) a := fun x hx => by
    cases hx
    exact Ne.symm hStream
  have hLater : a.stream < b.stream := Nat.lt_of_le_of_ne
    (hPresents.covers.stream_le hPresents'.covers (Nat.le_succ _)) hStream
  obtain ⟨guard, hGuard, hByte⟩ := h.exists_guardsByte state hLeading ha
  obtain ⟨guard', hGuard', hByte'⟩ := h.exists_guardsByte state hLeading hb
  rw [hAfter] at hByte
  constructor
  case later => exact hLater
  case fresh =>
    have hOffset := h.starts frame' (List.mem_of_getElem? hPresents'.covers.sent)
    exact hPresents'.stage_eq_zero hOffset
      (start_of_follows hPresents hFollows hAfter (Ne.symm hStream))
  case opens =>
    refine ⟨guard', hGuard', fun before hBefore => hByte'.first ?_ before hBefore⟩
    rintro x hx
    rw [Setting.sourceBefore, ha, Option.join_some] at hx
    cases hx
    exact hStream
  case closes => exact ⟨guard, hGuard, hByte.closed hCloses⟩
  case skipped =>
    intro stream hFrom hTo
    obtain ⟨l, hLookahead, _⟩ := h.exists_lookahead (List.mem_of_getElem? hb)
    have hBound := (List.getElem?_eq_some_iff.mp hLookahead).1
    rw [hSound.lookahead] at hBound
    have hSkips : setting.Skips context.following context.sources stream :=
      ⟨byte, a, ha, by rw [hAfter]; exact ⟨hCloses, hFrom, hTo⟩⟩
    have hEmpty := h.guard?_of_skips hSound state (Nat.lt_trans hTo hBound)
      (.inl hSkips : _ ∨ stream < leading)
    exact ⟨hEmpty, ((h.takes hSound hLeading).reads_iff stream).mpr (.inr hEmpty)⟩

/-- The transition of a word is dense. -/
theorem dense (hSound : Sound setting contexts) (hLeading : leading ≤ context.state) :
    (setting.enter context state leading).Dense setting.wordBytes offset := by
  have hCell : ∀ (byte : Nat) selection,
      (setting.enter context state leading).outputMux[byte]? = some (some selection) →
        ∃ source, context.sources[byte]? = some (some source) ∧ source.selection = selection := by
    intro byte selection hMux
    rw [setting.outputMux_enter, List.getElem?_map] at hMux
    obtain ⟨cell, hSource, hCell⟩ := Option.map_eq_some_iff.mp hMux
    obtain ⟨source, rfl, hSelection⟩ := Option.map_eq_some_iff.mp hCell
    exact ⟨source, hSource, hSelection⟩
  constructor
  case run => exact h.run
  case full => exact h.full
  case kept => exact (h.takes hSound hLeading).conserves.kept
  case next =>
    intro byte before after hBefore hAfter hStream
    obtain ⟨a, ha, rfl⟩ := hCell byte before hBefore
    obtain ⟨b, hb, rfl⟩ := hCell (byte + 1) after hAfter
    obtain ⟨hIndex, _, _, _, _, hPresents, hPresents'⟩ := h.presents_succ ha hb
    exact hPresents.place_succ hPresents' hIndex hStream
  case handsOver =>
    intro byte before after hBefore hAfter hStream
    obtain ⟨a, ha, rfl⟩ := hCell byte before hBefore
    obtain ⟨b, hb, rfl⟩ := hCell (byte + 1) after hAfter
    exact h.handsOver hSound hLeading ha hb hStream
  case valid =>
    obtain ⟨byte, hByte⟩ := h.exists_driven state leading
    rw [Transition.outputValid, Bool.or_eq_true]
    exact .inl (List.any_eq_true.mpr ⟨true, List.mem_of_getElem? hByte, rfl⟩)

end Occurs

section Empty

variable {setting : Setting} {contexts : SortedSet Context} {offset : Nat}

theorem joinsEmpty_allEmpty (hSound : Sound setting contexts) :
    setting.allEmpty.JoinsEmpty setting.wordBytes setting.streamCount := by
  have hTakes := setting.takes_allEmpty
  have hEffect := setting.effect_allEmpty
  simp only [Transition.effect, Prod.mk.injEq] at hEffect
  constructor
  case state => exact hEffect.1
  case nextState => exact hEffect.2.1
  case last => exact hEffect.2.2.2.2
  case reads =>
    have hCount := hTakes.shaped.reads.trans hSound.lookahead
    refine List.eq_replicate_iff.mpr ⟨hCount, fun value hMem => ?_⟩
    obtain ⟨stream, hValue⟩ := List.mem_iff_getElem?.mp hMem
    exact (hTakes.read_iff hValue).mpr (.inr (hCount ▸ (List.getElem?_eq_some_iff.mp hValue).1))
  case skipped =>
    exact fun stream hStream => hTakes.skips stream (hSound.lookahead.symm ▸ hStream) hStream

theorem blank_allEmpty (setting : Setting) : setting.allEmpty.Blank := by
  intro kept hMem
  rw [setting.takes_allEmpty.keep, List.map_replicate] at hMem
  exact List.eq_of_mem_replicate hMem

theorem dense_allEmpty (hSound : Sound setting contexts) :
    setting.allEmpty.Dense setting.wordBytes offset := by
  have hTakes := setting.takes_allEmpty
  have hJoins := joinsEmpty_allEmpty hSound
  have hNone : ∀ (byte : Nat) selection,
      setting.allEmpty.outputMux[byte]? ≠ some (some selection) := by
    intro byte selection hCell
    rw [hTakes.mux, List.map_replicate] at hCell
    cases List.eq_of_mem_replicate (List.mem_of_getElem? hCell)
  constructor
  case run =>
    refine ⟨0, 0, .inl rfl, Nat.le_refl 0, Nat.zero_le _, fun byte => ?_⟩
    constructor
    · intro hDriven
      cases blank_allEmpty setting true (List.mem_of_getElem? hDriven)
    · omega
  case full =>
    intro hLast
    rw [hJoins.last] at hLast
    cases hLast
  case kept => exact hTakes.conserves.kept
  case next => exact fun byte before _ hBefore => absurd hBefore (hNone byte before)
  case handsOver => exact fun byte before _ hBefore => absurd hBefore (hNone byte before)
  case valid =>
    rw [Transition.outputValid, hJoins.reads]
    simp

/-- The transition of empty frames is there if every stream may be empty. -/
theorem mem_items_allEmpty (hSound : Sound setting contexts)
    (hPrefix : setting.emptyPrefix = setting.streamCount) :
    setting.allEmpty ∈ (Table.ofContexts setting contexts).items :=
  Table.mem_items.mpr ⟨0, Table.mem_transitions_ofContexts.mpr ⟨hSound.streams,
    (Setting.mem_stateTransitions_zero (hPrefix ▸ hSound.streams)).mpr
      (.inr (.inr ⟨hPrefix, rfl⟩))⟩⟩

/-- Only empty frames of all streams make a word without bytes. -/
theorem eq_allEmpty_of_blank (hGrounded : Grounded setting contexts offset) {t : Transition}
    (ht : t ∈ (Table.ofContexts setting contexts).items) (hBlank : t.Blank) :
    setting.emptyPrefix = setting.streamCount ∧ t = setting.allEmpty := by
  rcases of_mem_items ht with ⟨context, hContext, state, leading, _, rfl⟩ | ⟨hAll, rfl⟩
  · obtain ⟨frames, word, first, hOccurs⟩ := hGrounded context hContext
    exact absurd hBlank hOccurs.not_blank
  · exact ⟨hAll, rfl⟩

/-- The transitions of a machine whose contexts occur are dense. -/
theorem dense_of_mem_items (hSound : Sound setting contexts)
    (hGrounded : Grounded setting contexts offset) {t : Transition}
    (ht : t ∈ (Table.ofContexts setting contexts).items) :
    t.Dense setting.wordBytes offset := by
  rcases of_mem_items ht with ⟨context, hContext, state, leading, hLeading, rfl⟩ | ⟨_, rfl⟩
  · obtain ⟨frames, word, first, hOccurs⟩ := hGrounded context hContext
    exact hOccurs.dense hSound hLeading
  · exact dense_allEmpty hSound

end Empty

end Pipeline

namespace Join

/-- The machine of a description sends dense words in order. Whatever the lengths, offsets and
order of the streams, the driven bytes of each of its transitions are a run from the beginning
of the word or of the frame; successive ones are successive bytes of a stream, or the end of one
stream and the beginning of a later one, everything in between being required to be empty. The
only word without bytes is that of empty frames of all streams, if these may be empty. -/
theorem dense_of_synthesize {join : Join} {table : Table} (h : join.synthesize = .ok table) :
    table.Dense join := by
  obtain ⟨layouts, inversion, contexts, hPasses, rfl, hSound⟩ := exists_passes_of_synthesize h
  have hGrounded := hPasses.grounded
  have hEmptiable : (join.setting inversion).emptyPrefix = (join.setting inversion).streamCount ↔
      ∀ stream ∈ join.streams, stream.lengths.shortest = 0 := by
    rw [Setting.emptyPrefix_eq_iff hSound.emptiable]
    simp [setting, emptiable, Stream.canBeEmpty]
  constructor
  case runs => exact fun t ht => dense_of_mem_items hSound hGrounded ht
  case joinsEmpty =>
    intro t ht hBlank
    obtain ⟨_, rfl⟩ := eq_allEmpty_of_blank hGrounded ht hBlank
    exact joinsEmpty_allEmpty hSound
  case single =>
    intro t ht other hOther hBlank hBlank'
    rw [(eq_allEmpty_of_blank hGrounded ht hBlank).2,
      (eq_allEmpty_of_blank hGrounded hOther hBlank').2]
  case present =>
    rw [← hEmptiable]
    constructor
    · rintro ⟨t, ht, hBlank⟩
      exact (eq_allEmpty_of_blank hGrounded ht hBlank).1
    · exact fun hPrefix => ⟨_, mem_items_allEmpty hSound hPrefix, blank_allEmpty _⟩

/-- At most one byte, and then at most two. -/
def allOptional : Join :=
  ⟨2, 0, [⟨8, .ofList [0], ⟨0, some 1⟩⟩, ⟨8, .ofList [0], ⟨0, some 2⟩⟩], 16⟩

theorem dense_of_synthesize_allOptional :
    ∃ table, allOptional.synthesize = .ok table ∧ table.Dense allOptional ∧
      ∃ t ∈ table.items, t.Blank := by
  obtain ⟨table, hTable⟩ := exists_eq_ok_of_isOk
    (show allOptional.synthesize.isOk = true by decide +kernel)
  have hDense := dense_of_synthesize hTable
  exact ⟨table, hTable, hDense, hDense.present.mpr (by simp [allOptional])⟩

end Join

end StreamSplice
