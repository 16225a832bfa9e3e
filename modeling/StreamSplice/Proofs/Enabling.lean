import StreamSplice.Proofs.Fallible
import StreamSplice.Proofs.Shape

/-! Enabling of transitions. The guards of a transition are put together one requirement at
a time, so registers that meet every requirement enable it. What a driven byte requires is
stated once, in terms of the registers and of the bytes before and after it. -/
namespace StreamSplice

/-- Contents that show the only word of a frame without bytes. -/
def Register.emptyFrame (wordBytes : Nat) : Register :=
  ⟨List.replicate wordBytes false, true, true⟩

/-- The registers by stream and stage. One that is not there holds nothing. -/
def registerIn (rows : List (List Register)) (stream stage : Nat) : Register :=
  (rows[stream]?.bind (·[stage]?)).getD ⟨[], false, false⟩

namespace RegisterGuard

variable {guard : RegisterGuard} {register : Register}

theorem accepts_dontCare {wordBytes : Nat} (h : register.keep.length = wordBytes) :
    (dontCare wordBytes).accepts register := by
  refine accepts_iff.mpr ⟨forall₂_of_getElem? (by simp [dontCare, h]) ?_, rfl, rfl⟩
  intro i bit value hBit _
  rw [dontCare, List.getElem?_replicate] at hBit
  split at hBit
  · cases hBit
    rfl
  · cases hBit

theorem accepts_emptyLastWord (wordBytes : Nat) :
    (emptyLastWord wordBytes).accepts (Register.emptyFrame wordBytes) := by
  have hLength : (emptyLastWord wordBytes).keep.length =
      (Register.emptyFrame wordBytes).keep.length := by
    simp [emptyLastWord, Register.emptyFrame]
  refine accepts_iff.mpr ⟨forall₂_of_getElem? hLength ?_, rfl, rfl⟩
  intro i bit value hBit hValue
  rw [emptyLastWord, List.getElem?_replicate] at hBit
  split at hBit
  · next hByte =>
      rw [Register.emptyFrame, List.getElem?_replicate, if_pos hByte] at hValue
      cases hBit
      cases hValue
      rfl
  · cases hBit

/-- Requiring a keep bit that the register has. -/
theorem accepts_set (h : guard.accepts register) {byte : Nat} {bit : BitGuard}
    (hBit : ∀ value, register.keep[byte]? = some value → bit.accepts value) :
    ({ guard with keep := guard.keep.set byte bit } : RegisterGuard).accepts register := by
  obtain ⟨hKeep, hRest⟩ := accepts_iff.mp h
  refine accepts_iff.mpr ⟨forall₂_of_getElem? (by simp [hKeep.length_eq]) ?_, hRest⟩
  intro i b value hb hValue
  rw [List.getElem?_set] at hb
  split at hb
  · next hEq =>
      subst hEq
      split at hb
      · cases hb
        exact hBit value hValue
      · cases hb
  · exact rel_of_forall₂ hKeep hb hValue

/-- Requiring that the bytes before one are absent. -/
theorem accepts_mapIdx (h : guard.accepts register) {byte : Nat}
    (hAbsent : ∀ b < byte, ∀ value, register.keep[b]? = some value → value = false) :
    ({ guard with keep := guard.keep.mapIdx fun b bit => if b < byte then .zero else bit } :
      RegisterGuard).accepts register := by
  obtain ⟨hKeep, hRest⟩ := accepts_iff.mp h
  refine accepts_iff.mpr ⟨forall₂_of_getElem? (by simp [hKeep.length_eq]) ?_, hRest⟩
  intro i b value hb hValue
  rw [List.getElem?_mapIdx] at hb
  obtain ⟨bit, hBit, rfl⟩ := Option.map_eq_some_iff.mp hb
  split
  · next hBefore =>
      rw [hAbsent i hBefore value hValue]
      rfl
  · exact rel_of_forall₂ hKeep hBit hValue

end RegisterGuard

namespace Transition

/-- Whether the registers, by stream and stage, meet the guards. -/
def Meets (t : Transition) (registers : Nat → Nat → Register) : Prop :=
  ∀ stream stage guard, t.guard? stream stage = some guard →
    guard.accepts (registers stream stage)

variable {t : Transition} {registers : Nat → Nat → Register} {wordBytes : Nat}

theorem guard?_eq_some {stream stage : Nat} {guard : RegisterGuard} :
    t.guard? stream stage = some guard ↔
      ∃ row, t.guards[stream]? = some row ∧ row[stage]? = some guard := by
  simp [guard?, Option.bind_eq_some_iff]

/-- The guard that is changed. -/
theorem guard?_modifyGuard_self (t : Transition) (stream stage : Nat)
    (f : RegisterGuard → RegisterGuard) :
    (t.modifyGuard stream stage f).guard? stream stage = (t.guard? stream stage).map f := by
  simp only [guard?, modifyGuard, List.getElem?_modify]
  cases t.guards[stream]? <;> simp

/-- Guards of other registers stay. -/
theorem guard?_modifyGuard_of_ne (t : Transition) {stream stage stream' stage' : Nat}
    (f : RegisterGuard → RegisterGuard) (h : ¬(stream = stream' ∧ stage = stage')) :
    (t.modifyGuard stream stage f).guard? stream' stage' = t.guard? stream' stage' := by
  simp only [guard?, modifyGuard, List.getElem?_modify]
  cases t.guards[stream']? with
  | none => rfl
  | some row =>
      by_cases hStream : stream = stream'
      · simp [hStream, show stage ≠ stage' from fun hStage => h ⟨hStream, hStage⟩]
      · simp [hStream]

/-- The guards of skipped streams, and those that stay. -/
theorem guard?_skipEmpty (t : Transition) (start stop stream stage : Nat) :
    (t.skipEmpty start stop).guard? stream stage =
      if stage = 0 ∧ start ≤ stream ∧ stream < stop then
        (t.guard? stream stage).map fun _ => .emptyLastWord t.outputKeep.length
      else t.guard? stream stage := by
  simp only [skipEmpty]
  by_cases hRange : start < stop
  · simp only [guard?, hRange, if_true, List.getElem?_mapIdx]
    cases t.guards[stream]? with
    | none => simp
    | some row =>
        by_cases hSkipped : start ≤ stream ∧ stream < stop
        · by_cases hStage : stage = 0
          · subst hStage
            cases row <;> simp [hSkipped]
          · simp [hSkipped, hStage, Ne.symm hStage]
        · have hKept : (decide (start ≤ stream) && decide (stream < stop)) = false := by
            simpa using hSkipped
          simp [hSkipped, hKept]
  · rw [if_neg hRange, if_neg (by omega)]

theorem meets_idle (state nextState : Nat) (last : Bool) (lookahead : List Nat)
    (h : ∀ stream stage, (registers stream stage).keep.length = wordBytes) :
    (idle state nextState last wordBytes lookahead).Meets registers := by
  intro stream stage guard hGuard
  obtain ⟨row, hRow, hGuard⟩ := guard?_eq_some.mp hGuard
  rw [idle, List.getElem?_map] at hRow
  obtain ⟨l, _, rfl⟩ := Option.map_eq_some_iff.mp hRow
  rw [List.getElem?_replicate] at hGuard
  split at hGuard
  · cases hGuard
    exact RegisterGuard.accepts_dontCare (h stream stage)
  · cases hGuard

namespace Meets

/-- A changed guard still has to accept the register that the original accepts. -/
theorem modifyGuard (h : t.Meets registers) {stream stage : Nat}
    {f : RegisterGuard → RegisterGuard}
    (hf : ∀ guard, guard.accepts (registers stream stage) →
      (f guard).accepts (registers stream stage)) :
    (t.modifyGuard stream stage f).Meets registers := by
  intro stream' stage' guard hGuard
  by_cases hSame : stream = stream' ∧ stage = stage'
  · obtain ⟨rfl, rfl⟩ := hSame
    rw [guard?_modifyGuard_self] at hGuard
    obtain ⟨original, hOriginal, rfl⟩ := Option.map_eq_some_iff.mp hGuard
    exact hf original (h stream stage original hOriginal)
  · rw [guard?_modifyGuard_of_ne t f hSame] at hGuard
    exact h stream' stage' guard hGuard

theorem deliver (h : t.Meets registers) (sources : List (Option Source)) :
    (t.deliver sources).Meets registers := h

theorem maskAbsent (h : t.Meets registers) : t.maskAbsent.Meets registers := h

theorem requireKeep (h : t.Meets registers) {stream stage byte : Nat} {bit : BitGuard}
    (hBit : ∀ value, (registers stream stage).keep[byte]? = some value → bit.accepts value) :
    (t.requireKeep stream stage byte bit).Meets registers :=
  h.modifyGuard fun _ hAccepts => RegisterGuard.accepts_set hAccepts hBit

theorem requireSource (h : t.Meets registers) {source : Source}
    (hPresent : (registers source.stream source.stage).keep[source.byte]? = some true)
    (hLast : (registers source.stream source.stage).last = source.inLastWord) :
    (t.requireSource source).Meets registers := by
  apply h.modifyGuard
  intro guard hAccepts
  have hSet : ({ guard with keep := guard.keep.set source.byte .one } : RegisterGuard).accepts
      (registers source.stream source.stage) :=
    RegisterGuard.accepts_set hAccepts fun value hValue => by
      cases hPresent.symm.trans hValue
      rfl
  obtain ⟨hKeep, hRelict, _⟩ := RegisterGuard.accepts_iff.mp hSet
  exact RegisterGuard.accepts_iff.mpr ⟨hKeep, hRelict, by
    rw [BitGuard.accepts_exactly, hLast, beq_self_eq_true]⟩

theorem requireFirst (h : t.Meets registers) {source : Source}
    (hAbsent : ∀ byte < source.byte, ∀ value,
      (registers source.stream source.stage).keep[byte]? = some value → value = false) :
    (t.requireFirst source).Meets registers :=
  h.modifyGuard fun _ hAccepts => RegisterGuard.accepts_mapIdx hAccepts hAbsent

theorem requireRelict (h : t.Meets registers) {source : Source} {relict : Bool}
    (hRelict : (registers source.stream source.stage).relict = relict) :
    (t.requireRelict source relict).Meets registers := by
  apply h.modifyGuard
  intro guard hAccepts
  split
  · obtain ⟨hKeep, _, hLast⟩ := RegisterGuard.accepts_iff.mp hAccepts
    exact RegisterGuard.accepts_iff.mpr ⟨hKeep, by
      rw [BitGuard.accepts_exactly, hRelict, beq_self_eq_true], hLast⟩
  · exact hAccepts

theorem skipEmpty (h : t.Meets registers) {start stop : Nat}
    (hEmpty : ∀ stream, start ≤ stream → stream < stop →
      registers stream 0 = Register.emptyFrame t.outputKeep.length) :
    (t.skipEmpty start stop).Meets registers := by
  intro stream stage guard hGuard
  rw [guard?_skipEmpty] at hGuard
  split at hGuard
  · next hSkipped =>
      obtain ⟨rfl, hStart, hStop⟩ := hSkipped
      obtain ⟨_, _, rfl⟩ := Option.map_eq_some_iff.mp hGuard
      rw [hEmpty stream hStart hStop]
      exact RegisterGuard.accepts_emptyLastWord _
  · exact h stream stage guard hGuard

end Meets

/-- Registers enable a transition of their shape if they meet its guards. -/
theorem isEnabled_of_meets {lookahead : List Nat} {rows : List (List Register)}
    (hShaped : t.Shaped wordBytes lookahead)
    (hRows : rows.map List.length = lookahead.map (· + 1))
    (hRegisters : ∀ (stream stage : Nat) row register, rows[stream]? = some row →
      row[stage]? = some register → registers stream stage = register)
    (h : t.Meets registers) : t.isEnabled rows := by
  have hLengths : t.guards.map List.length = lookahead.map (· + 1) := by
    have := congrArg (List.map List.length) hShaped.guards
    simpa [guardShape, registerShape, Function.comp_def] using this
  have hSame := map_eq_map_iff_forall₂.mp (hLengths.trans hRows.symm)
  apply isEnabled_iff.mpr (forall₂_of_getElem? hSame.length_eq _)
  intro stream guards row hGuards hRow
  apply forall₂_of_getElem? (rel_of_forall₂ hSame hGuards hRow)
  intro stage guard register hGuard hReg
  rw [← hRegisters stream stage row register hRow hReg]
  exact h stream stage guard (guard?_eq_some.mpr ⟨guards, hGuards, hGuard⟩)

/-- Registers that enable a transition meet its guards. -/
theorem meets_of_isEnabled {rows : List (List Register)} (h : t.isEnabled rows) :
    t.Meets (registerIn rows) := by
  intro stream stage guard hGuard
  obtain ⟨guards, hGuards, hStage⟩ := guard?_eq_some.mp hGuard
  obtain ⟨row, hRow, hAccepts⟩ := exists_rel_of_forall₂ (isEnabled_iff.mp h) hGuards
  obtain ⟨register, hRegister, hAccepts⟩ := exists_rel_of_forall₂ hAccepts hStage
  rw [registerIn, hRow, Option.bind_some, hRegister, Option.getD_some]
  exact hAccepts

end Transition

namespace Setting

variable {setting : Setting} {registers : Nat → Nat → Register} {before after : Option Source}
  {atEnd : Bool} {source : Source} {t : Transition} {lookahead : List Nat}

/-- Whether a byte is the last one that its stream contributes, given the byte after it. -/
def Closes (after : Option Source) (source : Source) : Prop :=
  ∀ a, after = some a → a.stream ≠ source.stream

/-- What the registers have to show for a driven byte, given the bytes before and after it. -/
structure Fits (setting : Setting) (registers : Nat → Nat → Register)
    (before after : Option Source) (atEnd : Bool) (source : Source) : Prop where
  /-- The byte is in its register. -/
  present : (registers source.stream source.stage).keep[source.byte]? = some true
  last : (registers source.stream source.stage).last = source.inLastWord
  /-- The first byte of a stream in the output word is the first one of its register. -/
  first : (∀ b, before = some b → b.stream ≠ source.stream) → ∀ byte < source.byte, ∀ value,
    (registers source.stream source.stage).keep[byte]? = some value → value = false
  /-- Streams between the byte and the next one send empty frames. -/
  skipped : Closes after source → ∀ stream, source.stream < stream →
    stream < after.elim setting.streamCount Source.stream →
    registers stream 0 = .emptyFrame setting.wordBytes
  /-- The next byte is in its register if it starts its stream. -/
  followed : ∀ a, after = some a → a.stream ≠ source.stream →
    (registers a.stream a.stage).keep[a.byte]? = some true
  /-- Nothing follows the last byte of a stream in its register. -/
  closed : Closes after source → source.inLastWord = true ∧
    ∀ value, (registers source.stream source.stage).keep[source.byte + 1]? = some value →
      value = false
  /-- A stream that goes on in the next output word has its next byte in a register. -/
  continued : ¬Closes after source → atEnd = true →
    if source.byte = setting.wordBytes - 1 then
      source.inLastWord = false ∧
        (registers source.stream (source.stage + 1)).keep[0]? = some true
    else
      (∃ a, after = some a ∧ a.stream = source.stream ∧ a.byte = source.byte + 1) ∧
        (registers source.stream source.stage).keep[source.byte + 1]? = some true

theorem all_iff_closes :
    (after.all (·.stream ≠ source.stream)) = true ↔ Closes after source := by
  cases after <;> simp [Closes]

theorem meets_close (hShaped : t.Shaped setting.wordBytes lookahead) (h : t.Meets registers)
    (hFits : setting.Fits registers before after atEnd source) (hCloses : Closes after source) :
    (setting.close after source t).Meets registers := by
  have hSkipped : (t.skipEmpty (source.stream + 1)
      (after.elim setting.streamCount Source.stream)).Meets registers :=
    h.skipEmpty fun stream hStart hStop => by
      rw [hShaped.outputKeep]
      exact hFits.skipped hCloses stream hStart hStop
  simp only [close]
  cases after with
  | none => exact hSkipped
  | some a =>
      dsimp only
      split
      · apply hSkipped.requireKeep
        intro value hValue
        cases (hFits.followed a rfl (hCloses a rfl)).symm.trans hValue
        rfl
      · exact hSkipped

/-- Whether the byte behind a source is there. It is in the next register if the source ends
its own. -/
def trailing? (setting : Setting) (registers : Nat → Nat → Register) (source : Source) :
    Option Bool :=
  let endsRegister := source.byte == setting.wordBytes - 1
  (registers source.stream (if endsRegister then source.stage + 1 else source.stage)).keep[
    (source.byte + 1) % setting.wordBytes]?

theorem trailing?_of_ne (hWidth : source.byte < setting.wordBytes)
    (hInside : source.byte ≠ setting.wordBytes - 1) :
    setting.trailing? registers source =
      (registers source.stream source.stage).keep[source.byte + 1]? := by
  rw [trailing?, Nat.mod_eq_of_lt (show source.byte + 1 < setting.wordBytes by omega),
    beq_eq_false_iff_ne.mpr hInside]
  rfl

theorem trailing?_of_eq (hWidth : source.byte < setting.wordBytes)
    (hEnds : source.byte = setting.wordBytes - 1) :
    setting.trailing? registers source =
      (registers source.stream (source.stage + 1)).keep[0]? := by
  rw [trailing?, show source.byte + 1 = setting.wordBytes by omega, Nat.mod_self,
    beq_iff_eq.mpr hEnds]
  rfl

/-- A stream that goes on in the next output word has a byte behind the last one that it
contributes, and if this is in its last word, then the next output word starts with it. -/
theorem trailing?_of_continued (hWidth : source.byte < setting.wordBytes)
    (hFits : setting.Fits registers before after true source) (hOpen : ¬Closes after source) :
    setting.trailing? registers source = some true ∧
      (source.inLastWord = true → source.byte ≠ setting.wordBytes - 1 ∧
        after.any (fun a => a.stream == source.stream && a.byte == source.byte + 1) = true) := by
  have hContinued := hFits.continued hOpen rfl
  split at hContinued
  · next hEnds =>
      refine ⟨(trailing?_of_eq hWidth hEnds).trans hContinued.2, fun hLast => ?_⟩
      cases hLast.symm.trans hContinued.1
  · next hInside =>
      obtain ⟨⟨a, rfl, hStream, hByte⟩, hKeep⟩ := hContinued
      refine ⟨(trailing?_of_ne hWidth hInside).trans hKeep, fun _ => ⟨hInside, ?_⟩⟩
      rw [Option.any_some, hStream, hByte, beq_self_eq_true, beq_self_eq_true]
      rfl

theorem meets_requireTrailing (hWidth : source.byte < setting.wordBytes) (h : t.Meets registers)
    (hFits : setting.Fits registers before after atEnd source) {closes continues : Bool}
    (hCloses : closes = true ↔ Closes after source)
    (hContinues : continues = (atEnd && source.byte != setting.wordBytes - 1 &&
      after.any fun a => a.stream == source.stream && a.byte == source.byte + 1)) :
    (setting.requireTrailing closes continues atEnd source t).Meets registers := by
  unfold requireTrailing
  dsimp only
  split
  · next hRequired =>
      simp only [Bool.and_eq_true, Bool.or_eq_true, Bool.not_eq_true', Bool.and_eq_false_iff]
        at hRequired
      obtain ⟨hNeeded, hNotEnd⟩ := hRequired
      apply h.requireKeep
      intro value hValue
      have hTrailing : setting.trailing? registers source = some value := hValue
      rw [BitGuard.accepts_exactly]
      by_cases hClosed : Closes after source
      · -- The stream ends here: its last word holds no further byte.
        obtain ⟨hLast, hAbsent⟩ := hFits.closed hClosed
        have hInside : source.byte ≠ setting.wordBytes - 1 := by
          intro hEnd
          simp [hLast, hCloses.mpr hClosed, hEnd] at hNotEnd
        have hNo : continues = false := by
          rw [hContinues]
          cases after with
          | none => simp
          | some a => simp [hClosed a rfl]
        rw [trailing?_of_ne hWidth hInside] at hTrailing
        rw [hAbsent value hTrailing, hLast, hNo]
        rfl
      · have hEnd : atEnd = true := by
          rcases hNeeded with (hc | hc) | hc
          · exact absurd (hCloses.mp hc) hClosed
          · rw [hContinues] at hc
            simp only [Bool.and_eq_true] at hc
            exact hc.1.1
          · exact hc
        subst hEnd
        obtain ⟨hThere, hLastWord⟩ := trailing?_of_continued hWidth hFits hClosed
        cases hThere.symm.trans hTrailing
        cases hLast : source.inLastWord with
        | false => rfl
        | true =>
            obtain ⟨hInside, hNext⟩ := hLastWord hLast
            simp [hContinues, hInside, hNext]
  · exact h

/-- Registers that fit a driven byte meet what it requires. -/
theorem meets_drive (hShaped : t.Shaped setting.wordBytes lookahead) (h : t.Meets registers)
    (hWidth : source.byte < setting.wordBytes)
    (hFits : setting.Fits registers before after atEnd source) :
    (setting.drive before after atEnd source t).Meets registers := by
  have hSource := h.requireSource hFits.present hFits.last
  have hClosed : (if (after.all (·.stream ≠ source.stream)) = true then
      setting.close after source (t.requireSource source) else t.requireSource source).Meets
      registers := by
    split
    · next hCloses =>
        exact meets_close (hShaped.requireSource source) hSource hFits (all_iff_closes.mp hCloses)
    · exact hSource
  simp only [drive]
  refine meets_requireTrailing hWidth ?_ hFits all_iff_closes rfl
  split
  · next hOpens =>
      refine hClosed.requireFirst (hFits.first fun b hBefore => ?_)
      simpa [hBefore] using hOpens
  · exact hClosed

/-- Source of the byte before an output byte of a word. -/
def sourceBefore (before : Option Source) (sources : List (Option Source)) : Nat → Option Source
  | 0 => before
  | outputByte + 1 => sources[outputByte]?.join

/-- Registers that fit every driven byte of a word meet what the word requires. -/
theorem meets_driveAll {following : Option Source} {sources : List (Option Source)}
    (hShaped : t.Shaped setting.wordBytes lookahead) (h : t.Meets registers)
    (hFits : ∀ outputByte source, sources[outputByte]? = some (some source) →
      source.byte < setting.wordBytes ∧
        setting.Fits registers (sourceBefore before sources outputByte)
          (sources[outputByte + 1]?.getD following) (outputByte + 1 == sources.length) source) :
    (setting.driveAll following before sources t).Meets registers := by
  induction sources generalizing before t with
  | nil => exact h
  | cons cell rest ih =>
      have hRest : ∀ outputByte source, rest[outputByte]? = some (some source) →
          source.byte < setting.wordBytes ∧
            setting.Fits registers (sourceBefore cell rest outputByte)
              (rest[outputByte + 1]?.getD following) (outputByte + 1 == rest.length) source := by
        intro outputByte source hSource
        obtain ⟨hWidth, hFit⟩ := hFits (outputByte + 1) source (by simpa using hSource)
        refine ⟨hWidth, ?_⟩
        have hBefore : sourceBefore before (cell :: rest) (outputByte + 1) =
            sourceBefore cell rest outputByte := by
          cases outputByte <;> rfl
        simpa [hBefore] using hFit
      cases cell with
      | none => exact ih hShaped h hRest
      | some source =>
          obtain ⟨hWidth, hFit⟩ := hFits 0 source rfl
          have hAtEnd : (0 + 1 == (some source :: rest).length) = rest.isEmpty := by
            cases rest <;> simp
          rw [hAtEnd, List.getElem?_cons_succ, ← List.head?_eq_getElem?] at hFit
          exact ih (setting.shaped_drive _ _ _ source hShaped)
            (meets_drive hShaped h hWidth hFit) hRest

/-- The transition of a context before any byte is masked that has to be absent. -/
def driven (setting : Setting) (context : Context) : Transition :=
  setting.driveAll context.following none context.sources
    ((Transition.idle context.state context.nextState context.last setting.wordBytes
      setting.lookahead).deliver context.sources)

/-- Registers that fit every byte of a word meet the guards on its bytes. -/
theorem meets_driven {context : Context}
    (hSources : context.sources.length = setting.wordBytes)
    (hWidths : ∀ stream stage, (registers stream stage).keep.length = setting.wordBytes)
    (hFits : ∀ outputByte source, context.sources[outputByte]? = some (some source) →
      source.byte < setting.wordBytes ∧
        setting.Fits registers (sourceBefore none context.sources outputByte)
          (context.sources[outputByte + 1]?.getD context.following)
          (outputByte + 1 == context.sources.length) source) :
    (setting.driven context).Meets registers := by
  have hShaped := (Transition.shaped_idle context.state context.nextState context.last
    setting.wordBytes setting.lookahead).deliver hSources
  have hIdle := Transition.meets_idle context.state context.nextState context.last
    setting.lookahead hWidths
  exact meets_driveAll hShaped (hIdle.deliver context.sources) hFits

/-- Registers that also tell whether the word resumes an input word meet all its guards. -/
theorem meets_transition {context : Context} (hDriven : (setting.driven context).Meets registers)
    (hRelict : ∀ source, (context.sources.filterMap id).head? = some source →
      (registers source.stream source.stage).relict = context.resumes) :
    (setting.transition context).Meets registers := by
  simp only [transition]
  split
  · next source hFirst => exact hDriven.maskAbsent.requireRelict (hRelict source hFirst)
  · exact hDriven.maskAbsent

end Setting

end StreamSplice
