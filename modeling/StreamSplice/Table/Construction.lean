import StreamSplice.Context
import StreamSplice.Table.Basic

/-! Construction of the join machine. Every context becomes one transition, guarded
by everything that can be known of the registers when its output word is assembled.
The state of the machine is the least advanced stream that contributes to the word,
so there are exactly as many states as streams. -/
namespace StreamSplice

open Std

/-- What all transitions of a machine share. -/
structure Setting where
  wordBytes : Nat
  streamCount : Nat
  /-- Number of pipeline stages beyond the first of each stream. -/
  lookahead : List Nat
  /-- Whether each stream may contribute a frame without bytes. -/
  emptiable : List Bool

namespace Transition

/-- Drive every output byte that has a source; read and consume these sources. -/
def deliver (t : Transition) (sources : List (Option Source)) : Transition :=
  let driven := sources.filterMap id
  let feeds := fun stream => driven.any (·.stream == stream)
  let consumed := TreeSet.ofList (driven.map Source.selection) compare
  { t with
    keepMasks := t.keepMasks.mapIdx fun stream masks =>
      if feeds stream then
        masks.mapIdx fun stage mask => mask.mapIdx fun byte kept =>
          kept && !consumed.contains ⟨stream, stage, byte⟩
      else masks
    reads := t.reads.mapIdx fun stream read => read || feeds stream
    outputKeep := sources.map Option.isSome
    outputMux := sources.map (Option.map Source.selection) }

/-- Require the register byte that feeds a driven output byte. -/
def requireSource (t : Transition) (source : Source) : Transition :=
  t.modifyGuard source.stream source.stage fun g =>
    { g with keep := g.keep.set source.byte .one, last := .exactly source.inLastWord }

/-- Require that no byte precedes `source` in its register. -/
def requireFirst (t : Transition) (source : Source) : Transition :=
  t.modifyGuard source.stream source.stage fun g =>
    { g with keep := g.keep.mapIdx fun byte bit => if byte < source.byte then .zero else bit }

/-- Drop the bytes that are required to be absent along with the consumed ones. -/
def maskAbsent (t : Transition) : Transition :=
  { t with keepMasks := List.zipWith (List.zipWith fun g mask =>
      List.zipWith (fun bit kept => kept && bit ≠ .zero) g.keep mask) t.guards t.keepMasks }

/-- Tell a remainder from a fresh word, in the register of the first output byte. Only
a last word needs this: any other remainder is continued in the next register. -/
def requireRelict (t : Transition) (source : Source) (relict : Bool) : Transition :=
  t.modifyGuard source.stream source.stage fun g =>
    if g.last = .one then { g with relict := .exactly relict } else g

end Transition

namespace Setting

/-- The last byte of a stream is followed by that of a later stream, or by none. The streams
in between contribute empty frames; a later one that may be empty is not. -/
def close (setting : Setting) (after : Option Source) (source : Source) (t : Transition) :
    Transition :=
  let t := t.skipEmpty (source.stream + 1) (after.elim setting.streamCount Source.stream)
  match after with
  | some a =>
      if setting.emptiable[a.stream]?.getD false then t.requireKeep a.stream a.stage a.byte .one
      else t
  | none => t

/-- Presence of the byte after the last one that a word takes from a stream. -/
def requireTrailing (setting : Setting) (closes continues atEnd : Bool) (source : Source)
    (t : Transition) : Transition :=
  let endsRegister := source.byte == setting.wordBytes - 1
  if (closes || continues || atEnd) && !(source.inLastWord && closes && endsRegister) then
    t.requireKeep source.stream (if endsRegister then source.stage + 1 else source.stage)
      ((source.byte + 1) % setting.wordBytes) (.exactly (!source.inLastWord || continues))
  else t

/-- Extend a transition by one driven output byte. `before` and `after` are the sources
of the adjacent output bytes, the latter in the next output word if the byte is at the
end of its word. -/
def drive (setting : Setting) (before after : Option Source) (atEnd : Bool)
    (source : Source) (t : Transition) : Transition :=
  let opens := before.all (·.stream ≠ source.stream)
  let closes := after.all (·.stream ≠ source.stream)
  let continues := atEnd && source.byte != setting.wordBytes - 1 &&
    after.any fun a => a.stream == source.stream && a.byte == source.byte + 1
  let t := t.requireSource source
  let t := if closes then setting.close after source t else t
  let t := if opens then t.requireFirst source else t
  setting.requireTrailing closes continues atEnd source t

/-- Extend a transition by output bytes, given the source of the byte before them and the
source of the first byte of the next output word. -/
def driveAll (setting : Setting) (following : Option Source) :
    (before : Option Source) → List (Option Source) → Transition → Transition
  | _, [], t => t
  | _, none :: rest, t => driveAll setting following none rest t
  | before, some source :: rest, t =>
      driveAll setting following (some source) rest
        (setting.drive before (rest.head?.getD following) rest.isEmpty source t)

/-- Transition that assembles a word in a context. -/
def transition (setting : Setting) (context : Context) : Transition :=
  let idle := Transition.idle context.state context.nextState context.last
    setting.wordBytes setting.lookahead
  let t := setting.driveAll context.following none context.sources
    (idle.deliver context.sources)
  let t := t.maskAbsent
  match (context.sources.filterMap id).head? with
  | some source => t.requireRelict source context.resumes
  | none => t

/-- Number of leading streams that may contribute empty frames. -/
def emptyPrefix (setting : Setting) : Nat := (setting.emptiable.takeWhile id).length

/-- A transition of state `state` as a transition of state 0 that skips the streams
before `state`. -/
def fromStart (state : Nat) (t : Transition) : Transition :=
  { t with state := 0 }.skipEmpty 0 state

/-- The transition that joins empty frames only. -/
def allEmpty (setting : Setting) : Transition :=
  (Transition.idle 0 0 true setting.wordBytes setting.lookahead).skipEmpty 0 setting.streamCount

/-- Transitions of state `state`. To those of its own contexts, state 0 adds the
transitions of every state that is reached by skipping empty leading streams, and, if
every stream may be empty, the transition that joins empty frames only. -/
def stateTransitions (setting : Setting) (transitions : List Transition) (state : Nat) :
    List Transition :=
  let own := fun s => transitions.filter (·.state == s)
  if state = 0 ∧ 0 < setting.emptyPrefix then
    let reachable := List.range' 1 (min (setting.emptyPrefix + 1) setting.streamCount - 1)
    let ends := if setting.emptyPrefix = setting.streamCount then [setting.allEmpty] else []
    own 0 ++ reachable.flatMap (fun s => (own s).map (fromStart s)) ++ ends
  else own state

end Setting

namespace Table

/-- Transitions of one state have to exclude each other. The first overlapping pair, by
state and then by the order of the transitions, is reported. -/
def requireDeterministic : (state : Nat) → List (SortedSet Transition) → Except Violation Unit
  | _, [] => .ok ()
  | state, transitions :: rest =>
      match overlap? transitions.toList with
      | some (first, second) => .error (.nonDeterministic state first second)
      | none => requireDeterministic (state + 1) rest

/-- Every transition has to lead to a state with transitions. -/
def requireLive (table : Table) : Except Violation Unit :=
  match table.items.find? fun t => (table.transitions t.nextState).isEmpty with
  | some t => .error (.deadEnd t.state t.nextState)
  | none => .ok ()

/-- The table of the machine for a set of contexts, before any check. -/
def ofContexts (setting : Setting) (contexts : SortedSet Context) : Table :=
  let transitions := contexts.toList.map setting.transition
  { wordBytes := setting.wordBytes
    lookahead := setting.lookahead
    states := (List.range setting.streamCount).map fun state =>
      .ofList (setting.stateTransitions transitions state) }

/-- Build the join machine of `streamCount` streams. `emptiable` tells, per stream,
whether a frame may hold no bytes at all. -/
def build (wordBytes streamCount : Nat) (inversion : Inversion) (emptiable : List Bool) :
    Except Violation Table := do
  if inversion.streamCount ≠ streamCount then
    throw (.streamCountMismatch streamCount inversion.streamCount)
  if emptiable.length ≠ streamCount then
    throw (.streamCountMismatch streamCount emptiable.length)
  if inversion.wordBytes ≠ wordBytes then
    throw (.wordWidthMismatch wordBytes inversion.wordBytes)
  let setting : Setting := ⟨wordBytes, streamCount, inversion.lookahead, emptiable⟩
  let table := ofContexts setting (← inversion.contexts)
  requireDeterministic 0 table.states
  table.requireLive
  return table

end Table

end StreamSplice
