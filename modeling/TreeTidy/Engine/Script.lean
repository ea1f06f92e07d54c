import TreeTidy.Document.Basic
import TreeTidy.Engine.Rule
import TreeTidy.Numeral
/-!
Scripts: rules described by data. A script tests a node by its kind, its name, its type and the pass,
and then makes one edit with nodes that are built of documents.
-/
namespace TreeTidy

namespace Edit

mutual

/-- Makes a node and all below it; a node that does not fit breaks the program off. -/
def build : Doc → Edit NodeId
  | .node kind span ty slots list =>
    (buildSlots slots).andThen fun slots =>
    (buildList list).andThen fun list =>
    make ⟨kind, span, ty, slots, list⟩

def buildSlots : List (Option Doc) → Edit (List (Option NodeId))
  | [] => done []
  | none :: slots => (buildSlots slots).andThen fun ns => done (none :: ns)
  | some d :: slots =>
    (build d).andThen fun n => (buildSlots slots).andThen fun ns => done (some n :: ns)

def buildList : List Doc → Edit (List NodeId)
  | [] => done []
  | d :: list => (build d).andThen fun n => (buildList list).andThen fun ns => done (n :: ns)

end

mutual

/-- Makes a node and all below it, as far as the nodes fit. -/
def tryBuild : Doc → Edit (Option NodeId)
  | .node kind span ty slots list =>
    (tryBuildSlots slots).andThen fun
      | none => done none
      | some slots => (tryBuildList list).andThen fun
        | none => done none
        | some list => create ⟨kind, span, ty, slots, list⟩ fun r => done r.toOption

def tryBuildSlots : List (Option Doc) → Edit (Option (List (Option NodeId)))
  | [] => done (some [])
  | none :: slots => (tryBuildSlots slots).andThen fun ns => done (ns.map (none :: ·))
  | some d :: slots =>
    (tryBuild d).andThen fun
      | none => done none
      | some n => (tryBuildSlots slots).andThen fun ns => done (ns.map (some n :: ·))

def tryBuildList : List Doc → Edit (Option (List NodeId))
  | [] => done (some [])
  | d :: list =>
    (tryBuild d).andThen fun
      | none => done none
      | some n => (tryBuildList list).andThen fun ns => done (ns.map (n :: ·))

end

/-- Copies nodes one after the other. -/
def copyAll : List NodeId → Edit (List NodeId)
  | [] => done []
  | n :: ns => clone n fun m => (copyAll ns).andThen fun ms => done (m :: ms)

end Edit

namespace Script

/-- What a node has to be; a test that is not given does not matter. -/
structure Guard where
  tag : Option String
  name : Option String
  type : Option String
  pass : Option Nat
  deriving DecidableEq, Repr

def Guard.admits (g : Guard) (v : View) (n : NodeId) : Bool :=
  let kind := v.tree.kind n
  g.tag.all (· == kind.tag)
    && g.name.all (fun s => kind.name? == some s)
    && g.type.all (fun s => match v.typeOf n with
      | .resolved ty => ty.text == s
      | _ => false)
    && g.pass.all (· == v.pass)

/-- The edit that a script makes at a node. -/
inductive Action
  | breakOff (message : String)
  | remove
  | unwrap (slot : Nat)
  | replace (new : Doc)
  | tryReplace (new : Doc)
  /-- Puts the node in parentheses, unless it is. -/
  | wrap
  | insertBefore (new : Doc)
  | insertAfter (new : Doc)
  | splice (count : Nat) (replacements : List Doc)
  /-- Puts nodes in a row below the root into one block. -/
  | merge (count : Nat)
  /-- Adds one to a literal. -/
  | increment
  deriving Repr

def Action.perform (v : View) (n : NodeId) : Action → Edit Bool
  | breakOff message => .broken message
  | remove => .remove n
  | unwrap slot =>
    match v.tree.slot? n slot with
    | some child => .replace n child
    | none => .done false
  | replace d => (Edit.build d).andThen fun new => .replace n new
  | tryReplace d =>
    (Edit.tryBuild d).andThen fun
      | some new => .replace n new
      | none => .done false
  | wrap =>
    if (v.tree.parent? n).any fun p => v.tree.kind p == .paren then .done false
    else .clone n fun copy =>
      (Edit.make ⟨.paren, v.tree.span n, none, [some copy], []⟩).andThen fun new => .replace n new
  | insertBefore d => (Edit.build d).andThen fun new => .insertBefore n new
  | insertAfter d => (Edit.build d).andThen fun new => .insertAfter n new
  | splice count ds => (Edit.buildList ds).andThen fun news => .splice n count news
  | merge count =>
    if v.tree.parent? n ≠ v.tree.root then .done false
    else match v.tree.window? n count with
      | none => .done false
      | some window => (Edit.copyAll window).andThen fun copies =>
        (Edit.make ⟨.block, Span.none, none, [], copies⟩).andThen fun block =>
          .splice n count [block]
  | increment =>
    match v.tree.kind n with
    | .literal .int text =>
      match Numeral.below? (Numeral.bound 32) text with
      | some k => (Edit.make ⟨.literal .int (toString (k + 1)), v.tree.span n, none, [], []⟩).andThen
          fun new => .replace n new
      | none => .done false
    | _ => .done false

end Script

inductive Script
  /-- Does nothing, and may claim otherwise. -/
  | idle (claim : Bool)
  /-- Makes an edit where the guard admits it, and reports the outcome or a fixed value. With
  `breaksAfter` it breaks off once the edit was made. -/
  | act (guard : Script.Guard) (action : Script.Action) (report : Option Bool) (breaksAfter : Bool)
  deriving Repr

namespace Script

def perform (n : NodeId) : Script → Edit Bool
  | idle claim => .done claim
  | act guard action report breaksAfter => .look fun v =>
    if !guard.admits v n then .done false
    else (action.perform v n).andThen fun made =>
      if made && breaksAfter then .broken (v.rule ++ " after rewriting")
      else .done (report.getD made)

end Script

def Rule.ofScript (info : RuleInfo) (granularity : Granularity) (s : Script) : Rule where
  info := info
  granularity := granularity
  act := s.perform

end TreeTidy
