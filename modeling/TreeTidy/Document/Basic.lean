import TreeTidy.Grammar.Layout
import TreeTidy.Grammar.Span
import TreeTidy.Types.ClassTable
/-!
Documents: a node with everything below it as one value. Documents are what is read and written;
they are also the view of a tree that its edits are described by.
-/
namespace TreeTidy

inductive Doc
  | node (kind : NodeKind) (span : Span) (ty : Option TypeDesc) (slots : List (Option Doc))
      (list : List Doc)
  deriving Repr, Inhabited

namespace Doc

def kind : Doc → NodeKind
  | node k _ _ _ _ => k

def span : Doc → Span
  | node _ s _ _ _ => s

def ty : Doc → Option TypeDesc
  | node _ _ t _ _ => t

def slots : Doc → List (Option Doc)
  | node _ _ _ ss _ => ss

def list : Doc → List Doc
  | node _ _ _ _ ds => ds

/-- The child in a slot. -/
def slot? (d : Doc) (i : Nat) : Option Doc := d.slots[i]?.join

/-- A document without a span and a type annotation. -/
def plain (kind : NodeKind) (slots : List (Option Doc)) (list : List Doc) : Doc :=
  node kind Span.none none slots list

/-- Drops the empty slots at the end. -/
def trimSlots (slots : List (Option Doc)) : List (Option Doc) :=
  (slots.reverse.dropWhile Option.isNone).reverse

mutual

/-- The number of nodes. -/
def size : Doc → Nat
  | node _ _ _ slots list => sizeSlots slots + sizeList list + 1

def sizeSlots : List (Option Doc) → Nat
  | [] => 0
  | none :: ss => sizeSlots ss
  | some d :: ss => size d + sizeSlots ss

def sizeList : List Doc → Nat
  | [] => 0
  | d :: ds => size d + sizeList ds

end

end Doc

/-- A source unit as a document. -/
structure UnitDoc where
  path : String
  level : Level
  classes : List ClassInfo
  root : Doc
  deriving Repr, Inhabited

end TreeTidy
