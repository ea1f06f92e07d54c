import TreeTidy.Types.Desc
/-! What is known of a class or interface: its direct supertypes and the result types of its methods. -/
namespace TreeTidy

structure MethodInfo where
  name : String
  returns : TypeDesc
  isStatic : Bool
  deriving DecidableEq, Repr, Inhabited

structure ClassInfo where
  /-- The qualified name. -/
  name : String
  interface : Bool
  /-- The direct supertypes, by qualified name. -/
  supertypes : List String
  methods : List MethodInfo
  /-- The level a library class first appeared in. -/
  since : Option Level
  deriving DecidableEq, Repr, Inhabited

namespace ClassInfo

def ofName (name : String) : ClassInfo := ⟨name, false, [], [], none⟩

def asInterface (c : ClassInfo) : ClassInfo := { c with interface := true }

def extend (c : ClassInfo) (supertype : String) : ClassInfo :=
  { c with supertypes := c.supertypes ++ [supertype] }

def method (c : ClassInfo) (name : String) (returns : TypeDesc) : ClassInfo :=
  { c with methods := c.methods ++ [⟨name, returns, false⟩] }

def staticMethod (c : ClassInfo) (name : String) (returns : TypeDesc) : ClassInfo :=
  { c with methods := c.methods ++ [⟨name, returns, true⟩] }

def sinceLevel (c : ClassInfo) (level : Level) : ClassInfo := { c with since := some level }

/-- The first method of that name declared by the class itself. -/
def findMethod? (c : ClassInfo) (name : String) : Option MethodInfo :=
  c.methods.find? (·.name == name)

end ClassInfo

/-!
Answers of a resolver. A question can be answered, be known to have no answer, or stay open; only an
answer counts as knowledge.
-/

inductive Resolution (α : Type)
  | resolved (value : α)
  | absent
  | unknown
  deriving DecidableEq, Repr, Inhabited

namespace Resolution

variable {α β : Type}

def value? : Resolution α → Option α
  | resolved v => some v
  | _ => none

def isResolved : Resolution α → Bool
  | resolved _ => true
  | _ => false

def map (f : α → β) : Resolution α → Resolution β
  | resolved v => resolved (f v)
  | absent => absent
  | unknown => unknown

def bind (r : Resolution α) (f : α → Resolution β) : Resolution β :=
  match r with
  | resolved v => f v
  | absent => absent
  | unknown => unknown

/-- Nothing found leaves the question open. -/
def ofOption : Option α → Resolution α
  | some v => resolved v
  | none => unknown

/-- Only the answer yes counts. -/
def isTrue : Resolution Bool → Bool
  | resolved true => true
  | _ => false

end Resolution

/-!
Class tables: the classes known by qualified name, with one entry for a name. Supertypes may lead to
classes without an entry, and in circles; questions about inherited facts look at each class once.
-/

structure ClassTable where
  entries : List ClassInfo
  deriving Repr, Inhabited

namespace ClassTable

def empty : ClassTable := ⟨[]⟩

def get? (t : ClassTable) (name : String) : Option ClassInfo := t.entries.find? (·.name == name)

def contains (t : ClassTable) (name : String) : Bool := (t.get? name).isSome

def size (t : ClassTable) : Nat := t.entries.length

/-- Adds a class; it takes the place of an entry of the same name. -/
def insert (t : ClassTable) (c : ClassInfo) : ClassTable :=
  if t.contains c.name then ⟨t.entries.map fun e => if e.name = c.name then c else e⟩
  else ⟨t.entries ++ [c]⟩

def insertAll (t : ClassTable) (cs : List ClassInfo) : ClassTable := cs.foldl insert t

/-- The number of supertypes named by all entries together. -/
def edgeCount (t : ClassTable) : Nat := t.entries.foldl (fun k c => k + c.supertypes.length) 0

/-- Looks for a class among those still to be visited and their supertypes. `complete` says whether
all classes visited so far have an entry. A class is expanded once, so the number of all supertypes
bounds the steps. -/
def searchSupertype (t : ClassTable) (ancestor : String) :
    (fuel : Nat) → (seen pending : List String) → (complete : Bool) → Resolution Bool
  | 0, _, _, _ => .unknown
  | _ + 1, _, [], complete => if complete then .resolved false else .unknown
  | fuel + 1, seen, c :: pending, complete =>
    if c = ancestor then .resolved true
    else if seen.contains c then searchSupertype t ancestor fuel seen pending complete
    else match t.get? c with
      | some info =>
        searchSupertype t ancestor fuel (c :: seen) (info.supertypes ++ pending) complete
      | none => searchSupertype t ancestor fuel (c :: seen) pending false

/-- Whether a class is the other or inherits from it. -/
def isSubtype (t : ClassTable) (c ancestor : String) : Resolution Bool :=
  t.searchSupertype ancestor (t.edgeCount + 2) [] [c] true

/-- Looks for a method in the classes still to be visited and their supertypes. -/
def searchMethod (t : ClassTable) (method : String) :
    (fuel : Nat) → (seen pending : List String) → Option MethodInfo
  | 0, _, _ => none
  | _ + 1, _, [] => none
  | fuel + 1, seen, c :: pending =>
    if seen.contains c then searchMethod t method fuel seen pending
    else match t.get? c with
      | none => searchMethod t method fuel (c :: seen) pending
      | some info =>
        match info.findMethod? method with
        | some m => some m
        | none => searchMethod t method fuel (c :: seen) (info.supertypes ++ pending)

/-- A method of a class or of a supertype: supertypes are searched in the order they are named, each
with all above it before the next. -/
def findMethod? (t : ClassTable) (c method : String) : Option MethodInfo :=
  t.searchMethod method (t.edgeCount + 2) [] [c]

end ClassTable

end TreeTidy
