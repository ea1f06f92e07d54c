import TreeTidy.Grammar.Coded
import TreeTidy.Json.Read
/-!
Reading values of a known type from JSON.

Objects and arrays that are read may nest 127 deep; `room` counts the levels that are left. What is
skipped is not looked at. A record may be an object, in which unknown fields are skipped unless the
record is closed and no known field is given twice, or the array of its fields in order.
-/
namespace TreeTidy.Json

/-- The levels of objects and arrays that a whole text has. -/
def roomOfText : Nat := 127

/-- Refuses a value of the wrong type. A string or a number that cannot be read is malformed. -/
def refuse {α : Type} : Json → Except Refusal α
  | str none => .error .malformed
  | num ds => .error (if Number.outOfRange ds then .malformed else .unsuited)
  | _ => .error .unsuited

def toText : Json → Except Refusal String
  | str (some s) => .ok s
  | v => refuse v

def toBool : Json → Except Refusal Bool
  | bool b => .ok b
  | v => refuse v

/-- A whole number below `bound`. -/
def toNatBelow (bound : Nat) : Json → Except Refusal Nat
  | num ds =>
    match Number.nat? ds with
    | some n => if n < bound then .ok n else refuse (num ds)
    | none => refuse (num ds)
  | v => refuse v

/-- A whole number of 16 bits. -/
def toNat16 (v : Json) : Except Refusal Nat := toNatBelow (Numeral.bound 16) v

/-- A whole number of 64 bits. -/
def toNat64 (v : Json) : Except Refusal Nat := toNatBelow (Numeral.bound 64) v

/-- `null` or a value. -/
def toOption {α : Type} (d : Json → Except Refusal α) : Json → Except Refusal (Option α)
  | null => .ok none
  | v => (d v).map some

/-- One level further in. -/
def enter : Nat → Except Refusal Nat
  | 0 => .error .malformed
  | room + 1 => .ok room

/-- The items of an array, each read with the room inside it. -/
def toList {α : Type} (room : Nat) (d : Nat → Json → Except Refusal α) :
    Json → Except Refusal (List α)
  | arr vs => do
    let room ← enter room
    vs.mapM (d room)
  | v => refuse v

/-- One of a closed set of words, also as the only field of an object with an empty value. -/
def toCoded {α : Type} [Coded α] : Json → Except Refusal α
  | str (some s) => found s
  | obj [(some s, null)] => found s
  | obj [(some s, obj [])] => found s
  | v => refuse v
where
  found (s : String) : Except Refusal α :=
    match Coded.ofCode? s with
    | some a => .ok a
    | none => .error .unsuited

/-- The values given for the fields of a record. -/
abbrev Given := List (String × Json)

namespace Given

/-- A field that has to be given. -/
def required {α : Type} (g : Given) (name : String) (d : Json → Except Refusal α) :
    Except Refusal α :=
  match g.lookup name with
  | some v => d v
  | none => .error .unsuited

/-- A field that has a value of its own when it is not given. -/
def withDefault {α : Type} (g : Given) (name : String) (otherwise : α)
    (d : Json → Except Refusal α) : Except Refusal α :=
  match g.lookup name with
  | some v => d v
  | none => .ok otherwise

end Given

/-- How a record is read. -/
structure RecordForm where
  /-- Unknown fields are refused. -/
  closed : Bool
  /-- What an array with too many items is refused for. -/
  surplus : Refusal
  deriving DecidableEq, Repr

def RecordForm.open : RecordForm := ⟨false, .malformed⟩

def RecordForm.shut : RecordForm := ⟨true, .malformed⟩

/-- The form of records inside a value that was read as a whole before. -/
def RecordForm.inner : RecordForm := ⟨false, .unsuited⟩

/-- The keys of an object, all of which have to be texts. -/
def textKeys (fs : List (Option String × Json)) : Except Refusal Given :=
  fs.mapM fun (k, v) =>
    match k with
    | some k => .ok (k, v)
    | none => .error .malformed

/-- What a record gives for the fields of the given names. -/
def toRecord (form : RecordForm) (names : List String) : Json → Except Refusal Given
  | obj fs => do
    let given ← textKeys fs
    let known := given.filter (fun f => names.contains f.1)
    if names.any (fun n => decide (1 < (known.filter (·.1 == n)).length)) then .error .unsuited
    else if form.closed && decide (known.length < given.length) then .error .unsuited
    else pure known
  | arr vs => if names.length < vs.length then .error form.surplus else .ok (names.zip vs)
  | v => refuse v

/-- Whether the value can be read whole: it nests no deeper than the room, its strings and keys are
texts and its numbers are in range. -/
def isReadable (room : Nat) (v : Json) : Bool := decide (depth v ≤ room) && sound v
where
  sound : Json → Bool
    | str s => s.isSome
    | num ds => !Number.outOfRange ds
    | arr vs => soundItems vs
    | obj fs => soundFields fs
    | _ => true
  soundItems : List Json → Bool
    | [] => true
    | v :: vs => sound v && soundItems vs
  soundFields : List (Option String × Json) → Bool
    | [] => true
    | (k, v) :: fs => k.isSome && sound v && soundFields fs

/-- The variant that a tag names, by its word or, in a value read before, by its place. -/
def variantOf (variants : List String) (byPlace : Bool) : Json → Except Refusal String
  | str (some s) => if variants.contains s then .ok s else .error .unsuited
  | num ds =>
    match if byPlace then (Number.nat? ds).bind (variants[·]?) else none with
    | some s => .ok s
    | none => .error .unsuited
  | _ => .error .unsuited

/-- The variant of a tagged value, and the value without its tag: an object loses the field of the
tag, an array its first item. -/
def toTagged (tag : String) (variants : List String) (byPlace : Bool) :
    Json → Except Refusal (String × Json)
  | obj fs =>
    match fs.filter (·.1 == some tag) with
    | [(_, v)] => do
      let variant ← variantOf variants byPlace v
      pure (variant, obj (fs.filter (·.1 != some tag)))
    | _ => .error .unsuited
  | arr (v :: vs) => do
    let variant ← variantOf variants byPlace v
    pure (variant, arr vs)
  | _ => .error .unsuited

/-- A value read whole before its parts are. -/
def toWhole {α : Type} (room : Nat) (d : Json → Except Refusal α) (v : Json) : Except Refusal α :=
  if isReadable room v then d v else .error .malformed

end TreeTidy.Json
