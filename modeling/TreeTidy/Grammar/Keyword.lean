import TreeTidy.Grammar.Coded
import TreeTidy.Grammar.Name
/-!
The closed word classes of declarations and types: primitive types with their wrapper classes,
modifiers, flavours of class declarations and sorts of literals.
-/
namespace TreeTidy

/-- Built-in types, and `void` for results of methods. -/
inductive Primitive
  | boolean | byte | short | char | int | long | float | double | void
  deriving DecidableEq, Repr, Inhabited

namespace Primitive

def keyword : Primitive → String
  | boolean => "boolean"
  | byte => "byte"
  | short => "short"
  | char => "char"
  | int => "int"
  | long => "long"
  | float => "float"
  | double => "double"
  | void => "void"

instance : Coded Primitive where
  all := [boolean, byte, short, char, int, long, float, double, void]
  code := keyword

/-- The primitive written by a keyword. -/
def ofKeyword? (word : String) : Option Primitive := Coded.ofCode? word

/-- The types of whole numbers, `char` with them; on these `==` compares values exactly. -/
def isIntegral : Primitive → Bool
  | byte | short | char | int | long => true
  | _ => false

def isNumeric : Primitive → Bool
  | float | double => true
  | p => p.isIntegral

/-- The simple name of the wrapper class; `void` has none. -/
def wrapper? : Primitive → Option String
  | boolean => some "Boolean"
  | byte => some "Byte"
  | short => some "Short"
  | char => some "Character"
  | int => some "Integer"
  | long => some "Long"
  | float => some "Float"
  | double => some "Double"
  | void => none

/-- The qualified name of the wrapper class. -/
def boxedClass? (p : Primitive) : Option String :=
  p.wrapper?.map ("java.lang." ++ ·)

/-- The primitive wrapped by a class, which may be named with or without its package. -/
def ofBoxedClass? (name : String) : Option Primitive :=
  if Name.isQualified name && !Name.startsWith "java.lang." name then none
  else (Coded.all (α := Primitive)).find? (fun p => p.wrapper? == some (Name.simpleName name))

end Primitive

/-- Modifiers of declarations. -/
inductive Modifier
  | publicMod | protectedMod | privateMod | abstractMod | staticMod | finalMod | defaultMod
  | synchronizedMod | nativeMod | transientMod | volatileMod | strictfpMod
  deriving DecidableEq, Repr, Inhabited

namespace Modifier

def keyword : Modifier → String
  | publicMod => "public"
  | protectedMod => "protected"
  | privateMod => "private"
  | abstractMod => "abstract"
  | staticMod => "static"
  | finalMod => "final"
  | defaultMod => "default"
  | synchronizedMod => "synchronized"
  | nativeMod => "native"
  | transientMod => "transient"
  | volatileMod => "volatile"
  | strictfpMod => "strictfp"

instance : Coded Modifier where
  all := [publicMod, protectedMod, privateMod, abstractMod, staticMod, finalMod, defaultMod,
    synchronizedMod, nativeMod, transientMod, volatileMod, strictfpMod]
  code := keyword

end Modifier

/-- Flavours of class declarations. -/
inductive ClassFlavour
  | plain | interface | enum | record
  deriving DecidableEq, Repr, Inhabited

namespace ClassFlavour

def keyword : ClassFlavour → String
  | plain => "class"
  | interface => "interface"
  | enum => "enum"
  | record => "record"

instance : Coded ClassFlavour where
  all := [plain, interface, enum, record]
  code := keyword

end ClassFlavour

/-- Sorts of literals. The text of a number or a boolean is its token; the text of a string or a
character is its content, without quotes and escapes. -/
inductive LiteralSort
  | int | long | float | double | char | string | boolean | null
  deriving DecidableEq, Repr, Inhabited

namespace LiteralSort

instance : Coded LiteralSort where
  all := [int, long, float, double, char, string, boolean, null]
  code
    | int => "int"
    | long => "long"
    | float => "float"
    | double => "double"
    | char => "char"
    | string => "string"
    | boolean => "boolean"
    | null => "null"

end LiteralSort

end TreeTidy
