import TreeTidy.Types.ClassTable
/-! The library classes that are known without being stated by a unit. -/
namespace TreeTidy.Library

open ClassInfo

private def string : TypeDesc := .string
private def boolean : TypeDesc := .boolean
private def int : TypeDesc := .int
private def void : TypeDesc := .primitive .void
private def char : TypeDesc := .primitive .char
private def long : TypeDesc := .primitive .long
private def double : TypeDesc := .primitive .double

/-- A class with methods that are not static. -/
private def withMethods (c : ClassInfo) (methods : List (String × TypeDesc)) : ClassInfo :=
  methods.foldl (fun c m => c.method m.1 m.2) c

private def withStatics (c : ClassInfo) (methods : List (String × TypeDesc)) : ClassInfo :=
  methods.foldl (fun c m => c.staticMethod m.1 m.2) c

/-- The keyword with a capital letter. -/
private def capitalized (word : String) : String :=
  match word.toList with
  | [] => ""
  | c :: cs => String.ofList (c.toUpper :: cs)

/-- The method of a wrapper class that reads its primitive from text. -/
private def parserName : Primitive → String
  | .int => "parseInt"
  | p => "parse" ++ capitalized p.keyword

/-- The wrapper class of a primitive. -/
private def wrapperClass (p : Primitive) (name : String) : ClassInfo :=
  let isNumber := p.isNumeric && p != .char
  let c := ((ofName name).extend (if isNumber then "java.lang.Number" else "java.lang.Object")).extend
    "java.lang.Comparable"
  let c := withMethods c
    [("toString", string), ("equals", boolean), ("hashCode", int),
      (p.keyword ++ "Value", .primitive p)]
  let c := c.staticMethod "valueOf" (.ofClass name)
  if isNumber || p == .boolean then c.staticMethod (parserName p) (.primitive p) else c

private def language : List ClassInfo :=
  [withMethods (ofName "java.lang.Object")
    [("toString", string), ("equals", boolean), ("hashCode", int),
      ("getClass", .ofClass "java.lang.Class")],
  (ofName "java.lang.Class").extend "java.lang.Object",
  withMethods (ofName "java.lang.CharSequence").asInterface
    [("length", int), ("charAt", char), ("toString", string)],
  withStatics
    (withMethods
      ((((ofName "java.lang.String").extend "java.lang.Object").extend
        "java.lang.CharSequence").extend "java.lang.Comparable")
      [("length", int), ("isEmpty", boolean), ("equals", boolean), ("equalsIgnoreCase", boolean),
        ("contains", boolean), ("startsWith", boolean), ("endsWith", boolean), ("indexOf", int),
        ("lastIndexOf", int), ("charAt", char), ("substring", string), ("trim", string),
        ("toLowerCase", string), ("toUpperCase", string), ("replace", string),
        ("replaceAll", string), ("concat", string), ("intern", string), ("toString", string),
        ("compareTo", int)])
    [("valueOf", string), ("format", string), ("join", string)],
  withMethods
    (((ofName "java.lang.StringBuilder").extend "java.lang.Object").extend "java.lang.CharSequence")
    [("append", .ofClass "java.lang.StringBuilder"), ("length", int), ("toString", string)],
  withMethods (ofName "java.lang.Comparable").asInterface [("compareTo", int)],
  withMethods ((ofName "java.lang.Number").extend "java.lang.Object")
    [("intValue", int), ("longValue", long), ("doubleValue", double)]]

private def wrappers : List ClassInfo :=
  (Coded.all (α := Primitive)).filterMap fun p => p.boxedClass?.map (wrapperClass p)

private def collections : List ClassInfo :=
  [withMethods (ofName "java.lang.Iterable").asInterface
    [("forEach", void), ("iterator", .ofClass "java.util.Iterator")],
  withMethods ((ofName "java.util.Collection").asInterface.extend "java.lang.Iterable")
    [("size", int), ("isEmpty", boolean), ("contains", boolean), ("add", boolean),
      ("remove", boolean), ("clear", void), ("stream", .ofClass "java.util.stream.Stream")]]
  ++ [("java.util.List", "java.util.Collection"), ("java.util.Set", "java.util.Collection"),
      ("java.util.Queue", "java.util.Collection"), ("java.util.Deque", "java.util.Queue")].map
    (fun (name, parent) => (ofName name).asInterface.extend parent)
  ++ [("java.util.ArrayList", "java.util.List"), ("java.util.LinkedList", "java.util.List"),
      ("java.util.HashSet", "java.util.Set"), ("java.util.LinkedHashSet", "java.util.Set"),
      ("java.util.TreeSet", "java.util.Set"), ("java.util.ArrayDeque", "java.util.Deque")].map
    (fun (name, parent) => ((ofName name).extend "java.lang.Object").extend parent)
  ++ [withMethods (ofName "java.util.Map").asInterface
    [("size", int), ("isEmpty", boolean), ("containsKey", boolean), ("containsValue", boolean),
      ("clear", void)]]
  ++ ["java.util.HashMap", "java.util.LinkedHashMap", "java.util.TreeMap"].map
    (fun name => ((ofName name).extend "java.lang.Object").extend "java.util.Map")

private def utilities : List ClassInfo :=
  [withStatics (((ofName "java.util.Objects").extend "java.lang.Object").sinceLevel 7)
    [("equals", boolean), ("hash", int), ("hashCode", int), ("isNull", boolean),
      ("nonNull", boolean), ("toString", string)],
  withMethods (((ofName "java.util.Optional").extend "java.lang.Object").sinceLevel 8)
    [("isPresent", boolean), ("isEmpty", boolean), ("ifPresent", void)],
  withMethods ((ofName "java.util.stream.Stream").asInterface.sinceLevel 8)
    [("forEach", void), ("forEachOrdered", void), ("map", .ofClass "java.util.stream.Stream"),
      ("filter", .ofClass "java.util.stream.Stream"), ("count", long)]]

def classes : ClassTable :=
  ClassTable.empty.insertAll (language ++ wrappers ++ collections ++ utilities)

end TreeTidy.Library
