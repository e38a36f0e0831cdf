import BlockDocument.Attribute
import BlockDocument.Edge
import BlockDocument.Json.Source
import BlockDocument.Time.Rfc3339

/-!
# Decoding the parts of saved documents

Takes typed values out of the tree of a JSON text. A record may be an object or an array of its
fields in order. Objects may have members that no field asks for, as long as no field occurs twice.
-/

namespace BlockDocument.Archive

open BlockDocument.Json BlockDocument.Number

-- Powers are those of the core library, whatever else is imported.
attribute [local instance (high)] instPowNat

/-- The fields of a record that are there, by name. -/
abbrev Fields := List (String × Source)

/-- The members of an object, if all their keys are texts. -/
def members? (members : List (Option String × Source)) : Option Fields :=
  members.mapM fun m => m.1.map (·, m.2)

/-- The fields among the entries of an object, if none of them occurs twice. -/
def pick? {α : Type} (names : List String) (entries : List (String × α)) :
    Option (List (String × α)) :=
  let known := entries.filter fun e => names.contains e.1
  if names.all fun name => (known.map Prod.fst).count name ≤ 1 then some known else none

/-- The fields of a record. In an array, the last `spare` fields may be absent. -/
def record? (names : List String) (spare : Nat) : Source → Option Fields
  | .object ms => (members? ms).bind (pick? names)
  | .array items =>
    if items.length ≤ names.length ∧ names.length ≤ items.length + spare then
      some (names.zip items)
    else none
  | _ => none

namespace Fields

/-- A field that has to be there. -/
def required {α : Type} (fields : Fields) (name : String) (decode : Source → Option α) : Option α :=
  (fields.lookup name).bind decode

/-- A field that has a value when it is absent. -/
def withDefault {α : Type} (fields : Fields) (name : String) (value : α)
    (decode : Source → Option α) : Option α :=
  match fields.lookup name with
  | some source => decode source
  | none => some value

/-- A field that may be absent or null. -/
def optional {α : Type} (fields : Fields) (name : String) (decode : Source → Option α) :
    Option (Option α) :=
  match fields.lookup name with
  | some .null => some none
  | some source => (decode source).map some
  | none => some none

end Fields

/-- A text. -/
def text? : Source → Option String
  | .string s => s
  | _ => none

/-- An id. -/
def id? (source : Source) : Option BlockId := (text? source).map BlockId.mk

/-- An array. -/
def list? {α : Type} (decode : Source → Option α) : Source → Option (List α)
  | .array items => items.mapM decode
  | _ => none

/-- A natural number of at most 32 bits. -/
def word32? : Source → Option Nat
  | .number n =>
    match n.value? with
    | some (.natural k) => if k < 2 ^ (32 : Nat) then some k else none
    | _ => none
  | _ => none

/-- One of several names: as a text, or as the only key of an object with the value null. -/
def named? {α : Type} (parse? : String → Option α) : Source → Option α
  | .string s => s.bind parse?
  | .object [(some key, .null)] => parse? key
  | _ => none

/-- A point in time. -/
def time? (source : Source) : Option Time.Instant :=
  (text? source).bind fun s => Time.Instant.parse? s.toList

/-- The nearest number of a format to a JSON number. -/
def toBinary (f : Format) : Json.Number → Binary f
  | .natural n => .ofNat n
  | .negative n => .negate (.ofNat n)
  | .double x => x.convert f
  | .single x => x.convert f

/-- A number of a format. -/
def binary? (f : Format) : Source → Option (Binary f)
  | .number n => n.value?.map (toBinary f)
  | _ => none

/-- The value of an attribute. -/
def attribute? : Source → Option Attribute
  | .bool b => some (.flag b)
  | .string s => s.map .text
  | source => (binary? binary64 source).map .number

/-- Attributes. Of attributes with the same name the last one counts. -/
def attributes? : Source → Option Attributes
  | .object ms => do
    let entries ← members? ms
    let decoded ← entries.mapM fun e => (attribute? e.2).map (e.1, ·)
    pure (.ofList decoded)
  | _ => none

end BlockDocument.Archive
