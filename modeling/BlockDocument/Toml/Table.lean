import BlockDocument.Toml.Value

/-!
# TOML tables under construction

A text builds its table statement by statement. How a table came about decides what may still be added
to it: a table with a header of its own has no second one, and neither has one that dotted keys went
through; dotted keys go into no table with a header of its own.
-/

namespace BlockDocument.Toml

/-- How a table came about. -/
inductive Origin where
  /-- By a header of its own. -/
  | header
  /-- By the header of a table inside it. -/
  | passage
  /-- By a dotted key, or by a header inside it before a dotted key went through it. -/
  | dotted
  deriving DecidableEq, Repr

/-- An entry of a table under construction. -/
inductive Node where
  | value (v : Value)
  | table (origin : Origin) (entries : List (String × Node))
  /-- An array of tables, the last one first. It has at least one. -/
  | tables (last : List (String × Node)) (before : List (List (String × Node)))

/-- The entries of a table under construction. -/
abbrev Entries := List (String × Node)

namespace Entries

/-- Puts an entry in place of the one with the same key, or at the end. -/
def put (key : String) (n : Node) : Entries → Entries
  | [] => [(key, n)]
  | (key', n') :: rest =>
    if key' = key then (key, n) :: rest else (key', n') :: put key n rest

/-- Assigns a value to a dotted key. The tables on the way are made where they are missing, and none may
have a header of its own. From then on those on the way count as made by dotted keys. Of an array of
tables the last one is meant, and a value does not go right into it. -/
def assign (v : Value) : List String → Entries → Option Entries
  | [], _ => none
  | [key], entries =>
    match entries.lookup key with
    | none => some (entries.put key (.value v))
    | some _ => none
  | key :: rest, entries =>
    match entries.lookup key with
    | none => (assign v rest []).map fun sub => entries.put key (.table .dotted sub)
    | some (.value _) => none
    | some (.table origin sub) =>
      if origin = .header then none
      else (assign v rest sub).map fun sub => entries.put key (.table .dotted sub)
    | some (.tables last before) =>
      if rest.length = 1 then none
      else (assign v rest last).map fun last => entries.put key (.tables last before)

/-- Opens the table that a header names and fills it. The tables on the way are made where they are
missing; of an array of tables the last one is meant. -/
def enter (fill : Entries → Option Entries) : List String → Entries → Option Entries
  | [], _ => none
  | [key], entries =>
    match entries.lookup key with
    | none => (fill []).map fun sub => entries.put key (.table .header sub)
    | some (.table .passage sub) => (fill sub).map fun sub => entries.put key (.table .header sub)
    | some _ => none
  | key :: rest, entries =>
    match entries.lookup key with
    | none => (enter fill rest []).map fun sub => entries.put key (.table .passage sub)
    | some (.value _) => none
    | some (.table origin sub) =>
      (enter fill rest sub).map fun sub => entries.put key (.table origin sub)
    | some (.tables last before) =>
      (enter fill rest last).map fun last => entries.put key (.tables last before)

/-- Adds a table to the array of tables that a header names and fills it. -/
def extend (fill : Entries → Option Entries) : List String → Entries → Option Entries
  | [], _ => none
  | [key], entries =>
    match entries.lookup key with
    | none => (fill []).map fun sub => entries.put key (.tables sub [])
    | some (.tables last before) =>
      (fill []).map fun sub => entries.put key (.tables sub (last :: before))
    | some _ => none
  | key :: rest, entries =>
    match entries.lookup key with
    | none => (extend fill rest []).map fun sub => entries.put key (.table .passage sub)
    | some (.value _) => none
    | some (.table origin sub) =>
      (extend fill rest sub).map fun sub => entries.put key (.table origin sub)
    | some (.tables last before) =>
      (extend fill rest last).map fun last => entries.put key (.tables last before)

end Entries

mutual

/-- The value that a finished entry is. -/
def Node.toValue : Node → Value
  | .value v => v
  | .table _ entries => .table (Entries.toValues entries)
  | .tables last before => .array (Entries.toTables [.table (Entries.toValues last)] before)

/-- The entries of a finished table. -/
def Entries.toValues : List (String × Node) → List (String × Value)
  | [] => []
  | (key, n) :: rest => (key, n.toValue) :: Entries.toValues rest

/-- The tables of a finished array, put before those that follow. -/
def Entries.toTables : List Value → List (List (String × Node)) → List Value
  | after, [] => after
  | after, entries :: before =>
    Entries.toTables (.table (Entries.toValues entries) :: after) before

end

end BlockDocument.Toml
