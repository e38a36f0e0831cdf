import BlockDocument.Text.Blank
import BlockDocument.Toml.Scalar
import BlockDocument.Toml.Table

/-!
# Reading TOML

Reads a text into a table. Any fault makes the whole text unreadable, and no difference is made
between faults.
-/

namespace BlockDocument.Toml

/-- The text after blanks and a comment, up to the end of the line. -/
def skipComment (cs : List Char) : Option (List Char) :=
  match cs.dropWhile isSpace with
  | '#' :: rest =>
    if (rest.takeWhile (· != '\n')).all isPlain then some (rest.dropWhile (· != '\n')) else none
  | rest => some rest

/-- The text after blanks, comments and ends of lines, which may stand between the parts of an array or
of a table between braces, and between statements. The flag says whether a comment has begun. -/
def skipLines : Bool → List Char → Option (List Char)
  | _, [] => some []
  | true, c :: rest =>
    if c = '\n' then skipLines false rest
    else if isPlain c then skipLines true rest
    else none
  | false, c :: rest =>
    if isSpace c || c == '\n' then skipLines false rest
    else if c = '#' then skipLines true rest
    else some (c :: rest)

/-- The text after the rest of a line, where nothing but a comment may stand. -/
def endLine (cs : List Char) : Option (List Char) :=
  match skipComment cs with
  | some ('\n' :: rest) => some rest
  | some [] => some []
  | _ => none

/-- The characters of keys without quotes. -/
def isKeyChar (c : Char) : Bool := c.isAlphanum || c == '_' || c == '-'

/-- Reads one key. -/
def readKey (fuel : Nat) : List Char → Option (String × List Char)
  | '"' :: rest => readLine '"' fuel [] rest
  | '\'' :: rest => readLine '\'' fuel [] rest
  | cs =>
    let key := cs.takeWhile isKeyChar
    if key.isEmpty then none else some (String.ofList key, cs.dropWhile isKeyChar)

/-- Arrays and tables between braces nest no deeper than this, and no path has more keys. -/
def nestingBound : Nat := 80

/-- Reads keys with points between them, and the blanks around them. -/
def readPath : Nat → List String → List Char → Option (List String × List Char)
  | 0, _, _ => none
  | fuel + 1, read, cs =>
    match readKey fuel (cs.dropWhile isSpace) with
    | none => none
    | some (key, rest) =>
      if nestingBound ≤ read.length then none
      else
        match rest.dropWhile isSpace with
        | '.' :: rest => readPath fuel (key :: read) rest
        | rest => some ((key :: read).reverse, rest)

mutual

/-- Reads a value, which may nest no deeper than `depth`. -/
def readValue : Nat → Nat → List Char → Option (Value × List Char)
  | 0, _, _ => none
  | fuel + 1, depth, cs =>
    match depth, cs with
    | _, '"' :: rest => (readString '"' fuel rest).map fun (s, rest) => (.string s, rest)
    | _, '\'' :: rest => (readString '\'' fuel rest).map fun (s, rest) => (.string s, rest)
    | depth + 1, '[' :: rest => readItems fuel depth [] rest
    | depth + 1, '\x7b' :: rest => readEntries fuel depth [] rest
    | _, cs =>
      let (word, rest) := takeScalar cs
      (scalar? word).map (·, rest)

/-- Reads the items of an array up to its closing bracket. Those read so far are kept last first. -/
def readItems : Nat → Nat → List Value → List Char → Option (Value × List Char)
  | 0, _, _, _ => none
  | fuel + 1, depth, read, cs =>
    match skipLines false cs with
    | none => none
    | some (']' :: rest) => some (.array read.reverse, rest)
    | some cs =>
      match readValue fuel depth cs with
      | none => none
      | some (v, rest) =>
        match skipLines false rest with
        | some (',' :: rest) => readItems fuel depth (v :: read) rest
        | some (']' :: rest) => some (.array (v :: read).reverse, rest)
        | _ => none

/-- Reads the entries of a table between braces up to its closing brace. Lines may end between any two
parts of an entry except the keys of its path. -/
def readEntries : Nat → Nat → Entries → List Char → Option (Value × List Char)
  | 0, _, _, _ => none
  | fuel + 1, depth, entries, cs =>
    match skipLines false cs with
    | none => none
    | some ('\x7d' :: rest) => some (.table (Entries.toValues entries), rest)
    | some cs =>
      match readPath fuel [] cs with
      | none => none
      | some (path, rest) =>
        match skipLines false rest with
        | some ('=' :: rest) =>
          match (skipLines false rest).bind (readValue fuel depth) with
          | none => none
          | some (v, rest) =>
            match entries.assign v path, skipLines false rest with
            | some entries, some (',' :: rest) => readEntries fuel depth entries rest
            | some entries, some ('\x7d' :: rest) => some (.table (Entries.toValues entries), rest)
            | _, _ => none
        | _ => none

end

/-- A value and the path to which it is assigned. -/
abbrev Assignment := List String × Value

/-- Reads assignments up to the next header or the end. Those read so far are kept last first. -/
def readAssignments : Nat → List Assignment → List Char → Option (List Assignment × List Char)
  | 0, _, _ => none
  | fuel + 1, read, cs =>
    match skipLines false cs with
    | none => none
    | some [] => some (read.reverse, [])
    | some ('[' :: rest) => some (read.reverse, '[' :: rest)
    | some cs =>
      match readPath fuel [] cs with
      | some (path, '=' :: rest) =>
        match readValue fuel nestingBound (rest.dropWhile isSpace) with
        | none => none
        | some (v, rest) =>
          match endLine rest with
          | some rest => readAssignments fuel ((path, v) :: read) rest
          | none => none
      | _ => none

/-- Assignments under a header. -/
structure Section where
  /-- Whether the header adds to an array of tables. -/
  isItem : Bool
  /-- The path of the table that the header names. -/
  path : List String
  assignments : List Assignment

/-- Reads a header and the end of its line. -/
def readHeader (fuel : Nat) (cs : List Char) : Option (Bool × List String × List Char) :=
  match cs with
  | '[' :: '[' :: rest =>
    match readPath fuel [] rest with
    | some (path, ']' :: ']' :: rest) => (endLine rest).map fun rest => (true, path, rest)
    | _ => none
  | '[' :: rest =>
    match readPath fuel [] rest with
    | some (path, ']' :: rest) => (endLine rest).map fun rest => (false, path, rest)
    | _ => none
  | _ => none

/-- Reads the headers of a text, each with its assignments. Those read so far are kept last first. -/
def readSections : Nat → List Section → List Char → Option (List Section)
  | 0, _, _ => none
  | _, read, [] => some read.reverse
  | fuel + 1, read, cs =>
    match readHeader fuel cs with
    | none => none
    | some (isItem, path, rest) =>
      match readAssignments fuel [] rest with
      | none => none
      | some (assignments, rest) => readSections fuel (⟨isItem, path, assignments⟩ :: read) rest

/-- Carries out assignments on a table. -/
def assignAll (assignments : List Assignment) (entries : Entries) : Option Entries :=
  assignments.foldlM (fun entries a => entries.assign a.2 a.1) entries

/-- Carries out the assignments of a section on the table that it names. -/
def Section.addTo (root : Entries) (s : Section) : Option Entries :=
  if s.isItem then root.extend (assignAll s.assignments) s.path
  else root.enter (assignAll s.assignments) s.path

/-- The text with every line ended by a line feed alone. -/
def normalizeLines : List Char → List Char → List Char
  | done, [] => done.reverse
  | done, '\r' :: '\n' :: rest => normalizeLines ('\n' :: done) rest
  | done, c :: rest => normalizeLines (c :: done) rest

/-- The mark of byte order that may stand before a text. -/
def byteOrderMark : Char := '\ufeff'

/-- The table that a text is. -/
def parse? (text : List Char) : Option (List (String × Value)) := do
  let cs := normalizeLines [] (if text.head? = some byteOrderMark then text.drop 1 else text)
  let (assignments, rest) ← readAssignments (cs.length + 2) [] cs
  let sections ← readSections (rest.length + 2) [] rest
  let root ← assignAll assignments []
  let root ← sections.foldlM Section.addTo root
  pure (Entries.toValues root)

end BlockDocument.Toml
