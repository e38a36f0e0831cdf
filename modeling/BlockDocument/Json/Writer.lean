import BlockDocument.Json.Value

/-!
# Writing JSON values

`Value.compact` and `Value.indented` say what the two layouts of a value are. The functions of this
module write the same texts from front to back onto a list that holds what was written, last
character first, so a long array takes no more room than a short one.
-/

namespace BlockDocument.Json.Value

/-- Writes characters. -/
def onto (written cs : List Char) : List Char := cs.foldl (fun w c => c :: w) written

theorem onto_eq (written cs : List Char) : onto written cs = cs.reverse ++ written := by
  induction cs generalizing written with
  | nil => rfl
  | cons c rest ih => simp [onto, List.foldl_cons] at ih ⊢

mutual

/-- Writes a value on one line. -/
def writeCompact (written : List Char) : Value → List Char
  | array [] => onto written ['[', ']']
  | array (v :: rest) => writeCompactItems (writeCompact ('[' :: written) v) rest
  | object [] => onto written ['\x7b', '\x7d']
  | object ((key, v) :: rest) =>
    writeCompactMembers (writeCompact (':' :: onto ('\x7b' :: written) (quote key)) v) rest
  | null => onto written (compact null)
  | bool b => onto written (compact (bool b))
  | number n => onto written n.text
  | string s => onto written (quote s)

/-- Writes the further items of an array and its end. -/
def writeCompactItems (written : List Char) : List Value → List Char
  | [] => ']' :: written
  | v :: rest => writeCompactItems (writeCompact (',' :: written) v) rest

/-- Writes the further members of an object and its end. -/
def writeCompactMembers (written : List Char) : List (String × Value) → List Char
  | [] => '\x7d' :: written
  | (key, v) :: rest =>
    writeCompactMembers (writeCompact (':' :: onto (',' :: written) (quote key)) v) rest

end

mutual

theorem writeCompact_eq (written : List Char) :
    ∀ v : Value, writeCompact written v = v.compact.reverse ++ written
  | array [] => by simp [writeCompact, compact, onto_eq]
  | array (v :: rest) => by
    simp [writeCompact, compact, writeCompactItems_eq _ rest, writeCompact_eq _ v]
  | object [] => by simp [writeCompact, compact, onto_eq]
  | object ((key, v) :: rest) => by
    simp [writeCompact, compact, writeCompactMembers_eq _ rest, writeCompact_eq _ v, onto_eq]
  | null => by simp [writeCompact, onto_eq]
  | bool b => by simp [writeCompact, onto_eq]
  | number n => by simp [writeCompact, compact, onto_eq]
  | string s => by simp [writeCompact, compact, onto_eq]

theorem writeCompactItems_eq (written : List Char) :
    ∀ vs : List Value, writeCompactItems written vs = (compactItems vs).reverse ++ written
  | [] => by simp [writeCompactItems, compactItems]
  | v :: rest => by
    simp [writeCompactItems, compactItems, writeCompactItems_eq _ rest, writeCompact_eq _ v]

theorem writeCompactMembers_eq (written : List Char) :
    ∀ ms : List (String × Value),
      writeCompactMembers written ms = (compactMembers ms).reverse ++ written
  | [] => by simp [writeCompactMembers, compactMembers]
  | (key, v) :: rest => by
    simp [writeCompactMembers, compactMembers, writeCompactMembers_eq _ rest, writeCompact_eq _ v,
      onto_eq]

end

mutual

/-- Writes a value with every item and member on a line of its own. -/
def writeIndented (level : Nat) (written : List Char) : Value → List Char
  | array [] => onto written ['[', ']']
  | array (v :: rest) =>
    writeIndentedItems level
      (writeIndented (level + 1) (onto ('[' :: written) (newLine (level + 1))) v) rest
  | object [] => onto written ['\x7b', '\x7d']
  | object ((key, v) :: rest) =>
    writeIndentedMembers level
      (writeIndented (level + 1)
        (' ' :: ':' :: onto (onto ('\x7b' :: written) (newLine (level + 1))) (quote key)) v) rest
  | null => onto written (compact null)
  | bool b => onto written (compact (bool b))
  | number n => onto written n.text
  | string s => onto written (quote s)

/-- Writes the further items of an array and its end. -/
def writeIndentedItems (level : Nat) (written : List Char) : List Value → List Char
  | [] => ']' :: onto written (newLine level)
  | v :: rest =>
    writeIndentedItems level
      (writeIndented (level + 1) (onto (',' :: written) (newLine (level + 1))) v) rest

/-- Writes the further members of an object and its end. -/
def writeIndentedMembers (level : Nat) (written : List Char) : List (String × Value) → List Char
  | [] => '\x7d' :: onto written (newLine level)
  | (key, v) :: rest =>
    writeIndentedMembers level
      (writeIndented (level + 1)
        (' ' :: ':' :: onto (onto (',' :: written) (newLine (level + 1))) (quote key)) v) rest

end

mutual

theorem writeIndented_eq (level : Nat) (written : List Char) :
    ∀ v : Value, writeIndented level written v = (v.indented level).reverse ++ written
  | array [] => by simp [writeIndented, indented, onto_eq]
  | array (v :: rest) => by
    simp [writeIndented, indented, writeIndentedItems_eq _ _ rest, writeIndented_eq _ _ v, onto_eq]
  | object [] => by simp [writeIndented, indented, onto_eq]
  | object ((key, v) :: rest) => by
    simp [writeIndented, indented, writeIndentedMembers_eq _ _ rest, writeIndented_eq _ _ v,
      onto_eq]
  | null => by simp [writeIndented, indented, compact, onto_eq]
  | bool true => by simp [writeIndented, indented, compact, onto_eq]
  | bool false => by simp [writeIndented, indented, compact, onto_eq]
  | number n => by simp [writeIndented, indented, onto_eq]
  | string s => by simp [writeIndented, indented, onto_eq]

theorem writeIndentedItems_eq (level : Nat) (written : List Char) :
    ∀ vs : List Value,
      writeIndentedItems level written vs = (indentedItems level vs).reverse ++ written
  | [] => by simp [writeIndentedItems, indentedItems, onto_eq]
  | v :: rest => by
    simp [writeIndentedItems, indentedItems, writeIndentedItems_eq _ _ rest,
      writeIndented_eq _ _ v, onto_eq]

theorem writeIndentedMembers_eq (level : Nat) (written : List Char) :
    ∀ ms : List (String × Value),
      writeIndentedMembers level written ms = (indentedMembers level ms).reverse ++ written
  | [] => by simp [writeIndentedMembers, indentedMembers, onto_eq]
  | (key, v) :: rest => by
    simp [writeIndentedMembers, indentedMembers, writeIndentedMembers_eq _ _ rest,
      writeIndented_eq _ _ v, onto_eq]

end

/-- The value on one line, without blanks, as a string. -/
def compactText (v : Value) : String := String.ofList (writeCompact [] v).reverse

/-- The value in the indented layout, as a string. -/
def indentedText (v : Value) : String := String.ofList (writeIndented 0 [] v).reverse

theorem toList_indentedText (v : Value) : v.indentedText.toList = v.indented 0 := by
  simp [indentedText, writeIndented_eq]

end BlockDocument.Json.Value
