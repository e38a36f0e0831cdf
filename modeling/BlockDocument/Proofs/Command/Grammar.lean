import BlockDocument.Command.Parse

/-!
# The grammar of the command language

Which lists of tokens are programs, and what they denote. Each form relates the tokens of a phrase
to what it stands for, with nothing said about the order in which they are read or how far a reader
looks ahead. Keywords and the names of kinds and relations may be written in any case.
-/

namespace BlockDocument.Command

/-- A word that stands for a keyword. -/
def Token.Is (t : Token) (keyword : String) : Prop :=
  t.kind = .word ∧ Text.sameName t.text keyword = true

/-! ## Words -/

/-- A word that names a block. One of digits only is a short number, which has to be in range. -/
inductive IdForm (t : Token) : Reference → Prop
  | short (hword : t.kind = .word) (hne : t.text.toList ≠ [])
      (hdigits : ∀ c ∈ t.text.toList, c.isDigit = true)
      (hbound : Number.ofDigits t.text.toList < Reference.bound) :
      IdForm t (.short (Number.ofDigits t.text.toList))
  | long (hword : t.kind = .word) (hchars : ∀ c ∈ t.text.toList, Reference.isIdChar c = true)
      (hother : ∃ c ∈ t.text.toList, c.isDigit = false) : IdForm t (.long t.text)

/-- A word that is a position: digits, which may follow a plus sign. -/
inductive IndexForm (t : Token) : Nat → Prop
  | mk {digits : List Char} (hword : t.kind = .word)
      (htext : t.text.toList = digits ∨ t.text.toList = '+' :: digits) (hne : digits ≠ [])
      (hdigits : ∀ c ∈ digits, c.isDigit = true)
      (hbound : Number.ofDigits digits < Reader.positionBound) :
      IndexForm t (Number.ofDigits digits)

/-- The value of a property: a quoted text, or a word that is taken as a literal. -/
inductive ValueForm (t : Token) : Attribute → Prop
  | quoted (h : t.kind = .quoted) : ValueForm t (.text t.text)
  | literal (h : t.kind = .word) : ValueForm t (.ofLiteral t.text)

/-! ## Parts that may be left out -/

/-- A position behind its keyword. -/
inductive PositionForm (keyword : String) : List Token → Option Nat → Prop
  | none : PositionForm keyword [] none
  | some {k t : Token} {n : Nat} (hk : k.Is keyword) (hn : IndexForm t n) :
      PositionForm keyword [k, t] (some n)

/-- The name of a kind of content. -/
inductive KindForm : List Token → Option ContentKind → Prop
  | none : KindForm [] none
  | some {t : Token} {kind : ContentKind} (h : t.Is kind.name) : KindForm [t] (some kind)

/-- Properties, at least one, with commas between them. -/
inductive EntriesForm : List Token → List (String × Attribute) → Prop
  | last {key mark value : Token} {a : Attribute} (hkey : key.kind = .word)
      (hmark : mark.kind = .equals) (hvalue : ValueForm value a) :
      EntriesForm [key, mark, value] [(key.text, a)]
  | cons {key mark value comma : Token} {ts : List Token} {a : Attribute}
      {entries : List (String × Attribute)} (hkey : key.kind = .word) (hmark : mark.kind = .equals)
      (hvalue : ValueForm value a) (hcomma : comma.kind = .comma) (h : EntriesForm ts entries) :
      EntriesForm (key :: mark :: value :: comma :: ts) ((key.text, a) :: entries)

/-- Properties behind the keyword `WITH`. The last one of a name counts. -/
inductive PropertiesForm : List Token → Attributes → Prop
  | none : PropertiesForm [] ∅
  | some {k : Token} {ts : List Token} {entries : List (String × Attribute)} (hk : k.Is "WITH")
      (h : EntriesForm ts entries) : PropertiesForm (k :: ts) (.ofList entries)

/-- What becomes of the children of a deleted block. -/
inductive FateForm : List Token → Fate → Prop
  | none : FateForm [] .none
  | deleted {t : Token} (h : t.Is "CASCADE") : FateForm [t] .deleted
  | kept {t : Token} (h : t.Is "PRESERVE_CHILDREN") : FateForm [t] .kept

/-! ## Commands -/

/-- The mark of an assignment. -/
inductive MarkForm (t : Token) : Assignment → Prop
  | set (h : t.kind = .equals) : MarkForm t .set
  | add (h : t.kind = .plusEquals) : MarkForm t .add
  | remove (h : t.kind = .minusEquals) : MarkForm t .remove

/-- What an edit sets, and how. Without a path it sets the text. -/
inductive TargetForm : List Token → String × Assignment → Prop
  | none : TargetForm [] ("text", .set)
  | mark {t : Token} (h : t.kind = .equals) : TargetForm [t] ("text", .set)
  | path {path mark : Token} {op : Assignment} (hpath : path.kind = .word)
      (hmark : MarkForm mark op) : TargetForm [path, mark] (path.text, op)

/-- A content: a raw text up to the end of the command, or a quoted text that properties may
follow. -/
inductive ContentForm : List Token → String × Attributes → Prop
  | raw {t : Token} (h : t.kind = .raw) : ContentForm [t] (t.text, ∅)
  | quoted {t : Token} {ts : List Token} {properties : Attributes} (h : t.kind = .quoted)
      (hproperties : PropertiesForm ts properties) : ContentForm (t :: ts) (t.text, properties)

/-- A place that a block is moved to. -/
inductive PlaceForm : List Token → Place Reference → Prop
  | under {k id : Token} {ts : List Token} {parent : Reference} {position : Option Nat}
      (hk : k.Is "TO") (hid : IdForm id parent) (hposition : PositionForm "INDEX" ts position) :
      PlaceForm (k :: id :: ts) (.under parent position)
  | before {k id : Token} {anchor : Reference} (hk : k.Is "BEFORE") (hid : IdForm id anchor) :
      PlaceForm [k, id] (.before anchor)
  | after {k id : Token} {anchor : Reference} (hk : k.Is "AFTER") (hid : IdForm id anchor) :
      PlaceForm [k, id] (.after anchor)

/-- A command. -/
inductive CommandForm : List Token → Command → Prop
  | edit {k id set value : Token} {ts : List Token} {r : Reference} {target : String × Assignment}
      (hk : k.Is "EDIT") (hid : IdForm id r) (hset : set.Is "SET") (htarget : TargetForm ts target)
      (hvalue : value.kind = .quoted) :
      CommandForm (k :: id :: set :: (ts ++ [value])) (.edit r target.1 target.2 value.text)
  | append {k id mark : Token} {ts ts' ts'' : List Token} {parent : Reference}
      {kind : Option ContentKind} {position : Option Nat} {content : String × Attributes}
      (hk : k.Is "APPEND") (hid : IdForm id parent) (hkind : KindForm ts kind)
      (hposition : PositionForm "AT" ts' position) (hmark : mark.kind = .doubleColon)
      (hcontent : ContentForm ts'' content) :
      CommandForm (k :: id :: (ts ++ (ts' ++ mark :: ts'')))
        (.append parent kind position content.1 content.2)
  | delete {k id : Token} {ts : List Token} {r : Reference} {children : Fate} (hk : k.Is "DELETE")
      (hid : IdForm id r) (hchildren : FateForm ts children) :
      CommandForm (k :: id :: ts) (.delete r children)
  | move {k id : Token} {ts : List Token} {r : Reference} {place : Place Reference}
      (hk : k.Is "MOVE") (hid : IdForm id r) (hplace : PlaceForm ts place) :
      CommandForm (k :: id :: ts) (.move r place)
  | link {k id name id' : Token} {ts : List Token} {source target : Reference} {relation : Relation}
      {properties : Attributes} (hk : k.Is "LINK") (hsource : IdForm id source)
      (hrelation : name.Is relation.name) (htarget : IdForm id' target)
      (hproperties : PropertiesForm ts properties) :
      CommandForm (k :: id :: name :: id' :: ts) (.link source relation target properties)
  | unlink {k id name id' : Token} {source target : Reference} {relation : Relation}
      (hk : k.Is "UNLINK") (hsource : IdForm id source) (hrelation : name.Is relation.name)
      (htarget : IdForm id' target) : CommandForm [k, id, name, id'] (.unlink source relation target)
  | prune {k what : Token} (hk : k.Is "PRUNE") (hwhat : what.Is "unreachable") :
      CommandForm [k, what] .prune

/-! ## Programs -/

/-- Items with separators around them, and at least one between any two. -/
inductive Listing {α : Type} (item : List Token → α → Prop) : List Token → List α → Prop
  | nil {seps : List Token} (hseps : ∀ t ∈ seps, Reader.isSeparator t = true) : Listing item seps []
  | cons {seps ts rest : List Token} {a : α} {as : List α}
      (hseps : ∀ t ∈ seps, Reader.isSeparator t = true) (ha : item ts a)
      (hend : ∀ t ∈ rest.head?, Reader.isSeparator t = true) (h : Listing item rest as) :
      Listing item (seps ++ (ts ++ rest)) (a :: as)

/-- A command with the line of its first token. -/
inductive StatementForm : List Token → Statement → Prop
  | mk {t : Token} {ts : List Token} {c : Command} (h : CommandForm (t :: ts) c) :
      StatementForm (t :: ts) ⟨t.line, c⟩

/-- A command, or a group of commands in braces behind the keyword `ATOMIC`. -/
inductive BatchForm : List Token → Batch → Prop
  | single {ts : List Token} {s : Statement} (h : StatementForm ts s) : BatchForm ts (.single s)
  | atomic {k opening closing : Token} {ts : List Token} {members : List Statement}
      (hk : k.Is "ATOMIC") (hopening : opening.kind = .openBrace)
      (hmembers : Listing StatementForm ts members) (hclosing : closing.kind = .closeBrace) :
      BatchForm (k :: opening :: (ts ++ [closing])) (.atomic k.line members)

/-- A program. -/
def ProgramForm : List Token → Program → Prop := Listing BatchForm

end BlockDocument.Command
