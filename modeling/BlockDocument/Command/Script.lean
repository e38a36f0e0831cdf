import BlockDocument.Command.Parse
import BlockDocument.Command.Render
import BlockDocument.Role

/-!
# Composing programs

Programs that are put together command by command. Commands made here have no line of a text.
-/

namespace BlockDocument

namespace Attributes

/-- The properties of an addition with a label. -/
def withLabel (p : Attributes) (label : String) : Attributes := p.insert "label" (.text label)

/-- The properties of an addition with a role. -/
def withRole (p : Attributes) (role : Role) : Attributes := p.insert "role" (.text role.name)

/-- The properties of an addition with tags. -/
def withTags (p : Attributes) (tags : List String) : Attributes :=
  p.insert "tags" (.text (",".intercalate tags))

/-- The properties of an addition with a language. -/
def withLanguage (p : Attributes) (language : String) : Attributes :=
  p.insert "language" (.text language)

/-- The properties of an edge with a confidence. -/
def withConfidence (p : Attributes) (x : Number.Double) : Attributes :=
  p.insert "confidence" (.number x)

/-- The properties of an edge with a description. -/
def withDescription (p : Attributes) (description : String) : Attributes :=
  p.insert "description" (.text description)

end Attributes

namespace Program

/-- The program with one command more. -/
def push (p : Program) (c : Command) : Program := p ++ [.single ⟨0, c⟩]

/-- The program as one group. Groups in it are dissolved. An empty program stays empty. -/
def grouped (p : Program) : Program :=
  if p.isEmpty then p
  else [.atomic 0 (p.flatMap Batch.members)]

/-- The canonical text of a program as a string. -/
def text (p : Program) : String := String.ofList p.render

/-- Whether the text of a program reads back as batches with the same texts. -/
def readsBack (p : Program) : Except Failure Bool :=
  (Program.parse p.text).map fun q => q.map Batch.render == p.map Batch.render

end Program

end BlockDocument
