import BlockDocument.Command.Basic
import BlockDocument.Mutation

/-!
# What commands ask for

Turns a command into the mutation that it asks for. Short numbers are looked up by a resolver.
-/

namespace BlockDocument

/-- What short numbers stand for. -/
abbrev Resolver := Nat → Option BlockId

namespace Reference

/-- The block that a reference names, which has to name one. A long reference names its id, whether it
exists or not. -/
def resolve (resolver : Resolver) : Reference → Except Failure BlockId
  | short n =>
    match resolver n with
    | some id => .ok id
    | none => .error (.refused (.unknownShortId n))
  | long text => .ok ⟨text⟩

/-- The short number that a reference fails to name a block by. -/
def unknown? (resolver : Resolver) : Reference → Option Nat
  | short n => if (resolver n).isSome then none else some n
  | long _ => none

end Reference

namespace Place

/-- What the place is said with. -/
def reference {α : Type} : Place α → α
  | under parent _ => parent
  | before anchor => anchor
  | after anchor => anchor

/-- The same place, said with ids. -/
def resolve (resolver : Resolver) : Place Reference → Except Failure (Place BlockId)
  | under parent position => do pure (under (← parent.resolve resolver) position)
  | before anchor => do pure (before (← anchor.resolve resolver))
  | after anchor => do pure (after (← anchor.resolve resolver))

end Place

namespace Command

/-- The references of a command, in the order in which they are looked up. -/
def references : Command → List Reference
  | edit id .. => [id]
  | append parent .. => [parent]
  | delete id _ => [id]
  | move id place => [id, place.reference]
  | link source _ target _ => [source, target]
  | unlink source _ target => [source, target]
  | prune => []

/-- The mutation of an edit that adds or removes one tag. -/
def tagMutation (id : BlockId) (path : String) (op : Assignment) (value : String) :
    Except Failure Mutation := do
  if (← Field.read path) ≠ .tags then throw (.refused (.notTags op.mark path))
  match nonBlank? value with
  | none => throw (.refused .emptyTag)
  | some tag => pure (if op = .remove then .removeTag id tag else .addTag id tag)

/-- The text of a property. -/
def property? (properties : Attributes) (name : String) : Option String :=
  properties[name]?.map Attribute.display

/-- The role that a property names. -/
def roleProperty (properties : Attributes) : Except Failure (Option Role) :=
  match property? properties "role" with
  | none => .ok none
  | some name => some <$> Role.read name

/-- The properties of an addition that are no attributes. A language is one unless the content is
code. -/
def draftProperties (kind : ContentKind) : List String :=
  ["label", "role", "tags"] ++ if kind = .code then ["language"] else []

/-- The block that an addition asks for. -/
def draft (kind : ContentKind) (raw : String) (properties : Attributes) : Except Failure Draft := do
  let role ← roleProperty properties
  let language := if kind = .code then property? properties "language" else none
  let content ← Content.read kind raw (language.getD "")
  pure
    { content, role
      label := property? properties "label"
      tags := ((property? properties "tags").map tagsOfText).getD ∅
      attributes := properties.eraseMany (draftProperties kind) }

/-- The note of an edge that is to be added: a confidence, a description, and attributes. -/
def note (properties : Attributes) : Except Failure Note := do
  let note : Note :=
    { description := property? properties "description"
      attributes := properties.eraseMany ["description", "confidence"] }
  match properties["confidence"]? with
  | none => pure note
  | some (.number x) => pure (note.withConfidence (x.convert Number.binary32))
  | some value => throw (.refused (.confidenceNotNumber value.display))

/-- The mutation that a command asks for. -/
def mutation (resolver : Resolver) : Command → Except Failure Mutation
  | edit id path op value => do
    let id ← id.resolve resolver
    if op = .set then pure (.set id path value) else tagMutation id path op value
  | append parent kind position content properties => do
    let parent ← parent.resolve resolver
    pure (.add parent position (← draft (kind.getD .text) content properties))
  | delete id children => do pure (.delete (← id.resolve resolver) children)
  | move id place => do
    let id ← id.resolve resolver
    pure (.move id (← place.resolve resolver))
  | link source relation target properties => do
    let source ← source.resolve resolver
    let target ← target.resolve resolver
    pure (.addEdge source relation target (← note properties))
  | unlink source relation target => do
    let source ← source.resolve resolver
    pure (.removeEdge source relation (← target.resolve resolver))
  | prune => pure .prune

end Command

end BlockDocument
