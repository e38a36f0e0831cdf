import BlockDocument.Numbering.Segment

/-!
# Replacing words by offsets

The replacement of words as it goes over a text in UTF-8: scanners count the bytes of the next piece,
and the text is cut at the offset that they find. Nothing here says why a cut should fall between two
characters or a loop get any further, so results are optional: there is none where a cut fails, and
none where a step leaves as much as there was, which would be repeated forever.
-/

namespace BlockDocument

/-- The bytes that a text takes. -/
def byteCount (cs : List Char) : Nat := (String.ofList cs).utf8ByteSize

/-- Cuts a text at an offset. -/
def cutAt? : Nat → List Char → Option (List Char × List Char)
  | 0, cs => some ([], cs)
  | _ + 1, [] => none
  | n + 1, c :: cs =>
    if c.utf8Size ≤ n + 1 then
      (cutAt? (n + 1 - c.utf8Size) cs).map fun (taken, rest) => (c :: taken, rest)
    else none

/-- The offset behind a quoted text whose next character stands at an offset. A quoted text that does
not close ends with its line. -/
def quotedEnd (escaped : Bool) (offset : Nat) : List Char → Nat
  | [] => offset
  | c :: rest =>
    if c = '\n' then offset
    else if escaped then quotedEnd false (offset + c.utf8Size) rest
    else if c = '\\' then quotedEnd true (offset + c.utf8Size) rest
    else if c = '"' then offset + 1
    else quotedEnd false (offset + c.utf8Size) rest

/-- The bytes of the quoted text that starts a text. -/
def quotedSize : List Char → Nat
  | [] => 0
  | c :: rest => quotedEnd false c.utf8Size rest

/-- The bytes of what starts a command: a quoted text, if these are asked for, or one character. -/
def stretchSize (quoted : Bool) : List Char → Nat
  | [] => 0
  | c :: rest => if quoted && c == '"' then quotedSize (c :: rest) else c.utf8Size

/-- The offset at which the command ends, from an offset on. -/
def tailEnd? (text : List Char) (braced quoted : Bool) (offset : Nat) : Option Nat := do
  let (_, rest) ← cutAt? offset text
  match rest with
  | [] => return byteCount text
  | c :: _ =>
    if Command.endsCommand braced c then return offset
    else
      let size := stretchSize quoted rest
      if 0 < size ∧ offset + size ≤ byteCount text then
        tailEnd? text braced quoted (offset + size)
      else none
termination_by byteCount text - offset

/-- The bytes of the word that starts a text. -/
def wordSize (cs : List Char) : Nat := byteCount (cs.takeWhile Reference.isIdChar)

/-- What the next step takes off a text. -/
structure Stride where
  /-- The number of bytes. -/
  size : Nat
  /-- The number of open braces behind it. -/
  depth : Nat
  /-- Whether it is a word that may name a block. -/
  isWord : Bool := false

/-- The next step in a text that stands in a number of open braces. -/
def stride? (depth : Nat) : List Char → Option Stride
  | [] => none
  | c :: cs => do
    let rest := c :: cs
    if c = '"' then return { size := quotedSize rest, depth }
    else if c = '/' ∧ cs.head? = some '/' then
      return { size := ← tailEnd? rest false false 0, depth }
    else if c = ':' ∧ cs.head? = some ':' then
      let content := (cs.drop 1).dropWhile Command.isRawBlank
      let lead := byteCount rest - byteCount content
      if content.head? = some '"' then return { size := lead, depth }
      else return { size := lead + (← tailEnd? content (0 < depth) false 0), depth }
    else if Reference.isIdChar c then
      let (word, after) ← cutAt? (wordSize rest) rest
      if Text.sameName (String.ofList word) "WITH" then
        return { size := wordSize rest + (← tailEnd? after (0 < depth) true 0), depth }
      else return { size := wordSize rest, depth, isWord := true }
    else return { size := c.utf8Size, depth := Cutter.depthAfter depth c }

/-- A replacement on its way: what it has written, what is left of the text, the number of open
braces, and whether the last word was one that a position follows. -/
structure Rewriter where
  written : List Char := []
  rest : List Char
  depth : Nat := 0
  positional : Bool := false

namespace Rewriter

/-- Takes down a piece, in front of the rest. -/
def push (s : Rewriter) (replace : List Char → Option (List Char)) (isWord : Bool)
    (piece rest : List Char) : Rewriter :=
  let name := String.ofList piece
  if isWord then
    { s with
      written := s.written ++ (if s.positional then none else replace piece).getD piece
      rest
      positional := Text.sameName name "INDEX" || Text.sameName name "AT" }
  else { s with written := s.written ++ piece, rest }

/-- One step. -/
def step? (replace : List Char → Option (List Char)) (s : Rewriter) : Option Rewriter := do
  let stride ← stride? s.depth s.rest
  let (piece, rest) ← cutAt? stride.size s.rest
  return { s.push replace stride.isWord piece rest with depth := stride.depth }

/-- Goes on to the end of the text. -/
def run? (replace : List Char → Option (List Char)) (s : Rewriter) : Option (List Char) :=
  if s.rest = [] then some s.written
  else do
    let s' ← s.step? replace
    if s'.rest.length < s.rest.length then run? replace s' else none
termination_by s.rest.length

end Rewriter

/-- Replaces the words of a text that may name blocks. -/
def rewrite? (replace : List Char → Option (List Char)) (text : String) : Option String :=
  (Rewriter.run? replace { rest := text.toList }).map String.ofList

end BlockDocument
