import BlockDocument.Command.Basic
import BlockDocument.Command.Scan

/-!
# Words that may name blocks

Cuts any text into words that stand where a command may name a block, and stretches that stay as they
are: quoted texts, comments, texts without quotes after `::`, the word after `INDEX` or `AT`, what
follows `WITH`, and whatever is no word. The pieces together are the text.
-/

namespace BlockDocument

/-- A piece of a text. -/
inductive Segment where
  /-- A word that may name a block. -/
  | word (cs : List Char)
  /-- A stretch that stays as it is. -/
  | verbatim (cs : List Char)
  deriving DecidableEq, Repr

/-- The characters of a piece. -/
def Segment.chars : Segment → List Char
  | word cs => cs
  | verbatim cs => cs

/-- Where a text stands with respect to quotes. -/
inductive QuoteState where
  | outside
  | inside
  /-- Inside, after a backslash. -/
  | escaped
  deriving DecidableEq, Repr

/-- Where a text stands after one more character inside quotes. -/
def QuoteState.next (c : Char) : QuoteState → QuoteState
  | escaped => inside
  | _ => if c = '"' then outside else if c = '\\' then escaped else inside

/-- Takes the rest of a quoted text, up to its closing quote or else to the end of the line. -/
def takeQuoted (taken : List Char) : QuoteState → List Char → List Char × List Char
  | .outside, cs => (taken.reverse, cs)
  | _, [] => (taken.reverse, [])
  | q, c :: rest =>
    if c = '\n' then (taken.reverse, c :: rest) else takeQuoted (c :: taken) (q.next c) rest

/-- Takes the rest of a command that may hold quoted texts. -/
def takeTail (braced : Bool) (taken : List Char) : QuoteState → List Char → List Char × List Char
  | _, [] => (taken.reverse, [])
  | .outside, c :: rest =>
    if Command.endsCommand braced c then (taken.reverse, c :: rest)
    else takeTail braced (c :: taken) (if c = '"' then .inside else .outside) rest
  | q, c :: rest =>
    if c = '\n' then (taken.reverse, c :: rest) else takeTail braced (c :: taken) (q.next c) rest

/-- What follows `::` and stays as it is: blanks, and a text unless it is quoted. -/
def takeRaw (braced : Bool) (cs : List Char) : List Char × List Char :=
  let blanks := cs.takeWhile Command.isRawBlank
  let content := cs.dropWhile Command.isRawBlank
  if content.head? = some '"' then (blanks, content)
  else
    (blanks ++ content.takeWhile fun c => !Command.endsCommand braced c,
      content.dropWhile fun c => !Command.endsCommand braced c)

theorem length_takeQuoted_le (taken : List Char) (q : QuoteState) (cs : List Char) :
    (takeQuoted taken q cs).2.length ≤ cs.length := by
  fun_induction takeQuoted taken q cs with
  | case1 => exact Nat.le_refl _
  | case2 => exact Nat.le_refl _
  | case3 => exact Nat.le_refl _
  | case4 taken q _ c rest _ ih => exact Nat.le_succ_of_le ih

theorem length_takeTail_le (braced : Bool) (taken : List Char) (q : QuoteState) (cs : List Char) :
    (takeTail braced taken q cs).2.length ≤ cs.length := by
  fun_induction takeTail braced taken q cs with
  | case1 => exact Nat.le_refl _
  | case2 => exact Nat.le_refl _
  | case3 _ _ _ _ ih => exact Nat.le_succ_of_le ih
  | case4 => exact Nat.le_refl _
  | case5 _ _ _ _ _ _ ih => exact Nat.le_succ_of_le ih

theorem length_takeRaw_le (braced : Bool) (cs : List Char) :
    (takeRaw braced cs).2.length ≤ cs.length := by
  have h := (List.dropWhile_sublist Command.isRawBlank (l := cs)).length_le
  rw [takeRaw]
  split
  · exact h
  · exact Nat.le_trans (List.dropWhile_sublist _).length_le h

/-- A place in a text: the pieces before it, last first, the number of open braces, and whether the
last word before it was one that a position follows. -/
structure Cutter where
  pieces : List Segment := []
  depth : Nat := 0
  positional : Bool := false

namespace Cutter

/-- Takes down a stretch that stays as it is. -/
def keep (s : Cutter) (cs : List Char) : Cutter := { s with pieces := .verbatim cs :: s.pieces }

/-- Takes down a word. -/
def note (s : Cutter) (word : List Char) : Cutter :=
  let name := String.ofList word
  { s with
    pieces := (if s.positional then .verbatim word else .word word) :: s.pieces
    positional := Text.sameName name "INDEX" || Text.sameName name "AT" }

/-- The number of open braces after a character. -/
def depthAfter (depth : Nat) (c : Char) : Nat :=
  if c = '\x7b' then depth + 1 else if c = '\x7d' then depth - 1 else depth

/-- Goes on to the end of a text. -/
def run (s : Cutter) (cs : List Char) : List Segment :=
  match cs with
  | [] => s.pieces.reverse
  | '"' :: rest =>
    have := length_takeQuoted_le ['"'] .inside rest
    run (s.keep (takeQuoted ['"'] .inside rest).1) (takeQuoted ['"'] .inside rest).2
  | '/' :: '/' :: rest =>
    have := (List.dropWhile_sublist (· != '\n') (l := rest)).length_le
    run (s.keep ('/' :: '/' :: rest.takeWhile (· != '\n'))) (rest.dropWhile (· != '\n'))
  | ':' :: ':' :: rest =>
    have := length_takeRaw_le (0 < s.depth) rest
    run (s.keep (':' :: ':' :: (takeRaw (0 < s.depth) rest).1)) (takeRaw (0 < s.depth) rest).2
  | c :: rest =>
    if Reference.isIdChar c then
      let word := c :: rest.takeWhile Reference.isIdChar
      let after := rest.dropWhile Reference.isIdChar
      have := (List.dropWhile_sublist Reference.isIdChar (l := rest)).length_le
      if Text.sameName (String.ofList word) "WITH" then
        have := length_takeTail_le (0 < s.depth) [] .outside (rest.dropWhile Reference.isIdChar)
        run (s.keep (word ++ (takeTail (0 < s.depth) [] .outside after).1))
          (takeTail (0 < s.depth) [] .outside after).2
      else run (s.note word) after
    else run { s.keep [c] with depth := depthAfter s.depth c } rest
termination_by cs.length

end Cutter

/-- The pieces of a text. -/
def segments (text : List Char) : List Segment := Cutter.run {} text

/-- Replaces the words of a text that may name blocks. A word without a replacement stays. -/
def replaceWords (replace : List Char → Option (List Char)) (text : List Char) : List Char :=
  (segments text).flatMap fun
    | .word cs => (replace cs).getD cs
    | .verbatim cs => cs

end BlockDocument
