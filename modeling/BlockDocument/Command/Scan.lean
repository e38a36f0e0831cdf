import BlockDocument.Command.Token
import BlockDocument.Text.Blank

/-!
# The tokens of a text

Cuts a text into tokens. Blanks and comments separate them, and ends of lines are tokens themselves.
After `::` a text without quotes runs to the end of its command: the end of the line, or inside braces
also a semicolon or a closing brace.
-/

namespace BlockDocument.Command

/-- The text without a comment at its start, up to the end of the line. -/
def skipComment : List Char → List Char
  | '/' :: '/' :: rest => rest.dropWhile (· != '\n')
  | cs => cs

/-- Whether a character is blank and does not end the line. -/
def isLineBlank (c : Char) : Bool := c != '\n' && Text.isBlank c

/-- The text without what separates tokens on a line. -/
def skip (cs : List Char) : List Char := skipComment (cs.dropWhile isLineBlank)

/-- The characters of words. -/
def isWordChar (c : Char) : Bool :=
  c.isAlphanum || c == '_' || c == '.' || c == '-' || c == '+'

/-- Takes a word off the start of a text. It ends before an operator that starts with a sign. The
characters taken so far are kept last first. -/
def takeWord (taken : List Char) : List Char → List Char × List Char
  | [] => (taken.reverse, [])
  | c :: rest =>
    if isWordChar c && !((c == '+' || c == '-') && rest.head? == some '=') then
      takeWord (c :: taken) rest
    else (taken.reverse, c :: rest)

/-- The character that an escape stands for. -/
def unescape? : Char → Option Char
  | 'n' => some '\n'
  | 't' => some '\t'
  | 'r' => some '\r'
  | '"' => some '"'
  | '\\' => some '\\'
  | _ => none

/-- Reads a quoted text after its opening quote. It ends on its line. The characters read so far are
kept last first. -/
def readQuoted (read : List Char) : List Char → Except Fault (List Char × List Char)
  | '"' :: rest => .ok (read.reverse, rest)
  | '\\' :: e :: rest =>
    match unescape? e with
    | some c => readQuoted (c :: read) rest
    | none => .error (if e = '\n' then .openString else .unknownEscape e)
  | c :: rest => if c = '\n' ∨ c = '\\' then .error .openString else readQuoted (c :: read) rest
  | [] => .error .openString

/-- Whether a character ends a command, inside braces or outside of them. -/
def endsCommand (braced : Bool) (c : Char) : Bool :=
  c == '\n' || (braced && (c == ';' || c == '\x7d'))

/-- The blanks that may stand before a text without quotes. -/
def isRawBlank (c : Char) : Bool := c == ' ' || c == '\t' || c == '\r'

/-- Reads the text without quotes that may stand after `::`. -/
def readRaw (braced : Bool) (cs : List Char) : Option (List Char) × List Char :=
  let cs := cs.dropWhile isRawBlank
  if cs.head? = some '"' then (none, cs)
  else
    let raw := Text.trimEnd (cs.takeWhile fun c => !endsCommand braced c)
    (if raw.isEmpty then none else some raw, cs.dropWhile fun c => !endsCommand braced c)

/-- The kind of a token that is one character long. -/
def markKind? : Char → Option TokenKind
  | '=' => some .equals
  | ',' => some .comma
  | ';' => some .semicolon
  | '\x7b' => some .openBrace
  | '\x7d' => some .closeBrace
  | _ => none

/-- The number of open braces after a mark. -/
def depthAfter (depth : Nat) : TokenKind → Nat
  | .openBrace => depth + 1
  | .closeBrace => depth - 1
  | _ => depth

theorem length_skipComment_le (cs : List Char) : (skipComment cs).length ≤ cs.length := by
  fun_cases skipComment cs with
  | case1 rest =>
    have := (List.dropWhile_sublist (· != '\n') (l := rest)).length_le
    simp only [List.length_cons]
    omega
  | case2 => exact Nat.le_refl _

theorem length_skip_le (cs : List Char) : (skip cs).length ≤ cs.length :=
  Nat.le_trans (length_skipComment_le _) (List.dropWhile_sublist isLineBlank).length_le

theorem length_lt_of_skip {c : Char} {cs rest : List Char} (h : skip cs = c :: rest) :
    rest.length < cs.length := by
  have hle := length_skip_le cs
  rw [h, List.length_cons] at hle
  omega

theorem length_lt_of_skip_pair {a b : Char} {cs rest : List Char} (h : skip cs = a :: b :: rest) :
    rest.length < cs.length :=
  Nat.lt_of_succ_lt (length_lt_of_skip h)

theorem length_takeWord_le (taken cs : List Char) : (takeWord taken cs).2.length ≤ cs.length := by
  induction cs generalizing taken with
  | nil => simp [takeWord]
  | cons c rest ih =>
    rw [takeWord]
    split
    · exact Nat.le_succ_of_le (ih _)
    · exact Nat.le_refl _

theorem length_readQuoted_le {read cs text rest : List Char}
    (h : readQuoted read cs = .ok (text, rest)) : rest.length ≤ cs.length := by
  fun_induction readQuoted read cs with
  | case1 => simp_all
  | case2 read e cs c _ ih => have := ih h; simp; omega
  | case3 => simp at h
  | case4 => simp at h
  | case5 read c cs _ _ _ ih => have := ih h; simp; omega
  | case6 => simp at h

theorem length_readRaw_le (braced : Bool) (cs : List Char) :
    (readRaw braced cs).2.length ≤ cs.length := by
  have h := (List.dropWhile_sublist isRawBlank (l := cs)).length_le
  rw [readRaw]
  split
  · exact h
  · exact Nat.le_trans (List.dropWhile_sublist _).length_le h

/-- The tokens of a program and the line on which it ends. -/
structure Tokens where
  tokens : List Token
  lastLine : Nat

/-- A place in a text: what was found before it, last first, the line and the number of open
braces. -/
structure Scanner where
  found : List Token := []
  line : Nat := 1
  depth : Nat := 0

namespace Scanner

/-- Takes a token down. -/
def push (s : Scanner) (kind : TokenKind) (text : List Char) : Scanner :=
  { s with found := ⟨kind, String.ofList text, s.line⟩ :: s.found }

/-- Takes down a text without quotes, if there is one. -/
def pushRaw (s : Scanner) : Option (List Char) → Scanner
  | some raw => s.push .raw raw
  | none => s

/-- Goes on to the end of a text. A fault comes with the line on which it was met. -/
def run (s : Scanner) (cs : List Char) : Except (Nat × Fault) Tokens :=
  match h : skip cs with
  | [] => .ok ⟨s.found.reverse, s.line⟩
  | '\n' :: rest =>
    have : rest.length < cs.length := length_lt_of_skip h
    run { s.push .newline ['\n'] with line := s.line + 1 } rest
  | '"' :: rest =>
    match hq : readQuoted [] rest with
    | .ok (text, rest') =>
      have : rest'.length < cs.length :=
        Nat.lt_of_le_of_lt (length_readQuoted_le hq) (length_lt_of_skip h)
      run (s.push .quoted text) rest'
    | .error fault => .error (s.line, fault)
  | ':' :: ':' :: rest =>
    have : (readRaw (0 < s.depth) rest).2.length < cs.length :=
      Nat.lt_of_le_of_lt (length_readRaw_le _ rest) (length_lt_of_skip_pair h)
    run ((s.push .doubleColon [':', ':']).pushRaw (readRaw (0 < s.depth) rest).1)
      (readRaw (0 < s.depth) rest).2
  | '+' :: '=' :: rest =>
    have : rest.length < cs.length := length_lt_of_skip_pair h
    run (s.push .plusEquals ['+', '=']) rest
  | '-' :: '=' :: rest =>
    have : rest.length < cs.length := length_lt_of_skip_pair h
    run (s.push .minusEquals ['-', '=']) rest
  | c :: rest =>
    match markKind? c with
    | some kind =>
      have : rest.length < cs.length := length_lt_of_skip h
      run { s.push kind [c] with depth := depthAfter s.depth kind } rest
    | none =>
      if isWordChar c then
        have : (takeWord [c] rest).2.length < cs.length :=
          Nat.lt_of_le_of_lt (length_takeWord_le [c] rest) (length_lt_of_skip h)
        run (s.push .word (takeWord [c] rest).1) (takeWord [c] rest).2
      else .error (s.line, .unexpectedCharacter c)
termination_by cs.length

end Scanner

/-- The tokens of a text. -/
def scan (cs : List Char) : Except (Nat × Fault) Tokens := Scanner.run {} cs

/-- The text after its first line. -/
def dropLine (cs : List Char) : List Char := (cs.dropWhile (· != '\n')).drop 1

/-- The line with a number, counted from zero. -/
def nthLine : Nat → List Char → List Char
  | 0, cs => cs.takeWhile (· != '\n')
  | n + 1, cs => nthLine n (dropLine cs)

/-- The line with a number, counted from one, as a message shows it. -/
def fragment (source : List Char) (line : Nat) : String :=
  String.ofList (Text.trim (nthLine (line - 1) source))

end BlockDocument.Command
