import BlockDocument.Command.Parse
import BlockDocument.Proofs.Command.Scan
import BlockDocument.Proofs.Number.Shortest

/-!
# The tokens of canonical texts

The canonical text of a program is made of known tokens: `Program.spelling` lists them with their
lines, and the scanner finds exactly these. Only the name of a property may come apart: if it ends in
a sign, the sign and the equals sign behind it make an operator.
-/

namespace BlockDocument

open Command

/-! ## What can be read back -/

/-- References that can be read back: numbers below the bound, and words of letters, digits and
underscores that are no numbers. -/
def Reference.Readable : Reference → Prop
  | short n => n < Reference.bound
  | long text => text.toList ≠ [] ∧ (∀ c ∈ text.toList, Reference.isIdChar c = true) ∧
      ∃ c ∈ text.toList, c.isDigit = false

/-- Values that can be read back: all but numbers that are not finite. -/
def Attribute.Readable : Attribute → Prop
  | number x => x.isFinite = true
  | _ => True

/-- Properties with names that are words, and with values that can be read back. -/
def Attributes.Readable (properties : Attributes) : Prop :=
  ∀ entry ∈ properties.toList, IsWord entry.1.toList ∧ entry.2.Readable

/-- Positions that can be read back. -/
def readablePosition (position : Option Nat) : Prop := ∀ n ∈ position, n < Reader.positionBound

/-- Places that can be read back. -/
def Place.Readable : Place Reference → Prop
  | under parent position => parent.Readable ∧ readablePosition position
  | before anchor => anchor.Readable
  | after anchor => anchor.Readable

namespace Command

/-- Commands whose parts can all be read back. -/
def Readable : Command → Prop
  | edit id path _ _ => id.Readable ∧ IsWord path.toList
  | append parent _ position _ properties =>
    parent.Readable ∧ readablePosition position ∧ properties.Readable
  | delete id _ => id.Readable
  | move id place => id.Readable ∧ place.Readable
  | link source _ target properties => source.Readable ∧ target.Readable ∧ properties.Readable
  | unlink source _ target => source.Readable ∧ target.Readable
  | prune => True

/-! ## Words -/

theorem Breaks.blank {w rest : List Char} : Breaks w (' ' :: rest) :=
  .cons (by decide) fun h => by cases h

theorem Breaks.newline {w rest : List Char} : Breaks w ('\n' :: rest) :=
  .cons (by decide) fun h => by cases h

theorem Breaks.comma {w rest : List Char} : Breaks w (',' :: rest) :=
  .cons (by decide) fun h => by cases h

theorem isWordChar_of_isDigit {c : Char} (h : c.isDigit = true) : isWordChar c = true := by
  simp [isWordChar, Char.isAlphanum, h]

theorem isWord_digits (n : Nat) : IsWord (Number.digits n) :=
  ⟨Number.digits_ne_nil n, fun _ hc => isWordChar_of_isDigit (Number.isDigit_of_mem_digits hc)⟩

theorem isWord_reference {r : Reference} (h : r.Readable) : IsWord r.text := by
  cases r with
  | short n => exact isWord_digits n
  | long text =>
    obtain ⟨hne, hchars, -⟩ := h
    refine ⟨hne, fun c hc => ?_⟩
    have hid := hchars c hc
    simp only [Reference.isIdChar, Bool.or_eq_true] at hid
    simp only [isWordChar, Bool.or_eq_true]
    tauto

theorem isWord_kind (kind : ContentKind) : IsWord kind.name.toList := by
  cases kind <;> decide

theorem isWord_relation (relation : Relation) : IsWord relation.name.toList := by
  cases relation <;> decide

theorem isWord_number {x : Number.Double} (h : x.isFinite = true) : IsWord x.text := by
  obtain ⟨hchars, c, hmem, -⟩ := Number.Binary.text_chars h
  refine ⟨fun hnil => ?_, fun c hc => ?_⟩
  · rw [hnil] at hmem
    cases hmem
  · rcases hchars c hc with hc | rfl | rfl
    · exact isWordChar_of_isDigit hc
    · decide
    · decide

/-! ## Spellings -/

/-- The token of an operator, by its sign. -/
def signToken (line : Nat) (sign : Char) : Token :=
  if sign = '+' then ⟨.plusEquals, "+=", line⟩ else ⟨.minusEquals, "-=", line⟩

/-- The tokens of a property's name and the equals sign. -/
def nameSpelling (line : Nat) (name : List Char) : List Token :=
  match name.getLast? with
  | some c =>
    if isSign c then
      (if name.dropLast = [] then [] else [⟨.word, String.ofList name.dropLast, line⟩]) ++
        [signToken line c]
    else [⟨.word, String.ofList name, line⟩, ⟨.equals, "=", line⟩]
  | none => []

/-- The token of a property's value. -/
def valueSpelling (line : Nat) : Attribute → Token
  | .text s => ⟨.quoted, s, line⟩
  | a => ⟨.word, a.display, line⟩

/-- The tokens of a list of properties. -/
def entriesSpelling (line : Nat) : List (String × Attribute) → List Token
  | [] => []
  | [entry] => nameSpelling line entry.1.toList ++ [valueSpelling line entry.2]
  | entry :: next :: entries =>
    nameSpelling line entry.1.toList ++ valueSpelling line entry.2 ::
      ⟨.comma, ",", line⟩ :: entriesSpelling line (next :: entries)

/-- The tokens of the properties at the end of a command. -/
def propertiesSpelling (line : Nat) (properties : Attributes) : List Token :=
  if properties.isEmpty then []
  else ⟨.word, "WITH", line⟩ :: entriesSpelling line properties.toList

/-- The tokens of a position and its keyword. -/
def positionSpelling (line : Nat) (keyword : String) : Option Nat → List Token
  | some n => [⟨.word, keyword, line⟩, ⟨.word, String.ofList (Number.digits n), line⟩]
  | none => []

/-- The token of a reference. -/
def referenceToken (line : Nat) (r : Reference) : Token := ⟨.word, String.ofList r.text, line⟩

/-- The kind of an assignment's mark. -/
def markKind : Assignment → TokenKind
  | .set => .equals
  | .add => .plusEquals
  | .remove => .minusEquals

/-- The tokens of what is said about the children of a deleted block. -/
def fateSpelling (line : Nat) : Fate → List Token
  | .none => []
  | .deleted => [⟨.word, "CASCADE", line⟩]
  | .kept => [⟨.word, "PRESERVE_CHILDREN", line⟩]

/-- The tokens of a place. -/
def placeSpelling (line : Nat) : Place Reference → List Token
  | .under parent position =>
    ⟨.word, "TO", line⟩ :: referenceToken line parent :: positionSpelling line "INDEX" position
  | .before anchor => [⟨.word, "BEFORE", line⟩, referenceToken line anchor]
  | .after anchor => [⟨.word, "AFTER", line⟩, referenceToken line anchor]

/-- The token of a kind of content. -/
def kindSpelling (line : Nat) : Option ContentKind → List Token
  | some kind => [⟨.word, kind.name, line⟩]
  | none => []

/-- The tokens of a command on a line. -/
def spelling (line : Nat) : Command → List Token
  | edit id path op value =>
    [⟨.word, "EDIT", line⟩, referenceToken line id, ⟨.word, "SET", line⟩, ⟨.word, path, line⟩,
     ⟨markKind op, op.mark, line⟩, ⟨.quoted, value, line⟩]
  | append parent kind position content properties =>
    ⟨.word, "APPEND", line⟩ :: referenceToken line parent :: (kindSpelling line kind ++
      (positionSpelling line "AT" position ++
        ⟨.doubleColon, "::", line⟩ :: ⟨.quoted, content, line⟩ ::
          propertiesSpelling line properties))
  | delete id children =>
    ⟨.word, "DELETE", line⟩ :: referenceToken line id :: fateSpelling line children
  | move id place => ⟨.word, "MOVE", line⟩ :: referenceToken line id :: placeSpelling line place
  | link source relation target properties =>
    ⟨.word, "LINK", line⟩ :: referenceToken line source :: ⟨.word, relation.name, line⟩ ::
      referenceToken line target :: propertiesSpelling line properties
  | unlink source relation target =>
    [⟨.word, "UNLINK", line⟩, referenceToken line source, ⟨.word, relation.name, line⟩,
     referenceToken line target]
  | prune => [⟨.word, "PRUNE", line⟩, ⟨.word, "unreachable", line⟩]

end Command

namespace Command.Scanner

/-! ## The scanner on a command -/

/-- Takes tokens down, one after the other. -/
def pushAll (s : Scanner) (ts : List Token) : Scanner := { s with found := ts.reverse ++ s.found }

@[simp] theorem line_pushAll (s : Scanner) (ts : List Token) : (s.pushAll ts).line = s.line := rfl

theorem push_toList (s : Scanner) (kind : TokenKind) (text : String) :
    s.push kind text.toList = s.pushAll [⟨kind, text, s.line⟩] := by
  rw [push, String.ofList_toList]
  rfl

theorem push_eq (s : Scanner) (kind : TokenKind) (text : List Char) :
    s.push kind text = s.pushAll [⟨kind, String.ofList text, s.line⟩] := rfl

theorem pushAll_pushAll (s : Scanner) (ts ts' : List Token) :
    (s.pushAll ts).pushAll ts' = s.pushAll (ts ++ ts') := by
  simp [pushAll]

variable (s : Scanner) {rest : List Char}

theorem run_reference {r : Reference} (h : r.Readable) (hb : Breaks r.text rest) :
    s.run (r.text ++ rest) = (s.pushAll [referenceToken s.line r]).run rest :=
  run_word s (isWord_reference h) hb

theorem run_keyword {k : String} (hk : IsWord k.toList) :
    s.run (k.toList ++ ' ' :: rest) = (s.pushAll [⟨.word, k, s.line⟩]).run rest := by
  rw [run_word s hk .blank, run_blank, push_toList]

/-- The name of a property and the equals sign, which may have come together. -/
theorem run_name {name : List Char} (h : IsWord name) :
    s.run (name ++ '=' :: rest) = (s.pushAll (nameSpelling s.line name)).run rest := by
  obtain ⟨hne, hchars⟩ := h
  have hlast := List.getLast?_eq_some_getLast hne
  have hsplit := List.dropLast_append_getLast hne
  rw [nameSpelling, hlast]
  dsimp only
  split
  · -- the sign at the end of the name and the equals sign are one operator, so what is left of the
    -- name is a word on its own, if there is anything left
    rename_i hsign
    have hoperator (s : Scanner) : s.run (name.getLast hne :: '=' :: rest) =
        (s.pushAll [signToken s.line (name.getLast hne)]).run rest := by
      rw [isSign, Bool.or_eq_true, beq_iff_eq, beq_iff_eq] at hsign
      rcases hsign with hc | hc
      · rw [hc, run_plusEquals]
        rfl
      · rw [hc, run_minusEquals]
        rfl
    have htext : name ++ '=' :: rest = name.dropLast ++ name.getLast hne :: '=' :: rest := by
      conv_lhs => rw [← hsplit]
      rw [List.append_assoc]
      rfl
    rw [htext]
    split
    · rename_i hnil
      rw [hnil]
      exact hoperator s
    · rename_i hpre
      have hword : IsWord name.dropLast :=
        ⟨hpre, fun c hc => hchars c (List.mem_of_mem_dropLast hc)⟩
      rw [run_word s hword (.operator hsign), hoperator, push_eq, pushAll_pushAll, line_pushAll]
  · rename_i hsign
    -- no sign at the end: the equals sign stands alone
    have hword : isSigned name = false := by
      rw [isSigned, hlast, Option.any_some]
      simpa using hsign
    rw [run_word s ⟨hne, hchars⟩ (.cons (by decide) fun _ => hword), run_equals, push_eq, push_eq,
      pushAll_pushAll]
    rfl

theorem run_value {a : Attribute} (h : a.Readable) (hb : ∀ w, Breaks w rest) :
    s.run (a.literal ++ rest) = (s.pushAll [valueSpelling s.line a]).run rest := by
  cases a with
  | text t =>
    rw [Attribute.literal, run_quoted, push_toList]
    rfl
  | flag b =>
    have hword : IsWord (Attribute.flag b).display.toList := by cases b <;> decide
    rw [Attribute.literal.eq_2 _ (by simp), run_word s hword (hb _), push_toList]
    rfl
  | number x =>
    have hword : IsWord (Attribute.number x).display.toList := by
      rw [Attribute.display, String.toList_ofList]
      exact isWord_number h
    rw [Attribute.literal.eq_2 _ (by simp), run_word s hword (hb _), push_toList]
    rfl

theorem run_entries {entries : List (String × Attribute)}
    (h : ∀ e ∈ entries, IsWord e.1.toList ∧ e.2.Readable) (hb : ∀ w, Breaks w rest) :
    s.run (Text.join [',', ' '] (entries.map propertyText) ++ rest) =
      (s.pushAll (entriesSpelling s.line entries)).run rest := by
  induction entries generalizing s with
  | nil => rfl
  | cons e entries ih =>
    obtain ⟨⟨hname, hvalue⟩, hrest⟩ := List.forall_mem_cons.mp h
    cases entries with
    | nil =>
      have htext : Text.join [',', ' '] ([e].map propertyText) ++ rest =
          e.1.toList ++ '=' :: (e.2.literal ++ rest) := by
        simp [Text.join, propertyText]
      rw [htext, run_name s hname, run_value _ hvalue hb, pushAll_pushAll, line_pushAll]
      rfl
    | cons e' entries =>
      have htext : Text.join [',', ' '] ((e :: e' :: entries).map propertyText) ++ rest =
          e.1.toList ++ '=' :: (e.2.literal ++ ',' :: ' ' ::
            (Text.join [',', ' '] ((e' :: entries).map propertyText) ++ rest)) := by
        simp [Text.join, propertyText]
      rw [htext, run_name s hname, run_value _ hvalue fun _ => .comma, run_comma, run_blank,
        ih _ hrest, push_eq, pushAll_pushAll, pushAll_pushAll, pushAll_pushAll, entriesSpelling]
      simp

theorem run_properties {properties : Attributes} (h : properties.Readable)
    (hb : ∀ w, Breaks w rest) :
    s.run (propertiesText properties ++ rest) =
      (s.pushAll (propertiesSpelling s.line properties)).run rest := by
  rw [propertiesText, propertiesSpelling]
  split
  · rfl
  · have htext (cs : List Char) : " WITH ".toList ++ cs = ' ' :: ("WITH".toList ++ ' ' :: cs) := rfl
    rw [List.append_assoc, htext, run_blank, run_keyword s (by decide), run_entries _ h hb,
      pushAll_pushAll]
    rfl

theorem breaks_properties {properties : Attributes} (hb : ∀ w, Breaks w rest) (w : List Char) :
    Breaks w (propertiesText properties ++ rest) := by
  rw [propertiesText]
  split
  · exact hb w
  · exact .blank

theorem run_kind (kind : Option ContentKind) :
    s.run (kindText kind ++ rest) = (s.pushAll (kindSpelling s.line kind)).run rest := by
  cases kind with
  | none => rfl
  | some kind =>
    rw [kindText, List.append_assoc, List.singleton_append, run_keyword s (isWord_kind kind)]
    rfl

theorem run_digits {n : Nat} (hb : Breaks (Number.digits n) rest) :
    s.run (Number.digits n ++ rest) =
      (s.pushAll [⟨.word, String.ofList (Number.digits n), s.line⟩]).run rest :=
  run_word s (isWord_digits n) hb

theorem run_position (position : Option Nat) :
    s.run (positionText position ++ rest) =
      (s.pushAll (positionSpelling s.line "AT" position)).run rest := by
  cases position with
  | none => rfl
  | some n =>
    have htext : positionText (some n) ++ rest =
        "AT".toList ++ ' ' :: (Number.digits n ++ ' ' :: rest) := by
      show "AT ".toList ++ Number.digits n ++ [' '] ++ rest = _
      simp only [List.append_assoc]
      rfl
    rw [htext, run_keyword s (by decide), run_digits _ .blank, run_blank, pushAll_pushAll]
    rfl

theorem run_fate (children : Fate) (hb : ∀ w, Breaks w rest) :
    s.run (fateText children ++ rest) = (s.pushAll (fateSpelling s.line children)).run rest := by
  cases children with
  | none => rfl
  | deleted =>
    have htext : fateText .deleted ++ rest = ' ' :: ("CASCADE".toList ++ rest) := rfl
    rw [htext, run_blank, run_word s (by decide) (hb _), push_toList]
    rfl
  | kept =>
    have htext : fateText .kept ++ rest = ' ' :: ("PRESERVE_CHILDREN".toList ++ rest) := rfl
    rw [htext, run_blank, run_word s (by decide) (hb _), push_toList]
    rfl

theorem breaks_fate {children : Fate} (hb : ∀ w, Breaks w rest) (w : List Char) :
    Breaks w (fateText children ++ rest) := by
  cases children with
  | none => exact hb w
  | deleted => exact .blank
  | kept => exact .blank

theorem run_place {place : Place Reference} (h : place.Readable) (hb : ∀ w, Breaks w rest) :
    s.run (placeText place ++ rest) = (s.pushAll (placeSpelling s.line place)).run rest := by
  cases place with
  | under parent position =>
    cases position with
    | none =>
      have htext : placeText (.under parent none) ++ rest =
          "TO".toList ++ ' ' :: (parent.text ++ rest) := rfl
      rw [htext, run_keyword s (by decide), run_reference _ h.1 (hb _), pushAll_pushAll]
      rfl
    | some n =>
      have htext : placeText (.under parent (some n)) ++ rest =
          "TO".toList ++ ' ' :: (parent.text ++ ' ' :: ("INDEX".toList ++ ' ' ::
            (Number.digits n ++ rest))) := by
        show "TO ".toList ++ parent.text ++ " INDEX ".toList ++ Number.digits n ++ rest = _
        simp only [List.append_assoc]
        rfl
      rw [htext, run_keyword s (by decide), run_reference _ h.1 .blank, run_blank,
        run_keyword _ (by decide), run_digits _ (hb _), pushAll_pushAll, pushAll_pushAll,
        pushAll_pushAll]
      rfl
  | before anchor =>
    have htext : placeText (.before anchor) ++ rest =
        "BEFORE".toList ++ ' ' :: (anchor.text ++ rest) := rfl
    rw [htext, run_keyword s (by decide), run_reference _ h (hb _), pushAll_pushAll]
    rfl
  | after anchor =>
    have htext : placeText (.after anchor) ++ rest =
        "AFTER".toList ++ ' ' :: (anchor.text ++ rest) := rfl
    rw [htext, run_keyword s (by decide), run_reference _ h (hb _), pushAll_pushAll]
    rfl

theorem run_mark (op : Assignment) :
    s.run (op.mark.toList ++ rest) = (s.pushAll [⟨markKind op, op.mark, s.line⟩]).run rest := by
  cases op with
  | set => exact run_equals s rest
  | add => exact run_plusEquals s rest
  | remove => exact run_minusEquals s rest

/-- **A command is scanned as it is spelled.** -/
theorem run_render {c : Command} (h : c.Readable) (hb : ∀ w, Breaks w rest) :
    s.run (c.render ++ rest) = (s.pushAll (c.spelling s.line)).run rest := by
  cases c with
  | edit id path op value =>
    have htext : render (.edit id path op value) ++ rest =
        "EDIT".toList ++ ' ' :: (id.text ++ ' ' :: ("SET".toList ++ ' ' :: (path.toList ++ ' ' ::
          (op.mark.toList ++ ' ' :: (quoted value ++ rest))))) := by
      show "EDIT ".toList ++ id.text ++ " SET ".toList ++ path.toList ++ ' ' :: op.mark.toList ++
        ' ' :: quoted value ++ rest = _
      simp only [List.append_assoc, List.cons_append]
      rfl
    rw [htext, run_keyword s (by decide), run_reference _ h.1 .blank, run_blank,
      run_keyword _ (by decide), run_word _ h.2 .blank, run_blank, run_mark, run_blank, run_quoted]
    simp [push_toList, pushAll_pushAll, spelling]
  | append parent kind position content properties =>
    have htext : render (.append parent kind position content properties) ++ rest =
        "APPEND".toList ++ ' ' :: (parent.text ++ ' ' :: (kindText kind ++ (positionText position ++
          ':' :: ':' :: ' ' :: (quoted content ++ (propertiesText properties ++ rest))))) := by
      show "APPEND ".toList ++ parent.text ++ ' ' :: kindText kind ++ positionText position ++
        ":: ".toList ++ quoted content ++ propertiesText properties ++ rest = _
      simp only [List.append_assoc, List.cons_append]
      rfl
    rw [htext, run_keyword s (by decide), run_reference _ h.1 .blank, run_blank, run_kind,
      run_position, run_doubleColon, run_quoted, run_properties _ h.2.2 hb]
    simp [push_eq, pushAll_pushAll, spelling]
  | delete id children =>
    have htext : render (.delete id children) ++ rest =
        "DELETE".toList ++ ' ' :: (id.text ++ (fateText children ++ rest)) := by
      show "DELETE ".toList ++ id.text ++ fateText children ++ rest = _
      simp only [List.append_assoc]
      rfl
    rw [htext, run_keyword s (by decide), run_reference _ h (breaks_fate hb _), run_fate _ _ hb]
    simp [pushAll_pushAll, spelling]
  | move id place =>
    have htext : render (.move id place) ++ rest =
        "MOVE".toList ++ ' ' :: (id.text ++ ' ' :: (placeText place ++ rest)) := by
      show "MOVE ".toList ++ id.text ++ ' ' :: placeText place ++ rest = _
      simp only [List.append_assoc, List.cons_append]
      rfl
    rw [htext, run_keyword s (by decide), run_reference _ h.1 .blank, run_blank, run_place _ h.2 hb]
    simp [pushAll_pushAll, spelling]
  | link source relation target properties =>
    have htext : render (.link source relation target properties) ++ rest =
        "LINK".toList ++ ' ' :: (source.text ++ ' ' :: (relation.name.toList ++ ' ' ::
          (target.text ++ (propertiesText properties ++ rest)))) := by
      show "LINK ".toList ++ source.text ++ ' ' :: relation.name.toList ++ ' ' :: target.text ++
        propertiesText properties ++ rest = _
      simp only [List.append_assoc, List.cons_append]
      rfl
    rw [htext, run_keyword s (by decide), run_reference _ h.1 .blank, run_blank,
      run_keyword _ (isWord_relation relation), run_reference _ h.2.1 (breaks_properties hb _),
      run_properties _ h.2.2 hb]
    simp [pushAll_pushAll, spelling]
  | unlink source relation target =>
    have htext : render (.unlink source relation target) ++ rest =
        "UNLINK".toList ++ ' ' :: (source.text ++ ' ' :: (relation.name.toList ++ ' ' ::
          (target.text ++ rest))) := by
      show "UNLINK ".toList ++ source.text ++ ' ' :: relation.name.toList ++ ' ' :: target.text ++
        rest = _
      simp only [List.append_assoc, List.cons_append]
      rfl
    rw [htext, run_keyword s (by decide), run_reference _ h.1 .blank, run_blank,
      run_keyword _ (isWord_relation relation), run_reference _ h.2 (hb _)]
    simp [pushAll_pushAll, spelling]
  | prune =>
    have htext : render .prune ++ rest = "PRUNE".toList ++ ' ' :: ("unreachable".toList ++ rest) :=
      rfl
    rw [htext, run_keyword s (by decide), run_word _ (by decide) (hb _), push_toList,
      pushAll_pushAll]
    rfl

end Command.Scanner

/-! ## Programs -/

/-- The tokens of the members of a group, which stand on lines of their own. -/
def Batch.membersSpelling (line : Nat) : List Statement → List Token
  | [] => []
  | s :: rest =>
    s.command.spelling line ++ ⟨.newline, "\n", line⟩ :: membersSpelling (line + 1) rest

/-- The number of ends of lines in the text of a batch. -/
def Batch.height : Batch → Nat
  | single _ => 0
  | atomic _ members => members.length + 1

/-- The tokens of a batch that starts on a line. -/
def Batch.spelling (line : Nat) : Batch → List Token
  | single s => s.command.spelling line
  | atomic _ members =>
    ⟨.word, "ATOMIC", line⟩ :: ⟨.openBrace, "\x7b", line⟩ :: ⟨.newline, "\n", line⟩ ::
      (membersSpelling (line + 1) members ++ [⟨.closeBrace, "\x7d", line + (members.length + 1)⟩])

/-- The tokens of a program that starts on a line. -/
def Program.spelling (line : Nat) : Program → List Token
  | [] => []
  | [b] => b.spelling line
  | b :: next :: rest =>
    b.spelling line ++ ⟨.newline, "\n", line + b.height⟩ ::
      Program.spelling (line + b.height + 1) (next :: rest)

/-- Batches whose commands can be read back. -/
def Batch.Readable (b : Batch) : Prop := ∀ s ∈ b.members, s.command.Readable

/-- Programs whose commands can be read back. -/
def Program.Readable (p : Program) : Prop := ∀ b ∈ p, b.Readable

namespace Command.Scanner

/-- The scanner after tokens and some ends of lines. -/
def moveOn (s : Scanner) (ts : List Token) (lines : Nat) : Scanner :=
  { s with found := ts.reverse ++ s.found, line := s.line + lines }

theorem run_members (s : Scanner) {members : List Statement} {rest : List Char}
    (h : ∀ m ∈ members, m.command.Readable) :
    s.run (members.flatMap (fun m => ' ' :: ' ' :: m.command.render ++ ['\n']) ++ rest) =
      (s.moveOn (Batch.membersSpelling s.line members) members.length).run rest := by
  induction members generalizing s with
  | nil => rfl
  | cons m members ih =>
    obtain ⟨hm, hmembers⟩ := List.forall_mem_cons.mp h
    rw [List.flatMap_cons, List.append_assoc, List.append_assoc, List.cons_append, List.cons_append,
      run_blank, run_blank, List.singleton_append, run_render s hm fun _ => .newline, run_newline,
      ih _ hmembers, Batch.membersSpelling]
    congr 1
    simp [moveOn, push, pushAll]
    omega

theorem run_batch (s : Scanner) {b : Batch} {rest : List Char} (h : b.Readable)
    (hb : ∀ w, Breaks w rest) :
    s.run (b.render ++ rest) = (s.moveOn (b.spelling s.line) b.height).run rest := by
  cases b with
  | single m => exact run_render s (h m (by simp [Batch.members])) hb
  | atomic line members =>
    have htext : Batch.render (.atomic line members) ++ rest =
        "ATOMIC".toList ++ ' ' :: '\x7b' :: '\n' ::
          (members.flatMap (fun m => ' ' :: ' ' :: m.command.render ++ ['\n']) ++ '\x7d' :: rest) := by
      show "ATOMIC \x7b\n".toList ++
        members.flatMap (fun m => ' ' :: ' ' :: m.command.render ++ ['\n']) ++ ['\x7d'] ++ rest = _
      simp only [List.append_assoc]
      rfl
    have hmembers : ∀ m ∈ members, m.command.Readable := h
    rw [htext, run_keyword s (by decide), run_openBrace, run_newline, run_members _ hmembers,
      run_closeBrace, Batch.spelling, Batch.height]
    congr 1
    simp [moveOn, push, pushAll]
    omega

theorem run_program (s : Scanner) {p : Program} (h : p.Readable) :
    ∃ last, s.run p.render = .ok ⟨s.found.reverse ++ p.spelling s.line, last⟩ := by
  induction p generalizing s with
  | nil => exact ⟨s.line, by rw [Program.render, Program.spelling, List.append_nil]; exact run_nil s⟩
  | cons b p ih =>
    obtain ⟨hb, hp⟩ := List.forall_mem_cons.mp h
    cases p with
    | nil =>
      have htext : Program.render [b] = b.render ++ [] := by simp [Program.render, Text.join]
      rw [htext, run_batch s hb fun _ => .nil, run_nil]
      exact ⟨s.line + b.height, by simp [moveOn, Program.spelling]⟩
    | cons b' p =>
      have htext : Program.render (b :: b' :: p) = b.render ++ '\n' :: Program.render (b' :: p) := by
        simp [Program.render, Text.join]
      rw [htext, run_batch s hb fun _ => .newline, run_newline]
      obtain ⟨last, hlast⟩ := ih _ hp
      exact ⟨last, by rw [hlast]; simp [moveOn, push, Program.spelling]⟩

end Command.Scanner

/-- **A program is scanned as it is spelled.** -/
theorem Program.scan_render {p : Program} (h : p.Readable) :
    ∃ last, scan p.render = .ok ⟨p.spelling 1, last⟩ :=
  Command.Scanner.run_program {} h

end BlockDocument
