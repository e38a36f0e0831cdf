import BlockDocument.Proofs.Command.Accepted
import BlockDocument.Proofs.Command.ReadProgram

/-!
# Writing and reading programs

The canonical text of a program reads back as the same program, on other lines, exactly if none of its
properties has a name that ends in a sign. Such names can be read, with a blank before the equals sign,
but the canonical text has no blank there.
-/

namespace BlockDocument

open Command

theorem Attributes.Plain.insert {properties : Attributes} (h : properties.Plain) {name : String}
    (hname : isSigned name.toList = false) (value : Attribute) :
    Plain (properties.insert name value) := by
  intro entry hentry
  rcases mem_toList_insert hentry with rfl | hentry
  · exact hname
  · exact h entry hentry

/-- A command without its line. -/
def Statement.unlined (s : Statement) : Statement := { s with line := 0 }

/-- A batch without its lines. -/
def Batch.unlined : Batch → Batch
  | single s => single s.unlined
  | atomic _ members => atomic 0 (members.map Statement.unlined)

/-- A program without its lines. -/
def Program.unlined (p : Program) : Program := p.map Batch.unlined

theorem Batch.unlined_membersFrom (line : Nat) (members : List Statement) :
    (membersFrom line members).map Statement.unlined = members.map Statement.unlined := by
  induction members generalizing line with
  | nil => rfl
  | cons s members ih => rw [membersFrom, List.map_cons, List.map_cons, ih]; rfl

theorem Program.unlined_startingAt (line : Nat) (p : Program) :
    (p.startingAt line).unlined = p.unlined := by
  have hbatch (line : Nat) (b : Batch) : (b.startingAt line).unlined = b.unlined := by
    cases b with
    | single s => rfl
    | atomic _ members =>
      rw [Batch.startingAt, Batch.unlined, Batch.unlined_membersFrom, Batch.unlined]
  induction p generalizing line with
  | nil => rfl
  | cons b p ih =>
    have hrest := ih (line + b.height + 1)
    rw [Program.unlined] at hrest ⊢
    rw [startingAt, List.map_cons, hbatch, hrest]
    rfl

theorem ok_of_any {r : Except Failure Program} {f : Program → Bool}
    (h : r.toOption.any f = true) : ∃ p, r = .ok p ∧ f p = true := by
  cases r with
  | error failure => cases h
  | ok p => exact ⟨p, rfl, h⟩

/-- **Reading undoes writing**: a program whose parts can be read back and whose properties have plain
names is read from its canonical text, on other lines. -/
theorem Program.unlined_parse_text {p : Program} (h : p.Readable) (hp : p.Plain)
    (hsize : p.text.utf8ByteSize ≤ Command.sourceBound) :
    (Program.parse p.text).map Program.unlined = .ok p.unlined := by
  rw [Program.parse_text_plain h hsize hp]
  exact congrArg Except.ok (Program.unlined_startingAt 1 p)

/-- A program with an addition whose content holds quotes, marks and ends of lines, and with a group. -/
def sampleProgram : Program :=
  [.single ⟨0, .append (.long "root_1") (some .text) (some 3) "a \"b\" \\ :: // é\n\x7d WITH x=1, ;"
      ((∅ : Attributes).insert "label" (.text "=;"))⟩,
   .atomic 0 [⟨0, .edit (.short 1) "tags" .add "x"⟩, ⟨0, .delete (.short 2) .kept⟩]]

theorem Program.unlined_parse_sample :
    sampleProgram.Readable ∧ sampleProgram.Plain ∧
      sampleProgram.text.utf8ByteSize ≤ Command.sourceBound ∧
      (Program.parse sampleProgram.text).map Program.unlined = .ok sampleProgram.unlined := by
  have h : sampleProgram.Readable := by
    simp only [sampleProgram, Program.Readable, Batch.Readable, Batch.members, List.forall_mem_cons,
      List.not_mem_nil, false_imp_iff, implies_true, and_true, Command.Readable]
    refine ⟨⟨?_, ?_, Attributes.readable_empty.insert (by decide) trivial⟩, ⟨?_, ?_⟩, ?_⟩
    · exact ⟨by decide, List.all_eq_true.mp (by decide), '_', by decide, by decide⟩
    · rintro _ ⟨⟩
      decide
    · exact Nat.one_lt_two_pow (by decide)
    · decide
    · show 2 < 2 ^ 32
      decide
  have hp : sampleProgram.Plain := by
    simp only [sampleProgram, Program.Plain, Batch.Plain, Batch.members, List.forall_mem_cons,
      List.not_mem_nil, false_imp_iff, implies_true, and_true, Command.Plain, Command.properties]
    exact ⟨Attributes.plain_empty.insert (by decide) _, Attributes.plain_empty,
      Attributes.plain_empty⟩
  have hsize : sampleProgram.text.utf8ByteSize ≤ Command.sourceBound := by decide +kernel
  exact ⟨h, hp, hsize, Program.unlined_parse_text h hp hsize⟩

/-- **What is read from a canonical text again**: a program that was read from some text is read again
from its canonical text, on other lines, exactly if its properties have plain names. -/
theorem Program.unlined_parse_text_iff {source : String} {p : Program}
    (h : Program.parse source = .ok p) (hsize : p.text.utf8ByteSize ≤ Command.sourceBound) :
    (Program.parse p.text).map Program.unlined = .ok p.unlined ↔ p.Plain := by
  have hreadable := Program.readable_of_parse h
  constructor
  · intro hsame
    by_contra hp
    obtain ⟨failure, hfailure⟩ := Program.parse_text_refused hreadable hsize hp
    rw [hfailure] at hsame
    cases hsame
  · intro hp
    rw [Program.parse_text_plain hreadable hsize hp]
    exact congrArg Except.ok (Program.unlined_startingAt 1 p)

/-- Two commands that are not written canonically, and a blank line. -/
def spacedSource : String :=
  "append 007 AT +1 ::  raw; text\n\n link 1 references 2 with a=.5 , b = yes"

theorem Program.unlined_parse_spaced :
    ∃ p, Program.parse spacedSource = .ok p ∧ p.text.utf8ByteSize ≤ Command.sourceBound ∧
      ((Program.parse p.text).map Program.unlined = .ok p.unlined ↔ p.Plain) := by
  have hread : (Program.parse spacedSource).toOption.any (fun p =>
      decide (p.text.utf8ByteSize ≤ Command.sourceBound)) = true := by
    decide +kernel
  obtain ⟨p, hp, hsize⟩ := ok_of_any hread
  have hsize := of_decide_eq_true hsize
  exact ⟨p, hp, hsize, Program.unlined_parse_text_iff hp hsize⟩

/-- A text with a property whose name ends in a sign. -/
def signedSource : String := "LINK 1 references 2 WITH a+ = 1"

/-- The text is read, and the canonical text of what it says is refused. -/
theorem Program.parse_signedSource :
    ∃ p, Program.parse signedSource = .ok p ∧ p.text.utf8ByteSize ≤ Command.sourceBound ∧
      ¬ (Program.parse p.text).map Program.unlined = .ok p.unlined := by
  have hread : (Program.parse signedSource).toOption.any (fun p =>
      decide (p.text.utf8ByteSize ≤ Command.sourceBound) &&
        (Program.parse p.text).toOption.isNone) = true := by
    decide +kernel
  obtain ⟨p, hp, hrefused⟩ := ok_of_any hread
  rw [Bool.and_eq_true, decide_eq_true_eq] at hrefused
  obtain ⟨hsize, hnone⟩ := hrefused
  refine ⟨p, hp, hsize, fun hsame => ?_⟩
  cases hagain : Program.parse p.text with
  | error failure =>
    rw [hagain] at hsame
    cases hsame
  | ok q =>
    rw [hagain] at hnone
    cases hnone

end BlockDocument
