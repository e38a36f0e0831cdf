import BlockDocument.Command.Script
import BlockDocument.Proofs.Command.Read

/-!
# Reading the tokens of canonical programs

A program whose properties have plain names is read back with the lines on which its commands stand.
Any other program is refused.
-/

namespace BlockDocument

open Command

/-- The members of a group whose first member stands on a line. -/
def Batch.membersFrom (line : Nat) : List Statement → List Statement
  | [] => []
  | s :: rest => ⟨line, s.command⟩ :: membersFrom (line + 1) rest

/-- A batch that starts on a line. -/
def Batch.startingAt (line : Nat) : Batch → Batch
  | single s => single ⟨line, s.command⟩
  | atomic _ members => atomic line (membersFrom (line + 1) members)

/-- A program that starts on a line. -/
def Program.startingAt (line : Nat) : Program → Program
  | [] => []
  | b :: rest => b.startingAt line :: startingAt (line + b.height + 1) rest

/-- Batches whose properties have plain names. -/
def Batch.Plain (b : Batch) : Prop := ∀ s ∈ b.members, s.command.Plain

/-- Programs whose properties have plain names. -/
def Program.Plain (p : Program) : Prop := ∀ b ∈ p, b.Plain

namespace Command.Reader

/-- The token at the end of a line. -/
abbrev endOfLine (line : Nat) : Token := ⟨.newline, "\n", line⟩

theorem halts_endOfLine (line : Nat) (ts : List Token) : Halts (endOfLine line :: ts) := by
  rintro _ ⟨⟩
  rfl

theorem expectEnd_eq {ts : List Token} (h : Halts ts) (grouped : Bool) :
    expectEnd grouped ts = .ok () ts := by
  cases ts with
  | nil => rfl
  | cons t ts =>
    have hsep : isSeparator t = true := by
      rw [isSeparator, h t rfl]
      rfl
    rw [expectEnd, bind_ok (peek_eq _), List.head?_cons]
    dsimp only
    rw [hsep, Bool.true_or, if_pos rfl]
    rfl

/-- Where a command may end: at the end, at a separator, or inside a group at its closing brace. -/
def Ends (grouped : Bool) (ts : List Token) : Prop :=
  ts.head?.all (fun t => isSeparator t || (grouped && t.kind == .closeBrace)) = true

theorem expectEnd_eq_ok {grouped : Bool} {ts rest : List Token} {u : Unit}
    (h : expectEnd grouped ts = .ok u rest) : rest = ts ∧ Ends grouped ts := by
  rw [expectEnd, bind_ok (peek_eq ts)] at h
  cases hhead : ts.head? with
  | none =>
    rw [hhead] at h
    cases h
    exact ⟨rfl, by rw [Ends, hhead, Option.all_none]⟩
  | some t =>
    rw [hhead] at h
    dsimp only at h
    split at h
    · rename_i hends
      cases h
      exact ⟨rfl, by rw [Ends, hhead, Option.all_some, hends]⟩
    · cases h

theorem skipSeparators_eq (ts : List Token) :
    skipSeparators ts = .ok () (ts.dropWhile isSeparator) := rfl

theorem isSeparator_of_dropWhile {t : Token} {ts rest : List Token}
    (h : ts.dropWhile isSeparator = t :: rest) : isSeparator t = false := by
  have hhead := List.head?_dropWhile_not isSeparator ts
  rw [h, List.head?_cons] at hhead
  exact hhead

/-- No separator stands at the start of a command. -/
theorem dropWhile_spelling (c : Command) (line : Nat) (ts : List Token) :
    (c.spelling line ++ ts).dropWhile isSeparator = c.spelling line ++ ts := by
  rw [spelling_eq]
  rfl

theorem isKeyword_spelling (c : Command) (line : Nat) :
    isKeyword "ATOMIC" (some ⟨.word, c.keyword, line⟩) = false := by
  rw [isKeyword_word]
  cases c <;> rw [keyword] <;> decide

theorem statement_read {c : Command} (h : c.Readable) (hp : c.Plain) (grouped : Bool)
    (line : Nat) {ts : List Token} (ht : Halts ts) :
    statement grouped line (c.spelling line ++ ts) = .ok ⟨line, c⟩ ts := by
  rw [statement, bind_ok (command_read h hp line ht), bind_ok (expectEnd_eq ht grouped)]
  rfl

theorem statement_refused {c : Command} (h : c.Readable) (hp : ¬ c.Plain) (grouped : Bool)
    (line : Nat) (ts : List Token) : Refuses (statement grouped line) (c.spelling line ++ ts) :=
  (command_refused h hp line ts).bind

/-! ## Groups -/

/-- Where a command is spelled on the next line of a group, it is read next. -/
theorem members_spelling (c : Command) (fuel : Nat) (read : List Statement) (before line : Nat)
    (ts : List Token) :
    members (fuel + 1) read (endOfLine before :: (c.spelling line ++ ts)) =
      (statement true line >>= fun s => members fuel (s :: read)) (c.spelling line ++ ts) := by
  rw [members, bind_ok (skipSeparators_eq _), List.dropWhile_cons_of_pos rfl, dropWhile_spelling,
    bind_ok (peek_eq _), spelling_eq, List.cons_append, List.head?_cons]
  dsimp only
  rw [if_neg (by simp), isKeyword_spelling, if_neg Bool.false_ne_true]

theorem members_read {ms : List Statement} (h : ∀ m ∈ ms, m.command.Readable)
    (hp : ∀ m ∈ ms, m.command.Plain) {fuel : Nat} (hfuel : ms.length ≤ fuel)
    (read : List Statement) (before line close : Nat) (ts : List Token) :
    members (fuel + 1) read
        (endOfLine before :: (Batch.membersSpelling line ms ++ ⟨.closeBrace, "\x7d", close⟩ :: ts)) =
      .ok (read.reverse ++ Batch.membersFrom line ms) ts := by
  induction ms generalizing fuel read before line with
  | nil =>
    rw [Batch.membersFrom, List.append_nil]
    rfl
  | cons m ms ih =>
    obtain ⟨hm, hms⟩ := List.forall_mem_cons.mp h
    obtain ⟨hpm, hpms⟩ := List.forall_mem_cons.mp hp
    obtain ⟨fuel, rfl⟩ : ∃ n, fuel = n + 1 := ⟨fuel - 1, by simp at hfuel; omega⟩
    have hread := statement_read hm hpm true line (halts_endOfLine line
      (Batch.membersSpelling (line + 1) ms ++ ⟨.closeBrace, "\x7d", close⟩ :: ts))
    rw [Batch.membersSpelling, List.append_assoc, List.cons_append, members_spelling, bind_ok hread,
      ih hms hpms (by simpa using hfuel), Batch.membersFrom, List.reverse_cons, List.append_assoc]
    rfl

theorem members_refused {ms : List Statement} (h : ∀ m ∈ ms, m.command.Readable)
    (hp : ∃ m ∈ ms, ¬ m.command.Plain) {fuel : Nat} (hfuel : ms.length ≤ fuel)
    (read : List Statement) (before line : Nat) (ts : List Token) :
    Refuses (members fuel read) (endOfLine before :: (Batch.membersSpelling line ms ++ ts)) := by
  induction ms generalizing fuel read before line with
  | nil =>
    obtain ⟨m, hm, -⟩ := hp
    cases hm
  | cons m ms ih =>
    obtain ⟨hm, hms⟩ := List.forall_mem_cons.mp h
    obtain ⟨fuel, rfl⟩ : ∃ n, fuel = n + 1 := ⟨fuel - 1, by simp at hfuel; omega⟩
    rw [Batch.membersSpelling, List.append_assoc, List.cons_append, Refuses, members_spelling]
    by_cases hpm : m.command.Plain
    · obtain ⟨x, hx, hpx⟩ := hp
      rcases List.mem_cons.mp hx with rfl | hx
      · exact absurd hpm hpx
      · exact Refuses.after (statement_read hm hpm true line (halts_endOfLine line _))
          (ih hms ⟨x, hx, hpx⟩ (by simpa using hfuel) ..)
    · exact (statement_refused hm hpm true line _).bind

theorem length_le_membersSpelling (line : Nat) (ms : List Statement) :
    ms.length ≤ (Batch.membersSpelling line ms).length := by
  induction ms generalizing line with
  | nil => exact Nat.zero_le _
  | cons m ms ih =>
    have := ih (line + 1)
    rw [Batch.membersSpelling]
    simp only [List.length_append, List.length_cons]
    omega

section Group

variable {ms : List Statement} (h : ∀ m ∈ ms, m.command.Readable) (line close : Nat)

include h

theorem group_read (hp : ∀ m ∈ ms, m.command.Plain) {ts : List Token} (ht : Halts ts) :
    group line (⟨.openBrace, "\x7b", line⟩ :: endOfLine line ::
        (Batch.membersSpelling (line + 1) ms ++ ⟨.closeBrace, "\x7d", close⟩ :: ts)) =
      .ok (.atomic line (Batch.membersFrom (line + 1) ms)) ts := by
  rw [group, bind_ok (expect_cons ..)]
  show (members _ [] >>= _) _ = _
  rw [bind_ok (members_read h hp ?_ [] line (line + 1) close ts), bind_ok (expectEnd_eq ht false)]
  · rfl
  · have := length_le_membersSpelling (line + 1) ms
    simp only [List.length_append, List.length_cons]
    omega

theorem group_refused (hp : ∃ m ∈ ms, ¬ m.command.Plain) (ts : List Token) :
    Refuses (group line) (⟨.openBrace, "\x7b", line⟩ :: endOfLine line ::
      (Batch.membersSpelling (line + 1) ms ++ ts)) := by
  rw [group]
  refine .after (expect_cons ..) ?_
  show Refuses (members _ [] >>= _) _
  refine (members_refused h hp ?_ [] line (line + 1) ts).bind
  have := length_le_membersSpelling (line + 1) ms
  simp only [List.length_append, List.length_cons]
  omega

end Group

/-! ## Batches -/

theorem dropWhile_batch (b : Batch) (line : Nat) (ts : List Token) :
    (b.spelling line ++ ts).dropWhile isSeparator = b.spelling line ++ ts := by
  cases b with
  | single s => exact dropWhile_spelling s.command line ts
  | atomic _ ms => rfl

theorem dropWhile_program (p : Program) (line : Nat) :
    (p.spelling line).dropWhile isSeparator = p.spelling line := by
  cases p with
  | nil => rfl
  | cons b p =>
    cases p with
    | nil =>
      have hb := dropWhile_batch b line []
      rwa [List.append_nil] at hb
    | cons b' p => exact dropWhile_batch b line _

/-- What reads a batch that starts on a line. -/
def batchReader (line : Nat) : Batch → Reader Batch
  | .single _ => .single <$> statement false line
  | .atomic _ _ => do
    advance
    group line

section Batches

variable {b : Batch} (h : b.Readable) (line : Nat) {rest : List Token}

/-- Where a batch is spelled, it is read next. -/
theorem batches_spelling (b : Batch) (fuel : Nat) (read : List Batch) {ts : List Token}
    (hts : ts.dropWhile isSeparator = b.spelling line ++ rest) :
    batches (fuel + 1) read ts =
      (batchReader line b >>= fun b => batches fuel (b :: read)) (b.spelling line ++ rest) := by
  rw [batches, bind_ok (skipSeparators_eq _), hts, bind_ok (peek_eq _)]
  cases b with
  | single s =>
    rw [batchReader, bind_map_left, Batch.spelling, spelling_eq, List.cons_append, List.head?_cons]
    dsimp only
    rw [isKeyword_spelling, if_neg Bool.false_ne_true]
  | atomic _ ms =>
    rw [batchReader, Batch.spelling, List.cons_append, List.head?_cons]
    dsimp only
    rw [isKeyword_word, if_pos (by decide)]
    rfl

include h

theorem batch_read (hp : b.Plain) (hrest : Halts rest) :
    batchReader line b (b.spelling line ++ rest) = .ok (b.startingAt line) rest := by
  cases b with
  | single s =>
    have hs : s.command.Readable := h s (by simp [Batch.members])
    have hps : s.command.Plain := hp s (by simp [Batch.members])
    exact map_ok (statement_read hs hps false line hrest)
  | atomic _ ms =>
    have hread := group_read h line (line + (ms.length + 1)) hp hrest
    rw [Batch.spelling]
    simp only [List.cons_append, List.append_assoc]
    exact hread

theorem batch_refused (hp : ¬ b.Plain) (rest : List Token) :
    Refuses (batchReader line b) (b.spelling line ++ rest) := by
  have hstop : ∃ s ∈ b.members, ¬ s.command.Plain := by simpa [Batch.Plain] using hp
  cases b with
  | single s =>
    have hs : s.command.Readable := h s (by simp [Batch.members])
    have hps : ¬ s.command.Plain := by simpa [Batch.members] using hstop
    rw [batchReader, map_eq_pure_bind]
    exact (statement_refused hs hps false line rest).bind
  | atomic _ ms =>
    have hrefuse := group_refused h line hstop
    rw [Batch.spelling]
    simp only [List.cons_append, List.append_assoc]
    exact hrefuse _

end Batches

/-! ## Programs -/

/-- A program is spelled batch by batch, with the end of a line between two of them. -/
theorem spelling_cons (b : Batch) (p : Program) (line : Nat) :
    ∃ rest, Program.spelling line (b :: p) = b.spelling line ++ rest ∧ Halts rest ∧
      rest.dropWhile isSeparator = Program.spelling (line + b.height + 1) p := by
  cases p with
  | nil => exact ⟨[], by rw [List.append_nil]; rfl, nofun, rfl⟩
  | cons b' p =>
    refine ⟨_, rfl, halts_endOfLine _ _, ?_⟩
    rw [List.dropWhile_cons_of_pos rfl, dropWhile_program]

section Programs

variable {p : Program} (h : p.Readable) {fuel : Nat} (hfuel : p.length ≤ fuel)
  (read : List Batch) (line : Nat) {ts : List Token}
  (hts : ts.dropWhile isSeparator = p.spelling line)

include h hfuel hts

theorem batches_read (hp : p.Plain) :
    batches (fuel + 1) read ts = .ok (read.reverse ++ p.startingAt line) [] := by
  induction p generalizing fuel read line ts with
  | nil =>
    rw [batches, bind_ok (skipSeparators_eq _), hts, Program.startingAt, List.append_nil]
    rfl
  | cons b p ih =>
    obtain ⟨hb, hreadable⟩ := List.forall_mem_cons.mp h
    obtain ⟨hpb, hplain⟩ := List.forall_mem_cons.mp hp
    obtain ⟨fuel, rfl⟩ : ∃ n, fuel = n + 1 := ⟨fuel - 1, by simp at hfuel; omega⟩
    have hlength : p.length ≤ fuel := by simpa using hfuel
    obtain ⟨rest, hstart, hrest, hend⟩ := spelling_cons b p line
    rw [batches_spelling line b fuel.succ read (hts.trans hstart),
      bind_ok (batch_read hb line hpb hrest), ih hreadable hlength _ _ hend hplain,
      Program.startingAt, List.reverse_cons, List.append_assoc]
    rfl

theorem batches_refused (hp : ¬ p.Plain) : Refuses (batches (fuel + 1) read) ts := by
  induction p generalizing fuel read line ts with
  | nil => exact absurd (fun b hb => nomatch hb) hp
  | cons b p ih =>
    obtain ⟨hb, hreadable⟩ := List.forall_mem_cons.mp h
    obtain ⟨rest, hstart, hrest, hend⟩ := spelling_cons b p line
    rw [Refuses, batches_spelling line b fuel read (hts.trans hstart)]
    by_cases hpb : b.Plain
    · obtain ⟨fuel, rfl⟩ : ∃ n, fuel = n + 1 := ⟨fuel - 1, by simp at hfuel; omega⟩
      have hlength : p.length ≤ fuel := by simpa using hfuel
      have hlater : ¬ Program.Plain p := fun hplain => hp (List.forall_mem_cons.mpr ⟨hpb, hplain⟩)
      exact Refuses.after (batch_read hb line hpb hrest) (ih hreadable hlength _ _ hend hlater)
    · exact (batch_refused hb line hpb rest).bind

end Programs

theorem length_le_spelling (p : Program) (line : Nat) : p.length ≤ (p.spelling line).length := by
  have hb (b : Batch) (line : Nat) : 0 < (b.spelling line).length := by
    cases b with
    | single s =>
      rw [Batch.spelling, spelling_eq]
      exact Nat.zero_lt_succ _
    | atomic _ ms => exact Nat.zero_lt_succ _
  induction p generalizing line with
  | nil => exact Nat.zero_le _
  | cons b p ih =>
    have hhead := hb b line
    cases p with
    | nil => exact hhead
    | cons b' p =>
      have hrest := ih (line + b.height + 1)
      rw [Program.spelling]
      simp only [List.length_append, List.length_cons] at hrest ⊢
      omega

end Command.Reader

/-! ## The text of a program -/

section Text

variable {p : Program} (h : p.Readable) (hsize : p.text.utf8ByteSize ≤ Command.sourceBound)

include h hsize

theorem Program.parse_text_eq :
    ∃ last, Program.parse p.text =
      located p.render (Tokens.program ⟨p.spelling 1, last⟩) := by
  obtain ⟨last, hscan⟩ := p.scan_render h
  refine ⟨last, ?_⟩
  have hlist : p.text.toList = p.render := String.toList_ofList
  rw [Program.parse, if_neg (Nat.not_lt.mpr hsize), hlist]
  show (tokens p.render >>= fun t => located p.render t.program) = _
  rw [tokens, hscan]
  rfl

/-- **A program with plain names is read back, on the lines of its text.** -/
theorem Program.parse_text_plain (hp : p.Plain) :
    Program.parse p.text = .ok (p.startingAt 1) := by
  obtain ⟨last, hparse⟩ := Program.parse_text_eq h hsize
  rw [hparse, Tokens.program, Reader.batches_read h (Reader.length_le_spelling p 1) [] 1
    (Reader.dropWhile_program p 1) hp]
  rfl

/-- **A program with a name that ends in a sign is refused.** -/
theorem Program.parse_text_refused (hp : ¬ p.Plain) :
    ∃ failure, Program.parse p.text = .error failure := by
  obtain ⟨last, hparse⟩ := Program.parse_text_eq h hsize
  obtain ⟨fault, rest, hrefuse⟩ := Reader.batches_refused h (Reader.length_le_spelling p 1) [] 1
    (Reader.dropWhile_program p 1) hp
  rw [hparse, Tokens.program, hrefuse]
  exact ⟨_, rfl⟩

end Text

end BlockDocument
