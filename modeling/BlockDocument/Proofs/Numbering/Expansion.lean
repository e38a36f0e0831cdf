import Mathlib
import BlockDocument.Proofs.Command.RoundTrip
import BlockDocument.Proofs.Numbering.Read

/-!
# Texts with ids for numbers read as programs with ids for numbers

Between commands a replacement stands among words again, since whatever ends a command ends what
stands behind `WITH`. So every command is read from among words, and a whole program is read as the
program with ids for numbers: in tidy texts, and if nothing but references changes in its commands.
-/

namespace BlockDocument

open Command

namespace Command.Reader

variable {n : Numbering} {st : Stance} {ts : List Token}

/-! ## Ends of commands -/

theorem isSeparator_rewordToken (t : Token) :
    isSeparator (rewordToken n.longWord st t).1 = isSeparator t := by
  rw [isSeparator, isSeparator, kind_rewordToken]

theorem follows_expectEnd (grouped : Bool) :
    Follows n st ts (expectEnd grouped) (expectEnd grouped) fun _ _ _ => True := by
  refine follows_peek ?_
  cases ts with
  | nil => exact .pure trivial
  | cons t ts =>
    rw [retoken, List.head?_cons, List.head?_cons]
    dsimp only
    rw [isSeparator_rewordToken, kind_rewordToken]
    split
    · exact .pure trivial
    · exact .throw

/-- A place from which the next command is read among words: either words follow already, or what
stands behind `WITH` ends before the next command. -/
def Ready (grouped : Bool) (st : Stance) (ts : List Token) : Prop :=
  (∃ p, st = .free p) ∨ Ends grouped ts

theorem exists_closed (st : Stance) : ∃ p, st.closed = .free p := by
  cases st <;> exact ⟨_, rfl⟩

theorem closed_of_isSeparator {t : Token} (h : isSeparator t = true) :
    (rewordToken n.longWord st t).2 = st.closed := by
  rw [isSeparator, Bool.or_eq_true, beq_iff_eq, beq_iff_eq] at h
  rw [rewordToken]
  rcases h with h | h <;> rw [h]

/-- Behind separators, words follow. -/
theorem dropWhile_retoken {grouped : Bool} (h : Ready grouped st ts) :
    ∃ st', (retoken n.longWord st ts).dropWhile isSeparator =
        retoken n.longWord st' (ts.dropWhile isSeparator) ∧
      Ready grouped st' (ts.dropWhile isSeparator) := by
  induction ts generalizing st with
  | nil => exact ⟨st, rfl, h⟩
  | cons t ts ih =>
    rw [retoken]
    by_cases ht : isSeparator t = true
    · rw [List.dropWhile_cons_of_pos ht,
        List.dropWhile_cons_of_pos ((isSeparator_rewordToken t).trans ht), closed_of_isSeparator ht]
      exact ih (.inl (exists_closed st))
    · rw [List.dropWhile_cons_of_neg ht,
        List.dropWhile_cons_of_neg (by rwa [isSeparator_rewordToken])]
      exact ⟨st, rfl, h⟩

theorem follows_skipSeparators {grouped : Bool} (h : Ready grouped st ts) :
    Follows n st ts skipSeparators skipSeparators fun _ _ st' =>
      Ready grouped st' (ts.dropWhile isSeparator) := by
  rintro _ _ hts ⟨⟩
  obtain ⟨st', hst', hready⟩ := dropWhile_retoken (n := n) h
  refine ⟨fun t ht => hts t ((List.dropWhile_sublist _).mem ht), (), st', ?_, hready⟩
  rw [skipSeparators_eq, hst']

theorem ends_statement {grouped : Bool} {line : Nat} {s : Statement} {rest : List Token}
    (h : statement grouped line ts = .ok s rest) : Ends grouped rest := by
  obtain ⟨c, mid, -, hcommand⟩ := bind_eq_ok h
  obtain ⟨_, mid', hend, hdone⟩ := bind_eq_ok hcommand
  obtain ⟨rfl, hends⟩ := expectEnd_eq_ok hend
  cases hdone
  exact hends

theorem ends_group {line : Nat} {b : Batch} {rest : List Token} (h : group line ts = .ok b rest) :
    Ends false rest := by
  obtain ⟨_, _, -, hbrace⟩ := bind_eq_ok h
  obtain ⟨_, _, -, hlength⟩ := bind_eq_ok hbrace
  obtain ⟨ms, mid, -, hmembers⟩ := bind_eq_ok hlength
  obtain ⟨_, mid', hend, hdone⟩ := bind_eq_ok hmembers
  obtain ⟨rfl, hends⟩ := expectEnd_eq_ok hend
  cases hdone
  exact hends

/-- Where a command starts, words follow. -/
theorem Ready.exists_free {grouped : Bool} {t : Token} (h : Ready grouped st (t :: ts))
    (hseparator : isSeparator t = false) (hclose : grouped = true → t.kind ≠ .closeBrace) :
    ∃ p, st = .free p := by
  rcases h with h | h
  · exact h
  · rw [Ends, List.head?_cons, Option.all_some, hseparator, Bool.false_or, Bool.and_eq_true,
      beq_iff_eq] at h
    exact absurd h.2 (hclose h.1)

/-- The next command, or the end: from where one is read, words follow. -/
theorem follows_start {β : Type} {Q : β → β → Stance → Prop} {k k' : Option Token → Reader β}
    {grouped : Bool} (hready : Ready grouped st ts)
    (hnone : ∀ st, Follows n st [] (k none) (k' none) Q)
    (hsome : ∀ st t rest, isSeparator t = false → Ready grouped st (t :: rest) →
      Follows n st (t :: rest) (k (some t)) (k' (some (rewordToken n.longWord st t).1)) Q) :
    Follows n st ts (do skipSeparators; k (← peek)) (do skipSeparators; k' (← peek)) Q := by
  refine (follows_skipSeparators hready).bind fun _ _ st' rest hskip hready => follows_peek ?_
  rw [skipSeparators_eq] at hskip
  cases hskip
  cases hrest : ts.dropWhile isSeparator with
  | nil => exact hnone st'
  | cons t rest => exact hsome st' t rest (isSeparator_of_dropWhile hrest) (hrest ▸ hready)

/-! ## Lists of results -/

/-- The second list holds what a map makes of the first one, if its members have a property. -/
def MapsIf {α : Type} (P : α → Prop) (g : α → α) (l l' : List α) : Prop :=
  (∀ a ∈ l, P a) → l' = l.map g

section MapsIf

variable {α : Type} {P : α → Prop} {g : α → α} {l l' : List α}

theorem MapsIf.reverse (h : MapsIf P g l l') : MapsIf P g l.reverse l'.reverse := fun hall => by
  rw [h fun a ha => hall a (List.mem_reverse.mpr ha), List.map_reverse]

theorem MapsIf.cons (h : MapsIf P g l l') {a a' : α} (ha : P a → a' = g a) :
    MapsIf P g (a :: l) (a' :: l') := fun hall => by
  obtain ⟨hP, hall⟩ := List.forall_mem_cons.mp hall
  rw [ha hP, h hall, List.map_cons]

end MapsIf

/-! ## Statements and groups -/

variable (hn : n.Issued)

include hn

theorem follows_statement {p : Bool} (grouped : Bool) (line : Nat) :
    Follows n (.free p) ts (statement grouped line) (statement grouped line) fun s s' _ =>
      s.command.Expandable n → s' = s.relabel n :=
  (follows_command hn).bind fun _ _ _ _ _ hc => (follows_expectEnd grouped).bind fun _ _ _ _ _ _ =>
    .pure fun h => congrArg (Statement.mk line) (hc h)

/-- The members of a group, each read from among words. -/
theorem follows_members (fuel : Nat) {read read' : List Statement}
    (hread : MapsIf (fun s => s.command.Expandable n) (Statement.relabel n) read read')
    (hready : Ready true st ts) :
    Follows n st ts (members fuel read) (members fuel read') fun ms ms' _ =>
      MapsIf (fun s => s.command.Expandable n) (Statement.relabel n) ms ms' := by
  induction fuel generalizing read read' st ts with
  | zero => exact .pure hread.reverse
  | succ fuel ih =>
    refine follows_start hready (fun _ => .throw) fun st' t rest hseparator hready => ?_
    dsimp only
    rw [kind_rewordToken, isKeyword_rewordToken hn ⟨by decide, by decide⟩, line_rewordToken]
    split
    · exact follows_advance.bind fun _ _ _ _ _ _ => .pure hread.reverse
    · rename_i hclose
      split
      · exact .throw
      · obtain ⟨p, rfl⟩ := hready.exists_free hseparator fun _ => hclose
        exact (follows_statement hn true t.line).bind fun s s' _ _ hs hsame =>
          ih (hread.cons hsame) (.inr (ends_statement hs))

theorem follows_group {p : Bool} (line : Nat) :
    Follows n (.free p) ts (group line) (group line) fun b b' _ =>
      b.Expandable n → b' = b.relabel n := by
  refine (follows_expect (by decide)).bind fun _ _ st' rest _ ⟨_, hst'⟩ => follows_get ?_
  subst hst'
  rw [length_retoken]
  refine (follows_members hn _ (fun _ => rfl) (.inl ⟨p, rfl⟩)).bind fun ms ms' _ _ _ hms => ?_
  exact (follows_expectEnd false).bind fun _ _ _ _ _ _ => .pure fun h =>
    congrArg (Batch.atomic line) (hms h)

/-! ## Programs -/

/-- The batches of a program, each read from among words. -/
theorem follows_batches (fuel : Nat) {read read' : List Batch}
    (hread : MapsIf (Batch.Expandable n) (Batch.relabel n) read read')
    (hready : Ready false st ts) :
    Follows n st ts (batches fuel read) (batches fuel read') fun p p' _ =>
      p.Expandable n → p' = p.relabel n := by
  induction fuel generalizing read read' st ts with
  | zero => exact .pure hread.reverse
  | succ fuel ih =>
    refine follows_start hready (fun _ => .pure hread.reverse)
      fun st' t rest hseparator hready => ?_
    obtain ⟨p, rfl⟩ := hready.exists_free hseparator fun h => nomatch h
    dsimp only
    rw [isKeyword_rewordToken hn ⟨by decide, by decide⟩, line_rewordToken]
    split
    · rename_i hkeyword
      refine follows_advance.bind fun _ _ st' _ hadvance hst' => ?_
      cases hadvance
      obtain rfl : st' = .free false := by
        rw [isKeyword, Option.any_some, Bool.and_eq_true, beq_iff_eq] at hkeyword
        rw [hst' t rfl, rewordToken, hkeyword.1]
        exact congrArg Prod.snd
          (Numbering.reword_keyword (by decide) hkeyword.2 (by decide) (.free p))
      -- The stance behind the group is not known, but what ends the group makes up for that.
      exact (follows_group hn t.line).bind fun _ _ _ _ hb hsame =>
        ih (hread.cons hsame) (.inr (ends_group hb))
    · refine (follows_statement hn false t.line).bind fun s s' _ _ hs hsame =>
        ih (hread.cons fun h => ?_) (.inr (ends_statement hs))
      rw [hsame (h s (List.mem_singleton.mpr rfl))]
      rfl

end Command.Reader

/-! ## Texts -/

theorem Program.parse_eq_ok_iff {source : String} {p : Program} :
    Program.parse source = .ok p ↔ source.utf8ByteSize ≤ sourceBound ∧ ∃ t rest,
      scan source.toList = .ok t ∧
        Reader.batches (t.tokens.length + 1) [] t.tokens = .ok p rest := by
  -- the size is checked first, and then each stage stops at a fault of its own
  by_cases hsize : sourceBound < source.utf8ByteSize
  · rw [Program.parse, if_pos hsize]
    refine ⟨?_, fun h => absurd h.1 (Nat.not_le.mpr hsize)⟩
    rintro ⟨⟩
  · rw [Program.parse, if_neg hsize]
    change (tokens source.toList >>= fun t => located source.toList t.program) = _ ↔ _
    rw [tokens]
    cases hscan : scan source.toList with
    | error fault =>
      constructor
      · rintro ⟨⟩
      · rintro ⟨_, _, _, ⟨⟩, _⟩
    | ok t =>
      change located source.toList t.program = _ ↔ _
      rw [Tokens.program]
      cases hread : Reader.batches (t.tokens.length + 1) [] t.tokens with
      | error fault rest =>
        constructor
        · rintro ⟨⟩
        · rintro ⟨_, _, _, ⟨⟩, h⟩
          rw [hread] at h
          cases h
      | ok q rest =>
        constructor
        · rintro ⟨⟩
          exact ⟨Nat.not_lt.mp hsize, t, rest, rfl, hread⟩
        · rintro ⟨_, _, _, ⟨⟩, h⟩
          rw [hread] at h
          cases h
          rfl

/-- **A tidy text is read with ids for numbers**, as the program with ids for numbers if nothing but
references changes. -/
theorem Program.parse_expand {n : Numbering} (hn : n.Issued) {source : String} {p : Program}
    (h : Program.parse source = .ok p) (ht : tidyTails (segments source.toList) = true)
    (hsize : (n.expand source).utf8ByteSize ≤ sourceBound) :
    ∃ p', Program.parse (n.expand source) = .ok p' ∧ (p.Expandable n → p' = p.relabel n) := by
  obtain ⟨-, t, rest, hscan, hread⟩ := Program.parse_eq_ok_iff.mp h
  have hscan' := scan_replaceWords (Numbering.keepsPlaces_longWord hn) ht hscan
  have hlist : (n.expand source).toList = replaceWords n.longWord source.toList :=
    String.toList_ofList
  rw [← hlist] at hscan'
  obtain ⟨-, p', st', hread', hsame⟩ :=
    Reader.follows_batches hn (t.tokens.length + 1) (fun _ => rfl) (.inl ⟨false, rfl⟩) p rest
      (worded_scan hscan) hread
  rw [← Reader.length_retoken n.longWord (.free false)] at hread'
  exact ⟨p', Program.parse_eq_ok_iff.mpr ⟨hsize, _, _, hscan', hread'⟩, hsame⟩

/-! ## Execution -/

namespace Executor

variable (e : Executor) (resolver : Resolver)

/-- What becomes of a text that was read. -/
theorem execute_of_parse {source : String} {p : Program} (h : Program.parse source = .ok p)
    (d : Document) :
    e.execute resolver source d =
      match p.check e.maxCommands resolver with
      | .error (line, fault) => .error (fault.failure source.toList line) d
      | .ok () => .ok (e.run resolver p d).1 (e.run resolver p d).2 := by
  rw [execute, h]
  change (ofExcept (located source.toList (p.check e.maxCommands resolver)) >>= fun _ =>
    modifyGet (e.run resolver p) : Edit Execution) d = _
  cases p.check e.maxCommands resolver with
  | error fault => rfl
  | ok _ => rfl

end Executor

namespace Numbering

/-- **Ids for numbers change references only**: in a document whose ids have the issued form, a text
whose commands are expandable and whose stretches behind `WITH` are tidy is read with ids for
numbers as the same program with ids for numbers. An executor that knows no numbers does with it
what one that knows them does with the text as it was, or refuses it for the same fault. -/
theorem parse_and_execute_expand (d : Document)
    (hd : ∀ id, d.contains id = true → id.isWellFormed = true) {source : String} {p : Program}
    (h : Program.parse source = .ok p)
    (hsize : ((ofDocument d).expand source).utf8ByteSize ≤ sourceBound)
    (hp : p.Expandable (ofDocument d)) (ht : tidyTails (segments source.toList) = true) :
    let n := ofDocument d
    Program.parse (n.expand source) = .ok (p.relabel n) ∧
      ∀ (e : Executor) (d' : Document),
        match p.check e.maxCommands n.long? with
        | .ok () =>
          e.execute (fun _ => none) (n.expand source) d' = e.execute n.long? source d'
        | .error (line, fault) =>
          e.execute n.long? source d' = .error (fault.failure source.toList line) d' ∧
            e.execute (fun _ => none) (n.expand source) d' =
              .error (fault.failure (n.expand source).toList line) d' := by
  intro n
  have hn : n.Issued := fun id hid => hd id (mem_ids_ofDocument.mp hid)
  obtain ⟨p', hparse, hsame⟩ := Program.parse_expand hn h ht hsize
  rw [hsame hp] at hparse
  refine ⟨hparse, fun e d' => ?_⟩
  rw [e.execute_of_parse (fun _ => none) hparse, e.execute_of_parse n.long? h,
    Program.check_relabel, e.run_relabel]
  cases p.check e.maxCommands n.long? with
  | ok _ => rfl
  | error fault => exact ⟨rfl, rfl⟩

/-- Commands that name the root of a new document by its number, which stands elsewhere in them as
well. -/
def numberedSource : String :=
  "ATOMIC \x7b\n  EDIT 1 SET label = \"1\"; link 01 references 1 with a = 1 // 1\n\x7d\n" ++
    "APPEND 1 text AT 1 :: 1\nDELETE 1; MOVE 1 TO 1 INDEX 1 // 1\n"

theorem parse_and_execute_numberedSource :
    let d := Document.create ⟨.sequential, 1⟩
    let n := ofDocument d
    let e : Executor := {}
    ∃ p, Program.parse numberedSource = .ok p ∧ p.Expandable n ∧
      tidyTails (segments numberedSource.toList) = true ∧
      Program.parse (n.expand numberedSource) = .ok (p.relabel n) ∧
      e.execute (fun _ => none) (n.expand numberedSource) d = e.execute n.long? numberedSource d := by
  intro d n e
  have hread : (Program.parse numberedSource).toOption.any (fun p =>
      decide (p.Expandable n) && (p.check e.maxCommands n.long?).toBool) = true := by
    decide +kernel
  obtain ⟨p, hparse, hp⟩ := ok_of_any hread
  rw [Bool.and_eq_true, decide_eq_true_eq] at hp
  have ht : tidyTails (segments numberedSource.toList) = true := by decide +kernel
  have hsize : (n.expand numberedSource).utf8ByteSize ≤ sourceBound := by decide +kernel
  obtain ⟨hexpanded, hexecute⟩ :=
    parse_and_execute_expand d Document.isWellFormed_create hparse hsize hp.1 ht
  refine ⟨p, hparse, hp.1, ht, hexpanded, ?_⟩
  have hcheck : p.check e.maxCommands n.long? = .ok () := by
    cases h : p.check e.maxCommands n.long? with
    | error fault =>
      rw [h] at hp
      cases hp.2
    | ok _ => rfl
  have hsame := hexecute e d
  rw [hcheck] at hsame
  exact hsame

/-! ## Paths with numbers -/

/-- An edit whose path has the number of the root as a part. -/
def numberedPath : String := "EDIT 1 SET custom.1 = \"x\""

/-- A path does not stay if a part of it is the number of a block. -/
theorem parse_expand_numberedPath :
    let n := ofDocument (Document.create ⟨.sequential, 1⟩)
    (∀ id ∈ n.ids, id.isWellFormed = true) ∧
      (n.expand numberedPath).utf8ByteSize ≤ sourceBound ∧
      ∃ p, Program.parse numberedPath = .ok p ∧
        ¬ Program.parse (n.expand numberedPath) = .ok (p.relabel n) := by
  intro n
  have hread : (Program.parse numberedPath).toOption.any (fun p =>
      p.paths == ["custom.1"]) = true := by
    decide +kernel
  have hexpanded : (Program.parse (n.expand numberedPath)).toOption.any (fun p =>
      p.paths == ["custom.blk_000000000001"]) = true := by
    decide +kernel
  obtain ⟨p, hparse, hp⟩ := ok_of_any hread
  obtain ⟨q, hparse', hq⟩ := ok_of_any hexpanded
  rw [beq_iff_eq] at hp hq
  refine ⟨by decide +kernel, by decide +kernel, p, hparse, fun hsame => ?_⟩
  have hpaths : q.paths = p.paths := by
    rw [Except.ok.inj (hparse'.symm.trans hsame), Program.paths_relabel]
  rw [hp, hq] at hpaths
  exact absurd hpaths (by decide)

end Numbering

end BlockDocument
