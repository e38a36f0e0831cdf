import BlockDocument.Proofs.Execution.Executor
import BlockDocument.Proofs.Execution.Rollback
import BlockDocument.Proofs.Resolution

/-!
# What is checked before a program runs

A program is refused as a whole if it cannot be read, if it has too many commands, or if a short number
in it names no block; nothing has run by then. The check looks at every command, those in groups
included, and at every block that it mentions, and these are the numbers that commands are looked up by
when they run. So once a program runs, no batch of it fails for a short number.
-/

namespace BlockDocument

namespace Program

variable {bound : Nat} {resolver : Resolver} {p : Program}

/-! ## The number of commands -/

/-- The commands are within a bound if no batch takes them beyond it. -/
theorem overrun?_eq_none_iff {before : Nat} (hbefore : before ≤ bound) :
    p.overrun? bound before = none ↔ before + p.statements.length ≤ bound := by
  induction p generalizing before with
  | nil => simpa [overrun?, statements] using hbefore
  | cons b rest ih =>
    rw [overrun?, length_statements_cons]
    split
    · rename_i hover
      simp only [reduceCtorEq, false_iff]
      omega
    · rename_i hwithin
      rw [ih (Nat.le_of_not_lt hwithin), Nat.add_assoc]

theorem mem_of_overrun? {before : Nat} {b : Batch} (h : p.overrun? bound before = some b) : b ∈ p := by
  induction p generalizing before with
  | nil => cases h
  | cons b' rest ih =>
    rw [overrun?] at h
    split at h
    · cases h
      exact List.mem_cons_self ..
    · exact List.mem_cons_of_mem b' (ih h)

/-! ## Short numbers -/

/-- A command of a program with a short number that names no block. -/
structure Unresolved (resolver : Resolver) (p : Program) (s : Statement) (n : Nat) : Prop where
  mem : s ∈ p.statements
  mentions : s.command.Mentions (.short n)
  unknown : resolver n = none

theorem unresolved_of_unknownShort? {line n : Nat} (h : p.unknownShort? resolver = some (line, n)) :
    ∃ s, p.Unresolved resolver s n ∧ s.line = line := by
  obtain ⟨s, hs, hfound⟩ := List.exists_of_findSome?_eq_some h
  obtain ⟨m, hm, hpair⟩ := Option.map_eq_some_iff.mp hfound
  obtain ⟨hline, rfl⟩ := Prod.mk.inj hpair
  obtain ⟨r, hr, hunknown⟩ := List.exists_of_findSome?_eq_some hm
  obtain ⟨rfl, hnone⟩ := Reference.unknown?_eq_some_iff.mp hunknown
  exact ⟨s, ⟨List.mem_reverse.mp hs, Command.mem_references_iff.mp hr, hnone⟩, hline⟩

theorem unknownShort?_ne_none_of_unresolved {s : Statement} {n : Nat} (h : p.Unresolved resolver s n) :
    p.unknownShort? resolver ≠ none := by
  intro hnone
  obtain ⟨b, hb, hs⟩ := List.mem_flatMap.mp h.mem
  have hknown := unknownShort?_eq_none.mp hnone b hb s hs _ (Command.mem_references_iff.mpr h.mentions)
  rw [Reference.unknown?_eq_some_iff.mpr ⟨rfl, h.unknown⟩] at hknown
  cases hknown

/-! ## Both checks -/

/-- What a program is refused for: a batch with which it has too many commands, or else a command with a
short number that names no block. -/
inductive Refused (bound : Nat) (resolver : Resolver) (p : Program) : Nat → Command.Fault → Prop
  | tooMany {b : Batch} (hb : b ∈ p) (hsize : bound < p.statements.length) :
    Refused bound resolver p b.line (.tooManyCommands bound)
  | unresolved {s : Statement} {n : Nat} (hsize : p.statements.length ≤ bound)
    (hs : p.Unresolved resolver s n) :
    Refused bound resolver p s.line (.unknownShortId n)

theorem refused_of_check {line : Nat} {fault : Command.Fault}
    (h : p.check bound resolver = .error (line, fault)) : p.Refused bound resolver line fault := by
  rw [check] at h
  split at h
  · rename_i b hb
    cases h
    refine .tooMany (mem_of_overrun? hb) ?_
    by_contra hsize
    have hnone := (overrun?_eq_none_iff (p := p) (Nat.zero_le bound)).mpr (by omega)
    rw [hb] at hnone
    cases hnone
  · rename_i hcount
    have hsize := (overrun?_eq_none_iff (Nat.zero_le bound)).mp hcount
    split at h
    · rename_i line' n hunknown
      cases h
      obtain ⟨s, hs, rfl⟩ := unresolved_of_unknownShort? hunknown
      exact .unresolved (by omega) hs
    · cases h

theorem check_eq_ok_iff :
    p.check bound resolver = .ok () ↔
      p.statements.length ≤ bound ∧ ∀ s n, ¬ p.Unresolved resolver s n := by
  rw [check_eq_ok, overrun?_eq_none_iff (Nat.zero_le bound), Nat.zero_add]
  refine and_congr_right fun _ =>
    ⟨fun h s n hs => unknownShort?_ne_none_of_unresolved hs h, fun h => ?_⟩
  by_contra hsome
  obtain ⟨⟨line, n⟩, hfound⟩ := Option.ne_none_iff_exists'.mp hsome
  obtain ⟨s, hs, -⟩ := unresolved_of_unknownShort? hfound
  exact h s n hs

/-- The commands of a program that passes its checks mention blocks that can be found. -/
theorem unknown?_eq_none_of_check (h : p.check bound resolver = .ok ()) {b : Batch} (hb : b ∈ p) :
    ∀ s ∈ b.members, ∀ r ∈ s.command.references, r.unknown? resolver = none :=
  unknownShort?_eq_none.mp (check_eq_ok.mp h).2 b hb

end Program

namespace Executor

variable {e : Executor} {resolver : Resolver}

/-! ## Runs -/

/-- A step whose references all name blocks fails for other reasons. -/
theorem failsOtherwise_step {c : Command} (h : ∀ r ∈ c.references, r.unknown? resolver = none)
    (known : List (String × Option BlockId)) : (e.step resolver known c).FailsOtherwise :=
  (Edit.failsOtherwise_ofExcept (Command.failsOtherwise_mutation h)).bind fun m =>
    (m.failsOtherwise_apply _).bind fun outcome => Edit.failsOtherwise_get_bind fun _ =>
      (Edit.failsOtherwise_ofExcept (failsOtherwise_requireNone _)).bind fun _ =>
        Edit.failsOtherwise_pure outcome

theorem failsOtherwise_runMembers {members : List Statement} {d : Document}
    {known : List (String × Option BlockId)} {line : Nat} {failure : Failure}
    (hmembers : ∀ s ∈ members, ∀ r ∈ s.command.references, r.unknown? resolver = none)
    (h : e.runMembers resolver known members d = .error (line, failure)) :
    failure.isUnknownShort = false := by
  induction members generalizing d with
  | nil => cases h
  | cons s rest ih =>
    obtain ⟨hs, hrest⟩ := List.forall_mem_cons.mp hmembers
    rw [runMembers] at h
    cases hstep : e.step resolver known s.command d with
    | error failure' d' =>
      simp only [hstep] at h
      cases h
      exact failsOtherwise_step hs known d _ d' hstep
    | ok outcome d' =>
      cases hr : e.runMembers resolver known rest d' with
      | ok result => simp [hstep, hr] at h
      | error fault =>
        simp only [hstep, hr] at h
        cases h
        exact ih hrest hr

/-- The reports on the batches of a program all of whose references name blocks. -/
theorem failsOtherwise_runFrom {p : Program} {n : Nat} {d : Document}
    (hp : ∀ b ∈ p, ∀ s ∈ b.members, ∀ r ∈ s.command.references, r.unknown? resolver = none) :
    ∀ f ∈ (e.runFrom resolver n p {} d).1.errors, f.failure.isUnknownShort = false := by
  induction p generalizing n d with
  | nil =>
    intro f hf
    cases hf
  | cons b rest ih =>
    obtain ⟨hb, hrest⟩ := List.forall_mem_cons.mp hp
    intro f hf
    rw [runFrom_cons_empty, Execution.append, List.mem_append] at hf
    rcases hf with hf | hf
    · cases hrun : e.runBatch resolver b d with
      | ok result => simp [runOne, hrun] at hf
      | error fault =>
        obtain ⟨line, failure⟩ := fault
        rw [runOne_of_error hrun, List.mem_singleton] at hf
        rw [hf]
        exact failsOtherwise_runMembers hb hrun
    · exact ih hrest f hf

/-- Why a text is not run at all. -/
inductive Rejected (e : Executor) (resolver : Resolver) (source : String) : Failure → Prop
  | unread {failure : Failure} (h : Program.parse source = .error failure) :
    Rejected e resolver source failure
  | refused {p : Program} {line : Nat} {fault : Command.Fault} (hp : Program.parse source = .ok p)
    (h : p.Refused e.maxCommands resolver line fault) :
    Rejected e resolver source (fault.failure source.toList line)

theorem rejected_of_execute {source : String} {d d' : Document} {failure : Failure}
    (h : e.execute resolver source d = .error failure d') :
    d' = d ∧ e.Rejected resolver source failure := by
  rw [execute] at h
  cases hparse : Program.parse source with
  | error failure' =>
    rw [hparse] at h
    cases h
    exact ⟨rfl, .unread hparse⟩
  | ok p =>
    rw [hparse] at h
    change (ofExcept (Command.located source.toList (p.check e.maxCommands resolver)) >>=
      fun _ => modifyGet (e.run resolver p) : Edit Execution) d = _ at h
    cases hcheck : p.check e.maxCommands resolver with
    | error fault =>
      obtain ⟨line, fault⟩ := fault
      rw [hcheck] at h
      cases h
      exact ⟨rfl, .refused hparse (Program.refused_of_check hcheck)⟩
    | ok u =>
      rw [hcheck] at h
      cases h

theorem execute_of_rejected {source : String} {failure : Failure}
    (h : e.Rejected resolver source failure) (d : Document) :
    ∃ failure', e.execute resolver source d = .error failure' d := by
  cases hrun : e.execute resolver source d with
  | error failure' d' => exact ⟨failure', by rw [(rejected_of_execute hrun).1]⟩
  | ok x d' =>
    obtain ⟨p, hparse, hcheck, -⟩ := execute_eq_ok_iff.mp hrun
    obtain ⟨hsize, hknown⟩ := Program.check_eq_ok_iff.mp hcheck
    cases h with
    | unread h =>
      rw [hparse] at h
      cases h
    | refused hp h =>
      obtain rfl := Except.ok.inj (hparse.symm.trans hp)
      cases h with
      | tooMany hb hover => omega
      | unresolved _ hs => exact absurd hs (hknown _ _)

/-- A text is rejected if it is no program, or if its program has a fault of one of two kinds. -/
theorem exists_rejected_iff {source : String} :
    (∃ failure, e.Rejected resolver source failure) ↔
      (∃ failure, Program.parse source = .error failure) ∨
        ∃ p, Program.parse source = .ok p ∧
          (e.maxCommands < p.statements.length ∨
            ∃ s ∈ p.statements, ∃ n, s.command.Mentions (.short n) ∧ resolver n = none) := by
  constructor
  · rintro ⟨failure, hrejected⟩
    cases hrejected with
    | unread hparse => exact .inl ⟨failure, hparse⟩
    | refused hp hrefused =>
      refine .inr ⟨_, hp, ?_⟩
      cases hrefused with
      | tooMany hb hsize => exact .inl hsize
      | unresolved hsize hs => exact .inr ⟨_, hs.mem, _, hs.mentions, hs.unknown⟩
  · rintro (⟨failure, hparse⟩ | ⟨p, hp, hwhy⟩)
    · exact ⟨failure, .unread hparse⟩
    · by_cases hsize : p.statements.length ≤ e.maxCommands
      · obtain hover | ⟨s, hs, n, hmentions, hnone⟩ := hwhy
        · omega
        · exact ⟨_, .refused hp (.unresolved hsize ⟨hs, hmentions, hnone⟩)⟩
      · obtain ⟨b, hb⟩ : ∃ b, b ∈ p := by
          refine List.exists_mem_of_ne_nil p ?_
          rintro rfl
          exact hsize (Nat.zero_le _)
        exact ⟨_, .refused hp (.tooMany hb (Nat.lt_of_not_le hsize))⟩

/-- The report of a program that runs. -/
theorem failsOtherwise_execute {source : String} {d d' : Document} {x : Execution}
    (h : e.execute resolver source d = .ok x d') :
    ∀ f ∈ x.errors, f.failure.isUnknownShort = false := by
  obtain ⟨p, -, hcheck, hrun⟩ := execute_eq_ok_iff.mp h
  have hx : (e.runFrom resolver 0 p {} d).1 = x := congrArg Prod.fst hrun
  rw [← hx]
  exact failsOtherwise_runFrom fun b hb => Program.unknown?_eq_none_of_check hcheck hb

/-- **A program is refused before it runs or not at all for its short numbers.** It is refused if and only
if it cannot be read, or has too many commands, or some command in it, in a group or not, mentions a block
by a short number that names none. The document is then as it was, and in the last case the fault is
put on the line of such a command. If the program runs, no batch fails for a short number, nor for a group
within a group; the words of these failures do not occur in the report either. -/
theorem execute_rejected_iff (e : Executor) (resolver : Resolver) (source : String) (d : Document) :
    ((∃ failure d', e.execute resolver source d = .error failure d') ↔
      (∃ failure, Program.parse source = .error failure) ∨
        ∃ p, Program.parse source = .ok p ∧
          (e.maxCommands < p.statements.length ∨
            ∃ s ∈ p.statements, ∃ n, s.command.Mentions (.short n) ∧ resolver n = none)) ∧
    (∀ failure d', e.execute resolver source d = .error failure d' →
      d' = d ∧ (Program.parse source = .error failure ∨
        ∃ p, Program.parse source = .ok p ∧
          ((e.maxCommands < p.statements.length ∧ ∃ b ∈ p, failure =
              .malformed b.line (Command.fragment source.toList b.line)
                (.tooManyCommands e.maxCommands)) ∨
            p.statements.length ≤ e.maxCommands ∧
              ∃ s ∈ p.statements, ∃ n, s.command.Mentions (.short n) ∧ resolver n = none ∧ failure =
                .malformed s.line (Command.fragment source.toList s.line) (.unknownShortId n)))) ∧
    ∀ x d', e.execute resolver source d = .ok x d' → ∀ f ∈ x.errors,
      (∀ n, f.failure ≠ .refused (.unknownShortId n)) ∧
        (∀ words, f.failure.message ≠ "invalid operation: " ++ ("unknown short id" ++ words)) ∧
        f.failure.message ≠ "invalid operation: " ++ "ATOMIC groups cannot be nested" := by
  refine ⟨Iff.trans ⟨?_, ?_⟩ exists_rejected_iff, ?_, ?_⟩
  · rintro ⟨failure, d', h⟩
    exact ⟨failure, (rejected_of_execute h).2⟩
  · rintro ⟨failure, h⟩
    obtain ⟨failure', hrun⟩ := execute_of_rejected h d
    exact ⟨failure', d, hrun⟩
  · intro failure d' h
    obtain ⟨hd, hrejected⟩ := rejected_of_execute h
    refine ⟨hd, ?_⟩
    cases hrejected with
    | unread hparse => exact .inl hparse
    | refused hp hrefused =>
      refine .inr ⟨_, hp, ?_⟩
      cases hrefused with
      | tooMany hb hsize => exact .inl ⟨hsize, _, hb, rfl⟩
      | unresolved hsize hs => exact .inr ⟨hsize, _, hs.mem, _, hs.mentions, hs.unknown, rfl⟩
  · intro x d' h f hf
    have hshort (n : Nat) : f.failure ≠ .refused (.unknownShortId n) := by
      intro hn
      have hother := failsOtherwise_execute h f hf
      rw [hn] at hother
      cases hother
    refine ⟨hshort, fun words hwords => ?_, fun hwords => ?_⟩
    · obtain ⟨o, ho, hmessage⟩ := Failure.exists_of_message hwords
      obtain ⟨n, rfl⟩ := Objection.eq_unknownShortId_of_message hmessage
      exact hshort n ho
    · obtain ⟨o, -, hmessage⟩ := Failure.exists_of_message hwords
      exact o.message_ne_nested hmessage

/-- A group whose second command mentions a block that there is none of: nothing of it is run. -/
theorem execute_rejected_iff_group :
    let d := Document.create ⟨.sequential, 1⟩
    let source := "ATOMIC \x7b\nPRUNE UNREACHABLE\nDELETE 7\n\x7d"
    ∃ failure, Executor.execute {} (fun _ => none) source d = .error failure d ∧
      failure = .malformed 3 "DELETE 7" (.unknownShortId 7) := by
  intro d source
  have hfailure : (Executor.execute {} (fun _ => none) source).failure? d =
      some (.malformed 3 "DELETE 7" (.unknownShortId 7)) := by decide +kernel
  obtain ⟨d', hrun⟩ := Edit.failure?_eq_some_iff.mp hfailure
  obtain ⟨rfl, -⟩ := (execute_rejected_iff {} (fun _ => none) source d).2.1 _ d' hrun
  exact ⟨_, hrun, rfl⟩

end Executor

end BlockDocument
