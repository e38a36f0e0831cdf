import Mathlib
import BlockDocument.Execution.Executor

/-!
# Batches that fail leave no trace

A program runs batch by batch, and what a batch does depends on the document that it starts from and
on nothing else. A batch that fails hands on the document that it was given, with its source of ids,
so the program does what it would do without that batch (`Executor.run_committed`). The report
accounts for every batch: those that took effect are counted, and each of the others has one entry.
It says so three times over, with a flag, a count and a list, and every step keeps the three in
agreement (`Executor.tallied_runFrom`).

The theory is that of `runFrom_append`: a run in two parts is a run of the first part and, from the
document that it reaches, a run of the second.
-/

namespace BlockDocument

namespace Execution

/-- What was done first, and then what was done after it. -/
def append (x y : Execution) : Execution where
  success := x.success && y.success
  commandsApplied := x.commandsApplied + y.commandsApplied
  batchesApplied := x.batchesApplied + y.batchesApplied
  batchesFailed := x.batchesFailed + y.batchesFailed
  created := x.created ++ y.created
  errors := x.errors ++ y.errors

theorem append_assoc (x y z : Execution) : (x.append y).append z = x.append (y.append z) := by
  simp [append, Nat.add_assoc, Bool.and_assoc]

theorem empty_append (x : Execution) : append {} x = x := by
  simp [append]

theorem append_empty (x : Execution) : x.append {} = x := by
  simp [append]

/-- A report that says the same of its failures with its flag, its count and its list. -/
structure Tallied (x : Execution) : Prop where
  success : x.success = x.errors.isEmpty
  batchesFailed : x.batchesFailed = x.errors.length

theorem tallied_empty : Tallied {} := ⟨rfl, rfl⟩

theorem Tallied.append {x y : Execution} (hx : x.Tallied) (hy : y.Tallied) :
    (x.append y).Tallied where
  success := by
    rw [Execution.append, hx.success, hy.success]
    cases x.errors <;> rfl
  batchesFailed := by
    rw [Execution.append, hx.batchesFailed, hy.batchesFailed, List.length_append]

/-- The batches of a program that no error is reported for, if the first of them has a number. -/
def committedFrom (x : Execution) (n : Nat) (p : Program) : Program :=
  ((p.zipIdx n).filter fun b => b.2 ∉ x.errors.map BatchFailure.batch).map Prod.fst

/-- The batches of a program that took effect. -/
def committed (x : Execution) (p : Program) : Program := x.committedFrom 0 p

end Execution

/-! ## Parts of programs -/

namespace Program

theorem length_statements_cons (b : Batch) (rest : Program) :
    (statements (b :: rest)).length = b.size + (statements rest).length := by
  rw [statements, List.flatMap_cons, List.length_append, ← statements, ← Batch.size]

/-- The size of a program is the number of its commands. -/
theorem size_eq (p : Program) : p.size = p.statements.length := by
  induction p with
  | nil => rfl
  | cons b rest ih =>
    rw [length_statements_cons, ← ih, size, List.map_cons, List.sum_cons, size]

/-- A part of a program has no more commands than the program. -/
theorem overrun?_sublist {bound : Nat} {p q : Program} (hqp : List.Sublist q p) {m n : Nat}
    (hmn : m ≤ n) (h : p.overrun? bound n = none) : q.overrun? bound m = none := by
  induction hqp generalizing m n with
  | slnil => rfl
  | cons b _ ih =>
    rw [overrun?] at h
    split at h
    · cases h
    · exact ih (Nat.le_trans hmn (Nat.le_add_right ..)) h
  | cons_cons b _ ih =>
    rw [overrun?] at h ⊢
    split at h
    · cases h
    · rename_i hle
      rw [if_neg (by omega)]
      exact ih (by omega) h

theorem unknownShort?_eq_none {resolver : Resolver} {p : Program} :
    p.unknownShort? resolver = none ↔
      ∀ b ∈ p, ∀ s ∈ b.members, ∀ r ∈ s.command.references, r.unknown? resolver = none := by
  simp only [unknownShort?, statements, List.findSome?_eq_none_iff, List.mem_reverse,
    List.mem_flatMap, Option.map_eq_none_iff]
  constructor
  · intro h b hb s hs
    exact h s ⟨b, hb, hs⟩
  · rintro h s ⟨b, hb, hs⟩
    exact h b hb s hs

theorem check_eq_ok {bound : Nat} {resolver : Resolver} {p : Program} :
    p.check bound resolver = .ok () ↔
      p.overrun? bound 0 = none ∧ p.unknownShort? resolver = none := by
  rw [check]
  cases p.overrun? bound 0 with
  | some b => simp
  | none =>
    cases p.unknownShort? resolver with
    | some fault => simp
    | none => simp

/-- A part of a program that passes its checks passes them. -/
theorem check_sublist {bound : Nat} {resolver : Resolver} {p q : Program} (hqp : List.Sublist q p)
    (h : p.check bound resolver = .ok ()) : q.check bound resolver = .ok () := by
  rw [check_eq_ok] at h ⊢
  obtain ⟨hcount, hknown⟩ := h
  rw [unknownShort?_eq_none] at hknown ⊢
  exact ⟨overrun?_sublist hqp (Nat.le_refl _) hcount, fun b hb => hknown b (hqp.subset hb)⟩

end Program

theorem Execution.committed_sublist (x : Execution) (p : Program) :
    List.Sublist (x.committed p) p := by
  have h : List.Sublist (x.committed p) (p.zipIdx.map Prod.fst) := List.filter_sublist.map Prod.fst
  rwa [List.zipIdx_map_fst] at h

namespace Executor

variable (e : Executor) (resolver : Resolver)

/-! ## One batch -/

/-- A batch as a program of its own, with its number. -/
def runOne (n : Nat) (b : Batch) (d : Document) : Execution × Document :=
  match e.runBatch resolver b d with
  | .ok (ids, d') => ({ commandsApplied := b.size, batchesApplied := 1, created := ids }, d')
  | .error (line, failure) =>
    ({ success := false, batchesFailed := 1, errors := [⟨n, line, failure⟩] }, d)

variable {e resolver}

/-- A batch that fails hands on the document that it was given. -/
theorem runOne_of_error {b : Batch} {d : Document} {line : Nat} {failure : Failure}
    (h : e.runBatch resolver b d = .error (line, failure)) (n : Nat) :
    e.runOne resolver n b d =
      ({ success := false, batchesFailed := 1, errors := [⟨n, line, failure⟩] }, d) := by
  simp [runOne, h]

theorem runOne_of_ok {b : Batch} {d d' : Document} {ids : List BlockId}
    (h : e.runBatch resolver b d = .ok (ids, d')) (n : Nat) :
    e.runOne resolver n b d =
      ({ commandsApplied := b.size, batchesApplied := 1, created := ids }, d') := by
  simp [runOne, h]

variable (e resolver)

/-! ## Runs in parts -/

theorem runFrom_cons (n : Nat) (b : Batch) (rest : Program) (x : Execution) (d : Document) :
    e.runFrom resolver n (b :: rest) x d =
      e.runFrom resolver (n + 1) rest (x.append (e.runOne resolver n b d).1)
        (e.runOne resolver n b d).2 := by
  rw [runFrom]
  cases h : e.runBatch resolver b d with
  | error fault =>
    obtain ⟨line, failure⟩ := fault
    simp [runOne_of_error h, Execution.append]
  | ok result =>
    obtain ⟨ids, d'⟩ := result
    simp [runOne_of_ok h, Execution.append]

/-- What was done before a run is only put before what it does. -/
theorem runFrom_eq (n : Nat) (p : Program) (x : Execution) (d : Document) :
    e.runFrom resolver n p x d =
      (x.append (e.runFrom resolver n p {} d).1, (e.runFrom resolver n p {} d).2) := by
  induction p generalizing n x d with
  | nil => simp [runFrom, Execution.append_empty]
  | cons b rest ih =>
    rw [runFrom_cons, runFrom_cons, ih, ih _ (Execution.append {} _), Execution.empty_append,
      Execution.append_assoc]

/-- A run of a program and of what follows it, which starts from the document that it reaches. -/
theorem runFrom_append (n : Nat) (p q : Program) (d : Document) :
    e.runFrom resolver n (p ++ q) {} d =
      ((e.runFrom resolver n p {} d).1.append
          (e.runFrom resolver (n + p.length) q {} (e.runFrom resolver n p {} d).2).1,
        (e.runFrom resolver (n + p.length) q {} (e.runFrom resolver n p {} d).2).2) := by
  suffices h : ∀ x, e.runFrom resolver n (p ++ q) x d =
      e.runFrom resolver (n + p.length) q (e.runFrom resolver n p x d).1
        (e.runFrom resolver n p x d).2 by
    rw [h, runFrom_eq]
  intro x
  induction p generalizing n x d with
  | nil => simp [runFrom]
  | cons b rest ih =>
    rw [List.cons_append, runFrom_cons, runFrom_cons, ih, List.length_cons,
      Nat.add_right_comm, ← Nat.add_assoc]

theorem runFrom_singleton (n : Nat) (b : Batch) (d : Document) :
    e.runFrom resolver n [b] {} d = e.runOne resolver n b d := by
  rw [runFrom_cons, runFrom, Execution.empty_append]

/-- A run begins with its first batch. -/
theorem runFrom_cons_empty (n : Nat) (b : Batch) (rest : Program) (d : Document) :
    e.runFrom resolver n (b :: rest) {} d =
      ((e.runOne resolver n b d).1.append
          (e.runFrom resolver (n + 1) rest {} (e.runOne resolver n b d).2).1,
        (e.runFrom resolver (n + 1) rest {} (e.runOne resolver n b d).2).2) := by
  rw [runFrom_cons, runFrom_eq, Execution.empty_append]

/-! ## The report -/

theorem tallied_runOne (n : Nat) (b : Batch) (d : Document) :
    (e.runOne resolver n b d).1.Tallied := by
  cases h : e.runBatch resolver b d with
  | error fault =>
    obtain ⟨line, failure⟩ := fault
    rw [runOne_of_error h]
    exact ⟨rfl, rfl⟩
  | ok result =>
    obtain ⟨ids, d'⟩ := result
    rw [runOne_of_ok h]
    exact ⟨rfl, rfl⟩

/-- A run that goes on with such a report ends with one. -/
theorem tallied_runFrom (n : Nat) (p : Program) {x : Execution} (hx : x.Tallied) (d : Document) :
    (e.runFrom resolver n p x d).1.Tallied := by
  induction p generalizing n x d with
  | nil => exact hx
  | cons b rest ih =>
    rw [runFrom_cons]
    exact ih (n + 1) (hx.append (e.tallied_runOne resolver n b d)) _

theorem runOne_errors (n : Nat) (b : Batch) (d : Document) :
    ∀ f ∈ (e.runOne resolver n b d).1.errors, f.batch = n := by
  intro f hf
  cases h : e.runBatch resolver b d with
  | error fault =>
    obtain ⟨line, failure⟩ := fault
    rw [runOne_of_error h] at hf
    rw [List.mem_singleton.mp hf]
  | ok result =>
    obtain ⟨ids, d'⟩ := result
    simp [runOne_of_ok h] at hf

/-- The errors of a run are about its batches. -/
theorem batch_of_mem_errors {n : Nat} {p : Program} {d : Document} {f : BatchFailure}
    (h : f ∈ (e.runFrom resolver n p {} d).1.errors) : n ≤ f.batch ∧ f.batch < n + p.length := by
  induction p generalizing n d with
  | nil => cases h
  | cons b rest ih =>
    rw [runFrom_cons_empty, Execution.append, List.mem_append] at h
    rw [List.length_cons]
    rcases h with h | h
    · have := runOne_errors e resolver n b d f h
      omega
    · have := ih h
      omega

/-- The errors of a run are in the order of its batches, with one for a batch at most. -/
theorem pairwise_errors (n : Nat) (p : Program) (d : Document) :
    ((e.runFrom resolver n p {} d).1.errors.map BatchFailure.batch).Pairwise (· < ·) := by
  induction p generalizing n d with
  | nil => exact List.Pairwise.nil
  | cons b rest ih =>
    rw [runFrom_cons_empty, Execution.append, List.map_append, List.pairwise_append]
    refine ⟨?_, ih _ _, ?_⟩
    · cases h : e.runBatch resolver b d with
      | error fault =>
        obtain ⟨line, failure⟩ := fault
        simp [runOne_of_error h]
      | ok result =>
        obtain ⟨ids, d'⟩ := result
        simp [runOne_of_ok h]
    · intro i hi j hj
      obtain ⟨f, hf, rfl⟩ := List.mem_map.mp hi
      obtain ⟨g, hg, rfl⟩ := List.mem_map.mp hj
      have hf' := runOne_errors e resolver n b d f hf
      have hg' := batch_of_mem_errors e resolver hg
      omega

/-! ## The committed batches alone -/

/-- What took effect of a program is its first batch, unless that failed, and what took effect of
the others. -/
theorem committedFrom_cons (n : Nat) (b : Batch) (rest : Program) (d : Document) :
    (e.runFrom resolver n (b :: rest) {} d).1.committedFrom n (b :: rest) =
      (if (e.runOne resolver n b d).1.errors = [] then [b] else []) ++
        (e.runFrom resolver (n + 1) rest {} (e.runOne resolver n b d).2).1.committedFrom (n + 1)
          rest := by
  have hone := e.runOne_errors resolver n b d
  rw [runFrom_cons_empty]
  generalize hx : (e.runOne resolver n b d).1 = x at hone
  generalize hd : (e.runOne resolver n b d).2 = d'
  have hlater : ∀ f ∈ (e.runFrom resolver (n + 1) rest {} d').1.errors, n + 1 ≤ f.batch :=
    fun f hf => (e.batch_of_mem_errors resolver hf).1
  generalize (e.runFrom resolver (n + 1) rest {} d').1 = y at hlater
  -- A number is in only one of the two lists of errors.
  have hfirst : n ∈ (x.append y).errors.map BatchFailure.batch ↔ x.errors ≠ [] := by
    simp only [Execution.append, List.map_append, List.mem_append, List.mem_map]
    constructor
    · rintro (⟨f, hf, -⟩ | ⟨f, hf, hn⟩)
      · exact List.ne_nil_of_mem hf
      · have := hlater f hf
        omega
    · intro hne
      obtain ⟨f, hf⟩ := List.exists_mem_of_ne_nil _ hne
      exact .inl ⟨f, hf, hone f hf⟩
  have hrest : (rest.zipIdx (n + 1)).filter
        (fun b => b.2 ∉ (x.append y).errors.map BatchFailure.batch) =
      (rest.zipIdx (n + 1)).filter (fun b => b.2 ∉ y.errors.map BatchFailure.batch) := by
    refine List.filter_congr fun c hc => ?_
    have hle : n + 1 ≤ c.2 := List.le_snd_of_mem_zipIdx hc
    have hnot : c.2 ∉ x.errors.map BatchFailure.batch := by
      intro hmem
      obtain ⟨f, hf, hfc⟩ := List.mem_map.mp hmem
      have := hone f hf
      omega
    simp only [Execution.append, List.map_append, List.mem_append, hnot, false_or]
  rw [Execution.committedFrom, Execution.committedFrom, List.zipIdx_cons, List.filter_cons, hrest]
  by_cases hnone : x.errors = []
  · simp [hfirst, hnone]
  · simp [hfirst, hnone]

/-- The batches that took effect do the same without the others, whatever their numbers are. -/
theorem runFrom_committedFrom (n m : Nat) (p : Program) (d : Document) :
    e.runFrom resolver m ((e.runFrom resolver n p {} d).1.committedFrom n p) {} d =
      ({ (e.runFrom resolver n p {} d).1 with success := true, batchesFailed := 0, errors := [] },
        (e.runFrom resolver n p {} d).2) := by
  induction p generalizing n m d with
  | nil => rfl
  | cons b rest ih =>
    rw [committedFrom_cons, runFrom_cons_empty]
    cases h : e.runBatch resolver b d with
    | error fault =>
      obtain ⟨line, failure⟩ := fault
      rw [runOne_of_error h, if_neg (List.cons_ne_nil _ _), List.nil_append, ih]
      simp [Execution.append]
    | ok result =>
      obtain ⟨ids, d'⟩ := result
      rw [runOne_of_ok h, if_pos rfl, List.singleton_append, runFrom_cons_empty,
        runOne_of_ok h, ih]
      simp [Execution.append]

/-- Every batch is counted, as one that took effect or as one that did not. -/
theorem runFrom_counts (n : Nat) (p : Program) (d : Document) :
    let x := (e.runFrom resolver n p {} d).1
    x.batchesApplied + x.errors.length = p.length ∧
      x.batchesApplied = (x.committedFrom n p).length ∧
      x.commandsApplied = (x.committedFrom n p).statements.length := by
  induction p generalizing n d with
  | nil => exact ⟨rfl, rfl, rfl⟩
  | cons b rest ih =>
    dsimp only
    rw [committedFrom_cons, runFrom_cons_empty]
    cases h : e.runBatch resolver b d with
    | error fault =>
      obtain ⟨line, failure⟩ := fault
      obtain ⟨hall, hbatches, hcommands⟩ := ih (n + 1) d
      rw [runOne_of_error h, if_neg (List.cons_ne_nil _ _)]
      simp only [Execution.append, List.length_append, List.length_cons, List.length_nil,
        List.nil_append]
      exact ⟨by omega, by omega, by omega⟩
    | ok result =>
      obtain ⟨ids, d'⟩ := result
      obtain ⟨hall, hbatches, hcommands⟩ := ih (n + 1) d'
      rw [runOne_of_ok h, if_pos rfl]
      rw [List.singleton_append, Program.length_statements_cons]
      simp only [Execution.append, List.nil_append, List.length_cons]
      exact ⟨by omega, by omega, by omega⟩

/-! ## The batches of a run -/

/-- The document on which a batch of a program runs. -/
def reached (p : Program) (d : Document) (i : Nat) : Document := (e.run resolver (p.take i) d).2

/-- A run up to a batch, with that batch. -/
theorem run_take_succ {p : Program} {i : Nat} {b : Batch} (hi : p[i]? = some b) (d : Document) :
    e.run resolver (p.take (i + 1)) d =
      ((e.run resolver (p.take i) d).1.append (e.runOne resolver i b (e.reached resolver p d i)).1,
        (e.runOne resolver i b (e.reached resolver p d i)).2) := by
  obtain ⟨hlt, -⟩ := List.getElem?_eq_some_iff.mp hi
  have hlength : (p.take i).length = i := List.length_take_of_le (Nat.le_of_lt hlt)
  rw [List.take_add_one, hi, Option.toList_some, run, runFrom_append, hlength, Nat.zero_add,
    runFrom_singleton]
  rfl

/-- An error of a run is one of the batch that it names. -/
theorem mem_errors_run {p : Program} {i : Nat} {b : Batch} (hi : p[i]? = some b) (d : Document)
    {f : BatchFailure} (hf : f.batch = i) :
    f ∈ (e.run resolver p d).1.errors ↔
      f ∈ (e.runOne resolver i b (e.reached resolver p d i)).1.errors := by
  obtain ⟨hlt, -⟩ := List.getElem?_eq_some_iff.mp hi
  have hrun : (e.run resolver p d).1 = (e.run resolver (p.take (i + 1)) d).1.append
      (e.runFrom resolver (i + 1) (p.drop (i + 1)) {} (e.run resolver (p.take (i + 1)) d).2).1 := by
    have hlength : 0 + (p.take (i + 1)).length = i + 1 := by
      rw [List.length_take]
      omega
    conv_lhs => rw [← List.take_append_drop (i + 1) p, run, runFrom_append, hlength]
    rfl
  rw [hrun, run_take_succ e resolver hi]
  simp only [Execution.append, List.mem_append]
  constructor
  · rintro ((hbefore | hone) | hafter)
    · have hbatch := (e.batch_of_mem_errors resolver hbefore).2
      rw [List.length_take] at hbatch
      omega
    · exact hone
    · have := (e.batch_of_mem_errors resolver hafter).1
      omega
  · intro hone
    exact .inl (.inr hone)

end Executor

/-- The report of a run accounts for every batch of its program. -/
structure Execution.Accounts (x : Execution) (p : Program) : Prop where
  /-- Every batch is counted once. -/
  batches : x.batchesApplied + x.batchesFailed = p.length
  batchesApplied : x.batchesApplied = (x.committed p).length
  /-- Every batch that did not take effect has its error. -/
  batchesFailed : x.batchesFailed = x.errors.length
  /-- Only commands of batches that took effect are counted. -/
  commandsApplied : x.commandsApplied = (x.committed p).statements.length
  /-- The errors name batches of the program, in order and each of them once. -/
  errors_lt : ∀ f ∈ x.errors, f.batch < p.length
  errors_pairwise : (x.errors.map BatchFailure.batch).Pairwise (· < ·)
  success : x.success = true ↔ x.errors = []
  success_iff_committed : x.success = true ↔ x.committed p = p

namespace Executor

theorem accounts_run (e : Executor) (resolver : Resolver) (p : Program) (d : Document) :
    (e.run resolver p d).1.Accounts p := by
  obtain ⟨hall, hbatches, hcommands⟩ := e.runFrom_counts resolver 0 p d
  have hlt : ∀ f ∈ (e.runFrom resolver 0 p {} d).1.errors, f.batch < 0 + p.length :=
    fun f hf => (e.batch_of_mem_errors resolver hf).2
  have hpairwise := e.pairwise_errors resolver 0 p d
  have htallied := e.tallied_runFrom resolver 0 p Execution.tallied_empty d
  rw [run]
  generalize (e.runFrom resolver 0 p {} d).1 = x at hall hbatches hcommands hlt hpairwise htallied
  have hsuccess : x.success = true ↔ x.errors = [] := by
    rw [htallied.success, List.isEmpty_iff]
  refine ⟨?_, hbatches, htallied.batchesFailed, hcommands, fun f hf => ?_, hpairwise, hsuccess, ?_⟩
  · rw [htallied.batchesFailed]
    exact hall
  · have := hlt f hf
    omega
  · change x.batchesApplied = (x.committed p).length at hbatches
    rw [hsuccess, ← List.length_eq_zero_iff]
    constructor
    · intro hnone
      exact (x.committed_sublist p).eq_of_length (by omega)
    · intro hp
      rw [hp] at hbatches
      omega

/-- **Batches that fail leave no trace**: a batch that fails hands on the document that it was
given, with its source of ids. The batches that took effect pass the same checks without the others
and do the same, with the same new blocks, and the report accounts for every batch. -/
theorem run_committed (e : Executor) (resolver : Resolver) (p : Program) (d : Document)
    (hp : p.check e.maxCommands resolver = .ok ()) :
    let x := (e.run resolver p d).1
    (∀ i b, p[i]? = some b →
      match e.runBatch resolver b (e.reached resolver p d i) with
      | .error (line, failure) =>
        e.reached resolver p d (i + 1) = e.reached resolver p d i ∧ ⟨i, line, failure⟩ ∈ x.errors
      | .ok (_, d') => e.reached resolver p d (i + 1) = d' ∧ ∀ f ∈ x.errors, f.batch ≠ i) ∧
    (x.committed p).check e.maxCommands resolver = .ok () ∧
    e.run resolver (x.committed p) d =
      ({ x with success := true, batchesFailed := 0, errors := [] }, (e.run resolver p d).2) ∧
    x.Accounts p := by
  intro x
  refine ⟨fun i b hi => ?_, Program.check_sublist (x.committed_sublist p) hp,
    e.runFrom_committedFrom resolver 0 0 p d, e.accounts_run resolver p d⟩
  have hreached : e.reached resolver p d (i + 1) =
      (e.runOne resolver i b (e.reached resolver p d i)).2 := by
    rw [reached, run_take_succ e resolver hi]
  cases h : e.runBatch resolver b (e.reached resolver p d i) with
  | error fault =>
    obtain ⟨line, failure⟩ := fault
    rw [runOne_of_error h] at hreached
    refine ⟨hreached, (e.mem_errors_run resolver hi d rfl).mpr ?_⟩
    rw [runOne_of_error h]
    exact List.mem_singleton_self _
  | ok result =>
    obtain ⟨ids, d'⟩ := result
    rw [runOne_of_ok h] at hreached
    refine ⟨hreached, fun f hf hbatch => ?_⟩
    have hone := (e.mem_errors_run resolver hi d hbatch).mp hf
    rw [runOne_of_ok h] at hone
    cases hone

/-- A program with a group that adds a block and then deletes the root. -/
def deletingRoot : Program :=
  let root := Reference.long "blk_000000000001"
  [.single ⟨1, .append root none none "first" {}⟩,
    .atomic 2 [⟨3, .append root none none "second" {}⟩, ⟨4, .delete root .deleted⟩],
    .single ⟨6, .append root none none "third" {}⟩]

/-- The group fails, and the blocks are those of the program without it. Of its two commands none is
counted. -/
theorem run_deletingRoot :
    let e : Executor := {}
    let d := Document.create ⟨.sequential, 1⟩
    let x := (e.run (fun _ => none) deletingRoot d).1
    x.errors.map BatchFailure.batch = [1] ∧ x.success = false ∧ x.batchesFailed = 1 ∧
      x.batchesApplied = 2 ∧ x.commandsApplied = 2 ∧
      e.run (fun _ => none) (x.committed deletingRoot) d =
        ({ x with success := true, batchesFailed := 0, errors := [] },
          (e.run (fun _ => none) deletingRoot d).2) := by
  intro e d x
  have herrors : x.errors.map BatchFailure.batch = [1] := by decide +kernel
  have hlength : x.errors.length = 1 := by simpa using congrArg List.length herrors
  have hcommitted : (x.committed deletingRoot).length = 2 ∧
      (x.committed deletingRoot).statements.length = 2 := by
    rw [Execution.committed, Execution.committedFrom, herrors]
    exact ⟨rfl, rfl⟩
  have hcheck : deletingRoot.check e.maxCommands (fun _ => none) = .ok () := rfl
  obtain ⟨-, -, hrun, haccounts⟩ := run_committed e (fun _ => none) deletingRoot d hcheck
  have hfailed : x.success = false := by
    rw [Bool.eq_false_iff, ne_eq, haccounts.success, ← List.length_eq_zero_iff, hlength]
    exact Nat.one_ne_zero
  exact ⟨herrors, hfailed, haccounts.batchesFailed.trans hlength,
    haccounts.batchesApplied.trans hcommitted.1, haccounts.commandsApplied.trans hcommitted.2, hrun⟩

end Executor

end BlockDocument
