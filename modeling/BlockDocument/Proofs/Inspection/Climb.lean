import BlockDocument.Proofs.Document.Restored
import BlockDocument.Proofs.Inspection.Orphan

/-!
# Depth, climbed and counted

The depth of an id is found by a climb along parents, the levels of an inspection by going down from
the root row by row. The climb ends on any document, as it gives up once it has taken more steps than
there are blocks (`exists_climbs`). Where an inspection finds no error, each id has one parent at
most and no chain of parents is as long as that, so climbing up and going down find the same number.
-/

namespace BlockDocument.Document

/-- A climb that stands at an id, after a number of steps, ends after so many rounds more with a
result: it has come to the root, or there is no parent to go to, or going there is a step more than
there are blocks. -/
inductive Climbs (d : Document) : Nat → BlockId → Nat → Option Nat → Prop where
  | top {steps : Nat} : Climbs d steps d.root 0 (some steps)
  | lost {steps : Nat} {id : BlockId} (hid : id ≠ d.root) (hp : d.parent? id = none) :
      Climbs d steps id 1 none
  | spent {steps : Nat} {id p : BlockId} (hid : id ≠ d.root) (hp : d.parent? id = some p)
      (hsteps : d.size < steps + 1) : Climbs d steps id 1 none
  | up {steps rounds : Nat} {id p : BlockId} {result : Option Nat} (hid : id ≠ d.root)
      (hp : d.parent? id = some p) (hsteps : ¬ d.size < steps + 1)
      (hrest : Climbs d (steps + 1) p rounds result) : Climbs d steps id (rounds + 1) result

variable {d : Document}

/-- A climb with `bound` steps left ends within one round more, with the steps that it has taken
before and those that are counted from here. -/
theorem exists_climbs_of_bound (d : Document) (bound steps : Nat) (id : BlockId)
    (hbound : steps + bound = d.size) :
    ∃ rounds ≤ bound + 1, d.Climbs steps id rounds ((d.climb bound id).map (· + steps)) := by
  -- the steps taken and those left are as many as there are blocks, all along the climb
  induction bound generalizing steps id with
  | zero =>
    by_cases hid : id = d.root
    · subst hid
      exact ⟨0, Nat.zero_le _, by simpa [climb] using Climbs.top⟩
    · refine ⟨1, Nat.le_refl _, ?_⟩
      rw [climb, if_neg hid]
      cases hp : d.parent? id with
      | none => exact .lost hid hp
      | some p => exact .spent hid hp (by omega)
  | succ bound ih =>
    rw [climb]
    by_cases hid : id = d.root
    · subst hid
      exact ⟨0, Nat.zero_le _, by simpa using Climbs.top⟩
    · rw [if_neg hid]
      cases hp : d.parent? id with
      | none => exact ⟨1, by omega, .lost hid hp⟩
      | some p =>
        obtain ⟨rounds, hrounds, hrest⟩ := ih (steps + 1) p (by omega)
        refine ⟨rounds + 1, by omega, .up hid hp (by omega) ?_⟩
        simpa [Option.map_map, Function.comp_def, Nat.add_assoc, Nat.add_comm 1] using hrest

/-- **A climb ends on any document**, within one round more than there are blocks. -/
theorem exists_climbs (d : Document) (id : BlockId) :
    ∃ rounds ≤ d.size + 1, d.Climbs 0 id rounds (d.depth? id) := by
  simpa [depth?] using d.exists_climbs_of_bound d.size 0 id (Nat.zero_add _)

/-- A climb has one result at most. -/
theorem Climbs.unique {steps rounds rounds' : Nat} {id : BlockId} {result result' : Option Nat}
    (h : d.Climbs steps id rounds result) (h' : d.Climbs steps id rounds' result') :
    result = result' := by
  induction h generalizing rounds' with
  | top =>
    cases h' with
    | top => rfl
    | lost hid | spent hid | up hid => exact absurd rfl hid
  | lost hid hp =>
    cases h' with
    | top => exact absurd rfl hid
    | lost => rfl
    | spent => rfl
    | up _ hp' => simp [hp] at hp'
  | spent hid hp hsteps =>
    cases h' with
    | top => exact absurd rfl hid
    | lost => rfl
    | spent => rfl
    | up _ _ hsteps' => exact absurd hsteps hsteps'
  | up hid hp hsteps _ ih =>
    cases h' with
    | top => exact absurd rfl hid
    | lost _ hp' => simp [hp] at hp'
    | spent _ _ hsteps' => exact absurd hsteps' hsteps
    | up _ hp' _ hrest' =>
      obtain rfl := Option.some.inj (hp.symm.trans hp')
      exact ih hrest'

/-! ## The same tree -/

theorem climb_restored (bound : Nat) (id : BlockId) : d.restored.climb bound id = d.climb bound id := by
  induction bound generalizing id with
  | zero => rfl
  | succ bound ih =>
    simp only [climb, ih]
    rfl

theorem depth?_restored (id : BlockId) : d.restored.depth? id = d.depth? id := by
  rw [depth?, depth?, size_restored, climb_restored]

theorem levels_restored : d.restored.levels = d.levels := by
  have hcontains : d.restored.contains = d.contains := funext contains_restored
  have hchildren : d.restored.presentChildren = d.presentChildren := by
    funext p
    simp [presentChildren, hcontains]
  simp [levels, hchildren, hcontains]

/-- In a forest the depth of an id is its level. -/
theorem IsForest.depth?_eq_level (h : d.IsForest) (id : BlockId) : d.depth? id = d.levels[id]? := by
  ext k
  rw [h.depth?_eq_some_iff, h.getElem?_levels, h.distance_iff]

/-- **Both depths agree**: on any document the climb from an id to the root comes to an end, with one
result. Where an inspection finds no error, that is the level at which the inspection finds the id, if
it finds it; it is none exactly if no chain of children leads from the root to the id, which for a
block is when it is reported as an orphan. -/
theorem depth_agrees (d : Document) (id : BlockId) :
    (∃ rounds ≤ d.size + 1, d.Climbs 0 id rounds (d.depth? id)) ∧
      (∀ rounds result, d.Climbs 0 id rounds result → result = d.depth? id) ∧
      ∀ i : Inspector, (i.inspect d).errors = [] →
        (∀ k, d.depth? id = some k ↔ d.levels[id]? = some k) ∧
          (d.depth? id = none ↔ ¬ Leads d.childrenOf d.root id) ∧
          (d.contains id = true →
            (d.depth? id = none ↔ id ∈ (i.inspect d).reported "E203")) := by
  obtain ⟨rounds, hrounds, hclimb⟩ := d.exists_climbs id
  refine ⟨⟨rounds, hrounds, hclimb⟩, fun _ _ h => h.unique hclimb, fun i herrors => ?_⟩
  have h := isForest_restored herrors
  have hlevel : d.depth? id = d.levels[id]? := by
    rw [← depth?_restored, ← levels_restored]
    exact h.depth?_eq_level id
  have hleads : d.depth? id = none ↔ ¬ Leads d.childrenOf d.root id := by
    rw [Option.eq_none_iff_forall_ne_some, ← depth?_restored]
    constructor
    · intro hnone hl
      obtain ⟨n, hn⟩ := hl.steps
      exact hnone n (h.depth?_eq_some_iff.mpr hn)
    · intro hl k hk
      exact hl (h.depth?_eq_some_iff.mp hk).leads
  have horphan (hid : d.contains id = true) :
      d.depth? id = none ↔ id ∈ (i.inspect d).reported "E203" := by
    rw [mem_reported_orphans, ← contains_levels_iff, Std.ExtTreeMap.contains_eq_isSome_getElem?,
      ← hlevel]
    simp [hid]
  exact ⟨fun k => by rw [hlevel], hleads, horphan⟩

/-- A block two levels down is found from both sides, and the orphan from none. -/
theorem depth_agrees_misfiled :
    (Inspector.inspect {} misfiled).errors = [] ∧
      misfiled.depth? ⟨"d"⟩ = some 2 ∧ misfiled.levels[(⟨"d"⟩ : BlockId)]? = some 2 ∧
      misfiled.contains ⟨"e"⟩ = true ∧ misfiled.depth? ⟨"e"⟩ = none ∧
      ⟨"e"⟩ ∈ (Inspector.inspect {} misfiled).reported "E203" := by
  obtain ⟨-, -, hbelow⟩ := depth_agrees misfiled ⟨"d"⟩
  obtain ⟨-, -, horphan⟩ := depth_agrees misfiled ⟨"e"⟩
  have hdepth : misfiled.depth? ⟨"d"⟩ = some 2 := by decide +kernel
  have hblock : misfiled.contains ⟨"e"⟩ = true := by decide +kernel
  have hnone : misfiled.depth? ⟨"e"⟩ = none := by decide +kernel
  exact ⟨errors_misfiled, hdepth, ((hbelow {} errors_misfiled).1 2).mp hdepth, hblock, hnone,
    ((horphan {} errors_misfiled).2.2 hblock).mp hnone⟩

end BlockDocument.Document
