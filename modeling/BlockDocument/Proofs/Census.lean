import BlockDocument.Proofs.Execution.Grouping
import BlockDocument.Proofs.Inspection.Precheck

/-!
# Which blocks there are

A mutation reports what it has done, and the report is what happened to the set of blocks: what is
created was no block before and is one afterwards, what is removed was, each block once, and nothing
else comes or goes (`Mutation.accounts_apply`). So the number of blocks can be reckoned from the
reports of a run, and the reports of a program that is carried out are those of such a run.
-/

namespace BlockDocument

open Std (ExtTreeMap)

namespace Document

variable {d d' : Document} {id : BlockId}

/-- The ids of the blocks. -/
def ids (d : Document) : Finset BlockId := d.blocks.keys.toFinset

@[simp] theorem mem_ids : id ∈ d.ids ↔ d.contains id = true := by
  rw [ids, List.mem_toFinset, ExtTreeMap.mem_keys]
  exact Iff.rfl

theorem card_ids (d : Document) : d.ids.card = d.size := by
  rw [ids, List.toFinset_card_of_nodup ExtTreeMap.nodup_keys, ExtTreeMap.length_keys]
  rfl

theorem ids_congr (h : ∀ x, d'.contains x = d.contains x) : d'.ids = d.ids := by
  ext x
  rw [mem_ids, mem_ids, h]

theorem ids_withBlock (d : Document) (id : BlockId) (f : Block → Block) :
    (d.withBlock id f).ids = d.ids :=
  ids_congr (contains_withBlock d id f)

theorem ids_eraseAll (d : Document) (removed : List BlockId) :
    (d.eraseAll removed).ids = d.ids \ removed.toFinset := by
  ext x
  rw [mem_ids, eraseAll_eq_restrict, contains_restrict]
  simp [and_comm]

/-- A chain of children leads from a block to blocks only. -/
theorem IsForest.contains_of_leads (h : d.IsForest) {x : BlockId} (hid : d.contains id = true)
    (hl : Leads d.childrenOf id x) : d.contains x = true := by
  rcases Relation.ReflTransGen.cases_tail hl with rfl | ⟨p, -, hx⟩
  · exact hid
  · exact h.child_mem p x hx

end Document

open Document

/-! ## Outcomes -/

/-- What an outcome says about the ids of the blocks before and after. -/
def Outcome.Accounts (before after : Finset BlockId) : Outcome → Prop
  | created id => id ∉ before ∧ after = insert id before
  | removed ids => ids.Nodup ∧ (∀ id ∈ ids, id ∈ before) ∧ after = before \ ids.toFinset
  | updated | unchanged => after = before

/-- The blocks that an outcome reports as created. -/
def Outcome.added (o : Outcome) : List BlockId := (Executor.created? o).toList

/-- The blocks that an outcome reports as removed. -/
def Outcome.gone : Outcome → List BlockId
  | removed ids => ids
  | _ => []

namespace Outcome

variable {before after : Finset BlockId}

theorem Accounts.card {o : Outcome} (h : o.Accounts before after) :
    after.card + o.gone.length = before.card + o.added.length := by
  cases o with
  | created id =>
    obtain ⟨hid, rfl⟩ := h
    exact Finset.card_insert_of_notMem hid
  | removed ids =>
    obtain ⟨hnodup, hids, rfl⟩ := h
    have hsub : ids.toFinset ⊆ before := fun id hid => hids id (List.mem_toFinset.mp hid)
    have hcard := Finset.card_sdiff_add_card_eq_card hsub
    rwa [List.toFinset_card_of_nodup hnodup] at hcard
  | updated | unchanged => exact congrArg Finset.card h

end Outcome

/-! ## Edits -/

namespace Edit

variable {d d' : Document} {id : BlockId} {removed : List BlockId}

theorem accounts_addDraft {parent : BlockId} {position : Option Nat} {draft : Draft}
    (he : addDraft parent position draft d = .ok id d') :
    (Outcome.created id).Accounts d.ids d'.ids := by
  obtain ⟨d₁, f, hadd, rfl⟩ := addDraft_eq_ok he
  obtain ⟨-, a, ha, rfl⟩ := add_eq_ok hadd
  refine ⟨by simp [taken_allocate ha], ?_⟩
  ext x
  rw [mem_ids, contains_withBlock, contains_withChildren, contains_withLeaf, Bool.or_eq_true,
    decide_eq_true_eq, Finset.mem_insert, mem_ids, eq_comm]
  exact Iff.rfl

theorem accounts_setField {l : Limits} {field : Field} {value : String} {u : Unit}
    (he : setField l id field value d = .ok u d') : Outcome.updated.Accounts d.ids d'.ids := by
  rcases setField_eq_ok he with ⟨f, rfl⟩ | ⟨b, c, -, rfl, -⟩
  · exact ids_withBlock d id _
  · exact ids_withBlock d id _

/-- A deletion answers the blocks below the block, each of them once. -/
theorem accounts_delete (h : d.IsForest) {cascade : Bool}
    (he : delete id cascade d = .ok removed d') :
    (Outcome.removed removed).Accounts d.ids d'.ids := by
  obtain ⟨-, hid, -, rfl, rfl⟩ := delete_eq_ok he
  refine ⟨(d.postorder_walked id).nodup, fun x hx => ?_, ?_⟩
  · exact mem_ids.mpr (h.contains_of_leads hid (mem_postorder.mp hx))
  · rw [ids_eraseAll, ids_congr (contains_detach id)]

theorem accounts_deleteOnly (he : deleteOnly id d = .ok removed d') :
    (Outcome.removed removed).Accounts d.ids d'.ids := by
  obtain ⟨-, hid, rfl, p, -, rfl⟩ := deleteOnly_eq_ok he
  refine ⟨List.nodup_singleton id, fun x hx => ?_, ?_⟩
  · rw [List.mem_singleton.mp hx]
    exact mem_ids.mpr hid
  · rw [ids_eraseAll, ids_congr (contains_withChildren d p _)]

theorem accounts_remove (h : d.IsForest) {fate : Fate} (he : remove id fate d = .ok removed d') :
    (Outcome.removed removed).Accounts d.ids d'.ids := by
  cases fate with
  | none | deleted => exact accounts_delete h he
  | kept => exact accounts_deleteOnly he

theorem accounts_prune (he : prune d = .ok removed d') :
    (Outcome.removed removed).Accounts d.ids d'.ids := by
  obtain ⟨rfl, rfl⟩ := prune_eq_ok he
  refine ⟨ExtTreeMap.nodup_keys.filter _, fun x hx => ?_, ?_⟩
  · exact List.mem_toFinset.mpr (List.mem_filter.mp hx).1
  · ext x
    rw [mem_ids, contains_restrict, Finset.mem_sdiff, List.mem_toFinset, List.mem_filter, mem_ids,
      ExtTreeMap.mem_keys]
    change _ ↔ d.contains x = true ∧ ¬ (d.contains x = true ∧ _)
    cases d.contains x <;> simp

theorem accounts_moveTo {place : Place BlockId} {u : Unit} (he : moveTo id place d = .ok u d') :
    Outcome.updated.Accounts d.ids d'.ids := by
  obtain ⟨p, n, -, -, rfl⟩ := moveTo_eq_ok he
  exact ids_congr fun x => by rw [contains_attach, contains_detach]

end Edit

namespace Mutation

variable {l : Limits} {m : Mutation} {d d' : Document} {outcome : Outcome}

/-- An edit of one block that may have had nothing to do. -/
theorem accounts_ofChange {id : BlockId} {f : Block → Block} {changed : Bool}
    (hd' : d' = if changed then d.withBlock id f else d) :
    (Outcome.ofChange changed).Accounts d.ids d'.ids := by
  subst hd'
  cases changed with
  | true => exact ids_withBlock d id f
  | false => exact rfl

/-- What a mutation reports is what happened to the set of blocks. -/
theorem accounts_apply (h : d.IsForest) (hm : m.apply l d = .ok outcome d') :
    outcome.Accounts d.ids d'.ids := by
  cases apply_eq_ok_iff.mp hm with
  | add _ he => exact Edit.accounts_addDraft he
  | set _ he => exact Edit.accounts_setField he
  | delete he => exact Edit.accounts_remove h he
  | move _ he => exact Edit.accounts_moveTo he
  | addEdge _ he =>
    obtain ⟨-, -, -, hd'⟩ := Edit.addEdge_eq_ok he
    exact accounts_ofChange hd'
  | removeEdge he =>
    obtain ⟨-, -, -, hd'⟩ := Edit.removeEdge_eq_ok he
    exact accounts_ofChange hd'
  | addTag he =>
    obtain ⟨-, -, -, hd'⟩ := Edit.addTag_eq_ok he
    exact accounts_ofChange hd'
  | removeTag he =>
    obtain ⟨-, -, -, hd'⟩ := Edit.removeTag_eq_ok he
    exact accounts_ofChange hd'
  | prune he => exact Edit.accounts_prune he

end Mutation

/-! ## Runs -/

/-- Mutations that are carried out one after the other, each under limits of its own, with what they
report. -/
inductive Committed : Document → List Outcome → Document → Prop where
  | nil (d : Document) : Committed d [] d
  | cons {l : Limits} {m : Mutation} {d d₁ d' : Document} {o : Outcome} {os : List Outcome}
      (first : m.apply l d = .ok o d₁) (rest : Committed d₁ os d') : Committed d (o :: os) d'

namespace Committed

variable {d d₁ d' : Document} {os os' : List Outcome}

theorem append (h : Committed d os d₁) (h' : Committed d₁ os' d') : Committed d (os ++ os') d' := by
  induction h with
  | nil => exact h'
  | cons first _ ih => exact .cons first (ih h')

/-- The blocks are those of before and those created, less those removed. -/
theorem size_add_length (h : d.IsForest) (hrun : Committed d os d') :
    d'.size + (os.flatMap Outcome.gone).length = d.size + (os.flatMap Outcome.added).length := by
  induction hrun with
  | nil => rfl
  | @cons l m d d₁ d' o os first _ ih =>
    have hrest := ih (Mutation.isForest_apply h first)
    have hfirst := (Mutation.accounts_apply h first).card
    rw [card_ids, card_ids] at hfirst
    rw [List.flatMap_cons, List.flatMap_cons, List.length_append, List.length_append]
    omega

end Committed

/-! ## Programs -/

namespace Executor

variable {e : Executor} {resolver : Resolver} {d d' : Document}

/-- The commands of a batch that takes effect are a run. -/
theorem committed_runMembers {known : List (String × Option BlockId)} {members : List Statement}
    {ids : List BlockId} (hm : e.runMembers resolver known members d = .ok (ids, d')) :
    ∃ os, Committed d os d' ∧ ids = os.flatMap Outcome.added := by
  induction members generalizing d ids with
  | nil =>
    cases hm
    exact ⟨[], .nil _, rfl⟩
  | cons s rest ih =>
    obtain ⟨outcome, d₁, ids', hs, hrest, rfl⟩ := runMembers_cons_eq_ok.mp hm
    obtain ⟨m, -, happly⟩ := Edit.ofExcept_bind_eq_ok (step_eq_ok_iff.mp hs).1
    obtain ⟨os, hrun, rfl⟩ := ih hrest
    exact ⟨outcome :: os, .cons happly hrun, rfl⟩

/-- Batches that fail have no part in the run. -/
theorem committed_runFrom (n : Nat) (p : Program) :
    ∃ os, Committed d os (e.runFrom resolver n p {} d).2 ∧
      (e.runFrom resolver n p {} d).1.created = os.flatMap Outcome.added := by
  induction p generalizing n d with
  | nil => exact ⟨[], .nil d, rfl⟩
  | cons b rest ih =>
    rw [runFrom_cons_empty]
    cases hb : e.runBatch resolver b d with
    | error fault =>
      obtain ⟨line, failure⟩ := fault
      rw [runOne_of_error hb]
      exact ih (n + 1)
    | ok result =>
      obtain ⟨ids, d₁⟩ := result
      rw [runOne_of_ok hb]
      obtain ⟨os, hrun, rfl⟩ := committed_runMembers hb
      obtain ⟨os', hrun', hcreated⟩ := ih (d := d₁) (n + 1)
      refine ⟨os ++ os', hrun.append hrun', ?_⟩
      rw [List.flatMap_append, ← hcreated]
      rfl

end Executor

/-- **Outcomes account for the blocks**: what a mutation reports is what happened to the set of blocks,
so along a run the number of blocks is the first one, plus the blocks reported as created, less those
reported as removed. What a program reports as created is what such a run does. -/
theorem outcomes_account {d : Document} (hd : d.Clean) :
    (∀ (l : Limits) (m : Mutation) (outcome : Outcome) (d' : Document),
      m.apply l d = .ok outcome d' → outcome.Accounts d.ids d'.ids) ∧
    (∀ (os : List Outcome) (d' : Document), Committed d os d' →
      d'.size + (os.flatMap Outcome.gone).length = d.size + (os.flatMap Outcome.added).length) ∧
    ∀ (e : Executor) (resolver : Resolver) (p : Program),
      ∃ os, Committed d os (e.run resolver p d).2 ∧
        (e.run resolver p d).1.created = os.flatMap Outcome.added := by
  have h := clean_iff.mp hd
  exact ⟨fun _ _ _ _ hm => Mutation.accounts_apply h hm, fun _ _ hrun => hrun.size_add_length h,
    fun _ _ p => Executor.committed_runFrom 0 p⟩

/-- A block goes with the one below it, and another one comes: of three blocks two are left. -/
theorem outcomes_account_family :
    let d := Change.run (create ⟨.sequential, 1⟩)
      [.add (.ofSuffix 1) (.text "a") none none none, .add (.ofSuffix 2) (.text "b") none none none]
    let gone : List BlockId := [.ofSuffix 3, .ofSuffix 2]
    d.Clean ∧ ∃ d₁ d' : Document, (Outcome.removed gone).Accounts d.ids d₁.ids ∧
      Committed d [.removed gone, .created (.ofSuffix 4)] d' ∧ d.size = 3 ∧ d'.size = 2 := by
  intro d gone
  have hd : d.Clean := clean_run_create _ _
  let first := Mutation.apply {} (.delete (.ofSuffix 2) .deleted)
  let second := Mutation.apply {} (.add (.ofSuffix 1) none { content := .text "c" })
  have hfirst : first d = _ :=
    Edit.eq_ok_after (by decide +kernel : first.answer? d = some (.removed gone))
  have hsecond : second (first.after d) = _ :=
    Edit.eq_ok_after (by decide +kernel :
      second.answer? (first.after d) = some (.created (.ofSuffix 4)))
  have hrun : Committed d [.removed gone, .created (.ofSuffix 4)] (second.after (first.after d)) :=
    .cons hfirst (.cons hsecond (.nil _))
  have hsize : d.size = 3 := by decide +kernel
  obtain ⟨haccounts, hcount, -⟩ := outcomes_account hd
  have hleft := hcount _ _ hrun
  rw [hsize] at hleft
  exact ⟨hd, first.after d, _, haccounts _ _ _ _ hfirst, hrun, hsize, Nat.add_right_cancel hleft⟩

end BlockDocument
