import BlockDocument.Proofs.Archive.Load
import BlockDocument.Proofs.Inspection.Orphan
import BlockDocument.Proofs.Inspection.Precheck
import BlockDocument.Proofs.Refusal

/-!
# When the root stays

The root is protected by a look at the id that is to be deleted. A deletion takes away all that lies
below that block as well, and in a damaged tree the root may lie there. On a document with a root, a
deletion of a block that leads back to the root is the one operation that takes the root away
(`Operation.contains_root_after_iff`). A program does not, as the missing root is an error that it
brings. Where the root is nobody's child no block leads back to it, and operations leave that so
(`Document.Rooted`).
-/

namespace BlockDocument

namespace Document

variable {d d' : Document}

/-- A block other than the root from which a chain of children leads to the root. -/
def LeadsBack (d : Document) (id : BlockId) : Prop :=
  id ≠ d.root ∧ d.contains id = true ∧ Leads d.childrenOf id d.root

/-! ## Edits -/

/-- A deletion takes the root away if it takes all that lies below a block that leads back to it. -/
theorem contains_root_after_delete (hroot : d.contains d.root = true) (id : BlockId)
    (cascade : Bool) :
    ((Edit.delete id cascade).after d).contains d.root = true ↔
      ¬ (cascade = true ∧ d.LeadsBack id) := by
  cases hdelete : Edit.delete id cascade d with
  | error failure d₁ =>
    have hsame : d₁ = d := Edit.checksFirst_delete d id cascade failure d₁ hdelete
    rw [Edit.after, hdelete]
    refine iff_of_true (hsame ▸ hroot) ?_
    rintro ⟨hcascade, hne, hid, -⟩
    rw [Edit.delete_eq_ok_iff.mpr ⟨hne, hid, .inr hcascade, rfl, rfl⟩] at hdelete
    cases hdelete
  | ok removed d₁ =>
    obtain ⟨hne, hid, hbare, rfl, rfl⟩ := Edit.delete_eq_ok hdelete
    rw [Edit.after, hdelete]
    simp only [eraseAll_eq_restrict, contains_restrict, contains_detach, hroot, Bool.and_true,
      decide_eq_true_eq, mem_postorder]
    refine not_congr ⟨fun hl => ⟨?_, hne, hid, hl⟩, fun h => h.2.2.2⟩
    exact hbare.resolve_left fun hnone => hne (hl.eq_of_leaf hnone).symm

theorem contains_root_of_deleteOnly (hroot : d.contains d.root = true) {id p : BlockId}
    (hne : id ≠ d.root) (cs : List BlockId) :
    ((d.withChildren p cs).eraseAll [id]).contains d.root = true := by
  rw [eraseAll_eq_restrict, contains_restrict, contains_withChildren, hroot]
  simpa using hne.symm

theorem contains_root_pruned (hroot : d.contains d.root = true) :
    (d.restrict d.reachable.contains).contains d.root = true :=
  contains_pruned.mpr ⟨.refl d.root, hroot⟩

/-- No other edit takes the root away. -/
theorem contains_root_after (hroot : d.contains d.root = true) {c : Change}
    (hc : ∀ id, c ≠ .delete id true) : (c.after d).contains d.root = true := by
  refine change_cases (P := fun d' => d'.contains d.root = true) c hroot (fun d' ha => ?_)
    (fun id cascade hdelete => ?_) (fun id => ?_) (fun id p d' hm => ?_) ?_ fun hadds => ?_
  · obtain ⟨id, f, -, -, rfl⟩ := ha.eq
    rwa [contains_withBlock]
  · rw [contains_root_after_delete hroot]
    rintro ⟨rfl, -⟩
    exact hc id hdelete
  · rcases Edit.after_deleteOnly d id with he | ⟨p, hne, -, he⟩
    · rwa [he]
    · rw [he]
      exact contains_root_of_deleteOnly hroot hne _
  · obtain ⟨n, rfl⟩ := hm.eq
    rwa [contains_attach, contains_detach]
  · exact contains_root_pruned hroot
  · cases c with
    | add parent content role label position =>
      obtain ⟨a, ha⟩ | ⟨a, id, b, n, -, -, -, -, ha⟩ :=
        Edit.after_add d parent content role label position
      · rw [Change.after, ha]
        exact hroot
      · rw [Change.after, ha, contains_withChildren, contains_withLeaf, Bool.or_eq_true]
        exact .inr hroot
    | _ => cases hadds

end Document

open Document

/-! ## Mutations -/

/-- No mutation takes the root away but the deletion of a block with all that lies below it. -/
theorem Mutation.contains_root_apply {l : Limits} {m : Mutation} {d d' : Document} {outcome : Outcome}
    (hroot : d.contains d.root = true) (hm : ∀ id, m ≠ .delete id .deleted)
    (h : m.apply l d = .ok outcome d') : d'.contains d.root = true := by
  cases Mutation.apply_eq_ok_iff.mp h with
  | add _ hdraft =>
    obtain ⟨d₁, f, hadd, rfl⟩ := Edit.addDraft_eq_ok hdraft
    obtain ⟨-, a, -, rfl⟩ := Edit.add_eq_ok hadd
    rw [contains_withBlock, contains_withChildren, contains_withLeaf, Bool.or_eq_true]
    exact .inr hroot
  | set _ hset =>
    rcases Edit.setField_eq_ok hset with ⟨f, rfl⟩ | ⟨b, c, -, rfl, -⟩ <;> rwa [contains_withBlock]
  | @delete id children removed hdelete =>
    cases children with
    | none =>
      -- without leave to delete more, only a block without children is deleted
      have hkept := (contains_root_after_delete hroot id false).mpr (by rintro ⟨⟨⟩, -⟩)
      rwa [Edit.after, show Edit.delete id false d = .ok removed d' from hdelete] at hkept
    | deleted => exact absurd rfl (hm id)
    | kept =>
      obtain ⟨hne, -, -, p, -, rfl⟩ := Edit.deleteOnly_eq_ok hdelete
      exact contains_root_of_deleteOnly hroot hne _
  | move _ hmove =>
    obtain ⟨p, n, -, -, rfl⟩ := Edit.moveTo_eq_ok hmove
    rwa [contains_attach, contains_detach]
  | addEdge _ hadd =>
    obtain ⟨b, -, -, rfl⟩ := Edit.addEdge_eq_ok hadd
    split <;> simpa using hroot
  | removeEdge hremove =>
    obtain ⟨b, -, -, rfl⟩ := Edit.removeEdge_eq_ok hremove
    split <;> simpa using hroot
  | addTag hadd =>
    obtain ⟨b, -, -, rfl⟩ := Edit.addTag_eq_ok hadd
    split <;> simpa using hroot
  | removeTag hremove =>
    obtain ⟨b, -, -, rfl⟩ := Edit.removeTag_eq_ok hremove
    split <;> simpa using hroot
  | prune hprune =>
    obtain ⟨-, rfl⟩ := Edit.prune_eq_ok hprune
    exact contains_root_pruned hroot

/-! ## Operations -/

namespace Operation

variable {d : Document}

/-- The block that an operation deletes with all that lies below it. A program that does so looks at
what is left. -/
def cascades? : Operation → Option BlockId
  | edit (.delete id true) => some id
  | mutate _ (.delete id .deleted) => some id
  | _ => none

/-- Whether an operation deletes a block that leads back to the root. -/
def Uproots (o : Operation) (d : Document) : Prop := ∃ id ∈ o.cascades?, d.LeadsBack id

theorem cascades?_eq_some {o : Operation} {id : BlockId} (h : o.cascades? = some id) :
    o = .edit (.delete id true) ∨ ∃ l, o = .mutate l (.delete id .deleted) := by
  rw [cascades?.eq_def] at h
  split at h
  · cases h
    exact .inl rfl
  · cases h
    exact .inr ⟨_, rfl⟩
  · cases h

theorem root_after (o : Operation) (d : Document) : (o.after d).root = d.root := by
  obtain ⟨changes, hrun⟩ := o.exists_run_after_eq d
  rw [hrun, Document.root_run]

/-- An operation that deletes no block with all that lies below it leaves the root. -/
theorem contains_root_of_cascades?_eq_none (hd : d.Ahead) (hroot : d.contains d.root = true)
    {o : Operation} (ho : o.cascades? = none) : (o.after d).contains d.root = true := by
  cases o with
  | edit c =>
    refine Document.contains_root_after hroot fun id hc => ?_
    rw [hc] at ho
    cases ho
  | mutate l m =>
    show ((m.apply l).after d).contains d.root = true
    rw [Edit.after]
    cases h : m.apply l d with
    | error failure d' => rwa [m.checksFirst_apply hd l failure d' h]
    | ok outcome d' =>
      refine Mutation.contains_root_apply hroot (fun id hm => ?_) h
      rw [hm] at ho
      cases ho
  | execute e resolver source =>
    have hworse : e.NoWorse d ((e.execute resolver source).after d) := e.execute_noWorse source d
    have hkept := hworse.contains_root hroot
    rwa [hworse.root_eq] at hkept

/-- **Which operations take the root away**: those that delete a block that leads back to it. -/
theorem contains_root_after_iff (hd : d.Ahead) (hroot : d.contains d.root = true) (o : Operation) :
    (o.after d).contains (o.after d).root = true ↔ ¬ o.Uproots d := by
  rw [root_after]
  cases ho : o.cascades? with
  | none =>
    refine iff_of_true (contains_root_of_cascades?_eq_none hd hroot ho) ?_
    rintro ⟨id, hid, -⟩
    rw [ho] at hid
    cases hid
  | some id =>
    have huproots : o.Uproots d ↔ true = true ∧ d.LeadsBack id := by simp [Uproots, ho]
    rw [huproots, ← contains_root_after_delete hroot]
    rcases cascades?_eq_some ho with rfl | ⟨l, rfl⟩
    · rfl
    · have hafter : ((Mutation.delete id .deleted).apply l).after d = (Edit.delete id true).after d :=
        Edit.after_map d (Edit.delete id true) Outcome.removed
      rw [after, hafter]

/-- The root stays as long as no operation takes it away. -/
theorem contains_root_run (hd : d.Ahead) (hroot : d.contains d.root = true) {ops : List Operation}
    (hops : ∀ i (o : Operation), ops[i]? = some o → ¬ o.Uproots (run d (ops.take i))) :
    (run d ops).contains (run d ops).root = true := by
  induction ops generalizing d with
  | nil => exact hroot
  | cons o ops ih =>
    have hkept := (contains_root_after_iff hd hroot o).mpr (hops 0 o rfl)
    obtain ⟨changes, hrun⟩ := o.exists_run_after_eq d
    exact ih (d := o.after d) (hrun ▸ hd.run changes) hkept fun i o' ho' => hops (i + 1) o' ho'

end Operation

/-! ## A root that is nobody's child -/

theorem mem_of_mem_spliceFor {α : Type} [DecidableEq α] {x z : α} {ys zs : List α}
    (h : z ∈ spliceFor x ys zs) : z ∈ ys ∨ z ∈ zs := by
  induction zs with
  | nil => cases h
  | cons y zs ih =>
    rw [spliceFor] at h
    split at h
    · exact (List.mem_append.mp h).imp_right (List.mem_cons_of_mem y)
    · rcases List.mem_cons.mp h with rfl | h
      · exact .inr List.mem_cons_self
      · exact (ih h).imp_right (List.mem_cons_of_mem y)

namespace Document

variable {d : Document}

/-- A document whose root is a block and nobody's child. -/
structure Rooted (d : Document) : Prop where
  root_mem : d.contains d.root = true
  root_unlisted : ∀ p, d.root ∉ d.childrenOf p

theorem Rooted.not_leadsBack (h : d.Rooted) (id : BlockId) : ¬ d.LeadsBack id := by
  rintro ⟨hne, -, hl⟩
  exact hne (hl.eq_of_unlisted h.root_unlisted)

theorem mem_childrenOf_of_detach {id q c : BlockId} (h : c ∈ (d.detach id).childrenOf q) :
    c ∈ d.childrenOf q := by
  rw [detach] at h
  split at h
  · rw [childrenOf_withChildren] at h
    split at h
    · rename_i hq
      exact hq ▸ List.mem_of_mem_filter h
    · exact h
  · exact h

theorem mem_childrenOf_of_withLeaf {id q c : BlockId} {b : Block}
    (h : c ∈ (d.withLeaf id b).childrenOf q) : c ∈ d.childrenOf q := by
  rw [childrenOf, withLeaf, Std.ExtTreeMap.getD_insert] at h
  split at h
  · cases h
  · exact h

theorem mem_childrenOf_of_restrict {keep : BlockId → Bool} {q c : BlockId}
    (h : c ∈ (d.restrict keep).childrenOf q) : c ∈ d.childrenOf q := by
  rw [childrenOf_restrict] at h
  split at h
  · exact h
  · cases h

/-- No edit puts the root of a document under a block. -/
theorem Rooted.unlisted_after (h : d.Rooted) (c : Change) (q : BlockId) :
    d.root ∉ (c.after d).childrenOf q := by
  -- every new list of children is made of old children and of one block that is not the root
  refine change_induction (P := fun d' => d.root ∉ d'.childrenOf q) (h.root_unlisted q)
    (fun d' ha => ?_) (fun parent content role label position => ?_) (fun id cascade => ?_)
    (fun id => ?_) (fun id p d' hm => ?_) (fun hc => ?_) c
  · obtain ⟨id, f, -, -, rfl⟩ := ha.eq
    exact h.root_unlisted q
  · obtain ⟨a, ha⟩ | ⟨a, id, b, n, -, hid, -, -, ha⟩ :=
      Edit.after_add d parent content role label position
    · rw [ha]
      exact h.root_unlisted q
    · rw [ha, childrenOf_withChildren]
      intro hc
      split at hc
      · rcases List.mem_cons.mp ((insertAt_perm ..).mem_iff.mp hc) with rfl | hc
        · exact Bool.false_ne_true (hid.symm.trans h.root_mem)
        · exact h.root_unlisted parent hc
      · exact h.root_unlisted q (mem_childrenOf_of_withLeaf (d := d.withAllocator a) hc)
  · rcases Edit.after_delete d id cascade with he | ⟨-, he⟩
    · rw [he]
      exact h.root_unlisted q
    · rw [he, eraseAll_eq_restrict]
      exact fun hc => h.root_unlisted q (mem_childrenOf_of_detach (mem_childrenOf_of_restrict hc))
  · rcases Edit.after_deleteOnly d id with he | ⟨p, -, -, he⟩
    · rw [he]
      exact h.root_unlisted q
    · rw [he, eraseAll_eq_restrict]
      intro hc
      have hc := mem_childrenOf_of_restrict hc
      rw [childrenOf_withChildren] at hc
      split at hc
      · rcases mem_of_mem_spliceFor hc with hc | hc
        · exact h.root_unlisted id hc
        · exact h.root_unlisted p hc
      · exact h.root_unlisted q hc
  · obtain ⟨n, rfl⟩ := hm.eq
    rw [mem_childrenOf_attach]
    rintro (hc | ⟨-, hc⟩)
    · exact h.root_unlisted q (mem_childrenOf_of_detach hc)
    · exact hm.ne_root hc.symm
  · exact h.root_unlisted q (mem_childrenOf_of_restrict hc)

theorem Rooted.after (h : d.Rooted) (c : Change) : (c.after d).Rooted where
  root_mem := by
    rw [Document.root_after]
    by_cases hc : ∃ id, c = .delete id true
    · obtain ⟨id, rfl⟩ := hc
      exact (contains_root_after_delete h.root_mem id true).mpr fun hl => h.not_leadsBack id hl.2
    · exact contains_root_after h.root_mem fun id hid => hc ⟨id, hid⟩
  root_unlisted q := by
    rw [Document.root_after]
    exact h.unlisted_after c q

theorem Rooted.run (h : d.Rooted) (ops : List Operation) : (Operation.run d ops).Rooted := by
  have edits {d : Document} (h : d.Rooted) (changes : List Change) : (Change.run d changes).Rooted := by
    induction changes generalizing d with
    | nil => exact h
    | cons c changes ih => exact ih (h.after c)
  induction ops generalizing d with
  | nil => exact h
  | cons o ops ih =>
    obtain ⟨changes, hrun⟩ := o.exists_run_after_eq d
    exact ih (d := o.after d) (hrun ▸ edits h changes)

end Document

/-! ## Documents that are loaded -/

namespace Archive

variable {d d' : Document}

theorem contains_root_of_load {text : String} (h : load text = .ok d) :
    d.contains d.root = true := by
  obtain ⟨body, hbody⟩ := exists_body_of_load h
  obtain ⟨hids, hroot, -, rfl⟩ := Body.document_eq_ok.mp hbody
  exact (Body.lockStep_assembled hids hroot).root_mem

/-- **The root stays, but for what leads back to it**: a document that is loaded has its root among
its blocks. An operation takes it away exactly if it deletes, with all that lies below it, a block from
which a chain of children leads to the root, so the root stays as long as no operation does that.
Where the root is nobody's child when the document is loaded, it stays whatever is done. -/
theorem root_after_loading {text : String} (h : load text = .ok d) :
    (∀ ops : List Operation,
        (∀ i (o : Operation), ops[i]? = some o → ¬ o.Uproots (Operation.run d (ops.take i))) →
        (Operation.run d ops).contains (Operation.run d ops).root = true) ∧
      (∀ ops, let before := Operation.run d ops
        before.contains before.root = true → ∀ o : Operation,
          (o.after before).contains (o.after before).root = true ↔ ¬ o.Uproots before) ∧
      ((∀ p, d.root ∉ d.childrenOf p) → ∀ ops,
        (Operation.run d ops).contains (Operation.run d ops).root = true) := by
  have hroot := contains_root_of_load h
  have hobtained : d.Obtained := .loaded h
  refine ⟨fun ops hops => Operation.contains_root_run hobtained.ahead hroot hops, ?_,
    fun hunlisted ops => ?_⟩
  · intro ops before hbefore o
    exact Operation.contains_root_after_iff (hobtained.run ops).ahead hbefore o
  · exact (Document.Rooted.run ⟨hroot, hunlisted⟩ ops).root_mem

/-- A root and its child, which has the root for a child. -/
def circular : Document :=
  (Change.run (.create ⟨.sequential, 1⟩) [.add (.ofSuffix 1) (.text "a") none none none]).withChildren
    (.ofSuffix 2) [.ofSuffix 1]

/-- It is saved and loaded as it is. -/
theorem load_circular : ∃ d, load (save ⟨0, 0⟩ circular) = .ok d ∧ d.root = .ofSuffix 1 ∧
    d.contains (.ofSuffix 2) = true ∧ d.childrenOf (.ofSuffix 2) = [.ofSuffix 1] := by
  have hchanges : ∀ c ∈ [Change.add (.ofSuffix 1) (.text "a") none none none], c.Ranged :=
    List.forall_mem_singleton.mpr trivial
  have hranged : circular.Ranged :=
    (Document.Ranged.run (.create ⟨.sequential, 1⟩) hchanges).withChildren _ _
  have hnow : Time.Instant.Ranged ⟨0, 0⟩ := ⟨by decide, by decide⟩
  obtain ⟨d, hload⟩ :=
    exists_load_save hnow (by decide +kernel) hranged (by decide +kernel) (by decide +kernel)
  obtain ⟨hroot, hblocks⟩ := children_of_load hnow hranged hload
  have hroot₀ : circular.root = .ofSuffix 1 := by decide +kernel
  have hchildren₀ : (circular.block? (.ofSuffix 2)).map Block.children = some [.ofSuffix 1] := by
    decide +kernel
  obtain ⟨hchildren, htree⟩ := hblocks (.ofSuffix 2)
  rw [hchildren₀] at hchildren htree
  obtain ⟨b, hb, -⟩ := Option.map_eq_some_iff.mp hchildren
  refine ⟨d, hload, hroot.trans hroot₀, contains_iff.mpr ⟨b, hb⟩, ?_⟩
  rw [childrenOf_eq, htree, Option.getD_some]

/-- The root stays when the circular document is pruned, and when its child may not take the root
along. -/
theorem root_after_loading_circular :
    ∃ d, load (save ⟨0, 0⟩ circular) = .ok d ∧ d.root ∈ d.childrenOf (.ofSuffix 2) ∧
      let ops := [.mutate {} .prune, .edit (.delete (.ofSuffix 2) false)]
      (Operation.run d ops).contains (Operation.run d ops).root = true := by
  obtain ⟨d, hload, hroot, -, hchildren⟩ := load_circular
  refine ⟨d, hload, by rw [hroot, hchildren]; exact List.mem_cons_self, ?_⟩
  refine (root_after_loading hload).1 _ fun i o ho => ?_
  have hnone : ∀ o ∈ [Operation.mutate {} .prune, .edit (.delete (.ofSuffix 2) false)],
      o.cascades? = none := by simp [Operation.cascades?]
  rintro ⟨id, hid, -⟩
  rw [hnone o (List.mem_of_getElem? ho)] at hid
  cases hid

/-- An edit or a mutation that deletes the child with all that lies below it takes the root away. -/
theorem uprooted_after_loading :
    ∃ d, load (save ⟨0, 0⟩ circular) = .ok d ∧ d.contains d.root = true ∧
      ∀ o ∈ [Operation.edit (.delete (.ofSuffix 2) true), .mutate {} (.delete (.ofSuffix 2) .deleted)],
        (o.after d).contains (o.after d).root = false := by
  obtain ⟨d, hload, hroot, hcontains, hchildren⟩ := load_circular
  have hleads : d.LeadsBack (.ofSuffix 2) := by
    refine ⟨?_, hcontains, .single ?_⟩
    · rw [hroot]
      decide +kernel
    · rw [hroot, hchildren]
      exact List.mem_cons_self
  have hmem := contains_root_of_load hload
  refine ⟨d, hload, hmem, fun o ho => Bool.eq_false_iff.mpr fun hkept => ?_⟩
  have hcascades : o.cascades? = some (.ofSuffix 2) := by
    revert o
    simp [Operation.cascades?]
  have hobtained : d.Obtained := .loaded hload
  exact (Operation.contains_root_after_iff hobtained.ahead hmem o).mp hkept ⟨_, hcascades, hleads⟩

end Archive

end BlockDocument
