import BlockDocument.Proofs.Archive.Load
import BlockDocument.Proofs.Freshness

/-!
# Edges without a target after loading

A deleted block leaves the edges that lead to it behind, and as long as the document is not saved and
loaded its id is not issued again. The counter is not saved. A document that is loaded takes note of
the ids of its blocks, but not of those that its edges lead to, so counting goes on after the greatest
number of a block. Which ids can be issued from then on is known exactly
(`Archive.issued_after_loading`), and with that which edges may get an unrelated block for a target:
those that lead beyond the numbers of all blocks.
-/

namespace BlockDocument

open Document

namespace Document

/-- Whether an edge of some block leads to an id that is no block's. -/
def Dangles (d : Document) (id : BlockId) : Prop :=
  d.contains id = false ∧ ∃ source b, d.block? source = some b ∧ ∃ e ∈ b.edges, e.target = id

/-- These are the ids that an inspection reports. -/
theorem dangles_iff {d : Document} {id : BlockId} (severity : Severity) :
    d.Dangles id ↔ ∃ i ∈ d.danglingIssues severity, ∃ r, i.finding = .dangling r id := by
  constructor
  · rintro ⟨hid, source, b, hb, e, he, rfl⟩
    have hmem : e ∈ b.edges.filter fun e => !d.contains e.target :=
      List.mem_filter.mpr ⟨he, by rw [hid, Bool.not_false]⟩
    exact ⟨_, List.mem_flatMap.mpr ⟨b, Map.mem_values.mpr ⟨source, hb⟩, List.mem_map_of_mem hmem⟩,
      e.relation, rfl⟩
  · rintro ⟨i, hi, r, hfinding⟩
    obtain ⟨b, hb, hi⟩ := List.mem_flatMap.mp hi
    obtain ⟨e, he, rfl⟩ := List.mem_map.mp hi
    obtain ⟨source, hb⟩ := Map.mem_values.mp hb
    obtain ⟨he, hid⟩ := List.mem_filter.mp he
    obtain rfl : e.target = id := (Finding.dangling.inj hfinding).2
    exact ⟨by simpa using hid, source, b, hb, e, he, rfl⟩

/-- Whether a number is beyond those of all blocks. -/
def Beyond (d : Document) (n : Nat) : Prop :=
  ∀ id, d.contains id = true → ∀ m, id.suffix? = some m → m < n

/-- A new document whose ids are counted has a root with a number, even where no number is left. -/
theorem exists_suffix?_root_create (first : Nat) :
    ∃ m, (create ⟨.sequential, first⟩).root.suffix? = some m := by
  have hahead : Allocator.Ahead ⟨.sequential, first⟩ fun _ => false := fun _ _ _ _ => rfl
  have hroot : (create ⟨.sequential, first⟩).root =
      ((Allocator.allocate ⟨.sequential, first⟩ (.text "") none fun _ => false).1).getD
        (.ofSuffix 1) := rfl
  rw [hroot, hahead.allocate_eq rfl]
  by_cases hroom : first ≤ BlockId.maxSuffix
  · rw [if_pos hroom]
    exact ⟨first, BlockId.suffix?_ofSuffix hroom⟩
  · rw [if_neg hroom]
    exact ⟨1, BlockId.suffix?_ofSuffix (by decide)⟩

end Document

/-! ## What can be issued -/

namespace Operation

variable {d : Document}

theorem root_run (d : Document) (ops : List Operation) : (run d ops).root = d.root := by
  induction ops generalizing d with
  | nil => rfl
  | cons o ops ih =>
    obtain ⟨changes, hrun⟩ := o.exists_run_after_eq d
    exact (ih (o.after d)).trans (by rw [hrun, Document.root_run])

/-- As long as there is a number left, a block below the root gets it. -/
theorem exists_issued_next (h : d.Counts) (hroot : d.contains d.root = true)
    (hroom : d.allocator.next ≤ BlockId.maxSuffix) :
    ∃ o : Operation, o.issued d = [.ofSuffix d.allocator.next] ∧
      (o.after d).allocator.next = d.allocator.next + 1 ∧
      (o.after d).contains (o.after d).root = true := by
  obtain ⟨d', he, hnext⟩ := h.add_succeeds hroot hroom (.text "") none none none
  let c : Change := .add d.root (.text "") none none none
  have hafter : c.after d = d' := by
    show (Edit.add d.root (.text "") none none none).after d = d'
    rw [Edit.after, he]
  refine ⟨.edit c, ?_, ?_, ?_⟩
  · show ((Edit.add d.root (.text "") none none none).answer? d).elim [] (fun id => [id]) = _
    rw [Edit.answer?, he]
    rfl
  · show (c.after d).allocator.next = _
    rw [hafter, hnext]
  · show (c.after d).contains (c.after d).root = true
    rw [root_after, hafter]
    obtain ⟨-, a, -, rfl⟩ := Edit.add_eq_ok he
    rw [contains_withChildren, contains_withLeaf, Bool.or_eq_true]
    exact .inr hroot

/-- From the next number on every number is issued at some time. -/
theorem exists_mem_issuedBy (h : d.Counts) (hroot : d.contains d.root = true) {n : Nat}
    (hle : d.allocator.next ≤ n) (hmax : n ≤ BlockId.maxSuffix) :
    ∃ ops, .ofSuffix n ∈ issuedBy d ops := by
  obtain ⟨k, rfl⟩ := Nat.exists_eq_add_of_le hle
  obtain ⟨o, hissued, hnext, hroot'⟩ := exists_issued_next h hroot (Nat.le_trans hle hmax)
  induction k generalizing d o with
  | zero =>
    refine ⟨[o], ?_⟩
    rw [issuedBy, hissued]
    exact List.mem_cons_self
  | succ k ih =>
    have hcounts := (o.issued_after h).counts
    have hshift : d.allocator.next + (k + 1) = (o.after d).allocator.next + k := by omega
    rw [hshift] at hmax ⊢
    obtain ⟨o', hissued', hnext', hroot''⟩ :=
      exists_issued_next hcounts hroot' (Nat.le_trans (Nat.le_add_right _ k) hmax)
    obtain ⟨ops, hmem⟩ :=
      ih hcounts hroot' (Nat.le_add_right _ k) hmax o' hissued' hnext' hroot''
    exact ⟨o :: ops, List.mem_append_right _ hmem⟩

/-- Which ids can be issued: those from the next number on. -/
theorem exists_mem_issuedBy_iff (h : d.Counts) (hroot : d.contains d.root = true) {id : BlockId} :
    (∃ ops, id ∈ issuedBy d ops) ↔ ∃ n, id.suffix? = some n ∧ d.allocator.next ≤ n := by
  constructor
  · rintro ⟨ops, hid⟩
    obtain ⟨n, hn, hle, -⟩ := (issued_run h ops).exists_of_mem hid
    exact ⟨n, hn, hle⟩
  · rintro ⟨n, hn, hle⟩
    obtain ⟨hmax, rfl⟩ := BlockId.eq_ofSuffix hn
    exact exists_mem_issuedBy h hroot hle hmax

end Operation

namespace Archive

variable {now : Time.Instant} {d d' : Document}

/-! ## What is loaded -/

/-- A document that is loaded has the blocks and the root that were saved, and counts on from the
numbers of its blocks. -/
theorem next_le_iff_of_load (hnow : now.Ranged) (hd : d.Ranged)
    (h : load (save now d) = .ok d') :
    d'.allocator.policy = d.allocator.policy ∧ d'.root = d.root ∧
      (∀ id, d'.contains id = d.contains id) ∧
      ∀ n, d'.allocator.next ≤ n ↔ 1 ≤ n ∧ d.Beyond n := by
  obtain ⟨-, body, hbody, hdocument⟩ := (load_save_eq_ok hnow (Body.ranged_ofDocument hd)).mp h
  obtain ⟨-, -, -, rfl⟩ := Body.document_eq_ok.mp hdocument
  obtain ⟨hids, -, hroot⟩ := Body.ids_of_recovered? hbody
  have hpolicy : body.policy = d.allocator.policy := by
    obtain ⟨blocks, edges, -, -, rfl⟩ := Body.recovered?_eq_some.mp hbody
    rfl
  have hcontains (id : BlockId) : body.assembled.contains id = true ↔ d.contains id = true := by
    rw [Body.contains_assembled, hids, Body.ids_ofDocument, Std.ExtTreeMap.mem_keys,
      ← Std.ExtTreeMap.contains_iff_mem]
    rfl
  refine ⟨?_, hroot, fun id => Bool.eq_iff_iff.mpr (hcontains id), fun n => ?_⟩
  · exact (Body.policy_foldl_observe _ _).trans hpolicy
  · refine Allocator.next_foldl_observe_le_iff.trans (and_congr_right fun _ => ?_)
    refine forall_congr' fun id => imp_congr_left ?_
    rw [← hcontains id, Std.ExtTreeMap.mem_keys, ← Std.ExtTreeMap.contains_iff_mem]
    rfl

/-- The ids that can be issued on a document that is loaded. -/
theorem exists_issuedBy_iff_of_load (first : Nat) {ops : List Operation}
    (hops : ∀ o ∈ ops, o.Ranged) (hnow : now.Ranged)
    (h : load (save now (Operation.run (.create ⟨.sequential, first⟩) ops)) = .ok d')
    (id : BlockId) :
    (∃ ops', id ∈ Operation.issuedBy d' ops') ↔
      ∃ n, id.suffix? = some n ∧ (Operation.run (.create ⟨.sequential, first⟩) ops).Beyond n := by
  obtain ⟨htree, hranged⟩ := isTree_ranged_run ⟨.sequential, first⟩ hops
  obtain ⟨hpolicy, hroot, hcontains, hnext⟩ := next_le_iff_of_load hnow hranged h
  have hcreate : (Document.create ⟨.sequential, first⟩).Counts :=
    ⟨Allocator.policy_allocate ⟨.sequential, first⟩ (.text "") none fun _ => false, ahead_create _⟩
  have hd' : d'.Counts :=
    ⟨hpolicy.trans (Operation.issued_run hcreate ops).counts.policy_eq, ahead_of_load h⟩
  have hroot' : d'.contains d'.root = true := by
    rw [hroot, hcontains]
    exact htree.root_mem
  rw [Operation.exists_mem_issuedBy_iff hd' hroot']
  refine exists_congr fun n => and_congr_right fun _ => ?_
  rw [hnext n]
  -- the root has a number, so zero is not beyond all blocks
  refine and_iff_right_of_imp fun hbeyond => ?_
  obtain ⟨m, hm⟩ := exists_suffix?_root_create first
  have hlt := hbeyond _ htree.root_mem m (by rwa [Operation.root_run])
  omega

/-- **What is issued after loading**: once a document that operations made has been saved and loaded,
the ids that can be issued are those with a number beyond the numbers of all its blocks. So no edge
that led to no block comes to lead to a new one exactly if none of them leads beyond these numbers. -/
theorem issued_after_loading (first : Nat) {ops : List Operation} (hops : ∀ o ∈ ops, o.Ranged)
    (hnow : now.Ranged)
    (h : load (save now (Operation.run (.create ⟨.sequential, first⟩) ops)) = .ok d') :
    let d := Operation.run (.create ⟨.sequential, first⟩) ops
    (∀ id, (∃ ops', id ∈ Operation.issuedBy d' ops') ↔ ∃ n, id.suffix? = some n ∧ d.Beyond n) ∧
      ((∀ id, d.Dangles id → ∀ ops', id ∉ Operation.issuedBy d' ops') ↔
        ∀ id, d.Dangles id → ∀ n, id.suffix? = some n → ¬ d.Beyond n) := by
  intro d
  have hissued (id : BlockId) : (∃ ops', id ∈ Operation.issuedBy d' ops') ↔
      ∃ n, id.suffix? = some n ∧ d.Beyond n := exists_issuedBy_iff_of_load first hops hnow h id
  refine ⟨hissued, forall_congr' fun id => imp_congr_right fun _ => ?_⟩
  rw [← not_exists, hissued id]
  simp only [not_exists, not_and]

/-! ## An edge that was left behind -/

/-- The root gets a child and an edge to it, and then the child is deleted. -/
def cutOff : List Operation :=
  [.edit (.add (.ofSuffix 1) (.text "old") none none none),
    .edit (.addEdge (.ofSuffix 1) { relation := .references, target := .ofSuffix 2 }),
    .edit (.delete (.ofSuffix 2) false)]

/-- The same, and then the root gets another child. -/
def cutOffBetween : List Operation :=
  cutOff ++ [.edit (.add (.ofSuffix 1) (.text "kept") none none none)]

theorem dangles_of_any {id : BlockId} (hid : d.contains id = false)
    (h : d.blocks.values.any (fun b => b.edges.any fun e => e.target == id) = true) :
    d.Dangles id := by
  obtain ⟨b, hb, hedge⟩ := List.any_eq_true.mp h
  obtain ⟨e, he, htarget⟩ := List.any_eq_true.mp hedge
  obtain ⟨source, hsource⟩ := Map.mem_values.mp hb
  exact ⟨hid, source, b, hsource, e, he, eq_of_beq htarget⟩

/-- With a later block in the document that is saved, the second id is not issued again. -/
theorem issued_after_loading_cutOffBetween :
    let d := Operation.run (.create ⟨.sequential, 1⟩) cutOffBetween
    d.Dangles (.ofSuffix 2) ∧ ∃ d', load (save ⟨0, 0⟩ d) = .ok d' ∧
      ∀ ops, .ofSuffix 2 ∉ Operation.issuedBy d' ops := by
  intro d
  have hops : ∀ o ∈ cutOffBetween, o.Ranged := by
    simp only [cutOffBetween, cutOff, List.cons_append, List.nil_append, List.forall_mem_cons]
    exact ⟨trivial, trivial, trivial, trivial, by rintro o ⟨⟩⟩
  have hnow : Time.Instant.Ranged ⟨0, 0⟩ := ⟨by decide, by decide⟩
  obtain ⟨htree, hranged⟩ := isTree_ranged_run ⟨.sequential, 1⟩ hops
  obtain ⟨d', hload⟩ :=
    exists_load_save hnow htree.root_mem hranged (by decide +kernel) (by decide +kernel)
  refine ⟨dangles_of_any (by decide +kernel) (by decide +kernel), d', hload, fun ops hissued => ?_⟩
  obtain ⟨n, hn, hbeyond⟩ := ((issued_after_loading 1 hops hnow hload).1 _).mp ⟨ops, hissued⟩
  rw [BlockId.suffix?_ofSuffix (by decide)] at hn
  have hlt := hbeyond (.ofSuffix 3) (by decide +kernel) 3 (BlockId.suffix?_ofSuffix (by decide))
  have htwo : 2 = n := Option.some.inj hn
  omega

/-- Without one it is, and the edge that led to no block leads to an unrelated one. -/
theorem captured_after_loading :
    let d := Operation.run (.create ⟨.sequential, 1⟩) cutOff
    d.Dangles (.ofSuffix 2) ∧ ∃ d', load (save ⟨0, 0⟩ d) = .ok d' ∧
      ∃ ops, .ofSuffix 2 ∈ Operation.issuedBy d' ops := by
  intro d
  have hops : ∀ o ∈ cutOff, o.Ranged := by
    simp only [cutOff, List.forall_mem_cons]
    exact ⟨trivial, trivial, trivial, by rintro o ⟨⟩⟩
  have hnow : Time.Instant.Ranged ⟨0, 0⟩ := ⟨by decide, by decide⟩
  obtain ⟨htree, hranged⟩ := isTree_ranged_run ⟨.sequential, 1⟩ hops
  obtain ⟨d', hload⟩ :=
    exists_load_save hnow htree.root_mem hranged (by decide +kernel) (by decide +kernel)
  have hblocks : d.blocks.keys = [.ofSuffix 1] := by decide +kernel
  refine ⟨dangles_of_any (by decide +kernel) (by decide +kernel), d', hload,
    (exists_issuedBy_iff_of_load 1 hops hnow hload _).mpr
      ⟨2, BlockId.suffix?_ofSuffix (by decide), fun id hid m hm => ?_⟩⟩
  have hid : id ∈ d.blocks.keys :=
    Std.ExtTreeMap.mem_keys.mpr (Std.ExtTreeMap.contains_iff_mem.mp hid)
  rw [hblocks, List.mem_singleton] at hid
  rw [hid, BlockId.suffix?_ofSuffix (by decide)] at hm
  have hone : 1 = m := Option.some.inj hm
  omega

end Archive

end BlockDocument
