import BlockDocument.Proofs.BlockId
import BlockDocument.Proofs.Document.Change

/-!
# The supply of ids

An allocator that counts stands beyond the numbers of all blocks, however a document came about: a
new one starts so, one made of parts takes note of the ids of its blocks, and edits only add blocks
under ids that were counted off. So the first number that is tried is free, and when the numbers are
used up the allocator has nothing left to try and stays as it is.
-/

namespace BlockDocument

namespace Allocator

/-- When ids are counted, no id is taken from the next number on. -/
def Ahead (a : Allocator) (taken : BlockId → Bool) : Prop :=
  a.policy = .sequential → ∀ n, a.next ≤ n → n ≤ BlockId.maxSuffix → taken (.ofSuffix n) = false

variable {a a' : Allocator} {taken taken' : BlockId → Bool}

theorem Ahead.mono (h : a.Ahead taken) (hle : ∀ id, taken' id = true → taken id = true) :
    a.Ahead taken' := fun hp n hn hmax =>
  Bool.eq_false_iff.mpr fun ht => Bool.eq_false_iff.mp (h hp n hn hmax) (hle _ ht)

/-- Which id is counted off: the next one, as long as there is room for it. -/
theorem Ahead.allocate_eq (h : a.Ahead taken) (hp : a.policy = .sequential) (c : Content)
    (role : Option Role) :
    a.allocate c role taken =
      if a.next ≤ BlockId.maxSuffix then (some (.ofSuffix a.next), { a with next := a.next + 1 })
      else (none, a) := by
  rw [allocate, hp]
  by_cases hroom : a.next ≤ BlockId.maxSuffix
  · obtain ⟨fuel, hfuel⟩ : ∃ fuel, BlockId.maxSuffix + 1 - a.next = fuel + 1 :=
      ⟨BlockId.maxSuffix - a.next, by omega⟩
    have hfree : taken (.ofSuffix a.next) = false := h hp a.next (Nat.le_refl _) hroom
    simp only [hfuel, firstFree, hfree, Bool.false_eq_true, if_false, if_pos hroom]
  · have hfuel : BlockId.maxSuffix + 1 - a.next = 0 := by omega
    have hnext : max a.next (BlockId.maxSuffix + 1) = a.next := by omega
    simp only [hfuel, firstFree, hnext, if_neg hroom, ← hp]

/-- An allocator without an id left stays as it is. -/
theorem Ahead.eq_of_allocate (h : a.Ahead taken) {c : Content} {role : Option Role}
    (hnone : a.allocate c role taken = (none, a')) : a' = a := by
  cases hp : a.policy with
  | sequential =>
    rw [h.allocate_eq hp] at hnone
    split at hnone
    · cases hnone
    · cases hnone
      rfl
  | contentAddressed =>
    rw [allocate, hp] at hnone
    exact (Prod.mk.inj hnone).2.symm

theorem policy_allocate (a : Allocator) (c : Content) (role : Option Role)
    (taken : BlockId → Bool) : (a.allocate c role taken).2.policy = a.policy := by
  rw [allocate]
  split
  · split <;> rfl
  · rfl

/-- An allocator stays ahead of the ids that it gives away. -/
theorem Ahead.allocate (h : a.Ahead taken) {c : Content} {role : Option Role} {id : BlockId}
    (hsome : a.allocate c role taken = (some id, a')) : a'.Ahead fun x => taken x || x == id := by
  intro hp' n hn hmax
  have hp : a.policy = .sequential := by
    rw [← hp', ← policy_allocate a c role taken, hsome]
  rw [h.allocate_eq hp] at hsome
  split at hsome
  · rename_i hroom
    cases hsome
    have hn : a.next + 1 ≤ n := hn
    have hne : BlockId.ofSuffix n ≠ .ofSuffix a.next := by
      rw [ne_eq, BlockId.ofSuffix_inj hmax hroom]
      omega
    have hfree : taken (.ofSuffix n) = false := h hp n (by omega) hmax
    show (taken (.ofSuffix n) || .ofSuffix n == BlockId.ofSuffix a.next) = false
    rw [hfree, Bool.false_or, beq_eq_false_iff_ne]
    exact hne
  · cases hsome

/-! ## Ids that are taken note of -/

/-- Counting goes on after the greatest number that was taken note of. -/
theorem next_foldl_observe_le_iff {ids : List BlockId} {a : Allocator} {n : Nat} :
    (ids.foldl observe a).next ≤ n ↔
      a.next ≤ n ∧ ∀ id ∈ ids, ∀ m, id.suffix? = some m → m < n := by
  induction ids generalizing a with
  | nil => simp
  | cons id ids ih =>
    rw [List.foldl_cons, ih, List.forall_mem_cons, ← and_assoc]
    refine and_congr_left fun _ => ?_
    rw [observe]
    cases hm : id.suffix? with
    | none => simp
    | some m =>
      simp only [Nat.max_le, Option.some.injEq, forall_eq']
      exact Iff.rfl

theorem lt_next_foldl_observe {ids : List BlockId} {id : BlockId} {n : Nat} (hid : id ∈ ids)
    (hn : id.suffix? = some n) (a : Allocator) : n < (ids.foldl observe a).next :=
  (next_foldl_observe_le_iff.mp (Nat.le_refl _)).2 id hid n hn

/-- An allocator that has taken note of all ids is ahead of them. -/
theorem ahead_foldl_observe (ids : List BlockId) (a : Allocator)
    (hall : ∀ id, taken id = true → id ∈ ids) : (ids.foldl observe a).Ahead taken := by
  intro _ n hn hmax
  refine Bool.eq_false_iff.mpr fun ht => ?_
  have hlt := lt_next_foldl_observe (hall _ ht) (BlockId.suffix?_ofSuffix hmax) a
  omega

end Allocator

/-! ## Documents -/

namespace Document

/-- The allocator stands beyond the numbers of all blocks. -/
def Ahead (d : Document) : Prop := d.allocator.Ahead d.contains

variable {d d' : Document}

theorem ahead_create (a : Allocator) : (create a).Ahead := by
  have hfree : a.allocate (.text "") none (fun _ => false) =
      ((a.allocate (.text "") none (fun _ => false)).1, (create a).allocator) := rfl
  cases hid : (a.allocate (.text "") none (fun _ => false)).1 with
  | none =>
    -- Only a counter beyond the last number leaves the root without an id of its own.
    intro hp n hn hmax
    rw [hid] at hfree
    have ha : a.Ahead fun _ => false := fun _ _ _ _ => rfl
    have hsame := ha.eq_of_allocate hfree
    rw [hsame] at hp hn
    rw [ha.allocate_eq hp, if_pos (Nat.le_trans hn hmax)] at hfree
    cases hfree
  | some id =>
    rw [hid] at hfree
    have ha : a.Ahead fun _ => false := fun _ _ _ _ => rfl
    refine (ha.allocate hfree).mono fun x hx => ?_
    obtain ⟨b, hb⟩ := contains_iff.mp hx
    have hroot : (create a).root = id := by
      show (a.allocate (.text "") none (fun _ => false)).1.getD (.ofSuffix 1) = id
      rw [hid, Option.getD_some]
    rw [block?_create, hroot] at hb
    split at hb
    · rename_i hx'
      simp [hx']
    · cases hb

theorem ahead_ofParts (root : BlockId) (blocks : Std.ExtTreeMap BlockId Block)
    (tree : Std.ExtTreeMap BlockId (List BlockId)) (a : Allocator) :
    (ofParts root blocks tree a).Ahead :=
  Allocator.ahead_foldl_observe blocks.keys a fun _ hid =>
    Std.ExtTreeMap.mem_keys.mpr (Std.ExtTreeMap.contains_iff_mem.mp hid)

/-- A document without a new block, with the same source of ids. -/
structure Shrinks (d d' : Document) : Prop where
  allocator_eq : d'.allocator = d.allocator
  contains_of_contains : ∀ id, d'.contains id = true → d.contains id = true

theorem Shrinks.refl (d : Document) : d.Shrinks d := ⟨rfl, fun _ h => h⟩

theorem Shrinks.trans {d'' : Document} (h : d.Shrinks d') (h' : d'.Shrinks d'') : d.Shrinks d'' :=
  ⟨h'.allocator_eq.trans h.allocator_eq, fun id hid =>
    h.contains_of_contains id (h'.contains_of_contains id hid)⟩

/-- A document stays ahead as long as no block is new and the allocator is the same. -/
theorem Ahead.shrinks (h : d.Ahead) (hs : d.Shrinks d') : d'.Ahead := by
  rw [Ahead, hs.allocator_eq]
  exact h.mono hs.contains_of_contains

theorem allocator_detach (d : Document) (id : BlockId) : (d.detach id).allocator = d.allocator := by
  rw [detach]
  split <;> rfl

theorem Ahead.after_add (h : d.Ahead) (parent : BlockId) (content : Content) (role : Option Role)
    (label : Option String) (position : Option Nat) :
    ((Edit.add parent content role label position).after d).Ahead := by
  simp only [Edit.add, Edit.after_require_bind]
  cases d.block? parent with
  | none => exact h
  | some b =>
    simp only [Edit.after_get_bind]
    rcases ha : d.allocator.allocate content role d.contains with ⟨id?, a⟩
    cases id? with
    | none => exact h.shrinks ⟨Allocator.Ahead.eq_of_allocate h ha, fun _ hid => hid⟩
    | some id =>
      have hleaf : ((d.withAllocator a).withLeaf id
          { id, content, metadata := { role, label } }).Ahead := by
        refine (Allocator.Ahead.allocate h ha).mono fun x hx => ?_
        rw [contains_withLeaf, Bool.or_eq_true, decide_eq_true_iff] at hx
        rcases hx with rfl | hx
        · simp
        · exact Bool.or_eq_true _ _ ▸ .inl hx
      refine hleaf.shrinks ⟨rfl, fun x (hx : (withChildren _ _ _).contains x = true) => ?_⟩
      rwa [contains_withChildren] at hx

/-- Only the addition of a block brings in a new one or draws on the source of ids. -/
theorem shrinks_after (d : Document) {c : Change} (hc : c.adds = false) : d.Shrinks (c.after d) := by
  -- the five kinds of steps that are no additions
  refine change_cases c (.refl d) (fun d' ha => ?_) (fun id cascade _ => ?_) (fun id => ?_)
    (fun id p d' hm => ?_) ?_ fun hadds => ?_
  · obtain ⟨id, f, -, -, rfl⟩ := ha.eq
    exact ⟨rfl, fun x hx => by rwa [contains_withBlock] at hx⟩
  · rcases Edit.after_delete d id cascade with he | ⟨-, he⟩
    · rw [he]
      exact .refl d
    · rw [he, eraseAll_eq_restrict]
      refine ⟨allocator_detach d id, fun x hx => ?_⟩
      rw [contains_restrict, Bool.and_eq_true, contains_detach] at hx
      exact hx.2
  · rcases Edit.after_deleteOnly d id with he | ⟨p, -, -, he⟩
    · rw [he]
      exact .refl d
    · rw [he, eraseAll_eq_restrict]
      refine ⟨rfl, fun x hx => ?_⟩
      rw [contains_restrict, Bool.and_eq_true, contains_withChildren] at hx
      exact hx.2
  · obtain ⟨n, rfl⟩ := hm.eq
    refine ⟨allocator_detach d id, fun x hx => ?_⟩
    rwa [contains_attach, contains_detach] at hx
  · rw [Edit.after_prune]
    refine ⟨rfl, fun x hx => ?_⟩
    rw [contains_restrict, Bool.and_eq_true] at hx
    exact hx.2
  · rw [hc] at hadds
    cases hadds

theorem shrinks_run {changes : List Change} (h : ∀ c ∈ changes, c.adds = false) (d : Document) :
    d.Shrinks (Change.run d changes) := by
  induction changes generalizing d with
  | nil => exact .refl d
  | cons c changes ih =>
    obtain ⟨hc, hchanges⟩ := List.forall_mem_cons.mp h
    exact (shrinks_after d hc).trans (ih hchanges (c.after d))

/-- **Edits keep an allocator ahead.** -/
theorem Ahead.after (h : d.Ahead) (c : Change) : (c.after d).Ahead := by
  cases c with
  | add parent content role label position => exact h.after_add parent content role label position
  | _ => exact h.shrinks (shrinks_after d rfl)

theorem Ahead.run (h : d.Ahead) (changes : List Change) : (Change.run d changes).Ahead := by
  induction changes generalizing d with
  | nil => exact h
  | cons c changes ih => exact ih (h.after c)

end Document

end BlockDocument
