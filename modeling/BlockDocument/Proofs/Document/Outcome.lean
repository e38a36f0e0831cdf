import BlockDocument.Proofs.Document.Walk

/-!
# What an edit leaves behind

An edit ends with an answer or a failure, and leaves a document in both cases. For each edit there
is one lemma that lists what it can leave: the document as it was, or the changed document together
with the checks that came before the change.
-/

namespace BlockDocument

open Std (ExtTreeMap)

/-- The document that an edit leaves, whether it succeeds or fails. -/
def Edit.after {α : Type} (e : Edit α) (d : Document) : Document :=
  match e d with
  | .ok _ d' => d'
  | .error _ d' => d'

namespace Edit

section after

variable {α β : Type} (d : Document) (f : α → Edit β)

@[simp] theorem after_pure (a : α) : (pure a : Edit α).after d = d := rfl

@[simp] theorem after_throw (e : Failure) : (throw e : Edit α).after d = d := rfl

@[simp] theorem after_throw_bind (e : Failure) : ((throw e : Edit α) >>= f).after d = d := rfl

@[simp] theorem after_get_bind (f : Document → Edit β) : (get >>= f).after d = (f d).after d := rfl

@[simp] theorem after_set (d' : Document) : (set d' : Edit PUnit).after d = d' := rfl

@[simp] theorem after_set_bind (d' : Document) (f : PUnit → Edit β) :
    (set d' >>= f).after d = (f ⟨⟩).after d' := rfl

@[simp] theorem after_modify (g : Document → Document) : (modify g : Edit PUnit).after d = g d := rfl

@[simp] theorem after_modify_bind (g : Document → Document) (f : PUnit → Edit β) :
    (modify g >>= f).after d = (f ⟨⟩).after (g d) := rfl

theorem after_ofExcept_bind (x : Except Failure α) :
    (ofExcept x >>= f).after d = match x with
      | .ok a => (f a).after d
      | .error _ => d := by
  cases x <;> rfl

theorem after_require_bind (id : BlockId) (f : Block → Edit β) :
    (require id >>= f).after d = match d.block? id with
      | some b => (f b).after d
      | none => d := by
  show (ofExcept (d.require id) >>= f).after d = _
  rw [after_ofExcept_bind, Document.require_eq]
  cases d.block? id <;> rfl

/-- An edit whose answer is not used leaves the same document. -/
@[simp] theorem after_bind_pure (e : Edit α) (g : α → β) :
    (e >>= fun a => pure (g a)).after d = e.after d := by
  show after (EStateM.bind e fun a => EStateM.pure (g a)) d = _
  rw [after, after, EStateM.bind]
  cases e d <;> rfl

@[simp] theorem after_map (e : Edit α) (g : α → β) : (g <$> e).after d = e.after d := by
  show after (EStateM.map g e) d = _
  rw [after, after, EStateM.map]
  cases e d <;> rfl

theorem after_ite (c : Prop) [Decidable c] (e e' : Edit α) :
    (if c then e else e').after d = if c then e.after d else e'.after d := by
  split <;> rfl

end after

end Edit

/-! ## Names for new blocks -/

theorem taken_firstFree {candidate : Nat → BlockId} {taken : BlockId → Bool} {fuel n m : Nat}
    {id : BlockId} (h : firstFree candidate taken fuel n = some (id, m)) : taken id = false := by
  induction fuel generalizing n with
  | zero => simp [firstFree] at h
  | succ fuel ih =>
    rw [firstFree] at h
    by_cases ht : taken (candidate n) = true
    · rw [if_pos ht] at h
      exact ih h
    · rw [if_neg ht] at h
      obtain ⟨rfl, -⟩ : candidate n = id ∧ n + 1 = m := by simpa using h
      simpa using ht

/-- An allocator gives no id away twice. -/
theorem taken_allocate {a a' : Allocator} {c : Content} {role : Option Role}
    {taken : BlockId → Bool} {id : BlockId} (h : a.allocate c role taken = (some id, a')) :
    taken id = false := by
  rw [Allocator.allocate] at h
  split at h
  · split at h
    · rename_i hf
      obtain ⟨rfl, -⟩ : _ = id ∧ _ = a' := by simpa using h
      exact taken_firstFree hf
    · simp at h
  · obtain ⟨hid, -⟩ := Prod.mk.inj h
    obtain ⟨⟨id', n⟩, hf, rfl⟩ := Option.map_eq_some_iff.mp hid
    exact taken_firstFree hf

namespace Document

variable {d : Document}

/-! ## Parents -/

theorem parent?_eq_some {id p : BlockId} (h : d.parent? id = some p) : id ∈ d.childrenOf p := by
  obtain ⟨⟨q, cs⟩, he, rfl⟩ := Option.map_eq_some_iff.mp h
  have hcs := ExtTreeMap.mem_toList_iff_getElem?_eq_some.mp (List.mem_of_find?_eq_some he)
  have hid := List.find?_some he
  rw [childrenOf_eq, hcs]
  simpa using hid

theorem parent?_eq_none {id : BlockId} (h : d.parent? id = none) (p : BlockId) :
    id ∉ d.childrenOf p := by
  intro hid
  obtain ⟨cs, hcs⟩ := Option.isSome_iff_exists.mp
    (ExtTreeMap.mem_iff_isSome_getElem?.mp (mem_tree_of_mem_childrenOf hid))
  have hnone := List.find?_eq_none.mp (Option.map_eq_none_iff.mp h) (p, cs)
    (ExtTreeMap.mem_toList_iff_getElem?_eq_some.mpr hcs)
  rw [childrenOf_eq, hcs] at hid
  exact hnone (by simpa using hid)

/-- What is checked before a block is moved. -/
theorem checkMove_eq_ok {id p : BlockId} {u : Unit} (h : d.checkMove id p = .ok u) :
    d.contains id = true ∧ d.contains p = true ∧ id ≠ d.root ∧ ¬ Leads d.childrenOf id p := by
  simp only [checkMove, require_eq] at h
  cases hid : d.block? id with
  | none => simp [hid, bind, Except.bind] at h
  | some b =>
    cases hp : d.block? p with
    | none => simp [hid, hp, bind, Except.bind] at h
    | some b' =>
      simp only [hid, hp, bind, Except.bind, throw, throwThe, MonadExceptOf.throw] at h
      split at h
      · cases h
      · rename_i hr
        split at h
        · cases h
        · rename_i he
          split at h
          · cases h
          · rename_i hb
            exact ⟨contains_iff.mpr ⟨b, hid⟩, contains_iff.mpr ⟨b', hp⟩, hr,
              fun hl => hb (isBelow_iff.mpr ⟨Ne.symm he, hl⟩)⟩

/-- A block may be moved under a parent exactly if both are blocks, it is not the root, and no chain
leads from it to the parent. -/
theorem checkMove_eq_ok_iff {id p : BlockId} :
    d.checkMove id p = .ok () ↔
      d.contains id = true ∧ d.contains p = true ∧ id ≠ d.root ∧ ¬ Leads d.childrenOf id p := by
  refine ⟨checkMove_eq_ok, ?_⟩
  rintro ⟨hid, hp, hroot, hl⟩
  obtain ⟨b, hb⟩ := contains_iff.mp hid
  obtain ⟨b', hb'⟩ := contains_iff.mp hp
  have hne : id ≠ p := fun he => hl (he ▸ .refl id)
  have hbelow : ¬ d.isBelow p id = true := fun h => hl (isBelow_iff.mp h).2
  simp only [checkMove, require_eq, hb, hb', bind, Except.bind, if_neg hroot, if_neg hne,
    if_neg hbelow, pure, Except.pure]

/-- A new block without children. -/
def withLeaf (d : Document) (id : BlockId) (b : Block) : Document :=
  { d with blocks := d.blocks.insert id b, tree := d.tree.insert id [] }

/-- Another source of ids. -/
def withAllocator (d : Document) (allocator : Allocator) : Document := { d with allocator }

end Document

namespace Edit

open Document

variable (d : Document)

/-! ## Changes to one block -/

/-- One block may have changed, in anything but its id and its children. -/
structure Annotated (d d' : Document) : Prop where
  eq : ∃ id f, (∀ b : Block, (f b).id = b.id) ∧ (∀ b : Block, (f b).children = b.children) ∧
    d' = d.withBlock id f

theorem after_update (id : BlockId) {f : Block → Block} (hid : ∀ b, (f b).id = b.id)
    (hcs : ∀ b, (f b).children = b.children) :
    (update id f).after d = d ∨ Annotated d ((update id f).after d) := by
  rw [update, after_require_bind]
  cases d.block? id with
  | none => exact .inl rfl
  | some b => exact .inr ⟨id, f, hid, hcs, rfl⟩

theorem after_addEdge (id : BlockId) (edge : Edge) :
    (addEdge id edge).after d = d ∨ Annotated d ((addEdge id edge).after d) := by
  rw [addEdge, after_require_bind]
  cases d.block? id with
  | none => exact .inl rfl
  | some b =>
    simp only [after_ite, after_pure, after_bind_pure]
    split
    · exact .inl rfl
    · exact after_update d id (fun _ => rfl) fun _ => rfl

theorem after_removeEdge (id : BlockId) (relation : Relation) (target : BlockId) :
    (removeEdge id relation target).after d = d ∨
      Annotated d ((removeEdge id relation target).after d) := by
  rw [removeEdge, after_require_bind]
  cases d.block? id with
  | none => exact .inl rfl
  | some b =>
    simp only [after_ite, after_pure, after_bind_pure]
    split
    · exact after_update d id (fun _ => rfl) fun _ => rfl
    · exact .inl rfl

theorem after_addTag (id : BlockId) (tag : String) :
    (addTag id tag).after d = d ∨ Annotated d ((addTag id tag).after d) := by
  rw [addTag, after_require_bind]
  cases d.block? id with
  | none => exact .inl rfl
  | some b =>
    simp only [after_ite, after_pure, after_bind_pure]
    split
    · exact .inl rfl
    · exact after_update d id (fun _ => rfl) fun _ => rfl

theorem after_removeTag (id : BlockId) (tag : String) :
    (removeTag id tag).after d = d ∨ Annotated d ((removeTag id tag).after d) := by
  rw [removeTag, after_require_bind]
  cases d.block? id with
  | none => exact .inl rfl
  | some b =>
    simp only [after_ite, after_pure, after_bind_pure]
    split
    · exact after_update d id (fun _ => rfl) fun _ => rfl
    · exact .inl rfl

/-! ## Changes to the tree -/

/-- Adding a block names it and puts it under its parent. Without an id left only the allocator
changes. -/
theorem after_add (parent : BlockId) (content : Content) (role : Option Role)
    (label : Option String) (position : Option Nat) :
    (∃ a, (add parent content role label position).after d = d.withAllocator a) ∨
      ∃ a id b n, d.contains parent = true ∧ d.contains id = false ∧ b.id = id ∧ b.children = [] ∧
        (add parent content role label position).after d =
          ((d.withAllocator a).withLeaf id b).withChildren parent
            (insertAt (d.childrenOf parent) n id) := by
  simp only [add, after_require_bind]
  cases hp : d.block? parent with
  | none => exact .inl ⟨d.allocator, rfl⟩
  | some b =>
    simp only [after_get_bind]
    rcases ha : d.allocator.allocate content role d.contains with ⟨id?, a⟩
    cases id? with
    | none => exact .inl ⟨a, rfl⟩
    | some id =>
      exact .inr ⟨a, id, _, _, contains_iff.mpr ⟨b, hp⟩, taken_allocate ha, rfl, rfl, rfl⟩

theorem after_delete (id : BlockId) (cascade : Bool) :
    (delete id cascade).after d = d ∨
      id ≠ d.root ∧ (delete id cascade).after d = (d.detach id).eraseAll (d.postorder id) := by
  simp only [delete, after_get_bind, after_ite, after_throw_bind, after_ofExcept_bind]
  split
  · exact .inl rfl
  · rename_i hr
    cases d.children id with
    | error e => exact .inl rfl
    | ok cs =>
      dsimp only
      split
      · exact .inl rfl
      · exact .inr ⟨hr, rfl⟩

theorem after_deleteOnly (id : BlockId) :
    (deleteOnly id).after d = d ∨
      ∃ p, id ≠ d.root ∧ id ∈ d.childrenOf p ∧ (deleteOnly id).after d =
        (d.withChildren p (spliceFor id (d.childrenOf id) (d.childrenOf p))).eraseAll [id] := by
  simp only [deleteOnly, after_get_bind, after_ite, after_throw_bind, after_ofExcept_bind]
  split
  · exact .inl rfl
  · rename_i hr
    cases hcs : d.children id with
    | error e => exact .inl rfl
    | ok cs =>
      have hcs' : cs = d.childrenOf id := by
        rw [children, require_eq] at hcs
        cases hb : d.block? id <;> simp_all [Except.map]
      cases hp : d.parent? id with
      | none => exact .inl rfl
      | some p => exact .inr ⟨p, hr, parent?_eq_some hp, by rw [hcs']; rfl⟩

/-- What a move leaves: the block is taken from its parent and put under another one. -/
structure Moved (id : BlockId) (p : BlockId) (d d' : Document) : Prop where
  contains : d.contains id = true
  contains_parent : d.contains p = true
  ne_root : id ≠ d.root
  not_leads : ¬ Leads d.childrenOf id p
  eq : ∃ n, d' = (d.detach id).attach id p n

theorem after_move (id parent : BlockId) (position : Option Nat) :
    (move id parent position).after d = d ∨
      Moved id parent d ((move id parent position).after d) := by
  simp only [move, after_get_bind, after_ofExcept_bind]
  cases hm : d.checkMove id parent with
  | error e => exact .inl rfl
  | ok u =>
    obtain ⟨hid, hp, hr, hl⟩ := checkMove_eq_ok hm
    exact .inr ⟨hid, hp, hr, hl, _, rfl⟩

theorem after_moveBeside (id anchor : BlockId) (offset : Nat) :
    (moveBeside id anchor offset).after d = d ∨
      ∃ p, Moved id p d ((moveBeside id anchor offset).after d) := by
  simp only [moveBeside, after_get_bind, after_require_bind, after_ite, after_throw_bind]
  cases d.block? anchor with
  | none => exact .inl rfl
  | some b =>
    dsimp only
    split
    · exact .inl rfl
    split
    · exact .inl rfl
    cases d.parent? anchor with
    | none => exact .inl rfl
    | some p =>
      simp only [after_ofExcept_bind]
      cases hm : d.checkMove id p with
      | error e => exact .inl rfl
      | ok u =>
        obtain ⟨hid, hp, hr, hl⟩ := checkMove_eq_ok hm
        exact .inr ⟨p, hid, hp, hr, hl, _, rfl⟩

theorem after_prune : prune.after d = d.restrict d.reachable.contains := rfl

end Edit

end BlockDocument
