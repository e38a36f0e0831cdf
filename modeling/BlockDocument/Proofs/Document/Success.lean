import BlockDocument.Mutation
import BlockDocument.Proofs.Document.Outcome

/-!
# What an edit that succeeds has done

For each edit there is one lemma that reads off a success which checks came out well, what the answer
is and what the document is now. An edit in parts is read part by part (`Edit.bind_eq_ok`).
-/

namespace BlockDocument.Edit

open Document

variable {α β : Type} {d d' d'' : Document}

/-- What an edit answers, if it succeeds. -/
def answer? (e : Edit α) (d : Document) : Option α :=
  match e d with
  | .ok a _ => some a
  | .error _ _ => none

theorem answer?_eq_some_iff {e : Edit α} {a : α} :
    e.answer? d = some a ↔ ∃ d', e d = .ok a d' := by
  rw [answer?]
  cases e d with
  | error failure d' => simp
  | ok a' d' => simp

theorem eq_ok_after {e : Edit α} {a : α} (h : e.answer? d = some a) : e d = .ok a (e.after d) := by
  obtain ⟨d', he⟩ := answer?_eq_some_iff.mp h
  rw [after, he]

/-! ## Parts -/

/-- An edit in two parts succeeds if its parts do, one after the other. -/
theorem bind_eq_ok {e : Edit α} {f : α → Edit β} {b : β}
    (h : (e >>= f) d = .ok b d'') : ∃ a d', e d = .ok a d' ∧ f a d' = .ok b d'' := by
  change EStateM.bind e f d = _ at h
  rw [EStateM.bind] at h
  cases hr : e d with
  | error failure d' => simp [hr] at h
  | ok a d' => exact ⟨a, d', rfl, by rwa [hr] at h⟩

/-- After a first part that succeeds the second one goes on. -/
theorem bind_of_ok {e : Edit α} {a : α} (h : e d = .ok a d') (f : α → Edit β) :
    (e >>= f) d = f a d' := by
  change EStateM.bind e f d = _
  rw [EStateM.bind, h]

theorem map_eq_ok {e : Edit α} {f : α → β} {b : β} (h : (f <$> e) d = .ok b d') :
    ∃ a, e d = .ok a d' ∧ f a = b := by
  change EStateM.map f e d = _ at h
  rw [EStateM.map] at h
  cases hr : e d with
  | error failure d' => simp [hr] at h
  | ok a d₁ =>
    rw [hr] at h
    cases h
    exact ⟨a, rfl, rfl⟩

theorem ofExcept_eq_ok {x : Except Failure α} {a : α}
    (h : (ofExcept x : Edit α) d = .ok a d') : x = .ok a ∧ d' = d := by
  cases x with
  | error failure => cases h
  | ok a' => cases h; exact ⟨rfl, rfl⟩

/-- An edit that starts with a look at the document. -/
theorem get_bind_eq_ok {f : Document → Edit α} {a : α} (h : (get >>= f) d = .ok a d') :
    f d d = .ok a d' := by
  obtain ⟨d₁, d₂, hget, hf⟩ := bind_eq_ok h
  cases hget
  exact hf

/-- An edit that starts with a check. -/
theorem ofExcept_bind_eq_ok {x : Except Failure α} {f : α → Edit β} {b : β}
    (h : (ofExcept x >>= f) d = .ok b d') : ∃ a, x = .ok a ∧ f a d = .ok b d' := by
  obtain ⟨a, d₁, hcheck, hf⟩ := bind_eq_ok h
  obtain ⟨hx, rfl⟩ := ofExcept_eq_ok hcheck
  exact ⟨a, hx, hf⟩

/-- An edit that starts with a refusal in some case is not in that case. -/
theorem ite_throw_eq_ok {c : Prop} [Decidable c] {failure : Failure} {f : PUnit → Edit α}
    {e : Edit α} {a : α}
    (h : (if c then (throw failure : Edit PUnit) >>= f else e : Edit α) d = .ok a d') :
    ¬ c ∧ e d = .ok a d' := by
  split at h
  · cases h
  · exact ⟨‹_›, h⟩

theorem require_eq_ok {id : BlockId} {b : Block} (h : require id d = .ok b d') :
    d.block? id = some b ∧ d' = d := by
  obtain ⟨h, rfl⟩ := ofExcept_eq_ok (get_bind_eq_ok h)
  rw [Document.require_eq] at h
  split at h
  · cases h
    exact ⟨‹_›, rfl⟩
  · cases h

theorem require_of_block? {id : BlockId} {b : Block} (h : d.block? id = some b) :
    require id d = .ok b d := by
  show (ofExcept (d.require id) : Edit Block) d = _
  rw [Document.require_eq, h]
  rfl

theorem require_bind_eq_ok {id : BlockId} {f : Block → Edit α} {a : α}
    (h : (require id >>= f) d = .ok a d') : ∃ b, d.block? id = some b ∧ f b d = .ok a d' := by
  obtain ⟨b, d₁, hb, hf⟩ := bind_eq_ok h
  obtain ⟨hb, rfl⟩ := require_eq_ok hb
  exact ⟨b, hb, hf⟩

/-! ## One block -/

theorem update_eq_ok {id : BlockId} {f : Block → Block} {u : Unit}
    (h : update id f d = .ok u d') : ∃ b, d.block? id = some b ∧ d' = d.withBlock id f := by
  obtain ⟨b, hb, h⟩ := require_bind_eq_ok h
  cases h
  exact ⟨b, hb, rfl⟩

theorem setContent_eq_ok {id : BlockId} {content : Content} {u : Unit}
    (h : setContent id content d = .ok u d') :
    d.contains id = true ∧ d' = d.withBlock id (·.withContent content) := by
  obtain ⟨b, hb, h⟩ := require_bind_eq_ok h
  cases h
  exact ⟨contains_iff.mpr ⟨b, hb⟩, rfl⟩

/-- An edge is added unless the block has one with its ends. -/
theorem addEdge_eq_ok {source : BlockId} {edge : Edge} {added : Bool}
    (h : addEdge source edge d = .ok added d') :
    ∃ b, d.block? source = some b ∧ added = !b.edges.any (·.sameEnds edge) ∧
      d' = if added then
          d.withBlock source fun b => { b with edges := b.edges ++ [edge] }.touch
        else d := by
  obtain ⟨b, hb, h⟩ := require_bind_eq_ok h
  refine ⟨b, hb, ?_⟩
  split at h
  · rename_i hany
    cases h
    simp [hany]
  · rename_i hany
    obtain ⟨u, d₁, hupdate, h⟩ := bind_eq_ok h
    obtain ⟨-, -, rfl⟩ := update_eq_ok hupdate
    cases h
    simp [hany]

/-- Edges are removed if there are any with the given ends. -/
theorem removeEdge_eq_ok {source target : BlockId} {relation : Relation} {removed : Bool}
    (h : removeEdge source relation target d = .ok removed d') :
    ∃ b, d.block? source = some b ∧ removed = b.edges.any (·.matches relation target) ∧
      d' = if removed then
          d.withBlock source fun b =>
            { b with edges := b.edges.filter fun e => !e.matches relation target }.touch
        else d := by
  obtain ⟨b, hb, h⟩ := require_bind_eq_ok h
  refine ⟨b, hb, ?_⟩
  split at h
  · rename_i hany
    obtain ⟨u, d₁, hupdate, h⟩ := bind_eq_ok h
    obtain ⟨-, -, rfl⟩ := update_eq_ok hupdate
    cases h
    simp [hany]
  · rename_i hany
    cases h
    simp [hany]

theorem addTag_eq_ok {id : BlockId} {tag : String} {added : Bool}
    (h : addTag id tag d = .ok added d') :
    ∃ b, d.block? id = some b ∧ added = !b.metadata.tags.contains tag ∧
      d' = if added then
          d.withBlock id (·.annotate fun m => { m with tags := m.tags.insert tag })
        else d := by
  obtain ⟨b, hb, h⟩ := require_bind_eq_ok h
  refine ⟨b, hb, ?_⟩
  split at h
  · rename_i htag
    cases h
    simp [htag]
  · rename_i htag
    obtain ⟨u, d₁, hupdate, h⟩ := bind_eq_ok h
    obtain ⟨-, -, rfl⟩ := update_eq_ok hupdate
    cases h
    simp [htag]

theorem removeTag_eq_ok {id : BlockId} {tag : String} {removed : Bool}
    (h : removeTag id tag d = .ok removed d') :
    ∃ b, d.block? id = some b ∧ removed = b.metadata.tags.contains tag ∧
      d' = if removed then
          d.withBlock id (·.annotate fun m => { m with tags := m.tags.erase tag })
        else d := by
  obtain ⟨b, hb, h⟩ := require_bind_eq_ok h
  refine ⟨b, hb, ?_⟩
  split at h
  · rename_i htag
    obtain ⟨u, d₁, hupdate, h⟩ := bind_eq_ok h
    obtain ⟨-, -, rfl⟩ := update_eq_ok hupdate
    cases h
    simp [htag]
  · rename_i htag
    cases h
    simp [htag]

/-! ## The tree -/

/-- A new block gets an id of the allocator and a place under its parent. -/
theorem add_eq_ok {parent id : BlockId} {content : Content} {role : Option Role}
    {label : Option String} {position : Option Nat}
    (h : add parent content role label position d = .ok id d') :
    d.contains parent = true ∧ ∃ a,
      d.allocator.allocate content role d.contains = (some id, a) ∧
      d' = ((d.withAllocator a).withLeaf id { id, content, metadata := { role, label } }).withChildren
        parent (insertAt (d.childrenOf parent) (position.getD (d.childrenOf parent).length) id) := by
  obtain ⟨b, hb, h⟩ := require_bind_eq_ok h
  have h := get_bind_eq_ok h
  rcases ha : d.allocator.allocate content role d.contains with ⟨id?, a⟩
  rw [ha] at h
  obtain ⟨_, d₁, hset, h⟩ := bind_eq_ok h
  cases hset
  cases id? with
  | none => cases h
  | some id' =>
    cases h
    exact ⟨contains_iff.mpr ⟨b, hb⟩, a, rfl, rfl⟩

/-- Adding a draft is adding its block and annotating it. -/
theorem addDraft_eq_ok {parent id : BlockId} {position : Option Nat} {draft : Draft}
    (h : addDraft parent position draft d = .ok id d') :
    ∃ d₁ f, add parent draft.content draft.role draft.label position d = .ok id d₁ ∧
      d' = d₁.withBlock id (·.annotate f) := by
  obtain ⟨id', d₁, hadd, h⟩ := bind_eq_ok h
  obtain ⟨u, d₂, hannotate, h⟩ := bind_eq_ok h
  cases h
  obtain ⟨-, -, rfl⟩ := update_eq_ok hannotate
  exact ⟨d₁, _, hadd, rfl⟩

/-- What is looked up before children are read. -/
theorem children_eq_ok {id : BlockId} {cs : List BlockId} (h : d.children id = .ok cs) :
    d.contains id = true ∧ cs = d.childrenOf id := by
  rw [Document.children, Document.require_eq] at h
  cases hb : d.block? id with
  | none => simp [hb, Except.map] at h
  | some b =>
    simp only [hb, Except.map, Except.ok.injEq] at h
    exact ⟨contains_iff.mpr ⟨b, hb⟩, h.symm⟩

theorem children_of_contains {id : BlockId} (h : d.contains id = true) :
    d.children id = .ok (d.childrenOf id) := by
  obtain ⟨b, hb⟩ := contains_iff.mp h
  rw [children, Document.require_eq, hb]
  rfl

/-- An edit that reads the children of a block. -/
theorem children_bind_of_contains {α : Type} {id : BlockId} (h : d.contains id = true)
    (f : List BlockId → Edit α) :
    (ofExcept (d.children id) >>= f) d = f (d.childrenOf id) d := by
  rw [children_of_contains h]
  exact bind_of_ok rfl f

theorem delete_eq_ok {id : BlockId} {cascade : Bool} {removed : List BlockId}
    (h : delete id cascade d = .ok removed d') :
    id ≠ d.root ∧ d.contains id = true ∧ (d.childrenOf id = [] ∨ cascade = true) ∧
      removed = d.postorder id ∧ d' = (d.detach id).eraseAll (d.postorder id) := by
  obtain ⟨hroot, h⟩ := ite_throw_eq_ok (get_bind_eq_ok h)
  obtain ⟨cs, hcs, h⟩ := ofExcept_bind_eq_ok h
  obtain ⟨hid, rfl⟩ := children_eq_ok hcs
  obtain ⟨hbare, h⟩ := ite_throw_eq_ok h
  cases h
  refine ⟨hroot, hid, ?_, rfl, rfl⟩
  cases hch : d.childrenOf id with
  | nil => exact .inl rfl
  | cons c cs => exact .inr (by simpa [hch] using hbare)

/-- A block is deleted exactly if it is not the root and may be deleted with what lies below it. -/
theorem delete_eq_ok_iff {id : BlockId} {cascade : Bool} {removed : List BlockId} :
    delete id cascade d = .ok removed d' ↔
    id ≠ d.root ∧ d.contains id = true ∧ (d.childrenOf id = [] ∨ cascade = true) ∧
      removed = d.postorder id ∧ d' = (d.detach id).eraseAll (d.postorder id) := by
  constructor
  · exact delete_eq_ok
  · rintro ⟨hroot, hid, hbare, rfl, rfl⟩
    have hkept : ¬ (!(d.childrenOf id).isEmpty && !cascade) = true := by
      rcases hbare with hnil | rfl
      · simp [hnil]
      · simp
    rw [delete, bind_of_ok (rfl : (get : Edit Document) d = .ok d d), if_neg hroot]
    refine (children_bind_of_contains hid _).trans ?_
    rw [if_neg hkept]
    rfl

theorem deleteOnly_eq_ok {id : BlockId} {removed : List BlockId}
    (h : deleteOnly id d = .ok removed d') :
    id ≠ d.root ∧ d.contains id = true ∧ removed = [id] ∧ ∃ p, d.parent? id = some p ∧
      d' = (d.withChildren p (spliceFor id (d.childrenOf id) (d.childrenOf p))).eraseAll [id] := by
  obtain ⟨hroot, h⟩ := ite_throw_eq_ok (get_bind_eq_ok h)
  obtain ⟨cs, hcs, h⟩ := ofExcept_bind_eq_ok h
  obtain ⟨hid, rfl⟩ := children_eq_ok hcs
  cases hp : d.parent? id with
  | none =>
    rw [hp] at h
    cases h
  | some p =>
    rw [hp] at h
    cases h
    exact ⟨hroot, hid, rfl, p, rfl, rfl⟩

/-- A block is deleted alone exactly if it is not the root and has a parent. -/
theorem deleteOnly_eq_ok_iff {id : BlockId} {removed : List BlockId} :
    deleteOnly id d = .ok removed d' ↔
    id ≠ d.root ∧ d.contains id = true ∧ removed = [id] ∧ ∃ p, d.parent? id = some p ∧
      d' = (d.withChildren p (spliceFor id (d.childrenOf id) (d.childrenOf p))).eraseAll [id] := by
  constructor
  · exact deleteOnly_eq_ok
  · rintro ⟨hroot, hid, rfl, p, hp, rfl⟩
    rw [deleteOnly, bind_of_ok (rfl : (get : Edit Document) d = .ok d d), if_neg hroot]
    refine (children_bind_of_contains hid _).trans ?_
    rw [hp]
    rfl

theorem move_eq_ok {id parent : BlockId} {position : Option Nat} {u : Unit}
    (h : move id parent position d = .ok u d') :
    d.checkMove id parent = .ok () ∧
      d' = (d.detach id).attach id parent
        (position.getD ((d.detach id).childrenOf parent).length) := by
  obtain ⟨u', hcheck, h⟩ := ofExcept_bind_eq_ok (get_bind_eq_ok h)
  cases h
  exact ⟨hcheck, rfl⟩

theorem move_eq_ok_iff {id parent : BlockId} {position : Option Nat} :
    move id parent position d = .ok () d' ↔
    d.checkMove id parent = .ok () ∧
      d' = (d.detach id).attach id parent
        (position.getD ((d.detach id).childrenOf parent).length) := by
  constructor
  · exact move_eq_ok
  · rintro ⟨hcheck, rfl⟩
    have hpass : (ofExcept (d.checkMove id parent) : Edit Unit) d = .ok () d := by
      rw [hcheck]
      rfl
    rw [move, bind_of_ok (rfl : (get : Edit Document) d = .ok d d)]
    exact bind_of_ok hpass _

theorem moveBeside_eq_ok {id anchor : BlockId} {offset : Nat} {u : Unit}
    (h : moveBeside id anchor offset d = .ok u d') :
    anchor ≠ id ∧ anchor ≠ d.root ∧ ∃ p, d.parent? anchor = some p ∧ d.checkMove id p = .ok () ∧
      d' = (d.detach id).attach id p
        ((((d.detach id).childrenOf p).idxOf? anchor).getD 0 + offset) := by
  obtain ⟨b, hb, h⟩ := require_bind_eq_ok (get_bind_eq_ok h)
  obtain ⟨hne, h⟩ := ite_throw_eq_ok h
  obtain ⟨hroot, h⟩ := ite_throw_eq_ok h
  cases hp : d.parent? anchor with
  | none =>
    rw [hp] at h
    cases h
  | some p =>
    rw [hp] at h
    obtain ⟨u', hcheck, h⟩ := ofExcept_bind_eq_ok h
    cases h
    exact ⟨hne, hroot, p, rfl, hcheck, rfl⟩

theorem moveBeside_eq_ok_iff {id anchor : BlockId} {offset : Nat} :
    moveBeside id anchor offset d = .ok () d' ↔
    d.contains anchor = true ∧ anchor ≠ id ∧ anchor ≠ d.root ∧ ∃ p, d.parent? anchor = some p ∧
      d.checkMove id p = .ok () ∧
      d' = (d.detach id).attach id p
        ((((d.detach id).childrenOf p).idxOf? anchor).getD 0 + offset) := by
  constructor
  · intro h
    obtain ⟨b, hb, -⟩ := require_bind_eq_ok (get_bind_eq_ok h)
    exact ⟨contains_iff.mpr ⟨b, hb⟩, moveBeside_eq_ok h⟩
  · rintro ⟨hanchor, hne, hroot, p, hp, hcheck, rfl⟩
    obtain ⟨b, hb⟩ := contains_iff.mp hanchor
    have hpass : (ofExcept (d.checkMove id p) : Edit Unit) d = .ok () d := by
      rw [hcheck]
      rfl
    rw [moveBeside, bind_of_ok (rfl : (get : Edit Document) d = .ok d d),
      bind_of_ok (require_of_block? hb), if_neg hne, if_neg hroot, hp]
    exact bind_of_ok hpass _

/-- A move takes a block from its parent and puts it under the one that the place is under. -/
theorem moveTo_eq_ok {id : BlockId} {place : Place BlockId} {u : Unit}
    (h : moveTo id place d = .ok u d') :
    ∃ p n, d.parentOf? place = some p ∧ d.checkMove id p = .ok () ∧
      d' = (d.detach id).attach id p n := by
  cases place with
  | under parent position =>
    obtain ⟨hcheck, rfl⟩ := move_eq_ok h
    exact ⟨parent, _, rfl, hcheck, rfl⟩
  | before anchor | after anchor =>
    obtain ⟨-, -, p, hp, hcheck, rfl⟩ := moveBeside_eq_ok h
    exact ⟨p, _, hp, hcheck, rfl⟩

theorem prune_eq_ok {removed : List BlockId} (h : prune d = .ok removed d') :
    removed = d.blocks.keys.filter (fun id => !d.reachable.contains id) ∧
      d' = d.restrict d.reachable.contains := by
  cases h
  exact ⟨rfl, rfl⟩

end BlockDocument.Edit
