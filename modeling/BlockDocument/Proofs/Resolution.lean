import BlockDocument.Proofs.Document.Refusal
import BlockDocument.Proofs.Operation

/-!
# Short numbers that name no block

A command mentions blocks in certain places, and its references are all of them
(`Command.mem_references_iff`). When a command is turned into a mutation each of them is looked up, and
a short number that names no block is what it fails for, before anything else
(`Command.mutation_eq_unknown_iff`). The mutation itself knows ids only: whatever it fails for, it is not
a short number.
-/

namespace BlockDocument

/-! ## Mentions -/

namespace Command

/-- Where a command mentions a block. -/
inductive Mentions : Command → Reference → Prop
  | edited (id : Reference) (path : String) (op : Assignment) (value : String) :
    Mentions (.edit id path op value) id
  | extended (parent : Reference) (kind : Option ContentKind) (position : Option Nat) (content : String)
      (properties : Attributes) : Mentions (.append parent kind position content properties) parent
  | deleted (id : Reference) (children : Fate) : Mentions (.delete id children) id
  | moved (id : Reference) (place : Place Reference) : Mentions (.move id place) id
  | under (id parent : Reference) (position : Option Nat) :
    Mentions (.move id (.under parent position)) parent
  | before (id anchor : Reference) : Mentions (.move id (.before anchor)) anchor
  | after (id anchor : Reference) : Mentions (.move id (.after anchor)) anchor
  | linkSource (source : Reference) (relation : Relation) (target : Reference)
      (properties : Attributes) : Mentions (.link source relation target properties) source
  | linkTarget (source : Reference) (relation : Relation) (target : Reference)
      (properties : Attributes) : Mentions (.link source relation target properties) target
  | unlinkSource (source : Reference) (relation : Relation) (target : Reference) :
    Mentions (.unlink source relation target) source
  | unlinkTarget (source : Reference) (relation : Relation) (target : Reference) :
    Mentions (.unlink source relation target) target

/-- A command is checked for all the blocks that it mentions. -/
theorem mem_references_iff {c : Command} {r : Reference} : r ∈ c.references ↔ c.Mentions r := by
  constructor
  · intro h
    cases c with
    | edit id path op value =>
      rw [List.mem_singleton.mp h]
      exact .edited id path op value
    | append parent kind position content properties =>
      rw [List.mem_singleton.mp h]
      exact .extended parent kind position content properties
    | delete id children =>
      rw [List.mem_singleton.mp h]
      exact .deleted id children
    | move id place =>
      rcases List.mem_pair.mp h with rfl | rfl
      · exact .moved r place
      · cases place with
        | under parent position => exact .under id parent position
        | before anchor => exact .before id anchor
        | after anchor => exact .after id anchor
    | link source relation target properties =>
      rcases List.mem_pair.mp h with rfl | rfl
      · exact .linkSource r relation target properties
      · exact .linkTarget source relation r properties
    | unlink source relation target =>
      rcases List.mem_pair.mp h with rfl | rfl
      · exact .unlinkSource r relation target
      · exact .unlinkTarget source relation r
    | prune => cases h
  · intro h
    cases h <;> simp [references, Place.reference]

end Command

/-! ## Failures for other reasons -/

/-- Whether a failure is that a short number names no block. -/
def Failure.isUnknownShort : Failure → Bool
  | refused (.unknownShortId _) => true
  | _ => false

theorem Failure.isUnknownShort_iff {failure : Failure} :
    failure.isUnknownShort = true ↔ ∃ n, failure = .refused (.unknownShortId n) := by
  constructor
  · intro h
    unfold isUnknownShort at h
    split at h
    · exact ⟨_, rfl⟩
    · cases h
  · rintro ⟨n, rfl⟩
    rfl

theorem toString_eq (s : String) : toString s = s := rfl

/-- Only refusals are put into words as invalid operations. -/
theorem Failure.exists_of_message {failure : Failure} {words : String}
    (h : failure.message = "invalid operation: " ++ words) :
    ∃ o, failure = .refused o ∧ o.message = words := by
  have hfirst : failure.message.toList.head? = some 'i' := by
    rw [h, String.toList_append, List.head?_append]
    rfl
  cases failure with
  | refused o => exact ⟨o, rfl, String.append_right_inj _ |>.mp h⟩
  | _ =>
    delta message at hfirst
    simp [toString_eq] at hfirst

/-- No refusal is about groups, which never hold groups. -/
theorem Objection.message_ne_nested (o : Objection) :
    o.message ≠ "ATOMIC groups cannot be nested" := by
  intro h
  have hfirst : o.message.toList.head? = some 'A' := by
    rw [h]
    rfl
  cases o <;> delta message at hfirst <;> simp [toString_eq] at hfirst

/-- A refusal in these words is about a short number. -/
theorem Objection.eq_unknownShortId_of_message {o : Objection} {words : String}
    (h : o.message = "unknown short id" ++ words) : ∃ n, o = .unknownShortId n := by
  have hfirst : o.message.toList.take 10 = "unknown sh".toList := by
    rw [h, String.toList_append, List.take_append_of_le_length (by decide)]
    rfl
  cases o <;> delta message at hfirst <;> simp [toString_eq] at hfirst ⊢

/-- A check that fails for other reasons than a short number, if at all. -/
def FailsOtherwise {α : Type} (x : Except Failure α) : Prop :=
  ∀ failure, x = .error failure → failure.isUnknownShort = false

section Checks

variable {α β : Type}

theorem failsOtherwise_ok (a : α) : FailsOtherwise (.ok a) := by
  intro failure h
  cases h

theorem failsOtherwise_error {failure : Failure} (h : failure.isUnknownShort = false) :
    FailsOtherwise (.error failure : Except Failure α) := by
  rintro failure' ⟨⟩
  exact h

theorem FailsOtherwise.bind {x : Except Failure α} {f : α → Except Failure β} (hx : FailsOtherwise x)
    (hf : ∀ a, FailsOtherwise (f a)) : FailsOtherwise (x >>= f) := by
  cases x with
  | error failure => exact failsOtherwise_error (hx failure rfl)
  | ok a => exact hf a

theorem FailsOtherwise.map {x : Except Failure α} (hx : FailsOtherwise x) (f : α → β) :
    FailsOtherwise (x.map f) := by
  cases x with
  | error failure => exact failsOtherwise_error (hx failure rfl)
  | ok a => exact failsOtherwise_ok (f a)

theorem failsOtherwise_ite {c : Prop} [Decidable c] {x y : Except Failure α} (hx : FailsOtherwise x)
    (hy : FailsOtherwise y) : FailsOtherwise (if c then x else y) := by
  split
  · exact hx
  · exact hy

/-- A refusal in some case. -/
theorem failsOtherwise_ite_throw {c : Prop} [Decidable c] {failure : Failure}
    {f : PUnit → Except Failure α} {x : Except Failure α} (h : failure.isUnknownShort = false)
    (hx : FailsOtherwise x) :
    FailsOtherwise (if c then (throw failure : Except Failure PUnit) >>= f else x) :=
  failsOtherwise_ite (failsOtherwise_error h) hx

theorem failsOtherwise_requireNone (issues : List Issue) : FailsOtherwise (requireNone issues) :=
  failsOtherwise_ite (failsOtherwise_ok ()) (failsOtherwise_error rfl)

theorem failsOtherwise_fieldRead (path : String) : FailsOtherwise (Field.read path) := by
  rw [Field.read]
  split
  · exact failsOtherwise_ok _
  · exact failsOtherwise_error rfl

theorem failsOtherwise_roleRead (name : String) : FailsOtherwise (Role.read name) := by
  rw [Role.read]
  split
  · exact failsOtherwise_ok _
  · exact failsOtherwise_error rfl

theorem failsOtherwise_contentRead (kind : ContentKind) (raw language : String) :
    FailsOtherwise (Content.read kind raw language) := by
  rw [Content.read]
  split
  · exact failsOtherwise_ok _
  · exact failsOtherwise_error rfl

theorem failsOtherwise_require (d : Document) (id : BlockId) : FailsOtherwise (d.require id) := by
  rw [Document.require]
  split
  · exact failsOtherwise_ok _
  · exact failsOtherwise_error rfl

theorem failsOtherwise_checkMove (d : Document) (id parent : BlockId) :
    FailsOtherwise (d.checkMove id parent) :=
  (failsOtherwise_require d id).bind fun _ => (failsOtherwise_require d parent).bind fun _ =>
    failsOtherwise_ite_throw rfl <| failsOtherwise_ite_throw rfl <|
      failsOtherwise_ite (failsOtherwise_error rfl) (failsOtherwise_ok _)

theorem failsOtherwise_checkAdd (d : Document) (limits : Limits) (parent : BlockId) (c : Content) :
    FailsOtherwise (d.checkAdd limits parent c) :=
  (failsOtherwise_require d parent).bind fun _ => failsOtherwise_requireNone _

theorem failsOtherwise_checkPlace (d : Document) (limits : Limits) (id : BlockId)
    (place : Place BlockId) : FailsOtherwise (d.checkPlace limits id place) := by
  rw [Document.checkPlace]
  split
  · exact failsOtherwise_requireNone _
  · exact failsOtherwise_ok ()

theorem failsOtherwise_checkEdge (d : Document) (limits : Limits) (source : BlockId)
    (relation : Relation) (target : BlockId) :
    FailsOtherwise (d.checkEdge limits source relation target) :=
  (failsOtherwise_require d source).bind fun _ =>
    failsOtherwise_ite (failsOtherwise_ok _) (failsOtherwise_requireNone _)

end Checks

namespace Edit

/-- An edit that fails for other reasons than a short number, if at all. -/
def FailsOtherwise {α : Type} (e : Edit α) : Prop :=
  ∀ d failure d', e d = .error failure d' → failure.isUnknownShort = false

variable {α β : Type}

theorem failsOtherwise_pure (a : α) : (pure a : Edit α).FailsOtherwise := by
  intro d failure d' h
  cases h

theorem failsOtherwise_set (d : Document) : (set d : Edit PUnit).FailsOtherwise := by
  intro d failure d' h
  cases h

theorem failsOtherwise_modify (f : Document → Document) : (modify f : Edit PUnit).FailsOtherwise := by
  intro d failure d' h
  cases h

theorem failsOtherwise_throw {failure : Failure} (h : failure.isUnknownShort = false) :
    (throw failure : Edit α).FailsOtherwise := by
  rintro d failure' d' ⟨⟩
  exact h

theorem FailsOtherwise.bind {e : Edit α} {f : α → Edit β} (he : e.FailsOtherwise)
    (hf : ∀ a, (f a).FailsOtherwise) : (e >>= f).FailsOtherwise := by
  intro d failure d' h
  obtain h | ⟨a, d₁, -, h⟩ := bind_eq_error h
  · exact he d failure d' h
  · exact hf a d₁ failure d' h

theorem FailsOtherwise.map {e : Edit α} (he : e.FailsOtherwise) (f : α → β) :
    (f <$> e).FailsOtherwise := by
  rw [map_eq_pure_bind]
  exact he.bind fun a => failsOtherwise_pure (f a)

theorem failsOtherwise_get_bind {f : Document → Edit α} (hf : ∀ d, (f d).FailsOtherwise) :
    (get >>= f).FailsOtherwise := fun d failure d' h => hf d d failure d' h

theorem failsOtherwise_ofExcept {x : Except Failure α} (hx : BlockDocument.FailsOtherwise x) :
    (ofExcept x : Edit α).FailsOtherwise := by
  cases x with
  | error failure => exact failsOtherwise_throw (hx failure rfl)
  | ok a => exact failsOtherwise_pure a

theorem failsOtherwise_ite {c : Prop} [Decidable c] {e e' : Edit α} (he : e.FailsOtherwise)
    (he' : e'.FailsOtherwise) : (if c then e else e').FailsOtherwise := by
  split
  · exact he
  · exact he'

/-- A refusal in some case. -/
theorem failsOtherwise_ite_throw {c : Prop} [Decidable c] {failure : Failure} {f : PUnit → Edit α}
    {e : Edit α} (h : failure.isUnknownShort = false) (he : e.FailsOtherwise) :
    (if c then (throw failure : Edit PUnit) >>= f else e : Edit α).FailsOtherwise :=
  failsOtherwise_ite (@failsOtherwise_throw α failure h) he

/-! ## One block -/

theorem failsOtherwise_require (id : BlockId) : (require id).FailsOtherwise :=
  failsOtherwise_get_bind fun d => failsOtherwise_ofExcept (BlockDocument.failsOtherwise_require d id)

theorem failsOtherwise_update (id : BlockId) (f : Block → Block) : (update id f).FailsOtherwise :=
  (failsOtherwise_require id).bind fun _ => failsOtherwise_modify _

theorem failsOtherwise_addEdge (source : BlockId) (edge : Edge) : (addEdge source edge).FailsOtherwise :=
  (failsOtherwise_require source).bind fun _ => failsOtherwise_ite (failsOtherwise_pure _)
    ((failsOtherwise_update source _).bind fun _ => failsOtherwise_pure _)

theorem failsOtherwise_removeEdge (source : BlockId) (relation : Relation) (target : BlockId) :
    (removeEdge source relation target).FailsOtherwise :=
  (failsOtherwise_require source).bind fun _ => failsOtherwise_ite
    ((failsOtherwise_update source _).bind fun _ => failsOtherwise_pure _) (failsOtherwise_pure _)

theorem failsOtherwise_addTag (id : BlockId) (tag : String) : (addTag id tag).FailsOtherwise :=
  (failsOtherwise_require id).bind fun _ => failsOtherwise_ite (failsOtherwise_pure _)
    ((failsOtherwise_update id _).bind fun _ => failsOtherwise_pure _)

theorem failsOtherwise_removeTag (id : BlockId) (tag : String) : (removeTag id tag).FailsOtherwise :=
  (failsOtherwise_require id).bind fun _ => failsOtherwise_ite
    ((failsOtherwise_update id _).bind fun _ => failsOtherwise_pure _) (failsOtherwise_pure _)

theorem failsOtherwise_setField (limits : Limits) (id : BlockId) (field : Field) (value : String) :
    (setField limits id field value).FailsOtherwise := by
  refine (failsOtherwise_require id).bind fun b => ?_
  cases field with
  | text =>
    refine (failsOtherwise_ofExcept (failsOtherwise_contentRead _ _ _)).bind fun c => ?_
    refine (failsOtherwise_ofExcept (failsOtherwise_requireNone _)).bind fun _ => ?_
    exact failsOtherwise_update id _
  | language =>
    dsimp only
    split
    · exact failsOtherwise_update id _
    · exact failsOtherwise_throw rfl
  | label => exact failsOtherwise_update id _
  | role =>
    dsimp only
    split
    · exact failsOtherwise_update id _
    · exact (failsOtherwise_ofExcept (failsOtherwise_roleRead _)).bind fun r =>
        failsOtherwise_update id _
  | tags => exact failsOtherwise_update id _
  | «attribute» name => exact failsOtherwise_update id _

/-! ## The tree -/

theorem failsOtherwise_add (parent : BlockId) (content : Content) (role : Option Role)
    (label : Option String) (position : Option Nat) :
    (add parent content role label position).FailsOtherwise := by
  refine (failsOtherwise_require parent).bind fun _ => failsOtherwise_get_bind fun d => ?_
  rcases d.allocator.allocate content role d.contains with ⟨id?, a⟩
  refine (failsOtherwise_set _).bind fun _ => ?_
  cases id? with
  | none => exact failsOtherwise_throw rfl
  | some id => exact (failsOtherwise_modify _).bind fun _ => failsOtherwise_pure id

theorem failsOtherwise_addDraft (parent : BlockId) (position : Option Nat) (draft : Draft) :
    (addDraft parent position draft).FailsOtherwise :=
  (failsOtherwise_add parent draft.content draft.role draft.label position).bind fun id =>
    (failsOtherwise_update id _).bind fun _ => failsOtherwise_pure id

theorem failsOtherwise_delete (id : BlockId) (cascade : Bool) : (delete id cascade).FailsOtherwise :=
  failsOtherwise_get_bind fun d => failsOtherwise_ite_throw rfl <|
    (failsOtherwise_ofExcept ((BlockDocument.failsOtherwise_require d id).map _)).bind fun _ =>
      failsOtherwise_ite_throw rfl <| (failsOtherwise_set _).bind fun _ => failsOtherwise_pure _

theorem failsOtherwise_deleteOnly (id : BlockId) : (deleteOnly id).FailsOtherwise := by
  refine failsOtherwise_get_bind fun d => failsOtherwise_ite_throw rfl <|
    (failsOtherwise_ofExcept ((BlockDocument.failsOtherwise_require d id).map _)).bind fun _ => ?_
  cases d.parent? id with
  | none => exact failsOtherwise_throw rfl
  | some p => exact (failsOtherwise_set _).bind fun _ => failsOtherwise_pure _

theorem failsOtherwise_remove (id : BlockId) (children : Fate) :
    (remove id children).FailsOtherwise := by
  cases children with
  | none => exact failsOtherwise_delete id false
  | deleted => exact failsOtherwise_delete id true
  | kept => exact failsOtherwise_deleteOnly id

theorem failsOtherwise_move (id parent : BlockId) (position : Option Nat) :
    (move id parent position).FailsOtherwise :=
  failsOtherwise_get_bind fun d =>
    (failsOtherwise_ofExcept (failsOtherwise_checkMove d id parent)).bind fun _ =>
      failsOtherwise_set _

theorem failsOtherwise_moveBeside (id anchor : BlockId) (offset : Nat) :
    (moveBeside id anchor offset).FailsOtherwise := by
  refine failsOtherwise_get_bind fun d => (failsOtherwise_require anchor).bind fun _ =>
    failsOtherwise_ite_throw rfl <| failsOtherwise_ite_throw rfl ?_
  cases d.parent? anchor with
  | none => exact failsOtherwise_throw rfl
  | some p =>
    exact (failsOtherwise_ofExcept (failsOtherwise_checkMove d id p)).bind fun _ =>
      failsOtherwise_set _

theorem failsOtherwise_moveTo (id : BlockId) (place : Place BlockId) :
    (moveTo id place).FailsOtherwise := by
  cases place with
  | under parent position => exact failsOtherwise_move id parent position
  | before anchor => exact failsOtherwise_moveBeside id anchor 0
  | after anchor => exact failsOtherwise_moveBeside id anchor 1

theorem failsOtherwise_prune : prune.FailsOtherwise :=
  failsOtherwise_get_bind fun _ => (failsOtherwise_set _).bind fun _ => failsOtherwise_pure _

end Edit

section Mutations

open Edit

/-- A mutation knows ids only. -/
theorem Mutation.failsOtherwise_apply (limits : Limits) (m : Mutation) :
    (m.apply limits).FailsOtherwise := by
  cases m with
  | add parent position draft =>
    exact failsOtherwise_get_bind fun d =>
      (failsOtherwise_ofExcept (failsOtherwise_checkAdd d limits parent _)).bind fun _ =>
        (failsOtherwise_addDraft parent position draft).map _
  | set id path value =>
    exact (failsOtherwise_ofExcept (failsOtherwise_fieldRead path)).bind fun field =>
      (failsOtherwise_setField limits id field value).bind fun _ => failsOtherwise_pure _
  | delete id children => exact (failsOtherwise_remove id children).map _
  | move id place =>
    exact failsOtherwise_get_bind fun d =>
      (failsOtherwise_ofExcept (failsOtherwise_checkPlace d limits id place)).bind fun _ =>
        (failsOtherwise_moveTo id place).bind fun _ => failsOtherwise_pure _
  | addEdge source relation target note =>
    exact failsOtherwise_get_bind fun d =>
      (failsOtherwise_ofExcept (failsOtherwise_checkEdge d limits source relation target)).bind
        fun _ => (failsOtherwise_addEdge source _).map _
  | removeEdge source relation target => exact (failsOtherwise_removeEdge source relation target).map _
  | addTag id tag => exact (failsOtherwise_addTag id tag).map _
  | removeTag id tag => exact (failsOtherwise_removeTag id tag).map _
  | prune => exact failsOtherwise_prune.map _

end Mutations

/-! ## Lookups -/

section Lookups

variable {resolver : Resolver} {n : Nat}

theorem Reference.unknown?_eq_some_iff {r : Reference} :
    r.unknown? resolver = some n ↔ r = .short n ∧ resolver n = none := by
  cases r with
  | long text => simp [unknown?]
  | short m =>
    rw [unknown?, short.injEq]
    split
    · rename_i hm
      simp only [reduceCtorEq, false_iff, not_and]
      rintro rfl hnone
      simp [hnone] at hm
    · rename_i hm
      rw [Option.some_inj, iff_self_and]
      rintro rfl
      simpa using hm

/-- A lookup comes first, and what is done with the block that it finds second. -/
theorem Reference.resolve_bind_eq_unknown_iff {β : Type} {r : Reference}
    {k : BlockId → Except Failure β} {q : Prop}
    (hk : ∀ id, k id = .error (.refused (.unknownShortId n)) ↔ q) :
    (r.resolve resolver >>= k) = .error (.refused (.unknownShortId n)) ↔
      r.unknown? resolver = some n ∨ r.unknown? resolver = none ∧ q := by
  cases r with
  | long text =>
    show k ⟨text⟩ = _ ↔ _
    simpa [unknown?] using hk ⟨text⟩
  | short m =>
    rw [resolve, unknown?]
    cases resolver m with
    | none =>
      simp only [Option.isSome_none, Bool.false_eq_true, if_false, Option.some_inj, reduceCtorEq,
        false_and, or_false]
      show (Except.error _ : Except Failure β) = _ ↔ _
      simp
    | some id =>
      show k id = _ ↔ _
      simpa using hk id

theorem FailsOtherwise.ne_unknown {β : Type} {x : Except Failure β} (h : FailsOtherwise x) :
    x = .error (.refused (.unknownShortId n)) ↔ False :=
  iff_false_intro fun hx => Bool.noConfusion (h _ hx)

/-- The last lookup: what follows it does not fail for a short number. -/
theorem Reference.resolve_bind_eq_unknown_iff_of_failsOtherwise {β : Type} {r : Reference}
    {k : BlockId → Except Failure β} (hk : ∀ id, FailsOtherwise (k id)) :
    (r.resolve resolver >>= k) = .error (.refused (.unknownShortId n)) ↔
      r.unknown? resolver = some n := by
  rw [resolve_bind_eq_unknown_iff fun id => (hk id).ne_unknown, and_false, or_false]

theorem Place.resolve_bind_eq_unknown_iff {β : Type} {place : Place Reference}
    {k : Place BlockId → Except Failure β} (hk : ∀ p, FailsOtherwise (k p)) :
    (place.resolve resolver >>= k) = .error (.refused (.unknownShortId n)) ↔
      place.reference.unknown? resolver = some n := by
  cases place <;>
    · rw [resolve, bind_assoc]
      exact Reference.resolve_bind_eq_unknown_iff_of_failsOtherwise fun id => by
        rw [pure_bind]
        exact hk _

namespace Command

theorem failsOtherwise_tagMutation (id : BlockId) (path : String) (op : Assignment) (value : String) :
    FailsOtherwise (tagMutation id path op value) := by
  refine (failsOtherwise_fieldRead path).bind fun field => failsOtherwise_ite_throw rfl ?_
  split
  · exact failsOtherwise_error rfl
  · exact failsOtherwise_ok _

theorem failsOtherwise_draft (kind : ContentKind) (raw : String) (properties : Attributes) :
    FailsOtherwise (draft kind raw properties) := by
  refine FailsOtherwise.bind ?_ fun role => (failsOtherwise_contentRead _ _ _).bind fun c =>
    failsOtherwise_ok _
  rw [roleProperty]
  split
  · exact failsOtherwise_ok none
  · exact (failsOtherwise_roleRead _).map some

theorem failsOtherwise_note (properties : Attributes) : FailsOtherwise (note properties) := by
  rw [note]
  split
  · exact failsOtherwise_ok _
  · exact failsOtherwise_ok _
  · exact failsOtherwise_error rfl

/-- **A command asks for the numbers that were checked**: it fails for a short number in just those cases
in which one of its references, and this one first, names no block by it. -/
theorem mutation_eq_unknown_iff {c : Command} :
    c.mutation resolver = .error (.refused (.unknownShortId n)) ↔
      c.references.findSome? (Reference.unknown? resolver) = some n := by
  have one (r : Reference) :
      [r].findSome? (Reference.unknown? resolver) = some n ↔ r.unknown? resolver = some n := by
    cases h : r.unknown? resolver <;> simp [h]
  have two (r r' : Reference) : [r, r'].findSome? (Reference.unknown? resolver) = some n ↔
      r.unknown? resolver = some n ∨ r.unknown? resolver = none ∧ r'.unknown? resolver = some n := by
    cases h : r.unknown? resolver <;> cases h' : r'.unknown? resolver <;> simp [h, h']
  -- references are resolved in the order in which they are listed, and before anything else is
  -- looked at
  cases c with
  | edit id path op value =>
    refine (Reference.resolve_bind_eq_unknown_iff_of_failsOtherwise fun id => ?_).trans (one _).symm
    exact failsOtherwise_ite (failsOtherwise_ok _) (failsOtherwise_tagMutation id path op value)
  | append parent kind position content properties =>
    refine (Reference.resolve_bind_eq_unknown_iff_of_failsOtherwise fun id => ?_).trans (one _).symm
    exact (failsOtherwise_draft _ content properties).bind fun _ => failsOtherwise_ok _
  | delete id children =>
    exact (Reference.resolve_bind_eq_unknown_iff_of_failsOtherwise fun _ =>
      failsOtherwise_ok _).trans (one _).symm
  | move id place =>
    refine (Reference.resolve_bind_eq_unknown_iff fun id => ?_).trans (two _ _).symm
    exact Place.resolve_bind_eq_unknown_iff fun _ => failsOtherwise_ok _
  | link source relation target properties =>
    refine (Reference.resolve_bind_eq_unknown_iff fun source => ?_).trans (two _ _).symm
    exact Reference.resolve_bind_eq_unknown_iff_of_failsOtherwise fun _ =>
      (failsOtherwise_note properties).bind fun _ => failsOtherwise_ok _
  | unlink source relation target =>
    refine (Reference.resolve_bind_eq_unknown_iff fun source => ?_).trans (two _ _).symm
    exact Reference.resolve_bind_eq_unknown_iff_of_failsOtherwise fun _ => failsOtherwise_ok _
  | prune => simp [mutation, references, pure, Except.pure]

/-- A command all of whose references name blocks does not fail for a short number. -/
theorem failsOtherwise_mutation {c : Command}
    (h : ∀ r ∈ c.references, r.unknown? resolver = none) : FailsOtherwise (c.mutation resolver) := by
  intro failure hfailure
  cases hunknown : failure.isUnknownShort with
  | false => rfl
  | true =>
    obtain ⟨n, rfl⟩ := Failure.isUnknownShort_iff.mp hunknown
    rw [mutation_eq_unknown_iff, List.findSome?_eq_none_iff.mpr h] at hfailure
    cases hfailure

end Command

end Lookups

end BlockDocument
