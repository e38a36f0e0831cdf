import BlockDocument.Mutation
import BlockDocument.Proofs.Document.Outcome

/-!
# Changes to different blocks commute

A mutation that sets a field, an edge or a tag of a block looks at that block only, and changes no
other one: what it replies and what becomes of the block depend on the block as it is
(`Edit.ConfinedTo`). This is said of each edit by the parts that it is made of. Two edits that are
confined to different blocks do not notice each other, in whatever order they come and whether they
change anything, have nothing to do or fail.
-/

namespace BlockDocument

open Std (ExtTreeMap)

namespace Document

/-- A document is made of its blocks and of what a change to a block leaves alone. -/
theorem ext_block? {d d' : Document} (hroot : d.root = d'.root) (htree : d.tree = d'.tree)
    (hallocator : d.allocator = d'.allocator) (hblock : ∀ q, d.block? q = d'.block? q) : d = d' := by
  obtain ⟨root, blocks, tree, allocator⟩ := d
  obtain ⟨root', blocks', tree', allocator'⟩ := d'
  obtain rfl : root = root' := hroot
  obtain rfl : tree = tree' := htree
  obtain rfl : allocator = allocator' := hallocator
  obtain rfl : blocks = blocks' := ExtTreeMap.ext_getElem? fun q => hblock q
  rfl

variable (d : Document) {id id' : BlockId} (f g : Block → Block)

theorem withBlock_self : d.withBlock id (fun b => b) = d := by
  refine ext_block? rfl rfl rfl fun q => ?_
  rw [block?_withBlock]
  simp

theorem withBlock_withBlock :
    (d.withBlock id f).withBlock id g = d.withBlock id fun b => g (f b) := by
  refine ext_block? rfl rfl rfl fun q => ?_
  simp only [block?_withBlock]
  by_cases hq : id = q
  · simp [hq, Function.comp_def]
  · simp [hq]

/-- Changes to two blocks can be made in either order. -/
theorem withBlock_comm (h : id ≠ id') :
    (d.withBlock id f).withBlock id' g = (d.withBlock id' g).withBlock id f := by
  refine ext_block? rfl rfl rfl fun q => ?_
  simp only [block?_withBlock]
  by_cases hq : id = q
  · subst hq
    simp [h.symm]
  · simp [hq]

end Document

namespace Edit

variable {α β : Type} {id id' : BlockId}

/-- What an edit replies: its answer, or why it fails. -/
def reply (e : Edit α) (d : Document) : Except Failure α :=
  match e d with
  | .ok a _ => .ok a
  | .error failure _ => .error failure

/-! ## Edits in parts -/

theorem reply_bind (e : Edit α) (f : α → Edit β) (d : Document) :
    (e >>= f).reply d = (e.reply d).bind fun a => (f a).reply (e.after d) := by
  change reply (EStateM.bind e f) d = _
  rw [reply, reply, after, EStateM.bind]
  cases e d <;> rfl

theorem after_bind_of_ok {e : Edit α} {d : Document} {a : α} (h : e.reply d = .ok a)
    (f : α → Edit β) : (e >>= f).after d = (f a).after (e.after d) := by
  change after (EStateM.bind e f) d = _
  rw [reply] at h
  rw [after, after, after, EStateM.bind]
  cases he : e d with
  | ok a' d' =>
    rw [he] at h
    cases h
    rfl
  | error failure d' => simp [he] at h

theorem after_bind_of_error {e : Edit α} {d : Document} {failure : Failure}
    (h : e.reply d = .error failure) (f : α → Edit β) : (e >>= f).after d = e.after d := by
  change after (EStateM.bind e f) d = _
  rw [reply] at h
  rw [after, after, EStateM.bind]
  cases he : e d with
  | ok a d' => simp [he] at h
  | error failure' d' => rfl

/-! ## Edits of one block -/

/-- An edit that is about one block: what it replies and what becomes of the block depend on the block
alone, and nothing else changes. -/
def ConfinedTo (id : BlockId) (e : Edit α) : Prop :=
  ∃ (said : Option Block → Except Failure α) (change : Option Block → Block → Block), ∀ d,
    e.reply d = said (d.block? id) ∧ e.after d = d.withBlock id (change (d.block? id))

theorem confinedTo_pure (id : BlockId) (a : α) : (pure a : Edit α).ConfinedTo id :=
  ⟨fun _ => .ok a, fun _ b => b, fun d => ⟨rfl, d.withBlock_self.symm⟩⟩

theorem confinedTo_throw (id : BlockId) (failure : Failure) :
    (throw failure : Edit α).ConfinedTo id :=
  ⟨fun _ => .error failure, fun _ b => b, fun d => ⟨rfl, d.withBlock_self.symm⟩⟩

theorem confinedTo_ofExcept (id : BlockId) (x : Except Failure α) :
    (ofExcept x : Edit α).ConfinedTo id := by
  cases x with
  | ok a => exact confinedTo_pure id a
  | error failure => exact confinedTo_throw id failure

/-- A look at the document that sees the block only. -/
theorem confinedTo_look {check : Document → Except Failure α} (said : Option Block → Except Failure α)
    (h : ∀ d, check d = said (d.block? id)) :
    (get >>= fun d => ofExcept (check d) : Edit α).ConfinedTo id := by
  refine ⟨said, fun _ b => b, fun d => ?_⟩
  rw [d.withBlock_self, ← h d]
  change (ofExcept (check d) : Edit α).reply d = _ ∧ (ofExcept (check d) : Edit α).after d = _
  cases check d <;> exact ⟨rfl, rfl⟩

theorem confinedTo_require (id : BlockId) : (require id).ConfinedTo id := by
  apply confinedTo_look fun b? => b?.elim (.error (.notFound id)) .ok
  intro d
  rw [Document.require_eq]
  cases d.block? id <;> rfl

theorem confinedTo_modify (id : BlockId) (f : Block → Block) :
    (modify fun d => d.withBlock id f : Edit PUnit).ConfinedTo id :=
  ⟨fun _ => .ok ⟨⟩, fun _ => f, fun _ => ⟨rfl, rfl⟩⟩

/-- The second part sees the block as the first part has left it, and no more. -/
theorem ConfinedTo.bind {e : Edit α} {f : α → Edit β} (he : e.ConfinedTo id)
    (hf : ∀ a, (f a).ConfinedTo id) : (e >>= f).ConfinedTo id := by
  obtain ⟨said, change, he⟩ := he
  choose said' change' hf using hf
  refine ⟨fun b? => (said b?).bind fun a => said' a (b?.map (change b?)),
    fun b? b => (said b?).toOption.elim (change b? b) fun a =>
      change' a (b?.map (change b?)) (change b? b), fun d => ?_⟩
  obtain ⟨hsaid, hafter⟩ := he d
  have hblock : (e.after d).block? id = (d.block? id).map (change (d.block? id)) := by
    rw [hafter, Document.block?_withBlock, if_pos rfl]
  rw [reply_bind, hsaid]
  cases ha : said (d.block? id) with
  | error failure =>
    rw [after_bind_of_error (hsaid.trans ha), hafter]
    simp [ha, Except.bind, Except.toOption]
  | ok a =>
    obtain ⟨hsaid', hafter'⟩ := hf a (e.after d)
    rw [hblock] at hsaid' hafter'
    rw [after_bind_of_ok (hsaid.trans ha), hafter']
    constructor
    · simpa [ha, Except.bind] using hsaid'
    · rw [hafter, Document.withBlock_withBlock]
      simp [ha, Except.toOption]

theorem ConfinedTo.map {e : Edit α} (he : e.ConfinedTo id) (g : α → β) :
    (g <$> e).ConfinedTo id := by
  have hmap : (g <$> e : Edit β) = e >>= fun a => pure (g a) := by
    funext d
    change EStateM.map g e d = EStateM.bind e (fun a => EStateM.pure (g a)) d
    rw [EStateM.map, EStateM.bind]
    cases e d <;> rfl
  rw [hmap]
  exact he.bind fun a => confinedTo_pure id (g a)

theorem confinedTo_ite {c : Prop} [Decidable c] {e e' : Edit α} (he : e.ConfinedTo id)
    (he' : e'.ConfinedTo id) : (if c then e else e').ConfinedTo id := by
  split
  · exact he
  · exact he'

/-- **Edits of different blocks commute**: neither notices the other one. -/
theorem ConfinedTo.commute {e : Edit α} {e' : Edit β} (he : e.ConfinedTo id)
    (he' : e'.ConfinedTo id') (hne : id ≠ id') (d : Document) :
    e.reply (e'.after d) = e.reply d ∧ e'.reply (e.after d) = e'.reply d ∧
      e'.after (e.after d) = e.after (e'.after d) := by
  obtain ⟨said, change, he⟩ := he
  obtain ⟨said', change', he'⟩ := he'
  have hblock : (e'.after d).block? id = d.block? id := by
    rw [(he' d).2, Document.block?_withBlock, if_neg hne.symm]
  have hblock' : (e.after d).block? id' = d.block? id' := by
    rw [(he d).2, Document.block?_withBlock, if_neg hne]
  refine ⟨?_, ?_, ?_⟩
  · rw [(he _).1, (he _).1, hblock]
  · rw [(he' _).1, (he' _).1, hblock']
  · rw [(he' (e.after d)).2, hblock', (he d).2, (he (e'.after d)).2, hblock, (he' d).2]
    exact d.withBlock_comm _ _ hne

/-! ## The edits -/

theorem confinedTo_update (id : BlockId) (f : Block → Block) : (update id f).ConfinedTo id :=
  (confinedTo_require id).bind fun _ => confinedTo_modify id f

theorem confinedTo_setContent (id : BlockId) (content : Content) :
    (setContent id content).ConfinedTo id := confinedTo_update id _

theorem confinedTo_addEdge (source : BlockId) (edge : Edge) :
    (addEdge source edge).ConfinedTo source :=
  (confinedTo_require source).bind fun _ => confinedTo_ite (confinedTo_pure source false) <|
    (confinedTo_update source _).bind fun _ => confinedTo_pure source true

theorem confinedTo_removeEdge (source : BlockId) (relation : Relation) (target : BlockId) :
    (removeEdge source relation target).ConfinedTo source :=
  (confinedTo_require source).bind fun _ => confinedTo_ite
    ((confinedTo_update source _).bind fun _ => confinedTo_pure source true)
    (confinedTo_pure source false)

theorem confinedTo_addTag (id : BlockId) (tag : String) : (addTag id tag).ConfinedTo id :=
  (confinedTo_require id).bind fun _ => confinedTo_ite (confinedTo_pure id false) <|
    (confinedTo_update id _).bind fun _ => confinedTo_pure id true

theorem confinedTo_removeTag (id : BlockId) (tag : String) : (removeTag id tag).ConfinedTo id :=
  (confinedTo_require id).bind fun _ => confinedTo_ite
    ((confinedTo_update id _).bind fun _ => confinedTo_pure id true) (confinedTo_pure id false)

theorem confinedTo_setField (limits : Limits) (id : BlockId) (field : Field) (value : String) :
    (setField limits id field value).ConfinedTo id := by
  apply (confinedTo_require id).bind
  intro b
  cases field with
  | text =>
    exact (confinedTo_ofExcept id _).bind fun c => (confinedTo_ofExcept id _).bind fun _ =>
      confinedTo_setContent id c
  | language =>
    dsimp only
    split
    · exact confinedTo_setContent id _
    · exact confinedTo_throw id _
  | label => exact confinedTo_update id _
  | role =>
    dsimp only
    split
    · exact confinedTo_update id _
    · exact (confinedTo_ofExcept id _).bind fun _ => confinedTo_update id _
  | tags => exact confinedTo_update id _
  | «attribute» name => exact confinedTo_update id _

end Edit

/-! ## Mutations -/

namespace Mutation

open Edit

/-- The block that a mutation is about which sets a field, an edge or a tag. -/
def subject? : Mutation → Option BlockId
  | set id _ _ => some id
  | addEdge source _ _ _ => some source
  | removeEdge source _ _ => some source
  | addTag id _ => some id
  | removeTag id _ => some id
  | add .. | delete .. | move .. | prune => none

/-- What is checked before an edge is added is read off its source. -/
theorem confinedTo_checkEdge (l : Limits) (source : BlockId) (relation : Relation)
    (target : BlockId) :
    (get >>= fun d => ofExcept (d.checkEdge l source relation target) : Edit Unit).ConfinedTo
      source := by
  apply confinedTo_look fun b? => do
    let b ← b?.elim (.error (.notFound source)) .ok
    if b.hasEdgeTo target (some relation) then pure ()
    else requireNone (l.edgeCountIssue (b.edges.length + 1) source).toList
  intro d
  rw [Document.checkEdge, Document.require_eq]
  cases d.block? source <;> rfl

theorem confinedTo_apply {m : Mutation} {id : BlockId} (h : m.subject? = some id) (l : Limits) :
    (m.apply l).ConfinedTo id := by
  cases m with
  | set id' path value =>
    cases h
    exact (confinedTo_ofExcept id _).bind fun field =>
      (confinedTo_setField l id field value).bind fun _ => confinedTo_pure id _
  | addEdge source relation target note =>
    cases h
    exact (confinedTo_checkEdge l id relation target).bind fun _ =>
      (confinedTo_addEdge id _).map _
  | removeEdge source relation target =>
    cases h
    exact (confinedTo_removeEdge id relation target).map _
  | addTag id' tag =>
    cases h
    exact (confinedTo_addTag id tag).map _
  | removeTag id' tag =>
    cases h
    exact (confinedTo_removeTag id tag).map _
  | add | delete | move | prune => cases h

/-- **Mutations of different blocks commute**: in either order each replies what it replies alone,
its outcome or its failure, and the same document is left, whatever the two change or refuse. -/
theorem commute_apply (l : Limits) {m m' : Mutation} {id id' : BlockId} (hm : m.subject? = some id)
    (hm' : m'.subject? = some id') (hne : id ≠ id') (d : Document) :
    (m.apply l).reply ((m'.apply l).after d) = (m.apply l).reply d ∧
      (m'.apply l).reply ((m.apply l).after d) = (m'.apply l).reply d ∧
      (m'.apply l).after ((m.apply l).after d) = (m.apply l).after ((m'.apply l).after d) :=
  (confinedTo_apply hm l).commute (confinedTo_apply hm' l) hne d

/-- A root and two blocks that no list of children names. -/
def strangers : Document :=
  let block (id : BlockId) : BlockId × Block := (id, { id, content := .text "" })
  .ofParts ⟨"a"⟩ (.ofList [block ⟨"a"⟩, block ⟨"b"⟩, block ⟨"c"⟩]) ∅ { policy := .sequential }

/-- An edge that leads to a block is added as well before as after that block is refused a text that
is too long, and it is all that changes. -/
theorem commute_apply_strangers :
    let l : Limits := { blockSize := some 1 }
    let m : Mutation := .addEdge ⟨"b"⟩ .references ⟨"c"⟩ {}
    let m' : Mutation := .set ⟨"c"⟩ "text" "long"
    m.subject? = some ⟨"b"⟩ ∧ m'.subject? = some ⟨"c"⟩ ∧ (⟨"b"⟩ : BlockId) ≠ ⟨"c"⟩ ∧
      (m.apply l).reply ((m'.apply l).after strangers) = .ok .updated ∧
      (m'.apply l).reply ((m.apply l).after strangers) = .error (.invalid
        [.error (.blockTooLarge 4 1) (some ⟨"c"⟩)]) ∧
      (m'.apply l).after ((m.apply l).after strangers) =
        (m.apply l).after ((m'.apply l).after strangers) := by
  intro l m m'
  have hne : (⟨"b"⟩ : BlockId) ≠ ⟨"c"⟩ := by decide
  obtain ⟨hm, hm', hafter⟩ := @commute_apply l m m' _ _ rfl rfl hne strangers
  have hadded : (m.apply l).reply strangers = .ok .updated := by decide +kernel
  have hrefused : (m'.apply l).reply strangers =
      .error (.invalid [.error (.blockTooLarge 4 1) (some ⟨"c"⟩)]) := by decide +kernel
  exact ⟨rfl, rfl, hne, hm.trans hadded, hm'.trans hrefused, hafter⟩

end Mutation

end BlockDocument
