import BlockDocument.Proofs.Archive.Body
import BlockDocument.Proofs.Archive.Recover
import BlockDocument.Proofs.Operation

/-!
# Documents that are saved and loaded

A document whose root is a block can be saved and loaded if every block can be saved and the text is
not too long, and not otherwise. The text is longer than the same values on one line, by what its
levels take at most, so the layout does not have to be written to know that there is room for it.
-/

namespace BlockDocument

open Archive Json

/-- Whether a block can be saved: its content, its attributes and those of its edges. -/
def Block.isStorable (b : Block) : Bool :=
  b.content.isStorable && b.metadata.attributes.isStorable &&
    b.edges.all fun e => e.note.attributes.isStorable

/-- Whether every block of a document can be saved. -/
def Document.isStorable (d : Document) : Bool := d.blocks.values.all Block.isStorable

namespace Archive

/-! ## The body -/

/-- A body as it is read back. -/
def Body.recovered? (now : Time.Instant) (body : Body) : Option Body := do
  let blocks ← body.blocks.mapM (BlockRecord.recovered? now)
  let edges ← body.edges.mapM (EdgeRecord.recovered? now)
  pure { body with blocks, edges }

/-- A body whose parts are within their ranges. -/
structure Body.Ranged (body : Body) : Prop where
  content : ∀ r ∈ body.blocks, r.content.Ranged
  metadata : ∀ r ∈ body.blocks, r.metadata.Ranged
  edges : ∀ r ∈ body.edges, r.edge.created.Ranged

variable {now : Time.Instant}

/-- The members of a body with its header. -/
def bodyMembers (now : Time.Instant) (body : Body) : List (String × Value) :=
  [("format", .string formatName), ("version", natValue formatVersion),
    ("id_policy", .string body.policy.name), ("root", idValue body.root),
    ("blocks", .array (body.blocks.map (blockValue now))),
    ("edges", .array (body.edges.map (edgeValue now)))]

theorem bodyValue_eq (now : Time.Instant) (body : Body) :
    bodyValue now body = .object (bodyMembers now body) := rfl

theorem nodup_bodyMembers (now : Time.Instant) (body : Body) :
    ((bodyMembers now body).map Prod.fst).Nodup := by
  simp [bodyMembers]

/-- The members of the header are values. -/
theorem any_others_bodyMembers (now : Time.Instant) (body : Body) :
    (((bodyMembers now body).map fun m => (m.1, Source.ofValue m.2)).filter
        fun e => !bodyFields.contains e.1).any
      (fun e => (e.2.value? (nestingBound - 2)).isNone) = false := by
  have hformat := Source.value?_ofValue (v := .string formatName) trivial
    (Nat.zero_le (nestingBound - 2))
  have hversion := Source.value?_ofValue (v := natValue formatVersion)
    (show formatVersion < wordBound by decide) (Nat.zero_le (nestingBound - 2))
  simp [bodyMembers, bodyFields, hformat, hversion]

theorem header?_bodyValue (body : Body) :
    header? (Source.ofValue (bodyValue now body)) = some ⟨formatName, formatVersion⟩ := by
  obtain ⟨fields, hrecord, hfields⟩ := exists_record?_ofValue ["format", "version"] 0
    (bodyValue_eq now body) (nodup_bodyMembers now body)
  simp only [bodyMembers, List.forall_mem_cons, List.lookup, String.reduceBEq,
    Option.map_some] at hfields
  obtain ⟨hformat, hversion, -⟩ := hfields
  have hformat := (required_eq hformat).trans (text?_string formatName)
  have hversion := (required_eq hversion).trans (word32?_natValue (by decide))
  simp only [header?, hrecord, hformat, hversion, bind, Option.bind, pure]

theorem body?_bodyValue (hnow : now.Ranged) {body : Body} (hbody : body.Ranged) :
    body? (Source.ofValue (bodyValue now body)) = body.recovered? now := by
  obtain ⟨fields, hpick, hfields⟩ := exists_pick?_ofMembers bodyFields (nodup_bodyMembers now body)
  simp only [bodyMembers, bodyFields, List.forall_mem_cons, List.lookup, String.reduceBEq,
    Option.map_some] at hfields
  obtain ⟨hpolicy, hroot, hblocks, hedges, -⟩ := hfields
  have hpolicy : fields.withDefault "id_policy" .sequential (named? Policy.parse?) =
      some body.policy := by
    rw [Fields.withDefault, hpolicy]
    exact policyParse?_name body.policy
  have hroot := (required_eq hroot).trans (id?_idValue body.root)
  have hblocks : fields.required "blocks" (list? block?) =
      body.blocks.mapM (BlockRecord.recovered? now) := by
    rw [required_eq hblocks, list?_ofValue]
    exact mapM_congr fun r hr => block?_blockValue hnow (hbody.content r hr) (hbody.metadata r hr)
  have hedges : fields.withDefault "edges" [] (list? edge?) =
      body.edges.mapM (EdgeRecord.recovered? now) := by
    rw [Fields.withDefault, hedges]
    exact (list?_ofValue _ _ _).trans
      (mapM_congr fun r hr => edge?_edgeValue hnow (hbody.edges r hr))
  have hothers := any_others_bodyMembers now body
  rw [bodyValue_eq, Source.ofValue, body?, members?_ofMembers]
  simp only [bind, Option.bind, hpick, hothers, Bool.false_eq_true, if_false, hpolicy, hroot,
    hblocks, hedges, Body.recovered?]

/-- A body that is saved is decoded, and what it amounts to then is opened. -/
theorem decode_bodyValue (hnow : now.Ranged) {body : Body} (hbody : body.Ranged) {d : Document} :
    decode (some (Source.ofValue (bodyValue now body))) = .ok d ↔
      ∃ body', body.recovered? now = some body' ∧ body'.document = .ok d := by
  have hcheck : Header.check ⟨formatName, formatVersion⟩ = .ok () := rfl
  rw [decode, Option.bind_some, Option.bind_some, header?_bodyValue, body?_bodyValue hnow hbody]
  simp only [bind, Except.bind, hcheck]
  cases body.recovered? now with
  | none => simp [throw, throwThe, MonadExceptOf.throw]
  | some body' => simp

theorem load_save_eq_ok (hnow : now.Ranged) {d d' : Document}
    (hbody : (Body.ofDocument d).Ranged) :
    load (save now d) = .ok d' ↔ (save now d).utf8ByteSize ≤ archiveBound ∧
      ∃ body, (Body.ofDocument d).recovered? now = some body ∧ body.document = .ok d' := by
  have hread : Source.parse? (save now d).toList.length (save now d).toList =
      some (Source.ofValue (bodyValue now (Body.ofDocument d))) := by
    rw [save, Value.toList_indentedText, Source.parse?_indented (Value.nesting_le_length _ 0)]
  rw [load_eq_ok_iff, hread, decode_bodyValue hnow hbody]

/-! ## Which bodies are read back -/

theorem isSome_recovered?_block (now : Time.Instant) (r : BlockRecord) :
    (r.recovered? now).isSome = (r.content.isStorable && r.metadata.attributes.isStorable) := by
  rw [← isSome_recovered?_content, ← isSome_recovered?_attributes, BlockRecord.recovered?,
    Metadata.recovered?]
  cases r.content.recovered? <;> cases r.metadata.attributes.recovered? <;> rfl

theorem isSome_recovered?_edge (now : Time.Instant) (r : EdgeRecord) :
    (r.recovered? now).isSome = r.edge.note.attributes.isStorable := by
  rw [← isSome_recovered?_attributes, EdgeRecord.recovered?, Option.isSome_map, Note.recovered?,
    Option.isSome_map]

/-- Of a block the content and the metadata are read back, and the rest is kept. -/
theorem exists_of_recovered? {r r' : BlockRecord} (h : r.recovered? now = some r') :
    ∃ content metadata, r' = { r with content, metadata } := by
  rw [BlockRecord.recovered?] at h
  cases hc : r.content.recovered? with
  | none => simp [hc] at h
  | some content =>
    cases hm : r.metadata.recovered? now with
    | none => simp [hc, hm] at h
    | some metadata =>
      simp only [hc, hm, bind, Option.bind, pure, Option.some.injEq] at h
      exact ⟨content, metadata, h.symm⟩

/-- An edge keeps its source. -/
theorem source_of_recovered? {r r' : EdgeRecord} (h : r.recovered? now = some r') :
    r'.source = r.source := by
  obtain ⟨note, -, rfl⟩ := Option.map_eq_some_iff.mp h
  rfl

namespace Body

theorem recovered?_eq_some {body body' : Body} :
    body.recovered? now = some body' ↔
      ∃ blocks edges, body.blocks.mapM (BlockRecord.recovered? now) = some blocks ∧
        body.edges.mapM (EdgeRecord.recovered? now) = some edges ∧
        body' = { body with blocks, edges } := by
  rw [recovered?]
  cases body.blocks.mapM (BlockRecord.recovered? now) with
  | none => simp
  | some blocks =>
    cases body.edges.mapM (EdgeRecord.recovered? now) with
    | none => simp
    | some edges => simp [eq_comm]

theorem isSome_recovered? {body : Body} :
    (body.recovered? now).isSome = true ↔
      (∀ r ∈ body.blocks, (r.recovered? now).isSome = true) ∧
        ∀ r ∈ body.edges, (r.recovered? now).isSome = true := by
  rw [← isSome_mapM, ← isSome_mapM, recovered?]
  cases body.blocks.mapM (BlockRecord.recovered? now) <;>
    cases body.edges.mapM (EdgeRecord.recovered? now) <;> simp

/-- A body that is read back has the ids, the sources and the root that it had. -/
theorem ids_of_recovered? {body body' : Body} (h : body.recovered? now = some body') :
    body'.blocks.map BlockRecord.id = body.blocks.map BlockRecord.id ∧
      body'.edges.map EdgeRecord.source = body.edges.map EdgeRecord.source ∧
      body'.root = body.root := by
  obtain ⟨blocks, edges, hblocks, hedges, rfl⟩ := recovered?_eq_some.mp h
  exact ⟨map_eq_of_mapM hblocks fun r _ r' hr => by
      obtain ⟨content, metadata, rfl⟩ := exists_of_recovered? hr
      rfl,
    map_eq_of_mapM hedges fun r _ r' hr => source_of_recovered? hr, rfl⟩

theorem mem_blocks_ofDocument {d : Document} {r : BlockRecord} :
    r ∈ (ofDocument d).blocks ↔
      ∃ id b, d.block? id = some b ∧ r = ⟨id, b.content, b.metadata, b.children⟩ := by
  rw [ofDocument, List.mem_map]
  constructor
  · rintro ⟨e, he, rfl⟩
    exact ⟨e.1, e.2, Std.ExtTreeMap.mem_toList_iff_getElem?_eq_some.mp he, rfl⟩
  · rintro ⟨id, b, hb, rfl⟩
    exact ⟨(id, b), Std.ExtTreeMap.mem_toList_iff_getElem?_eq_some.mpr hb, rfl⟩

/-- A body that is read back has the lists of children that it had. -/
theorem children_of_recovered? {body body' : Body} (h : body.recovered? now = some body') :
    body'.blocks.map (fun r => (r.id, r.children)) = body.blocks.map fun r => (r.id, r.children) := by
  obtain ⟨blocks, edges, hblocks, -, rfl⟩ := recovered?_eq_some.mp h
  refine map_eq_of_mapM hblocks fun r _ r' hr => ?_
  obtain ⟨content, metadata, rfl⟩ := exists_of_recovered? hr
  rfl

theorem children_assembled {body : Body} (h : (body.blocks.map BlockRecord.id).Nodup) {id : BlockId}
    {cs : List BlockId} : (body.assembled.block? id).map Block.children = some cs ↔
      (id, cs) ∈ body.blocks.map fun r => (r.id, r.children) := by
  rw [Option.map_eq_some_iff, List.mem_map]
  constructor
  · rintro ⟨b, hb, rfl⟩
    obtain ⟨r, hr, rfl, rfl⟩ := (block?_assembled h).mp hb
    exact ⟨r, hr, rfl⟩
  · rintro ⟨r, hr, he⟩
    cases he
    exact ⟨_, (block?_assembled h).mpr ⟨r, hr, rfl, rfl⟩, rfl⟩

theorem children_ofDocument {d : Document} {id : BlockId} {cs : List BlockId} :
    (d.block? id).map Block.children = some cs ↔
      (id, cs) ∈ (ofDocument d).blocks.map fun r => (r.id, r.children) := by
  rw [Option.map_eq_some_iff, List.mem_map]
  constructor
  · rintro ⟨b, hb, rfl⟩
    exact ⟨_, mem_blocks_ofDocument.mpr ⟨id, b, hb, rfl⟩, rfl⟩
  · rintro ⟨r, hr, he⟩
    obtain ⟨id', b, hb, rfl⟩ := mem_blocks_ofDocument.mp hr
    cases he
    exact ⟨b, hb, rfl⟩

theorem mem_edges_ofDocument {d : Document} {r : EdgeRecord} :
    r ∈ (ofDocument d).edges ↔ ∃ id b, d.block? id = some b ∧ ∃ e ∈ b.edges, r = ⟨id, e⟩ := by
  rw [ofDocument, List.mem_flatMap]
  constructor
  · rintro ⟨e, he, hr⟩
    obtain ⟨edge, hedge, rfl⟩ := List.mem_map.mp hr
    exact ⟨e.1, e.2, Std.ExtTreeMap.mem_toList_iff_getElem?_eq_some.mp he, edge, hedge, rfl⟩
  · rintro ⟨id, b, hb, edge, hedge, rfl⟩
    exact ⟨(id, b), Std.ExtTreeMap.mem_toList_iff_getElem?_eq_some.mpr hb,
      List.mem_map.mpr ⟨edge, hedge, rfl⟩⟩

theorem ranged_ofDocument {d : Document} (h : d.Ranged) : (ofDocument d).Ranged := by
  refine ⟨fun r hr => ?_, fun r hr => ?_, fun r hr => ?_⟩
  · obtain ⟨id, b, hb, rfl⟩ := mem_blocks_ofDocument.mp hr
    exact (h id b hb).content
  · obtain ⟨id, b, hb, rfl⟩ := mem_blocks_ofDocument.mp hr
    exact (h id b hb).metadata
  · obtain ⟨id, b, hb, e, he, rfl⟩ := mem_edges_ofDocument.mp hr
    exact (h id b hb).edges e he

/-- The body of a document is read back if all its blocks can be saved. -/
theorem isSome_recovered?_ofDocument (now : Time.Instant) (d : Document) :
    ((ofDocument d).recovered? now).isSome = d.isStorable := by
  rw [Bool.eq_iff_iff, isSome_recovered?, Document.isStorable, List.all_eq_true]
  constructor
  · rintro ⟨hblocks, hedges⟩ b hb
    obtain ⟨id, hb⟩ := Map.mem_values.mp hb
    have hblock := hblocks _ (mem_blocks_ofDocument.mpr ⟨id, b, hb, rfl⟩)
    rw [isSome_recovered?_block] at hblock
    rw [Block.isStorable, hblock, Bool.true_and, List.all_eq_true]
    intro e he
    have hedge := hedges _ (mem_edges_ofDocument.mpr ⟨id, b, hb, e, he, rfl⟩)
    rwa [isSome_recovered?_edge] at hedge
  · intro h
    have hstorable {id : BlockId} {b : Block} (hb : d.block? id = some b) :
        (b.content.isStorable && b.metadata.attributes.isStorable) = true ∧
          ∀ e ∈ b.edges, e.note.attributes.isStorable = true := by
      have hb := h b (Map.mem_values.mpr ⟨id, hb⟩)
      rwa [Block.isStorable, Bool.and_eq_true, List.all_eq_true] at hb
    refine ⟨fun r hr => ?_, fun r hr => ?_⟩
    · obtain ⟨id, b, hb, rfl⟩ := mem_blocks_ofDocument.mp hr
      rw [isSome_recovered?_block]
      exact (hstorable hb).1
    · obtain ⟨id, b, hb, e, he, rfl⟩ := mem_edges_ofDocument.mp hr
      rw [isSome_recovered?_edge]
      exact (hstorable hb).2 e he

end Body

/-- A document that is loaded has the root that was saved, and the blocks with their children. -/
theorem children_of_load (hnow : now.Ranged) {d d' : Document} (hd : d.Ranged)
    (h : load (save now d) = .ok d') :
    d'.root = d.root ∧ ∀ id, (d'.block? id).map Block.children = (d.block? id).map Block.children ∧
      d'.tree[id]? = (d.block? id).map Block.children := by
  obtain ⟨-, body, hbody, hdocument⟩ := (load_save_eq_ok hnow (Body.ranged_ofDocument hd)).mp h
  obtain ⟨hids, hroot, -, rfl⟩ := Body.document_eq_ok.mp hdocument
  have hchildren (id : BlockId) :
      (body.assembled.block? id).map Block.children = (d.block? id).map Block.children :=
    Option.ext fun cs => by
      rw [Body.children_assembled hids, Body.children_ofDocument, Body.children_of_recovered? hbody]
  refine ⟨(Body.ids_of_recovered? hbody).2.2, fun id => ⟨hchildren id, ?_⟩⟩
  rw [(Body.lockStep_assembled hids hroot).tree_eq id, hchildren id]

/-- **What can be saved can be loaded.** -/
theorem load_save_iff (hnow : now.Ranged) {d : Document} (hroot : d.contains d.root = true)
    (hd : d.Ranged) : (∃ d', load (save now d) = .ok d') ↔
      d.isStorable = true ∧ (save now d).utf8ByteSize ≤ archiveBound := by
  simp only [load_save_eq_ok hnow (Body.ranged_ofDocument hd)]
  rw [← Body.isSome_recovered?_ofDocument now]
  constructor
  · rintro ⟨d', hsize, body, hbody, -⟩
    rw [hbody]
    exact ⟨rfl, hsize⟩
  · rintro ⟨h, hsize⟩
    obtain ⟨body, hbody⟩ := Option.isSome_iff_exists.mp h
    obtain ⟨hids, hsources, hr⟩ := Body.ids_of_recovered? hbody
    rw [Body.ids_ofDocument] at hids
    refine ⟨body.assembled, hsize, body, hbody, Body.document_eq_ok.mpr ?_⟩
    rw [hids, hr]
    refine ⟨Std.ExtTreeMap.nodup_keys, ?_, fun r hr => ?_, rfl⟩
    · exact Std.ExtTreeMap.mem_keys.mpr (Std.ExtTreeMap.contains_iff_mem.mp hroot)
    · have hmem : r.source ∈ body.edges.map EdgeRecord.source := List.mem_map_of_mem hr
      rw [hsources] at hmem
      obtain ⟨r', hr', hsource⟩ := List.mem_map.mp hmem
      exact hsource ▸ Body.source_mem_ofDocument hr'

/-! ## Whatever operations leave -/

/-- Operations leave a tree within the ranges. -/
theorem isTree_ranged_run (a : Allocator) {ops : List Operation} (hops : ∀ o ∈ ops, o.Ranged) :
    (Operation.run (.create a) ops).IsTree ∧ (Operation.run (.create a) ops).Ranged := by
  obtain ⟨changes, hall, hrun⟩ := Operation.exists_run_eq hops (.create a)
  rw [hrun]
  exact ⟨(Document.isTree_create a).run changes, Document.Ranged.run (.create a) hall⟩

/-- **Which documents can be saved and loaded.** Whatever operations made of a new document, the
text that it is saved as is accepted if it is not too long, the JSON of every block nests less deep
than contents may, and every number among its attributes and those of its edges is finite. Otherwise
it is refused. -/
theorem load_save_run (a : Allocator) {ops : List Operation} (hops : ∀ o ∈ ops, o.Ranged)
    (hnow : now.Ranged) :
    (∃ d, load (save now (Operation.run (.create a) ops)) = .ok d) ↔
      (Operation.run (.create a) ops).isStorable = true ∧
        (save now (Operation.run (.create a) ops)).utf8ByteSize ≤ archiveBound := by
  obtain ⟨htree, hranged⟩ := isTree_ranged_run a hops
  exact load_save_iff hnow htree.root_mem hranged

/-- How long the text of a document is at most. -/
theorem utf8ByteSize_save_le (now : Time.Instant) (d : Document) :
    let v := bodyValue now (.ofDocument d)
    (save now d).utf8ByteSize ≤ 4 * ((Value.writeCompact [] v).length * (2 * v.nesting + 4)) :=
  Value.utf8ByteSize_indentedText_le _

/-- What can be saved can be loaded if its values on one line leave room for the layout. -/
theorem exists_load_save (hnow : now.Ranged) {d : Document} (hroot : d.contains d.root = true)
    (hd : d.Ranged) (hstorable : d.isStorable = true)
    (hroom : let v := bodyValue now (.ofDocument d)
      4 * ((Value.writeCompact [] v).length * (2 * v.nesting + 4)) ≤ archiveBound) :
    ∃ d', load (save now d) = .ok d' :=
  (load_save_iff hnow hroot hd).mpr ⟨hstorable, (utf8ByteSize_save_le now d).trans hroom⟩

/-- Arrays in each other. -/
def nestedArrays : Nat → Value
  | 0 => .array []
  | n + 1 => .array [nestedArrays n]

theorem ranged_nestedArrays (n : Nat) : (nestedArrays n).Ranged := by
  induction n with
  | zero => trivial
  | succ n ih => exact ⟨ih, trivial⟩

/-- JSON that nests as deep as contents may, a table, an edge with a confidence that is no number,
and a program that adds one more block and labels the root. -/
def mixedOperations : List Operation :=
  let root : BlockId := ⟨"blk_000000000001"⟩
  [.edit (.add root (.json (nestedArrays 122)) none (some "deep") none),
    .edit (.add root (.table [["a", "b"], []]) (some .table) none (some 0)),
    .mutate {} (.addEdge root .references ⟨"elsewhere"⟩ { confidence := some .nan }),
    .execute {} (fun _ => none)
      "APPEND blk_000000000001 json :: [1e3, \x7b\x7d]\nEDIT blk_000000000001 SET label = \"x\""]

theorem load_save_mixedOperations :
    (Operation.run (.create ⟨.sequential, 1⟩) mixedOperations).size = 4 ∧
      ∃ d, load (save ⟨0, 0⟩ (Operation.run (.create ⟨.sequential, 1⟩) mixedOperations)) = .ok d := by
  have hops : ∀ o ∈ mixedOperations, o.Ranged := by
    simp only [mixedOperations, List.forall_mem_cons]
    exact ⟨ranged_nestedArrays 122, trivial, trivial, trivial, by rintro o ⟨⟩⟩
  have hbounds : let d := Operation.run (.create ⟨.sequential, 1⟩) mixedOperations
      let v := bodyValue ⟨0, 0⟩ (.ofDocument d)
      d.size = 4 ∧ d.isStorable = true ∧
        4 * ((Value.writeCompact [] v).length * (2 * v.nesting + 4)) ≤ archiveBound := by
    decide +kernel
  obtain ⟨hcount, hstorable, hroom⟩ := hbounds
  exact ⟨hcount, (load_save_run ⟨.sequential, 1⟩ hops ⟨by decide, by decide⟩).mpr
    ⟨hstorable, (utf8ByteSize_save_le _ _).trans hroom⟩⟩

/-- Arrays that nest as deep as those of a text that is read, and a number that is none, are put
into a new document, but neither document can be loaded once it is saved, though its text is not too
long. -/
theorem not_load_save_deep :
    let d := Document.create ⟨.sequential, 1⟩
    let deep := Operation.run d
      [.mutate {} (.add d.root none { content := .json (nestedArrays 123) })]
    let blurred := Operation.run d [.edit (.setAttribute d.root "x" (.number .nan))]
    (Value.parse? (.replicate 124 '[' ++ .replicate 124 ']')).map Value.nesting =
        some (nestedArrays 123).nesting ∧
      deep.size = 2 ∧ (save ⟨0, 0⟩ deep).utf8ByteSize ≤ archiveBound ∧
      (¬ ∃ d', load (save ⟨0, 0⟩ deep) = .ok d') ∧
      (save ⟨0, 0⟩ blurred).utf8ByteSize ≤ archiveBound ∧
      ¬ ∃ d', load (save ⟨0, 0⟩ blurred) = .ok d' := by
  intro d deep blurred
  have hdeep : deep.IsTree ∧ deep.Ranged := isTree_ranged_run ⟨.sequential, 1⟩
    (List.forall_mem_singleton.mpr (ranged_nestedArrays 123))
  have hblurred : blurred.IsTree ∧ blurred.Ranged :=
    isTree_ranged_run ⟨.sequential, 1⟩ (List.forall_mem_singleton.mpr trivial)
  have hnow : Time.Instant.Ranged ⟨0, 0⟩ := ⟨by decide, by decide⟩
  have hdeepRoom : (save ⟨0, 0⟩ deep).utf8ByteSize ≤ archiveBound :=
    (utf8ByteSize_save_le ⟨0, 0⟩ deep).trans (by decide +kernel)
  have hblurredRoom : (save ⟨0, 0⟩ blurred).utf8ByteSize ≤ archiveBound :=
    (utf8ByteSize_save_le ⟨0, 0⟩ blurred).trans (by decide +kernel)
  refine ⟨by decide +kernel, by decide +kernel, hdeepRoom, fun hload => ?_, hblurredRoom,
    fun hload => ?_⟩
  · have hstorable := ((load_save_iff hnow hdeep.1.root_mem hdeep.2).mp hload).1
    have hnot : deep.isStorable = false := by decide +kernel
    exact absurd hstorable (Bool.eq_false_iff.mp hnot)
  · have hstorable := ((load_save_iff hnow hblurred.1.root_mem hblurred.2).mp hload).1
    have hnot : blurred.isStorable = false := by decide +kernel
    exact absurd hstorable (Bool.eq_false_iff.mp hnot)

end Archive

end BlockDocument
