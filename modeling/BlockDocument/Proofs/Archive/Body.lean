import BlockDocument.Archive.Load
import BlockDocument.Proofs.Document.Forest
import BlockDocument.Proofs.Sorting

/-!
# Bodies and documents

Records lose nothing. A body is turned into a document block by block and edge by edge; what comes of
it is known as a whole: the ids differ, the root is among them, edges leave blocks, and each block gets
the edges that are recorded for it (`Body.document_eq_ok`). The body of that document lists the same
records, blocks in the order of ids and edges in the order of their sources, and the edges of one
source in the order that they had.
-/

namespace BlockDocument

open Std (ExtTreeMap)

/-- A document whose blocks and tree are in step: blocks are stored under their own ids, the tree has
an entry for each of them and no other, and it is what the block holds. Nothing is said about the
tree that this makes. -/
structure Document.LockStep (d : Document) : Prop where
  stored : d.Stored
  root_mem : d.contains d.root = true
  tree_eq : ∀ id, d.tree[id]? = (d.block? id).map Block.children

theorem Map.insertMany_eq_ofList {β : Type} (l : List (BlockId × β)) :
    (∅ : ExtTreeMap BlockId β).insertMany l = .ofList l := by
  cases l with
  | nil => simp
  | cons e l => rw [ExtTreeMap.insertMany_cons, ExtTreeMap.ofList_cons]

/-- The entry of a map for a key. -/
theorem Map.filter_toList {β : Type} (m : ExtTreeMap BlockId β) (k : BlockId) :
    m.toList.filter (·.1 = k) = (m[k]?.map (k, ·)).toList := by
  cases hk : m[k]? with
  | none =>
    refine List.filter_eq_nil_iff.mpr fun e he => ?_
    rintro hek
    obtain rfl : e.1 = k := by simpa using hek
    rw [ExtTreeMap.mem_toList_iff_getElem?_eq_some.mp he] at hk
    cases hk
  | some v =>
    have hmem : (k, v) ∈ m.toList := ExtTreeMap.mem_toList_iff_getElem?_eq_some.mpr hk
    have hkeys : (m.toList.map Prod.fst).Nodup := by
      rw [ExtTreeMap.map_fst_toList_eq_keys]
      exact ExtTreeMap.nodup_keys
    exact filter_key_eq_singleton hkeys hmem

namespace Archive

/-- A text is opened if it is not too long and can be decoded. -/
theorem load_eq_ok_iff {text : String} {d : Document} :
    load text = .ok d ↔ text.utf8ByteSize ≤ archiveBound ∧
      decode (Json.Source.parse? text.toList.length text.toList) = .ok d := by
  rw [load]
  by_cases hsize : text.utf8ByteSize ≤ archiveBound
  · rw [if_neg (Nat.not_lt.mpr hsize)]
    dsimp only
    cases decode (Json.Source.parse? text.toList.length text.toList) <;> simp [hsize]
  · rw [if_pos (Nat.not_le.mp hsize)]
    simp [hsize]

/-- The edges that are recorded for a source, in order. -/
def edgesOf (records : List EdgeRecord) (id : BlockId) : List Edge :=
  (records.filter (·.source = id)).map EdgeRecord.edge

/-- A block with more edges. -/
def withEdges (b : Block) (edges : List Edge) : Block := { b with edges := b.edges ++ edges }

namespace Body

/-! ## What a body amounts to -/

theorem collectBlocks_eq_ok {blocks blocks' : ExtTreeMap BlockId Block}
    {records : List BlockRecord} :
    collectBlocks blocks records = .ok blocks' ↔
      (∀ r ∈ records, r.id ∉ blocks) ∧ (records.map BlockRecord.id).Nodup ∧
        blocks' = blocks.insertMany (records.map fun r => (r.id, r.block)) := by
  induction records generalizing blocks with
  | nil => simp [collectBlocks, eq_comm]
  | cons r rest ih =>
    rw [collectBlocks]
    by_cases hr : r.id ∈ blocks
    · simp [hr]
    · rw [if_neg hr, ih]
      simp only [ExtTreeMap.mem_insert, Std.LawfulEqCmp.compare_eq_iff_eq, List.mem_cons,
        forall_eq_or_imp, List.map_cons, List.nodup_cons, List.mem_map, ExtTreeMap.insertMany_cons]
      constructor
      · rintro ⟨hfresh, hnd, rfl⟩
        refine ⟨⟨hr, fun r' hr' h => hfresh r' hr' (.inr h)⟩, ⟨?_, hnd⟩, rfl⟩
        rintro ⟨r', hr', h⟩
        exact hfresh r' hr' (.inl h.symm)
      · rintro ⟨⟨-, hfresh⟩, ⟨hne, hnd⟩, rfl⟩
        refine ⟨?_, hnd, rfl⟩
        rintro r' hr' (h | h)
        · exact hne ⟨r', hr', h.symm⟩
        · exact hfresh r' hr' h

theorem edgesOf_cons (r : EdgeRecord) (rest : List EdgeRecord) (id : BlockId) :
    edgesOf (r :: rest) id = (if r.source = id then [r.edge] else []) ++ edgesOf rest id := by
  rw [edgesOf, List.filter_cons]
  by_cases h : r.source = id <;> simp [h, edgesOf]

theorem collectEdges_eq_ok {blocks blocks' : ExtTreeMap BlockId Block} {records : List EdgeRecord} :
    collectEdges blocks records = .ok blocks' ↔
      (∀ r ∈ records, r.source ∈ blocks) ∧
        blocks' = blocks.map fun id b => withEdges b (edgesOf records id) := by
  induction records generalizing blocks with
  | nil =>
    have hnone : (blocks.map fun _ b => withEdges b []) = blocks := by
      apply ExtTreeMap.ext_getElem?
      intro k
      rw [ExtTreeMap.getElem?_map]
      cases blocks[k]? <;> simp [withEdges]
    simp [collectEdges, edgesOf, hnone, eq_comm]
  | cons r rest ih =>
    rw [collectEdges]
    by_cases hr : r.source ∈ blocks
    · rw [if_pos hr, ih]
      -- an edge joins the edges of its source now, or comes first among those that are still to
      -- join it
      have hmap : ((blocks.modify r.source fun b => { b with edges := b.edges ++ [r.edge] }).map
            fun id b => withEdges b (edgesOf rest id)) =
          blocks.map fun id b => withEdges b (edgesOf (r :: rest) id) := by
        apply ExtTreeMap.ext_getElem?
        intro k
        rw [ExtTreeMap.getElem?_map, ExtTreeMap.getElem?_map, ExtTreeMap.getElem?_modify, edgesOf_cons]
        by_cases hk : r.source = k
        · subst hk
          cases blocks[r.source]? <;> simp [withEdges]
        · simp [hk]
      simp only [ExtTreeMap.mem_modify, List.mem_cons, forall_eq_or_imp, hr, true_and, hmap]
    · simp [hr]

/-- The blocks of a body, without edges. -/
def bareBlocks (body : Body) : ExtTreeMap BlockId Block :=
  .ofList (body.blocks.map fun r => (r.id, r.block))

/-- The document that a body amounts to. -/
def assembled (body : Body) : Document :=
  .ofParts body.root (body.bareBlocks.map fun id b => withEdges b (edgesOf body.edges id))
    (body.bareBlocks.map fun _ b => b.children) { policy := body.policy }

theorem mem_bareBlocks {body : Body} {id : BlockId} :
    id ∈ body.bareBlocks ↔ id ∈ body.blocks.map BlockRecord.id := by
  rw [bareBlocks, ExtTreeMap.mem_ofList, List.contains_iff_mem, List.map_map]
  rfl

theorem contains_assembled {body : Body} {id : BlockId} :
    body.assembled.contains id = true ↔ id ∈ body.blocks.map BlockRecord.id := by
  rw [← mem_bareBlocks, assembled, Document.ofParts, Document.contains, ExtTreeMap.contains_iff_mem,
    ExtTreeMap.mem_map]

/-- **What bodies are accepted**, and what becomes of them. -/
theorem document_eq_ok {body : Body} {d : Document} :
    body.document = .ok d ↔
      (body.blocks.map BlockRecord.id).Nodup ∧ body.root ∈ body.blocks.map BlockRecord.id ∧
        (∀ r ∈ body.edges, r.source ∈ body.blocks.map BlockRecord.id) ∧ d = body.assembled := by
  have hblocks : collectBlocks ∅ body.blocks = .ok body.bareBlocks ↔
      (body.blocks.map BlockRecord.id).Nodup := by
    rw [collectBlocks_eq_ok, Map.insertMany_eq_ofList]
    exact ⟨fun h => h.2.1, fun h => ⟨fun _ _ => ExtTreeMap.not_mem_empty, h, rfl⟩⟩
  have hedges : collectEdges body.bareBlocks body.edges =
        .ok (body.bareBlocks.map fun id b => withEdges b (edgesOf body.edges id)) ↔
      ∀ r ∈ body.edges, r.source ∈ body.blocks.map BlockRecord.id := by
    simp only [collectEdges_eq_ok, mem_bareBlocks, and_true]
  constructor
  · intro h
    cases hb : collectBlocks ∅ body.blocks with
    | error fault =>
      rw [document, hb] at h
      cases h
    | ok blocks =>
      obtain rfl : blocks = body.bareBlocks :=
        (collectBlocks_eq_ok.mp hb).2.2.trans (Map.insertMany_eq_ofList _)
      rw [document, hb] at h
      by_cases hroot : body.root ∈ body.bareBlocks
      · cases he : collectEdges body.bareBlocks body.edges with
        | error fault =>
          simp only [bind, Except.bind, hroot, not_true_eq_false, if_false, he] at h
          cases h
        | ok blocks' =>
          obtain rfl := (collectEdges_eq_ok.mp he).2
          simp only [bind, Except.bind, hroot, not_true_eq_false, if_false, he] at h
          cases h
          exact ⟨hblocks.mp hb, mem_bareBlocks.mp hroot, hedges.mp he, rfl⟩
      · simp only [bind, Except.bind, hroot, not_false_eq_true, if_true] at h
        cases h
  · rintro ⟨hnd, hroot, hsource, rfl⟩
    rw [← mem_bareBlocks] at hroot
    rw [document, hblocks.mpr hnd]
    simp only [bind, Except.bind, hroot, not_true_eq_false, if_false, hedges.mpr hsource]
    rfl

/-! ## What a body amounts to, seen through its records -/

/-- Where ids differ, each record is found under its id. -/
theorem getElem?_bareBlocks {body : Body} (h : (body.blocks.map BlockRecord.id).Nodup)
    {id : BlockId} {b : Block} :
    body.bareBlocks[id]? = some b ↔ ∃ r ∈ body.blocks, r.id = id ∧ r.block = b := by
  have hdistinct : (body.blocks.map fun r => (r.id, r.block)).Pairwise
      fun a b => ¬ compare a.1 b.1 = .eq := by
    rw [List.pairwise_map]
    exact (List.pairwise_map.mp h).imp fun hne heq =>
      hne (Std.LawfulEqCmp.compare_eq_iff_eq.mp heq)
  have hget {r : BlockRecord} (hr : r ∈ body.blocks) : body.bareBlocks[r.id]? = some r.block :=
    ExtTreeMap.getElem?_ofList_of_mem Std.ReflCmp.compare_self hdistinct
      (List.mem_map_of_mem (f := fun r => (r.id, r.block)) hr)
  constructor
  · intro hb
    have hid : id ∈ body.bareBlocks := by
      rw [ExtTreeMap.mem_iff_isSome_getElem?, hb]
      rfl
    obtain ⟨r, hr, rfl⟩ := List.mem_map.mp (mem_bareBlocks.mp hid)
    rw [hget hr] at hb
    exact ⟨r, hr, rfl, Option.some.inj hb⟩
  · rintro ⟨r, hr, rfl, rfl⟩
    exact hget hr

/-- A block has the edges that are recorded for it. -/
theorem block?_assembled {body : Body} (h : (body.blocks.map BlockRecord.id).Nodup) {id : BlockId}
    {b : Block} :
    body.assembled.block? id = some b ↔
      ∃ r ∈ body.blocks, r.id = id ∧ b = withEdges r.block (edgesOf body.edges id) := by
  rw [Document.block?, assembled, Document.ofParts, ExtTreeMap.getElem?_map, Option.map_eq_some_iff]
  constructor
  · rintro ⟨b, hb, rfl⟩
    obtain ⟨r, hr, hid, rfl⟩ := (getElem?_bareBlocks h).mp hb
    exact ⟨r, hr, hid, rfl⟩
  · rintro ⟨r, hr, hid, rfl⟩
    exact ⟨r.block, (getElem?_bareBlocks h).mpr ⟨r, hr, hid, rfl⟩, rfl⟩

/-- What is assembled is in step, whatever tree it is. -/
theorem lockStep_assembled {body : Body} (h : (body.blocks.map BlockRecord.id).Nodup)
    (hroot : body.root ∈ body.blocks.map BlockRecord.id) : body.assembled.LockStep where
  stored id b hb := by
    obtain ⟨r, -, hid, rfl⟩ := (block?_assembled h).mp hb
    exact hid
  root_mem := by
    obtain ⟨r, hr, hid⟩ := List.mem_map.mp hroot
    exact Document.contains_iff.mpr ⟨_, (block?_assembled h).mpr ⟨r, hr, hid, rfl⟩⟩
  tree_eq id := by
    rw [Document.block?, assembled, Document.ofParts, ExtTreeMap.getElem?_map,
      ExtTreeMap.getElem?_map, Option.map_map]
    rfl

/-! ## The records of a document -/

/-- The records of a block, and of no other one, carry its id. -/
theorem filter_blocks_ofDocument (d : Document) (id : BlockId) :
    (ofDocument d).blocks.filter (·.id = id) =
      ((d.block? id).map fun b => ⟨id, b.content, b.metadata, b.children⟩).toList := by
  rw [ofDocument, List.filter_map]
  have hentry := Map.filter_toList d.blocks id
  simp only [Function.comp_def, hentry, Document.block?]
  cases d.blocks[id]? <;> rfl

theorem filter_edges_ofDocument (d : Document) (id : BlockId) :
    (ofDocument d).edges.filter (·.source = id) =
      (((d.block? id).map Block.edges).getD []).map (⟨id, ·⟩) := by
  have hentry := Map.filter_toList d.blocks id
  have hskip : (ofDocument d).edges.filter (·.source = id) =
      (d.blocks.toList.filter (·.1 = id)).flatMap fun e => e.2.edges.map (⟨e.1, ·⟩) := by
    rw [ofDocument, List.filter_flatMap]
    induction d.blocks.toList with
    | nil => rfl
    | cons e entries ih =>
      rw [List.flatMap_cons, ih, List.filter_cons]
      by_cases he : e.1 = id <;> simp [he, List.filter_map, Function.comp_def]
  rw [hskip, hentry, Document.block?]
  cases d.blocks[id]? <;> simp

theorem pairwise_blocks_ofDocument (d : Document) :
    (ofDocument d).blocks.Pairwise (keyLE BlockRecord.id · ·) := by
  rw [ofDocument, List.pairwise_map]
  refine ExtTreeMap.ordered_keys_toList.imp fun h => ?_
  rw [keyLE, h]
  rfl

theorem pairwise_edges_ofDocument (d : Document) :
    (ofDocument d).edges.Pairwise (keyLE EdgeRecord.source · ·) := by
  rw [ofDocument, List.pairwise_flatMap]
  refine ⟨fun e _ => ?_, ExtTreeMap.ordered_keys_toList.imp fun h r hr r' hr' => ?_⟩
  · rw [List.pairwise_map]
    exact List.pairwise_of_forall fun _ _ => keyLE_of_eq rfl
  · obtain ⟨edge, -, rfl⟩ := List.mem_map.mp hr
    obtain ⟨edge', -, rfl⟩ := List.mem_map.mp hr'
    rw [keyLE, h]
    rfl

/-- Taking note of ids does not change how new ones are made. -/
theorem policy_foldl_observe (ids : List BlockId) (a : Allocator) :
    (ids.foldl Allocator.observe a).policy = a.policy := by
  induction ids generalizing a with
  | nil => rfl
  | cons id ids ih =>
    rw [List.foldl_cons, ih, Allocator.observe]
    split <;> rfl

/-- An id without a record has no block. -/
theorem block?_assembled_eq_none {body : Body} (h : (body.blocks.map BlockRecord.id).Nodup)
    {id : BlockId} (hid : id ∉ body.blocks.map BlockRecord.id) :
    body.assembled.block? id = none := by
  refine Option.eq_none_iff_forall_ne_some.mpr fun b hb => hid ?_
  obtain ⟨r, hr, rfl, -⟩ := (block?_assembled h).mp hb
  exact List.mem_map_of_mem hr

theorem blocks_ofDocument_assembled {body : Body} (h : (body.blocks.map BlockRecord.id).Nodup) :
    (ofDocument body.assembled).blocks = body.blocks.mergeSort (keyLE BlockRecord.id) := by
  refine eq_mergeSort (pairwise_blocks_ofDocument _) fun id => ?_
  rw [filter_blocks_ofDocument]
  by_cases hid : id ∈ body.blocks.map BlockRecord.id
  · obtain ⟨r, hr, rfl⟩ := List.mem_map.mp hid
    rw [(block?_assembled h).mpr ⟨r, hr, rfl, rfl⟩, filter_key_eq_singleton h hr]
    rfl
  · rw [block?_assembled_eq_none h hid, List.filter_eq_nil_iff.mpr fun r hr => ?_]
    · rfl
    · simpa using fun hr' : r.id = id => hid (hr' ▸ List.mem_map_of_mem hr)

theorem edges_ofDocument_assembled {body : Body} (h : (body.blocks.map BlockRecord.id).Nodup)
    (hsource : ∀ r ∈ body.edges, r.source ∈ body.blocks.map BlockRecord.id) :
    (ofDocument body.assembled).edges = body.edges.mergeSort (keyLE EdgeRecord.source) := by
  refine eq_mergeSort (pairwise_edges_ofDocument _) fun id => ?_
  rw [filter_edges_ofDocument]
  by_cases hid : id ∈ body.blocks.map BlockRecord.id
  · obtain ⟨r, hr, rfl⟩ := List.mem_map.mp hid
    rw [(block?_assembled h).mpr ⟨r, hr, rfl, rfl⟩]
    show ((body.edges.filter (·.source = r.id)).map EdgeRecord.edge).map (EdgeRecord.mk r.id) = _
    rw [List.map_map]
    refine (List.map_congr_left fun e he => ?_).trans (List.map_id _)
    have hsame : e.source = r.id := by simpa using List.of_mem_filter he
    rw [Function.comp_apply, ← hsame, id_eq]
  · rw [block?_assembled_eq_none h hid, List.filter_eq_nil_iff.mpr fun r hr => ?_]
    · rfl
    · simpa using fun hr' : r.source = id => hid (hr' ▸ hsource r hr)

/-- The records of what a body amounts to are those of the body, in order. -/
theorem ofDocument_assembled {body : Body} (h : (body.blocks.map BlockRecord.id).Nodup)
    (hsource : ∀ r ∈ body.edges, r.source ∈ body.blocks.map BlockRecord.id) :
    ofDocument body.assembled =
      { body with
        blocks := body.blocks.mergeSort (keyLE BlockRecord.id)
        edges := body.edges.mergeSort (keyLE EdgeRecord.source) } := by
  have hpolicy : (ofDocument body.assembled).policy = body.policy := policy_foldl_observe _ _
  rw [← blocks_ofDocument_assembled h, ← edges_ofDocument_assembled h hsource, ← hpolicy]
  rfl

/-- The body of a document whose blocks and tree are in step amounts to that document, with a source
of ids of the same kind. -/
theorem assembled_ofDocument {d : Document} (h : d.LockStep) :
    (ofDocument d).assembled = .ofParts d.root d.blocks d.tree { policy := d.allocator.policy } := by
  have hbare : (ofDocument d).bareBlocks = d.blocks.map fun id b =>
      { id, content := b.content, metadata := b.metadata, children := b.children } := by
    rw [bareBlocks, ofDocument, List.map_map, ← Map.ofList_toList (d.blocks.map _),
      ExtTreeMap.toList_map]
    rfl
  have hblocks : (ofDocument d).bareBlocks.map
      (fun id b => withEdges b (edgesOf (ofDocument d).edges id)) = d.blocks := by
    apply ExtTreeMap.ext_getElem?
    intro id
    rw [hbare, ExtTreeMap.getElem?_map, ExtTreeMap.getElem?_map]
    cases hb : d.blocks[id]? with
    | none => rfl
    | some b =>
      have hid : b.id = id := h.stored id b hb
      have hedges : edgesOf (ofDocument d).edges id = b.edges := by
        rw [edgesOf, filter_edges_ofDocument, Document.block?, hb, List.map_map]
        exact List.map_id _
      simp only [Option.map_some, withEdges, hedges, List.nil_append]
      rw [← hid]
  have htree : ((ofDocument d).bareBlocks.map fun _ b => b.children) = d.tree := by
    apply ExtTreeMap.ext_getElem?
    intro id
    rw [h.tree_eq, hbare, ExtTreeMap.getElem?_map, ExtTreeMap.getElem?_map, Document.block?,
      Option.map_map]
    rfl
  rw [assembled, hblocks, htree]
  rfl

/-- A document has one record for each of its blocks. -/
theorem ids_ofDocument (d : Document) : (ofDocument d).blocks.map BlockRecord.id = d.blocks.keys := by
  rw [ofDocument, List.map_map, ← ExtTreeMap.map_fst_toList_eq_keys]
  rfl

/-- The recorded edges leave blocks. -/
theorem source_mem_ofDocument {d : Document} {r : EdgeRecord} (hr : r ∈ (ofDocument d).edges) :
    r.source ∈ d.blocks.keys := by
  obtain ⟨e, he, hr⟩ := List.mem_flatMap.mp hr
  obtain ⟨edge, -, rfl⟩ := List.mem_map.mp hr
  rw [← ExtTreeMap.map_fst_toList_eq_keys]
  exact List.mem_map_of_mem he

theorem document_ofDocument {d : Document} (h : d.LockStep) :
    (ofDocument d).document =
      .ok (.ofParts d.root d.blocks d.tree { policy := d.allocator.policy }) := by
  rw [document_eq_ok, ids_ofDocument]
  exact ⟨ExtTreeMap.nodup_keys, ExtTreeMap.mem_keys.mpr (ExtTreeMap.contains_iff_mem.mp h.root_mem),
    fun r hr => source_mem_ofDocument hr, (assembled_ofDocument h).symm⟩

/-- **Records lose nothing.** The body of a document whose blocks and tree are in step is accepted, and
gives back its root, its policy, its tree and its blocks. Whatever body is accepted, the document that
it gives is in step, and has the records of that body, with blocks in the order of ids and edges in
the order of their sources. -/
theorem document_ofDocument_and_ofDocument_document :
    (∀ d : Document, d.LockStep →
      Header.check ⟨formatName, formatVersion⟩ = .ok () ∧
      ∃ d', (ofDocument d).document = .ok d' ∧ d'.root = d.root ∧
        d'.allocator.policy = d.allocator.policy ∧ d'.tree = d.tree ∧ d'.blocks = d.blocks) ∧
    ∀ (header : Header) (body : Body) (d : Document),
      header.check = .ok () → body.document = .ok d →
      header = ⟨formatName, formatVersion⟩ ∧ d.LockStep ∧
      ofDocument d =
        { body with
          blocks := body.blocks.mergeSort (keyLE BlockRecord.id)
          edges := body.edges.mergeSort (keyLE EdgeRecord.source) } := by
  refine ⟨fun d h => ⟨rfl, _, document_ofDocument h, rfl, policy_foldl_observe _ _, rfl, rfl⟩,
    fun header body d hheader hbody => ?_⟩
  obtain ⟨hnd, hroot, hsource, rfl⟩ := document_eq_ok.mp hbody
  refine ⟨?_, lockStep_assembled hnd hroot, ofDocument_assembled hnd hsource⟩
  rw [Header.check] at hheader
  split at hheader
  · cases hheader
  · split at hheader
    · cases hheader
    · rename_i hformat hversion
      rw [← not_not.mp hformat, ← not_not.mp hversion]

/-- Two blocks that are children of each other, one of which also lists a child that is no block, with
an edge that is recorded twice around another one. -/
def tangled : Body where
  policy := .contentAddressed
  root := ⟨"b"⟩
  blocks := [⟨⟨"b"⟩, .math "y", {}, [⟨"a"⟩, ⟨"x"⟩]⟩, ⟨⟨"a"⟩, .text "", {}, [⟨"b"⟩]⟩]
  edges :=
    [⟨⟨"b"⟩, { relation := .references, target := ⟨"x"⟩ }⟩,
      ⟨⟨"a"⟩, { relation := .supports, target := ⟨"a"⟩ }⟩,
      ⟨⟨"b"⟩, { relation := .references, target := ⟨"x"⟩ }⟩]

/-- It is accepted as it is, and its records come back with edges grouped. -/
theorem document_tangled :
    ∃ d, tangled.document = .ok d ∧ d.LockStep ∧
      (ofDocument d).edges.map (fun r => r.source.text) = ["a", "b", "b"] ∧
      ∃ d', (ofDocument d).document = .ok d' ∧ d'.tree = d.tree ∧ d'.blocks = d.blocks := by
  obtain ⟨hout, hin⟩ := document_ofDocument_and_ofDocument_document
  have hd : tangled.document = .ok tangled.assembled :=
    document_eq_ok.mpr ⟨by decide, by decide, by decide, rfl⟩
  obtain ⟨-, hstep, hrecords⟩ := hin ⟨formatName, formatVersion⟩ tangled _ rfl hd
  obtain ⟨-, d', hd', -, -, htree, hblocks⟩ := hout _ hstep
  refine ⟨_, hd, hstep, ?_, d', hd', htree, hblocks⟩
  rw [hrecords]
  cbv

end Body

end Archive

end BlockDocument
