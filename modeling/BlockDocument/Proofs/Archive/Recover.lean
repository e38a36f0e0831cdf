import BlockDocument.Proofs.Archive.Decode
import BlockDocument.Proofs.Document.Ranged

/-!
# Parts that are saved and recovered

What comes of each part of a document that is written and decoded again. `recovered?` is there for
every kind of part, and absent where the text is refused: a number that is not finite is written as
null, which is no attribute, and JSON that nests too deep is no content. All other parts can be
saved (`isStorable`). What they lose is little: a confidence that is not finite, the notation of
numbers, the current time of stamps, and of members with the same key all but one.
-/

namespace BlockDocument

open Archive Json Number

/-! ## Attributes -/

/-- A number as it is read back in a format, if it is written as a number. -/
def Archive.recoveredNumber? (f : Format) (n : Json.Number) : Option (Binary f) :=
  (n.numeral?.bind Numeral.value?).map (toBinary f)

/-- Whether an attribute can be saved: all can but the numbers that are not finite. -/
def Attribute.isStorable : Attribute → Bool
  | .number x => x.isFinite
  | _ => true

/-- An attribute as it is read back. -/
def Attribute.recovered? : Attribute → Option Attribute
  | .flag b => some (.flag b)
  | .number x => (recoveredNumber? binary64 (.double x)).map .number
  | .text s => some (.text s)

/-- Whether attributes can be saved. -/
def Attributes.isStorable (a : Attributes) : Bool := a.toList.all fun e => e.2.isStorable

/-- An attribute with its name as it is read back. -/
def Attributes.recoveredEntry? (e : String × Attribute) : Option (String × Attribute) :=
  e.2.recovered?.map (e.1, ·)

/-- Attributes as they are read back. -/
def Attributes.recovered? (a : Attributes) : Option Attributes :=
  (a.toList.mapM recoveredEntry?).map fun entries => .ofList entries

namespace Archive

theorem binary?_ofNumber (f : Format) (n : Json.Number) :
    binary? f (Source.ofNumber n) = recoveredNumber? f n := by
  rw [Source.ofNumber, recoveredNumber?]
  cases n.numeral? <;> rfl

theorem isSome_recoveredNumber? {f : Format} {n : Json.Number} (hn : n.Ranged) :
    (recoveredNumber? f n).isSome = n.numeral?.isSome := by
  rw [recoveredNumber?, Option.isSome_map]
  cases hm : n.numeral? with
  | none => rfl
  | some m => exact Number.isSome_value? hn hm

theorem attribute?_attributeValue (a : Attribute) :
    attribute? (Source.ofValue (attributeValue a)) = a.recovered? := by
  cases a with
  | flag b => rfl
  | text s => rfl
  | number x =>
    have h := binary?_ofNumber binary64 (.double x)
    rw [attributeValue, Source.ofValue, Attribute.recovered?, ← h, Source.ofNumber]
    cases (Json.Number.double x).numeral? <;> rfl

theorem isSome_recovered?_attribute (a : Attribute) : a.recovered?.isSome = a.isStorable := by
  cases a with
  | flag b => rfl
  | text s => rfl
  | number x =>
    have h : (recoveredNumber? binary64 (.double x)).isSome =
        (Json.Number.double x).numeral?.isSome :=
      isSome_recoveredNumber? trivial
    rw [Attribute.recovered?, Option.isSome_map, h, Number.isSome_numeral?_double,
      Attribute.isStorable]

theorem attributes?_attributesValue (a : Attributes) :
    attributes? (Source.ofValue (attributesValue a)) = a.recovered? := by
  rw [attributesValue, Source.ofValue, attributes?, members?_ofMembers, List.map_map]
  have hstep : (fun e : String × Source => (attribute? e.2).map (e.1, ·)) ∘
      ((fun m : String × Value => (m.1, Source.ofValue m.2)) ∘
        fun e : String × Attribute => (e.1, attributeValue e.2)) = Attributes.recoveredEntry? := by
    funext e
    exact congrArg (Option.map (e.1, ·)) (attribute?_attributeValue e.2)
  rw [Option.bind_eq_bind, Option.bind_some, List.mapM_map, hstep, Attributes.recovered?,
    Option.map_eq_bind]
  rfl

theorem isSome_recovered?_attributes (a : Attributes) : a.recovered?.isSome = a.isStorable := by
  rw [Attributes.recovered?, Option.isSome_map, Bool.eq_iff_iff, isSome_mapM, Attributes.isStorable,
    List.all_eq_true]
  simp only [Attributes.recoveredEntry?, Option.isSome_map, isSome_recovered?_attribute]

end Archive

/-! ## Contents -/

/-- Whether a content can be saved: all can but JSON that nests too deep. -/
def Content.isStorable : Content → Bool
  | .json v => decide (v.nesting < contentDepth)
  | _ => true

/-- A content as it is read back. -/
def Content.recovered? : Content → Option Content
  | .json v => if v.nesting < contentDepth then some (.json v.reread) else none
  | c => some c

/-- The value of a row of cells. -/
def Archive.rowValue (row : List String) : Value := .array (row.map .string)

/-- The value of the rows of a table. -/
def Archive.rowsValue (rows : List (List String)) : Value := .array (rows.map rowValue)

namespace Archive

theorem ranged_rowsValue (rows : List (List String)) : (rowsValue rows).Ranged := by
  refine Value.rangedItems_iff.mpr fun v hv => ?_
  obtain ⟨row, -, rfl⟩ := List.mem_map.mp hv
  refine Value.rangedItems_iff.mpr fun v hv => ?_
  obtain ⟨s, -, rfl⟩ := List.mem_map.mp hv
  trivial

theorem nesting_rowsValue (rows : List (List String)) : (rowsValue rows).nesting ≤ 2 := by
  refine Nat.succ_le_succ (Value.nestingItems_le.mpr fun v hv => ?_)
  obtain ⟨row, -, rfl⟩ := List.mem_map.mp hv
  refine Nat.succ_le_succ (Value.nestingItems_le.mpr fun v hv => ?_)
  obtain ⟨s, -, rfl⟩ := List.mem_map.mp hv
  exact Nat.le_refl 0

theorem reread_rowsValue (rows : List (List String)) : (rowsValue rows).reread = rowsValue rows := by
  have hcells (row : List String) : Value.rereadItems (row.map .string) = row.map .string := by
    induction row with
    | nil => rfl
    | cons s row ih => rw [List.map_cons, Value.rereadItems, Value.reread, ih]
  have hrows : Value.rereadItems (rows.map rowValue) = rows.map rowValue := by
    induction rows with
    | nil => rfl
    | cons row rows ih =>
      rw [List.map_cons, Value.rereadItems, rowValue, Value.reread, hcells, ih]
  rw [rowsValue, Value.reread, hrows]

theorem mapM_rowOf?_rowValue (rows : List (List String)) :
    (rows.map rowValue).mapM rowOf? = some rows := by
  have hrow (row : List String) : rowOf? (rowValue row) = some row := by
    rw [rowValue, rowOf?, List.mapM_map,
      mapM_eq_map (f := stringOf? ∘ Value.string) (g := id) (fun _ _ => rfl), List.map_id]
  rw [List.mapM_map, mapM_eq_map (f := rowOf? ∘ rowValue) (g := id) (fun row _ => hrow row),
    List.map_id]

/-- The members of a content that can be saved are read back. -/
theorem entries?_contentEntries {c : Content} (hc : c.Ranged) (h : c.isStorable = true) :
    Source.entries? (contentDepth - 1) []
        (Source.ofMembers (("type", .string c.kind.name) :: contentEntries c)) =
      some (("type", .string c.kind.name) :: Value.rereadMembers (contentEntries c)) := by
  refine Source.entries?_ofMembers (fun m hm => ?_) []
  rcases List.mem_cons.mp hm with rfl | hm
  · rfl
  cases c with
  | text s =>
    obtain rfl := List.mem_singleton.mp hm
    rfl
  | code language source =>
    rcases List.mem_pair.mp hm with rfl | rfl <;> rfl
  | table rows =>
    obtain rfl := List.mem_singleton.mp hm
    exact Source.value?_ofValue (ranged_rowsValue rows)
      ((nesting_rowsValue rows).trans (by decide))
  | json v =>
    obtain rfl := List.mem_singleton.mp hm
    exact Source.value?_ofValue hc (Nat.le_pred_of_lt (of_decide_eq_true h))
  | math expression =>
    obtain rfl := List.mem_singleton.mp hm
    rfl

/-- JSON that nests too deep is not read back. -/
theorem entries?_contentEntries_json {v : Value} (h : ¬ v.nesting < contentDepth) :
    Source.entries? (contentDepth - 1) []
      (Source.ofMembers (("type", .string ContentKind.json.name) :: contentEntries (.json v))) =
        none := by
  by_contra hsome
  have hmem : (some "value", Source.ofValue v) ∈
      Source.ofMembers (("type", .string ContentKind.json.name) :: contentEntries (.json v)) :=
    .tail _ (.head _)
  have hv := Source.isSome_of_entries? (Option.isSome_iff_ne_none.mpr hsome) _ hmem
  exact h (Nat.lt_of_le_pred (by decide) (Source.nesting_le_of_value? hv))

theorem content?_contentValue {c : Content} (hc : c.Ranged) :
    content? (Source.ofValue (contentValue c)) = c.recovered? := by
  rw [contentValue, Source.ofValue, content?]
  cases c with
  | text s => rw [entries?_contentEntries hc rfl]; rfl
  | code language source => rw [entries?_contentEntries hc rfl]; rfl
  | math expression => rw [entries?_contentEntries hc rfl]; rfl
  | table rows =>
    have hparts : Value.rereadMembers (contentEntries (.table rows)) = [("rows", rowsValue rows)] :=
      congrArg (fun v => [("rows", v)]) (reread_rowsValue rows)
    rw [entries?_contentEntries hc rfl, hparts]
    show ((rows.map rowValue).mapM rowOf?).map Content.table = _
    rw [mapM_rowOf?_rowValue]
    rfl
  | json v =>
    rw [Content.recovered?]
    split_ifs with h
    · rw [entries?_contentEntries hc (decide_eq_true h)]
      rfl
    · rw [Content.kind, entries?_contentEntries_json h]
      rfl

theorem isSome_recovered?_content (c : Content) : c.recovered?.isSome = c.isStorable := by
  cases c with
  | json v =>
    rw [Content.recovered?, Content.isStorable]
    split_ifs with h <;> simp [h]
  | _ => rfl

end Archive

/-! ## Metadata -/

/-- A stamp as it is read back. -/
def Stamp.recovered (now : Time.Instant) (s : Stamp) : Stamp := .recorded (instantOf now s).reread

/-- Metadata as they are read back. -/
def Metadata.recovered? (now : Time.Instant) (m : Metadata) : Option Metadata :=
  m.attributes.recovered?.map fun attributes =>
    { m with attributes, created := m.created.recovered now, modified := m.modified.recovered now }

theorem Stamp.Ranged.instantOf {now : Time.Instant} (hnow : now.Ranged) {s : Stamp}
    (h : s.Ranged) : (instantOf now s).Ranged := by
  cases s with
  | recorded time => exact h
  | current => exact hnow

namespace Archive

theorem ofList_toList (tags : Std.ExtTreeSet String) :
    Std.ExtTreeSet.ofList tags.toList compare = tags := by
  apply Std.ExtTreeSet.ext_mem
  simp

theorem metadata?_metadataValue {now : Time.Instant} (hnow : now.Ranged) {m : Metadata}
    (hm : m.Ranged) : metadata? (Source.ofValue (metadataValue now m)) = m.recovered? now := by
  obtain ⟨fields, hrecord, hfields⟩ := exists_record?_ofValue
    ["semantic_role", "label", "tags", "custom", "token_estimate", "created_at", "modified_at"] 0
    (rfl : metadataValue now m = _) (by simp)
  simp only [List.forall_mem_cons, List.lookup, String.reduceBEq, Option.map_some] at hfields
  obtain ⟨hrole, hlabel, htags, hattributes, htokens, hcreated, hmodified, -⟩ := hfields
  have hrole : fields.optional "semantic_role" (named? roleOf?) = some m.role := by
    rw [textOrNull_eq, Option.map_map] at hrole
    exact optional_eq hrole fun r _ => ⟨Source.noConfusion, roleOf?_name r⟩
  have hlabel := optional_textOrNull hlabel
  have htags := (required_eq htags).trans (list?_texts m.tags.toList)
  have hattributes := (required_eq hattributes).trans (attributes?_attributesValue m.attributes)
  have htokens : fields.optional "token_estimate" word32? = some m.tokenEstimate :=
    optional_eq htokens fun n hn => ⟨Source.noConfusion, word32?_natValue (hm.tokenEstimate n hn)⟩
  have hcreated := (required_eq hcreated).trans (time?_stampValue (hm.created.instantOf hnow))
  have hmodified := (required_eq hmodified).trans (time?_stampValue (hm.modified.instantOf hnow))
  simp only [metadata?, hrecord, hrole, hlabel, htags, hattributes, htokens, hcreated, hmodified,
    bind, Option.bind, pure, ofList_toList, Metadata.recovered?, Option.map_eq_bind]
  rfl

end Archive

/-! ## Edges -/

/-- A note as it is read back: a confidence that is not finite is lost. -/
def Note.recovered? (n : Note) : Option Note :=
  n.attributes.recovered?.map fun attributes =>
    { n with
      attributes
      confidence := n.confidence.bind fun x => recoveredNumber? binary32 (.single x) }

/-- An edge as it is read back. -/
def Archive.EdgeRecord.recovered? (now : Time.Instant) (r : EdgeRecord) : Option EdgeRecord :=
  r.edge.note.recovered?.map fun note =>
    { r with edge := { r.edge with note, created := r.edge.created.recovered now } }

theorem Note.eq_of_isEmpty {n : Note} (h : n.isEmpty = true) : n = {} := by
  obtain ⟨confidence, description, attributes⟩ := n
  simp only [Note.isEmpty, Bool.and_eq_true, Option.isNone_iff_eq_none] at h
  obtain ⟨⟨rfl, rfl⟩, hattributes⟩ := h
  rw [Std.ExtTreeMap.isEmpty_iff.mp hattributes]

theorem Note.recovered?_default : Note.recovered? {} = some {} := by
  have hnil : (∅ : Attributes).toList = [] := rfl
  simp only [Note.recovered?, Attributes.recovered?, hnil]
  rfl

namespace Archive

theorem optional_confidence {fields : Fields} {name : String} {x : Option Single}
    (h : fields.lookup name =
      some (Source.ofValue ((x.map fun x => .number (.single x)).getD .null))) :
    fields.optional name (binary? binary32) =
      some (x.bind fun x => recoveredNumber? binary32 (.single x)) := by
  cases x with
  | none =>
    rw [Fields.optional, h]
    rfl
  | some x =>
    have hsource : fields.lookup name = some (Source.ofNumber (.single x)) := h
    have hbinary := binary?_ofNumber binary32 (.single x)
    have hsome := isSome_recoveredNumber? (f := binary32) (n := .single x) trivial
    rw [Fields.optional, hsource, Option.bind_some, ← hbinary]
    rw [← hbinary] at hsome
    rw [Source.ofNumber] at hsome ⊢
    cases hm : (Json.Number.single x).numeral? with
    | none => rfl
    | some m =>
      rw [hm] at hsome
      obtain ⟨y, hy⟩ := Option.isSome_iff_exists.mp hsome
      exact (congrArg (Option.map some) hy).trans (congrArg some hy.symm)

theorem note?_noteValue (n : Note) : note? (Source.ofValue (noteValue n)) = n.recovered? := by
  obtain ⟨fields, hrecord, hfields⟩ := exists_record?_ofValue
    ["confidence", "description", "custom"] 0 (rfl : noteValue n = _) (by simp)
  simp only [List.forall_mem_cons, List.lookup, String.reduceBEq, Option.map_some] at hfields
  obtain ⟨hconfidence, hdescription, hattributes, -⟩ := hfields
  have hconfidence := optional_confidence hconfidence
  have hdescription := optional_textOrNull hdescription
  have hattributes := (required_eq hattributes).trans (attributes?_attributesValue n.attributes)
  simp only [note?, hrecord, hconfidence, hdescription, hattributes, bind, Option.bind, pure,
    Note.recovered?, Option.map_eq_bind]
  rfl

theorem edge?_edgeValue {now : Time.Instant} (hnow : now.Ranged) {r : EdgeRecord}
    (hr : r.edge.created.Ranged) :
    edge? (Source.ofValue (edgeValue now r)) = r.recovered? now := by
  obtain ⟨fields, hrecord, hfields⟩ := exists_record?_ofValue
    ["source", "edge_type", "target", "metadata", "created_at"] 0 (rfl : edgeValue now r = _)
    (by split_ifs <;> simp)
  -- A note may be left out, so the fields after it are found by cases.
  have hnote : fields.withDefault "metadata" {} note? = r.edge.note.recovered? := by
    rw [Fields.withDefault, hfields "metadata" (by simp)]
    by_cases hempty : r.edge.note.isEmpty = true
    · rw [if_pos hempty, Note.eq_of_isEmpty hempty, Note.recovered?_default]
      rfl
    · rw [if_neg hempty]
      exact note?_noteValue r.edge.note
  have hcreated : fields.required "created_at" time? =
      some (instantOf now r.edge.created).reread := by
    refine (required_eq ?_).trans (time?_stampValue (hr.instantOf hnow))
    rw [hfields "created_at" (by simp)]
    split_ifs <;> rfl
  simp only [List.forall_mem_cons, List.lookup, List.cons_append, String.reduceBEq] at hfields
  obtain ⟨hsource, hrelation, htarget, -, -, -⟩ := hfields
  have hsource := (required_eq hsource).trans (id?_idValue r.source)
  have hrelation : fields.required "edge_type" (named? relationOf?) = some r.edge.relation :=
    (required_eq hrelation).trans (relationOf?_name r.edge.relation)
  have htarget := (required_eq htarget).trans (id?_idValue r.edge.target)
  simp only [edge?, hrecord, hsource, hrelation, htarget, hnote, hcreated, bind, Option.bind,
    pure, EdgeRecord.recovered?, Option.map_eq_bind]
  rfl

/-! ## Blocks without their edges -/

/-- A block without its edges as it is read back. -/
def BlockRecord.recovered? (now : Time.Instant) (r : BlockRecord) : Option BlockRecord := do
  let content ← r.content.recovered?
  let metadata ← r.metadata.recovered? now
  pure { r with content, metadata }

theorem block?_blockValue {now : Time.Instant} (hnow : now.Ranged) {r : BlockRecord}
    (hc : r.content.Ranged) (hm : r.metadata.Ranged) :
    block? (Source.ofValue (blockValue now r)) = r.recovered? now := by
  obtain ⟨fields, hrecord, hfields⟩ := exists_record?_ofValue
    ["id", "content", "metadata", "children"] 1 (rfl : blockValue now r = _) (by simp)
  simp only [List.forall_mem_cons, List.lookup, String.reduceBEq, Option.map_some] at hfields
  obtain ⟨hid, hcontent, hmetadata, hchildren, -⟩ := hfields
  have hid := (required_eq hid).trans (id?_idValue r.id)
  have hcontent := (required_eq hcontent).trans (content?_contentValue hc)
  have hmetadata := (required_eq hmetadata).trans (metadata?_metadataValue hnow hm)
  have hchildren : fields.withDefault "children" [] (list? id?) = some r.children := by
    rw [Fields.withDefault, hchildren]
    exact list?_ids r.children
  simp only [block?, hrecord, hid, hcontent, hmetadata, hchildren, bind, Option.bind, pure,
    BlockRecord.recovered?]

end Archive

end BlockDocument
