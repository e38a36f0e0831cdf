import BlockDocument.Numbering.Outline
import BlockDocument.Proofs.Document.Change
import BlockDocument.Proofs.Document.Descent
import BlockDocument.Proofs.Numbering.Registry
import BlockDocument.Proofs.Text.Blank

/-!
# Outlines and numbers

An outline goes down the lists of children that blocks hold, a numbering down those that the tree
lists. Where an inspection finds no error the two walks go in step (`outlineWalk_inStep`), so a block
has its line in the place of its number. No block breaks its line in two: whatever its content, what
a line shows of it is flat (`OutlineEntry.flat_line`). An outline asks its reader's numbers for those
of the blocks and nothing else, so the two tables of a numbering give the outline that the numbering
gives, as long as there are numbers enough for all blocks.
-/

namespace BlockDocument

open Std (ExtTreeMap ExtTreeSet)
open Text (Flat)

/-! ## What a line shows -/

/-- An excerpt stays on one line, whatever it is taken from. -/
theorem Content.flat_excerpt (c : Content) (length : Nat) : Flat (c.excerpt length).toList := by
  have hwords := Text.flat_join_words c.excerptSource.toList
  have hdots : Flat ['.', '.', '.'] := by decide
  rw [excerpt]
  split
  · rw [String.toList_ofList]
    exact (hwords.sublist (List.take_sublist ..)).append hdots
  · rwa [String.toList_ofList]

theorem Block.flat_caption (b : Block) : Flat b.caption.toList := by
  rw [caption]
  split
  · rename_i role _
    cases role <;> decide
  · cases b.content.kind <;> decide

theorem flat_toString (k : Nat) : Flat (toString k).toList := by
  intro c hc hblank
  have hdigits : (toString k).toList = Number.digits k := by
    simp [Number.digits, toString, Nat.repr]
  rw [hdigits] at hc
  simp [Text.isBlank_of_isDigit (Number.isDigit_of_mem_digits hc)] at hblank

/-- A line of which the label is flat is flat, whatever the block holds. -/
theorem OutlineEntry.flat_line {short? : BlockId → Option Nat} {e : OutlineEntry}
    (h : Flat (e.label short?).toList) : Flat (e.line short?).toList := by
  have hindent : Flat (List.replicate (2 * e.level) ' ') := by
    intro c hc _
    exact List.eq_of_mem_replicate hc
  have hopen : Flat "[".toList := by decide
  have hclose : Flat "] ".toList := by decide
  have hdash : Flat " - ".toList := by decide
  simp only [line, String.toList_append, String.toList_ofList]
  exact ((((hindent.append hopen).append h).append hclose).append e.block.flat_caption).append hdash
    |>.append (e.block.content.flat_excerpt _)

/-! ## Two walks in step -/

/-- Whether the entry shows a block of the document, as far down as its children lead to it. -/
structure OutlineEntry.Placed (d : Document) (e : OutlineEntry) : Prop where
  stored : d.block? e.id = some e.block
  steps : Steps d.childrenOf d.root e.level e.id

namespace Document

variable {d : Document}

/-- A walk down the blocks of a forest takes every step that a walk down its tree takes. -/
theorem IsForest.outlineWalk_inStep (h : d.IsForest) (fuel : Nat) (work : List (BlockId × Nat))
    (seen : ExtTreeSet BlockId) (met : List OutlineEntry)
    (hwork : ∀ w ∈ work, Steps d.childrenOf d.root w.2 w.1) (hmet : ∀ e ∈ met, e.Placed d) :
    (outlineWalk d.block? fuel work seen met).map OutlineEntry.id =
        preorderWalk d.childrenOf fuel (work.map Prod.fst) seen (met.map OutlineEntry.id) ∧
      ∀ e ∈ outlineWalk d.block? fuel work seen met, e.Placed d := by
  fun_induction outlineWalk d.block? fuel work seen met with
  | case1 work seen met => exact ⟨List.map_reverse, by simpa using hmet⟩
  | case2 fuel seen met =>
    rw [List.map_nil, preorderWalk_done]
    exact ⟨List.map_reverse, by simpa using hmet⟩
  | case3 fuel id level work seen met hid ih =>
    rw [List.map_cons, preorderWalk, if_pos hid]
    exact ih (fun w hw => hwork w (List.mem_cons_of_mem _ hw)) hmet
  | case4 fuel id level work seen met hid hnone ih =>
    -- what children lead to from the root is a block
    have hsteps : Steps d.childrenOf d.root level id := hwork _ List.mem_cons_self
    have hblock : d.contains id = true :=
      hsteps.mem (P := fun y => d.contains y = true) h.root_mem h.child_mem
    simp [contains_eq_isSome, hnone] at hblock
  | case5 fuel id level work seen met hid b hb ih =>
    have hsteps : Steps d.childrenOf d.root level id := hwork _ List.mem_cons_self
    have hchildren : b.children = d.childrenOf id := h.lockstep id b hb
    rw [List.map_cons, preorderWalk, if_neg hid, ← hchildren]
    have hwork' : ∀ w ∈ b.children.map (·, level + 1) ++ work,
        Steps d.childrenOf d.root w.2 w.1 := by
      intro w hw
      rcases List.mem_append.mp hw with hw | hw
      · obtain ⟨c, hc, rfl⟩ := List.mem_map.mp hw
        rw [hchildren] at hc
        exact hsteps.down hc
      · exact hwork w (List.mem_cons_of_mem _ hw)
    have hmet' : ∀ e ∈ (⟨id, b, level⟩ : OutlineEntry) :: met, e.Placed d := by
      intro e he
      rcases List.mem_cons.mp he with rfl | he
      · exact ⟨hb, hsteps⟩
      · exact hmet e he
    simpa [List.map_append, Function.comp_def] using ih hwork' hmet'

/-- The blocks of a forest hold the children that its tree lists. -/
theorem IsForest.pending_eq_heldCount (h : d.IsForest) :
    pending d.childrenOf d.blocks.keys (fun _ => false) = d.heldCount := by
  apply pending_eq_sum
  intro id b hb
  rw [h.lockstep id b hb]

theorem IsForest.outline_inStep (h : d.IsForest) :
    d.outline.map OutlineEntry.id = preorderWalk d.childrenOf (d.heldCount + 1) [d.root] ∅ [] ∧
      ∀ e ∈ d.outline, e.Placed d := by
  apply h.outlineWalk_inStep (d.heldCount + 1) [(d.root, 0)] ∅ []
  · intro w hw
    obtain rfl := List.mem_singleton.mp hw
    exact .start
  · simp

/-- The lines of an outline of a forest are those of its blocks in document order. -/
theorem IsForest.map_id_outline (h : d.IsForest) : d.outline.map OutlineEntry.id = d.order := by
  have hkeys : d.blocks.keys.Nodup := ExtTreeMap.nodup_keys
  have hnone : ∀ x ∉ d.blocks.keys, d.childrenOf x = [] := by
    intro x hx
    apply childrenOf_eq_nil
    intro hmem
    exact hx (ExtTreeMap.mem_keys.mpr (ExtTreeMap.contains_iff_mem.mp (h.parent_mem x hmem)))
  -- either walk has fuel enough, so both do as well with the fuel of the two
  have hheld := preorderWalk_add hkeys hnone d.listedCount (d.heldCount + 1) [d.root] ∅ [] (by
    simp [contains_empty_met, h.pending_eq_heldCount, Nat.add_comm])
  obtain ⟨hlisted, -, -⟩ := d.walks_end d.root d.heldCount
  have hfuel : d.heldCount + 1 + d.listedCount = d.listedCount + 1 + d.heldCount := by omega
  calc d.outline.map OutlineEntry.id
      = preorderWalk d.childrenOf (d.heldCount + 1) [d.root] ∅ [] := h.outline_inStep.1
    _ = preorderWalk d.childrenOf (d.listedCount + 1 + d.heldCount) [d.root] ∅ [] := by
      rw [← hheld, hfuel]
    _ = d.order := by rw [hlisted, h.order_eq_subtree]

end Document

/-! ## Lines and numbers -/

theorem Document.describe_eq (d : Document) (short? : BlockId → Option Nat) :
    d.describe short? = "Document Structure:\n" ++
      String.join ((d.outline.map (OutlineEntry.line short?)).map (· ++ "\n")) := by
  unfold describe
  apply congrArg
  rw [List.map_map, Function.comp_def]

namespace Registry

/-- The outline of a document, with the numbers of a table. -/
def describe (r : Registry) (d : Document) : String := d.describe fun id => r.shorts[id]?

/-- Tables of a numbering give the outlines that the numbering gives. -/
theorem Lists.describe_eq {r : Registry} {n : Numbering} (h : r.Lists n.ids) (d : Document) :
    r.describe d = n.describe d :=
  congrArg d.describe (funext h.short)

end Registry

namespace Numbering

variable {d : Document}

theorem label_of_order {i : Nat} {e : OutlineEntry} (h : d.order[i]? = some e.id) :
    e.label (ofDocument d).short? = toString (i + 1) := by
  rw [OutlineEntry.label, short?_of_long? (nodup_ids_ofDocument d) (long?_of_order h)]

/-- **An outline shows the numbers of its blocks**: where an inspection finds no error, the outline is
its title and then one line for each block that a walk from the root meets, in document order. No line
has a line break in it, whatever the blocks hold. The line of a block is indented by two spaces for
each level of its depth, and starts with the number that stands for the block. The two tables, as long
as there are numbers enough for the blocks, give the same outline and resolve the same numbers. -/
theorem describe_lines (hd : d.Clean) :
    let n := ofDocument d
    let r := Registry.ofDocument d
    ∃ lines : List String,
      n.describe d = "Document Structure:\n" ++ String.join (lines.map (· ++ "\n")) ∧
      (∀ line ∈ lines, '\n' ∉ line.toList) ∧ lines.length = d.order.length ∧
      (∀ i id, d.order[i]? = some id → n.long? (i + 1) = some id ∧
        ∃ depth b, d.depth? id = some depth ∧ d.block? id = some b ∧
          lines[i]? = some (String.ofList (List.replicate (2 * depth) ' ') ++ "[" ++ toString (i + 1) ++
            "] " ++ b.caption ++ " - " ++ b.content.excerpt excerptLength)) ∧
      (d.size ≤ Registry.maxNumber →
        r.describe d = n.describe d ∧ ∀ k, r.longs[k]? = n.long? k) := by
  intro n r
  have h := Document.clean_iff.mp hd
  have hids := h.map_id_outline
  obtain ⟨-, hplaced⟩ := h.outline_inStep
  refine ⟨d.outline.map (OutlineEntry.line n.short?), ?_, ?_, ?_, ?_, ?_⟩
  · exact d.describe_eq n.short?
  · intro line hline
    obtain ⟨e, he, rfl⟩ := List.mem_map.mp hline
    -- an entry of the outline is a block of the order, so its label is a number
    obtain ⟨i, hi⟩ := List.mem_iff_getElem?.mp he
    have horder : d.order[i]? = some e.id := by rw [← hids, List.getElem?_map, hi, Option.map_some]
    apply Text.Flat.newline_not_mem
    apply OutlineEntry.flat_line
    rw [label_of_order horder]
    exact flat_toString _
  · rw [← hids, List.length_map, List.length_map]
  · intro i id hi
    refine ⟨long?_of_order hi, ?_⟩
    have hentry := hi
    rw [← hids, List.getElem?_map, Option.map_eq_some_iff] at hentry
    obtain ⟨e, he, rfl⟩ := hentry
    obtain ⟨hstored, hsteps⟩ := hplaced e (List.mem_of_getElem? he)
    refine ⟨e.level, e.block, h.depth?_eq_some_iff.mpr hsteps, hstored, ?_⟩
    rw [List.getElem?_map, he, Option.map_some, OutlineEntry.line, label_of_order hi]
  · intro hsize
    have hlists := Registry.lists_ofDocument hsize
    exact ⟨hlists.describe_eq d, hlists.long⟩

/-- A text of two lines, and below it code of which the language looks like the line of a block. -/
def crooked : Document :=
  Change.run (.create ⟨.sequential, 1⟩)
    [.add (.ofSuffix 1) (.text "a\nb") none none none,
      .add (.ofSuffix 2) (.code "\n[9] text" "c") none none none]

/-- The language of the code stays on the line of the code, behind its number. -/
theorem describe_lines_crooked :
    let r := Registry.ofDocument crooked
    crooked.Clean ∧ crooked.size ≤ Registry.maxNumber ∧ ∃ lines : List String,
      r.describe crooked = "Document Structure:\n" ++ String.join (lines.map (· ++ "\n")) ∧
      (∀ line ∈ lines, '\n' ∉ line.toList) ∧ lines.length = 3 ∧
      r.longs[3]? = some (.ofSuffix 3) ∧
      lines[2]? = some "    [3] code - ``` [9] text c" := by
  intro r
  have hd : crooked.Clean := Document.clean_run_create _ _
  have hsize : crooked.size ≤ Registry.maxNumber := by decide +kernel
  obtain ⟨lines, htext, hflat, hlength, hlines, htables⟩ := describe_lines hd
  obtain ⟨hsame, hresolve⟩ := htables hsize
  have horder : crooked.order = [.ofSuffix 1, .ofSuffix 2, .ofSuffix 3] := by decide +kernel
  obtain ⟨hlong, depth, b, hdepth, hb, hline⟩ := hlines 2 (.ofSuffix 3) (by rw [horder]; rfl)
  have hlevel : crooked.depth? (.ofSuffix 3) = some 2 := by decide +kernel
  have hshown : (crooked.block? (.ofSuffix 3)).map (fun b =>
      "    [3] " ++ b.caption ++ " - " ++ b.content.excerpt excerptLength) =
        some "    [3] code - ``` [9] text c" := by decide +kernel
  have htwo : 2 = depth := Option.some.inj (hlevel.symm.trans hdepth)
  rw [← htwo] at hline
  rw [hb, Option.map_some] at hshown
  rw [horder] at hlength
  exact ⟨hd, hsize, lines, hsame.trans htext, hflat, hlength, (hresolve 3).trans hlong,
    hline.trans hshown⟩

end Numbering

end BlockDocument
