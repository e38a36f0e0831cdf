import BlockDocument.Proofs.Applied
import BlockDocument.Proofs.Execution.Executor
import BlockDocument.Proofs.Inspection.Validity

/-!
# Looser limits

Limits are compared bound by bound: limits are looser if they bound nothing that was not bounded, and
nothing more closely. A mutation reads limits only in its checks, and each check refuses a measure
that is above its bound. So what looser limits see is what was seen before with fewer refusals, and
a mutation that is carried out does the same under them (`Mutation.apply_of_le`).
-/

namespace BlockDocument

/-- A bound that is absent, or no lower than another one, which is present then. -/
def Bounded (bound bound' : Option Nat) : Prop := ∀ b' ∈ bound', ∃ b ∈ bound, b ≤ b'

theorem Bounded.absent (bound : Option Nat) : Bounded bound none := by
  rintro b ⟨⟩

/-- What does not exceed a bound does not exceed a looser one. -/
theorem Bounded.exceeded?_eq_none {bound bound' : Option Nat} (h : Bounded bound bound')
    {measure : Nat} (hm : exceeded? bound measure = none) : exceeded? bound' measure = none := by
  rw [BlockDocument.exceeded?_eq_none] at hm ⊢
  intro b' hb'
  obtain ⟨b, hb, hle⟩ := h b' hb'
  exact Nat.le_trans (hm b hb) hle

namespace Limits

/-- Limits that bound no more than others. -/
structure Le (l l' : Limits) : Prop where
  blocks : Bounded l.blocks l'.blocks
  depth : Bounded l.depth l'.depth
  blockSize : Bounded l.blockSize l'.blockSize
  documentSize : Bounded l.documentSize l'.documentSize
  edges : Bounded l.edges l'.edges

namespace Le

variable {l l' : Limits}

/-- Limits without bounds are the loosest. -/
theorem empty (l : Limits) : l.Le {} := ⟨.absent _, .absent _, .absent _, .absent _, .absent _⟩

theorem blockCountIssue (h : l.Le l') {count : Nat} (hc : l.blockCountIssue count = none) :
    l'.blockCountIssue count = none :=
  Option.map_eq_none_iff.mpr (h.blocks.exceeded?_eq_none (Option.map_eq_none_iff.mp hc))

theorem depthIssue (h : l.Le l') {depth : Nat} {id : BlockId} (hd : l.depthIssue depth id = none) :
    l'.depthIssue depth id = none :=
  Option.map_eq_none_iff.mpr (h.depth.exceeded?_eq_none (Option.map_eq_none_iff.mp hd))

theorem blockSizeIssue (h : l.Le l') {size : Nat} {id : BlockId}
    (hs : l.blockSizeIssue size id = none) : l'.blockSizeIssue size id = none :=
  Option.map_eq_none_iff.mpr (h.blockSize.exceeded?_eq_none (Option.map_eq_none_iff.mp hs))

theorem edgeCountIssue (h : l.Le l') {count : Nat} {id : BlockId}
    (hc : l.edgeCountIssue count id = none) : l'.edgeCountIssue count id = none :=
  Option.map_eq_none_iff.mpr (h.edges.exceeded?_eq_none (Option.map_eq_none_iff.mp hc))

/-- A depth that is known only of some parents. -/
theorem bind_depthIssue (h : l.Le l') {depth? : Option Nat} {f : Nat → Nat} {id : BlockId}
    (hd : (depth?.bind fun depth => l.depthIssue (f depth) id) = none) :
    (depth?.bind fun depth => l'.depthIssue (f depth) id) = none := by
  rw [Option.bind_eq_none_iff] at hd ⊢
  exact fun depth hdepth => h.depthIssue (hd depth hdepth)

end Le

end Limits

theorem requireNone_eq_ok_iff {issues : List Issue} {u : Unit} :
    requireNone issues = .ok u ↔ issues = [] := by
  refine ⟨requireNone_eq_ok, ?_⟩
  rintro rfl
  rfl

/-- A check that one issue would fail. -/
theorem requireNone_toList_eq_ok_iff {issue : Option Issue} {u : Unit} :
    requireNone issue.toList = .ok u ↔ issue = none := by
  rw [requireNone_eq_ok_iff, Option.toList_eq_nil_iff]

/-! ## Checks -/

namespace Document

variable {l l' : Limits} {d : Document} {u : Unit}

theorem checkAdd_of_le (hle : l.Le l') {parent : BlockId} {content : Content}
    (h : d.checkAdd l parent content = .ok u) : d.checkAdd l' parent content = .ok u := by
  rw [checkAdd, require_eq] at h ⊢
  cases hp : d.block? parent with
  | none => simp [hp, bind, Except.bind] at h
  | some b =>
    simp only [hp, bind, Except.bind, requireNone_eq_ok_iff, List.append_eq_nil_iff,
      Option.toList_eq_nil_iff] at h ⊢
    obtain ⟨⟨hcount, hdepth⟩, hbytes⟩ := h
    exact ⟨⟨hle.blockCountIssue hcount, hle.bind_depthIssue hdepth⟩, hle.blockSizeIssue hbytes⟩

theorem checkPlace_of_le (hle : l.Le l') {id : BlockId} {place : Place BlockId}
    (h : d.checkPlace l id place = .ok u) : d.checkPlace l' id place = .ok u := by
  rw [checkPlace] at h ⊢
  cases hp : d.parentOf? place with
  | none => rfl
  | some parent =>
    simp only [hp, checkDepth, requireNone_toList_eq_ok_iff] at h ⊢
    exact hle.bind_depthIssue h

theorem checkEdge_of_le (hle : l.Le l') {source target : BlockId} {relation : Relation}
    (h : d.checkEdge l source relation target = .ok u) :
    d.checkEdge l' source relation target = .ok u := by
  rw [checkEdge, require_eq] at h ⊢
  cases hs : d.block? source with
  | none => simp [hs, bind, Except.bind] at h
  | some b =>
    simp only [hs, bind, Except.bind] at h ⊢
    split
    · rfl
    · rename_i hnew
      rw [if_neg hnew, requireNone_toList_eq_ok_iff] at h
      exact requireNone_toList_eq_ok_iff.mpr (hle.edgeCountIssue h)

end Document

/-! ## Mutations -/

/-- Only a new text is checked when a field is set. -/
theorem Edit.setField_of_le {l l' : Limits} (hle : l.Le l') {id : BlockId} {field : Field}
    {value : String} {u : Unit} {d d' : Document}
    (h : setField l id field value d = .ok u d') : setField l' id field value d = .ok u d' := by
  cases field with
  | text =>
    obtain ⟨b, d₁, hb, h₁⟩ := bind_eq_ok h
    obtain ⟨c, d₂, hc, h₂⟩ := bind_eq_ok h₁
    obtain ⟨u', d₃, hcheck, h₃⟩ := bind_eq_ok h₂
    obtain ⟨hnone, rfl⟩ := ofExcept_eq_ok hcheck
    rw [requireNone_toList_eq_ok_iff] at hnone
    have hcheck' : (ofExcept (requireNone (l'.blockSizeIssue c.byteSize id).toList) :
        Edit Unit) d₃ = .ok u' d₃ := by
      rw [requireNone_toList_eq_ok_iff.mpr (hle.blockSizeIssue hnone)]
      rfl
    exact (bind_of_ok hb _).trans ((bind_of_ok hc _).trans ((bind_of_ok hcheck' _).trans h₃))
  | _ => exact h

/-- **Looser limits change nothing but refusals**: a mutation that limits let through does the same
under all looser ones. -/
theorem Mutation.apply_of_le {l l' : Limits} (hle : l.Le l') {m : Mutation} {d d' : Document}
    {outcome : Outcome} (h : m.apply l d = .ok outcome d') : m.apply l' d = .ok outcome d' := by
  rw [apply_eq_ok_iff] at h ⊢
  cases h with
  | add hcheck hadd => exact .add (Document.checkAdd_of_le hle hcheck) hadd
  | set hread hset => exact .set hread (Edit.setField_of_le hle hset)
  | delete hdelete => exact .delete hdelete
  | move hcheck hmove => exact .move (Document.checkPlace_of_le hle hcheck) hmove
  | addEdge hcheck hadd => exact .addEdge (Document.checkEdge_of_le hle hcheck) hadd
  | removeEdge hremove => exact .removeEdge hremove
  | addTag hadd => exact .addTag hadd
  | removeTag hremove => exact .removeTag hremove
  | prune hprune => exact .prune hprune

end BlockDocument
