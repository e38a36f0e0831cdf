import Mathlib
import BlockDocument.Edge

/-!
# What stands of additions and removals

The edges of a block are added and removed one at a time. What stands in the end is said from the whole
list of these acts (`standing`): an addition stands if no later act removes its edge, and of additions
that stand and share their ends the first one counts. Carrying out one more act is then a step on what
stands (`standing_concat`), and an edge is there if the last act on its ends was an addition
(`any_standing_iff`).
-/

namespace BlockDocument

/-- The relation and the target of an edge. -/
def Edge.ends (e : Edge) : Relation × BlockId := (e.relation, e.target)

theorem Edge.matches_iff {e : Edge} {relation : Relation} {target : BlockId} :
    e.matches relation target = true ↔ e.ends = (relation, target) := by
  simp [Edge.matches, ends]

theorem Edge.sameEnds_iff {e e' : Edge} : e.sameEnds e' = true ↔ e.ends = e'.ends := matches_iff

/-- What is done to the edges of a block. -/
inductive EdgeAct where
  | added (edge : Edge)
  | removed (relation : Relation) (target : BlockId)

namespace EdgeAct

/-- The relation and the target that an act is about. -/
def ends : EdgeAct → Relation × BlockId
  | added edge => edge.ends
  | removed relation target => (relation, target)

/-- Whether an act removes an edge. -/
def removes (e : Edge) : EdgeAct → Bool
  | added _ => false
  | removed relation target => e.matches relation target

/-- Carries out an act. An edge is added unless there is one with its ends. -/
def perform (edges : List Edge) : EdgeAct → List Edge
  | added edge => if edges.any (·.sameEnds edge) then edges else edges ++ [edge]
  | removed relation target => edges.filter fun e => !e.matches relation target

end EdgeAct

open EdgeAct

/-- The edges that acts leave, in the order of the additions that made them. -/
def standing : List EdgeAct → List Edge
  | [] => []
  | .added e :: later =>
    if later.any (removes e) then standing later
    else e :: (standing later).filter (·.ends ≠ e.ends)
  | .removed .. :: later => standing later

/-- The last act on a relation and a target. -/
def lastAct? (acts : List EdgeAct) (relation : Relation) (target : BlockId) : Option EdgeAct :=
  (acts.filter (·.ends = (relation, target))).getLast?

variable {acts : List EdgeAct} {relation : Relation} {target : BlockId}

theorem lastAct?_concat (acts : List EdgeAct) (x : EdgeAct) (relation : Relation) (target : BlockId) :
    lastAct? (acts ++ [x]) relation target =
      if x.ends = (relation, target) then some x else lastAct? acts relation target := by
  rw [lastAct?, List.filter_append]
  by_cases hx : x.ends = (relation, target)
  · simp [hx]
  · simp [hx, lastAct?]

/-! ## One more act -/

theorem standing_concat_added (acts : List EdgeAct) (edge : Edge) :
    standing (acts ++ [.added edge]) = perform (standing acts) (.added edge) := by
  induction acts with
  | nil => rfl
  | cons a acts ih =>
    cases a with
    | removed relation target => exact ih
    | added e =>
      -- an addition removes nothing, so the first edge stands after it if it stood before
      have hlater : (acts ++ [added edge]).any (removes e) = acts.any (removes e) := by
        simp [removes]
      rw [List.cons_append, standing, standing, hlater]
      split
      · exact ih
      · rw [ih, perform, perform, List.any_cons, List.any_filter]
        by_cases hends : e.ends = edge.ends
        · -- the new edge is one of those that give way to the first one
          have hsame : e.sameEnds edge = true := Edge.sameEnds_iff.mpr hends
          rw [hsame, Bool.true_or, if_pos rfl]
          split
          · rfl
          · simp [List.filter_append, hends]
        · have hsame : e.sameEnds edge = false :=
            Bool.eq_false_iff.mpr fun h => hends (Edge.sameEnds_iff.mp h)
          have hany : ((standing acts).any fun x => decide (x.ends ≠ e.ends) && x.sameEnds edge) =
              (standing acts).any (·.sameEnds edge) := by
            refine congrArg (standing acts).any (funext fun x => ?_)
            rw [Bool.eq_iff_iff, Bool.and_eq_true, Edge.sameEnds_iff, decide_eq_true_iff]
            refine and_iff_right_of_imp fun hx hx' => hends ?_
            rw [← hx', hx]
          rw [hsame, Bool.false_or, hany]
          split
          · rfl
          · simp [List.filter_append, Ne.symm hends]

theorem standing_concat_removed (acts : List EdgeAct) (relation : Relation) (target : BlockId) :
    standing (acts ++ [.removed relation target]) =
      perform (standing acts) (.removed relation target) := by
  induction acts with
  | nil => rfl
  | cons a acts ih =>
    cases a with
    | removed relation' target' => exact ih
    | added e =>
      have hlater : (acts ++ [removed relation target]).any (removes e) =
          (acts.any (removes e) || e.matches relation target) := by
        simp [removes]
      rw [List.cons_append, standing, standing, hlater]
      cases hany : acts.any (removes e) with
      | true => exact ih
      | false =>
        rw [Bool.false_or, if_neg Bool.false_ne_true, ih, perform, perform, List.filter_cons,
          List.filter_comm]
        cases hmatch : e.matches relation target with
        | false => rfl
        | true =>
          -- the edges that gave way to the first one go with it
          rw [if_pos rfl, Bool.not_true, if_neg Bool.false_ne_true, List.filter_filter]
          refine List.filter_congr fun x _ => ?_
          rw [Edge.matches_iff.mp hmatch, Bool.eq_iff_iff, Bool.and_eq_true, decide_eq_true_iff,
            Bool.not_eq_true', Bool.eq_false_iff, ne_eq, Edge.matches_iff, ne_eq, and_self]

/-- Acts are carried out one by one. -/
theorem standing_concat (acts : List EdgeAct) (x : EdgeAct) :
    standing (acts ++ [x]) = x.perform (standing acts) := by
  cases x with
  | added edge => exact standing_concat_added acts edge
  | removed relation target => exact standing_concat_removed acts relation target

/-! ## What stands -/

/-- No two edges that stand share their ends. -/
theorem nodup_standing (acts : List EdgeAct) : ((standing acts).map Edge.ends).Nodup := by
  induction acts with
  | nil => exact List.nodup_nil
  | cons a acts ih =>
    cases a with
    | removed relation target => exact ih
    | added e =>
      rw [standing]
      split
      · exact ih
      · rw [List.map_cons, List.nodup_cons]
        refine ⟨?_, ih.sublist (List.filter_sublist.map _)⟩
        simp

/-- After an addition there is an edge with its ends, whether it was there before or not. -/
theorem any_perform_added (edges : List Edge) (edge : Edge) :
    (perform edges (.added edge)).any (·.matches relation target) =
      (edges.any (·.matches relation target) || edge.matches relation target) := by
  rw [perform]
  split
  · rename_i hany
    obtain ⟨e, he, hsame⟩ := List.any_eq_true.mp hany
    rw [Bool.eq_self_or, Edge.matches_iff, List.any_eq_true]
    exact fun hedge => ⟨e, he, Edge.matches_iff.mpr ((Edge.sameEnds_iff.mp hsame).trans hedge)⟩
  · simp

/-- A removal does not touch edges with other ends. -/
theorem any_perform_removed {relation' : Relation} {target' : BlockId} (edges : List Edge)
    (hends : (relation', target') ≠ (relation, target)) :
    (perform edges (.removed relation' target')).any (·.matches relation target) =
      edges.any (·.matches relation target) := by
  rw [perform, List.any_filter]
  refine congrArg edges.any (funext fun e => ?_)
  rw [Bool.eq_iff_iff, Bool.and_eq_true, Bool.not_eq_true', Bool.eq_false_iff, ne_eq,
    Edge.matches_iff, Edge.matches_iff]
  refine and_iff_right_of_imp fun he he' => hends ?_
  rw [← he', he]

/-- **An edge stands if the last act on its ends was an addition.** -/
theorem any_standing_iff : (standing acts).any (·.matches relation target) = true ↔
    ∃ edge, lastAct? acts relation target = some (.added edge) := by
  induction acts using List.reverseRecOn with
  | nil => simp [standing, lastAct?]
  | append_singleton acts x ih =>
    rw [standing_concat, lastAct?_concat]
    cases x with
    | added edge =>
      rw [any_perform_added, Bool.or_eq_true, Edge.matches_iff, ih]
      by_cases hends : edge.ends = (relation, target)
      · simp [hends, ends]
      · simp [hends, ends]
    | removed relation' target' =>
      by_cases hends : (relation', target') = (relation, target)
      · obtain ⟨rfl, rfl⟩ := Prod.mk.inj hends
        simp [perform, ends]
      · rw [any_perform_removed _ hends, ih]
        simp [ends, hends]

/-- An edge that stands was made by an act of the list: there was none with its ends before, and no later
act removed it. -/
theorem exists_of_mem_standing {e : Edge} (h : e ∈ standing acts) :
    ∃ before later, acts = before ++ .added e :: later ∧
      (∀ edge, lastAct? before e.relation e.target ≠ some (.added edge)) ∧
      later.any (removes e) = false := by
  -- from the last act back: the edge was there before it, or this act made it
  induction acts using List.reverseRecOn with
  | nil => cases h
  | append_singleton acts x ih =>
    have keep (hmem : e ∈ standing acts) (hx : x.removes e = false) :
        ∃ before later, acts ++ [x] = before ++ .added e :: later ∧
          (∀ edge, lastAct? before e.relation e.target ≠ some (.added edge)) ∧
          later.any (removes e) = false := by
      obtain ⟨before, later, rfl, hbefore, hlater⟩ := ih hmem
      exact ⟨before, later ++ [x], by simp, hbefore, by simp [hlater, hx]⟩
    rw [standing_concat] at h
    cases x with
    | removed relation target =>
      obtain ⟨hmem, hne⟩ := List.mem_filter.mp h
      exact keep hmem (by simpa [removes] using hne)
    | added edge =>
      rw [perform] at h
      split at h
      · exact keep h rfl
      · rename_i hnone
        rcases List.mem_append.mp h with hmem | hmem
        · exact keep hmem rfl
        · obtain rfl : e = edge := List.mem_singleton.mp hmem
          refine ⟨acts, [], rfl, fun edge hlast => hnone ?_, rfl⟩
          exact any_standing_iff.mpr ⟨edge, hlast⟩

end BlockDocument
