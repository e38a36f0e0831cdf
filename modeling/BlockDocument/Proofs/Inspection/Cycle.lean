import BlockDocument.Inspection.Cycle
import BlockDocument.Proofs.Document.Walk

/-!
# The walk that looks for cycles

The depth-first walk closes a cycle exactly if the tree has one, wherever it lies: below the root,
among orphans or under ids that are no blocks (`cycleEntries_eq_nil_iff`).

A walk that closes nothing leaves every id after all its children, so the ids it has left are
accessible along the children; that is the invariant `Trace.OnPath.left`. A cycle it closes runs
from an id of its path down the path and back.
-/

namespace BlockDocument

open Std (ExtTreeMap)

/-- Every chain of children below an id ends. -/
def Ends (children : BlockId → List BlockId) : BlockId → Prop :=
  Acc fun c p => c ∈ children p

/-- A chain of children leads from an id back to it. -/
def Circles (children : BlockId → List BlockId) (id : BlockId) : Prop :=
  Relation.TransGen (fun p c => c ∈ children p) id id

theorem Ends.not_circles {children : BlockId → List BlockId} {id : BlockId}
    (h : Ends children id) : ¬ Circles children id := by
  induction h with
  | intro p _ ih =>
    intro hp
    obtain ⟨c, hc, hcp⟩ := Relation.TransGen.head'_iff.mp hp
    exact ih c hc (Relation.TransGen.tail' hcp hc)

namespace Trace

variable {children : BlockId → List BlockId}

/-! ## Marks -/

section marks

variable (t : Trace) (id x : BlockId)

theorem getElem?_marks_enter :
    (t.enter id).marks[x]? = if id = x then some .entered else t.marks[x]? := by
  rw [enter, ExtTreeMap.getElem?_insert]
  simp

theorem getElem?_marks_leave :
    (t.leave id).marks[x]? = if id = x then some .left else t.marks[x]? := by
  rw [leave, ExtTreeMap.getElem?_insert]
  simp

@[simp] theorem marks_close : (t.close id).marks = t.marks := rfl

@[simp] theorem closed_enter : (t.enter id).closed = t.closed := rfl

@[simp] theorem closed_leave : (t.leave id).closed = t.closed := rfl

@[simp] theorem closed_close : (t.close id).closed = id :: t.closed := rfl

end marks

/-! ## The invariant of a walk -/

/-- Every child of an id on the path is still to be looked at, or was left, or is the id that the
walk went down to from there. -/
def Looked (children : BlockId → List BlockId) (t : Trace) :
    Option BlockId → List (BlockId × List BlockId) → Prop
  | _, [] => True
  | below, (id, rest) :: path =>
    (∀ c ∈ children id, c ∈ rest ∨ t.marks[c]? = some .left ∨ below = some c) ∧
      Looked children t (some id) path

/-- What holds of a walk at every step. The last two facts are about walks that closed nothing. -/
structure OnPath (children : BlockId → List BlockId) (path : List (BlockId × List BlockId))
    (t : Trace) : Prop where
  entered : ∀ x, t.marks[x]? = some .entered ↔ x ∈ path.map Prod.fst
  nodup : (path.map Prod.fst).Nodup
  rest : ∀ f ∈ path, ∀ c ∈ f.2, c ∈ children f.1
  chain : path.IsChain fun f g => f.1 ∈ children g.1
  closed : ∀ x ∈ t.closed, Circles children x
  looked : t.closed = [] → Looked children t none path
  left : t.closed = [] → ∀ x, t.marks[x]? = some .left → Ends children x

/-- The steps that a path takes by itself: one to go up from each id and two for each child that is
still to be looked at, which may have to be entered. -/
def pathLoad (path : List (BlockId × List BlockId)) : Nat :=
  (path.map fun f => 1 + 2 * f.2.length).sum

theorem Looked.mono {t t' : Trace}
    (h : ∀ x : BlockId, t.marks[x]? = some .left → t'.marks[x]? = some .left)
    {below : Option BlockId} {path : List (BlockId × List BlockId)}
    (hl : Looked children t below path) : Looked children t' below path := by
  induction path generalizing below with
  | nil => trivial
  | cons f path ih =>
    obtain ⟨id, rest⟩ := f
    exact ⟨fun c hc => (hl.1 c hc).imp_right (Or.imp_left (h c)), ih hl.2⟩

/-- The ids of a path lead down to its last one. -/
theorem leads_of_chain {f : BlockId × List BlockId} {path : List (BlockId × List BlockId)}
    (h : (f :: path).IsChain fun f g => f.1 ∈ children g.1) :
    ∀ g ∈ f :: path, Leads children g.1 f.1 := by
  induction path generalizing f with
  | nil =>
    intro g hg
    rw [List.mem_singleton.mp hg]
    exact .refl _
  | cons e path ih =>
    rw [List.isChain_cons_cons] at h
    intro g hg
    rcases List.mem_cons.mp hg with rfl | hg
    · exact .refl _
    · exact (ih h.2 g hg).trans (.single h.1)

namespace OnPath

variable {path : List (BlockId × List BlockId)} {t : Trace} {id child : BlockId}
  {rest : List BlockId}

/-- Going up for good: the id's children were all left. -/
theorem leave (h : OnPath children ((id, []) :: path) t) : OnPath children path (t.leave id) := by
  have hid : id ∉ path.map Prod.fst := (List.nodup_cons.mp h.nodup).1
  have hleft : ∀ x : BlockId, t.marks[x]? = some .left → (t.leave id).marks[x]? = some .left :=
    fun x hx => by rw [getElem?_marks_leave]; split <;> simp [hx]
  refine ⟨fun x => ?_, (List.nodup_cons.mp h.nodup).2, fun f hf => h.rest f (by simp [hf]),
    h.chain.tail, h.closed, fun hc => ?_, fun hc x hx => ?_⟩
  · have he := h.entered x
    rw [getElem?_marks_leave]
    by_cases hx : id = x
    · subst hx
      simpa using hid
    · simpa [hx, Ne.symm hx] using he
  · -- the frame below looked at the id, which is now left
    cases path with
    | nil => trivial
    | cons f path =>
      obtain ⟨-, hl⟩ := h.looked hc
      obtain ⟨hf, hl⟩ := hl.mono hleft
      refine ⟨fun c hcf => ?_, hl⟩
      rcases hf c hcf with hc | hc | hc
      · exact .inl hc
      · exact .inr (.inl hc)
      · obtain rfl : id = c := by simpa using hc
        exact .inr (.inl (by simp [getElem?_marks_leave]))
  · rw [getElem?_marks_leave] at hx
    split at hx
    · rename_i hid
      subst hid
      refine ⟨_, fun c hci => ?_⟩
      -- no child is still to be looked at and none is below, so each one was left and ends
      rcases (h.looked hc).1 c hci with hcr | hcl | hcb
      · simp at hcr
      · exact h.left hc c hcl
      · simp at hcb
    · exact h.left hc x hx

/-- One child fewer is to be looked at, which was left or closed a cycle. -/
theorem advance {t' : Trace} (h : OnPath children ((id, child :: rest) :: path) t)
    (hm : t'.marks = t.marks) (hc : t'.closed = [] → t.closed = [] ∧ t.marks[child]? = some .left)
    (hcl : ∀ x ∈ t'.closed, Circles children x) : OnPath children ((id, rest) :: path) t' := by
  refine ⟨by rw [hm]; exact h.entered, h.nodup, fun f hf c hcf => ?_, ?_, hcl, fun h' => ?_,
    fun h' => by rw [hm]; exact h.left (hc h').1⟩
  · rcases List.mem_cons.mp hf with rfl | hf
    · exact h.rest _ List.mem_cons_self c (List.mem_cons_of_mem _ hcf)
    · exact h.rest f (List.mem_cons_of_mem _ hf) c hcf
  · cases path with
    | nil => exact .singleton _
    | cons g path => exact List.isChain_cons_cons.mpr (List.isChain_cons_cons.mp h.chain)
  · have hleft : ∀ x : BlockId, t.marks[x]? = some .left → t'.marks[x]? = some .left :=
      fun x hx => by rw [hm]; exact hx
    have hl := (h.looked (hc h').1).mono hleft
    refine ⟨fun c hci => ?_, hl.2⟩
    rcases hl.1 c hci with hcr | hcr
    · rcases List.mem_cons.mp hcr with rfl | hcr
      · exact .inr (.inl (by rw [hm]; exact (hc h').2))
      · exact .inl hcr
    · exact .inr hcr

/-- Coming back to an id on the path closes a cycle. -/
theorem close (h : OnPath children ((id, child :: rest) :: path) t)
    (hm : t.marks[child]? = some .entered) :
    OnPath children ((id, rest) :: path) (t.close child) := by
  refine h.advance rfl (by simp) fun x hx => ?_
  rcases List.mem_cons.mp hx with rfl | hx
  · obtain ⟨f, hf, rfl⟩ := List.mem_map.mp ((h.entered _).mp hm)
    have hdown := leads_of_chain h.chain f hf
    exact .tail' hdown (h.rest _ List.mem_cons_self _ List.mem_cons_self)
  · exact h.closed x hx

/-- A child that was left is passed over. -/
theorem pass (h : OnPath children ((id, child :: rest) :: path) t)
    (hm : t.marks[child]? = some .left) : OnPath children ((id, rest) :: path) t :=
  h.advance rfl (fun hc => ⟨hc, hm⟩) h.closed

/-- Going down to an id that was not met. The path below it keeps its ids. -/
theorem enter {path' : List (BlockId × List BlockId)} (h : OnPath children path t)
    (hm : t.marks[child]? = none) (hids : path'.map Prod.fst = path.map Prod.fst)
    (hrest : ∀ f ∈ path', ∀ c ∈ f.2, c ∈ children f.1)
    (hc : ((child, children child) :: path').IsChain fun f g => f.1 ∈ children g.1)
    (hl : t.closed = [] → Looked children t (some child) path') :
    OnPath children ((child, children child) :: path') (t.enter child) := by
  -- the ids on the path are those that are marked as entered
  have hnew : child ∉ path.map Prod.fst := fun hx => by
    have he := (h.entered child).mpr hx
    rw [hm] at he
    simp at he
  have hleft : ∀ x : BlockId, t.marks[x]? = some .left → (t.enter child).marks[x]? = some .left :=
    fun x hx => by
      have hne : child ≠ x := fun hcx => by simp [← hcx, hm] at hx
      rw [getElem?_marks_enter, if_neg hne, hx]
  refine ⟨fun x => ?_, ?_, fun f hf c hcf => ?_, hc, h.closed,
    fun hcl => ⟨fun c hcc => .inl hcc, (hl hcl).mono hleft⟩, fun hcl x hx => ?_⟩
  · rw [getElem?_marks_enter, List.map_cons, hids]
    by_cases hx : child = x
    · simp [hx]
    · simpa [hx, Ne.symm hx] using h.entered x
  · rw [List.map_cons, hids]
    exact List.nodup_cons.mpr ⟨hnew, h.nodup⟩
  · rcases List.mem_cons.mp hf with rfl | hf
    · exact hcf
    · exact hrest f hf c hcf
  · rw [getElem?_marks_enter] at hx
    split at hx
    · simp at hx
    · exact h.left hcl x hx

/-- Going down to a child that was not met. -/
theorem descend (h : OnPath children ((id, child :: rest) :: path) t)
    (hm : t.marks[child]? = none) :
    OnPath children ((child, children child) :: (id, rest) :: path) (t.enter child) := by
  refine h.enter hm rfl (fun f hf c hcf => ?_) ?_ fun hc => ?_
  · rcases List.mem_cons.mp hf with rfl | hf
    · exact h.rest _ List.mem_cons_self c (List.mem_cons_of_mem _ hcf)
    · exact h.rest f (List.mem_cons_of_mem _ hf) c hcf
  · refine List.isChain_cons_cons.mpr ⟨h.rest _ List.mem_cons_self _ List.mem_cons_self, ?_⟩
    cases path with
    | nil => exact .singleton _
    | cons g path => exact List.isChain_cons_cons.mpr (List.isChain_cons_cons.mp h.chain)
  · refine ⟨fun c hci => ?_, (h.looked hc).2⟩
    rcases (h.looked hc).1 c hci with hcr | hcl | hcb
    · rcases List.mem_cons.mp hcr with rfl | hcr
      · exact .inr (.inr rfl)
      · exact .inl hcr
    · exact .inr (.inl hcl)
    · simp at hcb

/-- Starting at an id that was not met. -/
theorem start (h : OnPath children [] t) (hm : t.marks[id]? = none) :
    OnPath children [(id, children id)] (t.enter id) :=
  h.enter hm rfl (by simp) (.singleton _) fun _ => trivial

end OnPath

/-! ## Whole walks -/

section walk

variable {keys : List BlockId}

theorem contains_marks_enter (t : Trace) (id x : BlockId) :
    (t.enter id).marks.contains x = (t.marks.contains x || x == id) := by
  rw [enter, ExtTreeMap.contains_insert, Bool.or_comm]
  by_cases h : x = id
  · simp [h]
  · have hc : (compare id x == .eq) = false := by simp [Ne.symm h]
    simp [h, hc]

theorem contains_marks_leave_of_mem {t : Trace} {id : BlockId} (h : id ∈ t.marks) (x : BlockId) :
    (t.leave id).marks.contains x = t.marks.contains x := by
  rw [leave, ExtTreeMap.contains_insert]
  by_cases hx : id = x
  · subst hx
    simpa using h
  · have hc : (compare id x == .eq) = false := by simp [hx]
    simp [hc]

@[simp] theorem pathLoad_cons (f : BlockId × List BlockId) (path : List (BlockId × List BlockId)) :
    pathLoad (f :: path) = 1 + 2 * f.2.length + pathLoad path := by
  simp [pathLoad]

/-- A walk comes to an end, and meets no id for nothing. -/
theorem walk_onPath (hk : keys.Nodup) (hc : ∀ x ∉ keys, children x = []) (fuel : Nat)
    (path : List (BlockId × List BlockId)) (t : Trace) (h : OnPath children path t)
    (hf : pathLoad path + 2 * pending children keys t.marks.contains ≤ fuel) :
    OnPath children [] (walk children fuel path t) ∧
      ∀ x ∈ t.marks, x ∈ (walk children fuel path t).marks := by
  fun_induction walk children fuel path t with
  | case1 path t =>
    cases path with
    | nil => exact ⟨h, fun x hx => hx⟩
    | cons f path => rw [pathLoad_cons] at hf; omega
  | case2 => exact ⟨h, fun x hx => hx⟩
  | case3 fuel id path t ih =>
    -- the id is marked already, so leaving it changes no more than the kind of its mark
    have hid : id ∈ t.marks := by
      have he := (h.entered id).mpr (by simp)
      exact ExtTreeMap.mem_iff_isSome_getElem?.mpr (by simp [he])
    have hmarks := contains_marks_leave_of_mem hid
    have hp : pending children keys (t.leave id).marks.contains =
        pending children keys t.marks.contains := pending_congr fun x _ => hmarks x
    obtain ⟨hpath, hsub⟩ := ih h.leave (by
      rw [pathLoad_cons] at hf
      omega)
    exact ⟨hpath, fun x hx => hsub x ((hmarks x).trans hx)⟩
  | case4 fuel id child rest path t hm ih =>
    exact ih (h.close hm) (by
      simp only [pathLoad_cons, List.length_cons, marks_close] at hf ⊢
      omega)
  | case5 fuel id child rest path t hm ih =>
    exact ih (h.pass hm) (by
      simp only [pathLoad_cons, List.length_cons] at hf ⊢
      omega)
  | case6 fuel id child rest path t hm ih =>
    -- its children count for the path now, and no longer among those that are to come
    have hnew : t.marks.contains child = false := by
      rw [ExtTreeMap.contains_eq_isSome_getElem?, hm, Option.isSome_none]
    have hp := pending_meet hk hc hnew (contains_marks_enter t child)
    obtain ⟨hpath, hsub⟩ := ih (h.descend hm) (by
      simp only [pathLoad_cons, List.length_cons] at hf ⊢
      omega)
    exact ⟨hpath, fun x hx => hsub x ((contains_marks_enter t child x).trans (by
      rw [Bool.or_eq_true]
      exact .inl hx))⟩

end walk

end Trace

namespace Document

/-- One start of the walk over all lists. -/
theorem onPath_start (d : Document) (t : Trace) (id : BlockId)
    (h : Trace.OnPath d.childrenOf [] t) (hm : id ∉ t.marks) :
    let t' := (t.enter id).walk d.childrenOf d.walkBound [(id, d.childrenOf id)]
    Trace.OnPath d.childrenOf [] t' ∧ (∀ x ∈ t.marks, x ∈ t'.marks) ∧ id ∈ t'.marks := by
  have hnew : t.marks.contains id = false := Bool.eq_false_of_not_eq_true hm
  have hp := pending_meet d.nodup_keys_tree d.childrenOf_eq_nil_of_not_mem_keys hnew
    (Trace.contains_marks_enter t id)
  have hle : pending d.childrenOf d.tree.keys t.marks.contains ≤
      pending d.childrenOf d.tree.keys fun _ => false := pending_le _ _
  rw [pending_eq_listedCount] at hle
  have hin : ∀ x, x ∈ t.marks ∨ x = id → x ∈ (t.enter id).marks := fun x hx =>
    (Trace.contains_marks_enter t id x).trans (by simpa using hx)
  obtain ⟨hpath, hsub⟩ := Trace.walk_onPath d.nodup_keys_tree d.childrenOf_eq_nil_of_not_mem_keys
    d.walkBound _ _ (h.start (ExtTreeMap.getElem?_eq_none hm)) (by
      rw [Trace.pathLoad_cons, walkBound]
      simp only [Trace.pathLoad, List.map_nil, List.sum_nil]
      omega)
  exact ⟨hpath, fun x hx => hsub x (hin x (.inl hx)), hsub id (hin id (.inr rfl))⟩

/-- The walk over all lists comes to an end and meets every id with a list of children. -/
theorem onPath_trace (d : Document) :
    Trace.OnPath d.childrenOf [] d.trace ∧ ∀ id ∈ d.tree, id ∈ d.trace.marks := by
  have fold (ids : List BlockId) (t : Trace) (h : Trace.OnPath d.childrenOf [] t) :
      let t' := ids.foldl
        (fun t id =>
          if id ∈ t.marks then t
          else (t.enter id).walk d.childrenOf d.walkBound [(id, d.childrenOf id)]) t
      Trace.OnPath d.childrenOf [] t' ∧ (∀ x ∈ t.marks, x ∈ t'.marks) ∧ ∀ x ∈ ids, x ∈ t'.marks := by
    induction ids generalizing t with
    | nil => exact ⟨h, fun x hx => hx, by simp⟩
    | cons id ids ih =>
      rw [List.foldl_cons]
      by_cases hm : id ∈ t.marks
      · rw [if_pos hm]
        obtain ⟨hpath, hsub, hall⟩ := ih t h
        exact ⟨hpath, hsub, List.forall_mem_cons.mpr ⟨hsub id hm, hall⟩⟩
      · rw [if_neg hm]
        obtain ⟨hpath₁, hsub₁, hid⟩ := d.onPath_start t id h hm
        obtain ⟨hpath, hsub, hall⟩ := ih _ hpath₁
        exact ⟨hpath, fun x hx => hsub x (hsub₁ x hx), List.forall_mem_cons.mpr ⟨hsub id hid, hall⟩⟩
  obtain ⟨hpath, -, hall⟩ := fold d.tree.keys {} ⟨by simp, by simp, by simp, .nil, by simp,
    fun _ => trivial, by simp⟩
  exact ⟨hpath, fun id hid => hall id (ExtTreeMap.mem_keys.mpr hid)⟩

/-- A walk that closed no cycle found that every chain of children ends. -/
theorem ends_of_cycleEntries (d : Document) (h : d.cycleEntries = []) (id : BlockId) :
    Ends d.childrenOf id := by
  obtain ⟨hpath, hall⟩ := d.onPath_trace
  have hcl : d.trace.closed = [] := List.reverse_eq_nil_iff.mp h
  by_cases hid : id ∈ d.tree
  · obtain ⟨m, hm⟩ := Option.isSome_iff_exists.mp (ExtTreeMap.mem_iff_isSome_getElem?.mp (hall id hid))
    cases m with
    | entered => simpa using (hpath.entered id).mp hm
    | left => exact hpath.left hcl id hm
  · refine ⟨_, fun c hc => ?_⟩
    simp [childrenOf_eq_nil hid] at hc

/-- **Cycle detection is exact**: no cycle is reported exactly if there is none. -/
theorem cycleEntries_eq_nil_iff {d : Document} :
    d.cycleEntries = [] ↔ ∀ id, ¬ Circles d.childrenOf id := by
  refine ⟨fun h id => (d.ends_of_cycleEntries h id).not_circles, fun h => ?_⟩
  refine List.reverse_eq_nil_iff.mpr (List.eq_nil_iff_forall_not_mem.mpr fun id hid => ?_)
  exact h id (d.onPath_trace.1.closed id hid)

end Document

end BlockDocument
