import BlockDocument.Proofs.Document.View

/-!
# What walks meet

A walk from an id meets exactly the ids that a chain of children leads to, each of them once, on
any document whatever: lists may repeat, name absent blocks or run in circles.

Every walk is a loop over a list of work with fuel. The fuel never runs out: `pending` counts the
children of the ids not yet met, and a step that meets an id moves its children from that count
into the list of work.
-/

namespace BlockDocument

open Std (ExtTreeMap ExtTreeSet)

/-- A chain of children leads from an id to another, or they are the same. -/
def Leads (children : BlockId → List BlockId) : BlockId → BlockId → Prop :=
  Relation.ReflTransGen fun p c => c ∈ children p

namespace Leads

variable {children : BlockId → List BlockId} {a b c : BlockId}

theorem refl (a : BlockId) : Leads children a a := Relation.ReflTransGen.refl

theorem single (h : b ∈ children a) : Leads children a b := Relation.ReflTransGen.single h

theorem step (h : b ∈ children a) (t : Leads children b c) : Leads children a c :=
  Relation.ReflTransGen.head h t

theorem trans (h : Leads children a b) (t : Leads children b c) : Leads children a c :=
  Relation.ReflTransGen.trans h t

/-- Nothing leads out of a leaf. -/
theorem eq_of_leaf (hleaf : children a = []) (h : Leads children a b) : b = a := by
  rcases Relation.ReflTransGen.cases_head h with rfl | ⟨c, hc, -⟩
  · rfl
  · rw [hleaf] at hc
    cases hc

/-- Nothing leads to what is nobody's child. -/
theorem eq_of_unlisted (hb : ∀ p, b ∉ children p) (h : Leads children a b) : a = b := by
  rcases Relation.ReflTransGen.cases_tail h with rfl | ⟨p, -, hp⟩
  · rfl
  · exact absurd hp (hb p)

end Leads

/-! ## The children still to come -/

/-- How many children the ids have that were not met. -/
def pending (children : BlockId → List BlockId) (keys : List BlockId) (met : BlockId → Bool) : Nat :=
  (keys.map fun id => if met id then 0 else (children id).length).sum

section pending

variable {children : BlockId → List BlockId} {met met' : BlockId → Bool} {id : BlockId}

theorem pending_congr {keys : List BlockId} (h : ∀ x ∈ keys, met' x = met x) :
    pending children keys met' = pending children keys met := by
  rw [pending, pending, List.map_congr_left fun x hx => by rw [h x hx]]

theorem pending_cons (k : BlockId) (keys : List BlockId) (met : BlockId → Bool) :
    pending children (k :: keys) met =
      (if met k then 0 else (children k).length) + pending children keys met := by
  rw [pending, List.map_cons, List.sum_cons, pending]

theorem pending_le (keys : List BlockId) (met : BlockId → Bool) :
    pending children keys met ≤ pending children keys fun _ => false := by
  induction keys with
  | nil => exact Nat.le_refl _
  | cons k keys ih =>
    rw [pending_cons, pending_cons]
    split <;> simp only [Bool.false_eq_true, if_false] <;> omega

theorem pending_of_mem {keys : List BlockId} (hk : keys.Nodup) (hid : id ∈ keys)
    (hm : met id = false) (hm' : ∀ x, met' x = (met x || x == id)) :
    pending children keys met' + (children id).length = pending children keys met := by
  induction keys with
  | nil => simp at hid
  | cons k keys ih =>
    obtain ⟨hk, hks⟩ := List.nodup_cons.mp hk
    rw [pending_cons, pending_cons, hm']
    by_cases hkid : k = id
    · subst hkid
      have hrest : pending children keys met' = pending children keys met := by
        refine pending_congr fun x hx => ?_
        have hxk : x ≠ k := fun h => hk (h ▸ hx)
        simp [hm', hxk]
      simp [hm, hrest, Nat.add_comm]
    · have hrest := ih hks ((List.mem_cons.mp hid).resolve_left (Ne.symm hkid))
      simp only [beq_iff_eq, hkid, Bool.or_eq_true, or_false]
      omega

/-- Meeting an id takes its children from the count. Only the keys have children. -/
theorem pending_meet {keys : List BlockId} (hk : keys.Nodup) (hc : ∀ x ∉ keys, children x = [])
    (hm : met id = false) (hm' : ∀ x, met' x = (met x || x == id)) :
    pending children keys met' + (children id).length = pending children keys met := by
  by_cases hid : id ∈ keys
  · exact pending_of_mem hk hid hm hm'
  · rw [hc id hid, List.length_nil, Nat.add_zero]
    refine pending_congr fun x hx => ?_
    have hx : x ≠ id := fun h => hid (h ▸ hx)
    simp [hm', hx]

theorem contains_insert_met (met : ExtTreeSet BlockId) (id x : BlockId) :
    (met.insert id).contains x = (met.contains x || x == id) := by
  rw [ExtTreeSet.contains_insert, Bool.or_comm]
  by_cases h : x = id
  · simp [h]
  · have hc : (compare id x == .eq) = false := by simp [Ne.symm h]
    simp [h, hc]

theorem mem_insert_met {met : ExtTreeSet BlockId} {id x : BlockId} :
    x ∈ met.insert id ↔ x = id ∨ x ∈ met := by
  rw [ExtTreeSet.mem_insert, Std.LawfulEqCmp.compare_eq_iff_eq, eq_comm]

end pending

/-! ## The walk that meets parents first -/

/-- What a walk has listed when its work is done: each id once, nothing lost, closed under children,
and nothing that no chain leads to. -/
structure Walked (children : BlockId → List BlockId) (work listed walked : List BlockId) : Prop where
  nodup : walked.Nodup
  covers : ∀ x, x ∈ listed ∨ x ∈ work → x ∈ walked
  closed : ∀ x ∈ walked, ∀ c ∈ children x, c ∈ walked
  sound : ∀ x ∈ walked, x ∈ listed ∨ ∃ w ∈ work, Leads children w x

section walks

variable {children : BlockId → List BlockId} {keys : List BlockId}

/-- What a walk from one id lists is what chains of children lead to. -/
theorem Walked.mem_iff {id x : BlockId} {walked : List BlockId}
    (h : Walked children [id] [] walked) : x ∈ walked ↔ Leads children id x := by
  constructor
  · intro hx
    rcases h.sound x hx with hx | ⟨w, hw, hl⟩
    · simp at hx
    · rwa [List.mem_singleton.mp hw] at hl
  · intro hx
    induction hx with
    | refl => exact h.covers id (by simp)
    | tail _ hc ih => exact h.closed _ ih _ hc

/-- A walk whose work is done lists what it has met. -/
theorem Walked.done {listed : List BlockId} (hnd : listed.Nodup)
    (hcl : ∀ x ∈ listed, ∀ c ∈ children x, c ∈ listed ∨ c ∈ ([] : List BlockId)) :
    Walked children [] listed listed.reverse where
  nodup := List.nodup_reverse.mpr hnd
  covers := by simp
  closed := fun x hx c hxc => by simpa using hcl x (List.mem_reverse.mp hx) c hxc
  sound := fun x hx => .inl (List.mem_reverse.mp hx)

section steps

variable {work listed walked : List BlockId} {id : BlockId}

/-- What is listed before the rest of the work is done is the first of the work. -/
theorem Walked.of_listed (h : Walked children work (id :: listed) walked) :
    Walked children (id :: work) listed walked where
  nodup := h.nodup
  covers x hx := h.covers x (by grind)
  closed := h.closed
  sound x hx := by
    rcases h.sound x hx with hx | ⟨w, hw, hl⟩
    · rcases List.mem_cons.mp hx with rfl | hx
      · exact .inr ⟨x, List.mem_cons_self, .refl x⟩
      · exact .inl hx
    · exact .inr ⟨w, List.mem_cons_of_mem _ hw, hl⟩

/-- Work on an id that is listed anyway is done with it. -/
theorem Walked.of_mem (h : Walked children work listed walked) (hid : id ∈ walked) :
    Walked children (id :: work) listed walked where
  nodup := h.nodup
  covers x hx := by grind [h.covers]
  closed := h.closed
  sound x hx := (h.sound x hx).imp_right fun ⟨w, hw, hl⟩ => ⟨w, List.mem_cons_of_mem _ hw, hl⟩

/-- Work on an id is work on its children as well. -/
theorem Walked.of_children {work' : List BlockId} (h : Walked children work' listed walked)
    (hwork : ∀ x, x ∈ work' ↔ x ∈ children id ∨ x ∈ id :: work) :
    Walked children (id :: work) listed walked where
  nodup := h.nodup
  covers x hx := h.covers x (hx.imp_right fun hx => (hwork x).mpr (.inr hx))
  closed := h.closed
  sound x hx := by
    rcases h.sound x hx with hx | ⟨w, hw, hl⟩
    · exact .inl hx
    · rcases (hwork w).mp hw with hw | hw
      · exact .inr ⟨id, List.mem_cons_self, .step hw hl⟩
      · exact .inr ⟨w, hw, hl⟩

end steps

theorem preorderWalk_walked (hk : keys.Nodup) (hc : ∀ x ∉ keys, children x = [])
    (fuel : Nat) (work : List BlockId) (met : ExtTreeSet BlockId) (listed : List BlockId)
    (hmet : ∀ x, x ∈ met ↔ x ∈ listed) (hnd : listed.Nodup)
    (hcl : ∀ x ∈ listed, ∀ c ∈ children x, c ∈ listed ∨ c ∈ work)
    (hf : work.length + pending children keys met.contains ≤ fuel) :
    Walked children work listed (preorderWalk children fuel work met listed) := by
  fun_induction preorderWalk children fuel work met listed with
  | case1 work met listed =>
    obtain rfl : work = [] := List.length_eq_zero_iff.mp (by omega)
    exact .done hnd hcl
  | case2 => exact .done hnd hcl
  | case3 fuel id work met listed hid ih =>
    -- the id was met before: it is listed, so nothing is lost with it
    have hidl : id ∈ listed := (hmet id).mp hid
    have h := ih hmet hnd (fun x hx c hxc => by grind) (by rw [List.length_cons] at hf; omega)
    exact h.of_mem (h.covers id (.inl hidl))
  | case4 fuel id work met listed hid ih =>
    have hidl : id ∉ listed := fun h => hid ((hmet id).mpr h)
    have hmiss : met.contains id = false := Bool.eq_false_of_not_eq_true hid
    have hpend := pending_meet hk hc hmiss (contains_insert_met met id)
    have hmet' : ∀ x, x ∈ met.insert id ↔ x ∈ id :: listed := fun x => by
      rw [mem_insert_met, hmet, List.mem_cons]
    have h := ih hmet' (List.nodup_cons.mpr ⟨hidl, hnd⟩) (by grind) (by grind)
    exact h.of_listed.of_children (by grind)

/-- What a walk has listed stays at the head of its list. -/
theorem exists_preorderWalk_eq (children : BlockId → List BlockId) (fuel : Nat)
    (work : List BlockId) (met : ExtTreeSet BlockId) (listed : List BlockId) :
    ∃ more, preorderWalk children fuel work met listed = listed.reverse ++ more := by
  fun_induction preorderWalk children fuel work met listed with
  | case1 => exact ⟨[], (List.append_nil _).symm⟩
  | case2 => exact ⟨[], (List.append_nil _).symm⟩
  | case3 fuel id work met listed hid ih => exact ih
  | case4 fuel id work met listed hid ih =>
    obtain ⟨more, hmore⟩ := ih
    exact ⟨id :: more, by rw [hmore, List.reverse_cons, List.append_assoc, List.singleton_append]⟩

/-! ## The walk that leaves children first -/

/-- The ids that a list of work marks as met. -/
def opened (work : List (BlockId × Bool)) : List BlockId :=
  (work.filter Prod.snd).map Prod.fst

/-- The steps that a list of work takes by itself: one for a marked id, two for one that may still
be opened. -/
def workLoad (work : List (BlockId × Bool)) : Nat :=
  (work.map fun w => if w.2 then 1 else 2).sum

theorem mem_opened {work : List (BlockId × Bool)} {x : BlockId} :
    x ∈ opened work ↔ (x, true) ∈ work := by
  simp [opened]

@[simp] theorem opened_cons_true (id : BlockId) (work : List (BlockId × Bool)) :
    opened ((id, true) :: work) = id :: opened work := rfl

@[simp] theorem opened_cons_false (id : BlockId) (work : List (BlockId × Bool)) :
    opened ((id, false) :: work) = opened work := rfl

@[simp] theorem opened_new (cs : List BlockId) (work : List (BlockId × Bool)) :
    opened (cs.map (·, false) ++ work) = opened work := by
  induction cs with
  | nil => rfl
  | cons c cs ih => simpa using ih

@[simp] theorem workLoad_cons (w : BlockId × Bool) (work : List (BlockId × Bool)) :
    workLoad (w :: work) = (if w.2 then 1 else 2) + workLoad work := by
  simp [workLoad]

@[simp] theorem workLoad_new (cs : List BlockId) (work : List (BlockId × Bool)) :
    workLoad (cs.map (·, false) ++ work) = 2 * cs.length + workLoad work := by
  induction cs with
  | nil => simp
  | cons c cs ih => simp [ih]; omega

/-- A walk that leaves children first lists, from any point of its work on, what it has left, what
is marked in the work, and what chains of children lead to from the rest of the work. -/
theorem postorderWalk_walked (hk : keys.Nodup) (hc : ∀ x ∉ keys, children x = [])
    (fuel : Nat) (work : List (BlockId × Bool)) (met : ExtTreeSet BlockId) (left : List BlockId)
    (hmet : ∀ x, x ∈ met ↔ x ∈ opened work ++ left) (hnd : (opened work ++ left).Nodup)
    (hcl : ∀ x ∈ met, ∀ c ∈ children x, c ∈ met ∨ (c, false) ∈ work)
    (hf : workLoad work + 2 * pending children keys met.contains ≤ fuel) :
    Walked children (work.map Prod.fst) left (postorderWalk children fuel work met left) := by
  fun_induction postorderWalk children fuel work met left with
  | case1 work met left =>
    cases work with
    | nil => exact .done (by simpa [opened] using hnd) (by grind [opened])
    | cons w work => rw [workLoad_cons] at hf; split at hf <;> omega
  | case2 => exact .done (by simpa [opened] using hnd) (by grind [opened])
  | case3 fuel id work met left ih =>
    -- all children of a marked id were met, so it is left
    have h := ih (by grind [opened_cons_true]) (by grind [opened_cons_true]) (by grind)
      (by grind [workLoad_cons])
    exact h.of_listed
  | case4 fuel id work met left hid ih =>
    -- the id was met before: it is marked in the work or left, so nothing is lost with it
    have h := ih hmet hnd (by grind) (by grind [workLoad_cons])
    refine h.of_mem ?_
    rcases List.mem_append.mp ((hmet id).mp hid) with hid | hid
    · have hw : (id, true) ∈ work := mem_opened.mp hid
      exact h.covers id (.inr (List.mem_map_of_mem (f := Prod.fst) hw))
    · exact h.covers id (.inl hid)
  | case5 fuel id work met left hid ih =>
    have hidl : id ∉ opened work ++ left := fun h => hid ((hmet id).mpr h)
    have hmiss : met.contains id = false := Bool.eq_false_of_not_eq_true hid
    have hpend := pending_meet hk hc hmiss (contains_insert_met met id)
    have hmet' : ∀ x, x ∈ met.insert id ↔ x = id ∨ x ∈ met := fun _ => mem_insert_met
    have h := ih (fun x => by simp [hmet', hmet x])
      (by simpa using List.nodup_cons.mpr ⟨hidl, hnd⟩) (by grind)
      (by rw [workLoad_new, workLoad_cons]; rw [workLoad_cons] at hf; grind)
    exact h.of_children fun x => by simp

end walks

/-! ## The walks of a document -/

namespace Document

theorem nodup_keys_tree (d : Document) : d.tree.keys.Nodup :=
  ExtTreeMap.nodup_keys

theorem childrenOf_eq_nil_of_not_mem_keys (d : Document) (id : BlockId) (h : id ∉ d.tree.keys) :
    d.childrenOf id = [] :=
  childrenOf_eq_nil fun hm => h (ExtTreeMap.mem_keys.mpr hm)

/-- Before a walk starts all children are still to come that the entries of a map stand for. -/
theorem pending_eq_sum {β : Type} {children : BlockId → List BlockId} {m : ExtTreeMap BlockId β}
    {count : β → Nat} (h : ∀ id x, m[id]? = some x → (children id).length = count x) :
    pending children m.keys (fun _ => false) = (m.values.map count).sum := by
  rw [pending, Map.values_eq_map_toList, ← ExtTreeMap.map_fst_toList_eq_keys, List.map_map,
    List.map_map]
  refine congrArg List.sum (List.map_congr_left fun e he => ?_)
  simpa using h e.1 e.2 (ExtTreeMap.mem_toList_iff_getElem?_eq_some.mp he)

theorem pending_eq_listedCount (d : Document) :
    pending d.childrenOf d.tree.keys (fun _ => false) = d.listedCount := by
  rw [listedCount, List.length_flatten]
  apply pending_eq_sum
  intro id cs hcs
  rw [childrenOf_eq, hcs, Option.getD_some]

theorem contains_empty_met : (∅ : ExtTreeSet BlockId).contains = fun _ => false := by
  funext x
  exact ExtTreeSet.contains_empty

theorem subtree_walked (d : Document) (id : BlockId) :
    Walked d.childrenOf [id] [] (d.subtree id) := by
  refine preorderWalk_walked d.nodup_keys_tree d.childrenOf_eq_nil_of_not_mem_keys _ _ _ _
    (by simp) (by simp) (by simp) ?_
  rw [contains_empty_met, pending_eq_listedCount, List.length_singleton, Nat.add_comm]

/-- A walk starts with the id from which it goes. -/
theorem exists_subtree_eq (d : Document) (id : BlockId) : ∃ more, d.subtree id = id :: more := by
  obtain ⟨more, hmore⟩ := exists_preorderWalk_eq d.childrenOf d.listedCount (d.childrenOf id ++ [])
    ((∅ : ExtTreeSet BlockId).insert id) [id]
  refine ⟨more, ?_⟩
  rw [subtree, preorderWalk, if_neg ExtTreeSet.not_mem_empty, hmore]
  rfl

theorem postorder_walked (d : Document) (id : BlockId) :
    Walked d.childrenOf [id] [] (d.postorder id) := by
  refine postorderWalk_walked d.nodup_keys_tree d.childrenOf_eq_nil_of_not_mem_keys _
    [(id, false)] _ _ (by simp [opened]) (by simp [opened]) (by simp) ?_
  rw [contains_empty_met, pending_eq_listedCount]
  simp only [workLoad, List.map_cons, List.map_nil, List.sum_cons, List.sum_nil, Bool.false_eq_true,
    if_false]
  omega

theorem mem_subtree {d : Document} {id x : BlockId} :
    x ∈ d.subtree id ↔ Leads d.childrenOf id x :=
  (d.subtree_walked id).mem_iff

theorem mem_postorder {d : Document} {id x : BlockId} :
    x ∈ d.postorder id ↔ Leads d.childrenOf id x :=
  (d.postorder_walked id).mem_iff

theorem mem_order {d : Document} {x : BlockId} :
    x ∈ d.order ↔ Leads d.childrenOf d.root x ∧ d.contains x = true := by
  rw [order, List.mem_filter, mem_subtree]

theorem mem_reachable {d : Document} {x : BlockId} :
    x ∈ d.reachable ↔ Leads d.childrenOf d.root x ∧ d.contains x = true := by
  rw [reachable, ExtTreeSet.mem_ofList, List.contains_iff_mem, mem_order]

theorem isBelow_iff {d : Document} {id ancestor : BlockId} :
    d.isBelow id ancestor = true ↔ id ≠ ancestor ∧ Leads d.childrenOf ancestor id := by
  rw [isBelow, Bool.and_eq_true, bne_iff_ne, List.contains_iff_mem, mem_subtree]

end Document

end BlockDocument
