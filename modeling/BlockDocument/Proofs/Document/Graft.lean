import BlockDocument.Proofs.Document.Forest

/-!
# Forests under change

The operations on documents are made of three steps: a change to one block that keeps its id and
its children, a new list of children for one parent, and the restriction to a part that is closed
under children. Each step keeps a forest a forest; the second asks that the new children have no
other parent and that no chain leads from them to their parent.
-/

namespace BlockDocument.Document

variable {d : Document}

/-! ## One block -/

/-- A change to one block that keeps its id and its children does not touch the tree. -/
theorem IsForest.withBlock (h : d.IsForest) {id : BlockId} {f : Block → Block}
    (hid : ∀ b, (f b).id = b.id) (hcs : ∀ b, (f b).children = b.children) :
    (d.withBlock id f).IsForest := by
  have key (q : BlockId) (b : Block) (hb : (d.withBlock id f).block? q = some b) :
      ∃ b', d.block? q = some b' ∧ b.id = b'.id ∧ b.children = b'.children := by
    rw [block?_withBlock] at hb
    split at hb
    · obtain ⟨b', hb', rfl⟩ := Option.map_eq_some_iff.mp hb
      exact ⟨b', hb', hid b', hcs b'⟩
    · exact ⟨b, hb, rfl, rfl⟩
  exact {
    stored := fun q b hb => by
      obtain ⟨b', hb', hi, -⟩ := key q b hb
      rw [hi, h.stored q b' hb']
    root_mem := by simpa using h.root_mem
    parent_mem := by simpa using h.parent_mem
    child_mem := by simpa using h.child_mem
    root_unlisted := h.root_unlisted
    nodup := h.nodup
    parent_unique := h.parent_unique
    lockstep := fun q b hb => by
      obtain ⟨b', hb', -, hc⟩ := key q b hb
      rw [hc, h.lockstep q b' hb', childrenOf_withBlock]
    acyclic := h.acyclic }

theorem IsForest.touch (h : d.IsForest) (id : BlockId) : (d.touch id).IsForest :=
  h.withBlock (fun _ => rfl) fun _ => rfl

/-! ## One list of children -/

/-- Chains to a parent do not use its own list. -/
theorem leads_to_parent {p : BlockId} {cs : List BlockId} {x : BlockId}
    (hx : Leads (d.withChildren p cs).childrenOf x p) : Leads d.childrenOf x p := by
  induction hx using Relation.ReflTransGen.head_induction_on with
  | refl => exact .refl p
  | @head a b hab _ ih =>
    by_cases ha : a = p
    · rw [ha]
      exact .refl p
    · rw [childrenOf_withChildren, if_neg ha] at hab
      exact .step hab ih

/-- A chain after a new list of children is an old one, or goes through the parent. -/
theorem transGen_withChildren {p : BlockId} {cs : List BlockId} {x y : BlockId}
    (h : Relation.TransGen (fun a b => b ∈ (d.withChildren p cs).childrenOf a) x y) :
    Relation.TransGen (fun a b => b ∈ d.childrenOf a) x y ∨
      ∃ c ∈ cs, Leads (d.withChildren p cs).childrenOf x p ∧
        Leads (d.withChildren p cs).childrenOf c y := by
  induction h with
  | @single y hxy =>
    by_cases hx : x = p
    · rw [childrenOf_withChildren, if_pos hx] at hxy
      exact .inr ⟨y, hxy, hx ▸ .refl _, .refl y⟩
    · rw [childrenOf_withChildren, if_neg hx] at hxy
      exact .inl (.single hxy)
  | @tail y z hxy hyz ih =>
    by_cases hy : y = p
    · have hz : z ∈ cs := by rwa [childrenOf_withChildren, if_pos hy] at hyz
      exact .inr ⟨z, hz, hy ▸ hxy.to_reflTransGen, .refl z⟩
    · rcases ih with hold | ⟨c, hc, hxp, hcy⟩
      · rw [childrenOf_withChildren, if_neg hy] at hyz
        exact .inl (hold.tail hyz)
      · exact .inr ⟨c, hc, hxp, hcy.tail hyz⟩

/-- What a parent may list: a block other than the root that no other parent lists and from which no
chain leads to this parent. -/
structure Graftable (d : Document) (p c : BlockId) : Prop where
  contains : d.contains c = true
  ne_root : c ≠ d.root
  unlisted : ∀ q, q ≠ p → c ∉ d.childrenOf q
  not_leads : ¬ Leads d.childrenOf c p

/-- **Grafting**: a parent may get a list of children that no other parent lists and from which no
chain leads back to it. -/
theorem IsForest.withChildren (h : d.IsForest) {p : BlockId} {cs : List BlockId}
    (hp : d.contains p = true) (hnd : cs.Nodup) (hcs : ∀ c ∈ cs, d.Graftable p c) :
    (d.withChildren p cs).IsForest where
  stored q b hb := by
    rw [block?_withChildren] at hb
    split at hb
    · obtain ⟨b', hb', rfl⟩ := Option.map_eq_some_iff.mp hb
      exact h.stored q b' hb'
    · exact h.stored q b hb
  root_mem := by simpa using h.root_mem
  parent_mem q hq := by
    rw [contains_withChildren]
    rw [tree_withChildren, Std.ExtTreeMap.mem_insert, Std.LawfulEqCmp.compare_eq_iff_eq] at hq
    rcases hq with rfl | hq
    · exact hp
    · exact h.parent_mem q hq
  child_mem q c hc := by
    rw [contains_withChildren]
    rw [childrenOf_withChildren] at hc
    split at hc
    · exact (hcs c hc).contains
    · exact h.child_mem q c hc
  root_unlisted q hq := by
    rw [childrenOf_withChildren] at hq
    split at hq
    · exact (hcs _ hq).ne_root rfl
    · exact h.root_unlisted q hq
  nodup q := by
    rw [childrenOf_withChildren]
    split
    · exact hnd
    · exact h.nodup q
  parent_unique q r c hq hr := by
    rw [childrenOf_withChildren] at hq hr
    split at hq <;> split at hr
    · simp_all
    · exact absurd hr ((hcs c hq).unlisted r ‹_›)
    · exact absurd hq ((hcs c hr).unlisted q ‹_›)
    · exact h.parent_unique q r c hq hr
  lockstep q b hb := by
    rw [block?_withChildren] at hb
    rw [childrenOf_withChildren]
    by_cases hpq : p = q
    · rw [if_pos hpq] at hb
      obtain ⟨b', hb', rfl⟩ := Option.map_eq_some_iff.mp hb
      rw [if_pos hpq.symm]
      rfl
    · rw [if_neg hpq] at hb
      rw [if_neg (Ne.symm hpq)]
      exact h.lockstep q b hb
  acyclic x hx := by
    rcases transGen_withChildren hx with hold | ⟨c, hc, hxp, hcx⟩
    · exact h.acyclic x hold
    · exact (hcs c hc).not_leads (leads_to_parent (hcx.trans hxp))

/-- What a parent lists already may stay. -/
theorem IsForest.child_graftable (h : d.IsForest) {p c : BlockId} (hc : c ∈ d.childrenOf p) :
    d.Graftable p c where
  contains := h.child_mem p c hc
  ne_root hr := h.root_unlisted p (hr ▸ hc)
  unlisted q hq hcq := hq (h.parent_unique q p c hcq hc)
  not_leads hl := h.acyclic p (Relation.TransGen.head' hc hl)

/-! ## A part -/

/-- The part on a class of ids that holds the root and, with a parent, all its children. -/
theorem IsForest.restrict (h : d.IsForest) {keep : BlockId → Bool} (hr : keep d.root = true)
    (hk : ∀ p, ∀ c ∈ d.childrenOf p, keep p = true → keep c = true) :
    (d.restrict keep).IsForest := by
  have sub (p c : BlockId) (hc : c ∈ (d.restrict keep).childrenOf p) :
      keep p = true ∧ c ∈ d.childrenOf p := by
    rw [childrenOf_restrict] at hc
    split at hc
    · exact ⟨‹_›, hc⟩
    · simp at hc
  have old (q : BlockId) (b : Block) (hb : (d.restrict keep).block? q = some b) :
      keep q = true ∧ d.block? q = some b := by
    rw [block?_restrict] at hb
    split at hb
    · exact ⟨‹_›, hb⟩
    · simp at hb
  exact {
    stored := fun q b hb => h.stored q b (old q b hb).2
    root_mem := by rw [contains_restrict, root_restrict, hr, h.root_mem, Bool.and_self]
    parent_mem := fun p hp => by
      obtain ⟨hkp, hp⟩ := (mem_tree_restrict d keep p).mp hp
      rw [contains_restrict, hkp, h.parent_mem p hp, Bool.and_self]
    child_mem := fun p c hc => by
      obtain ⟨hkp, hc⟩ := sub p c hc
      rw [contains_restrict, hk p c hc hkp, h.child_mem p c hc, Bool.and_self]
    root_unlisted := fun p hp => h.root_unlisted p (sub p _ hp).2
    nodup := fun p => by
      rw [childrenOf_restrict]
      split
      · exact h.nodup p
      · exact List.nodup_nil
    parent_unique := fun p q c hp hq => h.parent_unique p q c (sub p c hp).2 (sub q c hq).2
    lockstep := fun q b hb => by
      obtain ⟨hkq, hb⟩ := old q b hb
      rw [childrenOf_restrict, if_pos hkq, h.lockstep q b hb]
    acyclic := fun x hx => h.acyclic x (hx.lift id fun a b hab => (sub a b hab).2) }

end BlockDocument.Document
