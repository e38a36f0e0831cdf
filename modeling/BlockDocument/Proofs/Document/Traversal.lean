import BlockDocument.Proofs.Document.Depth

/-!
# Walks as recursion

The walks of a document are loops over a list of work. On a forest they list what the recursion on
the tree lists: an id together with what lies below it, row by row (`Traversed`). A row of which no
id leads to another one is traversed without meeting an id twice (`IsForest.nodup_traversed`), so
that a walk never passes over an id as already met, and it takes as many steps for a row as the
recursion lists ids (`Preordered.walk`), or twice as many where it comes back to an id after its
children (`Postordered.walk`).
-/

namespace BlockDocument

open Std (ExtTreeSet)

/-- The ids of a row and everything below them, in the order of the recursion on the tree: an id is
put in its place among what lies below it, and the rest of the row follows. -/
inductive Traversed (place : BlockId → List BlockId → List BlockId)
    (children : BlockId → List BlockId) : List BlockId → List BlockId → Prop where
  | nil : Traversed place children [] []
  | cons {id : BlockId} {row below rest : List BlockId}
      (hbelow : Traversed place children (children id) below)
      (hrest : Traversed place children row rest) :
      Traversed place children (id :: row) (place id below ++ rest)

/-- Each id stands before what lies below it. -/
abbrev Preordered : (BlockId → List BlockId) → List BlockId → List BlockId → Prop :=
  Traversed List.cons

/-- Each id stands after what lies below it. -/
abbrev Postordered : (BlockId → List BlockId) → List BlockId → List BlockId → Prop :=
  Traversed fun id below => below ++ [id]

namespace Traversed

variable {place : BlockId → List BlockId → List BlockId} {children : BlockId → List BlockId}
  {row listed listed' : List BlockId}

/-- There is one way to traverse a row at most. -/
theorem unique (h : Traversed place children row listed)
    (h' : Traversed place children row listed') : listed = listed' := by
  induction h generalizing listed' with
  | nil =>
    cases h'
    rfl
  | cons _ _ ihbelow ihrest =>
    cases h' with
    | cons hbelow hrest => rw [ihbelow hbelow, ihrest hrest]

/-- Two rows are traversed one after the other. -/
theorem append {row' : List BlockId} (h : Traversed place children row listed)
    (h' : Traversed place children row' listed') :
    Traversed place children (row ++ row') (listed ++ listed') := by
  induction h with
  | nil => exact h'
  | cons hbelow _ _ ihrest =>
    rw [List.append_assoc]
    exact .cons hbelow ihrest

/-- What is listed is what the ids of the row lead to. -/
theorem mem_iff (hplace : ∀ id below, (place id below).Perm (id :: below))
    (h : Traversed place children row listed) {x : BlockId} :
    x ∈ listed ↔ ∃ a ∈ row, Leads children a x := by
  induction h with
  | nil => simp
  | @cons id row below rest _ _ ihbelow ihrest =>
    have hhead : x ∈ place id below ↔ Leads children id x := by
      rw [(hplace id below).mem_iff, List.mem_cons, ihbelow, Leads,
        Relation.ReflTransGen.cases_head_iff, eq_comm (a := x)]
    rw [List.mem_append, hhead, ihrest]
    simp

end Traversed

/-- No id of a row leads to another one. -/
def Apart (children : BlockId → List BlockId) (row : List BlockId) : Prop :=
  row.Pairwise fun a b => ¬ Leads children a b ∧ ¬ Leads children b a

namespace Document.IsForest

variable {d : Document}

/-! ## The recursion on a forest -/

theorem height_lt (h : d.IsForest) {p c : BlockId} (hc : c ∈ d.childrenOf p) :
    d.height c < d.height p := by
  obtain ⟨x, hx⟩ := (h.isGreatest_height c).1
  have hsteps : Steps d.childrenOf p (0 + 1 + d.height c) x := (Steps.start.down hc).append hx
  have hle : 0 + 1 + d.height c ≤ d.height p := (h.isGreatest_height p).2 ⟨x, hsteps⟩
  omega

/-- On a forest the recursion comes to an end, as a child has fewer levels below it than its
parent. -/
theorem exists_traversed (h : d.IsForest) (place : BlockId → List BlockId → List BlockId)
    (id : BlockId) : ∃ listed, Traversed place d.childrenOf [id] listed := by
  have rows (n : Nat) (row : List BlockId) (hrow : ∀ x ∈ row, d.height x < n) :
      ∃ listed, Traversed place d.childrenOf row listed := by
    -- on the levels below the row, and for rows of one height from child to child
    induction n generalizing row with
    | zero =>
      obtain rfl : row = [] := List.eq_nil_iff_forall_not_mem.mpr fun x hx => by
        have := hrow x hx
        omega
      exact ⟨[], .nil⟩
    | succ n ih =>
      induction row with
      | nil => exact ⟨[], .nil⟩
      | cons x row ihrow =>
        have hx : d.height x < n + 1 := hrow x List.mem_cons_self
        obtain ⟨below, hbelow⟩ := ih (d.childrenOf x) fun c hc => by
          have := h.height_lt hc
          omega
        obtain ⟨rest, hrest⟩ := ihrow fun y hy => hrow y (List.mem_cons_of_mem x hy)
        exact ⟨_, .cons hbelow hrest⟩
  refine rows (d.height id + 1) [id] fun x hx => ?_
  rw [List.mem_singleton.mp hx]
  omega

/-- Of two ids that lead to the same one, one leads to the other. -/
theorem leads_total (h : d.IsForest) {a b x : BlockId} (ha : Leads d.childrenOf a x)
    (hb : Leads d.childrenOf b x) : Leads d.childrenOf a b ∨ Leads d.childrenOf b a := by
  induction ha with
  | refl => exact .inr hb
  | @tail p c hap hpc ih =>
    rcases Relation.ReflTransGen.cases_tail hb with rfl | ⟨q, hbq, hqc⟩
    · exact .inl (hap.tail hpc)
    · obtain rfl : p = q := h.parent_unique p q c hpc hqc
      exact ih hbq

theorem apart_children (h : d.IsForest) (p : BlockId) :
    Apart d.childrenOf (d.childrenOf p) := by
  have none_leads {a b : BlockId} (ha : a ∈ d.childrenOf p) (hb : b ∈ d.childrenOf p)
      (hab : a ≠ b) : ¬ Leads d.childrenOf a b := by
    intro hl
    rcases Relation.ReflTransGen.cases_tail hl with he | ⟨q, haq, hbq⟩
    · exact hab he.symm
    · obtain rfl : q = p := h.parent_unique q p b hbq hb
      exact h.acyclic q (.head' ha haq)
  refine (h.nodup p).imp_of_mem fun ha hb hab => ?_
  exact ⟨none_leads ha hb hab, none_leads hb ha hab.symm⟩

theorem nodup_traversed (h : d.IsForest) {place : BlockId → List BlockId → List BlockId}
    (hplace : ∀ id below, (place id below).Perm (id :: below)) {row listed : List BlockId}
    (ht : Traversed place d.childrenOf row listed) (hrow : Apart d.childrenOf row) :
    listed.Nodup := by
  induction ht with
  | nil => exact List.nodup_nil
  | @cons id row below rest hbelow hrest ihbelow ihrest =>
    obtain ⟨happart, hrow⟩ := List.pairwise_cons.mp hrow
    have hid : id ∉ below := by
      intro hmem
      obtain ⟨c, hc, hl⟩ := (hbelow.mem_iff hplace).mp hmem
      exact h.acyclic id (.head' hc hl)
    have hhead : (place id below).Nodup :=
      (hplace id below).nodup_iff.mpr
        (List.nodup_cons.mpr ⟨hid, ihbelow (h.apart_children id)⟩)
    have hleads {x : BlockId} (hx : x ∈ place id below) : Leads d.childrenOf id x := by
      rcases List.mem_cons.mp ((hplace id below).mem_iff.mp hx) with rfl | hx
      · exact .refl x
      · obtain ⟨c, hc, hl⟩ := (hbelow.mem_iff hplace).mp hx
        exact .step hc hl
    refine List.nodup_append.mpr ⟨hhead, ihrest hrow, fun x hx y hy hxy => ?_⟩
    -- an id that is listed twice would bring two ids of the row together
    obtain ⟨a, ha, hl⟩ := (hrest.mem_iff hplace).mp hy
    rcases h.leads_total (hxy ▸ hleads hx) hl with hia | hai
    · exact (happart a ha).1 hia
    · exact (happart a ha).2 hai

/-- No more ids are traversed below an id than the lists of children hold. -/
theorem length_traversed (h : d.IsForest) {place : BlockId → List BlockId → List BlockId}
    (hplace : ∀ id below, (place id below).Perm (id :: below)) {id : BlockId}
    {listed : List BlockId} (ht : Traversed place d.childrenOf [id] listed) :
    listed.length ≤ d.listedCount + 1 := by
  have hsub : listed ⊆ id :: d.listed := by
    intro x hx
    obtain ⟨a, ha, hl⟩ := (ht.mem_iff hplace).mp hx
    obtain rfl := List.mem_singleton.mp ha
    rcases Relation.ReflTransGen.cases_tail hl with rfl | ⟨p, -, hp⟩
    · exact List.mem_cons_self
    · exact List.mem_cons_of_mem a (mem_listed.mpr ⟨p, hp⟩)
  exact ((h.nodup_traversed hplace ht (List.pairwise_singleton _ id)).subperm hsub).length_le

end Document.IsForest

/-! ## The loops -/

section walks

variable {children : BlockId → List BlockId} {row listed : List BlockId}

/-- A row whose ids are new to a walk is listed as the recursion lists it. -/
theorem Preordered.walk (h : Preordered children row listed) (hnd : listed.Nodup)
    (met : ExtTreeSet BlockId) (hnew : ∀ x ∈ listed, x ∉ met) (fuel : Nat)
    (work before : List BlockId) :
    ∃ met' : ExtTreeSet BlockId, (∀ x, x ∈ met' ↔ x ∈ met ∨ x ∈ listed) ∧
      preorderWalk children (listed.length + fuel) (row ++ work) met before =
        preorderWalk children fuel work met' (listed.reverse ++ before) := by
  induction h generalizing met fuel work before with
  | nil => exact ⟨met, by simp, by simp⟩
  | @cons id row below rest hbelow hrest ihbelow ihrest =>
    rw [List.cons_append] at hnd hnew ⊢
    obtain ⟨hid, hnd⟩ := List.nodup_cons.mp hnd
    obtain ⟨hndb, hndr, hdis⟩ := List.nodup_append.mp hnd
    -- first what lies below the id, then the rest of the row, each with what was met so far
    obtain ⟨met₁, hmet₁, hwalk₁⟩ := ihbelow hndb (met.insert id)
      (fun x hx => by rw [mem_insert_met]; grind) (rest.length + fuel) (row ++ work) (id :: before)
    obtain ⟨met₂, hmet₂, hwalk₂⟩ := ihrest hndr met₁
      (fun x hx => by rw [hmet₁, mem_insert_met]; grind) fuel work (below.reverse ++ id :: before)
    refine ⟨met₂, fun x => ?_, ?_⟩
    · rw [hmet₂, hmet₁, mem_insert_met, List.mem_cons, List.mem_append]
      tauto
    have hfuel : (id :: (below ++ rest)).length + fuel =
        below.length + (rest.length + fuel) + 1 := by
      rw [List.length_cons, List.length_append]
      omega
    calc preorderWalk children ((id :: (below ++ rest)).length + fuel) (id :: row ++ work) met before
        = preorderWalk children (below.length + (rest.length + fuel))
            (children id ++ (row ++ work)) (met.insert id) (id :: before) := by
          rw [hfuel, List.cons_append, preorderWalk, if_neg (hnew id List.mem_cons_self)]
      _ = preorderWalk children fuel work met₂ (rest.reverse ++ (below.reverse ++ id :: before)) := by
          rw [hwalk₁, hwalk₂]
      _ = _ := by simp

/-- A row whose ids are new to a walk is left as the recursion lists it. -/
theorem Postordered.walk (h : Postordered children row listed) (hnd : listed.Nodup)
    (met : ExtTreeSet BlockId) (hnew : ∀ x ∈ listed, x ∉ met) (fuel : Nat)
    (work : List (BlockId × Bool)) (before : List BlockId) :
    ∃ met' : ExtTreeSet BlockId, (∀ x, x ∈ met' ↔ x ∈ met ∨ x ∈ listed) ∧
      postorderWalk children (2 * listed.length + fuel) (row.map (·, false) ++ work) met before =
        postorderWalk children fuel work met' (listed.reverse ++ before) := by
  induction h generalizing met fuel work before with
  | nil => exact ⟨met, by simp, by simp⟩
  | @cons id row below rest hbelow hrest ihbelow ihrest =>
    obtain ⟨hndb, hndr, hdis⟩ := List.nodup_append.mp hnd
    obtain ⟨hndb, -, hid⟩ := List.nodup_append.mp hndb
    -- the marked id stands between what lies below it and the rest of the row
    obtain ⟨met₁, hmet₁, hwalk₁⟩ := ihbelow hndb (met.insert id)
      (fun x hx => by rw [mem_insert_met]; grind) (2 * rest.length + fuel + 1)
      ((id, true) :: (row.map (·, false) ++ work)) before
    obtain ⟨met₂, hmet₂, hwalk₂⟩ := ihrest hndr met₁
      (fun x hx => by rw [hmet₁, mem_insert_met]; grind) fuel work (id :: (below.reverse ++ before))
    refine ⟨met₂, fun x => ?_, ?_⟩
    · rw [hmet₂, hmet₁, mem_insert_met, List.mem_append, List.mem_append, List.mem_singleton]
      tauto
    have hfuel : 2 * (below ++ [id] ++ rest).length + fuel =
        2 * below.length + (2 * rest.length + fuel + 1) + 1 := by
      rw [List.length_append, List.length_append, List.length_singleton]
      omega
    have hmiss : id ∉ met := hnew id (by simp)
    calc postorderWalk children (2 * (below ++ [id] ++ rest).length + fuel)
          ((id :: row).map (·, false) ++ work) met before
        = postorderWalk children (2 * below.length + (2 * rest.length + fuel + 1))
            ((children id).map (·, false) ++ (id, true) :: (row.map (·, false) ++ work))
            (met.insert id) before := by
          rw [hfuel, List.map_cons, List.cons_append, postorderWalk, if_neg hmiss]
      _ = postorderWalk children (2 * rest.length + fuel) (row.map (·, false) ++ work) met₁
            (id :: (below.reverse ++ before)) := by
          rw [hwalk₁, postorderWalk]
      _ = postorderWalk children fuel work met₂
            (rest.reverse ++ (id :: (below.reverse ++ before))) := hwalk₂
      _ = _ := by simp

theorem preorderWalk_done (fuel : Nat) (met : ExtTreeSet BlockId) (before : List BlockId) :
    preorderWalk children fuel [] met before = before.reverse := by
  cases fuel <;> rfl

theorem postorderWalk_done (fuel : Nat) (met : ExtTreeSet BlockId) (before : List BlockId) :
    postorderWalk children fuel [] met before = before.reverse := by
  cases fuel <;> rfl

end walks

/-! ## The walks of a forest -/

namespace Document.IsForest

variable {d : Document}

/-- **Parents first**: a walk down a forest lists an id and its descendants as the recursion on the
tree does. -/
theorem preordered_subtree (h : d.IsForest) (id : BlockId) :
    Preordered d.childrenOf [id] (d.subtree id) := by
  obtain ⟨listed, ht⟩ := h.exists_traversed List.cons id
  have hplace (id : BlockId) (below : List BlockId) : (id :: below).Perm (id :: below) := .refl _
  have hnd := h.nodup_traversed hplace ht (List.pairwise_singleton _ id)
  obtain ⟨fuel, hfuel⟩ := Nat.exists_eq_add_of_le (h.length_traversed hplace ht)
  obtain ⟨met, -, hwalk⟩ := Preordered.walk ht hnd ∅ (by simp) fuel [] []
  have hsubtree : d.subtree id = listed := by
    rw [subtree, hfuel]
    rw [List.append_nil, preorderWalk_done] at hwalk
    simpa using hwalk
  rwa [hsubtree]

/-- **Children first**: a walk that leaves ids after their children lists an id and its descendants
as the recursion on the tree does. -/
theorem postordered_postorder (h : d.IsForest) (id : BlockId) :
    Postordered d.childrenOf [id] (d.postorder id) := by
  obtain ⟨listed, ht⟩ := h.exists_traversed (fun id below => below ++ [id]) id
  have hplace (id : BlockId) (below : List BlockId) : (below ++ [id]).Perm (id :: below) :=
    List.perm_append_singleton id below
  have hnd := h.nodup_traversed hplace ht (List.pairwise_singleton _ id)
  obtain ⟨fuel, hfuel⟩ := Nat.exists_eq_add_of_le (h.length_traversed hplace ht)
  obtain ⟨met, -, hwalk⟩ := Postordered.walk ht hnd ∅ (by simp) (2 * fuel) [] []
  have hpostorder : d.postorder id = listed := by
    rw [postorder, hfuel, Nat.mul_add]
    rw [List.append_nil, postorderWalk_done] at hwalk
    simpa using hwalk
  rwa [hpostorder]

/-- Everything that a walk down from the root of a forest meets is a block. -/
theorem order_eq_subtree (h : d.IsForest) : d.order = d.subtree d.root := by
  refine List.filter_eq_self.mpr fun x hx => ?_
  obtain ⟨n, hn⟩ := (mem_subtree.mp hx).steps
  exact hn.mem (P := fun y => d.contains y = true) h.root_mem h.child_mem

/-- Where an id is taken from its list, and with it all that it leads to, the rest is listed as
before. -/
theorem preordered_without (h : d.IsForest) {children' : BlockId → List BlockId} {id : BlockId}
    {keep : BlockId → Bool} (hkeep : ∀ x, keep x = true ↔ ¬ Leads d.childrenOf id x)
    (hlists : ∀ q, keep q = true → children' q = (d.childrenOf q).filter (· ≠ id))
    {row listed : List BlockId} (ht : Preordered d.childrenOf row listed)
    (hrow : ∀ x ∈ row, keep x = true ∨ x = id) :
    Preordered children' (row.filter (· ≠ id)) (listed.filter keep) := by
  induction ht with
  | nil => exact .nil
  | @cons x row below rest hbelow hrest ihbelow ihrest =>
    have hrest' := ihrest fun y hy => hrow y (List.mem_cons_of_mem x hy)
    rw [List.filter_append]
    by_cases hx : x = id
    · subst hx
      -- at the id itself all that it leads to goes
      have hgone : (x :: below).filter keep = [] := by
        refine List.filter_eq_nil_iff.mpr fun y hy hk => (hkeep y).mp hk ?_
        rcases List.mem_cons.mp hy with rfl | hy
        · exact .refl y
        · obtain ⟨c, hc, hl⟩ := (hbelow.mem_iff fun _ _ => .refl _).mp hy
          exact .step hc hl
      rw [hgone, List.filter_cons_of_neg (by simp)]
      exact hrest'
    · have hkx : keep x = true := (hrow x List.mem_cons_self).resolve_right hx
      -- a child stays with its parent, since no other parent could bring it below the id
      have hbelow' := ihbelow fun c hc => by
        by_cases hci : c = id
        · exact .inr hci
        · refine .inl ((hkeep c).mpr fun hl => ?_)
          rcases Relation.ReflTransGen.cases_tail hl with he | ⟨q, hq, hcq⟩
          · exact hci he
          · obtain rfl : q = x := h.parent_unique q x c hcq hc
            exact (hkeep q).mp hkx hq
      rw [← hlists x hkx] at hbelow'
      rw [List.filter_cons_of_pos (by simpa using hx), List.filter_cons_of_pos hkx]
      exact .cons hbelow' hrest'

end Document.IsForest

end BlockDocument
