import BlockDocument.Proofs.Document.Forest
import BlockDocument.Proofs.Document.Outcome
import BlockDocument.Proofs.Inspection.Level

/-!
# Depth and height in a forest

In a forest every chain of children from one id to another has the same number of steps
(`IsForest.steps_unique`). So a climb along parents counts the steps of the only chain down from the
root (`IsForest.depth?_eq_some_iff`); the climb gives up after as many steps as there are blocks,
and a chain in a forest is shorter than that. A walk that meets an id notes the number of steps to
it, whichever way it came, so the greatest number it notes is the number of levels below its start
(`IsForest.isGreatest_height`).
-/

namespace BlockDocument

open Std (ExtTreeMap ExtTreeSet)

section Steps

variable {children : BlockId → List BlockId} {start x y : BlockId} {m n : Nat}

theorem Steps.leads (h : Steps children start n x) : Leads children start x := by
  induction h with
  | start => exact .refl start
  | down _ hc ih => exact ih.tail hc

theorem Steps.append (h : Steps children start m x) (t : Steps children x n y) :
    Steps children start (m + n) y := by
  induction t with
  | start => exact h
  | down _ hc ih => exact ih.down hc

theorem Leads.steps (h : Leads children start x) : ∃ n, Steps children start n x := by
  induction h with
  | refl => exact ⟨0, .start⟩
  | tail _ hc ih =>
    obtain ⟨n, hn⟩ := ih
    exact ⟨n + 1, hn.down hc⟩

/-- Where each step stands for a step or more in other lists of children, they lead as far there. -/
theorem Steps.stretch {children' : BlockId → List BlockId}
    (hstep : ∀ p, ∀ c ∈ children p, ∃ k, 1 ≤ k ∧ Steps children' p k c)
    (h : Steps children start n x) : ∃ k, n ≤ k ∧ Steps children' start k x := by
  induction h with
  | start => exact ⟨0, Nat.le_refl 0, .start⟩
  | @down n p c _ hc ih =>
    obtain ⟨j, hj, hp⟩ := ih
    obtain ⟨k, hk, hc⟩ := hstep p c hc
    exact ⟨j + k, Nat.add_le_add hj hk, hp.append hc⟩

/-- Where one child is new under a parent, and no chain leads from it to that parent, steps are old
ones, or old ones down to the parent and on from the child. -/
theorem Steps.graft {children' : BlockId → List BlockId} {p c : BlockId}
    (hlists : ∀ q, ∀ y ∈ children' q, y ∈ children q ∨ q = p ∧ y = c)
    (hloop : ¬ Leads children c p) (h : Steps children' start n x) :
    Steps children start n x ∨
      ∃ j i, Steps children start j p ∧ Steps children c i x ∧ n = j + 1 + i := by
  induction h with
  | start => exact .inl .start
  | @down n q y _ hy ih =>
    rcases ih with hq | ⟨j, i, hp, hq, rfl⟩
    · rcases hlists q y hy with hold | ⟨rfl, rfl⟩
      · exact .inl (hq.down hold)
      · exact .inr ⟨n, 0, hq, .start, rfl⟩
    · rcases hlists q y hy with hold | ⟨rfl, rfl⟩
      · exact .inr ⟨j, i + 1, hp, hq.down hold, rfl⟩
      · exact absurd hq.leads hloop

end Steps

namespace Document

variable {d : Document}

/-- Between two ids of a forest there is one number of steps at most. -/
theorem IsForest.steps_unique (h : d.IsForest) {start x : BlockId} {m n : Nat}
    (hm : Steps d.childrenOf start m x) (hn : Steps d.childrenOf start n x) : m = n := by
  have noReturn {k : Nat} {p : BlockId} (hp : Steps d.childrenOf start k p)
      (hc : start ∈ d.childrenOf p) : False :=
    h.acyclic start (Relation.TransGen.tail' hp.leads hc)
  induction hm generalizing n with
  | start =>
    cases hn with
    | start => rfl
    | down hp hc => exact (noReturn hp hc).elim
  | @down m p c hp hc ih =>
    cases hn with
    | start => exact (noReturn hp hc).elim
    | @down n q _ hq hc' =>
      obtain rfl : p = q := h.parent_unique p q c hc hc'
      rw [ih hq]

/-- In a forest the steps that lead to an id are its distance. -/
theorem IsForest.distance_iff (h : d.IsForest) {start x : BlockId} {n : Nat} :
    Distance d.childrenOf start x n ↔ Steps d.childrenOf start n x := by
  refine ⟨fun hd => hd.1, fun hs => ⟨hs, fun k hk => ?_⟩⟩
  exact Nat.le_of_eq (h.steps_unique hs hk)

/-! ## Depth -/

/-- A chain down from the root is shorter than the number of blocks: the ids on it are at different
distances from the root, and all of them are blocks. -/
theorem IsForest.steps_lt_size (h : d.IsForest) {x : BlockId} {n : Nat}
    (hs : Steps d.childrenOf d.root n x) : n < d.size := by
  have hmet (k : Nat) (hk : k ∈ Finset.range (n + 1)) :
      ∃ y, Distance d.childrenOf d.root y k :=
    (h.distance_iff.mpr hs).nearer (Nat.lt_succ_iff.mp (Finset.mem_range.mp hk))
  choose! onPath hpath using hmet
  have hmaps : Set.MapsTo onPath (Finset.range (n + 1)) d.blocks.keys.toFinset := by
    intro k hk
    have hblock := (hpath k hk).1.mem (P := fun y => d.contains y = true) h.root_mem h.child_mem
    rw [Finset.mem_coe, List.mem_toFinset, ExtTreeMap.mem_keys]
    exact hblock
  have hinj : Set.InjOn onPath (Finset.range (n + 1)) := by
    intro j hj k hk hjk
    have hd := hpath j hj
    rw [hjk] at hd
    exact hd.eq (hpath k hk)
  have hcard : (Finset.range (n + 1)).card ≤ d.blocks.keys.toFinset.card :=
    Finset.card_le_card_of_injOn onPath hmaps hinj
  have hkeys := List.toFinset_card_le d.blocks.keys
  rw [Finset.card_range] at hcard
  rw [ExtTreeMap.length_keys] at hkeys
  exact Nat.lt_of_lt_of_le hcard hkeys

/-- A climb counts the steps down to where it started, if they are within its bound. -/
theorem IsForest.climb_eq_some_iff (h : d.IsForest) {bound k : Nat} {x : BlockId} :
    d.climb bound x = some k ↔ Steps d.childrenOf d.root k x ∧ k ≤ bound := by
  have top {k : Nat} : Steps d.childrenOf d.root k d.root ↔ k = 0 :=
    ⟨fun hk => h.steps_unique hk .start, fun hk => hk ▸ .start⟩
  induction bound generalizing k x with
  | zero =>
    rw [climb, Nat.le_zero]
    by_cases hx : x = d.root
    · simp [hx, top, eq_comm]
    · rw [if_neg hx]
      simp only [reduceCtorEq, false_iff, not_and]
      rintro hs rfl
      cases hs
      exact hx rfl
  | succ bound ih =>
    rw [climb]
    by_cases hx : x = d.root
    · subst hx
      simp only [if_true, top, Option.some.injEq]
      omega
    rw [if_neg hx]
    constructor
    · intro hk
      obtain ⟨p, hp, hclimb⟩ := Option.bind_eq_some_iff.mp hk
      obtain ⟨j, hj, rfl⟩ := Option.map_eq_some_iff.mp hclimb
      obtain ⟨hsteps, hle⟩ := ih.mp hj
      exact ⟨hsteps.down (parent?_eq_some hp), Nat.succ_le_succ hle⟩
    · rintro ⟨hs, hle⟩
      cases hs with
      | start => exact absurd rfl hx
      | @down j q _ hq hc =>
        cases hp : d.parent? x with
        | none => exact absurd hc (parent?_eq_none hp q)
        | some p =>
          obtain rfl : p = q := h.parent_unique p q x (parent?_eq_some hp) hc
          have hclimb := ih.mpr ⟨hq, Nat.le_of_succ_le_succ hle⟩
          simp [hclimb]

/-- **Depth in a forest**: climbing up from an id finds the number of steps down to it from the root,
and finds nothing exactly if none lead there. -/
theorem IsForest.depth?_eq_some_iff (h : d.IsForest) {x : BlockId} {k : Nat} :
    d.depth? x = some k ↔ Steps d.childrenOf d.root k x := by
  rw [depth?, h.climb_eq_some_iff]
  exact and_iff_left_of_imp fun hs => Nat.le_of_lt (h.steps_lt_size hs)

end Document

/-! ## Height -/

/-- What a walk has found when its work is done: no id below what it has met or has still to meet is
at a greater level than the one it found, and it found some id there, or nothing new. `Level` says
which ids are at a level. -/
structure Measured (children : BlockId → List BlockId) (Level : Nat → BlockId → Prop)
    (work : List (BlockId × Nat)) (met : ExtTreeSet BlockId) (height found : Nat) : Prop where
  bound : ∀ x, x ∈ met ∨ x ∈ work.map Prod.fst → ∀ y, Leads children x y →
    ∀ n, Level n y → n ≤ found
  attained : found = height ∨ ∃ x, Level found x

section heightWalk

variable {children : BlockId → List BlockId} {Level : Nat → BlockId → Prop}

/-- What holds before each step of such a walk: it knows the level of each id that it has still to
meet, the children of an id it has met are met or still to meet, and it has noted no less than the
level of any id it has met. -/
structure Gauged (children : BlockId → List BlockId) (Level : Nat → BlockId → Prop)
    (work : List (BlockId × Nat)) (met : ExtTreeSet BlockId) (height : Nat) : Prop where
  known : ∀ w ∈ work, Level w.2 w.1
  closed : ∀ x ∈ met, ∀ c ∈ children x, c ∈ met ∨ c ∈ work.map Prod.fst
  noted : ∀ x ∈ met, ∀ n, Level n x → n ≤ height

variable {work : List (BlockId × Nat)} {met : ExtTreeSet BlockId} {id : BlockId} {height level : Nat}

/-- A walk whose work is done has met all that is below what it has met. -/
theorem Gauged.done (h : Gauged children Level [] met height) :
    Measured children Level [] met height height where
  bound x hx y hl := by
    have hy : y ∈ met := by
      induction hl with
      | refl => exact hx.resolve_right List.not_mem_nil
      | tail _ hc ih => exact (h.closed _ ih _ hc).resolve_right List.not_mem_nil
    exact h.noted y hy
  attained := .inl rfl

/-- Nothing is lost with an id that was met before. -/
theorem Gauged.skip (h : Gauged children Level ((id, level) :: work) met height) (hid : id ∈ met) :
    Gauged children Level work met height where
  known w hw := h.known w (List.mem_cons_of_mem _ hw)
  closed x hx c hc := by
    rcases h.closed x hx c hc with hcm | hcw
    · exact .inl hcm
    · rcases List.mem_cons.mp hcw with rfl | hcw
      · exact .inl hid
      · exact .inr hcw
  noted := h.noted

theorem mem_work_visited {c : BlockId} :
    c ∈ ((children id).reverse.map (·, level + 1) ++ work).map Prod.fst ↔
      c ∈ children id ∨ c ∈ work.map Prod.fst := by
  simp

/-- At an id that is met for the first time its children are still to meet, a level below it. -/
theorem Gauged.visit (h : Gauged children Level ((id, level) :: work) met height)
    (hunique : ∀ x m n, Level m x → Level n x → m = n)
    (hdown : ∀ x n, Level n x → ∀ c ∈ children x, Level (n + 1) c) :
    Gauged children Level ((children id).reverse.map (·, level + 1) ++ work) (met.insert id)
      (max height level) where
  known w hw := by
    rcases List.mem_append.mp hw with hw | hw
    · obtain ⟨c, hc, rfl⟩ := List.mem_map.mp hw
      exact hdown id level (h.known _ List.mem_cons_self) c (List.mem_reverse.mp hc)
    · exact h.known w (List.mem_cons_of_mem _ hw)
  closed x hx c hc := by
    rw [mem_insert_met, mem_work_visited]
    rcases mem_insert_met.mp hx with rfl | hx
    · exact .inr (.inl hc)
    · rcases h.closed x hx c hc with hcm | hcw
      · exact .inl (.inr hcm)
      · rw [List.map_cons, List.mem_cons] at hcw
        tauto
  noted x hx n hn := by
    rcases mem_insert_met.mp hx with rfl | hx
    · rw [hunique x n level hn (h.known _ List.mem_cons_self)]
      exact Nat.le_max_right ..
    · exact Nat.le_trans (h.noted x hx n hn) (Nat.le_max_left ..)

/-- Where every id is at one level only and children are a level below, a walk that meets an id finds
its level, whichever way it came. -/
theorem heightWalk_measured {keys : List BlockId} (hk : keys.Nodup)
    (hc : ∀ x ∉ keys, children x = []) (hunique : ∀ x m n, Level m x → Level n x → m = n)
    (hdown : ∀ x n, Level n x → ∀ c ∈ children x, Level (n + 1) c)
    (fuel : Nat) (work : List (BlockId × Nat)) (met : ExtTreeSet BlockId) (height : Nat)
    (hg : Gauged children Level work met height)
    (hf : work.length + pending children keys met.contains ≤ fuel) :
    Measured children Level work met height (heightWalk children fuel work met height) := by
  fun_induction heightWalk children fuel work met height with
  | case1 work met height =>
    obtain rfl : work = [] := List.length_eq_zero_iff.mp (by omega)
    exact hg.done
  | case2 => exact hg.done
  | case3 fuel id level work met height hid ih =>
    have h := ih (hg.skip hid) (by rw [List.length_cons] at hf; omega)
    exact ⟨fun x hx => h.bound x (by grind), h.attained⟩
  | case4 fuel id level work met height hid ih =>
    have hpend := pending_meet hk hc (Bool.eq_false_of_not_eq_true hid)
      (contains_insert_met met id)
    have hfuel : ((children id).reverse.map (·, level + 1) ++ work).length +
        pending children keys (met.insert id).contains ≤ fuel := by
      rw [List.length_append, List.length_map, List.length_reverse]
      rw [List.length_cons] at hf
      omega
    have h := ih (hg.visit hunique hdown) hfuel
    refine ⟨fun x hx => h.bound x ?_, ?_⟩
    · rw [mem_insert_met, mem_work_visited]
      rw [List.map_cons, List.mem_cons] at hx
      tauto
    · -- the greater of two levels is that of an id, or the one noted before
      rcases h.attained with heq | hat
      · rw [heq]
        rcases Nat.le_total height level with hle | hle
        · rw [Nat.max_eq_right hle]
          exact .inr ⟨id, hg.known _ List.mem_cons_self⟩
        · exact .inl (Nat.max_eq_left hle)
      · exact .inr hat

end heightWalk

/-- **Height in a forest**: the number of levels below an id is the greatest number of steps that lead
down from it. -/
theorem Document.IsForest.isGreatest_height {d : Document} (h : d.IsForest) (id : BlockId) :
    IsGreatest {n | ∃ x, Steps d.childrenOf id n x} (d.height id) := by
  have hmeasured : Measured d.childrenOf (Steps d.childrenOf id) [(id, 0)] ∅ 0 (d.height id) := by
    have hunique (x : BlockId) (m n : Nat) (hm : Steps d.childrenOf id m x)
        (hn : Steps d.childrenOf id n x) : m = n := h.steps_unique hm hn
    have hdown (x : BlockId) (n : Nat) (hn : Steps d.childrenOf id n x) (c : BlockId)
        (hc : c ∈ d.childrenOf x) : Steps d.childrenOf id (n + 1) c := hn.down hc
    have hstart : Gauged d.childrenOf (Steps d.childrenOf id) [(id, 0)] ∅ 0 :=
      ⟨fun w hw => List.mem_singleton.mp hw ▸ .start, by simp, by simp⟩
    refine heightWalk_measured d.nodup_keys_tree d.childrenOf_eq_nil_of_not_mem_keys hunique hdown
      _ _ _ _ hstart ?_
    rw [Document.contains_empty_met, Document.pending_eq_listedCount, List.length_singleton,
      Nat.add_comm]
  constructor
  · rcases hmeasured.attained with hzero | hx
    · rw [hzero]
      exact ⟨id, .start⟩
    · exact hx
  · rintro n ⟨x, hx⟩
    exact hmeasured.bound id (.inr (by simp)) x hx.leads n hx

end BlockDocument
