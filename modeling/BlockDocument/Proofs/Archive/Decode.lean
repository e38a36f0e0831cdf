import BlockDocument.Archive.Load
import BlockDocument.Archive.Save
import BlockDocument.Proofs.Json.Reread
import BlockDocument.Proofs.Map
import BlockDocument.Proofs.Time.Rfc3339

/-!
# Decoding what was written

What the parts of a saved document that all records share are decoded to: the fields of a record,
texts, ids, numbers, names and times.
-/

namespace BlockDocument.Archive

open BlockDocument.Json BlockDocument.Number

-- Powers are those of the core library, whatever else is imported.
attribute [local instance (high)] instPowNat

/-! ## Lists -/

section Lists

variable {α β γ : Type}

theorem mapM_eq_map {f : α → Option β} {g : α → β} {xs : List α}
    (h : ∀ x ∈ xs, f x = some (g x)) : xs.mapM f = some (xs.map g) := by
  induction xs with
  | nil => rfl
  | cons x xs ih =>
    obtain ⟨hx, hxs⟩ := List.forall_mem_cons.mp h
    simp only [List.mapM_cons, hx, ih hxs, Option.bind_eq_bind, Option.bind_some, Option.pure_def,
      List.map_cons]

theorem mapM_congr {f g : α → Option β} {xs : List α} (h : ∀ x ∈ xs, f x = g x) :
    xs.mapM f = xs.mapM g := by
  induction xs with
  | nil => rfl
  | cons x xs ih =>
    obtain ⟨hx, hxs⟩ := List.forall_mem_cons.mp h
    rw [List.mapM_cons, List.mapM_cons, hx, ih hxs]

theorem isSome_mapM {f : α → Option β} {xs : List α} :
    (xs.mapM f).isSome = true ↔ ∀ x ∈ xs, (f x).isSome = true := by
  induction xs with
  | nil => simp
  | cons x xs ih =>
    rw [List.forall_mem_cons, ← ih]
    cases hx : f x with
    | none => simp [hx]
    | some y => cases hxs : xs.mapM f <;> simp [hx, hxs]

/-- What every step keeps, the list keeps. -/
theorem map_eq_of_mapM {f : α → Option β} {g : α → γ} {k : β → γ} {xs : List α} {ys : List β}
    (h : xs.mapM f = some ys) (hk : ∀ x ∈ xs, ∀ y, f x = some y → k y = g x) :
    ys.map k = xs.map g := by
  induction xs generalizing ys with
  | nil =>
    cases h
    rfl
  | cons x xs ih =>
    obtain ⟨hx, hxs⟩ := List.forall_mem_cons.mp hk
    cases hfx : f x with
    | none => simp [hfx] at h
    | some y =>
      cases hrest : xs.mapM f with
      | none => simp [hfx, hrest] at h
      | some zs =>
        simp only [List.mapM_cons, hfx, hrest, Option.bind_eq_bind, Option.bind_some,
          Option.pure_def, Option.some.injEq] at h
        rw [← h, List.map_cons, List.map_cons, hx y hfx, ih hrest hxs]

end Lists

/-! ## Records -/

theorem members?_ofMembers (members : List (String × Value)) :
    members? (Source.ofMembers members) = some (members.map fun m => (m.1, Source.ofValue m.2)) := by
  rw [members?, Source.ofMembers_eq, List.mapM_map]
  induction members with
  | nil => rfl
  | cons m members ih => simp_all

/-- Fields that occur once are picked out. -/
theorem pick?_of_nodup {α : Type} {names : List String} {entries : List (String × α)}
    (h : (entries.map Prod.fst).Nodup) :
    pick? names entries = some (entries.filter fun e => names.contains e.1) := by
  have hknown : ((entries.filter fun e => names.contains e.1).map Prod.fst).Nodup :=
    (List.filter_sublist.map Prod.fst).nodup h
  rw [pick?, if_pos]
  exact List.all_eq_true.mpr fun name _ =>
    decide_eq_true (List.nodup_iff_count_le_one.mp hknown name)

theorem lookup_filter {α : Type} {names : List String} {name : String} (h : name ∈ names)
    (entries : List (String × α)) :
    (entries.filter fun e => names.contains e.1).lookup name = entries.lookup name := by
  induction entries with
  | nil => rfl
  | cons e entries ih =>
    obtain ⟨key, x⟩ := e
    rw [List.filter_cons]
    by_cases hk : name = key
    · subst hk
      simp [h, List.lookup_cons_self]
    · have hne : (name == key) = false := beq_false_of_ne hk
      split_ifs with hc
      · rw [List.lookup_cons, List.lookup_cons, hne, ih]
      · rw [List.lookup_cons, hne, ih]

theorem lookup_map {α β : Type} (f : α → β) (name : String) (entries : List (String × α)) :
    (entries.map fun e => (e.1, f e.2)).lookup name = (entries.lookup name).map f := by
  induction entries with
  | nil => rfl
  | cons e entries ih =>
    obtain ⟨key, x⟩ := e
    rw [List.map_cons, List.lookup_cons, List.lookup_cons]
    cases name == key
    · exact ih
    · rfl

/-- The fields that are asked for are found among members with different keys. -/
theorem exists_pick?_ofMembers (names : List String) {members : List (String × Value)}
    (h : (members.map Prod.fst).Nodup) :
    ∃ fields : Fields,
      pick? names (members.map fun m => (m.1, Source.ofValue m.2)) = some fields ∧
      ∀ name ∈ names, fields.lookup name = (members.lookup name).map Source.ofValue := by
  have hkeys : ((members.map fun m => (m.1, Source.ofValue m.2)).map Prod.fst).Nodup := by
    rw [List.map_map]
    exact h
  refine ⟨_, pick?_of_nodup hkeys, fun name hname => ?_⟩
  rw [lookup_filter hname, lookup_map]

/-- The fields of a record that was written as an object. -/
theorem exists_record?_ofValue (names : List String) (spare : Nat) {v : Value}
    {members : List (String × Value)} (hv : v = .object members)
    (h : (members.map Prod.fst).Nodup) :
    ∃ fields, record? names spare (Source.ofValue v) = some fields ∧
      ∀ name ∈ names, fields.lookup name = (members.lookup name).map Source.ofValue := by
  obtain ⟨fields, hpick, hfields⟩ := exists_pick?_ofMembers names h
  refine ⟨fields, ?_, hfields⟩
  rw [hv, Source.ofValue, record?, members?_ofMembers, Option.bind_some, hpick]

section Fields

variable {α : Type} {fields : Fields} {name : String} {decode : Source → Option α}

theorem required_eq {v : Value} (h : fields.lookup name = some (Source.ofValue v)) :
    fields.required name decode = decode (Source.ofValue v) := by
  rw [Fields.required, h, Option.bind_some]

/-- A field that was written as null if it was absent. -/
theorem optional_eq {write : α → Value} {x : Option α}
    (h : fields.lookup name = some (Source.ofValue ((x.map write).getD .null)))
    (hwrite : ∀ y ∈ x, Source.ofValue (write y) ≠ .null ∧
      decode (Source.ofValue (write y)) = some y) :
    fields.optional name decode = some x := by
  cases x with
  | none =>
    rw [Fields.optional, h]
    rfl
  | some y =>
    obtain ⟨hne, hdecode⟩ := hwrite y rfl
    rw [Option.map_some, Option.getD_some] at h
    rw [Fields.optional, h]
    generalize Source.ofValue (write y) = source at hne hdecode
    cases source with
    | null => exact absurd rfl hne
    | _ => exact congrArg (Option.map some) hdecode

end Fields

/-! ## Texts, ids, numbers and names -/

/-- A list of parts is decoded part by part. -/
theorem list?_ofValue {α β : Type} (decode : Source → Option β) (write : α → Value) (xs : List α) :
    list? decode (Source.ofValue (.array (xs.map write))) =
      xs.mapM fun x => decode (Source.ofValue (write x)) := by
  rw [Source.ofValue, list?, Source.ofItems_eq, List.map_map, List.mapM_map]
  rfl

theorem text?_string (s : String) : text? (Source.ofValue (.string s)) = some s := rfl

theorem textOrNull_eq (s : Option String) : textOrNull s = (s.map .string).getD .null := by
  cases s <;> rfl

theorem optional_textOrNull {fields : Fields} {name : String} {s : Option String}
    (h : fields.lookup name = some (Source.ofValue (textOrNull s))) :
    fields.optional name text? = some s := by
  rw [textOrNull_eq] at h
  exact optional_eq h fun s _ => ⟨Source.noConfusion, text?_string s⟩

theorem list?_texts (ss : List String) :
    list? text? (Source.ofValue (.array (ss.map .string))) = some ss := by
  rw [list?_ofValue, mapM_eq_map (g := id) (fun s _ => text?_string s), List.map_id]

theorem id?_idValue (id : BlockId) : id? (Source.ofValue (idValue id)) = some id := rfl

theorem list?_ids (ids : List BlockId) :
    list? id? (Source.ofValue (.array (ids.map idValue))) = some ids := by
  rw [list?_ofValue, mapM_eq_map (g := id) (fun k _ => id?_idValue k), List.map_id]

theorem word32?_natValue {n : Nat} (h : n < 2 ^ (32 : Nat)) :
    word32? (Source.ofValue (natValue n)) = some n := by
  have hvalue : Numeral.value? ⟨false, digits n, none, none⟩ = some (.natural n) :=
    Numeral.value?_natural (h.trans (by decide))
  show word32? (.number ⟨false, digits n, none, none⟩) = some n
  simp only [word32?, hvalue, h, if_true]

theorem roleOf?_name (r : Role) : roleOf? r.name = some r := by
  cases r <;> decide

theorem relationOf?_name (r : Relation) : relationOf? r.name = some r := by
  cases r <;> decide

theorem policyParse?_name (p : Policy) : Policy.parse? p.name = some p := by
  cases p <;> decide

/-! ## Times -/

/-- The instant that is saved for a stamp. -/
def instantOf (now : Time.Instant) : Stamp → Time.Instant
  | .recorded time => time
  | .current => now

theorem stampValue_eq (now : Time.Instant) (s : Stamp) :
    stampValue now s = .string (String.ofList (instantOf now s).text) := by
  cases s <;> rfl

theorem time?_stampValue {now : Time.Instant} {s : Stamp} (h : (instantOf now s).Ranged) :
    time? (Source.ofValue (stampValue now s)) = some (instantOf now s).reread := by
  rw [stampValue_eq, time?, text?_string, Option.bind_some, String.toList_ofList,
    Time.Instant.parse?_text h]

end BlockDocument.Archive
