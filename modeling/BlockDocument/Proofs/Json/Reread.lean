import BlockDocument.Json.Writer
import BlockDocument.Proofs.Json.Read

/-!
# Values that are written and read

What comes of a value that is written and taken over from its text again: numbers as they are read
back, null in the place of numbers without a text, and of members with the same key only one. A value
is taken over exactly if it nests no deeper than the bound. Indentation makes a text longer by what
its levels take at most (`Value.length_indented_le`), so the length of the indented text is bounded
without writing it.
-/

namespace BlockDocument.Json

open BlockDocument.Number

namespace Value

/-! ## Nesting and the length of a text -/

theorem nestingItems_le_length (level : Nat) {items : List Value}
    (h : ∀ v ∈ items, ∀ level, v.nesting ≤ (v.indented level).length) :
    nestingItems items ≤ (indentedItems level items).length := by
  induction items with
  | nil => exact Nat.zero_le _
  | cons v items ih =>
    obtain ⟨hv, hitems⟩ := List.forall_mem_cons.mp h
    have h₁ := hv (level + 1)
    have h₂ := ih hitems
    simp only [nestingItems, indentedItems, List.length_cons, List.length_append]
    omega

theorem nestingMembers_le_length (level : Nat) {members : List (String × Value)}
    (h : ∀ m ∈ members, ∀ level, m.2.nesting ≤ (m.2.indented level).length) :
    nestingMembers members ≤ (indentedMembers level members).length := by
  induction members with
  | nil => exact Nat.zero_le _
  | cons m members ih =>
    obtain ⟨hv, hmembers⟩ := List.forall_mem_cons.mp h
    have h₁ := hv (level + 1)
    have h₂ := ih hmembers
    simp only [nestingMembers, indentedMembers, List.length_cons, List.length_append]
    omega

/-- A text is at least as long as its value is deep. -/
theorem nesting_le_length (v : Value) (level : Nat) : v.nesting ≤ (v.indented level).length := by
  induction v using Value.induction generalizing level with
  | null => exact Nat.zero_le _
  | bool b => exact Nat.zero_le _
  | number n => exact Nat.zero_le _
  | string s => exact Nat.zero_le _
  | array items ih =>
    cases items with
    | nil => simp [nesting, nestingItems, indented]
    | cons v items =>
      obtain ⟨hv, hitems⟩ := List.forall_mem_cons.mp ih
      have h₁ := hv (level + 1)
      have h₂ := nestingItems_le_length level hitems
      simp only [nesting, nestingItems, indented, List.length_cons, List.length_append]
      omega
  | object members ih =>
    cases members with
    | nil => simp [nesting, nestingMembers, indented]
    | cons m members =>
      obtain ⟨hv, hmembers⟩ := List.forall_mem_cons.mp ih
      have h₁ := hv (level + 1)
      have h₂ := nestingMembers_le_length level hmembers
      simp only [nesting, nestingMembers, indented, List.length_cons, List.length_append]
      omega

/-! ## Indentation and the length of a text -/

theorem length_newLine (level : Nat) : (newLine level).length = 2 * level + 1 := by
  rw [newLine, List.length_cons, List.length_replicate]

theorem length_indentedItems_le {k level : Nat} {items : List Value}
    (h : ∀ v ∈ items, level + 1 + v.nesting ≤ k →
      (v.indented (level + 1)).length ≤ v.compact.length * (2 * k + 4))
    (hk : level + 1 + nestingItems items ≤ k) :
    (indentedItems level items).length ≤ (compactItems items).length * (2 * k + 4) := by
  induction items with
  | nil =>
    simp only [indentedItems, compactItems, List.length_append, length_newLine, List.length_singleton,
      Nat.one_mul]
    omega
  | cons v items ih =>
    obtain ⟨hv, hitems⟩ := List.forall_mem_cons.mp h
    rw [nestingItems] at hk
    have h₁ := hv (by omega)
    have h₂ := ih hitems (by omega)
    simp only [indentedItems, compactItems, List.length_cons, List.length_append, length_newLine,
      Nat.add_mul]
    omega

theorem length_indentedMembers_le {k level : Nat} {members : List (String × Value)}
    (h : ∀ m ∈ members, level + 1 + m.2.nesting ≤ k →
      (m.2.indented (level + 1)).length ≤ m.2.compact.length * (2 * k + 4))
    (hk : level + 1 + nestingMembers members ≤ k) :
    (indentedMembers level members).length ≤ (compactMembers members).length * (2 * k + 4) := by
  induction members with
  | nil =>
    simp only [indentedMembers, compactMembers, List.length_append, length_newLine,
      List.length_singleton, Nat.one_mul]
    omega
  | cons m members ih =>
    obtain ⟨hv, hmembers⟩ := List.forall_mem_cons.mp h
    simp only [nestingMembers] at hk
    have h₁ := hv (by omega)
    have h₂ := ih hmembers (by omega)
    have hkey : (quote m.1).length ≤ (quote m.1).length * (2 * k + 4) :=
      Nat.le_mul_of_pos_right _ (by omega)
    simp only [indentedMembers, compactMembers, List.length_cons, List.length_append, length_newLine,
      Nat.add_mul]
    omega

/-- Each character of the compact layout brings a colon with a blank or a line break with blanks at
most. -/
theorem length_indented_le {k : Nat} (v : Value) {level : Nat} (hk : level + v.nesting ≤ k) :
    (v.indented level).length ≤ v.compact.length * (2 * k + 4) := by
  have hself (cs : List Char) : cs.length ≤ cs.length * (2 * k + 4) :=
    Nat.le_mul_of_pos_right _ (by omega)
  induction v using Value.induction generalizing level with
  | null | number n | string s => exact hself _
  | bool b => cases b <;> exact hself _
  | array items ih =>
    cases items with
    | nil => exact hself _
    | cons v items =>
      obtain ⟨hv, hitems⟩ := List.forall_mem_cons.mp ih
      rw [nesting, nestingItems] at hk
      have hdeeper : level + 1 + v.nesting ≤ k := by omega
      have hrest : level + 1 + nestingItems items ≤ k := by omega
      have h₁ := hv hdeeper
      have h₂ := length_indentedItems_le (fun v hv => hitems v hv) hrest
      simp only [indented, compact, List.length_cons, List.length_append, length_newLine, Nat.add_mul]
      omega
  | object members ih =>
    cases members with
    | nil => exact hself _
    | cons m members =>
      obtain ⟨hv, hmembers⟩ := List.forall_mem_cons.mp ih
      simp only [nesting, nestingMembers] at hk
      have hdeeper : level + 1 + m.2.nesting ≤ k := by omega
      have hrest : level + 1 + nestingMembers members ≤ k := by omega
      have h₁ := hv hdeeper
      have h₂ := length_indentedMembers_le (fun m hm => hmembers m hm) hrest
      have hkey := hself (quote m.1)
      simp only [indented, compact, List.length_cons, List.length_append, length_newLine, Nat.add_mul]
      omega

/-- A character takes four bytes at most. -/
theorem utf8Len_le (cs : List Char) : String.utf8Len cs ≤ 4 * cs.length := by
  induction cs with
  | nil => exact Nat.le_refl _
  | cons c cs ih =>
    have hc := Char.utf8Size_le_four c
    rw [String.utf8Len_cons, List.length_cons]
    omega

/-- How large the text of a value is at most, from the value on one line. -/
theorem utf8ByteSize_indentedText_le (v : Value) :
    v.indentedText.utf8ByteSize ≤ 4 * ((writeCompact [] v).length * (2 * v.nesting + 4)) := by
  have hcompact : (writeCompact [] v).length = v.compact.length := by
    rw [writeCompact_eq, List.append_nil, List.length_reverse]
  have hlength : (v.indented 0).length ≤ v.compact.length * (2 * v.nesting + 4) :=
    v.length_indented_le (by rw [Nat.zero_add])
  calc v.indentedText.utf8ByteSize
      = String.utf8Len v.indentedText.toList := by
        rw [← String.utf8ByteSize_ofList, String.ofList_toList]
    _ ≤ 4 * (v.indented 0).length := by
        rw [toList_indentedText]
        exact utf8Len_le _
    _ ≤ 4 * ((writeCompact [] v).length * (2 * v.nesting + 4)) := by
        rw [hcompact]
        exact Nat.mul_le_mul_left 4 hlength

/-! ## Taking values over -/

mutual

/-- The integers of a value have at most 64 bits. -/
def Ranged : Value → Prop
  | number n => n.Ranged
  | array items => RangedItems items
  | object members => RangedMembers members
  | _ => True

/-- The integers of the items of an array have at most 64 bits. -/
def RangedItems : List Value → Prop
  | [] => True
  | v :: rest => v.Ranged ∧ RangedItems rest

/-- The integers of the members of an object have at most 64 bits. -/
def RangedMembers : List (String × Value) → Prop
  | [] => True
  | (_, v) :: rest => v.Ranged ∧ RangedMembers rest

end

theorem rangedItems_iff {items : List Value} : RangedItems items ↔ ∀ v ∈ items, v.Ranged := by
  induction items with
  | nil => simp [RangedItems]
  | cons v rest ih => simp [RangedItems, ih]

theorem rangedMembers_iff {members : List (String × Value)} :
    RangedMembers members ↔ ∀ m ∈ members, m.2.Ranged := by
  induction members with
  | nil => simp [RangedMembers]
  | cons m rest ih => simp [RangedMembers, ih]

end Value

/-- A number as it is read back. -/
def Number.reread (n : Number) : Value :=
  ((n.numeral?.bind Numeral.value?).map Value.number).getD .null

/-- Members put together in their order, the last one with a key in the place of the first. -/
def gather (members : List (String × Value)) : List (String × Value) :=
  members.foldl (fun ms m => putMember m.1 m.2 ms) []

namespace Value

mutual

/-- A value as it is read back. -/
def reread : Value → Value
  | null => null
  | bool b => bool b
  | number n => n.reread
  | string s => string s
  | array items => array (rereadItems items)
  | object members => object (gather (rereadMembers members))

/-- The items of an array as they are read back. -/
def rereadItems : List Value → List Value
  | [] => []
  | v :: rest => reread v :: rereadItems rest

/-- The members of an object as they are read back. -/
def rereadMembers : List (String × Value) → List (String × Value)
  | [] => []
  | (key, v) :: rest => (key, reread v) :: rereadMembers rest

end

end Value

namespace Source

open Value

theorem value?_ofNumber {n : Json.Number} (hn : n.Ranged) (depth : Nat) :
    value? depth (ofNumber n) = some n.reread := by
  rw [ofNumber, Number.reread]
  cases hm : n.numeral? with
  | none => simp [value?]
  | some m =>
    obtain ⟨k, hk⟩ := Option.isSome_iff_exists.mp (Number.isSome_value? hn hm)
    simp [value?, hk]

theorem values?_ofItems {depth : Nat} {items : List Value}
    (h : ∀ v ∈ items, value? depth (ofValue v) = some v.reread) (done : List Value) :
    values? depth done (ofItems items) = some (done.reverse ++ rereadItems items) := by
  induction items generalizing done with
  | nil => simp [ofItems, values?, rereadItems]
  | cons v rest ih =>
    obtain ⟨hv, hrest⟩ := List.forall_mem_cons.mp h
    simp only [ofItems, values?, hv]
    rw [ih hrest]
    simp [rereadItems]

theorem entries?_ofMembers {depth : Nat} {members : List (String × Value)}
    (h : ∀ m ∈ members, value? depth (ofValue m.2) = some m.2.reread)
    (done : List (String × Value)) :
    entries? depth done (ofMembers members) = some (done.reverse ++ rereadMembers members) := by
  induction members generalizing done with
  | nil => simp [ofMembers, entries?, rereadMembers]
  | cons m rest ih =>
    obtain ⟨hm, hrest⟩ := List.forall_mem_cons.mp h
    simp only [ofMembers, entries?, hm]
    rw [ih hrest]
    simp [rereadMembers]

/-- A value that nests no deeper than the bound is taken over. -/
theorem value?_ofValue {v : Value} (hv : v.Ranged) {depth : Nat} (h : v.nesting ≤ depth) :
    value? depth (ofValue v) = some v.reread := by
  induction v using Value.induction generalizing depth with
  | null => simp [ofValue, value?, reread]
  | bool b => simp [ofValue, value?, reread]
  | number n => exact value?_ofNumber hv depth
  | string s => simp [ofValue, value?, reread]
  | array items ih =>
    rw [nesting] at h
    obtain ⟨depth, rfl⟩ : ∃ k, depth = k + 1 := ⟨depth - 1, by omega⟩
    have hn := nestingItems_le.mp (Nat.le_of_succ_le_succ h)
    rw [Ranged, rangedItems_iff] at hv
    rw [ofValue, value?, values?_ofItems (fun v hmem => ih v hmem (hv v hmem) (hn v hmem))]
    simp [reread]
  | object members ih =>
    rw [nesting] at h
    obtain ⟨depth, rfl⟩ : ∃ k, depth = k + 1 := ⟨depth - 1, by omega⟩
    have hn := nestingMembers_le.mp (Nat.le_of_succ_le_succ h)
    rw [Ranged, rangedMembers_iff] at hv
    rw [ofValue, value?, entries?_ofMembers (fun m hmem => ih m hmem (hv m hmem) (hn m hmem))]
    simp [reread, gather]

theorem isSome_of_values? {depth : Nat} {done : List Value} {items : List Source}
    (h : (values? depth done items).isSome = true) :
    ∀ item ∈ items, (value? depth item).isSome = true := by
  induction items generalizing done with
  | nil => rintro item ⟨⟩
  | cons item rest ih =>
    rw [values?] at h
    cases hv : value? depth item with
    | none => simp [hv] at h
    | some v =>
      simp only [hv] at h
      exact List.forall_mem_cons.mpr ⟨by rw [hv]; rfl, ih h⟩

theorem isSome_of_entries? {depth : Nat} {done : List (String × Value)}
    {members : List (Option String × Source)} (h : (entries? depth done members).isSome = true) :
    ∀ m ∈ members, (value? depth m.2).isSome = true := by
  induction members generalizing done with
  | nil => rintro m ⟨⟩
  | cons m rest ih =>
    obtain ⟨key, source⟩ := m
    cases key with
    | none => simp [entries?] at h
    | some key =>
      rw [entries?] at h
      cases hv : value? depth source with
      | none => simp [hv] at h
      | some v =>
        simp only [hv] at h
        exact List.forall_mem_cons.mpr ⟨by rw [hv]; rfl, ih h⟩

/-- A value that is taken over nests no deeper than the bound. -/
theorem nesting_le_of_value? {v : Value} {depth : Nat}
    (h : (value? depth (ofValue v)).isSome = true) : v.nesting ≤ depth := by
  induction v using Value.induction generalizing depth with
  | null => exact Nat.zero_le _
  | bool b => exact Nat.zero_le _
  | number n => exact Nat.zero_le _
  | string s => exact Nat.zero_le _
  | array items ih =>
    cases depth with
    | zero => simp [ofValue, value?] at h
    | succ depth =>
      rw [ofValue, value?, Option.isSome_map, ofItems_eq] at h
      have hitems := isSome_of_values? h
      refine Nat.succ_le_succ (nestingItems_le.mpr fun v hv => ih v hv ?_)
      exact hitems _ (List.mem_map_of_mem hv)
  | object members ih =>
    cases depth with
    | zero => simp [ofValue, value?] at h
    | succ depth =>
      rw [ofValue, value?, Option.isSome_map, ofMembers_eq] at h
      have hmembers := isSome_of_entries? h
      refine Nat.succ_le_succ (nestingMembers_le.mpr fun m hm => ih m hm ?_)
      exact hmembers (some m.1, ofValue m.2)
        (List.mem_map_of_mem (f := fun m => (some m.1, ofValue m.2)) hm)

end Source

/-! ## Integers of values that are read -/

theorem Numeral.ranged_of_value? {m : Numeral} {n : Number} (h : m.value? = some n) : n.Ranged := by
  rw [Numeral.value?] at h
  split at h
  · rename_i s hs
    have hlt : s < wordBound := by
      split_ifs at hs
      exact below?_lt (by decide) hs
    split_ifs at h <;> cases h
    · exact hlt
    · trivial
    · exact hlt
  · obtain ⟨x, -, rfl⟩ := Option.map_eq_some_iff.mp h
    trivial

theorem ranged_putMember {key : String} {v : Value} {members : List (String × Value)}
    (hv : v.Ranged) (h : ∀ m ∈ members, m.2.Ranged) :
    ∀ m ∈ putMember key v members, m.2.Ranged := by
  induction members with
  | nil => exact List.forall_mem_cons.mpr ⟨hv, h⟩
  | cons m rest ih =>
    obtain ⟨hm, hrest⟩ := List.forall_mem_cons.mp h
    rw [putMember]
    split_ifs
    · exact List.forall_mem_cons.mpr ⟨hv, hrest⟩
    · exact List.forall_mem_cons.mpr ⟨hm, ih hrest⟩

theorem ranged_gather {members : List (String × Value)} (h : ∀ m ∈ members, m.2.Ranged) :
    ∀ m ∈ gather members, m.2.Ranged := by
  rw [gather]
  have hfold (done : List (String × Value)) (hdone : ∀ m ∈ done, m.2.Ranged) :
      ∀ m ∈ members.foldl (fun ms m => putMember m.1 m.2 ms) done, m.2.Ranged := by
    induction members generalizing done with
    | nil => exact hdone
    | cons m rest ih =>
      obtain ⟨hm, hrest⟩ := List.forall_mem_cons.mp h
      exact ih hrest _ (ranged_putMember hm hdone)
  exact hfold [] (by rintro m ⟨⟩)

namespace Source

theorem ranged_of_values? {depth : Nat}
    (hvalue : ∀ (source : Source) (v : Value), value? depth source = some v → v.Ranged)
    {items : List Source} {done vs : List Value} (h : values? depth done items = some vs)
    (hdone : ∀ v ∈ done, v.Ranged) : ∀ v ∈ vs, v.Ranged := by
  induction items generalizing done with
  | nil =>
    rw [values?, Option.some.injEq] at h
    rw [← h]
    exact fun v hv => hdone v (List.mem_reverse.mp hv)
  | cons item rest ih =>
    rw [values?] at h
    cases hitem : value? depth item with
    | none => simp [hitem] at h
    | some v =>
      simp only [hitem] at h
      exact ih h (List.forall_mem_cons.mpr ⟨hvalue item v hitem, hdone⟩)

theorem ranged_of_entries? {depth : Nat}
    (hvalue : ∀ (source : Source) (v : Value), value? depth source = some v → v.Ranged)
    {members : List (Option String × Source)} {done es : List (String × Value)}
    (h : entries? depth done members = some es)
    (hdone : ∀ m ∈ done, m.2.Ranged) : ∀ m ∈ es, m.2.Ranged := by
  induction members generalizing done with
  | nil =>
    rw [entries?, Option.some.injEq] at h
    rw [← h]
    exact fun m hm => hdone m (List.mem_reverse.mp hm)
  | cons m rest ih =>
    obtain ⟨key, source⟩ := m
    cases key with
    | none => simp [entries?] at h
    | some key =>
      rw [entries?] at h
      cases hv : value? depth source with
      | none => simp [hv] at h
      | some v =>
        simp only [hv] at h
        exact ih h (List.forall_mem_cons.mpr ⟨hvalue source v hv, hdone⟩)

/-- The integers of a value that is taken over are in range. -/
theorem ranged_of_value? {depth : Nat} {source : Source} {v : Value}
    (h : value? depth source = some v) : v.Ranged := by
  -- on the depth, since the items and members of a source are taken over at one level less
  induction depth using Nat.strongRecOn generalizing source v with
  | ind depth ih =>
    cases source with
    | null | bool b =>
      rw [value?, Option.some.injEq] at h
      rw [← h]
      trivial
    | number n =>
      rw [value?] at h
      obtain ⟨k, hk, rfl⟩ := Option.map_eq_some_iff.mp h
      exact Numeral.ranged_of_value? hk
    | string s =>
      rw [value?] at h
      obtain ⟨k, hk, rfl⟩ := Option.map_eq_some_iff.mp h
      trivial
    | array items =>
      cases depth with
      | zero => simp [value?] at h
      | succ depth =>
        rw [value?] at h
        obtain ⟨vs, hvs, rfl⟩ := Option.map_eq_some_iff.mp h
        exact Value.rangedItems_iff.mpr (ranged_of_values?
          (fun source v => ih depth (Nat.lt_succ_self _)) hvs (by rintro v ⟨⟩))
    | object members =>
      cases depth with
      | zero => simp [value?] at h
      | succ depth =>
        rw [value?] at h
        obtain ⟨es, hes, rfl⟩ := Option.map_eq_some_iff.mp h
        exact Value.rangedMembers_iff.mpr (ranged_gather (ranged_of_entries?
          (fun source v => ih depth (Nat.lt_succ_self _)) hes (by rintro m ⟨⟩)))

end Source

theorem Value.ranged_of_parse? {text : List Char} {v : Value} (h : Value.parse? text = some v) :
    v.Ranged := by
  obtain ⟨source, -, hv⟩ := Option.bind_eq_some_iff.mp h
  exact Source.ranged_of_value? hv

end BlockDocument.Json
