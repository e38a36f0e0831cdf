import BlockDocument.Proofs.Json.Number

/-!
# Reading what was written

Reading the indented text of a value gives the tree of that value (`Source.ofValue`): the value
itself, with numbers as they are written and null in the place of numbers that have no text. A text is
read if it nests no deeper than reading allows; the fuel of `Source.parse?` never runs out, as every
call takes at least one character.
-/

namespace BlockDocument.Json

open BlockDocument.Number

/-! ## Values by induction -/

/-- Induction over values: arrays by their items, objects by what their members hold. -/
@[elab_as_elim]
theorem Value.induction {P : Value → Prop} (null : P .null) (bool : ∀ b, P (.bool b))
    (number : ∀ n, P (.number n)) (string : ∀ s, P (.string s))
    (array : ∀ items, (∀ v ∈ items, P v) → P (.array items))
    (object : ∀ members, (∀ m ∈ members, P m.2) → P (.object members)) (v : Value) : P v := by
  refine @Value.rec P (fun items => ∀ v ∈ items, P v) (fun members => ∀ m ∈ members, P m.2)
    (fun m => P m.2) null bool number string array object ?_ ?_ ?_ ?_ (fun _ _ h => h) v
  · rintro v ⟨⟩
  · intro v items hv hitems
    exact List.forall_mem_cons.mpr ⟨hv, hitems⟩
  · rintro m ⟨⟩
  · intro m members hm hmembers
    exact List.forall_mem_cons.mpr ⟨hm, hmembers⟩

namespace Value

mutual

/-- How deep arrays and objects nest in a value. -/
def nesting : Value → Nat
  | array items => nestingItems items + 1
  | object members => nestingMembers members + 1
  | _ => 0

/-- How deep the items of an array nest. -/
def nestingItems : List Value → Nat
  | [] => 0
  | v :: rest => max (nesting v) (nestingItems rest)

/-- How deep the members of an object nest. -/
def nestingMembers : List (String × Value) → Nat
  | [] => 0
  | (_, v) :: rest => max (nesting v) (nestingMembers rest)

end

theorem nestingItems_le {n : Nat} {items : List Value} :
    nestingItems items ≤ n ↔ ∀ v ∈ items, v.nesting ≤ n := by
  induction items with
  | nil => simp [nestingItems]
  | cons v rest ih => simp [nestingItems, ih]

theorem nestingMembers_le {n : Nat} {members : List (String × Value)} :
    nestingMembers members ≤ n ↔ ∀ m ∈ members, m.2.nesting ≤ n := by
  induction members with
  | nil => simp [nestingMembers]
  | cons m rest ih => simp [nestingMembers, ih]

end Value

namespace Source

/-- The tree of a number: null if it has no numeral. -/
def ofNumber (n : Json.Number) : Source := (n.numeral?.map number).getD null

mutual

/-- The tree of the text of a value. -/
def ofValue : Value → Source
  | .null => null
  | .bool b => bool b
  | .number n => ofNumber n
  | .string s => string (some s)
  | .array items => array (ofItems items)
  | .object members => object (ofMembers members)

/-- The trees of the items of an array. -/
def ofItems : List Value → List Source
  | [] => []
  | v :: rest => ofValue v :: ofItems rest

/-- The trees of the members of an object. -/
def ofMembers : List (String × Value) → List (Option String × Source)
  | [] => []
  | (key, v) :: rest => (some key, ofValue v) :: ofMembers rest

end

theorem ofItems_eq (items : List Value) : ofItems items = items.map ofValue := by
  induction items with
  | nil => rfl
  | cons v rest ih => rw [ofItems, ih, List.map_cons]

theorem ofMembers_eq (members : List (String × Value)) :
    ofMembers members = members.map fun m => (some m.1, ofValue m.2) := by
  induction members with
  | nil => rfl
  | cons m rest ih => rw [ofMembers, ih, List.map_cons]

end Source

/-! ## Strings -/

/-- One step reads one character, however it is escaped. -/
theorem readString_escapeChar (fuel : Nat) (read : List Char) (c : Char) (rest : List Char) :
    readString (fuel + 1) (some read) (escapeChar c ++ rest) =
      readString fuel (some (c :: read)) rest := by
  rw [escapeChar]
  split_ifs with h₁ h₂ h₃ h₄ h₅ h₆ h₇ h₈
  case pos | pos | pos | pos | pos | pos | pos =>
    subst c
    rfl
  case pos =>
    -- a character without a name, by its code
    have hhigh : c.toNat / 16 % 16 = c.toNat / 16 := Nat.mod_eq_of_lt (by omega)
    have hunit : hexUnit? ('0' :: '0' :: hexDigit (c.toNat / 16) :: hexDigit c.toNat :: rest) =
        some (c.toNat, rest) := by
      simp only [hexUnit?, hexValue?_hexDigit, hhigh, show hexValue? '0' = some 0 from rfl,
        bind, Option.bind, pure]
      congr 2
      omega
    have hescape : unicodeEscape?
        ('0' :: '0' :: hexDigit (c.toNat / 16) :: hexDigit c.toNat :: rest) =
          some (some c, rest) := by
      rw [unicodeEscape?, hunit]
      dsimp only
      rw [if_pos (.inl (by omega)), Char.ofNat_toNat]
    show readString (fuel + 1) (some read)
      ('\\' :: 'u' :: '0' :: '0' :: hexDigit (c.toNat / 16) :: hexDigit c.toNat :: rest) = _
    rw [readString, hescape]
    rfl
  case neg =>
    rw [List.singleton_append, readString.eq_def]
    simp [h₂, h₈]

theorem readString_quoted (cs : List Char) {fuel : Nat} (h : cs.length ≤ fuel) (read : List Char)
    (rest : List Char) :
    readString fuel (some read) (cs.flatMap escapeChar ++ '"' :: rest) =
      some (some (String.ofList (read.reverse ++ cs)), rest) := by
  induction cs generalizing fuel read with
  | nil =>
    cases fuel <;> simp [readString]
  | cons c cs ih =>
    obtain ⟨fuel, rfl⟩ : ∃ k, fuel = k + 1 := ⟨fuel - 1, by simp only [List.length_cons] at h; omega⟩
    rw [List.flatMap_cons, List.append_assoc, readString_escapeChar, ih (by simpa using h)]
    simp

theorem length_le_quoted (cs : List Char) : cs.length ≤ (cs.flatMap escapeChar).length := by
  have hone (c : Char) : 1 ≤ (escapeChar c).length := by
    rw [escapeChar]
    split_ifs <;> simp
  induction cs with
  | nil => simp
  | cons c cs ih =>
    have := hone c
    rw [List.flatMap_cons, List.length_append, List.length_cons]
    omega

/-! ## Blanks -/

/-- Blanks before a character that is none are skipped. -/
theorem skipSpace_append {blanks cs : List Char} (hb : ∀ c ∈ blanks, isSpace c = true)
    (hcs : ∀ c ∈ cs.head?, isSpace c = false) : skipSpace (blanks ++ cs) = cs := by
  rw [skipSpace, List.dropWhile_append_of_pos hb]
  cases cs with
  | nil => rfl
  | cons c cs => rw [List.dropWhile_cons_of_neg (by simp [hcs c rfl])]

theorem isSpace_of_mem_newLine (level : Nat) : ∀ c ∈ Value.newLine level, isSpace c = true := by
  intro c hc
  rcases List.mem_cons.mp hc with rfl | hc
  · rfl
  · rw [(List.mem_replicate.mp hc).2]
    rfl

/-- The characters with which the text of a value may start. -/
def startsValue (c : Char) : Bool :=
  c == '[' || c == '\x7b' || c == '"' || c == 'n' || c == 't' || c == 'f' || c == '-' || c.isDigit

theorem startsValue_ne {c : Char} (h : startsValue c = true) :
    isSpace c = false ∧ c ≠ ']' ∧ c ≠ '\x7d' := by
  have hne (x : Char) (hx : startsValue x = false) : c ≠ x := by
    rintro rfl
    rw [h] at hx
    cases hx
  refine ⟨?_, hne _ (by decide), hne _ (by decide)⟩
  simp [isSpace, hne ' ' (by decide), hne '\n' (by decide), hne '\t' (by decide),
    hne '\r' (by decide)]

/-- The text of a numeral starts with a minus sign or a digit. -/
theorem Numeral.chars_eq_cons {m : Numeral} (hm : m.WellFormed) :
    ∃ c cs, m.chars = c :: cs ∧ (c = '-' ∨ c.isDigit = true) := by
  obtain ⟨c, ds, hwhole⟩ := List.exists_cons_of_ne_nil hm.whole_ne
  have hc : c.isDigit = true := hm.whole c (by rw [hwhole]; exact List.mem_cons_self ..)
  rw [chars, hwhole]
  cases m.negative with
  | true => exact ⟨_, _, rfl, .inl rfl⟩
  | false => exact ⟨_, _, rfl, .inr hc⟩

theorem Value.indented_eq_cons (level : Nat) (v : Value) :
    ∃ c cs, v.indented level = c :: cs ∧ startsValue c = true := by
  cases v with
  | null => exact ⟨_, _, rfl, by decide⟩
  | bool b => cases b <;> exact ⟨_, _, rfl, by decide⟩
  | number n =>
    rw [indented]
    cases hn : n.numeral? with
    | none => exact ⟨_, _, by rw [Number.text_eq, hn]; rfl, by decide⟩
    | some m =>
      obtain ⟨c, cs, hcs, hc⟩ := Numeral.chars_eq_cons (Number.wellFormed_numeral? hn)
      refine ⟨c, cs, by rw [Number.text_of_numeral? hn, hcs], ?_⟩
      rcases hc with rfl | hc
      · decide
      · simp [startsValue, hc]
  | string s => exact ⟨_, _, by rw [indented, quote], by decide⟩
  | array items =>
    cases items with
    | nil => exact ⟨_, _, rfl, by decide⟩
    | cons v rest => exact ⟨_, _, by rw [indented], by decide⟩
  | object members =>
    cases members with
    | nil => exact ⟨_, _, rfl, by decide⟩
    | cons m rest => exact ⟨_, _, by rw [indented], by decide⟩

/-! ## Values -/

namespace Source

/-- Reading the text of a value, after blanks, gives its tree. -/
def Reads (v : Value) : Prop :=
  ∀ (fuel depth level : Nat) (blanks rest : List Char), (∀ c ∈ blanks, isSpace c = true) →
    Stops rest → v.nesting ≤ depth → (v.indented level).length < fuel →
      read fuel depth (blanks ++ (v.indented level ++ rest)) = some (ofValue v, rest)

/-- Blanks before a value are skipped. -/
theorem skipSpace_value {blanks : List Char} (hb : ∀ c ∈ blanks, isSpace c = true) (level : Nat)
    (v : Value) (rest : List Char) :
    skipSpace (blanks ++ (v.indented level ++ rest)) = v.indented level ++ rest := by
  refine skipSpace_append hb fun c hc => ?_
  obtain ⟨c', cs, hcs, hstart⟩ := v.indented_eq_cons level
  rw [hcs] at hc
  cases hc
  exact (startsValue_ne hstart).1

theorem skipSpace_newLine {level : Nat} {c : Char} (hc : isSpace c = false) (rest : List Char) :
    skipSpace (Value.newLine level ++ c :: rest) = c :: rest :=
  skipSpace_append (isSpace_of_mem_newLine level) (by rintro c ⟨⟩; exact hc)

theorem skipSpace_cons {c : Char} (hc : isSpace c = false) (rest : List Char) :
    skipSpace (c :: rest) = c :: rest :=
  List.dropWhile_cons_of_neg (by simp [hc])

/-- Behind an item stands a comma, or the end of the line before the bracket. -/
theorem stops_indentedItems (level : Nat) (items : List Value) (rest : List Char) :
    Stops (Value.indentedItems level items ++ rest) := by
  cases items with
  | nil => exact stops_newLine _
  | cons v items => exact stops_comma _

theorem stops_indentedMembers (level : Nat) (members : List (String × Value)) (rest : List Char) :
    Stops (Value.indentedMembers level members ++ rest) := by
  cases members with
  | nil => exact stops_newLine _
  | cons m members => exact stops_comma _

theorem two_le_length_indentedItems (level : Nat) (items : List Value) :
    2 ≤ (Value.indentedItems level items).length := by
  cases items <;> simp [Value.indentedItems, Value.newLine]

theorem two_le_length_indentedMembers (level : Nat) (members : List (String × Value)) :
    2 ≤ (Value.indentedMembers level members).length := by
  cases members <;> simp [Value.indentedMembers, Value.newLine]

/-- The items of an array are read one after the other. -/
theorem readItems_indented {v : Value} {items : List Value} (hv : Reads v)
    (hitems : ∀ v ∈ items, Reads v) {depth : Nat} (hn : v.nesting ≤ depth)
    (hns : ∀ v ∈ items, v.nesting ≤ depth) {fuel level : Nat} {blanks : List Char}
    (hb : ∀ c ∈ blanks, isSpace c = true)
    (hfuel : (v.indented (level + 1) ++ Value.indentedItems level items).length ≤ fuel)
    (done : List Source) (rest : List Char) :
    readItems fuel depth done
        (blanks ++ (v.indented (level + 1) ++ (Value.indentedItems level items ++ rest))) =
      some (array (done.reverse ++ (v :: items).map ofValue), rest) := by
  induction items generalizing v fuel blanks done with
  | nil =>
    have htwo := two_le_length_indentedItems level []
    rw [List.length_append] at hfuel
    obtain ⟨fuel, rfl⟩ : ∃ k, fuel = k + 1 := ⟨fuel - 1, by omega⟩
    rw [readItems, hv fuel depth (level + 1) blanks _ hb (stops_indentedItems _ _ _) hn (by omega)]
    dsimp only
    rw [Value.indentedItems, List.append_assoc, List.singleton_append, skipSpace_newLine rfl]
    simp
  | cons v' items ih =>
    have htwo := two_le_length_indentedItems level (v' :: items)
    rw [List.length_append] at hfuel
    obtain ⟨fuel, rfl⟩ : ∃ k, fuel = k + 1 := ⟨fuel - 1, by omega⟩
    obtain ⟨hv', hitems⟩ := List.forall_mem_cons.mp hitems
    obtain ⟨hn', hns⟩ := List.forall_mem_cons.mp hns
    rw [readItems, hv fuel depth (level + 1) blanks _ hb (stops_indentedItems _ _ _) hn (by omega)]
    dsimp only
    rw [Value.indentedItems, List.cons_append, skipSpace_cons rfl, List.append_assoc,
      List.append_assoc]
    rw [Value.indentedItems, List.length_cons, List.length_append, List.length_append] at hfuel
    -- the blanks before the next item are the start of its line
    refine (ih hv' hitems hn' hns (isSpace_of_mem_newLine _) ?_ (ofValue v :: done)).trans (by simp)
    rw [List.length_append]
    omega

/-- What is read behind a member: another one, or the end of the object. -/
def readAfterMember (fuel depth : Nat) (done : List (Option String × Source)) (cs : List Char) :
    Option (Source × List Char) :=
  match skipSpace cs with
  | ',' :: rest => readMembers fuel depth done rest
  | '\x7d' :: rest => some (object done.reverse, rest)
  | _ => none

theorem Reads.after_colon {v : Value} (hv : Reads v) (fuel level : Nat) {depth : Nat}
    {rest : List Char} (hrest : Stops rest) (hn : v.nesting ≤ depth)
    (hfuel : (v.indented level).length < fuel) :
    read fuel depth (' ' :: (v.indented level ++ rest)) = some (ofValue v, rest) :=
  hv fuel depth level [' '] rest (List.forall_mem_singleton.mpr rfl) hrest hn hfuel

/-- A member is read: its key, the colon and its value. -/
theorem readMembers_member {key : String} {fuel depth : Nat} {blanks cs after : List Char}
    {source : Source} (hb : ∀ c ∈ blanks, isSpace c = true) (hkey : (quote key).length ≤ fuel)
    (hread : read fuel depth (' ' :: cs) = some (source, after))
    (done : List (Option String × Source)) :
    readMembers (fuel + 1) depth done (blanks ++ (quote key ++ ':' :: ' ' :: cs)) =
      readAfterMember fuel depth ((some key, source) :: done) after := by
  have hlength : key.toList.length ≤ fuel := by
    rw [quote, List.length_cons, List.length_append] at hkey
    have := length_le_quoted key.toList
    omega
  have hquote : quote key ++ ':' :: ' ' :: cs =
      '"' :: (key.toList.flatMap escapeChar ++ '"' :: ':' :: ' ' :: cs) := by
    simp [quote]
  have hskip : skipSpace
      (blanks ++ '"' :: (key.toList.flatMap escapeChar ++ '"' :: ':' :: ' ' :: cs)) =
      '"' :: (key.toList.flatMap escapeChar ++ '"' :: ':' :: ' ' :: cs) :=
    skipSpace_append hb (by rintro c ⟨⟩; rfl)
  have hread' := readString_quoted key.toList hlength [] (':' :: ' ' :: cs)
  rw [List.reverse_nil, List.nil_append, String.ofList_toList] at hread'
  rw [hquote, readMembers, hskip]
  simp only [hread', skipSpace_cons (show isSpace ':' = false from rfl), hread]
  rfl

/-- The members of an object are read one after the other. -/
theorem readMembers_indented {key : String} {v : Value} {members : List (String × Value)}
    (hv : Reads v) (hmembers : ∀ m ∈ members, Reads m.2) {depth : Nat} (hn : v.nesting ≤ depth)
    (hns : ∀ m ∈ members, m.2.nesting ≤ depth) {fuel level : Nat} {blanks : List Char}
    (hb : ∀ c ∈ blanks, isSpace c = true)
    (hfuel : (quote key ++ ':' :: ' ' ::
      (v.indented (level + 1) ++ Value.indentedMembers level members)).length ≤ fuel)
    (done : List (Option String × Source)) (rest : List Char) :
    readMembers fuel depth done
        (blanks ++ (quote key ++ ':' :: ' ' ::
          (v.indented (level + 1) ++ (Value.indentedMembers level members ++ rest)))) =
      some (object (done.reverse ++ ofMembers ((key, v) :: members)), rest) := by
  induction members generalizing key v fuel blanks done with
  | nil =>
    have htwo := two_le_length_indentedMembers level []
    rw [List.length_append, List.length_cons, List.length_cons, List.length_append] at hfuel
    obtain ⟨fuel, rfl⟩ : ∃ k, fuel = k + 1 := ⟨fuel - 1, by omega⟩
    have hread := hv.after_colon fuel (level + 1) (stops_indentedMembers level [] rest) hn (by omega)
    rw [readMembers_member hb (by omega) hread, readAfterMember, Value.indentedMembers,
      List.append_assoc, List.singleton_append, skipSpace_newLine rfl]
    simp [ofMembers]
  | cons m members ih =>
    obtain ⟨key', v'⟩ := m
    have htwo := two_le_length_indentedMembers level ((key', v') :: members)
    rw [List.length_append, List.length_cons, List.length_cons, List.length_append] at hfuel
    obtain ⟨fuel, rfl⟩ : ∃ k, fuel = k + 1 := ⟨fuel - 1, by omega⟩
    obtain ⟨hv', hmembers⟩ := List.forall_mem_cons.mp hmembers
    obtain ⟨hn', hns⟩ := List.forall_mem_cons.mp hns
    have hread := hv.after_colon fuel (level + 1)
      (stops_indentedMembers level ((key', v') :: members) rest) hn (by omega)
    rw [readMembers_member hb (by omega) hread, readAfterMember, Value.indentedMembers,
      List.cons_append, skipSpace_cons rfl]
    rw [List.append_assoc, List.append_assoc, List.cons_append, List.cons_append, List.append_assoc]
    rw [Value.indentedMembers] at hfuel
    refine (ih hv' hmembers hn' hns (isSpace_of_mem_newLine _) ?_
      ((some key, ofValue v) :: done)).trans ?_
    · simp only [List.length_append, List.length_cons] at hfuel ⊢
      omega
    · simp [ofMembers]

/-- The text of a number is read as a numeral, or as null. -/
theorem reads_number (n : Json.Number) : Reads (.number n) := by
  intro fuel depth level blanks rest hb hrest _ hfuel
  obtain ⟨fuel, rfl⟩ : ∃ k, fuel = k + 1 := ⟨fuel - 1, by omega⟩
  rw [read, skipSpace_value hb, Value.indented]
  cases hn : n.numeral? with
  | none =>
    rw [Number.text_eq, hn, ofValue, ofNumber, hn]
    rfl
  | some m =>
    have hread := Numeral.readNumeral_chars (Number.wellFormed_numeral? hn) hrest
    obtain ⟨c, cs, hcs, hc⟩ := Numeral.chars_eq_cons (Number.wellFormed_numeral? hn)
    have hne (x : Char) (hx : x ≠ '-' ∧ x.isDigit = false) : c ≠ x := by
      rintro rfl
      rcases hc with rfl | hc
      · exact hx.1 rfl
      · rw [hx.2] at hc
        cases hc
    rw [hcs, List.cons_append] at hread
    rw [Number.text_of_numeral? hn, ofValue, ofNumber, hn, hcs, List.cons_append]
    simp [hne '[' (by decide), hne '\x7b' (by decide), hne '"' (by decide), hne 'n' (by decide),
      hne 't' (by decide), hne 'f' (by decide), hread]

theorem reads_array {items : List Value} (hitems : ∀ v ∈ items, Reads v) : Reads (.array items) := by
  intro fuel depth level blanks rest hb _ hn hfuel
  obtain ⟨fuel, rfl⟩ : ∃ k, fuel = k + 1 := ⟨fuel - 1, by omega⟩
  obtain ⟨depth, rfl⟩ : ∃ k, depth = k + 1 := ⟨depth - 1, by rw [Value.nesting] at hn; omega⟩
  rw [read, skipSpace_value hb]
  cases items with
  | nil => rfl
  | cons v items =>
    obtain ⟨hv, hitems⟩ := List.forall_mem_cons.mp hitems
    rw [Value.nesting, Value.nestingItems] at hn
    rw [Value.indented, List.length_cons, List.append_assoc, List.length_append] at hfuel
    have hn' : v.nesting ≤ depth := by omega
    have hfuel' : (v.indented (level + 1) ++ Value.indentedItems level items).length ≤ fuel := by
      omega
    have hread := readItems_indented hv hitems hn' (Value.nestingItems_le.mp (by omega))
      (List.forall_mem_nil _) hfuel' [] rest
    have hskip := skipSpace_value (isSpace_of_mem_newLine (level + 1)) (level + 1) v
      (Value.indentedItems level items ++ rest)
    obtain ⟨c, cs, hcs, hstart⟩ := v.indented_eq_cons (level + 1)
    have hc : c ≠ ']' := (startsValue_ne hstart).2.1
    rw [Value.indented, List.cons_append, List.append_assoc, List.append_assoc]
    rw [hcs, List.cons_append] at hread hskip ⊢
    simp only [hskip]
    simpa [hc, ofValue, ofItems_eq] using hread

theorem reads_object {members : List (String × Value)} (hmembers : ∀ m ∈ members, Reads m.2) :
    Reads (.object members) := by
  intro fuel depth level blanks rest hb _ hn hfuel
  obtain ⟨fuel, rfl⟩ : ∃ k, fuel = k + 1 := ⟨fuel - 1, by omega⟩
  obtain ⟨depth, rfl⟩ : ∃ k, depth = k + 1 := ⟨depth - 1, by rw [Value.nesting] at hn; omega⟩
  rw [read, skipSpace_value hb]
  cases members with
  | nil => rfl
  | cons m members =>
    obtain ⟨key, v⟩ := m
    obtain ⟨hv, hmembers⟩ := List.forall_mem_cons.mp hmembers
    rw [Value.nesting, Value.nestingMembers] at hn
    rw [Value.indented, List.length_cons, List.append_assoc, List.length_append] at hfuel
    have hn' : v.nesting ≤ depth := by omega
    have hfuel' : (quote key ++ ':' :: ' ' ::
        (v.indented (level + 1) ++ Value.indentedMembers level members)).length ≤ fuel := by
      omega
    have hread := readMembers_indented hv hmembers hn' (Value.nestingMembers_le.mp (by omega))
      (List.forall_mem_nil _) hfuel' [] rest
    have hskip := skipSpace_append (isSpace_of_mem_newLine (level + 1))
      (show ∀ c ∈ (quote key ++ ':' :: ' ' ::
        (v.indented (level + 1) ++ (Value.indentedMembers level members ++ rest))).head?,
          isSpace c = false by rintro c ⟨⟩; rfl)
    rw [Value.indented, List.cons_append, List.append_assoc, List.append_assoc, List.cons_append,
      List.cons_append, List.append_assoc]
    rw [quote, List.cons_append] at hread hskip ⊢
    simp only [hskip]
    simpa [ofValue] using hread

/-- **Reading what was written**: the text of a value is read as its tree. -/
theorem reads (v : Value) : Reads v := by
  induction v using Value.induction with
  | null =>
    intro fuel depth level blanks rest hb _ _ hfuel
    obtain ⟨fuel, rfl⟩ : ∃ k, fuel = k + 1 := ⟨fuel - 1, by omega⟩
    rw [read, skipSpace_value hb]
    rfl
  | bool b =>
    intro fuel depth level blanks rest hb _ _ hfuel
    obtain ⟨fuel, rfl⟩ : ∃ k, fuel = k + 1 := ⟨fuel - 1, by omega⟩
    rw [read, skipSpace_value hb]
    cases b <;> rfl
  | number n => exact reads_number n
  | string s =>
    intro fuel depth level blanks rest hb _ _ hfuel
    obtain ⟨fuel, rfl⟩ : ∃ k, fuel = k + 1 := ⟨fuel - 1, by omega⟩
    have hlength : s.toList.length ≤ fuel := by
      rw [Value.indented, quote, List.length_cons, List.length_append] at hfuel
      have := length_le_quoted s.toList
      omega
    have hread := readString_quoted s.toList hlength [] rest
    rw [read, skipSpace_value hb, Value.indented, quote, List.cons_append, List.append_assoc,
      List.singleton_append]
    simp only [hread]
    simp [ofValue]
  | array items ih => exact reads_array ih
  | object members ih => exact reads_object ih

/-- The whole text of a value is read, if the bound on its nesting allows. -/
theorem parse?_indented {v : Value} {depth : Nat} (h : v.nesting ≤ depth) :
    parse? depth (v.indented 0) = some (ofValue v) := by
  have hread := reads v (v.indented 0).length.succ depth 0 [] [] (by rintro c ⟨⟩) stops_nil h
    (Nat.lt_succ_self _)
  rw [List.nil_append, List.append_nil] at hread
  rw [parse?, hread]
  rfl

end Source

end BlockDocument.Json
