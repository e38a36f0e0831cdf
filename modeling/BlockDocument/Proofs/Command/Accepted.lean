import BlockDocument.Proofs.Command.Spelling

/-!
# What the reader accepts

Whatever commands are read from a text, their parts can be written and read again: references and
positions below their bounds, paths and names that are words, numbers that are finite. The argument
goes along the readers: each yields such parts from tokens whose words could be words.
-/

namespace BlockDocument

open Command

/-! ## Properties -/

namespace Attributes

theorem readable_empty : Readable ∅ := fun _ h => nomatch h

theorem mem_toList_insert {properties : Attributes} {name : String} {value : Attribute}
    {entry : String × Attribute} (h : entry ∈ (properties.insert name value).toList) :
    entry = (name, value) ∨ entry ∈ properties.toList := by
  obtain ⟨key, a⟩ := entry
  rw [Std.ExtTreeMap.mem_toList_iff_getElem?_eq_some, Std.ExtTreeMap.getElem?_insert] at h
  split at h
  · rename_i hname
    obtain rfl := Std.LawfulEqCmp.eq_of_compare hname
    cases h
    exact .inl rfl
  · exact .inr (Std.ExtTreeMap.mem_toList_iff_getElem?_eq_some.mpr h)

theorem Readable.insert {properties : Attributes} (h : properties.Readable) {name : String}
    (hname : IsWord name.toList) {value : Attribute} (hvalue : value.Readable) :
    Readable (properties.insert name value) := by
  intro entry hentry
  rcases mem_toList_insert hentry with rfl | hentry
  · exact ⟨hname, hvalue⟩
  · exact h entry hentry

end Attributes

theorem Reference.readable_ofWord? {word : List Char} {r : Reference} (h : ofWord? word = some r) :
    r.Readable := by
  rw [ofWord?] at h
  split at h
  · cases h
  rename_i hword
  rw [Bool.or_eq_true, not_or, List.isEmpty_iff, Bool.not_eq_true, Bool.not_eq_false',
    List.all_eq_true] at hword
  obtain ⟨hne, hchars⟩ := hword
  split at h
  · obtain ⟨n, hn, rfl⟩ := Option.map_eq_some_iff.mp h
    exact Number.below?_lt (by decide) hn
  · rename_i hdigits
    cases h
    rw [List.all_eq_true] at hdigits
    push Not at hdigits
    obtain ⟨c, hc, hdigit⟩ := hdigits
    rw [Readable, String.toList_ofList]
    exact ⟨hne, hchars, c, hc, Bool.eq_false_iff.mpr hdigit⟩

theorem Attribute.readable_ofLiteral (raw : String) : (ofLiteral raw).Readable := by
  cases h : ofLiteral raw with
  | number x => exact isFinite_of_ofLiteral h
  | text s => trivial
  | flag b => trivial

namespace Command.Reader

variable {α β : Type}

/-! ## Readers in sequence -/

/-- A reader that, from tokens whose words could be words, yields results with a property and leaves
such tokens. -/
def Yields (r : Reader α) (Q : α → Prop) : Prop :=
  ∀ ts a rest, Scanner.Worded ts → r ts = .ok a rest → Q a ∧ Scanner.Worded rest

theorem Yields.pure {Q : α → Prop} {a : α} (h : Q a) : Yields (pure a) Q := by
  rintro ts _ _ hts ⟨⟩
  exact ⟨h, hts⟩

theorem Yields.throw {Q : α → Prop} {fault : Fault} : Yields (throw fault) Q := by
  rintro ts a rest hts ⟨⟩

theorem Yields.bind {P : α → Prop} {Q : β → Prop} {r : Reader α} {f : α → Reader β}
    (hr : Yields r P) (hf : ∀ a, P a → Yields (f a) Q) : Yields (r >>= f) Q := by
  intro ts b rest hts h
  change EStateM.bind r f ts = _ at h
  rw [EStateM.bind] at h
  split at h
  · rename_i a ts' hread
    obtain ⟨ha, hts'⟩ := hr ts a ts' hts hread
    exact hf a ha ts' b rest hts' h
  · cases h

theorem Yields.map {P : α → Prop} {Q : β → Prop} {r : Reader α} {f : α → β} (hr : Yields r P)
    (hf : ∀ a, P a → Q (f a)) : Yields (f <$> r) Q := by
  rw [map_eq_pure_bind]
  exact hr.bind fun a ha => .pure (hf a ha)

theorem Yields.ite {Q : α → Prop} {p : Prop} [Decidable p] {r r' : Reader α} (h : Yields r Q)
    (h' : Yields r' Q) : Yields (if p then r else r') Q := by
  split
  · exact h
  · exact h'

theorem yields_orFault {Q : α → Prop} {fault : Fault} {o : Option α} (h : ∀ a, o = some a → Q a) :
    Yields (orFault fault o) Q := by
  cases o with
  | none => exact .throw
  | some a => exact .pure (h a rfl)

/-! ## Single tokens -/

theorem worded_tail {ts : List Token} (h : Scanner.Worded ts) : Scanner.Worded ts.tail :=
  fun t ht => h t (List.mem_of_mem_tail ht)

/-- A token whose word could be a word. -/
def WordedToken (t : Option Token) : Prop := ∀ t' ∈ t, t'.kind = .word → IsWord t'.text.toList

theorem yields_peek : Yields peek WordedToken := by
  rintro ts _ _ hts ⟨⟩
  exact ⟨fun t ht => hts t (List.mem_of_mem_head? ht), hts⟩

theorem yields_advance : Yields advance fun _ => True := by
  rintro ts _ _ hts ⟨⟩
  exact ⟨trivial, worded_tail hts⟩

theorem yields_accept (keyword : String) : Yields (accept keyword) fun _ => True :=
  yields_peek.bind fun _ _ => .ite (yields_advance.bind fun _ _ => .pure trivial) (.pure trivial)

theorem yields_expect (kind : TokenKind) :
    Yields (expect kind) fun text => kind = .word → IsWord text.toList := by
  refine yields_peek.bind fun t ht => ?_
  cases t with
  | none => exact .throw
  | some t =>
    dsimp only
    split
    · rename_i hkind
      exact yields_advance.bind fun _ _ => .pure fun hword => ht t rfl (hkind.trans hword)
    · exact .throw

theorem yields_reference : Yields reference Reference.Readable :=
  (yields_expect .word).bind fun _ _ => yields_orFault fun _ => Reference.readable_ofWord?

theorem yields_relation : Yields relation fun _ => True :=
  (yields_expect .word).bind fun _ _ => yields_orFault fun _ _ => trivial

theorem positionOf?_lt {word : List Char} {n : Nat} (h : positionOf? word = some n) :
    n < positionBound := by
  obtain ⟨ds, hds⟩ : ∃ ds : List Char, (if !ds.isEmpty && ds.all Char.isDigit then
      Number.below? positionBound ds else none) = some n := ⟨_, h⟩
  split at hds
  · exact Number.below?_lt (by decide) hds
  · cases hds

theorem yields_position? (keyword : String) : Yields (position? keyword) readablePosition := by
  refine (yields_accept keyword).bind fun _ _ => .ite ?_ (.pure nofun)
  refine (yields_expect .word).bind fun _ _ => .map (yields_orFault fun _ => positionOf?_lt) ?_
  rintro n hn _ ⟨⟩
  exact hn

/-! ## Properties -/

theorem yields_propertyValue : Yields propertyValue Attribute.Readable :=
  yields_peek.bind fun _ _ => .ite ((yields_expect .quoted).map fun _ _ => trivial)
    ((yields_expect .word).map fun _ _ => Attribute.readable_ofLiteral _)

theorem yields_propertiesFrom (fuel : Nat) {read : Attributes} (h : read.Readable) :
    Yields (propertiesFrom fuel read) Attributes.Readable := by
  induction fuel generalizing read with
  | zero => exact .pure h
  | succ fuel ih =>
    refine (yields_expect .word).bind fun key hkey => (yields_expect .equals).bind fun _ _ =>
      yields_propertyValue.bind fun value hvalue => ?_
    have hread := h.insert (hkey rfl) hvalue
    exact yields_peek.bind fun _ _ => .ite (yields_advance.bind fun _ _ => ih hread) (.pure hread)

theorem yields_properties : Yields properties Attributes.Readable := by
  refine (yields_accept "WITH").bind fun _ _ => .ite ?_ (.pure Attributes.readable_empty)
  rintro ts a rest hts h
  exact yields_propertiesFrom _ Attributes.readable_empty ts a rest hts h

/-! ## Commands -/

theorem yields_assignment : Yields assignment fun _ => True := by
  refine yields_peek.bind fun t _ => ?_
  have hmark (op : Assignment) : Yields (do advance; pure op) fun _ => True :=
    yields_advance.bind fun _ _ => .pure trivial
  dsimp only
  split
  · exact hmark .set
  · exact hmark .add
  · exact hmark .remove
  · exact Yields.throw.bind (P := fun _ => False) fun _ h => h.elim

/-- What an edit sets without a path is the text, and that is a word. -/
theorem yields_target : Yields target fun read => IsWord read.1.toList := by
  refine yields_peek.bind fun t _ => ?_
  split
  · exact .pure (by decide)
  · exact yields_advance.bind fun _ _ => .pure (by decide)
  · exact (yields_expect .word).bind fun path hpath => yields_assignment.bind fun _ _ =>
      .pure (hpath rfl)

theorem yields_edit : Yields edit Readable := by
  refine yields_reference.bind fun id hid => (yields_accept "SET").bind fun set _ => ?_
  cases set with
  | false => exact Yields.throw.bind (P := fun _ => False) fun _ h => h.elim
  | true =>
    exact yields_target.bind fun target htarget => (yields_expect .quoted).bind fun _ _ =>
      .pure ⟨hid, htarget⟩

theorem yields_kind? : Yields kind? fun _ => True :=
  yields_peek.bind fun _ _ => .ite ((yields_expect .word).bind fun _ _ =>
    (yields_orFault (Q := fun _ => True) fun _ _ => trivial).map fun _ _ => trivial) (.pure trivial)

theorem yields_append : Yields append Readable := by
  refine yields_reference.bind fun parent hparent => yields_kind?.bind fun kind _ =>
    (yields_position? "AT").bind fun position hposition => (yields_expect .doubleColon).bind
      fun _ _ => yields_peek.bind fun _ _ => ?_
  split
  · exact (yields_expect .quoted).bind fun _ _ => yields_properties.bind fun _ hproperties =>
      .pure ⟨hparent, hposition, hproperties⟩
  · exact (yields_expect .raw).bind fun _ _ =>
      .pure ⟨hparent, hposition, Attributes.readable_empty⟩
  · exact .throw

theorem yields_delete : Yields delete Readable :=
  yields_reference.bind fun _ hid => (yields_accept "CASCADE").bind fun _ _ => .ite (.pure hid)
    ((yields_accept "PRESERVE_CHILDREN").bind fun _ _ => .ite (.pure hid) (.pure hid))

theorem yields_place : Yields place Place.Readable := by
  refine (yields_expect .word).bind fun _ _ => ?_
  dsimp only
  split
  · exact yields_reference.bind fun _ hparent =>
      (yields_position? "INDEX").map fun _ hposition => ⟨hparent, hposition⟩
  · exact yields_reference.map fun _ hanchor => hanchor
  · exact yields_reference.map fun _ hanchor => hanchor
  · exact .throw

theorem yields_move : Yields move Readable :=
  yields_reference.bind fun _ hid => yields_place.map fun _ hplace => ⟨hid, hplace⟩

theorem yields_link : Yields link Readable :=
  yields_reference.bind fun _ hsource => yields_relation.bind fun _ _ =>
    yields_reference.bind fun _ htarget => yields_properties.map fun _ hproperties =>
      ⟨hsource, htarget, hproperties⟩

theorem yields_unlink : Yields unlink Readable :=
  yields_reference.bind fun _ hsource => yields_relation.bind fun _ _ =>
    yields_reference.map fun _ htarget => ⟨hsource, htarget⟩

theorem yields_prune : Yields prune Readable :=
  (yields_expect .word).bind fun _ _ => .ite (.pure trivial) .throw

/-- **Whatever command is read can be written and read again.** -/
theorem yields_command : Yields command Readable := by
  refine (yields_expect .word).bind fun _ _ => ?_
  dsimp only
  split
  · exact yields_edit
  · exact yields_append
  · exact yields_delete
  · exact yields_move
  · exact yields_link
  · exact yields_unlink
  · exact yields_prune
  · exact .throw

/-! ## Programs -/

theorem yields_skipSeparators : Yields skipSeparators fun _ => True := by
  rintro ts _ _ hts ⟨⟩
  exact ⟨trivial, fun t ht => hts t ((List.dropWhile_sublist _).mem ht)⟩

theorem yields_expectEnd (grouped : Bool) : Yields (expectEnd grouped) fun _ => True := by
  refine yields_peek.bind fun t _ => ?_
  cases t with
  | none => exact .pure trivial
  | some t => exact .ite (.pure trivial) .throw

theorem yields_statement (grouped : Bool) (line : Nat) :
    Yields (statement grouped line) fun s => s.command.Readable :=
  yields_command.bind fun _ hcommand => (yields_expectEnd grouped).bind fun _ _ => .pure hcommand

theorem yields_members (fuel : Nat) {read : List Statement}
    (h : ∀ s ∈ read, s.command.Readable) :
    Yields (members fuel read) fun read => ∀ s ∈ read, s.command.Readable := by
  have hdone : ∀ s ∈ read.reverse, s.command.Readable := fun s hs => h s (List.mem_reverse.mp hs)
  induction fuel generalizing read with
  | zero => exact .pure hdone
  | succ fuel ih =>
    refine yields_skipSeparators.bind fun _ _ => yields_peek.bind fun t _ => ?_
    cases t with
    | none => exact .throw
    | some t =>
      refine .ite (yields_advance.bind fun _ _ => .pure hdone) (.ite .throw ?_)
      refine (yields_statement true t.line).bind fun s hs => ?_
      have hread : ∀ s' ∈ s :: read, s'.command.Readable := List.forall_mem_cons.mpr ⟨hs, h⟩
      exact ih hread fun s' hs' => hread s' (List.mem_reverse.mp hs')

theorem yields_group (line : Nat) : Yields (group line) Batch.Readable := by
  refine (yields_expect .openBrace).bind fun _ _ => ?_
  rintro ts b rest hts h
  exact (yields_members _ (List.forall_mem_nil _)).bind (fun _ hread =>
    (yields_expectEnd false).bind fun _ _ => .pure hread) ts b rest hts h

theorem yields_batches (fuel : Nat) {read : List Batch} (h : ∀ b ∈ read, b.Readable) :
    Yields (batches fuel read) Program.Readable := by
  have hdone : Program.Readable read.reverse := fun b hb => h b (List.mem_reverse.mp hb)
  induction fuel generalizing read with
  | zero => exact .pure hdone
  | succ fuel ih =>
    have hnext {b : Batch} (hb : b.Readable) : Yields (batches fuel (b :: read)) Program.Readable := by
      have hread : ∀ b' ∈ b :: read, b'.Readable := List.forall_mem_cons.mpr ⟨hb, h⟩
      exact ih hread fun b' hb' => hread b' (List.mem_reverse.mp hb')
    refine yields_skipSeparators.bind fun _ _ => yields_peek.bind fun t _ => ?_
    cases t with
    | none => exact .pure hdone
    | some t =>
      refine .ite (yields_advance.bind fun _ _ => (yields_group t.line).bind fun _ hb => hnext hb) ?_
      refine (yields_statement false t.line).bind fun s hs => hnext ?_
      rintro s' hs'
      obtain rfl : s' = s := by simpa [Batch.members] using hs'
      exact hs

end Command.Reader

/-- **Whatever program is read can be written and read again**, up to the names of properties. -/
theorem Program.readable_of_parse {source : String} {p : Program}
    (h : Program.parse source = .ok p) : p.Readable := by
  rw [Program.parse] at h
  split at h
  · cases h
  change (tokens source.toList >>= fun t => located source.toList t.program) = _ at h
  rw [tokens] at h
  cases hscan : scan source.toList with
  | error fault =>
    rw [hscan] at h
    cases h
  | ok t =>
    rw [hscan] at h
    change located source.toList t.program = _ at h
    rw [Tokens.program] at h
    split at h
    · rename_i q rest hread
      cases h
      exact (Reader.yields_batches _ (List.forall_mem_nil _) _ _ _ (worded_scan hscan) hread).1
    · cases h

end BlockDocument
