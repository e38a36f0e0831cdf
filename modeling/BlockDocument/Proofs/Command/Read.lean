import BlockDocument.Proofs.Command.Spelling
import BlockDocument.Proofs.Map

/-!
# Reading the tokens of canonical texts

The reader takes each spelling back to what was spelled. A property whose name ends in a sign is the
one thing that it refuses, and then it refuses the whole program.
-/

namespace BlockDocument

open Command

/-- Properties whose names do not end in a sign. -/
def Attributes.Plain (properties : Attributes) : Prop :=
  ∀ entry ∈ properties.toList, isSigned entry.1.toList = false

theorem Attributes.plain_empty : Plain ∅ := fun _ he => nomatch he

/-- The properties of a command. -/
def Command.properties : Command → Attributes
  | append _ _ _ _ properties => properties
  | link _ _ _ properties => properties
  | _ => ∅

/-- Commands without a property whose name ends in a sign. -/
def Command.Plain (c : Command) : Prop := c.properties.Plain

namespace Command.Reader

variable {α β : Type}

/-! ## Readers in sequence -/

/-- A reader that ends in a fault. -/
def Refuses (r : Reader α) (ts : List Token) : Prop := ∃ fault rest, r ts = .error fault rest

theorem bind_ok {r : Reader α} {f : α → Reader β} {ts rest : List Token} {a : α}
    (h : r ts = .ok a rest) : (r >>= f) ts = f a rest := by
  show EStateM.bind r f ts = _
  rw [EStateM.bind, h]

theorem bind_eq_ok {r : Reader α} {k : α → Reader β} {ts rest : List Token} {b : β}
    (h : (r >>= k) ts = .ok b rest) : ∃ a mid, r ts = .ok a mid ∧ k a mid = .ok b rest := by
  change EStateM.bind r k ts = _ at h
  rw [EStateM.bind] at h
  cases hr : r ts with
  | error fault mid => simp [hr] at h
  | ok a mid => exact ⟨a, mid, rfl, by rwa [hr] at h⟩

theorem Refuses.bind {r : Reader α} {f : α → Reader β} {ts : List Token} (h : Refuses r ts) :
    Refuses (r >>= f) ts := by
  obtain ⟨fault, rest, h⟩ := h
  refine ⟨fault, rest, ?_⟩
  show EStateM.bind r f ts = _
  rw [EStateM.bind, h]

theorem Refuses.after {r : Reader α} {f : α → Reader β} {ts rest : List Token} {a : α}
    (h : r ts = .ok a rest) (hf : Refuses (f a) rest) : Refuses (r >>= f) ts := by
  obtain ⟨fault, rest', hf⟩ := hf
  exact ⟨fault, rest', by rw [bind_ok h, hf]⟩

theorem map_ok {r : Reader α} {f : α → β} {ts rest : List Token} {a : α}
    (h : r ts = .ok a rest) : (f <$> r) ts = .ok (f a) rest := by
  show EStateM.map f r ts = _
  rw [EStateM.map, h]

/-! ## Single tokens -/

theorem peek_eq (ts : List Token) : peek ts = .ok ts.head? ts := rfl

theorem expect_cons (kind : TokenKind) (text : String) (line : Nat) (ts : List Token) :
    expect kind (⟨kind, text, line⟩ :: ts) = .ok text ts := by
  rw [expect, bind_ok (peek_eq _), List.head?_cons]
  dsimp only
  rw [if_pos rfl]
  rfl

theorem refuses_expect {kind : TokenKind} {t : Token} {ts : List Token} (h : t.kind ≠ kind) :
    Refuses (expect kind) (t :: ts) := by
  refine ⟨.expected kind (some t), t :: ts, ?_⟩
  rw [expect, bind_ok (peek_eq _), List.head?_cons]
  dsimp only
  rw [if_neg h]
  rfl

theorem accept_eq (keyword : String) (ts : List Token) :
    accept keyword ts =
      if isKeyword keyword ts.head? then .ok true ts.tail else .ok false ts := by
  rw [accept, bind_ok (peek_eq ts)]
  split <;> rfl

/-- What comes behind a command: the end of its line, or nothing. -/
def Halts (ts : List Token) : Prop := ∀ t ∈ ts.head?, t.kind = .newline

theorem Halts.isKind {ts : List Token} (h : Halts ts) {kind : TokenKind} (hn : kind ≠ .newline) :
    isKind kind ts.head? = false := by
  cases ts with
  | nil => rfl
  | cons t ts =>
    rw [List.head?_cons, Reader.isKind, Option.any_some, h t rfl, beq_eq_false_iff_ne]
    exact hn.symm

theorem Halts.isKeyword {ts : List Token} (h : Halts ts) (keyword : String) :
    isKeyword keyword ts.head? = false := by
  cases ts with
  | nil => rfl
  | cons t ts =>
    rw [List.head?_cons, Reader.isKeyword, Option.any_some, h t rfl]
    rfl

theorem Halts.accept {ts : List Token} (h : Halts ts) (keyword : String) :
    accept keyword ts = .ok false ts := by
  rw [accept_eq, h.isKeyword, if_neg Bool.false_ne_true]

theorem isKeyword_word (keyword text : String) (line : Nat) :
    isKeyword keyword (some ⟨.word, text, line⟩) = Text.sameName text keyword := by
  rw [isKeyword, Option.any_some]
  exact Bool.true_and _

theorem accept_word {keyword text : String} {line : Nat} {ts : List Token}
    (h : Text.sameName text keyword = true) :
    accept keyword (⟨.word, text, line⟩ :: ts) = .ok true ts := by
  rw [accept_eq, List.head?_cons, isKeyword_word, if_pos h]
  rfl

theorem accept_other {keyword text : String} {line : Nat} {ts : List Token}
    (h : Text.sameName text keyword = false) :
    accept keyword (⟨.word, text, line⟩ :: ts) = .ok false (⟨.word, text, line⟩ :: ts) := by
  rw [accept_eq, List.head?_cons, isKeyword_word, h, if_neg Bool.false_ne_true]

/-! ## References, positions and values -/

theorem ofWord?_text {r : Reference} (h : r.Readable) : Reference.ofWord? r.text = some r := by
  cases r with
  | short n =>
    have hdigit : ∀ c ∈ Number.digits n, c.isDigit = true := fun _ => Number.isDigit_of_mem_digits
    have hid : (Number.digits n).all Reference.isIdChar = true := List.all_eq_true.mpr fun c hc => by
      simp [Reference.isIdChar, Char.isAlphanum, hdigit c hc]
    have hempty : (Number.digits n).isEmpty = false :=
      List.isEmpty_eq_false_iff.mpr (Number.digits_ne_nil n)
    rw [Reference.text, Reference.ofWord?, hempty, hid, List.all_eq_true.mpr hdigit]
    simp only [Bool.not_true, Bool.or_self, Bool.false_eq_true, if_false, if_true]
    rw [Number.below?_digits h]
    rfl
  | long text =>
    obtain ⟨hne, hchars, c, hmem, hc⟩ := h
    have hempty : text.toList.isEmpty = false := List.isEmpty_eq_false_iff.mpr hne
    have hdigit : text.toList.all Char.isDigit = false :=
      List.all_eq_false.mpr ⟨c, hmem, by simp [hc]⟩
    rw [Reference.text, Reference.ofWord?, hempty, List.all_eq_true.mpr hchars, hdigit]
    simp [String.ofList_toList]

theorem reference_read {r : Reference} (h : r.Readable) (line : Nat) (ts : List Token) :
    reference (referenceToken line r :: ts) = .ok r ts := by
  rw [reference, referenceToken, bind_ok (expect_cons ..), String.toList_ofList, ofWord?_text h]
  rfl

theorem relation_read (r : Relation) (line : Nat) (ts : List Token) :
    relation (⟨.word, r.name, line⟩ :: ts) = .ok r ts := by
  have hparse : Relation.parse? r.name = some r := by cases r <;> decide
  rw [relation, bind_ok (expect_cons ..), hparse]
  rfl

theorem positionOf?_digits {n : Nat} (h : n < positionBound) :
    positionOf? (Number.digits n) = some n := by
  have hdigit : ∀ c ∈ Number.digits n, c.isDigit = true := fun _ => Number.isDigit_of_mem_digits
  have hempty : (Number.digits n).isEmpty = false :=
    List.isEmpty_eq_false_iff.mpr (Number.digits_ne_nil n)
  rw [positionOf?]
  · rw [hempty, List.all_eq_true.mpr hdigit]
    exact Number.below?_digits h
  · intro ds hds
    have := hdigit '+' (by simp [hds])
    cases this

theorem position?_read {position : Option Nat} (h : readablePosition position) {keyword : String}
    (hk : Text.sameName keyword keyword = true) (line : Nat) {ts : List Token}
    (ht : isKeyword keyword ts.head? = false) :
    position? keyword (positionSpelling line keyword position ++ ts) = .ok position ts := by
  cases position with
  | none =>
    have haccept : accept keyword ts = .ok false ts := by
      rw [accept_eq, ht, if_neg Bool.false_ne_true]
    rw [positionSpelling, List.nil_append, position?, bind_ok haccept]
    rfl
  | some n =>
    rw [positionSpelling, List.cons_append, List.cons_append, position?, bind_ok (accept_word hk),
      if_pos rfl, bind_ok (expect_cons ..), String.toList_ofList, positionOf?_digits (h n rfl)]
    rfl

theorem kind?_read (kind : Option ContentKind) (line : Nat) {ts : List Token}
    (ht : isKind .word ts.head? = true → isKeyword "AT" ts.head? = true) :
    kind? (kindSpelling line kind ++ ts) = .ok kind ts := by
  cases kind with
  | none =>
    have hnone : (isKind .word ts.head? && !isKeyword "AT" ts.head?) = false := by
      rw [Bool.and_eq_false_iff, Bool.not_eq_false']
      by_cases hw : isKind .word ts.head? = true
      · exact .inr (ht hw)
      · exact .inl (Bool.eq_false_iff.mpr hw)
    rw [kindSpelling, List.nil_append, kind?, bind_ok (peek_eq ts), hnone]
    rfl
  | some kind =>
    have hparse : ContentKind.parse? kind.name = some kind := by cases kind <;> decide
    have hword : (isKind .word (some ⟨.word, kind.name, line⟩) &&
        !isKeyword "AT" (some ⟨.word, kind.name, line⟩)) = true := by
      have hat : Text.sameName kind.name "AT" = false := by cases kind <;> decide
      simp [isKind, isKeyword, hat]
    rw [kindSpelling, List.singleton_append, kind?, bind_ok (peek_eq _), List.head?_cons, hword,
      if_pos rfl, bind_ok (expect_cons ..), hparse]
    rfl

theorem propertyValue_read {a : Attribute} (h : a.Readable) (line : Nat) (ts : List Token) :
    propertyValue (valueSpelling line a :: ts) = .ok a ts := by
  rw [propertyValue, bind_ok (peek_eq _), List.head?_cons]
  cases a with
  | text s => exact map_ok (expect_cons ..)
  | flag b =>
    rw [valueSpelling, if_neg (by simp [isKind]), map_ok (expect_cons ..)]
    cases b <;> rfl
    simp
  | number x =>
    rw [valueSpelling, if_neg (by simp [isKind]), map_ok (expect_cons ..), Attribute.display,
      Attribute.ofLiteral_text h]
    simp

/-! ## Properties -/

theorem nameSpelling_plain {name : List Char} (hw : IsWord name) (hs : isSigned name = false)
    (line : Nat) : nameSpelling line name =
      [⟨.word, String.ofList name, line⟩, ⟨.equals, "=", line⟩] := by
  have hlast := List.getLast?_eq_some_getLast hw.ne_nil
  rw [isSigned, hlast, Option.any_some] at hs
  rw [nameSpelling, hlast]
  dsimp only
  rw [hs, if_neg Bool.false_ne_true]

/-- Where an operator stands in the place of the equals sign, reading ends. -/
theorem refuses_signed {name : List Char} (hs : isSigned name = true) (line : Nat)
    (f : String → String → Reader α) (ts : List Token) :
    Refuses (do let key ← expect .word; let mark ← expect .equals; f key mark)
      (nameSpelling line name ++ ts) := by
  have hkind (c : Char) : (signToken line c).kind ≠ .word ∧ (signToken line c).kind ≠ .equals := by
    by_cases hc : c = '+' <;> simp [signToken, hc]
  rw [isSigned, Option.any_eq_true] at hs
  obtain ⟨c, hlast, hc⟩ := hs
  rw [nameSpelling, hlast]
  dsimp only
  rw [if_pos hc]
  split
  · exact (refuses_expect (hkind c).1).bind
  · exact Refuses.after (expect_cons ..) (refuses_expect (hkind c).2).bind

/-- The properties that are read when some were read before. -/
def insertAll (read : Attributes) (entries : List (String × Attribute)) : Attributes :=
  entries.foldl (fun read entry => read.insert entry.1 entry.2) read

theorem propertiesFrom_read {entries : List (String × Attribute)} (hne : entries ≠ [])
    (h : ∀ e ∈ entries, (IsWord e.1.toList ∧ e.2.Readable) ∧ isSigned e.1.toList = false)
    {fuel : Nat} (hfuel : entries.length ≤ fuel) (read : Attributes) (line : Nat) {ts : List Token}
    (ht : Halts ts) :
    propertiesFrom fuel read (entriesSpelling line entries ++ ts) =
      .ok (insertAll read entries) ts := by
  induction entries generalizing fuel read with
  | nil => exact absurd rfl hne
  | cons e entries ih =>
    obtain ⟨⟨⟨hword, hvalue⟩, hplain⟩, hrest⟩ := List.forall_mem_cons.mp h
    obtain ⟨fuel, rfl⟩ : ∃ n, fuel = n + 1 := ⟨fuel - 1, by simp at hfuel; omega⟩
    have hname := nameSpelling_plain hword hplain line
    rw [String.ofList_toList] at hname
    rw [propertiesFrom]
    -- whether reading goes on depends on a comma behind the value
    cases entries with
    | nil =>
      rw [entriesSpelling, hname]
      simp only [List.cons_append, List.nil_append]
      rw [bind_ok (expect_cons ..), bind_ok (expect_cons ..), bind_ok (propertyValue_read hvalue ..),
        bind_ok (peek_eq ts), ht.isKind (by decide)]
      rfl
    | cons e' entries =>
      rw [entriesSpelling, hname]
      simp only [List.cons_append, List.nil_append]
      rw [bind_ok (expect_cons ..), bind_ok (expect_cons ..), bind_ok (propertyValue_read hvalue ..),
        bind_ok (peek_eq _), List.head?_cons, isKind, Option.any_some]
      exact ih (by simp) hrest (by simpa using hfuel) (read.insert e.1 e.2)

theorem propertiesFrom_refused {entries : List (String × Attribute)}
    (h : ∀ e ∈ entries, IsWord e.1.toList ∧ e.2.Readable)
    (hs : ∃ e ∈ entries, isSigned e.1.toList = true)
    {fuel : Nat} (hfuel : entries.length ≤ fuel) (read : Attributes) (line : Nat) (ts : List Token) :
    Refuses (propertiesFrom fuel read) (entriesSpelling line entries ++ ts) := by
  induction entries generalizing fuel read with
  | nil =>
    obtain ⟨e, he, -⟩ := hs
    cases he
  | cons e entries ih =>
    obtain ⟨⟨hword, hvalue⟩, hrest⟩ := List.forall_mem_cons.mp h
    obtain ⟨fuel, rfl⟩ : ∃ n, fuel = n + 1 := ⟨fuel - 1, by simp at hfuel; omega⟩
    rw [propertiesFrom]
    -- either this name ends in a sign, or the property is read and a later name does
    by_cases hsigned : isSigned e.1.toList = true
    · obtain ⟨more, hmore⟩ : ∃ more, entriesSpelling line (e :: entries) =
          nameSpelling line e.1.toList ++ more := by
        cases entries <;> exact ⟨_, rfl⟩
      rw [hmore, List.append_assoc]
      exact refuses_signed hsigned line _ _
    · have hname := nameSpelling_plain hword (Bool.eq_false_iff.mpr hsigned) line
      rw [String.ofList_toList] at hname
      obtain ⟨x, hx, hxs⟩ := hs
      rcases List.mem_cons.mp hx with rfl | hx
      · exact absurd hxs hsigned
      cases entries with
      | nil => cases hx
      | cons e' entries =>
        rw [entriesSpelling, hname]
        simp only [List.cons_append, List.nil_append]
        refine .after (expect_cons ..) (.after (expect_cons ..)
          (.after (propertyValue_read hvalue ..) (.after (peek_eq _) ?_)))
        rw [List.head?_cons, isKind, Option.any_some]
        exact ih hrest ⟨x, hx, hxs⟩ (by simpa using hfuel) (read.insert e.1 e.2)

theorem length_le_entriesSpelling (line : Nat) (entries : List (String × Attribute)) :
    entries.length ≤ (entriesSpelling line entries).length := by
  induction entries with
  | nil => exact Nat.zero_le _
  | cons e entries ih =>
    cases entries with
    | nil =>
      rw [entriesSpelling, List.length_append]
      simp
    | cons e' entries =>
      rw [entriesSpelling, List.length_append]
      simp only [List.length_cons] at ih ⊢
      omega

theorem insertAll_toList (properties : Attributes) :
    insertAll ∅ properties.toList = properties := by
  rw [insertAll, ← Std.ExtTreeMap.ofList_eq_foldl]
  exact Map.ofList_toList properties

theorem properties_read {properties : Attributes} (h : properties.Readable)
    (hp : properties.Plain) (line : Nat) {ts : List Token} (ht : Halts ts) :
    Reader.properties (propertiesSpelling line properties ++ ts) = .ok properties ts := by
  rw [Reader.properties, propertiesSpelling]
  split
  · rename_i hempty
    rw [List.nil_append, bind_ok (ht.accept "WITH"), Std.ExtTreeMap.isEmpty_iff.mp hempty]
    rfl
  · rename_i hempty
    have hne : properties.toList ≠ [] := by
      rw [Ne, Std.ExtTreeMap.toList_eq_nil_iff]
      exact fun he => hempty (Std.ExtTreeMap.isEmpty_iff.mpr he)
    rw [List.cons_append, bind_ok (accept_word (by decide)), if_pos rfl]
    show propertiesFrom _ ∅ _ = _
    rw [propertiesFrom_read hne (fun e he => ⟨h e he, hp e he⟩) ?_ ∅ line ht, insertAll_toList]
    have hlength := length_le_entriesSpelling line properties.toList
    rw [List.length_append]
    omega

theorem properties_refused {properties : Attributes} (h : properties.Readable)
    (hp : ¬ properties.Plain) (line : Nat) (ts : List Token) :
    Refuses Reader.properties (propertiesSpelling line properties ++ ts) := by
  have hsigned : ∃ e ∈ properties.toList, isSigned e.1.toList = true := by
    simpa [Attributes.Plain] using hp
  have hempty : ¬ properties.isEmpty = true := by
    intro he
    rw [Std.ExtTreeMap.isEmpty_iff.mp he] at hsigned
    obtain ⟨e, hmem, -⟩ := hsigned
    cases hmem
  rw [Reader.properties, propertiesSpelling, if_neg hempty, List.cons_append]
  refine .after (accept_word (by decide)) ?_
  rw [if_pos rfl]
  refine .after rfl (propertiesFrom_refused h hsigned ?_ ∅ line ts)
  have hlength := length_le_entriesSpelling line properties.toList
  rw [List.length_append]
  omega

/-! ## Commands -/

end Command.Reader

namespace Command

/-- The word with which a command starts. -/
def keyword : Command → String
  | edit .. => "EDIT"
  | append .. => "APPEND"
  | delete .. => "DELETE"
  | move .. => "MOVE"
  | link .. => "LINK"
  | unlink .. => "UNLINK"
  | prune => "PRUNE"

/-- What reads a command after its keyword. -/
def reader : Command → Reader Command
  | edit .. => Reader.edit
  | append .. => Reader.append
  | delete .. => Reader.delete
  | move .. => Reader.move
  | link .. => Reader.link
  | unlink .. => Reader.unlink
  | prune => Reader.prune

theorem spelling_eq (c : Command) (line : Nat) :
    c.spelling line = ⟨.word, c.keyword, line⟩ :: (c.spelling line).tail := by
  cases c <;> rfl

namespace Reader

theorem command_keyword (c : Command) (line : Nat) (ts : List Token) :
    command (⟨.word, c.keyword, line⟩ :: ts) = c.reader ts := by
  have hupper : Text.upper c.keyword = c.keyword := by cases c <;> rw [keyword] <;> decide
  rw [command, bind_ok (expect_cons ..), hupper]
  cases c <;> rfl

theorem kind?_read_append (kind : Option ContentKind) (position : Option Nat) (line : Nat)
    (ts : List Token) :
    kind? (kindSpelling line kind ++ (positionSpelling line "AT" position ++
        ⟨.doubleColon, "::", line⟩ :: ts)) =
      .ok kind (positionSpelling line "AT" position ++ ⟨.doubleColon, "::", line⟩ :: ts) := by
  refine kind?_read kind line fun hword => ?_
  cases position with
  | none => cases hword
  | some n =>
    rw [positionSpelling, List.cons_append, List.head?_cons, isKeyword_word]
    decide

theorem place_read {p : Place Reference} (h : p.Readable) (line : Nat) {ts : List Token}
    (ht : Halts ts) : place (placeSpelling line p ++ ts) = .ok p ts := by
  cases p with
  | under parent position =>
    rw [placeSpelling, List.cons_append, List.cons_append, place, bind_ok (expect_cons ..),
      show Text.upper "TO" = "TO" by decide]
    show (reference >>= fun parent => Place.under parent <$> position? "INDEX") _ = _
    rw [bind_ok (reference_read h.1 ..)]
    exact map_ok (position?_read h.2 (by decide) line (ht.isKeyword _))
  | before anchor =>
    rw [placeSpelling, List.cons_append, List.singleton_append, place, bind_ok (expect_cons ..),
      show Text.upper "BEFORE" = "BEFORE" by decide]
    exact map_ok (reference_read h ..)
  | after anchor =>
    rw [placeSpelling, List.cons_append, List.singleton_append, place, bind_ok (expect_cons ..),
      show Text.upper "AFTER" = "AFTER" by decide]
    exact map_ok (reference_read h ..)

theorem target_read (path : String) (op : Assignment) (line : Nat) (ts : List Token) :
    target (⟨.word, path, line⟩ :: ⟨markKind op, op.mark, line⟩ :: ts) = .ok (path, op) ts := by
  cases op <;> rfl

theorem delete_read {id : Reference} (h : id.Readable) (children : Fate) (line : Nat)
    {ts : List Token} (ht : Halts ts) :
    delete (referenceToken line id :: (fateSpelling line children ++ ts)) =
      .ok (.delete id children) ts := by
  rw [delete, bind_ok (reference_read h ..)]
  cases children with
  | none =>
    rw [fateSpelling, List.nil_append, bind_ok (ht.accept _)]
    show (accept "PRESERVE_CHILDREN" >>= _) _ = _
    rw [bind_ok (ht.accept _)]
    rfl
  | deleted =>
    rw [fateSpelling, List.singleton_append, bind_ok (accept_word (by decide))]
    rfl
  | kept =>
    rw [fateSpelling, List.singleton_append, bind_ok (accept_other (by decide))]
    show (accept "PRESERVE_CHILDREN" >>= _) _ = _
    rw [bind_ok (accept_word (by decide))]
    rfl

/-- Of an addition only the properties are left to read. -/
theorem append_spelling {parent : Reference} {position : Option Nat} (h : parent.Readable)
    (hposition : readablePosition position) (kind : Option ContentKind) (content : String)
    (properties : Attributes) (line : Nat) (ts : List Token) :
    append ((spelling line (.append parent kind position content properties)).tail ++ ts) =
      (Reader.properties >>= fun read => pure (.append parent kind position content read))
        (propertiesSpelling line properties ++ ts) := by
  show append (referenceToken line parent :: (kindSpelling line kind ++
    (positionSpelling line "AT" position ++ ⟨.doubleColon, "::", line⟩ ::
      ⟨.quoted, content, line⟩ :: propertiesSpelling line properties)) ++ ts) = _
  simp only [List.cons_append, List.append_assoc]
  rw [append, bind_ok (reference_read h ..), bind_ok (kind?_read_append ..),
    bind_ok (position?_read hposition (by decide) line rfl), bind_ok (expect_cons ..),
    bind_ok (peek_eq _)]
  show (expect .quoted >>= _) _ = _
  rw [bind_ok (expect_cons ..)]

/-- Of an edge that is added only the properties are left to read. -/
theorem link_spelling {source target : Reference} (h : source.Readable) (ht : target.Readable)
    (r : Relation) (properties : Attributes) (line : Nat) (ts : List Token) :
    link ((spelling line (.link source r target properties)).tail ++ ts) =
      (Reader.properties >>= fun read => pure (.link source r target read))
        (propertiesSpelling line properties ++ ts) := by
  show link (referenceToken line source :: ⟨.word, r.name, line⟩ :: referenceToken line target ::
    propertiesSpelling line properties ++ ts) = _
  simp only [List.cons_append]
  rw [link, bind_ok (reference_read h ..), bind_ok (relation_read ..), bind_ok (reference_read ht ..),
    map_eq_pure_bind]

/-- **A command is read back from its spelling.** -/
theorem command_read {c : Command} (h : c.Readable) (hp : c.Plain) (line : Nat) {ts : List Token}
    (ht : Halts ts) : command (c.spelling line ++ ts) = .ok c ts := by
  rw [spelling_eq, List.cons_append, command_keyword]
  -- each command is read by its own reader, whose parts were read back above
  cases c with
  | edit id path op value =>
    show edit (referenceToken line id :: ⟨.word, "SET", line⟩ :: ⟨.word, path, line⟩ ::
      ⟨markKind op, op.mark, line⟩ :: ⟨.quoted, value, line⟩ :: ts) = _
    rw [edit, bind_ok (reference_read h.1 ..), bind_ok (accept_word (by decide))]
    show (target >>= _) _ = _
    rw [bind_ok (target_read ..)]
    rfl
  | append parent kind position content properties =>
    rw [reader, append_spelling h.1 h.2.1, bind_ok (properties_read h.2.2 hp line ht)]
    rfl
  | delete id children => exact delete_read h children line ht
  | move id p =>
    show move (referenceToken line id :: (placeSpelling line p ++ ts)) = _
    rw [move, bind_ok (reference_read h.1 ..)]
    exact map_ok (place_read h.2 line ht)
  | link source r target properties =>
    rw [reader, link_spelling h.1 h.2.1, bind_ok (properties_read h.2.2 hp line ht)]
    rfl
  | unlink source r target =>
    show unlink (referenceToken line source :: ⟨.word, r.name, line⟩ ::
      referenceToken line target :: ts) = _
    rw [unlink, bind_ok (reference_read h.1 ..), bind_ok (relation_read ..)]
    exact map_ok (reference_read h.2 ..)
  | prune =>
    show prune (⟨.word, "unreachable", line⟩ :: ts) = _
    rw [prune, bind_ok (expect_cons ..), if_pos (by decide)]
    rfl

/-- **A command with a property whose name ends in a sign is refused.** -/
theorem command_refused {c : Command} (h : c.Readable) (hp : ¬ c.Plain) (line : Nat)
    (ts : List Token) : Refuses command (c.spelling line ++ ts) := by
  rw [spelling_eq, List.cons_append, Refuses]
  simp only [command_keyword]
  cases c with
  | append parent kind position content properties =>
    rw [reader, append_spelling h.1 h.2.1]
    exact (properties_refused h.2.2 hp line ts).bind
  | link source r target properties =>
    rw [reader, link_spelling h.1 h.2.1]
    exact (properties_refused h.2.2 hp line ts).bind
  | _ => exact absurd Attributes.plain_empty hp

end Reader

end Command

end BlockDocument
