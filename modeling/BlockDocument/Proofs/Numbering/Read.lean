import Mathlib
import BlockDocument.Proofs.Command.Accepted
import BlockDocument.Proofs.Command.Read
import BlockDocument.Proofs.Numbering.Word

/-!
# Reading tokens with ids for numbers

A reader that succeeds on some tokens succeeds on them with ids put for numbers, and reads the same
with references relabelled. Along with the result goes the stance in which the replacement leaves
it: references are relabelled where it stands among words, and that it does so at every reference is
what the readers of commands have to keep.
-/

namespace BlockDocument

open Command

namespace Command.Reader

variable {α β : Type} {n : Numbering} {st : Stance} {ts : List Token}

/-! ## Readers in sequence -/

/-- What `r` reads from some tokens, `r'` reads from them with ids put for numbers: the results are
related, and so is the stance behind them. -/
def Follows (n : Numbering) (st : Stance) (ts : List Token) (r r' : Reader α)
    (R : α → α → Stance → Prop) : Prop :=
  ∀ a rest, Scanner.Worded ts → r ts = .ok a rest → Scanner.Worded rest ∧
    ∃ a' st', r' (retoken n.longWord st ts) = .ok a' (retoken n.longWord st' rest) ∧ R a a' st'

theorem Follows.pure {R : α → α → Stance → Prop} {a a' : α} (h : R a a' st) :
    Follows n st ts (pure a) (pure a') R := by
  rintro _ _ hts ⟨⟩
  exact ⟨hts, a', st, rfl, h⟩

theorem Follows.throw {R : α → α → Stance → Prop} {fault : Fault} {r' : Reader α} :
    Follows n st ts (throw fault) r' R := by
  rintro a rest hts ⟨⟩

theorem Follows.bind {R : α → α → Stance → Prop} {Q : β → β → Stance → Prop} {r r' : Reader α}
    {k k' : α → Reader β} (hr : Follows n st ts r r' R)
    (hk : ∀ a a' st' rest, r ts = .ok a rest → R a a' st' → Follows n st' rest (k a) (k' a') Q) :
    Follows n st ts (r >>= k) (r' >>= k') Q := by
  intro b rest hts h
  obtain ⟨a, mid, ha, hb⟩ := bind_eq_ok h
  obtain ⟨hmid, a', st', ha', hR⟩ := hr a mid hts ha
  obtain ⟨hrest, b', st'', hb', hQ⟩ := hk a a' st' mid ha hR b rest hmid hb
  exact ⟨hrest, b', st'', by rw [bind_ok ha', hb'], hQ⟩

theorem Follows.map {R : α → α → Stance → Prop} {Q : β → β → Stance → Prop} {r r' : Reader α}
    {g g' : α → β} (hr : Follows n st ts r r' R)
    (hg : ∀ a a' st', R a a' st' → Q (g a) (g' a') st') :
    Follows n st ts (g <$> r) (g' <$> r') Q := by
  rw [map_eq_pure_bind, map_eq_pure_bind]
  exact hr.bind fun a a' st' _ _ hR => .pure (hg a a' st' hR)

theorem Follows.imp {R Q : α → α → Stance → Prop} {r r' : Reader α}
    (hr : Follows n st ts r r' R) (h : ∀ a a' st', R a a' st' → Q a a' st') :
    Follows n st ts r r' Q := by
  intro a rest hts hok
  obtain ⟨hrest, a', st', hok', hR⟩ := hr a rest hts hok
  exact ⟨hrest, a', st', hok', h a a' st' hR⟩

theorem follows_orFault {R : α → α → Stance → Prop} {fault fault' : Fault} {o o' : Option α}
    (h : ∀ a, o = some a → ∃ a', o' = some a' ∧ R a a' st) :
    Follows n st ts (orFault fault o) (orFault fault' o') R := by
  cases o with
  | none => exact .throw
  | some a =>
    obtain ⟨a', rfl, hR⟩ := h a rfl
    exact .pure hR

/-! ## Single tokens -/

theorem follows_get {Q : β → β → Stance → Prop} {k k' : List Token → Reader β}
    (h : Follows n st ts (k ts) (k' (retoken n.longWord st ts)) Q) :
    Follows n st ts (get >>= k) (get >>= k') Q :=
  h

theorem follows_peek {Q : β → β → Stance → Prop} {k k' : Option Token → Reader β}
    (h : Follows n st ts (k ts.head?) (k' (retoken n.longWord st ts).head?) Q) :
    Follows n st ts (peek >>= k) (peek >>= k') Q := by
  intro b rest hts hok
  rw [bind_ok (peek_eq ts)] at hok
  rw [bind_ok (peek_eq _)]
  exact h b rest hts hok

theorem kind_rewordToken (f : List Char → Option (List Char)) (st : Stance) (t : Token) :
    (rewordToken f st t).1.kind = t.kind := by
  rw [rewordToken]
  split <;> rfl

theorem length_retoken (f : List Char → Option (List Char)) (st : Stance) (ts : List Token) :
    (retoken f st ts).length = ts.length := by
  induction ts generalizing st with
  | nil => rfl
  | cons t ts ih => rw [retoken, List.length_cons, ih, List.length_cons]

theorem kind_head?_retoken (f : List Char → Option (List Char)) (st : Stance) (ts : List Token) :
    (retoken f st ts).head?.map Token.kind = ts.head?.map Token.kind := by
  cases ts with
  | nil => rfl
  | cons t ts => exact congrArg some (kind_rewordToken f st t)

theorem isKind_head?_retoken (f : List Char → Option (List Char)) (kind : TokenKind) (st : Stance)
    (ts : List Token) : isKind kind (retoken f st ts).head? = isKind kind ts.head? := by
  cases ts with
  | nil => rfl
  | cons t ts =>
    rw [retoken, List.head?_cons, List.head?_cons, isKind, isKind, Option.any_some, Option.any_some,
      kind_rewordToken]

theorem line_rewordToken (f : List Char → Option (List Char)) (st : Stance) (t : Token) :
    (rewordToken f st t).1.line = t.line := by
  rw [rewordToken]
  split <;> rfl

/-- The stance behind the next token. -/
theorem follows_advance : Follows n st ts advance advance fun _ _ st' =>
    ∀ t ∈ ts.head?, st' = (rewordToken n.longWord st t).2 := by
  rintro _ _ hts ⟨⟩
  refine ⟨worded_tail hts, ?_⟩
  cases ts with
  | nil => exact ⟨(), st, rfl, nofun⟩
  | cons t ts =>
    refine ⟨(), (rewordToken n.longWord st t).2, rfl, ?_⟩
    rintro _ ⟨⟩
    rfl

/-- A token that has to come next. -/
theorem follows_token {kind : TokenKind} {R : String → String → Stance → Prop}
    (h : ∀ t : Token, t.kind = kind → (kind = .word → IsWord t.text.toList) →
      R t.text (rewordToken n.longWord st t).1.text (rewordToken n.longWord st t).2) :
    Follows n st ts (expect kind) (expect kind) R := by
  intro text rest hts hok
  cases ts with
  | nil => cases hok
  | cons t ts =>
    by_cases hkind : t.kind = kind
    · have hread (t : Token) (ts : List Token) (hkind : t.kind = kind) :
          expect kind (t :: ts) = .ok t.text ts := by
        subst hkind
        exact expect_cons ..
      rw [hread t ts hkind] at hok
      cases hok
      refine ⟨worded_tail hts, _, _, hread _ _ ?_, h t hkind fun hword => ?_⟩
      · rw [kind_rewordToken, hkind]
      · exact hts t (List.mem_cons_self ..) (hkind.trans hword)
    · obtain ⟨fault, rest', hrefuse⟩ : Refuses (expect kind) (t :: ts) := refuses_expect hkind
      rw [hrefuse] at hok
      cases hok

/-- A token that has to come next, other than a word and the ends of commands. -/
theorem follows_expect {kind : TokenKind}
    (hkind : kind ∉ [.word, .newline, .semicolon, .closeBrace]) :
    Follows n st ts (expect kind) (expect kind) fun text text' st' => text' = text ∧ st' = st := by
  refine follows_token fun t ht _ => ?_
  subst ht
  rw [rewordToken]
  split <;> simp_all

/-- A word that has to come next. -/
theorem follows_word :
    Follows n st ts (expect .word) (expect .word) fun word word' st' =>
      IsWord word.toList ∧ word' = String.ofList (reword n.longWord st word.toList).1 ∧
        st' = (reword n.longWord st word.toList).2 := by
  refine follows_token fun t ht hword => ⟨hword rfl, ?_, ?_⟩
  all_goals rw [rewordToken, ht]

/-! ## Relations, operators and values -/

/-- The name of a relation, behind which words follow if it stands among words. -/
theorem follows_relation : Follows n st ts relation relation fun r r' st' =>
    r' = r ∧ st' = st.past false := by
  refine follows_word.bind fun word word' st' _ _ ⟨_, hword', hst'⟩ =>
    follows_orFault fun r hr => ?_
  have hname := List.find?_some hr
  rw [sameName_comm] at hname
  have hkeyword : isLettered r.name = true ∧ Text.sameName r.name "WITH" = false ∧
      (Text.sameName r.name "INDEX" || Text.sameName r.name "AT") = false := by
    cases r <;> decide
  obtain ⟨hlettered, hwith, hpositional⟩ := hkeyword
  have hreword := Numbering.reword_keyword (n := n) hlettered hname hwith st
  rw [hpositional] at hreword
  rw [hreword] at hword' hst'
  rw [hword', String.ofList_toList]
  exact ⟨r, hr, rfl, hst'⟩

/-- A word behind `WITH`. -/
theorem follows_word_tail {p : Bool} :
    Follows n (.tail p) ts (expect .word) (expect .word) fun word word' st' =>
      word' = word ∧ st' = .tail p := by
  refine follows_word.imp fun word word' st' ⟨_, hword', hst'⟩ => ?_
  rw [reword_tail] at hword' hst'
  exact ⟨hword'.trans String.ofList_toList, hst'⟩

theorem follows_propertyValue {p : Bool} :
    Follows n (.tail p) ts propertyValue propertyValue fun a a' st' => a' = a ∧ st' = .tail p := by
  refine follows_peek ?_
  rw [isKind_head?_retoken]
  split
  · exact (follows_expect (by decide)).map fun _ _ _ ⟨htext, hst'⟩ => ⟨congrArg _ htext, hst'⟩
  · exact follows_word_tail.map fun _ _ _ ⟨htext, hst'⟩ => ⟨congrArg _ htext, hst'⟩

theorem follows_propertiesFrom (fuel : Nat) (read : Attributes) {p : Bool} :
    Follows n (.tail p) ts (propertiesFrom fuel read) (propertiesFrom fuel read)
      fun properties properties' _ => properties' = properties := by
  induction fuel generalizing read ts with
  | zero => exact .pure rfl
  | succ fuel ih =>
    refine follows_word_tail.bind fun key _ _ _ _ ⟨hkey, hst⟩ => ?_
    subst hkey hst
    refine (follows_expect (by decide)).bind fun _ _ _ _ _ ⟨_, hst⟩ => ?_
    subst hst
    refine follows_propertyValue.bind fun value _ _ ts _ ⟨hvalue, hst⟩ => ?_
    subst hvalue hst
    refine follows_peek ?_
    rw [isKind_head?_retoken]
    split
    · -- Behind a comma the stance is what it was, so the next property stays as well.
      rename_i hcomma
      refine follows_advance.bind fun _ _ st' _ _ hst' => ?_
      cases ts with
      | nil => cases hcomma
      | cons t ts =>
        rw [List.head?_cons, isKind, Option.any_some, beq_iff_eq] at hcomma
        have hst' := hst' t rfl
        rw [rewordToken, hcomma] at hst'
        subst hst'
        exact ih _
    · exact .pure rfl

theorem follows_assignment : Follows n st ts assignment assignment fun op op' _ => op' = op := by
  refine follows_peek ?_
  rw [kind_head?_retoken]
  have hmark (op : Assignment) : Follows n st ts (do advance; pure op) (do advance; pure op)
      fun op op' _ => op' = op :=
    follows_advance.bind fun _ _ _ _ _ _ => .pure rfl
  dsimp only
  split
  · exact hmark .set
  · exact hmark .add
  · exact hmark .remove
  · exact Follows.throw.bind (R := fun _ _ _ => False) fun _ _ _ _ _ h => h.elim

/-- What an edit sets: its path stays if the numbering leaves it as it is. -/
theorem follows_target : Follows n st ts target target fun read read' _ =>
    st = .free false → n.expand read.1 = read.1 → read' = read := by
  refine follows_peek ?_
  rw [kind_head?_retoken]
  split
  · exact .pure fun _ _ => rfl
  · exact follows_advance.bind fun _ _ _ _ _ _ => .pure fun _ _ => rfl
  · -- The only word that is no reference and may change all the same.
    refine follows_word.bind fun path path' _ _ _ ⟨hword, hpath', _⟩ =>
      follows_assignment.bind fun op op' _ _ _ hop => .pure fun hst hpath => ?_
    subst hst hop
    rw [Numbering.reword_path hword.chars hpath, String.ofList_toList] at hpath'
    rw [hpath']

theorem follows_prune : Follows n st ts prune prune fun c c' _ => c' = c.relabel n := by
  refine follows_word.bind fun word word' st' _ _ ⟨_, hword', _⟩ => ?_
  split
  · rename_i hname
    rw [hword', Numbering.reword_keyword (by decide) hname (by decide), String.ofList_toList,
      if_pos hname]
    exact .pure rfl
  · exact .throw

/-! ## Verbs -/

/-- Whether a word in capitals is one with which a command or a place starts. -/
def isVerb (keyword : String) : Bool :=
  isLettered keyword && !Text.sameName keyword "WITH" &&
    !(Text.sameName keyword "INDEX" || Text.sameName keyword "AT") && Text.upper keyword == keyword

theorem follows_verb : Follows n st ts (expect .word) (expect .word) fun word word' st' =>
    isVerb (Text.upper word) = true → word' = word ∧ st' = st.past false := by
  refine follows_word.imp fun word word' st' ⟨_, hword', hst'⟩ hverb => ?_
  simp only [isVerb, Bool.and_eq_true, Bool.not_eq_true', beq_iff_eq] at hverb
  obtain ⟨⟨⟨hlettered, hwith⟩, hpositional⟩, hupper⟩ := hverb
  have hname : Text.sameName word (Text.upper word) = true := sameName_of_upper hupper.symm
  rw [Numbering.reword_keyword hlettered hname hwith, hpositional] at hword' hst'
  exact ⟨hword'.trans String.ofList_toList, hst'⟩

/-! ## Keywords -/

/-- A keyword that no id and no number is. -/
structure IsFixed (keyword : String) : Prop where
  lettered : isLettered keyword = true
  not_id : 'k' ∉ keyword.toList.map Char.toLower

variable (hn : n.Issued)

include hn

theorem isKeyword_rewordToken {keyword : String} (hk : IsFixed keyword) (t : Token) :
    isKeyword keyword (some (rewordToken n.longWord st t).1) = isKeyword keyword (some t) := by
  rw [isKeyword, isKeyword, Option.any_some, Option.any_some, kind_rewordToken]
  by_cases hword : t.kind = .word
  · rw [rewordToken, hword]
    dsimp only
    rw [Numbering.sameName_reword hn hk.lettered hk.not_id]
  · rw [beq_eq_false_iff_ne.mpr hword, Bool.false_and, Bool.false_and]

theorem isKeyword_head?_retoken {keyword : String} (hk : IsFixed keyword) (ts : List Token) :
    isKeyword keyword (retoken n.longWord st ts).head? = isKeyword keyword ts.head? := by
  cases ts with
  | nil => rfl
  | cons t ts => exact isKeyword_rewordToken hn hk t

/-- A keyword that may come next, and the stance behind it. -/
theorem follows_accept {keyword : String} (hk : IsFixed keyword) :
    Follows n st ts (accept keyword) (accept keyword) fun found found' st' => found' = found ∧
      if found then ∃ word : String, Text.sameName word keyword = true ∧
        st' = (reword n.longWord st word.toList).2
      else st' = st := by
  refine follows_peek ?_
  rw [isKeyword_head?_retoken hn hk]
  cases hkeyword : isKeyword keyword ts.head? with
  | false => exact .pure ⟨rfl, rfl⟩
  | true =>
    refine follows_advance.bind fun _ _ st' _ _ hst' => .pure ⟨rfl, ?_⟩
    cases ts with
    | nil => cases hkeyword
    | cons t ts =>
      rw [List.head?_cons, isKeyword, Option.any_some, Bool.and_eq_true, beq_iff_eq] at hkeyword
      refine ⟨t.text, hkeyword.2, ?_⟩
      rw [hst' t rfl, rewordToken, hkeyword.1]

/-- A keyword other than `WITH` that may come next. -/
theorem follows_accept_keyword {keyword : String} (hk : IsFixed keyword)
    (hwith : Text.sameName keyword "WITH" = false) :
    Follows n st ts (accept keyword) (accept keyword) fun found found' st' => found' = found ∧
      st' = if found then st.past (Text.sameName keyword "INDEX" || Text.sameName keyword "AT")
        else st := by
  refine (follows_accept hn hk).imp fun found found' st' ⟨hfound, hst'⟩ => ⟨hfound, ?_⟩
  cases found with
  | false => exact hst'
  | true =>
    obtain ⟨word, hword, rfl⟩ := hst'
    exact congrArg Prod.snd (Numbering.reword_keyword hk.lettered hword hwith st)

/-! ## References and relations -/

theorem follows_reference : Follows n st ts reference reference fun r r' st' =>
    st = .free false → r.isWith = false → r' = r.relabel n ∧ ∃ p, st' = .free p := by
  refine follows_word.bind fun word word' st' _ _ ⟨_, hword', hst'⟩ =>
    follows_orFault fun r hr => ?_
  subst hword' hst'
  rw [String.toList_ofList]
  exact Numbering.reword_reference hn hr st

/-! ## Positions, properties and kinds -/

theorem follows_position? {keyword : String} (hk : IsFixed keyword)
    (hwith : Text.sameName keyword "WITH" = false)
    (hpositional : (Text.sameName keyword "INDEX" || Text.sameName keyword "AT") = true) :
    Follows n st ts (position? keyword) (position? keyword) fun i i' _ => i' = i := by
  refine (follows_accept_keyword hn hk hwith).bind fun _ found st' _ _ ⟨hfound, hst'⟩ => ?_
  subst hfound
  cases found with
  | false => exact .pure rfl
  | true =>
    have hbehind : st' = .free true ∨ ∃ p, st' = .tail p := by
      rw [if_pos rfl, hpositional] at hst'
      cases st with
      | free p => exact .inl hst'
      | tail p => exact .inr ⟨p, hst'⟩
    refine follows_word.bind fun word word' _ _ _ ⟨_, hword', _⟩ =>
      .map (R := fun i i' _ => i' = i) (follows_orFault fun i hi => ?_) fun _ _ _ h => congrArg _ h
    rw [Numbering.reword_position hi hbehind, String.ofList_toList] at hword'
    exact ⟨i, by rw [hword', hi], rfl⟩

theorem follows_properties :
    Follows n st ts properties properties fun properties properties' _ =>
      properties' = properties := by
  refine (follows_accept hn ⟨by decide, by decide⟩).bind fun _ found st' rest _ ⟨hfound, hst'⟩ => ?_
  subst hfound
  cases found with
  | false => exact .pure rfl
  | true =>
    obtain ⟨word, hword, rfl⟩ := hst'
    obtain ⟨p, hreword⟩ := Numbering.reword_keyword_with (n := n) hword st
    rw [hreword]
    refine follows_get ?_
    rw [length_retoken]
    exact follows_propertiesFrom _ _

/-- The kind of a content. -/
theorem follows_kind? : Follows n st ts kind? kind? fun kind kind' _ => kind' = kind := by
  refine follows_peek ?_
  rw [isKind_head?_retoken, isKeyword_head?_retoken hn ⟨by decide, by decide⟩]
  split
  · refine follows_word.bind fun word word' _ _ _ ⟨_, hword', _⟩ =>
      .map (R := fun kind kind' _ => kind' = kind) (follows_orFault fun kind hkind => ?_)
        fun _ _ _ h => congrArg _ h
    have hname := List.find?_some hkind
    rw [sameName_comm] at hname
    have hkeyword : isLettered kind.name = true ∧ Text.sameName kind.name "WITH" = false := by
      cases kind <;> decide
    rw [Numbering.reword_keyword hkeyword.1 hname hkeyword.2, String.ofList_toList] at hword'
    exact ⟨kind, by rw [hword', hkind], rfl⟩
  · exact .pure rfl

/-! ## Commands -/

/-- Commands that are the same up to ids for numbers, as long as only references change. -/
def Relabelled (n : Numbering) (c c' : Command) (_ : Stance) : Prop :=
  c.Expandable n → c' = c.relabel n

theorem follows_edit : Follows n (.free false) ts edit edit (Relabelled n) := by
  refine (follows_reference hn).bind fun id id' st' _ _ hid => ?_
  refine (follows_accept_keyword hn ⟨by decide, by decide⟩ (by decide)).bind
    fun _ set st'' _ _ ⟨hset, hst''⟩ => ?_
  subst hset
  cases set with
  | false => exact Follows.throw.bind (R := fun _ _ _ => False) fun _ _ _ _ _ h => h.elim
  | true =>
    refine follows_target.bind fun target target' _ _ _ htarget => ?_
    refine (follows_expect (by decide)).bind fun value value' _ _ _ ⟨hvalue, _⟩ =>
      .pure fun hc => ?_
    obtain ⟨rfl, p, rfl⟩ := hid rfl (hc.references id (List.mem_singleton.mpr rfl))
    rw [htarget hst'' (hc.path target.1 rfl), hvalue]
    rfl

theorem follows_append : Follows n (.free false) ts append append (Relabelled n) := by
  refine (follows_reference hn).bind fun parent parent' _ _ _ hparent => ?_
  refine (follows_kind? hn).bind fun kind kind' _ _ _ hkind => ?_
  refine (follows_position? hn ⟨by decide, by decide⟩ (by decide) (by decide)).bind
    fun position position' _ _ _ hposition => ?_
  refine (follows_expect (by decide)).bind fun _ _ _ _ _ _ => follows_peek ?_
  rw [kind_head?_retoken]
  have hdone (content : String) (properties : Attributes)
      (hc : (Command.append parent kind position content properties).Expandable n) :
      .append parent' kind' position' content properties =
        (Command.append parent kind position content properties).relabel n := by
    rw [(hparent rfl (hc.references parent (List.mem_singleton.mpr rfl))).1, hkind, hposition]
    rfl
  split
  · refine (follows_expect (by decide)).bind fun content content' _ _ _ ⟨hcontent, _⟩ => ?_
    refine (follows_properties hn).bind fun properties properties' _ _ _ hproperties => ?_
    subst hcontent hproperties
    exact .pure (hdone _ _)
  · refine (follows_expect (by decide)).bind fun content content' _ _ _ ⟨hcontent, _⟩ => ?_
    subst hcontent
    exact .pure (hdone _ _)
  · exact .throw

theorem follows_delete : Follows n (.free false) ts delete delete (Relabelled n) := by
  refine (follows_reference hn).bind fun id id' _ _ _ hid => ?_
  have hdone (fate : Fate) (hc : (Command.delete id fate).Expandable n) :
      .delete id' fate = (Command.delete id fate).relabel n := by
    rw [(hid rfl (hc.references id (List.mem_singleton.mpr rfl))).1]
    rfl
  refine (follows_accept hn ⟨by decide, by decide⟩).bind fun _ cascade _ _ _ ⟨hcascade, _⟩ => ?_
  subst hcascade
  split
  · exact .pure (hdone _)
  · refine (follows_accept hn ⟨by decide, by decide⟩).bind fun _ preserve _ _ _ ⟨hpreserve, _⟩ => ?_
    subst hpreserve
    split
    · exact .pure (hdone _)
    · exact .pure (hdone _)

theorem follows_place : Follows n st ts place place fun place place' _ =>
    st.past false = .free false → place.reference.isWith = false → place' = place.relabel n := by
  refine follows_verb.bind fun word word' st' _ _ hverb => ?_
  dsimp only
  split
  · -- the keyword of a place is no reference, so it is the same on both sides
    rename_i hword
    obtain ⟨rfl, rfl⟩ := hverb (by rw [hword]; decide)
    rw [hword]
    refine (follows_reference hn).bind fun parent parent' _ _ _ hparent =>
      .map (follows_position? hn ⟨by decide, by decide⟩ (by decide) (by decide)) ?_
    rintro position _ _ rfl hst hwith
    rw [(hparent hst hwith).1]
    rfl
  · rename_i hword
    obtain ⟨rfl, rfl⟩ := hverb (by rw [hword]; decide)
    rw [hword]
    exact .map (follows_reference hn) fun anchor anchor' _ hanchor hst hwith =>
      congrArg Place.before (hanchor hst hwith).1
  · rename_i hword
    obtain ⟨rfl, rfl⟩ := hverb (by rw [hword]; decide)
    rw [hword]
    exact .map (follows_reference hn) fun anchor anchor' _ hanchor hst hwith =>
      congrArg Place.after (hanchor hst hwith).1
  · exact .throw

theorem follows_move : Follows n (.free false) ts move move (Relabelled n) := by
  refine (follows_reference hn).bind fun id id' _ _ _ hid => ?_
  refine .map (follows_place hn) fun place place' _ hplace hc => ?_
  obtain ⟨hsame, p, rfl⟩ := hid rfl (hc.references id (List.mem_cons_self ..))
  rw [hsame, hplace rfl (hc.references _ (List.mem_cons_of_mem _ (List.mem_singleton.mpr rfl)))]
  rfl

/-- The two references of an edge, with its relation between them. -/
theorem follows_ends {Q : Command → Command → Stance → Prop}
    {k : Reference → Relation → Reference → Reader Command}
    (hk : ∀ source source' relation target target' st rest,
      (source.isWith = false → target.isWith = false →
        source' = source.relabel n ∧ target' = target.relabel n) →
      Follows n st rest (k source relation target) (k source' relation target') Q) :
    Follows n (.free false) ts
      (do k (← reference) (← relation) (← reference))
      (do k (← reference) (← relation) (← reference)) Q := by
  refine (follows_reference hn).bind fun source source' _ _ _ hsource => ?_
  refine follows_relation.bind fun relation _ st' _ _ ⟨hrelation, hst'⟩ => ?_
  subst hrelation
  refine (follows_reference hn).bind fun target target' _ _ _ htarget => hk _ _ _ _ _ _ _ ?_
  intro hwith hwith'
  obtain ⟨hsame, p, rfl⟩ := hsource rfl hwith
  exact ⟨hsame, (htarget hst' hwith').1⟩

theorem follows_link : Follows n (.free false) ts link link (Relabelled n) := by
  refine follows_ends (k := fun source relation target =>
    .link source relation target <$> properties) hn fun source source' relation target target'
      _ _ hends => .map (follows_properties hn) fun properties properties' _ hproperties hc => ?_
  obtain ⟨hsource, htarget⟩ := hends (hc.references source (List.mem_cons_self ..))
    (hc.references target (List.mem_cons_of_mem _ (List.mem_singleton.mpr rfl)))
  rw [hsource, htarget, hproperties]
  rfl

theorem follows_unlink : Follows n (.free false) ts unlink unlink (Relabelled n) := by
  have hmap : unlink = (do pure (.unlink (← reference) (← relation) (← reference))) := by
    simp only [unlink, map_eq_pure_bind]
  rw [hmap]
  refine follows_ends (k := fun source relation target => pure (.unlink source relation target)) hn
    fun source source' relation target target' _ _ hends => .pure fun hc => ?_
  obtain ⟨hsource, htarget⟩ := hends (hc.references source (List.mem_cons_self ..))
    (hc.references target (List.mem_cons_of_mem _ (List.mem_singleton.mpr rfl)))
  rw [hsource, htarget]
  rfl

/-- **A command is read with ids for numbers**, from wherever it starts among words. -/
theorem follows_command {p : Bool} : Follows n (.free p) ts command command (Relabelled n) := by
  refine follows_verb.bind fun word word' st' _ _ hverb => ?_
  dsimp only
  split
  all_goals first
    | exact .throw
    | rename_i hword
      obtain ⟨rfl, rfl⟩ := hverb (by rw [hword]; decide)
      rw [hword]
  · exact follows_edit hn
  · exact follows_append hn
  · exact follows_delete hn
  · exact follows_move hn
  · exact follows_link hn
  · exact follows_unlink hn
  · exact follows_prune.imp fun _ _ _ h _ => h

end Command.Reader

end BlockDocument
