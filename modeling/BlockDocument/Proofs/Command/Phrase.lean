import Mathlib
import BlockDocument.Proofs.Command.Grammar
import BlockDocument.Proofs.Command.ReadProgram
import BlockDocument.Proofs.Number.Decimal
import BlockDocument.Proofs.Text.Name

/-!
# Readers and the phrases that they read

For every reader of a part of a command there is one lemma that says which phrases it reads. What
may be left out is read whenever it comes next, so a phrase that ends in such a part is read as a
whole only if what follows cannot be taken for that part.
-/

namespace BlockDocument

namespace Number

/-- The value of digits is read if it is in range: what is read on the way is not greater. -/
theorem below?_of_ofDigits_lt {bound : Nat} {cs : List Char} (h : ofDigits cs < bound) :
    below? bound cs = some (ofDigits cs) := by
  induction cs using List.reverseRecOn with
  | nil => rfl
  | append_singleton cs c ih =>
    have hstep : ofDigits (cs ++ [c]) = 10 * ofDigits cs + (c.toNat - '0'.toNat) := by
      rw [ofDigits_append]
      simp [ofDigits, Nat.ofDigitChars_cons]
    rw [hstep] at h ⊢
    rw [below?_eq, List.foldlM_append, ← below?_eq, ih (by omega)]
    show (appendDigit bound (ofDigits cs) c >>= fun n => some n) = _
    rw [appendDigit, if_pos h]
    rfl

theorem below?_eq_some {bound n : Nat} (hb : 0 < bound) {cs : List Char} :
    below? bound cs = some n ↔ ofDigits cs < bound ∧ n = ofDigits cs := by
  constructor
  · intro h
    have hn := ofDigits_of_below? h
    exact ⟨hn ▸ below?_lt hb h, hn.symm⟩
  · rintro ⟨h, rfl⟩
    exact below?_of_ofDigits_lt h

end Number

/-- A word does not stand for two keywords. -/
theorem Command.Token.Is.not_is {t : Token} {keyword other : String} (h : t.Is keyword)
    (hne : Text.sameName keyword other = false) : ¬ t.Is other := by
  intro ho
  have hsame := ho.2
  rw [sameName_congr h.2, hne] at hsame
  cases hsame

namespace Command.Reader

variable {α β : Type} {t : Token} {ts rest : List Token}

/-- A reader of phrases: what it reads has a form, and it reads whatever has the form if what follows
is as it has to be. -/
structure Reads (r : Reader α) (form : List Token → α → Prop) (follow : List Token → Prop) :
    Prop where
  sound : ∀ {ts a rest}, r ts = .ok a rest → ∃ phrase, ts = phrase ++ rest ∧ form phrase a
  complete : ∀ {phrase a rest}, form phrase a → follow rest → r (phrase ++ rest) = .ok a rest

/-! ## Single tokens -/

theorem expect_eq_ok {kind : TokenKind} {text : String} :
    expect kind ts = .ok text rest ↔ ∃ t, ts = t :: rest ∧ t.kind = kind ∧ t.text = text := by
  constructor
  · intro h
    cases ts with
    | nil => cases h
    | cons t ts =>
      by_cases hkind : t.kind = kind
      · subst hkind
        rw [expect_cons] at h
        cases h
        exact ⟨t, rfl, rfl, rfl⟩
      · obtain ⟨fault, rest', hrefuse⟩ : ∃ fault rest', expect kind (t :: ts) = .error fault rest' :=
          refuses_expect hkind
        rw [hrefuse] at h
        cases h
  · rintro ⟨t, rfl, rfl, rfl⟩
    exact expect_cons ..

theorem orFault_eq_ok {fault : Fault} {o : Option α} {a : α} :
    orFault fault o ts = .ok a rest ↔ o = some a ∧ rest = ts := by
  cases o with
  | none =>
    constructor
    · rintro ⟨⟩
    · rintro ⟨⟨⟩, -⟩
  | some b =>
    constructor
    · rintro ⟨⟩
      exact ⟨rfl, rfl⟩
    · rintro ⟨⟨⟩, rfl⟩
      rfl

theorem bind_eq_ok_iff {r : Reader α} {k : α → Reader β} {b : β} :
    (r >>= k) ts = .ok b rest ↔ ∃ a mid, r ts = .ok a mid ∧ k a mid = .ok b rest := by
  refine ⟨bind_eq_ok, ?_⟩
  rintro ⟨a, mid, ha, hb⟩
  rw [bind_ok ha, hb]

/-- A reader of single tokens in front of another reader. -/
theorem bind_eq_ok_of_token {r : Reader α} {form : Token → α → Prop}
    (hr : ∀ {ts a rest}, r ts = .ok a rest ↔ ∃ t, ts = t :: rest ∧ form t a) {k : α → Reader β}
    {b : β} :
    (r >>= k) ts = .ok b rest ↔ ∃ t a mid, ts = t :: mid ∧ form t a ∧ k a mid = .ok b rest := by
  rw [bind_eq_ok_iff]
  simp only [hr]
  constructor
  · rintro ⟨a, mid, ⟨t, hts, ht⟩, hb⟩
    exact ⟨t, a, mid, hts, ht, hb⟩
  · rintro ⟨t, a, mid, hts, ht, hb⟩
    exact ⟨a, mid, ⟨t, hts, ht⟩, hb⟩

theorem expect_bind_eq_ok {kind : TokenKind} {k : String → Reader β} {b : β} :
    (expect kind >>= k) ts = .ok b rest ↔
      ∃ t mid, ts = t :: mid ∧ t.kind = kind ∧ k t.text mid = .ok b rest := by
  rw [bind_eq_ok_of_token expect_eq_ok]
  constructor
  · rintro ⟨t, text, mid, hts, ⟨hkind, rfl⟩, hb⟩
    exact ⟨t, mid, hts, hkind, hb⟩
  · rintro ⟨t, mid, hts, hkind, hb⟩
    exact ⟨t, _, mid, hts, ⟨hkind, rfl⟩, hb⟩

/-- A word that has to denote something. -/
theorem expect_word_orFault {f : String → Option α} {fault : String → Fault} {a : α} :
    (expect .word >>= fun word => orFault (fault word) (f word)) ts = .ok a rest ↔
      ∃ t : Token, ts = t :: rest ∧ t.kind = .word ∧ f t.text = some a := by
  simp only [expect_bind_eq_ok, orFault_eq_ok]
  constructor
  · rintro ⟨t, mid, rfl, hkind, hf, rfl⟩
    exact ⟨t, rfl, hkind, hf⟩
  · rintro ⟨t, rfl, hkind, hf⟩
    exact ⟨t, rest, rfl, hkind, hf, rfl⟩

theorem isKind_iff {kind : TokenKind} : isKind kind (some t) = true ↔ t.kind = kind := beq_iff_eq

theorem isKeyword_iff {keyword : String} : isKeyword keyword (some t) = true ↔ t.Is keyword := by
  rw [isKeyword, Option.any_some, Bool.and_eq_true, beq_iff_eq, Token.Is]

theorem not_isKeyword {keyword : String} (h : t.kind ≠ .word) :
    isKeyword keyword (some t) = false :=
  Bool.eq_false_iff.mpr fun hk => h (isKeyword_iff.mp hk).1

theorem accept_eq_ok {keyword : String} {found : Bool} :
    accept keyword ts = .ok found rest ↔
      if found then ∃ t, ts = t :: rest ∧ t.Is keyword
      else rest = ts ∧ isKeyword keyword ts.head? = false := by
  rw [accept_eq]
  -- the next token alone decides
  cases hhead : isKeyword keyword ts.head? with
  | false =>
    rw [if_neg Bool.false_ne_true]
    constructor
    · rintro ⟨⟩
      exact ⟨rfl, rfl⟩
    · intro h
      cases found with
      | false =>
        obtain ⟨rfl, -⟩ := h
        rfl
      | true =>
        obtain ⟨t, rfl, ht⟩ := h
        rw [List.head?_cons, isKeyword_iff.mpr ht] at hhead
        cases hhead
  | true =>
    rw [if_pos rfl]
    constructor
    · rintro ⟨⟩
      cases ts with
      | nil => cases hhead
      | cons t ts => exact ⟨t, rfl, isKeyword_iff.mp hhead⟩
    · intro h
      cases found with
      | false => cases h.2
      | true =>
        obtain ⟨t, rfl, -⟩ := h
        rfl

theorem accept_bind_eq_ok {keyword : String} {k : Bool → Reader β} {b : β} :
    (accept keyword >>= k) ts = .ok b rest ↔
      (∃ t mid, ts = t :: mid ∧ t.Is keyword ∧ k true mid = .ok b rest) ∨
        isKeyword keyword ts.head? = false ∧ k false ts = .ok b rest := by
  rw [bind_eq_ok_iff]
  simp only [accept_eq_ok, Bool.exists_bool, Bool.false_eq_true, if_false, if_true]
  rw [or_comm]
  refine or_congr ?_ ?_
  · constructor
    · rintro ⟨mid, ⟨t, hts, ht⟩, hb⟩
      exact ⟨t, mid, hts, ht, hb⟩
    · rintro ⟨t, mid, hts, ht, hb⟩
      exact ⟨mid, ⟨t, hts, ht⟩, hb⟩
  · constructor
    · rintro ⟨mid, ⟨rfl, hk⟩, hb⟩
      exact ⟨hk, hb⟩
    · rintro ⟨hk, hb⟩
      exact ⟨ts, ⟨rfl, hk⟩, hb⟩

theorem accept_of_is {keyword : String} (h : t.Is keyword) :
    accept keyword (t :: rest) = .ok true rest := accept_eq_ok.mpr ⟨t, rfl, h⟩

theorem accept_of_not {keyword : String} (h : isKeyword keyword rest.head? = false) :
    accept keyword rest = .ok false rest := accept_eq_ok.mpr ⟨rfl, h⟩

/-! ## Words -/

theorem ofWord?_eq_some {r : Reference} :
    (t.kind = .word ∧ Reference.ofWord? t.text.toList = some r) ↔ IdForm t r := by
  have hbound : 0 < Reference.bound := by decide
  rw [Reference.ofWord?]
  constructor
  · rintro ⟨hword, h⟩
    split at h
    · cases h
    · rename_i hform
      rw [Bool.or_eq_true, Bool.not_eq_true', not_or, Bool.not_eq_true, Bool.not_eq_false,
        List.isEmpty_eq_false_iff, List.all_eq_true] at hform
      obtain ⟨hne, hchars⟩ := hform
      split at h
      · -- digits only: a short number, if it is not too long
        rename_i hdigits
        obtain ⟨n, hn, rfl⟩ := Option.map_eq_some_iff.mp h
        obtain ⟨hlt, rfl⟩ := (Number.below?_eq_some hbound).mp hn
        exact .short hword hne (List.all_eq_true.mp hdigits) hlt
      · rename_i hdigits
        cases h
        rw [String.ofList_toList]
        rw [Bool.not_eq_true, List.all_eq_false] at hdigits
        obtain ⟨c, hc, hother⟩ := hdigits
        exact .long hword hchars ⟨c, hc, Bool.eq_false_iff.mpr hother⟩
  · rintro (⟨hword, hne, hdigits, hlt⟩ | ⟨hword, hchars, c, hc, hother⟩)
    · have hchars : t.text.toList.all Reference.isIdChar = true :=
        List.all_eq_true.mpr fun c hc => by
          simp [Reference.isIdChar, Char.isAlphanum, hdigits c hc]
      rw [List.isEmpty_eq_false_iff.mpr hne, hchars, List.all_eq_true.mpr hdigits,
        Number.below?_of_ofDigits_lt hlt]
      exact ⟨hword, rfl⟩
    · have hempty : t.text.toList.isEmpty = false :=
        List.isEmpty_eq_false_iff.mpr (List.ne_nil_of_mem hc)
      have hdigits : t.text.toList.all Char.isDigit = false :=
        List.all_eq_false.mpr ⟨c, hc, Bool.eq_false_iff.mp hother⟩
      rw [hempty, List.all_eq_true.mpr hchars, hdigits, String.ofList_toList]
      exact ⟨hword, rfl⟩

theorem reference_eq_ok {r : Reference} :
    reference ts = .ok r rest ↔ ∃ t, ts = t :: rest ∧ IdForm t r := by
  simp only [reference, expect_word_orFault, ofWord?_eq_some]

theorem find?_sameName_eq_some {all : List α} {name : α → String} {word : String} {a : α}
    (hall : ∀ a, a ∈ all)
    (hdiff : ∀ a b, Text.sameName (name a) (name b) = true → a = b) :
    all.find? (fun x => Text.sameName (name x) word) = some a ↔
      Text.sameName word (name a) = true := by
  constructor
  · intro h
    have hname := List.find?_some h
    rwa [sameName_comm]
  · intro h
    obtain ⟨b, hb⟩ : ∃ b, all.find? (fun x => Text.sameName (name x) word) = some b := by
      rw [← Option.isSome_iff_exists, List.find?_isSome]
      exact ⟨a, hall a, by rwa [sameName_comm]⟩
    have hname := List.find?_some hb
    rw [sameName_comm, sameName_congr h, sameName_comm] at hname
    rw [hb, hdiff b a hname]

/-- No two relations share a name. -/
theorem relation_parse?_eq_some {name : String} {r : Relation} :
    Relation.parse? name = some r ↔ Text.sameName name r.name = true :=
  find?_sameName_eq_some (fun r => by cases r <;> decide) fun r r' h => by
    revert h
    cases r <;> cases r' <;> decide

theorem relation_eq_ok {r : Relation} :
    relation ts = .ok r rest ↔ ∃ t, ts = t :: rest ∧ t.Is r.name := by
  simp only [relation, expect_word_orFault, relation_parse?_eq_some, Token.Is]

theorem positionOf?_eq_some {n : Nat} :
    (t.kind = .word ∧ positionOf? t.text.toList = some n) ↔ IndexForm t n := by
  have hbound : 0 < positionBound := by decide
  have hdigits (ds : List Char) : (if !ds.isEmpty && ds.all Char.isDigit then
      Number.below? positionBound ds else none) = some n ↔
        ds ≠ [] ∧ (∀ c ∈ ds, c.isDigit = true) ∧ Number.ofDigits ds < positionBound ∧
          n = Number.ofDigits ds := by
    rw [← Number.below?_eq_some hbound, Option.ite_none_right_eq_some, Bool.and_eq_true,
      Bool.not_eq_true', List.isEmpty_eq_false_iff, List.all_eq_true, and_assoc]
  constructor
  · rintro ⟨hword, h⟩
    -- a plus sign may stand before the digits, and is none of them
    by_cases hplus : ∃ ds, t.text.toList = '+' :: ds
    · obtain ⟨ds, hds⟩ := hplus
      rw [hds] at h
      obtain ⟨hne, hall, hlt, rfl⟩ := (hdigits ds).mp h
      exact .mk hword (.inr hds) hne hall hlt
    · rw [positionOf?] at h
      · obtain ⟨hne, hall, hlt, rfl⟩ := (hdigits _).mp h
        exact .mk hword (.inl rfl) hne hall hlt
      · exact fun ds hds => hplus ⟨ds, hds⟩
  · rintro ⟨hword, htext, hne, hall, hlt⟩
    refine ⟨hword, ?_⟩
    rcases htext with hds | hds
    · rw [positionOf?]
      · rw [hds]
        exact (hdigits _).mpr ⟨hne, hall, hlt, rfl⟩
      · intro ds hplus
        rw [hds] at hplus
        rw [hplus] at hall
        exact absurd (hall '+' (List.mem_cons_self ..)) (by decide)
    · rw [hds]
      exact (hdigits _).mpr ⟨hne, hall, hlt, rfl⟩

theorem isKind_head?_eq_true {kind : TokenKind} :
    isKind kind ts.head? = true ↔ ∃ t rest, ts = t :: rest ∧ t.kind = kind := by
  cases ts with
  | nil => simp [isKind]
  | cons t ts => simp [isKind_iff]

theorem map_eq_ok {r : Reader α} {f : α → β} {b : β} :
    (f <$> r) ts = .ok b rest ↔ ∃ a, r ts = .ok a rest ∧ f a = b := by
  rw [map_eq_pure_bind]
  constructor
  · intro h
    obtain ⟨a, mid, ha, hb⟩ := bind_eq_ok h
    cases hb
    exact ⟨a, ha, rfl⟩
  · rintro ⟨a, ha, rfl⟩
    rw [bind_ok ha]
    rfl

theorem propertyValue_eq_ok {a : Attribute} :
    propertyValue ts = .ok a rest ↔ ∃ t, ts = t :: rest ∧ ValueForm t a := by
  rw [propertyValue, bind_ok (peek_eq ts)]
  by_cases hquoted : isKind .quoted ts.head? = true
  · rw [if_pos hquoted, map_eq_ok]
    simp only [expect_eq_ok]
    constructor
    · rintro ⟨_, ⟨t, rfl, hkind, rfl⟩, rfl⟩
      exact ⟨t, rfl, .quoted hkind⟩
    · rintro ⟨t, rfl, hkind | hkind⟩
      · exact ⟨_, ⟨t, rfl, hkind, rfl⟩, rfl⟩
      · rw [List.head?_cons, isKind_iff, hkind] at hquoted
        cases hquoted
  · rw [if_neg hquoted, map_eq_ok]
    simp only [expect_eq_ok]
    constructor
    · rintro ⟨_, ⟨t, rfl, hkind, rfl⟩, rfl⟩
      exact ⟨t, rfl, .literal hkind⟩
    · rintro ⟨t, rfl, hkind | hkind⟩
      · exact absurd (isKind_iff.mpr hkind) hquoted
      · exact ⟨_, ⟨t, rfl, hkind, rfl⟩, rfl⟩

theorem assignment_eq_ok {op : Assignment} :
    assignment ts = .ok op rest ↔ ∃ t, ts = t :: rest ∧ MarkForm t op := by
  constructor
  · intro h
    cases ts with
    | nil => cases h
    | cons t ts =>
      obtain ⟨kind, text, line⟩ := t
      cases kind <;> cases h
      · exact ⟨_, rfl, .set rfl⟩
      · exact ⟨_, rfl, .add rfl⟩
      · exact ⟨_, rfl, .remove rfl⟩
  · rintro ⟨⟨kind, text, line⟩, rfl, (⟨⟨⟩⟩ | ⟨⟨⟩⟩ | ⟨⟨⟩⟩)⟩ <;> rfl

/-! ## Parts that may be left out -/

/-- A word that has to denote something, as a part that could be left out. -/
theorem expect_word_some_orFault {f : String → Option α} {fault : String → Fault} {o : Option α} :
    (expect .word >>= fun word => some <$> orFault (fault word) (f word)) ts = .ok o rest ↔
      ∃ (t : Token) (a : α), ts = t :: rest ∧ (t.kind = .word ∧ f t.text = some a) ∧ o = some a := by
  simp only [expect_bind_eq_ok, map_eq_ok, orFault_eq_ok]
  constructor
  · rintro ⟨t, mid, rfl, hkind, a, ⟨hf, rfl⟩, rfl⟩
    exact ⟨t, a, rfl, ⟨hkind, hf⟩, rfl⟩
  · rintro ⟨t, a, rfl, ⟨hkind, hf⟩, rfl⟩
    exact ⟨t, rest, rfl, hkind, a, ⟨hf, rfl⟩, rfl⟩

theorem reads_position? (keyword : String) : Reads (position? keyword) (PositionForm keyword)
    fun rest => isKeyword keyword rest.head? = false where
  sound {ts o rest} h := by
    rw [position?, accept_bind_eq_ok] at h
    rcases h with ⟨k, mid, rfl, hk, h⟩ | ⟨-, h⟩
    · rw [if_pos rfl, expect_word_some_orFault] at h
      obtain ⟨t, n, rfl, hn, rfl⟩ := h
      exact ⟨[k, t], rfl, .some hk (positionOf?_eq_some.mp hn)⟩
    · cases h
      exact ⟨[], rfl, .none⟩
  complete {phrase o rest} h hfollow := by
    rw [position?]
    cases h with
    | none => exact bind_ok (accept_of_not hfollow)
    | some hk hn =>
      rw [List.cons_append, List.singleton_append, bind_ok (accept_of_is hk), if_pos rfl]
      exact expect_word_some_orFault.mpr ⟨_, _, rfl, positionOf?_eq_some.mpr hn, rfl⟩

/-- No two kinds share a name. -/
theorem kind_parse?_eq_some {name : String} {kind : ContentKind} :
    ContentKind.parse? name = some kind ↔ Text.sameName name kind.name = true :=
  find?_sameName_eq_some (fun kind => by cases kind <;> decide) fun kind kind' h => by
    revert h
    cases kind <;> cases kind' <;> decide

/-- Before its position, what is no word is no kind. -/
theorem reads_kind? : Reads kind? KindForm fun rest =>
    isKind .word rest.head? = true → isKeyword "AT" rest.head? = true where
  sound {ts o rest} h := by
    rw [kind?, bind_ok (peek_eq ts)] at h
    split at h
    · rw [expect_word_some_orFault] at h
      obtain ⟨t, kind, rfl, ⟨hword, hkind⟩, rfl⟩ := h
      exact ⟨[t], rfl, .some ⟨hword, kind_parse?_eq_some.mp hkind⟩⟩
    · cases h
      exact ⟨[], rfl, .none⟩
  complete {phrase o rest} h hfollow := by
    rw [kind?, bind_ok (peek_eq _)]
    cases h with
    | none =>
      -- the keyword of a position is not taken for a kind
      rw [if_neg]
      · rfl
      · rw [Bool.and_eq_true, Bool.not_eq_true']
        rintro ⟨hword, hat⟩
        rw [List.nil_append] at hword hat
        rw [hfollow hword] at hat
        cases hat
    | some hkind =>
      rename_i t kind
      have hat : isKeyword "AT" (some t) = false := by
        have hname : Text.sameName kind.name "AT" = false := by cases kind <;> decide
        exact Bool.eq_false_iff.mpr fun hk => hkind.not_is hname (isKeyword_iff.mp hk)
      rw [List.singleton_append, List.head?_cons, isKind_iff.mpr hkind.1, hat, Bool.not_false,
        Bool.and_self, if_pos rfl]
      exact expect_word_some_orFault.mpr
        ⟨t, kind, rfl, ⟨hkind.1, kind_parse?_eq_some.mpr hkind.2⟩, rfl⟩

/-! ## Properties -/

/-- Properties from a name on. Each one takes tokens away, so reading does not end before its time. -/
theorem entries_of_propertiesFrom {fuel : Nat} {read properties : Attributes}
    (h : propertiesFrom fuel read ts = .ok properties rest) (hfuel : ts.length < fuel) :
    ∃ phrase entries, ts = phrase ++ rest ∧ EntriesForm phrase entries ∧
      properties = insertAll read entries := by
  induction fuel generalizing read ts with
  | zero => exact absurd hfuel (Nat.not_lt_zero _)
  | succ fuel ih =>
    simp only [propertiesFrom, expect_bind_eq_ok, bind_eq_ok_of_token propertyValue_eq_ok] at h
    obtain ⟨key, _, rfl, hkey, mark, _, rfl, hmark, value, a, mid, rfl, hvalue, h⟩ := h
    rw [bind_ok (peek_eq mid)] at h
    by_cases hcomma : isKind .comma mid.head? = true
    · rw [if_pos hcomma] at h
      obtain ⟨comma, mid, rfl, hkind⟩ := isKind_head?_eq_true.mp hcomma
      change propertiesFrom fuel _ mid = _ at h
      obtain ⟨phrase, entries, rfl, hentries, rfl⟩ := ih h (by simp at hfuel ⊢; omega)
      exact ⟨_, _, rfl, .cons hkey hmark hvalue hkind hentries, rfl⟩
    · rw [if_neg hcomma] at h
      cases h
      exact ⟨[key, mark, value], _, rfl, .last hkey hmark hvalue, rfl⟩

theorem propertiesFrom_of_entries {phrase : List Token} {entries : List (String × Attribute)}
    (h : EntriesForm phrase entries) {fuel : Nat} (hfuel : phrase.length < fuel) (read : Attributes)
    (hcomma : isKind .comma rest.head? = false) :
    propertiesFrom fuel read (phrase ++ rest) = .ok (insertAll read entries) rest := by
  induction h generalizing fuel read with
  | last hkey hmark hvalue =>
    obtain ⟨fuel, rfl⟩ := Nat.exists_eq_add_one.mpr (Nat.zero_lt_of_lt hfuel)
    simp only [propertiesFrom, expect_bind_eq_ok, bind_eq_ok_of_token propertyValue_eq_ok,
      List.cons_append, List.nil_append]
    refine ⟨_, _, rfl, hkey, _, _, rfl, hmark, _, _, _, rfl, hvalue, ?_⟩
    rw [bind_ok (peek_eq rest), hcomma]
    rfl
  | cons hkey hmark hvalue hcomma' _ ih =>
    obtain ⟨fuel, rfl⟩ := Nat.exists_eq_add_one.mpr (Nat.zero_lt_of_lt hfuel)
    simp only [propertiesFrom, expect_bind_eq_ok, bind_eq_ok_of_token propertyValue_eq_ok,
      List.cons_append]
    refine ⟨_, _, rfl, hkey, _, _, rfl, hmark, _, _, _, rfl, hvalue, ?_⟩
    rw [bind_ok (peek_eq _), List.head?_cons, if_pos (isKind_iff.mpr hcomma')]
    exact ih (by simp at hfuel; omega) _

/-- What a command may end in front of is no keyword and no comma. -/
theorem Ends.kind_ne {grouped : Bool} (h : Ends grouped (t :: rest)) :
    t.kind ≠ .word ∧ t.kind ≠ .comma := by
  rw [Ends, List.head?_cons, Option.all_some, Bool.or_eq_true, Bool.and_eq_true, isSeparator,
    Bool.or_eq_true, beq_iff_eq, beq_iff_eq, beq_iff_eq] at h
  rcases h with (h | h) | ⟨-, h⟩ <;> simp [h]

theorem Ends.isKeyword {grouped : Bool} (h : Ends grouped ts) (keyword : String) :
    isKeyword keyword ts.head? = false := by
  cases ts with
  | nil => rfl
  | cons t ts => exact not_isKeyword h.kind_ne.1

theorem Ends.isKind_comma {grouped : Bool} (h : Ends grouped ts) :
    isKind .comma ts.head? = false := by
  cases ts with
  | nil => rfl
  | cons t ts => exact Bool.eq_false_iff.mpr fun hk => h.kind_ne.2 (isKind_iff.mp hk)

theorem reads_properties : Reads Reader.properties PropertiesForm (Ends true) where
  sound {ts properties rest} h := by
    rw [Reader.properties, accept_bind_eq_ok] at h
    rcases h with ⟨k, mid, rfl, hk, h⟩ | ⟨-, h⟩
    · rw [if_pos rfl] at h
      change propertiesFrom (mid.length + 1) ∅ mid = _ at h
      obtain ⟨phrase, entries, rfl, hentries, rfl⟩ :=
        entries_of_propertiesFrom h (Nat.lt_succ_self _)
      rw [insertAll, ← Std.ExtTreeMap.ofList_eq_foldl]
      exact ⟨k :: phrase, rfl, .some hk hentries⟩
    · cases h
      exact ⟨[], rfl, .none⟩
  complete {phrase properties rest} h hfollow := by
    rw [Reader.properties]
    cases h with
    | none => exact bind_ok (accept_of_not (hfollow.isKeyword _))
    | some hk hentries =>
      rw [List.cons_append, bind_ok (accept_of_is hk), if_pos rfl, Std.ExtTreeMap.ofList_eq_foldl]
      exact propertiesFrom_of_entries hentries (by simp) ∅ hfollow.isKind_comma

end Command.Reader

end BlockDocument
