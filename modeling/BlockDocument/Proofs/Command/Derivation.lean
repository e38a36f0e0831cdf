import BlockDocument.Proofs.Command.Phrase

/-!
# Programs are read as the grammar derives them

A list of tokens is read as a program exactly when the grammar derives this program from it. A
command is read up to where it may end, whatever follows, so neither of the two loops over commands
goes past the end of one or stops in the middle of it.
-/

namespace BlockDocument

namespace Command

namespace Reader

variable {t k : Token} {ts rest : List Token}

/-! ## Parts of commands -/

theorem is_of_upper {keyword : String} (hword : k.kind = .word) (h : Text.upper k.text = keyword)
    (hupper : Text.upper keyword = keyword) : k.Is keyword :=
  ⟨hword, sameName_of_upper (h.trans hupper.symm)⟩

theorem upper_of_is {keyword : String} (h : k.Is keyword) (hupper : Text.upper keyword = keyword) :
    Text.upper k.text = keyword := (upper_of_sameName h.2).trans hupper

/-- Without a path, the value has to come next. -/
theorem reads_target : Reads target TargetForm fun rest => isKind .quoted rest.head? = true where
  sound {ts read rest} h := by
    rw [target, bind_ok (peek_eq ts)] at h
    generalize hkind : ts.head?.map Token.kind = kind at h
    split at h
    · -- a quoted text is the value already, so nothing stands for the target
      cases h
      exact ⟨[], rfl, .none⟩
    · cases ts with
      | nil => cases hkind
      | cons t ts =>
        cases h
        exact ⟨[t], rfl, .mark (Option.some.inj hkind)⟩
    · simp only [expect_bind_eq_ok, bind_eq_ok_of_token assignment_eq_ok] at h
      obtain ⟨path, _, rfl, hpath, mark, op, mid, rfl, hmark, h⟩ := h
      cases h
      exact ⟨[path, mark], rfl, .path hpath hmark⟩
  complete {phrase read rest} h hfollow := by
    rw [target, bind_ok (peek_eq _)]
    cases h with
    | none =>
      obtain ⟨t, rest, rfl, ht⟩ := isKind_head?_eq_true.mp hfollow
      rw [List.nil_append, List.head?_cons, Option.map_some, ht]
      rfl
    | mark ht =>
      rw [List.singleton_append, List.head?_cons, Option.map_some, ht]
      rfl
    | path hpath hmark =>
      rw [List.cons_append, List.head?_cons, Option.map_some, hpath]
      simp only [expect_bind_eq_ok, bind_eq_ok_of_token assignment_eq_ok, List.cons_append,
        List.nil_append]
      exact ⟨_, _, rfl, hpath, _, _, _, rfl, hmark, rfl⟩

theorem reads_place : Reads place PlaceForm fun rest => isKeyword "INDEX" rest.head? = false where
  sound {ts p rest} h := by
    rw [place, expect_bind_eq_ok] at h
    obtain ⟨k, mid, rfl, hword, h⟩ := h
    -- the keyword is read as a word of any text, and decides on its upper case
    generalize hk : Text.upper k.text = direction at h
    split at h
    · rw [bind_eq_ok_of_token reference_eq_ok] at h
      obtain ⟨id, parent, mid, rfl, hid, h⟩ := h
      obtain ⟨position, hposition, rfl⟩ := map_eq_ok.mp h
      obtain ⟨phrase, rfl, hform⟩ := (reads_position? "INDEX").sound hposition
      exact ⟨k :: id :: phrase, rfl, .under (is_of_upper hword hk (by decide)) hid hform⟩
    · simp only [map_eq_ok, reference_eq_ok] at h
      obtain ⟨anchor, ⟨id, rfl, hid⟩, rfl⟩ := h
      exact ⟨[k, id], rfl, .before (is_of_upper hword hk (by decide)) hid⟩
    · simp only [map_eq_ok, reference_eq_ok] at h
      obtain ⟨anchor, ⟨id, rfl, hid⟩, rfl⟩ := h
      exact ⟨[k, id], rfl, .after (is_of_upper hword hk (by decide)) hid⟩
    · cases h
  complete {phrase p rest} h hfollow := by
    rw [place]
    cases h with
    | under hk hid hposition =>
      rw [List.cons_append, List.cons_append, bind_ok (expect_eq_ok.mpr ⟨_, rfl, hk.1, rfl⟩)]
      rw [upper_of_is hk (by decide)]
      show (reference >>= _) _ = _
      rw [bind_ok (reference_eq_ok.mpr ⟨_, rfl, hid⟩)]
      exact map_ok ((reads_position? "INDEX").complete hposition hfollow)
    | before hk hid =>
      rw [List.cons_append, List.singleton_append, bind_ok (expect_eq_ok.mpr ⟨_, rfl, hk.1, rfl⟩)]
      rw [upper_of_is hk (by decide)]
      exact map_ok (reference_eq_ok.mpr ⟨_, rfl, hid⟩)
    | after hk hid =>
      rw [List.cons_append, List.singleton_append, bind_ok (expect_eq_ok.mpr ⟨_, rfl, hk.1, rfl⟩)]
      rw [upper_of_is hk (by decide)]
      exact map_ok (reference_eq_ok.mpr ⟨_, rfl, hid⟩)

/-! ## Commands -/

section sound

variable {c : Command}

theorem form_of_edit (h : edit ts = .ok c rest) (hk : k.Is "EDIT") :
    ∃ phrase, ts = phrase ++ rest ∧ CommandForm (k :: phrase) c := by
  simp only [edit, bind_eq_ok_of_token reference_eq_ok, accept_bind_eq_ok] at h
  obtain ⟨id, r, _, rfl, hid, ⟨set, mid, rfl, hset, h⟩ | ⟨-, h⟩⟩ := h
  · simp only [Bool.not_true, Bool.false_eq_true, if_false, bind_eq_ok_iff (r := target)] at h
    obtain ⟨read, _, htarget, h⟩ := h
    obtain ⟨phrase, rfl, hform⟩ := reads_target.sound htarget
    rw [expect_bind_eq_ok] at h
    obtain ⟨value, mid, rfl, hvalue, h⟩ := h
    cases h
    exact ⟨id :: set :: (phrase ++ [value]), by simp, .edit hk hid hset hform hvalue⟩
  · cases h

theorem form_of_append (h : append ts = .ok c rest) (hk : k.Is "APPEND") :
    ∃ phrase, ts = phrase ++ rest ∧ CommandForm (k :: phrase) c := by
  simp only [append, bind_eq_ok_of_token reference_eq_ok, bind_eq_ok_iff (r := kind?),
    bind_eq_ok_iff (r := position? "AT"), expect_bind_eq_ok] at h
  obtain ⟨id, parent, _, rfl, hid, kind, _, hkind, position, _, hposition, mark, mid, rfl, hmark,
    h⟩ := h
  obtain ⟨phrase, rfl, hkindForm⟩ := reads_kind?.sound hkind
  obtain ⟨phrase', rfl, hpositionForm⟩ := (reads_position? "AT").sound hposition
  -- behind the mark the kind of the next token tells whether properties may follow
  obtain ⟨phrase'', content, rfl, hcontent, rfl⟩ : ∃ phrase content, mid = phrase ++ rest ∧
      ContentForm phrase content ∧ c = .append parent kind position content.1 content.2 := by
    rw [bind_ok (peek_eq mid)] at h
    generalize mid.head?.map Token.kind = next at h
    split at h
    · simp only [expect_bind_eq_ok, bind_eq_ok_iff (r := Reader.properties)] at h
      obtain ⟨t, _, rfl, ht, properties, mid, hproperties, h⟩ := h
      cases h
      obtain ⟨phrase, rfl, hform⟩ := reads_properties.sound hproperties
      exact ⟨t :: phrase, _, rfl, .quoted ht hform, rfl⟩
    · rw [expect_bind_eq_ok] at h
      obtain ⟨t, mid, rfl, ht, h⟩ := h
      cases h
      exact ⟨[t], _, rfl, .raw ht, rfl⟩
    · cases h
  exact ⟨id :: (phrase ++ (phrase' ++ mark :: phrase'')), by simp,
    .append hk hid hkindForm hpositionForm hmark hcontent⟩

theorem form_of_delete (h : delete ts = .ok c rest) (hk : k.Is "DELETE") :
    ∃ phrase, ts = phrase ++ rest ∧ CommandForm (k :: phrase) c := by
  simp only [delete, bind_eq_ok_of_token reference_eq_ok, accept_bind_eq_ok] at h
  obtain ⟨id, r, _, rfl, hid, ⟨t, mid, rfl, ht, h⟩ | ⟨-, h⟩⟩ := h
  · cases h
    exact ⟨[id, t], rfl, .delete hk hid (.deleted ht)⟩
  · simp only [Bool.false_eq_true, if_false, accept_bind_eq_ok] at h
    rcases h with ⟨t, mid, rfl, ht, h⟩ | ⟨-, h⟩
    · cases h
      exact ⟨[id, t], rfl, .delete hk hid (.kept ht)⟩
    · cases h
      exact ⟨[id], rfl, .delete hk hid .none⟩

theorem form_of_move (h : move ts = .ok c rest) (hk : k.Is "MOVE") :
    ∃ phrase, ts = phrase ++ rest ∧ CommandForm (k :: phrase) c := by
  simp only [move, bind_eq_ok_of_token reference_eq_ok, map_eq_ok] at h
  obtain ⟨id, r, _, rfl, hid, p, hplace, rfl⟩ := h
  obtain ⟨phrase, rfl, hform⟩ := reads_place.sound hplace
  exact ⟨id :: phrase, rfl, .move hk hid hform⟩

theorem form_of_link (h : link ts = .ok c rest) (hk : k.Is "LINK") :
    ∃ phrase, ts = phrase ++ rest ∧ CommandForm (k :: phrase) c := by
  simp only [link, bind_eq_ok_of_token reference_eq_ok, bind_eq_ok_of_token relation_eq_ok,
    map_eq_ok] at h
  obtain ⟨id, source, _, rfl, hsource, name, relation, _, rfl, hrelation, id', target, _, rfl,
    htarget, properties, hproperties, rfl⟩ := h
  obtain ⟨phrase, rfl, hform⟩ := reads_properties.sound hproperties
  exact ⟨id :: name :: id' :: phrase, rfl, .link hk hsource hrelation htarget hform⟩

theorem form_of_unlink (h : unlink ts = .ok c rest) (hk : k.Is "UNLINK") :
    ∃ phrase, ts = phrase ++ rest ∧ CommandForm (k :: phrase) c := by
  simp only [unlink, bind_eq_ok_of_token reference_eq_ok, bind_eq_ok_of_token relation_eq_ok,
    map_eq_ok, reference_eq_ok] at h
  obtain ⟨id, source, _, rfl, hsource, name, relation, _, rfl, hrelation, target,
    ⟨id', rfl, htarget⟩, rfl⟩ := h
  exact ⟨[id, name, id'], rfl, .unlink hk hsource hrelation htarget⟩

theorem form_of_prune (h : prune ts = .ok c rest) (hk : k.Is "PRUNE") :
    ∃ phrase, ts = phrase ++ rest ∧ CommandForm (k :: phrase) c := by
  rw [prune, expect_bind_eq_ok] at h
  obtain ⟨what, mid, rfl, hword, h⟩ := h
  split at h
  · cases h
    exact ⟨[what], rfl, .prune hk ⟨hword, ‹_›⟩⟩
  · cases h

end sound

section complete

variable {id : Token} {ts' ts'' : List Token} {r : Reference}

theorem read_edit {set value : Token} {read : String × Assignment} (hid : IdForm id r)
    (hset : set.Is "SET") (hread : TargetForm ts read) (hvalue : value.kind = .quoted) :
    edit (id :: set :: (ts ++ [value] ++ rest)) = .ok (.edit r read.1 read.2 value.text) rest := by
  have htarget : target (ts ++ value :: rest) = .ok read (value :: rest) :=
    reads_target.complete hread (isKind_iff.mpr hvalue)
  rw [edit, bind_ok (reference_eq_ok.mpr ⟨_, rfl, hid⟩), bind_ok (accept_of_is hset)]
  rw [List.append_assoc, List.singleton_append]
  show (target >>= _) _ = _
  rw [bind_ok htarget]
  exact bind_ok (expect_eq_ok.mpr ⟨_, rfl, hvalue, rfl⟩)

/-- Behind its kind and its position, an addition goes on with its mark. -/
theorem read_append {mark : Token} {kind : Option ContentKind} {position : Option Nat}
    {content : String × Attributes} (hid : IdForm id r) (hkind : KindForm ts kind)
    (hposition : PositionForm "AT" ts' position) (hmark : mark.kind = .doubleColon)
    (hcontent : ContentForm ts'' content) (hfollow : Ends true rest) :
    append (id :: (ts ++ (ts' ++ mark :: ts'') ++ rest)) =
      .ok (.append r kind position content.1 content.2) rest := by
  -- the mark behind them ends an absent kind and an absent position
  have hat : isKeyword "AT" (mark :: (ts'' ++ rest)).head? = false :=
    not_isKeyword (by rw [hmark]; decide)
  have hword : isKind .word (ts' ++ mark :: (ts'' ++ rest)).head? = true →
      isKeyword "AT" (ts' ++ mark :: (ts'' ++ rest)).head? = true := by
    intro h
    cases hposition with
    | none =>
      rw [List.nil_append, List.head?_cons, isKind_iff, hmark] at h
      cases h
    | some hat _ => exact isKeyword_iff.mpr hat
  rw [List.append_assoc, List.append_assoc, List.cons_append, append,
    bind_ok (reference_eq_ok.mpr ⟨_, rfl, hid⟩), bind_ok (reads_kind?.complete hkind hword),
    bind_ok ((reads_position? "AT").complete hposition hat),
    bind_ok (expect_eq_ok.mpr ⟨_, rfl, hmark, rfl⟩), bind_ok (peek_eq _)]
  cases hcontent with
  | raw ht =>
    rw [List.singleton_append, List.head?_cons, Option.map_some, ht]
    exact bind_ok (expect_eq_ok.mpr ⟨_, rfl, ht, rfl⟩)
  | quoted ht hproperties =>
    rw [List.cons_append, List.head?_cons, Option.map_some, ht]
    show (expect .quoted >>= _) _ = _
    rw [bind_ok (expect_eq_ok.mpr ⟨_, rfl, ht, rfl⟩)]
    exact bind_ok (reads_properties.complete hproperties hfollow)

theorem read_delete {children : Fate} (hid : IdForm id r) (hchildren : FateForm ts children)
    (hfollow : Ends true rest) : delete (id :: (ts ++ rest)) = .ok (.delete r children) rest := by
  rw [delete, bind_ok (reference_eq_ok.mpr ⟨_, rfl, hid⟩)]
  cases hchildren with
  | none =>
    rw [List.nil_append, bind_ok (accept_of_not (hfollow.isKeyword _)), if_neg Bool.false_ne_true,
      bind_ok (accept_of_not (hfollow.isKeyword _))]
    rfl
  | deleted ht => exact bind_ok (accept_of_is ht)
  | kept ht =>
    have hcascade : isKeyword "CASCADE" (some _) = false :=
      Bool.eq_false_iff.mpr fun h => ht.not_is (by decide) (isKeyword_iff.mp h)
    rw [List.singleton_append, bind_ok (accept_of_not hcascade), if_neg Bool.false_ne_true,
      bind_ok (accept_of_is ht)]
    rfl

theorem read_move {p : Place Reference} (hid : IdForm id r) (hplace : PlaceForm ts p)
    (hfollow : Ends true rest) : move (id :: (ts ++ rest)) = .ok (.move r p) rest := by
  rw [move, bind_ok (reference_eq_ok.mpr ⟨_, rfl, hid⟩)]
  exact map_ok (reads_place.complete hplace (hfollow.isKeyword _))

theorem read_link {name id' : Token} {r' : Reference} {relation : Relation}
    {properties : Attributes} (hid : IdForm id r) (hrelation : name.Is relation.name)
    (hid' : IdForm id' r') (hproperties : PropertiesForm ts properties)
    (hfollow : Ends true rest) :
    link (id :: name :: id' :: (ts ++ rest)) = .ok (.link r relation r' properties) rest := by
  rw [link, bind_ok (reference_eq_ok.mpr ⟨_, rfl, hid⟩),
    bind_ok (relation_eq_ok.mpr ⟨_, rfl, hrelation⟩),
    bind_ok (reference_eq_ok.mpr ⟨_, rfl, hid'⟩)]
  exact map_ok (reads_properties.complete hproperties hfollow)

theorem read_unlink {name id' : Token} {r' : Reference} {relation : Relation} (hid : IdForm id r)
    (hrelation : name.Is relation.name) (hid' : IdForm id' r') :
    unlink (id :: name :: id' :: rest) = .ok (.unlink r relation r') rest := by
  rw [unlink, bind_ok (reference_eq_ok.mpr ⟨_, rfl, hid⟩),
    bind_ok (relation_eq_ok.mpr ⟨_, rfl, hrelation⟩)]
  exact map_ok (reference_eq_ok.mpr ⟨_, rfl, hid'⟩)

theorem read_prune (hk : k.Is "unreachable") : prune (k :: rest) = .ok .prune rest := by
  rw [prune, bind_ok (expect_eq_ok.mpr ⟨_, rfl, hk.1, rfl⟩), if_pos hk.2]
  rfl

theorem read_command {c : Command} (hk : k.Is c.keyword) (h : c.reader ts = .ok c rest) :
    command (k :: ts) = .ok c rest := by
  have hupper : Text.upper k.text = Text.upper c.keyword := upper_of_sameName hk.2
  rw [command, bind_ok (expect_eq_ok.mpr ⟨k, rfl, hk.1, rfl⟩), hupper]
  rw [← h, ← command_keyword c k.line, command, bind_ok (expect_cons ..)]

end complete

/-- **A command is read from the phrases that the grammar has for it**, if it may end behind them. -/
theorem reads_command : Reads command CommandForm (Ends true) where
  sound {ts c rest} h := by
    rw [command, expect_bind_eq_ok] at h
    obtain ⟨k, mid, rfl, hword, h⟩ := h
    generalize hk : Text.upper k.text = keyword at h
    -- each branch has compared the keyword in upper case, which the grammar compares in either case
    have hform {keyword : String} (hk : Text.upper k.text = keyword)
        (hupper : Text.upper keyword = keyword)
        (h : k.Is keyword → ∃ phrase, mid = phrase ++ rest ∧ CommandForm (k :: phrase) c) :
        ∃ phrase, k :: mid = phrase ++ rest ∧ CommandForm phrase c := by
      obtain ⟨phrase, rfl, hform⟩ := h (is_of_upper hword hk hupper)
      exact ⟨k :: phrase, rfl, hform⟩
    split at h
    · exact hform hk (by decide) (form_of_edit h)
    · exact hform hk (by decide) (form_of_append h)
    · exact hform hk (by decide) (form_of_delete h)
    · exact hform hk (by decide) (form_of_move h)
    · exact hform hk (by decide) (form_of_link h)
    · exact hform hk (by decide) (form_of_unlink h)
    · exact hform hk (by decide) (form_of_prune h)
    · cases h
  complete {phrase c rest} h hfollow := by
    cases h with
    | edit hk hid hset htarget hvalue => exact read_command hk (read_edit hid hset htarget hvalue)
    | append hk hid hkind hposition hmark hcontent =>
      exact read_command hk (read_append hid hkind hposition hmark hcontent hfollow)
    | delete hk hid hchildren => exact read_command hk (read_delete hid hchildren hfollow)
    | move hk hid hplace => exact read_command hk (read_move hid hplace hfollow)
    | link hk hsource hrelation htarget hproperties =>
      exact read_command hk (read_link hsource hrelation htarget hproperties hfollow)
    | unlink hk hsource hrelation htarget =>
      exact read_command hk (read_unlink hsource hrelation htarget)
    | prune hk hwhat => exact read_command hk (read_prune hwhat)

end Reader

/-! ## Lists of items -/

theorem CommandForm.exists_cons {ts : List Token} {c : Command} (h : CommandForm ts c) :
    ∃ k rest, ts = k :: rest ∧ k.Is c.keyword := by
  cases h <;> exact ⟨_, _, rfl, ‹_›⟩

theorem StatementForm.exists_cons {ts : List Token} {s : Statement} (h : StatementForm ts s) :
    ∃ k rest, ts = k :: rest ∧ k.Is s.command.keyword := by
  cases h with
  | mk h => exact h.exists_cons

theorem BatchForm.exists_cons {ts : List Token} {b : Batch} (h : BatchForm ts b) :
    ∃ k rest, ts = k :: rest ∧ k.kind = .word := by
  cases h with
  | single h =>
    obtain ⟨k, rest, rfl, hk⟩ := h.exists_cons
    exact ⟨k, rest, rfl, hk.1⟩
  | atomic hk _ _ _ => exact ⟨_, _, rfl, hk.1⟩

/-- A list of statements starts with a separator or a word. -/
theorem Listing.head_statements {ts : List Token} {ss : List Statement}
    (h : Listing StatementForm ts ss) :
    ∀ t ∈ ts.head?, Reader.isSeparator t = true ∨ t.kind = .word := by
  intro t ht
  cases h with
  | nil hseps => exact .inl (hseps t (List.mem_of_head? ht))
  | @cons seps phrase rest _ _ hseps hs _ _ =>
    cases seps with
    | nil =>
      obtain ⟨k, phrase, rfl, hk⟩ := hs.exists_cons
      cases ht
      exact .inr hk.1
    | cons sep seps =>
      cases ht
      exact .inl (hseps _ (List.mem_cons_self ..))

namespace Reader

theorem not_atomic {k : Token} {c : Command} (hk : k.Is c.keyword) :
    isKeyword "ATOMIC" (some k) = false := by
  have hname : Text.sameName c.keyword "ATOMIC" = false := by
    cases c <;> rw [keyword] <;> decide
  exact Bool.eq_false_iff.mpr fun h => hk.not_is hname (isKeyword_iff.mp h)

/-- What is left of tokens behind the separators in front. -/
theorem dropWhile_isSeparator {seps ts : List Token} (hseps : ∀ t ∈ seps, isSeparator t = true)
    (hts : ∀ t ∈ ts.head?, isSeparator t = false) : (seps ++ ts).dropWhile isSeparator = ts := by
  rw [List.dropWhile_append_of_pos hseps]
  cases ts with
  | nil => rfl
  | cons t ts => exact List.dropWhile_cons_of_neg (by rw [hts t rfl]; exact Bool.false_ne_true)

theorem exists_seps (ts : List Token) :
    ∃ seps, ts = seps ++ ts.dropWhile isSeparator ∧ ∀ t ∈ seps, isSeparator t = true :=
  ⟨ts.takeWhile isSeparator, List.takeWhile_append_dropWhile.symm, fun _ => List.mem_takeWhile_imp⟩

theorem isSeparator_of_kind {t : Token} {kind : TokenKind} (h : t.kind = kind)
    (hkind : (kind == .newline || kind == .semicolon) = false) : isSeparator t = false := by
  rw [isSeparator, h, hkind]

/-! ## Statements -/

section statements

variable {t : Token} {ts rest : List Token} {grouped : Bool}

theorem ends_iff : Ends grouped ts ↔ ∀ t ∈ ts.head?,
    isSeparator t = true ∨ grouped = true ∧ t.kind = .closeBrace := by
  simp only [Ends, Option.all_eq_true, Bool.or_eq_true, Bool.and_eq_true, beq_iff_eq]
  rfl

/-- Inside a group a command may end wherever it may end outside. -/
theorem Ends.inside (h : Ends grouped ts) : Ends true ts :=
  ends_iff.mpr fun t ht => (ends_iff.mp h t ht).imp_right fun h => ⟨rfl, h.2⟩

theorem expectEnd_of_ends (h : Ends grouped ts) : expectEnd grouped ts = .ok () ts := by
  rw [expectEnd, bind_ok (peek_eq ts)]
  cases ts with
  | nil => rfl
  | cons t ts =>
    rw [Ends, List.head?_cons, Option.all_some] at h
    rw [List.head?_cons]
    dsimp only
    rw [if_pos h]
    rfl

/-- A command and a place behind it where it may end. -/
theorem statement_eq_ok {s : Statement} :
    statement grouped t.line (t :: ts) = .ok s rest ↔
      Ends grouped rest ∧ ∃ phrase, t :: ts = phrase ++ rest ∧ StatementForm phrase s := by
  constructor
  · intro h
    simp only [statement, bind_eq_ok_iff] at h
    obtain ⟨c, mid, hc, _, _, hend, hs⟩ := h
    obtain ⟨rfl, hends⟩ := expectEnd_eq_ok hend
    cases hs
    obtain ⟨phrase, hts, hform⟩ := reads_command.sound hc
    obtain ⟨k, phrase, rfl, -⟩ := hform.exists_cons
    obtain ⟨rfl, -⟩ := List.cons.inj hts
    exact ⟨hends, _, hts, .mk hform⟩
  · rintro ⟨hends, phrase, hts, hform⟩
    cases hform with
    | mk hc =>
      obtain ⟨rfl, -⟩ := List.cons.inj hts
      rw [hts, statement, bind_ok (reads_command.complete hc hends.inside),
        bind_ok (expectEnd_of_ends hends)]
      rfl

/-! ## Groups -/

theorem statements_of_members {fuel : Nat} {read ms : List Statement}
    (h : members fuel read ts = .ok ms rest) (hfuel : ts.length < fuel) :
    ∃ body closing ss, ts = body ++ closing :: rest ∧ closing.kind = .closeBrace ∧
      Listing StatementForm body ss ∧ ms = read.reverse ++ ss := by
  induction fuel generalizing read ts with
  | zero => exact absurd hfuel (Nat.not_lt_zero _)
  | succ fuel ih =>
    obtain ⟨seps, hts, hseps⟩ := exists_seps ts
    rw [members, bind_ok (skipSeparators_eq ts), bind_ok (peek_eq _)] at h
    generalize hmid : ts.dropWhile isSeparator = mid at h hts
    subst hts
    cases mid with
    | nil => cases h
    | cons t mid =>
      have hseparator : isSeparator t = false := isSeparator_of_dropWhile hmid
      rw [List.head?_cons] at h
      dsimp only at h
      split at h
      · rename_i hclosing
        cases h
        exact ⟨seps, t, [], rfl, hclosing, .nil hseps, (List.append_nil _).symm⟩
      · split at h
        · cases h
        · simp only [bind_eq_ok_iff (r := statement true t.line), statement_eq_ok] at h
          obtain ⟨s, mid', ⟨hends, phrase, hphrase, hs⟩, h⟩ := h
          rw [hphrase] at hfuel ⊢
          obtain ⟨k, phrase, rfl, -⟩ := hs.exists_cons
          obtain ⟨body, closing, ss, rfl, hclosing, hss, rfl⟩ := ih h (by simp at hfuel; omega)
          refine ⟨seps ++ (k :: phrase ++ body), closing, s :: ss, by simp, hclosing,
            .cons hseps hs (fun t ht => ?_) hss, by simp⟩
          have hhead : (body ++ closing :: rest).head? = some t := by
            rw [List.head?_append, ht, Option.some_or]
          -- A brace ends the last statement only: what follows it is read as statements up to one.
          rcases ends_iff.mp hends t hhead with hsep | ⟨-, hbrace⟩
          · exact hsep
          · refine (hss.head_statements t ht).resolve_right fun hword => ?_
            rw [hword] at hbrace
            cases hbrace

theorem members_of_statements {body : List Token} {ss : List Statement}
    (h : Listing StatementForm body ss) {closing : Token} (hclosing : closing.kind = .closeBrace)
    {fuel : Nat} (hfuel : body.length < fuel) (read : List Statement) :
    members fuel read (body ++ closing :: rest) = .ok (read.reverse ++ ss) rest := by
  have hseparator : isSeparator closing = false := isSeparator_of_kind hclosing rfl
  induction h generalizing fuel read with
  | nil hseps =>
    obtain ⟨fuel, rfl⟩ := Nat.exists_eq_add_one.mpr (Nat.zero_lt_of_lt hfuel)
    rw [members, bind_ok (skipSeparators_eq _),
      dropWhile_isSeparator hseps (by simpa using hseparator), bind_ok (peek_eq _), List.head?_cons]
    dsimp only
    rw [if_pos hclosing, List.append_nil]
    rfl
  | @cons seps phrase body s ss hseps hs hend hss ih =>
    obtain ⟨fuel, rfl⟩ := Nat.exists_eq_add_one.mpr (Nat.zero_lt_of_lt hfuel)
    -- the statement ends at the separator that the listing has behind it, or at the closing brace
    have hends : Ends true (body ++ closing :: rest) := by
      refine ends_iff.mpr fun t ht => ?_
      cases body with
      | nil =>
        cases ht
        exact .inr ⟨rfl, hclosing⟩
      | cons t' body =>
        cases ht
        exact .inl (hend _ rfl)
    obtain ⟨k, phrase, rfl, hk⟩ := hs.exists_cons
    have hopen : k.kind ≠ .closeBrace := by
      rw [hk.1]
      decide
    have hword : isSeparator k = false := isSeparator_of_kind hk.1 rfl
    have hassoc : seps ++ (k :: phrase ++ body) ++ closing :: rest =
        seps ++ k :: (phrase ++ (body ++ closing :: rest)) := by simp
    have hread : statement true k.line (k :: (phrase ++ (body ++ closing :: rest))) =
        .ok s (body ++ closing :: rest) := statement_eq_ok.mpr ⟨hends, k :: phrase, rfl, hs⟩
    rw [hassoc, members, bind_ok (skipSeparators_eq _),
      dropWhile_isSeparator hseps (by simpa using hword), bind_ok (peek_eq _), List.head?_cons]
    dsimp only
    rw [if_neg hopen, not_atomic hk, if_neg Bool.false_ne_true, bind_ok hread,
      ih (by simp at hfuel; omega), List.reverse_cons, List.append_assoc, List.singleton_append]

/-- A group behind its keyword. -/
theorem group_eq_ok {line : Nat} {b : Batch} :
    group line ts = .ok b rest ↔ Ends false rest ∧ ∃ opening body closing ms,
      ts = opening :: (body ++ closing :: rest) ∧ opening.kind = .openBrace ∧
        closing.kind = .closeBrace ∧ Listing StatementForm body ms ∧ b = .atomic line ms := by
  rw [group, expect_bind_eq_ok]
  constructor
  · rintro ⟨opening, mid, rfl, hopening, h⟩
    change (members (mid.length + 1) [] >>= _) mid = _ at h
    simp only [bind_eq_ok_iff] at h
    obtain ⟨ms, _, hmembers, _, _, hend, h⟩ := h
    obtain ⟨body, closing, ss, rfl, hclosing, hss, hms⟩ :=
      statements_of_members hmembers (Nat.lt_succ_self _)
    obtain ⟨rfl, hends⟩ := expectEnd_eq_ok hend
    cases h
    exact ⟨hends, opening, body, closing, ss, rfl, hopening, hclosing, hss, congrArg _ hms⟩
  · rintro ⟨hends, opening, body, closing, ms, rfl, hopening, hclosing, hms, rfl⟩
    refine ⟨opening, _, rfl, hopening, ?_⟩
    show (members ((body ++ closing :: rest).length + 1) [] >>= _) (body ++ closing :: rest) = _
    rw [bind_ok (members_of_statements hms hclosing (by simp) []),
      bind_ok (expectEnd_of_ends hends)]
    rfl

end statements

/-! ## Programs -/

section batches

variable {t : Token} {ts rest : List Token}

theorem batches_of_batches {fuel : Nat} {read p : Program} (h : batches fuel read ts = .ok p rest)
    (hfuel : ts.length < fuel) :
    rest = [] ∧ ∃ bs, Listing BatchForm ts bs ∧ p = read.reverse ++ bs := by
  induction fuel generalizing read ts with
  | zero => exact absurd hfuel (Nat.not_lt_zero _)
  | succ fuel ih =>
    obtain ⟨seps, hts, hseps⟩ := exists_seps ts
    rw [batches, bind_ok (skipSeparators_eq ts), bind_ok (peek_eq _)] at h
    generalize ts.dropWhile isSeparator = mid at h hts
    subst hts
    cases mid with
    | nil =>
      cases h
      rw [List.append_nil]
      exact ⟨rfl, [], .nil hseps, (List.append_nil _).symm⟩
    | cons t mid =>
      rw [List.head?_cons] at h
      dsimp only at h
      -- whether it is a group or a statement, one batch is read and the rest is read with it in
      -- hand
      obtain ⟨b, phrase, mid', hends, hmid, hb, h⟩ : ∃ b phrase mid', Ends false mid' ∧
          t :: mid = phrase ++ mid' ∧ BatchForm phrase b ∧
            batches fuel (b :: read) mid' = .ok p rest := by
        split at h
        · rename_i hatomic
          change (group t.line >>= _) mid = _ at h
          simp only [bind_eq_ok_iff (r := group t.line), group_eq_ok] at h
          obtain ⟨_, mid', ⟨hends, opening, body, closing, ms, rfl, hopening, hclosing, hms, rfl⟩,
            h⟩ := h
          exact ⟨_, t :: opening :: (body ++ [closing]), mid', hends, by simp,
            .atomic (isKeyword_iff.mp hatomic) hopening hms hclosing, h⟩
        · simp only [bind_eq_ok_iff (r := statement false t.line), statement_eq_ok] at h
          obtain ⟨s, mid', ⟨hends, phrase, hphrase, hs⟩, h⟩ := h
          exact ⟨_, phrase, mid', hends, hphrase, .single hs, h⟩
      obtain ⟨k, phrase, rfl, -⟩ := hb.exists_cons
      rw [hmid] at hfuel ⊢
      obtain ⟨rfl, bs, hbs, rfl⟩ := ih h (by simp at hfuel; omega)
      have hend (t : Token) (ht : t ∈ mid'.head?) : isSeparator t = true :=
        (ends_iff.mp hends t ht).resolve_right (by simp)
      exact ⟨rfl, b :: bs, .cons hseps hb hend hbs, by simp⟩

/-- One batch. -/
theorem batches_cons {b : Batch} (hb : BatchForm ts b) {seps : List Token}
    (hseps : ∀ t ∈ seps, isSeparator t = true) (hends : Ends false rest) (fuel : Nat)
    (read : Program) :
    batches (fuel + 1) read (seps ++ (ts ++ rest)) = batches fuel (b :: read) rest := by
  obtain ⟨k, phrase, rfl, hk⟩ := hb.exists_cons
  have hword : isSeparator k = false := isSeparator_of_kind hk rfl
  rw [batches, bind_ok (skipSeparators_eq _),
    dropWhile_isSeparator hseps (by simpa using hword), bind_ok (peek_eq _), List.cons_append,
    List.head?_cons]
  dsimp only
  cases hb with
  | single hs =>
    obtain ⟨k, _, hcons, hk⟩ := hs.exists_cons
    cases hcons
    have hread : statement false k.line (k :: (phrase ++ rest)) = .ok _ rest :=
      statement_eq_ok.mpr ⟨hends, k :: phrase, rfl, hs⟩
    rw [not_atomic hk, if_neg Bool.false_ne_true, bind_ok hread]
  | @atomic _ opening closing body members hatomic hopening hmembers hclosing =>
    have hread : group k.line (opening :: (body ++ [closing]) ++ rest) =
        .ok (.atomic k.line members) rest :=
      group_eq_ok.mpr
        ⟨hends, opening, body, closing, members, by simp, hopening, hclosing, hmembers, rfl⟩
    rw [if_pos (isKeyword_iff.mpr hatomic)]
    exact bind_ok hread

/-- **Batches are read one after the other**, whatever follows them. -/
theorem batches_append {bs : List Batch} (h : Listing BatchForm ts bs) (hends : Ends false rest)
    {fuel : Nat} (hfuel : (ts ++ rest).length < fuel) (read : Program) :
    ∃ fuel', rest.length < fuel' ∧
      batches fuel read (ts ++ rest) = batches fuel' (bs.reverse ++ read) rest := by
  induction h generalizing fuel read with
  | nil hseps =>
    obtain ⟨fuel, rfl⟩ := Nat.exists_eq_add_one.mpr (Nat.zero_lt_of_lt hfuel)
    refine ⟨fuel + 1, by simp at hfuel; omega, ?_⟩
    rw [batches, bind_ok (skipSeparators_eq _), List.dropWhile_append_of_pos hseps]
    rfl
  | @cons seps phrase ts b bs hseps hb hend _ ih =>
    obtain ⟨fuel, rfl⟩ := Nat.exists_eq_add_one.mpr (Nat.zero_lt_of_lt hfuel)
    -- Behind a batch stands the separator before the next one, or what follows them all.
    have hbehind : Ends false (ts ++ rest) := by
      cases ts with
      | nil => exact hends
      | cons t ts =>
        refine ends_iff.mpr fun t ht => ?_
        cases ht
        exact .inl (hend _ rfl)
    obtain ⟨k, _, hcons, -⟩ := hb.exists_cons
    have hlength : (ts ++ rest).length < fuel := by
      simp [hcons] at hfuel ⊢
      omega
    obtain ⟨fuel', hfuel', hread⟩ := ih hlength (b :: read)
    refine ⟨fuel', hfuel', ?_⟩
    rw [List.append_assoc, List.append_assoc, batches_cons hb hseps hbehind, hread,
      List.reverse_cons, List.append_assoc, List.singleton_append]

end batches

end Reader

theorem programForm_of_program {t : Tokens} {p : Program} (h : t.program = .ok p) :
    ProgramForm t.tokens p := by
  rw [Tokens.program] at h
  cases hread : Reader.batches (t.tokens.length + 1) [] t.tokens with
  | error fault rest =>
    rw [hread] at h
    cases h
  | ok q rest =>
    rw [hread] at h
    cases h
    obtain ⟨-, bs, hbs, rfl⟩ := Reader.batches_of_batches hread (Nat.lt_succ_self _)
    exact hbs

theorem ProgramForm.program_eq {t : Tokens} {p : Program} (h : ProgramForm t.tokens p) :
    t.program = .ok p := by
  have hends : Reader.Ends false [] := rfl
  have hlength : (t.tokens ++ []).length < t.tokens.length + 1 := by simp
  obtain ⟨fuel, hfuel, hread⟩ := Reader.batches_append h hends hlength []
  obtain ⟨fuel, rfl⟩ := Nat.exists_eq_add_one.mpr (Nat.zero_lt_of_lt hfuel)
  have hdone : Reader.batches (fuel + 1) (p.reverse ++ []) [] = .ok (p.reverse ++ []).reverse [] :=
    rfl
  rw [List.append_nil] at hread
  rw [Tokens.program, hread, hdone, List.append_nil, List.reverse_reverse]

/-- No list of tokens is two programs. -/
theorem ProgramForm.unique {ts : List Token} {p q : Program} (hp : ProgramForm ts p)
    (hq : ProgramForm ts q) : p = q :=
  Except.ok.inj ((program_eq (t := ⟨ts, 0⟩) hp).symm.trans (program_eq (t := ⟨ts, 0⟩) hq))

/-- **The grammar of programs**: a list of tokens is read as a program exactly when the grammar
derives it. -/
theorem Tokens.program_eq_ok_iff {t : Tokens} {p : Program} :
    t.program = .ok p ↔ ProgramForm t.tokens p :=
  ⟨programForm_of_program, ProgramForm.program_eq⟩

end Command

end BlockDocument
