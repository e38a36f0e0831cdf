import BlockDocument.Proofs.Command.Derivation

/-!
# Programs on other lines

Readers look at the kind and the text of a token and never at its line, which they only take over.
So tokens that stand some lines further down are read as the same program some lines further down,
or refused with a fault that says the same.
-/

namespace BlockDocument

namespace Command

/-- A token some lines further down. -/
def Token.shift (k : Nat) (t : Token) : Token := { t with line := t.line + k }

/-- A fault whose token stands some lines further down. -/
def Fault.shift (k : Nat) : Fault → Fault
  | expected kind found => expected kind (found.map (Token.shift k))
  | fault => fault

/-- The words of a fault do not depend on lines. -/
@[simp] theorem Fault.message_shift (k : Nat) (fault : Fault) :
    (fault.shift k).message = fault.message := by
  cases fault with
  | expected kind found => cases found <;> rfl
  | _ => rfl

end Command

/-- A command some lines further down. -/
def Statement.shift (k : Nat) (s : Statement) : Statement := { s with line := s.line + k }

/-- A batch some lines further down, with its members. -/
def Batch.shift (k : Nat) : Batch → Batch
  | single s => single (s.shift k)
  | atomic line members => atomic (line + k) (members.map (Statement.shift k))

/-- A program some lines further down. -/
def Program.shift (k : Nat) (p : Program) : Program := p.map (Batch.shift k)

namespace Command.Reader

variable {α β : Type} {k : Nat}

/-- What comes of reading tokens some lines further down. -/
def shiftResult (k : Nat) (g : α → β) :
    EStateM.Result Fault (List Token) α → EStateM.Result Fault (List Token) β
  | .ok a rest => .ok (g a) (rest.map (Token.shift k))
  | .error fault rest => .error (fault.shift k) (rest.map (Token.shift k))

/-- A reader does some lines further down what another one does, up to a change of what is read. -/
def Lifts (k : Nat) (r : Reader α) (g : α → β) (r' : Reader β) : Prop :=
  ∀ ts, r' (ts.map (Token.shift k)) = shiftResult k g (r ts)

/-- A reader for which lines do not matter. -/
def Blind (k : Nat) (r : Reader α) : Prop := Lifts k r id r

/-! ## Readers in sequence -/

theorem Lifts.pure (a : α) (g : α → β) : Lifts k (pure a) g (pure (g a)) := fun _ => rfl

theorem lifts_throw (fault : Fault) (g : α → β) :
    Lifts k (throw fault) g (throw (fault.shift k)) := fun _ => rfl

/-- The second of two readers starts from what the first one leaves of some tokens. -/
theorem shiftResult_bind {γ δ : Type} {r : Reader α} {r' : Reader β} {g : α → β} {f : α → Reader γ}
    {f' : β → Reader δ} {g' : γ → δ} {ts : List Token}
    (hr : r' (ts.map (Token.shift k)) = shiftResult k g (r ts))
    (hf : ∀ a rest, r ts = .ok a rest →
      f' (g a) (rest.map (Token.shift k)) = shiftResult k g' (f a rest)) :
    (r' >>= f') (ts.map (Token.shift k)) = shiftResult k g' ((r >>= f) ts) := by
  show EStateM.bind r' f' _ = shiftResult k g' (EStateM.bind r f ts)
  rw [EStateM.bind, EStateM.bind, hr]
  cases hread : r ts with
  | ok a rest => exact hf a rest hread
  | error fault rest => rfl

theorem Lifts.bind {γ δ : Type} {r : Reader α} {r' : Reader β} {g : α → β} {f : α → Reader γ}
    {f' : β → Reader δ} {g' : γ → δ} (hr : Lifts k r g r') (hf : ∀ a, Lifts k (f a) g' (f' (g a))) :
    Lifts k (r >>= f) g' (r' >>= f') :=
  fun ts => shiftResult_bind (hr ts) fun a rest _ => hf a rest

theorem Lifts.map {γ δ : Type} {r : Reader α} {r' : Reader β} {g : α → β} {f : α → γ} {f' : β → δ}
    {g' : γ → δ} (hr : Lifts k r g r') (hf : ∀ a, f' (g a) = g' (f a)) :
    Lifts k (f <$> r) g' (f' <$> r') := by
  simp only [map_eq_pure_bind]
  exact hr.bind fun a => by rw [hf a]; exact Lifts.pure _ _

theorem blind_pure (a : α) : Blind k (pure a) := Lifts.pure a id

theorem blind_throw {fault : Fault} (h : fault.shift k = fault) :
    Blind k (throw fault : Reader α) := by
  have hthrow : Lifts k (throw fault : Reader α) id (throw (fault.shift k)) := lifts_throw fault id
  rwa [h] at hthrow

theorem Blind.bind {r : Reader α} {f : α → Reader β} (hr : Blind k r) (hf : ∀ a, Blind k (f a)) :
    Blind k (r >>= f) := Lifts.bind hr hf

theorem Blind.map {r : Reader α} (hr : Blind k r) (f : α → β) : Blind k (f <$> r) :=
  Lifts.map hr fun _ => rfl

theorem blind_orFault {fault : Fault} (h : fault.shift k = fault) (o : Option α) :
    Blind k (orFault fault o) := by
  cases o with
  | none => exact blind_throw h
  | some a => exact blind_pure a

/-! ## Single tokens -/

theorem isKind_shift (kind : TokenKind) (t : Option Token) :
    isKind kind (t.map (Token.shift k)) = isKind kind t := by
  cases t <;> rfl

theorem isKeyword_shift (keyword : String) (t : Option Token) :
    isKeyword keyword (t.map (Token.shift k)) = isKeyword keyword t := by
  cases t <;> rfl

theorem kind_shift (t : Option Token) :
    (t.map (Token.shift k)).map Token.kind = t.map Token.kind := by
  cases t <;> rfl

/-- A look at the next token. -/
theorem lifts_peek {γ δ : Type} {f : Option Token → Reader γ} {f' : Option Token → Reader δ}
    {g : γ → δ} (hf : ∀ t, Lifts k (f t) g (f' (t.map (Token.shift k)))) :
    Lifts k (peek >>= f) g (peek >>= f') := by
  intro ts
  rw [bind_ok (peek_eq ts), bind_ok (peek_eq _), List.head?_map]
  exact hf ts.head? ts

theorem blind_advance : Blind k advance := by
  intro ts
  cases ts <;> rfl

theorem blind_expect (kind : TokenKind) : Blind k (expect kind) := by
  refine lifts_peek fun t => ?_
  cases t with
  | none => exact blind_throw rfl
  | some t =>
    show Lifts k (if t.kind = kind then _ else _) id (if t.kind = kind then _ else _)
    split
    · exact blind_advance.bind fun _ => blind_pure t.text
    · exact lifts_throw (.expected kind (some t)) id

theorem blind_accept (keyword : String) : Blind k (accept keyword) := by
  refine lifts_peek fun t => ?_
  rw [isKeyword_shift]
  split
  · exact blind_advance.bind fun _ => blind_pure true
  · exact blind_pure false

/-! ## Commands -/

theorem blind_reference : Blind k reference :=
  (blind_expect .word).bind fun _ => blind_orFault rfl _

theorem blind_relation : Blind k relation :=
  (blind_expect .word).bind fun _ => blind_orFault rfl _

theorem blind_position? (keyword : String) : Blind k (position? keyword) := by
  refine (blind_accept keyword).bind fun found => ?_
  split
  · exact (blind_expect .word).bind fun _ => (blind_orFault rfl _).map _
  · exact blind_pure none

theorem blind_propertyValue : Blind k propertyValue := by
  refine lifts_peek fun t => ?_
  rw [isKind_shift]
  split
  · exact (blind_expect .quoted).map _
  · exact (blind_expect .word).map _

theorem blind_propertiesFrom (fuel : Nat) (read : Attributes) :
    Blind k (propertiesFrom fuel read) := by
  induction fuel generalizing read with
  | zero => exact blind_pure read
  | succ fuel ih =>
    refine (blind_expect .word).bind fun key => (blind_expect .equals).bind fun _ =>
      blind_propertyValue.bind fun value => lifts_peek fun t => ?_
    rw [isKind_shift]
    split
    · exact blind_advance.bind fun _ => ih _
    · exact blind_pure _

theorem blind_properties : Blind k Reader.properties := by
  refine (blind_accept "WITH").bind fun found => ?_
  split
  · intro ts
    show propertiesFrom ((ts.map (Token.shift k)).length + 1) ∅ _ =
      shiftResult k id (propertiesFrom (ts.length + 1) ∅ ts)
    rw [List.length_map]
    exact blind_propertiesFrom _ ∅ ts
  · exact blind_pure ∅

theorem blind_assignment : Blind k assignment := by
  refine lifts_peek fun t => ?_
  have hdone (op : Assignment) : Blind k (do advance; pure op) :=
    blind_advance.bind fun _ => blind_pure op
  rw [kind_shift]
  dsimp only
  split
  · exact (blind_pure _).bind hdone
  · exact (blind_pure _).bind hdone
  · exact (blind_pure _).bind hdone
  · exact (blind_throw rfl).bind hdone

theorem blind_target : Blind k target := by
  refine lifts_peek fun t => ?_
  rw [kind_shift]
  split
  · exact blind_pure _
  · exact blind_advance.bind fun _ => blind_pure _
  · exact (blind_expect .word).bind fun path => blind_assignment.bind fun op => blind_pure _

theorem blind_edit : Blind k edit := by
  refine blind_reference.bind fun id => (blind_accept "SET").bind fun found => ?_
  split
  · exact (blind_throw rfl).bind fun _ => blind_target.bind fun _ => (blind_expect .quoted).bind
      fun _ => blind_pure _
  · exact blind_target.bind fun _ => (blind_expect .quoted).bind fun _ => blind_pure _

theorem blind_kind? : Blind k kind? := by
  refine lifts_peek fun t => ?_
  rw [isKind_shift, isKeyword_shift]
  split
  · exact (blind_expect .word).bind fun _ => (blind_orFault rfl _).map _
  · exact blind_pure none

theorem blind_append : Blind k append := by
  refine blind_reference.bind fun parent => blind_kind?.bind fun kind =>
    (blind_position? "AT").bind fun position => (blind_expect .doubleColon).bind fun _ =>
      lifts_peek fun t => ?_
  rw [kind_shift]
  split
  · exact (blind_expect .quoted).bind fun _ => blind_properties.bind fun _ => blind_pure _
  · exact (blind_expect .raw).bind fun _ => blind_pure _
  · exact blind_throw rfl

theorem blind_delete : Blind k delete := by
  refine blind_reference.bind fun id => (blind_accept "CASCADE").bind fun found => ?_
  split
  · exact blind_pure _
  · refine (blind_accept "PRESERVE_CHILDREN").bind fun found => ?_
    split
    · exact blind_pure _
    · exact blind_pure _

theorem blind_place : Blind k place := by
  refine (blind_expect .word).bind fun word => ?_
  dsimp only
  split
  · exact blind_reference.bind fun _ => (blind_position? "INDEX").map _
  · exact blind_reference.map _
  · exact blind_reference.map _
  · exact blind_throw rfl

theorem blind_move : Blind k move := blind_reference.bind fun _ => blind_place.map _

theorem blind_link : Blind k link :=
  blind_reference.bind fun _ => blind_relation.bind fun _ => blind_reference.bind fun _ =>
    blind_properties.map _

theorem blind_unlink : Blind k unlink :=
  blind_reference.bind fun _ => blind_relation.bind fun _ => blind_reference.map _

theorem blind_prune : Blind k prune := by
  refine (blind_expect .word).bind fun word => ?_
  split
  · exact blind_pure _
  · exact blind_throw rfl

theorem blind_command : Blind k command := by
  refine (blind_expect .word).bind fun word => ?_
  dsimp only
  split
  · exact blind_edit
  · exact blind_append
  · exact blind_delete
  · exact blind_move
  · exact blind_link
  · exact blind_unlink
  · exact blind_prune
  · exact blind_throw rfl

/-! ## Programs -/

theorem dropWhile_shift (ts : List Token) :
    (ts.map (Token.shift k)).dropWhile isSeparator =
      (ts.dropWhile isSeparator).map (Token.shift k) := by
  rw [List.dropWhile_map]
  rfl

theorem blind_skipSeparators : Blind k skipSeparators := by
  intro ts
  rw [skipSeparators_eq, skipSeparators_eq, dropWhile_shift]
  rfl

theorem blind_expectEnd (grouped : Bool) : Blind k (expectEnd grouped) := by
  refine lifts_peek fun t => ?_
  cases t with
  | none => exact blind_pure ()
  | some t =>
    show Lifts k (if isSeparator t || (grouped && t.kind == .closeBrace) then _ else _) id
      (if isSeparator t || (grouped && t.kind == .closeBrace) then _ else _)
    split
    · exact blind_pure ()
    · exact blind_throw rfl

theorem lifts_statement (grouped : Bool) (line : Nat) :
    Lifts k (statement grouped line) (Statement.shift k) (statement grouped (line + k)) :=
  Lifts.bind blind_command fun c => Lifts.bind (blind_expectEnd grouped) fun _ =>
    Lifts.pure (⟨line, c⟩ : Statement) _

theorem lifts_members (fuel : Nat) (read : List Statement) :
    Lifts k (members fuel read) (List.map (Statement.shift k))
      (members fuel (read.map (Statement.shift k))) := by
  have hdone (read : List Statement) : Lifts k (pure read.reverse)
      (List.map (Statement.shift k)) (pure (read.map (Statement.shift k)).reverse) := by
    rw [← List.map_reverse]
    exact Lifts.pure _ _
  induction fuel generalizing read with
  | zero => exact hdone read
  | succ fuel ih =>
    refine Lifts.bind blind_skipSeparators fun _ => lifts_peek fun t => ?_
    cases t with
    | none => exact lifts_throw .openGroup _
    | some t =>
      show Lifts k
        (if t.kind = .closeBrace then _ else if isKeyword "ATOMIC" (some t) then _ else _) _
        (if t.kind = .closeBrace then _ else if isKeyword "ATOMIC" (some t) then _ else _)
      split
      · exact Lifts.bind blind_advance fun _ => hdone read
      · split
        · exact lifts_throw .nestedGroup _
        · exact Lifts.bind (lifts_statement true t.line) fun s => ih (s :: read)

theorem lifts_group (line : Nat) : Lifts k (group line) (Batch.shift k) (group (line + k)) := by
  refine Lifts.bind (blind_expect .openBrace) fun _ ts => ?_
  show (members ((ts.map (Token.shift k)).length + 1) [] >>= _) _ =
    shiftResult k _ ((members (ts.length + 1) [] >>= _) ts)
  rw [List.length_map]
  exact Lifts.bind (lifts_members (ts.length + 1) [])
    (fun ms => Lifts.bind (blind_expectEnd false) fun _ => Lifts.pure (Batch.atomic line ms) _) ts

/-- Batches are read some lines further down, whatever was read before and with any fuel that is
enough. -/
theorem lifts_batches {fuel fuel' : Nat} {ts : List Token} (h : ts.length < fuel)
    (h' : ts.length < fuel') (read base : Program) :
    batches fuel' (read.map (Batch.shift k) ++ base) (ts.map (Token.shift k)) =
      shiftResult k (fun p => base.reverse ++ Program.shift k p) (batches fuel read ts) := by
  induction fuel generalizing fuel' ts read with
  | zero => exact absurd h (Nat.not_lt_zero _)
  | succ fuel ih =>
    obtain ⟨fuel', rfl⟩ := Nat.exists_eq_add_one.mpr (Nat.zero_lt_of_lt h')
    have hmid : (ts.dropWhile isSeparator).length ≤ ts.length :=
      (List.dropWhile_sublist isSeparator).length_le
    rw [batches, batches, bind_ok (skipSeparators_eq _), bind_ok (skipSeparators_eq _),
      dropWhile_shift, bind_ok (peek_eq _), bind_ok (peek_eq _)]
    generalize ts.dropWhile isSeparator = mid at hmid ⊢
    cases mid with
    | nil =>
      show EStateM.Result.ok (read.map (Batch.shift k) ++ base).reverse [] = .ok _ []
      rw [List.reverse_append, ← List.map_reverse]
      rfl
    | cons t mid =>
      show (if isKeyword "ATOMIC" (some t) then _ else _ : Reader Program) _ =
        shiftResult k _ ((if isKeyword "ATOMIC" (some t) then _ else _ : Reader Program) _)
      split
      · show (group (t.line + k) >>= _) (mid.map (Token.shift k)) =
          shiftResult k _ ((group t.line >>= _) mid)
        refine shiftResult_bind (lifts_group t.line mid) fun b rest hb => ?_
        -- A batch takes tokens away, so either fuel is enough for what it leaves.
        have hlength : rest.length < mid.length := by
          obtain ⟨-, opening, body, closing, ms, rfl, -⟩ := group_eq_ok.mp hb
          simp
          omega
        rw [List.length_cons] at hmid
        exact ih (by omega) (by omega) (b :: read)
      · refine shiftResult_bind (lifts_statement false t.line (t :: mid)) fun s rest hs => ?_
        have hlength : rest.length < (t :: mid).length := by
          obtain ⟨-, phrase, hphrase, hs⟩ := statement_eq_ok.mp hs
          obtain ⟨k, phrase, rfl, -⟩ := hs.exists_cons
          rw [hphrase]
          simp
        exact ih (by omega) (by omega) (.single s :: read)

end Command.Reader

end BlockDocument
