import BlockDocument.Proofs.Command.Grammar

/-!
# Braces of programs

Braces stand around groups only, and groups do not stand in one another. So behind a program as many
braces are open as in front of it, and what a scanner takes for a text without quotes does not depend
on the programs before it.
-/

namespace BlockDocument.Command

/-- Tokens behind which as many braces are open as in front of them. -/
def Balanced (ts : List Token) : Prop :=
  ∀ depth, ts.foldl (fun depth t => depthAfter depth t.kind) depth = depth

section balanced

variable {t : Token} {ts ts' : List Token}

theorem balanced_nil : Balanced [] := fun _ => rfl

theorem Balanced.append (h : Balanced ts) (h' : Balanced ts') : Balanced (ts ++ ts') := by
  intro depth
  rw [List.foldl_append, h, h']

theorem Balanced.cons {kind : TokenKind} (h : Balanced ts) (ht : t.kind = kind)
    (hkind : ∀ depth, depthAfter depth kind = depth) : Balanced (t :: ts) := by
  intro depth
  rw [List.foldl_cons, ht, hkind, h]

theorem Balanced.word (h : Balanced ts) (ht : t.kind = .word) : Balanced (t :: ts) :=
  h.cons ht fun _ => rfl

theorem balanced_of_separators (h : ∀ t ∈ ts, Reader.isSeparator t = true) : Balanced ts := by
  induction ts with
  | nil => exact balanced_nil
  | cons t ts ih =>
    obtain ⟨ht, h⟩ := List.forall_mem_cons.mp h
    rw [Reader.isSeparator, Bool.or_eq_true, beq_iff_eq, beq_iff_eq] at ht
    rcases ht with ht | ht
    · exact (ih h).cons ht fun _ => rfl
    · exact (ih h).cons ht fun _ => rfl

theorem Balanced.braces {opening closing : Token} (hopening : opening.kind = .openBrace)
    (h : Balanced ts) (hclosing : closing.kind = .closeBrace) :
    Balanced (opening :: (ts ++ [closing])) := by
  intro depth
  rw [List.foldl_cons, List.foldl_append, h, hopening, List.foldl_cons, hclosing]
  rfl

theorem Listing.balanced {α : Type} {item : List Token → α → Prop} {as : List α}
    (hitem : ∀ {ts a}, item ts a → Balanced ts) (h : Listing item ts as) : Balanced ts := by
  induction h with
  | nil hseps => exact balanced_of_separators hseps
  | cons hseps ha _ _ ih => exact (balanced_of_separators hseps).append ((hitem ha).append ih)

end balanced

/-! ## Commands have no braces -/

theorem IdForm.word {t : Token} {r : Reference} (h : IdForm t r) : t.kind = .word := by
  cases h <;> assumption

theorem IndexForm.word {t : Token} {n : Nat} (h : IndexForm t n) : t.kind = .word := by
  cases h
  assumption

theorem PositionForm.balanced {keyword : String} {ts : List Token} {position : Option Nat}
    (h : PositionForm keyword ts position) : Balanced ts := by
  cases h with
  | none => exact balanced_nil
  | some hk hn => exact (balanced_nil.word hn.word).word hk.1

theorem EntriesForm.balanced {ts : List Token} {entries : List (String × Attribute)}
    (h : EntriesForm ts entries) : Balanced ts := by
  have hentry {key mark value : Token} {a : Attribute} {ts : List Token} (hkey : key.kind = .word)
      (hmark : mark.kind = .equals) (hvalue : ValueForm value a) (h : Balanced ts) :
      Balanced (key :: mark :: value :: ts) := by
    refine Balanced.word (Balanced.cons ?_ hmark fun _ => rfl) hkey
    cases hvalue with
    | quoted hvalue => exact h.cons hvalue fun _ => rfl
    | literal hvalue => exact h.cons hvalue fun _ => rfl
  induction h with
  | last hkey hmark hvalue => exact hentry hkey hmark hvalue balanced_nil
  | cons hkey hmark hvalue hcomma _ ih =>
    exact hentry hkey hmark hvalue (ih.cons hcomma fun _ => rfl)

theorem PropertiesForm.balanced {ts : List Token} {properties : Attributes}
    (h : PropertiesForm ts properties) : Balanced ts := by
  cases h with
  | none => exact balanced_nil
  | some hk h => exact h.balanced.word hk.1

theorem TargetForm.balanced {ts : List Token} {target : String × Assignment}
    (h : TargetForm ts target) : Balanced ts := by
  cases h with
  | none => exact balanced_nil
  | mark h => exact balanced_nil.cons h fun _ => rfl
  | path hpath hmark =>
    refine Balanced.word ?_ hpath
    cases hmark with
    | set h => exact balanced_nil.cons h fun _ => rfl
    | add h => exact balanced_nil.cons h fun _ => rfl
    | remove h => exact balanced_nil.cons h fun _ => rfl

theorem ContentForm.balanced {ts : List Token} {content : String × Attributes}
    (h : ContentForm ts content) : Balanced ts := by
  cases h with
  | raw h => exact balanced_nil.cons h fun _ => rfl
  | quoted h hproperties => exact hproperties.balanced.cons h fun _ => rfl

theorem KindForm.balanced {ts : List Token} {kind : Option ContentKind} (h : KindForm ts kind) :
    Balanced ts := by
  cases h with
  | none => exact balanced_nil
  | some h => exact balanced_nil.word h.1

theorem FateForm.balanced {ts : List Token} {children : Fate} (h : FateForm ts children) :
    Balanced ts := by
  cases h with
  | none => exact balanced_nil
  | deleted h => exact balanced_nil.word h.1
  | kept h => exact balanced_nil.word h.1

theorem PlaceForm.balanced {ts : List Token} {place : Place Reference} (h : PlaceForm ts place) :
    Balanced ts := by
  cases h with
  | under hk hid hposition => exact (hposition.balanced.word hid.word).word hk.1
  | before hk hid => exact (balanced_nil.word hid.word).word hk.1
  | after hk hid => exact (balanced_nil.word hid.word).word hk.1

theorem CommandForm.balanced {ts : List Token} {c : Command} (h : CommandForm ts c) :
    Balanced ts := by
  cases h with
  | edit hk hid hset htarget hvalue =>
    have hend : Balanced [_] := balanced_nil.cons hvalue fun _ => rfl
    exact (((htarget.balanced.append hend).word hset.1).word hid.word).word hk.1
  | append hk hid hkind hposition hmark hcontent =>
    have hend := hcontent.balanced.cons hmark fun _ => rfl
    exact ((hkind.balanced.append (hposition.balanced.append hend)).word hid.word).word hk.1
  | delete hk hid hchildren => exact (hchildren.balanced.word hid.word).word hk.1
  | move hk hid hplace => exact (hplace.balanced.word hid.word).word hk.1
  | link hk hsource hrelation htarget hproperties =>
    exact (((hproperties.balanced.word htarget.word).word hrelation.1).word hsource.word).word hk.1
  | unlink hk hsource hrelation htarget =>
    exact (((balanced_nil.word htarget.word).word hrelation.1).word hsource.word).word hk.1
  | prune hk hwhat => exact (balanced_nil.word hwhat.1).word hk.1

theorem StatementForm.balanced {ts : List Token} {s : Statement} (h : StatementForm ts s) :
    Balanced ts := by
  cases h with
  | mk h => exact h.balanced

theorem BatchForm.balanced {ts : List Token} {b : Batch} (h : BatchForm ts b) : Balanced ts := by
  cases h with
  | single h => exact h.balanced
  | atomic hk hopening hmembers hclosing =>
    exact ((hmembers.balanced StatementForm.balanced).braces hopening hclosing).word hk.1

/-- **A program closes the braces it opens.** -/
theorem ProgramForm.balanced {ts : List Token} {p : Program} (h : ProgramForm ts p) :
    Balanced ts := Listing.balanced BatchForm.balanced h

end BlockDocument.Command
