import Mathlib
import BlockDocument.Proofs.Number.Decimal
import BlockDocument.Text.Blank

/-!
# Cuts and trimmed texts

Cutting a text at a class of characters is what the core library does to lists, so its theory of cuts
applies. A text is trimmed if there is no blank at either of its ends. Trimming makes a text trimmed, and
a trimmed text comes back from any blanks that are put around it. A text whose words are joined by
single spaces is flat: it stays on one line.
-/

namespace BlockDocument.Text

/-! ## Cuts -/

theorem splitWhere_eq_splitOnP (p : Char → Bool) (cs : List Char) :
    splitWhere p cs = cs.splitOnP p := by
  induction cs with
  | nil => rfl
  | cons c cs ih =>
    obtain ⟨piece, pieces, h⟩ := List.exists_cons_of_ne_nil (List.splitOnP_ne_nil p cs)
    rw [List.splitOnP_cons_eq_if_modifyHead, h]
    rw [h] at ih
    show splitStep p c (splitWhere p cs) = _
    rw [ih]
    rfl

theorem splitAt_eq_splitOn (c : Char) (cs : List Char) : splitAt c cs = cs.splitOn c :=
  splitWhere_eq_splitOnP _ cs

/-- There is one more piece than there are cuts. -/
theorem length_splitAt (c : Char) (cs : List Char) : (splitAt c cs).length = cs.count c + 1 := by
  rw [splitAt_eq_splitOn]
  induction cs with
  | nil => rfl
  | cons x cs ih =>
    rw [List.splitOn_cons_eq_if_modifyHead, List.count_cons]
    split
    · rw [List.length_cons, ih]
    · rw [List.length_modifyHead, ih]

/-- A piece holds characters of the text, and none at which it was cut. -/
theorem mem_of_mem_splitWhere {p : Char → Bool} {cs piece : List Char} (h : piece ∈ splitWhere p cs)
    {x : Char} (hx : x ∈ piece) : x ∈ cs ∧ p x = false := by
  rw [splitWhere_eq_splitOnP] at h
  induction cs generalizing piece with
  | nil =>
    obtain rfl : piece = [] := by simpa using h
    cases hx
  | cons y cs ih =>
    rw [List.splitOnP_cons_eq_if_modifyHead] at h
    split at h
    · rcases List.mem_cons.mp h with rfl | h
      · cases hx
      · exact (ih h hx).imp_left (List.mem_cons_of_mem y)
    · rename_i hy
      obtain ⟨first, rest, hcut⟩ := List.exists_cons_of_ne_nil (List.splitOnP_ne_nil p cs)
      rw [hcut] at h ih
      rcases List.mem_cons.mp h with rfl | h
      · rcases List.mem_cons.mp hx with rfl | hx
        · exact ⟨List.mem_cons_self .., by simpa using hy⟩
        · exact (ih (List.mem_cons_self ..) hx).imp_left (List.mem_cons_of_mem y)
      · exact (ih (List.mem_cons_of_mem first h) hx).imp_left (List.mem_cons_of_mem y)

theorem mem_of_mem_splitAt {c : Char} {cs piece : List Char} (h : piece ∈ splitAt c cs) {x : Char}
    (hx : x ∈ piece) : x ∈ cs ∧ x ≠ c := by
  simpa using mem_of_mem_splitWhere h hx

theorem isBlank_of_isDigit {c : Char} (h : c.isDigit = true) : isBlank c = false := by
  have hdigit : ∀ i < 10, isBlank (Nat.digitChar i) = false := by decide
  obtain ⟨i, hi, rfl⟩ := Number.exists_digitChar h
  exact hdigit i hi

theorem isBlank_of_mem_words {cs word : List Char} (h : word ∈ words cs) {c : Char} (hc : c ∈ word) :
    isBlank c = false :=
  (mem_of_mem_splitWhere (List.mem_of_mem_filter h) hc).2

/-- What is joined holds nothing but separators and pieces. -/
theorem mem_join {separator : List Char} {pieces : List (List Char)} {c : Char}
    (h : c ∈ join separator pieces) : c ∈ separator ∨ ∃ piece ∈ pieces, c ∈ piece := by
  induction pieces with
  | nil => simp [join] at h
  | cons piece pieces ih =>
    cases pieces with
    | nil =>
      have hpiece : c ∈ piece := by simpa [join] using h
      exact .inr ⟨piece, List.mem_cons_self, hpiece⟩
    | cons next pieces =>
      rw [join, List.intersperse_cons_cons, List.flatten_cons, List.flatten_cons] at h
      rcases List.mem_append.mp h with hpiece | h
      · exact .inr ⟨piece, List.mem_cons_self, hpiece⟩
      rcases List.mem_append.mp h with hsep | h
      · exact .inl hsep
      · obtain hsep | ⟨later, hlater, hc⟩ := ih h
        · exact .inl hsep
        · exact .inr ⟨later, List.mem_cons_of_mem piece hlater, hc⟩

/-! ## Texts on one line -/

/-- Whether the only blanks of a text are spaces, so that it stays on one line. -/
def Flat (cs : List Char) : Prop := ∀ c ∈ cs, isBlank c = true → c = ' '

instance (cs : List Char) : Decidable (Flat cs) :=
  List.decidableBAll (fun c => isBlank c = true → c = ' ') cs

theorem Flat.newline_not_mem {cs : List Char} (h : Flat cs) : '\n' ∉ cs := by
  intro hmem
  have hspace : '\n' = ' ' := h _ hmem (by decide)
  contradiction

theorem Flat.append {cs cs' : List Char} (h : Flat cs) (h' : Flat cs') : Flat (cs ++ cs') := by
  intro c hc
  rcases List.mem_append.mp hc with hc | hc
  · exact h c hc
  · exact h' c hc

theorem Flat.sublist {cs cs' : List Char} (h : Flat cs) (hsub : cs'.Sublist cs) : Flat cs' :=
  fun c hc => h c (hsub.subset hc)

/-- Whatever the text, its words with one space between them stay on one line. -/
theorem flat_join_words (cs : List Char) : Flat (join [' '] (words cs)) := by
  intro c hc hblank
  obtain hsep | ⟨word, hword, hc⟩ := mem_join hc
  · exact List.mem_singleton.mp hsep
  · simp [isBlank_of_mem_words hword hc] at hblank

/-! ## Ends -/

variable {p : Char → Bool} {cs : List Char}

theorem dropEndWhile_eq_rdropWhile (p : Char → Bool) (cs : List Char) :
    dropEndWhile p cs = cs.rdropWhile p := rfl

theorem dropWhile_eq_self (h : ∀ c ∈ cs.head?, p c = false) : cs.dropWhile p = cs := by
  cases cs with
  | nil => rfl
  | cons c cs => exact List.dropWhile_cons_of_neg (by simp [h c rfl])

theorem dropEndWhile_eq_self (h : ∀ c ∈ cs.getLast?, p c = false) : dropEndWhile p cs = cs := by
  rw [dropEndWhile, dropWhile_eq_self (by rwa [List.head?_reverse]), List.reverse_reverse]

theorem dropEndWhile_sublist (p : Char → Bool) (cs : List Char) : (dropEndWhile p cs).Sublist cs :=
  (List.rdropWhile_prefix p cs).sublist

/-! ## Blanks at the ends -/

/-- Whether there is no blank at either end of a text. -/
structure Trimmed (cs : List Char) : Prop where
  head : ∀ c ∈ cs.head?, isBlank c = false
  last : ∀ c ∈ cs.getLast?, isBlank c = false

/-- There may be no blanks at all around a text. -/
theorem noBlanks : ∀ c ∈ [], isBlank c = true := List.forall_mem_nil _

theorem trim_sublist (cs : List Char) : (trim cs).Sublist cs :=
  (dropEndWhile_sublist isBlank _).trans (List.dropWhile_sublist isBlank)

theorem trimmed_trim (cs : List Char) : Trimmed (trim cs) where
  head c hc := by
    have hprefix : trim cs <+: trimStart cs := List.rdropWhile_prefix _ _
    have hstart : (trimStart cs).head? = some c := by
      obtain ⟨rest, hrest⟩ := List.head?_eq_some_iff.mp hc
      obtain ⟨t, ht⟩ := hprefix
      rw [← ht, hrest]
      rfl
    have hfirst := List.head?_dropWhile_not isBlank cs
    rw [trimStart] at hstart
    simpa [hstart] using hfirst
  last c hc := by
    obtain ⟨start, hstart⟩ := List.getLast?_eq_some_iff.mp hc
    have hne : List.rdropWhile isBlank (trimStart cs) ≠ [] := by
      show trim cs ≠ []
      simp [hstart]
    have hlast := List.rdropWhile_last_not isBlank (trimStart cs) hne
    have hget : (List.rdropWhile isBlank (trimStart cs)).getLast hne = c := by
      show (trim cs).getLast _ = c
      simp [hstart]
    simpa [hget] using hlast

/-- The first character that is not blank is the first one of the trimmed text. -/
theorem head?_trim {before rest : List Char} {c : Char} (hbefore : ∀ x ∈ before, isBlank x = true)
    (hc : isBlank c = false) : (trim (before ++ c :: rest)).head? = some c := by
  have hstart : trimStart (before ++ c :: rest) = c :: rest := by
    rw [trimStart, List.dropWhile_append_of_pos hbefore, List.dropWhile_cons_of_neg (by simp [hc])]
  have hprefix : trim (before ++ c :: rest) <+: c :: rest := by
    rw [trim, hstart]
    exact List.rdropWhile_prefix _ _
  have hne : trim (before ++ c :: rest) ≠ [] := by
    rw [trim, hstart, trimEnd, dropEndWhile_eq_rdropWhile, ne_eq, List.rdropWhile_eq_nil_iff]
    intro hall
    simp [hall c (List.mem_cons_self ..)] at hc
  obtain ⟨x, xs, hx⟩ := List.exists_cons_of_ne_nil hne
  rw [hx, List.cons_prefix_cons] at hprefix
  rw [hx, hprefix.1, List.head?_cons]

/-- The last character that is not blank is the last one of the trimmed text. -/
theorem getLast?_trim {start after : List Char} {c : Char} (hafter : ∀ x ∈ after, isBlank x = true)
    (hc : isBlank c = false) : (trim (start ++ c :: after)).getLast? = some c := by
  obtain ⟨start', hstart⟩ : ∃ start', trimStart (start ++ c :: after) = start' ++ c :: after := by
    rw [trimStart, List.dropWhile_append]
    split
    · exact ⟨[], List.dropWhile_cons_of_neg (by simp [hc])⟩
    · exact ⟨_, rfl⟩
  have hrev : ∀ x ∈ after.reverse, isBlank x = true := fun x hx =>
    hafter x (List.mem_reverse.mp hx)
  rw [trim, hstart, trimEnd, dropEndWhile, List.reverse_append, List.reverse_cons, List.append_assoc,
    List.dropWhile_append_of_pos hrev, List.singleton_append, List.dropWhile_cons_of_neg (by simp [hc])]
  simp

/-- A trimmed text comes back from the blanks around it. -/
theorem Trimmed.trim_append (h : Trimmed cs) {before after : List Char}
    (hbefore : ∀ c ∈ before, isBlank c = true) (hafter : ∀ c ∈ after, isBlank c = true) :
    trim (before ++ cs ++ after) = cs := by
  cases hcs : cs with
  | nil =>
    have hall : ∀ c ∈ before ++ [] ++ after, isBlank c = true := by
      simpa [or_imp, forall_and] using ⟨hbefore, hafter⟩
    rw [trim, trimStart, List.dropWhile_eq_nil_iff.mpr hall]
    rfl
  | cons c rest =>
    have hstart : trimStart (before ++ cs ++ after) = cs ++ after := by
      rw [trimStart, List.append_assoc, List.dropWhile_append_of_pos hbefore]
      exact dropWhile_eq_self fun x hx => h.head x (by rwa [hcs] at hx ⊢)
    have hrev : ∀ c ∈ after.reverse, isBlank c = true := fun c hc =>
      hafter c (List.mem_reverse.mp hc)
    rw [← hcs, trim, hstart, trimEnd, dropEndWhile, List.reverse_append,
      List.dropWhile_append_of_pos hrev]
    exact dropEndWhile_eq_self h.last

theorem Trimmed.trim_eq (h : Trimmed cs) : trim cs = cs := by
  simpa using h.trim_append noBlanks noBlanks

end BlockDocument.Text
