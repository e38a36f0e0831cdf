import BlockDocument.Proofs.Limits
import BlockDocument.Proofs.Text.Blank

/-!
# Texts that give their content back

Texts, code and formulas are their own textual form. A table is written row by row with bars between
its cells, and since bars at the ends of a line count for nothing when it is read, a row comes back
exactly if neither its first nor its last cell is empty (`tableRow_rowLine_iff`). The bars tell: a row has
one cell more than its line has bars, and a line that begins or ends with an empty cell loses a bar
when it is read.
-/

namespace BlockDocument

open Text

/-! ## Rows -/

/-- A row as a line. -/
def rowLine (row : List String) : List Char := [' ', '|', ' '].intercalate (row.map String.toList)

/-- A text as the cells of a line have it. -/
structure IsCell (s : String) : Prop where
  trimmed : Trimmed s.toList
  not_bar : '|' ∉ s.toList
  not_newline : '\n' ∉ s.toList

/-- A row as the lines of a text have it. -/
structure IsRow (row : List String) : Prop where
  ne_nil : row ≠ []
  cells : ∀ s ∈ row, IsCell s

/-- A row that begins and ends with cells that are not empty. -/
structure Framed (row : List String) : Prop where
  head : row.head? ≠ some ""
  last : row.getLast? ≠ some ""

variable {row : List String}

theorem rowLine_cons (s : String) (hrow : row ≠ []) :
    rowLine (s :: row) = s.toList ++ [' '] ++ '|' :: ([' '] ++ rowLine row) := by
  obtain ⟨t, rest, rfl⟩ := List.exists_cons_of_ne_nil hrow
  simp [rowLine]

theorem rowLine_concat (hrow : row ≠ []) (s : String) :
    rowLine (row ++ [s]) = rowLine row ++ [' ', '|', ' '] ++ s.toList := by
  induction row with
  | nil => exact absurd rfl hrow
  | cons t row ih =>
    by_cases hnil : row = []
    · subst hnil
      simp [rowLine]
    · rw [List.cons_append, rowLine_cons t (by simp), ih hnil, rowLine_cons t hnil]
      simp

theorem mem_rowLine {c : Char} (h : c ∈ rowLine row) :
    c ∈ [' ', '|', ' '] ∨ ∃ s ∈ row, c ∈ s.toList := by
  induction row with
  | nil => cases h
  | cons s row ih =>
    by_cases hnil : row = []
    · subst hnil
      exact .inr ⟨s, List.mem_cons_self .., by simpa [rowLine] using h⟩
    · rw [rowLine_cons s hnil] at h
      simp only [List.mem_append, List.mem_cons, List.not_mem_nil, or_false] at h
      rcases h with (h | rfl) | rfl | rfl | h
      · exact .inr ⟨s, List.mem_cons_self .., h⟩
      · simp
      · simp
      · simp
      · refine (ih h).imp_right ?_
        rintro ⟨t, ht, hc⟩
        exact ⟨t, List.mem_cons_of_mem s ht, hc⟩

theorem IsRow.newline_not_mem (h : IsRow row) : '\n' ∉ rowLine row := by
  intro hc
  rcases mem_rowLine hc with hsep | ⟨s, hs, hc⟩
  · simp at hsep
  · exact (h.cells s hs).not_newline hc

theorem IsRow.tail {s : String} (h : IsRow (s :: row)) (hrow : row ≠ []) : IsRow row :=
  ⟨hrow, fun t ht => h.cells t (List.mem_cons_of_mem s ht)⟩

/-- A line is cut into the cells of its row, with the blanks next to the bars. -/
theorem IsRow.map_trim_splitAt (h : IsRow row) {before : List Char}
    (hbefore : ∀ c ∈ before, isBlank c = true) :
    ((splitAt '|' (before ++ rowLine row)).map fun cell => String.ofList (trim cell)) = row := by
  -- the induction goes along the bars; what stands before the first one is kept general, since
  -- behind each bar a blank is left over
  induction row generalizing before with
  | nil => exact absurd rfl h.ne_nil
  | cons s row ih =>
    have hcell := h.cells s (List.mem_cons_self ..)
    have hnot : '|' ∉ before := fun hbar => by cases hbefore _ hbar
    have hblank : ∀ c ∈ [' '], isBlank c = true := by simp [isBlank]
    by_cases hnil : row = []
    · subst hnil
      have hline : rowLine [s] = s.toList := by simp [rowLine]
      have hcut : '|' ∉ before ++ s.toList := by
        simp [hnot, hcell.not_bar]
      have htrim := hcell.trimmed.trim_append hbefore noBlanks
      rw [List.append_nil] at htrim
      rw [hline, splitAt_eq_splitOn, List.splitOn_eq_singleton hcut]
      simp [htrim]
    · have hcut : '|' ∉ before ++ s.toList ++ [' '] := by
        simp [hnot, hcell.not_bar]
      have htrim := hcell.trimmed.trim_append hbefore hblank
      have hline : before ++ rowLine (s :: row) =
          (before ++ s.toList ++ [' ']) ++ '|' :: ([' '] ++ rowLine row) := by
        rw [rowLine_cons s hnil]
        simp
      rw [hline, splitAt_eq_splitOn, List.splitOn_append_cons_self_of_not_mem hcut,
        ← splitAt_eq_splitOn, List.map_cons, ih (h.tail hnil) hblank, htrim, String.ofList_toList]

/-- A row has one cell more than its line has bars. -/
theorem IsRow.length_eq (h : IsRow row) : row.length = (rowLine row).count '|' + 1 := by
  have hcells := congrArg List.length (h.map_trim_splitAt noBlanks)
  rw [List.nil_append, List.length_map, length_splitAt] at hcells
  exact hcells.symm

/-! ## Lines that are read -/

/-- What is left of a line without the blanks and then the bars at its ends. -/
def lineCore (line : List Char) : List Char :=
  dropEndWhile (· == '|') ((trim line).dropWhile (· == '|'))

theorem tableRow_eq (line : List Char) :
    tableRow line = (splitAt '|' (lineCore line)).map fun cell => String.ofList (trim cell) := rfl

theorem length_tableRow (line : List Char) :
    (tableRow line).length = (lineCore line).count '|' + 1 := by
  rw [tableRow_eq, List.length_map, length_splitAt]

theorem lineCore_sublist (line : List Char) : (lineCore line).Sublist line :=
  ((dropEndWhile_sublist _ _).trans (List.dropWhile_sublist _)).trans (trim_sublist line)

/-- A line has no bars left at its ends, so it loses those that it had there. -/
theorem count_lineCore_lt {line : List Char}
    (h : (trim line).head? = some '|' ∨ (trim line).getLast? = some '|') :
    (lineCore line).count '|' < line.count '|' := by
  refine Nat.lt_of_lt_of_le ?_ ((trim_sublist line).count_le '|')
  rcases h with h | h
  · obtain ⟨rest, hrest⟩ := List.head?_eq_some_iff.mp h
    have hsub : (lineCore line).Sublist rest := by
      rw [lineCore, hrest, List.dropWhile_cons_of_pos (by simp)]
      exact (dropEndWhile_sublist _ _).trans (List.dropWhile_sublist _)
    rw [hrest, List.count_cons_self]
    exact Nat.lt_succ_of_le (hsub.count_le '|')
  · obtain ⟨start, hstart⟩ := List.getLast?_eq_some_iff.mp h
    have hsub : (lineCore line).Sublist start := by
      rw [lineCore, hstart, List.dropWhile_append]
      split
      · exact List.nil_sublist _
      · rw [dropEndWhile_eq_rdropWhile, List.rdropWhile_concat_pos _ _ _ (by simp)]
        exact (dropEndWhile_sublist _ _).trans (List.dropWhile_sublist _)
    rw [hstart, List.count_append, List.count_singleton_self]
    exact Nat.lt_succ_of_le (hsub.count_le '|')

/-- Every line that is read is a row. -/
theorem isRow_tableRow {line : List Char} (h : '\n' ∉ line) : IsRow (tableRow line) := by
  refine ⟨?_, fun s hs => ?_⟩
  · rw [ne_eq, ← List.length_eq_zero_iff, length_tableRow]
    exact Nat.succ_ne_zero _
  · rw [tableRow_eq] at hs
    obtain ⟨piece, hpiece, rfl⟩ := List.mem_map.mp hs
    have hmem {c : Char} (hc : c ∈ (String.ofList (trim piece)).toList) : c ∈ line ∧ c ≠ '|' := by
      rw [String.toList_ofList] at hc
      exact (mem_of_mem_splitAt hpiece ((trim_sublist piece).subset hc)).imp_left fun hc =>
        (lineCore_sublist line).subset hc
    refine ⟨?_, fun hc => (hmem hc).2 rfl, fun hc => h (hmem hc).1⟩
    rw [String.toList_ofList]
    exact trimmed_trim piece

/-! ## Rows that come back -/

theorem IsCell.ends {s : String} (h : IsCell s) (hs : s ≠ "") :
    (∃ c rest, s.toList = c :: rest ∧ isBlank c = false ∧ c ≠ '|') ∧
      ∃ start c, s.toList = start ++ [c] ∧ isBlank c = false ∧ c ≠ '|' := by
  have hne : s.toList ≠ [] := fun hnil => hs (String.toList_eq_nil_iff.mp hnil)
  have not_bar {c : Char} (hc : c ∈ s.toList) : c ≠ '|' := by
    rintro rfl
    exact h.not_bar hc
  constructor
  · obtain ⟨c, rest, hc⟩ := List.exists_cons_of_ne_nil hne
    exact ⟨c, rest, hc, h.trimmed.head c (by simp [hc]), not_bar (by simp [hc])⟩
  · obtain ⟨start, c, hc⟩ := (List.eq_nil_or_concat' s.toList).resolve_left hne
    exact ⟨start, c, hc, h.trimmed.last c (by simp [hc]), not_bar (by simp [hc])⟩

/-- The line of a framed row begins and ends with characters of its cells. -/
theorem IsRow.ends_rowLine (h : IsRow row) (hf : Framed row) :
    (∃ c, (rowLine row).head? = some c ∧ isBlank c = false ∧ c ≠ '|') ∧
      ∃ c, (rowLine row).getLast? = some c ∧ isBlank c = false ∧ c ≠ '|' := by
  constructor
  · obtain ⟨s, row, rfl⟩ := List.exists_cons_of_ne_nil h.ne_nil
    obtain ⟨c, rest, hc, hends⟩ := ((h.cells s (by simp)).ends (by simpa using hf.head)).1
    refine ⟨c, ?_, hends⟩
    by_cases hnil : row = []
    · simp [hnil, rowLine, hc]
    · simp [rowLine_cons s hnil, hc]
  · obtain ⟨row, s, rfl⟩ := (List.eq_nil_or_concat' row).resolve_left h.ne_nil
    obtain ⟨start, c, hc, hends⟩ := ((h.cells s (by simp)).ends (by simpa using hf.last)).2
    refine ⟨c, ?_, hends⟩
    by_cases hnil : row = []
    · simp [hnil, rowLine, hc]
    · rw [rowLine_concat hnil, hc, ← List.append_assoc, List.getLast?_concat]

/-- So the line of a framed row has nothing to lose at its ends. -/
theorem IsRow.lineCore_eq (h : IsRow row) (hf : Framed row) : lineCore (rowLine row) = rowLine row := by
  obtain ⟨⟨c, hc, hblank, hbar⟩, c', hc', hblank', hbar'⟩ := h.ends_rowLine hf
  have htrimmed : Trimmed (rowLine row) := by
    refine ⟨fun x hx => ?_, fun x hx => ?_⟩
    · rwa [← Option.some.inj (hc.symm.trans hx)]
    · rwa [← Option.some.inj (hc'.symm.trans hx)]
  rw [lineCore, htrimmed.trim_eq, dropWhile_eq_self]
  · refine dropEndWhile_eq_self fun x hx => ?_
    rw [← Option.some.inj (hc'.symm.trans hx)]
    exact beq_false_of_ne hbar'
  · intro x hx
    rw [← Option.some.inj (hc.symm.trans hx)]
    exact beq_false_of_ne hbar

/-- A line shows a bar where its row has an empty cell at an end, unless that is its only cell. -/
theorem bar_of_not_framed (hne : row ≠ [""]) (hf : ¬ Framed row) :
    (trim (rowLine row)).head? = some '|' ∨ (trim (rowLine row)).getLast? = some '|' := by
  have hblank : ∀ c ∈ [' '], isBlank c = true := by simp [isBlank]
  have hbar : isBlank '|' = false := by decide
  by_cases hhead : row.head? = some ""
  · obtain ⟨rest, rfl⟩ := List.head?_eq_some_iff.mp hhead
    have hrest : rest ≠ [] := by
      rintro rfl
      exact hne rfl
    rw [rowLine_cons "" hrest]
    exact .inl (head?_trim hblank hbar)
  · obtain ⟨start, rfl⟩ : ∃ start, row = start ++ [""] :=
      List.getLast?_eq_some_iff.mp (not_not.mp fun hlast => hf ⟨hhead, hlast⟩)
    have hstart : start ≠ [] := by
      rintro rfl
      exact hne rfl
    have hline : rowLine (start ++ [""]) = (rowLine start ++ [' ']) ++ '|' :: [' '] := by
      simp [rowLine_concat hstart]
    rw [hline]
    exact .inr (getLast?_trim hblank hbar)

/-- **When a row comes back** from its line: if neither its first nor its last cell is empty. -/
theorem IsRow.tableRow_rowLine_iff (h : IsRow row) (hne : row ≠ [""]) :
    tableRow (rowLine row) = row ↔ Framed row := by
  constructor
  · intro hback
    by_contra hf
    have hlength := congrArg List.length hback
    rw [length_tableRow, h.length_eq] at hlength
    have := count_lineCore_lt (bar_of_not_framed hne hf)
    omega
  · intro hf
    rw [tableRow_eq, h.lineCore_eq hf]
    exact h.map_trim_splitAt noBlanks

/-- The one row whose line is blank, and so is none when it is read. -/
theorem IsRow.trim_rowLine_eq_nil_iff (h : IsRow row) : trim (rowLine row) = [] ↔ row = [""] := by
  constructor
  · intro hnil
    by_contra hne
    by_cases hf : Framed row
    · obtain ⟨⟨c, hc, hblank, -⟩, -⟩ := h.ends_rowLine hf
      obtain ⟨rest, hrest⟩ := List.head?_eq_some_iff.mp hc
      have hhead : (trim ([] ++ c :: rest)).head? = some c := head?_trim noBlanks hblank
      rw [List.nil_append, ← hrest, hnil] at hhead
      cases hhead
    · have hbar := bar_of_not_framed hne hf
      rw [hnil] at hbar
      rcases hbar with h | h <;> cases h
  · rintro rfl
    rfl

/-! ## Tables -/

variable {rows : List (List String)}

theorem toList_asText_table (rows : List (List String)) :
    (Content.table rows).asText.toList = ['\n'].intercalate (rows.map rowLine) := by
  have hline : String.toList ∘ (fun row : List String => " | ".intercalate row) = rowLine :=
    funext fun row => String.toList_intercalate
  rw [Content.asText, String.toList_intercalate, List.map_map, hline]
  rfl

/-- The rows that are read are those with a line that is not blank. -/
theorem tableRows_asText (h : ∀ row ∈ rows, IsRow row) :
    tableRows (Content.table rows).asText.toList =
      (rows.filter (· ≠ [""])).map fun row => tableRow (rowLine row) := by
  rw [toList_asText_table]
  by_cases hnil : rows = []
  · subst hnil
    rfl
  · have hcut : splitAt '\n' (['\n'].intercalate (rows.map rowLine)) = rows.map rowLine := by
      rw [splitAt_eq_splitOn]
      refine List.splitOn_intercalate '\n' (fun line hline => ?_) (by simpa using hnil)
      obtain ⟨row, hrow, rfl⟩ := List.mem_map.mp hline
      exact (h row hrow).newline_not_mem
    have hfilter : ∀ row ∈ rows, (!(trim (rowLine row)).isEmpty) = decide (row ≠ [""]) := by
      intro row hrow
      rw [Bool.eq_iff_iff, Bool.not_eq_true', List.isEmpty_eq_false_iff, decide_eq_true_iff]
      exact not_congr (h row hrow).trim_rowLine_eq_nil_iff
    rw [tableRows, hcut, List.filter_map, List.map_map]
    exact congrArg (List.map _) (List.filter_congr hfilter)

/-- **When a table comes back** from its textual form. -/
theorem tableRows_asText_iff (h : ∀ row ∈ rows, IsRow row) :
    tableRows (Content.table rows).asText.toList = rows ↔ ∀ row ∈ rows, Framed row := by
  rw [tableRows_asText h]
  constructor
  · intro hback
    have hlength := congrArg List.length hback
    rw [List.length_map] at hlength
    have hall : rows.filter (· ≠ [""]) = rows := List.filter_sublist.eq_of_length hlength
    rw [hall] at hback
    intro row hrow
    have hne : row ≠ [""] := by simpa using List.filter_eq_self.mp hall row hrow
    exact ((h row hrow).tableRow_rowLine_iff hne).mp
      (List.map_inj_left.mp (hback.trans (List.map_id rows).symm) row hrow)
  · intro hf
    have hne (row : List String) (hrow : row ∈ rows) : row ≠ [""] := by
      rintro rfl
      exact (hf [""] hrow).head rfl
    rw [List.filter_eq_self.mpr fun row hrow => by simpa using hne row hrow]
    refine (List.map_congr_left fun row hrow => ?_).trans (List.map_id rows)
    exact ((h row hrow).tableRow_rowLine_iff (hne row hrow)).mpr (hf row hrow)

theorem isRow_of_mem_tableRows {raw : List Char} (h : row ∈ tableRows raw) : IsRow row := by
  obtain ⟨line, hline, rfl⟩ := List.mem_map.mp h
  exact isRow_tableRow fun hc => (mem_of_mem_splitAt (List.mem_of_mem_filter hline) hc).2 rfl

/-! ## Contents -/

namespace Content

/-- A content whose rows, if it has any, begin and end with cells that are not empty. -/
def Framed : Content → Prop
  | table rows => ∀ row ∈ rows, BlockDocument.Framed row
  | _ => True

variable {kind : ContentKind} {raw language : String} {c : Content}

theorem isSome_ofText? (hk : kind ≠ .json) (raw language : String) :
    ∃ c, ofText? kind raw language = some c := by
  cases kind with
  | json => exact absurd rfl hk
  | _ => exact ⟨_, rfl⟩

/-- When a content that was read is read from its textual form again. -/
theorem ofText?_asText_iff (hk : kind ≠ .json) (h : ofText? kind raw language = some c) :
    ofText? kind c.asText language = some c ↔ c.Framed := by
  cases kind with
  | json => exact absurd rfl hk
  | text | code | math =>
    cases h
    exact iff_of_true rfl trivial
  | table =>
    cases h
    refine Iff.trans ?_ (tableRows_asText_iff fun row hrow => isRow_of_mem_tableRows hrow)
    rw [ofText?, Option.some_inj, table.injEq]

/-- Another text for a content that was read is read in the same way. -/
theorem withText?_eq (hk : kind ≠ .json) (h : ofText? kind raw language = some c) (raw' : String) :
    c.withText? raw' = ofText? kind raw' language := by
  cases kind with
  | json => exact absurd rfl hk
  | _ =>
    cases h
    rfl

end Content

/-! ## Edits of texts -/

theorem Content.reread_eq_ok_iff {c c' : Content} {raw : String} :
    c.reread raw = .ok c' ↔ c.withText? raw = some c' := by
  rw [reread, read, withText?]
  cases ofText? c.kind raw c.language <;> simp

/-- When the text of a block is set, and what the block is then. -/
theorem Mutation.set_text_eq_ok_iff {l : Limits} {d d' : Document} {id : BlockId} {b : Block}
    {path raw : String} {outcome : Outcome} (hb : d.block? id = some b)
    (hpath : Field.read path = .ok .text) :
    (set id path raw).apply l d = .ok outcome d' ↔
      ∃ c, b.content.withText? raw = some c ∧ l.blockSizeIssue c.byteSize id = none ∧
        outcome = .updated ∧ d' = d.withBlock id (·.withContent c) := by
  rw [apply_eq_ok_iff]
  constructor
  · intro h
    cases h with
    | set hread he =>
      obtain rfl : _ = Field.text := Except.ok.inj (hread.symm.trans hpath)
      obtain ⟨b', hb', he⟩ := Edit.require_bind_eq_ok he
      obtain rfl : b = b' := Option.some.inj (hb.symm.trans hb')
      obtain ⟨c, hc, he⟩ := Edit.ofExcept_bind_eq_ok he
      obtain ⟨u, hcheck, he⟩ := Edit.ofExcept_bind_eq_ok he
      obtain ⟨-, rfl⟩ := Edit.setContent_eq_ok he
      exact ⟨c, Content.reread_eq_ok_iff.mp hc, requireNone_toList_eq_ok_iff.mp hcheck, rfl, rfl⟩
  · rintro ⟨c, hc, hsize, rfl, rfl⟩
    refine .set hpath ?_
    have hread : (ofExcept (b.content.reread raw) : Edit Content) d = .ok c d := by
      rw [Content.reread_eq_ok_iff.mpr hc]
      rfl
    have hcheck : (ofExcept (requireNone (l.blockSizeIssue c.byteSize id).toList) : Edit Unit) d =
        .ok () d := by
      rw [hsize]
      rfl
    refine (Edit.bind_of_ok (Edit.require_of_block? hb) _).trans ?_
    refine (Edit.bind_of_ok hread _).trans ((Edit.bind_of_ok hcheck _).trans ?_)
    exact Edit.bind_of_ok (Edit.require_of_block? hb) _

/-- **Which texts give their content back**: every content that was read, other than JSON, is given back
by its textual form, read from scratch or in the place of its text, if each row of a table begins and ends
with a cell that is not empty, and otherwise it is not. So a block whose text is set to what it shows has
the same content afterwards in just these cases; where the size of blocks is not limited, the edit is
carried out. -/
theorem Content.asText_canonical_iff {kind : ContentKind} (hk : kind ≠ .json) (raw language : String) :
    ∃ c, ofText? kind raw language = some c ∧
      (ofText? kind c.asText language = some c ↔ c.Framed) ∧
      (c.withText? c.asText = some c ↔ c.Framed) ∧
      ∀ d id b path, Document.block? d id = some b → b.content = c → Field.read path = .ok .text →
        (∀ l outcome d', Mutation.apply l (.set id path c.asText) d = .ok outcome d' →
          ∃ b', d'.block? id = some b' ∧ (b'.content = c ↔ c.Framed)) ∧
        ∀ l : Limits, l.blockSize = none →
          ∃ d', Mutation.apply l (.set id path c.asText) d = .ok .updated d' := by
  obtain ⟨c, hc⟩ := isSome_ofText? hk raw language
  have hreread := withText?_eq hk hc
  have hiff := ofText?_asText_iff hk hc
  refine ⟨c, hc, hiff, by rwa [hreread], fun d id b path hb hcontent hpath => ⟨?_, ?_⟩⟩
  · intro l outcome d' h
    obtain ⟨c', hc', -, -, rfl⟩ := (Mutation.set_text_eq_ok_iff hb hpath).mp h
    rw [hcontent, hreread] at hc'
    refine ⟨b.withContent c', by simp [Document.block?_withBlock, hb], ?_⟩
    rw [← hiff, hc', Option.some_inj]
    exact Iff.rfl
  · intro l hl
    obtain ⟨c', hc'⟩ := isSome_ofText? hk c.asText language
    have hnone : l.blockSizeIssue c'.byteSize id = none := by
      rw [Limits.blockSizeIssue, hl]
      rfl
    exact ⟨_, (Mutation.set_text_eq_ok_iff hb hpath).mpr
      ⟨c', by rw [hcontent, hreread, hc'], hnone, rfl, rfl⟩⟩

/-- Rows of different lengths come back, and the block that shows them takes its own text. -/
theorem Content.asText_canonical_ragged :
    ContentKind.table ≠ .json ∧
      ∃ c, ofText? .table "| a |\n| b | c |" "" = some c ∧ c.asText = "a\nb | c" ∧
        c.withText? c.asText = some c ∧
        ∀ d id b, Document.block? d id = some b → b.content = c →
          ∃ d', Mutation.apply {} (.set id "text" c.asText) d = .ok .updated d' ∧
            ∃ b', d'.block? id = some b' ∧ b'.content = c := by
  have hk : ContentKind.table ≠ .json := by decide
  have hrows : tableRows "| a |\n| b | c |".toList = [["a"], ["b", "c"]] := by decide +kernel
  have hpath : Field.read "text" = .ok .text := by decide +kernel
  obtain ⟨c, hc, -, hback, hedit⟩ := asText_canonical_iff hk "| a |\n| b | c |" ""
  obtain rfl : table [["a"], ["b", "c"]] = c := by
    rw [ofText?, hrows] at hc
    exact Option.some.inj hc
  have hframed : (table [["a"], ["b", "c"]]).Framed := by
    intro row hrow
    rcases List.mem_pair.mp hrow with rfl | rfl <;> exact ⟨by decide, by decide⟩
  refine ⟨hk, _, hc, by decide +kernel, hback.mpr hframed, fun d id b hb hcontent => ?_⟩
  obtain ⟨hset, hdone⟩ := hedit d id b "text" hb hcontent hpath
  obtain ⟨d', hd'⟩ := hdone {} rfl
  obtain ⟨b', hb', hsame⟩ := hset _ _ _ hd'
  exact ⟨d', hd', b', hb', hsame.mpr hframed⟩

/-- An empty cell at the beginning of a row is lost. -/
theorem Content.asText_not_canonical :
    ¬ ∀ (kind : ContentKind) (raw language : String) (c : Content), kind ≠ .json →
      ofText? kind raw language = some c →
        ofText? kind c.asText language = some c ∧ c.withText? c.asText = some c := by
  intro h
  have hraw : tableRows "| | a |".toList = [["", "a"]] := by decide +kernel
  have hread : ofText? .table "| | a |" "" = some (table [["", "a"]]) := by rw [ofText?, hraw]
  have hback := (h .table "| | a |" "" _ (by decide) hread).1
  have hlost : tableRows (table [["", "a"]]).asText.toList = [["a"]] := by decide +kernel
  rw [ofText?, hlost] at hback
  simp at hback

end BlockDocument
