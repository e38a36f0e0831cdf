import Mathlib
import BlockDocument.Command.Render
import BlockDocument.Command.Scan

/-!
# What a scanner makes of a text

One equation for each kind of token: how the scanner passes it when it stands at the head of a text.
Words are the delicate ones, since a word ends before an operator that starts with a sign, and so a
word that itself ends in a sign is cut when an equals sign follows.
-/

namespace BlockDocument.Command

/-! ## Words -/

/-- Whether a character starts one of the operators `+=` and `-=`. -/
def isSign (c : Char) : Bool := c == '+' || c == '-'

/-- Whether a word ends in a sign. -/
def isSigned (w : List Char) : Bool := w.getLast?.any isSign

/-- A text that can be one word. -/
structure IsWord (w : List Char) : Prop where
  ne_nil : w ≠ []
  chars : ∀ c ∈ w, isWordChar c = true

instance (w : List Char) : Decidable (IsWord w) :=
  decidable_of_iff ((!w.isEmpty && w.all isWordChar) = true) <| by
    rw [Bool.and_eq_true, List.all_eq_true, Bool.not_eq_true', List.isEmpty_eq_false_iff]
    exact ⟨fun h => ⟨h.1, h.2⟩, fun h => ⟨h.ne_nil, h.chars⟩⟩

/-- Where a word ends: at a character of another class, unless that is an equals sign that takes the
sign off the word, or at an operator. -/
inductive Breaks (w : List Char) : List Char → Prop where
  | nil : Breaks w []
  | cons {c : Char} {rest : List Char} (hc : isWordChar c = false)
      (heq : c = '=' → isSigned w = false) : Breaks w (c :: rest)
  | operator {c : Char} {rest : List Char} (hc : isSign c = true) : Breaks w (c :: '=' :: rest)

theorem toNat_of_isWordChar {c : Char} (h : isWordChar c = true) : 33 ≤ c.toNat ∧ c.toNat ≤ 122 := by
  simp only [isWordChar, Bool.or_eq_true, Char.isAlphanum, Char.isAlpha, Char.isUpper, Char.isLower,
    Char.isDigit, Bool.and_eq_true, decide_eq_true_eq, beq_iff_eq, UInt32.le_iff_toNat_le,
    ge_iff_le] at h
  change ((((((65 ≤ c.toNat ∧ c.toNat ≤ 90) ∨ (97 ≤ c.toNat ∧ c.toNat ≤ 122)) ∨
    (48 ≤ c.toNat ∧ c.toNat ≤ 57)) ∨ c = '_') ∨ c = '.') ∨ c = '-') ∨ c = '+' at h
  rcases h with ((((h | h) | rfl) | rfl) | rfl) | rfl
  · omega
  · omega
  all_goals decide

/-- Words hold no blanks. -/
theorem isLineBlank_of_isWordChar {c : Char} (h : isWordChar c = true) : isLineBlank c = false := by
  obtain ⟨hlow, hhigh⟩ := toNat_of_isWordChar h
  rw [isLineBlank, Text.isBlank]
  simp only [Bool.and_eq_false_iff, Bool.or_eq_false_iff, decide_eq_false_iff_not,
    beq_eq_false_iff_ne]
  right
  omega

theorem ne_of_isWordChar {c x : Char} (h : isWordChar c = true) (hx : isWordChar x = false) :
    c ≠ x := by
  rintro rfl
  rw [h] at hx
  cases hx

theorem markKind?_of_isWordChar {c : Char} (h : isWordChar c = true) : markKind? c = none := by
  have hne (x : Char) (hx : isWordChar x = false) : c ≠ x := ne_of_isWordChar h hx
  rw [markKind?]
  all_goals exact hne _ (by decide)

theorem markKind?_ne_word (c : Char) : markKind? c ≠ some .word := by
  rw [markKind?.eq_def]
  split <;> simp

theorem isSigned_of_cons {c : Char} {w : List Char} (h : isSigned (c :: w) = false) :
    isSigned w = false := by
  cases w with
  | nil => rfl
  | cons a w => rwa [isSigned, List.getLast?_cons_cons] at h

theorem Breaks.tail {c : Char} {w rest : List Char} (h : Breaks (c :: w) rest) : Breaks w rest := by
  cases h with
  | nil => exact .nil
  | cons hc heq => exact .cons hc fun he => isSigned_of_cons (heq he)
  | operator hc => exact .operator hc

/-- No operator starts within a word. -/
theorem Breaks.no_operator {c : Char} {w rest : List Char} (h : Breaks (c :: w) rest)
    (hw : ∀ a ∈ w, isWordChar a = true) (hc : isSign c = true) : (w ++ rest).head? ≠ some '=' := by
  cases w with
  | cons a w =>
    intro he
    obtain rfl : a = '=' := by simpa using he
    have := hw '=' (by simp)
    cases this
  | nil =>
    intro he
    cases h with
    | nil => cases he
    | cons hr heq =>
      have hsigned := heq (by simpa using he)
      rw [isSigned, List.getLast?_singleton, Option.any_some, hc] at hsigned
      cases hsigned
    | operator hr =>
      rw [List.nil_append, List.head?_cons, Option.some.injEq] at he
      rw [he] at hr
      cases hr

/-- A word is taken up to where it ends. -/
theorem takeWord_append {w rest : List Char} (hw : ∀ c ∈ w, isWordChar c = true)
    (hb : Breaks w rest) (taken : List Char) :
    takeWord taken (w ++ rest) = (taken.reverse ++ w, rest) := by
  induction w generalizing taken with
  | nil =>
    rw [List.nil_append, List.append_nil]
    cases hb with
    | nil => rw [takeWord]
    | cons hc heq => rw [takeWord, hc, Bool.false_and, if_neg Bool.false_ne_true]
    | operator hc =>
      have hsign : (_ == '+' || _ == '-') = true := hc
      rw [takeWord, hsign]
      simp
  | cons c w ih =>
    obtain ⟨hc, hw'⟩ := List.forall_mem_cons.mp hw
    have hop : ((c == '+' || c == '-') && (w ++ rest).head? == some '=') = false := by
      rw [Bool.and_eq_false_iff]
      by_cases hs : isSign c = true
      · exact .inr (beq_eq_false_iff_ne.mpr (hb.no_operator hw' hs))
      · exact .inl (Bool.eq_false_iff.mpr hs)
    rw [List.cons_append, takeWord, hc, hop, Bool.not_false, Bool.and_self, if_pos rfl,
      ih hw' hb.tail, List.reverse_cons, List.append_assoc]
    rfl

theorem isWordChar_of_mem_takeWord {taken cs : List Char} (h : ∀ c ∈ taken, isWordChar c = true) :
    ∀ c ∈ (takeWord taken cs).1, isWordChar c = true := by
  induction cs generalizing taken with
  | nil => simpa [takeWord] using h
  | cons a cs ih =>
    rw [takeWord]
    split
    · rename_i ha
      refine ih fun c hc => ?_
      rcases List.mem_cons.mp hc with rfl | hc
      · exact (Bool.and_eq_true_iff.mp ha).1
      · exact h c hc
    · simpa using h

theorem ne_nil_of_takeWord {a : Char} {taken cs : List Char} :
    (takeWord (a :: taken) cs).1 ≠ [] := by
  induction cs generalizing a taken with
  | nil => simp [takeWord]
  | cons c cs ih =>
    rw [takeWord]
    split
    · exact ih
    · simp

/-! ## Quoted texts -/

/-- A character is read back from how it is written between quotes. -/
theorem readQuoted_escapeChar (c : Char) (read rest : List Char) :
    readQuoted read (escapeChar c ++ rest) = readQuoted (c :: read) rest := by
  rw [escapeChar.eq_def]
  split
  all_goals try rfl
  rename_i hn ht hr hq hb
  rw [List.singleton_append, readQuoted]
  · rw [if_neg fun h => h.elim hn hb]
  · exact hq
  · exact fun e _ he _ => hb he

theorem readQuoted_escape (cs read rest : List Char) :
    readQuoted read (cs.flatMap escapeChar ++ '"' :: rest) = .ok (read.reverse ++ cs, rest) := by
  induction cs generalizing read with
  | nil => simp [readQuoted]
  | cons c cs ih =>
    rw [List.flatMap_cons, List.append_assoc, readQuoted_escapeChar, ih, List.reverse_cons,
      List.append_assoc]
    rfl

namespace Scanner

/-! ## The scanner at a token -/

/-- One step of `run`, at what is left once blanks and comments are skipped. -/
def runAt (s : Scanner) : List Char → Except (Nat × Fault) Tokens
  | [] => .ok ⟨s.found.reverse, s.line⟩
  | '\n' :: rest => run { s.push .newline ['\n'] with line := s.line + 1 } rest
  | '"' :: rest =>
    match readQuoted [] rest with
    | .ok (text, rest') => run (s.push .quoted text) rest'
    | .error fault => .error (s.line, fault)
  | ':' :: ':' :: rest =>
    run ((s.push .doubleColon [':', ':']).pushRaw (readRaw (0 < s.depth) rest).1)
      (readRaw (0 < s.depth) rest).2
  | '+' :: '=' :: rest => run (s.push .plusEquals ['+', '=']) rest
  | '-' :: '=' :: rest => run (s.push .minusEquals ['-', '=']) rest
  | c :: rest =>
    match markKind? c with
    | some kind => run { s.push kind [c] with depth := depthAfter s.depth kind } rest
    | none =>
      if isWordChar c then run (s.push .word (takeWord [c] rest).1) (takeWord [c] rest).2
      else .error (s.line, .unexpectedCharacter c)

theorem run_eq (s : Scanner) (cs : List Char) : s.run cs = s.runAt (skip cs) := by
  rw [run]
  split
  all_goals conv_rhs => rw [‹skip cs = _›]
  all_goals rewrite [runAt]
  case h_3 =>
    split
    · rename_i hq
      simp only [hq]
    · rename_i hq
      simp only [hq]
  case h_7 c _ _ _ _ _ _ _ => cases markKind? c <;> rfl
  all_goals first | assumption | rfl

/-- A character at which skipping stops. -/
theorem skip_cons {c : Char} {cs : List Char} (hb : isLineBlank c = false) (hc : c ≠ '/') :
    skip (c :: cs) = c :: cs := by
  rw [skip, List.dropWhile_cons_of_neg (by simp [hb]), skipComment]
  exact fun rest h => hc (List.cons.inj h).1

/-- A character that is looked at alone: what follows does not make a longer mark of it. -/
structure Lone (c : Char) (rest : List Char) : Prop where
  newline : c ≠ '\n'
  quote : c ≠ '"'
  colon : ∀ cs, c = ':' → rest ≠ ':' :: cs
  plus : ∀ cs, c = '+' → rest ≠ '=' :: cs
  minus : ∀ cs, c = '-' → rest ≠ '=' :: cs

section lone

variable {s : Scanner} {c : Char} {rest : List Char}

theorem runAt_mark (h : Lone c rest) {kind : TokenKind} (hkind : markKind? c = some kind) :
    s.runAt (c :: rest) = run { s.push kind [c] with depth := depthAfter s.depth kind } rest := by
  rw [runAt, hkind]
  · exact h.newline
  · exact h.quote
  · exact h.colon
  · exact h.plus
  · exact h.minus

theorem runAt_word (h : Lone c rest) (hkind : markKind? c = none) (hc : isWordChar c = true) :
    s.runAt (c :: rest) = run (s.push .word (takeWord [c] rest).1) (takeWord [c] rest).2 := by
  rw [runAt, hkind]
  · exact if_pos hc
  · exact h.newline
  · exact h.quote
  · exact h.colon
  · exact h.plus
  · exact h.minus

theorem runAt_unexpected (h : Lone c rest) (hkind : markKind? c = none)
    (hc : ¬ isWordChar c = true) :
    s.runAt (c :: rest) = .error (s.line, .unexpectedCharacter c) := by
  rw [runAt, hkind]
  · exact if_neg hc
  · exact h.newline
  · exact h.quote
  · exact h.colon
  · exact h.plus
  · exact h.minus

/-- The first character of a word is looked at alone, up to what ends the word. -/
theorem lone_of_isWordChar {w : List Char} (hc : isWordChar c = true)
    (hw : ∀ c ∈ w, isWordChar c = true) (hb : Breaks (c :: w) rest) : Lone c (w ++ rest) where
  newline := ne_of_isWordChar hc (by decide)
  quote := ne_of_isWordChar hc (by decide)
  colon _ he _ := ne_of_isWordChar hc (by decide) he
  plus _ he hnext := hb.no_operator hw (he ▸ rfl) (by rw [hnext]; rfl)
  minus _ he hnext := hb.no_operator hw (he ▸ rfl) (by rw [hnext]; rfl)

/-- A mark of one character is looked at alone, whatever follows. -/
theorem lone_of_markKind? {kind : TokenKind} (hkind : markKind? c = some kind) (rest : List Char) :
    Lone c rest := by
  have hne {d : Char} (hd : markKind? d = none) : c ≠ d := by
    rintro rfl
    cases hd.symm.trans hkind
  exact ⟨hne rfl, hne rfl, fun _ h => absurd h (hne rfl), fun _ h => absurd h (hne rfl),
    fun _ h => absurd h (hne rfl)⟩

end lone

variable (s : Scanner)

theorem run_nil : s.run [] = .ok ⟨s.found.reverse, s.line⟩ := by
  rw [run_eq]
  rfl

theorem run_blank (rest : List Char) : s.run (' ' :: rest) = s.run rest := by
  rw [run_eq, run_eq s rest]
  rfl

theorem run_newline (rest : List Char) :
    s.run ('\n' :: rest) = run { s.push .newline ['\n'] with line := s.line + 1 } rest := by
  rw [run_eq, skip_cons (by decide) (by decide), runAt]

theorem run_quoted (text : String) (rest : List Char) :
    s.run (quoted text ++ rest) = (s.push .quoted text.toList).run rest := by
  rw [quoted, List.cons_append, run_eq, skip_cons (by decide) (by decide), runAt, escape,
    List.append_assoc, List.singleton_append, readQuoted_escape]
  rfl

/-- Before a quoted text, a double colon is only a mark. -/
theorem run_doubleColon (text : String) (rest : List Char) :
    s.run (':' :: ':' :: ' ' :: (quoted text ++ rest)) =
      (s.push .doubleColon [':', ':']).run (quoted text ++ rest) := by
  have hraw : readRaw (0 < s.depth) (' ' :: (quoted text ++ rest)) = (none, quoted text ++ rest) := by
    rw [readRaw]
    rfl
  rw [run_eq, skip_cons (by decide) (by decide), runAt, hraw]
  rfl

theorem run_equals (rest : List Char) :
    s.run ('=' :: rest) = (s.push .equals ['=']).run rest := by
  rw [run_eq, skip_cons (by decide) (by decide)]
  rfl

theorem run_comma (rest : List Char) : s.run (',' :: rest) = (s.push .comma [',']).run rest := by
  rw [run_eq, skip_cons (by decide) (by decide)]
  rfl

theorem run_openBrace (rest : List Char) :
    s.run ('\x7b' :: rest) = run { s.push .openBrace ['\x7b'] with depth := s.depth + 1 } rest := by
  rw [run_eq, skip_cons (by decide) (by decide)]
  rfl

theorem run_closeBrace (rest : List Char) :
    s.run ('\x7d' :: rest) = run { s.push .closeBrace ['\x7d'] with depth := s.depth - 1 } rest := by
  rw [run_eq, skip_cons (by decide) (by decide)]
  rfl

theorem run_plusEquals (rest : List Char) :
    s.run ('+' :: '=' :: rest) = (s.push .plusEquals ['+', '=']).run rest := by
  rw [run_eq, skip_cons (by decide) (by decide), runAt]

theorem run_minusEquals (rest : List Char) :
    s.run ('-' :: '=' :: rest) = (s.push .minusEquals ['-', '=']).run rest := by
  rw [run_eq, skip_cons (by decide) (by decide), runAt]

/-- A word is passed whole if the text goes on with something that ends it. -/
theorem run_word {w rest : List Char} (hw : IsWord w) (hb : Breaks w rest) :
    s.run (w ++ rest) = (s.push .word w).run rest := by
  obtain ⟨hne, hchars⟩ := hw
  cases w with
  | nil => exact absurd rfl hne
  | cons c w =>
    obtain ⟨hc, hw⟩ := List.forall_mem_cons.mp hchars
    rw [List.cons_append, run_eq, skip_cons (isLineBlank_of_isWordChar hc)
      (ne_of_isWordChar hc (by decide)), runAt_word (lone_of_isWordChar hc hw hb)
      (markKind?_of_isWordChar hc) hc, takeWord_append hw hb.tail]
    rfl

/-- Whether the words among some tokens could be words. -/
def Worded (ts : List Token) : Prop := ∀ t ∈ ts, t.kind = .word → IsWord t.text.toList

theorem worded_push {kind : TokenKind} {text : List Char} (h : Worded s.found)
    (hk : kind = .word → IsWord text) : Worded (s.push kind text).found := by
  intro t ht hword
  rcases List.mem_cons.mp ht with rfl | ht
  · rw [String.toList_ofList]
    exact hk hword
  · exact h t ht hword

theorem worded_pushRaw {raw : Option (List Char)} (h : Worded s.found) :
    Worded (s.pushRaw raw).found := by
  cases raw with
  | none => exact h
  | some raw => exact worded_push s h fun hk => nomatch hk

/-- **The words of a text**: whatever the text is, what is found as a word could be one. -/
theorem worded_run {cs : List Char} {ts : Tokens} (hs : Worded s.found) (h : s.run cs = .ok ts) :
    Worded ts.tokens := by
  fun_induction run s cs with
  | case1 s cs hend =>
    cases h
    exact fun t ht => hs t (List.mem_reverse.mp ht)
  | case2 s cs rest hcs hlt ih => exact ih (worded_push s hs fun hk => nomatch hk) h
  | case3 s cs rest hcs text rest' hq hlt ih => exact ih (worded_push s hs fun hk => nomatch hk) h
  | case4 => cases h
  | case5 s cs rest hcs hlt ih =>
    exact ih (worded_pushRaw _ (worded_push s hs fun hk => nomatch hk)) h
  | case6 s cs rest hcs hlt ih => exact ih (worded_push s hs fun hk => nomatch hk) h
  | case7 s cs rest hcs hlt ih => exact ih (worded_push s hs fun hk => nomatch hk) h
  | case8 s cs c rest _ _ _ _ _ hcs kind hkind hlt ih =>
    exact ih (worded_push s hs fun hk => absurd (hk ▸ hkind) (markKind?_ne_word c)) h
  | case9 s cs c rest _ _ _ _ _ hcs hkind hc hlt ih =>
    refine ih (worded_push s hs fun _ => ⟨ne_nil_of_takeWord, ?_⟩) h
    exact isWordChar_of_mem_takeWord (by simpa using hc)
  | case10 => cases h

end Scanner

theorem worded_scan {cs : List Char} {ts : Tokens} (h : scan cs = .ok ts) :
    Scanner.Worded ts.tokens :=
  Scanner.worded_run {} (fun t ht => by cases ht) h

end BlockDocument.Command
