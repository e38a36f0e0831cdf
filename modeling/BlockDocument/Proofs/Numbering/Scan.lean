import Mathlib
import BlockDocument.Proofs.Numbering.Stance

/-!
# What a scanner makes of a text after words were replaced

The scanner finds the tokens that it found before, with words replaced within them. A replacement
only puts characters of words for such characters, so tokens start and end at the same places, and
whatever ended a word still does.
-/

namespace BlockDocument

open Command
open Reference (isIdChar)

variable {f : List Char → Option (List Char)}

/-! ## Words -/

/-- A word in the place of another one, so that it ends where the other one did. -/
structure Alike (w' w : List Char) : Prop where
  eq_nil : w' = [] ↔ w = []
  signed : isSigned w' = isSigned w
  chars : (∀ c ∈ w, isWordChar c = true) → ∀ c ∈ w', isWordChar c = true

theorem Alike.refl (w : List Char) : Alike w w := ⟨Iff.rfl, rfl, id⟩

theorem isSigned_append (u : List Char) {v : List Char} (hv : v ≠ []) :
    isSigned (u ++ v) = isSigned v := by
  rw [isSigned, List.getLast?_append_of_ne_nil _ hv, isSigned]

theorem Alike.append {u u' v v' : List Char} (hu : Alike u' u) (hv : Alike v' v) :
    Alike (u' ++ v') (u ++ v) := by
  refine ⟨by simp [hu.eq_nil, hv.eq_nil], ?_, fun h c hc => ?_⟩
  · by_cases hnil : v = []
    · rw [hv.eq_nil.mpr hnil, hnil, List.append_nil, List.append_nil, hu.signed]
    · rw [isSigned_append u hnil, isSigned_append u' (mt hv.eq_nil.mp hnil), hv.signed]
  · rcases List.mem_append.mp hc with hc | hc
    · exact hu.chars (fun c hc => h c (List.mem_append_left _ hc)) c hc
    · exact hv.chars (fun c hc => h c (List.mem_append_right _ hc)) c hc

theorem isSigned_name {w : List Char} (hw : IsName w) : isSigned w = false := by
  cases h : w.getLast? with
  | none => rw [isSigned, h, Option.any_none]
  | some c =>
    have hc := hw.chars c (List.mem_of_getLast? h)
    rw [isSigned, h, Option.any_some]
    by_contra hsign
    rw [Bool.not_eq_false, isSign, Bool.or_eq_true, beq_iff_eq, beq_iff_eq] at hsign
    rcases hsign with rfl | rfl <;> cases hc

theorem alike_name {w w' : List Char} (hw : IsName w) (hw' : IsName w') : Alike w' w :=
  ⟨by simp [hw.ne_nil, hw'.ne_nil], by rw [isSigned_name hw, isSigned_name hw'],
    fun _ c hc => isWordChar_of_isIdChar (hw'.chars c hc)⟩

/-- A word whose parts were replaced ends where it did before. -/
theorem alike_reword (hf : KeepsPlaces f) (st : Stance) (w : List Char) :
    Alike (reword f st w).1 w := by
  induction st, w using word_induction with
  | nil st =>
    rw [reword_nil]
    exact .refl []
  | tail p w =>
    rw [reword_tail]
    exact .refl w
  | keyword p w rest hname hwith hstop =>
    rw [reword_with hname hwith hstop]
    exact .refl _
  | name p w rest hname hwith hstop ih =>
    rw [reword_name hname hwith hstop]
    refine .append ?_ ih
    cases p with
    | true => exact .refl w
    | false => exact alike_name hname (hf.getD hname hwith).1
  | other p c cs hc ih =>
    rw [reword_other hc]
    exact Alike.append (.refl [c]) ih

theorem isWord_reword (hf : KeepsPlaces f) (st : Stance) {w : List Char} (hw : IsWord w) :
    IsWord (reword f st w).1 :=
  ⟨mt (alike_reword hf st w).eq_nil.mp hw.ne_nil, (alike_reword hf st w).chars hw.chars⟩

/-- What stops a word before its first character. -/
theorem breaks_cons {c : Char} {w rest : List Char} (h : Breaks w rest)
    (hc : ¬(isSign c = true ∧ (w ++ rest).head? = some '=')) : Breaks (c :: w) rest := by
  cases h with
  | nil => exact .nil
  | @cons a rest ha heq =>
    refine .cons ha fun he => ?_
    cases w with
    | nil =>
      rw [isSigned, List.getLast?_singleton, Option.any_some, ← Bool.not_eq_true]
      exact fun hsign => hc ⟨hsign, by rw [he]; rfl⟩
    | cons b w =>
      rw [isSigned, List.getLast?_cons_cons]
      exact heq he
  | operator ha => exact .operator ha

/-- A word is taken up to something that ends it. -/
theorem takeWord_breaks (taken cs : List Char) :
    ∃ w rest, takeWord taken cs = (taken.reverse ++ w, rest) ∧ cs = w ++ rest ∧
      (∀ c ∈ w, isWordChar c = true) ∧ Breaks w rest := by
  induction cs generalizing taken with
  | nil => exact ⟨[], [], by simp [takeWord], rfl, by simp, .nil⟩
  | cons c cs ih =>
    rw [takeWord]
    split
    · rename_i hc
      obtain ⟨w, rest, hrun, rfl, hw, hb⟩ := ih (c :: taken)
      rw [Bool.and_eq_true, Bool.not_eq_true'] at hc
      refine ⟨c :: w, rest, by simp [hrun], rfl, List.forall_mem_cons.mpr ⟨hc.1, hw⟩, ?_⟩
      refine breaks_cons hb ?_
      rintro ⟨hsign, hhead⟩
      have hop : (isSign c && (w ++ rest).head? == some '=') = false := hc.2
      rw [hsign, hhead] at hop
      cases hop
    · rename_i hc
      refine ⟨[], c :: cs, by simp, rfl, by simp, ?_⟩
      -- a word ends before a character of no word, or before a sign that an equals sign follows
      by_cases hword : isWordChar c = true
      · rw [hword, Bool.true_and, Bool.not_eq_true', Bool.not_eq_false, Bool.and_eq_true,
          beq_iff_eq] at hc
        obtain ⟨cs, rfl⟩ := List.head?_eq_some_iff.mp hc.2
        exact .operator hc.1
      · exact .cons (Bool.eq_false_iff.mpr hword) fun _ => rfl

/-! ## What follows a word -/

/-- An operator that starts with a sign stays. -/
theorem passes_operator {c : Char} (hc : isSign c = true) (d : Nat) (st : Stance)
    (rest : List Char) : Passes f d st (c :: '=' :: rest) [c, '='] d st rest := by
  have hsign : c = '+' ∨ c = '-' := by simpa [isSign] using hc
  have hinline : IsInline c := by
    rcases hsign with rfl | rfl <;> exact ⟨by decide, by decide⟩
  exact (passes_inline hinline d st ('=' :: rest)).trans
    (passes_inline ⟨by decide, by decide⟩ d st rest)

theorem not_isIdChar_of_not_isWordChar {c : Char} (hc : isWordChar c = false) :
    isIdChar c = false := by
  by_contra hid
  rw [isWordChar_of_isIdChar (Bool.eq_true_of_not_eq_false hid)] at hc
  cases hc

/-- What ended a word still ends it. -/
theorem breaks_replaceFrom (hf : KeepsPlaces f) {w w' rest : List Char} (h : Breaks w rest)
    (halike : Alike w' w) (d : Nat) (st : Stance) : Breaks w' (replaceFrom f d st rest) := by
  cases h with
  | nil =>
    rw [replaceFrom_nil]
    exact .nil
  | @cons c rest hc heq =>
    obtain ⟨out, hout⟩ := exists_cons_of_lead (not_isIdChar_of_not_isWordChar hc)
      (lead_replaceFrom hf d st (c :: rest))
    rw [hout]
    exact .cons hc fun he => halike.signed.trans (heq he)
  | @operator c rest hc =>
    rw [(passes_operator hc d st rest).text]
    exact .operator hc

theorem not_isIdChar_of_breaks {w rest : List Char} (h : Breaks w rest) :
    rest.head?.any isIdChar = false := by
  cases h with
  | nil => rfl
  | @cons c rest hc heq =>
    rw [List.head?_cons, Option.any_some]
    exact not_isIdChar_of_not_isWordChar hc
  | @operator c rest hc =>
    have hsign : c = '+' ∨ c = '-' := by simpa [isSign] using hc
    rcases hsign with rfl | rfl <;> rfl

/-! ## Gaps -/

theorem isInline_of_isLineBlank {c : Char} (hc : isLineBlank c = true) : IsInline c := by
  constructor
  · by_contra hid
    have hword := isWordChar_of_isIdChar (Bool.eq_true_of_not_eq_false hid)
    rw [isLineBlank_of_isWordChar hword] at hc
    cases hc
  · intro hmem
    have hnone : ['"', '/', ':', '\n', ';', '\x7b', '\x7d'].all (!isLineBlank ·) = true := by decide
    have hnot := List.all_eq_true.mp hnone c hmem
    rw [hc] at hnot
    cases hnot

theorem coarse_isLineBlank : Coarse isLineBlank := by
  have hid (c : Char) (hc : isIdChar c = true) : isLineBlank c = false :=
    isLineBlank_of_isWordChar (isWordChar_of_isIdChar hc)
  intro c hc
  rw [hid c hc, hid 'a' (by decide)]

/-- Where a token starts, nothing is skipped. -/
theorem skip_eq_self {out : List Char} (hblank : out.head?.any isLineBlank = false)
    (hslash : out.head?.any (· == '/') = false) : skip out = out := by
  cases out with
  | nil => rfl
  | cons c out => exact Scanner.skip_cons hblank (by simpa using hslash)

theorem skip_word {w : List Char} (hw : IsWord w) (out : List Char) :
    skip (w ++ out) = w ++ out := by
  obtain ⟨hne, hchars⟩ := hw
  obtain ⟨c, w, rfl⟩ := List.exists_cons_of_ne_nil hne
  have hc := hchars c (List.mem_cons_self ..)
  exact Scanner.skip_cons (isLineBlank_of_isWordChar hc) (ne_of_isWordChar hc (by decide))

/-- What separates tokens on a line stays. -/
theorem skip_replaceFrom (hf : KeepsPlaces f) {d : Nat} {st : Stance} {cs : List Char}
    (ht : Tidy d st cs) (hslash : (skip cs).head?.any (· == '/') = false) :
    skip (replaceFrom f d st cs) = replaceFrom f d st (skip cs) ∧ Tidy d st (skip cs) := by
  -- blanks one by one, then a comment to the end of its line, which skipping stops at
  induction cs with
  | nil =>
    rw [replaceFrom_nil]
    exact ⟨(replaceFrom_nil d st).symm, ht⟩
  | cons c cs ih =>
    by_cases hblank : isLineBlank c = true
    · have hskip (x : List Char) : skip (c :: x) = skip x := by
        rw [skip, List.dropWhile_cons_of_pos hblank, skip]
      have hpasses : Passes f d st (c :: cs) [c] d st cs :=
        passes_inline (isInline_of_isLineBlank hblank) d st cs
      rw [hskip] at hslash ⊢
      rw [hpasses.text, List.singleton_append, hskip]
      exact ih (hpasses.tidy ht) hslash
    · by_cases hcomment : c = '/' ∧ cs.head? = some '/'
      · obtain ⟨rfl, hhead⟩ := hcomment
        obtain ⟨cs, rfl⟩ := List.head?_eq_some_iff.mp hhead
        have hskip (x : List Char) : skip ('/' :: '/' :: x) = x.dropWhile (· != '\n') := rfl
        have hpasses := passes_comment (f := f) ht
        have hlead := lead_replaceFrom hf d st (cs.dropWhile (· != '\n'))
        obtain ⟨-, hbehind⟩ := stretch_append coarse_ne_newline hlead
        rw [hskip, hpasses.text, List.cons_append, List.cons_append, hskip, hbehind]
        exact ⟨rfl, hpasses.tidy ht⟩
      · have hskip : skip (c :: cs) = c :: cs := by
          rw [skip, List.dropWhile_cons_of_neg hblank, skipComment]
          rintro rest h
          obtain ⟨rfl, rfl⟩ := List.cons.inj h
          exact hcomment ⟨rfl, rfl⟩
        rw [hskip] at hslash ⊢
        have hlead := lead_replaceFrom hf d st (c :: cs)
        refine ⟨skip_eq_self ?_ ?_, ht⟩
        · exact (any_head?_of_lead coarse_isLineBlank hlead).trans (by simpa using hblank)
        · exact (any_head?_of_lead (coarse_beq (by decide)) hlead).trans hslash

/-! ## Tokens -/

/-- A token as a replacement leaves it, and the stance behind it. The ends of commands end what
stands behind `WITH`. -/
def rewordToken (f : List Char → Option (List Char)) (st : Stance) (t : Token) : Token × Stance :=
  match t.kind with
  | .word =>
    ({ t with text := String.ofList (reword f st t.text.toList).1 },
      (reword f st t.text.toList).2)
  | .newline | .semicolon | .closeBrace => (t, st.closed)
  | _ => (t, st)

/-- Tokens as a replacement leaves them. -/
def retoken (f : List Char → Option (List Char)) : Stance → List Token → List Token
  | _, [] => []
  | st, t :: ts => (rewordToken f st t).1 :: retoken f (rewordToken f st t).2 ts

/-- A scanner at a text, and any other one at the text with words replaced: it finds the tokens that
the first one finds, with words replaced. -/
def Tracks (f : List Char → Option (List Char))
    (go : Scanner → List Char → Except (Nat × Fault) Tokens) (s : Scanner) (st : Stance)
    (cs : List Char) : Prop :=
  ∀ (s' : Scanner) (ts : Tokens), s'.line = s.line → s'.depth = s.depth → go s cs = .ok ts →
    ∃ found, ts.tokens = s.found.reverse ++ found ∧
      go s' (replaceFrom f s.depth st cs) =
        .ok ⟨s'.found.reverse ++ retoken f st found, ts.lastLine⟩

variable {go : Scanner → List Char → Except (Nat × Fault) Tokens}

theorem tracks_of_error {s : Scanner} {st : Stance} {cs : List Char} {fault : Nat × Fault}
    (h : go s cs = .error fault) : Tracks f go s st cs := by
  intro s' ts _ _ hok
  rw [h] at hok
  cases hok

/-- Some tokens, and what the scanners find behind them. -/
theorem Tracks.step {s : Scanner} {st st₁ : Stance} {cs rest : List Char} (s₁ : Scanner)
    (ts ts' : List Token)
    (hrun : go s cs = s₁.run rest) (hfound : s₁.found = ts.reverse ++ s.found)
    (hts : ∀ found, retoken f st (ts ++ found) = ts' ++ retoken f st₁ found)
    (hrun' : ∀ s' : Scanner, s'.line = s.line → s'.depth = s.depth → ∃ s₁' : Scanner,
      go s' (replaceFrom f s.depth st cs) = s₁'.run (replaceFrom f s₁.depth st₁ rest) ∧
        s₁'.found = ts'.reverse ++ s'.found ∧ s₁'.line = s₁.line ∧ s₁'.depth = s₁.depth)
    (ih : Tracks f Scanner.run s₁ st₁ rest) : Tracks f go s st cs := by
  intro s' tokens hline hdepth h
  obtain ⟨s₁', hgoes, hfound', hline', hdepth'⟩ := hrun' s' hline hdepth
  obtain ⟨found, htokens, hok⟩ := ih s₁' tokens hline' hdepth' (hrun ▸ h)
  refine ⟨ts ++ found, ?_, ?_⟩
  · rw [htokens, hfound, List.reverse_append, List.reverse_reverse, List.append_assoc]
  · rw [hgoes, hok, hfound', hts, List.reverse_append, List.reverse_reverse, List.append_assoc]

/-- A mark at which a command may end. -/
theorem passes_end {d : Nat} {st : Stance} {c : Char} {rest : List Char}
    (hc : c = '\n' ∨ c = ';' ∨ c = '\x7d') (ht : Tidy d st (c :: rest)) :
    Passes f d st (c :: rest) [c] (Cutter.depthAfter d c) st.closed rest := by
  have hplain : IsPlain c := by
    rcases hc with rfl | rfl | rfl <;> exact ⟨by decide, by decide⟩
  cases st with
  | free p => exact passes_plain hplain rest
  | tail p =>
    by_cases hends : endsCommand (0 < d) c = true
    · exact (passes_tail_closed hends).trans (passes_plain hplain rest)
    · have hslash : c ≠ '/' := by rcases hc with rfl | rfl | rfl <;> decide
      have hchar := tidy_tail_char ht (Bool.eq_false_iff.mpr hends) hslash
      rcases hc with rfl | rfl | rfl
      · simp [endsCommand] at hends
      · cases hchar
      · cases hchar

theorem passes_openBrace {d : Nat} {st : Stance} {rest : List Char}
    (ht : Tidy d st ('\x7b' :: rest)) :
    Passes f d st ('\x7b' :: rest) ['\x7b'] (d + 1) st rest := by
  cases st with
  | free p => exact passes_plain ⟨by decide, by decide⟩ rest
  | tail p =>
    have hchar := tidy_tail_char ht (by simp [endsCommand]) (by decide)
    cases hchar

/-- A token that a replacement leaves as it is. -/
theorem tracks_push {s : Scanner} {st st₁ : Stance} {cs rest u : List Char} (s₁ : Scanner)
    (kind : TokenKind) (text : List Char)
    (hpasses : Passes f s.depth st cs u s₁.depth st₁ rest)
    (hkept : ∀ line, rewordToken f st ⟨kind, String.ofList text, line⟩ =
      (⟨kind, String.ofList text, line⟩, st₁))
    (hrun : s.runAt cs = s₁.run rest) (hfound : s₁.found = (s.push kind text).found)
    (hrun' : ∀ s' : Scanner, s'.line = s.line → s'.depth = s.depth → ∃ s₁' : Scanner,
      s'.runAt (u ++ replaceFrom f s₁.depth st₁ rest) = s₁'.run (replaceFrom f s₁.depth st₁ rest) ∧
        s₁'.found = (s'.push kind text).found ∧ s₁'.line = s₁.line ∧ s₁'.depth = s₁.depth)
    (ih : Tracks f Scanner.run s₁ st₁ rest) : Tracks f Scanner.runAt s st cs := by
  refine .step s₁ [⟨kind, String.ofList text, s.line⟩] [⟨kind, String.ofList text, s.line⟩] hrun
    hfound (fun found => ?_) (fun s' hline hdepth => ?_) ih
  · rw [List.singleton_append, retoken, hkept, List.singleton_append]
  · obtain ⟨s₁', hgoes, hfound', hline', hdepth'⟩ := hrun' s' hline hdepth
    refine ⟨s₁', by rw [hpasses.text, hgoes], ?_, hline', hdepth'⟩
    rw [hfound', Scanner.push, hline]
    rfl

/-- The tokens that `::` and the text behind it make. -/
def rawTokens (line : Nat) (raw? : Option (List Char)) : List Token :=
  ⟨.doubleColon, String.ofList [':', ':'], line⟩ ::
    (raw?.map fun raw => ⟨.raw, String.ofList raw, line⟩).toList

theorem found_pushRaw (s : Scanner) (raw? : Option (List Char)) :
    ((s.push .doubleColon [':', ':']).pushRaw raw?).found =
        (rawTokens s.line raw?).reverse ++ s.found ∧
      ((s.push .doubleColon [':', ':']).pushRaw raw?).line = s.line ∧
      ((s.push .doubleColon [':', ':']).pushRaw raw?).depth = s.depth := by
  cases raw? <;> exact ⟨rfl, rfl, rfl⟩

/-- The scanners agree, wherever they stand, on the texts that are shorter than a bound. -/
def TracksBelow (f : List Char → Option (List Char)) (bound : Nat) : Prop :=
  ∀ (s : Scanner) (st : Stance) (rest : List Char), rest.length < bound →
    Tidy s.depth st rest → Tracks f Scanner.run s st rest

section tokens

variable {s : Scanner} {st : Stance} {rest : List Char}

theorem tracks_nil (s : Scanner) (st : Stance) : Tracks f Scanner.runAt s st [] := by
  intro s' ts hline hdepth h
  cases h
  refine ⟨[], (List.append_nil _).symm, ?_⟩
  rw [replaceFrom_nil, Scanner.runAt, hline, retoken, List.append_nil]

theorem tracks_newline (ih : TracksBelow f ('\n' :: rest).length)
    (ht : Tidy s.depth st ('\n' :: rest)) : Tracks f Scanner.runAt s st ('\n' :: rest) := by
  have hpasses := passes_end (f := f) (.inl rfl) ht
  refine tracks_push { s.push .newline ['\n'] with line := s.line + 1 } .newline ['\n'] hpasses
    (fun _ => rfl) rfl rfl (fun s' hline hdepth => ?_) (ih _ _ _ (by simp) (hpasses.tidy ht))
  exact ⟨_, rfl, rfl, congrArg (· + 1) hline, hdepth⟩

/-- A quoted text that closes stays as it is. -/
theorem tracks_quoted {text rest' : List Char} (hq : readQuoted [] rest = .ok (text, rest'))
    (ih : TracksBelow f ('"' :: rest).length) (ht : Tidy s.depth st ('"' :: rest)) :
    Tracks f Scanner.runAt s st ('"' :: rest) := by
  obtain ⟨u, rfl, hu, hread⟩ := readQuoted_closes hq
  have hpasses := passes_quoted (f := f) hu s.depth st rest'
  refine tracks_push (s.push .quoted text) .quoted text hpasses (fun _ => rfl) ?_ rfl
    (fun s' hline hdepth => ?_) (ih _ _ _ (by simp) (hpasses.tidy ht))
  · rw [Scanner.runAt, hread]
  · refine ⟨_, ?_, rfl, hline, hdepth⟩
    rw [List.cons_append, Scanner.runAt, hread]

/-- A text without quotes behind `::` stays as it is, and ends where it did. -/
theorem tracks_raw (hf : KeepsPlaces f) (ih : TracksBelow f (':' :: ':' :: rest).length)
    (ht : Tidy s.depth st (':' :: ':' :: rest)) :
    Tracks f Scanner.runAt s st (':' :: ':' :: rest) := by
  cases st with
  | tail p =>
    -- no tidy text has a colon behind `WITH`
    have hchar := tidy_tail_char ht (by simp [endsCommand]) (by decide)
    cases hchar
  | free p =>
    obtain ⟨u, rest', hshape⟩ := exists_rawShape (0 < s.depth) rest
    have hpasses := passes_raw (f := f) (p := p) hshape
    have hlead := lead_replaceFrom hf s.depth (.free p) rest'
    have hread := hshape.readRaw_append rfl
    rw [hshape.append_eq] at hread
    have hread' := hshape.readRaw_append hlead
    generalize (readRaw (0 < s.depth) rest).1 = raw? at hread hread'
    have hkept (found : List Token) : retoken f (.free p) (rawTokens s.line raw? ++ found) =
        rawTokens s.line raw? ++ retoken f (.free p) found := by
      cases raw? <;> rfl
    obtain ⟨hfound, hline₁, hdepth₁⟩ := found_pushRaw s raw?
    refine .step _ (rawTokens s.line raw?) (rawTokens s.line raw?) ?_ hfound hkept
      (fun s' hline hdepth => ?_) (ih _ _ rest' ?_ (hdepth₁ ▸ hpasses.tidy ht))
    · rw [Scanner.runAt, hread]
    · obtain ⟨hfound', hline₁', hdepth₁'⟩ := found_pushRaw s' raw?
      refine ⟨_, ?_, hline ▸ hfound', hline₁'.trans (hline.trans hline₁.symm),
        hdepth₁'.trans (hdepth.trans hdepth₁.symm)⟩
      rw [hpasses.text, List.cons_append, List.cons_append, Scanner.runAt, hdepth, hread',
        hdepth₁]
    · rw [← hshape.append_eq, List.length_cons, List.length_cons, List.length_append]
      omega

/-- An operator of two characters stays. -/
theorem tracks_operator {c : Char} {kind : TokenKind} (hc : isSign c = true)
    (hkept : ∀ text line, rewordToken f st ⟨kind, text, line⟩ = (⟨kind, text, line⟩, st))
    (hrun : ∀ (s : Scanner) (rest : List Char),
      s.runAt (c :: '=' :: rest) = (s.push kind [c, '=']).run rest)
    (ih : TracksBelow f (c :: '=' :: rest).length) (ht : Tidy s.depth st (c :: '=' :: rest)) :
    Tracks f Scanner.runAt s st (c :: '=' :: rest) := by
  have hpasses := passes_operator (f := f) hc s.depth st rest
  refine tracks_push (s.push kind [c, '=']) kind [c, '='] hpasses (hkept _) (hrun s rest) rfl
    (fun s' hline hdepth => ?_) (ih _ _ _ (by simp) (hpasses.tidy ht))
  exact ⟨s'.push kind [c, '='], hrun s' _, rfl, hline, hdepth⟩

/-- How a replacement passes a mark of one character. What is behind a mark where a command ends is
no longer behind `WITH`. -/
theorem passes_mark {c : Char} {kind : TokenKind} (hkind : markKind? c = some kind)
    (ht : Tidy s.depth st (c :: rest)) :
    ∃ st₁, Passes f s.depth st (c :: rest) [c] (depthAfter s.depth kind) st₁ rest ∧
      ∀ text line, rewordToken f st ⟨kind, text, line⟩ = (⟨kind, text, line⟩, st₁) := by
  unfold markKind? at hkind
  split at hkind <;> cases hkind
  · exact ⟨st, passes_inline ⟨by decide, by decide⟩ s.depth st rest, fun _ _ => rfl⟩
  · exact ⟨st, passes_inline ⟨by decide, by decide⟩ s.depth st rest, fun _ _ => rfl⟩
  · exact ⟨st.closed, passes_end (.inr (.inl rfl)) ht, fun _ _ => rfl⟩
  · exact ⟨st, passes_openBrace ht, fun _ _ => rfl⟩
  · exact ⟨st.closed, passes_end (.inr (.inr rfl)) ht, fun _ _ => rfl⟩

theorem tracks_mark {c : Char} {kind : TokenKind} (hkind : markKind? c = some kind)
    (ih : TracksBelow f (c :: rest).length) (ht : Tidy s.depth st (c :: rest)) :
    Tracks f Scanner.runAt s st (c :: rest) := by
  have hlone (out : List Char) : Scanner.Lone c out := Scanner.lone_of_markKind? hkind out
  obtain ⟨st₁, hpasses, hkept⟩ := passes_mark (f := f) hkind ht
  refine tracks_push { s.push kind [c] with depth := depthAfter s.depth kind } kind [c] hpasses
    (hkept _) (Scanner.runAt_mark (hlone rest) hkind) rfl (fun s' hline hdepth => ?_)
    (ih _ _ _ (by simp) (hpasses.tidy ht))
  exact ⟨_, Scanner.runAt_mark (hlone _) hkind, rfl, hline,
    congrArg (depthAfter · kind) hdepth⟩

/-- A word is found with its parts replaced, and ends where it did. -/
theorem tracks_word (hf : KeepsPlaces f) {c : Char} {w rest' : List Char}
    (hword : IsWord (c :: w)) (hbreaks : Breaks (c :: w) rest')
    (ih : TracksBelow f (c :: (w ++ rest')).length) (ht : Tidy s.depth st (c :: (w ++ rest'))) :
    Tracks f Scanner.runAt s st (c :: (w ++ rest')) := by
  obtain ⟨hc, hw⟩ := List.forall_mem_cons.mp hword.chars
  have hpasses := passes_reword (f := f) hword.chars (not_isIdChar_of_breaks hbreaks) s.depth st
  have hword' := isWord_reword hf st hword
  have hout := breaks_replaceFrom hf hbreaks (alike_reword hf st (c :: w)) s.depth
    (reword f st (c :: w)).2
  refine .step (s.push .word (c :: w)) [⟨.word, String.ofList (c :: w), s.line⟩]
    [⟨.word, String.ofList (reword f st (c :: w)).1, s.line⟩] ?_ rfl
    (fun found => ?_) (fun s' hline hdepth => ?_) (ih _ _ rest' ?_ (hpasses.tidy ht))
  · rw [Scanner.runAt_word (Scanner.lone_of_isWordChar hc hw hbreaks)
      (markKind?_of_isWordChar hc) hc, takeWord_append hw hbreaks.tail]
    rfl
  · rw [List.singleton_append, retoken, rewordToken, String.toList_ofList]
    rfl
  · refine ⟨s'.push .word (reword f st (c :: w)).1, ?_, ?_, hline, hdepth⟩
    · have htext := hpasses.text
      rw [List.cons_append] at htext
      -- the replaced word may start with another character, so it is passed as a whole
      rw [htext, ← skip_word hword', ← Scanner.run_eq, Scanner.run_word s' hword' hout]
      rfl
    · rw [Scanner.push, hline]
      rfl
  · rw [List.length_cons, List.length_append]
    omega

end tokens

/-- At a token: one kind of token after the other. -/
theorem tracks_runAt (hf : KeepsPlaces f) {cs : List Char} (ih : TracksBelow f cs.length)
    (s : Scanner) (st : Stance) (ht : Tidy s.depth st cs) : Tracks f Scanner.runAt s st cs := by
  fun_cases Scanner.runAt s cs with
  | case1 => exact tracks_nil s st
  | case2 rest => exact tracks_newline ih ht
  | case3 rest text rest' hq => exact tracks_quoted hq ih ht
  | case4 rest fault hq =>
    have herror : s.runAt ('"' :: rest) = .error (s.line, fault) := by
      rw [Scanner.runAt, hq]
    exact tracks_of_error herror
  | case5 rest => exact tracks_raw hf ih ht
  | case6 rest => exact tracks_operator (c := '+') rfl (fun _ _ => rfl) (fun _ _ => rfl) ih ht
  | case7 rest => exact tracks_operator (c := '-') rfl (fun _ _ => rfl) (fun _ _ => rfl) ih ht
  | case8 c rest h₁ h₂ h₃ h₄ h₅ kind hkind => exact tracks_mark hkind ih ht
  | case9 c rest h₁ h₂ h₃ h₄ h₅ hkind hc =>
    obtain ⟨w, rest', htake, rfl, hw, hbreaks⟩ := takeWord_breaks [c] rest
    have hword : IsWord (c :: w) := ⟨List.cons_ne_nil _ _, List.forall_mem_cons.mpr ⟨hc, hw⟩⟩
    refine tracks_word hf hword (breaks_cons hbreaks ?_) ih ht
    -- a sign before an equals sign is an operator, not a word
    rintro ⟨hsign, hhead⟩
    obtain ⟨cs, hcs⟩ := List.head?_eq_some_iff.mp hhead
    have hc : c = '+' ∨ c = '-' := by simpa [isSign] using hsign
    rcases hc with rfl | rfl
    · exact h₄ cs rfl hcs
    · exact h₅ cs rfl hcs
  | case10 c rest h₁ h₂ h₃ h₄ h₅ hkind hc =>
    exact tracks_of_error (Scanner.runAt_unexpected ⟨h₁, h₂, h₃, h₄, h₅⟩ hkind hc)

/-- **A scanner finds the tokens that it found before**, with words replaced in them, in any tidy
text. -/
theorem tracks_run (hf : KeepsPlaces f) (s : Scanner) (st : Stance) (cs : List Char)
    (ht : Tidy s.depth st cs) : Tracks f Scanner.run s st cs := by
  by_cases hslash : (skip cs).head?.any (· == '/') = false
  · obtain ⟨hskip, htidy⟩ := skip_replaceFrom hf ht hslash
    have hat : Tracks f Scanner.runAt s st (skip cs) :=
      tracks_runAt hf (fun s st rest hlt ht => tracks_run hf s st rest ht) s st htidy
    intro s' ts hline hdepth h
    rw [Scanner.run_eq] at h
    rw [Scanner.run_eq, hskip]
    exact hat s' ts hline hdepth h
  · -- A slash that starts no comment starts no token either.
    rw [Bool.not_eq_false] at hslash
    cases hskip : skip cs with
    | nil =>
      rw [hskip] at hslash
      cases hslash
    | cons c rest =>
      rw [hskip, List.head?_cons, Option.any_some, beq_iff_eq] at hslash
      subst hslash
      have herror : s.run cs = .error (s.line, .unexpectedCharacter '/') := by
        rw [Scanner.run_eq, hskip]
        rfl
      exact tracks_of_error herror
termination_by cs.length
decreasing_by
  have := length_skip_le cs
  omega

/-- The tokens of a text with words replaced. -/
theorem scan_replaceWords (hf : KeepsPlaces f) {cs : List Char}
    (ht : tidyTails (segments cs) = true) {ts : Tokens} (h : scan cs = .ok ts) :
    scan (replaceWords f cs) = .ok ⟨retoken f (.free false) ts.tokens, ts.lastLine⟩ := by
  obtain ⟨found, hfound, hrun⟩ := tracks_run hf {} (.free false) cs ht {} ts rfl rfl h
  rw [scan, replaceWords_eq]
  rw [List.reverse_nil, List.nil_append] at hfound
  rw [hfound]
  exact hrun

end BlockDocument
