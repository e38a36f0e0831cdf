import Mathlib
import BlockDocument.Proofs.Command.Scan
import BlockDocument.Proofs.Numbering.Cut

/-!
# Replacing words from anywhere in a text

A replacement that is under way stands either among words that it replaces or behind `WITH`, where
everything stays as it is up to the end of the command. This module says how it passes from one
character or word to the next, in either stance. Behind `WITH` it may lose its place: a command ends
there at marks that it does not look for, and a comment is none for it. Texts where this happens
nowhere are tidy.
-/

namespace BlockDocument

open Command (endsCommand isRawBlank isWordChar isLineBlank)
open Reference (isIdChar)
open Cutter (Step cut cut_of_step cut_nil)

/-! ## Tidy texts -/

/-- Whether a stretch behind `WITH` holds nothing outside quotes but words, blanks, equals signs and
commas. A comment may close it if it runs to the end of its line. -/
def tidy (wholeLine : Bool) : QuoteState → List Char → Bool
  | _, [] => true
  | .outside, '/' :: '/' :: _ => wholeLine
  | .outside, c :: rest =>
    (isWordChar c || isLineBlank c || c == '=' || c == ',' || c == '"') &&
      tidy wholeLine (if c = '"' then .inside else .outside) rest
  | q, c :: rest => tidy wholeLine (q.next c) rest

/-- Whether a line ends before these pieces. -/
def endsLine (pieces : List Segment) : Bool := pieces.head?.all (· == .verbatim ['\n'])

/-- The stretch that a piece which starts with `WITH` holds behind it. -/
def Segment.tail? : Segment → Option (List Char)
  | .word _ => none
  | .verbatim cs =>
    if isWith (cs.takeWhile isIdChar) then some (cs.dropWhile isIdChar) else none

/-- Whether every stretch behind `WITH` is tidy. -/
def tidyTails : List Segment → Bool
  | [] => true
  | piece :: rest => piece.tail?.all (tidy (endsLine rest) .outside) && tidyTails rest

/-! ## Stances -/

/-- Where a replacement stands: among words, or behind `WITH`. In either case it remembers whether
the last word among others was one that a position follows. -/
inductive Stance where
  | free (positional : Bool)
  | tail (positional : Bool)
  deriving DecidableEq

/-- The stance after the end of a command. -/
def Stance.closed : Stance → Stance
  | free p => free p
  | tail p => free p

variable (f : List Char → Option (List Char))

/-- The text that stands for a text, from a stance and inside braces of the given number. -/
def replaceFrom (d : Nat) : Stance → List Char → List Char
  | .free p, cs => ((cut d p cs).map (Segment.replace f)).flatMap Segment.chars
  | .tail p, cs =>
    (takeTail (0 < d) [] .outside cs).1 ++
      ((cut d p (takeTail (0 < d) [] .outside cs).2).map (Segment.replace f)).flatMap Segment.chars

/-- A text that is tidy from a stance on. -/
def Tidy (d : Nat) : Stance → List Char → Prop
  | .free p, cs => tidyTails (cut d p cs) = true
  | .tail p, cs =>
    tidy (endsLine (cut d p (takeTail (0 < d) [] .outside cs).2)) .outside
        (takeTail (0 < d) [] .outside cs).1 = true ∧
      tidyTails (cut d p (takeTail (0 < d) [] .outside cs).2) = true

/-- From a place in a text, a replacement writes `u` and goes on at another place, and it stays in a
tidy text. -/
structure Passes (d : Nat) (st : Stance) (cs u : List Char) (d' : Nat) (st' : Stance)
    (rest : List Char) : Prop where
  text : replaceFrom f d st cs = u ++ replaceFrom f d' st' rest
  tidy : Tidy d st cs → Tidy d' st' rest

variable {f} {d d' : Nat} {p p' : Bool} {st st' : Stance} {cs rest u : List Char}

theorem Passes.trans {d'' : Nat} {st'' : Stance} {v rest' : List Char}
    (h : Passes f d st cs u d' st' rest) (h' : Passes f d' st' rest v d'' st'' rest') :
    Passes f d st cs (u ++ v) d'' st'' rest' :=
  ⟨by rw [h.text, h'.text, List.append_assoc], fun ht => h'.tidy (h.tidy ht)⟩

theorem replaceFrom_tail (d : Nat) (p : Bool) (cs : List Char) :
    replaceFrom f d (.tail p) cs =
      (takeTail (0 < d) [] .outside cs).1 ++
        replaceFrom f d (.free p) (takeTail (0 < d) [] .outside cs).2 :=
  rfl

theorem lead_replaceFrom (hf : KeepsPlaces f) (d : Nat) (st : Stance) (cs : List Char) :
    lead (replaceFrom f d st cs) = lead cs := by
  cases st with
  | free p => exact (Cutter.cut_replace hf d p cs).2
  | tail p =>
    obtain ⟨u, rest, hrun, rfl, -⟩ := takeTail_local (0 < d) [] .outside cs
    rw [replaceFrom, hrun]
    exact lead_append (Cutter.cut_replace hf d p rest).2

theorem replaceFrom_nil (d : Nat) (st : Stance) : replaceFrom f d st [] = [] := by
  cases st <;> simp [replaceFrom, takeTail, cut_nil]

/-! ## Among words -/

theorem passes_step {piece : Segment} (h : Step d p cs piece d' p' rest)
    (hpiece : piece.tail? = none) :
    Passes f d (.free p) cs (piece.replace f).chars d' (.free p') rest := by
  constructor
  · rw [replaceFrom, cut_of_step h]
    rfl
  · intro ht
    rw [Tidy, cut_of_step h, tidyTails, hpiece] at ht
    exact ht

/-- A character that makes a piece of its own. -/
structure IsPlain (c : Char) : Prop where
  not_id : isIdChar c = false
  not_mark : c ∉ ['"', '/', ':']

theorem passes_plain {c : Char} (hc : IsPlain c) (rest : List Char) :
    Passes f d (.free p) (c :: rest) [c] (Cutter.depthAfter d c) (.free p) rest := by
  have hne (x : Char) (hx : x ∈ ['"', '/', ':']) : c ≠ x := fun h => hc.not_mark (h ▸ hx)
  refine passes_step (.other hc.not_id (hne _ (by simp)) (fun h => hne '/' (by simp) h.1)
    (fun h => hne ':' (by simp) h.1)) ?_
  rw [Segment.tail?, List.takeWhile_cons_of_neg (by simp [hc.not_id])]
  rfl

/-! ## Behind `WITH` -/

theorem takeTail_eq (braced : Bool) (taken : List Char) (q : QuoteState) (cs : List Char) :
    takeTail braced taken q cs =
      (taken.reverse ++ (takeTail braced [] q cs).1, (takeTail braced [] q cs).2) := by
  induction cs generalizing taken q with
  | nil => simp [takeTail]
  | cons c rest ih =>
    by_cases hq : q = .outside
    · subst hq
      by_cases hc : endsCommand braced c = true
      · simp [takeTail, hc]
      · rw [takeTail, takeTail, if_neg hc, if_neg hc, ih, ih [c]]
        simp
    · by_cases hc : c = '\n'
      · subst hc
        rw [takeTail, takeTail, if_pos rfl, if_pos rfl]
        · simp
        · exact hq
        · exact hq
      · rw [takeTail, takeTail, if_neg hc, if_neg hc, ih, ih [c]]
        · simp
        · exact hq
        · exact hq

/-- A character that stands in a tidy stretch behind `WITH` and opens no quotes. -/
theorem passes_tail_cons {c : Char} (hc : endsCommand (0 < d) c = false) (hquote : c ≠ '"')
    (hslash : c ≠ '/') :
    Passes f d (.tail p) (c :: rest) [c] d (.tail p) rest := by
  have hrun : takeTail (0 < d) [] .outside (c :: rest) =
      (c :: (takeTail (0 < d) [] .outside rest).1, (takeTail (0 < d) [] .outside rest).2) := by
    rw [takeTail, if_neg (by simp [hc]), if_neg hquote, takeTail_eq]
    rfl
  constructor
  · rw [replaceFrom_tail, hrun]
    rfl
  · rintro ⟨htail, hrest⟩
    rw [hrun] at htail hrest
    refine ⟨?_, hrest⟩
    rw [tidy] at htail
    · rw [Bool.and_eq_true, if_neg hquote] at htail
      exact htail.2
    · exact fun _ h _ => hslash h

/-- A character that may stand between words anywhere in a command. -/
structure IsInline (c : Char) : Prop where
  not_id : isIdChar c = false
  not_mark : c ∉ ['"', '/', ':', '\n', ';', '\x7b', '\x7d']

theorem passes_inline {c : Char} (hc : IsInline c) (d : Nat) (st : Stance) (rest : List Char) :
    Passes f d st (c :: rest) [c] d st rest := by
  have hne (x : Char) (hx : x ∈ ['"', '/', ':', '\n', ';', '\x7b', '\x7d']) : c ≠ x :=
    fun h => hc.not_mark (h ▸ hx)
  cases st with
  | free p =>
    have hpasses := passes_plain (f := f) (d := d) (p := p)
      ⟨hc.not_id, by simp [hne]⟩ rest
    rwa [Cutter.depthAfter, if_neg (hne _ (by simp)), if_neg (hne _ (by simp))] at hpasses
  | tail p =>
    refine passes_tail_cons ?_ (hne _ (by simp)) (hne _ (by simp))
    simp [endsCommand, hne]

/-- What stands in a tidy stretch behind `WITH`. -/
theorem tidy_tail_char {c : Char} (h : Tidy d (.tail p) (c :: rest))
    (hc : endsCommand (0 < d) c = false) (hslash : c ≠ '/') :
    (isWordChar c || isLineBlank c || c == '=' || c == ',' || c == '"') = true := by
  obtain ⟨htail, -⟩ := h
  rw [takeTail, if_neg (by simp [hc]), takeTail_eq, List.reverse_singleton, List.singleton_append,
    tidy] at htail
  · exact (Bool.and_eq_true_iff.mp htail).1
  · exact fun _ h _ => hslash h

theorem passes_tail_closed {c : Char} (hc : endsCommand (0 < d) c = true) :
    Passes f d (.tail p) (c :: rest) [] d (.free p) (c :: rest) := by
  have hrun : takeTail (0 < d) [] .outside (c :: rest) = ([], c :: rest) := by
    rw [takeTail, if_pos hc, List.reverse_nil]
  constructor
  · rw [replaceFrom_tail, hrun]
  · rintro ⟨-, hrest⟩
    rwa [hrun] at hrest

/-! ## Quoted texts -/

/-- A text that runs up to the quote that closes it. -/
def Closes : QuoteState → List Char → Prop
  | .outside, cs => cs = []
  | _, [] => False
  | q, c :: cs => c ≠ '\n' ∧ Closes (q.next c) cs

theorem takeQuoted_closes {q : QuoteState} (h : Closes q u) (taken out : List Char) :
    takeQuoted taken q (u ++ out) = (taken.reverse ++ u, out) := by
  induction u generalizing q taken with
  | nil => cases q <;> simp_all [Closes, takeQuoted]
  | cons c u ih =>
    cases q with
    | outside => cases h
    | _ =>
      obtain ⟨hc, hu⟩ := h
      rw [List.cons_append, takeQuoted, if_neg hc, ih hu]
      · simp
      · rintro ⟨⟩

theorem takeTail_closes {q : QuoteState} (h : Closes q u) (braced : Bool) (taken out : List Char) :
    takeTail braced taken q (u ++ out) = takeTail braced (u.reverse ++ taken) .outside out := by
  induction u generalizing q taken with
  | nil => cases q <;> simp_all [Closes]
  | cons c u ih =>
    cases q with
    | outside => cases h
    | _ =>
      obtain ⟨hc, hu⟩ := h
      rw [List.cons_append, takeTail, if_neg hc, ih hu]
      · simp
      · rintro ⟨⟩

theorem tidy_closes {q : QuoteState} (h : Closes q u) (wholeLine : Bool) (out : List Char) :
    tidy wholeLine q (u ++ out) = tidy wholeLine .outside out := by
  induction u generalizing q with
  | nil => cases q <;> simp_all [Closes]
  | cons c u ih =>
    cases q with
    | outside => cases h
    | _ =>
      obtain ⟨hc, hu⟩ := h
      rw [List.cons_append, tidy, ih hu]
      all_goals simp

theorem readQuoted_closes {read cs text rest : List Char}
    (h : Command.readQuoted read cs = .ok (text, rest)) :
    ∃ u, cs = u ++ rest ∧ Closes .inside u ∧
      ∀ out, Command.readQuoted read (u ++ out) = .ok (text, out) := by
  -- the text closes at the first quote that no backslash stands before, whatever follows it
  fun_induction Command.readQuoted read cs with
  | case1 read rest' =>
    cases h
    exact ⟨['"'], rfl, ⟨by decide, rfl⟩, fun out => rfl⟩
  | case2 read e cs c he ih =>
    obtain ⟨u, rfl, hu, hread⟩ := ih h
    refine ⟨'\\' :: e :: u, rfl, ⟨by decide, ?_, hu⟩, fun out => ?_⟩
    · rintro rfl
      cases he
    · rw [List.cons_append, List.cons_append, Command.readQuoted]
      simp only [he, hread]
  | case3 => cases h
  | case4 => cases h
  | case5 read c cs hquote hescape hc ih =>
    obtain ⟨u, rfl, hu, hread⟩ := ih h
    have hnext : QuoteState.next c .inside = .inside := by
      rw [QuoteState.next, if_neg hquote, if_neg fun h => hc (.inr h)]
      rintro ⟨⟩
    refine ⟨c :: u, rfl, ⟨fun h => hc (.inl h), by rwa [hnext]⟩, fun out => ?_⟩
    rw [List.cons_append, Command.readQuoted, if_neg hc, hread]
    · exact hquote
    · exact fun _ _ h _ => hc (.inr h)
  | case6 => cases h

theorem passes_quoted (hu : Closes .inside u) (d : Nat) (st : Stance) (rest : List Char) :
    Passes f d st ('"' :: (u ++ rest)) ('"' :: u) d st rest := by
  cases st with
  | free p =>
    have hstep := Step.quoted d p (u ++ rest)
    rw [takeQuoted_closes hu] at hstep
    exact passes_step hstep rfl
  | tail p =>
    have hrun : takeTail (0 < d) [] .outside ('"' :: (u ++ rest)) =
        ('"' :: u ++ (takeTail (0 < d) [] .outside rest).1,
          (takeTail (0 < d) [] .outside rest).2) := by
      have hc : ¬ endsCommand (0 < d) '"' = true := by
        simp [endsCommand]
      rw [takeTail, if_neg hc, if_pos rfl, takeTail_closes hu, takeTail_eq]
      simp
    constructor
    · rw [replaceFrom_tail, hrun, replaceFrom_tail, List.append_assoc]
    · rintro ⟨htail, hrest⟩
      rw [hrun] at htail hrest
      refine ⟨?_, hrest⟩
      rw [List.cons_append, tidy, if_pos rfl, tidy_closes hu] at htail
      · exact (Bool.and_eq_true_iff.mp htail).2
      · exact fun _ h _ => by cases h

/-! ## Texts without quotes -/

theorem passes_raw {u rest' : List Char} (h : RawShape (0 < d) rest u rest') :
    Passes f d (.free p) (':' :: ':' :: rest) (':' :: ':' :: u) d (.free p) rest' := by
  have hstep := Step.raw d p rest
  rw [h.takeRaw_eq] at hstep
  exact passes_step hstep rfl

/-- Before a quoted text the scanner reads none that is not quoted. -/
theorem readRaw_quoted (braced : Bool) {blanks content : List Char}
    (hblanks : ∀ c ∈ blanks, isRawBlank c = true) (hquote : content.head? = some '"') :
    Command.readRaw braced (blanks ++ content) = (none, content) := by
  have hstop : content.head?.any isRawBlank = false := by
    rw [hquote]
    decide
  rw [Command.readRaw, dropWhile_append hblanks hstop, if_pos hquote]

/-- A text without quotes goes on to where the command ends, less the blanks there. -/
theorem readRaw_unquoted {braced : Bool} {blanks raw rest : List Char}
    (hblanks : ∀ c ∈ blanks, isRawBlank c = true)
    (hraw : ∀ c ∈ raw, (!endsCommand braced c) = true)
    (hstart : (raw ++ rest).head?.any isRawEdge = false)
    (hrest : rest.head?.any (fun c => !endsCommand braced c) = false) :
    Command.readRaw braced (blanks ++ (raw ++ rest)) =
      (if (Text.trimEnd raw).isEmpty then none else some (Text.trimEnd raw), rest) := by
  obtain ⟨hstop, hquote⟩ := any_head?_isRawEdge.mp hstart
  rw [Command.readRaw, dropWhile_append hblanks hstop, if_neg hquote,
    takeWhile_append hraw hrest, dropWhile_append hraw hrest]

/-- The scanner reads the same text after `::`, whatever follows it. -/
theorem RawShape.readRaw_append {braced : Bool} {out : List Char} (h : RawShape braced cs u rest)
    (hout : lead out = lead rest) :
    Command.readRaw braced (u ++ out) = ((Command.readRaw braced cs).1, out) := by
  cases h with
  | quoted hblanks hquote =>
    obtain ⟨content', rfl⟩ := List.head?_eq_some_iff.mp hquote
    obtain ⟨out, rfl⟩ := exists_cons_of_lead (by decide) hout
    rw [readRaw_quoted braced hblanks rfl, readRaw_quoted braced hblanks rfl]
  | unquoted hblanks hraw hstart hrest =>
    have hstart' := (any_head?_of_lead coarse_isRawEdge (lead_append hout)).trans hstart
    have hrest' := (any_head?_of_lead (coarse_endsCommand braced).not hout).trans hrest
    rw [List.append_assoc, readRaw_unquoted hblanks hraw hstart hrest,
      readRaw_unquoted hblanks hraw hstart' hrest']

/-! ## Words of commands -/

theorem isWordChar_of_isIdChar {c : Char} (hc : isIdChar c = true) : isWordChar c = true := by
  rw [Reference.isIdChar] at hc
  rw [isWordChar, hc]
  rfl

theorem isInline_of_isWordChar {c : Char} (hc : isWordChar c = true) (hid : isIdChar c = false) :
    IsInline c := by
  refine ⟨hid, fun hmem => ?_⟩
  have hnone : ['"', '/', ':', '\n', ';', '\x7b', '\x7d'].all (!isWordChar ·) = true := by decide
  have hnot := List.all_eq_true.mp hnone c hmem
  rw [hc] at hnot
  cases hnot

variable (f)

/-- A word of a command as a replacement leaves it, and the stance behind it. Names of blocks are
only parts of such words. -/
def reword : Stance → List Char → List Char × Stance
  | st, [] => ([], st)
  | .tail p, w => (w, .tail p)
  | .free p, c :: rest =>
    if isIdChar c then
      let name := c :: rest.takeWhile isIdChar
      let after := rest.dropWhile isIdChar
      have := (List.dropWhile_sublist isIdChar (l := rest)).length_le
      if isWith name then (name ++ after, .tail p)
      else
        let next := reword (.free (isPositional name)) after
        ((if p then name else (f name).getD name) ++ next.1, next.2)
    else
      let next := reword (.free p) rest
      (c :: next.1, next.2)
termination_by _ w => w.length

variable {f}

theorem reword_nil (st : Stance) : reword f st [] = ([], st) := by
  cases st <;> simp [reword]

theorem reword_tail (p : Bool) (w : List Char) : reword f (.tail p) w = (w, .tail p) := by
  cases w <;> simp [reword]

theorem reword_other {c : Char} (hc : isIdChar c = false) (p : Bool) (cs : List Char) :
    reword f (.free p) (c :: cs) =
      (c :: (reword f (.free p) cs).1, (reword f (.free p) cs).2) := by
  rw [reword, if_neg (by simp [hc])]

/-- A word that starts with a name. -/
theorem reword_isName {w : List Char} (hw : IsName w) (hrest : rest.head?.any isIdChar = false)
    (p : Bool) :
    reword f (.free p) (w ++ rest) =
      if isWith w then (w ++ rest, .tail p)
      else ((if p then w else (f w).getD w) ++ (reword f (.free (isPositional w)) rest).1,
        (reword f (.free (isPositional w)) rest).2) := by
  obtain ⟨hne, hchars⟩ := hw
  obtain ⟨c, w, rfl⟩ := List.exists_cons_of_ne_nil hne
  obtain ⟨hc, hw⟩ := List.forall_mem_cons.mp hchars
  rw [List.cons_append, reword, if_pos hc]
  simp only [takeWhile_append hw hrest, dropWhile_append hw hrest]
  rfl

/-- A name that a word starts with, other than `WITH`. -/
theorem reword_name {w : List Char} (hw : IsName w) (hwith : isWith w = false)
    (hrest : rest.head?.any isIdChar = false) (p : Bool) :
    reword f (.free p) (w ++ rest) =
      ((if p then w else (f w).getD w) ++ (reword f (.free (isPositional w)) rest).1,
        (reword f (.free (isPositional w)) rest).2) := by
  rw [reword_isName hw hrest, if_neg (Bool.eq_false_iff.mp hwith)]

/-- The keyword `WITH` that a word starts with. -/
theorem reword_with {w : List Char} (hw : IsName w) (hwith : isWith w = true)
    (hrest : rest.head?.any isIdChar = false) (p : Bool) :
    reword f (.free p) (w ++ rest) = (w ++ rest, .tail p) := by
  rw [reword_isName hw hrest, if_pos hwith]

theorem isName_takeWhile {c : Char} {cs : List Char} (hc : isIdChar c = true) :
    IsName (c :: cs.takeWhile isIdChar) :=
  ⟨List.cons_ne_nil _ _, List.forall_mem_cons.mpr ⟨hc, fun _ ha => List.mem_takeWhile_imp ha⟩⟩

/-- Words by their names: a word is empty, it is behind `WITH`, or it starts with `WITH`, with another
name, or with a character of no name. -/
theorem word_induction {P : Stance → List Char → Prop} (nil : ∀ st, P st [])
    (tail : ∀ p w, P (.tail p) w)
    (keyword : ∀ p w rest, IsName w → isWith w = true → rest.head?.any isIdChar = false →
      P (.free p) (w ++ rest))
    (name : ∀ p w rest, IsName w → isWith w = false → rest.head?.any isIdChar = false →
      P (.free (isPositional w)) rest → P (.free p) (w ++ rest))
    (other : ∀ p c cs, isIdChar c = false → P (.free p) cs → P (.free p) (c :: cs))
    (st : Stance) (w : List Char) : P st w :=
  match st, w with
  | st, [] => nil st
  | .tail p, w => tail p w
  | .free p, c :: cs => by
    cases hc : isIdChar c with
    | false => exact other p c cs hc (word_induction nil tail keyword name other (.free p) cs)
    | true =>
      have hlt := (List.dropWhile_sublist isIdChar (l := cs)).length_le
      have hsplit : c :: cs = c :: cs.takeWhile isIdChar ++ cs.dropWhile isIdChar := by
        rw [List.cons_append, List.takeWhile_append_dropWhile]
      have hstop := any_head?_dropWhile isIdChar cs
      rw [hsplit]
      cases hwith : isWith (c :: cs.takeWhile isIdChar) with
      | true => exact keyword p _ _ (isName_takeWhile hc) hwith hstop
      | false =>
        exact name p _ _ (isName_takeWhile hc) hwith hstop
          (word_induction nil tail keyword name other _ (cs.dropWhile isIdChar))
termination_by w.length

theorem Passes.refl (d : Nat) (st : Stance) (cs : List Char) : Passes f d st cs [] d st cs :=
  ⟨rfl, id⟩

/-- The keyword `WITH` and what stays as it is behind it. -/
theorem passes_with {w : List Char} (hw : IsName w) (hwith : isWith w = true)
    (hrest : rest.head?.any isIdChar = false) :
    Passes f d (.free p) (w ++ rest) w d (.tail p) rest := by
  have hstep := Step.tail (d := d) (p := p) hw hrest hwith
  have htail : (Segment.verbatim (w ++ (takeTail (0 < d) [] .outside rest).1)).tail? =
      some (takeTail (0 < d) [] .outside rest).1 := by
    obtain ⟨u, rest', hrun, rfl, -⟩ := takeTail_local (0 < d) [] .outside rest
    have hu : u.head?.any isIdChar = false := by
      cases u with
      | nil => rfl
      | cons c u => exact hrest
    rw [hrun, Segment.tail?, List.reverse_nil, List.nil_append, takeWhile_append hw.chars hu,
      dropWhile_append hw.chars hu, if_pos hwith]
  constructor
  · rw [replaceFrom, cut_of_step hstep, replaceFrom_tail, ← List.append_assoc]
    rfl
  · intro ht
    rw [Tidy, cut_of_step hstep, tidyTails, htail, Option.all_some, Bool.and_eq_true] at ht
    exact ht

/-- A word that may name a block. -/
theorem passes_name {w : List Char} (hw : IsName w) (hwith : isWith w = false)
    (hrest : rest.head?.any isIdChar = false) :
    Passes f d (.free p) (w ++ rest) (if p then w else (f w).getD w) d (.free (isPositional w))
      rest := by
  have hstep := Step.word (d := d) (p := p) hw hrest hwith
  have hnot : (if p then Segment.verbatim w else .word w).tail? = none := by
    cases p with
    | true =>
      have hall : w.takeWhile isIdChar = w := List.takeWhile_eq_self_iff.mpr hw.chars
      rw [if_pos rfl, Segment.tail?, hall, if_neg (by simp [hwith])]
    | false => rfl
  have hpasses := passes_step (f := f) hstep hnot
  cases p with
  | true => exact hpasses
  | false => exact hpasses

theorem passes_tail_word {w : List Char} (hw : ∀ c ∈ w, isWordChar c = true) :
    Passes f d (.tail p) (w ++ rest) w d (.tail p) rest := by
  induction w with
  | nil => exact .refl d _ rest
  | cons c w ih =>
    obtain ⟨hc, hw⟩ := List.forall_mem_cons.mp hw
    have hne (x : Char) (hx : isWordChar x = false) : c ≠ x := Command.ne_of_isWordChar hc hx
    have hends : endsCommand (0 < d) c = false := by
      simp [endsCommand, hne '\n' (by decide), hne ';' (by decide), hne '\x7d' (by decide)]
    exact (passes_tail_cons hends (hne _ (by decide)) (hne _ (by decide))).trans (ih hw)

theorem any_head?_append {q : Char → Bool} {u v : List Char} (hu : u.head?.any q = false)
    (hv : v.head?.any q = false) : (u ++ v).head?.any q = false := by
  cases u with
  | nil => exact hv
  | cons c u => exact hu

/-- A word of a command, with what follows it. -/
theorem passes_reword {w : List Char} (hw : ∀ c ∈ w, isWordChar c = true)
    (hrest : rest.head?.any isIdChar = false) (d : Nat) (st : Stance) :
    Passes f d st (w ++ rest) (reword f st w).1 d (reword f st w).2 rest := by
  induction st, w using word_induction with
  | nil st =>
    rw [reword_nil]
    exact .refl d st rest
  | tail p w =>
    rw [reword_tail]
    exact passes_tail_word hw
  | keyword p w after hname hwith hstop =>
    rw [reword_with hname hwith hstop, List.append_assoc]
    exact (passes_with hname hwith (any_head?_append hstop hrest)).trans
      (passes_tail_word fun c hc => hw c (List.mem_append_right _ hc))
  | name p w after hname hwith hstop ih =>
    rw [reword_name hname hwith hstop, List.append_assoc]
    exact (passes_name hname hwith (any_head?_append hstop hrest)).trans
      (ih fun c hc => hw c (List.mem_append_right _ hc))
  | other p c cs hc ih =>
    obtain ⟨hchar, hcs⟩ := List.forall_mem_cons.mp hw
    rw [reword_other hc]
    exact (passes_inline (isInline_of_isWordChar hchar hc) d _ (cs ++ rest)).trans (ih hcs)

/-! ## Comments -/

theorem newline_not_mem_takeTail {braced : Bool} {taken : List Char} {q : QuoteState}
    (h : '\n' ∉ taken) : '\n' ∉ (takeTail braced taken q cs).1 := by
  fun_induction takeTail braced taken q cs with
  | case1 => simpa using h
  | case2 => simpa using h
  | case3 taken c rest hc ih =>
    exact ih (List.not_mem_cons_of_ne_of_not_mem (fun hn => hc (hn ▸ rfl)) h)
  | case4 => simpa using h
  | case5 taken q c rest hq hc ih =>
    exact ih (List.not_mem_cons_of_ne_of_not_mem (fun hn => hc (hn ▸ rfl)) h)

/-- Where a line ends, no piece goes on. -/
theorem head?_of_endsLine {d : Nat} {p : Bool} (h : endsLine (cut d p cs) = true) :
    cs.head?.any (· != '\n') = false := by
  by_cases hcs : cs = []
  · subst hcs
    rfl
  · obtain ⟨piece, d', p', rest, hstep⟩ := Cutter.exists_step d p hcs
    rw [cut_of_step hstep, endsLine, List.head?_cons, Option.all_some, beq_iff_eq] at h
    rw [← hstep.chars_append, h]
    rfl

theorem passes_comment (ht : Tidy d st ('/' :: '/' :: rest)) :
    Passes f d st ('/' :: '/' :: rest) ('/' :: '/' :: rest.takeWhile (· != '\n')) d st
      (rest.dropWhile (· != '\n')) := by
  cases st with
  | free p => exact passes_step (.comment d p rest) rfl
  | tail p =>
    -- behind `WITH` the comment is part of what stays, and a tidy tail does not go on to the next
    -- line
    have hends : endsCommand (0 < d) '/' = false := by simp [endsCommand]
    have hrun : takeTail (0 < d) [] .outside ('/' :: '/' :: rest) =
        ('/' :: '/' :: (takeTail (0 < d) [] .outside rest).1,
          (takeTail (0 < d) [] .outside rest).2) := by
      have hquote : ¬ '/' = '"' := by decide
      rw [takeTail, if_neg (by simp [hends]), if_neg hquote, takeTail, if_neg (by simp [hends]),
        if_neg hquote, takeTail_eq]
      rfl
    obtain ⟨hwhole, htidy⟩ := ht
    rw [hrun] at hwhole htidy
    have hline : ∀ c ∈ (takeTail (0 < d) [] .outside rest).1, (c != '\n') = true := by
      intro c hc
      rw [bne_iff_ne]
      rintro rfl
      exact newline_not_mem_takeTail (List.not_mem_nil) hc
    obtain ⟨u, rest', hsplit, hcs, -⟩ := takeTail_local (0 < d) [] .outside rest
    rw [List.reverse_nil, List.nil_append] at hsplit
    rw [hsplit] at hrun hwhole htidy hline
    have hend : rest'.head?.any (· != '\n') = false := head?_of_endsLine hwhole
    have hclosed : takeTail (0 < d) [] .outside rest' = ([], rest') := by
      cases rest' with
      | nil => simp [takeTail]
      | cons c rest' =>
        obtain rfl : c = '\n' := by simpa using hend
        rw [takeTail, if_pos (by simp [endsCommand]), List.reverse_nil]
    rw [hcs, takeWhile_append hline hend, dropWhile_append hline hend, ← hcs]
    constructor
    · rw [replaceFrom_tail, hrun, replaceFrom_tail, hclosed]
      rfl
    · intro _
      rw [Tidy, hclosed]
      exact ⟨by simp [tidy], htidy⟩

end BlockDocument
