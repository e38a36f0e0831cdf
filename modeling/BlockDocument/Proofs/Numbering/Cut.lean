import Mathlib
import BlockDocument.Numbering.Segment

/-!
# Cutting a text after words were replaced

A text is cut piece by piece, and where a piece ends depends on the first character behind it at
most. Of that character it only matters which one it is when it is none of a word. So a text in
which words were replaced by others is cut at the same places, and its pieces are those of the text
before with the words replaced (`segments_replaceWords`).
-/

namespace BlockDocument

open Command (endsCommand isRawBlank)
open Reference (isIdChar)

/-! ## What follows a piece -/

/-- The first character of a text, where all characters of words count as one. -/
def lead (cs : List Char) : Option Char := cs.head?.map fun c => if isIdChar c then 'a' else c

/-- A class that does not tell characters of words apart. -/
def Coarse (p : Char → Bool) : Prop := ∀ c, isIdChar c = true → p c = p 'a'

theorem coarse_isIdChar : Coarse isIdChar := fun _ hc => hc.trans rfl

/-- A character of words is none of the others. -/
theorem ne_of_isIdChar {c x : Char} (hc : isIdChar c = true) (hx : isIdChar x = false) : c ≠ x := by
  rintro rfl
  rw [hc] at hx
  cases hx

theorem coarse_beq {x : Char} (hx : isIdChar x = false) : Coarse (· == x) := by
  intro c hc
  have hne (y : Char) (hy : isIdChar y = true) : (y == x) = false :=
    beq_eq_false_iff_ne.mpr (ne_of_isIdChar hy hx)
  exact (hne c hc).trans (hne 'a' (by decide)).symm

theorem Coarse.not {p : Char → Bool} (hp : Coarse p) : Coarse fun c => !p c :=
  fun c hc => congrArg (!·) (hp c hc)

theorem coarse_ne_newline : Coarse (· != '\n') := (coarse_beq (by decide)).not

theorem coarse_endsCommand (braced : Bool) : Coarse (endsCommand braced) := by
  intro c hc
  have hn := coarse_beq (x := '\n') (by decide) c hc
  have hs := coarse_beq (x := ';') (by decide) c hc
  have hb := coarse_beq (x := '\x7d') (by decide) c hc
  simp only at hn hs hb
  simp only [endsCommand, hn, hs, hb]

theorem coarse_isRawBlank : Coarse isRawBlank := by
  intro c hc
  have hs := coarse_beq (x := ' ') (by decide) c hc
  have ht := coarse_beq (x := '\t') (by decide) c hc
  have hr := coarse_beq (x := '\r') (by decide) c hc
  simp only at hs ht hr
  simp only [isRawBlank, hs, ht, hr]

/-- Texts with the same lead start alike. -/
theorem any_head?_of_lead {p : Char → Bool} (hp : Coarse p) {out rest : List Char}
    (h : lead out = lead rest) : out.head?.any p = rest.head?.any p := by
  have hlead (cs : List Char) : cs.head?.any p = (lead cs).any p := by
    cases cs with
    | nil => rfl
    | cons c cs =>
      simp only [lead, List.head?_cons, Option.map_some, Option.any_some]
      split
      · rename_i hc
        exact hp c hc
      · rfl
  rw [hlead, hlead, h]

theorem lead_eq_none {cs : List Char} : lead cs = none ↔ cs = [] := by
  rw [lead, Option.map_eq_none_iff, List.head?_eq_none_iff]

/-- A character of no word is known from the lead. -/
theorem exists_cons_of_lead {x : Char} {out rest : List Char} (hx : isIdChar x = false)
    (h : lead out = lead (x :: rest)) : ∃ out', out = x :: out' := by
  have hany := any_head?_of_lead (coarse_beq hx) h
  cases out with
  | nil => simp at hany
  | cons c out =>
    simp only [List.head?_cons, Option.any_some, beq_self_eq_true, beq_iff_eq] at hany
    exact ⟨out, by rw [hany]⟩

theorem lead_append {u v w : List Char} (h : lead v = lead w) : lead (u ++ v) = lead (u ++ w) := by
  cases u with
  | nil => exact h
  | cons c u => rfl

/-! ## Where stretches end -/

theorem takeWhile_append {p : Char → Bool} {u out : List Char} (hu : ∀ c ∈ u, p c = true)
    (hout : out.head?.any p = false) : (u ++ out).takeWhile p = u := by
  rw [List.takeWhile_append_of_pos hu]
  cases out with
  | nil => simp
  | cons c out => simpa using hout

theorem dropWhile_append {p : Char → Bool} {u out : List Char} (hu : ∀ c ∈ u, p c = true)
    (hout : out.head?.any p = false) : (u ++ out).dropWhile p = out := by
  rw [List.dropWhile_append_of_pos hu]
  cases out with
  | nil => simp
  | cons c out => simpa using hout

theorem any_head?_dropWhile (p : Char → Bool) (cs : List Char) :
    (cs.dropWhile p).head?.any p = false := by
  induction cs with
  | nil => rfl
  | cons c cs ih =>
    by_cases hc : p c = true
    · rwa [List.dropWhile_cons_of_pos hc]
    · simp [hc]

/-- A stretch ends where it did before anything that begins alike. -/
theorem stretch_append {p : Char → Bool} (hp : Coarse p) {cs out : List Char}
    (hout : lead out = lead (cs.dropWhile p)) :
    (cs.takeWhile p ++ out).takeWhile p = cs.takeWhile p ∧
      (cs.takeWhile p ++ out).dropWhile p = out := by
  have hall : ∀ c ∈ cs.takeWhile p, p c = true := fun _ hc => List.mem_takeWhile_imp hc
  have hend : out.head?.any p = false :=
    (any_head?_of_lead hp hout).trans (any_head?_dropWhile p cs)
  exact ⟨takeWhile_append hall hend, dropWhile_append hall hend⟩

/-- What is taken of a quoted text does not depend on what was taken before, nor on more than the
lead of what follows. -/
theorem takeQuoted_local (q : QuoteState) (cs : List Char) :
    ∃ u rest, cs = u ++ rest ∧ ∀ taken out, lead out = lead rest →
      takeQuoted taken q (u ++ out) = (taken.reverse ++ u, out) := by
  induction cs generalizing q with
  | nil =>
    refine ⟨[], [], rfl, fun taken out hout => ?_⟩
    obtain rfl := lead_eq_none.mp hout
    cases q <;> simp [takeQuoted]
  | cons c cs ih =>
    by_cases hq : q = .outside
    · subst hq
      exact ⟨[], c :: cs, rfl, fun taken out _ => by simp [takeQuoted]⟩
    by_cases hc : c = '\n'
    · subst hc
      refine ⟨[], '\n' :: cs, rfl, fun taken out hout => ?_⟩
      obtain ⟨out, rfl⟩ := exists_cons_of_lead (by decide) hout
      rw [List.nil_append, takeQuoted, if_pos rfl, List.append_nil]
      exact hq
    · obtain ⟨u, rest, rfl, hlocal⟩ := ih (q.next c)
      refine ⟨c :: u, rest, rfl, fun taken out hout => ?_⟩
      rw [List.cons_append, takeQuoted, if_neg hc, hlocal _ out hout, List.reverse_cons,
        List.append_assoc, List.singleton_append]
      exact hq

theorem takeTail_local (braced : Bool) (taken : List Char) (q : QuoteState) (cs : List Char) :
    ∃ u rest, takeTail braced taken q cs = (taken.reverse ++ u, rest) ∧ cs = u ++ rest ∧
      ∀ out, lead out = lead rest →
        takeTail braced taken q (u ++ out) = (taken.reverse ++ u, out) := by
  fun_induction takeTail braced taken q cs with
  | case1 taken q =>
    refine ⟨[], [], by simp, rfl, fun out hout => ?_⟩
    obtain rfl := lead_eq_none.mp hout
    simp [takeTail]
  | case2 taken c rest hc =>
    refine ⟨[], c :: rest, by simp, rfl, fun out hout => ?_⟩
    have hany := any_head?_of_lead (coarse_endsCommand braced) hout
    cases out with
    | nil => simp [hc] at hany
    | cons c out =>
      rw [List.nil_append, takeTail, if_pos (by simpa [hc] using hany), List.append_nil]
  | case3 taken c rest hc ih =>
    obtain ⟨u, rest', hrun, hcs, hlocal⟩ := ih
    refine ⟨c :: u, rest', by simp [hrun], by rw [hcs]; rfl, fun out hout => ?_⟩
    rw [List.cons_append, takeTail, if_neg hc, hlocal out hout]
    simp
  | case4 taken q rest hq =>
    refine ⟨[], '\n' :: rest, by simp, rfl, fun out hout => ?_⟩
    obtain ⟨out, rfl⟩ := exists_cons_of_lead (by decide) hout
    rw [List.nil_append, takeTail, if_pos rfl, List.append_nil]
    exact hq
  | case5 taken q c rest hq hc ih =>
    obtain ⟨u, rest', hrun, hcs, hlocal⟩ := ih
    refine ⟨c :: u, rest', by simp [hrun], by rw [hcs]; rfl, fun out hout => ?_⟩
    rw [List.cons_append, takeTail, if_neg hc, hlocal out hout]
    · simp
    · assumption

/-- Whether a text without quotes cannot start here. -/
def isRawEdge (c : Char) : Bool := isRawBlank c || c == '"'

theorem coarse_isRawEdge : Coarse isRawEdge := by
  intro c hc
  have hquote := coarse_beq (x := '"') (by decide) c hc
  simp only at hquote
  simp only [isRawEdge, coarse_isRawBlank c hc, hquote]

theorem any_head?_isRawEdge {cs : List Char} :
    cs.head?.any isRawEdge = false ↔ cs.head?.any isRawBlank = false ∧ cs.head? ≠ some '"' := by
  cases cs with
  | nil => simp
  | cons c cs => simp [isRawEdge]

/-- What follows `::` in a text, with the stretch that stays as it is and what is left. -/
inductive RawShape (braced : Bool) : List Char → List Char → List Char → Prop where
  | quoted {blanks content : List Char} (hblanks : ∀ c ∈ blanks, isRawBlank c = true)
      (hquote : content.head? = some '"') : RawShape braced (blanks ++ content) blanks content
  | unquoted {blanks raw rest : List Char} (hblanks : ∀ c ∈ blanks, isRawBlank c = true)
      (hraw : ∀ c ∈ raw, (!endsCommand braced c) = true)
      (hstart : (raw ++ rest).head?.any isRawEdge = false)
      (hrest : rest.head?.any (fun c => !endsCommand braced c) = false) :
      RawShape braced (blanks ++ (raw ++ rest)) (blanks ++ raw) rest

theorem exists_rawShape (braced : Bool) (cs : List Char) : ∃ u rest, RawShape braced cs u rest := by
  have hblanks : ∀ c ∈ cs.takeWhile isRawBlank, isRawBlank c = true :=
    fun c hc => List.mem_takeWhile_imp hc
  have hcs := List.takeWhile_append_dropWhile (p := isRawBlank) (l := cs)
  have hstop := any_head?_dropWhile isRawBlank cs
  generalize cs.takeWhile isRawBlank = blanks at hblanks hcs
  generalize cs.dropWhile isRawBlank = content at hcs hstop
  subst hcs
  by_cases hquote : content.head? = some '"'
  · exact ⟨blanks, content, .quoted hblanks hquote⟩
  · let ends := fun c => !endsCommand braced c
    have hraw : ∀ c ∈ content.takeWhile ends, ends c = true := fun c hc => List.mem_takeWhile_imp hc
    have hcontent := List.takeWhile_append_dropWhile (p := ends) (l := content)
    have hrest := any_head?_dropWhile ends content
    generalize content.takeWhile ends = raw at hraw hcontent
    generalize content.dropWhile ends = rest at hcontent hrest
    subst hcontent
    exact ⟨blanks ++ raw, rest, .unquoted hblanks hraw (any_head?_isRawEdge.mpr ⟨hstop, hquote⟩)
      hrest⟩

theorem RawShape.append_eq {braced : Bool} {cs u rest : List Char} (h : RawShape braced cs u rest) :
    u ++ rest = cs := by
  cases h with
  | quoted => rfl
  | unquoted => rw [List.append_assoc]

theorem RawShape.takeRaw_eq {braced : Bool} {cs u rest : List Char}
    (h : RawShape braced cs u rest) : takeRaw braced cs = (u, rest) := by
  cases h with
  | quoted hblanks hquote =>
    have hstop : rest.head?.any isRawBlank = false := by
      rw [hquote]
      decide
    rw [takeRaw, takeWhile_append hblanks hstop, dropWhile_append hblanks hstop]
    exact if_pos hquote
  | @unquoted blanks raw _ hblanks hraw hstart hrest =>
    obtain ⟨hstop, hquote⟩ := any_head?_isRawEdge.mp hstart
    rw [takeRaw, takeWhile_append hblanks hstop, dropWhile_append hblanks hstop, if_neg hquote,
      takeWhile_append hraw hrest, dropWhile_append hraw hrest]

/-- Where such a stretch ends only depends on the lead of what follows it. -/
theorem RawShape.append {braced : Bool} {cs u rest out : List Char} (h : RawShape braced cs u rest)
    (hout : lead out = lead rest) : RawShape braced (u ++ out) u out := by
  cases h with
  | quoted hblanks hquote =>
    refine .quoted hblanks ?_
    obtain ⟨content', rfl⟩ := List.head?_eq_some_iff.mp hquote
    obtain ⟨out, rfl⟩ := exists_cons_of_lead (by decide) hout
    rfl
  | unquoted hblanks hraw hstart hrest =>
    rw [List.append_assoc]
    exact .unquoted hblanks hraw
      ((any_head?_of_lead coarse_isRawEdge (lead_append hout)).trans hstart)
      ((any_head?_of_lead (coarse_endsCommand braced).not hout).trans hrest)

/-! ## Pieces -/

/-- A text that can be one word that may name a block. -/
structure IsName (w : List Char) : Prop where
  ne_nil : w ≠ []
  chars : ∀ c ∈ w, isIdChar c = true

/-- The keyword after which the rest of a command stays as it is. -/
def isWith (w : List Char) : Bool := Text.sameName (String.ofList w) "WITH"

/-- The keywords that a position follows. -/
def isPositional (w : List Char) : Bool :=
  Text.sameName (String.ofList w) "INDEX" || Text.sameName (String.ofList w) "AT"

namespace Cutter

/-- One piece of a text: how deep in braces it stands, whether it follows a word that a position
follows, the text, the piece, and the same for what is left. -/
inductive Step : Nat → Bool → List Char → Segment → Nat → Bool → List Char → Prop where
  | quoted (d : Nat) (p : Bool) (rest : List Char) :
    Step d p ('"' :: rest) (.verbatim (takeQuoted ['"'] .inside rest).1) d p
      (takeQuoted ['"'] .inside rest).2
  | comment (d : Nat) (p : Bool) (rest : List Char) :
    Step d p ('/' :: '/' :: rest) (.verbatim ('/' :: '/' :: rest.takeWhile (· != '\n'))) d p
      (rest.dropWhile (· != '\n'))
  | raw (d : Nat) (p : Bool) (rest : List Char) :
    Step d p (':' :: ':' :: rest) (.verbatim (':' :: ':' :: (takeRaw (0 < d) rest).1)) d p
      (takeRaw (0 < d) rest).2
  | tail {d : Nat} {p : Bool} {w after : List Char} (hw : IsName w)
      (hafter : after.head?.any isIdChar = false) (hwith : isWith w = true) :
    Step d p (w ++ after) (.verbatim (w ++ (takeTail (0 < d) [] .outside after).1)) d p
      (takeTail (0 < d) [] .outside after).2
  | word {d : Nat} {p : Bool} {w after : List Char} (hw : IsName w)
      (hafter : after.head?.any isIdChar = false) (hwith : isWith w = false) :
    Step d p (w ++ after) (if p then .verbatim w else .word w) d (isPositional w) after
  | other {d : Nat} {p : Bool} {c : Char} {rest : List Char} (hc : isIdChar c = false)
      (hquote : c ≠ '"') (hcomment : ¬(c = '/' ∧ rest.head? = some '/'))
      (hraw : ¬(c = ':' ∧ rest.head? = some ':')) :
    Step d p (c :: rest) (.verbatim [c]) (depthAfter d c) p rest

theorem exists_step (d : Nat) (p : Bool) {cs : List Char} (hcs : cs ≠ []) :
    ∃ piece d' p' rest, Step d p cs piece d' p' rest := by
  obtain ⟨c, rest, rfl⟩ := List.exists_cons_of_ne_nil hcs
  by_cases hquote : c = '"'
  · subst hquote
    exact ⟨_, _, _, _, .quoted d p rest⟩
  by_cases hcomment : c = '/' ∧ rest.head? = some '/'
  · obtain ⟨rfl, hhead⟩ := hcomment
    obtain ⟨rest, rfl⟩ := List.head?_eq_some_iff.mp hhead
    exact ⟨_, _, _, _, .comment d p rest⟩
  by_cases hraw : c = ':' ∧ rest.head? = some ':'
  · obtain ⟨rfl, hhead⟩ := hraw
    obtain ⟨rest, rfl⟩ := List.head?_eq_some_iff.mp hhead
    exact ⟨_, _, _, _, .raw d p rest⟩
  by_cases hc : isIdChar c = true
  · have hw : IsName (c :: rest.takeWhile isIdChar) :=
      ⟨List.cons_ne_nil _ _, List.forall_mem_cons.mpr ⟨hc, fun a ha => List.mem_takeWhile_imp ha⟩⟩
    have hafter := any_head?_dropWhile isIdChar rest
    have hcs : c :: rest = (c :: rest.takeWhile isIdChar) ++ rest.dropWhile isIdChar := by
      rw [List.cons_append, List.takeWhile_append_dropWhile]
    rw [hcs]
    cases hwith : isWith (c :: rest.takeWhile isIdChar) with
    | true => exact ⟨_, _, _, _, .tail hw hafter hwith⟩
    | false => exact ⟨_, _, _, _, .word hw hafter hwith⟩
  · exact ⟨_, _, _, _, .other (by simpa using hc) hquote hcomment hraw⟩

/-- A character of a word starts none of the other pieces. -/
theorem run_name (s : Cutter) {w after : List Char} (hw : IsName w)
    (hafter : after.head?.any isIdChar = false) :
    s.run (w ++ after) =
      if isWith w then
        run (s.keep (w ++ (takeTail (0 < s.depth) [] .outside after).1))
          (takeTail (0 < s.depth) [] .outside after).2
      else run (s.note w) after := by
  obtain ⟨hne, hchars⟩ := hw
  obtain ⟨c, w, rfl⟩ := List.exists_cons_of_ne_nil hne
  obtain ⟨hc, hw⟩ := List.forall_mem_cons.mp hchars
  rw [List.cons_append, run, if_pos hc]
  · simp only [takeWhile_append hw hafter, dropWhile_append hw hafter]
    rfl
  · exact ne_of_isIdChar hc (by decide)
  · exact fun _ he _ => ne_of_isIdChar hc (by decide) he
  · exact fun _ he _ => ne_of_isIdChar hc (by decide) he

theorem run_of_step {s : Cutter} {cs rest : List Char} {piece : Segment} {d : Nat} {p : Bool}
    (h : Step s.depth s.positional cs piece d p rest) :
    s.run cs = run ⟨piece :: s.pieces, d, p⟩ rest := by
  obtain ⟨pieces, depth, positional⟩ := s
  cases h with
  | quoted => rw [run]; rfl
  | comment => rw [run]; rfl
  | raw => rw [run]; rfl
  | tail hw hafter hwith => rw [run_name _ hw hafter, if_pos hwith]; rfl
  | word hw hafter hwith =>
    rw [run_name _ hw hafter, if_neg (by simp [hwith])]
    rfl
  | @other c rest hc hquote hcomment hraw =>
    rw [run, if_neg (by simp [hc])]
    · rfl
    · exact hquote
    · rintro rest' rfl rfl
      exact hcomment ⟨rfl, rfl⟩
    · rintro rest' rfl rfl
      exact hraw ⟨rfl, rfl⟩

theorem Step.chars_ne_nil {d d' : Nat} {p p' : Bool} {cs rest : List Char} {piece : Segment}
    (h : Step d p cs piece d' p' rest) : piece.chars ≠ [] := by
  cases h with
  | quoted rest =>
    obtain ⟨u, rest', rfl, hlocal⟩ := takeQuoted_local .inside rest
    simp [Segment.chars, hlocal ['"'] rest' rfl]
  | comment rest => exact List.cons_ne_nil _ _
  | raw rest => exact List.cons_ne_nil _ _
  | tail hw hafter hwith => exact List.append_ne_nil_of_left_ne_nil hw.ne_nil _
  | word hw hafter hwith => cases p <;> exact hw.ne_nil
  | other => exact List.cons_ne_nil _ _

/-- A piece and what is left are the text. -/
theorem Step.chars_append {d d' : Nat} {p p' : Bool} {cs rest : List Char} {piece : Segment}
    (h : Step d p cs piece d' p' rest) : piece.chars ++ rest = cs := by
  cases h with
  | quoted rest =>
    obtain ⟨u, rest', rfl, hlocal⟩ := takeQuoted_local .inside rest
    simp [Segment.chars, hlocal ['"'] rest' rfl]
  | comment rest => simp [Segment.chars]
  | raw rest =>
    obtain ⟨u, rest', hshape⟩ := exists_rawShape (0 < d) rest
    simp [Segment.chars, hshape.takeRaw_eq, hshape.append_eq]
  | @tail w after hw hafter hwith =>
    obtain ⟨u, rest', hrun, rfl, -⟩ := takeTail_local (0 < d) [] .outside after
    simp [Segment.chars, hrun]
  | word hw hafter hwith => cases p <;> rfl
  | other => rfl

theorem Step.length_lt {d d' : Nat} {p p' : Bool} {cs rest : List Char} {piece : Segment}
    (h : Step d p cs piece d' p' rest) : rest.length < cs.length := by
  have := List.length_pos_iff.mpr h.chars_ne_nil
  rw [← h.chars_append, List.length_append]
  omega

/-- The pieces of a text that stands in the given number of braces and maybe after a word that a
position follows. -/
def cut (depth : Nat) (positional : Bool) (cs : List Char) : List Segment :=
  run ⟨[], depth, positional⟩ cs

/-- What was cut before is only put before what is cut. -/
theorem run_eq (s : Cutter) (cs : List Char) :
    s.run cs = s.pieces.reverse ++ cut s.depth s.positional cs := by
  by_cases hcs : cs = []
  · subst hcs
    rw [run, cut, run, List.reverse_nil, List.append_nil]
  · obtain ⟨piece, d, p, rest, hstep⟩ := exists_step s.depth s.positional hcs
    have := hstep.length_lt
    rw [run_of_step hstep, cut, run_of_step (s := ⟨[], s.depth, s.positional⟩) hstep,
      run_eq ⟨piece :: s.pieces, d, p⟩ rest, run_eq ⟨[piece], d, p⟩ rest]
    simp
termination_by cs.length

theorem cut_nil (d : Nat) (p : Bool) : cut d p [] = [] := by
  rw [cut, run, List.reverse_nil]

theorem cut_of_step {d d' : Nat} {p p' : Bool} {cs rest : List Char} {piece : Segment}
    (h : Step d p cs piece d' p' rest) : cut d p cs = piece :: cut d' p' rest := by
  rw [cut, run_of_step (s := ⟨[], d, p⟩) h, run_eq]
  rfl

/-- Goes through a text piece by piece. -/
theorem cut_induction {motive : Nat → Bool → List Char → Prop} (nil : ∀ d p, motive d p [])
    (step : ∀ d p cs piece d' p' rest, Step d p cs piece d' p' rest → motive d' p' rest →
      motive d p cs) (d : Nat) (p : Bool) (cs : List Char) : motive d p cs := by
  by_cases hcs : cs = []
  · subst hcs
    exact nil d p
  · obtain ⟨piece, d', p', rest, hstep⟩ := exists_step d p hcs
    have := hstep.length_lt
    exact step d p cs piece d' p' rest hstep (cut_induction nil step d' p' rest)
termination_by cs.length

/-- The pieces of a text are the text. -/
theorem flatMap_chars_cut (d : Nat) (p : Bool) (cs : List Char) :
    (cut d p cs).flatMap Segment.chars = cs := by
  induction d, p, cs using cut_induction with
  | nil d p => rw [cut_nil, List.flatMap_nil]
  | step d p cs piece d' p' rest hstep ih =>
    rw [cut_of_step hstep, List.flatMap_cons, ih, hstep.chars_append]

end Cutter

theorem flatMap_chars_segments (cs : List Char) : (segments cs).flatMap Segment.chars = cs :=
  Cutter.flatMap_chars_cut 0 false cs

/-! ## Replacing words -/

/-- A piece with its word replaced, if it is one that has a replacement. -/
def Segment.replace (f : List Char → Option (List Char)) : Segment → Segment
  | .word cs => .word ((f cs).getD cs)
  | .verbatim cs => .verbatim cs

theorem replaceWords_eq (f : List Char → Option (List Char)) (cs : List Char) :
    replaceWords f cs = ((segments cs).map (Segment.replace f)).flatMap Segment.chars := by
  rw [replaceWords, List.flatMap_map]
  congr 1
  funext piece
  cases piece <;> rfl

/-- A replacement that puts words for words, and no keyword that changes what follows. -/
structure KeepsPlaces (f : List Char → Option (List Char)) : Prop where
  name {w w' : List Char} : f w = some w' → IsName w'
  plain {w w' : List Char} : f w = some w' → isWith w' = false
  positional {w w' : List Char} : f w = some w' → isPositional w' = isPositional w

theorem lead_name {w : List Char} (hw : IsName w) (cs : List Char) : lead (w ++ cs) = some 'a' := by
  obtain ⟨hne, hchars⟩ := hw
  obtain ⟨c, w, rfl⟩ := List.exists_cons_of_ne_nil hne
  simp [lead, hchars c (List.mem_cons_self ..)]

variable {f : List Char → Option (List Char)}

/-- What stands for a word, whether it is replaced or not. -/
theorem KeepsPlaces.getD (hf : KeepsPlaces f) {w : List Char} (hw : IsName w)
    (hwith : isWith w = false) :
    IsName ((f w).getD w) ∧ isWith ((f w).getD w) = false ∧
      isPositional ((f w).getD w) = isPositional w := by
  cases h : f w with
  | none => exact ⟨hw, hwith, rfl⟩
  | some w' => exact ⟨hf.name h, hf.plain h, hf.positional h⟩

namespace Cutter

/-- One piece of a text after words were replaced. -/
theorem Step.replace (hf : KeepsPlaces f) {d d' : Nat} {p p' : Bool} {cs rest : List Char}
    {piece : Segment} (h : Step d p cs piece d' p' rest) {out : List Char}
    (hout : lead out = lead rest) :
    Step d p ((piece.replace f).chars ++ out) (piece.replace f) d' p' out ∧
      lead ((piece.replace f).chars ++ out) = lead cs := by
  cases h with
  | quoted rest =>
    obtain ⟨u, rest', rfl, hlocal⟩ := takeQuoted_local .inside rest
    rw [hlocal ['"'] rest' rfl] at hout ⊢
    have hstep := Step.quoted d p (u ++ out)
    rw [hlocal ['"'] out hout] at hstep
    exact ⟨hstep, rfl⟩
  | comment rest =>
    obtain ⟨hline, hbehind⟩ := stretch_append coarse_ne_newline hout
    have hstep := Step.comment d p (rest.takeWhile (· != '\n') ++ out)
    rw [hline, hbehind] at hstep
    exact ⟨hstep, rfl⟩
  | raw rest =>
    obtain ⟨u, rest', hshape⟩ := exists_rawShape (0 < d) rest
    rw [hshape.takeRaw_eq] at hout ⊢
    have hstep := Step.raw d p (u ++ out)
    rw [(hshape.append hout).takeRaw_eq] at hstep
    exact ⟨hstep, rfl⟩
  | @tail w after hw hafter hwith =>
    obtain ⟨u, rest', hrun, rfl, hlocal⟩ := takeTail_local (0 < d) [] .outside after
    rw [hrun] at hout ⊢
    have hsame : lead (u ++ out) = lead (u ++ rest') := lead_append hout
    have hstep := Step.tail (d := d) (p := p) hw
      ((any_head?_of_lead coarse_isIdChar hsame).trans hafter) hwith
    rw [hlocal out hout] at hstep
    rw [Segment.replace, Segment.chars, List.reverse_nil, List.nil_append, List.append_assoc]
    exact ⟨hstep, lead_append hsame⟩
  | @word w after hw hafter hwith =>
    have hend := (any_head?_of_lead coarse_isIdChar hout).trans hafter
    cases p with
    | true =>
      refine ⟨.word hw hend hwith, ?_⟩
      exact (lead_name hw out).trans (lead_name hw rest).symm
    | false =>
      obtain ⟨hname, hwith', hpositional⟩ := hf.getD hw hwith
      have hstep := Step.word (d := d) (p := false) hname hend hwith'
      rw [hpositional] at hstep
      exact ⟨hstep, (lead_name hname out).trans (lead_name hw rest).symm⟩
  | @other c rest hc hquote hcomment hraw =>
    have hhead (x : Char) (hx : isIdChar x = false) (h : out.head? = some x) :
        rest.head? = some x := by
      obtain ⟨out, rfl⟩ := List.head?_eq_some_iff.mp h
      obtain ⟨rest, rfl⟩ := exists_cons_of_lead hx hout.symm
      rfl
    exact ⟨.other hc hquote (fun h => hcomment ⟨h.1, hhead '/' (by decide) h.2⟩)
      (fun h => hraw ⟨h.1, hhead ':' (by decide) h.2⟩), rfl⟩

/-- A text whose words were replaced is cut where it was cut before. -/
theorem cut_replace (hf : KeepsPlaces f) (d : Nat) (p : Bool) (cs : List Char) :
    let pieces := (cut d p cs).map (Segment.replace f)
    cut d p (pieces.flatMap Segment.chars) = pieces ∧
      lead (pieces.flatMap Segment.chars) = lead cs := by
  induction d, p, cs using cut_induction with
  | nil d p => simp [cut_nil]
  | step d p cs piece d' p' rest hstep ih =>
    obtain ⟨hcut, hlead⟩ := ih
    obtain ⟨hstep', hlead'⟩ := hstep.replace hf hlead
    rw [cut_of_step hstep, List.map_cons]
    refine ⟨?_, hlead'⟩
    rw [List.flatMap_cons, cut_of_step hstep', hcut]

end Cutter

/-- **Words are replaced in step**: the pieces of a text with its words replaced are the pieces of
the text, each with its word replaced. -/
theorem segments_replaceWords (hf : KeepsPlaces f) (cs : List Char) :
    segments (replaceWords f cs) = (segments cs).map (Segment.replace f) := by
  rw [replaceWords_eq]
  exact (Cutter.cut_replace hf 0 false cs).1

/-- A replacement that undoes another one on every word of a text undoes it on the text. -/
theorem replaceWords_replaceWords (hf : KeepsPlaces f) {g : List Char → Option (List Char)}
    {cs : List Char} (h : ∀ w, .word w ∈ segments cs → (g ((f w).getD w)).getD ((f w).getD w) = w) :
    replaceWords g (replaceWords f cs) = cs := by
  have hpieces : ((segments cs).map (Segment.replace f)).map (Segment.replace g) = segments cs := by
    rw [List.map_map]
    conv_rhs => rw [← List.map_id (segments cs)]
    refine List.map_congr_left fun piece hpiece => ?_
    cases piece with
    | word w => exact congrArg Segment.word (h w hpiece)
    | verbatim w => rfl
  rw [replaceWords_eq g, segments_replaceWords hf, hpieces, flatMap_chars_segments]

end BlockDocument
