import Mathlib
import BlockDocument.Numbering.Offset
import BlockDocument.Numbering.Replacement
import BlockDocument.Proofs.Numbering.Cut

/-!
# Counting bytes ends, and loses nothing

Each scanner counts the bytes of the stretch that is taken character by character, so a step cuts its
text at the end of a piece, which is the start of a character. A piece has a character at least.
Hence every step succeeds and leaves less of the text, and in the end the words of the text are
replaced one piece after the other.
-/

namespace BlockDocument

open Command (endsCommand isRawBlank)
open Reference (isIdChar)
open Cutter (Step cut)

/-! ## Bytes -/

theorem byteCount_eq (cs : List Char) : byteCount cs = String.utf8Len cs :=
  String.utf8ByteSize_ofList cs

@[simp] theorem byteCount_nil : byteCount [] = 0 := rfl

@[simp] theorem byteCount_cons (c : Char) (cs : List Char) :
    byteCount (c :: cs) = byteCount cs + c.utf8Size := by
  rw [byteCount_eq, String.utf8Len_cons, byteCount_eq]

@[simp] theorem byteCount_append (u v : List Char) :
    byteCount (u ++ v) = byteCount u + byteCount v := by
  rw [byteCount_eq, String.utf8Len_append, byteCount_eq, byteCount_eq]

@[simp] theorem byteCount_reverse (cs : List Char) : byteCount cs.reverse = byteCount cs := by
  rw [byteCount_eq, String.utf8Len_reverse, byteCount_eq]

theorem byteCount_pos {cs : List Char} (h : cs ≠ []) : 0 < byteCount cs := by
  obtain ⟨c, cs, rfl⟩ := List.exists_cons_of_ne_nil h
  have := c.utf8Size_pos
  rw [byteCount_cons]
  omega

theorem cutAt?_append (u v : List Char) : cutAt? (byteCount u) (u ++ v) = some (u, v) := by
  induction u with
  | nil => cases v <;> rfl
  | cons c u ih =>
    obtain ⟨n, hn⟩ := Nat.exists_eq_add_one.mpr (byteCount_pos (List.cons_ne_nil c u))
    have hsize : c.utf8Size ≤ n + 1 ∧ n + 1 - c.utf8Size = byteCount u := by
      rw [byteCount_cons] at hn
      omega
    rw [hn, List.cons_append, cutAt?, if_pos hsize.1, hsize.2, ih]
    rfl

theorem cutAt?_eq_some_iff {n : Nat} {cs u v : List Char} :
    cutAt? n cs = some (u, v) ↔ cs = u ++ v ∧ n = byteCount u := by
  constructor
  · intro h
    -- a cut within a character fails, so what is counted is made up of whole characters
    induction cs generalizing n u with
    | nil =>
      cases n with
      | zero =>
        cases h
        exact ⟨rfl, rfl⟩
      | succ n => cases h
    | cons c cs ih =>
      cases n with
      | zero =>
        cases h
        exact ⟨rfl, rfl⟩
      | succ n =>
        rw [cutAt?] at h
        split at h
        · rename_i hle
          obtain ⟨⟨u', v'⟩, hcut, hpair⟩ := Option.map_eq_some_iff.mp h
          obtain ⟨rfl, rfl⟩ := Prod.mk.inj hpair
          obtain ⟨hcs, hn⟩ := ih hcut
          refine ⟨by rw [hcs, List.cons_append], ?_⟩
          rw [byteCount_cons, ← hn]
          omega
        · cases h
  · rintro ⟨rfl, rfl⟩
    exact cutAt?_append u v

/-- A text can be cut where one of its characters starts, or at its end, and nowhere else. -/
theorem isSome_cutAt?_iff {n : Nat} {cs : List Char} :
    (cutAt? n cs).isSome = true ↔ String.Pos.Raw.IsValid (String.ofList cs) ⟨n⟩ := by
  rw [Option.isSome_iff_exists, String.Pos.Raw.isValid_iff_exists_append]
  constructor
  · rintro ⟨⟨u, v⟩, h⟩
    obtain ⟨rfl, rfl⟩ := cutAt?_eq_some_iff.mp h
    exact ⟨String.ofList u, String.ofList v, String.ofList_append, rfl⟩
  · rintro ⟨s, t, hst, hn⟩
    refine ⟨(s.toList, t.toList), cutAt?_eq_some_iff.mpr ⟨?_, ?_⟩⟩
    · rw [← String.toList_append, ← hst, String.toList_ofList]
    · rw [byteCount, String.ofList_toList]
      exact congrArg String.Pos.Raw.byteIdx hn

/-! ## Scanners -/

/-- The bytes counted up to the end of a quoted text are those of what is taken of it. -/
theorem quotedEnd_eq (taken : List Char) (q : QuoteState) (cs : List Char) (hq : q ≠ .outside) :
    quotedEnd (q == .escaped) (byteCount taken) cs = byteCount (takeQuoted taken q cs).1 := by
  fun_induction takeQuoted taken q cs with
  | case1 => exact absurd rfl hq
  | case2 taken q => rw [quotedEnd, byteCount_reverse]
  | case3 taken q rest => rw [quotedEnd, if_pos rfl, byteCount_reverse]
  | case4 taken q c rest _ hc ih =>
    rw [byteCount_cons] at ih
    -- the flag of the counter is the state after a backslash; outside of quotes nothing is counted
    cases q with
    | outside => exact absurd rfl hq
    | escaped =>
      rw [quotedEnd, if_neg hc, if_pos (by decide)]
      exact ih QuoteState.noConfusion
    | inside =>
      rw [quotedEnd, if_neg hc, if_neg (by decide)]
      by_cases hslash : c = '\\'
      · subst hslash
        rw [if_pos rfl]
        exact ih QuoteState.noConfusion
      rw [if_neg hslash]
      by_cases hquote : c = '"'
      · subst hquote
        rw [if_pos rfl]
        simp [QuoteState.next, takeQuoted, Char.utf8Size]
      · have hnext : QuoteState.next c .inside = .inside := by simp [QuoteState.next, hquote, hslash]
        rw [if_neg hquote]
        rw [hnext] at ih ⊢
        exact ih QuoteState.noConfusion

theorem quotedSize_eq (rest : List Char) :
    quotedSize ('"' :: rest) = byteCount (takeQuoted ['"'] .inside rest).1 :=
  quotedEnd_eq ['"'] .inside rest QuoteState.noConfusion

/-- The rest of a command goes on behind a quoted text, also where that does not close. -/
theorem takeTail_takeQuoted (braced : Bool) (taken : List Char) (q : QuoteState) (cs : List Char) :
    takeTail braced taken q cs =
      takeTail braced (takeQuoted taken q cs).1.reverse .outside (takeQuoted taken q cs).2 := by
  fun_induction takeQuoted taken q cs with
  | case1 taken cs => rw [List.reverse_reverse]
  | case2 taken q => rw [takeTail, takeTail, List.reverse_reverse]
  | case3 taken q rest hq =>
    rw [takeTail, if_pos (by simp [endsCommand]), takeTail, if_pos rfl, List.reverse_reverse]
    exact hq
  | case4 taken q c rest hq hc ih =>
    rw [takeTail, if_neg hc, ih]
    exact hq

section Tails

variable {braced quoted : Bool} {c : Char} {u v w : List Char}

theorem tailEnd?_nil : tailEnd? (u ++ []) braced quoted (byteCount u) = some (byteCount u) := by
  rw [tailEnd?, cutAt?_append, List.append_nil]
  rfl

theorem tailEnd?_ends (hc : endsCommand braced c = true) :
    tailEnd? (u ++ c :: v) braced quoted (byteCount u) = some (byteCount u) := by
  rw [tailEnd?, cutAt?_append, Option.bind_eq_bind, Option.bind_some]
  exact if_pos hc

/-- A stretch that does not end the command is passed over, and the text has room for it. -/
theorem tailEnd?_stretch (hc : endsCommand braced c = false)
    (hsize : stretchSize quoted (c :: (w ++ v)) = byteCount (c :: w)) :
    tailEnd? (u ++ c :: (w ++ v)) braced quoted (byteCount u) =
      tailEnd? ((u ++ c :: w) ++ v) braced quoted (byteCount (u ++ c :: w)) := by
  have htext : (u ++ c :: w) ++ v = u ++ c :: (w ++ v) := by
    rw [List.append_assoc, List.cons_append]
  have hroom : 0 < byteCount (c :: w) ∧
      byteCount u + byteCount (c :: w) ≤ byteCount (u ++ c :: (w ++ v)) := by
    refine ⟨byteCount_pos (List.cons_ne_nil c w), ?_⟩
    rw [← htext, byteCount_append, byteCount_append]
    exact Nat.le_add_right _ _
  rw [tailEnd?, cutAt?_append, Option.bind_eq_bind, Option.bind_some]
  simp only [hc, hsize]
  rw [if_neg Bool.false_ne_true, if_pos hroom, htext, byteCount_append]

theorem tailEnd?_char (hc : endsCommand braced c = false) (hquote : (quoted && c == '"') = false) :
    tailEnd? (u ++ c :: v) braced quoted (byteCount u) =
      tailEnd? ((u ++ [c]) ++ v) braced quoted (byteCount (u ++ [c])) := by
  refine tailEnd?_stretch (w := []) hc ?_
  rw [stretchSize, hquote, byteCount_cons, byteCount_nil, Nat.zero_add]
  rfl

/-- The end of a command in which quotes count for nothing. -/
theorem tailEnd?_plain (braced : Bool) (u v : List Char) :
    tailEnd? (u ++ v) braced false (byteCount u) =
      some (byteCount (u ++ v.takeWhile fun c => !endsCommand braced c)) := by
  induction v generalizing u with
  | nil => rw [tailEnd?_nil, List.takeWhile_nil, List.append_nil]
  | cons c v ih =>
    by_cases hc : endsCommand braced c = true
    · rw [tailEnd?_ends hc, List.takeWhile_cons_of_neg (by simp [hc]), List.append_nil]
    · rw [Bool.not_eq_true] at hc
      rw [tailEnd?_char hc (Bool.false_and _), ih, List.takeWhile_cons_of_pos (by simp [hc]),
        List.append_assoc, List.singleton_append]

/-- The end of a command in which quoted texts are passed over. -/
theorem tailEnd?_quoted (braced : Bool) (u v : List Char) :
    tailEnd? (u ++ v) braced true (byteCount u) =
      some (byteCount (takeTail braced u.reverse .outside v).1) := by
  cases v with
  | nil => rw [tailEnd?_nil, takeTail, List.reverse_reverse]
  | cons c v =>
    by_cases hc : endsCommand braced c = true
    · rw [tailEnd?_ends hc, takeTail, if_pos hc, List.reverse_reverse]
    · by_cases hquote : c = '"'
      · subst hquote
        -- a quoted text is passed as one stretch here, and character by character when the rest is
        -- taken
        obtain ⟨w, rest, rfl, hlocal⟩ := takeQuoted_local .inside v
        have hw (taken : List Char) : takeQuoted taken .inside (w ++ rest) =
            (taken.reverse ++ w, rest) := hlocal taken rest rfl
        have hsize : stretchSize true ('"' :: (w ++ rest)) = byteCount ('"' :: w) := by
          rw [stretchSize, if_pos (by decide), quotedSize_eq, hw]
          rfl
        have htail : takeTail braced ('"' :: u.reverse) .inside (w ++ rest) =
            takeTail braced (u ++ '"' :: w).reverse .outside rest := by
          rw [takeTail_takeQuoted, hw, List.reverse_cons, List.reverse_reverse, List.append_assoc,
            List.singleton_append]
        rw [tailEnd?_stretch (by simpa using hc) hsize, tailEnd?_quoted, takeTail, if_neg hc,
          if_pos rfl, htail]
      · rw [tailEnd?_char (by simpa using hc) (by simp [hquote]), tailEnd?_quoted, takeTail,
          if_neg hc, if_neg hquote, List.reverse_append]
        rfl
termination_by v.length

end Tails

/-! ## Steps -/

theorem stride?_quoted (d : Nat) (rest : List Char) :
    stride? d ('"' :: rest) =
      some { size := byteCount (takeQuoted ['"'] .inside rest).1, depth := d } := by
  rw [stride?, if_pos rfl, quotedSize_eq]
  rfl

theorem stride?_comment (d : Nat) (rest : List Char) :
    stride? d ('/' :: '/' :: rest) =
      some { size := byteCount ('/' :: '/' :: rest.takeWhile (· != '\n')), depth := d } := by
  have hline : (fun c => !endsCommand false c) = (· != '\n') := by
    funext c
    rw [endsCommand, Bool.false_and, Bool.or_false, bne]
  have htail : tailEnd? ('/' :: '/' :: rest) false false 0 =
      some (byteCount ('/' :: '/' :: rest.takeWhile (· != '\n'))) := by
    have h := tailEnd?_plain false [] ('/' :: '/' :: rest)
    rw [hline] at h
    exact h
  rw [stride?, if_neg (by decide), if_pos ⟨rfl, rfl⟩, htail]
  rfl

theorem stride?_raw (d : Nat) (rest : List Char) :
    stride? d (':' :: ':' :: rest) =
      some { size := byteCount (':' :: ':' :: (takeRaw (0 < d) rest).1), depth := d } := by
  have hlead : byteCount (':' :: ':' :: rest) - byteCount (rest.dropWhile isRawBlank) =
      byteCount (':' :: ':' :: rest.takeWhile isRawBlank) := by
    have hrest := List.takeWhile_append_dropWhile (p := isRawBlank) (l := rest)
    have hbytes : byteCount (':' :: ':' :: rest) =
        byteCount (':' :: ':' :: rest.takeWhile isRawBlank) +
          byteCount (rest.dropWhile isRawBlank) := by
      rw [← byteCount_append, List.cons_append, List.cons_append, hrest]
    omega
  have htail (v : List Char) : tailEnd? v (0 < d) false 0 =
      some (byteCount (v.takeWhile fun c => !endsCommand (0 < d) c)) :=
    tailEnd?_plain (0 < d) [] v
  rw [stride?, if_neg (by decide), if_neg fun h => absurd h.1 (by decide), if_pos ⟨rfl, rfl⟩,
    takeRaw]
  simp only [List.drop_succ_cons, List.drop_zero, hlead, htail]
  split
  · rfl
  · rw [← List.cons_append, ← List.cons_append, byteCount_append]
    rfl

variable {d d' : Nat} {p p' : Bool} {cs rest : List Char} {piece : Segment}

/-- A word, or what starts with `WITH`. -/
theorem stride?_name {w after : List Char} (hw : IsName w)
    (hafter : after.head?.any isIdChar = false) :
    stride? d (w ++ after) =
      if isWith w then
        some { size := byteCount (w ++ (takeTail (0 < d) [] .outside after).1), depth := d }
      else some { size := byteCount w, depth := d, isWord := true } := by
  have hsize : wordSize (w ++ after) = byteCount w := by
    rw [wordSize, takeWhile_append hw.chars hafter]
  have hcut : cutAt? (byteCount w) (w ++ after) = some (w, after) := cutAt?_append w after
  have htail : tailEnd? after (0 < d) true 0 =
      some (byteCount (takeTail (0 < d) [] .outside after).1) :=
    tailEnd?_quoted (0 < d) [] after
  obtain ⟨hne, hchars⟩ := hw
  obtain ⟨c, w, rfl⟩ := List.exists_cons_of_ne_nil hne
  have hc : isIdChar c = true := hchars c (List.mem_cons_self ..)
  rw [List.cons_append] at hsize hcut ⊢
  rw [stride?, if_neg (ne_of_isIdChar hc (by decide)),
    if_neg fun h => ne_of_isIdChar hc (by decide) h.1,
    if_neg fun h => ne_of_isIdChar hc (by decide) h.1, if_pos hc]
  have hkeyword : Text.sameName (String.ofList (c :: w)) "WITH" = isWith (c :: w) := rfl
  simp only [hsize, hcut, Option.bind_eq_bind, Option.bind_some, hkeyword]
  by_cases hwith : isWith (c :: w) = true
  · rw [if_pos hwith, if_pos hwith, htail, byteCount_append]
    rfl
  · rw [if_neg hwith, if_neg hwith]
    rfl

theorem stride?_other {c : Char} (hc : isIdChar c = false) (hquote : c ≠ '"')
    (hcomment : ¬(c = '/' ∧ rest.head? = some '/')) (hraw : ¬(c = ':' ∧ rest.head? = some ':')) :
    stride? d (c :: rest) =
      some { size := byteCount [c], depth := Cutter.depthAfter d c } := by
  rw [stride?, if_neg hquote, if_neg hcomment, if_neg hraw, if_neg (by simp [hc]), byteCount_cons,
    byteCount_nil, Nat.zero_add]
  rfl

/-- A step takes the next piece, and knows whether that is a word among others. -/
theorem stride?_of_step (h : Step d p cs piece d' p' rest) :
    ∃ stride, stride? d cs = some stride ∧ stride.size = byteCount piece.chars ∧
      stride.depth = d' ∧
      piece = (if stride.isWord && !p then .word piece.chars else .verbatim piece.chars) ∧
      p' = (if stride.isWord then isPositional piece.chars else p) := by
  cases h with
  | quoted => exact ⟨_, stride?_quoted d _, rfl, rfl, rfl, rfl⟩
  | comment => exact ⟨_, stride?_comment d _, rfl, rfl, rfl, rfl⟩
  | raw => exact ⟨_, stride?_raw d _, rfl, rfl, rfl, rfl⟩
  | tail hw hafter hwith =>
    have hname := stride?_name (d := d) hw hafter
    rw [if_pos hwith] at hname
    exact ⟨_, hname, rfl, rfl, rfl, rfl⟩
  | word hw hafter hwith =>
    have hname := stride?_name (d := d) hw hafter
    rw [if_neg (by simp [hwith])] at hname
    cases p with
    | true => exact ⟨_, hname, rfl, rfl, rfl, rfl⟩
    | false => exact ⟨_, hname, rfl, rfl, rfl, rfl⟩
  | other hc hquote hcomment hraw =>
    exact ⟨_, stride?_other hc hquote hcomment hraw, rfl, rfl, rfl, rfl⟩

namespace Rewriter

variable {f : List Char → Option (List Char)} {s : Rewriter}

theorem push_eq {isWord : Bool} {rest : List Char}
    (hpiece : piece = if isWord && !s.positional then .word piece.chars else .verbatim piece.chars) :
    s.push f isWord piece.chars rest =
      { s with
        written := s.written ++ (piece.replace f).chars
        rest
        positional := if isWord then isPositional piece.chars else s.positional } := by
  rw [hpiece]
  cases isWord with
  | false => rfl
  | true =>
    rw [push, if_pos rfl]
    cases s.positional <;> rfl

/-- A step writes the next piece, with its word replaced, and goes on behind it. -/
theorem step?_of_step (h : Step s.depth s.positional s.rest piece d' p' rest) :
    s.step? f = some ⟨s.written ++ (piece.replace f).chars, rest, d', p'⟩ := by
  obtain ⟨stride, hstride, hsize, rfl, hpiece, rfl⟩ := stride?_of_step h
  have hcut : cutAt? stride.size s.rest = some (piece.chars, rest) := by
    rw [hsize, ← h.chars_append]
    exact cutAt?_append _ _
  rw [step?, hstride, Option.bind_eq_bind, Option.bind_some, hcut, Option.bind_eq_bind,
    Option.bind_some]
  simp only [push_eq hpiece]
  rfl

theorem run?_of_step (h : Step s.depth s.positional s.rest piece d' p' rest) :
    s.run? f = run? f ⟨s.written ++ (piece.replace f).chars, rest, d', p'⟩ := by
  have hne : s.rest ≠ [] := fun hrest =>
    h.chars_ne_nil (List.append_eq_nil_iff.mp (h.chars_append.trans hrest)).1
  rw [run?, if_neg hne, step?_of_step h, Option.bind_eq_bind, Option.bind_some]
  exact if_pos h.length_lt

/-- **A run ends**, and what it writes are all pieces of what was left, with their words replaced. -/
theorem run?_eq (s : Rewriter) :
    s.run? f = some (s.written ++
      ((cut s.depth s.positional s.rest).map (Segment.replace f)).flatMap Segment.chars) := by
  obtain ⟨written, rest, depth, positional⟩ := s
  induction depth, positional, rest using Cutter.cut_induction generalizing written with
  | nil d p => simp [run?, Cutter.cut_nil]
  | step d p cs piece d' p' rest hstep ih =>
    rw [run?_of_step hstep, ih, Cutter.cut_of_step hstep, List.map_cons, List.flatMap_cons,
      List.append_assoc]

/-! ## Every text -/

/-- A step from one place in a text to another one behind it. -/
structure Advances (f : List Char → Option (List Char)) (s : Rewriter) (stride : Stride)
    (s' : Rewriter) : Prop where
  stride_eq : stride? s.depth s.rest = some stride
  step_eq : s.step? f = some s'
  /-- Something is taken, and no more than there is. -/
  pos : 0 < stride.size
  le : stride.size ≤ byteCount s.rest
  /-- The cut is where a character starts, or at the end. -/
  isValid : String.Pos.Raw.IsValid (String.ofList s.rest) ⟨stride.size⟩
  /-- What is taken are whole characters, and the others are left. -/
  taken : ∃ piece, piece ≠ [] ∧ byteCount piece = stride.size ∧ s.rest = piece ++ s'.rest
  /-- There are never more braces to count than bytes were taken. -/
  depth_le : s'.depth + byteCount s'.rest ≤ s.depth + byteCount s.rest

theorem depth_le_of_step (h : Step d p cs piece d' p' rest) : d' ≤ d + 1 := by
  cases h with
  | @other c =>
    rw [Cutter.depthAfter]
    split
    · exact Nat.le_refl _
    · split <;> omega
  | _ => exact Nat.le_succ _

theorem exists_advances (f : List Char → Option (List Char)) (s : Rewriter) (h : s.rest ≠ []) :
    ∃ stride s', s.Advances f stride s' := by
  obtain ⟨piece, d, p, rest, hstep⟩ := Cutter.exists_step s.depth s.positional h
  obtain ⟨stride, hstride, hsize, -⟩ := stride?_of_step hstep
  have hrest := hstep.chars_append
  have hbytes : byteCount s.rest = byteCount piece.chars + byteCount rest := by
    rw [← hrest, byteCount_append]
  have hpos : 0 < byteCount piece.chars := byteCount_pos hstep.chars_ne_nil
  have hdepth : d ≤ s.depth + 1 := depth_le_of_step hstep
  refine ⟨stride, ⟨s.written ++ (piece.replace f).chars, rest, d, p⟩, ?_⟩
  constructor
  case stride_eq => exact hstride
  case step_eq => exact step?_of_step hstep
  case pos => rwa [hsize]
  case le => omega
  case isValid =>
    rw [← isSome_cutAt?_iff, hsize, ← hrest, cutAt?_append]
    rfl
  case taken => exact ⟨piece.chars, hstep.chars_ne_nil, hsize.symm, hrest.symm⟩
  case depth_le =>
    show d + byteCount rest ≤ s.depth + byteCount s.rest
    omega

end Rewriter

theorem rewrite?_eq (f : List Char → Option (List Char)) (text : String) :
    rewrite? f text = some (String.ofList (replaceWords f text.toList)) := by
  rw [rewrite?, Rewriter.run?_eq, replaceWords_eq]
  rfl

theorem replaceWords_eq_self {f : List Char → Option (List Char)} {cs : List Char}
    (h : ∀ w, .word w ∈ segments cs → f w = none) : replaceWords f cs = cs := by
  have hpieces : (segments cs).map (Segment.replace f) = segments cs := by
    conv_rhs => rw [← List.map_id (segments cs)]
    refine List.map_congr_left fun piece hpiece => ?_
    cases piece with
    | word w => rw [Segment.replace, h w hpiece]; rfl
    | verbatim w => rfl
  rw [replaceWords_eq, hpieces, flatMap_chars_segments]

/-- **Replacing words ends on every text, and loses nothing.** Wherever there is something left of a
text, a step succeeds, takes at least one character and no more than are left, and cuts between
characters. So numbers are written for ids and ids for numbers in every text. The pieces that are
copied or replaced are the text, and a replacement that knows none of its words gives it back. -/
theorem Rewriter.ends_and_loses_nothing :
    (∀ (f : List Char → Option (List Char)) (s : Rewriter), s.rest ≠ [] →
      ∃ stride s', s.Advances f stride s') ∧
    (∀ (n : Numbering) (text : String), rewrite? n.shortWord text = some (n.shorten text) ∧
      rewrite? n.longWord text = some (n.expand text)) ∧
    ∀ (f : List Char → Option (List Char)) (text : String),
      rewrite? f text = some (String.ofList (replaceWords f text.toList)) ∧
      (segments text.toList).flatMap Segment.chars = text.toList ∧
      ((∀ w, .word w ∈ segments text.toList → f w = none) → rewrite? f text = some text) := by
  refine ⟨Rewriter.exists_advances, fun n text => ⟨rewrite?_eq _ _, rewrite?_eq _ _⟩,
    fun f text => ⟨rewrite?_eq f text, flatMap_chars_segments _, fun h => ?_⟩⟩
  rw [rewrite?_eq, replaceWords_eq_self h, String.ofList_toList]

/-- A number that stands for no block, a comment and quotes that do not close, with characters of two
and of four bytes. -/
theorem Rewriter.ends_and_loses_nothing_unknown :
    let n : Numbering := ⟨[⟨"blk_000000000001"⟩]⟩
    let text := "DELETE 7 // é 1\n\"é𝔸"
    (∀ w, .word w ∈ segments text.toList → n.longWord w = none) ∧
      rewrite? n.longWord text = some text ∧ n.expand text = text ∧
      ∃ stride s', Rewriter.Advances n.longWord { rest := "\"é𝔸".toList } stride s' := by
  intro n text
  have hpieces : segments text.toList =
      [.word "DELETE".toList, .verbatim [' '], .word ['7'], .verbatim [' '],
        .verbatim "// é 1".toList, .verbatim ['\n'], .verbatim "\"é𝔸".toList] := by decide +kernel
  have hwords : ∀ w, .word w ∈ segments text.toList → n.longWord w = none := by
    intro w hw
    rw [hpieces] at hw
    simp only [List.mem_cons, Segment.word.injEq, List.not_mem_nil, or_false, reduceCtorEq,
      false_or] at hw
    rcases hw with rfl | rfl <;> decide +kernel
  obtain ⟨hsteps, hruns, hself⟩ := Rewriter.ends_and_loses_nothing
  have htext : rewrite? n.longWord text = some text := (hself n.longWord text).2.2 hwords
  refine ⟨hwords, htext, ?_, hsteps _ _ (by decide +kernel)⟩
  exact Option.some.inj ((hruns n text).2.symm.trans htext)

end BlockDocument
