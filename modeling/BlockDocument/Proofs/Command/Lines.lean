import BlockDocument.Proofs.Command.Scan

/-!
# Texts behind the end of a line

No token goes over the end of a line, so a text that is cut into tokens as a whole is cut in the same
way in front of another line. What the scanner takes along to that line is the number of the line and
the number of open braces; with another line to start from, it finds the same tokens on other lines.
-/

namespace BlockDocument.Command

/-! ## The end of a line -/

section readers

variable {cs rest : List Char}

theorem dropWhile_append_newline {p : Char → Bool} (hp : p '\n' = false) (cs rest : List Char) :
    (cs ++ '\n' :: rest).dropWhile p = cs.dropWhile p ++ '\n' :: rest := by
  induction cs with
  | nil => rw [List.nil_append, List.dropWhile_cons_of_neg (by simp [hp])]; rfl
  | cons c cs ih =>
    rw [List.cons_append, List.dropWhile_cons, List.dropWhile_cons]
    split
    · exact ih
    · rfl

theorem takeWhile_append_newline {p : Char → Bool} (hp : p '\n' = false) (cs rest : List Char) :
    (cs ++ '\n' :: rest).takeWhile p = cs.takeWhile p := by
  induction cs with
  | nil => exact List.takeWhile_cons_of_neg (by simp [hp])
  | cons c cs ih =>
    rw [List.cons_append, List.takeWhile_cons, List.takeWhile_cons, ih]

theorem skip_append_newline (cs rest : List Char) :
    skip (cs ++ '\n' :: rest) = skip cs ++ '\n' :: rest := by
  rw [skip, skip, dropWhile_append_newline (by decide)]
  generalize cs.dropWhile isLineBlank = cs
  fun_cases skipComment cs with
  | case1 cs => exact dropWhile_append_newline (by decide) cs rest
  | case2 cs hcs =>
    rw [skipComment]
    intro cs' h
    rcases cs with _ | ⟨a, _ | ⟨b, cs⟩⟩
    · cases h
    · cases h
    · obtain ⟨rfl, htail⟩ := List.cons.inj h
      obtain ⟨rfl, -⟩ := List.cons.inj htail
      exact hcs cs rfl

theorem readQuoted_append {read text : List Char} (h : readQuoted read cs = .ok (text, rest))
    (cs' : List Char) : readQuoted read (cs ++ cs') = .ok (text, rest ++ cs') := by
  fun_induction readQuoted read cs with
  | case1 =>
    cases h
    rw [List.cons_append, readQuoted]
  | case2 read e cs c he ih =>
    rw [List.cons_append, List.cons_append, readQuoted, he]
    exact ih h
  | case3 => cases h
  | case4 => cases h
  | case5 read c cs hquote hescape hc ih =>
    rw [List.cons_append, readQuoted, if_neg hc]
    · exact ih h
    · exact hquote
    · exact fun _ _ hback => absurd (.inr hback) hc
  | case6 => cases h

theorem takeWord_append_newline (taken cs rest : List Char) :
    takeWord taken (cs ++ '\n' :: rest) =
      ((takeWord taken cs).1, (takeWord taken cs).2 ++ '\n' :: rest) := by
  induction cs generalizing taken with
  | nil => rfl
  | cons c cs ih =>
    have hhead : ((cs ++ '\n' :: rest).head? == some '=') = (cs.head? == some '=') := by
      cases cs <;> rfl
    rw [List.cons_append, takeWord, takeWord, hhead]
    split
    · exact ih _
    · rfl

theorem readRaw_append_newline (braced : Bool) (cs rest : List Char) :
    readRaw braced (cs ++ '\n' :: rest) =
      ((readRaw braced cs).1, (readRaw braced cs).2 ++ '\n' :: rest) := by
  have htake (cs : List Char) :=
    takeWhile_append_newline (p := fun c => !endsCommand braced c) rfl cs rest
  have hdrop (cs : List Char) :=
    dropWhile_append_newline (p := fun c => !endsCommand braced c) rfl cs rest
  rw [readRaw, readRaw, dropWhile_append_newline (by decide)]
  generalize cs.dropWhile isRawBlank = cs
  have hhead : (cs ++ '\n' :: rest).head? = some '"' ↔ cs.head? = some '"' := by
    cases cs with
    | nil => simp
    | cons c cs => rfl
  simp only [hhead, htake, hdrop]
  split <;> rfl

/-! ## Ends of lines are counted -/

theorem count_newline_dropWhile {p : Char → Bool} (hp : p '\n' = false) (cs : List Char) :
    (cs.dropWhile p).count '\n' = cs.count '\n' := by
  induction cs with
  | nil => rfl
  | cons c cs ih =>
    rw [List.dropWhile_cons]
    split
    · rename_i hc
      have hne : (c == '\n') = false := by
        rw [beq_eq_false_iff_ne]
        rintro rfl
        rw [hp] at hc
        cases hc
      rw [ih, List.count_cons, hne]
      rfl
    · rfl

theorem count_newline_skip (cs : List Char) : (skip cs).count '\n' = cs.count '\n' := by
  rw [← count_newline_dropWhile (p := isLineBlank) (by decide) cs, skip]
  generalize cs.dropWhile isLineBlank = cs
  fun_cases skipComment cs with
  | case1 cs =>
    rw [count_newline_dropWhile (by decide)]
    rfl
  | case2 => rfl

theorem count_newline_readQuoted {read text : List Char}
    (h : readQuoted read cs = .ok (text, rest)) : rest.count '\n' = cs.count '\n' := by
  fun_induction readQuoted read cs with
  | case1 =>
    cases h
    rfl
  | case2 read e cs c he ih =>
    have hne : e ≠ '\n' := by
      rintro rfl
      cases he
    rw [ih h, List.count_cons_of_ne (by decide), List.count_cons_of_ne hne]
  | case3 => cases h
  | case4 => cases h
  | case5 read c cs hquote hescape hc ih =>
    rw [ih h, List.count_cons_of_ne fun hn => hc (.inl hn)]
  | case6 => cases h

theorem count_newline_takeWord {taken : List Char} (cs : List Char) :
    (takeWord taken cs).2.count '\n' = cs.count '\n' := by
  induction cs generalizing taken with
  | nil => rfl
  | cons c cs ih =>
    rw [takeWord]
    split
    · rename_i hc
      have hne : c ≠ '\n' := by
        rintro rfl
        cases hc
      rw [ih, List.count_cons_of_ne hne]
    · rfl

theorem count_newline_readRaw (braced : Bool) (cs : List Char) :
    (readRaw braced cs).2.count '\n' = cs.count '\n' := by
  rw [← count_newline_dropWhile (p := isRawBlank) (by decide) cs, readRaw]
  split
  · rfl
  · exact count_newline_dropWhile rfl _

end readers

/-! ## The scanner at the end of a line -/

/-- How many braces are open behind some tokens. -/
def depthOf (ts : List Token) : Nat := ts.foldl (fun depth t => depthAfter depth t.kind) 0

theorem depthOf_concat (ts : List Token) (t : Token) :
    depthOf (ts ++ [t]) = depthAfter (depthOf ts) t.kind := by
  rw [depthOf, List.foldl_append]
  rfl

namespace Scanner

/-- The depth is that of the tokens found so far. -/
def Counted (s : Scanner) : Prop := s.depth = depthOf s.found.reverse

/-- A scanner that stands behind some tokens. -/
def behind (t : Tokens) : Scanner := ⟨t.tokens.reverse, t.lastLine, depthOf t.tokens⟩

variable {s : Scanner}

theorem Counted.push (h : s.Counted) (kind : TokenKind) (text : List Char) {line : Nat} :
    Counted ⟨(s.push kind text).found, line, depthAfter s.depth kind⟩ := by
  rw [Counted, Scanner.push, List.reverse_cons, depthOf_concat, ← h]

theorem Counted.pushRaw (h : s.Counted) (raw : Option (List Char)) : (s.pushRaw raw).Counted := by
  cases raw with
  | none => exact h
  | some raw => exact h.push .raw raw

theorem line_pushRaw (s : Scanner) (raw : Option (List Char)) : (s.pushRaw raw).line = s.line := by
  cases raw <;> rfl

theorem append_newline_ne {x : Char} (hx : '\n' ≠ x) {cs : List Char} (h : ∀ u, cs ≠ x :: u)
    (rest u : List Char) : cs ++ '\n' :: rest ≠ x :: u := by
  cases cs with
  | nil => exact fun he => hx (List.cons.inj he).1
  | cons c cs => exact fun he => h cs (by rw [(List.cons.inj he).1])

theorem Lone.append_newline {c : Char} {cs : List Char} (h : Lone c cs) (rest : List Char) :
    Lone c (cs ++ '\n' :: rest) where
  newline := h.newline
  quote := h.quote
  colon _ hc := append_newline_ne (by decide) (fun u => h.colon u hc) rest _
  plus _ hc := append_newline_ne (by decide) (fun u => h.plus u hc) rest _
  minus _ hc := append_newline_ne (by decide) (fun u => h.minus u hc) rest _

/-- **The end of a line is the end of all tokens before it.** -/
theorem run_append_newline {cs : List Char} {t : Tokens} (hs : s.Counted) (h : s.run cs = .ok t)
    (rest : List Char) : s.run (cs ++ '\n' :: rest) = (behind t).run ('\n' :: rest) := by
  -- the scanner that goes on behind the line is fixed by what was found, so each token is found as
  -- before and the induction is on the rest of the line
  fun_induction run s cs with
  | case1 s cs hend =>
    -- What stands behind the last token is blank or a comment, also in front of another line.
    have hbehind : behind ⟨s.found.reverse, s.line⟩ = s := by
      rw [behind, List.reverse_reverse, ← hs]
    cases h
    rw [run_eq, skip_append_newline, hend, List.nil_append, runAt, hbehind, run_newline]
  | case2 s cs rest hcs hlt ih =>
    rw [run_eq, skip_append_newline, hcs, List.cons_append, runAt]
    exact ih (hs.push .newline _) h
  | case3 s cs rest hcs text rest' hq hlt ih =>
    rw [run_eq, skip_append_newline, hcs, List.cons_append, runAt, readQuoted_append hq]
    exact ih (hs.push .quoted _) h
  | case4 => cases h
  | case5 s cs rest hcs hlt ih =>
    rw [run_eq, skip_append_newline, hcs, List.cons_append, List.cons_append, runAt,
      readRaw_append_newline]
    exact ih ((hs.push .doubleColon _).pushRaw _) h
  | case6 s cs rest hcs hlt ih =>
    rw [run_eq, skip_append_newline, hcs, List.cons_append, List.cons_append, runAt]
    exact ih (hs.push .plusEquals _) h
  | case7 s cs rest hcs hlt ih =>
    rw [run_eq, skip_append_newline, hcs, List.cons_append, List.cons_append, runAt]
    exact ih (hs.push .minusEquals _) h
  | case8 s cs c rest h₁ h₂ h₃ h₄ h₅ hcs kind hkind hlt ih =>
    have hlone : Lone c rest := ⟨h₁, h₂, h₃, h₄, h₅⟩
    rw [run_eq, skip_append_newline, hcs, List.cons_append,
      runAt_mark (hlone.append_newline _) hkind]
    exact ih (hs.push kind _) h
  | case9 s cs c rest h₁ h₂ h₃ h₄ h₅ hcs hkind hc hlt ih =>
    have hlone : Lone c rest := ⟨h₁, h₂, h₃, h₄, h₅⟩
    rw [run_eq, skip_append_newline, hcs, List.cons_append,
      runAt_word (hlone.append_newline _) hkind hc, takeWord_append_newline]
    exact ih (hs.push .word _) h
  | case10 => cases h

/-- The last line is as many lines behind the first one as there are ends of lines. -/
theorem lastLine_run {cs : List Char} {t : Tokens} (h : s.run cs = .ok t) :
    t.lastLine = s.line + cs.count '\n' := by
  -- only skipping and the ends of lines have lines to count: no token holds one
  fun_induction run s cs with
  | case1 s cs hend =>
    cases h
    rw [← count_newline_skip, hend]
    rfl
  | case2 s cs rest hcs hlt ih =>
    rw [ih h, ← count_newline_skip cs, hcs, List.count_cons_self]
    exact Nat.add_right_comm ..
  | case3 s cs rest hcs text rest' hq hlt ih =>
    rw [ih h, ← count_newline_skip cs, hcs, List.count_cons_of_ne (by decide),
      count_newline_readQuoted hq]
    rfl
  | case4 => cases h
  | case5 s cs rest hcs hlt ih =>
    rw [ih h, ← count_newline_skip cs, hcs, List.count_cons_of_ne (by decide),
      List.count_cons_of_ne (by decide), count_newline_readRaw, line_pushRaw]
    rfl
  | case6 s cs rest hcs hlt ih =>
    rw [ih h, ← count_newline_skip cs, hcs, List.count_cons_of_ne (by decide),
      List.count_cons_of_ne (by decide)]
    rfl
  | case7 s cs rest hcs hlt ih =>
    rw [ih h, ← count_newline_skip cs, hcs, List.count_cons_of_ne (by decide),
      List.count_cons_of_ne (by decide)]
    rfl
  | case8 s cs c rest h₁ h₂ h₃ h₄ h₅ hcs kind hkind hlt ih =>
    rw [ih h, ← count_newline_skip cs, hcs, List.count_cons_of_ne h₁]
    rfl
  | case9 s cs c rest h₁ h₂ h₃ h₄ h₅ hcs hkind hc hlt ih =>
    rw [ih h, ← count_newline_skip cs, hcs, List.count_cons_of_ne h₁, count_newline_takeWord]
    rfl
  | case10 => cases h

end Scanner

end BlockDocument.Command
