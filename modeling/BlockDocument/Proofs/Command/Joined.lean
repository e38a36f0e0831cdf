import BlockDocument.Proofs.Command.Braces
import BlockDocument.Proofs.Command.Lines
import BlockDocument.Proofs.Command.RoundTrip
import BlockDocument.Proofs.Command.Shift

/-!
# Texts one below the other

A text that is a program leaves nothing open: the braces of its groups are closed and no command
goes on behind its last line. So another text can be written on the lines below it, and what is read
there, or the fault that is met there, is what comes of that text alone, as many lines further down.
-/

namespace BlockDocument

namespace Command

/-- What comes of a text that stands some lines further down. -/
def shiftOutcome {α β : Type} (k : Nat) (g : α → β) :
    Except (Nat × Fault) α → Except (Nat × Fault) β
  | .ok a => .ok (g a)
  | .error (line, fault) => .error (line + k, fault.shift k)

/-! ## Scanning -/

/-- The tokens of a text some lines further down, behind those of another text. -/
def Tokens.shift (k : Nat) (front : List Token) (t : Tokens) : Tokens :=
  ⟨front ++ t.tokens.map (Token.shift k), t.lastLine + k⟩

/-- A place in a text some lines further down, behind the tokens of another text. -/
def Scanner.shift (k : Nat) (front : List Token) (s : Scanner) : Scanner :=
  ⟨s.found.map (Token.shift k) ++ front.reverse, s.line + k, s.depth⟩

theorem shift_of_readQuoted {read cs : List Char} {fault : Fault} (k : Nat)
    (h : readQuoted read cs = .error fault) : fault.shift k = fault := by
  fun_induction readQuoted read cs with
  | case1 => cases h
  | case2 _ _ _ _ _ ih => exact ih h
  | case3 =>
    cases h
    split <;> rfl
  | case4 =>
    cases h
    rfl
  | case5 _ _ _ _ _ _ ih => exact ih h
  | case6 =>
    cases h
    rfl

theorem Scanner.pushRaw_shift (k : Nat) (front : List Token) (s : Scanner)
    (raw : Option (List Char)) : (s.shift k front).pushRaw raw = (s.pushRaw raw).shift k front := by
  cases raw <;> rfl

/-- **A text is cut into the same tokens on other lines.** -/
theorem Scanner.run_shift (k : Nat) (front : List Token) (s : Scanner) (cs : List Char) :
    (s.shift k front).run cs = shiftOutcome k (Tokens.shift k front) (s.run cs) := by
  fun_induction run s cs with
  | case1 s cs hend =>
    rw [run_eq, hend, runAt, shiftOutcome, Tokens.shift, Scanner.shift, List.reverse_append,
      List.reverse_reverse, List.map_reverse]
  | case2 s cs rest hcs hlt ih =>
    -- Only the end of a line changes the number of the line.
    rw [run_eq, hcs, runAt, ← ih, Scanner.shift, Scanner.shift, Nat.add_right_comm]
    rfl
  | case3 s cs rest hcs text rest' hq hlt ih =>
    rw [run_eq, hcs, runAt, hq, ← ih]
    rfl
  | case4 s cs rest hcs fault hq =>
    rw [run_eq, hcs, runAt, hq, shiftOutcome, shift_of_readQuoted k hq]
    rfl
  | case5 s cs rest hcs hlt ih =>
    rw [run_eq, hcs, runAt, ← ih, ← pushRaw_shift]
    rfl
  | case6 s cs rest hcs hlt ih =>
    rw [run_eq, hcs, runAt, ← ih]
    rfl
  | case7 s cs rest hcs hlt ih =>
    rw [run_eq, hcs, runAt, ← ih]
    rfl
  | case8 s cs c rest h₁ h₂ h₃ h₄ h₅ hcs kind hkind hlt ih =>
    rw [run_eq, hcs, runAt_mark ⟨h₁, h₂, h₃, h₄, h₅⟩ hkind, ← ih]
    rfl
  | case9 s cs c rest h₁ h₂ h₃ h₄ h₅ hcs hkind hc hlt ih =>
    rw [run_eq, hcs, runAt_word ⟨h₁, h₂, h₃, h₄, h₅⟩ hkind hc, ← ih]
    rfl
  | case10 s cs c rest h₁ h₂ h₃ h₄ h₅ hcs hkind hc =>
    rw [run_eq, hcs, runAt_unexpected ⟨h₁, h₂, h₃, h₄, h₅⟩ hkind hc]
    rfl

/-! ## Reading -/

namespace Reader

theorem batches_separator {sep : Token} (hsep : isSeparator sep = true) {fuel : Nat}
    {read : Program} {ts : List Token} :
    batches (fuel + 1) read (sep :: ts) = batches (fuel + 1) read ts := by
  rw [batches, bind_ok (skipSeparators_eq _), bind_ok (skipSeparators_eq _),
    List.dropWhile_cons_of_pos hsep]

end Reader

/-- Tokens behind others are read as on their own if the ones in front are all read before them. -/
theorem Tokens.program_shift {k : Nat} {front : List Token} {p : Program} (t : Tokens)
    (h : ∀ ts fuel, (front ++ ts).length < fuel → ∃ fuel', ts.length < fuel' ∧
      Reader.batches fuel [] (front ++ ts) = Reader.batches fuel' p.reverse ts) :
    (t.shift k front).program = shiftOutcome k (fun q => p ++ q.shift k) t.program := by
  obtain ⟨fuel, hfuel, hread⟩ := h (t.tokens.map (Token.shift k)) _ (Nat.lt_succ_self _)
  rw [List.length_map] at hfuel
  have hlifts := Reader.lifts_batches (k := k) (Nat.lt_succ_self _) hfuel [] p.reverse
  rw [List.map_nil, List.nil_append, List.reverse_reverse] at hlifts
  rw [Tokens.program, Tokens.shift, hread, hlifts, Tokens.program]
  cases Reader.batches (t.tokens.length + 1) [] t.tokens with
  | ok q rest => rfl
  | error fault rest => cases rest <;> rfl

/-- Tokens are read on other lines as on their own. -/
theorem Tokens.program_shift_nil (k : Nat) (t : Tokens) :
    (t.shift k []).program = shiftOutcome k (Program.shift k) t.program :=
  t.program_shift (p := []) fun _ fuel hfuel => ⟨fuel, hfuel, rfl⟩

/-- Tokens are read behind a program and a separator as on their own. -/
theorem ProgramForm.program_shift {k : Nat} {front : List Token} {p : Program} {sep : Token}
    (h : ProgramForm front p) (hsep : Reader.isSeparator sep = true) (t : Tokens) :
    (t.shift k (front ++ [sep])).program =
      shiftOutcome k (fun q => p ++ q.shift k) t.program := by
  refine t.program_shift fun ts fuel hfuel => ?_
  have hends : Reader.Ends false (sep :: ts) := Reader.ends_iff.mpr fun _ ht => by
    cases ht
    exact .inl hsep
  rw [List.append_assoc, List.singleton_append] at hfuel ⊢
  -- The program ends in front of the separator, and what comes next is read from behind it.
  obtain ⟨fuel', hfuel', hread⟩ := Reader.batches_append h hends hfuel []
  rw [List.length_cons] at hfuel'
  obtain ⟨fuel', rfl⟩ := Nat.exists_eq_add_one.mpr (Nat.zero_lt_of_lt hfuel')
  exact ⟨fuel' + 1, by omega, by rw [hread, Reader.batches_separator hsep, List.append_nil]⟩

/-! ## Texts -/

/-- The program that a text is. A fault comes with its line. -/
def programOf (cs : List Char) : Except (Nat × Fault) Program := scan cs >>= Tokens.program

theorem programOf_eq_ok {cs : List Char} {p : Program} :
    programOf cs = .ok p ↔ ∃ t, scan cs = .ok t ∧ ProgramForm t.tokens p := by
  rw [programOf]
  cases scan cs with
  | error fault =>
    constructor
    · rintro ⟨⟩
    · rintro ⟨_, ⟨⟩, _⟩
  | ok t =>
    constructor
    · exact fun h => ⟨t, rfl, programForm_of_program h⟩
    · rintro ⟨_, ⟨⟩, h⟩
      exact h.program_eq

theorem bind_shiftOutcome {α β γ δ : Type} {k : Nat} {g : α → β} {g' : γ → δ}
    {f : α → Except (Nat × Fault) γ} {f' : β → Except (Nat × Fault) δ}
    (h : ∀ a, f' (g a) = shiftOutcome k g' (f a)) (r : Except (Nat × Fault) α) :
    shiftOutcome k g r >>= f' = shiftOutcome k g' (r >>= f) := by
  cases r with
  | error fault => rfl
  | ok a => exact h a

/-- Lines are counted from one. -/
theorem one_le_of_programOf {cs : List Char} {line : Nat} {fault : Fault}
    (h : programOf cs = .error (line, fault)) : 1 ≤ line := by
  -- Counting from one is counting from nought, one line further down.
  have hscan : scan cs = shiftOutcome 1 (Tokens.shift 1 []) (Scanner.run ⟨[], 0, 0⟩ cs) :=
    Scanner.run_shift 1 [] ⟨[], 0, 0⟩ cs
  rw [programOf, hscan, bind_shiftOutcome (Tokens.program_shift_nil 1)] at h
  cases hread : Scanner.run ⟨[], 0, 0⟩ cs >>= Tokens.program with
  | ok p =>
    rw [hread] at h
    cases h
  | error fault =>
    rw [hread] at h
    cases h
    exact Nat.le_add_left 1 _

/-- **A text below a program** is read as on its own. -/
theorem programOf_append_newline {cs : List Char} {p : Program} (h : programOf cs = .ok p)
    (cs' : List Char) :
    programOf (cs ++ '\n' :: cs') = shiftOutcome (cs.count '\n' + 1)
      (fun q => p ++ q.shift (cs.count '\n' + 1)) (programOf cs') := by
  obtain ⟨t, hscan, hform⟩ := programOf_eq_ok.mp h
  have hline : t.lastLine = cs.count '\n' + 1 :=
    (Scanner.lastLine_run hscan).trans (Nat.add_comm ..)
  have hcounted : Scanner.Counted {} := rfl
  have hdepth : depthOf t.tokens = 0 := hform.balanced 0
  have hstart : scan (cs ++ '\n' :: cs') =
      shiftOutcome t.lastLine (Tokens.shift t.lastLine (t.tokens ++ [⟨.newline, "\n", t.lastLine⟩]))
        (scan cs') := by
    rw [scan, Scanner.run_append_newline hcounted hscan, Scanner.run_newline, scan,
      ← Scanner.run_shift, Scanner.behind, Scanner.push, hdepth, Scanner.shift,
      Nat.add_comm t.lastLine]
    simp
  rw [programOf, hstart, bind_shiftOutcome (hform.program_shift rfl), hline]
  rfl

/-! ## Fragments -/

theorem dropLine_cons {c : Char} (hc : c ≠ '\n') (cs : List Char) :
    dropLine (c :: cs) = dropLine cs := by
  rw [dropLine, List.dropWhile_cons_of_pos (by simpa using hc), dropLine]

theorem nthLine_append_newline (n : Nat) (cs rest : List Char) :
    nthLine (n + (cs.count '\n' + 1)) (cs ++ '\n' :: rest) = nthLine n rest := by
  induction cs with
  | nil => rfl
  | cons c cs ih =>
    rw [List.cons_append]
    by_cases hc : c = '\n'
    · rw [hc, List.count_cons_self, ← ih]
      rfl
    · rw [List.count_cons_of_ne hc, ← ih, ← Nat.add_assoc, nthLine, nthLine, dropLine_cons hc]

/-- The fragment of a line is that of the same line further down. -/
theorem fragment_append_newline {line : Nat} (h : 1 ≤ line) (cs rest : List Char) :
    fragment (cs ++ '\n' :: rest) (line + (cs.count '\n' + 1)) = fragment rest line := by
  rw [fragment, fragment, Nat.sub_add_comm h, nthLine_append_newline]

end Command

namespace Program

open Command

theorem parse_eq_located {source : String} (h : source.utf8ByteSize ≤ sourceBound) :
    parse source = located source.toList (programOf source.toList) := by
  rw [parse, if_neg (Nat.not_lt.mpr h), programOf]
  show (tokens source.toList >>= fun t => located source.toList t.program) = _
  rw [tokens]
  cases scan source.toList <;> rfl

theorem utf8ByteSize_le_of_parse {source : String} {p : Program} (h : parse source = .ok p) :
    source.utf8ByteSize ≤ sourceBound := by
  by_contra hsize
  rw [parse, if_pos (Nat.not_le.mp hsize)] at h
  cases h

/-- **A text below a program**: it is read, or refused, as on its own, with every line as many lines
further down as the program is long. -/
theorem parse_append_newline {source source' : String} {p : Program} (h : parse source = .ok p)
    (hsize : (source ++ "\n" ++ source').utf8ByteSize ≤ sourceBound) :
    let k := source.toList.count '\n' + 1
    (∀ q, parse source' = .ok q → parse (source ++ "\n" ++ source') = .ok (p ++ q.shift k)) ∧
      ∀ failure, parse source' = .error failure → ∃ line near fault fault',
        failure = .malformed line near fault ∧ fault'.message = fault.message ∧
          parse (source ++ "\n" ++ source') = .error (.malformed (line + k) near fault') := by
  intro k
  have hsize' : source'.utf8ByteSize ≤ sourceBound := by
    rw [String.utf8ByteSize_append] at hsize
    omega
  have hlist : (source ++ "\n" ++ source').toList = source.toList ++ '\n' :: source'.toList := by
    simp
  -- the text above is read, so from here on only the characters count, not the bound on their
  -- number
  have hread : programOf source.toList = .ok p := by
    rw [parse_eq_located (utf8ByteSize_le_of_parse h)] at h
    cases hread : programOf source.toList with
    | error fault =>
      rw [hread] at h
      cases h
    | ok q =>
      rw [hread] at h
      cases h
      rfl
  rw [parse_eq_located hsize', parse_eq_located hsize, hlist, programOf_append_newline hread]
  cases hbelow : programOf source'.toList with
  | ok q =>
    refine ⟨fun _ hq => ?_, fun _ hfailure => by cases hfailure⟩
    cases hq
    rfl
  | error fault =>
    obtain ⟨line, fault⟩ := fault
    refine ⟨fun _ hq => (by cases hq), fun _ hfailure => ?_⟩
    cases hfailure
    refine ⟨line, _, fault, fault.shift k, rfl, Fault.message_shift k fault, ?_⟩
    rw [shiftOutcome, located, Fault.failure, fragment_append_newline (one_le_of_programOf hbelow)]

/-- A group over several lines, with a brace in a text without quotes and a comment behind it. -/
def upperSource : String := "ATOMIC \x7b\n  EDIT 1 SET = \"a\"; APPEND 2 :: b \x7b\n\x7d // c"

/-- Another group, below a blank line. -/
def lowerSource : String := "\nATOMIC \x7b delete 3\n move 4 to 5 \x7d\nPRUNE unreachable"

/-- A text with a fault on its second line. -/
def faultySource : String := "DELETE 3\nMOVE 4 5"

theorem parse_upper_lower :
    ∃ p q fault, parse upperSource = .ok p ∧ parse lowerSource = .ok q ∧
      parse (upperSource ++ "\n" ++ lowerSource) = .ok (p ++ q.shift 3) ∧
      parse faultySource = .error (.malformed 2 "MOVE 4 5" (.expectedDirection "5")) ∧
      fault.message = "expected TO, BEFORE or AFTER, found '5'" ∧
      parse (upperSource ++ "\n" ++ faultySource) = .error (.malformed 5 "MOVE 4 5" fault) := by
  have hupper : (parse upperSource).toOption.any (fun _ => true) = true := by decide +kernel
  have hlower : (parse lowerSource).toOption.any (fun _ => true) = true := by decide +kernel
  have hfaulty : (parse faultySource).map (fun _ => ()) =
      .error (.malformed 2 "MOVE 4 5" (.expectedDirection "5")) := by
    decide +kernel
  obtain ⟨p, hp, -⟩ := ok_of_any hupper
  obtain ⟨q, hq, -⟩ := ok_of_any hlower
  have herror : parse faultySource = .error (.malformed 2 "MOVE 4 5" (.expectedDirection "5")) := by
    cases hparse : parse faultySource with
    | ok r =>
      rw [hparse] at hfaulty
      cases hfaulty
    | error failure =>
      rw [hparse] at hfaulty
      exact congrArg Except.error (Except.error.inj hfaulty)
  obtain ⟨line, near, fault, fault', hfailure, hmessage, hjoined⟩ :=
    (parse_append_newline hp (by decide +kernel)).2 _ herror
  cases hfailure
  exact ⟨p, q, fault', hp, hq, (parse_append_newline hp (by decide +kernel)).1 q hq, herror,
    hmessage.trans (by decide), hjoined⟩

end Program

end BlockDocument
