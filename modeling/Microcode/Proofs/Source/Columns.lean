import Microcode.Proofs.Source.Lines

/-!
# Characters on the lines of a source

**Input.**  The characters that are read from a source: its lines, each followed by a
line feed.

**Algorithm.**  A character stands behind the lines above it and behind the characters
to its left, which end no line.  So its place is found by counting both, and the lines
of the source are found by the same count.

**Results.**
* `exists_line_of_joinLines` and `Source.exists_line_of_chars`: a character stands on a
  line or ends it, at the place that counting gives.
* `Source.exists_chars_of_lines`: a character of a line is among those that are read.
* `Source.exists_columns`: characters that end no line are the columns of one line.
* `exists_empty_lines`: line feeds in a row end empty lines.
* `normalized_of_newlines`: a text whose lines all end with one line feed is read as
  it is.
-/

namespace Microcode

section Lines

variable {lines above below : List (List Char)} {before after : List Char} {c : Char}

@[simp] theorem joinLines_nil :
    joinLines [] = [] := by
  rfl

theorem joinLines_cons
    (line : List Char)
    (lines : List (List Char)) :
    joinLines (line :: lines) = line ++ ['\n'] ++ joinLines lines := by
  rfl

theorem joinLines_append
    (above below : List (List Char)) :
    joinLines (above ++ below) = joinLines above ++ joinLines below := by
  simp [joinLines]

/-- What is read ends with the end of the last line. -/
theorem eq_newline_of_getLast?
    (h : (joinLines lines).getLast? = some c) :
    c = '\n' := by
  induction lines with
  | nil =>
      cases h
  | cons line lines ih =>
      rw [joinLines_cons, List.getLast?_append] at h
      cases hlast : (joinLines lines).getLast? with
      | none =>
          rw [hlast, Option.none_or, List.getLast?_concat] at h
          exact (Option.some.inj h).symm
      | some d =>
          rw [hlast, Option.some_or] at h
          exact ih (hlast.trans h)

/-- A text in which a single line feed ends every line is read as it is. -/
theorem normalized_of_newlines
    {cs : List Char}
    (hreturn : '\r' ∉ cs)
    (hlast : ∀ c, cs.getLast? = some c → c = '\n') :
    Text.normalized cs = cs := by
  induction cs with
  | nil =>
      rfl
  | cons d cs ih =>
      obtain ⟨hd, hcs⟩ := not_or.1 (fun hmem => hreturn (List.mem_cons.2 hmem))
      have hrest := ih hcs fun c hc => hlast c (by rw [List.getLast?_cons, hc]; rfl)
      by_cases hnewline : d = '\n'
      · subst hnewline
        rw [Text.normalized, Text.lines_newline]
        exact congrArg (List.cons '\n') hrest
      · have hne : cs ≠ [] := by
          rintro rfl
          exact hnewline (hlast d rfl)
        obtain ⟨line, lines, hlines⟩ := List.exists_cons_of_ne_nil (Text.lines_ne_nil hne)
        rw [Text.normalized, hlines] at hrest
        rw [Text.normalized, Text.lines_cons hnewline fun h => absurd h.symm hd, hlines]
        exact congrArg (List.cons d) hrest

/-- A character of some lines stands on one of them or ends it. -/
theorem exists_line_of_joinLines
    (h : joinLines lines = before ++ c :: after) :
    ∃ above line below left right, lines = above ++ line :: below ∧
      before = joinLines above ++ left ∧ line ++ ['\n'] = left ++ c :: right ∧
      after = right ++ joinLines below := by
  induction lines generalizing before with
  | nil =>
      simp at h
  | cons line lines ih =>
      rw [joinLines_cons] at h
      rcases append_eq_append_cons h with ⟨right, hline, hafter⟩ | ⟨rest, hbefore, hrest⟩
      · exact ⟨[], line, lines, before, right, rfl, rfl, hline, hafter⟩
      · obtain ⟨above, line', below, left, right, rfl, rfl, hline, hafter⟩ := ih hrest
        refine ⟨line :: above, line', below, left, right, rfl, ?_, hline, hafter⟩
        simp only [hbefore, joinLines_cons, List.append_assoc]

/-- An entry of a list stands behind as many entries as its index says. -/
theorem exists_append_of_getElem?
    {α : Type}
    {xs : List α}
    {k : Nat}
    {x : α}
    (h : xs[k]? = some x) :
    ∃ front back, xs = front ++ x :: back ∧ front.length = k := by
  obtain ⟨hk, rfl⟩ := List.getElem?_eq_some_iff.1 h
  refine ⟨xs.take k, xs.drop (k + 1), ?_, ?_⟩
  · rw [← List.drop_eq_getElem_cons hk, List.take_append_drop]
  · rw [List.length_take]
    omega

/-- Whole lines are passed one by one. -/
theorem advance_joinLines
    (habove : ∀ line ∈ above, '\n' ∉ line)
    (n : Nat) :
    (Position.mk n 1).advance (joinLines above) = ⟨n + above.length, 1⟩ := by
  induction above generalizing n with
  | nil =>
      rfl
  | cons line above ih =>
      have hline := habove line (List.mem_cons_self ..)
      have hend : (Position.mk n 1).advance (line ++ ['\n']) = ⟨n + 1, 1⟩ := by
        rw [Position.advance_append, Position.advance_of_not_mem _ hline]
        rfl
      rw [joinLines_cons, Position.advance_append, hend,
        ih (fun l hl => habove l (List.mem_cons_of_mem _ hl)), List.length_cons]
      simp only [Position.mk.injEq, and_true]
      omega

/-- The place behind some lines and some characters of the next one. -/
theorem advance_joinLines_append
    (habove : ∀ line ∈ above, '\n' ∉ line)
    {left : List Char}
    (hleft : '\n' ∉ left) :
    Position.start.advance (joinLines above ++ left) =
      ⟨above.length + 1, left.length + 1⟩ := by
  have hstart : Position.start = ⟨1, 1⟩ := rfl
  rw [Position.advance_append, hstart, advance_joinLines habove, Position.advance_of_not_mem _ hleft]
  simp only [Position.mk.injEq]
  omega

/-- What stands before the last character of a line and its end is on the line. -/
theorem not_mem_left
    {line left right : List Char}
    (hline : '\n' ∉ line)
    (h : line ++ ['\n'] = left ++ c :: right) :
    '\n' ∉ left := by
  intro hmem
  rcases append_eq_append_cons h with ⟨more, rfl, -⟩ | ⟨more, rfl, hmore⟩
  · exact hline (List.mem_append_left _ hmem)
  · rcases List.singleton_eq_append_iff.1 hmore with ⟨rfl, -⟩ | ⟨-, hnil⟩
    · rw [List.append_nil] at hmem
      exact hline hmem
    · cases hnil

/-- A line feed behind a line ends it. -/
theorem eq_line_of_newline
    {line left right : List Char}
    (hline : '\n' ∉ line)
    (h : line ++ ['\n'] = left ++ '\n' :: right) :
    left = line ∧ right = [] := by
  obtain ⟨rfl, -, rfl⟩ := (List.append_cons_inj_of_notMem hline List.not_mem_nil).1 h
  exact ⟨rfl, rfl⟩

/-- Characters of a line that end no line are followed by more of this line. -/
theorem exists_line_of_text
    {line left right text : List Char}
    (htext : '\n' ∉ c :: text)
    (h : line ++ ['\n'] = left ++ c :: right)
    (hrest : text ++ after = right ++ joinLines below) :
    ∃ more, line = left ++ c :: text ++ more ∧ after = more ++ '\n' :: joinLines below := by
  have hlast : right ≠ [] := by
    rintro rfl
    have hc := List.append_inj_right' h rfl
    exact htext (by rw [← (List.cons.inj hc).1]; exact List.mem_cons_self ..)
  have hright : right = right.dropLast ++ ['\n'] := by
    have hgetLast := congrArg List.getLast? h
    rw [List.getLast?_concat, List.getLast?_append_of_ne_nil _ (List.cons_ne_nil _ _),
      List.getLast?_cons_of_ne_nil hlast] at hgetLast
    exact (List.dropLast_append_getLast? '\n' hgetLast.symm).symm
  rw [hright] at h hrest
  have hline : line = left ++ c :: right.dropLast := by
    have hend : line ++ ['\n'] = left ++ c :: right.dropLast ++ ['\n'] := by
      rw [h]
      simp
    exact List.append_cancel_right hend
  rw [List.append_assoc, List.singleton_append] at hrest
  rcases List.append_eq_append_iff.1 hrest with ⟨more, hmore, hafter⟩ | ⟨more, rfl, hafter⟩
  · exact ⟨more, by rw [hline, hmore]; simp, hafter⟩
  · cases more with
    | nil =>
        refine ⟨[], by simpa using hline, by simpa using hafter.symm⟩
    | cons d more =>
        obtain ⟨rfl, -⟩ := List.cons.inj hafter
        exact absurd (by simp) htext

/-- Line feeds in a row end empty lines. -/
theorem exists_empty_lines
    {k : Nat}
    (hbelow : ∀ line ∈ below, '\n' ∉ line)
    (h : List.replicate k '\n' ++ after = joinLines below) :
    ∃ rest, below = List.replicate k [] ++ rest ∧ after = joinLines rest := by
  induction k generalizing below with
  | zero =>
      exact ⟨below, rfl, h⟩
  | succ k ih =>
      rw [List.replicate_succ, List.cons_append] at h
      cases below with
      | nil =>
          cases h
      | cons line below =>
          have hline : line = [] := by
            cases line with
            | nil => rfl
            | cons d line =>
                obtain ⟨rfl, -⟩ := List.cons.inj h
                exact absurd (List.mem_cons_self ..) (hbelow _ (List.mem_cons_self ..))
          subst hline
          obtain ⟨-, hmore⟩ := List.cons.inj h
          obtain ⟨rest, rfl, hafter⟩ := ih (fun l hl => hbelow l (List.mem_cons_of_mem _ hl)) hmore
          exact ⟨rest, rfl, hafter⟩

end Lines

/-- The characters of a line from one column to another, both counted from one and
included. -/
def Text.columns (line : List Char) (first last : Nat) : List Char :=
  (line.drop (first - 1)).take (last + 1 - first)

namespace Source

variable {s : Source} {above below : List (List Char)} {line before after : List Char} {c : Char}

theorem newline_not_mem
    (h : s.lines = above ++ line :: below) :
    (∀ l ∈ above, '\n' ∉ l) ∧ '\n' ∉ line ∧ ∀ l ∈ below, '\n' ∉ l := by
  have hall : ∀ l ∈ above ++ line :: below, '\n' ∉ l := by
    rw [← h]
    exact fun l hl => Text.not_mem_of_mem_lines _ _ hl
  refine ⟨fun l hl => hall l ?_, hall line ?_, fun l hl => hall l ?_⟩ <;> simp [*]

/-- The line behind some lines is the one of the next number. -/
theorem line_of_lines
    (h : s.lines = above ++ line :: below) :
    s.line (above.length + 1) = String.ofList line := by
  rw [Source.line, Text.lineAt, h]
  simp

/-- A character that is read stands on a line or ends it, at the place that counting
lines and characters gives. -/
theorem exists_line_of_chars
    (h : s.chars = before ++ c :: after) :
    ∃ above line below left right, s.lines = above ++ line :: below ∧
      before = joinLines above ++ left ∧ line ++ ['\n'] = left ++ c :: right ∧
      after = right ++ joinLines below ∧
      Position.start.advance before = ⟨above.length + 1, left.length + 1⟩ := by
  have hjoin : joinLines s.lines = before ++ c :: after := h
  obtain ⟨above, line, below, left, right, hlines, rfl, hline, hafter⟩ :=
    exists_line_of_joinLines hjoin
  obtain ⟨habove, hnot, -⟩ := newline_not_mem hlines
  exact ⟨above, line, below, left, right, hlines, rfl, hline, hafter,
    advance_joinLines_append habove (not_mem_left hnot hline)⟩

/-- A character of a line is read at its place. -/
theorem exists_chars_of_lines
    {n k : Nat}
    {cs : List Char}
    (hline : s.lines[n]? = some cs)
    (hc : cs[k]? = some c) :
    ∃ before after, s.chars = before ++ c :: after ∧
      Position.start.advance before = ⟨n + 1, k + 1⟩ := by
  obtain ⟨above, below, hlines, rfl⟩ := exists_append_of_getElem? hline
  obtain ⟨left, right, rfl, rfl⟩ := exists_append_of_getElem? hc
  obtain ⟨habove, hnot, -⟩ := newline_not_mem hlines
  have hleft : '\n' ∉ left := fun hmem => hnot (List.mem_append_left _ hmem)
  refine ⟨joinLines above ++ left, right ++ '\n' :: joinLines below, ?_,
    advance_joinLines_append habove hleft⟩
  show joinLines s.lines = _
  rw [hlines, joinLines_append, joinLines_cons]
  simp

/-- Characters that end no line are columns of one line, which the characters around
them complete. -/
theorem exists_columns
    {text : List Char}
    (h : s.chars = before ++ text ++ after)
    (hne : text ≠ [])
    (htext : '\n' ∉ text) :
    ∃ above left more below, s.lines = above ++ (left ++ text ++ more) :: below ∧
      before = joinLines above ++ left ∧ after = more ++ '\n' :: joinLines below ∧
      Position.start.advance before = ⟨above.length + 1, left.length + 1⟩ := by
  cases text with
  | nil => exact absurd rfl hne
  | cons c text =>
      rw [List.append_assoc, List.cons_append] at h
      obtain ⟨above, line, below, left, right, hlines, hbefore, hline, hafter, hplace⟩ :=
        exists_line_of_chars h
      obtain ⟨more, rfl, rfl⟩ := exists_line_of_text htext hline hafter
      exact ⟨above, left, more, below, hlines, hbefore, rfl, hplace⟩

end Source

end Microcode
