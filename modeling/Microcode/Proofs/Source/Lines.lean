import Microcode.Source
import Mathlib.Tactic

/-!
# Lines of a source and places on them

A text is cut at its line ends, so what stands before a line end and what stands
after it are cut apart from each other.  Characters that end no line are read on
one line, each one column after the one before.

**Results.**
* `Text.lines_of_not_mem` and `Text.lines_append_newline`: the lines of a text
  without line ends, and of two texts with a line end between them.
* `Text.lines_append_singleton`: the lines of a text with a line end behind it.
* `Position.advance_of_not_mem`: the place after characters of one line.
* `Source.stream_lt`: the places of a source with fewer than `2 ^ 32 - 1` lines
  and columns fit in 32 bits.
-/

namespace Microcode

/-- An entry of two lists, one behind the other, stands in the first or in the second. -/
theorem append_eq_append_cons
    {α : Type}
    {xs ys before after : List α}
    {x : α}
    (h : xs ++ ys = before ++ x :: after) :
    (∃ more, xs = before ++ x :: more ∧ after = more ++ ys) ∨
      ∃ more, before = xs ++ more ∧ ys = more ++ x :: after := by
  rcases List.append_eq_append_iff.1 h with ⟨more, hbefore, hys⟩ | ⟨more, hxs, hafter⟩
  · exact Or.inr ⟨more, hbefore, hys⟩
  · cases more with
    | nil =>
        exact Or.inr ⟨[], by simpa using hxs.symm, by simpa using hafter.symm⟩
    | cons y more =>
        obtain ⟨rfl, rfl⟩ := List.cons.inj hafter
        exact Or.inl ⟨more, hxs, rfl⟩

namespace Text

theorem lines_cons
    {c : Char}
    {cs : List Char}
    (hn : c ≠ '\n')
    (hr : c = '\r' → cs.head? ≠ some '\n') :
    lines (c :: cs) = consLine c (lines cs) := by
  rw [lines.eq_def]
  split
  · next heq => cases heq
  · next heq => exact absurd (List.cons.inj heq).1 hn
  · next heq =>
      obtain ⟨rfl, rfl⟩ := List.cons.inj heq
      exact absurd rfl (hr rfl)
  · next heq =>
      obtain ⟨rfl, rfl⟩ := List.cons.inj heq
      rfl

/-- A text without line ends is a single line, unless it is empty. -/
theorem lines_of_not_mem
    {line : List Char}
    (h : '\n' ∉ line) :
    lines line = if line = [] then [] else [line] := by
  induction line with
  | nil =>
      rfl
  | cons c line ih =>
      obtain ⟨hc, hline⟩ := not_or.1 (fun hmem => h (List.mem_cons.2 hmem))
      have hhead : line.head? ≠ some '\n' := fun hhead => hline (List.mem_of_head? hhead)
      rw [lines_cons (Ne.symm hc) (fun _ => hhead), ih hline]
      cases line <;> simp [consLine]

/-- The first line goes on in what stands in front of it. -/
theorem consLine_append
    (c : Char)
    {ls : List (List Char)}
    (hne : ls ≠ [])
    (ms : List (List Char)) :
    consLine c (ls ++ ms) = consLine c ls ++ ms := by
  cases ls with
  | nil => exact absurd rfl hne
  | cons l ls => rfl

theorem consLine_ne_nil
    (c : Char)
    (ls : List (List Char)) :
    consLine c ls ≠ [] := by
  cases ls <;> simp [consLine]

theorem lines_ne_nil
    {cs : List Char}
    (h : cs ≠ []) :
    lines cs ≠ [] := by
  fun_cases lines cs with
  | case1 => exact absurd rfl h
  | case2 => simp
  | case3 => simp
  | case4 => exact consLine_ne_nil _ _

/-- A line end cuts a text in two. -/
theorem lines_append_newline
    (cs ds : List Char) :
    lines (cs ++ '\n' :: ds) = lines (cs ++ ['\n']) ++ lines ds := by
  fun_induction lines cs with
  | case1 =>
      simp
  | case2 cs ih =>
      simp only [List.cons_append, lines_newline, ih]
  | case3 cs ih =>
      simp only [List.cons_append, lines, ih]
  | case4 c cs hn hr ih =>
      have hc : c ≠ '\n' := fun hc => hn hc
      cases cs with
      | nil =>
          -- A carriage return belongs to the line end behind it.
          by_cases hreturn : c = '\r'
          · subst hreturn
            simp [lines]
          · simp [lines_cons hc (fun h => absurd h hreturn), consLine]
      | cons d cs =>
          have hd : ∀ rest : List Char, c = '\r' → (d :: cs ++ rest).head? ≠ some '\n' := by
            intro rest hreturn hhead
            exact hr cs hreturn (by rw [Option.some.inj hhead])
          show lines (c :: (d :: cs ++ '\n' :: ds)) = lines (c :: (d :: cs ++ ['\n'])) ++ lines ds
          rw [lines_cons hc (hd _), lines_cons hc (hd _), ih,
            consLine_append c (lines_ne_nil (by simp))]

/-- A line end after a text that does not end in a carriage return adds at most
an empty line. -/
theorem lines_append_singleton
    {cs : List Char}
    (h : cs.getLast? ≠ some '\r') :
    lines (cs ++ ['\n']) = lines cs ∨ lines (cs ++ ['\n']) = lines cs ++ [[]] := by
  fun_induction lines cs with
  | case1 =>
      exact Or.inr rfl
  | case2 cs ih =>
      rw [List.cons_append, lines_newline]
      cases cs with
      | nil => exact Or.inr rfl
      | cons d cs =>
          rcases ih (by simpa using h) with ih | ih
          · exact Or.inl (by rw [ih])
          · exact Or.inr (by rw [ih]; rfl)
  | case3 cs ih =>
      have hlines : lines ('\r' :: '\n' :: cs ++ ['\n']) = [] :: lines (cs ++ ['\n']) := by
        simp [lines]
      rw [hlines]
      cases cs with
      | nil => exact Or.inr rfl
      | cons d cs =>
          rcases ih (by simpa using h) with ih | ih
          · exact Or.inl (by rw [ih])
          · exact Or.inr (by rw [ih]; rfl)
  | case4 c cs hn hr ih =>
      have hc : c ≠ '\n' := fun hc => hn hc
      cases cs with
      | nil =>
          have hreturn : c ≠ '\r' := by
            rintro rfl
            exact h rfl
          left
          rw [List.singleton_append, lines_cons hc (fun h => absurd h hreturn)]
          simp [consLine]
      | cons d cs =>
          have hd : c = '\r' → (d :: cs ++ ['\n']).head? ≠ some '\n' := by
            intro hreturn hhead
            exact hr cs hreturn (by rw [Option.some.inj hhead])
          rw [List.cons_append, lines_cons hc hd]
          rcases ih (by simpa using h) with ih | ih
          · exact Or.inl (by rw [ih])
          · exact Or.inr (by rw [ih, consLine_append c (lines_ne_nil (by simp))])

/-- The last character of a text stands on a line, unless it ends one. -/
theorem exists_mem_lines_of_getLast?
    {cs : List Char}
    {c : Char}
    (h : cs.getLast? = some c)
    (hc : c ≠ '\n') :
    ∃ line ∈ lines cs, c ∈ line := by
  fun_induction lines cs with
  | case1 =>
      cases h
  | case2 cs ih =>
      have hne : cs ≠ [] := by
        rintro rfl
        exact hc (Option.some.inj h).symm
      obtain ⟨line, hline, hmem⟩ := ih (by rwa [List.getLast?_cons_of_ne_nil hne] at h)
      exact ⟨line, List.mem_cons_of_mem _ hline, hmem⟩
  | case3 cs ih =>
      have hne : cs ≠ [] := by
        rintro rfl
        exact hc (Option.some.inj h).symm
      obtain ⟨line, hline, hmem⟩ := ih (by
        rwa [List.getLast?_cons_of_ne_nil (List.cons_ne_nil _ _),
          List.getLast?_cons_of_ne_nil hne] at h)
      exact ⟨line, List.mem_cons_of_mem _ hline, hmem⟩
  | case4 d cs hn hr ih =>
      by_cases hcs : cs = []
      · subst hcs
        cases h
        exact ⟨[d], List.mem_singleton_self _, List.mem_singleton_self _⟩
      · obtain ⟨line, hline, hmem⟩ := ih (by rwa [List.getLast?_cons_of_ne_nil hcs] at h)
        cases hlines : lines cs with
        | nil =>
            rw [hlines] at hline
            cases hline
        | cons first others =>
            rw [hlines] at hline
            rcases List.mem_cons.1 hline with rfl | hline
            · exact ⟨d :: line, List.mem_cons_self .., List.mem_cons_of_mem _ hmem⟩
            · exact ⟨line, List.mem_cons_of_mem _ hline, hmem⟩

end Text

namespace Position

/-- The place of the same column on a line. -/
def onLine (n : Nat) (p : Position) : Position :=
  ⟨n, p.column⟩

/-- The place some lines further down. -/
def down (n : Nat) (p : Position) : Position :=
  ⟨p.line + n, p.column⟩

theorem after_newline
    (p : Position) :
    p.after '\n' = ⟨p.line + 1, 1⟩ := by
  rfl

/-- Characters that end no line stand on one line. -/
theorem advance_of_not_mem
    (p : Position)
    {cs : List Char}
    (h : '\n' ∉ cs) :
    p.advance cs = ⟨p.line, p.column + cs.length⟩ := by
  induction cs generalizing p with
  | nil =>
      rfl
  | cons c cs ih =>
      obtain ⟨hc, hcs⟩ := not_or.1 (fun hmem => h (List.mem_cons.2 hmem))
      have hafter : p.after c = ⟨p.line, p.column + 1⟩ := by
        simp [after, Ne.symm hc]
      rw [advance_cons, ih _ hcs, hafter, List.length_cons, Nat.add_assoc, Nat.add_comm 1]

end Position

/-- Lines, each followed by its end. -/
def joinLines (lines : List (List Char)) : List Char :=
  lines.flatMap fun line => line ++ ['\n']

/-- A span whose ends are moved. -/
def Span.move (g : Position → Position) (s : Span) : Span :=
  ⟨g s.first, g s.last⟩

/-- A value at a span whose ends are moved. -/
def Located.move {α : Type} (g : Position → Position) (l : Located α) : Located α :=
  ⟨l.value, l.span.move g⟩

namespace Source

theorem stream_go_append
    (p : Position)
    (cs ds : List Char) :
    stream.go p (cs ++ ds) = stream.go p cs ++ stream.go (p.advance cs) ds := by
  induction cs generalizing p with
  | nil =>
      rfl
  | cons c cs ih =>
      simp only [List.cons_append, stream.go, Position.advance_cons, ih]

/-- The places behind the characters of a line. -/
theorem place_of_mem_go_line
    {p q : Position}
    {line : List Char}
    {c : Char}
    (h : '\n' ∉ line)
    (hmem : (c, q) ∈ stream.go p line) :
    q.line = p.line ∧ q.column ≤ p.column + line.length := by
  induction line generalizing p with
  | nil =>
      cases hmem
  | cons d line ih =>
      obtain ⟨hd, hline⟩ := not_or.1 (fun hmem => h (List.mem_cons.2 hmem))
      have hafter : p.after d = ⟨p.line, p.column + 1⟩ := by
        simp [Position.after, Ne.symm hd]
      rw [stream.go, hafter] at hmem
      rcases List.mem_cons.1 hmem with heq | hmem
      · obtain ⟨-, rfl⟩ := Prod.mk.inj heq
        simp
      · obtain ⟨hrow, hcolumn⟩ := ih hline hmem
        refine ⟨hrow, ?_⟩
        simp only [List.length_cons] at hcolumn ⊢
        omega

/-- The places behind the characters of some lines, each with its end. -/
theorem place_of_mem_go
    {n width : Nat}
    {q : Position}
    {lines : List (List Char)}
    {c : Char}
    (hlines : ∀ line ∈ lines, '\n' ∉ line ∧ line.length ≤ width)
    (hmem : (c, q) ∈ stream.go ⟨n, 1⟩ (lines.flatMap fun line => line ++ ['\n'])) :
    q.line ≤ n + lines.length ∧ q.column ≤ width + 1 := by
  induction lines generalizing n with
  | nil =>
      cases hmem
  | cons line lines ih =>
      obtain ⟨hline, hwidth⟩ := hlines line (by simp)
      have hend : (Position.mk n 1).advance (line ++ ['\n']) = ⟨n + 1, 1⟩ := by
        rw [Position.advance_append, Position.advance_of_not_mem _ hline]
        rfl
      rw [List.flatMap_cons, stream_go_append, hend, stream_go_append] at hmem
      rcases List.mem_append.1 hmem with hmem | hmem
      · rcases List.mem_append.1 hmem with hmem | hmem
        · obtain ⟨hrow, hcolumn⟩ := place_of_mem_go_line hline hmem
          simp only [List.length_cons] at hrow hcolumn ⊢
          omega
        · rw [Position.advance_of_not_mem _ hline] at hmem
          obtain ⟨-, rfl⟩ := Prod.mk.inj (List.mem_singleton.1 hmem)
          rw [Position.after_newline]
          simp only [List.length_cons]
          omega
      · obtain ⟨hrow, hcolumn⟩ := ih (fun l hl => hlines l (List.mem_cons_of_mem _ hl)) hmem
        simp only [List.length_cons]
        omega

/-- The places of a source with fewer than `2 ^ 32 - 1` lines and columns fit in
32 bits. -/
theorem stream_lt
    {s : Source}
    (hlines : s.lines.length < 2 ^ 32 - 1)
    (hcolumns : ∀ line ∈ s.lines, line.length < 2 ^ 32 - 1)
    {c : Char}
    {q : Position}
    (hmem : (c, q) ∈ s.stream) :
    q.line < 2 ^ 32 ∧ q.column < 2 ^ 32 := by
  have hall : ∀ line ∈ s.lines, '\n' ∉ line ∧ line.length ≤ 2 ^ 32 - 2 := by
    intro line hline
    have hlt := hcolumns line hline
    exact ⟨Text.not_mem_of_mem_lines _ _ hline, by omega⟩
  obtain ⟨hrow, hcolumn⟩ := place_of_mem_go hall hmem
  omega

end Source
end Microcode
