import Microcode.Proofs.Command.AllOrNothing
import Microcode.Proofs.Report.Blame
import Microcode.Proofs.Text.Numerals

/-!
# Reports underline what is to blame

**Input.**  A source that is not assembled, and the report on its errors.

**Algorithm.**  The block of an error quotes the lines that its span covers, each behind
its number in a gutter, and marks its columns by carets in a row of its own.  No number
of these lines has more digits than the last one, so all gutters are as wide as that of
the row, and a column of the source stands at one place in both of them.

**Results.**
* `NumberedLine`, `Quotes`, `Marks` and `Underlines` say how a line, the lines of a span,
  the carets, and an error on one line are printed; `Presents` puts them together.
* `quotes_excerpt` and `marks_caretLine`: what the parts of a block are.
* `underlined_eq_columns`: the characters above the carets are the columns of the line.
* `report_underlines`: every block shows the lines of its error and underlines what is to
  blame.
-/

namespace Microcode
namespace Report

open Command (unlines)

/-- The characters of a line above the carets of the row below it. -/
def underlined (line row : List Char) : List Char :=
  ((line.zip row).filter fun pair => pair.2 == '^').map Prod.fst

/-- A line printed behind its number and a bar, which are a gutter of the given width. -/
def NumberedLine (width number : Nat) (line printed : String) : Prop :=
  ∃ pad, printed = Text.run pad ' ' ++ number.repr ++ " | " ++ line ∧
    pad + number.repr.length + 3 = width

/-- The lines of a source that a span covers, printed behind gutters of one width.  All
of them are lines of the source. -/
structure Quotes (s : Source) (span : Span) (width : Nat) (excerpt : List String) : Prop where
  first_pos : 1 ≤ span.first.line
  first_le_last : span.first.line ≤ span.last.line
  last_le : span.last.line ≤ s.lines.length
  length_eq : span.first.line + excerpt.length = span.last.line + 1
  numberedLine : ∀ k printed, excerpt[k]? = some printed →
    NumberedLine width (span.first.line + k) (s.line (span.first.line + k)) printed

/-- A row of carets behind a gutter of the given width.  The numbers of blanks and of
carets are differences of columns as integers, so none of them is cut off at zero. -/
def Marks (span : Span) (width : Nat) (row : String) : Prop :=
  ∃ pad skip count : Nat,
    row = Text.run pad ' ' ++ " | " ++ Text.run skip ' ' ++ Text.run count '^' ∧
      pad + 3 = width ∧
      (skip : ℤ) = min (span.first.column : ℤ) span.last.column - 1 ∧
      (count : ℤ) = |(span.first.column : ℤ) - span.last.column| + 1

/-- An error on one line of a source, printed behind a gutter of the given width, and
the row below it: carets stand under the columns of the error and nowhere else, and the
characters above them are the text that is to blame, or there are none, because the only
caret stands right behind the line. -/
structure Underlines (s : Source) (e : AssemblyError) (width : Nat) (line row : String) :
    Prop where
  characters : ∀ k, line.toList[width + k]? = (s.line e.span.first.line).toList[k]?
  carets : ∀ n, row.toList[n]? = some '^' ↔
    width + e.span.first.column ≤ n + 1 ∧ n + 1 ≤ width + e.span.last.column
  blame : (∃ text, s.BlamesText e text ∧ s.ShowsText e.span text ∧
      underlined line.toList row.toList = text.toList) ∨
    (s.BlamesLineEnd e ∧
      e.span = .point ⟨e.span.first.line, (s.line e.span.first.line).length + 1⟩ ∧
      underlined line.toList row.toList = [])

/-- A block that presents an error: three lines of heading, the lines of the source, the
row of carets and an empty line. -/
inductive Presents (s : Source) (e : AssemblyError) : List String → Prop
  | block {heading excerpt : List String} {row : String} {width : Nat} :
      heading.length = 3 → Quotes s e.span width excerpt → Marks e.span width row →
      (e.span.first.line = e.span.last.line →
        ∃ line, excerpt = [line] ∧ Underlines s e width line row) →
      Presents s e (heading ++ excerpt ++ [row, ""])

section Carets

variable {line row bar gutter : List Char} {skip count : Nat}

theorem underlined_append
    (h : gutter.length = bar.length) :
    underlined (gutter ++ line) (bar ++ row) = underlined gutter bar ++ underlined line row := by
  rw [underlined, List.zip_append h, List.filter_append, List.map_append]
  rfl

theorem underlined_of_not_mem
    (h : '^' ∉ row) :
    underlined line row = [] := by
  rw [underlined, List.map_eq_nil_iff, List.filter_eq_nil_iff]
  intro pair hpair hcaret
  obtain ⟨-, hmem⟩ := List.of_mem_zip hpair
  rw [eq_of_beq hcaret] at hmem
  exact h hmem

/-- Blanks in the row pass over the characters above them. -/
theorem underlined_blanks
    (line row : List Char)
    (skip : Nat) :
    underlined line (List.replicate skip ' ' ++ row) = underlined (line.drop skip) row := by
  induction skip generalizing line with
  | zero =>
      rfl
  | succ skip ih =>
      cases line with
      | nil => rfl
      | cons c line => exact ih line

/-- Carets underline as many characters as there are. -/
theorem underlined_carets
    (line : List Char)
    (count : Nat) :
    underlined line (List.replicate count '^') = line.take count := by
  induction count generalizing line with
  | zero =>
      simp [underlined]
  | succ count ih =>
      cases line with
      | nil => rfl
      | cons c line => exact congrArg (List.cons c) (ih line)

/-- Behind gutters of one width, the characters above the carets are columns of the
line. -/
theorem underlined_eq_columns
    (h : gutter.length = bar.length)
    (hbar : '^' ∉ bar)
    (line : List Char)
    (skip count : Nat) :
    underlined (gutter ++ line)
        (bar ++ (List.replicate skip ' ' ++ List.replicate count '^')) =
      Text.columns line (skip + 1) (skip + count) := by
  have hcount : skip + count + 1 - (skip + 1) = count := by
    omega
  rw [underlined_append h, underlined_of_not_mem hbar, underlined_blanks, underlined_carets,
    Text.columns, hcount]
  rfl

/-- Carets stand only behind what stands before them. -/
theorem getElem?_eq_caret_iff
    (hbar : '^' ∉ bar)
    (count n : Nat) :
    (bar ++ List.replicate count '^')[n]? = some '^' ↔
      bar.length ≤ n ∧ n < bar.length + count := by
  by_cases hn : n < bar.length
  · rw [List.getElem?_append_left hn]
    constructor
    · intro h
      exact absurd (List.mem_of_getElem? h) hbar
    · rintro ⟨hle, -⟩
      omega
  · rw [List.getElem?_append_right (Nat.le_of_not_lt hn), List.getElem?_replicate]
    split
    · simp only [true_iff]
      omega
    · simp only [reduceCtorEq, false_iff]
      omega

end Carets

section Layout

variable {s : Source} {e : AssemblyError} {span : Span} {width number : Nat}
variable {line printed row : String}

theorem numberedLine_excerptLine
    (lines : List (List Char))
    (h : (Nat.toDigits 10 number).length ≤ width) :
    NumberedLine (width + 3) number (Text.lineAt lines number)
      (excerptLine lines width number) := by
  refine ⟨width - (Nat.toDigits 10 number).length, ?_, ?_⟩
  · rw [excerptLine, Text.rightAligned, List.leftpad, String.ofList_append]
    rfl
  · rw [Text.length_repr]
    omega

/-- The lines of a block behind its heading are those that the span covers. -/
theorem quotes_excerpt
    (h : s.Within span) :
    Quotes s span (gutter span + 3)
      ((lineNumbers span).map (excerptLine s.lines (gutter span))) where
  first_pos := h.first.line_pos
  first_le_last := by
    have hle := Position.le_iff.1 h.first_le_last
    omega
  last_le := h.last.line_le
  length_eq := by
    have hle := Position.le_iff.1 h.first_le_last
    rw [List.length_map, lineNumbers, List.length_range']
    omega
  numberedLine := by
    intro k printed hprinted
    rw [List.getElem?_map, Option.map_eq_some_iff] at hprinted
    obtain ⟨number, hnumber, rfl⟩ := hprinted
    have hk : k < span.last.line + 1 - span.first.line := by
      simpa [lineNumbers] using (List.getElem?_eq_some_iff.1 hnumber).1
    obtain rfl : span.first.line + k = number := by
      rw [lineNumbers, List.getElem?_range' hk, Nat.one_mul] at hnumber
      exact Option.some.inj hnumber
    refine numberedLine_excerptLine s.lines (Text.length_toDigits_le ?_)
    omega

/-- The row of carets of a block marks the columns of the span. -/
theorem marks_caretLine
    (h : s.Within span) :
    Marks span (gutter span + 3) (caretLine span) := by
  have hfirst := h.first.column_pos
  have hlast := h.last.column_pos
  have hleast : max (min span.first.column span.last.column) 1 =
      min span.first.column span.last.column := by
    omega
  refine ⟨gutter span, min span.first.column span.last.column - 1,
    max span.first.column span.last.column - min span.first.column span.last.column + 1,
    by rw [caretLine, hleast], rfl, ?_, ?_⟩
  · omega
  · rcases le_total span.first.column span.last.column with hle | hle
    · rw [max_eq_right hle, min_eq_left hle, abs_sub_comm, abs_of_nonneg (by omega)]
      omega
    · rw [max_eq_left hle, min_eq_right hle, abs_of_nonneg (by omega)]
      omega

theorem NumberedLine.exists_gutter
    (h : NumberedLine width number line printed) :
    ∃ gutter, gutter.length = width ∧ printed.toList = gutter ++ line.toList := by
  obtain ⟨pad, rfl, rfl⟩ := h
  refine ⟨(Text.run pad ' ' ++ number.repr ++ " | ").toList, ?_, String.toList_append⟩
  rw [String.length_toList, String.length_append, String.length_append, Text.length_run]
  rfl

/-- On one line, the carets go from the first column of a span to its last one. -/
theorem Marks.exists_bar
    (h : Marks span width row)
    (hle : span.first.column ≤ span.last.column) :
    ∃ bar skip count, bar.length = width ∧ '^' ∉ bar ∧
      row.toList = bar ++ (List.replicate skip ' ' ++ List.replicate count '^') ∧
      skip + 1 = span.first.column ∧ skip + count = span.last.column := by
  obtain ⟨pad, skip, count, rfl, rfl, hskip, hcount⟩ := h
  refine ⟨(Text.run pad ' ' ++ " | ").toList, skip, count, ?_, ?_, ?_, ?_, ?_⟩
  · rw [String.length_toList, String.length_append, Text.length_run]
    rfl
  · simp
  · simp
  · omega
  · rw [abs_sub_comm, abs_of_nonneg (by omega)] at hcount
    omega

theorem eq_point_of_columns
    {column : Nat}
    (hline : span.first.line = span.last.line)
    (hfirst : span.first.column = column)
    (hlast : span.last.column = column) :
    span = .point ⟨span.first.line, column⟩ := by
  obtain ⟨⟨line, first⟩, ⟨line', last⟩⟩ := span
  cases hline
  cases hfirst
  cases hlast
  rfl

/-- Behind gutters of one width, the row of carets underlines the columns of an error on
one line, which hold what is to blame. -/
theorem underlines_of_marks
    (h : s.Pinpoints e)
    (hprinted : NumberedLine width number (s.line e.span.first.line) printed)
    (hrow : Marks e.span width row)
    (hline : e.span.first.line = e.span.last.line) :
    Underlines s e width printed row := by
  have hle : e.span.first.column ≤ e.span.last.column := by
    have horder := Position.le_iff.1 h.within.first_le_last
    omega
  obtain ⟨gutter, hgutter, htext⟩ := hprinted.exists_gutter
  obtain ⟨bar, skip, count, hbar, hcaret, hmarks, hfirst, hlast⟩ := hrow.exists_bar hle
  have hunderlined : underlined printed.toList row.toList =
      Text.columns (s.line e.span.first.line).toList e.span.first.column e.span.last.column := by
    rw [htext, hmarks, underlined_eq_columns (hgutter.trans hbar.symm) hcaret, hfirst, hlast]
  refine ⟨fun k => ?_, fun n => ?_, ?_⟩
  · rw [htext, ← hgutter, List.getElem?_append_right (Nat.le_add_right _ _), Nat.add_sub_cancel_left]
  · have hnot : '^' ∉ bar ++ List.replicate skip ' ' := by
      simp [hcaret]
    rw [hmarks, ← List.append_assoc, getElem?_eq_caret_iff hnot, List.length_append,
      List.length_replicate, hbar]
    omega
  · rcases h with ⟨text, hblames, hshows⟩ | ⟨hend, hends⟩
    · exact Or.inl ⟨text, hblames, hshows, hunderlined.trans hshows.columns_eq⟩
    · have hlast := hends.last_eq
      rw [← hline] at hlast
      refine Or.inr ⟨hend, eq_point_of_columns hline hends.first_eq hlast, ?_⟩
      -- Right behind the line there is no character to underline.
      rw [hunderlined, Text.columns, hends.first_eq, Nat.add_sub_cancel, ← String.length_toList,
        List.drop_length, List.take_nil]

end Layout

section Reports

/-- **Reports underline what is to blame.**  The report on the errors of a source consists
of one block for each of them and a verdict.

A block quotes exactly the lines that its error covers, all of which are lines of the
source, and marks the columns of the error by carets.  All gutters in a block have the
same width.  The carets start at the smaller column of the error, and there is one more
of them than its columns differ by.

If the error is on one line, the carets stand under its columns on this line, which hold
the text that is to blame: the bad character or the first one of the word, the first
impossible token, the name, or the sub-instruction or its destination.  If a line end is
to blame, the only caret stands right behind the line. -/
theorem report_underlines
    (s : Source)
    (errors : List AssemblyError)
    (h : s.assemble = .error (.errors errors)) :
    render s errors = unlines (errors.flatMap (block s) ++ [verdict errors.length]) ∧
      ∀ e ∈ errors, Presents s e (block s e) := by
  refine ⟨?_, fun e he => ?_⟩
  · have hne : errors.isEmpty = false := by
      rcases assemble_cases s with ⟨asm, hasm⟩ | ⟨list, hlist, hasm⟩
      · rw [hasm] at h
        cases h
      · rw [hasm] at h
        cases h
        simpa using hlist
    rw [render, lines, hne]
    rfl
  · have hpinpoints := pinpoints_of_assemble h he
    have hquotes := quotes_excerpt hpinpoints.within
    have hmarks := marks_caretLine hpinpoints.within
    refine .block (by rfl) hquotes hmarks fun hline => ?_
    have hlines : lineNumbers e.span = [e.span.first.line] := by
      rw [lineNumbers, ← hline, Nat.add_sub_cancel_left]
      rfl
    rw [hlines] at hquotes ⊢
    exact ⟨_, rfl, underlines_of_marks hpinpoints (hquotes.numberedLine 0 _ rfl) hmarks hline⟩

/-- An assignment on the second line, behind a carriage return, reads a register that
cannot be read. -/
theorem report_underlines_unreadable :
    let s : Source := ⟨"prog.mal", "rd;\r\nac := mar;"⟩
    let e : AssemblyError := .conflict ⟨.unreadable .mar, ⟨⟨2, 1⟩, ⟨2, 9⟩⟩⟩
    s.assemble = .error (.errors [e]) ∧
      render s [e] = unlines (block s e ++ ["Build failed with 1 error"]) ∧
      Presents s e
        ["resource conflict: Register `mar` cannot be read",
          " --> prog.mal:[2:1-2:9]",
          "  |",
          "2 | ac := mar;",
          "  | ^^^^^^^^^",
          ""] := by
  intro s e
  have hasm : s.assemble = .error (.errors [e]) := by decide +kernel
  have hblock : block s e =
      ["resource conflict: Register `mar` cannot be read", " --> prog.mal:[2:1-2:9]", "  |",
        "2 | ac := mar;", "  | ^^^^^^^^^", ""] := by
    decide +kernel
  have hverdict : verdict [e].length = "Build failed with 1 error" := by
    decide +kernel
  obtain ⟨hrender, hpresents⟩ := report_underlines s [e] hasm
  have hshown := hpresents e (List.mem_singleton_self e)
  rw [List.flatMap_singleton, hverdict] at hrender
  rw [hblock] at hshown
  exact ⟨hasm, hrender, hshown⟩

-- A missing `;` on line 9 is shown with the empty line below it: the first column of the
-- error is greater than the last one, and the two numbers differ in their digits.
example :
    block ⟨"m", "\n\n\n\n\n\n\n\nrd\n\n"⟩
        (.parse ⟨.unexpected (.token .semicolon) .newline, ⟨⟨9, 3⟩, ⟨10, 1⟩⟩⟩) =
      ["syntax error: Expected `;`, found end of line instead",
        " --> m:[9:3-10:1]",
        "   |",
        " 9 | rd",
        "10 | ",
        "   | ^^^",
        ""] := by
  decide +kernel

end Reports

end Report
end Microcode
