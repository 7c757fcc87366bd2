import Microcode.Program.Parser
import Microcode.Proofs.Program.Recognition

/-!
# The parser accepts exactly the grammar

Lines and programs are characterised like the parts of a line: a rule succeeds
if and only if a tree has its value and its tokens.  A line is followed by a line
end or by nothing, which is why the loop over the lines finds the line ends of
the grammar and no others.

**Results.**
* `yields_instruction`: a line is read if and only if it is one of the grammar.
* `instructions_of_lines` and `exists_lines_of_instructions`: the same for the
  lines up to the end of the tokens.
* `ofTokens_derivation`: a list of tokens is a program if and only if it has a
  derivation, which is unique and gives that program.
-/

namespace Microcode
namespace Parser

open Grammar

variable {c c' : Cursor} {ts us : List (Located Token)}

section Instructions

theorem yields_subinstructions
    {free : Nat}
    {subs : List (Located Subinstruction)} :
    Yields (subinstructions free) c subs c' ↔
      ∃ as : List (Action × Span), as ≠ [] ∧ as.length ≤ free ∧
        (as.map fun a => a.1.located) = subs ∧ Takes (actionTokens as) c c' ∧ AtEnd c'.rest := by
  induction free generalizing c subs with
  | zero =>
      constructor
      · intro h
        exact absurd h not_yields_refuse
      · rintro ⟨as, hne, hlen, -⟩
        exact absurd (List.length_eq_zero_iff.1 (Nat.le_zero.1 hlen)) hne
  | succ free ih =>
      unfold subinstructions
      rw [yields_bind]
      constructor
      · rintro ⟨sub, c₁, hsub, h₁⟩
        obtain ⟨_, c₂, hsemi, h₂⟩ := yields_bind.1 h₁
        obtain ⟨a, rfl, ha, -⟩ := yields_subinstruction.1 hsub
        obtain ⟨semicolon, hsemicolon⟩ := yields_expect.1 hsemi
        -- The first action and its `;` are taken in front of the others.
        have hfirst : ∀ {as : List (Action × Span)} {c₃ : Cursor}, Takes (actionTokens as) c₂ c₃ →
            Takes (actionTokens ((a, semicolon) :: as)) c c₃ :=
          fun has => takes_append.2 ⟨c₁, ha, takes_cons.2 ⟨c₂, hsemicolon, has⟩⟩
        rw [yields_peek_bind] at h₂
        split at h₂
        · next hnone =>
            obtain ⟨rfl, rfl⟩ := yields_pure.1 h₂
            exact ⟨[(a, semicolon)], by simp, by simp, rfl, hfirst (takes_nil.2 rfl), Or.inl hnone⟩
        · next hnewline =>
            obtain ⟨rfl, rfl⟩ := yields_pure.1 h₂
            exact ⟨[(a, semicolon)], by simp, by simp, rfl, hfirst (takes_nil.2 rfl),
              Or.inr hnewline⟩
        · obtain ⟨rest, c₃, hrest, hpure⟩ := yields_bind.1 h₂
          obtain ⟨rfl, rfl⟩ := yields_pure.1 hpure
          obtain ⟨as, -, hlen, rfl, has, hend⟩ := ih.1 hrest
          exact ⟨(a, semicolon) :: as, by simp, by simpa using hlen, rfl, hfirst has, hend⟩
      · rintro ⟨as, hne, hlen, rfl, htakes, hend⟩
        cases as with
        | nil => exact absurd rfl hne
        | cons p as =>
            obtain ⟨a, semicolon⟩ := p
            obtain ⟨c₁, ha, h₁⟩ := takes_append.1 htakes
            obtain ⟨c₂, hsemicolon, has⟩ := takes_cons.1 h₁
            have hstops : ActionStops c₁ a := by
              apply actionStops_of_ahead
              rw [hsemicolon.ahead_cons]
              simp
            refine ⟨a.located, c₁, yields_subinstruction.2 ⟨a, rfl, ha, hstops⟩,
              yields_bind.2 ⟨(), c₂, yields_expect.2 ⟨semicolon, hsemicolon⟩, ?_⟩⟩
            rw [yields_peek_bind]
            cases as with
            | nil =>
                obtain rfl := takes_nil.1 has
                rcases hend with hnone | hnewline
                · rw [hnone]
                  exact yields_pure.2 ⟨rfl, rfl⟩
                · rw [hnewline]
                  exact yields_pure.2 ⟨rfl, rfl⟩
            | cons p as =>
                have hmore : ¬ AtEnd c₂.rest := by
                  rw [has.1]
                  exact (ahead_actionTokens (by simp) _).1
                have hrest := ih.2 ⟨p :: as, by simp, by simpa using hlen, rfl, has, hend⟩
                split
                · next hnone => exact absurd (Or.inl hnone) hmore
                · next hnewline => exact absurd (Or.inr hnewline) hmore
                · exact yields_bind.2 ⟨_, c', hrest, yields_pure.2 ⟨rfl, rfl⟩⟩

theorem yields_definition
    {o : Option (Located String)} :
    Yields definition c o c' ↔
      (o = none ∧ c' = c ∧ ∀ name, ahead c.rest ≠ some (.label name)) ∨
      ∃ name colon, o = some name ∧ Takes (labelTokens (some (name, colon))) c c' := by
  rw [definition_eq, yields_peek_bind]
  constructor
  · intro h
    split at h
    · obtain ⟨name, c₁, hname, h₁⟩ := yields_bind.1 h
      obtain ⟨_, c₂, hcolon, h₂⟩ := yields_bind.1 h₁
      obtain ⟨rfl, rfl⟩ := yields_pure.1 h₂
      obtain ⟨colon, hcolon'⟩ := yields_expect.1 hcolon
      exact Or.inr ⟨name, colon, rfl, takes_cons.2 ⟨c₁, yields_label.1 hname, hcolon'⟩⟩
    · next hlabel =>
        obtain ⟨rfl, rfl⟩ := yields_pure.1 h
        exact Or.inl ⟨rfl, rfl, hlabel⟩
  · rintro (⟨rfl, rfl, hlabel⟩ | ⟨name, colon, rfl, h⟩)
    · split
      · next name heq => exact absurd heq (hlabel name)
      · exact yields_pure.2 ⟨rfl, rfl⟩
    · rw [h.ahead_cons]
      obtain ⟨c₁, hname, hcolon⟩ := takes_cons.1 h
      exact yields_bind.2 ⟨name, c₁, yields_label.2 hname,
        yields_bind.2 ⟨(), c', yields_expect.2 ⟨colon, hcolon⟩, yields_pure.2 ⟨rfl, rfl⟩⟩⟩

theorem yields_instruction
    {address : Nat}
    {i : Instruction} :
    Yields (instruction address) c i c' ↔
      ∃ line : Line, line.instruction address = i ∧ Takes line.tokens c c' ∧ AtEnd c'.rest := by
  unfold instruction
  rw [yields_bind]
  constructor
  · rintro ⟨o, c₁, hdef, h₁⟩
    obtain ⟨subs, c₂, hsubs, h₂⟩ := yields_bind.1 h₁
    obtain ⟨rfl, rfl⟩ := yields_pure.1 h₂
    obtain ⟨as, hne, hlen, rfl, has, hend⟩ := yields_subinstructions.1 hsubs
    rcases yields_definition.1 hdef with ⟨rfl, rfl, -⟩ | ⟨name, colon, rfl, hlabel⟩
    · refine ⟨⟨none, as, hne, ?_⟩, rfl, has, hend⟩
      simpa using hlen
    · refine ⟨⟨some (name, colon), as, hne, ?_⟩, rfl, takes_append.2 ⟨c₁, hlabel, has⟩, hend⟩
      simp only [Option.isSome_some, if_true, Instruction.slots] at hlen
      simp only [Option.toList_some, List.length_singleton, Instruction.slots]
      omega
  · rintro ⟨⟨o, as, hne, hslots⟩, rfl, htakes, hend⟩
    obtain ⟨c₁, hlabel, has⟩ := takes_append.1 htakes
    cases o with
    | none =>
        obtain rfl := takes_nil.1 hlabel
        refine ⟨none, c₁, yields_definition.2 (Or.inl ⟨rfl, rfl, ?_⟩), yields_bind.2
          ⟨_, c', yields_subinstructions.2 ⟨as, hne, by simpa using hslots, rfl, has, hend⟩,
            yields_pure.2 ⟨rfl, rfl⟩⟩⟩
        rw [has.1]
        exact (ahead_actionTokens hne _).2
    | some p =>
        obtain ⟨name, colon⟩ := p
        have hlen : as.length ≤ Instruction.slots - 1 := by
          simp only [Option.toList_some, List.length_singleton, Instruction.slots] at hslots ⊢
          omega
        exact ⟨some name, c₁, yields_definition.2 (Or.inr ⟨name, colon, rfl, hlabel⟩),
          yields_bind.2 ⟨_, c', yields_subinstructions.2 ⟨as, hne, hlen, rfl, has, hend⟩,
            yields_pure.2 ⟨rfl, rfl⟩⟩⟩

end Instructions

section Programs

/-- Line ends in front are skipped up to the first other token. -/
theorem takes_skipNewlines
    (c : Cursor) :
    ∃ spans, Takes (newlines spans) c (skipNewlines c) ∧
      ahead (skipNewlines c).rest ≠ some .newline := by
  suffices h : ∀ ts last, ∃ spans, Takes (newlines spans) ⟨ts, last⟩ (skipNewlines.go ts last) ∧
      ahead (skipNewlines.go ts last).rest ≠ some .newline from h c.rest c.last
  intro ts
  induction ts with
  | nil =>
      intro last
      exact ⟨[], takes_nil.2 rfl, by simp [skipNewlines.go]⟩
  | cons t ts ih =>
      intro last
      obtain ⟨value, span⟩ := t
      by_cases hv : value = .newline
      · subst hv
        obtain ⟨spans, htakes, hstop⟩ := ih span
        have hgo : skipNewlines.go (⟨.newline, span⟩ :: ts) last = skipNewlines.go ts span := rfl
        rw [hgo]
        exact ⟨span :: spans, takes_cons.2 ⟨⟨ts, span⟩, ⟨rfl, rfl⟩, htakes⟩, hstop⟩
      · have hgo : skipNewlines.go (⟨value, span⟩ :: ts) last = ⟨⟨value, span⟩ :: ts, last⟩ := by
          simp [skipNewlines.go, hv]
        rw [hgo]
        exact ⟨[], takes_nil.2 rfl, by simpa using hv⟩

/-- Line ends are skipped however many there are. -/
theorem skipNewlines_of_takes
    {spans : List Span}
    (h : Takes (newlines spans) c c')
    (hstop : ahead c'.rest ≠ some .newline) :
    skipNewlines c = c' := by
  obtain ⟨spans', h', hstop'⟩ := takes_skipNewlines c
  obtain ⟨rfl, hrest⟩ := newlines_append_inj (h'.1.symm.trans h.1) hstop' hstop
  have hlast := h'.2.trans h.2.symm
  cases hs : skipNewlines c
  cases c'
  simp_all

/-- One round of the loop over the lines. -/
theorem instructions_eq_ok_iff_of_skip
    {address : Nat}
    {is : List Instruction} :
    instructions address c = .ok is ↔
      ((skipNewlines c).rest = [] ∧ is = []) ∨
      ∃ i more c', (skipNewlines c).rest ≠ [] ∧ is = i :: more ∧
        Yields (instruction address) (skipNewlines c) i c' ∧
        instructions (address + 1) c' = .ok more := by
  rw [instructions]
  by_cases hnil : (skipNewlines c).rest = []
  · simp [hnil, eq_comm]
  · rw [if_neg (by simpa using hnil)]
    constructor
    · intro h
      right
      split at h
      · cases h
      · next i c' hi =>
          split at h
          · cases h
          · next more hmore =>
              obtain rfl := Except.ok.inj h
              exact ⟨i, more, c', hnil, rfl, hi, hmore⟩
    · rintro (⟨hrest, -⟩ | ⟨i, more, c', -, rfl, hi, hmore⟩)
      · exact absurd hrest hnil
      · split
        · next heq => rw [hi] at heq; cases heq
        · next heq =>
            rw [hi] at heq
            cases heq
            rw [hmore]

/-- Tokens in front of a list can be taken. -/
theorem exists_takes
    (h : c.rest = ts ++ us) :
    ∃ c', Takes ts c c' ∧ c'.rest = us :=
  ⟨⟨us, (ts.getLast?.map Located.span).getD c.last⟩, ⟨h, rfl⟩, rfl⟩

/-- A line in front is an instruction, and the lines after it are read from its
end on. -/
theorem instructions_of_line
    {address : Nat}
    {lead : List Span}
    {line : Line}
    {more : List Instruction}
    (hc : c.rest = newlines lead ++ (line.tokens ++ us))
    (hend : AtEnd us)
    (hmore : ∀ last, instructions (address + 1) ⟨us, last⟩ = .ok more) :
    instructions address c = .ok (line.instruction address :: more) := by
  obtain ⟨c₁, hlead, hc₁⟩ := exists_takes hc
  obtain ⟨c₂, hline, hc₂⟩ := exists_takes hc₁
  have hfirst : ¬ AtEnd c₁.rest := by
    rw [hc₁]
    exact line.not_atEnd us
  have hskip := skipNewlines_of_takes hlead fun h => hfirst (Or.inr h)
  subst hc₂
  refine instructions_eq_ok_iff_of_skip.2 (Or.inr ⟨_, more, c₂, ?_, rfl, ?_, hmore c₂.last⟩)
  · rw [hskip]
    intro hnil
    exact hfirst (Or.inl (by rw [hnil]; rfl))
  · rw [hskip]
    exact yields_instruction.2 ⟨line, rfl, hline, hend⟩

theorem instructions_of_lines
    (lines : Lines)
    {address : Nat}
    {lead : List Span}
    (hc : c.rest = newlines lead ++ lines.tokens) :
    instructions address c = .ok (lines.instructions address) := by
  induction lines generalizing c address lead with
  | done =>
      obtain ⟨c₁, hlead, hc₁⟩ := exists_takes hc
      have hskip := skipNewlines_of_takes hlead (by rw [hc₁]; simp [Lines.tokens])
      refine instructions_eq_ok_iff_of_skip.2 (Or.inl ⟨?_, rfl⟩)
      rw [hskip, hc₁]
      rfl
  | last line =>
      have hline : c.rest = newlines lead ++ (line.tokens ++ []) := by
        simpa [Lines.tokens] using hc
      refine instructions_of_line hline (Or.inl rfl) ?_
      intro last
      exact instructions_eq_ok_iff_of_skip.2 (Or.inl ⟨rfl, rfl⟩)
  | ended line newline more rest ih =>
      have hline : c.rest =
          newlines lead ++ (line.tokens ++ (newlines (newline :: more) ++ rest.tokens)) := by
        simpa [Lines.tokens] using hc
      refine instructions_of_line hline (Or.inr rfl) ?_
      intro last
      exact ih rfl

theorem exists_lines_of_instructions
    {address : Nat}
    {is : List Instruction}
    (h : instructions address c = .ok is) :
    ∃ (lead : List Span) (lines : Lines), c.rest = newlines lead ++ lines.tokens ∧
      lines.instructions address = is := by
  induction hn : c.rest.length using Nat.strong_induction_on generalizing c address is with
  | _ n ih =>
      obtain ⟨lead, hlead, -⟩ := takes_skipNewlines c
      rcases instructions_eq_ok_iff_of_skip.1 h with
        ⟨hnil, rfl⟩ | ⟨i, more, c', -, rfl, hi, hmore⟩
      · exact ⟨lead, .done, by rw [hlead.1, hnil]; rfl, rfl⟩
      · have hlt : c'.rest.length < n := by
          have hadvance := advances_instruction address _ _ _ hi
          have hle := length_skipNewlines_le c
          omega
        obtain ⟨line, rfl, hline, hend⟩ := yields_instruction.1 hi
        obtain ⟨lead', lines', hc', rfl⟩ := ih _ hlt hmore rfl
        -- The line ends after the line, if any, belong to it.
        cases lead' with
        | nil =>
            have hdone : lines' = .done := by
              rw [hc'] at hend
              exact Lines.eq_done_of_atEnd hend
            subst hdone
            refine ⟨lead, .last line, ?_, rfl⟩
            rw [hlead.1, hline.1, hc']
            simp [newlines, Lines.tokens]
        | cons newline more' =>
            refine ⟨lead, .ended line newline more' lines', ?_, rfl⟩
            rw [hlead.1, hline.1, hc', Lines.tokens, List.append_assoc]

end Programs

end Parser

open Grammar

/-- A list of tokens is read as a program if and only if it has a derivation of
that program. -/
theorem ofTokens_eq_ok_iff
    {tokens : List (Located Token)}
    {start : Span}
    {p : Program} :
    Program.ofTokens tokens start = .ok p ↔
      ∃ tree : Derivation, tree.tokens = tokens ∧ tree.program = p := by
  unfold Program.ofTokens
  constructor
  · intro h
    split at h
    · cases h
    · next is his =>
        obtain ⟨lead, lines, hc, rfl⟩ := Parser.exists_lines_of_instructions his
        exact ⟨⟨lead, lines⟩, hc.symm, Except.ok.inj h⟩
  · rintro ⟨⟨lead, lines⟩, rfl, rfl⟩
    have his : Parser.instructions 0 ⟨newlines lead ++ lines.tokens, start⟩ =
        .ok (lines.instructions 0) := Parser.instructions_of_lines lines rfl
    rw [Derivation.tokens, his]
    rfl

/-- **The parser accepts exactly the grammar.**  A list of tokens is read as a
program if and only if that program is the one of a derivation of the list, and a
list has at most one derivation. -/
theorem ofTokens_derivation
    (tokens : List (Located Token))
    (start : Span) :
    (∀ p, Program.ofTokens tokens start = .ok p ↔
      ∃ tree : Derivation, tree.tokens = tokens ∧ tree.program = p) ∧
    ∀ tree tree' : Derivation, tree.tokens = tokens → tree'.tokens = tokens → tree = tree' := by
  refine ⟨fun p => ofTokens_eq_ok_iff, ?_⟩
  intro tree tree' h h'
  exact Derivation.tokens_injective (h.trans h'.symm)

end Microcode
