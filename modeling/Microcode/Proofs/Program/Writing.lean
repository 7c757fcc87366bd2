import Microcode.Proofs.Program.WellFormed

/-!
# Writing programs

A program is written line by line.  `Writes` relates each part of a program to
the tokens that it can be written with: a register may stand in one pair of
parentheses, and nothing else is free.  A line holds the texts of its tokens
with blanks between them.

Programs are compared by `unlocated`, which puts every part at the same place.

**Results.**
* `exists_written`: every well-formed program can be written.
* `exists_lines`: tokens that a well-formed program is written with have,
  wherever they stand, a derivation of that program up to places.
-/

namespace Microcode

open Grammar

section Places

/-- The value, put at the start of a source. -/
def Located.unlocated {α : Type} (l : Located α) : Located α :=
  ⟨l.value, .point .start⟩

def Operand.unlocated : Operand → Operand
  | read r => .read r.unlocated
  | add left right => .add left.unlocated right.unlocated

def Expr.unlocated : Expr → Expr
  | read r => .read r.unlocated
  | add left right => .add left.unlocated right.unlocated
  | band left right => .band left.unlocated right.unlocated
  | unary op operand => .unary op operand.unlocated

def Subinstruction.unlocated : Subinstruction → Subinstruction
  | assign dest source => .assign dest.unlocated ⟨source.value.unlocated, .point .start⟩
  | goto target => .goto target.unlocated
  | branch condition target => .branch condition target.unlocated
  | read => .read
  | write => .write
  | halt => .halt

def Instruction.unlocated (i : Instruction) : Instruction where
  label := i.label.map Located.unlocated
  address := i.address
  subs := i.subs.map fun sub => ⟨sub.value.unlocated, .point .start⟩

/-- The program without the places that it was read from. -/
def Program.unlocated (p : Program) : Program :=
  ⟨p.instructions.map Instruction.unlocated⟩

theorem unlocated_eq_of_value
    {α : Type}
    {l l' : Located α}
    (h : l.value = l'.value) :
    l.unlocated = l'.unlocated := by
  rw [Located.unlocated, Located.unlocated, h]

end Places

section Writing

/-- The ways to write a register: by itself or in one pair of parentheses. -/
inductive Register.Writes (r : Register) : List Token → Prop
  | bare : Writes r [.register r]
  | wrapped : Writes r [.openParen, .register r, .closeParen]

/-- The ways to write a register or an addition. -/
inductive Operand.Writes : Operand → List Token → Prop
  | read {r : Located Register} {ts : List Token} :
      r.value.Writes ts → Writes (.read r) ts
  | add {left right : Located Register} {ts us : List Token} :
      left.value.Writes ts → right.value.Writes us → Writes (.add left right) (ts ++ .plus :: us)

/-- The ways to write a right-hand side. -/
inductive Expr.Writes : Expr → List Token → Prop
  | sum {operand : Operand} {ts : List Token} :
      operand.Writes ts → Writes operand.expr ts
  | band {left right : Located Register} {ts us : List Token} :
      left.value.Writes ts → right.value.Writes us →
      Writes (.band left right)
        (.keyword .band :: .openParen :: (ts ++ .comma :: (us ++ [.closeParen])))
  | unary {op : UnaryOp} {operand : Operand} {ts : List Token} :
      operand.Writes ts →
      Writes (.unary op operand)
        (.keyword (ParamOp.unary op).keyword :: .openParen :: (ts ++ [.closeParen]))

/-- The ways to write a sub-instruction without its `;`. -/
inductive Subinstruction.Writes : Subinstruction → List Token → Prop
  | assign {dest : Located Register} {source : Located Expr} {ts us : List Token} :
      dest.value.Writes ts → source.value.Writes us →
      Writes (.assign dest source) (ts ++ .assign :: us)
  | goto {target : Located String} :
      Writes (.goto target) [.keyword .goto, .label target.value]
  | branch {condition : Condition} {target : Located String} :
      Writes (.branch condition target)
        [.keyword .ifWord, .keyword condition.keyword, .keyword .thenWord, .keyword .goto,
          .label target.value]
  | read : Writes .read [.keyword .rd]
  | write : Writes .write [.keyword .wr]
  | halt : Writes .halt [.keyword .halt]

/-- The ways to write some sub-instructions, each with its `;`. -/
inductive SubsWrite : List (Located Subinstruction) → List Token → Prop
  | nil : SubsWrite [] []
  | cons {sub : Located Subinstruction} {subs : List (Located Subinstruction)}
      {ts us : List Token} :
      sub.value.Writes ts → SubsWrite subs us → SubsWrite (sub :: subs) (ts ++ .semicolon :: us)

/-- A label with its `:`. -/
def labelWriting : Option (Located String) → List Token
  | none => []
  | some name => [.label name.value, .colon]

/-- The ways to write an instruction: its label, if it has one, and its
sub-instructions. -/
def Instruction.Writes (i : Instruction) (ts : List Token) : Prop :=
  ∃ us, SubsWrite i.subs us ∧ ts = labelWriting i.label ++ us

/-- Characters that only separate tokens. -/
def Blanks (cs : List Char) : Prop :=
  ∀ c ∈ cs, c = ' ' ∨ c = '\t'

/-- The texts of some tokens with one or more blanks between them. -/
inductive Spaced : List Token → List Char → Prop
  | single (t : Token) : Spaced [t] t.text.toList
  | cons (t : Token) {ts : List Token} {blanks cs : List Char} :
      Blanks blanks → blanks ≠ [] → Spaced ts cs → Spaced (t :: ts) (t.text.toList ++ blanks ++ cs)

/-- The ways to write an instruction as a line; blanks may stand at its ends. -/
def Instruction.WritesLine (i : Instruction) (line : List Char) : Prop :=
  ∃ ts lead body trail, i.Writes ts ∧ Spaced ts body ∧ Blanks lead ∧ Blanks trail ∧
    line = lead ++ body ++ trail

/-- The texts that a program can be written as: its instructions on lines of their
own, with or without a line end after the last one. -/
def Program.Written (p : Program) (text : String) : Prop :=
  ∃ lines, List.Forall₂ Instruction.WritesLine p.instructions lines ∧
    (text.toList = lines.flatMap (fun line => line ++ ['\n']) ∨
      text.toList = ['\n'].intercalate lines)

end Writing

section Existence

theorem Operand.exists_writes
    (operand : Operand) :
    ∃ ts, operand.Writes ts := by
  cases operand with
  | read r => exact ⟨_, .read .bare⟩
  | add left right => exact ⟨_, .add .bare .bare⟩

theorem Expr.exists_writes
    (e : Expr) :
    ∃ ts, e.Writes ts := by
  cases e with
  | read r =>
      obtain ⟨ts, hts⟩ := (Operand.read r).exists_writes
      exact ⟨ts, .sum hts⟩
  | add left right =>
      obtain ⟨ts, hts⟩ := (Operand.add left right).exists_writes
      exact ⟨ts, .sum hts⟩
  | band left right =>
      exact ⟨_, .band .bare .bare⟩
  | unary op operand =>
      obtain ⟨ts, hts⟩ := operand.exists_writes
      exact ⟨_, .unary hts⟩

theorem Subinstruction.exists_writes
    (sub : Subinstruction) :
    ∃ ts, sub.Writes ts := by
  cases sub with
  | assign dest source =>
      obtain ⟨ts, hts⟩ := source.value.exists_writes
      exact ⟨_, .assign .bare hts⟩
  | goto target => exact ⟨_, .goto⟩
  | branch condition target => exact ⟨_, .branch⟩
  | read => exact ⟨_, .read⟩
  | write => exact ⟨_, .write⟩
  | halt => exact ⟨_, .halt⟩

theorem exists_subsWrite
    (subs : List (Located Subinstruction)) :
    ∃ ts, SubsWrite subs ts := by
  induction subs with
  | nil =>
      exact ⟨[], .nil⟩
  | cons sub subs ih =>
      obtain ⟨ts, hts⟩ := sub.value.exists_writes
      obtain ⟨us, hus⟩ := ih
      exact ⟨_, .cons hts hus⟩

theorem Spaced.cons_space
    {ts : List Token}
    {cs : List Char}
    (h : Spaced ts cs)
    (t : Token) :
    Spaced (t :: ts) (t.text.toList ++ [' '] ++ cs) :=
  .cons t (by simp [Blanks]) (by simp) h

theorem exists_spaced
    {ts : List Token}
    (hne : ts ≠ []) :
    ∃ cs, Spaced ts cs := by
  induction ts with
  | nil =>
      exact absurd rfl hne
  | cons t ts ih =>
      by_cases hts : ts = []
      · subst hts
        exact ⟨_, .single t⟩
      · obtain ⟨cs, hcs⟩ := ih hts
        exact ⟨_, hcs.cons_space t⟩

theorem SubsWrite.ne_nil
    {subs : List (Located Subinstruction)}
    {ts : List Token}
    (h : SubsWrite subs ts)
    (hne : subs ≠ []) :
    ts ≠ [] := by
  cases h with
  | nil => exact absurd rfl hne
  | cons hsub hsubs => simp

theorem Instruction.exists_writesLine
    {i : Instruction}
    (hne : i.subs ≠ []) :
    ∃ line, i.WritesLine line := by
  obtain ⟨us, hus⟩ := exists_subsWrite i.subs
  have htokens : labelWriting i.label ++ us ≠ [] := by
    simp [hus.ne_nil hne]
  obtain ⟨cs, hcs⟩ := exists_spaced htokens
  exact ⟨_, _, [], cs, [], ⟨us, hus, rfl⟩, hcs, by simp [Blanks], by simp [Blanks], rfl⟩

theorem exists_writesLines
    {is : List Instruction}
    {address : Nat}
    (h : WellFormedFrom address is) :
    ∃ lines, List.Forall₂ Instruction.WritesLine is lines := by
  induction is generalizing address with
  | nil =>
      exact ⟨[], .nil⟩
  | cons i is ih =>
      obtain ⟨hi, his⟩ := h
      obtain ⟨line, hline⟩ := Instruction.exists_writesLine hi.subs_ne_nil
      obtain ⟨lines, hlines⟩ := ih his
      exact ⟨line :: lines, .cons hline hlines⟩

/-- Every well-formed program can be written. -/
theorem exists_written
    {p : Program}
    (h : p.WellFormed) :
    ∃ text, p.Written text := by
  obtain ⟨lines, hwrites⟩ := exists_writesLines (wellFormed_iff.1 h)
  exact ⟨String.ofList (lines.flatMap fun line => line ++ ['\n']), lines, hwrites,
    Or.inl (String.toList_ofList)⟩

end Existence

section Trees

variable {ts : List (Located Token)} {us vs : List Token}

/-- Located tokens with given values fall into the parts that the values fall
into. -/
theorem exists_split
    {t : Token}
    (h : ts.map Located.value = us ++ t :: vs) :
    ∃ ts₁ s ts₂, ts = ts₁ ++ ⟨t, s⟩ :: ts₂ ∧ ts₁.map Located.value = us ∧
      ts₂.map Located.value = vs := by
  obtain ⟨ts₁, rest, rfl, h₁, hrest⟩ := List.map_eq_append_iff.1 h
  obtain ⟨⟨value, s⟩, ts₂, rfl, rfl, h₂⟩ := List.map_eq_cons_iff.1 hrest
  exact ⟨ts₁, s, ts₂, rfl, h₁, h₂⟩

theorem exists_cons
    {t : Token}
    (h : ts.map Located.value = t :: vs) :
    ∃ s ts₂, ts = ⟨t, s⟩ :: ts₂ ∧ ts₂.map Located.value = vs := by
  obtain ⟨⟨value, s⟩, ts₂, rfl, rfl, h₂⟩ := List.map_eq_cons_iff.1 h
  exact ⟨s, ts₂, rfl, h₂⟩

theorem exists_singleton
    {t : Token}
    (h : ts.map Located.value = [t]) :
    ∃ s, ts = [⟨t, s⟩] := by
  obtain ⟨s, ts₂, rfl, h₂⟩ := exists_cons h
  exact ⟨s, by rw [List.map_eq_nil_iff.1 h₂]⟩

theorem exists_reg
    {r : Register}
    (hw : r.Writes us)
    (h : ts.map Located.value = us) :
    ∃ tree : Reg, tree.tokens = ts ∧ tree.register.value = r := by
  cases hw with
  | bare =>
      obtain ⟨s, rfl⟩ := exists_singleton h
      exact ⟨.bare ⟨r, s⟩, rfl, rfl⟩
  | wrapped =>
      obtain ⟨opening, ts₁, rfl, h₁⟩ := exists_cons h
      obtain ⟨s, ts₂, rfl, h₂⟩ := exists_cons h₁
      obtain ⟨closing, rfl⟩ := exists_singleton h₂
      exact ⟨.wrapped opening ⟨r, s⟩ closing, rfl, rfl⟩

theorem exists_sumTree
    {operand : Operand}
    (hw : operand.Writes us)
    (h : ts.map Located.value = us) :
    ∃ tree : Grammar.Sum, tree.tokens = ts ∧ tree.operand.unlocated = operand.unlocated := by
  cases hw with
  | read hr =>
      obtain ⟨tree, rfl, hvalue⟩ := exists_reg hr h
      exact ⟨.single tree, rfl, congrArg Operand.read (unlocated_eq_of_value hvalue)⟩
  | add hleft hright =>
      obtain ⟨ts₁, sign, ts₂, rfl, h₁, h₂⟩ := exists_split h
      obtain ⟨left, rfl, hl⟩ := exists_reg hleft h₁
      obtain ⟨right, rfl, hr⟩ := exists_reg hright h₂
      exact ⟨.plus left sign right, rfl,
        congrArg₂ Operand.add (unlocated_eq_of_value hl) (unlocated_eq_of_value hr)⟩

theorem unlocated_expr
    (operand : Operand) :
    operand.expr.unlocated = operand.unlocated.expr := by
  cases operand <;> rfl

theorem exists_rightSideTree
    {e : Expr}
    (hw : e.Writes us)
    (h : ts.map Located.value = us) :
    ∃ tree : RightSide, tree.tokens = ts ∧ tree.expr.unlocated = e.unlocated := by
  cases hw with
  | sum hs =>
      obtain ⟨tree, rfl, hsame⟩ := exists_sumTree hs h
      refine ⟨.sum tree, rfl, ?_⟩
      rw [RightSide.expr, Sum.expr_eq, unlocated_expr, unlocated_expr, hsame]
  | band hleft hright =>
      obtain ⟨keyword, ts₁, rfl, h₁⟩ := exists_cons h
      obtain ⟨opening, ts₂, rfl, h₂⟩ := exists_cons h₁
      obtain ⟨ts₃, comma, ts₄, rfl, h₃, h₄⟩ := exists_split h₂
      obtain ⟨ts₅, closing, ts₆, rfl, h₅, h₆⟩ := exists_split h₄
      obtain ⟨left, rfl, hl⟩ := exists_reg hleft h₃
      obtain ⟨right, rfl, hr⟩ := exists_reg hright h₅
      obtain rfl := List.map_eq_nil_iff.1 h₆
      exact ⟨.band keyword opening left comma right closing, rfl,
        congrArg₂ Expr.band (unlocated_eq_of_value hl) (unlocated_eq_of_value hr)⟩
  | @unary op _ _ hs =>
      obtain ⟨keyword, ts₁, rfl, h₁⟩ := exists_cons h
      obtain ⟨opening, ts₂, rfl, h₂⟩ := exists_cons h₁
      obtain ⟨ts₃, closing, ts₄, rfl, h₃, h₄⟩ := exists_split h₂
      obtain ⟨tree, rfl, hsame⟩ := exists_sumTree hs h₃
      obtain rfl := List.map_eq_nil_iff.1 h₄
      exact ⟨.unary op keyword opening tree closing, rfl, congrArg (Expr.unary op) hsame⟩

theorem exists_jump
    {name : String}
    (h : ts.map Located.value = [.keyword .goto, .label name]) :
    ∃ keyword s, ts = jumpTokens keyword ⟨name, s⟩ := by
  obtain ⟨keyword, ts₁, rfl, h₁⟩ := exists_cons h
  obtain ⟨s, rfl⟩ := exists_singleton h₁
  exact ⟨keyword, s, rfl⟩

theorem exists_action
    {sub : Subinstruction}
    (hw : sub.Writes us)
    (h : ts.map Located.value = us) :
    ∃ tree : Action, tree.tokens = ts ∧ tree.subinstruction.unlocated = sub.unlocated := by
  cases hw with
  | assign hdest hsource =>
      obtain ⟨ts₁, sign, ts₂, rfl, h₁, h₂⟩ := exists_split h
      obtain ⟨dest, rfl, hd⟩ := exists_reg hdest h₁
      obtain ⟨source, rfl, hs⟩ := exists_rightSideTree hsource h₂
      refine ⟨.assign dest sign source, rfl, ?_⟩
      exact congrArg₂ Subinstruction.assign (unlocated_eq_of_value hd)
        (congrArg (Located.mk · _) hs)
  | goto =>
      obtain ⟨keyword, s, rfl⟩ := exists_jump h
      exact ⟨.goto keyword ⟨_, s⟩, rfl, rfl⟩
  | @branch condition target =>
      obtain ⟨ifWord, ts₁, rfl, h₁⟩ := exists_cons h
      obtain ⟨s, ts₂, rfl, h₂⟩ := exists_cons h₁
      obtain ⟨thenWord, ts₃, rfl, h₃⟩ := exists_cons h₂
      obtain ⟨gotoWord, s', rfl⟩ := exists_jump h₃
      exact ⟨.branch ifWord ⟨condition, s⟩ thenWord gotoWord ⟨target.value, s'⟩, rfl, rfl⟩
  | read =>
      obtain ⟨s, rfl⟩ := exists_singleton h
      exact ⟨.read s, rfl, rfl⟩
  | write =>
      obtain ⟨s, rfl⟩ := exists_singleton h
      exact ⟨.write s, rfl, rfl⟩
  | halt =>
      obtain ⟨s, rfl⟩ := exists_singleton h
      exact ⟨.halt s, rfl, rfl⟩

theorem exists_actions
    {subs : List (Located Subinstruction)}
    (hw : SubsWrite subs us)
    (h : ts.map Located.value = us) :
    ∃ as : List (Action × Span), actionTokens as = ts ∧
      (as.map fun a => a.1.subinstruction.unlocated) = subs.map fun sub => sub.value.unlocated := by
  induction hw generalizing ts with
  | nil =>
      exact ⟨[], (List.map_eq_nil_iff.1 h).symm, rfl⟩
  | cons hsub hsubs ih =>
      obtain ⟨ts₁, semicolon, ts₂, rfl, h₁, h₂⟩ := exists_split h
      obtain ⟨a, rfl, ha⟩ := exists_action hsub h₁
      obtain ⟨as, rfl, has⟩ := ih h₂
      exact ⟨(a, semicolon) :: as, rfl, congrArg₂ List.cons ha has⟩

theorem exists_label
    {label : Option (Located String)}
    (h : ts.map Located.value = labelWriting label) :
    ∃ tree : Option (Located String × Span), labelTokens tree = ts ∧
      tree.toList.length = label.toList.length ∧
      (tree.map Prod.fst).map Located.unlocated = label.map Located.unlocated := by
  cases label with
  | none =>
      exact ⟨none, (List.map_eq_nil_iff.1 h).symm, rfl, rfl⟩
  | some name =>
      obtain ⟨s, ts₁, rfl, h₁⟩ := exists_cons h
      obtain ⟨colon, rfl⟩ := exists_singleton h₁
      exact ⟨some (⟨name.value, s⟩, colon), rfl, rfl, rfl⟩

theorem exists_line
    {i : Instruction}
    {address : Nat}
    (hi : i.WellFormed address)
    (hw : i.Writes us)
    (h : ts.map Located.value = us) :
    ∃ line : Line, line.tokens = ts ∧ (line.instruction address).unlocated = i.unlocated := by
  obtain ⟨vs, hsubs, rfl⟩ := hw
  obtain ⟨ts₁, ts₂, rfl, h₁, h₂⟩ := List.map_eq_append_iff.1 h
  obtain ⟨label, rfl, hcount, hlabel⟩ := exists_label h₁
  obtain ⟨as, rfl, has⟩ := exists_actions hsubs h₂
  have hlen : as.length = i.subs.length := by
    simpa using congrArg List.length has
  have hne : as ≠ [] := by
    rw [← List.length_pos_iff, hlen]
    exact List.length_pos_iff.2 hi.subs_ne_nil
  have hslots : label.toList.length + as.length ≤ Instruction.slots := by
    rw [hcount, hlen]
    exact hi.slots_le
  refine ⟨⟨label, as, hne, hslots⟩, rfl, ?_⟩
  have hplaced := congrArg (List.map fun sub => Located.mk sub (.point .start)) has
  simp only [List.map_map] at hplaced
  simp only [Line.instruction, Instruction.unlocated, hlabel, hi.address_eq, List.map_map]
  exact congrArg (Instruction.mk _ address) hplaced

/-- Tokens that a well-formed program is written with have, wherever they stand, a
derivation of that program up to places. -/
theorem exists_lines
    {is : List Instruction}
    {address : Nat}
    {lines : List (List Token)}
    (his : WellFormedFrom address is)
    (hw : List.Forall₂ Instruction.Writes is lines)
    (h : ts.map Located.value = lines.flatMap fun line => line ++ [.newline]) :
    ∃ tree : Lines, tree.tokens = ts ∧
      (tree.instructions address).map Instruction.unlocated = is.map Instruction.unlocated := by
  induction hw generalizing ts address with
  | nil =>
      exact ⟨.done, (List.map_eq_nil_iff.1 h).symm, rfl⟩
  | @cons i line is lines hline hlines ih =>
      rw [List.flatMap_cons, List.append_assoc] at h
      obtain ⟨ts₁, newline, ts₂, rfl, h₁, h₂⟩ := exists_split h
      obtain ⟨tree, rfl, hsame⟩ := exists_line his.1 hline h₁
      obtain ⟨rest, rfl, hrest⟩ := ih his.2 h₂
      refine ⟨.ended tree newline [] rest, ?_, congrArg₂ List.cons hsame hrest⟩
      simp [Lines.tokens, newlines]

end Trees

end Microcode
