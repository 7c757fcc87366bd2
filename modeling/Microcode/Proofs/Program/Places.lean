import Microcode.Proofs.Program.Transport
import Microcode.Proofs.Source.Lines

/-!
# Instructions do not depend on where their line stands

**Input.**  A line that is followed by a line end and any tokens, once as it stands
and once moved to another place, where other tokens may follow.

**Algorithm.**  To move the places of a line is a `Transport` that keeps all names.
Only where an error ends may differ, since an error at the line end covers the line
ends that follow it.

**Result.**
* `instruction_moved`: both lines give the same instruction with moved places, or the
  same error at a moved place.
-/

namespace Microcode

section Moving

variable (g : Position → Position)

/-- A value with places of its own, at a span, all of them moved. -/
def Located.moveWith {α : Type} (move : α → α) (l : Located α) : Located α :=
  ⟨move l.value, l.span.move g⟩

def Operand.move : Operand → Operand
  | read r => .read (r.move g)
  | add left right => .add (left.move g) (right.move g)

def Expr.move : Expr → Expr
  | read r => .read (r.move g)
  | add left right => .add (left.move g) (right.move g)
  | band left right => .band (left.move g) (right.move g)
  | unary op operand => .unary op (operand.move g)

def Subinstruction.move : Subinstruction → Subinstruction
  | assign dest source => .assign (dest.move g) (source.moveWith g (Expr.move g))
  | goto target => .goto (target.move g)
  | branch condition target => .branch condition (target.move g)
  | read => .read
  | write => .write
  | halt => .halt

/-- An instruction whose places are moved. -/
def Instruction.move (i : Instruction) : Instruction where
  label := i.label.map (Located.move g)
  address := i.address
  subs := i.subs.map (Located.moveWith g (Subinstruction.move g))

end Moving

namespace Transport

variable (g : Position → Position)

/-- All places are moved and no name is changed.  A line end starts at the moved place. -/
def place : Transport where
  name := id
  span := Span.move g
  near s s' := s'.first = g s.first
  near_span _ := rfl
  through_span h _ := by rw [Span.through, h]; rfl

theorem token_place :
    (place g).token = Located.move g := by
  funext t
  exact congrArg (Located.mk · _) t.value.rename_id

theorem operand_place
    (operand : Operand) :
    (place g).operand operand = operand.move g := by
  cases operand <;> rfl

theorem expr_place
    (expr : Expr) :
    (place g).expr expr = expr.move g := by
  cases expr with
  | unary op operand => exact congrArg (Expr.unary op) (operand_place g operand)
  | _ => rfl

theorem subinstruction_place
    (sub : Subinstruction) :
    (place g).subinstruction sub = sub.move g := by
  cases sub with
  | assign dest source =>
      exact congrArg (fun e => Subinstruction.assign (dest.move g) ⟨e, source.span.move g⟩)
        (expr_place g source.value)
  | _ => rfl

theorem instruction_place
    (i : Instruction) :
    (place g).instruction i = i.move g := by
  have hsubs : (place g).located (place g).subinstruction =
      Located.moveWith g (Subinstruction.move g) := by
    funext sub
    exact congrArg (Located.mk · _) (subinstruction_place g sub.value)
  rw [instruction, hsubs]
  rfl

end Transport

namespace Parser

/-- **Instructions do not depend on where their line stands.**  On both lines the same
error is found, at a moved place, or the same instruction but for its places, and then
the whole line is taken. -/
theorem instruction_moved
    {g : Position → Position}
    {ts : List (Located Token)}
    {newline newline' : Located Token}
    (hts : ∀ t ∈ ts, t.value ≠ .newline)
    (hnewline : newline.value = .newline)
    (hnewline' : newline'.value = .newline)
    (hfirst : newline'.span.first = g newline.span.first)
    (rest rest' : List (Located Token))
    (last last' : Span)
    (address address' : Nat) :
    (∃ e e', instruction address ⟨ts ++ newline :: rest, last⟩ = .error e ∧
      instruction address' ⟨ts.map (Located.move g) ++ newline' :: rest', last'⟩ = .error e' ∧
      e'.value = e.value ∧ e'.span.first = g e.span.first) ∨
    ∃ i stop stop',
      instruction address ⟨ts ++ newline :: rest, last⟩ = .ok (i, ⟨newline :: rest, stop⟩) ∧
      instruction address' ⟨ts.map (Located.move g) ++ newline' :: rest', last'⟩ =
        .ok ({ i.move g with address := address' }, ⟨newline' :: rest', stop'⟩) := by
  have halike : Alike (.place g) (newline :: rest) (newline' :: rest')
      ⟨ts ++ newline :: rest, last⟩
      ⟨ts.map (Located.move g) ++ newline' :: rest', last'⟩ :=
    { ends := Or.inl ⟨_, rest, _, rest', rfl, rfl, hnewline, hnewline', hfirst⟩
      line := ⟨ts, hts, rfl, by rw [Transport.token_place]⟩
      near_last := fun h => by simp at h }
  rcases agree_instruction halike address address' with
    ⟨e, e', he, he', hvalue, hnear⟩ | ⟨i, ⟨_, stop⟩, ⟨_, stop'⟩, hi, hi', rfl, rfl, -⟩
  · exact Or.inl ⟨e, e', he, he', hvalue.trans e.value.rename_id, hnear⟩
  · rw [Transport.instruction_place] at hi'
    exact Or.inr ⟨i, stop, stop', hi, hi'⟩

end Parser
end Microcode
