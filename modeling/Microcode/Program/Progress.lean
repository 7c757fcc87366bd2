import Microcode.Program.Rules

/-!
# Instructions take tokens

A rule never leaves more tokens than it was given.  `Advances p`: the rule `p`
takes at least one token whenever it succeeds.  Rules in sequence advance if one
of them does, and every sub-instruction is followed by a `;`.

**Results.**  `advances_instruction`: an instruction takes at least one token.
-/

namespace Microcode
namespace Parser

variable {α β : Type}

/-- A rule that takes at least one token whenever it succeeds. -/
def Advances (p : Parser α) : Prop :=
  ∀ c a c', p c = .ok (a, c') → c'.rest.length < c.rest.length

theorem bind_eq_ok
    {p : Parser α}
    {f : α → Parser β}
    {c c'' : Cursor}
    {b : β}
    (h : (p >>= f) c = .ok (b, c'')) :
    ∃ a c', p c = .ok (a, c') ∧ f a c' = .ok (b, c'') := by
  rw [bind_apply] at h
  split at h
  · simp at h
  · next a c' hp => exact ⟨a, c', hp, h⟩

theorem advances_bind_left
    {p : Parser α}
    {f : α → Parser β}
    (hp : Advances p) :
    Advances (p >>= f) := by
  intro c b c'' h
  obtain ⟨a, c', hpc, hfc⟩ := bind_eq_ok h
  exact Nat.lt_of_le_of_lt ((f a).forward hfc) (hp c a c' hpc)

theorem advances_bind_right
    {p : Parser α}
    {f : α → Parser β}
    (hf : ∀ a, Advances (f a)) :
    Advances (p >>= f) := by
  intro c b c'' h
  obtain ⟨a, c', hpc, hfc⟩ := bind_eq_ok h
  exact Nat.lt_of_lt_of_le (hf a c' b c'' hfc) (p.forward hpc)

theorem advances_next :
    Advances next := by
  intro c a c' h
  cases hrest : c.rest with
  | nil =>
      rw [next_nil hrest] at h
      cases h
  | cons t ts =>
      rw [next_cons hrest] at h
      cases h
      simp

theorem advances_expect
    (token : Token) :
    Advances (expect token) := by
  intro c a c' h
  cases hrest : c.rest with
  | nil =>
      rw [expect_nil hrest] at h
      cases h
  | cons t ts =>
      rw [expect_cons hrest] at h
      split at h
      · cases h
        simp
      · cases h

theorem advances_subinstructions
    (free : Nat) :
    Advances (subinstructions free) := by
  cases free with
  | zero => exact advances_bind_left advances_next
  | succ free =>
      exact advances_bind_right fun sub => advances_bind_left (advances_expect .semicolon)

/-- An instruction takes at least one token. -/
theorem advances_instruction
    (address : Nat) :
    Advances (instruction address) :=
  advances_bind_right fun _ => advances_bind_left (advances_subinstructions _)

theorem length_skipNewlines_le
    (c : Cursor) :
    (skipNewlines c).rest.length ≤ c.rest.length := by
  suffices h : ∀ ts last, (skipNewlines.go ts last).rest.length ≤ ts.length from h _ _
  intro ts
  induction ts with
  | nil =>
      intro last
      exact Nat.le_refl _
  | cons t ts ih =>
      intro last
      unfold skipNewlines.go
      split
      · exact Nat.le_succ_of_le (ih _)
      · exact Nat.le_refl _

end Parser
end Microcode
