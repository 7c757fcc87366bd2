import Microcode.Assembly
import Microcode.Proofs.Program.Parsing
import Microcode.Proofs.Token.Reading

/-!
# Programs that are read are well formed

A program is well formed if its instructions carry their own numbers, none is
empty or fills more than six slots, and every label is defined and jumped to by
a name: letters and digits that are no reserved word.

**Results.**
* `isName_of_mem_tokens`: a label that the lexer yields is a name.
* `wellFormed_of_program`: a program that is read from a source is well formed.
-/

namespace Microcode

open Grammar

/-- A name that a label can have. -/
def IsName (name : String) : Prop :=
  name.toList ≠ [] ∧ (∀ c ∈ name.toList, c.isAlphanum = true) ∧ Keyword.ofName? name = none

/-- An instruction that can stand at an address. -/
structure Instruction.WellFormed (i : Instruction) (address : Nat) : Prop where
  address_eq : i.address = address
  subs_ne_nil : i.subs ≠ []
  slots_le : i.label.toList.length + i.subs.length ≤ Instruction.slots
  label_isName : ∀ name ∈ i.label, IsName name.value
  target_isName : ∀ sub ∈ i.subs, ∀ name ∈ sub.value.target?, IsName name.value

/-- A program whose instructions can stand where they do. -/
def Program.WellFormed (p : Program) : Prop :=
  ∀ (n : Nat) (i : Instruction), p.instructions[n]? = some i → i.WellFormed n

/-- Instructions that can stand at the addresses from a given one on. -/
def WellFormedFrom : Nat → List Instruction → Prop
  | _, [] => True
  | address, i :: is => i.WellFormed address ∧ WellFormedFrom (address + 1) is

theorem wellFormedFrom_iff
    {is : List Instruction}
    {address : Nat} :
    WellFormedFrom address is ↔
      ∀ (n : Nat) (i : Instruction), is[n]? = some i → i.WellFormed (address + n) := by
  induction is generalizing address with
  | nil =>
      simp [WellFormedFrom]
  | cons i is ih =>
      rw [WellFormedFrom, ih]
      constructor
      · rintro ⟨hi, his⟩ n j hj
        cases n with
        | zero =>
            cases hj
            exact hi
        | succ n =>
            have hn := his n j hj
            rwa [Nat.add_right_comm, Nat.add_assoc] at hn
      · intro h
        refine ⟨h 0 i rfl, fun n j hj => ?_⟩
        rw [Nat.add_right_comm, Nat.add_assoc]
        exact h (n + 1) j hj

theorem wellFormed_iff
    {p : Program} :
    p.WellFormed ↔ WellFormedFrom 0 p.instructions := by
  simp only [Program.WellFormed, wellFormedFrom_iff, Nat.zero_add]

section Reading

/-- The words that characters are cut into are not empty and hold characters of
words only. -/
theorem word_of_mem_cut
    {cs : List Char}
    {ls : List Lexeme}
    {text : String}
    (h : Cut cs ls)
    (hmem : Lexeme.word text ∈ ls) :
    text.toList ≠ [] ∧ ∀ c ∈ text.toList, isTermChar c = true := by
  induction h with
  | done =>
      cases hmem
  | blank hb h ih =>
      exact ih hmem
  | @munch chars cs l ls ht hmax h ih =>
      rcases List.mem_cons.1 hmem with rfl | hmem
      · rcases (ofText?_eq_some_iff _ _).1 ht with
          ⟨c, -, hc⟩ | ⟨-, hl⟩ | ⟨-, hl⟩ | ⟨-, -, hl⟩ | ⟨hne, hall, hl⟩
        · unfold Lexeme.ofSymbol? at hc
          split at hc <;> cases hc
        · cases hl
        · cases hl
        · cases hl
        · cases hl
          simpa using And.intro hne hall
      · exact ih hmem
  | bad hb hnone h ih =>
      rcases List.mem_cons.1 hmem with hl | hmem
      · cases hl
      · exact ih hmem

theorem asLabel_eq_label
    {text name : String}
    (h : Lexeme.wordToken.asLabel text = .ok (.label name)) :
    name = text ∧ '-' ∉ text.toList := by
  unfold Lexeme.wordToken.asLabel at h
  split at h
  · cases h
  · next hminus =>
      cases h
      exact ⟨rfl, hminus⟩

theorem asRegister_ne_label
    {text name : String}
    {error : String → LexError} :
    Lexeme.wordToken.asRegister text error ≠ .ok (.label name) := by
  unfold Lexeme.wordToken.asRegister
  split <;> simp

/-- A word that stands for a label is that label, and no reserved word. -/
theorem wordToken_eq_label
    {previous : Option Token}
    {next : Option Lexeme}
    {text name : String}
    (h : Lexeme.wordToken previous next text = .ok (.label name)) :
    name = text ∧ '-' ∉ text.toList ∧ Keyword.ofName? text = none := by
  cases hkey : Keyword.ofName? text with
  | some k =>
      simp [Lexeme.wordToken, hkey] at h
  | none =>
      suffices hlabel : Lexeme.wordToken.asLabel text = .ok (.label name) by
        obtain ⟨hname, hminus⟩ := asLabel_eq_label hlabel
        exact ⟨hname, hminus, rfl⟩
      rw [wordToken_eq_of_context previous next text hkey] at h
      split at h
      · unfold Lexeme.wordToken.atStart at h
        split at h
        · exact absurd h asRegister_ne_label
        · exact h
      · exact h
      · split at h
        · exact h
        · exact absurd h asRegister_ne_label

theorem isName_of_wordToken
    {previous : Option Token}
    {next : Option Lexeme}
    {text name : String}
    (hne : text.toList ≠ [])
    (hall : ∀ c ∈ text.toList, isTermChar c = true)
    (h : Lexeme.wordToken previous next text = .ok (.label name)) :
    IsName name := by
  obtain ⟨rfl, hminus, hkey⟩ := wordToken_eq_label h
  refine ⟨hne, fun c hc => ?_, hkey⟩
  have hterm := hall c hc
  have hc' : c ≠ '-' := by
    rintro rfl
    exact hminus hc
  rw [isTermChar_eq_isWordChar] at hterm
  simpa [isWordChar, hc'] using hterm

/-- The labels among the tokens of some lexemes are names. -/
theorem isName_of_mem_readAll
    {previous : Option Token}
    {ls : List Lexeme}
    {name : String}
    (hwords : ∀ text, Lexeme.word text ∈ ls →
      text.toList ≠ [] ∧ ∀ c ∈ text.toList, isTermChar c = true)
    (hmem : Token.label name ∈ (Lexeme.readAll previous ls).1) :
    IsName name := by
  induction ls generalizing previous with
  | nil =>
      cases hmem
  | cons l ls ih =>
      simp only [Lexeme.readAll] at hmem
      split at hmem
      · cases hmem
      · next t ht =>
          rcases List.mem_cons.1 hmem with rfl | hmem
          · cases l with
            | word text =>
                obtain ⟨hne, hall⟩ := hwords text (by simp)
                exact isName_of_wordToken hne hall ht
            | _ => cases ht
          · exact ih (fun text htext => hwords text (by simp [htext])) hmem

/-- A label that the lexer yields is a name. -/
theorem isName_of_mem_tokens
    {s : Source}
    {ts : List (Located Token)}
    {t : Located Token}
    {name : String}
    (h : s.tokens = .ok ts)
    (hmem : t ∈ ts)
    (ht : t.value = .label name) :
    IsName name := by
  obtain ⟨-, rfl⟩ := tokens_eq_ok_iff.1 h
  obtain ⟨ls, hls⟩ := exists_cut s.chars
  have hvalues : s.reading.tokens.map Located.value = (Lexeme.readAll none ls).1 :=
    congrArg Prod.fst (run_of_cut hls none .start)
  have hlabel : Token.label name ∈ (Lexeme.readAll none ls).1 := by
    rw [← hvalues, ← ht]
    exact List.mem_map_of_mem hmem
  exact isName_of_mem_readAll (fun text htext => word_of_mem_cut hls htext) hlabel

end Reading

section Trees

/-- The labels among some tokens are names. -/
def NamesIn (ts : List (Located Token)) : Prop :=
  ∀ t ∈ ts, ∀ name, t.value = .label name → IsName name

theorem NamesIn.mono
    {ts us : List (Located Token)}
    (h : NamesIn us)
    (hsub : ∀ t ∈ ts, t ∈ us) :
    NamesIn ts :=
  fun t ht => h t (hsub t ht)

theorem isName_of_target
    {a : Action}
    {name : Located String}
    (h : NamesIn a.tokens)
    (hname : name ∈ a.subinstruction.target?) :
    IsName name.value :=
  h _ (a.mem_tokens_of_target hname) _ rfl

theorem Line.wellFormed_instruction
    {line : Line}
    (address : Nat)
    (h : NamesIn line.tokens) :
    (line.instruction address).WellFormed address where
  address_eq := rfl
  subs_ne_nil := by
    simpa [Line.instruction] using line.actions_ne_nil
  slots_le := by
    have hslots := line.slots_le
    cases hl : line.label <;> simpa [Line.instruction, hl] using hslots
  label_isName := by
    intro name hname
    obtain ⟨⟨name, colon⟩, hl, rfl⟩ := Option.map_eq_some_iff.1 hname
    refine h ⟨.label name.value, name.span⟩ ?_ _ rfl
    simp [Line.tokens, hl, labelTokens]
  target_isName := by
    intro sub hsub name hname
    obtain ⟨p, hp, rfl⟩ := List.mem_map.1 hsub
    refine isName_of_target (h.mono fun t ht => ?_) hname
    exact List.mem_append_right _ ((infix_actionTokens hp).mem ht)

theorem Lines.wellFormed_instructions
    {lines : Lines}
    {address : Nat}
    (h : NamesIn lines.tokens) :
    WellFormedFrom address (lines.instructions address) := by
  induction lines generalizing address with
  | done =>
      trivial
  | last line =>
      exact ⟨Line.wellFormed_instruction address h, trivial⟩
  | ended line newline more rest ih =>
      have hline : NamesIn line.tokens := h.mono fun t ht => by simp [Lines.tokens, ht]
      have hrest : NamesIn rest.tokens := h.mono fun t ht => by simp [Lines.tokens, ht]
      exact ⟨Line.wellFormed_instruction address hline, ih hrest⟩

theorem program_eq_ok_iff
    {s : Source}
    {p : Program} :
    s.program = .ok p ↔
      ∃ ts, s.tokens = .ok ts ∧ Program.ofTokens ts (.point .start) = .ok p := by
  unfold Source.program
  cases s.tokens with
  | error error =>
      simp
  | ok ts =>
      cases h : Program.ofTokens ts (.point .start) <;> simp [h]

/-- A program that is read from a source is well formed. -/
theorem wellFormed_of_program
    {s : Source}
    {p : Program}
    (h : s.program = .ok p) :
    p.WellFormed := by
  obtain ⟨ts, hts, hp⟩ := program_eq_ok_iff.1 h
  obtain ⟨⟨lead, lines⟩, rfl, rfl⟩ := ofTokens_eq_ok_iff.1 hp
  have hnames : NamesIn lines.tokens := by
    intro t ht name hname
    exact isName_of_mem_tokens hts (List.mem_append_right _ ht) hname
  exact wellFormed_iff.2 (Lines.wellFormed_instructions hnames)

end Trees

end Microcode
