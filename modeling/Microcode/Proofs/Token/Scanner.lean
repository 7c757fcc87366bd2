import Microcode.Token.Scanner
import Microcode.Proofs.Token.Lines

/-!
# The scanner reads what the lexer reads

**Input.**  A scanner and a lexer in front of the same characters, at the same place
and in the same context.

**Algorithm.**  The lexer finds the characters of a token by their longest run; the
scanner passes through one state per character and looks ahead as little as it can.
`Scanner.At` says where a scanner stands, whatever it has drawn so far.  Each phase
of the scanner has a lemma of its own: blanks, line feeds, the characters of a word,
and what follows a word.

**Results.**
* `At.step_advance`, `At.step_emit` and `At.step_classify`: one step of the scanner.
* `lex_blanks`, `lex_newlines` and `lex_word`: the runs of a phase.
* `lex_read`: the scanner finds the token that the lexer finds.
* `Matches.next?`: one token of the scanner is one token of the lexer, with the same
  span, and an error is followed by nothing on both sides.
* `tokenize_ofSource`: the scanner and the lexer read the same tokens of a source, or
  the same error.
-/

namespace Microcode
namespace Scanner

/-- Where a scanner stands: in front of some characters at a place, in a state, with the
place where the token starts and the context. -/
structure At (m : Scanner) (p : Position) (cs : List Char) (state : State) (start : Position)
    (context : Context) : Prop where
  pending : m.pending = Source.stream.go p cs
  next : m.next = p
  state : m.state = state
  start : m.start = start
  context : m.context = context

variable {m m' : Scanner} {p start last : Position} {cs : List Char} {state state' : State}
  {context : Context}

section Lookahead

/-- A scanner stands where it stood after it has drawn more characters. -/
theorem At.drawn
    (h : m.At p cs state start context)
    (hdrawn : m.Drawn m') :
    m'.At p cs state start context where
  pending := hdrawn.pending.trans h.pending
  next := hdrawn.next.trans h.next
  state := hdrawn.state.trans h.state
  start := hdrawn.start.trans h.start
  context := hdrawn.context.trans h.context

theorem At.peek_eq
    (h : m.At p cs state start context)
    (offset : Nat) :
    (m.peek offset).1 = cs[offset]? := by
  rw [peek_fst, h.pending, ← List.getElem?_map, Source.map_fst_go]

/-- The first character that is no blank is found. -/
theorem At.drop_skipBlanks
    (h : m.At p cs state start context)
    (offset : Nat) :
    cs.drop (m.skipBlanks offset).1 = (cs.drop offset).dropWhile isBlank := by
  fun_induction skipBlanks m offset with
  | case1 m offset c hc hblank ih =>
      rw [h.peek_eq] at hc
      obtain ⟨hlt, rfl⟩ := List.getElem?_eq_some_iff.1 hc
      rw [ih (h.drawn (m.drawn_peek offset)), List.drop_eq_getElem_cons hlt,
        List.dropWhile_cons_of_pos hblank]
  | case2 m offset c hc hblank =>
      rw [h.peek_eq] at hc
      obtain ⟨hlt, rfl⟩ := List.getElem?_eq_some_iff.1 hc
      rw [List.drop_eq_getElem_cons hlt, List.dropWhile_cons_of_neg hblank]
  | case3 m offset hc =>
      rw [h.peek_eq] at hc
      have hend : cs.drop offset = [] := List.drop_eq_nil_of_le (List.getElem?_eq_none_iff.1 hc)
      rw [hend, List.dropWhile_nil]

/-- What follows a word is seen through the queue. -/
theorem At.afterWord_eq
    (h : m.At p cs state start context) :
    m.afterWord.1 = Follow.ofChars cs := by
  have hblanks := h.drawn (m.drawn_skipBlanks 0)
  have hfirst := hblanks.peek_eq (m.skipBlanks 0).1
  have hsecond := (hblanks.drawn (drawn_peek _ (m.skipBlanks 0).1)).peek_eq ((m.skipBlanks 0).1 + 1)
  have hdrop := h.drop_skipBlanks 0
  rw [List.drop_zero] at hdrop
  simp only [afterWord, Follow.ofChars, hfirst, hsecond, ← hdrop]
  generalize (m.skipBlanks 0).1 = offset
  -- The two characters that are seen are the first two behind the blanks.
  have hget : ∀ k, cs[offset + k]? = (cs.drop offset)[k]? := fun k => by
    rw [List.getElem?_drop]
  rw [← Nat.add_zero offset, hget 0, Nat.add_zero, hget 1]
  cases cs.drop offset with
  | nil => rfl
  | cons c ds =>
      by_cases hc : c = ':'
      · subst hc
        cases ds with
        | nil => rfl
        | cons d ds =>
            by_cases hd : d = '='
            · subst hd
              rfl
            · simp [hd]
      · simp [hc]

/-- A finished word is classified by what follows it. -/
theorem At.classify_eq
    (h : m.At p cs state start context)
    (word : String)
    (around : Context) :
    (m.classify word around).1 = around.classify word (Follow.ofChars cs) := by
  rw [← h.afterWord_eq]
  unfold Scanner.classify Context.classify
  cases Keyword.ofName? word with
  | some k => rfl
  | none =>
      cases around with
      | afterGoto => cases m.afterWord.1 <;> rfl
      | _ =>
          rcases m.afterWord with ⟨follow, m'⟩
          cases follow <;> rfl

end Lookahead

section Steps

/-- Where the token starts, seen from a state at a place. -/
def startAt (state : State) (p start : Position) : Position :=
  if state.isStart then p else start

/-- Before each step the next character is seen, and the start of the token is settled. -/
theorem At.settle
    (h : m.At p cs state start context) :
    (m.peek 0).2.settle.At p cs state (startAt state p start) context := by
  have hpeek := h.drawn (m.drawn_peek 0)
  refine ⟨hpeek.pending, hpeek.next, hpeek.state, ?_, hpeek.context⟩
  simp only [Scanner.settle, startAt, hpeek.state, hpeek.next, hpeek.start]

theorem At.head_eq
    (h : m.At p cs state start context) :
    (m.peek 0).1 = cs.head? := by
  rw [h.peek_eq, List.head?_eq_getElem?]

/-- A scanner stands where it stood if its state is set anew. -/
theorem At.restart
    (h : m.At p cs state start context)
    (state' : State) :
    { m with state := state' }.At p cs state' start context :=
  ⟨h.pending, h.next, rfl, h.start, h.context⟩

theorem At.step_stop
    (h : m.At p cs state start context)
    (hmove : state.move cs.head? = .stop)
    (last : Position) :
    ∃ m', m.step context last = .stop m' ∧ m'.At p cs state (startAt state p start) context := by
  refine ⟨(m.peek 0).2.settle, ?_, h.settle⟩
  simp only [step, h.settle.state, h.head_eq, hmove]

theorem At.step_emit
    {result : Except LexError Token}
    (h : m.At p cs state start context)
    (hmove : state.move cs.head? = .emit result)
    (last : Position) :
    ∃ m', m.step context last = .emit result m' ∧
      m'.At p cs .start (startAt state p start) context := by
  refine ⟨_, ?_, h.settle.restart .start⟩
  simp only [step, h.settle.state, h.head_eq, hmove]

theorem At.step_classify
    {word : String}
    (h : m.At p cs state start context)
    (hmove : state.move cs.head? = .classify word)
    (last : Position) :
    ∃ m', m.step context last = .emit (context.classify word (Follow.ofChars cs)) m' ∧
      m'.At p cs .start (startAt state p start) context := by
  have hstart := h.settle.restart .start
  refine ⟨_, ?_, hstart.drawn (drawn_classify _ word context)⟩
  simp only [step, h.settle.state, h.head_eq, hmove, ← hstart.classify_eq word context]

/-- A character is taken, and its place is that of the last character taken. -/
theorem At.step_advance
    {c : Char}
    (h : m.At p (c :: cs) state start context)
    (hmove : state.move (some c) = .advance state')
    (last : Position) :
    ∃ m', m.step context last = .more p m' ∧
      m'.At (p.after c) cs state' (startAt state p start) context := by
  obtain ⟨next, queue, hqueue⟩ := exists_lookahead_of_peek h.head_eq
  have hsettle := h.settle
  have hpending := hsettle.pending
  simp only [Scanner.settle, Scanner.pending, hqueue, Source.stream.go, List.cons_append,
    List.cons.injEq, Prod.mk.injEq, true_and] at hpending
  obtain ⟨rfl, hrest⟩ := hpending
  refine ⟨{ (m.peek 0).2.settle with
    state := state', lookahead := queue, next := p.after c }, ?_,
    hrest, rfl, rfl, hsettle.start, hsettle.context⟩
  have hplace : (m.peek 0).2.next = p := hsettle.next
  simp only [step, hsettle.state, h.head_eq, List.head?_cons, hmove]
  simp only [pop, Scanner.settle, hqueue, hplace, Option.getD_some]

end Steps

section Runs

variable {text : List Char}

/-- One step of the reading of a token, and what it leads to. -/
theorem lex_eq
    (m : Scanner)
    (context : Context)
    (last : Position) :
    m.lex context last =
      match m.step context last with
      | .stop m' => (.ok none, m')
      | .emit result m' => (result.map fun token => some (token, last), m')
      | .more last' m' => m'.lex context last' := by
  rw [lex]
  split <;> next hstep => rw [hstep]

theorem lex_of_stop
    (h : m.step context last = .stop m') :
    m.lex context last = (.ok none, m') := by
  rw [lex_eq, h]

theorem lex_of_emit
    {result : Except LexError Token}
    (h : m.step context last = .emit result m') :
    m.lex context last = (result.map fun token => some (token, last), m') := by
  rw [lex_eq, h]

theorem lex_of_more
    {last' : Position}
    (h : m.step context last = .more last' m') :
    m.lex context last = m'.lex context last' := by
  rw [lex_eq, h]

theorem firstMove_of_isBlank
    {c : Char}
    (h : isBlank c = true) :
    firstMove (some c) = .advance .start := by
  simp only [isBlank, Bool.or_eq_true, beq_iff_eq] at h
  rcases h with rfl | rfl <;> rfl

/-- Blanks are passed over. -/
theorem lex_blanks
    (h : m.At p cs .start start context)
    (last : Position) :
    ∃ (m' : Scanner) (start' last' : Position), m.lex context last = m'.lex context last' ∧
      m'.At (p.advance (cs.takeWhile isBlank)) (cs.dropWhile isBlank) .start start' context := by
  induction cs generalizing m p start last with
  | nil =>
      exact ⟨m, start, last, rfl, h⟩
  | cons c cs ih =>
      by_cases hc : isBlank c = true
      · obtain ⟨m₁, hstep, h₁⟩ := h.step_advance (firstMove_of_isBlank hc) last
        obtain ⟨m', start', last', hlex, h'⟩ := ih h₁ p
        rw [List.takeWhile_cons_of_pos hc, List.dropWhile_cons_of_pos hc]
        exact ⟨m', start', last', (lex_of_more hstep).trans hlex, h'⟩
      · rw [List.takeWhile_cons_of_neg hc, List.dropWhile_cons_of_neg hc]
        exact ⟨m, start, last, rfl, h⟩

/-- A token with all its characters is emitted, and the next character is not taken. -/
theorem lex_complete
    {token : Token}
    (h : m.At p cs (.complete token) start context)
    (last : Position) :
    ∃ m', m.lex context last = (.ok (some (token, last)), m') ∧ m'.At p cs .start start context := by
  obtain ⟨m', hstep, h'⟩ := h.step_emit rfl last
  exact ⟨m', lex_of_emit hstep, h'⟩

/-- A state that goes on with certain characters takes the longest run of them.  The last
character taken is always the last one of the text. -/
theorem lex_run
    {inside : List Char → State}
    {q : Char → Bool}
    (hinside : ∀ text, (inside text).isStart = false)
    (hmove : ∀ text c, q c = true → (inside text).move (some c) = .advance (inside (text ++ [c])))
    (h : m.At (p.advance text) cs (inside text) p context) :
    ∃ m' : Scanner, m.lex context (p.advance text.dropLast) =
        m'.lex context (p.advance (text ++ cs.takeWhile q).dropLast) ∧
      m'.At (p.advance (text ++ cs.takeWhile q)) (cs.dropWhile q) (inside (text ++ cs.takeWhile q))
        p context := by
  induction cs generalizing m text with
  | nil =>
      rw [List.takeWhile_nil, List.dropWhile_nil, List.append_nil]
      exact ⟨m, rfl, h⟩
  | cons c cs ih =>
      by_cases hc : q c = true
      · obtain ⟨m₁, hstep, h₁⟩ := h.step_advance (hmove text c hc) (p.advance text.dropLast)
        have htaken : m₁.At (p.advance (text ++ [c])) cs (inside (text ++ [c])) p context := by
          rw [Position.advance_append]
          simpa [startAt, hinside] using h₁
        obtain ⟨m', hlex, h'⟩ := ih htaken
        rw [List.dropLast_concat, List.append_assoc] at hlex
        rw [List.append_assoc] at h'
        rw [List.takeWhile_cons_of_pos hc, List.dropWhile_cons_of_pos hc]
        exact ⟨m', (lex_of_more hstep).trans hlex, h'⟩
      · rw [List.takeWhile_cons_of_neg hc, List.dropWhile_cons_of_neg hc, List.append_nil]
        exact ⟨m, rfl, h⟩

/-- What stands behind the longest run of certain characters is not one of them. -/
theorem move_behind
    {q : Char → Bool}
    {move : Move}
    (hnone : state.move none = move)
    (hsome : ∀ c, q c = false → state.move (some c) = move) :
    state.move (cs.dropWhile q).head? = move := by
  have hhead := List.head?_dropWhile_not q cs
  cases hrest : (cs.dropWhile q).head? with
  | none => exact hnone
  | some c =>
      rw [hrest] at hhead
      exact hsome c hhead

/-- A line end takes all line feeds that follow. -/
theorem lex_newlines
    (h : m.At (p.advance text) cs .newlines p context) :
    ∃ m', m.lex context (p.advance text.dropLast) =
        (.ok (some (.newline, p.advance (text ++ cs.takeWhile (· == '\n')).dropLast)), m') ∧
      m'.At (p.advance (text ++ cs.takeWhile (· == '\n'))) (cs.dropWhile (· == '\n')) .start p
        context := by
  obtain ⟨m₁, hlex, h₁⟩ := @lex_run m p cs context text (fun _ => .newlines) (· == '\n')
    (fun _ => rfl) (fun _ c hc => by rw [eq_of_beq hc]; rfl) h
  have hmove : State.newlines.move (cs.dropWhile (· == '\n')).head? = .emit (.ok .newline) := by
    refine move_behind rfl fun c hc => ?_
    have hne : c ≠ '\n' := by simpa using hc
    simp [State.move, hne]
  obtain ⟨m', hstep, h'⟩ := h₁.step_emit hmove _
  exact ⟨m', hlex.trans (lex_of_emit hstep), h'⟩

theorem push_ofList
    (text : List Char)
    (c : Char) :
    (String.ofList text).push c = String.ofList (text ++ [c]) := by
  rw [← String.toList_inj]
  simp

/-- A word takes all characters of words that follow, and is then classified. -/
theorem lex_word
    (h : m.At (p.advance text) cs (.word (String.ofList text)) p context) :
    ∃ m', m.lex context (p.advance text.dropLast) =
        ((context.classify (String.ofList (text ++ cs.takeWhile isWordChar))
            (Follow.ofChars (cs.dropWhile isWordChar))).map fun token =>
          some (token, p.advance (text ++ cs.takeWhile isWordChar).dropLast), m') ∧
      m'.At (p.advance (text ++ cs.takeWhile isWordChar)) (cs.dropWhile isWordChar) .start p
        context := by
  have hpush : ∀ (text : List Char) (c : Char), isWordChar c = true →
      (State.word (String.ofList text)).move (some c) =
        .advance (.word (String.ofList (text ++ [c]))) := by
    intro text c hc
    simp only [State.move, hc, if_true, push_ofList]
  obtain ⟨m₁, hlex, h₁⟩ := @lex_run m p cs context text (fun text => .word (String.ofList text))
    isWordChar (fun _ => rfl) hpush h
  have hmove : (State.word (String.ofList (text ++ cs.takeWhile isWordChar))).move
      (cs.dropWhile isWordChar).head? =
        .classify (String.ofList (text ++ cs.takeWhile isWordChar)) := by
    refine move_behind rfl fun c hc => ?_
    simp only [State.move, hc, Bool.false_eq_true, if_false]
  obtain ⟨m', hstep, h'⟩ := h₁.step_classify hmove _
  exact ⟨m', hlex.trans (lex_of_emit hstep), h'⟩

end Runs

section Tokens

/-- A scanner in front of some characters finds a token that takes a text, or an error. -/
def Finds (m : Scanner) (p : Position) (cs : List Char) (context : Context) (last : Position)
    (text : List Char) (result : Except LexError Token) : Prop :=
  ∃ m', m.lex context last = (result.map fun token => some (token, p.advance text.dropLast), m') ∧
    m'.start = p ∧
    ∀ token, result = .ok token → m'.At (p.advance text) (cs.drop text.length) .start p context

/-- A symbol of one character is found. -/
theorem finds_symbol
    {c : Char}
    {token : Token}
    (h : m.At p (c :: cs) .start start context)
    (hmove : firstMove (some c) = .advance (.complete token))
    (last : Position) :
    m.Finds p (c :: cs) context last [c] (.ok token) := by
  obtain ⟨m₁, hstep, h₁⟩ := h.step_advance hmove last
  obtain ⟨m', hlex, h'⟩ := lex_complete h₁ p
  exact ⟨m', (lex_of_more hstep).trans hlex, h'.start, fun _ _ => h'⟩

/-- A `:` with `=` behind it is one symbol. -/
theorem finds_assign
    (h : m.At p (':' :: '=' :: cs) .start start context)
    (last : Position) :
    m.Finds p (':' :: '=' :: cs) context last [':', '='] (.ok .assign) := by
  obtain ⟨m₁, hstep₁, h₁⟩ := h.step_advance rfl last
  obtain ⟨m₂, hstep₂, h₂⟩ := h₁.step_advance rfl p
  obtain ⟨m', hlex, h'⟩ := lex_complete h₂ (p.after ':')
  have hmore := (lex_of_more hstep₁).trans (lex_of_more hstep₂)
  exact ⟨m', hmore.trans hlex, h'.start, fun _ _ => h'⟩

/-- A `:` without `=` behind it is a symbol of its own, and what is behind it stays. -/
theorem finds_colon
    (h : m.At p (':' :: cs) .start start context)
    (hcs : ∀ tail, cs ≠ '=' :: tail)
    (last : Position) :
    m.Finds p (':' :: cs) context last [':'] (.ok .colon) := by
  obtain ⟨m₁, hstep₁, h₁⟩ := h.step_advance rfl last
  have hmove : State.definer.move cs.head? = .emit (.ok .colon) := by
    cases cs with
    | nil => rfl
    | cons c cs =>
        have hc : c ≠ '=' := fun heq => hcs cs (by rw [heq])
        simp [State.move, hc]
  obtain ⟨m', hstep', h'⟩ := h₁.step_emit hmove p
  exact ⟨m', (lex_of_more hstep₁).trans (lex_of_emit hstep'), h'.start, fun _ _ => h'⟩

theorem drop_length_takeWhile
    (q : Char → Bool)
    (c : Char)
    (cs : List Char) :
    (c :: cs).drop (c :: cs.takeWhile q).length = cs.dropWhile q := by
  have hdrop : (cs.takeWhile q ++ cs.dropWhile q).drop (cs.takeWhile q).length = cs.dropWhile q :=
    List.drop_left
  rwa [List.takeWhile_append_dropWhile] at hdrop

theorem finds_newlines
    (h : m.At p ('\n' :: cs) .start start context)
    (last : Position) :
    m.Finds p ('\n' :: cs) context last ('\n' :: cs.takeWhile (· == '\n')) (.ok .newline) := by
  obtain ⟨m₁, hstep₁, h₁⟩ := h.step_advance rfl last
  obtain ⟨m', hlex, h'⟩ := @lex_newlines m₁ p cs context ['\n'] h₁
  refine ⟨m', (lex_of_more hstep₁).trans hlex, h'.start, fun _ _ => ?_⟩
  rw [drop_length_takeWhile]
  exact h'

theorem finds_word
    {c : Char}
    (h : m.At p (c :: cs) .start start context)
    (hmove : firstMove (some c) = .advance (.word c.toString))
    (last : Position) :
    m.Finds p (c :: cs) context last (c :: cs.takeWhile isWordChar)
      (context.classify (String.ofList (c :: cs.takeWhile isWordChar))
        (Follow.ofChars (cs.dropWhile isWordChar))) := by
  obtain ⟨m₁, hstep₁, h₁⟩ := h.step_advance hmove last
  obtain ⟨m', hlex, h'⟩ := @lex_word m₁ p cs context [c] h₁
  refine ⟨m', (lex_of_more hstep₁).trans hlex, h'.start, fun _ _ => ?_⟩
  rw [drop_length_takeWhile]
  exact h'

/-- A character that starts no token is an error where it stands. -/
theorem finds_badChar
    {c : Char}
    (h : m.At p (c :: cs) .start start context)
    (hmove : firstMove (some c) = .emit (.error (.badChar c)))
    (last : Position) :
    m.Finds p (c :: cs) context last [c] (.error (.badChar c)) := by
  obtain ⟨m', hstep, h'⟩ := h.step_emit hmove last
  exact ⟨m', lex_of_emit hstep, h'.start, fun _ heq => by cases heq⟩

/-- **The scanner finds the token that the lexer finds**, with the same place of its last
character, or the same error. -/
theorem lex_read
    (h : m.At p cs .start start context)
    (hblank : ∀ c ∈ cs.head?, isBlank c = false)
    (last : Position) :
    match context.read? cs with
    | none => ∃ m', m.lex context last = (.ok none, m') ∧ m'.At p cs .start p context
    | some (text, result) => m.Finds p cs context last text result := by
  fun_cases Context.read? context cs with
  | case1 =>
      obtain ⟨m', hstep, h'⟩ := h.step_stop rfl last
      exact ⟨m', lex_of_stop hstep, h'⟩
  | case2 => exact finds_symbol h rfl last
  | case3 => exact finds_symbol h rfl last
  | case4 => exact finds_symbol h rfl last
  | case5 => exact finds_symbol h rfl last
  | case6 => exact finds_symbol h rfl last
  | case7 => exact finds_assign h last
  | case8 cs hcs => exact finds_colon h hcs last
  | case9 cs => exact finds_newlines h last
  | case10 c cs _ _ _ _ _ _ _ _ hword =>
      refine finds_word h ?_ last
      simp [firstMove, hword]
  | case11 c cs _ _ _ _ _ _ _ _ hword =>
      refine finds_badChar h ?_ last
      simp [firstMove, hword, hblank c rfl]

end Tokens

section Readings

/-- A scanner that has met an error, or has taken all characters. -/
def Exhausted (m : Scanner) : Prop :=
  m.state = .error ∨ m.state = .start ∧ m.pending = []

/-- An exhausted scanner emits nothing and stays exhausted. -/
theorem Exhausted.next?
    (h : m.Exhausted) :
    m.next?.1 = none ∧ m.next?.2.Exhausted := by
  have hdrawn := m.drawn_peek 0
  have hstep : m.step m.context m.start = .stop (m.peek 0).2.settle := by
    rcases h with hstate | ⟨hstate, hpending⟩
    · have hsettled : (m.peek 0).2.settle.state = .error := hdrawn.state.trans hstate
      simp only [step, hsettled, State.move]
    · have hsettled : (m.peek 0).2.settle.state = .start := hdrawn.state.trans hstate
      have hchar : (m.peek 0).1 = none := by
        rw [peek_fst, hpending]
        rfl
      simp only [step, hsettled, hchar, State.move, firstMove]
  rw [Scanner.next?, lex_of_stop hstep]
  refine ⟨rfl, ?_⟩
  rcases h with hstate | ⟨hstate, hpending⟩
  · exact Or.inl (hdrawn.state.trans hstate)
  · exact Or.inr ⟨hdrawn.state.trans hstate, hdrawn.pending.trans hpending⟩

/-- A scanner and a lexer that will read the same: they stand in front of the same
characters, or neither has anything more to read. -/
inductive Matches (m : Scanner) (l : Lexer) : Prop
  | reading : m.At l.place l.rest .start m.start l.context → Matches m l
  | ended : m.Exhausted → l.next? = none → Matches m l

/-- **One token of the scanner is one token of the lexer**, with the same span, or the same
error, or the end on both sides; and both match again behind it. -/
theorem Matches.next?
    {l : Lexer}
    (h : Matches m l) :
    m.next?.1 = l.next?.map Prod.fst ∧ Matches m.next?.2 ((l.next?.map Prod.snd).getD l) := by
  cases h with
  | reading h =>
      obtain ⟨m₁, start, last, hlex, h₁⟩ := lex_blanks h m.start
      have hblank : ∀ c ∈ (l.rest.dropWhile isBlank).head?, isBlank c = false := by
        intro c hc
        have hhead := List.head?_dropWhile_not isBlank l.rest
        rw [hc] at hhead
        exact hhead
      have hread := lex_read h₁ hblank last
      rw [Scanner.next?, h.context, hlex, Lexer.next?]
      split at hread
      · next hnone =>
          obtain ⟨m', hlex', h'⟩ := hread
          rw [hlex', hnone]
          have hpending : m'.pending = [] := by
            rw [h'.pending, eq_nil_of_read? hnone]
            rfl
          refine ⟨rfl, .ended (Or.inr ⟨h'.state, hpending⟩) ?_⟩
          show l.next? = none
          simp only [Lexer.next?, hnone]
      · next text result hsome =>
          obtain ⟨m', hlex', hstart, hat⟩ := hread
          rw [hlex', hsome]
          cases result with
          | error error =>
              refine ⟨?_, .ended (Or.inl rfl) rfl⟩
              show some (Except.error (Located.mk error (Span.point m'.start))) = _
              rw [hstart]
              rfl
          | ok token =>
              have h' := hat token rfl
              refine ⟨?_, .reading ⟨h'.pending, h'.next, rfl, rfl, rfl⟩⟩
              show some (Except.ok (Located.mk token (Span.mk m'.start _))) = _
              rw [hstart]
              rfl
  | ended h hnone =>
      rw [hnone]
      exact ⟨h.next?.1, .ended h.next?.2 hnone⟩

/-- The first token or error, and the tokens behind it. -/
theorem tokenize_eq
    (m : Scanner) :
    m.tokenize =
      match m.next?.1 with
      | none => .ok []
      | some (.error error) => .error error
      | some (.ok token) => m.next?.2.tokenize.map (token :: ·) := by
  rw [tokenize]
  split
  · next hnext => rw [hnext]
  · next hnext => rw [hnext]
  · next token m' hnext =>
      rw [hnext]
      cases m'.tokenize <;> rfl

/-- All tokens of the scanner are all tokens of the lexer. -/
theorem Matches.tokenize_run
    {l : Lexer}
    (h : Matches m l) :
    m.tokenize =
      match l.run.error with
      | none => .ok l.run.tokens
      | some error => .error error := by
  fun_induction Lexer.run l generalizing m with
  | case1 l hnext =>
      obtain ⟨hitem, -⟩ := h.next?
      rw [tokenize_eq, hitem, hnext]
      rfl
  | case2 l error l' hnext =>
      obtain ⟨hitem, -⟩ := h.next?
      rw [tokenize_eq, hitem, hnext]
      rfl
  | case3 l token l' hnext reading =>
      rename_i ih
      obtain ⟨hitem, hmatches⟩ := h.next?
      rw [hnext] at hitem hmatches
      rw [tokenize_eq, hitem]
      show m.next?.2.tokenize.map (token :: ·) = _
      rw [ih hmatches]
      cases l'.run.error <;> rfl

end Readings

/-- **The scanner and the lexer read the same.**  A scanner of the stream of a source finds
the tokens that the lexer finds, with the same spans, or the same error at the same place. -/
theorem tokenize_ofSource
    (s : Source) :
    (ofSource s).tokenize = s.tokens := by
  have hmatches : Matches (ofSource s) (Lexer.ofChars s.chars) :=
    .reading ⟨rfl, rfl, rfl, rfl, rfl⟩
  exact hmatches.tokenize_run

end Scanner
end Microcode
