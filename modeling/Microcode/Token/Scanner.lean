import Microcode.Token.Lexer

/-!
# Reading tokens one character at a time

**Input.**  The stream of a source: its characters, each with the place behind it.

**Algorithm.**  A `Scanner` draws characters from the stream into a queue when it
looks ahead, and takes them from the queue when they become part of a token.  What
it does with the next character depends on its state; `State.move` is the table.
A token is emitted one step after its last character was taken, so that the
character behind it is seen but not taken.  A word is looked up only then, and may
look further ahead, past blanks.

The span of a token reaches from the place where the scanner left its first state
to the place of the last character taken.  A scanner that has met an error keeps
the characters that are left, and emits nothing any more.

**Results.**  `pending_step` says that a step takes a character or ends the token, so
`Scanner.lex` finds one token.  `work_lt` says that a token leaves less to do, so
`Scanner.tokenize` finds all of them.
-/

namespace Microcode

/-- What a scanner has seen of a token. -/
inductive Scanner.State where
  /-- Nothing but blanks. -/
  | start
  /-- An error, after which there are no tokens. -/
  | error
  /-- All characters of the token. -/
  | complete (token : Token)
  /-- A `:`, which may be the start of `:=`. -/
  | definer
  /-- Line feeds. -/
  | newlines
  /-- The first characters of a word. -/
  | word (text : String)

/-- What a scanner does next. -/
inductive Scanner.Move where
  | stop
  | advance (state : Scanner.State)
  | emit (result : Except LexError Token)
  | classify (word : String)

/-- The reading of tokens from a stream: the characters not yet drawn, those drawn but
not yet taken, the state, the context left by the token before, the place where the
token starts, and the place of the next character. -/
structure Scanner where
  source : List (Char × Position)
  lookahead : List (Char × Position)
  state : Scanner.State
  context : Context
  start : Position
  next : Position

namespace Scanner

/-- The scanner at the start of a source. -/
def ofSource (s : Source) : Scanner where
  source := s.stream
  lookahead := []
  state := .start
  context := .lineStart
  start := .start
  next := .start

/-- What is done with the first character of a token, or at the end of the characters. -/
def firstMove : Option Char → Move
  | none => .stop
  | some ';' => .advance (.complete .semicolon)
  | some ',' => .advance (.complete .comma)
  | some '(' => .advance (.complete .openParen)
  | some ')' => .advance (.complete .closeParen)
  | some '+' => .advance (.complete .plus)
  | some ':' => .advance .definer
  | some '\n' => .advance .newlines
  | some c =>
      if isWordChar c then .advance (.word c.toString)
      else if isBlank c then .advance .start
      else .emit (.error (.badChar c))

/-- What a state does with the next character, or at the end of the characters. -/
def State.move : State → Option Char → Move
  | error, _ => .stop
  | start, char => firstMove char
  | complete token, _ => .emit (.ok token)
  | definer, some '=' => .advance (.complete .assign)
  | definer, _ => .emit (.ok .colon)
  | newlines, some '\n' => .advance .newlines
  | newlines, _ => .emit (.ok .newline)
  | word text, some c => if isWordChar c then .advance (.word (text.push c)) else .classify text
  | word text, none => .classify text

section Lookahead

/-- The characters not yet taken. -/
def pending (m : Scanner) : List (Char × Position) :=
  m.lookahead ++ m.source

/-- Draws characters into a queue until it has more than the given number of them. -/
def fill (offset : Nat) (queue : List (Char × Position)) :
    List (Char × Position) → List (Char × Position) × List (Char × Position)
  | [] => (queue, [])
  | c :: cs => if queue.length ≤ offset then fill offset (queue ++ [c]) cs else (queue, c :: cs)

theorem append_fill
    (offset : Nat)
    (queue source : List (Char × Position)) :
    (fill offset queue source).1 ++ (fill offset queue source).2 = queue ++ source := by
  induction source generalizing queue with
  | nil =>
      rfl
  | cons c cs ih =>
      rw [fill]
      split
      · rw [ih, List.append_assoc]
        rfl
      · rfl

/-- The filled queue shows whatever is left at the offset. -/
theorem getElem?_fill
    (offset : Nat)
    (queue source : List (Char × Position)) :
    (fill offset queue source).1[offset]? = (queue ++ source)[offset]? := by
  induction source generalizing queue with
  | nil =>
      rw [fill, List.append_nil]
  | cons c cs ih =>
      rw [fill]
      split
      · rw [ih, List.append_assoc]
        rfl
      · next h => rw [List.getElem?_append_left (by omega)]

/-- The character at an offset, which is drawn but not taken. -/
def peek (m : Scanner) (offset : Nat) : Option Char × Scanner :=
  let (queue, source) := fill offset m.lookahead m.source
  (queue[offset]?.map Prod.fst, { m with source := source, lookahead := queue })

/-- The second scanner has drawn more characters than the first, and done nothing else. -/
structure Drawn (m m' : Scanner) : Prop where
  pending : m'.pending = m.pending
  state : m'.state = m.state
  context : m'.context = m.context
  start : m'.start = m.start
  next : m'.next = m.next

theorem Drawn.refl
    (m : Scanner) :
    m.Drawn m :=
  ⟨rfl, rfl, rfl, rfl, rfl⟩

theorem Drawn.trans
    {m m' m'' : Scanner}
    (h : m.Drawn m')
    (h' : m'.Drawn m'') :
    m.Drawn m'' where
  pending := h'.pending.trans h.pending
  state := h'.state.trans h.state
  context := h'.context.trans h.context
  start := h'.start.trans h.start
  next := h'.next.trans h.next

theorem drawn_peek
    (m : Scanner)
    (offset : Nat) :
    m.Drawn (m.peek offset).2 where
  pending := append_fill offset m.lookahead m.source
  state := rfl
  context := rfl
  start := rfl
  next := rfl

theorem peek_fst
    (m : Scanner)
    (offset : Nat) :
    (m.peek offset).1 = m.pending[offset]?.map Prod.fst :=
  congrArg (Option.map Prod.fst) (getElem?_fill offset m.lookahead m.source)

/-- The offset of the first character from an offset on that is no blank. -/
def skipBlanks (m : Scanner) (offset : Nat) : Nat × Scanner :=
  match _h : (m.peek offset).1 with
  | some c =>
      if isBlank c then (m.peek offset).2.skipBlanks (offset + 1)
      else (offset, (m.peek offset).2)
  | none => (offset, (m.peek offset).2)
termination_by m.pending.length - offset
decreasing_by
  rw [peek_fst, Option.map_eq_some_iff] at _h
  obtain ⟨_, hget, -⟩ := _h
  have hlt := (List.getElem?_eq_some_iff.1 hget).1
  rw [(m.drawn_peek offset).pending]
  omega

theorem drawn_skipBlanks
    (m : Scanner)
    (offset : Nat) :
    m.Drawn (m.skipBlanks offset).2 := by
  fun_induction skipBlanks m offset with
  | case1 m offset c _ _ ih => exact (m.drawn_peek offset).trans ih
  | case2 m offset => exact m.drawn_peek offset
  | case3 m offset => exact m.drawn_peek offset

/-- What follows a word. -/
def afterWord (m : Scanner) : Follow × Scanner :=
  let (offset, m) := m.skipBlanks 0
  let (first, m) := m.peek offset
  let (second, m) := m.peek (offset + 1)
  match first, second with
  | some ':', some '=' => (.assignment, m)
  | some ':', _ => (.definition, m)
  | _, _ => (.other, m)

theorem drawn_afterWord
    (m : Scanner) :
    m.Drawn m.afterWord.2 := by
  have hdrawn := ((m.drawn_skipBlanks 0).trans (drawn_peek _ (m.skipBlanks 0).1)).trans
    (drawn_peek _ ((m.skipBlanks 0).1 + 1))
  simp only [afterWord]
  split <;> exact hdrawn

end Lookahead

/-- What a finished word stands for. -/
def classify (m : Scanner) (word : String) (context : Context) : Except LexError Token × Scanner :=
  match Keyword.ofName? word with
  | some k => (.ok (.keyword k), m)
  | none =>
      match context with
      | .lineStart =>
          match m.afterWord with
          | (.assignment, m) => (registerOf .expectedRegisterOrLabel word, m)
          | (_, m) => (labelOf word, m)
      | .afterGoto => (labelOf word, m)
      | .operand =>
          match m.afterWord with
          | (.definition, m) => (labelOf word, m)
          | (_, m) => (registerOf .expectedRegister word, m)

theorem drawn_classify
    (m : Scanner)
    (word : String)
    (context : Context) :
    m.Drawn (m.classify word context).2 := by
  have hdrawn := m.drawn_afterWord
  unfold classify
  split
  · exact .refl m
  · cases context with
    | afterGoto => exact .refl m
    | _ =>
        simp only
        split <;> next heq => rwa [heq] at hdrawn

/-- Takes the first character of the queue and tells its place, if there is one. -/
def pop (m : Scanner) : Option Position × Scanner :=
  match m.lookahead with
  | [] => (none, m)
  | (_, next) :: queue => (some m.next, { m with lookahead := queue, next := next })

/-- Whether only blanks have been seen. -/
def State.isStart : State → Bool
  | start => true
  | _ => false

/-- The token starts at the next character as long as there are only blanks before it. -/
def settle (m : Scanner) : Scanner :=
  { m with start := if m.state.isStart then m.next else m.start }

/-- What one step leads to: no token, a token or an error, or a scanner that goes on, with
the place of the last character taken. -/
inductive Outcome where
  | stop (m : Scanner)
  | emit (result : Except LexError Token) (m : Scanner)
  | more (last : Position) (m : Scanner)

/-- One step, given the place of the last character taken. -/
def step (m : Scanner) (context : Context) (last : Position) : Outcome :=
  let (char, m) := m.peek 0
  let m := m.settle
  match m.state.move char with
  | .stop => .stop m
  | .emit result => .emit result { m with state := .start }
  | .classify word =>
      let (result, m) := { m with state := .start }.classify word context
      .emit result m
  | .advance state =>
      let (taken, m) := { m with state := state }.pop
      .more (taken.getD last) m

section Termination

variable {m m' : Scanner} {context : Context} {last last' : Position}

/-- At the end of the characters no state goes on. -/
theorem State.move_none_ne
    (state state' : State) :
    state.move none ≠ .advance state' := by
  cases state <;> simp [move, firstMove]

/-- No token ends where it starts. -/
theorem firstMove_ne
    (char : Option Char)
    (token : Token) :
    firstMove char ≠ .emit (.ok token) ∧ ∀ word, firstMove char ≠ .classify word := by
  unfold firstMove
  repeat' split
  all_goals simp

/-- A character that is seen next is the first of the queue. -/
theorem exists_lookahead_of_peek
    {c : Char}
    (h : (m.peek 0).1 = some c) :
    ∃ p queue, (m.peek 0).2.lookahead = (c, p) :: queue := by
  have hhead : (m.peek 0).2.lookahead[0]?.map Prod.fst = some c := h
  cases hqueue : (m.peek 0).2.lookahead with
  | nil =>
      rw [hqueue] at hhead
      cases hhead
  | cons x queue =>
      rw [hqueue] at hhead
      obtain rfl : x.1 = c := Option.some.inj hhead
      exact ⟨x.2, queue, rfl⟩

/-- A step that goes on takes a character. -/
theorem pending_step
    (h : m.step context last = .more last' m') :
    m'.pending.length < m.pending.length := by
  simp only [step] at h
  split at h
  · cases h
  · cases h
  · cases h
  · next state hmove =>
      cases hchar : (m.peek 0).1 with
      | none =>
          rw [hchar] at hmove
          exact absurd hmove (State.move_none_ne _ _)
      | some c =>
          obtain ⟨p, queue, hqueue⟩ := exists_lookahead_of_peek hchar
          have hpending := congrArg List.length (m.drawn_peek 0).pending
          simp only [pending, List.length_append, hqueue, List.length_cons] at hpending
          simp only [pop, settle, hqueue] at h
          cases h
          simp only [pending, List.length_append]
          omega

/-- A step that ends the token takes no character. -/
theorem pending_step_emit
    {result : Except LexError Token}
    (h : m.step context last = .emit result m') :
    m'.pending = m.pending := by
  simp only [step] at h
  split at h
  · cases h
  · cases h
    exact (m.drawn_peek 0).pending
  · cases h
    exact ((drawn_classify _ _ _).pending).trans (m.drawn_peek 0).pending
  · cases h

/-- A token does not end before its first character. -/
theorem step_ne_emit
    {token : Token}
    (hstate : m.state = .start) :
    m.step context last ≠ .emit (.ok token) m' := by
  have hmove : ∀ char, (m.peek 0).2.settle.state.move char = firstMove char := by
    intro char
    show m.state.move char = _
    rw [hstate]
    rfl
  intro h
  simp only [step, hmove] at h
  split at h
  · cases h
  · next result hresult =>
      cases h
      exact absurd hresult (firstMove_ne _ token).1
  · next word hword => exact absurd hword ((firstMove_ne _ token).2 word)
  · cases h

end Termination

/-- The next token and the place of its last character, if there is a token, given the
place of the last character taken. -/
def lex (m : Scanner) (context : Context) (last : Position) :
    Except LexError (Option (Token × Position)) × Scanner :=
  match _h : m.step context last with
  | .stop m' => (.ok none, m')
  | .emit result m' => (result.map fun token => some (token, last), m')
  | .more last' m' => m'.lex context last'
termination_by m.pending.length
decreasing_by exact pending_step _h

section Termination

variable {m m' : Scanner} {context : Context} {last : Position} {token : Token × Position}

theorem pending_lex_le
    (h : m.lex context last = (.ok (some token), m')) :
    m'.pending.length ≤ m.pending.length := by
  fun_induction lex m context last with
  | case1 => cases h
  | case2 m last result m'' hstep =>
      obtain rfl := (Prod.mk.inj h).2
      exact Nat.le_of_eq (congrArg List.length (pending_step_emit hstep))
  | case3 m last last' m'' hstep ih => exact Nat.le_trans (ih h) (Nat.le_of_lt (pending_step hstep))

/-- A token takes a character, unless it has been begun before. -/
theorem pending_lex_lt
    (hstate : m.state = .start)
    (h : m.lex context last = (.ok (some token), m')) :
    m'.pending.length < m.pending.length := by
  rw [lex] at h
  split at h
  · cases h
  · next result m'' hstep =>
      cases result with
      | error error => cases h
      | ok token => exact absurd hstep (step_ne_emit hstate)
  · next hstep => exact Nat.lt_of_le_of_lt (pending_lex_le h) (pending_step hstep)

end Termination

/-- One step of the reading: the next token or the error met instead, if there is one. -/
def next? (m : Scanner) : Option (Except (Located LexError) (Located Token)) × Scanner :=
  match m.lex m.context m.start with
  | (.ok none, m') => (none, m')
  | (.ok (some (token, last)), m') =>
      (some (.ok ⟨token, ⟨m'.start, last⟩⟩), { m' with state := .start, context := .after token })
  | (.error error, m') => (some (.error ⟨error, .point m'.start⟩), { m' with state := .error })

/-- How much a scanner still has to do: it takes the characters that are left, and ends
the token that it has begun. -/
def work (m : Scanner) : Nat :=
  2 * m.pending.length + if m.state.isStart then 0 else 1

/-- Each token leaves less to do. -/
theorem work_lt
    {m m' : Scanner}
    {token : Located Token}
    (h : m.next? = (some (.ok token), m')) :
    m'.work < m.work := by
  unfold next? at h
  split at h
  · cases h
  · next found last m'' hlex =>
      cases h
      have hle := pending_lex_le hlex
      show 2 * m''.pending.length < 2 * m.pending.length + _
      cases hstate : m.state with
      | start =>
          have hlt := pending_lex_lt hstate hlex
          simp only [State.isStart]
          omega
      | _ =>
          simp only [State.isStart, Bool.false_eq_true, if_false]
          omega
  · cases h

/-- All tokens, or the first error. -/
def tokenize (m : Scanner) : Except (Located LexError) (List (Located Token)) :=
  match _h : m.next? with
  | (none, _) => .ok []
  | (some (.error error), _) => .error error
  | (some (.ok token), m') =>
      match m'.tokenize with
      | .error error => .error error
      | .ok tokens => .ok (token :: tokens)
termination_by m.work
decreasing_by exact work_lt _h

end Scanner
end Microcode
