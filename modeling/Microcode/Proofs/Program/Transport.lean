import Microcode.Proofs.Program.Parsing

/-!
# Rules look neither at places nor at the names of labels

**Input.**  Two cursors on the same line, once as it stands and once with other
names of labels and at other places.  Behind the line stand a line end and any
tokens, or nothing, on either side.

**Relation.**  A `Transport` says what becomes of a name and of a span.  It leaves
room where an error at a line end may stand, since such an error covers the line
ends that follow, which belong to no line.  `Alike` relates the two cursors, and
`Follows` also the spans of the last tokens taken; `Agree` relates two results.  A
rule that takes a token needs `Alike` only.

**Results.**
* `agree_bind`, `agree_next_bind`, `agree_expect` and `agree_spanning`: agreement
  passes through the parts that rules are made of.
* `agree_instruction`: on both cursors a rule takes the same steps.  It yields the
  same instruction but for names and places, and then the whole line is taken; or
  it fails with the same error.
-/

namespace Microcode

section Names

/-- The token with another name if it is a label. -/
def Token.rename (f : String → String) : Token → Token
  | label name => .label (f name)
  | t => t

/-- The error with other labels.  What is expected is never a label. -/
def ParseError.rename (f : String → String) : ParseError → ParseError
  | unexpected expected found => .unexpected expected (found.rename f)
  | structural (.misplacedLabel name) => .structural (.misplacedLabel (f name))
  | error => error

@[simp] theorem Token.rename_id
    (t : Token) :
    t.rename id = t := by
  cases t <;> rfl

@[simp] theorem ParseError.rename_id
    (error : ParseError) :
    error.rename id = error := by
  cases error with
  | unexpected expected found => simp only [ParseError.rename, Token.rename_id]
  | structural error => cases error <;> rfl
  | _ => rfl

theorem rename_eq_iff
    {f : String → String}
    {token : Token}
    (htoken : ∀ name, token ≠ .label name)
    (t : Token) :
    t.rename f = token ↔ t = token := by
  cases t with
  | label name => exact ⟨fun h => absurd h.symm (htoken _), fun h => absurd h.symm (htoken _)⟩
  | _ => rfl

end Names

/-- A change of the names of labels and of places. -/
structure Transport where
  name : String → String
  span : Span → Span
  /-- Where the second span may stand if the first is that of a line end. -/
  near : Span → Span → Prop
  near_span : ∀ s, near s (span s)
  through_span : ∀ {s s'}, near s s' → ∀ t, s'.through (span t) = span (s.through t)

namespace Transport

variable (T : Transport)

/-- A value that is changed, at a span that is changed. -/
def located {α β : Type} (m : α → β) (l : Located α) : Located β :=
  ⟨m l.value, T.span l.span⟩

def token : Located Token → Located Token :=
  T.located (Token.rename T.name)

def register : Located Register → Located Register :=
  T.located id

def label : Located String → Located String :=
  T.located T.name

def operand : Operand → Operand
  | .read r => .read (T.register r)
  | .add left right => .add (T.register left) (T.register right)

def expr : Expr → Expr
  | .read r => .read (T.register r)
  | .add left right => .add (T.register left) (T.register right)
  | .band left right => .band (T.register left) (T.register right)
  | .unary op operand => .unary op (T.operand operand)

def subinstruction : Subinstruction → Subinstruction
  | .assign dest source => .assign (T.register dest) (T.located T.expr source)
  | .goto target => .goto (T.label target)
  | .branch condition target => .branch condition (T.label target)
  | .read => .read
  | .write => .write
  | .halt => .halt

/-- An instruction with other names and places. -/
def instruction (i : Instruction) : Instruction where
  label := i.label.map T.label
  address := i.address
  subs := i.subs.map (T.located T.subinstruction)

end Transport

namespace Parser

open Grammar

variable {α β γ δ : Type} {T : Transport} {tail tail' : List (Located Token)} {c c' : Cursor}

/-- Two lists of tokens that start with a line end, or are both empty. -/
def Ends (T : Transport) (tail tail' : List (Located Token)) : Prop :=
  (∃ newline rest newline' rest', tail = newline :: rest ∧ tail' = newline' :: rest' ∧
    newline.value = .newline ∧ newline'.value = .newline ∧
    T.near newline.span newline'.span) ∨
  tail = [] ∧ tail' = []

/-- Two cursors on the same rest of a line, up to a change.  If no token is left, an error
stands at the last one taken. -/
structure Alike (T : Transport) (tail tail' : List (Located Token)) (c c' : Cursor) : Prop where
  ends : Ends T tail tail'
  line : ∃ ts : List (Located Token), (∀ t ∈ ts, t.value ≠ .newline) ∧
    c.rest = ts ++ tail ∧ c'.rest = ts.map T.token ++ tail'
  near_last : c.rest = [] → T.near c.last c'.last

/-- Two cursors on the same line that have taken the same token before. -/
structure Follows (T : Transport) (tail tail' : List (Located Token)) (c c' : Cursor) : Prop
    extends Alike T tail tail' c c' where
  last : c'.last = T.span c.last

/-- Two results of a rule: the same error but for names and places, or values that differ
by a change, with cursors on the same rest of the line. -/
inductive Agree (T : Transport) (tail tail' : List (Located Token)) (m : α → β) :
    Except (Located ParseError) (α × Cursor) → Except (Located ParseError) (β × Cursor) → Prop
  | error {e e' : Located ParseError} :
      e'.value = e.value.rename T.name → T.near e.span e'.span →
      Agree T tail tail' m (.error e) (.error e')
  | ok {a : α} {c c' : Cursor} :
      Follows T tail tail' c c' → Agree T tail tail' m (.ok (a, c)) (.ok (m a, c'))

section Parts

variable {m : α → β}

/-- The next token of two cursors: both have a token of the line, or both have reached
its end, or no token is left. -/
theorem Alike.next_cases
    (h : Alike T tail tail' c c') :
    (∃ (t : Located Token) (ts ts' : List (Located Token)), t.value ≠ .newline ∧
      c.rest = t :: ts ∧ c'.rest = T.token t :: ts' ∧
      Follows T tail tail' ⟨ts, t.span⟩ ⟨ts', (T.token t).span⟩) ∨
    (∃ (t t' : Located Token) (ts ts' : List (Located Token)), t.value = .newline ∧
      t'.value = .newline ∧ T.near t.span t'.span ∧ c.rest = t :: ts ∧ c'.rest = t' :: ts' ∧
      c.rest = tail ∧ c'.rest = tail') ∨
    (c.rest = [] ∧ c'.rest = [] ∧ T.near c.last c'.last ∧ c.rest = tail ∧ c'.rest = tail') := by
  obtain ⟨ts, hts, hrest, hrest'⟩ := h.line
  cases ts with
  | nil =>
      rcases h.ends with ⟨t, rest, t', rest', rfl, rfl, ht, ht', hnear⟩ | ⟨rfl, rfl⟩
      · exact Or.inr (Or.inl
          ⟨t, t', rest, rest', ht, ht', hnear, hrest, hrest', hrest, hrest'⟩)
      · exact Or.inr (Or.inr ⟨hrest, hrest', h.near_last hrest, hrest, hrest'⟩)
  | cons t ts =>
      refine Or.inl ⟨t, ts ++ tail, ts.map T.token ++ tail', hts t (by simp), hrest, hrest',
        ⟨h.ends, ⟨ts, ?_, rfl, rfl⟩, ?_⟩, rfl⟩
      · exact fun x hx => hts x (List.mem_cons_of_mem _ hx)
      · exact fun _ => T.near_span t.span

theorem Alike.head_cases
    (h : Alike T tail tail' c c') :
    (∃ (t t' : Located Token) (ts ts' : List (Located Token)), c.rest = t :: ts ∧
      c'.rest = t' :: ts' ∧ t'.value = t.value.rename T.name ∧ T.near t.span t'.span) ∨
    (c.rest = [] ∧ c'.rest = [] ∧ T.near c.last c'.last) := by
  rcases h.next_cases with ⟨t, ts, ts', -, hrest, hrest', -⟩ |
    ⟨t, t', ts, ts', ht, ht', hnear, hrest, hrest', -⟩ | ⟨hrest, hrest', hnear, -⟩
  · exact Or.inl ⟨t, T.token t, ts, ts', hrest, hrest', rfl, T.near_span t.span⟩
  · exact Or.inl ⟨t, t', ts, ts', hrest, hrest', by rw [ht, ht']; rfl, hnear⟩
  · exact Or.inr ⟨hrest, hrest', hnear⟩

theorem Alike.ahead_eq
    (h : Alike T tail tail' c c') :
    ahead c'.rest = (ahead c.rest).map (Token.rename T.name) := by
  rcases h.head_cases with ⟨t, t', ts, ts', hrest, hrest', hvalue, -⟩ | ⟨hrest, hrest', -⟩
  · rw [hrest, hrest', ahead_cons, ahead_cons, hvalue]
    rfl
  · rw [hrest, hrest']
    rfl

theorem agree_pure
    (h : Follows T tail tail' c c')
    (a : α) :
    Agree T tail tail' m ((pure a : Parser α) c) ((pure (m a) : Parser β) c') :=
  .ok h

/-- Agreement passes through sequencing. -/
theorem agree_bind
    {n : γ → δ}
    {p : Parser α}
    {p' : Parser β}
    {f : α → Parser γ}
    {f' : β → Parser δ}
    (hp : Agree T tail tail' m (p c) (p' c'))
    (hf : ∀ a d d', Follows T tail tail' d d' → Agree T tail tail' n (f a d) (f' (m a) d')) :
    Agree T tail tail' n ((p >>= f) c) ((p' >>= f') c') := by
  rw [bind_apply, bind_apply]
  generalize p c = r at hp
  generalize p' c' = r' at hp
  cases hp with
  | error hvalue hnear => exact .error hvalue hnear
  | ok h => exact hf _ _ _ h

/-- Both cursors show the same token. -/
theorem agree_peek_bind
    {f : Option Token → Parser α}
    {f' : Option Token → Parser β}
    (h : Alike T tail tail' c c')
    (hf : ∀ o, ahead c.rest = o →
      Agree T tail tail' m (f o c) (f' (o.map (Token.rename T.name)) c')) :
    Agree T tail tail' m ((peek >>= f) c) ((peek >>= f') c') := by
  have hahead : c'.rest.head?.map Located.value =
      (c.rest.head?.map Located.value).map (Token.rename T.name) := h.ahead_eq
  rw [peek_bind_head, peek_bind_head, hahead]
  exact hf _ rfl

/-- A token that is not a line end is taken on both sides. -/
theorem agree_take_bind
    {f : Located Token → Parser α}
    {f' : Located Token → Parser β}
    (h : Alike T tail tail' c c')
    {token : Token}
    (hhead : ahead c.rest = some token)
    (htoken : token ≠ .newline)
    (hf : ∀ t d d', Follows T tail tail' d d' →
      Agree T tail tail' m (f t d) (f' (T.token t) d')) :
    Agree T tail tail' m ((next >>= f) c) ((next >>= f') c') := by
  rcases h.next_cases with ⟨t, ts, ts', -, hrest, hrest', hfollows⟩ |
    ⟨t, t', ts, ts', ht, -, -, hrest, -⟩ | ⟨hrest, -⟩
  · rw [bind_apply, bind_apply, next_cons hrest, next_cons hrest']
    exact hf t _ _ hfollows
  · rw [hrest] at hhead
    exact absurd ((Option.some.inj hhead).symm.trans ht) htoken
  · rw [hrest] at hhead
    cases hhead

/-- The next token is taken, by a rule that expects something else than a line end. -/
theorem agree_next_bind
    {f : Located Token → Parser α}
    {f' : Located Token → Parser β}
    (error : ParseError)
    (h : Alike T tail tail' c c')
    (hf : ∀ t d d', Follows T tail tail' d d' →
      Agree T tail tail' m (f t d) (f' (T.token t) d'))
    (hnewline : ∀ t, t.value = .newline →
      f t = fail error ∧ f' t = fail (error.rename T.name)) :
    Agree T tail tail' m ((next >>= f) c) ((next >>= f') c') := by
  rcases h.next_cases with ⟨t, ts, ts', -, hrest, hrest', hfollows⟩ |
    ⟨t, t', ts, ts', ht, ht', hnear, hrest, hrest', -⟩ | ⟨hrest, hrest', hnear, -⟩
  · rw [bind_apply, bind_apply, next_cons hrest, next_cons hrest']
    exact hf t _ _ hfollows
  · rw [bind_apply, bind_apply, next_cons hrest, next_cons hrest']
    show Agree T tail tail' m (f t ⟨ts, t.span⟩) (f' t' ⟨ts', t'.span⟩)
    rw [(hnewline t ht).1, (hnewline t' ht').2]
    exact .error rfl hnear
  · rw [bind_apply, bind_apply, next_nil hrest, next_nil hrest']
    exact .error rfl hnear

theorem agree_fail
    (h : Follows T tail tail' c c')
    (error : ParseError) :
    Agree T tail tail' m (fail error c) (fail (error.rename T.name) c') := by
  have hnear : T.near c.last c'.last := by
    rw [h.last]
    exact T.near_span c.last
  exact .error rfl hnear

theorem agree_refuse
    {error error' : Token → ParseError}
    (h : Alike T tail tail' c c')
    (herror : ∀ t, error' (t.rename T.name) = (error t).rename T.name) :
    Agree T tail tail' m (refuse error c) (refuse error' c') := by
  refine agree_next_bind (error .newline) h (fun t d d' hd => ?_) (fun t ht => ?_)
  · have hvalue : error' (T.token t).value = (error t.value).rename T.name := herror t.value
    rw [hvalue]
    exact agree_fail hd (error t.value)
  · rw [ht, ← herror]
    exact ⟨rfl, rfl⟩

theorem agree_expect
    {token : Token}
    (h : Alike T tail tail' c c')
    (hnewline : token ≠ .newline)
    (hlabel : ∀ name, token ≠ .label name) :
    Agree T tail tail' (fun u => u) (expect token c) (expect token c') := by
  rcases h.next_cases with ⟨t, ts, ts', -, hrest, hrest', hfollows⟩ |
    ⟨t, t', ts, ts', ht, ht', hnear, hrest, hrest', -⟩ | ⟨hrest, hrest', hnear, -⟩
  · rw [expect_cons hrest, expect_cons hrest']
    have hiff : (T.token t).value = token ↔ t.value = token := rename_eq_iff hlabel t.value
    by_cases hvalue : t.value = token
    · rw [if_pos hvalue, if_pos (hiff.2 hvalue)]
      exact .ok hfollows
    · rw [if_neg hvalue, if_neg (hiff.not.2 hvalue)]
      exact .error rfl (T.near_span t.span)
  · rw [expect_cons hrest, expect_cons hrest', ht, ht', if_neg hnewline.symm,
      if_neg hnewline.symm]
    exact .error rfl hnear
  · rw [expect_nil hrest, expect_nil hrest']
    exact .error rfl hnear

/-- A rule with its span, given that it agrees on the token that comes next. -/
theorem agree_spanning
    {expected : Expected}
    {rule : Token → Parser α}
    {rule' : Token → Parser β}
    (h : Alike T tail tail' c c')
    (hrule : ∀ t, ahead c.rest = some t →
      Agree T tail tail' m (rule t c) (rule' (t.rename T.name) c')) :
    Agree T tail tail' (T.located m) (spanning expected rule c) (spanning expected rule' c') := by
  rcases h.head_cases with ⟨t, t', ts, ts', hrest, hrest', hvalue, hnear⟩ | ⟨hrest, hrest', hnear⟩
  · rw [spanning, spanning, bind_apply, bind_apply, upcoming_cons hrest, upcoming_cons hrest']
    have hagree : Agree T tail tail' m (rule t.value c) (rule' t'.value c') := by
      rw [hvalue]
      exact hrule t.value (by rw [hrest]; rfl)
    refine agree_bind hagree fun a d d' hd => ?_
    have hspan : t'.span.through d'.last = T.span (t.span.through d.last) := by
      rw [hd.last]
      exact T.through_span hnear d.last
    show Agree T tail tail' (T.located m) (.ok (⟨a, t.span.through d.last⟩, d))
      (.ok (⟨m a, t'.span.through d'.last⟩, d'))
    rw [hspan]
    exact .ok hd
  · rw [spanning, spanning, bind_apply, bind_apply, upcoming_nil hrest, upcoming_nil hrest']
    exact .error rfl hnear

end Parts

section Rules

theorem agree_bareRegister
    (h : Alike T tail tail' c c') :
    Agree T tail tail' T.register (bareRegister c) (bareRegister c') := by
  refine agree_next_bind (.unexpected .register .newline) h (fun t d d' hd => ?_)
    (fun t ht => by rw [ht]; exact ⟨rfl, rfl⟩)
  obtain ⟨value, span⟩ := t
  cases value with
  | register r => exact agree_pure hd (Located.mk r span)
  | _ => exact agree_fail hd _

theorem agree_register
    (h : Alike T tail tail' c c') :
    Agree T tail tail' T.register (register c) (register c') := by
  refine agree_peek_bind h fun o ho => ?_
  cases o with
  | none => exact agree_bareRegister h
  | some t =>
      cases t with
      | openParen =>
          refine agree_take_bind h ho (by simp) fun _ d d' hd => ?_
          refine agree_bind (agree_bareRegister hd.toAlike) fun r d d' hd => ?_
          exact agree_bind (agree_expect hd.toAlike (by simp) (by simp))
            fun _ d d' hd => agree_pure hd r
      | _ => exact agree_bareRegister h

theorem agree_label
    (h : Alike T tail tail' c c') :
    Agree T tail tail' T.label (label c) (label c') := by
  refine agree_next_bind (.unexpected .label .newline) h (fun t d d' hd => ?_)
    (fun t ht => by rw [ht]; exact ⟨rfl, rfl⟩)
  obtain ⟨value, span⟩ := t
  cases value with
  | label name => exact agree_pure hd (Located.mk name span)
  | _ => exact agree_fail hd _

theorem agree_addend
    (h : Follows T tail tail' c c') :
    Agree T tail tail' (Option.map T.register) (addend c) (addend c') := by
  rw [addend_eq]
  refine agree_peek_bind h.toAlike fun o ho => ?_
  cases o with
  | none => exact agree_pure h none
  | some t =>
      cases t with
      | plus =>
          refine agree_take_bind h.toAlike ho (by simp) fun _ d d' hd => ?_
          exact agree_bind (agree_register hd.toAlike) fun r d d' hd => agree_pure hd (some r)
      | _ => exact agree_pure h none

theorem agree_secondOperand
    (h : Alike T tail tail' c c') :
    Agree T tail tail' T.register (secondOperand c) (secondOperand c') := by
  have hcomma : Agree T tail tail' T.register
      ((expect .comma >>= fun _ => register) c) ((expect .comma >>= fun _ => register) c') :=
    agree_bind (agree_expect h (by simp) (by simp)) fun _ d d' hd => agree_register hd.toAlike
  refine agree_peek_bind h fun o ho => ?_
  cases o with
  | none => exact hcomma
  | some t =>
      cases t with
      | closeParen => exact agree_refuse h fun _ => rfl
      | _ => exact hcomma

theorem agree_operands
    (h : Alike T tail tail' c c')
    (op : ParamOp) :
    Agree T tail tail' T.expr (operands op c) (operands op c') := by
  refine agree_bind (agree_register h) fun left d d' hd => ?_
  cases op with
  | band =>
      exact agree_bind (agree_secondOperand hd.toAlike)
        fun right d d' hd => agree_pure hd (Expr.band left right)
  | unary op =>
      refine agree_bind (agree_addend hd) fun right d d' hd => ?_
      cases right with
      | some right => exact agree_pure hd (Expr.unary op (.add left right))
      | none => exact agree_pure hd (Expr.unary op (.read left))

theorem agree_parameterized
    (h : Alike T tail tail' c c')
    (op : ParamOp) :
    Agree T tail tail' T.expr (parameterized op c) (parameterized op c') := by
  refine agree_bind (agree_expect h (by simp) (by simp)) fun _ d d' hd => ?_
  refine agree_bind (agree_operands hd.toAlike op) fun expr d d' hd => ?_
  have hclose : Agree T tail tail' T.expr
      ((expect .closeParen >>= fun _ => pure expr) d)
      ((expect .closeParen >>= fun _ => pure (T.expr expr)) d') :=
    agree_bind (agree_expect hd.toAlike (by simp) (by simp)) fun _ d d' hd => agree_pure hd expr
  refine agree_peek_bind hd.toAlike fun o ho => ?_
  cases o with
  | none => exact hclose
  | some t =>
      cases t with
      | comma => exact agree_refuse hd.toAlike fun _ => rfl
      | _ => exact hclose

theorem agree_sum
    (h : Alike T tail tail' c c') :
    Agree T tail tail' T.expr (sum c) (sum c') := by
  refine agree_bind (agree_register h) fun left d d' hd => ?_
  refine agree_bind (agree_addend hd) fun right d d' hd => ?_
  cases right with
  | some right => exact agree_pure hd (Expr.add left right)
  | none => exact agree_pure hd (Expr.read left)

theorem agree_source
    (h : Alike T tail tail' c c') :
    Agree T tail tail' (T.located T.expr) (source c) (source c') := by
  refine agree_spanning h fun t ht => ?_
  cases t with
  | keyword k =>
      simp only [Token.rename]
      cases ParamOp.ofKeyword? k with
      | some op =>
          exact agree_take_bind h ht (by simp) fun _ d d' hd => agree_parameterized hd.toAlike op
      | none => exact agree_refuse h fun _ => rfl
  | register r => exact agree_sum h
  | openParen => exact agree_sum h
  | _ => exact agree_refuse h fun _ => rfl

theorem agree_assignment
    (h : Alike T tail tail' c c') :
    Agree T tail tail' T.subinstruction (assignment c) (assignment c') := by
  refine agree_bind (agree_register h) fun dest d d' hd => ?_
  refine agree_bind (agree_expect hd.toAlike (by simp) (by simp)) fun _ d d' hd => ?_
  exact agree_bind (agree_source hd.toAlike)
    fun expr d d' hd => agree_pure hd (Subinstruction.assign dest expr)

theorem agree_target
    (h : Alike T tail tail' c c') :
    Agree T tail tail' T.label (target c) (target c') :=
  agree_bind (agree_expect h (by simp) (by simp)) fun _ _ _ hd => agree_label hd.toAlike

theorem agree_condition
    (h : Alike T tail tail' c c') :
    Agree T tail tail' (fun wanted => wanted) (condition c) (condition c') := by
  refine agree_next_bind (.unexpected .condition .newline) h (fun t d d' hd => ?_)
    (fun t ht => by rw [ht]; exact ⟨rfl, rfl⟩)
  obtain ⟨value, span⟩ := t
  cases value with
  | keyword k =>
      cases k with
      | negative => exact agree_pure hd Condition.negative
      | zero => exact agree_pure hd Condition.zero
      | _ => exact agree_fail hd _
  | _ => exact agree_fail hd _

theorem agree_conditional
    (h : Alike T tail tail' c c') :
    Agree T tail tail' T.subinstruction (conditional c) (conditional c') := by
  refine agree_bind (agree_expect h (by simp) (by simp)) fun _ d d' hd => ?_
  refine agree_bind (agree_condition hd.toAlike) fun wanted d d' hd => ?_
  refine agree_bind (agree_expect hd.toAlike (by simp) (by simp)) fun _ d d' hd => ?_
  exact agree_bind (agree_target hd.toAlike)
    fun name d d' hd => agree_pure hd (Subinstruction.branch wanted name)

theorem agree_single
    {sub : Subinstruction}
    {token : Token}
    (h : Alike T tail tail' c c')
    (hhead : ahead c.rest = some token)
    (htoken : token ≠ .newline)
    (hsub : T.subinstruction sub = sub) :
    Agree T tail tail' T.subinstruction (single sub c) (single sub c') := by
  refine agree_take_bind h hhead htoken fun _ d d' hd => ?_
  have hpure : Agree T tail tail' T.subinstruction ((pure sub : Parser _) d)
      ((pure (T.subinstruction sub) : Parser _) d') := agree_pure hd sub
  rwa [hsub] at hpure

theorem agree_subinstruction
    (h : Alike T tail tail' c c') :
    Agree T tail tail' (T.located T.subinstruction) (subinstruction c) (subinstruction c') := by
  refine agree_spanning h fun t ht => ?_
  cases t with
  | register r => exact agree_assignment h
  | openParen => exact agree_assignment h
  | keyword k =>
      cases k with
      | goto =>
          exact agree_bind (agree_target h)
            fun name d d' hd => agree_pure hd (Subinstruction.goto name)
      | ifWord => exact agree_conditional h
      | rd => exact agree_single h ht (by simp) rfl
      | wr => exact agree_single h ht (by simp) rfl
      | halt => exact agree_single h ht (by simp) rfl
      | _ => exact agree_refuse h fun _ => rfl
  | label name => exact agree_refuse h fun _ => rfl
  | _ => exact agree_refuse h fun _ => rfl

theorem agree_subinstructions
    (h : Alike T tail tail' c c')
    (free : Nat) :
    Agree T tail tail' (List.map (T.located T.subinstruction)) (subinstructions free c)
      (subinstructions free c') := by
  induction free generalizing c c' with
  | zero =>
      exact agree_refuse h fun _ => rfl
  | succ free ih =>
      refine agree_bind (agree_subinstruction h) fun sub d d' hd => ?_
      refine agree_bind (agree_expect hd.toAlike (by simp) (by simp)) fun _ d d' hd => ?_
      have hmore : Agree T tail tail' (List.map (T.located T.subinstruction))
          ((subinstructions free >>= fun subs => pure (sub :: subs)) d)
          ((subinstructions free >>= fun subs =>
            pure (T.located T.subinstruction sub :: subs)) d') :=
        agree_bind (ih hd.toAlike) fun subs d d' hd => agree_pure hd (sub :: subs)
      refine agree_peek_bind hd.toAlike fun o ho => ?_
      cases o with
      | none => exact agree_pure hd [sub]
      | some t =>
          cases t with
          | newline => exact agree_pure hd [sub]
          | _ => exact hmore

theorem definition_of_no_label
    (h : ∀ name, ahead c.rest ≠ some (.label name)) :
    definition c = .ok (none, c) :=
  yields_definition.2 (Or.inl ⟨rfl, rfl, h⟩)

/-- Neither line starts with a label, or their labels agree. -/
theorem definition_cases
    (h : Alike T tail tail' c c') :
    (definition c = .ok (none, c) ∧ definition c' = .ok (none, c')) ∨
      Agree T tail tail' (Option.map T.label) (definition c) (definition c') := by
  by_cases hlabel : ∃ name, ahead c.rest = some (.label name)
  · obtain ⟨name, hname⟩ := hlabel
    refine Or.inr ?_
    rw [definition_eq]
    refine agree_peek_bind h fun o ho => ?_
    rw [hname] at ho
    subst ho
    refine agree_bind (agree_label h) fun name d d' hd => ?_
    exact agree_bind (agree_expect hd.toAlike (by simp) (by simp))
      fun _ d d' hd => agree_pure hd (some name)
  · have hnone : ∀ name, ahead c.rest ≠ some (.label name) := fun name hname =>
      hlabel ⟨name, hname⟩
    refine Or.inl ⟨definition_of_no_label hnone, definition_of_no_label fun name => ?_⟩
    rw [h.ahead_eq]
    cases hahead : ahead c.rest with
    | none => simp
    | some t =>
        cases t with
        | label name => exact absurd hahead (hnone name)
        | _ => simp [Token.rename]

/-- **Rules look neither at places nor at the names of labels.**  On both lines the same
error is found, but for names and places, or the same instruction, and then the whole line
is taken. -/
theorem agree_instruction
    (h : Alike T tail tail' c c')
    (address address' : Nat) :
    (∃ e e', instruction address c = .error e ∧ instruction address' c' = .error e' ∧
      e'.value = e.value.rename T.name ∧ T.near e.span e'.span) ∨
    ∃ i d d', instruction address c = .ok (i, d) ∧
      instruction address' c' = .ok ({ T.instruction i with address := address' }, d') ∧
      d.rest = tail ∧ d'.rest = tail' ∧ d'.last = T.span d.last := by
  have hagree : Agree T tail tail'
      (fun i : Instruction => { T.instruction i with address := address' })
      (instruction address c) (instruction address' c') := by
    have hsubs : ∀ (name : Option (Located String)) (free : Nat) {d d' : Cursor},
        Alike T tail tail' d d' →
        Agree T tail tail' (fun i : Instruction => { T.instruction i with address := address' })
          ((subinstructions free >>= fun subs => pure ⟨name, address, subs⟩) d)
          ((subinstructions free >>= fun subs =>
            pure ⟨name.map T.label, address', subs⟩) d') := by
      intro name free d d' hd
      exact agree_bind (agree_subinstructions hd free)
        fun subs d d' hd => .ok (a := Instruction.mk name address subs) hd
    rcases definition_cases h with ⟨hnone, hnone'⟩ | hsome
    · rw [instruction, instruction, bind_apply, bind_apply, hnone, hnone']
      exact hsubs none _ h
    · refine agree_bind hsome fun name d d' hd => ?_
      cases name with
      | none => exact hsubs none _ hd.toAlike
      | some name => exact hsubs (some name) _ hd.toAlike
  cases hc : instruction address c with
  | error e =>
      rw [hc] at hagree
      generalize hc' : instruction address' c' = r at hagree
      cases hagree with
      | error hvalue hnear => exact Or.inl ⟨e, _, rfl, rfl, hvalue, hnear⟩
  | ok pair =>
      obtain ⟨i, d⟩ := pair
      rw [hc] at hagree
      generalize hc' : instruction address' c' = r at hagree
      cases hagree with
      | @ok _ _ d' hd =>
          obtain ⟨-, -, -, hend⟩ := yields_instruction.1 hc
          have hrest : d.rest = tail ∧ d'.rest = tail' := by
            rcases hd.next_cases with ⟨t, ts, ts', ht, hrest, -⟩ |
              ⟨-, -, -, -, -, -, -, -, -, htail, htail'⟩ | ⟨-, -, -, htail, htail'⟩
            · -- An instruction stops at a line end or at the end of the tokens.
              rcases hend with hend | hend
              · rw [hrest] at hend
                cases hend
              · rw [hrest] at hend
                exact absurd (Option.some.inj hend) ht
            · exact ⟨htail, htail'⟩
            · exact ⟨htail, htail'⟩
          exact Or.inr ⟨i, d, d', rfl, rfl, hrest.1, hrest.2, hd.last⟩

end Rules

end Parser
end Microcode
