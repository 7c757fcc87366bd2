import Microcode.Proofs.Program.Writing
import Microcode.Proofs.Source.Lines

/-!
# Written programs are read back

The text of a written program is cut into the lexemes of its tokens, because
blanks or a line end follow every token.  Each lexeme is read as the token it
was written for: a register never stands where a label is expected, nor a label
where a register is.  `InLine` says this of the tokens of a line, with the token
before them and the lexeme after them.

**Results.**
* `cut_spaced`: tokens with blanks between them are cut into their lexemes.
* `readAll_of_inLine`: the lexemes of tokens in their places are read as these.
* `inLine_of_writes`: the tokens that an instruction is written with are in
  their places at the start of a line.
* `program_roundTrip`: well-formed programs are exactly those that are read, and
  reading what such a program is written as gives it back up to places.
-/

namespace Microcode

open Grammar

section Lexemes

/-- A token that can be written on a line. -/
def Token.Writable : Token → Prop
  | label name => IsName name
  | newline => False
  | _ => True

/-- Nothing, a blank or a line end comes first. -/
def StartsWithGap (cs : List Char) : Prop :=
  ∀ c, cs.head? = some c → c = ' ' ∨ c = '\t' ∨ c = '\n'

variable {cs : List Char} {ls : List Lexeme}

theorem isTermChar_of_gap
    {c : Char}
    (h : c = ' ' ∨ c = '\t' ∨ c = '\n') :
    isTermChar c = false := by
  rcases h with rfl | rfl | rfl <;> decide

theorem isTermChar_of_isAlphanum
    {c : Char}
    (h : c.isAlphanum = true) :
    isTermChar c = true := by
  rw [isTermChar_eq_isWordChar, isWordChar, h]
  rfl

/-- The characters of the name of a register or a keyword are characters of
words. -/
theorem register_name_chars
    (r : Register) :
    r.name.toList ≠ [] ∧ ∀ c ∈ r.name.toList, isTermChar c = true := by
  have hne : r.name.toList ≠ [] := by cases r <;> decide
  have hall : r.name.toList.all isTermChar = true := by cases r <;> decide
  exact ⟨hne, List.all_eq_true.1 hall⟩

theorem keyword_name_chars
    (k : Keyword) :
    k.name.toList ≠ [] ∧ ∀ c ∈ k.name.toList, isTermChar c = true := by
  have hne : k.name.toList ≠ [] := by cases k <;> decide
  have hall : k.name.toList.all isTermChar = true := by cases k <;> decide
  exact ⟨hne, List.all_eq_true.1 hall⟩

theorem cut_name
    {name : String}
    (hname : name.toList ≠ [] ∧ ∀ c ∈ name.toList, isTermChar c = true)
    (hgap : StartsWithGap cs)
    (h : Cut cs ls) :
    Cut (name.toList ++ cs) (.word name :: ls) := by
  have hcut := cut_word hname.1 hname.2 (fun c hc => isTermChar_of_gap (hgap c hc)) h
  rwa [String.ofList_toList] at hcut

theorem cut_token
    {t : Token}
    (ht : t.Writable)
    (hgap : StartsWithGap cs)
    (h : Cut cs ls) :
    Cut (t.text.toList ++ cs) (t.lexeme :: ls) := by
  cases t with
  | register r => exact cut_name (register_name_chars r) hgap h
  | label name =>
      exact cut_name ⟨ht.1, fun c hc => isTermChar_of_isAlphanum (ht.2.1 c hc)⟩ hgap h
  | keyword k => exact cut_name (keyword_name_chars k) hgap h
  | assign => exact cut_assign h
  | colon =>
      refine cut_colon (fun hhead => ?_) h
      rcases hgap '=' hhead with heq | heq | heq <;> cases heq
  | newline => exact absurd ht id
  | _ => exact cut_symbol rfl h

theorem cut_blanks
    {blanks : List Char}
    (hb : Blanks blanks)
    (h : Cut cs ls) :
    Cut (blanks ++ cs) ls := by
  induction blanks with
  | nil =>
      exact h
  | cons c blanks ih =>
      exact .blank (hb c (by simp)) (ih fun d hd => hb d (by simp [hd]))

theorem startsWithGap_of_blanks
    {blanks : List Char}
    (hb : Blanks blanks)
    (hcs : blanks = [] → StartsWithGap cs) :
    StartsWithGap (blanks ++ cs) := by
  cases blanks with
  | nil => exact hcs rfl
  | cons c blanks =>
      intro d hd
      rw [← Option.some.inj hd]
      rcases hb c (by simp) with h | h
      · exact Or.inl h
      · exact Or.inr (Or.inl h)

/-- Tokens with blanks between them are cut into their lexemes. -/
theorem cut_spaced
    {ts : List Token}
    {body : List Char}
    (hbody : Spaced ts body)
    (hts : ∀ t ∈ ts, t.Writable)
    (hgap : StartsWithGap cs)
    (h : Cut cs ls) :
    Cut (body ++ cs) (ts.map Token.lexeme ++ ls) := by
  induction hbody with
  | single t =>
      exact cut_token (hts t (by simp)) hgap h
  | @cons t ts blanks body hb hne hbody ih =>
      have hrest := ih fun u hu => hts u (by simp [hu])
      rw [List.append_assoc, List.append_assoc]
      refine cut_token (hts t (by simp)) ?_ (cut_blanks hb hrest)
      exact startsWithGap_of_blanks hb fun hnil => absurd hnil hne

end Lexemes

section InLine

/-- Tokens that can be written on a line and that their lexemes are read as, after
a token and before a lexeme. -/
def InLine : Option Token → List Token → Option Lexeme → Prop
  | _, [], _ => True
  | previous, t :: ts, next =>
      t.Writable ∧ t.lexeme.token previous ((ts.map Token.lexeme).head?.or next) = .ok t ∧
        InLine (some t) ts next

variable {previous : Option Token} {next : Option Lexeme} {ts us : List Token}

theorem writable_of_inLine
    (h : InLine previous ts next) :
    ∀ t ∈ ts, t.Writable := by
  induction ts generalizing previous with
  | nil =>
      simp
  | cons t ts ih =>
      obtain ⟨ht, -, hts⟩ := h
      intro u hu
      rcases List.mem_cons.1 hu with rfl | hu
      · exact ht
      · exact ih hts u hu

theorem getLast?_cons_or
    (t : Token)
    (ts : List Token)
    (previous : Option Token) :
    (t :: ts).getLast?.or previous = ts.getLast?.or (some t) := by
  cases hts : ts.getLast? <;> simp [List.getLast?_cons, hts]

theorem inLine_append :
    InLine previous (ts ++ us) next ↔
      InLine previous ts ((us.map Token.lexeme).head?.or next) ∧
        InLine (ts.getLast?.or previous) us next := by
  induction ts generalizing previous with
  | nil =>
      simp [InLine]
  | cons t ts ih =>
      simp only [List.cons_append, InLine, ih, getLast?_cons_or, List.map_append, List.head?_append,
        Option.or_assoc, and_assoc]

/-- The lexemes of tokens in their places are read as these tokens. -/
theorem readAll_of_inLine
    {ls : List Lexeme}
    (h : InLine previous ts ls.head?) :
    Lexeme.readAll previous (ts.map Token.lexeme ++ ls) =
      (ts ++ (Lexeme.readAll (ts.getLast?.or previous) ls).1,
        (Lexeme.readAll (ts.getLast?.or previous) ls).2) := by
  induction ts generalizing previous with
  | nil =>
      rfl
  | cons t ts ih =>
      obtain ⟨-, ht, hts⟩ := h
      have hhead : (ts.map Token.lexeme ++ ls).head? =
          (ts.map Token.lexeme).head?.or ls.head? := List.head?_append
      simp only [List.map_cons, List.cons_append, Lexeme.readAll, hhead, ht, ih hts,
        getLast?_cons_or]

/-- Tokens whose lexemes stand for them in every place. -/
def Token.IsMark : Token → Prop
  | register _ | label _ | newline => False
  | _ => True

theorem inLine_cons_mark
    {t : Token}
    (ht : t.IsMark) :
    InLine previous (t :: ts) next ↔ InLine (some t) ts next := by
  have hwritable : t.Writable := by
    cases t <;> trivial
  have htoken : t.lexeme.token previous ((ts.map Token.lexeme).head?.or next) = .ok t := by
    cases t with
    | keyword k => simp [Token.lexeme, Lexeme.token, Lexeme.wordToken]
    | _ => first | rfl | exact absurd ht id
  simp only [InLine, hwritable, htoken, true_and]

/-- In front of a mark, a line falls into two parts. -/
theorem inLine_append_mark
    {t : Token}
    (ht : t.IsMark) :
    InLine previous (ts ++ t :: us) next ↔
      InLine previous ts (some t.lexeme) ∧ InLine (some t) us next := by
  rw [inLine_append, inLine_cons_mark ht]
  rfl

/-- A place where the name of a register stands for the register. -/
def RegisterPlace (previous : Option Token) (next : Option Lexeme) : Prop :=
  (Context.following previous = .operand ∧ next ≠ some .colon) ∨
    (Context.following previous = .lineStart ∧ next = some .assign)

theorem keyword_ofName?_register_name
    (r : Register) :
    Keyword.ofName? r.name = none := by
  cases r <;> decide

theorem wordToken_register
    (r : Register)
    (h : RegisterPlace previous next) :
    Lexeme.wordToken previous next r.name = .ok (.register r) := by
  rw [wordToken_eq_of_context previous next _ (keyword_ofName?_register_name r)]
  rcases h with ⟨hcontext, hnext⟩ | ⟨hcontext, hnext⟩
  · simp [hcontext, hnext, Lexeme.wordToken.asRegister]
  · simp [hcontext, hnext, Lexeme.wordToken.atStart, Lexeme.wordToken.asRegister]

/-- A place where a name stands for a label. -/
def LabelPlace (previous : Option Token) (next : Option Lexeme) : Prop :=
  Context.following previous = .afterGoto ∨
    (Context.following previous = .lineStart ∧ next ≠ some .assign)

theorem wordToken_label
    {name : String}
    (hname : IsName name)
    (h : LabelPlace previous next) :
    Lexeme.wordToken previous next name = .ok (.label name) := by
  have hminus : '-' ∉ name.toList := by
    intro hmem
    exact absurd (hname.2.1 '-' hmem) (by decide)
  rw [wordToken_eq_of_context previous next _ hname.2.2]
  rcases h with hcontext | ⟨hcontext, hnext⟩
  · simp [hcontext, Lexeme.wordToken.asLabel, hminus]
  · simp [hcontext, hnext, Lexeme.wordToken.atStart, Lexeme.wordToken.asLabel, hminus]

theorem inLine_of_register
    {r : Register}
    (hw : r.Writes ts)
    (h : RegisterPlace previous next) :
    InLine previous ts next := by
  cases hw with
  | bare =>
      exact ⟨trivial, wordToken_register r h, trivial⟩
  | wrapped =>
      rw [inLine_cons_mark (by trivial)]
      have hplace : RegisterPlace (some .openParen) (some .closeParen) := Or.inl ⟨rfl, by simp⟩
      exact ⟨trivial, wordToken_register r hplace, (inLine_cons_mark (by trivial)).2 trivial⟩

theorem inLine_of_operand
    {operand : Operand}
    (hw : operand.Writes ts)
    (hprevious : Context.following previous = .operand)
    (hnext : next ≠ some .colon) :
    InLine previous ts next := by
  cases hw with
  | read hr =>
      exact inLine_of_register hr (Or.inl ⟨hprevious, hnext⟩)
  | add hleft hright =>
      rw [inLine_append_mark (by trivial)]
      exact ⟨inLine_of_register hleft (Or.inl ⟨hprevious, by simp [Token.lexeme]⟩),
        inLine_of_register hright (Or.inl ⟨rfl, hnext⟩)⟩

theorem inLine_of_expr
    {e : Expr}
    (hw : e.Writes ts)
    (hprevious : Context.following previous = .operand)
    (hnext : next ≠ some .colon) :
    InLine previous ts next := by
  cases hw with
  | sum hs =>
      exact inLine_of_operand hs hprevious hnext
  | band hleft hright =>
      rw [inLine_cons_mark (by trivial), inLine_cons_mark (by trivial),
        inLine_append_mark (by trivial), inLine_append_mark (by trivial)]
      exact ⟨inLine_of_register hleft (Or.inl ⟨rfl, by simp [Token.lexeme]⟩),
        inLine_of_register hright (Or.inl ⟨rfl, by simp [Token.lexeme]⟩), trivial⟩
  | unary hs =>
      rw [inLine_cons_mark (by trivial), inLine_cons_mark (by trivial),
        inLine_append_mark (by trivial)]
      exact ⟨inLine_of_operand hs rfl (by simp [Token.lexeme]), trivial⟩

theorem inLine_of_jump
    {name : String}
    (hname : IsName name) :
    InLine previous [.keyword .goto, .label name] next := by
  rw [inLine_cons_mark (by trivial)]
  have hplace : LabelPlace (some (.keyword .goto)) next := Or.inl rfl
  exact ⟨hname, wordToken_label hname hplace, trivial⟩

theorem inLine_of_sub
    {sub : Subinstruction}
    (hw : sub.Writes ts)
    (hnames : ∀ name ∈ sub.target?, IsName name.value)
    (hprevious : Context.following previous ≠ .afterGoto) :
    InLine previous ts (some .semicolon) := by
  cases hw with
  | assign hdest hsource =>
      rw [inLine_append_mark (by trivial)]
      refine ⟨inLine_of_register hdest ?_, inLine_of_expr hsource rfl (by simp)⟩
      cases hcontext : Context.following previous with
      | lineStart => exact Or.inr ⟨hcontext, rfl⟩
      | afterGoto => exact absurd hcontext hprevious
      | operand => exact Or.inl ⟨hcontext, by simp [Token.lexeme]⟩
  | goto =>
      exact inLine_of_jump (hnames _ rfl)
  | branch =>
      rw [inLine_cons_mark (by trivial), inLine_cons_mark (by trivial),
        inLine_cons_mark (by trivial)]
      exact inLine_of_jump (hnames _ rfl)
  | read => exact (inLine_cons_mark (by trivial)).2 trivial
  | write => exact (inLine_cons_mark (by trivial)).2 trivial
  | halt => exact (inLine_cons_mark (by trivial)).2 trivial

theorem following_semicolon_ne :
    Context.following (some .semicolon) ≠ .afterGoto := by
  decide

theorem inLine_of_subs
    {subs : List (Located Subinstruction)}
    (hw : SubsWrite subs ts)
    (hnames : ∀ sub ∈ subs, ∀ name ∈ sub.value.target?, IsName name.value)
    (hprevious : Context.following previous ≠ .afterGoto) :
    InLine previous ts next := by
  induction hw generalizing previous with
  | nil =>
      trivial
  | cons hsub hsubs ih =>
      rw [inLine_append_mark (by trivial)]
      have hmore := ih (fun sub hmem => hnames sub (by simp [hmem])) following_semicolon_ne
      exact ⟨inLine_of_sub hsub (hnames _ (by simp)) hprevious, hmore⟩

/-- The tokens of an instruction are in their places at the start of a line. -/
theorem inLine_of_writes
    {i : Instruction}
    {address : Nat}
    (hi : i.WellFormed address)
    (hw : i.Writes ts)
    (hprevious : Context.following previous = .lineStart) :
    InLine previous ts next := by
  obtain ⟨us, hsubs, rfl⟩ := hw
  cases hl : i.label with
  | none =>
      exact inLine_of_subs hsubs hi.target_isName (by simp [hprevious])
  | some name =>
      have hname := hi.label_isName name hl
      have hplace : LabelPlace previous (some .colon) := Or.inr ⟨hprevious, by simp⟩
      refine ⟨hname, wordToken_label hname hplace, (inLine_cons_mark (by trivial)).2 ?_⟩
      exact inLine_of_subs hsubs hi.target_isName (by simp [Context.following, Context.after])

end InLine

section Lines

/-- Characters that end no line. -/
def Plain (cs : List Char) : Prop :=
  ∀ c ∈ cs, c ≠ '\n' ∧ c ≠ '\r'

theorem plain_append
    {cs ds : List Char}
    (hcs : Plain cs)
    (hds : Plain ds) :
    Plain (cs ++ ds) := by
  intro c hc
  rcases List.mem_append.1 hc with hc | hc
  · exact hcs c hc
  · exact hds c hc

theorem plain_of_isTermChar
    {cs : List Char}
    (h : ∀ c ∈ cs, isTermChar c = true) :
    Plain cs := by
  intro c hc
  have hterm := h c hc
  constructor
  · rintro rfl
    exact absurd hterm (by decide)
  · rintro rfl
    exact absurd hterm (by decide)

theorem plain_of_blanks
    {cs : List Char}
    (h : Blanks cs) :
    Plain cs := by
  intro c hc
  rcases h c hc with rfl | rfl <;> decide

/-- The text of a token on a line is not empty and ends no line. -/
theorem plain_text
    {t : Token}
    (ht : t.Writable) :
    t.text.toList ≠ [] ∧ Plain t.text.toList := by
  cases t with
  | register r => exact (register_name_chars r).imp_right plain_of_isTermChar
  | label name =>
      exact ⟨ht.1, plain_of_isTermChar fun c hc => isTermChar_of_isAlphanum (ht.2.1 c hc)⟩
  | keyword k => exact (keyword_name_chars k).imp_right plain_of_isTermChar
  | newline => exact absurd ht id
  | _ => simp [Token.text, Plain]

theorem plain_spaced
    {ts : List Token}
    {body : List Char}
    (h : Spaced ts body)
    (hts : ∀ t ∈ ts, t.Writable) :
    body ≠ [] ∧ Plain body := by
  induction h with
  | single t =>
      exact plain_text (hts t (by simp))
  | @cons t ts blanks body hb hne hbody ih =>
      obtain ⟨htext, hplain⟩ := plain_text (hts t (by simp))
      have hbody := ih fun u hu => hts u (by simp [hu])
      refine ⟨by simp [htext], ?_⟩
      exact plain_append (plain_append hplain (plain_of_blanks hb)) hbody.2

theorem lines_append_newline
    {line : List Char}
    (h : Plain line)
    (rest : List Char) :
    Text.lines (line ++ '\n' :: rest) = line :: Text.lines rest := by
  induction line with
  | nil =>
      exact Text.lines_newline rest
  | cons c line ih =>
      obtain ⟨hnewline, hreturn⟩ := h c (by simp)
      rw [List.cons_append, Text.lines_cons hnewline (fun hc => absurd hc hreturn),
        ih fun d hd => h d (by simp [hd])]
      rfl

/-- Lines are found again, with or without a line end after the last one. -/
theorem lines_of_written
    {lines : List (List Char)}
    {text : List Char}
    (hplain : ∀ line ∈ lines, line ≠ [] ∧ Plain line)
    (htext : text = lines.flatMap (fun line => line ++ ['\n']) ∨
      text = ['\n'].intercalate lines) :
    Text.lines text = lines := by
  induction lines generalizing text with
  | nil =>
      rcases htext with rfl | rfl <;> rfl
  | cons line lines ih =>
      obtain ⟨hne, hline⟩ := hplain line (by simp)
      have hlines := fun l hl => hplain l (List.mem_cons_of_mem line hl)
      rcases htext with rfl | rfl
      · rw [List.flatMap_cons, List.append_assoc, List.singleton_append,
          lines_append_newline hline, ih hlines (Or.inl rfl)]
      · cases lines with
        | nil =>
            have hnot : '\n' ∉ line := fun hmem => (hline _ hmem).1 rfl
            simpa [hne] using Text.lines_of_not_mem hnot
        | cons line' lines =>
            have hsplit : ['\n'].intercalate (line :: line' :: lines) =
                line ++ '\n' :: ['\n'].intercalate (line' :: lines) := by
              simp [List.intercalate]
            rw [hsplit, lines_append_newline hline, ih hlines (Or.inr rfl)]

end Lines

section Programs

/-- The tokens of some lines, with a line end after each. -/
def tokensOfLines (lines : List (List Token)) : List Token :=
  lines.flatMap fun line => line ++ [.newline]

/-- A written line is cut into the lexemes of the tokens it is written with. -/
theorem exists_tokens_of_writesLine
    {i : Instruction}
    {address : Nat}
    {line : List Char}
    (hi : i.WellFormed address)
    (hline : i.WritesLine line) :
    ∃ ts, i.Writes ts ∧ line ≠ [] ∧ Plain line ∧
      ∀ {cs : List Char} {ls : List Lexeme}, cs.head? ≠ some '\n' → Cut cs ls →
        Cut (line ++ '\n' :: cs) (ts.map Token.lexeme ++ .newlines :: ls) := by
  obtain ⟨ts, lead, body, trail, hw, hbody, hlead, htrail, rfl⟩ := hline
  have hwritable := writable_of_inLine (inLine_of_writes hi hw rfl : InLine none ts none)
  obtain ⟨hne, hplain⟩ := plain_spaced hbody hwritable
  refine ⟨ts, hw, by simp [hne],
    plain_append (plain_append (plain_of_blanks hlead) hplain) (plain_of_blanks htrail), ?_⟩
  intro cs ls hcs h
  have hnewline : Cut ('\n' :: cs) (.newlines :: ls) := by
    show Cut (['\n'] ++ cs) (.newlines :: ls)
    exact cut_newlines (by simp) (by simp) hcs h
  have hgap : StartsWithGap (trail ++ '\n' :: cs) := by
    refine startsWithGap_of_blanks htrail fun _ c hc => ?_
    exact Or.inr (Or.inr (Option.some.inj hc).symm)
  have hcut := cut_spaced hbody hwritable hgap (cut_blanks htrail hnewline)
  have hall := cut_blanks hlead hcut
  simpa using hall

/-- The lexemes of a line and its end are read as its tokens. -/
theorem readAll_line
    {i : Instruction}
    {address : Nat}
    {ts : List Token}
    {previous : Option Token}
    (hi : i.WellFormed address)
    (hw : i.Writes ts)
    (hprevious : Context.following previous = .lineStart)
    (ls : List Lexeme) :
    Lexeme.readAll previous (ts.map Token.lexeme ++ .newlines :: ls) =
      (ts ++ .newline :: (Lexeme.readAll (some .newline) ls).1,
        (Lexeme.readAll (some .newline) ls).2) := by
  rw [readAll_of_inLine (inLine_of_writes hi hw hprevious)]
  rfl

/-- Written lines are cut into lexemes that are read as the tokens of the lines. -/
theorem exists_tokens_of_lines
    {is : List Instruction}
    {address : Nat}
    {lines : List (List Char)}
    (his : WellFormedFrom address is)
    (hlines : List.Forall₂ Instruction.WritesLine is lines) :
    ∃ tokenLines ls, List.Forall₂ Instruction.Writes is tokenLines ∧
      (∀ line ∈ lines, line ≠ [] ∧ Plain line) ∧
      Cut (lines.flatMap fun line => line ++ ['\n']) ls ∧
      ∀ previous, Context.following previous = .lineStart →
        Lexeme.readAll previous ls = (tokensOfLines tokenLines, none) := by
  induction hlines generalizing address with
  | nil =>
      exact ⟨[], [], .nil, by simp, .done, fun _ _ => rfl⟩
  | @cons i line is lines hline hlines ih =>
      obtain ⟨hi, his⟩ := his
      obtain ⟨tokenLines, ls, hwrites, hplain, hcut, hread⟩ := ih his
      obtain ⟨ts, hw, hne, hpl, hfirst⟩ := exists_tokens_of_writesLine hi hline
      -- The next line does not start with a line end, so this one ends with exactly one.
      have hhead : (lines.flatMap fun line => line ++ ['\n']).head? ≠ some '\n' := by
        cases lines with
        | nil =>
            simp
        | cons next rest =>
            obtain ⟨hnext, hnextPlain⟩ := hplain next (by simp)
            cases next with
            | nil => exact absurd rfl hnext
            | cons c next =>
                have hc := (hnextPlain c (by simp)).1
                simpa using hc
      refine ⟨ts :: tokenLines, ts.map Token.lexeme ++ .newlines :: ls, .cons hw hwrites,
        ?_, ?_, ?_⟩
      · intro l hl
        rcases List.mem_cons.1 hl with rfl | hl
        · exact ⟨hne, hpl⟩
        · exact hplain l hl
      · simpa using hfirst hhead hcut
      · intro previous hprevious
        rw [readAll_line hi hw hprevious, hread (some .newline) rfl]
        simp [tokensOfLines]

/-- A text that a well-formed program is written as is read as that program, up to
places. -/
theorem program_of_written
    {p : Program}
    {text : String}
    (name : String)
    (hp : p.WellFormed)
    (htext : p.Written text) :
    ∃ q, (Source.mk name text).program = .ok q ∧ q.unlocated = p.unlocated := by
  obtain ⟨lines, hlines, hjoined⟩ := htext
  have his := wellFormed_iff.1 hp
  obtain ⟨tokenLines, ls, hwrites, hplain, hcut, hread⟩ := exists_tokens_of_lines his hlines
  have hchars : (Source.mk name text).chars = lines.flatMap fun line => line ++ ['\n'] := by
    rw [Source.chars, Text.normalized, lines_of_written hplain hjoined]
  have hvalues : (Source.mk name text).reading.values = (tokensOfLines tokenLines, none) := by
    rw [← hread none rfl, ← run_of_cut hcut none .start, ← hchars]
    rfl
  obtain ⟨htokens, herror⟩ := Prod.mk.inj hvalues
  obtain ⟨tree, htree, hsame⟩ := exists_lines his hwrites htokens
  refine ⟨⟨tree.instructions 0⟩, ?_, congrArg Program.mk hsame⟩
  refine program_eq_ok_iff.2 ⟨_, tokens_eq_ok_iff.2 ⟨Option.map_eq_none_iff.1 herror, rfl⟩, ?_⟩
  exact ofTokens_eq_ok_iff.2 ⟨⟨[], tree⟩, htree, rfl⟩

/-- **Print and parse.**  A well-formed program can be written, and every text that
it is written as is read as the same program up to places.  A program that is read
from a source is well formed, so what it is written as is read as the same program
again. -/
theorem program_roundTrip :
    (∀ p : Program, p.WellFormed →
      (∃ text, p.Written text) ∧
      ∀ name text, p.Written text →
        ∃ q, (Source.mk name text).program = .ok q ∧ q.unlocated = p.unlocated) ∧
    ∀ (s : Source) (p : Program), s.program = .ok p → p.WellFormed := by
  refine ⟨fun p hp => ⟨exists_written hp, ?_⟩, fun s p hs => wellFormed_of_program hs⟩
  intro name text htext
  exact program_of_written name hp htext

/-- The instruction `a : a := 1; goto a;`, in which `a` is a label, a register and
a target. -/
def Instruction.reset : Instruction :=
  let here : Span := .point .start
  { label := some ⟨"a", here⟩
    address := 0
    subs := [⟨.assign ⟨.a, here⟩ ⟨.read ⟨.one, here⟩, here⟩, here⟩, ⟨.goto ⟨"a", here⟩, here⟩] }

/-- The instruction is read back from a line with parentheses and a tab. -/
theorem program_roundTrip_reset :
    (Program.mk [.reset]).WellFormed ∧
      (Program.mk [.reset]).Written "a : ( a ) :=\t1 ; goto a ;" ∧
      ∃ q, (Source.mk "reset" "a : ( a ) :=\t1 ; goto a ;").program = .ok q ∧
        q.unlocated = (Program.mk [.reset]).unlocated := by
  have hname : IsName "a" := by
    refine ⟨by decide, ?_, by decide⟩
    rw [← List.all_eq_true]
    decide
  have hwell : (Program.mk [.reset]).WellFormed := by
    refine wellFormed_iff.2 ⟨⟨rfl, List.cons_ne_nil _ _, by decide, ?_, ?_⟩, trivial⟩
    · intro name hlabel
      cases hlabel
      exact hname
    · intro sub hsub name htarget
      simp only [Instruction.reset, List.mem_cons, List.not_mem_nil, or_false] at hsub
      rcases hsub with rfl | rfl <;> cases htarget
      exact hname
  have hwrites : Instruction.reset.Writes [.label "a", .colon, .openParen, .register .a,
      .closeParen, .assign, .register .one, .semicolon, .keyword .goto, .label "a", .semicolon] :=
    ⟨_, .cons (.assign .wrapped (.sum (.read .bare))) (.cons .goto .nil), rfl⟩
  have htab : Blanks ['\t'] := by simp [Blanks]
  have hvalue := (((Spaced.single .semicolon).cons_space (.label "a")).cons_space
    (.keyword .goto)).cons_space .semicolon |>.cons_space (.register .one)
  have hline := ((((hvalue.cons .assign htab (by simp)).cons_space .closeParen).cons_space
    (.register .a)).cons_space .openParen).cons_space .colon |>.cons_space (.label "a")
  have hwritten : (Program.mk [.reset]).Written "a : ( a ) :=\t1 ; goto a ;" := by
    refine ⟨[_], .cons ⟨_, [], _, [], hwrites, hline, by simp [Blanks], by simp [Blanks], rfl⟩ .nil,
      Or.inr ?_⟩
    decide
  exact ⟨hwell, hwritten, (program_roundTrip.1 _ hwell).2 _ _ hwritten⟩

end Programs

end Microcode
