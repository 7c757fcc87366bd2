import Microcode.Proofs.Encoding.Relocation
import Microcode.Proofs.Program.LineLocality

/-!
# Assembling two sources as one

**Input.**  Two sources that are assembled, and the source of both texts with a line end
between them.

**Algorithm.**  The assembler knows nothing of the seam.  Lines are read one by one, so the
program of both texts holds the instructions of the first and behind them those of the
second, each with a larger address and further down.  If no name is common to both, the
label table is made up of both tables, and then a jump finds what it found before.

**Results.**
* `program_link`: the instructions of both texts.
* `labelTable_link`, `address?_left` and `address?_right`: their label table, and what it
  gives the names of either text.
* `rangeErrors_link` and `resolve_link`: their only label errors are jumps of the second
  text that lead too far.
* `emit_link`: their words.
* `assemble_link`: how both texts are assembled as one.
-/

namespace Microcode

section Programs

/-- An instruction behind some instructions and some lines. -/
def Instruction.shift (n m : Nat) (i : Instruction) : Instruction :=
  { i.move (.down m) with address := i.address + n }

/-- The instructions of a program behind those of another, which stands on the first
lines. -/
def Program.link (m : Nat) (p q : Program) : Program :=
  ⟨p.instructions ++ q.instructions.map (.shift p.instructions.length m)⟩

theorem Expr.move_move
    (g h : Position → Position)
    (e : Expr) :
    (e.move h).move g = e.move (g ∘ h) := by
  cases e with
  | unary op operand => cases operand <;> rfl
  | _ => rfl

theorem Subinstruction.move_move
    (g h : Position → Position)
    (sub : Subinstruction) :
    (sub.move h).move g = sub.move (g ∘ h) := by
  cases sub with
  | assign dest source =>
      simp only [Subinstruction.move, Located.moveWith, Expr.move_move]
      rfl
  | _ => rfl

/-- Moving twice is moving once. -/
theorem Instruction.move_move
    (g h : Position → Position)
    (i : Instruction) :
    (i.move h).move g = i.move (g ∘ h) := by
  simp only [Instruction.move, Located.moveWith, List.map_map, Option.map_map,
    Function.comp_def, Subinstruction.move_move]
  rfl

theorem map_move_joinFrom
    (n m : Nat)
    (ps : List Program) :
    (joinFrom n ps).map (Instruction.move (.down m)) = joinFrom (n + m) ps := by
  induction ps generalizing n with
  | nil =>
      rfl
  | cons p ps ih =>
      have hdown : Position.down m ∘ Position.onLine n = Position.onLine (n + m) := rfl
      simp only [joinFrom_cons, List.map_append, List.map_map, ih, Function.comp_def,
        Instruction.move_move, Nat.add_right_comm n 1 m]
      rw [← hdown]
      rfl

theorem map_shift_renumber
    (n m : Nat)
    (is : List Instruction) :
    (renumber 0 is).map (.shift n m) = renumber n (is.map (Instruction.move (.down m))) := by
  refine List.ext_getElem? fun k => ?_
  simp only [renumber, List.getElem?_map, List.getElem?_mapIdx, Option.map_map, Nat.zero_add,
    Nat.add_comm n]
  rfl

/-- A join in two parts. -/
theorem join_append
    (ps qs : List Program) :
    Program.join (ps ++ qs) = (Program.join ps).link ps.length (.join qs) := by
  have hlength : (renumber 0 (joinFrom 1 ps)).length = (joinFrom 1 ps).length := by
    simp [renumber]
  simp only [Program.join, Program.link, joinFrom_append, renumber_append, map_shift_renumber,
    map_move_joinFrom, hlength, Nat.zero_add]

variable {s t : Source} {p q : Program}

/-- The number of lines of a source with a line end behind it. -/
def Source.height (s : Source) : Nat :=
  (Text.lines (s.text.toList ++ ['\n'])).length

/-- The program of two texts with a line end between them. -/
theorem program_link
    (name : String)
    (hp : s.program = .ok p)
    (hq : t.program = .ok q) :
    Source.program ⟨name, s.text ++ "\n" ++ t.text⟩ = .ok (p.link s.height q) := by
  obtain ⟨ps, hps, rfl⟩ := exists_holds_of_program hp
  obtain ⟨qs, hqs, rfl⟩ := exists_holds_of_program hq
  obtain ⟨tokens, htokens, -⟩ := program_eq_ok_iff.1 hp
  -- The line end may add an empty line to the first text.
  obtain ⟨ps', hps', hjoin⟩ : ∃ ps',
      List.Forall₂ Holds (Text.lines (s.text.toList ++ ['\n'])) ps' ∧
        Program.join ps' = .join ps := by
    rcases Text.lines_append_singleton (getLast?_ne_return htokens) with hsame | hmore
    · exact ⟨ps, hsame ▸ hps, rfl⟩
    · refine ⟨ps ++ [⟨[]⟩], ?_, ?_⟩
      · rw [hmore]
        exact List.rel_append hps (.cons ⟨reads_nil.2.1, lineProgram_nil⟩ .nil)
      · simp [Program.join, joinFrom]
  have hlines : Source.lines ⟨name, s.text ++ "\n" ++ t.text⟩ =
      Text.lines (s.text.toList ++ ['\n']) ++ t.lines := by
    rw [Source.lines, Source.lines, ← Text.lines_append_newline]
    simp
  have hholds : List.Forall₂ Holds (Source.lines ⟨name, s.text ++ "\n" ++ t.text⟩)
      (ps' ++ qs) := by
    rw [hlines]
    exact List.rel_append hps' hqs
  rw [program_of_lines hholds, join_append, hjoin, Source.height, hps'.length_eq]

end Programs

namespace Program

section Labels

variable {p q : Program} {m : Nat}

/-- A definition behind some instructions and some lines. -/
def shiftDefinition (n m : Nat) (d : Definition) : Definition :=
  ⟨d.label.move (.down m), d.address + n⟩

/-- The jumps of a program that lead too far once it stands behind some instructions,
with the addresses that they lead to then. -/
def overruns (labels : LabelTable) (n : Nat) (q : Program) : List (Located String × Nat) :=
  q.targets.filterMap fun target =>
    match labels.address? target.value with
    | some a => if addressSpace ≤ a + n then some (target, a + n) else none
    | none => none

theorem overruns_eq_nil_iff
    {labels : LabelTable}
    {n : Nat} :
    q.overruns labels n = [] ↔
      ∀ target ∈ q.targets, ∀ a, labels.address? target.value = some a → a + n ≤ 255 := by
  rw [overruns, List.filterMap_eq_nil_iff]
  refine forall₂_congr fun target _ => ?_
  cases labels.address? target.value with
  | none => simp
  | some a =>
      have hspace : addressSpace ≤ a + n ↔ 255 < a + n := Iff.rfl
      simp [hspace]

theorem definitions_link :
    (p.link m q).definitions =
      p.definitions ++ q.definitions.map (shiftDefinition p.instructions.length m) := by
  simp only [definitions, link, List.filterMap_append, List.filterMap_map, List.map_filterMap]
  congr 2
  funext i
  simp only [Function.comp_apply, Instruction.shift, Instruction.move, Option.map_map]
  rfl

theorem targets_link :
    (p.link m q).targets = p.targets ++ q.targets.map (Located.move (.down m)) := by
  have hsub : ∀ sub : Subinstruction,
      (sub.move (.down m)).target? = sub.target?.map (Located.move (.down m)) := by
    intro sub
    cases sub <;> rfl
  simp only [targets, link, List.flatMap_append, List.flatMap_map, List.map_flatMap,
    Instruction.shift, Instruction.move, List.filterMap_map, List.map_filterMap,
    Function.comp_def, Located.moveWith, hsub]

theorem names_link :
    Definition.names (p.link m q).definitions =
      Definition.names p.definitions ++ Definition.names q.definitions := by
  simp only [definitions_link, Definition.names, List.map_append, List.map_map]
  rfl

/-- Two programs that can be resolved and define no common name. -/
structure Linkable (p q : Program) (labels labels' : LabelTable) : Prop where
  left : p.resolve = .ok labels
  right : q.resolve = .ok labels'
  apart : (Definition.names p.definitions).Disjoint (Definition.names q.definitions)

namespace Linkable

variable {labels labels' : LabelTable}

theorem definesOnce
    (h : p.Linkable q labels labels')
    (m : Nat) :
    (p.link m q).DefinesOnce := by
  rw [DefinesOnce, names_link]
  exact (resolve_eq_ok_iff.1 h.left).1.append (resolve_eq_ok_iff.1 h.right).1 h.apart

/-- The label table is made up of both tables. -/
theorem labelTable_link
    (h : p.Linkable q labels labels')
    (m : Nat) :
    (p.link m q).labelTable =
      ⟨labels.entries ++ labels'.entries.map fun e => (e.1, e.2 + p.instructions.length)⟩ := by
  obtain ⟨-, -, hp⟩ := resolve_eq_ok_iff.1 h.left
  obtain ⟨-, -, hq⟩ := resolve_eq_ok_iff.1 h.right
  have hentries := entries_of_definesOnce (h.definesOnce m)
  rw [definitions_link, List.map_append, List.map_map] at hentries
  rw [hp, hq, List.map_map]
  exact congrArg LabelTable.mk hentries

/-- Names of the first program keep their addresses. -/
theorem address?_left
    (h : p.Linkable q labels labels')
    (m : Nat)
    {name : String}
    {a : Nat}
    (ha : labels.address? name = some a) :
    (p.link m q).labelTable.address? name = some a := by
  obtain ⟨hduplicate, -, -, rfl⟩ := resolve_eq_ok_iff_errors.1 h.left
  obtain ⟨d, hd, hname, haddress⟩ :=
    (address?_eq_some_iff (duplicateErrors_eq_nil_iff.1 hduplicate) _ _).1 ha
  refine (address?_eq_some_iff (h.definesOnce m) _ _).2 ⟨d, ?_, hname, haddress⟩
  rw [definitions_link]
  exact List.mem_append_left _ hd

/-- Names of the second program have their addresses behind the first. -/
theorem address?_right
    (h : p.Linkable q labels labels')
    (m : Nat)
    {name : String}
    {a : Nat}
    (ha : labels'.address? name = some a) :
    (p.link m q).labelTable.address? name = some (a + p.instructions.length) := by
  obtain ⟨hduplicate, -, -, rfl⟩ := resolve_eq_ok_iff_errors.1 h.right
  obtain ⟨d, hd, rfl, rfl⟩ :=
    (address?_eq_some_iff (duplicateErrors_eq_nil_iff.1 hduplicate) _ _).1 ha
  refine (address?_eq_some_iff (h.definesOnce m) _ _).2
    ⟨shiftDefinition p.instructions.length m d, ?_, rfl, rfl⟩
  rw [definitions_link]
  exact List.mem_append_right _ (List.mem_map_of_mem hd)

/-- Only jumps of the second program can lead too far. -/
theorem rangeErrors_link
    (h : p.Linkable q labels labels')
    (m : Nat) :
    (p.link m q).rangeErrors =
      (q.overruns labels' p.instructions.length).map fun jump =>
        ⟨.outOfRange jump.1.value jump.2, jump.1.span.move (.down m)⟩ := by
  simp only [rangeErrors, targets_link, List.filterMap_append, List.filterMap_map]
  rw [(List.filterMap_eq_nil_iff (l := p.targets)).2, List.nil_append, overruns,
    List.map_filterMap]
  · refine List.filterMap_congr fun target htarget => ?_
    obtain ⟨a, ha, -⟩ := exists_address_of_resolve h.right htarget
    simp only [Function.comp_apply, Located.move, h.address?_right m ha, ha]
    split <;> rfl
  · intro target htarget
    obtain ⟨a, ha, hlt⟩ := exists_address_of_resolve h.left htarget
    rw [h.address?_left m ha]
    exact if_neg (Nat.not_le.2 hlt)

/-- Doubled and missing names are not reported. -/
theorem resolve_link
    (h : p.Linkable q labels labels')
    (m : Nat) :
    (p.link m q).resolve =
      if (p.link m q).rangeErrors = [] then .ok (p.link m q).labelTable
      else .error (p.link m q).rangeErrors := by
  refine resolve_of_defined (h.definesOnce m) fun target htarget => ?_
  rw [names_link, List.mem_append]
  rw [targets_link] at htarget
  rcases List.mem_append.1 htarget with htarget | htarget
  · obtain ⟨d, hd, hname, -⟩ := (resolve_eq_ok_iff.1 h.left).2.1 target htarget
    exact Or.inl (List.mem_map.2 ⟨d, hd, hname⟩)
  · obtain ⟨target, hmem, rfl⟩ := List.mem_map.1 htarget
    obtain ⟨d, hd, hname, -⟩ := (resolve_eq_ok_iff.1 h.right).2.1 target hmem
    exact Or.inr (List.mem_map.2 ⟨d, hd, hname⟩)

/-- The words of the first program are the same, and those of the second are moved. -/
theorem emit_link
    (h : p.Linkable q labels labels')
    (m : Nat)
    (hfit : ∀ target ∈ q.targets, ∀ a, labels'.address? target.value = some a →
      a + p.instructions.length < addressSpace)
    {words words' : List ControlWord}
    (hp : p.emit labels = .ok words)
    (hq : q.emit labels' = .ok words') :
    ∃ moved, (p.link m q).emit (p.link m q).labelTable = .ok (words ++ moved) ∧
      List.Forall₂ (ControlWord.Relocated p.instructions.length) words' moved := by
  have hleft : encodeAll (p.link m q).labelTable p.instructions = .ok words := by
    rw [← hp, Program.emit]
    refine encodeAll_congr fun i hi sub hsub target htarget => ?_
    obtain ⟨a, ha, -⟩ := exists_address_of_resolve h.left (mem_targets hi hsub htarget)
    rw [LabelTable.target?, LabelTable.target?, h.address?_left m ha, ha]
  -- Both addresses fit, the second by assumption, so both tables give jumps an address.
  have hright : ∀ i ∈ q.instructions,
      TargetsMoved p.instructions.length labels' (p.link m q).labelTable i.subs := by
    intro i hi sub hsub target htarget
    have hmem := mem_targets hi hsub htarget
    obtain ⟨a, ha, hlt⟩ := exists_address_of_resolve h.right hmem
    obtain ⟨b, hb, rfl⟩ := LabelTable.exists_target? ha hlt
    obtain ⟨b', hb', heq⟩ :=
      LabelTable.exists_target? (h.address?_right m ha) (hfit target hmem _ ha)
    exact ⟨b, b', hb, hb', heq⟩
  obtain ⟨moved, hmoved, hrelocated⟩ :=
    encodeAll_moved (.shift p.instructions.length m) (.down m) (fun _ => rfl) hright hq
  exact ⟨moved, encodeAll_append hleft hmoved, hrelocated⟩

end Linkable

end Labels

end Program

section Sources

variable {s t : Source} {p q : Program} {labels labels' : LabelTable}

/-- If all jumps of the second text still fit, both texts are assembled as one. -/
theorem assemble_of_fits
    (name : String)
    (hp : s.program = .ok p)
    (hq : t.program = .ok q)
    (hlink : p.Linkable q labels labels')
    (hfits : ∀ target ∈ q.targets, ∀ a, labels'.address? target.value = some a →
      a + p.instructions.length ≤ 255)
    {words words' : List ControlWord}
    (hwords : p.emit labels = .ok words)
    (hwords' : q.emit labels' = .ok words') :
    ∃ moved, List.Forall₂ (ControlWord.Relocated p.instructions.length) words' moved ∧
      Source.assemble ⟨name, s.text ++ "\n" ++ t.text⟩ = .ok ⟨words ++ moved,
        ⟨labels.entries ++ labels'.entries.map fun e => (e.1, e.2 + p.instructions.length)⟩⟩ := by
  have hresolve := hlink.resolve_link s.height
  rw [hlink.rangeErrors_link, Program.overruns_eq_nil_iff.2 hfits, List.map_nil, if_pos rfl]
    at hresolve
  obtain ⟨moved, hmoved, hrelocated⟩ := hlink.emit_link s.height
    (fun target htarget a ha => Nat.lt_succ_of_le (hfits target htarget a ha)) hwords hwords'
  refine ⟨moved, hrelocated, ?_⟩
  rw [← hlink.labelTable_link s.height]
  exact assemble_eq_ok_iff.2
    ⟨_, resolved_eq_ok_iff.2 ⟨program_link name hp hq, hresolve⟩, hmoved⟩

/-- Otherwise the jumps that lead too far are reported. -/
theorem assemble_of_overruns
    (name : String)
    (hp : s.program = .ok p)
    (hq : t.program = .ok q)
    (hlink : p.Linkable q labels labels')
    (hne : q.overruns labels' p.instructions.length ≠ []) :
    Source.assemble ⟨name, s.text ++ "\n" ++ t.text⟩ =
      .error (.errors ((q.overruns labels' p.instructions.length).map fun jump =>
        .label ⟨.outOfRange jump.1.value jump.2, jump.1.span.move (.down s.height)⟩)) := by
  have hresolve := hlink.resolve_link s.height
  have herrors := hlink.rangeErrors_link s.height
  rw [if_neg (by rw [herrors]; simpa using hne), herrors] at hresolve
  simp only [Source.assemble, Source.resolved, program_link name hp hq, hresolve, List.map_map]
  rfl

/-- The program of an assembled source has its label table and its words. -/
theorem resolve_of_assemble
    {asm : Assembly}
    (hp : s.program = .ok p)
    (h : s.assemble = .ok asm) :
    p.resolve = .ok asm.labels ∧ p.emit asm.labels = .ok asm.words := by
  obtain ⟨p', hresolved, hemit⟩ := assemble_eq_ok_iff.1 h
  obtain ⟨hp', hlabels⟩ := resolved_eq_ok_iff.1 hresolved
  rw [hp] at hp'
  cases hp'
  exact ⟨hlabels, hemit⟩

/-- **Sources are linked by joining their texts.**  Take two sources that are assembled
and define no common name, and the source of both texts with a line end between them.
Let `n` be the number of instructions of the first.

If every jump of the second leads to an address that still fits when `n` is added, the
joined source is assembled.  Its words are those of the first source and behind them those
of the second, in which the addresses of branches are `n` larger and nothing else is
changed.  Its label table lists the entries of the first source and behind them those of
the second, at addresses that are `n` larger.

Otherwise the joined source is refused, with one error for each jump of the second that
leads too far, in their order. -/
theorem assemble_link
    (s t : Source)
    (name : String)
    (p q : Program)
    (asm asm' : Assembly)
    (hp : s.program = .ok p)
    (hq : t.program = .ok q)
    (hs : s.assemble = .ok asm)
    (ht : t.assemble = .ok asm')
    (hapart : ∀ label ∈ Definition.names p.definitions,
      label ∉ Definition.names q.definitions) :
    let n := p.instructions.length
    let linked : Source := ⟨name, s.text ++ "\n" ++ t.text⟩
    let fits := ∀ target ∈ q.targets, ∀ a, asm'.labels.address? target.value = some a → a + n ≤ 255
    (fits →
      ∃ words, List.Forall₂ (ControlWord.Relocated n) asm'.words words ∧
        linked.assemble = .ok ⟨asm.words ++ words,
          ⟨asm.labels.entries ++ asm'.labels.entries.map fun e => (e.1, e.2 + n)⟩⟩) ∧
    (¬ fits →
      linked.assemble = .error (.errors ((q.overruns asm'.labels n).map fun jump =>
        .label ⟨.outOfRange jump.1.value jump.2, jump.1.span.move (.down s.height)⟩))) := by
  intro n linked fits
  obtain ⟨hlabels, hwords⟩ := resolve_of_assemble hp hs
  obtain ⟨hlabels', hwords'⟩ := resolve_of_assemble hq ht
  have hlink : p.Linkable q asm.labels asm'.labels :=
    ⟨hlabels, hlabels', fun label hlabel => hapart label hlabel⟩
  constructor
  · intro hfits
    exact assemble_of_fits name hp hq hlink hfits hwords hwords'
  · intro hfar
    exact assemble_of_overruns name hp hq hlink (mt Program.overruns_eq_nil_iff.1 hfar)

/-- There are assembled sources with any number of instructions and without labels. -/
theorem exists_assembled
    (k : Nat) :
    ∃ (s : Source) (p : Program) (asm : Assembly), s.program = .ok p ∧ s.assemble = .ok asm ∧
      p.instructions.length = k ∧ p.definitions = [] ∧ p.targets = [] := by
  induction k with
  | zero =>
      exact ⟨⟨"none", ""⟩, ⟨[]⟩, ⟨[], ⟨[]⟩⟩, by decide +kernel, by decide +kernel, rfl, rfl, rfl⟩
  | succ k ih =>
      obtain ⟨s, p, asm, hp, hs, hlength, hdefinitions, htargets⟩ := ih
      let t : Source := ⟨"one", "rd;"⟩
      let q : Program := ⟨[⟨none, 0, [⟨.read, ⟨⟨1, 1⟩, ⟨1, 2⟩⟩⟩]⟩]⟩
      have hq : t.program = .ok q := by decide +kernel
      have ht : t.assemble = .ok ⟨[⟨0x00400000⟩], ⟨[]⟩⟩ := by decide +kernel
      obtain ⟨hlabels, hwords⟩ := resolve_of_assemble hp hs
      obtain ⟨hlabels', hwords'⟩ := resolve_of_assemble hq ht
      have hlink : p.Linkable q asm.labels ⟨[]⟩ :=
        ⟨hlabels, hlabels', by simp [hdefinitions, Definition.names]⟩
      have hnone : q.targets = [] := rfl
      obtain ⟨moved, -, hasm⟩ :=
        assemble_of_fits "more" hp hq hlink (by simp [hnone]) hwords hwords'
      refine ⟨_, _, _, program_link "more" hp hq, hasm, ?_, ?_, ?_⟩
      · simp [Program.link, hlength, q]
      · rw [Program.definitions_link, hdefinitions]
        rfl
      · rw [Program.targets_link, htargets, hnone]
        rfl

/-- A jump to itself leads to address 1 behind one instruction, and too far behind 256. -/
theorem assemble_link_loop :
    let t : Source := ⟨"loop", "a: goto a;"⟩
    t.assemble = .ok ⟨[⟨0x60000000⟩], ⟨[("a", 0)]⟩⟩ ∧
    (∃ w : ControlWord, w.fields .cond = 3 ∧ w.fields .addr = 1 ∧
      Source.assemble ⟨"near", "rd;\na: goto a;"⟩ = .ok ⟨[⟨0x00400000⟩, w], ⟨[("a", 1)]⟩⟩) ∧
    ∃ (u : Source) (p : Program) (asm : Assembly), u.program = .ok p ∧ u.assemble = .ok asm ∧
      p.instructions.length = 256 ∧
      Source.assemble ⟨"far", u.text ++ "\n" ++ t.text⟩ = .error (.errors
        [.label ⟨.outOfRange "a" 256, .point ⟨1 + u.height, 9⟩⟩]) := by
  intro t
  have ht : t.assemble = .ok ⟨[⟨0x60000000⟩], ⟨[("a", 0)]⟩⟩ := by decide +kernel
  have hq : t.program = .ok ⟨[⟨some ⟨"a", .point ⟨1, 1⟩⟩, 0,
      [⟨.goto ⟨"a", .point ⟨1, 9⟩⟩, ⟨⟨1, 4⟩, ⟨1, 9⟩⟩⟩]⟩]⟩ := by decide +kernel
  refine ⟨ht, ?_, ?_⟩
  · let s : Source := ⟨"one", "rd;"⟩
    have hs : s.assemble = .ok ⟨[⟨0x00400000⟩], ⟨[]⟩⟩ := by decide +kernel
    have hp : s.program = .ok ⟨[⟨none, 0, [⟨.read, ⟨⟨1, 1⟩, ⟨1, 2⟩⟩⟩]⟩]⟩ := by decide +kernel
    have hfits : ∀ target ∈ [Located.mk "a" (.point ⟨1, 9⟩)], ∀ a,
        LabelTable.address? ⟨[("a", 0)]⟩ target.value = some a → a + 1 ≤ 255 := by
      intro target htarget a ha
      cases List.mem_singleton.1 htarget
      cases ha
      decide
    obtain ⟨words, hrelocated, hnear⟩ :=
      (assemble_link s t "near" _ _ _ _ hp hq hs ht (by decide)).1 hfits
    cases hrelocated with
    | @cons _ w _ _ hw hnil =>
        cases hnil
        rw [ControlWord.Relocated, if_neg (by decide)] at hw
        obtain ⟨hother, haddr⟩ := hw
        exact ⟨w, hother .cond (by decide), UInt8.toNat_inj.1 haddr, hnear⟩
  · obtain ⟨u, p, asm, hp, hu, hlength, hdefinitions, -⟩ := exists_assembled 256
    have hfar := (assemble_link u t "far" _ _ _ _ hp hq hu ht
      (by simp [hdefinitions, Definition.names])).2
    rw [hlength] at hfar
    refine ⟨u, p, asm, hp, hu, hlength, hfar fun hfits => ?_⟩
    exact absurd (hfits ⟨"a", .point ⟨1, 9⟩⟩ (List.mem_singleton_self _) 0 rfl) (by decide)

end Sources

end Microcode
