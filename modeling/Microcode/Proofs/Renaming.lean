import Microcode.Proofs.Encoding.Safety
import Microcode.Proofs.Program.Renaming

/-!
# Label names are symbolic

**Input.**  A source without lexical errors, and a map of its label names to names that
keeps different names apart.

**Algorithm.**  The assembler compares label names with each other and copies them into
reports and into the label table; it does nothing else with them.  So every stage is
natural: on a relabelled program it gives the relabelled result.  Unlike parsing, the
stages behind it compare names, which is why the map has to be injective.

**Results.**
* `resolve_relabel`: the label table and the label errors of a relabelled program.
* `emit_relabel`: its words and its conflicts.
* `assemble_of_renamed_tokens`: sources whose tokens differ in the names of labels only
  are assembled alike.
* `assemble_renamed`: so are a source and the same source with other labels.
-/

namespace Microcode

variable {f : String → String} {names : Set String}

section Labels

/-- The table with other names. -/
def LabelTable.rename (f : String → String) (t : LabelTable) : LabelTable :=
  ⟨t.entries.map fun entry => (f entry.1, entry.2)⟩

/-- The error with other names and without the place that it cites. -/
def LabelError.relabel (f : String → String) : LabelError → LabelError
  | duplicate name _ => .duplicate (f name) (.point .start)
  | undefined names => .undefined (names.map f)
  | outOfRange name address => .outOfRange (f name) address

/-- A map that keeps names apart keeps comparisons. -/
theorem beq_of_injOn
    (hf : Set.InjOn f names)
    {a b : String}
    (ha : a ∈ names)
    (hb : b ∈ names) :
    (f a == f b) = (a == b) := by
  rw [Bool.eq_iff_iff, beq_iff_eq, beq_iff_eq, hf.eq_iff ha hb]

theorem find?_relabel
    (hf : Set.InjOn f names)
    {known : List Definition}
    (hknown : ∀ d ∈ known, d.label.value ∈ names)
    {d : Definition}
    (hd : d.label.value ∈ names) :
    (known.map (Definition.relabel f)).find?
        (fun k => k.label.value == (d.relabel f).label.value) =
      (known.find? fun k => k.label.value == d.label.value).map (Definition.relabel f) := by
  rw [List.find?_map]
  refine congrArg _ (List.find?_congr fun k hk => ?_)
  exact beq_of_injOn hf (hknown k hk) hd

/-- Relabelled definitions are sorted like the definitions. -/
theorem sort_relabel
    (hf : Set.InjOn f names)
    {known ds : List Definition}
    (hknown : ∀ d ∈ known, d.label.value ∈ names)
    (hds : ∀ d ∈ ds, d.label.value ∈ names) :
    Definition.sort (known.map (Definition.relabel f)) (ds.map (Definition.relabel f)) =
      ((Definition.sort known ds).1.map (Definition.relabel f),
        (Definition.sort known ds).2.map (Located.relabel (LabelError.relabel f))) := by
  induction ds generalizing known with
  | nil =>
      rfl
  | cons d ds ih =>
      have hd := hds d (by simp)
      have hrest : ∀ e ∈ ds, e.label.value ∈ names := fun e he => hds e (by simp [he])
      rw [List.map_cons, Definition.sort, find?_relabel hf hknown hd]
      cases hfind : known.find? fun k => k.label.value == d.label.value with
      | some first =>
          simp only [Definition.sort, hfind, Option.map_some, ih hknown hrest]
          rfl
      | none =>
          have hmore : ∀ e ∈ d :: known, e.label.value ∈ names := by
            simpa using And.intro hd hknown
          have hsort := ih hmore hrest
          rw [List.map_cons] at hsort
          simp only [Definition.sort, hfind, Option.map_none, hsort]
          rfl

/-- Only definitions that are given are kept. -/
theorem mem_of_mem_sort
    {known ds : List Definition}
    {d : Definition}
    (h : d ∈ (Definition.sort known ds).1) :
    d ∈ ds := by
  induction ds generalizing known with
  | nil =>
      cases h
  | cons e ds ih =>
      cases hfind : known.find? fun k => k.label.value == e.label.value with
      | some first =>
          simp only [Definition.sort, hfind] at h
          exact List.mem_cons_of_mem _ (ih h)
      | none =>
          simp only [Definition.sort, hfind] at h
          rcases List.mem_cons.1 h with rfl | h
          · exact List.mem_cons_self ..
          · exact List.mem_cons_of_mem _ (ih h)

/-- A renamed table gives a renamed name the address of the name. -/
theorem address?_rename
    (hf : Set.InjOn f names)
    {t : LabelTable}
    (ht : ∀ entry ∈ t.entries, entry.1 ∈ names)
    {name : String}
    (hname : name ∈ names) :
    (t.rename f).address? (f name) = t.address? name := by
  obtain ⟨entries⟩ := t
  show (entries.map fun entry => (f entry.1, entry.2)).lookup (f name) = entries.lookup name
  induction entries with
  | nil =>
      rfl
  | cons entry entries ih =>
      have hentry := ht entry (by simp)
      rw [List.map_cons, List.lookup_cons, List.lookup_cons, beq_of_injOn hf hname hentry,
        ih fun e he => ht e (List.mem_cons_of_mem _ he)]

theorem target?_rename
    (hf : Set.InjOn f names)
    {t : LabelTable}
    (ht : ∀ entry ∈ t.entries, entry.1 ∈ names)
    {name : String}
    (hname : name ∈ names) :
    (t.rename f).target? (f name) = t.target? name := by
  rw [LabelTable.target?, address?_rename hf ht hname]
  rfl

/-- Repeated names are dropped alike. -/
theorem eraseDups_map
    (hf : Set.InjOn f names)
    {ns : List String}
    (hns : ∀ name ∈ ns, name ∈ names) :
    (ns.map f).eraseDups = ns.eraseDups.map f := by
  cases ns with
  | nil =>
      rfl
  | cons name ns =>
      have hrest : ∀ other ∈ ns, other ∈ names := fun other h => hns other (by simp [h])
      have hfilter : (ns.map f).filter (fun other => !other == f name) =
          (ns.filter fun other => !other == name).map f := by
        rw [List.filter_map]
        refine congrArg _ (List.filter_congr fun other hother => ?_)
        exact congrArg _ (beq_of_injOn hf (hrest other hother) (hns name (by simp)))
      rw [List.map_cons, List.eraseDups_cons, List.eraseDups_cons, hfilter, List.map_cons,
        eraseDups_map hf fun other hother => hrest other (List.mem_filter.1 hother).1]
termination_by ns.length
decreasing_by
  have hle := List.length_filter_le (fun other => !other == name) ns
  subst_vars
  simp only [List.length_cons]
  omega

variable {p : Program}

theorem sort_definitions_relabel
    (hf : Set.InjOn f p.names) :
    Definition.sort [] (p.relabel f).definitions =
      ((Definition.sort [] p.definitions).1.map (Definition.relabel f),
        (Definition.sort [] p.definitions).2.map (Located.relabel (LabelError.relabel f))) := by
  have hnone : ∀ d ∈ ([] : List Definition), d.label.value ∈ p.names := by simp
  rw [definitions_relabel]
  exact sort_relabel hf hnone fun d hd => Or.inl ⟨d, hd, rfl⟩

theorem labelTable_relabel
    (hf : Set.InjOn f p.names) :
    (p.relabel f).labelTable = p.labelTable.rename f := by
  rw [Program.labelTable, Program.labelTable, sort_definitions_relabel hf, LabelTable.rename,
    List.map_map, List.map_map]
  rfl

/-- The names in the table of a program are names in the program. -/
theorem mem_names_of_mem_labelTable :
    ∀ entry ∈ p.labelTable.entries, entry.1 ∈ p.names := by
  intro entry hentry
  obtain ⟨d, hd, rfl⟩ := List.mem_map.1 hentry
  exact Or.inl ⟨d, mem_of_mem_sort hd, rfl⟩

theorem address?_relabel
    (hf : Set.InjOn f p.names)
    {target : Located String}
    (htarget : target ∈ p.targets) :
    (p.relabel f).labelTable.address? (f target.value) =
      p.labelTable.address? target.value := by
  rw [labelTable_relabel hf]
  exact address?_rename hf mem_names_of_mem_labelTable (Or.inr ⟨target, htarget, rfl⟩)

theorem duplicateErrors_relabel
    (hf : Set.InjOn f p.names) :
    (p.relabel f).duplicateErrors =
      p.duplicateErrors.map (Located.relabel (LabelError.relabel f)) := by
  rw [Program.duplicateErrors, Program.duplicateErrors, sort_definitions_relabel hf]

theorem rangeErrors_relabel
    (hf : Set.InjOn f p.names) :
    (p.relabel f).rangeErrors = p.rangeErrors.map (Located.relabel (LabelError.relabel f)) := by
  simp only [Program.rangeErrors, targets_relabel, List.filterMap_map, List.map_filterMap]
  refine List.filterMap_congr fun target htarget => ?_
  simp only [Function.comp_apply, Located.relabel, address?_relabel hf htarget]
  cases p.labelTable.address? target.value with
  | none => rfl
  | some address =>
      simp only
      split <;> rfl

theorem missingTargets_relabel
    (hf : Set.InjOn f p.names) :
    (p.relabel f).missingTargets = p.missingTargets.map (Located.relabel f) := by
  simp only [Program.missingTargets, targets_relabel, List.filter_map]
  refine congrArg _ (List.filter_congr fun target htarget => ?_)
  simp only [Function.comp_apply, Located.relabel, address?_relabel hf htarget]

theorem undefinedErrors_relabel
    (hf : Set.InjOn f p.names) :
    (p.relabel f).undefinedErrors =
      p.undefinedErrors.map (Located.relabel (LabelError.relabel f)) := by
  have hmem : ∀ name ∈ p.missingTargets.map Located.value, name ∈ p.names := by
    intro name hname
    obtain ⟨target, htarget, rfl⟩ := List.mem_map.1 hname
    exact Or.inr ⟨target, (List.mem_filter.1 htarget).1, rfl⟩
  have hvalues : (p.missingTargets.map (Located.relabel f)).map Located.value =
      (p.missingTargets.map Located.value).map f := by
    rw [List.map_map, List.map_map]
    rfl
  rw [Program.undefinedErrors, Program.undefinedErrors, missingTargets_relabel hf]
  cases hmissing : p.missingTargets with
  | nil => rfl
  | cons first others =>
      rw [hmissing] at hmem hvalues
      have hdups := eraseDups_map hf hmem
      rw [← hvalues] at hdups
      exact congrArg (fun ns => [Located.mk (LabelError.undefined ns) (.point .start)]) hdups

/-- **Labels are resolved naturally.** -/
theorem resolve_relabel
    (hf : Set.InjOn f p.names) :
    (p.relabel f).resolve =
      mapResult (List.map (Located.relabel (LabelError.relabel f))) (LabelTable.rename f)
        p.resolve := by
  rw [Program.resolve, duplicateErrors_relabel hf, rangeErrors_relabel hf,
    undefinedErrors_relabel hf, labelTable_relabel hf, ← List.map_append, ← List.map_append,
    Program.resolve]
  cases p.duplicateErrors ++ p.rangeErrors ++ p.undefinedErrors <;> rfl

end Labels

section Words

/-- The fault without its place. -/
def Fault.unlocated : Fault → Fault
  | conflict error => .conflict error.unlocated
  | defect cause => .defect cause

theorem assignmentClaims_unlocated
    (dest : Register)
    (e : Expr) :
    assignmentClaims dest e.unlocated = assignmentClaims dest e := by
  cases e with
  | unary op operand => cases operand <;> rfl
  | _ => rfl

variable {labels : LabelTable}

theorem jumpDemand_rename
    (hf : Set.InjOn f names)
    (hlabels : ∀ entry ∈ labels.entries, entry.1 ∈ names)
    (jump : Jump)
    {name : String}
    (hname : name ∈ names) :
    jumpDemand (labels.rename f) jump (f name) =
      mapResult Fault.unlocated (fun d => d) (jumpDemand labels jump name) := by
  rw [jumpDemand, target?_rename hf hlabels hname, jumpDemand]
  cases labels.target? name <;> rfl

/-- A relabelled sub-instruction asks a renamed table for the same. -/
theorem demand_relabel
    (hf : Set.InjOn f names)
    (hlabels : ∀ entry ∈ labels.entries, entry.1 ∈ names)
    {sub : Located Subinstruction}
    (htarget : ∀ target ∈ sub.value.target?, target.value ∈ names) :
    Subinstruction.demand (labels.rename f) (sub.relabel (Subinstruction.relabel f)) =
      mapResult Fault.unlocated (fun d => d) (Subinstruction.demand labels sub) := by
  obtain ⟨value, span⟩ := sub
  cases value with
  | assign dest source =>
      simp only [Subinstruction.demand, Located.relabel, Subinstruction.relabel,
        Located.unlocated, assignmentClaims_unlocated]
      split
      · rfl
      · cases assignmentClaims dest.value source.value <;> rfl
  | goto target => exact jumpDemand_rename hf hlabels .always (htarget target rfl)
  | branch condition target =>
      exact jumpDemand_rename hf hlabels condition.jump (htarget target rfl)
  | _ => rfl

theorem encodeFrom_relabel
    (hf : Set.InjOn f names)
    (hlabels : ∀ entry ∈ labels.entries, entry.1 ∈ names)
    (s : Resources)
    {subs : List (Located Subinstruction)}
    (htargets : ∀ sub ∈ subs, ∀ target ∈ sub.value.target?, target.value ∈ names) :
    encodeFrom (labels.rename f) s (subs.map (Located.relabel (Subinstruction.relabel f))) =
      mapResult Fault.unlocated (fun w => w) (encodeFrom labels s subs) := by
  induction subs generalizing s with
  | nil =>
      show s.word = mapResult _ _ s.word
      rw [Resources.word]
      cases s.pack <;> rfl
  | cons sub subs ih =>
      rw [List.map_cons, encodeFrom, demand_relabel hf hlabels (htargets sub (by simp)), encodeFrom]
      cases Subinstruction.demand labels sub with
      | error fault => rfl
      | ok demand =>
          cases demand with
          | stop => rfl
          | claims claims =>
              simp only [mapResult]
              cases s.claimAll claims with
              | error conflict => rfl
              | ok s' => exact ih s' fun x hx => htargets x (List.mem_cons_of_mem _ hx)

theorem encodeAll_relabel
    (hf : Set.InjOn f names)
    (hlabels : ∀ entry ∈ labels.entries, entry.1 ∈ names)
    {is : List Instruction}
    (htargets : ∀ i ∈ is, ∀ sub ∈ i.subs, ∀ target ∈ sub.value.target?, target.value ∈ names) :
    encodeAll (labels.rename f) (is.map (Instruction.relabel f)) =
      mapResult Fault.unlocated (fun ws => ws) (encodeAll labels is) := by
  induction is with
  | nil =>
      rfl
  | cons i is ih =>
      have hi : (i.relabel f).encode (labels.rename f) = _ :=
        encodeFrom_relabel hf hlabels .fresh (htargets i (by simp))
      rw [List.map_cons, encodeAll, hi, encodeAll, Instruction.encode,
        ih fun j hj => htargets j (List.mem_cons_of_mem _ hj)]
      cases encodeFrom labels .fresh i.subs with
      | error fault => rfl
      | ok word => cases encodeAll labels is <;> rfl

/-- **Words are encoded naturally**, with the table of the program. -/
theorem emit_relabel
    {p : Program}
    (hf : Set.InjOn f p.names) :
    (p.relabel f).emit (p.labelTable.rename f) =
      mapResult Fault.unlocated (fun ws => ws) (p.emit p.labelTable) := by
  refine encodeAll_relabel hf mem_names_of_mem_labelTable fun i hi sub hsub target htarget => ?_
  refine Or.inr ⟨target, List.mem_flatMap.2 ⟨i, hi, ?_⟩, rfl⟩
  exact List.mem_filterMap.2 ⟨sub, hsub, htarget⟩

end Words

section Sources

/-- The error with other labels and without its places; the identity takes only the places
away. -/
def AssemblyError.relabel (f : String → String) : AssemblyError → AssemblyError
  | lex error => .lex error.unlocated
  | parse error => .parse (error.relabel (ParseError.rename f))
  | label error => .label (error.relabel (LabelError.relabel f))
  | conflict error => .conflict error.unlocated

def Failure.relabel (f : String → String) : Failure → Failure
  | errors list => .errors (list.map (AssemblyError.relabel f))
  | defect cause => .defect cause

/-- The same words, and the label table with other names. -/
def Assembly.rename (f : String → String) (asm : Assembly) : Assembly :=
  ⟨asm.words, asm.labels.rename f⟩

/-- What a program is assembled to. -/
def Program.assembled (p : Program) : Except Failure Assembly :=
  match p.resolve with
  | .error errors => .error (.errors (errors.map .label))
  | .ok labels =>
      match p.emit labels with
      | .error fault => .error (.ofFault fault)
      | .ok words => .ok ⟨words, labels⟩

theorem assemble_eq_assembled
    (s : Source) :
    s.assemble =
      match s.program with
      | .error error => .error (.errors [error])
      | .ok p => p.assembled := by
  unfold Source.assemble Source.resolved Program.assembled
  cases s.program with
  | error error => rfl
  | ok p =>
      simp only
      cases p.resolve <;> rfl

/-- **Programs are assembled naturally**, if different names stay different. -/
theorem assembled_relabel
    {p : Program}
    (hf : Set.InjOn f p.names) :
    (p.relabel f).assembled =
      mapResult (Failure.relabel f) (Assembly.rename f) p.assembled := by
  rw [Program.assembled, resolve_relabel hf, Program.assembled]
  cases hresolve : p.resolve with
  | error errors =>
      simp only [mapResult, Failure.relabel, List.map_map]
      rfl
  | ok labels =>
      obtain ⟨-, -, -, rfl⟩ := Program.resolve_eq_ok_iff_errors.1 hresolve
      simp only [mapResult, emit_relabel hf]
      cases p.emit p.labelTable with
      | ok words => rfl
      | error fault => cases fault <;> rfl

variable {s s' : Source} {ts ts' : List (Located Token)}

/-- The relabelled program of a source is the program of its relabelled tokens. -/
theorem program_relabel
    (hts : s.tokens = .ok ts)
    (f : String → String) :
    mapResult (AssemblyError.relabel f) (Program.relabel f) s.program =
      mapResult .parse (fun p => p)
        (Program.ofTokens (ts.map (Located.relabel (Token.rename f))) (.point .start)) := by
  rw [ofTokens_relabel f ts (.point .start)]
  simp only [Source.program, hts]
  cases Program.ofTokens ts (.point .start) <;> rfl

theorem injOn_names_of_program
    {p : Program}
    (hts : s.tokens = .ok ts)
    (hp : s.program = .ok p)
    (hf : Set.InjOn f (labelNames ts)) :
    Set.InjOn f p.names := by
  obtain ⟨us, hus, hparsed⟩ := program_eq_ok_iff.1 hp
  rw [hts] at hus
  cases hus
  exact hf.mono fun name hname => mem_labelNames_of_ofTokens hparsed hname

/-- **Sources whose tokens differ in the names of labels only are assembled alike**, up to
places and labels, if different names stay different. -/
theorem assemble_of_renamed_tokens
    (hts : s.tokens = .ok ts)
    (hts' : s'.tokens = .ok ts')
    (hvalues : ts'.map Located.value = ts.map fun t => t.value.rename f)
    (hf : Set.InjOn f (labelNames ts)) :
    mapResult (Failure.relabel id) (Assembly.rename id) s'.assemble =
      mapResult (Failure.relabel f) (Assembly.rename f) s.assemble := by
  have htokens : ts'.map (Located.relabel (Token.rename id)) =
      ts.map (Located.relabel (Token.rename f)) := by
    have hid : Token.rename id = fun t => t := funext Token.rename_id
    have hplaced := congrArg (List.map fun t => Located.mk t (.point .start)) hvalues
    rw [List.map_map, List.map_map] at hplaced
    rw [hid]
    exact hplaced
  have hprogram := (program_relabel hts' id).trans (htokens ▸ (program_relabel hts f).symm)
  rw [assemble_eq_assembled, assemble_eq_assembled]
  cases hp : s.program with
  | error e =>
      cases hp' : s'.program with
      | error e' =>
          rw [hp, hp'] at hprogram
          exact congrArg (fun e => Except.error (Failure.errors [e])) (Except.error.inj hprogram)
      | ok p' =>
          rw [hp, hp'] at hprogram
          cases hprogram
  | ok p =>
      cases hp' : s'.program with
      | error e' =>
          rw [hp, hp'] at hprogram
          cases hprogram
      | ok p' =>
          rw [hp, hp'] at hprogram
          have hsame : p'.relabel id = p.relabel f := Except.ok.inj hprogram
          have hleft := assembled_relabel (injOn_names_of_program hts' hp' (Set.injOn_id _))
          have hright := assembled_relabel (injOn_names_of_program hts hp hf)
          exact hleft.symm.trans ((congrArg Program.assembled hsame).trans hright)

/-- **Label names are symbolic.**  If every label of a source without lexical errors gets
another name, and different labels get different names, then the new text has the same
tokens with the new names.  If the source is assembled, so is the new text, to the same
words and to the same label table with the new names.  Otherwise both report the same
errors in the same order, up to places and with the new names. -/
theorem assemble_renamed
    (s : Source)
    (f : String → String)
    (ts : List (Located Token))
    (hts : s.tokens = .ok ts)
    (hnames : ∀ name ∈ labelNames ts, IsName (f name))
    (hf : Set.InjOn f (labelNames ts)) :
    (∃ ts', (s.renamed f).tokens = .ok ts' ∧
      ts'.map Located.value = ts.map fun t => t.value.rename f) ∧
    ((∃ asm, s.assemble = .ok asm ∧
        (s.renamed f).assemble = .ok ⟨asm.words, asm.labels.rename f⟩) ∨
      ∃ errors errors', s.assemble = .error (.errors errors) ∧
        (s.renamed f).assemble = .error (.errors errors') ∧
        errors'.map (AssemblyError.relabel id) = errors.map (AssemblyError.relabel f)) := by
  obtain ⟨ts', hts', hvalues⟩ := tokens_renamed hts hnames
  refine ⟨⟨ts', hts', hvalues⟩, ?_⟩
  have hsame := assemble_of_renamed_tokens hts hts' hvalues hf
  rcases assemble_cases s with ⟨asm, hasm⟩ | ⟨errors, -, herrors⟩
  · refine Or.inl ⟨asm, hasm, ?_⟩
    rw [hasm] at hsame
    cases hasm' : (s.renamed f).assemble with
    | error failure =>
        rw [hasm'] at hsame
        cases hsame
    | ok asm' =>
        rw [hasm'] at hsame
        have hequal : Assembly.rename id asm' = asm.rename f := Except.ok.inj hsame
        simp only [Assembly.rename, LabelTable.rename, id, List.map_id'] at hequal
        exact congrArg _ hequal
  · rw [herrors] at hsame
    rcases assemble_cases (s.renamed f) with ⟨asm', hasm'⟩ | ⟨errors', -, herrors'⟩
    · rw [hasm'] at hsame
      cases hsame
    · rw [herrors'] at hsame
      refine Or.inr ⟨errors, errors', herrors, herrors', ?_⟩
      exact Failure.errors.inj (Except.error.inj hsame)

/-- The labels of a loop are renamed to the name of a register and to the name that the
first of them had. -/
theorem assemble_renamed_register :
    let s : Source := ⟨"loop", "go:rd;\r\n7:goto go;"⟩
    let f : String → String := fun name => if name = "go" then "pc" else "go"
    ∃ ts, s.tokens = .ok ts ∧ (∀ name ∈ labelNames ts, IsName (f name)) ∧
      Set.InjOn f (labelNames ts) ∧ (s.renamed f).text = "pc:rd;\r\ngo:goto pc;" ∧
      s.assemble = .ok ⟨[⟨0x00400000⟩, ⟨0x60000000⟩], ⟨[("go", 0), ("7", 1)]⟩⟩ ∧
      (s.renamed f).assemble = .ok ⟨[⟨0x00400000⟩, ⟨0x60000000⟩], ⟨[("pc", 0), ("go", 1)]⟩⟩ := by
  intro s f
  let ts : List (Located Token) := [⟨.label "go", ⟨⟨1, 1⟩, ⟨1, 2⟩⟩⟩, ⟨.colon, .point ⟨1, 3⟩⟩,
    ⟨.keyword .rd, ⟨⟨1, 4⟩, ⟨1, 5⟩⟩⟩, ⟨.semicolon, .point ⟨1, 6⟩⟩, ⟨.newline, .point ⟨1, 7⟩⟩,
    ⟨.label "7", .point ⟨2, 1⟩⟩, ⟨.colon, .point ⟨2, 2⟩⟩, ⟨.keyword .goto, ⟨⟨2, 3⟩, ⟨2, 6⟩⟩⟩,
    ⟨.label "go", ⟨⟨2, 8⟩, ⟨2, 9⟩⟩⟩, ⟨.semicolon, .point ⟨2, 10⟩⟩, ⟨.newline, .point ⟨2, 11⟩⟩]
  have hts : s.tokens = .ok ts := by decide +kernel
  have htext : (s.renamed f).text = "pc:rd;\r\ngo:goto pc;" := by
    rw [Source.renamed, (tokens_eq_ok_iff.1 hts).2]
    decide +kernel
  have hasm : s.assemble = .ok ⟨[⟨0x00400000⟩, ⟨0x60000000⟩], ⟨[("go", 0), ("7", 1)]⟩⟩ := by
    simp only [Source.assemble, Source.resolved, Source.program, hts]
    decide +kernel
  have hlabels : ∀ name ∈ labelNames ts, name = "go" ∨ name = "7" := by
    rintro name ⟨t, ht, hname⟩
    have hmem : name = "go" ∨ name = "7" ∨ name = "go" := by
      simpa [ts, hname] using List.mem_map_of_mem (f := Located.value) ht
    tauto
  have hnames : ∀ name ∈ labelNames ts, IsName (f name) := by
    have hword : ∀ word ∈ ["pc", "go"], IsName word := by
      simp [IsName]
      decide
    intro name hname
    rcases hlabels name hname with rfl | rfl
    · exact hword _ (by decide)
    · exact hword _ (by decide)
  have hf : Set.InjOn f (labelNames ts) := by
    intro a ha b hb
    rcases hlabels a ha with rfl | rfl <;> rcases hlabels b hb with rfl | rfl <;> decide
  have hentries : LabelTable.rename f ⟨[("go", 0), ("7", 1)]⟩ = ⟨[("pc", 0), ("go", 1)]⟩ := by
    decide
  obtain ⟨-, ⟨asm, hasm', hrenamed⟩ | ⟨errors, -, herrors, -⟩⟩ :=
    assemble_renamed s f ts hts hnames hf
  · rw [hasm] at hasm'
    cases hasm'
    rw [hentries] at hrenamed
    exact ⟨ts, hts, hnames, hf, htext, hasm, hrenamed⟩
  · rw [hasm] at herrors
    cases herrors

end Sources

end Microcode
