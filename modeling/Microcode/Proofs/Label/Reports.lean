import Microcode.Proofs.Encoding.Branches

/-!
# What is reported about the labels of a program

**Input.**  A program that is read from tokens, so that every instruction has its
number as address.

**Algorithm.**  The definitions are sorted from the first to the last.  A definition
whose name is known is reported and changes nothing else; any other one is known from
then on.  What is known of a name is therefore its first definition, which is also the
one that the table holds and the jumps are checked against.

**Results.**
* `Definition.first?_sort` and `Definition.sort_snd_eq_filterMap`: the sorted
  definitions are the first ones, and the reports are those of the others.
* `Program.address?_labelTable`: the table gives a name the address of its first
  definition.
* `Program.reportsMissing_undefinedErrors`: all missing names make up one report.
* `resolve_of_ofTokens`: when labels are resolved, what the table then holds, and what
  is reported otherwise.
-/

namespace Microcode

namespace Definition

/-- The first definition of a name. -/
def first? (ds : List Definition) (name : String) : Option Definition :=
  ds.find? fun d => d.label.value == name

/-- The report of a definition whose name has an earlier one among some definitions;
it cites the first. -/
def repetition? (ds : List Definition) (d : Definition) : Option (Located LabelError) :=
  ((first? ds d.label.value).filter fun first => first.address < d.address).map fun first =>
    ⟨.duplicate d.label.value first.label.span, d.label.span⟩

theorem first?_cons
    (d : Definition)
    (ds : List Definition)
    (name : String) :
    first? (d :: ds) name = if d.label.value = name then some d else first? ds name := by
  by_cases h : d.label.value = name <;> simp [first?, h]

theorem first?_append
    (ds es : List Definition)
    (name : String) :
    first? (ds ++ es) name = (first? ds name).or (first? es name) :=
  List.find?_append

/-- The names of the sorted definitions are new, and they are found at their first
definitions. -/
theorem first?_sort
    (known ds : List Definition)
    (name : String) :
    first? (sort known ds).1 name =
      if (first? known name).isSome then none else first? ds name := by
  induction ds generalizing known with
  | nil =>
      simp [sort, first?]
  | cons d ds ih =>
      cases hfind : first? known d.label.value with
      | some first =>
          have hsort : (sort known (d :: ds)).1 = (sort known ds).1 := by
            rw [first?] at hfind
            simp only [sort, hfind]
          rw [hsort, ih, first?_cons]
          by_cases hname : d.label.value = name
          · simp [← hname, hfind]
          · simp [hname]
      | none =>
          have hsort : (sort known (d :: ds)).1 = d :: (sort (d :: known) ds).1 := by
            rw [first?] at hfind
            simp only [sort, hfind]
          rw [hsort, first?_cons, ih, first?_cons, first?_cons]
          by_cases hname : d.label.value = name
          · simp [← hname, hfind]
          · simp [hname]

/-- What is reported among definitions with increasing addresses, given that the known
definitions are the first ones of those already sorted. -/
theorem sort_snd_eq_filterMap
    {known ds : List Definition}
    (before : List Definition)
    (hknown : ∀ name, first? known name = first? before name)
    (hincreasing : (before ++ ds).Pairwise fun d e => d.address < e.address) :
    (sort known ds).2 = ds.filterMap (repetition? (before ++ ds)) := by
  induction ds generalizing known before with
  | nil =>
      rfl
  | cons d ds ih =>
      have hsplit : before ++ d :: ds = (before ++ [d]) ++ ds := by simp
      have hfirst : first? (before ++ d :: ds) d.label.value =
          (first? known d.label.value).or (some d) := by
        rw [first?_append, first?_cons, if_pos rfl, hknown]
      cases hfind : first? known d.label.value with
      | some first =>
          have hsort : (sort known (d :: ds)).2 =
              ⟨.duplicate d.label.value first.label.span, d.label.span⟩ :: (sort known ds).2 := by
            rw [first?] at hfind
            simp only [sort, hfind]
          have hlt : first.address < d.address := by
            have hmem : first ∈ before := List.mem_of_find?_eq_some ((hknown _).symm.trans hfind)
            exact (List.pairwise_append.1 hincreasing).2.2 first hmem d List.mem_cons_self
          have hrepeated : repetition? (before ++ d :: ds) d =
              some ⟨.duplicate d.label.value first.label.span, d.label.span⟩ := by
            rw [repetition?, hfirst, hfind]
            simp [hlt]
          -- A known name stays with its first definition.
          have hknown' : ∀ name, first? known name = first? (before ++ [d]) name := by
            intro name
            rw [first?_append, first?_cons, ← hknown]
            by_cases hname : d.label.value = name
            · rw [← hname, hfind, Option.some_or]
            · rw [if_neg hname]
              simp [first?]
          rw [hsort, List.filterMap_cons_some hrepeated, hsplit,
            ih _ hknown' (hsplit ▸ hincreasing)]
      | none =>
          have hsort : (sort known (d :: ds)).2 = (sort (d :: known) ds).2 := by
            rw [first?] at hfind
            simp only [sort, hfind]
          have hnew : repetition? (before ++ d :: ds) d = none := by
            rw [repetition?, hfirst, hfind]
            simp
          have hknown' : ∀ name, first? (d :: known) name = first? (before ++ [d]) name := by
            intro name
            rw [first?_append, first?_cons, first?_cons, ← hknown]
            by_cases hname : d.label.value = name
            · rw [← hname, if_pos rfl, if_pos rfl, hfind, Option.none_or]
            · rw [if_neg hname, if_neg hname]
              simp [first?]
          rw [hsort, List.filterMap_cons_none hnew, hsplit, ih _ hknown' (hsplit ▸ hincreasing)]

theorem lookup_map_entry
    (ds : List Definition)
    (name : String) :
    (ds.map entry).lookup name = (first? ds name).map Definition.address := by
  induction ds with
  | nil =>
      rfl
  | cons d ds ih =>
      rw [List.map_cons, entry, List.lookup_cons, first?_cons, ih]
      by_cases hname : name = d.label.value
      · simp [hname]
      · rw [beq_eq_false_iff_ne.2 hname, if_neg (Ne.symm hname)]

end Definition

/-- The different names of some jumps stand in the order in which they are first
jumped to. -/
theorem pairwise_eraseDups_filter
    (names : List String)
    (wanted : String → Bool) :
    (names.filter wanted).eraseDups.Pairwise fun a b => names.idxOf a < names.idxOf b := by
  induction names generalizing wanted with
  | nil =>
      simp
  | cons name names ih =>
      -- Behind the first name, the places of all other names move by one.
      have hshift : ∀ {found : List String}, name ∉ found →
          (found.Pairwise fun a b => names.idxOf a < names.idxOf b) →
          found.Pairwise fun a b => (name :: names).idxOf a < (name :: names).idxOf b := by
        intro found hname hfound
        refine hfound.imp_of_mem fun {a b} ha hb hlt => ?_
        rw [List.idxOf_cons_ne _ (by rintro rfl; exact hname ha),
          List.idxOf_cons_ne _ (by rintro rfl; exact hname hb)]
        exact Nat.succ_lt_succ hlt
      by_cases hwanted : wanted name = true
      · rw [List.filter_cons_of_pos hwanted, List.eraseDups_cons, List.filter_filter]
        refine List.pairwise_cons.2 ⟨fun other hother => ?_, hshift ?_ (ih _)⟩
        · have hne : name ≠ other := by
            rintro rfl
            simp at hother
          rw [List.idxOf_cons_self, List.idxOf_cons_ne _ hne]
          exact Nat.succ_pos _
        · simp
      · rw [List.filter_cons_of_neg hwanted]
        refine hshift ?_ (ih wanted)
        simp [hwanted]

namespace Program

variable {p : Program}

/-- The first definition of a name in a program. -/
def first? (p : Program) (name : String) : Option Definition :=
  Definition.first? p.definitions name

/-- The report of a jump to a name whose first definition does not fit. -/
def distant? (p : Program) (target : Located String) : Option (Located LabelError) :=
  ((p.first? target.value).filter fun first => 256 ≤ first.address).map fun first =>
    ⟨.outOfRange target.value first.address, target.span⟩

/-- The jumps to names without a definition are reported: not at all if there are
none, else once, at the first of them, with each name once in the order in which the
names are first jumped to. -/
def ReportsMissing (p : Program) (errors : List (Located LabelError)) : Prop :=
  match p.targets.filter fun target => (p.first? target.value).isNone with
  | [] => errors = []
  | missing :: _ =>
      ∃ names, errors = [⟨.undefined names, missing.span⟩] ∧
        (∀ name, name ∈ names ↔
          (∃ target ∈ p.targets, target.value = name) ∧ p.first? name = none) ∧
        names.Pairwise fun a b =>
          (p.targets.map Located.value).idxOf a < (p.targets.map Located.value).idxOf b

/-- The targets of a program are those of all its sub-instructions. -/
theorem mem_targets_iff
    {target : Located String} :
    target ∈ p.targets ↔
      ∃ i ∈ p.instructions, ∃ sub ∈ i.subs, sub.value.target? = some target := by
  simp only [targets, List.mem_flatMap, List.mem_filterMap]

theorem Numbered.pairwise_definitions
    (h : p.Numbered) :
    p.definitions.Pairwise fun d e => d.address < e.address := by
  have hinstructions : p.instructions.Pairwise fun i j => i.address < j.address := by
    rw [List.pairwise_iff_getElem]
    intro m n hm hn hlt
    rwa [h m _ (List.getElem?_eq_getElem hm), h n _ (List.getElem?_eq_getElem hn)]
  refine hinstructions.filterMap _ fun i j hlt d hd e he => ?_
  obtain ⟨_, -, rfl⟩ := Option.map_eq_some_iff.1 hd
  obtain ⟨_, -, rfl⟩ := Option.map_eq_some_iff.1 he
  exact hlt

/-- No name is defined twice if and only if no two instructions carry it. -/
theorem Numbered.definesOnce_iff
    (h : p.Numbered) :
    p.DefinesOnce ↔ ∀ m n name, p.Labels m name → p.Labels n name → m = n := by
  simp only [h.labels_iff]
  constructor
  · rintro honce m n name ⟨d, hd, hname, rfl⟩ ⟨e, he, hname', rfl⟩
    rw [List.inj_on_of_nodup_map honce hd he (hname.trans hname'.symm)]
  · intro hunique
    refine List.pairwise_map.2 (h.pairwise_definitions.imp_of_mem fun {d e} hd he hlt heq => ?_)
    have hsame := hunique d.address e.address _ ⟨d, hd, rfl, rfl⟩ ⟨e, he, heq.symm, rfl⟩
    omega

theorem Numbered.duplicateErrors_eq
    (h : p.Numbered) :
    p.duplicateErrors = p.definitions.filterMap (Definition.repetition? p.definitions) :=
  Definition.sort_snd_eq_filterMap [] (fun _ => rfl) h.pairwise_definitions

/-- The table gives a name the address of its first definition. -/
theorem address?_labelTable
    (name : String) :
    p.labelTable.address? name = (p.first? name).map Definition.address := by
  have hentries : p.labelTable.entries =
      (Definition.sort [] p.definitions).1.map Definition.entry := rfl
  rw [LabelTable.address?, hentries, Definition.lookup_map_entry, Definition.first?_sort]
  rfl

theorem rangeErrors_eq :
    p.rangeErrors = p.targets.filterMap p.distant? := by
  refine List.filterMap_congr fun target _ => ?_
  rw [address?_labelTable, distant?]
  cases p.first? target.value with
  | none => rfl
  | some first =>
      by_cases hfar : 256 ≤ first.address
      · simp [addressSpace, hfar]
      · simp [addressSpace, hfar, Nat.lt_of_not_le hfar]

theorem missingTargets_eq :
    p.missingTargets = p.targets.filter fun target => (p.first? target.value).isNone := by
  simp only [missingTargets, address?_labelTable, Option.isNone_map]

theorem errors_of_resolve
    {errors : List (Located LabelError)}
    (h : p.resolve = .error errors) :
    errors ≠ [] ∧ errors = p.duplicateErrors ++ p.rangeErrors ++ p.undefinedErrors := by
  unfold resolve at h
  split at h
  · cases h
  · next hne =>
      cases h
      exact ⟨hne, rfl⟩

/-- All missing names make up one report. -/
theorem reportsMissing_undefinedErrors :
    p.ReportsMissing p.undefinedErrors := by
  rw [ReportsMissing, ← missingTargets_eq]
  cases hmissing : p.missingTargets with
  | nil =>
      simp [undefinedErrors, hmissing]
  | cons missing others =>
      -- The names of the missing jumps are the missing ones among all names.
      have hnames : (missing :: others).map Located.value =
          (p.targets.map Located.value).filter fun name => (p.first? name).isNone := by
        rw [← hmissing, missingTargets_eq, List.filter_map]
        rfl
      refine ⟨((missing :: others).map Located.value).eraseDups, ?_, fun name => ?_, ?_⟩
      · simp only [undefinedErrors, hmissing]
      · rw [List.mem_eraseDups, hnames, List.mem_filter, List.mem_map, Option.isNone_iff_eq_none]
      · rw [hnames]
        exact pairwise_eraseDups_filter _ _

end Program

section Reading

open Grammar

theorem Grammar.Lines.address_of_getElem?
    (lines : Lines)
    {address n : Nat}
    {i : Instruction}
    (h : (lines.instructions address)[n]? = some i) :
    i.address = address + n := by
  induction lines generalizing address n with
  | done =>
      cases h
  | last line =>
      cases n with
      | zero =>
          cases h
          rfl
      | succ n =>
          cases h
  | ended line newline more rest ih =>
      cases n with
      | zero =>
          cases h
          rfl
      | succ n =>
          rw [ih h]
          omega

/-- The instructions of a program that is read have their numbers as addresses. -/
theorem numbered_of_ofTokens
    {tokens : List (Located Token)}
    {start : Span}
    {p : Program}
    (h : Program.ofTokens tokens start = .ok p) :
    p.Numbered := by
  obtain ⟨tree, -, rfl⟩ := ofTokens_eq_ok_iff.1 h
  intro n i hi
  rw [tree.lines.address_of_getElem? hi, Nat.zero_add]

/-- **Labels are resolved exactly.**  In a program that is read, every instruction has its
number as address, and labels are resolved if and only if no two instructions carry the
same one and every target, of any sub-instruction, is carried by an instruction with a
number below 256.

The table then lists the labels of the instructions that have one with their addresses,
which increase, and finds every label at the instruction that carries it and no other
name.

Otherwise one report is made for each definition of a name that an earlier instruction
carries, at that definition, with the place of the first one; then one for each jump to
a name whose first definition does not fit, in the order of the jumps; then one for all
names without a definition. -/
theorem resolve_of_ofTokens
    (tokens : List (Located Token))
    (start : Span)
    (p : Program)
    (hp : Program.ofTokens tokens start = .ok p) :
    p.Numbered ∧
    ((∃ t, p.resolve = .ok t) ↔
      (∀ m n name, p.Labels m name → p.Labels n name → m = n) ∧
      ∀ i ∈ p.instructions, ∀ sub ∈ i.subs, ∀ target, sub.value.target? = some target →
        ∃ n < 256, p.Labels n target.value) ∧
    (∀ t, p.resolve = .ok t →
      t.entries = (p.instructions.filterMap fun i =>
        i.label.map fun label => (label.value, i.address)) ∧
      (t.entries.map Prod.snd).Pairwise (· < ·) ∧
      t.entries.length = p.instructions.countP (fun i => i.label.isSome) ∧
      (∀ name n, t.address? name = some n ↔ p.Labels n name) ∧
      ∀ name, t.address? name = none ↔ ∀ n, ¬ p.Labels n name) ∧
    ∀ errors, p.resolve = .error errors →
      errors ≠ [] ∧
      ∃ missing, p.ReportsMissing missing ∧
        errors = p.definitions.filterMap (Definition.repetition? p.definitions) ++
          p.targets.filterMap p.distant? ++ missing := by
  have hnumbered := numbered_of_ofTokens hp
  refine ⟨hnumbered, ?_, fun t ht => ?_, fun errors herrors => ?_⟩
  · rw [← hnumbered.definesOnce_iff]
    simp only [Program.resolve_eq_ok_iff, Program.mem_targets_iff, hnumbered.labels_iff]
    constructor
    · rintro ⟨t, honce, hdefined, -⟩
      refine ⟨honce, fun i hi sub hsub target htarget => ?_⟩
      obtain ⟨d, hd, hname, hlt⟩ := hdefined target ⟨i, hi, sub, hsub, htarget⟩
      exact ⟨d.address, hlt, d, hd, hname, rfl⟩
    · rintro ⟨honce, hdefined⟩
      refine ⟨⟨p.definitions.map Definition.entry⟩, honce, ?_, rfl⟩
      rintro target ⟨i, hi, sub, hsub, htarget⟩
      obtain ⟨_, hlt, d, hd, hname, rfl⟩ := hdefined i hi sub hsub target htarget
      exact ⟨d, hd, hname, hlt⟩
  · have hentries := (Program.resolve_eq_ok_iff.1 ht).2.2
    have honce := (Program.resolve_eq_ok_iff.1 ht).1
    obtain ⟨-, -, -, rfl⟩ := Program.resolve_eq_ok_iff_errors.1 ht
    have hfound : ∀ name n, p.labelTable.address? name = some n ↔ p.Labels n name := by
      intro name n
      rw [Program.address?_eq_some_iff honce, hnumbered.labels_iff]
    refine ⟨?_, ?_, ?_, hfound, fun name => ?_⟩
    · rw [hentries, Program.definitions, List.map_filterMap]
      simp only [Option.map_map]
      rfl
    · rw [hentries, List.map_map, List.pairwise_map]
      exact hnumbered.pairwise_definitions
    · rw [hentries, List.length_map, Program.definitions, List.length_filterMap_eq_countP]
      simp only [Option.isSome_map]
    · simp only [← hfound, Option.eq_none_iff_forall_ne_some]
  · obtain ⟨hne, rfl⟩ := Program.errors_of_resolve herrors
    refine ⟨hne, p.undefinedErrors, Program.reportsMissing_undefinedErrors, ?_⟩
    rw [hnumbered.duplicateErrors_eq, Program.rangeErrors_eq]

/-- The lines `a: goto b;` and `a: rd;` are read, but both carry the label `a`. -/
theorem resolve_of_ofTokens_repeated :
    ∃ p, Program.ofTokens
        [⟨.label "a", .point ⟨1, 1⟩⟩, ⟨.colon, .point ⟨1, 2⟩⟩,
          ⟨.keyword .goto, ⟨⟨1, 4⟩, ⟨1, 7⟩⟩⟩, ⟨.label "b", .point ⟨1, 9⟩⟩,
          ⟨.semicolon, .point ⟨1, 10⟩⟩, ⟨.newline, .point ⟨1, 11⟩⟩,
          ⟨.label "a", .point ⟨2, 1⟩⟩, ⟨.colon, .point ⟨2, 2⟩⟩,
          ⟨.keyword .rd, ⟨⟨2, 4⟩, ⟨2, 5⟩⟩⟩, ⟨.semicolon, .point ⟨2, 6⟩⟩]
        (.point .start) = .ok p ∧
      p.Labels 0 "a" ∧ p.Labels 1 "a" ∧ ∀ t, p.resolve ≠ .ok t := by
  let first : Line :=
    ⟨some (⟨"a", .point ⟨1, 1⟩⟩, .point ⟨1, 2⟩),
      [(.goto ⟨⟨1, 4⟩, ⟨1, 7⟩⟩ ⟨"b", .point ⟨1, 9⟩⟩, .point ⟨1, 10⟩)], by simp, by decide⟩
  let second : Line :=
    ⟨some (⟨"a", .point ⟨2, 1⟩⟩, .point ⟨2, 2⟩),
      [(.read ⟨⟨2, 4⟩, ⟨2, 5⟩⟩, .point ⟨2, 6⟩)], by simp, by decide⟩
  let tree : Derivation := ⟨[], .ended first (.point ⟨1, 11⟩) [] (.last second)⟩
  have hp : Program.ofTokens tree.tokens (.point .start) = .ok tree.program :=
    ofTokens_eq_ok_iff.2 ⟨tree, rfl, rfl⟩
  have hzero : tree.program.Labels 0 "a" := ⟨_, rfl, rfl⟩
  have hone : tree.program.Labels 1 "a" := ⟨_, rfl, rfl⟩
  refine ⟨tree.program, hp, hzero, hone, fun t ht => ?_⟩
  have hunique := ((resolve_of_ofTokens _ _ _ hp).2.1.1 ⟨t, ht⟩).1
  exact absurd (hunique 0 1 "a" hzero hone) (by decide)

end Reading

end Microcode
