import Microcode.Trace
import Microcode.Proofs.Encoding.Branches
import Microcode.Proofs.Resources.Runs

/-!
# The events of an assembly tell what it does

**Input.**  A source, assembled or not.

**Algorithm.**  The events are found by a walk of their own over the claims, the
sub-instructions and the instructions.  Each step of this walk is a step of the
encoding, so the walk stops where the encoding does.

**Results.**
* `mem_claimEvents_iff`: an exchange is reported exactly if an addition is refused
  as it stands and granted with its registers exchanged.
* `mem_eventsFrom_iff`: the events of an instruction are those of the claims that
  its encoding makes, each in the cycle that it is made in.
* `packed_instructionEvents` and `packed_instructionEvents_of_error`: the words
  that are reported are those of the instructions before the first fault.
* `packed_trace`: the words that are reported for a source are its words, with their
  numbers, or those before the first fault.
* `emitted_mem_trace_iff`: the end of an assembly is reported exactly if there is
  one, with the number of its words.
-/

namespace Microcode

/-- The word that is reported, and its address. -/
def Event.packed? : Event → Option (Nat × ControlWord)
  | packed address word => some (address, word)
  | _ => none

section Claims

variable {s : Resources} {c : Claim} {cs : List Claim} {e : Event} {left right : Register}

/-- Two registers can be added as they stand. -/
theorem routeBoth_granted_iff :
    (s.routeBoth left right).2 = none ↔
      (left.isReadable = true ∧ s.Admits (.onA left)) ∧
        (right.isReadable = true ∧ right ≠ .mbr) ∧ s.Admits (.onB right) := by
  simp only [Resources.routeBoth_snd_eq_none_iff, List.forall_mem_cons, List.not_mem_nil,
    false_imp_iff, implies_true, and_true, Use.Permitted]

theorem mustCommute_iff :
    s.mustCommute left right = true ↔
      ¬ (s.Admits (.onA left) ∧ s.Admits (.onB right)) ∧
        s.Admits (.onA right) ∧ s.Admits (.onB left) := by
  simp only [Resources.mustCommute, Resources.Admits, Bool.and_eq_true, Bool.not_eq_true',
    ← Bool.not_eq_true]

/-- An exchange is reported exactly if two registers cannot be added as they stand, but
can be added in the other order, and `mbr` does not settle their order. -/
theorem mem_claimEvents_iff :
    e ∈ s.claimEvents c ↔
      ∃ left right, c = .add left right ∧ e = .commuted left right ∧ right ≠ .mbr ∧
        (s.routeBoth left right).2 ≠ none ∧ (s.routeBoth right left).2 = none := by
  constructor
  · intro h
    cases c with
    | add left right =>
        simp only [Resources.claimEvents, List.mem_ite_nil_right, Bool.and_eq_true, bne_iff_ne,
          List.mem_singleton] at h
        obtain ⟨⟨⟨⟨⟨hleft, hright⟩, hmbr⟩, hmbr'⟩, hcommute⟩, rfl⟩ := h
        obtain ⟨hdirect, hA, hB⟩ := mustCommute_iff.1 hcommute
        refine ⟨left, right, rfl, rfl, hmbr', fun hnone => hdirect ?_,
          routeBoth_granted_iff.2 ⟨⟨hright, hA⟩, ⟨hleft, hmbr⟩, hB⟩⟩
        obtain ⟨⟨-, hA'⟩, -, hB'⟩ := routeBoth_granted_iff.1 hnone
        exact ⟨hA', hB'⟩
    | _ => cases h
  · rintro ⟨left, right, rfl, rfl, hmbr', hrefused, hgranted⟩
    obtain ⟨⟨hright, hA⟩, ⟨hleft, hmbr⟩, hB⟩ := routeBoth_granted_iff.1 hgranted
    have hcommute : s.mustCommute left right = true := by
      refine mustCommute_iff.2 ⟨fun hdirect => hrefused ?_, hA, hB⟩
      exact routeBoth_granted_iff.2 ⟨⟨hleft, hdirect.1⟩, ⟨hright, hmbr'⟩, hdirect.2⟩
    simp only [Resources.claimEvents, List.mem_ite_nil_right, Bool.and_eq_true, bne_iff_ne,
      List.mem_singleton]
    exact ⟨⟨⟨⟨⟨hleft, hright⟩, hmbr⟩, hmbr'⟩, hcommute⟩, trivial⟩

theorem mem_claimsEvents_iff :
    e ∈ s.claimsEvents cs ↔
      ∃ before c after t, cs = before ++ c :: after ∧ s.claimAll before = .ok t ∧
        e ∈ t.claimEvents c := by
  induction cs generalizing s with
  | nil =>
      simp [Resources.claimsEvents]
  | cons c cs ih =>
      rw [Resources.claimsEvents, List.mem_append]
      constructor
      · rintro (h | h)
        · exact ⟨[], c, cs, s, rfl, rfl, h⟩
        · split at h
          · next s' hclaim =>
              obtain ⟨before, d, after, t, rfl, hall, hd⟩ := ih.1 h
              refine ⟨c :: before, d, after, t, rfl, ?_, hd⟩
              rw [Resources.claimAll, hclaim]
              exact hall
          · cases h
      · rintro ⟨before, d, after, t, hcs, hall, hd⟩
        cases before with
        | nil =>
            cases hcs
            cases hall
            exact Or.inl hd
        | cons b before =>
            cases hcs
            refine Or.inr ?_
            rw [Resources.claimAll] at hall
            revert hall
            cases s.claim c with
            | error conflict =>
                intro hall
                cases hall
            | ok s' =>
                intro hall
                exact ih.2 ⟨before, d, after, t, rfl, hall, hd⟩

end Claims

section Instructions

variable {labels : LabelTable} {s t : Resources} {c : Claim} {e : Event}
  {subs : List (Located Subinstruction)} {is : List Instruction}

/-- The encoding of sub-instructions makes a claim in a cycle. -/
inductive MakesClaim (labels : LabelTable) :
    Resources → List (Located Subinstruction) → Resources → Claim → Prop
  | within {s t : Resources} {sub : Located Subinstruction} {cs ds : List Claim} {c : Claim}
      {subs : List (Located Subinstruction)} :
      Subinstruction.demand labels sub = .ok (.claims (cs ++ c :: ds)) →
      s.claimAll cs = .ok t → MakesClaim labels s (sub :: subs) t c
  | next {s s' t : Resources} {sub : Located Subinstruction} {cs : List Claim} {c : Claim}
      {subs : List (Located Subinstruction)} :
      Subinstruction.demand labels sub = .ok (.claims cs) →
      s.claimAll cs = .ok s' → MakesClaim labels s' subs t c →
      MakesClaim labels s (sub :: subs) t c

/-- A claim is made in a cycle that the encoding passes through. -/
theorem MakesClaim.encodes
    (h : MakesClaim labels s subs t c) :
    Encodes labels s subs t := by
  induction h with
  | within hdemand hall => exact .within hdemand hall
  | next hdemand hall _ ih => exact .next hdemand hall ih

theorem mem_eventsFrom_iff :
    e ∈ eventsFrom labels s subs ↔ ∃ t c, MakesClaim labels s subs t c ∧ e ∈ t.claimEvents c := by
  induction subs generalizing s with
  | nil =>
      constructor
      · intro h
        cases h
      · rintro ⟨t, c, hmakes, -⟩
        cases hmakes
  | cons sub subs ih =>
      rw [eventsFrom]
      constructor
      · intro h
        split at h
        · next claims hdemand =>
            rcases List.mem_append.1 h with h | h
            · obtain ⟨before, c, after, t, rfl, hall, hc⟩ := mem_claimsEvents_iff.1 h
              exact ⟨t, c, .within hdemand hall, hc⟩
            · split at h
              · next s' hall =>
                  obtain ⟨t, c, hmakes, hc⟩ := ih.1 h
                  exact ⟨t, c, .next hdemand hall hmakes, hc⟩
              · cases h
        · cases h
      · rintro ⟨t, c, hmakes, hc⟩
        cases hmakes with
        | within hdemand hall =>
            rw [hdemand]
            exact List.mem_append_left _ (mem_claimsEvents_iff.2 ⟨_, c, _, t, rfl, hall, hc⟩)
        | next hdemand hall hmakes =>
            simp only [hdemand, hall]
            exact List.mem_append_right _ (ih.2 ⟨t, c, hmakes, hc⟩)

/-- No word is reported before the instruction is encoded. -/
theorem packed_eventsFrom :
    (eventsFrom labels s subs).filterMap Event.packed? = [] := by
  refine List.filterMap_eq_nil_iff.2 fun e he => ?_
  obtain ⟨t, c, -, hc⟩ := mem_eventsFrom_iff.1 he
  obtain ⟨left, right, -, rfl, -⟩ := mem_claimEvents_iff.1 hc
  rfl

/-- Whatever is reported for instructions belongs to a single one of them. -/
theorem isDetail_of_mem_instructionEvents
    (h : e ∈ instructionEvents labels is) :
    e.isDetail = true := by
  induction is with
  | nil =>
      cases h
  | cons i is ih =>
      rw [instructionEvents, List.mem_append] at h
      rcases h with h | h
      · obtain ⟨t, c, -, hc⟩ := mem_eventsFrom_iff.1 h
        obtain ⟨left, right, -, rfl, -⟩ := mem_claimEvents_iff.1 hc
        rfl
      · split at h
        · rcases List.mem_cons.1 h with rfl | h
          · rfl
          · exact ih h
        · cases h

/-- If every instruction has a word, these words are reported at their addresses. -/
theorem packed_instructionEvents
    {words : List ControlWord}
    (h : encodeAll labels is = .ok words) :
    (instructionEvents labels is).filterMap Event.packed? =
      (is.map Instruction.address).zip words := by
  induction is generalizing words with
  | nil =>
      rfl
  | cons i is ih =>
      obtain ⟨word, rest, hi, hrest, rfl⟩ := encodeAll_cons_eq_ok_iff.1 h
      rw [instructionEvents, List.filterMap_append, packed_eventsFrom, hi]
      show _ :: (instructionEvents labels is).filterMap Event.packed? = _
      rw [ih hrest]
      rfl

/-- The events of instructions whose words exist come before those of the others. -/
theorem instructionEvents_append
    {words : List ControlWord}
    (h : encodeAll labels is = .ok words)
    (js : List Instruction) :
    instructionEvents labels (is ++ js) =
      instructionEvents labels is ++ instructionEvents labels js := by
  induction is generalizing words with
  | nil =>
      rfl
  | cons i is ih =>
      obtain ⟨word, rest, hi, hrest, rfl⟩ := encodeAll_cons_eq_ok_iff.1 h
      simp only [List.cons_append, instructionEvents, hi, ih hrest, List.append_assoc]

/-- If some instruction has no word, the words before the first such one are reported. -/
theorem packed_instructionEvents_of_error
    {fault : Fault}
    (h : encodeAll labels is = .error fault) :
    ∃ above i below words, is = above ++ i :: below ∧ encodeAll labels above = .ok words ∧
      i.encode labels = .error fault ∧
      (instructionEvents labels is).filterMap Event.packed? =
        (above.map Instruction.address).zip words := by
  obtain ⟨above, i, below, words, rfl, habove, hi⟩ := exists_faulty_of_encodeAll h
  refine ⟨above, i, below, words, rfl, habove, hi, ?_⟩
  rw [instructionEvents_append habove, List.filterMap_append, packed_instructionEvents habove,
    instructionEvents, hi, List.append_nil, packed_eventsFrom, List.append_nil]

end Instructions

section Sources

variable {s : Source} {p : Program} {labels : LabelTable}

/-- The events of a source whose labels are resolved. -/
theorem trace_of_resolved
    (h : s.resolved = .ok (p, labels)) :
    ∃ tokens, s.tokens = .ok tokens ∧
      s.trace = .lexed tokens.length :: .parsed p.instructions.length ::
        .resolved labels.entries.length :: p.emitEvents labels := by
  obtain ⟨hp, hlabels⟩ := resolved_eq_ok_iff.1 h
  obtain ⟨tokens, htokens, hparsed⟩ := program_eq_ok_iff.1 hp
  refine ⟨tokens, htokens, ?_⟩
  simp only [Source.trace, htokens, hparsed, hlabels]

/-- Before the labels are resolved, only sizes of earlier stages are reported. -/
theorem trace_of_unresolved
    {errors : List AssemblyError}
    (h : s.resolved = .error errors) :
    ∀ e ∈ s.trace, (∃ n, e = .lexed n) ∨ ∃ n, e = .parsed n := by
  intro e he
  cases htokens : s.tokens with
  | error error =>
      simp [Source.trace, htokens] at he
  | ok tokens =>
      cases hparsed : Program.ofTokens tokens (.point .start) with
      | error error =>
          simp only [Source.trace, htokens, hparsed, List.mem_singleton] at he
          exact Or.inl ⟨_, he⟩
      | ok program =>
          cases hlabels : program.resolve with
          | error error =>
              simp only [Source.trace, htokens, hparsed, hlabels, List.mem_cons,
                List.not_mem_nil, or_false] at he
              exact he.imp (fun h => ⟨_, h⟩) (fun h => ⟨_, h⟩)
          | ok labels =>
              have hresolved : s.resolved = .ok (program, labels) :=
                resolved_eq_ok_iff.2 ⟨program_eq_ok_iff.2 ⟨tokens, htokens, hparsed⟩, hlabels⟩
              rw [h] at hresolved
              cases hresolved

/-- **The end of an assembly is reported exactly if there is one**, with the number of its
words. -/
theorem emitted_mem_trace_iff
    {n : Nat} :
    .emitted n ∈ s.trace ↔ ∃ asm, s.assemble = .ok asm ∧ n = asm.words.length := by
  constructor
  · intro h
    cases hresolved : s.resolved with
    | error errors =>
        rcases trace_of_unresolved hresolved _ h with ⟨n, hn⟩ | ⟨n, hn⟩ <;> cases hn
    | ok result =>
        obtain ⟨p, labels⟩ := result
        obtain ⟨tokens, -, htrace⟩ := trace_of_resolved hresolved
        have hemitted : .emitted n ∈ p.emitEvents labels := by
          simpa [htrace] using h
        rw [Program.emitEvents, List.mem_append] at hemitted
        rcases hemitted with hdetail | hend
        · have hfalse := isDetail_of_mem_instructionEvents hdetail
          cases hfalse
        · split at hend
          · next words hwords =>
              cases List.mem_singleton.1 hend
              exact ⟨⟨words, labels⟩, assemble_eq_ok_iff.2 ⟨p, hresolved, hwords⟩, rfl⟩
          · cases hend
  · rintro ⟨asm, hasm, rfl⟩
    obtain ⟨p, hresolved, hemit⟩ := assemble_eq_ok_iff.1 hasm
    obtain ⟨tokens, -, htrace⟩ := trace_of_resolved hresolved
    rw [htrace, Program.emitEvents, hemit]
    simp

/-- The instructions of a program stand at their numbers, also the first of them only. -/
theorem zip_addresses
    {above below : List Instruction}
    {words : List ControlWord}
    (hp : p.WellFormed)
    (hsplit : p.instructions = above ++ below)
    (hwords : encodeAll labels above = .ok words) :
    (above.map Instruction.address).zip words = words.mapIdx Prod.mk := by
  have hlength := length_of_encodeAll hwords
  refine List.ext_getElem (by simp [hlength]) fun n hn hn' => ?_
  have hlt : n < above.length := by
    simpa [hlength] using hn
  have hget : p.instructions[n]? = some above[n] := by
    rw [hsplit, List.getElem?_append_left hlt, List.getElem?_eq_getElem hlt]
  simp only [List.getElem_zip, List.getElem_map, List.getElem_mapIdx, (hp n _ hget).address_eq]

/-- The words that the encoding of a program reports are all that its events report. -/
theorem packed_trace_of_resolved
    (h : s.resolved = .ok (p, labels)) :
    s.trace.filterMap Event.packed? =
      (instructionEvents labels p.instructions).filterMap Event.packed? := by
  obtain ⟨tokens, -, htrace⟩ := trace_of_resolved h
  rw [htrace, Program.emitEvents]
  show (instructionEvents labels p.instructions ++ _).filterMap Event.packed? = _
  rw [List.filterMap_append]
  cases p.emit labels <;> exact List.append_nil _

/-- **The words that are reported are the words of the assembly.**  If a source is
assembled, its events report exactly its words, each with its number.  If an instruction
has no word, they report the words of the instructions before the first such one.  If the
program has no label table, they report no word. -/
theorem packed_trace
    (s : Source) :
    (∀ asm, s.assemble = .ok asm →
      s.trace.filterMap Event.packed? = asm.words.mapIdx Prod.mk) ∧
    (∀ p labels fault, s.resolved = .ok (p, labels) → p.emit labels = .error fault →
      ∃ above i below words, p.instructions = above ++ i :: below ∧
        encodeAll labels above = .ok words ∧ i.encode labels = .error fault ∧
        s.trace.filterMap Event.packed? = words.mapIdx Prod.mk) ∧
    ∀ errors, s.resolved = .error errors → s.trace.filterMap Event.packed? = [] := by
  refine ⟨fun asm hasm => ?_, fun p labels fault hresolved hfault => ?_, fun errors herrors => ?_⟩
  · obtain ⟨p, hresolved, hemit⟩ := assemble_eq_ok_iff.1 hasm
    have hp := wellFormed_of_program (resolved_eq_ok_iff.1 hresolved).1
    rw [packed_trace_of_resolved hresolved, packed_instructionEvents hemit]
    exact zip_addresses hp (List.append_nil _).symm hemit
  · obtain ⟨above, i, below, words, hsplit, habove, hi, hpacked⟩ :=
      packed_instructionEvents_of_error hfault
    have hp := wellFormed_of_program (resolved_eq_ok_iff.1 hresolved).1
    refine ⟨above, i, below, words, hsplit, habove, hi, ?_⟩
    rw [packed_trace_of_resolved hresolved, hpacked]
    exact zip_addresses hp hsplit habove
  · refine List.filterMap_eq_nil_iff.2 fun e he => ?_
    rcases trace_of_unresolved herrors e he with ⟨n, rfl⟩ | ⟨n, rfl⟩ <;> rfl

end Sources

end Microcode
