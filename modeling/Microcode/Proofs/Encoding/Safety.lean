import Microcode.Assembly
import Microcode.Proofs.DataPath
import Microcode.Proofs.Label.Resolution
import Microcode.Proofs.Source.Lines

/-!
# No source leads to a defect

A defect is a jump whose target the label table lacks, or a field that does not
fit.  The claims of sub-instructions never put `mar` on the C bus, and no claim
puts a register without a number of four bits on a bus.  This holds of a fresh
cycle and is kept by every claim, so every cycle that an encoding passes through
can be packed.  The jumps are those that the resolution of labels has checked.

**Results.**
* `sound_of_claim` and `Encodes.sound`: one claim, and a whole encoding, keep
  cycles packable.
* `defect_of_emit`: an encoding with any label table goes wrong only at a jump in
  front of which no `halt` stands and whose target the table lacks.
* `assemble_safe`: every source is assembled or reported.
-/

namespace Microcode

/-- The register on the A bus; `mbr` enters through the multiplexer instead. -/
def Resources.busA (s : Resources) : Option Register :=
  if s.a = some .mbr then none else s.a

/-- Whether a register has a number that the bus fields can hold. -/
def Register.OnBuses (r : Register) : Prop :=
  r ≠ .mar ∧ r ≠ .mbr ∧ r ≠ .alu

/-- A cycle that claims only what the data path permits, and never the C bus for
`mar`. -/
structure Resources.Sound (s : Resources) : Prop where
  permitted : ∀ u, s.Has u → u.Permitted
  not_mar : ¬ s.Has (.onC .mar)

section Packing

theorem Register.index_lt
    {r : Register}
    (h : r.OnBuses) :
    r.index < 16 := by
  revert h
  cases r <;> simp [Register.OnBuses, Register.index]

/-- What can be read has a number, `mbr` apart. -/
theorem Register.onBuses_of_isReadable
    {r : Register}
    (hread : r.isReadable = true)
    (hmbr : r ≠ .mbr) :
    r.OnBuses := by
  refine ⟨?_, hmbr, ?_⟩
  · rintro rfl
    cases hread
  · rintro rfl
    cases hread

theorem busCode_lt
    {bus : Option Register}
    (h : ∀ r, bus = some r → r.OnBuses) :
    (Resources.busCode bus).toNat < 16 := by
  cases bus with
  | none =>
      decide
  | some r =>
      have hlt := Register.index_lt (h r rfl)
      rw [Resources.busCode, UInt8.toNat_ofNat']
      omega

theorem lineCode_lt
    (line : Bool) :
    (Resources.lineCode line).toNat < 2 := by
  cases line <;> decide

variable {s : Resources}

theorem Resources.Sound.onBuses_a
    (h : s.Sound)
    {r : Register}
    (hr : s.busA = some r) :
    r.OnBuses := by
  unfold Resources.busA at hr
  split at hr
  · cases hr
  · next hmbr =>
      refine Register.onBuses_of_isReadable (h.permitted (.onA r) hr) ?_
      rintro rfl
      exact hmbr hr

theorem Resources.Sound.onBuses_b
    (h : s.Sound)
    {r : Register}
    (hr : s.b = some r) :
    r.OnBuses := by
  obtain ⟨hread, hmbr⟩ : r.isReadable = true ∧ r ≠ .mbr := h.permitted (.onB r) hr
  exact Register.onBuses_of_isReadable hread hmbr

theorem Resources.Sound.onBuses_c
    (h : s.Sound)
    {r : Register}
    (hr : s.c = some r) :
    r.OnBuses := by
  obtain ⟨-, hmbr, halu⟩ : r.isMutable = true ∧ r ≠ .mbr ∧ r ≠ .alu := h.permitted (.onC r) hr
  refine ⟨?_, hmbr, halu⟩
  rintro rfl
  exact h.not_mar hr

theorem fields_a
    (s : Resources) :
    s.fields .a = Resources.busCode s.busA := by
  simp only [Resources.fields, Resources.busA]
  split <;> rfl

/-- The fields of a sound cycle fit. -/
theorem Resources.Sound.fits
    (h : s.Sound)
    (f : Field) :
    (s.fields f).toNat < f.capacity := by
  cases f with
  | amux => exact lineCode_lt _
  | cond =>
      simp only [Resources.fields]
      cases s.branch with
      | none => decide
      | some p =>
          obtain ⟨jump, address⟩ := p
          show jump.code.toNat < 4
          cases jump <;> decide
  | alu =>
      simp only [Resources.fields]
      cases s.alu with
      | none => decide
      | some op => cases op <;> decide
  | sh =>
      simp only [Resources.fields]
      cases s.shifter with
      | none => decide
      | some op => cases op <;> decide
  | mbr => exact lineCode_lt _
  | mar => exact lineCode_lt _
  | rd => exact lineCode_lt _
  | wr => exact lineCode_lt _
  | enc => exact lineCode_lt _
  | c => exact busCode_lt fun r hr => h.onBuses_c hr
  | b => exact busCode_lt fun r hr => h.onBuses_b hr
  | a =>
      rw [fields_a]
      exact busCode_lt fun r hr => h.onBuses_a hr
  | addr => exact UInt8.toNat_lt _

/-- A sound cycle can be packed. -/
theorem Resources.Sound.exists_pack
    (h : s.Sound) :
    ∃ w, s.pack = .ok w := by
  refine Fields.exists_pack fun f => ?_
  simpa [Fields.overflows] using h.fits f

end Packing

section Claims

variable {s t : Resources}

theorem sound_fresh :
    Resources.fresh.Sound where
  permitted u hu := absurd hu (Resources.not_has_fresh u)
  not_mar := Resources.not_has_fresh _

/-- A granted claim that does not ask for `mar` on the C bus keeps a cycle sound. -/
theorem sound_of_claim
    {c : Claim}
    (hs : s.Sound)
    (hc : ¬ c.Asks (.onC .mar))
    (h : s.claim c = .ok t) :
    t.Sound := by
  obtain ⟨us, hus, hok, huses⟩ := Resources.has_of_claim h
  constructor
  · intro u hu
    rcases (huses u).1 hu with hold | hnew
    · exact hs.permitted u hold
    · exact hok u hnew
  · intro hmar
    rcases (huses _).1 hmar with hold | hnew
    · exact hs.not_mar hold
    · exact hc ⟨us, hus, hnew⟩

theorem sound_of_claimAll
    {cs : List Claim}
    (hs : s.Sound)
    (hcs : ∀ c ∈ cs, ¬ c.Asks (.onC .mar))
    (h : s.claimAll cs = .ok t) :
    t.Sound := by
  induction cs generalizing s with
  | nil =>
      cases h
      exact hs
  | cons c cs ih =>
      obtain ⟨s', hc, hrest⟩ := Resources.claimAll_cons_eq_ok h
      have hs' := sound_of_claim hs (hcs c (by simp)) hc
      exact ih hs' (fun d hd => hcs d (List.mem_cons_of_mem _ hd)) hrest

variable {labels : LabelTable}

/-- No sub-instruction asks for `mar` on the C bus: `mar` is loaded from the B bus. -/
theorem Subinstruction.HasClaims.not_asks_mar
    {sub : Located Subinstruction}
    {cs : List Claim}
    (h : Subinstruction.HasClaims labels sub cs)
    {c : Claim}
    (hc : c ∈ cs) :
    ¬ c.Asks (.onC .mar) := by
  intro hask
  have hpath := onDataPath_of_asks hask (Or.inr (Or.inr (Or.inl ⟨.mar, rfl⟩)))
  obtain ⟨dest, source, hassign⟩ := h.exists_assign hc hpath
  rcases h.assign_cases hassign with ⟨-, r, -, rfl⟩ | ⟨hmar, rfl⟩
  · rw [List.mem_singleton.1 hc] at hask
    simp [Claim.Asks, Claim.ways] at hask
  · rcases List.mem_append.1 hc with hc | hc
    · exact (not_asks_output_of_mem_claims hc).2.2 .mar hask
    · have hmem : Use.onC .mar ∈ dest.value.outputUses := by
        rw [List.mem_singleton.1 hc] at hask
        simpa [Claim.Asks, Claim.ways] using hask
      rcases mem_outputUses_iff.1 hmem with ⟨heq, -⟩ | ⟨heq, -⟩
      · cases heq
      · exact hmar (Use.onC.inj heq).symm

end Claims

section Encoding

variable {labels : LabelTable}

/-- The encoding of sub-instructions passes from one cycle to another: it has been
granted the claims of the first of them, and some claims of the next. -/
inductive Encodes (labels : LabelTable) :
    Resources → List (Located Subinstruction) → Resources → Prop
  | within {s t : Resources} {sub : Located Subinstruction} {cs ds : List Claim}
      {subs : List (Located Subinstruction)} :
      Subinstruction.demand labels sub = .ok (.claims (cs ++ ds)) →
      s.claimAll cs = .ok t → Encodes labels s (sub :: subs) t
  | next {s s' t : Resources} {sub : Located Subinstruction} {cs : List Claim}
      {subs : List (Located Subinstruction)} :
      Subinstruction.demand labels sub = .ok (.claims cs) →
      s.claimAll cs = .ok s' → Encodes labels s' subs t → Encodes labels s (sub :: subs) t
  | done {s : Resources} : Encodes labels s [] s

/-- Every cycle that an encoding passes through is sound. -/
theorem Encodes.sound
    {s t : Resources}
    {subs : List (Located Subinstruction)}
    (h : Encodes labels s subs t)
    (hs : s.Sound) :
    t.Sound := by
  induction h with
  | within hdemand hclaims =>
      refine sound_of_claimAll hs (fun c hc => ?_) hclaims
      exact Subinstruction.HasClaims.not_asks_mar hdemand (List.mem_append_left _ hc)
  | next hdemand hclaims _ ih =>
      refine ih (sound_of_claimAll hs (fun c hc => ?_) hclaims)
      exact Subinstruction.HasClaims.not_asks_mar hdemand hc
  | done =>
      exact hs

/-- A jump that the encoding reaches and whose target the table lacks. -/
def BadJump (labels : LabelTable) (subs : List (Located Subinstruction)) : Prop :=
  ∃ before sub after target, subs = before ++ sub :: after ∧
    (∀ x ∈ before, x.value ≠ .halt) ∧ sub.value.target? = some target ∧
    labels.target? target.value = none

theorem BadJump.cons
    {sub : Located Subinstruction}
    {subs : List (Located Subinstruction)}
    (h : BadJump labels subs)
    (hsub : sub.value ≠ .halt) :
    BadJump labels (sub :: subs) := by
  obtain ⟨before, bad, after, target, rfl, hbefore, htarget, hlacks⟩ := h
  refine ⟨sub :: before, bad, after, target, rfl, fun x hx => ?_, htarget, hlacks⟩
  rcases List.mem_cons.1 hx with rfl | hx
  · exact hsub
  · exact hbefore x hx

theorem jumpDemand_eq_defect
    {jump : Jump}
    {name : String}
    {cause : Defect}
    (h : jumpDemand labels jump name = .error (.defect cause)) :
    cause = .badTarget ∧ labels.target? name = none := by
  unfold jumpDemand at h
  split at h
  · cases h
  · next hlacks =>
      cases h
      exact ⟨rfl, hlacks⟩

/-- A sub-instruction is a defect only as a jump whose target the table lacks. -/
theorem demand_eq_defect
    {sub : Located Subinstruction}
    {cause : Defect}
    (h : Subinstruction.demand labels sub = .error (.defect cause)) :
    cause = .badTarget ∧
      ∃ target, sub.value.target? = some target ∧ labels.target? target.value = none := by
  unfold Subinstruction.demand at h
  split at h
  · cases h
  · cases h
  · cases h
  · next target hsub =>
      obtain ⟨hcause, hlacks⟩ := jumpDemand_eq_defect h
      exact ⟨hcause, target, by rw [hsub]; rfl, hlacks⟩
  · next condition target hsub =>
      obtain ⟨hcause, hlacks⟩ := jumpDemand_eq_defect h
      exact ⟨hcause, target, by rw [hsub]; rfl, hlacks⟩
  · split at h
    · cases h
    · split at h <;> cases h

theorem value_ne_halt_of_claims
    {sub : Located Subinstruction}
    {cs : List Claim}
    (h : Subinstruction.demand labels sub = .ok (.claims cs)) :
    sub.value ≠ .halt := by
  intro hhalt
  unfold Subinstruction.demand at h
  rw [hhalt] at h
  cases h

/-- From a sound cycle on, an encoding goes wrong only at a bad jump. -/
theorem defect_of_encodeFrom
    {s : Resources}
    {subs : List (Located Subinstruction)}
    {cause : Defect}
    (hs : s.Sound)
    (h : encodeFrom labels s subs = .error (.defect cause)) :
    cause = .badTarget ∧ BadJump labels subs := by
  induction subs generalizing s with
  | nil =>
      obtain ⟨w, hw⟩ := hs.exists_pack
      rw [encodeFrom, Resources.word, hw] at h
      cases h
  | cons sub subs ih =>
      simp only [encodeFrom] at h
      split at h
      · next fault hdemand =>
          cases h
          obtain ⟨hcause, target, htarget, hlacks⟩ := demand_eq_defect hdemand
          exact ⟨hcause, [], sub, subs, target, rfl, by simp, htarget, hlacks⟩
      · cases h
      · next cs hdemand =>
          split at h
          · next s' hclaims =>
              have hs' := (Encodes.next hdemand hclaims .done : Encodes labels s [sub] s').sound hs
              obtain ⟨hcause, hbad⟩ := ih hs' h
              exact ⟨hcause, hbad.cons (value_ne_halt_of_claims hdemand)⟩
          · cases h

/-- A program goes wrong with a label table only at a jump that no `halt` precedes
and whose target is missing or too far. -/
theorem defect_of_emit
    {p : Program}
    {cause : Defect}
    (h : p.emit labels = .error (.defect cause)) :
    cause = .badTarget ∧ ∃ i ∈ p.instructions, BadJump labels i.subs := by
  obtain ⟨above, i, below, -, hp, -, hi⟩ := exists_faulty_of_encodeAll h
  obtain ⟨hcause, hbad⟩ := defect_of_encodeFrom sound_fresh hi
  exact ⟨hcause, i, by simp [hp], hbad⟩

end Encoding

section Sources

/-- The jumps of an instruction are jumps of its program. -/
theorem mem_targets
    {p : Program}
    {i : Instruction}
    {sub : Located Subinstruction}
    {target : Located String}
    (hi : i ∈ p.instructions)
    (hsub : sub ∈ i.subs)
    (htarget : sub.value.target? = some target) :
    target ∈ p.targets :=
  List.mem_flatMap.2 ⟨i, hi, List.mem_filterMap.2 ⟨sub, hsub, htarget⟩⟩

/-- The table of a resolved program gives every jump an address that fits. -/
theorem exists_address_of_resolve
    {p : Program}
    {labels : LabelTable}
    {target : Located String}
    (h : p.resolve = .ok labels)
    (htarget : target ∈ p.targets) :
    ∃ a, labels.address? target.value = some a ∧ a < addressSpace := by
  obtain ⟨-, hrange, hdefined, rfl⟩ := Program.resolve_eq_ok_iff_errors.1 h
  obtain ⟨a, ha⟩ := Program.undefinedErrors_eq_nil_iff.1 hdefined target htarget
  exact ⟨a, ha, Program.rangeErrors_eq_nil_iff.1 hrange target htarget a ha⟩

/-- The table of a resolved program finds the names that it lists. -/
theorem address?_of_mem_entries
    {p : Program}
    {labels : LabelTable}
    {name : String}
    {address : Nat}
    (h : p.resolve = .ok labels)
    (hmem : (name, address) ∈ labels.entries) :
    labels.address? name = some address := by
  obtain ⟨hduplicate, -, -, rfl⟩ := Program.resolve_eq_ok_iff_errors.1 h
  have honce := Program.duplicateErrors_eq_nil_iff.1 hduplicate
  exact (lookup_eq_some_iff (Program.nodup_entries honce) name address).2 hmem

theorem resolved_eq_ok_iff
    {s : Source}
    {p : Program}
    {labels : LabelTable} :
    s.resolved = .ok (p, labels) ↔ s.program = .ok p ∧ p.resolve = .ok labels := by
  unfold Source.resolved
  constructor
  · intro h
    split at h
    · cases h
    · next q hq =>
        split at h
        · cases h
        · next table htable =>
            cases h
            exact ⟨hq, htable⟩
  · rintro ⟨hp, hlabels⟩
    simp only [hp, hlabels]

theorem assemble_eq_ok_iff
    {s : Source}
    {asm : Assembly} :
    s.assemble = .ok asm ↔
      ∃ p, s.resolved = .ok (p, asm.labels) ∧ p.emit asm.labels = .ok asm.words := by
  unfold Source.assemble
  constructor
  · intro h
    split at h
    · cases h
    · next p labels hresolved =>
        split at h
        · cases h
        · next words hwords =>
            cases h
            exact ⟨p, hresolved, hwords⟩
  · rintro ⟨p, hresolved, hwords⟩
    simp only [hresolved, hwords]

theorem resolved_ne_nil
    {s : Source}
    {errors : List AssemblyError}
    (h : s.resolved = .error errors) :
    errors ≠ [] := by
  unfold Source.resolved at h
  split at h
  · cases h
    simp
  · next p hp =>
      split at h
      · next list hlist =>
          cases h
          unfold Program.resolve at hlist
          split at hlist
          · cases hlist
          · next hne =>
              cases hlist
              simpa using hne
      · cases h

/-- A resolved program has no defect. -/
theorem emit_ne_defect
    {p : Program}
    {labels : LabelTable}
    (h : p.resolve = .ok labels)
    (cause : Defect) :
    p.emit labels ≠ .error (.defect cause) := by
  intro hemit
  obtain ⟨-, i, hi, before, sub, after, target, hsubs, -, htarget, hlacks⟩ := defect_of_emit hemit
  obtain ⟨a, ha, hlt⟩ := exists_address_of_resolve h (mem_targets hi (by simp [hsubs]) htarget)
  rcases (labels.target?_eq_none_iff _).1 hlacks with hnone | ⟨b, hb, hle⟩
  · rw [hnone] at ha
    cases ha
  · rw [hb] at ha
    cases ha
    omega

/-- A source is assembled, or at least one error is reported. -/
theorem assemble_cases
    (s : Source) :
    (∃ asm, s.assemble = .ok asm) ∨
      ∃ errors, errors ≠ [] ∧ s.assemble = .error (.errors errors) := by
  unfold Source.assemble
  cases hr : s.resolved with
  | error errors =>
      exact Or.inr ⟨errors, resolved_ne_nil hr, rfl⟩
  | ok pair =>
      obtain ⟨p, labels⟩ := pair
      obtain ⟨-, hlabels⟩ := resolved_eq_ok_iff.1 hr
      cases hemit : p.emit labels with
      | ok words =>
          exact Or.inl ⟨⟨words, labels⟩, by simp only [hemit]⟩
      | error fault =>
          cases fault with
          | conflict error =>
              exact Or.inr ⟨[.conflict error], by simp, by simp only [hemit]; rfl⟩
          | defect cause =>
              exact absurd hemit (emit_ne_defect hlabels cause)

/-- **No source leads to a defect.**  Of a source with fewer than `2 ^ 32 - 1`
lines and columns, all places fit in 32 bits, and it is assembled or at least one
error is reported.  If its labels can be resolved, then every jump finds an
address of eight bits, every cycle that the encoding of an instruction passes
through fits its fields and has no register on a bus that lacks a number there,
and the label table finds every name that it lists.

With any label table, any program goes wrong only at a jump that no `halt`
precedes in its instruction and whose target is missing or above 255. -/
theorem assemble_safe
    (s : Source)
    (hlines : s.lines.length < 2 ^ 32 - 1)
    (hcolumns : ∀ line ∈ s.lines, line.length < 2 ^ 32 - 1) :
    (∀ c place, (c, place) ∈ s.stream → place.line < 2 ^ 32 ∧ place.column < 2 ^ 32) ∧
    ((∃ asm, s.assemble = .ok asm) ∨
      ∃ errors, errors ≠ [] ∧ s.assemble = .error (.errors errors)) ∧
    (∀ p labels, s.resolved = .ok (p, labels) →
      (∀ target ∈ p.targets, ∃ a, labels.address? target.value = some a ∧ a ≤ 255) ∧
      (∀ i ∈ p.instructions, ∀ t, Encodes labels .fresh i.subs t →
        (∀ f, (t.fields f).toNat < f.capacity) ∧
        ∀ r, t.busA = some r ∨ t.b = some r ∨ t.c = some r → r.OnBuses) ∧
      ∀ name address, (name, address) ∈ labels.entries → labels.address? name = some address) ∧
    ∀ (p : Program) (labels : LabelTable) (cause : Defect),
      p.emit labels = .error (.defect cause) →
      cause = .badTarget ∧ ∃ i ∈ p.instructions, ∃ before sub after target,
        i.subs = before ++ sub :: after ∧ (∀ x ∈ before, x.value ≠ .halt) ∧
        sub.value.target? = some target ∧
        (labels.address? target.value = none ∨
          ∃ a, labels.address? target.value = some a ∧ 255 < a) := by
  refine ⟨fun c place hmem => Source.stream_lt hlines hcolumns hmem, assemble_cases s, ?_, ?_⟩
  · intro p labels hresolved
    obtain ⟨-, hlabels⟩ := resolved_eq_ok_iff.1 hresolved
    refine ⟨fun target htarget => ?_, fun i hi t ht => ?_, fun name address hmem =>
      address?_of_mem_entries hlabels hmem⟩
    · obtain ⟨a, ha, hlt⟩ := exists_address_of_resolve hlabels htarget
      exact ⟨a, ha, Nat.le_of_lt_succ hlt⟩
    · have hsound := ht.sound sound_fresh
      refine ⟨hsound.fits, fun r hr => ?_⟩
      rcases hr with hr | hr | hr
      · exact hsound.onBuses_a hr
      · exact hsound.onBuses_b hr
      · exact hsound.onBuses_c hr
  · intro p labels cause hemit
    obtain ⟨hcause, i, hi, before, sub, after, target, hsubs, hbefore, htarget, hlacks⟩ :=
      defect_of_emit hemit
    exact ⟨hcause, i, hi, before, sub, after, target, hsubs, hbefore, htarget,
      (labels.target?_eq_none_iff _).1 hlacks⟩

/-- A loop behind a load of `mar` is resolved, so its jump and its cycles are safe. -/
theorem assemble_safe_loop :
    let s : Source := ⟨"loop", "mar := sp;\nw: if z then goto w;"⟩
    s.lines.length < 2 ^ 32 - 1 ∧ (∀ line ∈ s.lines, line.length < 2 ^ 32 - 1) ∧
      ∃ p labels, s.resolved = .ok (p, labels) ∧ labels.entries = [("w", 1)] ∧
        (∀ target ∈ p.targets, ∃ a, labels.address? target.value = some a ∧ a ≤ 255) ∧
        ∀ i ∈ p.instructions, ∀ t, Encodes labels .fresh i.subs t →
          (∀ f, (t.fields f).toNat < f.capacity) ∧
          ∀ r, t.busA = some r ∨ t.b = some r ∨ t.c = some r → r.OnBuses := by
  intro s
  have hlines : s.lines.length < 2 ^ 32 - 1 := by decide
  have hcolumns : ∀ line ∈ s.lines, line.length < 2 ^ 32 - 1 := by decide
  have hasm : s.assemble = .ok ⟨[⟨0x00802000⟩, ⟨0x40000001⟩], ⟨[("w", 1)]⟩⟩ := by decide +kernel
  obtain ⟨p, hresolved, -⟩ := assemble_eq_ok_iff.1 hasm
  obtain ⟨-, -, hsafe, -⟩ := assemble_safe s hlines hcolumns
  obtain ⟨htargets, hencodes, -⟩ := hsafe p _ hresolved
  exact ⟨hlines, hcolumns, p, _, hresolved, rfl, htargets, hencodes⟩

end Sources

end Microcode
