import Microcode.Proofs.Encoding.Branches
import Microcode.Proofs.Resources.Reachable

/-!
# The fields of a word, one by one

**Input.**  An instruction without `halt` that has a word.

**Algorithm.**  What a right-hand side claims can be read off its shape: the register
that must be on the A side, the one that must be on the B bus, the two of an addition,
and the operations of the ALU and of the shifter.  The cycle behind the word meets all
these claims, which sets the fields, and it has no use that none of them asks for,
which leaves the other fields at zero.

**Results.**
* `routeA_mem_claims_iff`, `alu_mem_claims_iff` and their like: the claims of a
  right-hand side by its shape.
* `Performs.sound`: the cycle behind a word can be shown in fields.
* `Performs.exists_employs`: every use of a unit was asked for by an assignment.
* `fields_of_encode`: every field of the word is what the sub-instructions ask for.
-/

namespace Microcode

section Shapes

/-- The registers that an operand in parentheses names. -/
def Operand.registers : Operand → List Register
  | read r => [r.value]
  | add left right => [left.value, right.value]

namespace Expr

/-- The registers that a right-hand side names. -/
def registers : Expr → List Register
  | read r => [r.value]
  | add left right => [left.value, right.value]
  | band left right => [left.value, right.value]
  | unary _ operand => operand.registers

/-- The register that a right-hand side needs on the A side. -/
def leftOperand? : Expr → Option Register
  | read r => some r.value
  | band left _ => some left.value
  | unary _ (.read r) => some r.value
  | _ => none

/-- The register that a right-hand side needs on the B bus. -/
def rightOperand? : Expr → Option Register
  | band _ right => some right.value
  | _ => none

/-- The registers that a right-hand side adds. -/
def addends? : Expr → Option (Register × Register)
  | add left right => some (left.value, right.value)
  | unary _ (.add left right) => some (left.value, right.value)
  | _ => none

/-- The code that a right-hand side needs in the ALU field; the shift of a single
register needs none. -/
def aluCode? : Expr → Option UInt8
  | read _ => some 2
  | add _ _ => some 0
  | band _ _ => some 1
  | unary _ (.add _ _) => some 0
  | unary .invert (.read _) => some 3
  | unary _ (.read _) => none

variable {e : Expr}

theorem routeA_mem_claims_iff
    {r : Register} :
    .routeA r ∈ e.claims ↔ e.leftOperand? = some r := by
  rcases e with _ | _ | _ | ⟨op, _ | _⟩ <;> try cases op
  all_goals simp [claims, Operand.claims, UnaryOp.claim, leftOperand?, eq_comm]

theorem routeB_mem_claims_iff
    {r : Register} :
    .routeB r ∈ e.claims ↔ e.rightOperand? = some r := by
  rcases e with _ | _ | _ | ⟨op, _ | _⟩ <;> try cases op
  all_goals simp [claims, Operand.claims, UnaryOp.claim, rightOperand?, eq_comm]

theorem add_mem_claims_iff
    {left right : Register} :
    .add left right ∈ e.claims ↔ e.addends? = some (left, right) := by
  rcases e with _ | _ | _ | ⟨op, _ | _⟩ <;> try cases op
  all_goals simp [claims, Operand.claims, UnaryOp.claim, addends?, eq_comm]

/-- Only the inversion of a sum claims the ALU twice. -/
theorem alu_mem_claims_iff
    {op : AluOp} :
    .alu op ∈ e.claims ↔
      e.aluCode? = some op.code ∨
        (op = .invert ∧ ∃ left right, e = .unary .invert (.add left right)) := by
  rcases e with _ | _ | _ | ⟨unaryOp, _ | _⟩ <;> try cases unaryOp
  all_goals cases op <;> simp [claims, Operand.claims, UnaryOp.claim, aluCode?, AluOp.code]

theorem exists_alu_of_aluCode?
    {code : UInt8}
    (h : e.aluCode? = some code) :
    ∃ op, .alu op ∈ e.claims ∧ op.code = code := by
  have hcode : code = 0 ∨ code = 1 ∨ code = 2 ∨ code = 3 := by
    rcases e with _ | _ | _ | ⟨unaryOp, _ | _⟩ <;> try cases unaryOp
    all_goals cases h <;> decide
  have hop : ∃ op : AluOp, op.code = code := by
    rcases hcode with rfl | rfl | rfl | rfl
    · exact ⟨.add, rfl⟩
    · exact ⟨.band, rfl⟩
    · exact ⟨.pass, rfl⟩
    · exact ⟨.invert, rfl⟩
  obtain ⟨op, rfl⟩ := hop
  exact ⟨op, alu_mem_claims_iff.2 (Or.inl h), rfl⟩

theorem shifter_mem_claims_iff
    {op : ShiftOp} :
    .shifter op ∈ e.claims ↔
      (op = .keep ∧ ∃ r, e = .read r) ∨
        (op = .left ∧ ∃ operand, e = .unary .leftShift operand) ∨
        (op = .right ∧ ∃ operand, e = .unary .rightShift operand) := by
  rcases e with _ | _ | _ | ⟨unaryOp, _ | _⟩ <;> try cases unaryOp
  all_goals cases op <;> simp [claims, Operand.claims, UnaryOp.claim]

theorem mem_registers_iff
    {r : Register} :
    r ∈ e.registers ↔
      e.leftOperand? = some r ∨ e.rightOperand? = some r ∨
        (∃ x, e.addends? = some (r, x)) ∨ ∃ x, e.addends? = some (x, r) := by
  rcases e with _ | _ | _ | ⟨op, _ | _⟩
  all_goals simp [registers, Operand.registers, leftOperand?, rightOperand?, addends?, eq_comm]

/-- What a right-hand side can have a unit do. -/
def Employs (e : Expr) : Use → Prop
  | .onA r => r ∈ e.registers
  | .onB r => e.rightOperand? = some r ∨ e.addends?.isSome
  | .alu op => .alu op ∈ e.claims
  | .shifter op => .shifter op ∈ e.claims
  | _ => False

/-- What the claims of a right-hand side ask for shows in its shape. -/
theorem employs_of_asks
    {c : Claim}
    {u : Use}
    (hc : c ∈ e.claims)
    (hask : c.Asks u) :
    e.Employs u := by
  obtain ⟨us, hus, hu⟩ := hask
  rcases claim_cases_of_mem_claims hc with
    ⟨r, rfl⟩ | ⟨r, rfl⟩ | ⟨left, right, rfl⟩ | ⟨op, rfl⟩ | ⟨op, rfl⟩
  · rw [List.mem_singleton.1 hus] at hu
    rw [List.mem_singleton.1 hu]
    exact mem_registers_iff.2 (Or.inl (routeA_mem_claims_iff.1 hc))
  · rw [List.mem_singleton.1 hus] at hu
    rw [List.mem_singleton.1 hu]
    exact Or.inl (routeB_mem_claims_iff.1 hc)
  · have hadd := add_mem_claims_iff.1 hc
    have hleft : e.Employs (.onA left) := mem_registers_iff.2 (by simp [hadd])
    have hright : e.Employs (.onA right) := mem_registers_iff.2 (by simp [hadd])
    have hbus : ∀ r, e.Employs (.onB r) := fun r => Or.inr (by simp [hadd])
    rcases List.mem_pair.1 hus with rfl | rfl <;> rcases List.mem_pair.1 hu with rfl | rfl
    · exact hleft
    · exact hbus right
    · exact hright
    · exact hbus left
  · rw [List.mem_singleton.1 hus] at hu
    rw [List.mem_singleton.1 hu]
    exact hc
  · rw [List.mem_singleton.1 hus] at hu
    rw [List.mem_singleton.1 hu]
    exact hc

end Expr

end Shapes

section Cycles

variable {labels : LabelTable} {i : Instruction} {t : Resources}

/-- A memory access is asked for by the sub-instruction that names it. -/
theorem Subinstruction.HasClaims.memory_iff
    {sub : Located Subinstruction}
    {cs : List Claim}
    (h : Subinstruction.HasClaims labels sub cs) :
    (.read ∈ cs ↔ sub.value = .read) ∧ (.write ∈ cs ↔ sub.value = .write) := by
  cases hvalue : sub.value with
  | assign dest source =>
      have hclaims : .read ∉ source.value.claims ∧ .write ∉ source.value.claims := by
        refine ⟨fun hc => ?_, fun hc => ?_⟩ <;>
          · have hcases := claim_cases_of_mem_claims hc
            simp at hcases
      rcases h.assign_cases hvalue with ⟨-, r, -, rfl⟩ | ⟨-, rfl⟩
      · simp
      · simp [hclaims]
  | goto target =>
      obtain ⟨address, -, rfl⟩ := h.of_jump (by rw [hvalue]; rfl)
      simp
  | branch condition target =>
      obtain ⟨address, -, rfl⟩ := h.of_jump (by rw [hvalue]; rfl)
      simp
  | read =>
      rw [Subinstruction.HasClaims, Subinstruction.demand, hvalue] at h
      cases h
      simp
  | write =>
      rw [Subinstruction.HasClaims, Subinstruction.demand, hvalue] at h
      cases h
      simp
  | halt =>
      exact absurd hvalue (value_ne_halt_of_claims h)

/-- A use that only one claim asks for is made if and only if a sub-instruction makes
this claim. -/
theorem Performs.has_iff
    (h : Performs labels i.subs t)
    {u : Use}
    {c : Claim}
    {action : Subinstruction}
    (hways : c.ways = [[u]])
    (hasks : ∀ x : Claim, x.Asks u → x = c)
    (hclaims : ∀ {sub cs}, Subinstruction.HasClaims labels sub cs →
      (c ∈ cs ↔ sub.value = action)) :
    t.Has u ↔ ∃ sub ∈ i.subs, sub.value = action := by
  constructor
  · intro hu
    obtain ⟨sub, hsub, cs, hcs, x, hx, hask⟩ := h.asked u hu
    rw [hasks x hask] at hx
    exact ⟨sub, hsub, (hclaims hcs).1 hx⟩
  · rintro ⟨sub, hsub, hvalue⟩
    obtain ⟨cs, hcs, hmet⟩ := h.met sub hsub
    exact (has_of_meets_single (hmet c ((hclaims hcs).2 hvalue)) hways
      (List.mem_singleton_self u)).1

/-- A cycle reads memory if and only if a sub-instruction does. -/
theorem Performs.rd_iff
    (h : Performs labels i.subs t) :
    t.rd = true ↔ ∃ sub ∈ i.subs, sub.value = .read :=
  h.has_iff (u := .read) rfl (fun _ hask => (Resources.eq_of_asks hask).1 rfl)
    fun hcs => hcs.memory_iff.1

/-- A cycle writes memory if and only if a sub-instruction does. -/
theorem Performs.wr_iff
    (h : Performs labels i.subs t) :
    t.wr = true ↔ ∃ sub ∈ i.subs, sub.value = .write :=
  h.has_iff (u := .write) rfl (fun _ hask => (Resources.eq_of_asks hask).2.1 rfl)
    fun hcs => hcs.memory_iff.2

/-- Inputs, ALU and shifter are in use for a right-hand side only, the B bus also to
load `mar`. -/
theorem Performs.exists_employs
    (h : Performs labels i.subs t)
    {u : Use}
    (hu : t.Has u)
    (hunit : (∃ r, u = .onA r) ∨ (∃ r, u = .onB r) ∨ (∃ op, u = .alu op) ∨ ∃ op, u = .shifter op) :
    (∃ r, u = .onB r ∧ ∃ e, i.Assigns .mar e) ∨
      ∃ target e, target ≠ .mar ∧ i.Assigns target e ∧ e.Employs u := by
  have hpath : ∀ c : Claim, c.Asks u → c.onDataPath = true := by
    intro c hask
    rcases hunit with ⟨r, rfl⟩ | ⟨r, rfl⟩ | ⟨op, rfl⟩ | ⟨op, rfl⟩ <;>
      cases c <;> simp_all [Claim.Asks, Claim.ways, Claim.onDataPath]
  obtain ⟨target, e, ha, ⟨rfl, r, -, hask⟩ | ⟨hmar, c, hc, hask⟩⟩ := h.assigns_of_asked hu hpath
  · -- A load of `mar` uses the B bus and a line of its own.
    have hload : u = .onB r.value ∨ u = .loadMar := by
      simpa [Claim.Asks, Claim.ways] using hask
    rcases hload with rfl | rfl
    · exact Or.inl ⟨r.value, rfl, e, ha⟩
    · simp at hunit
  · rcases List.mem_append.1 hc with hc | hc
    · exact Or.inr ⟨target, e, hmar, ha, Expr.employs_of_asks hc hask⟩
    · have hout : u ∈ target.outputUses := by
        rw [List.mem_singleton.1 hc] at hask
        simpa [Claim.Asks, Claim.ways] using hask
      rcases mem_outputUses_iff.1 hout with ⟨rfl, -⟩ | ⟨rfl, -⟩ <;> simp at hunit

/-- A cycle that performs sub-instructions claims only what is permitted, and never the
C bus for `mar`. -/
theorem Performs.sound
    (h : Performs labels i.subs t) :
    t.Sound where
  permitted u hu := by
    obtain ⟨sub, hsub, cs, hcs, c, hc, hask⟩ := h.asked u hu
    obtain ⟨ds, hds, hmet⟩ := h.met sub hsub
    have hsame : cs = ds := by
      rw [Subinstruction.HasClaims, hcs] at hds
      cases hds
      rfl
    exact (hmet c (hsame ▸ hc)).permitted_of_asks hask hu
  not_mar hmar := by
    obtain ⟨sub, hsub, cs, hcs, c, hc, hask⟩ := h.asked _ hmar
    exact hcs.not_asks_mar hc hask

end Cycles

section Fields

/-- A line that is set exactly under a condition. -/
def IsLine (code : UInt8) (p : Prop) : Prop :=
  (p ∧ code = 1) ∨ (¬ p ∧ code = 0)

namespace Fields

/-- The A side carries a register: `mbr` through the multiplexer, every other register
on the bus. -/
def CarriesA (v : Fields) (r : Register) : Prop :=
  if r = .mbr then v .amux = 1 ∧ v .a = 0
  else r.OnBuses ∧ v .amux = 0 ∧ (v .a).toNat = r.index

/-- The B bus carries a register, which is not `mbr`. -/
def CarriesB (v : Fields) (r : Register) : Prop :=
  r.OnBuses ∧ (v .b).toNat = r.index

end Fields

/-- Fields that are set as the sub-instructions of an instruction ask, and zero where
none of them asks for anything. -/
structure Instruction.SetsFields (labels : LabelTable) (i : Instruction) (v : Fields) : Prop where
  rd : IsLine (v .rd) (∃ sub ∈ i.subs, sub.value = .read)
  wr : IsLine (v .wr) (∃ sub ∈ i.subs, sub.value = .write)
  /-- There is no jump, or exactly one, and its target has the address of the word. -/
  branch :
    ((∀ sub ∈ i.subs, sub.value.target? = none) ∧ v .cond = 0 ∧ v .addr = 0) ∨
      ∃ before sub after target, i.subs = before ++ sub :: after ∧
        (∀ x ∈ before ++ after, x.value.target? = none) ∧
        ((sub.value = .goto target ∧ v .cond = 3) ∨
          (sub.value = .branch .zero target ∧ v .cond = 2) ∨
          (sub.value = .branch .negative target ∧ v .cond = 1)) ∧
        labels.address? target.value = some (v .addr).toNat
  mbr : IsLine (v .mbr) (∃ e, i.Assigns .mbr e)
  mar : IsLine (v .mar) (∃ e, i.Assigns .mar e)
  /-- There is at most one destination on the C bus. -/
  output : ∀ dest e, dest.OnBuses → i.Assigns dest e →
    v .enc = 1 ∧ (v .c).toNat = dest.index ∧
      ∀ other e', other.OnBuses → i.Assigns other e' → other = dest
  output_free : (∀ dest e, dest.OnBuses → ¬ i.Assigns dest e) → v .enc = 0 ∧ v .c = 0
  alu : ∀ dest e code, dest ≠ .mar → i.Assigns dest e → e.aluCode? = some code → v .alu = code
  alu_free : (∀ dest e, dest ≠ .mar → i.Assigns dest e → e.aluCode? = none) → v .alu = 0
  /-- A sum is never inverted. -/
  not_inverted : ∀ dest left right, ¬ i.Assigns dest (.unary .invert (.add left right))
  left_shift : v .sh = 2 ↔ ∃ dest operand, i.Assigns dest (.unary .leftShift operand)
  right_shift : v .sh = 1 ↔ ∃ dest operand, i.Assigns dest (.unary .rightShift operand)
  shifter_free : v .sh ≠ 2 → v .sh ≠ 1 → v .sh = 0
  amux : IsLine (v .amux) (∃ dest e, i.Assigns dest e ∧ .mbr ∈ e.registers)
  left : ∀ dest e r, dest ≠ .mar → i.Assigns dest e → e.leftOperand? = some r → v.CarriesA r
  right : ∀ dest e r, i.Assigns dest e → e.rightOperand? = some r → v.CarriesB r
  load : ∀ e, i.Assigns .mar e → ∃ r, e = .read r ∧ v.CarriesB r.value
  /-- An addition has its registers on the A side and on the B bus, in either order. -/
  sum : ∀ dest e x y, i.Assigns dest e → e.addends? = some (x, y) →
    (v.CarriesA x ∧ v.CarriesB y) ∨ (v.CarriesA y ∧ v.CarriesB x)
  a_free : (∀ dest e, i.Assigns dest e → dest = .mar) → v .a = 0
  b_free : (∀ dest e, i.Assigns dest e →
    dest ≠ .mar ∧ e.rightOperand? = none ∧ e.addends? = none) → v .b = 0

section Shown

variable {t : Resources} {v : Fields}

theorem isLine_of_iff
    {line : Prop}
    [Decidable line]
    {p : Prop}
    (h : line ↔ p) :
    IsLine (if line then 1 else 0) p := by
  by_cases hline : line
  · exact Or.inl ⟨h.1 hline, if_pos hline⟩
  · exact Or.inr ⟨fun hp => hline (h.2 hp), if_neg hline⟩

theorem Resources.ShownBy.carriesA
    (hv : t.ShownBy v)
    {r : Register}
    (h : t.Has (.onA r) ∧ (Use.onA r).Permitted) :
    v.CarriesA r := by
  obtain ⟨ha, hread⟩ := h
  have ha : t.a = some r := ha
  have hfield := hv.a
  rw [Fields.CarriesA, hv.amux, ha]
  split
  · next hmbr =>
      rw [Resources.busA, ha, hmbr, if_pos rfl] at hfield
      exact ⟨by rw [hmbr, if_pos rfl], UInt8.toNat_inj.1 hfield⟩
  · next hmbr =>
      have hother : t.a ≠ some .mbr := by simpa [ha] using hmbr
      rw [Resources.busA, if_neg hother, ha] at hfield
      exact ⟨Register.onBuses_of_isReadable hread hmbr, by simp [hmbr], hfield⟩

theorem Resources.ShownBy.carriesB
    (hv : t.ShownBy v)
    {r : Register}
    (h : t.Has (.onB r) ∧ (Use.onB r).Permitted) :
    v.CarriesB r := by
  obtain ⟨hb, hread, hmbr⟩ := h
  have hb : t.b = some r := hb
  have hfield := hv.b
  rw [hb] at hfield
  exact ⟨Register.onBuses_of_isReadable hread hmbr, hfield⟩

end Shown

section Units

variable {labels : LabelTable} {i : Instruction} {t : Resources} {dest : Register} {e : Expr}

/-- `mar` is loaded over the B bus, from a plain register. -/
theorem Performs.load
    (h : Performs labels i.subs t)
    (ha : i.Assigns .mar e) :
    ∃ r, e = .read r ∧ t.Has .loadMar ∧
      t.Has (.onB r.value) ∧ (Use.onB r.value).Permitted := by
  rcases h.meets_assignment ha with ⟨-, r, rfl, hload⟩ | ⟨hmar, -⟩
  · exact ⟨r, rfl, (has_of_meets_single hload rfl (by simp)).1,
      has_of_meets_single hload rfl (by simp)⟩
  · exact absurd rfl hmar

/-- The claims of a right-hand side are met, if it is not just a register for `mar`. -/
theorem Performs.meets_claim
    (h : Performs labels i.subs t)
    (ha : i.Assigns dest e)
    (hread : dest ≠ .mar ∨ ∀ r, e ≠ .read r)
    {c : Claim}
    (hc : c ∈ e.claims) :
    t.Meets c := by
  rcases h.meets_assignment ha with ⟨rfl, r, rfl, -⟩ | ⟨-, hmet, -⟩
  · simp at hread
  · exact hmet c hc

theorem Performs.has_left
    (h : Performs labels i.subs t)
    (ha : i.Assigns dest e)
    (hmar : dest ≠ .mar)
    {r : Register}
    (hr : e.leftOperand? = some r) :
    t.Has (.onA r) ∧ (Use.onA r).Permitted :=
  has_of_meets_single (h.meets_claim ha (Or.inl hmar) (Expr.routeA_mem_claims_iff.2 hr)) rfl
    (List.mem_singleton_self _)

theorem Performs.has_right
    (h : Performs labels i.subs t)
    (ha : i.Assigns dest e)
    {r : Register}
    (hr : e.rightOperand? = some r) :
    t.Has (.onB r) ∧ (Use.onB r).Permitted := by
  have hread : ∀ x, e ≠ .read x := by
    rintro x rfl
    cases hr
  exact has_of_meets_single (h.meets_claim ha (Or.inr hread) (Expr.routeB_mem_claims_iff.2 hr))
    rfl (List.mem_singleton_self _)

theorem Performs.has_addends
    (h : Performs labels i.subs t)
    (ha : i.Assigns dest e)
    {x y : Register}
    (hsum : e.addends? = some (x, y)) :
    ((t.Has (.onA x) ∧ (Use.onA x).Permitted) ∧ t.Has (.onB y) ∧ (Use.onB y).Permitted) ∨
      ((t.Has (.onA y) ∧ (Use.onA y).Permitted) ∧ t.Has (.onB x) ∧ (Use.onB x).Permitted) := by
  have hread : ∀ r, e ≠ .read r := by
    rintro r rfl
    cases hsum
  obtain ⟨us, hus, hall⟩ := h.meets_claim ha (Or.inr hread) (Expr.add_mem_claims_iff.2 hsum)
  rcases List.mem_pair.1 hus with rfl | rfl
  · exact Or.inl ⟨hall _ (by simp), hall _ (by simp)⟩
  · exact Or.inr ⟨hall _ (by simp), hall _ (by simp)⟩

theorem Performs.has_alu
    (h : Performs labels i.subs t)
    (ha : i.Assigns dest e)
    (hread : dest ≠ .mar ∨ ∀ r, e ≠ .read r)
    {op : AluOp}
    (hop : .alu op ∈ e.claims) :
    t.alu = some op :=
  (has_of_meets_single (u := .alu op) (h.meets_claim ha hread hop) rfl
    (List.mem_singleton_self _)).1

/-- The A side carries `mbr` if and only if a right-hand side names it, for it cannot be
on the B bus. -/
theorem Performs.a_eq_mbr_iff
    (h : Performs labels i.subs t) :
    t.a = some .mbr ↔ ∃ dest e, i.Assigns dest e ∧ .mbr ∈ e.registers := by
  constructor
  · intro ha
    rcases h.exists_employs (u := .onA .mbr) ha (Or.inl ⟨_, rfl⟩) with
      ⟨r, hr, -⟩ | ⟨dest, e, -, hassigns, hmbr⟩
    · cases hr
    · exact ⟨dest, e, hassigns, hmbr⟩
  · rintro ⟨dest, e, ha, hmbr⟩
    rcases Expr.mem_registers_iff.1 hmbr with hleft | hright | ⟨x, hsum⟩ | ⟨x, hsum⟩
    · by_cases hmar : dest = .mar
      · -- `mar` is loaded over the B bus, which does not carry `mbr`.
        subst hmar
        obtain ⟨r, rfl, -, -, hpermitted⟩ := h.load ha
        exact absurd (Option.some.inj hleft) hpermitted.2
      · exact (h.has_left ha hmar hleft).1
    · exact absurd rfl (h.has_right ha hright).2.2
    · rcases h.has_addends ha hsum with ⟨hx, -⟩ | ⟨-, hx⟩
      · exact hx.1
      · exact absurd rfl hx.2.2
    · rcases h.has_addends ha hsum with ⟨-, hx⟩ | ⟨hx, -⟩
      · exact absurd rfl hx.2.2
      · exact hx.1

/-- A sum is not inverted, for the ALU does one thing in a cycle. -/
theorem Performs.not_inverted
    (h : Performs labels i.subs t)
    (left right : Located Register) :
    ¬ i.Assigns dest (.unary .invert (.add left right)) := by
  intro ha
  have hadd : t.alu = some .add := h.has_alu ha (Or.inr (by simp))
    (Expr.alu_mem_claims_iff.2 (Or.inl rfl))
  have hinvert : t.alu = some .invert := h.has_alu ha (Or.inr (by simp))
    (Expr.alu_mem_claims_iff.2 (Or.inr ⟨rfl, left, right, rfl⟩))
  rw [hadd] at hinvert
  cases hinvert

/-- The shifter does something if and only if a right-hand side asks for it. -/
theorem Performs.shifter_eq_iff
    (h : Performs labels i.subs t)
    (op : ShiftOp) :
    t.shifter = some op ↔ ∃ dest e, dest ≠ .mar ∧ i.Assigns dest e ∧ .shifter op ∈ e.claims := by
  constructor
  · intro hop
    rcases h.exists_employs (u := .shifter op) hop (by simp) with
      ⟨r, hr, -⟩ | ⟨dest, e, hmar, ha, hclaim⟩
    · cases hr
    · exact ⟨dest, e, hmar, ha, hclaim⟩
  · rintro ⟨dest, e, hmar, ha, hclaim⟩
    exact (has_of_meets_single (u := .shifter op) (h.meets_claim ha (Or.inl hmar) hclaim) rfl
      (List.mem_singleton_self _)).1

/-- The operands of a shift do not matter to the shifter. -/
theorem Performs.shifter_eq_iff_unary
    (h : Performs labels i.subs t)
    {op : ShiftOp}
    {shift : UnaryOp}
    (hop : ∀ e : Expr, .shifter op ∈ e.claims ↔ ∃ operand, e = .unary shift operand) :
    t.shifter = some op ↔ ∃ dest operand, i.Assigns dest (.unary shift operand) := by
  rw [h.shifter_eq_iff]
  constructor
  · rintro ⟨dest, e, -, ha, hclaim⟩
    obtain ⟨operand, rfl⟩ := (hop e).1 hclaim
    exact ⟨dest, operand, ha⟩
  · rintro ⟨dest, operand, ha⟩
    refine ⟨dest, _, ?_, ha, (hop _).2 ⟨operand, rfl⟩⟩
    rintro rfl
    obtain ⟨r, hr, -⟩ := h.load ha
    cases hr

end Units

section Words

variable {labels : LabelTable} {i : Instruction} {t : Resources} {v : Fields}

/-- The fields of the output path. -/
theorem Performs.shows_output
    (h : Performs labels i.subs t)
    (hv : t.ShownBy v) :
    IsLine (v .mbr) (∃ e, i.Assigns .mbr e) ∧ IsLine (v .mar) (∃ e, i.Assigns .mar e) ∧
      (∀ dest e, dest.OnBuses → i.Assigns dest e →
        v .enc = 1 ∧ (v .c).toNat = dest.index ∧
          ∀ other e', other.OnBuses → i.Assigns other e' → other = dest) ∧
      ((∀ dest e, dest.OnBuses → ¬ i.Assigns dest e) → v .enc = 0 ∧ v .c = 0) := by
  have hout : ∀ dest e, dest ≠ .mar → i.Assigns dest e → ∀ u ∈ dest.outputUses, t.Has u := by
    intro dest e hmar ha u hu
    rcases h.meets_assignment ha with ⟨hload, -⟩ | ⟨-, -, hmet⟩
    · exact absurd hload hmar
    · exact (has_of_meets_single hmet rfl hu).1
  have hbus : ∀ dest e, dest.OnBuses → i.Assigns dest e → t.c = some dest := by
    intro dest e hdest ha
    exact hout dest e hdest.1 ha (.onC dest) (mem_outputUses_iff.2 (Or.inr ⟨rfl, hdest.2⟩))
  refine ⟨?_, ?_, ?_, ?_⟩
  · rw [hv.mbr]
    refine isLine_of_iff ⟨fun hmbr => ?_, fun ⟨e, ha⟩ => ?_⟩
    · exact (h.assigns_of_output (u := .loadMbr) hmbr (mem_outputUses_iff.2 (by simp))).2
    · exact hout .mbr e (by simp) ha .loadMbr (mem_outputUses_iff.2 (by simp))
  · rw [hv.mar]
    refine isLine_of_iff ⟨fun hmar => h.assigns_of_loadMar hmar, fun ⟨e, ha⟩ => ?_⟩
    obtain ⟨r, -, hload, -⟩ := h.load ha
    exact hload
  · intro dest e hdest ha
    have hc := hbus dest e hdest ha
    refine ⟨by simp [hv.enc, hc], by simp [hv.c, hc], fun other e' hother ha' => ?_⟩
    rw [hbus other e' hother ha'] at hc
    exact Option.some.inj hc
  · intro hnone
    have hc : t.c = none := by
      refine Option.eq_none_iff_forall_ne_some.2 fun dest hdest => ?_
      have honBuses := h.sound.onBuses_c hdest
      obtain ⟨-, e, ha⟩ := h.assigns_of_output (u := .onC dest) hdest
        (mem_outputUses_iff.2 (Or.inr ⟨rfl, honBuses.2⟩))
      exact hnone dest e honBuses ha
    exact ⟨by simp [hv.enc, hc], UInt8.toNat_inj.1 (by simp [hv.c, hc])⟩

/-- The field of the ALU. -/
theorem Performs.shows_alu
    (h : Performs labels i.subs t)
    (hv : t.ShownBy v) :
    (∀ dest e code, dest ≠ .mar → i.Assigns dest e → e.aluCode? = some code → v .alu = code) ∧
      ((∀ dest e, dest ≠ .mar → i.Assigns dest e → e.aluCode? = none) → v .alu = 0) := by
  refine ⟨fun dest e code hmar ha hcode => ?_, fun hnone => ?_⟩
  · obtain ⟨op, hop, rfl⟩ := Expr.exists_alu_of_aluCode? hcode
    rw [hv.alu, h.has_alu ha (Or.inl hmar) hop, Option.elim_some]
  · have halu : t.alu = none := by
      refine Option.eq_none_iff_forall_ne_some.2 fun op hop => ?_
      rcases h.exists_employs (u := .alu op) hop (by simp) with
        ⟨r, hr, -⟩ | ⟨dest, e, hmar, ha, hclaim⟩
      · cases hr
      · rcases Expr.alu_mem_claims_iff.1 hclaim with hcode | ⟨-, left, right, rfl⟩
        · rw [hnone dest e hmar ha] at hcode
          cases hcode
        · exact h.not_inverted left right ha
    rw [hv.alu, halu, Option.elim_none]

/-- The field of the shifter. -/
theorem Performs.shows_shifter
    (h : Performs labels i.subs t)
    (hv : t.ShownBy v) :
    (v .sh = 2 ↔ ∃ dest operand, i.Assigns dest (.unary .leftShift operand)) ∧
      (v .sh = 1 ↔ ∃ dest operand, i.Assigns dest (.unary .rightShift operand)) ∧
      (v .sh ≠ 2 → v .sh ≠ 1 → v .sh = 0) := by
  have hleft : t.shifter = some .left ↔
      ∃ dest operand, i.Assigns dest (.unary .leftShift operand) :=
    h.shifter_eq_iff_unary (by simp [Expr.shifter_mem_claims_iff])
  have hright : t.shifter = some .right ↔
      ∃ dest operand, i.Assigns dest (.unary .rightShift operand) :=
    h.shifter_eq_iff_unary (by simp [Expr.shifter_mem_claims_iff])
  rw [← hleft, ← hright, hv.sh]
  cases t.shifter with
  | none => decide
  | some op => cases op <;> decide

/-- The A side and the B bus are free if no right-hand side needs them. -/
theorem Performs.shows_free
    (h : Performs labels i.subs t)
    (hv : t.ShownBy v) :
    ((∀ dest e, i.Assigns dest e → dest = .mar) → v .a = 0) ∧
      ((∀ dest e, i.Assigns dest e →
        dest ≠ .mar ∧ e.rightOperand? = none ∧ e.addends? = none) → v .b = 0) := by
  refine ⟨fun hnone => UInt8.toNat_inj.1 ?_, fun hnone => UInt8.toNat_inj.1 ?_⟩
  · have ha : t.a = none := by
      refine Option.eq_none_iff_forall_ne_some.2 fun r hr => ?_
      rcases h.exists_employs (u := .onA r) hr (by simp) with
        ⟨x, hx, -⟩ | ⟨dest, e, hmar, hassigns, -⟩
      · cases hx
      · exact hmar (hnone dest e hassigns)
    rw [hv.a, Resources.busA, ha]
    rfl
  · have hb : t.b = none := by
      refine Option.eq_none_iff_forall_ne_some.2 fun r hr => ?_
      rcases h.exists_employs (u := .onB r) hr (by simp) with
        ⟨x, -, e, hassigns⟩ | ⟨dest, e, -, hassigns, hneeds⟩
      · exact (hnone .mar e hassigns).1 rfl
      · obtain ⟨-, hright, hsum⟩ := hnone dest e hassigns
        simp [Expr.Employs, hright, hsum] at hneeds
    rw [hv.b, hb]
    rfl

/-- The condition of a jump has the code of its kind. -/
theorem code_of_jump?
    {sub : Subinstruction}
    {jump : Jump}
    {target : Located String}
    (h : sub.jump? = some (jump, target)) :
    (sub = .goto target ∧ jump.code = 3) ∨ (sub = .branch .zero target ∧ jump.code = 2) ∨
      (sub = .branch .negative target ∧ jump.code = 1) := by
  cases sub with
  | goto name =>
      cases h
      exact Or.inl ⟨rfl, rfl⟩
  | branch condition name =>
      cases h
      cases condition with
      | zero => exact Or.inr (Or.inl ⟨rfl, rfl⟩)
      | negative => exact Or.inr (Or.inr ⟨rfl, rfl⟩)
  | _ => cases h

/-- The fields of a branch. -/
theorem branch_of_encode
    {w : ControlWord}
    (hhalt : ∀ sub ∈ i.subs, sub.value ≠ .halt)
    (h : i.encode labels = .ok w) :
    ((∀ sub ∈ i.subs, sub.value.target? = none) ∧ w.fields .cond = 0 ∧ w.fields .addr = 0) ∨
      ∃ before sub after target, i.subs = before ++ sub :: after ∧
        (∀ x ∈ before ++ after, x.value.target? = none) ∧
        ((sub.value = .goto target ∧ w.fields .cond = 3) ∨
          (sub.value = .branch .zero target ∧ w.fields .cond = 2) ∨
          (sub.value = .branch .negative target ∧ w.fields .cond = 1)) ∧
        labels.address? target.value = some (w.fields .addr).toNat := by
  obtain ⟨t, hpack, hbranch⟩ := branch_of_encodeFrom hhalt h
  have hfields : w.fields = t.fields := Fields.fields_of_pack hpack
  rcases hbranch with ⟨hnone, ht⟩ | ⟨-, jump, address, honce, ht⟩
  · have hfree : t.branch = none := ht
    exact Or.inl ⟨fun sub hsub => (target?_eq_none_iff _).2 (hnone sub hsub),
      by rw [hfields, Resources.fields, hfree], by rw [hfields, Resources.fields, hfree]⟩
  · obtain ⟨before, sub, after, target, hsubs, hothers, hsub, haddress⟩ := honce
    have hcond : w.fields .cond = jump.code := by rw [hfields, Resources.fields, ht]
    have haddr : w.fields .addr = address := by rw [hfields, Resources.fields, ht]
    rw [hcond, haddr]
    exact Or.inr ⟨before, sub, after, target, hsubs,
      fun x hx => (target?_eq_none_iff _).2 (hothers x hx), code_of_jump? hsub,
      (LabelTable.target?_eq_some_iff _ _ _).1 haddress⟩

/-- **Exact fields.**  Every field of the word of an instruction without `halt` is what
its sub-instructions ask for, and zero where none of them asks for anything. -/
theorem fields_of_encode
    (labels : LabelTable)
    (i : Instruction)
    (w : ControlWord)
    (hhalt : ∀ sub ∈ i.subs, sub.value ≠ .halt)
    (h : i.encode labels = .ok w) :
    i.SetsFields labels w.fields := by
  obtain ⟨t, hpack, hper⟩ := exists_performs_of_encode hhalt h
  have hfields : w.fields = t.fields := Fields.fields_of_pack hpack
  have hv : t.ShownBy w.fields := hfields ▸ hper.sound.shownBy_fields
  obtain ⟨hmbr, hmar, hout, hfree⟩ := hper.shows_output hv
  obtain ⟨halu, halu_free⟩ := hper.shows_alu hv
  obtain ⟨hleft, hright, hshift⟩ := hper.shows_shifter hv
  obtain ⟨ha, hb⟩ := hper.shows_free hv
  exact {
    rd := hv.rd ▸ isLine_of_iff hper.rd_iff
    wr := hv.wr ▸ isLine_of_iff hper.wr_iff
    branch := branch_of_encode hhalt h
    mbr := hmbr
    mar := hmar
    output := hout
    output_free := hfree
    alu := halu
    alu_free := halu_free
    not_inverted := fun _ left right => hper.not_inverted left right
    left_shift := hleft
    right_shift := hright
    shifter_free := hshift
    amux := hv.amux ▸ isLine_of_iff hper.a_eq_mbr_iff
    left := fun _ _ _ hmar hassigns hr => hv.carriesA (hper.has_left hassigns hmar hr)
    right := fun _ _ _ hassigns hr => hv.carriesB (hper.has_right hassigns hr)
    load := by
      intro e hassigns
      obtain ⟨r, hr, -, hbus⟩ := hper.load hassigns
      exact ⟨r, hr, hv.carriesB hbus⟩
    sum := by
      intro dest e x y hassigns hsum
      rcases hper.has_addends hassigns hsum with ⟨hx, hy⟩ | ⟨hy, hx⟩
      · exact Or.inl ⟨hv.carriesA hx, hv.carriesB hy⟩
      · exact Or.inr ⟨hv.carriesA hy, hv.carriesB hx⟩
    a_free := ha
    b_free := hb }

/-- All units at work: a sum whose `mbr` must be on the A side goes to `mbr`, shifted to
`c`, while `b` on the B bus also goes to `mar`. -/
theorem fields_of_encode_sum :
    let here {α : Type} (value : α) : Located α := ⟨value, .point ⟨1, 1⟩⟩
    let i : Instruction := ⟨none, 0, [
      here (.assign (here .mar) (here (.read (here .b)))),
      here (.assign (here .c) (here (.unary .leftShift (.add (here .b) (here .mbr))))),
      here (.assign (here .mbr) (here (.add (here .mbr) (here .b)))),
      here .read,
      here (.branch .negative (here "x"))]⟩
    (∀ sub ∈ i.subs, sub.value ≠ .halt) ∧
      i.encode ⟨[("x", 7)]⟩ = .ok ⟨0xA5DCB007⟩ ∧
      i.SetsFields ⟨[("x", 7)]⟩ (ControlWord.mk 0xA5DCB007).fields := by
  intro here i
  have hhalt : ∀ sub ∈ i.subs, sub.value ≠ .halt := by decide
  have hencode : i.encode ⟨[("x", 7)]⟩ = .ok ⟨0xA5DCB007⟩ := by decide +kernel
  exact ⟨hhalt, hencode, fields_of_encode _ i _ hhalt hencode⟩

end Words

end Fields

end Microcode
