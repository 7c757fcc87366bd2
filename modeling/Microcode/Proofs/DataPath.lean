import Microcode.Proofs.Encoding.Demands
import Microcode.Proofs.Word.Packing

/-!
# One cycle of the data path

**Input.**  A control word and the contents of the registers, with values of any
type on which the ALU and the shifter compute.

**Algorithm.**  The A side takes `mbr` or the register of the A field, the B bus
the register of the B field.  The ALU and then the shifter turn them into one
result, which goes to the register of the C field and to `mbr` as far as their
lines say so.  `mar` is loaded from the B bus.

**Results.**  `cycle_encode`: a cycle of the word of an instruction performs all
its assignments on the old contents and writes nothing else.  A sum, a
conjunction or an inversion is kept from the destination only by a shift in the
same cycle.
-/

namespace Microcode

universe u

/-- What the ALU and the shifter compute. -/
structure Arithmetic (V : Type u) where
  add : V → V → V
  band : V → V → V
  invert : V → V
  shiftRight : V → V
  shiftLeft : V → V
  add_comm : ∀ x y, add x y = add y x

/-- The register of a number on a bus. -/
def Register.ofBusCode (code : UInt8) : Register :=
  Register.all.getD code.toNat .pc

section Cycle

variable {V : Type u}

/-- The value of the ALU for a code and two inputs. -/
def Arithmetic.alu (ar : Arithmetic V) (code : UInt8) (x y : V) : V :=
  match code.toNat with
  | 0 => ar.add x y
  | 1 => ar.band x y
  | 2 => x
  | _ => ar.invert x

/-- The value behind the shifter for a code and an input. -/
def Arithmetic.shifter (ar : Arithmetic V) (code : UInt8) (x : V) : V :=
  match code.toNat with
  | 1 => ar.shiftRight x
  | 2 => ar.shiftLeft x
  | _ => x

namespace ControlWord

/-- The value on the A side. -/
def inputA (w : ControlWord) (m : Register → V) : V :=
  if w.fields .amux = 1 then m .mbr else m (.ofBusCode (w.fields .a))

/-- The value on the B bus. -/
def inputB (w : ControlWord) (m : Register → V) : V :=
  m (.ofBusCode (w.fields .b))

/-- The value behind the ALU and the shifter. -/
def result (w : ControlWord) (ar : Arithmetic V) (m : Register → V) : V :=
  ar.shifter (w.fields .sh) (ar.alu (w.fields .alu) (w.inputA m) (w.inputB m))

/-- Whether a cycle writes a register. -/
def writes (w : ControlWord) (r : Register) : Bool :=
  if r = .mar then w.fields .mar = 1
  else if r = .mbr then w.fields .mbr = 1
  else w.fields .enc = 1 ∧ Register.ofBusCode (w.fields .c) = r

/-- The contents after a cycle. -/
def cycle (w : ControlWord) (ar : Arithmetic V) (m : Register → V) : Register → V :=
  fun r =>
    if w.writes r then (if r = .mar then w.inputB m else w.result ar m) else m r

end ControlWord

/-- The value of an operand in parentheses. -/
def Operand.value (ar : Arithmetic V) (m : Register → V) : Operand → V
  | read r => m r.value
  | add left right => ar.add (m left.value) (m right.value)

/-- The value of an operation in parentheses. -/
def UnaryOp.apply (ar : Arithmetic V) : UnaryOp → V → V
  | leftShift => ar.shiftLeft
  | rightShift => ar.shiftRight
  | invert => ar.invert

/-- The value of a right-hand side. -/
def Expr.value (ar : Arithmetic V) (m : Register → V) : Expr → V
  | read r => m r.value
  | add left right => ar.add (m left.value) (m right.value)
  | band left right => ar.band (m left.value) (m right.value)
  | unary op operand => op.apply ar (operand.value ar m)

end Cycle

/-- Whether a right-hand side is a shift. -/
def Expr.isShift : Expr → Bool
  | unary .leftShift _ => true
  | unary .rightShift _ => true
  | _ => false

/-- Right-hand sides that claim both the ALU and the shifter: a register, or a
shifted sum. -/
def Expr.Settled : Expr → Prop
  | read _ => True
  | unary .leftShift (.add _ _) => True
  | unary .rightShift (.add _ _) => True
  | _ => False

/-- Right-hand sides that claim the ALU but leave the shifter to others: a sum, a
conjunction, or an inverted register. -/
def Expr.Unshifted : Expr → Prop
  | add _ _ => True
  | band _ _ => True
  | unary .invert (.read _) => True
  | _ => False

/-- Whether no assignment of an instruction is a shift. -/
def Instruction.ShiftFree (i : Instruction) : Prop :=
  ∀ target e, i.Assigns target e → e.isShift = false

section Units

variable {V : Type u} {t : Resources} {w : ControlWord}

theorem ofBusCode_busCode
    {r : Register}
    (h : r ≠ .mar ∧ r ≠ .mbr ∧ r ≠ .alu) :
    Register.ofBusCode (Resources.busCode (some r)) = r := by
  cases r <;> simp_all <;> decide

/-- The register on the A side is the one that the word selects. -/
theorem inputA_of_has
    (hw : w.fields = t.fields)
    {r : Register}
    (h : t.Has (.onA r))
    (hr : r.isReadable = true)
    (m : Register → V) :
    w.inputA m = m r := by
  have ha : t.a = some r := h
  unfold ControlWord.inputA
  rw [hw]
  by_cases hmbr : r = .mbr
  · simp [Resources.fields, Resources.lineCode, ha, hmbr]
  · have hbus : r ≠ .mar ∧ r ≠ .mbr ∧ r ≠ .alu := by
      refine ⟨?_, hmbr, ?_⟩ <;> rintro rfl <;> cases hr
    simp [Resources.fields, Resources.lineCode, ha, hmbr, ofBusCode_busCode hbus]

/-- The register on the B bus is the one that the word selects. -/
theorem inputB_of_has
    (hw : w.fields = t.fields)
    {r : Register}
    (h : t.Has (.onB r))
    (hr : r.isReadable = true ∧ r ≠ .mbr)
    (m : Register → V) :
    w.inputB m = m r := by
  have hb : t.b = some r := h
  have hbus : r ≠ .mar ∧ r ≠ .mbr ∧ r ≠ .alu := by
    refine ⟨?_, hr.2, ?_⟩ <;> rintro rfl <;> cases hr.1
  unfold ControlWord.inputB
  rw [hw]
  simp only [Resources.fields, hb]
  rw [ofBusCode_busCode hbus]

/-- The ALU does what the cycle has claimed, and the shifter follows it. -/
theorem result_of_has
    (hw : w.fields = t.fields)
    {op : AluOp}
    (h : t.Has (.alu op))
    (ar : Arithmetic V)
    (m : Register → V) :
    w.result ar m =
      ar.shifter (t.fields .sh) (ar.alu op.code (w.inputA m) (w.inputB m)) := by
  have halu : t.alu = some op := h
  unfold ControlWord.result
  rw [hw]
  simp [Resources.fields, halu]

/-- The sum of two registers, whichever of them is on the A side. -/
theorem alu_add_of_meets
    (hw : w.fields = t.fields)
    {left right : Register}
    (h : t.Meets (.add left right))
    (ar : Arithmetic V)
    (m : Register → V) :
    ar.alu AluOp.add.code (w.inputA m) (w.inputB m) = ar.add (m left) (m right) := by
  have hcode : ∀ x y, ar.alu AluOp.add.code x y = ar.add x y := fun _ _ => rfl
  obtain ⟨us, hus, hall⟩ := h
  rw [hcode]
  simp only [Claim.ways, List.mem_cons, List.not_mem_nil, or_false] at hus
  rcases hus with rfl | rfl
  · obtain ⟨hA, hrA⟩ := hall (.onA left) (by simp)
    obtain ⟨hB, hrB⟩ := hall (.onB right) (by simp)
    rw [inputA_of_has hw hA hrA, inputB_of_has hw hB hrB]
  · obtain ⟨hA, hrA⟩ := hall (.onA right) (by simp)
    obtain ⟨hB, hrB⟩ := hall (.onB left) (by simp)
    rw [inputA_of_has hw hA hrA, inputB_of_has hw hB hrB, ar.add_comm]

/-- A claim that can be met in one way only has the uses of that way. -/
theorem has_of_meets_single
    {c : Claim}
    {us : List Use}
    (h : t.Meets c)
    (hways : c.ways = [us])
    {u : Use}
    (hu : u ∈ us) :
    t.Has u ∧ u.Permitted := by
  obtain ⟨vs, hvs, hall⟩ := h
  rw [hways, List.mem_singleton] at hvs
  subst hvs
  exact hall u hu

/-- The right-hand sides that claim the shifter reach the destination as they are. -/
theorem result_of_settled
    (hw : w.fields = t.fields)
    {e : Expr}
    (hmet : ∀ c ∈ e.claims, t.Meets c)
    (he : e.Settled)
    (ar : Arithmetic V)
    (m : Register → V) :
    w.result ar m = e.value ar m := by
  -- A shifted sum is the same argument for both directions.
  have hshift : ∀ (op : UnaryOp) (shift : ShiftOp) (left right : Located Register),
      op.claim = .shifter shift → e = .unary op (.add left right) →
      (∀ x, ar.shifter shift.code x = op.apply ar x) → w.result ar m = e.value ar m := by
    intro op shift left right hclaim hexpr hcode
    subst hexpr
    have hadd := hmet (.add left.value right.value) (by simp [Expr.claims, Operand.claims])
    have halu := (has_of_meets_single (hmet (.alu .add) (by simp [Expr.claims, Operand.claims]))
      rfl (List.mem_singleton_self _)).1
    have hsh : t.shifter = some shift := (has_of_meets_single
      (hmet (.shifter shift) (by simp [Expr.claims, hclaim])) rfl (List.mem_singleton_self _)).1
    have hfield : t.fields .sh = shift.code := by
      simp [Resources.fields, hsh]
    rw [result_of_has hw halu, hfield, alu_add_of_meets hw hadd]
    exact hcode _
  cases e with
  | read r =>
      obtain ⟨hA, hr⟩ := has_of_meets_single (hmet (.routeA r.value) (by simp [Expr.claims])) rfl
        (List.mem_singleton_self _)
      have halu := (has_of_meets_single (hmet (.alu .pass) (by simp [Expr.claims])) rfl
        (List.mem_singleton_self _)).1
      have hsh : t.shifter = some .keep := (has_of_meets_single
        (hmet (.shifter .keep) (by simp [Expr.claims])) rfl (List.mem_singleton_self _)).1
      have hfield : t.fields .sh = ShiftOp.keep.code := by
        simp [Resources.fields, hsh]
      rw [result_of_has hw halu, hfield, inputA_of_has hw hA hr]
      rfl
  | add left right =>
      cases he
  | band left right =>
      cases he
  | unary op operand =>
      cases operand with
      | read r =>
          cases op <;> cases he
      | add left right =>
          cases op with
          | leftShift => exact hshift _ .left left right rfl rfl (fun _ => rfl)
          | rightShift => exact hshift _ .right left right rfl rfl (fun _ => rfl)
          | invert => cases he

/-- The right-hand sides that leave the shifter free reach the destination if
nothing else shifts. -/
theorem result_of_unshifted
    (hw : w.fields = t.fields)
    {e : Expr}
    (hmet : ∀ c ∈ e.claims, t.Meets c)
    (he : e.Unshifted)
    (hkeep : ∀ shift, t.Has (.shifter shift) → shift = .keep)
    (ar : Arithmetic V)
    (m : Register → V) :
    w.result ar m = e.value ar m := by
  have hthrough : ∀ x, ar.shifter (t.fields .sh) x = x := by
    intro x
    simp only [Resources.fields]
    cases hsh : t.shifter with
    | none =>
        rfl
    | some shift =>
        rw [hkeep shift hsh]
        rfl
  have halu : ∀ op, .alu op ∈ e.claims → t.Has (.alu op) := fun op hop =>
    (has_of_meets_single (hmet _ hop) rfl (List.mem_singleton_self _)).1
  cases e with
  | read r =>
      cases he
  | add left right =>
      have hadd := hmet (.add left.value right.value) (by simp [Expr.claims])
      rw [result_of_has hw (halu .add (by simp [Expr.claims])), hthrough,
        alu_add_of_meets hw hadd]
      rfl
  | band left right =>
      obtain ⟨hA, hrA⟩ := has_of_meets_single (hmet (.routeA left.value) (by simp [Expr.claims]))
        rfl (List.mem_singleton_self _)
      obtain ⟨hB, hrB⟩ := has_of_meets_single (hmet (.routeB right.value) (by simp [Expr.claims]))
        rfl (List.mem_singleton_self _)
      rw [result_of_has hw (halu .band (by simp [Expr.claims])), hthrough,
        inputA_of_has hw hA hrA, inputB_of_has hw hB hrB]
      rfl
  | unary op operand =>
      cases operand with
      | add left right =>
          cases op <;> cases he
      | read r =>
          cases op with
          | leftShift => cases he
          | rightShift => cases he
          | invert =>
              obtain ⟨hA, hrA⟩ := has_of_meets_single
                (hmet (.routeA r.value) (by simp [Expr.claims, Operand.claims])) rfl
                (List.mem_singleton_self _)
              rw [result_of_has hw (halu .invert (by simp [Expr.claims, UnaryOp.claim])), hthrough,
                inputA_of_has hw hA hrA]
              rfl

end Units

section Writes

variable {labels : LabelTable} {i : Instruction} {t : Resources} {w : ControlWord}

/-- The number of a bus register is too small for `alu`. -/
theorem writes_alu
    (w : ControlWord) :
    w.writes .alu = false := by
  have hlt : (w.fields .c).toNat < 16 := by
    have hmod : (w.bits.toNat >>> Field.c.shift) % Field.c.capacity < 16 :=
      Nat.mod_lt _ (by decide)
    have hbyte : (w.fields .c).toNat = (w.bits.toNat >>> Field.c.shift) % Field.c.capacity := by
      simp only [ControlWord.fields, UInt8.toNat_ofNat']
      omega
    omega
  have hne : Register.ofBusCode (w.fields .c) ≠ .alu := by
    unfold Register.ofBusCode
    interval_cases (w.fields .c).toNat <;> decide
  simp [ControlWord.writes, hne]

/-- A destination that the cycle has claimed is written, unless it is `alu`. -/
theorem writes_of_meets_output
    (hw : w.fields = t.fields)
    {target : Register}
    (hmar : target ≠ .mar)
    (halu : target ≠ .alu)
    (h : t.Meets (.output target)) :
    w.writes target = true := by
  have huse : ∀ u ∈ target.outputUses, t.Has u := fun u hu => (has_of_meets_single h rfl hu).1
  unfold ControlWord.writes
  rw [if_neg hmar, hw]
  by_cases hmbr : target = .mbr
  · have hline : t.mbr = true := huse .loadMbr (by simp [Register.outputUses, hmbr])
    simp [Resources.fields, Resources.lineCode, hmbr, hline]
  · have hc : t.c = some target := huse (.onC target) (by simp [Register.outputUses, hmbr, halu])
    simp [Resources.fields, Resources.lineCode, hmbr, hc, ofBusCode_busCode ⟨hmar, hmbr, halu⟩]

/-- A right-hand side claims operands, the ALU and the shifter only. -/
theorem claim_cases_of_mem_claims
    {e : Expr}
    {c : Claim}
    (h : c ∈ e.claims) :
    (∃ r, c = .routeA r) ∨ (∃ r, c = .routeB r) ∨ (∃ l r, c = .add l r) ∨
      (∃ op, c = .alu op) ∨ (∃ op, c = .shifter op) := by
  cases e with
  | read r =>
      simp [Expr.claims] at h
      rcases h with rfl | rfl | rfl <;> simp
  | add left right =>
      simp [Expr.claims] at h
      rcases h with rfl | rfl <;> simp
  | band left right =>
      simp [Expr.claims] at h
      rcases h with rfl | rfl | rfl <;> simp
  | unary op operand =>
      simp only [Expr.claims, List.mem_append, List.mem_singleton] at h
      rcases h with h | rfl
      · cases operand with
        | read r =>
            simp [Operand.claims] at h
            simp [h]
        | add left right =>
            simp [Operand.claims] at h
            rcases h with rfl | rfl <;> simp
      · cases op <;> simp [UnaryOp.claim]

/-- A right-hand side claims no way out of the data path. -/
theorem not_asks_output_of_mem_claims
    {e : Expr}
    {c : Claim}
    (h : c ∈ e.claims) :
    ¬ c.Asks .loadMbr ∧ ¬ c.Asks .loadMar ∧ ∀ r, ¬ c.Asks (.onC r) := by
  rcases claim_cases_of_mem_claims h with
    ⟨r, rfl⟩ | ⟨r, rfl⟩ | ⟨l, r, rfl⟩ | ⟨op, rfl⟩ | ⟨op, rfl⟩ <;>
    simp [Claim.Asks, Claim.ways]

theorem onDataPath_of_asks
    {c : Claim}
    {u : Use}
    (h : c.Asks u)
    (hu : u = .loadMbr ∨ u = .loadMar ∨ (∃ r, u = .onC r) ∨ ∃ op, u = .shifter op) :
    c.onDataPath = true := by
  rcases hu with rfl | rfl | ⟨r, rfl⟩ | ⟨op, rfl⟩ <;>
    cases c <;> simp_all [Claim.Asks, Claim.ways, Claim.onDataPath]

/-- The way out to a destination: the line of `mbr`, or the C bus. -/
theorem mem_outputUses_iff
    {u : Use}
    {target : Register} :
    u ∈ target.outputUses ↔
      (u = .loadMbr ∧ target = .mbr) ∨ (u = .onC target ∧ target ≠ .mbr ∧ target ≠ .alu) := by
  unfold Register.outputUses
  by_cases hmbr : target = .mbr
  · simp [hmbr]
  · by_cases halu : target = .alu
    · simp [halu]
    · simp [hmbr, halu]

/-- A way out of the data path was claimed by the destination it leads to. -/
theorem Performs.assigns_of_output
    (h : Performs labels i.subs t)
    {u : Use}
    (hu : t.Has u)
    {target : Register}
    (hout : u ∈ target.outputUses) :
    target ≠ .mar ∧ ∃ e, i.Assigns target e := by
  have hkind : u = .loadMbr ∨ u = .loadMar ∨ (∃ r, u = .onC r) ∨ ∃ op, u = .shifter op := by
    rcases mem_outputUses_iff.1 hout with ⟨rfl, -⟩ | ⟨rfl, -⟩ <;> simp
  obtain ⟨dest, e, ha, hask⟩ := h.assigns_of_asked hu (fun c hc => onDataPath_of_asks hc hkind)
  rcases hask with ⟨-, r, -, hask⟩ | ⟨hmar, c, hc, hask⟩
  · -- Loading `mar` uses the B bus and a line of its own.
    exfalso
    rcases mem_outputUses_iff.1 hout with ⟨rfl, -⟩ | ⟨rfl, -⟩ <;>
      simp [Claim.Asks, Claim.ways] at hask
  · have hdest : dest = target := by
      rcases List.mem_append.1 hc with hc | hc
      · obtain ⟨hmbr, -, hbus⟩ := not_asks_output_of_mem_claims hc
        rcases mem_outputUses_iff.1 hout with ⟨rfl, -⟩ | ⟨rfl, -⟩
        · exact absurd hask hmbr
        · exact absurd hask (hbus target)
      · have hmem : u ∈ dest.outputUses := by
          rw [List.mem_singleton.1 hc] at hask
          simpa [Claim.Asks, Claim.ways] using hask
        rcases mem_outputUses_iff.1 hout with ⟨rfl, rfl⟩ | ⟨rfl, -⟩
        · simpa using mem_outputUses_iff.1 hmem
        · rcases mem_outputUses_iff.1 hmem with ⟨heq, -⟩ | ⟨heq, -⟩
          · cases heq
          · exact (Use.onC.inj heq).symm
    rw [hdest] at hmar ha
    exact ⟨hmar, e, ha⟩

/-- `mar` is loaded only if it is assigned to. -/
theorem Performs.assigns_of_loadMar
    (h : Performs labels i.subs t)
    (hu : t.Has .loadMar) :
    ∃ e, i.Assigns .mar e := by
  obtain ⟨dest, e, ha, hask⟩ :=
    h.assigns_of_asked hu (fun c hc => onDataPath_of_asks hc (by simp))
  rcases hask with ⟨rfl, -⟩ | ⟨-, c, hc, hask⟩
  · exact ⟨e, ha⟩
  · exfalso
    rcases List.mem_append.1 hc with hc | hc
    · exact (not_asks_output_of_mem_claims hc).2.1 hask
    · have hmem : Use.loadMar ∈ dest.outputUses := by
        rw [List.mem_singleton.1 hc] at hask
        simpa [Claim.Asks, Claim.ways] using hask
      simp [mem_outputUses_iff] at hmem

/-- A register that a cycle writes is the destination of an assignment. -/
theorem Performs.assigns_of_writes
    (h : Performs labels i.subs t)
    (hw : w.fields = t.fields)
    {r : Register}
    (hr : w.writes r = true) :
    r ≠ .alu ∧ ∃ e, i.Assigns r e := by
  refine ⟨?_, ?_⟩
  · rintro rfl
    rw [writes_alu] at hr
    cases hr
  · unfold ControlWord.writes at hr
    rw [hw] at hr
    by_cases hmar : r = .mar
    · have hline : t.mar = true := by
        simpa [Resources.fields, Resources.lineCode, hmar] using hr
      rw [hmar]
      exact h.assigns_of_loadMar hline
    · by_cases hmbr : r = .mbr
      · have hline : t.mbr = true := by
          simpa [Resources.fields, Resources.lineCode, hmar, hmbr] using hr
        exact (h.assigns_of_output (u := .loadMbr) hline (mem_outputUses_iff.2 (by simp [hmbr]))).2
      · rw [if_neg hmar, if_neg hmbr] at hr
        obtain ⟨henc, hcode⟩ := of_decide_eq_true hr
        simp only [Resources.fields] at henc hcode
        cases hc : t.c with
        | none =>
            simp [hc, Resources.lineCode] at henc
        | some x =>
            obtain ⟨sub, -, cs, hcs, c, -, hask⟩ := h.asked (.onC x) hc
            have hout : Use.onC x ∈ x.outputUses := by
              cases c <;> simp [Claim.Asks, Claim.ways] at hask
              rcases mem_outputUses_iff.1 hask with ⟨heq, -⟩ | ⟨heq, hrest⟩
              · cases heq
              · rw [Use.onC.inj heq]
                exact mem_outputUses_iff.2 (Or.inr ⟨rfl, hrest⟩)
            obtain ⟨hxmar, e, ha⟩ := h.assigns_of_output (u := .onC x) hc hout
            have hx : x ≠ .mbr ∧ x ≠ .alu := by
              simpa using mem_outputUses_iff.1 hout
            rw [hc, ofBusCode_busCode ⟨hxmar, hx⟩] at hcode
            exact ⟨e, hcode ▸ ha⟩

/-- Without shifts the shifter is free or keeps its input. -/
theorem Performs.keep_of_shiftFree
    (h : Performs labels i.subs t)
    (hfree : i.ShiftFree)
    (shift : ShiftOp)
    (hu : t.Has (.shifter shift)) :
    shift = .keep := by
  obtain ⟨target, e, ha, hask⟩ :=
    h.assigns_of_asked hu (fun c hc => onDataPath_of_asks hc (by simp))
  have hshift := hfree target e ha
  rcases hask with ⟨-, r, -, hask⟩ | ⟨-, c, hc, hask⟩
  · simp [Claim.Asks, Claim.ways] at hask
  · have hclaim : c = .shifter shift := by
      cases c <;> simp [Claim.Asks, Claim.ways, mem_outputUses_iff] at hask ⊢
      exact hask.symm
    subst hclaim
    cases e with
    | read r =>
        simpa [Expr.claims] using hc
    | add left right =>
        simp [Expr.claims] at hc
    | band left right =>
        simp [Expr.claims] at hc
    | unary op operand =>
        cases op with
        | leftShift => cases hshift
        | rightShift => cases hshift
        | invert => cases operand <;> simp [Expr.claims, Operand.claims, UnaryOp.claim] at hc

/-- The shifter has no code that a word of a cycle shares with the halting word. -/
theorem ne_halt_of_fields
    (hw : w.fields = t.fields) :
    w ≠ .halt := by
  rintro rfl
  have hsh : ControlWord.halt.fields .sh = t.fields .sh := by
    rw [hw]
  have hcode : t.fields .sh ≠ 3 := by
    simp only [Resources.fields]
    cases t.shifter with
    | none => decide
    | some shift => cases shift <;> decide
  exact hcode (hsh.symm.trans (by decide))

end Writes

section Meaning

variable {V : Type u}

/-- **A word means what its instruction says.**  The word of an instruction
without `halt` is not the halting word.  In its cycle

* `mar` is assigned from a plain register only and gets its old value;
* every other destination gets the result, except that `alu` stores nothing;
* the result is the value of the right-hand side if this is a register or a
  shifted sum, and also if it is a sum, a conjunction or an inverted register and
  nothing is shifted;
* nothing is written that is not assigned to. -/
theorem cycle_encode
    (ar : Arithmetic V)
    (labels : LabelTable)
    (i : Instruction)
    (w : ControlWord)
    (hhalt : ∀ sub ∈ i.subs, sub.value ≠ .halt)
    (h : i.encode labels = .ok w)
    (m : Register → V) :
    w ≠ .halt ∧
      (∀ e, i.Assigns .mar e →
        ∃ r, e = .read r ∧ w.writes .mar = true ∧ w.cycle ar m .mar = m r.value) ∧
      (∀ target e, i.Assigns target e → target ≠ .mar →
        (if target = .alu then w.writes target = false
          else w.writes target = true ∧ w.cycle ar m target = w.result ar m) ∧
        (e.Settled ∨ (e.Unshifted ∧ i.ShiftFree) → w.result ar m = e.value ar m)) ∧
      (∀ r, w.writes r = true → r ≠ .alu ∧ ∃ e, i.Assigns r e) ∧
      (∀ r, (¬ ∃ e, i.Assigns r e) → w.cycle ar m r = m r) := by
  obtain ⟨t, hpack, hper⟩ := exists_performs_of_encode hhalt h
  have hw : w.fields = t.fields := Fields.fields_of_pack hpack
  refine ⟨ne_halt_of_fields hw, ?_, ?_, fun r => hper.assigns_of_writes hw, ?_⟩
  · intro e ha
    rcases hper.meets_assignment ha with ⟨-, r, hr, hload⟩ | ⟨hne, -⟩
    · obtain ⟨hB, hrB⟩ := has_of_meets_single hload rfl (List.mem_cons_self ..)
      have hline : t.mar = true :=
        (has_of_meets_single (u := .loadMar) hload rfl (by simp)).1
      have hwrites : w.writes .mar = true := by
        simp [ControlWord.writes, hw, Resources.fields, Resources.lineCode, hline]
      refine ⟨r, hr, hwrites, ?_⟩
      rw [ControlWord.cycle, if_pos hwrites, if_pos rfl, inputB_of_has hw hB hrB]
    · exact absurd rfl hne
  · intro target e ha hmar
    rcases hper.meets_assignment ha with ⟨hmar', -⟩ | ⟨-, hmet, hout⟩
    · exact absurd hmar' hmar
    · refine ⟨?_, ?_⟩
      · split
        · next halu =>
            rw [halu, writes_alu]
        · next halu =>
            have hwrites := writes_of_meets_output hw hmar halu hout
            refine ⟨hwrites, ?_⟩
            rw [ControlWord.cycle, if_pos hwrites, if_neg hmar]
      · rintro (hsettled | ⟨hunshifted, hfree⟩)
        · exact result_of_settled hw hmet hsettled ar m
        · exact result_of_unshifted hw hmet hunshifted (hper.keep_of_shiftFree hfree) ar m
  · intro r hr
    have hwrites : ¬ w.writes r = true := fun hwr => hr (hper.assigns_of_writes hw hwr).2
    rw [ControlWord.cycle, if_neg hwrites]

/-- The arithmetic of 16-bit words. -/
def Arithmetic.words : Arithmetic (BitVec 16) where
  add x y := x + y
  band x y := x &&& y
  invert x := ~~~ x
  shiftRight x := x >>> 1
  shiftLeft x := x <<< 1
  add_comm := BitVec.add_comm

/-- The instruction `mar := sp; sp := sp + 1; rd;`, whose sum has to be exchanged
because `sp` is on the B bus already. -/
def Instruction.popRequest : Instruction :=
  let here : Span := .point .start
  { label := none
    address := 0
    subs :=
      [⟨.assign ⟨.mar, here⟩ ⟨.read ⟨.sp, here⟩, here⟩, here⟩,
        ⟨.assign ⟨.sp, here⟩ ⟨.add ⟨.sp, here⟩ ⟨.one, here⟩, here⟩, here⟩,
        ⟨.read, here⟩] }

/-- With every register holding its own number, a pop reads address 2 and moves
`sp` from 2 to 2 + 6. -/
theorem cycle_encode_popRequest :
    (∀ sub ∈ Instruction.popRequest.subs, sub.value ≠ .halt) ∧
      Instruction.popRequest.encode ⟨[]⟩ = .ok ⟨0x00D22600⟩ ∧
      ControlWord.cycle ⟨0x00D22600⟩ .words (fun r => BitVec.ofNat 16 r.index) .mar = 2 ∧
      ControlWord.cycle ⟨0x00D22600⟩ .words (fun r => BitVec.ofNat 16 r.index) .sp = 8 := by
  have hhalt : ∀ sub ∈ Instruction.popRequest.subs, sub.value ≠ .halt := by
    decide
  have hword : Instruction.popRequest.encode ⟨[]⟩ = .ok ⟨0x00D22600⟩ := by
    rfl
  obtain ⟨-, hmar, hother, -⟩ :=
    cycle_encode .words ⟨[]⟩ .popRequest _ hhalt hword (fun r => BitVec.ofNat 16 r.index)
  obtain ⟨r, hr, -, hload⟩ := hmar _ ⟨_, List.mem_cons_self .., _, _, rfl, rfl, rfl⟩
  obtain ⟨hstore, hvalue⟩ := hother .sp _
    ⟨_, List.mem_cons_of_mem _ (List.mem_cons_self ..), _, _, rfl, rfl, rfl⟩ (by decide)
  have hfree : Instruction.popRequest.ShiftFree := by
    rintro target e ⟨sub, hsub, dest, source, hassign, -, rfl⟩
    simp only [Instruction.popRequest, List.mem_cons, List.not_mem_nil, or_false] at hsub
    rcases hsub with rfl | rfl | rfl <;> cases hassign <;> rfl
  refine ⟨hhalt, hword, ?_, ?_⟩
  · rw [hload, ← Expr.read.inj hr]
    rfl
  · rw [if_neg (by decide)] at hstore
    rw [hstore.2, hvalue (Or.inr ⟨trivial, hfree⟩)]
    rfl

end Meaning

end Microcode
