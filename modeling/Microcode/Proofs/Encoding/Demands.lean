import Microcode.Encoding
import Microcode.Proofs.Resources.Uses

/-!
# What an instruction demands of its cycle

The sub-instructions of an instruction without `halt` make up one list of
claims.  If the instruction has a word, the whole list was granted, so the cycle
behind the word meets every one of the claims and does nothing else.

**Results.**
* `exists_performs_of_encode`: behind the word of an instruction stands a cycle
  that performs its sub-instructions.
* `exists_faulty_of_encodeAll`: the first instruction without a word stops the
  encoding of a program.
* `Performs.meets_assignment` and `Performs.assigns_of_asked`: what this says
  about assignments, from the assignment to the units and back.
-/

namespace Microcode

/-- What is left of the encoding of a sub-instruction: its claims. -/
def Subinstruction.HasClaims
    (labels : LabelTable)
    (sub : Located Subinstruction)
    (cs : List Claim) : Prop :=
  Subinstruction.demand labels sub = .ok (.claims cs)

/-- A cycle that meets the claims of some sub-instructions and has no use that
none of them asks for. -/
structure Performs (labels : LabelTable) (subs : List (Located Subinstruction))
    (t : Resources) : Prop where
  met : ∀ sub ∈ subs, ∃ cs, Subinstruction.HasClaims labels sub cs ∧ ∀ c ∈ cs, t.Meets c
  asked : ∀ u, t.Has u →
    ∃ sub ∈ subs, ∃ cs, Subinstruction.HasClaims labels sub cs ∧ ∃ c ∈ cs, c.Asks u

/-- Whether an instruction assigns a right-hand side to a register. -/
def Instruction.Assigns (i : Instruction) (target : Register) (e : Expr) : Prop :=
  ∃ sub ∈ i.subs, ∃ dest source,
    sub.value = .assign dest source ∧ dest.value = target ∧ source.value = e

section Runs

variable {labels : LabelTable}

/-- Only a `halt` asks to stop. -/
theorem demand_ne_stop
    {sub : Located Subinstruction}
    (h : sub.value ≠ .halt) :
    Subinstruction.demand labels sub ≠ .ok .stop := by
  intro hstop
  unfold Subinstruction.demand jumpDemand at hstop
  split at hstop
  · exact h ‹_›
  all_goals (repeat' split at hstop) <;> simp at hstop

/-- A `halt` gives the halting word, whatever stands before and after it. -/
theorem encodeFrom_halt
    (s : Resources)
    {sub : Located Subinstruction}
    (subs : List (Located Subinstruction))
    (h : sub.value = .halt) :
    encodeFrom labels s (sub :: subs) = .ok .halt := by
  simp only [encodeFrom, Subinstruction.demand, h]

/-- One step of an encoding: the first sub-instruction has claims, they are
granted, and the rest is encoded. -/
theorem encodeFrom_cons_eq_ok
    {s : Resources}
    {sub : Located Subinstruction}
    {subs : List (Located Subinstruction)}
    {w : ControlWord}
    (hhalt : sub.value ≠ .halt)
    (h : encodeFrom labels s (sub :: subs) = .ok w) :
    ∃ cs s', Subinstruction.HasClaims labels sub cs ∧
      s.claimAll cs = .ok s' ∧ encodeFrom labels s' subs = .ok w := by
  simp only [encodeFrom] at h
  split at h
  · simp at h
  · next hstop => exact absurd hstop (demand_ne_stop hhalt)
  · next cs hcs =>
      split at h
      · next s' hs => exact ⟨cs, s', hcs, hs, h⟩
      · simp at h

/-- The claims of the sub-instructions, one after the other, lead to the word. -/
theorem exists_claimAll_of_encodeFrom
    {s : Resources}
    {subs : List (Located Subinstruction)}
    {w : ControlWord}
    (hhalt : ∀ sub ∈ subs, sub.value ≠ .halt)
    (h : encodeFrom labels s subs = .ok w) :
    ∃ all t, s.claimAll all = .ok t ∧ t.pack = .ok w ∧
      (∀ sub ∈ subs, ∃ cs, Subinstruction.HasClaims labels sub cs ∧ ∀ c ∈ cs, c ∈ all) ∧
      (∀ c ∈ all, ∃ sub ∈ subs, ∃ cs, Subinstruction.HasClaims labels sub cs ∧ c ∈ cs) := by
  induction subs generalizing s with
  | nil =>
      refine ⟨[], s, rfl, ?_, by simp, by simp⟩
      simp only [encodeFrom, Resources.word] at h
      split at h
      · next word hpack => rwa [← Except.ok.inj h]
      · simp at h
  | cons sub subs ih =>
      obtain ⟨cs, s', hcs, hs, hrest⟩ := encodeFrom_cons_eq_ok (hhalt sub (by simp)) h
      obtain ⟨all, t, hall, hpack, hfrom, hto⟩ :=
        ih (fun sub' h' => hhalt sub' (List.mem_cons_of_mem _ h')) hrest
      refine ⟨cs ++ all, t, ?_, hpack, ?_, ?_⟩
      · rw [Resources.claimAll_append, hs]
        exact hall
      · intro sub' hsub'
        rcases List.mem_cons.1 hsub' with rfl | hsub'
        · exact ⟨cs, hcs, fun c hc => List.mem_append_left _ hc⟩
        · obtain ⟨own, hown, hmem⟩ := hfrom sub' hsub'
          exact ⟨own, hown, fun c hc => List.mem_append_right _ (hmem c hc)⟩
      · intro c hc
        rcases List.mem_append.1 hc with hc | hc
        · exact ⟨sub, by simp, cs, hcs, hc⟩
        · obtain ⟨sub', hsub', own, hown, hmem⟩ := hto c hc
          exact ⟨sub', List.mem_cons_of_mem _ hsub', own, hown, hmem⟩

/-- Behind the word of an instruction without `halt` stands a cycle that
performs its sub-instructions. -/
theorem exists_performs_of_encode
    {i : Instruction}
    {w : ControlWord}
    (hhalt : ∀ sub ∈ i.subs, sub.value ≠ .halt)
    (h : i.encode labels = .ok w) :
    ∃ t : Resources, t.pack = .ok w ∧ Performs labels i.subs t := by
  obtain ⟨all, t, hall, hpack, hfrom, hto⟩ := exists_claimAll_of_encodeFrom hhalt h
  refine ⟨t, hpack, ?_, ?_⟩
  · intro sub hsub
    obtain ⟨cs, hcs, hmem⟩ := hfrom sub hsub
    exact ⟨cs, hcs, fun c hc => Resources.meets_of_claimAll hall c (hmem c hc)⟩
  · intro u hu
    rcases Resources.asked_of_claimAll hall u hu with hfresh | ⟨c, hc, hask⟩
    · exact absurd hfresh (Resources.not_has_fresh u)
    · obtain ⟨sub, hsub, cs, hcs, hmem⟩ := hto c hc
      exact ⟨sub, hsub, cs, hcs, c, hmem, hask⟩

theorem encodeAll_cons_eq_ok_iff
    {i : Instruction}
    {is : List Instruction}
    {words : List ControlWord} :
    encodeAll labels (i :: is) = .ok words ↔
      ∃ w ws, i.encode labels = .ok w ∧ encodeAll labels is = .ok ws ∧ words = w :: ws := by
  simp only [encodeAll]
  cases i.encode labels with
  | error fault => simp
  | ok w => cases encodeAll labels is <;> simp [eq_comm]

/-- If instructions have no words, there is a first one that has none. -/
theorem exists_faulty_of_encodeAll
    {is : List Instruction}
    {fault : Fault}
    (h : encodeAll labels is = .error fault) :
    ∃ above i below words, is = above ++ i :: below ∧ encodeAll labels above = .ok words ∧
      i.encode labels = .error fault := by
  induction is with
  | nil =>
      cases h
  | cons i is ih =>
      cases hi : i.encode labels with
      | error fault =>
          simp only [encodeAll, hi] at h
          cases h
          exact ⟨[], i, is, [], rfl, rfl, hi⟩
      | ok word =>
          simp only [encodeAll, hi] at h
          split at h
          · next fault hfault =>
              cases h
              obtain ⟨above, j, below, words, rfl, habove, hj⟩ := ih hfault
              exact ⟨i :: above, j, below, word :: words, rfl,
                encodeAll_cons_eq_ok_iff.2 ⟨word, words, hi, habove, rfl⟩, hj⟩
          · cases h

end Runs

section Assignments

variable {labels : LabelTable}

/-- The claims of an assignment: `mar` is loaded from a plain register, and every
other destination takes what its right-hand side computes. -/
theorem Subinstruction.HasClaims.assign_cases
    {sub : Located Subinstruction}
    {cs : List Claim}
    {dest : Located Register}
    {source : Located Expr}
    (h : Subinstruction.HasClaims labels sub cs)
    (hsub : sub.value = .assign dest source) :
    (dest.value = .mar ∧ ∃ r, source.value = .read r ∧ cs = [.loadMar r.value]) ∨
      (dest.value ≠ .mar ∧ cs = source.value.claims ++ [.output dest.value]) := by
  unfold Subinstruction.HasClaims Subinstruction.demand at h
  rw [hsub] at h
  simp only at h
  split at h
  · simp at h
  · split at h
    · next claims hclaims =>
        cases h
        unfold assignmentClaims at hclaims
        split at hclaims
        · next hmar =>
            split at hclaims
            · next r hr =>
                cases hclaims
                exact Or.inl ⟨hmar, r, hr, rfl⟩
            · simp at hclaims
        · next hmar =>
            cases hclaims
            exact Or.inr ⟨hmar, rfl⟩
    · simp at h

/-- Whether a claim belongs to the data path rather than to memory or to a jump. -/
def Claim.onDataPath : Claim → Bool
  | .read | .write | .branch _ _ => false
  | _ => true

/-- Only assignments claim the data path. -/
theorem Subinstruction.HasClaims.exists_assign
    {sub : Located Subinstruction}
    {cs : List Claim}
    (h : Subinstruction.HasClaims labels sub cs)
    {c : Claim}
    (hc : c ∈ cs)
    (hpath : c.onDataPath = true) :
    ∃ dest source, sub.value = .assign dest source := by
  unfold Subinstruction.HasClaims Subinstruction.demand jumpDemand at h
  split at h
  case h_6 dest source hsub =>
      exact ⟨dest, source, hsub⟩
  all_goals
      -- The claims of all other sub-instructions lie off the data path.
      repeat' split at h
      all_goals
        cases h
      all_goals
        cases List.mem_singleton.1 hc
        cases hpath

variable {i : Instruction} {t : Resources}

/-- The cycle of an instruction meets the claims of its assignments. -/
theorem Performs.meets_assignment
    (h : Performs labels i.subs t)
    {target : Register}
    {e : Expr}
    (ha : i.Assigns target e) :
    (target = .mar ∧ ∃ r, e = .read r ∧ t.Meets (.loadMar r.value)) ∨
      (target ≠ .mar ∧ (∀ c ∈ e.claims, t.Meets c) ∧ t.Meets (.output target)) := by
  obtain ⟨sub, hsub, dest, source, hassign, rfl, rfl⟩ := ha
  obtain ⟨cs, hcs, hmet⟩ := h.met sub hsub
  rcases hcs.assign_cases hassign with ⟨hmar, r, hr, rfl⟩ | ⟨hmar, rfl⟩
  · exact Or.inl ⟨hmar, r, hr, hmet _ (List.mem_singleton_self _)⟩
  · exact Or.inr ⟨hmar, fun c hc => hmet c (List.mem_append_left _ hc),
      hmet _ (List.mem_append_right _ (List.mem_singleton_self _))⟩

/-- A use of the data path was asked for by an assignment. -/
theorem Performs.assigns_of_asked
    (h : Performs labels i.subs t)
    {u : Use}
    (hu : t.Has u)
    (hpath : ∀ c : Claim, c.Asks u → c.onDataPath = true) :
    ∃ target e, i.Assigns target e ∧
      ((target = .mar ∧ ∃ r, e = .read r ∧ (Claim.loadMar r.value).Asks u) ∨
        (target ≠ .mar ∧ ∃ c ∈ e.claims ++ [.output target], c.Asks u)) := by
  obtain ⟨sub, hsub, cs, hcs, c, hc, hask⟩ := h.asked u hu
  obtain ⟨dest, source, hassign⟩ := hcs.exists_assign hc (hpath c hask)
  refine ⟨dest.value, source.value, ⟨sub, hsub, dest, source, hassign, rfl, rfl⟩, ?_⟩
  rcases hcs.assign_cases hassign with ⟨hmar, r, hr, rfl⟩ | ⟨hmar, rfl⟩
  · rw [List.mem_singleton.1 hc] at hask
    exact Or.inl ⟨hmar, r, hr, hask⟩
  · exact Or.inr ⟨hmar, c, hc, hask⟩

end Assignments

end Microcode
