import StackScript.Proofs.Machine.Frame

/-!
# Runs

A run is a number of steps. It ends with a step that halts or faults, or else where its steps are
used up.

* **`runFrom_of_step`**, **`runFrom_of_halt`**, **`runFrom_of_fault`**: what the first step says
  about a run.
* **`Machine.Reaches`**: one state follows another after a number of steps.
* **`Reaches.runFrom_eq`**: a run goes on from every state that it reaches.
* **`reaches_of_unfinished`**, **`reaches_of_failed`**, **`reaches_of_finished`**: the three ways in
  which a run can end, each with the states before its end.
-/

namespace StackScript.Machine

/-! ## The first step

A run goes on after its first step, or ends with it. The line of a fault is that of the instruction
which faults. -/

section FirstStep

variable {chunk : Chunk} {m next : Machine}

theorem runFrom_of_step (h : step chunk m = .ok .running next) (steps : Nat) :
    runFrom chunk (steps + 1) m = runFrom chunk steps next := by
  rw [runFrom, h]

theorem runFrom_of_halt (h : step chunk m = .ok .halted next) (steps : Nat) :
    runFrom chunk (steps + 1) m = (.finished, next) := by
  rw [runFrom, h]

/-- A fault is reported for the line on which its instruction starts. -/
theorem runFrom_of_fault {fault : Fault} (h : step chunk m = .error fault next) (steps : Nat) :
    runFrom chunk (steps + 1) m = (.failed ⟨fault, chunk.line m.ip⟩, next) := by
  rw [runFrom, h, ← line_of_error h]

end FirstStep

/-- The line on which the machine was before has no influence on a run. If no instruction starts the
machine stays on it. -/
theorem exists_runFrom_line (chunk : Chunk) (steps : Nat) (m : Machine) (line : Nat) :
    ∃ line', runFrom chunk steps { m with line := line } =
      ((runFrom chunk steps m).1, { (runFrom chunk steps m).2 with line := line' }) := by
  cases steps with
  | zero => exact ⟨line, rfl⟩
  | succ steps =>
    refine ⟨(runFrom chunk (steps + 1) m).2.line, ?_⟩
    rw [runFrom, step_line, ← runFrom]

/-! ## Reaching a state

`Reaches` counts steps that do not end the run. A run of so many steps and more is a run of what is
left from the state that is reached, and every run can be cut at its last step. -/

/-- The machine goes from one state to another in a number of steps, without coming to an end. -/
def Reaches (chunk : Chunk) : Nat → Machine → Machine → Prop
  | 0, m, m' => m = m'
  | count + 1, m, m' => ∃ next, step chunk m = .ok .running next ∧ Reaches chunk count next m'

theorem Reaches.trans {chunk : Chunk} {count more : Nat} {m m' m'' : Machine}
    (h : Reaches chunk count m m') (h' : Reaches chunk more m' m'') :
    Reaches chunk (count + more) m m'' := by
  induction count generalizing m with
  | zero =>
    cases h
    rwa [Nat.zero_add]
  | succ count ih =>
    obtain ⟨next, hstep, hrest⟩ := h
    rw [Nat.add_right_comm]
    exact ⟨next, hstep, ih hrest⟩

theorem Reaches.single {chunk : Chunk} {m m' : Machine} (h : step chunk m = .ok .running m') :
    Reaches chunk 1 m m' :=
  ⟨m', h, rfl⟩

/-- A run continues from every state that it reaches. -/
theorem Reaches.runFrom_eq {chunk : Chunk} {count : Nat} {m m' : Machine}
    (h : Reaches chunk count m m') (more : Nat) :
    runFrom chunk (count + more) m = runFrom chunk more m' := by
  induction count generalizing m with
  | zero =>
    cases h
    rw [Nat.zero_add]
  | succ count ih =>
    obtain ⟨next, hstep, hrest⟩ := h
    rw [Nat.add_right_comm, runFrom, hstep]
    exact ih hrest

/-- A run that is not finished has reached the state in which it is left. -/
theorem reaches_of_unfinished {chunk : Chunk} {steps : Nat} {m m' : Machine}
    (h : runFrom chunk steps m = (.unfinished, m')) : Reaches chunk steps m m' := by
  induction steps generalizing m with
  | zero =>
    cases h
    rfl
  | succ steps ih =>
    rw [runFrom] at h
    cases hstep : step chunk m with
    | error fault next => rw [hstep] at h; cases h
    | ok progress next =>
      rw [hstep] at h
      cases progress with
      | halted => cases h
      | running => exact ⟨next, hstep, ih h⟩

/-- A run fails in the last of its steps. -/
theorem reaches_of_failed {chunk : Chunk} {steps : Nat} {m m' : Machine} {e : RuntimeError}
    (h : runFrom chunk steps m = (.failed e, m')) :
    ∃ count before, Reaches chunk count m before ∧ step chunk before = .error e.fault m' ∧
      chunk.line before.ip = e.line := by
  induction steps generalizing m with
  | zero => cases h
  | succ steps ih =>
    rw [runFrom] at h
    cases hstep : step chunk m with
    | error fault next =>
      rw [hstep] at h
      cases h
      exact ⟨0, m, rfl, hstep, (line_of_error hstep).symm⟩
    | ok progress next =>
      rw [hstep] at h
      cases progress with
      | halted => cases h
      | running =>
        obtain ⟨count, before, hreaches, hfails⟩ := ih h
        exact ⟨count + 1, before, ⟨next, hstep, hreaches⟩, hfails⟩

/-- A run finishes in the last of its steps. -/
theorem reaches_of_finished {chunk : Chunk} {steps : Nat} {m m' : Machine}
    (h : runFrom chunk steps m = (.finished, m')) :
    ∃ count before, count < steps ∧ Reaches chunk count m before ∧
      step chunk before = .ok .halted m' := by
  induction steps generalizing m with
  | zero => cases h
  | succ steps ih =>
    rw [runFrom] at h
    cases hstep : step chunk m with
    | error fault next => rw [hstep] at h; cases h
    | ok progress next =>
      rw [hstep] at h
      cases progress with
      | halted =>
        cases h
        exact ⟨0, m, by omega, rfl, hstep⟩
      | running =>
        obtain ⟨count, before, hcount, hreaches, hhalts⟩ := ih h
        exact ⟨count + 1, before, by omega, ⟨next, hstep, hreaches⟩, hhalts⟩

/-- A run that has ended stays as it is. -/
theorem runFrom_add {chunk : Chunk} {steps : Nat} {m : Machine}
    (h : (runFrom chunk steps m).1 ≠ .unfinished) (more : Nat) :
    runFrom chunk (steps + more) m = runFrom chunk steps m := by
  induction steps generalizing m with
  | zero => exact absurd rfl h
  | succ steps ih =>
    rw [Nat.add_right_comm, runFrom, runFrom]
    rw [runFrom] at h
    cases hstep : step chunk m with
    | error fault m' => rfl
    | ok progress m' =>
      rw [hstep] at h
      cases progress with
      | halted => rfl
      | running => exact ih h

/-- As long as it has steps to go a run is not finished. -/
theorem Reaches.unfinished {chunk : Chunk} {m m' : Machine} {count steps : Nat}
    (h : Reaches chunk count m m') (hsteps : steps ≤ count) :
    (runFrom chunk steps m).1 = .unfinished := by
  apply Classical.byContradiction
  intro hended
  -- a run that has ended would stay so up to the state that is reached
  have hrest := runFrom_add hended (count - steps)
  rw [Nat.add_sub_cancel' hsteps, ← Nat.add_zero count, h.runFrom_eq 0] at hrest
  rw [← hrest] at hended
  exact hended rfl

/-- A machine that can always take another step never comes to an end. -/
theorem unfinished_of_steps {chunk : Chunk} {P : Machine → Prop}
    (hstep : ∀ m, P m → ∃ next, step chunk m = .ok .running next ∧ P next) {m : Machine} (hm : P m)
    (steps : Nat) : (runFrom chunk steps m).1 = .unfinished := by
  induction steps generalizing m with
  | zero => rfl
  | succ steps ih =>
    obtain ⟨next, hnext, hinvariant⟩ := hstep m hm
    rw [runFrom_of_step hnext]
    exact ih hinvariant

/-- What every step preserves holds of every state that is reached. -/
theorem Reaches.preserves {chunk : Chunk} {P : Machine → Prop}
    (hstep : ∀ m m', P m → step chunk m = .ok .running m' → P m') {count : Nat} {m m' : Machine}
    (h : Reaches chunk count m m') (hm : P m) : P m' := by
  induction count generalizing m with
  | zero =>
    cases h
    exact hm
  | succ count ih =>
    obtain ⟨next, hnext, hrest⟩ := h
    exact ih hrest (hstep m next hm hnext)

end StackScript.Machine
