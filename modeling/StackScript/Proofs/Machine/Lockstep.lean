import StackScript.Proofs.Machine.Runs

/-!
# Two machines side by side

Two machines with different code do the same if each can keep up with the other: however many steps
one of them takes, the other can take as many as it needs to agree. A stack that overflows is an
exception, since one of the machines may use more of it than the other.

* **`Answers`**: the second machine can keep up with a number of steps of the first.
* **`SideBySide`**: each can keep up with the other. Its rules say how that follows from what the
  machines do next: both take a step, or one of them does, or both stop.
-/

namespace StackScript.Machine

/-- The machine stops because its stack overflows. -/
def Overflows (chunk : Chunk) (m : Machine) : Prop :=
  ∃ steps line last, runFrom chunk steps m = (.failed ⟨.stackOverflow, line⟩, last)

theorem overflows_of_step {chunk : Chunk} {m last : Machine}
    (h : step chunk m = .error .stackOverflow last) : Overflows chunk m :=
  ⟨1, chunk.line m.ip, last, runFrom_of_fault h 0⟩

theorem Overflows.of_next {chunk : Chunk} {m next : Machine}
    (hstep : step chunk m = .ok .running next) (h : Overflows chunk next) :
    Overflows chunk m := by
  obtain ⟨steps, line, last, hrun⟩ := h
  exact ⟨steps + 1, line, last, by rw [runFrom_of_step hstep, hrun]⟩

/-- Two runs have come to the same outcome in states that look alike. -/
structure Concurs {ε : Type} (looks : Machine → Machine → Prop) (r r' : Outcome ε × Machine) :
    Prop where
  outcome : r'.1 = r.1
  state : looks r.2 r'.2

/-- The second machine can take as many steps as it needs to agree with `steps` of the first,
unless a stack overflows. -/
def Answers (c d : Chunk) (looks : Machine → Machine → Prop) (steps : Nat) (m m' : Machine) :
    Prop :=
  (Overflows c m ∨ Overflows d m') ∨
    ∃ steps', Concurs looks (runFrom c steps m) (runFrom d steps' m')

variable {c d : Chunk} {looks : Machine → Machine → Prop} {steps : Nat} {m m' next next' : Machine}

theorem answers_zero (h : looks m m') : Answers c d looks 0 m m' :=
  .inr ⟨0, rfl, h⟩

/-- One more step of the first machine, or of the second one, before an answer. -/
theorem Answers.of_first (h : step c m = .ok .running next)
    (hnext : Answers c d looks steps next m') : Answers c d looks (steps + 1) m m' := by
  rcases hnext with (hover | hover) | ⟨steps', hconcurs⟩
  · exact .inl (.inl (hover.of_next h))
  · exact .inl (.inr hover)
  -- the step is the first of a run that is answered
  · refine .inr ⟨steps', ?_⟩
    rw [runFrom_of_step h]
    exact hconcurs

/-- The second machine may take more steps. -/
theorem Answers.of_second (h' : step d m' = .ok .running next')
    (hnext : Answers c d looks steps m next') : Answers c d looks steps m m' := by
  rcases hnext with (hover | hover) | ⟨steps', hconcurs⟩
  · exact .inl (.inl hover)
  · exact .inl (.inr (hover.of_next h'))
  · refine .inr ⟨steps' + 1, ?_⟩
    rw [runFrom_of_step h']
    exact hconcurs

/-- Each machine can keep up with `steps` of the other. -/
structure SideBySide (c d : Chunk) (looks : Machine → Machine → Prop) (steps : Nat)
    (m m' : Machine) : Prop where
  forth : Answers c d looks steps m m'
  back : Answers d c (fun n' n => looks n n') steps m' m

namespace SideBySide

theorem swap (h : SideBySide c d looks steps m m') :
    SideBySide d c (fun n' n => looks n n') steps m' m :=
  ⟨h.back, h.forth⟩

theorem zero (h : looks m m') : SideBySide c d looks 0 m m' :=
  ⟨answers_zero h, answers_zero h⟩

/-- Both machines take a step. -/
theorem of_both (h : step c m = .ok .running next) (h' : step d m' = .ok .running next')
    (hnext : SideBySide c d looks steps next next') : SideBySide c d looks (steps + 1) m m' :=
  ⟨.of_second h' (.of_first h hnext.forth), .of_second h (.of_first h' hnext.back)⟩

/-- The first machine takes a step while the second one waits. -/
theorem of_first (hlooks : looks m m') (h : step c m = .ok .running next)
    (hnext : ∀ steps, SideBySide c d looks steps next m') (steps : Nat) :
    SideBySide c d looks steps m m' := by
  refine ⟨?_, .of_second h (hnext steps).back⟩
  cases steps with
  | zero => exact answers_zero hlooks
  | succ steps => exact .of_first h (hnext steps).forth

/-- The second machine takes a step alone. -/
theorem of_second (hlooks : looks m m') (h' : step d m' = .ok .running next')
    (hnext : ∀ steps, SideBySide c d looks steps m next') (steps : Nat) :
    SideBySide c d looks steps m m' := by
  have hswapped : SideBySide d c (fun n' n => looks n n') steps m' m := by
    refine of_first ?_ h' (fun steps => (hnext steps).swap) steps
    exact hlooks
  exact hswapped.swap

/-- Both machines stop in the same way. -/
theorem of_stop {outcome : Outcome RuntimeError} {last last' : Machine} (hlooks : looks m m')
    (h : ∀ steps, runFrom c (steps + 1) m = (outcome, last))
    (h' : ∀ steps, runFrom d (steps + 1) m' = (outcome, last')) (hlast : looks last last')
    (steps : Nat) : SideBySide c d looks steps m m' := by
  cases steps with
  | zero => exact zero hlooks
  | succ steps =>
    have hconcurs : Concurs looks (outcome, last) (outcome, last') := ⟨rfl, hlast⟩
    have hback : Concurs (fun n' n => looks n n') (outcome, last') (outcome, last) := ⟨rfl, hlast⟩
    refine ⟨.inr ⟨1, ?_⟩, .inr ⟨1, ?_⟩⟩
    · rwa [h, h']
    · rwa [h, h']

theorem of_halt {last last' : Machine} (hlooks : looks m m') (h : step c m = .ok .halted last)
    (h' : step d m' = .ok .halted last') (hlast : looks last last') (steps : Nat) :
    SideBySide c d looks steps m m' :=
  of_stop hlooks (runFrom_of_halt h) (runFrom_of_halt h') hlast steps

/-- Both machines fail with the same fault on the same line. -/
theorem of_fault {fault : Fault} {last last' : Machine} (hlooks : looks m m')
    (h : step c m = .error fault last) (h' : step d m' = .error fault last')
    (hline : d.line m'.ip = c.line m.ip) (hlast : looks last last') (steps : Nat) :
    SideBySide c d looks steps m m' := by
  refine of_stop hlooks (runFrom_of_fault h) (fun steps => ?_) hlast steps
  rw [runFrom_of_fault h', hline]

/-- Nothing is said about machines whose stack overflows. -/
theorem of_overflow (h : Overflows c m ∨ Overflows d m') (steps : Nat) :
    SideBySide c d looks steps m m' :=
  ⟨.inl h, .inl h.symm⟩

end SideBySide

end StackScript.Machine
