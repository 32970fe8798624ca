import StackScript.Proofs.Machine.Concatenation
import StackScript.Trace

/-!
# A trace is the run that it records

Tracing has a loop of its own, which notes an event before every step. It takes the same steps as a
run without a trace.

* **`Trace.runFrom_eq`**: a run comes to the same with and without a trace.
* **`Trace.getElem?_runFrom`**: the events are those of the states that the run passes, in order.
* **`Trace.execute_eq`**: scripts come to the same.
-/

namespace StackScript.Trace

open Machine (Reaches step)

variable {chunk : Chunk} {steps : Nat} {m : Machine}

/-! ## Runs

Both loops are followed step by step: a step ends both, or both go on with the state after it. -/

/-- What a run comes to does not depend on the trace. -/
theorem runFrom_eq (chunk : Chunk) (steps : Nat) (m : Machine) (events : Array Event) :
    (runFrom chunk steps m events).2 = Machine.runFrom chunk steps m := by
  induction steps generalizing m events with
  | zero => rfl
  | succ steps ih =>
    rw [runFrom, Machine.runFrom]
    cases step chunk m with
    | error fault next => rfl
    | ok progress next =>
      cases progress with
      | halted => rfl
      | running => exact ih next _

/-- What was recorded before a run stays. -/
theorem getElem?_runFrom_of_lt {events : Array Event} {index : Nat} (h : index < events.size) :
    (runFrom chunk steps m events).1[index]? = events[index]? := by
  induction steps generalizing m events with
  | zero => rfl
  | succ steps ih =>
    have hpush : (events.push (beforeStep chunk m))[index]? = events[index]? := by
      rw [Array.getElem?_push, if_neg (by omega)]
    rw [runFrom]
    cases step chunk m with
    | error fault next => exact hpush
    | ok progress next =>
      cases progress with
      | halted => exact hpush
      | running =>
        have hlt : index < (events.push (beforeStep chunk m)).size := by
          rw [Array.size_push]
          omega
        exact (ih hlt).trans hpush

/-- After a number of steps the event of the next one is recorded, if there is a next one. -/
theorem getElem?_runFrom {events : Array Event} {count : Nat} {event : Event} :
    (runFrom chunk steps m events).1[events.size + count]? = some event ↔
      count < steps ∧ ∃ m', Reaches chunk count m m' ∧ event = beforeStep chunk m' := by
  induction steps generalizing m events count with
  | zero =>
    show events[events.size + count]? = some event ↔ _
    rw [Array.getElem?_eq_none (by omega)]
    simp
  | succ steps ih =>
    have hfirst : (events.push (beforeStep chunk m)).size = events.size + 1 := Array.size_push _
    cases count with
    | zero =>
      -- the first event is recorded whatever its step comes to
      have hpush : (runFrom chunk (steps + 1) m events).1[events.size]? =
          some (beforeStep chunk m) := by
        have htop : (events.push (beforeStep chunk m))[events.size]? =
            some (beforeStep chunk m) := Array.getElem?_push_size
        rw [runFrom]
        cases step chunk m with
        | error fault next => exact htop
        | ok progress next =>
          cases progress with
          | halted => exact htop
          | running => exact (getElem?_runFrom_of_lt (by omega)).trans htop
      show (runFrom chunk (steps + 1) m events).1[events.size]? = some event ↔ _
      rw [hpush, Option.some.injEq]
      constructor
      · rintro rfl
        exact ⟨Nat.succ_pos _, m, rfl, rfl⟩
      · rintro ⟨-, m', rfl, rfl⟩
        rfl
    | succ count =>
      rw [runFrom]
      cases hstep : step chunk m with
      | error fault next => simp [Reaches, hstep]
      | ok progress next =>
        cases progress with
        | halted => simp [Reaches, hstep]
        | running =>
          have hrest :
              (runFrom chunk steps next (events.push (beforeStep chunk m))).1[
                (events.push (beforeStep chunk m)).size + count]? = some event ↔ _ := ih
          rw [hfirst, Nat.add_assoc, Nat.add_comm 1 count] at hrest
          simp only [Reaches, hstep]
          simpa using hrest

/-! ## Scripts

A text that does not compile has no steps. -/

/-- What a script comes to does not depend on the trace either. -/
theorem execute_eq (steps : Nat) (source : String) (m : Machine) :
    (execute steps source m).2 = Script.execute steps source m := by
  unfold execute
  cases hscan : Token.scan source with
  | error error =>
    unfold Script.execute Script.compile
    rw [hscan]
    rfl
  | ok tokens =>
    unfold Script.execute
    rw [Script.compile_of_scan hscan]
    cases hresult : (Compile.compile tokens).result with
    | error errors => simp only [hresult, Except.mapError]
    | ok chunk =>
      have hrun := runFrom_eq chunk steps m.reset (ofCompilation (Compile.compile tokens)).toArray
      simp only [hresult, Except.mapError, run, hrun, Machine.run]

end StackScript.Trace
