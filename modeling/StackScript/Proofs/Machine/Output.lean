import StackScript.Proofs.Machine.Runs
import StackScript.Script

/-!
# What is printed stays printed

An action of the machine may add bytes to the output and never takes any away, whether it succeeds
or faults. So what a script prints can be told from the output before and after it.

* **`Machine.Prints`**: the output is only added to, which is true of every action.
* **`Machine.output_runFrom`**: what one step preserves a run preserves.
* **`Script.exists_printed`**: what a script adds.
-/

namespace StackScript

namespace Machine

/-- What was printed before is still there, before what is printed now. -/
def Prints (m m' : Machine) : Prop :=
  m.output.written.toList <+: m'.output.written.toList

instance : Framed Prints where
  refl _ := List.prefix_refl _
  trans h h' := List.IsPrefix.trans h h'
  moves _ _ _ _ := List.prefix_refl _
  -- a text is written after what is there, even if only part of it fits
  prints m text := by
    show m.output.written.toList <+: (m.output.writeText text).2.written.toList
    simp [Output.writeText, Output.write]

/-- What one step preserves a run preserves. -/
theorem output_runFrom (chunk : Chunk) (steps : Nat) (m : Machine) :
    m.output.written.toList <+: (runFrom chunk steps m).2.output.written.toList := by
  induction steps generalizing m with
  | zero => exact List.prefix_refl _
  | succ steps ih =>
    have hstep : Prints (m.atLine chunk) (left (step chunk m)) := upholds_step chunk m
    rw [runFrom]
    cases h : step chunk m with
    | error fault m' =>
      rw [h] at hstep
      exact hstep
    | ok progress m' =>
      rw [h] at hstep
      cases progress with
      | halted => exact hstep
      | running => exact hstep.trans (ih m')

end Machine

/-- A script prints after what was printed before it. -/
theorem Script.exists_printed (steps : Nat) (source : String) (m : Machine) :
    ∃ printed, (Script.execute steps source m).2.output.written = m.output.written ++ printed := by
  have hgrows : m.output.written.toList <+:
      (Script.execute steps source m).2.output.written.toList := by
    unfold Script.execute
    cases Script.compile source with
    | error e => exact List.prefix_refl _
    | ok chunk => exact Machine.output_runFrom chunk steps m.reset
  obtain ⟨printed, hprinted⟩ := hgrows
  refine ⟨printed.toArray, ?_⟩
  apply Array.toList_inj.mp
  simp [hprinted]

end StackScript
