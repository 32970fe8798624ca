import StackScript.Proofs.Machine.Output
import StackScript.Proofs.Machine.Surroundings

/-!
# A full output cuts what is printed and nothing else

Two machines run the same code, one with an output that takes everything and one with room for a
limited number of bytes. They are in the same state as long as what is printed fits. The first line
that does not fit ends the run of the second machine, wherever in the line the room ends.

* **`withOutput`**: the machine with another output, which is a change of its surroundings.
* **`step_of_not_print`**: only `print` has to do with the output.
* **`step_cut`**: a step with limited output is the step without a limit, cut off at the limit.
* **`run_cut`**: whole runs.
-/

namespace StackScript

/-- What an output with room for `limit` bytes holds after what has been written to another one. -/
def Output.cut (limit : Nat) (o : Output) : Output where
  written := o.written.take limit
  room := some (limit - o.written.size)

/-- What fits is not cut. -/
theorem Output.cut_of_size_le {o : Output} {limit : Nat} (h : o.written.size ≤ limit) :
    o.cut limit = ⟨o.written, some (limit - o.written.size)⟩ := by
  have htake : o.written.take limit = o.written := by
    apply Array.toList_inj.mp
    simp [List.take_of_length_le (show o.written.toList.length ≤ limit from h)]
  rw [cut, htake]

/-- Bytes that are written later do not change the first ones. -/
theorem take_of_prefix {written more : Array UInt8} {limit : Nat}
    (h : written.toList <+: more.toList) (hlimit : limit ≤ written.size) :
    written.take limit = more.take limit := by
  obtain ⟨rest, hrest⟩ := h
  have hlist : ∀ bytes : Array UInt8, (bytes.take limit).toList = bytes.toList.take limit := by
    simp
  apply Array.toList_inj.mp
  rw [hlist, hlist, ← hrest]
  exact (List.take_append_of_le_length hlimit).symm

/-- A limited output takes as much as there is room for, which is the beginning of what an output
without a limit takes. -/
theorem Output.write_cut {o : Output} {limit : Nat} (hroom : o.room = none)
    (hsize : o.written.size ≤ limit) (bytes : List UInt8) :
    (o.cut limit).write bytes =
      (decide ((o.write bytes).2.written.size ≤ limit), (o.write bytes).2.cut limit) := by
  have hfitting : o.fitting bytes = bytes := by
    rw [fitting, hroom]
  have hcut : (o.cut limit).fitting bytes = bytes.take (limit - o.written.size) := rfl
  -- cutting what was written and then cutting the bytes is cutting both together
  have hwritten : o.written.take limit ++ bytes.take (limit - o.written.size) =
      (o.written ++ bytes).take limit := by
    apply Array.toList_inj.mp
    simp [List.take_append]
  have hlength : (o.written ++ bytes).size = o.written.size + bytes.length := by
    rw [← Array.length_toList]
    simp
  unfold write
  rw [hcut, hfitting]
  ext1
  -- all bytes fit if and only if nothing is cut
  · simp only [List.length_take, hlength, beq_eq_decide]
    congr 1
    apply propext
    omega
  · simp only [cut, hwritten, hlength, List.length_take, Option.map_some]
    congr 2
    omega

namespace Machine

/-- The machine with another output. -/
def withOutput (o : Output) (m : Machine) : Machine :=
  { m with output := o }

instance (o : Output) : InPlace (withOutput o) where
  stack _ := rfl
  globals _ := rfl
  setStack _ _ := rfl
  setGlobals _ _ := rfl
  goForward _ _ := rfl
  ip _ := rfl
  setIp _ _ := rfl

/-- Only `print` has to do with the output. -/
theorem step_of_not_print {c : Chunk} {m : Machine}
    (h : Instruction.decode c.code m.ip ≠ .ok .print) (o : Output) :
    step c (m.withOutput o) = recast (withOutput o) (step c m) := by
  have hsame : (m.withOutput o).atLine c = (m.atLine c).withOutput o := rfl
  rw [step_eq_proceed, step_eq_proceed, hsame]
  exact commutes_proceed c (m.atLine c) fun hprint => absurd hprint h

/-! ## Printing

Only a print instruction writes to the output. -/

section Print

variable {c : Chunk} {m : Machine}

/-- The state after the topmost value has been written to the output. -/
def printed (c : Chunk) (m : Machine) (value : Value) : Machine :=
  { m with
    stack := m.stack.pop
    ip := m.ip + 1
    line := c.line m.ip
    output := (m.output.writeText (value.display ++ "\n")).2 }

/-- The value is taken off the stack before it is written, and stays off if it does not fit. -/
theorem step_print {value : Value} (hdecode : Instruction.decode c.code m.ip = .ok .print)
    (hback : m.stack.back? = some value) :
    step c m =
      if (m.output.writeText (value.display ++ "\n")).1 then .ok .running (m.printed c value)
      else .error .outputFull (m.printed c value) := by
  have htop : (m.past c .print).stack.back? = some value := hback
  -- the value is popped before anything is written
  have hpop : pop (m.past c .print) = .ok value { m.past c .print with stack := m.stack.pop } := by
    rw [pop_apply, htop]
    rfl
  have hexecute : execute c .print (m.past c .print) =
      if (m.output.writeText (value.display ++ "\n")).1 then .ok () (m.printed c value)
      else .error .outputFull (m.printed c value) :=
    (bind_of_ok hpop).trans (printLine_apply value.display _)
  rw [step_of_decode hdecode]
  by_cases h : (m.output.writeText (value.display ++ "\n")).1 = true
  · rw [if_pos h]
    rw [if_pos h] at hexecute
    rw [bind_of_ok hexecute]
    rfl
  · rw [if_neg h]
    rw [if_neg h] at hexecute
    exact bind_of_error hexecute

/-- Without a value nothing is printed. -/
theorem step_print_empty (hdecode : Instruction.decode c.code m.ip = .ok .print)
    (hback : m.stack.back? = none) : step c m = .error .stackUnderflow (m.past c .print) := by
  have htop : (m.past c .print).stack.back? = none := hback
  have hpop : pop (m.past c .print) = .error .stackUnderflow (m.past c .print) := by
    rw [pop_apply, htop]
  rw [step_of_decode hdecode]
  exact bind_of_error (bind_of_error hpop)

end Print

/-! ## Steps

A machine with little room takes the same steps as one with unlimited room, until a line does not
fit any more. -/

/-- The machine with an output that had room for `limit` bytes from the start. -/
def cut (limit : Nat) (m : Machine) : Machine :=
  m.withOutput (m.output.cut limit)

/-- The output takes everything, and has got no more than `limit` bytes. -/
structure Within (limit : Nat) (m : Machine) : Prop where
  room : m.output.room = none
  size_le : m.output.written.size ≤ limit

/-- What a step comes to if the output is limited: a step that prints more than fits fails. -/
def cutResult (limit : Nat) :
    EStateM.Result Fault Machine Progress → EStateM.Result Fault Machine Progress
  | .ok p m =>
    if m.output.written.size ≤ limit then .ok p (m.cut limit)
    else .error .outputFull (m.cut limit)
  | .error fault m => .error fault (m.cut limit)

section Steps

variable {c : Chunk} {m next : Machine} {limit : Nat} {p : Progress}

/-- An output without a limit takes every line. -/
theorem writeText_of_room {o : Output} (h : o.room = none) (text : String) :
    (o.writeText text).1 = true ∧ (o.writeText text).2.room = none := by
  have hfitting : o.fitting (Text.encode text) = Text.encode text := by
    rw [Output.fitting, h]
  unfold Output.writeText Output.write
  rw [hfitting, h]
  exact ⟨beq_self_eq_true _, rfl⟩

/-- Without a limit a step prints a value, or leaves the output as it is. -/
theorem step_cases (hroom : m.output.room = none) :
    (∃ value, Instruction.decode c.code m.ip = .ok .print ∧ m.stack.back? = some value ∧
      step c m = .ok .running (m.printed c value)) ∨
    step c m = recast (withOutput m.output) (step c m) := by
  by_cases hdecode : Instruction.decode c.code m.ip = .ok .print
  · cases hback : m.stack.back? with
    -- that there is nothing to print is a fault, which leaves the output as it is
    | none =>
      rw [step_print_empty hdecode hback]
      exact .inr rfl
    | some value =>
      refine .inl ⟨value, hdecode, rfl, ?_⟩
      rw [step_print hdecode hback, if_pos (writeText_of_room hroom _).1]
  · exact .inr (step_of_not_print hdecode m.output)

/-- With little room the line is written as far as it fits. -/
theorem printed_cut (hm : Within limit m) (value : Value) :
    ((m.cut limit).output.writeText (value.display ++ "\n")).1 =
        decide ((m.printed c value).output.written.size ≤ limit) ∧
      (m.cut limit).printed c value = (m.printed c value).cut limit := by
  have hwrite := Output.write_cut hm.room hm.size_le (Text.encode (value.display ++ "\n"))
  refine ⟨congrArg Prod.fst hwrite, ?_⟩
  exact congrArg (fun r => (m.printed c value).withOutput r.2) hwrite

/-- A step with limited output is a step without a limit that is cut off there. -/
theorem step_cut (hm : Within limit m) : step c (m.cut limit) = cutResult limit (step c m) := by
  by_cases hdecode : Instruction.decode c.code m.ip = .ok .print
  · cases hback : m.stack.back? with
    | none =>
      rw [step_print_empty hdecode hback, step_print_empty (m := m.cut limit) hdecode hback]
      rfl
    | some value =>
      obtain ⟨hfits, hprinted⟩ := printed_cut hm value
      rw [step_print hdecode hback, if_pos (writeText_of_room hm.room _).1,
        step_print (m := m.cut limit) hdecode hback, hfits, hprinted]
      simp only [decide_eq_true_eq, cutResult]
  · -- the output is not touched, so there is nothing to cut
    have hsilent := step_of_not_print hdecode
    have hsame : step c m = recast (withOutput m.output) (step c m) := hsilent m.output
    rw [cut, hsilent]
    cases hstep : step c m with
    | error fault last =>
      rw [hstep] at hsame
      obtain ⟨-, hlast⟩ := EStateM.Result.error.inj hsame
      rw [hlast]
      rfl
    | ok p next =>
      rw [hstep] at hsame
      obtain ⟨-, hnext⟩ := EStateM.Result.ok.inj hsame
      rw [hnext]
      exact (if_pos hm.size_le).symm

/-- A step that succeeds prints a value, or leaves the output as it is. -/
theorem ok_cases (hroom : m.output.room = none) (hstep : step c m = .ok p next) :
    (∃ value, Instruction.decode c.code m.ip = .ok .print ∧ m.stack.back? = some value ∧
      p = .running ∧ next = m.printed c value) ∨ next.output = m.output := by
  rcases step_cases hroom with ⟨value, hdecode, hback, hprints⟩ | hsame
  · rw [hstep] at hprints
    obtain ⟨rfl, rfl⟩ := EStateM.Result.ok.inj hprints
    exact .inl ⟨value, hdecode, hback, rfl, rfl⟩
  · rw [hstep] at hsame
    obtain ⟨-, hnext⟩ := EStateM.Result.ok.inj hsame
    exact .inr (by rw [hnext]; rfl)

/-- A step that fails has printed nothing. -/
theorem output_of_error {fault : Fault} (hroom : m.output.room = none)
    (hstep : step c m = .error fault next) : next.output = m.output := by
  rcases step_cases hroom with ⟨value, -, -, hprints⟩ | hsame
  · rw [hstep] at hprints
    cases hprints
  · rw [hstep] at hsame
    obtain ⟨-, hlast⟩ := EStateM.Result.error.inj hsame
    rw [hlast]
    rfl

/-- The output still fits after the step. -/
theorem Within.of_step (hm : Within limit m) (hstep : step c m = .ok p next)
    (hfits : next.output.written.size ≤ limit) : Within limit next := by
  refine ⟨?_, hfits⟩
  rcases ok_cases hm.room hstep with ⟨value, -, -, -, rfl⟩ | hsame
  · exact (writeText_of_room hm.room _).2
  · rw [hsame]
    exact hm.room

end Steps

/-! ## Runs

The first line that does not fit is where the machine with little room stops. -/

/-- From `m` on the machine comes in `count` steps to the first `print` whose line does not fit.
Without a limit it goes on after the line; with one it fails there, the value off the stack. -/
structure Overruns (c : Chunk) (limit : Nat) (m : Machine) (count : Nat) (before : Machine)
    (value : Value) : Prop where
  reaches : Reaches c count m before
  fits : before.output.written.size ≤ limit
  decode : Instruction.decode c.code before.ip = .ok .print
  back? : before.stack.back? = some value
  goesOn : step c before = .ok .running (before.printed c value)
  exceeds : limit < (before.printed c value).output.written.size
  fails : ∀ steps, count < steps → runFrom c steps (m.cut limit) =
    (.failed ⟨.outputFull, c.line before.ip⟩, (before.printed c value).cut limit)

section Runs

variable {c : Chunk} {m next before : Machine} {limit : Nat} {value : Value}

/-- The next step prints a line that does not fit. -/
theorem overruns_of_step (hm : Within limit m)
    (hdecode : Instruction.decode c.code m.ip = .ok .print) (hback : m.stack.back? = some value)
    (hstep : step c m = .ok .running (m.printed c value))
    (hover : limit < (m.printed c value).output.written.size) : Overruns c limit m 0 m value := by
  refine ⟨rfl, hm.size_le, hdecode, hback, hstep, hover, fun steps hsteps => ?_⟩
  obtain ⟨rest, rfl⟩ := Nat.exists_eq_add_of_lt hsteps
  -- the line does not fit, so the limited machine fails at this step
  have hfails : step c (m.cut limit) = .error .outputFull ((m.printed c value).cut limit) := by
    rw [step_cut hm, hstep]
    exact if_neg (Nat.not_le.mpr hover)
  rw [runFrom, hfails]
  rfl

/-- The line is printed at a later step. -/
theorem Overruns.of_next {count : Nat} (hm : Within limit m) (hstep : step c m = .ok .running next)
    (hfits : next.output.written.size ≤ limit) (h : Overruns c limit next count before value) :
    Overruns c limit m (count + 1) before value := by
  refine { h with reaches := ⟨next, hstep, h.reaches⟩, fails := fun steps hsteps => ?_ }
  obtain ⟨rest, rfl⟩ := Nat.exists_eq_add_of_lt hsteps
  -- the limited machine makes this step too
  have hcut : step c (m.cut limit) = .ok .running (next.cut limit) := by
    rw [step_cut hm, hstep]
    exact if_pos hfits
  rw [runFrom, hcut]
  exact h.fails _ (by omega)

/-- As long as everything fits the two runs go side by side. -/
theorem runFrom_cut (steps : Nat) (hm : Within limit m) :
    ((runFrom c steps m).2.output.written.size ≤ limit ∧
      runFrom c steps (m.cut limit) = ((runFrom c steps m).1, (runFrom c steps m).2.cut limit)) ∨
    ∃ count before value, count < steps ∧ Overruns c limit m count before value ∧
      (before.printed c value).output.written.toList <+:
        (runFrom c steps m).2.output.written.toList := by
  -- the invariant is that all output so far has fitted
  induction steps generalizing m with
  | zero => exact .inl ⟨hm.size_le, rfl⟩
  | succ steps ih =>
    have hcut := step_cut (c := c) hm
    rw [runFrom, runFrom]
    cases hstep : step c m with
    | error fault last =>
      rw [hstep] at hcut
      rw [hcut]
      -- a step that fails has printed nothing
      refine .inl ⟨?_, rfl⟩
      rw [output_of_error hm.room hstep]
      exact hm.size_le
    | ok p next =>
      rw [hstep] at hcut
      by_cases hfits : next.output.written.size ≤ limit
      -- both machines make this step
      · rw [cutResult, if_pos hfits] at hcut
        rw [hcut]
        cases p with
        | halted => exact .inl ⟨hfits, rfl⟩
        | running =>
          rcases ih (hm.of_step hstep hfits) with
            hsame | ⟨count, before, value, hcount, hover, hgrows⟩
          · exact .inl hsame
          · exact .inr ⟨count + 1, before, value, by omega, hover.of_next hm hstep hfits, hgrows⟩
      · -- only a line can make the difference, and it does not fit
        rcases ok_cases hm.room hstep with ⟨value, hdecode, hback, rfl, rfl⟩ | hsame
        · have hover := overruns_of_step hm hdecode hback hstep (Nat.lt_of_not_le hfits)
          exact .inr ⟨0, m, value, by omega, hover, output_runFrom c steps _⟩
        · rw [hsame] at hfits
          exact absurd hm.size_le hfits

end Runs

/-- The machine with an empty output that has the given room. -/
def printingTo (room : Option Nat) (m : Machine) : Machine :=
  m.withOutput (.ofRoom room)

/-- **A full output cuts what is printed and nothing else.** However many steps are made without a
limit: if no more than `limit` bytes have been printed, the machine with room for `limit` bytes has
come to the same outcome in the same state. Otherwise there is a first `print` whose line does not
fit. Up to there both do the same, and there the limited machine fails, on that line and for that
reason; it has written the first `limit` bytes of what the other one prints, its variables are those
of the other one, and the value is off its stack. -/
theorem run_cut (c : Chunk) (m : Machine) (limit steps : Nat) :
    let last := ((m.printingTo none).run c steps).2
    (last.output.written.size ≤ limit ∧
      (m.printingTo (some limit)).run c steps =
        (((m.printingTo none).run c steps).1,
          { last with
            output := ⟨last.output.written, some (limit - last.output.written.size)⟩ })) ∨
    (limit < last.output.written.size ∧
      ∃ count before value after stopped, count < steps ∧
        Reaches c count (m.printingTo none).reset before ∧
        before.output.written.size ≤ limit ∧
        Instruction.decode c.code before.ip = .ok .print ∧
        before.stack = stopped.stack.push value ∧
        step c before = .ok .running after ∧
        limit < after.output.written.size ∧
        (∀ enough, count < enough →
          (m.printingTo (some limit)).run c enough =
            (.failed ⟨.outputFull, c.line before.ip⟩, stopped)) ∧
        Fault.outputFull.message = "Print failed: sink full." ∧
        stopped.output.written = last.output.written.take limit ∧
        stopped.globals = after.globals ∧ stopped.stack = after.stack) := by
  intro last
  -- at its start a run has printed nothing, so there is nothing to cut but the room
  have hstart : (m.printingTo (some limit)).reset = (m.printingTo none).reset.cut limit := by
    simp [printingTo, withOutput, reset, cut, Output.cut, Output.ofRoom]
  have hwithin : Within limit (m.printingTo none).reset := ⟨rfl, Nat.zero_le _⟩
  unfold run
  rw [hstart]
  rcases runFrom_cut (c := c) steps hwithin with
    ⟨hfits, hsame⟩ | ⟨count, before, value, hcount, hover, hgrows⟩
  · refine .inl ⟨hfits, ?_⟩
    rw [hsame, cut, Output.cut_of_size_le hfits]
    rfl
  -- the value of the line that does not fit was on top of the stack
  · obtain ⟨below, hbelow⟩ := Array.back?_eq_some_iff.mp hover.back?
    have hpop : before.stack.pop = below := by
      rw [hbelow, Array.pop_push]
    -- without a limit all of this line is printed, and perhaps more
    have hlonger : limit < last.output.written.size :=
      Nat.lt_of_lt_of_le hover.exceeds hgrows.length_le
    refine .inr ⟨hlonger, count, before, value, before.printed c value,
      (before.printed c value).cut limit, hcount, hover.reaches, hover.fits, hover.decode, ?_,
      hover.goesOn, hover.exceeds, hover.fails, rfl, ?_, rfl, rfl⟩
    · show before.stack = before.stack.pop.push value
      rw [hpop, hbelow]
    · exact take_of_prefix hgrows hover.exceeds.le

end Machine

end StackScript
