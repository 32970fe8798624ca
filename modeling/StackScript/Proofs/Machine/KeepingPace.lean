import StackScript.Proofs.Machine.Concatenation
import StackScript.Proofs.Machine.Lockstep
import StackScript.Proofs.Tree.OuterLocals

/-!
# Two machines that keep pace

Two pieces of code do the same, in different layouts, if two machines that go through them with
equal stacks come to corresponding places again and again. In between each of them may take steps
of its own, as long as these neither fail nor show.

* **`KeepsPace`**: each of two machines comes to where the other one is, for a number of steps.
* **`Leads`**: machines as one relation says get to where another relation holds, or keep pace
  without. It composes (`Leads.trans`), and `leads_rounds` is its rule for loops.
* **`PairAt`**: two machines that differ in their offsets only.
* **`leads_twins`**: they keep pace on code that is the same up to its place and its constants.
* **`leads_first`**, **`leads_branch`**, **`leads_pop`**: they do so where one of them moves on
  alone, at jumps of different length, and where values are dropped.
-/

namespace StackScript.Machine

/-- Two machines have the same variables and have printed the same. -/
structure LooksLike (m m' : Machine) : Prop where
  globals : m'.globals = m.globals
  output : m'.output = m.output

theorem LooksLike.symm {m m' : Machine} (h : LooksLike m m') : LooksLike m' m :=
  ⟨h.globals.symm, h.output.symm⟩

/-! ## Keeping pace

Two machines keep pace for some steps if whatever one of them shows within these steps is shown by
the other sooner or later. -/

/-- For up to `steps` steps of one of the machines, the other one comes to the same outcome and to a
state that looks like its own. -/
structure KeepsPace (c d : Chunk) (steps : Nat) (m m' : Machine) : Prop where
  forth : ∀ count ≤ steps, ∃ count', Concurs LooksLike (runFrom c count m) (runFrom d count' m')
  back : ∀ count' ≤ steps, ∃ count, Concurs LooksLike (runFrom c count m) (runFrom d count' m')

namespace KeepsPace

variable {c d : Chunk} {steps : Nat} {m m' next next' : Machine}

theorem swap (h : KeepsPace c d steps m m') : KeepsPace d c steps m' m where
  forth count hcount := by
    obtain ⟨count', hconcurs⟩ := h.back count hcount
    exact ⟨count', hconcurs.outcome.symm, hconcurs.state.symm⟩
  back count' hcount' := by
    obtain ⟨count, hconcurs⟩ := h.forth count' hcount'
    exact ⟨count, hconcurs.outcome.symm, hconcurs.state.symm⟩

/-- They keep pace for fewer steps too. -/
theorem mono (h : KeepsPace c d steps m m') {fewer : Nat} (hle : fewer ≤ steps) :
    KeepsPace c d fewer m m' :=
  ⟨fun count hcount => h.forth count (Nat.le_trans hcount hle),
    fun count hcount => h.back count (Nat.le_trans hcount hle)⟩

/-- For no steps it is enough that they look alike. -/
theorem zero (h : LooksLike m m') : KeepsPace c d 0 m m' := by
  refine ⟨fun count hcount => ⟨0, ?_⟩, fun count hcount => ⟨0, ?_⟩⟩ <;>
    · obtain rfl := Nat.le_zero.mp hcount
      exact ⟨rfl, h⟩

/-- The first machine takes a step while the second one waits. -/
theorem of_first (hlooks : LooksLike m m') (h : step c m = .ok .running next)
    (hnext : KeepsPace c d steps next m') : KeepsPace c d steps m m' where
  forth count hcount := by
    cases count with
    | zero => exact ⟨0, rfl, hlooks⟩
    | succ count =>
      rw [runFrom_of_step h]
      exact hnext.forth count (Nat.le_of_succ_le hcount)
  back count' hcount' := by
    obtain ⟨count, hconcurs⟩ := hnext.back count' hcount'
    refine ⟨count + 1, ?_⟩
    rwa [runFrom_of_step h]

/-- The second machine may take a step alone. -/
theorem of_second (hlooks : LooksLike m m') (h' : step d m' = .ok .running next')
    (hnext : KeepsPace c d steps m next') : KeepsPace c d steps m m' :=
  (of_first hlooks.symm h' hnext.swap).swap

/-- Both machines take a step, and so they can take one more. -/
theorem of_both (hlooks : LooksLike m m') (h : step c m = .ok .running next)
    (h' : step d m' = .ok .running next') (hnext : KeepsPace c d steps next next') :
    KeepsPace c d (steps + 1) m m' := by
  refine ⟨fun count hcount => ?_, fun count' hcount' => ?_⟩
  · cases count with
    | zero => exact ⟨0, rfl, hlooks⟩
    | succ count =>
      obtain ⟨count', hconcurs⟩ := hnext.forth count (Nat.le_of_succ_le_succ hcount)
      refine ⟨count' + 1, ?_⟩
      rwa [runFrom_of_step h, runFrom_of_step h']
  · cases count' with
    | zero => exact ⟨0, rfl, hlooks⟩
    | succ count' =>
      obtain ⟨count, hconcurs⟩ := hnext.back count' (Nat.le_of_succ_le_succ hcount')
      refine ⟨count + 1, ?_⟩
      rwa [runFrom_of_step h, runFrom_of_step h']

/-- Both machines stop in the same way. -/
theorem of_stop {outcome : Outcome RuntimeError} {last last' : Machine} (hlooks : LooksLike m m')
    (h : ∀ steps, runFrom c (steps + 1) m = (outcome, last))
    (h' : ∀ steps, runFrom d (steps + 1) m' = (outcome, last')) (hlast : LooksLike last last')
    (steps : Nat) : KeepsPace c d steps m m' := by
  have hevery : ∀ count, Concurs LooksLike (runFrom c count m) (runFrom d count m') := by
    intro count
    cases count with
    | zero => exact ⟨rfl, hlooks⟩
    | succ count =>
      rw [h, h']
      exact ⟨rfl, hlast⟩
  exact ⟨fun count _ => ⟨count, hevery count⟩, fun count _ => ⟨count, hevery count⟩⟩

/-- Both halt and look alike in the end. -/
theorem of_halt {last last' : Machine} (hlooks : LooksLike m m')
    (h : step c m = .ok .halted last) (h' : step d m' = .ok .halted last')
    (hlast : LooksLike last last') (steps : Nat) : KeepsPace c d steps m m' :=
  of_stop hlooks (runFrom_of_halt h) (runFrom_of_halt h') hlast steps

/-- Both fail with the same fault on the same line. -/
theorem of_fault {fault : Fault} {last last' : Machine} (hlooks : LooksLike m m')
    (h : step c m = .error fault last) (h' : step d m' = .error fault last')
    (hline : d.line m'.ip = c.line m.ip) (hlast : LooksLike last last') (steps : Nat) :
    KeepsPace c d steps m m' := by
  refine of_stop hlooks (runFrom_of_fault h) (fun steps => ?_) hlast steps
  rw [runFrom_of_fault h', hline]

/-- On which line the second machine was before does not matter. -/
theorem setLine (h : KeepsPace c d steps m m') (line : Nat) :
    KeepsPace c d steps m { m' with line := line } := by
  have hline : ∀ count, ∀ {r : Outcome RuntimeError × Machine},
      Concurs LooksLike r (runFrom d count m') →
      Concurs LooksLike r (runFrom d count { m' with line := line }) := by
    intro count r hconcurs
    obtain ⟨last, hsame⟩ := exists_runFrom_line d count m' line
    rw [hsame]
    exact ⟨hconcurs.outcome, hconcurs.state.globals, hconcurs.state.output⟩
  refine ⟨fun count hcount => ?_, fun count' hcount' => ?_⟩
  · obtain ⟨count', hconcurs⟩ := h.forth count hcount
    exact ⟨count', hline count' hconcurs⟩
  · obtain ⟨count, hconcurs⟩ := h.back count' hcount'
    exact ⟨count, hline count' hconcurs⟩

end KeepsPace

/-! ## From one pair of states to another

If two machines keep pace from the states at the end, then they do so from the states before. Such
facts can be put one after the other along two pieces of code. -/

/-- Machines as `P` says keep pace for as many steps as all those do that are as `Q` says. -/
def Leads (c d : Chunk) (P Q : Machine → Machine → Prop) : Prop :=
  ∀ steps, (∀ n n', Q n n' → KeepsPace c d steps n n') →
    ∀ m m', P m m' → KeepsPace c d steps m m'

section Leads

variable {c d : Chunk} {P Q R S : Machine → Machine → Prop}

/-- Nothing is executed. -/
theorem Leads.of_imp (h : ∀ m m', P m m' → Q m m') : Leads c d P Q :=
  fun _ hafter m m' hm => hafter m m' (h m m' hm)

theorem Leads.refl : Leads c d P P :=
  .of_imp fun _ _ => id

/-- One piece of code after the other. -/
theorem Leads.trans (h : Leads c d P Q) (hrest : Leads c d Q R) : Leads c d P R :=
  fun steps hafter => h steps (hrest steps hafter)

/-- Two ways that come together again. -/
theorem Leads.join (h : Leads c d P fun m m' => Q m m' ∨ R m m') (hfirst : Leads c d Q S)
    (hsecond : Leads c d R S) : Leads c d P S := by
  intro steps hafter
  refine h steps fun n n' hn => ?_
  rcases hn with hn | hn
  · exact hfirst steps hafter n n' hn
  · exact hsecond steps hafter n n' hn

/-- A loop: from `P` the machines come to `Q`, where both take a step back to `P`, or they come out
at `R`. By induction on the number of steps, of which every round takes one. -/
theorem leads_rounds (hround : Leads c d P fun m m' => Q m m' ∨ R m m')
    (hlooks : ∀ m m', Q m m' → LooksLike m m')
    (hback : ∀ m m', Q m m' → ∃ next next', step c m = .ok .running next ∧
      step d m' = .ok .running next' ∧ P next next') : Leads c d P R := by
  intro steps hafter
  suffices hevery : ∀ fewer ≤ steps, ∀ m m', P m m' → KeepsPace c d fewer m m' from
    hevery steps (Nat.le_refl steps)
  intro fewer
  induction fewer with
  | zero =>
    intro hfewer
    refine hround 0 fun n n' hn => ?_
    rcases hn with hn | hn
    · exact .zero (hlooks n n' hn)
    · exact (hafter n n' hn).mono hfewer
  | succ fewer ih =>
    intro hfewer
    refine hround (fewer + 1) fun n n' hn => ?_
    rcases hn with hn | hn
    · obtain ⟨next, next', hstep, hstep', hnext⟩ := hback n n' hn
      exact .of_both (hlooks n n' hn) hstep hstep' (ih (Nat.le_of_succ_le hfewer) next next' hnext)
    · exact (hafter n n' hn).mono hfewer

end Leads

/-! ## Machines at two offsets

The two machines differ in nothing but the place where they are in their code. -/

/-- Two machines at given offsets, on whatever lines, that have the same stack, of the given height,
and the same variables and output. -/
structure PairAt (height offset offset' : Nat) (m m' : Machine) : Prop where
  ip : m.ip = offset
  size : m.stack.size = height
  second : ∃ line', m' = { m with ip := offset', line := line' }

section PairAt

variable {height offset offset' : Nat} {m m' : Machine}

/-- What a machine shows does not depend on its place. -/
theorem PairAt.looksLike (h : PairAt height offset offset' m m') : LooksLike m m' := by
  obtain ⟨line', rfl⟩ := h.second
  exact ⟨rfl, rfl⟩

/-- The two machines are the same one, moved by different distances, apart from their lines. -/
theorem PairAt.exists_shift (h : PairAt height offset offset' m m') :
    ∃ (n : Machine) (line' : Nat), n.ip = 0 ∧ n.stack.size = height ∧ m = n.shift offset 0 ∧
      m' = { n.shift offset' 0 with line := line' } := by
  obtain ⟨rfl, hsize, line', rfl⟩ := h
  refine ⟨{ m with ip := 0 }, line', rfl, hsize, ?_, ?_⟩
  · unfold shift
    rw [Nat.zero_add]
    rfl
  · unfold shift
    rw [Nat.zero_add]

/-- One machine, moved by two different distances. -/
theorem pairAt_shift {bytes bytes' : Nat} (hsize : m.stack.size = height)
    (hip : m.ip + bytes = offset) (hip' : m.ip + bytes' = offset') :
    PairAt height offset offset' (m.shift bytes 0) (m.shift bytes' 0) :=
  ⟨hip, hsize, m.line, by rw [← hip']; rfl⟩

end PairAt

/-! ## Code that is the same up to its place

Instructions that differ only in the index of a constant do the same, if the constants are the same.
-/

section Twins

open Instruction (located boundaries)
open Lowering (Twins Flows exists_twin_at)

variable {c d : Chunk} {i i' : Instruction}

/-- Where no variable is kept in another place, a twin only has another index for its constant. -/
theorem Twin.exists_moved (h : Twin c d [] i i') :
    ∃ count : Nat, i' = i.moved count ∧ ∀ index, i.constant? = some index →
      ∃ value, c.constants[index.toNat]? = some value ∧
        d.constants[(index + count.toUInt8).toNat]? = some value := by
  -- indices wrap around, so that the second can be reached from the first
  have hindex : ∀ index index' : UInt8, index + (index' - index).toNat.toUInt8 = index' := by
    intro index index'
    rw [Nat.toUInt8_eq, UInt8.ofNat_toNat, UInt8.add_comm, UInt8.sub_add_cancel]
  cases h with
  | same hconstant =>
    refine ⟨0, (Instruction.moved_zero i).symm, fun index hsome => ?_⟩
    rw [hconstant] at hsome
    cases hsome
  | getLocal hslot | setLocal hslot =>
    obtain rfl := UInt8.toNat_inj.mp hslot
    exact ⟨0, rfl, fun index hsome => by cases hsome⟩
  | @constant index index' value h h' | @getGlobal index index' value h h'
  | @setGlobal index index' value h h' =>
    refine ⟨(index' - index).toNat, ?_, ?_⟩
    · rw [Instruction.moved, hindex]
    · rintro _ ⟨rfl⟩
      rw [hindex]
      exact ⟨_, h, h'⟩
  | getMoved _ hslot | setMoved _ hslot => cases hslot

/-- One instruction at two places, for a machine at an offset from which both are counted. -/
theorem advance_twin {limit : Nat} {ops : List Instruction} {height : Nat → Nat}
    {m : Machine} {bytes bytes' : Nat} (hheights : Heights (fun _ _ => False) limit 0 ops height)
    (hi : (m.ip, i) ∈ located 0 ops) (hsize : m.stack.size = height m.ip)
    (htwin : Twin c d [] i i')
    (hdecode : Instruction.decode c.code (m.ip + bytes) = .ok i)
    (hdecode' : Instruction.decode d.code (m.ip + bytes') = .ok i')
    (hline : d.line (m.ip + bytes') = c.line (m.ip + bytes)) :
    (∃ next : Machine, step c (m.shift bytes 0) = .ok .running (next.shift bytes 0) ∧
      step d (m.shift bytes' 0) = .ok .running (next.shift bytes' 0) ∧
      next.ip ∈ boundaries 0 ops ∧ next.stack.size = height next.ip) ∨
    ∃ (fault : Fault) (last : Machine),
      step c (m.shift bytes 0) = .error fault (last.shift bytes 0) ∧
        step d (m.shift bytes' 0) = .error fault (last.shift bytes' 0) := by
  have hsafe := hheights.safe _ i hi
  have hprogress : progress i = .running := if_neg hsafe.ne_ret
  obtain ⟨count, rfl, hconstant⟩ := htwin.exists_moved
  rw [← Instruction.moved_zero i] at hdecode
  have hsame : ∀ index, i.constant? = some index →
      ∃ value, c.constants[index.toNat]? = some value ∧
        c.constants[(index + (0 : Nat).toUInt8).toNat]? = some value := by
    intro index hindex
    obtain ⟨value, hvalue, -⟩ := hconstant index hindex
    refine ⟨value, hvalue, ?_⟩
    rw [show index + (0 : Nat).toUInt8 = index from UInt8.add_zero index]
    exact hvalue
  have hown : c.line (m.ip + bytes) = c.line (m.ip + bytes) + 0 := rfl
  have hother : d.line (m.ip + bytes') = c.line (m.ip + bytes) + 0 := hline
  rw [step_moved hdecode hown hsafe.leadsBack hsame,
    step_moved hdecode' hother hsafe.leadsBack hconstant]
  -- what the instruction does at its place is what it does at the other one
  have hruns := runs_execute hsafe (fun _ => htwin.constant_lt) (fun _ => htwin.exists_name)
    (m := m.started i (c.line (m.ip + bytes))) rfl hsize
  unfold Runs at hruns
  cases hexecute : execute c i (m.started i (c.line (m.ip + bytes))) with
  | ok _ next =>
    rw [hexecute] at hruns
    rw [bind_of_ok hexecute, hprogress]
    refine .inl ⟨next, rfl, rfl, ?_⟩
    rcases hsafe.leads _ hruns.1 with ⟨hboundary, hafter⟩ | hfalse
    · exact ⟨hboundary, hruns.2.trans hafter.symm⟩
    · exact hfalse.elim
  | error fault last =>
    rw [bind_of_error hexecute]
    exact .inr ⟨fault, last, rfl, rfl⟩

/-- Two machines keep pace through twins, from the height at their start to that at their end. -/
theorem leads_twins {l l' : Lowering} {limit n k offset offset' : Nat}
    (htwins : Twins c d [] l l') (hcode : c.CodeAt offset l.code)
    (hcode' : d.CodeAt offset' l'.code) (hflows : l.Flows limit n k) :
    Leads c d (PairAt n offset offset') (PairAt k (offset + l.size) (offset' + l'.size)) := by
  intro steps hafter m m' hm
  obtain ⟨height, hheights, hfirst, hlast⟩ := hflows 0
  rw [Nat.zero_add, Lowering.extent_ops] at hlast
  -- both machines are one machine `n` in the code by itself, moved to where each code stands
  obtain ⟨n, line', hip, hsize, rfl, rfl⟩ := hm.exists_shift
  suffices hevery : ∀ fewer ≤ steps, ∀ n : Machine, n.ip ∈ boundaries 0 l.ops →
      n.stack.size = height n.ip → KeepsPace c d fewer (n.shift offset 0) (n.shift offset' 0) by
    refine (hevery steps (Nat.le_refl steps) n ?_ (by rw [hsize, hip, hfirst])).setLine line'
    rw [hip]
    exact Instruction.start_mem_boundaries 0 l.ops
  intro fewer
  induction fewer with
  | zero => exact fun _ n _ _ => .zero ⟨rfl, rfl⟩
  | succ fewer ih =>
    intro hfewer n hboundary hheight
    have hlooks : LooksLike (n.shift offset 0) (n.shift offset' 0) := ⟨rfl, rfl⟩
    rcases List.mem_append.mp hboundary with hinside | hend
    · obtain ⟨⟨t, i⟩, hi, rfl⟩ := List.mem_map.mp hinside
      have hstart : c.CodeAt (0 + offset) l.code := by rwa [Nat.zero_add]
      have hstart' : d.CodeAt (0 + offset') l'.code := by rwa [Nat.zero_add]
      have hi' : (n.ip + 0, i) ∈ located (0 + 0) (l.code.map (·.1)) := hi
      obtain ⟨i', htwin, hdecode, hdecode', hline⟩ := exists_twin_at htwins hstart hstart' hi'
      -- one step of each, to the same place in the code or to the same fault
      rcases advance_twin hheights hi hheight htwin hdecode hdecode' hline with
        ⟨next, hstep, hstep', hnext, hnextHeight⟩ | ⟨fault, last, hstep, hstep'⟩
      · exact .of_both hlooks hstep hstep' (ih (Nat.le_of_succ_le hfewer) next hnext hnextHeight)
      · exact .of_fault hlooks hstep hstep' hline ⟨rfl, rfl⟩ _
    · -- behind the code the rest is left to what comes after it
      rw [List.mem_singleton, Nat.zero_add, Lowering.extent_ops] at hend
      rw [hend, hlast] at hheight
      refine (hafter _ _ (pairAt_shift hheight ?_ ?_)).mono hfewer
      · rw [hend, Nat.add_comm]
      · rw [hend, htwins.size_eq, Nat.add_comm]

end Twins

/-! ## Jumps and dropped values

The two pieces of code may jump over different distances and at different times. -/

section Instructions

variable {c d : Chunk} {height offset offset' line line' : Nat}
  {rest rest' : List (Instruction × Nat)}

/-- A machine at an offset goes on to another one in at most one step, and nothing else changes. -/
def Goes (c : Chunk) (offset target : Nat) : Prop :=
  offset = target ∨
    ∀ m : Machine, m.ip = offset →
      step c m = .ok .running { m.atLine c with ip := target }

/-- One of the machines moves on alone. -/
theorem leads_first {target : Nat} (h : Goes c offset target) :
    Leads c d (PairAt height offset offset') (PairAt height target offset') := by
  rcases h with rfl | h
  · exact .refl
  · intro steps hafter m m' hm
    have hlooks := hm.looksLike
    obtain ⟨hip, hsize, line', rfl⟩ := hm
    exact .of_first hlooks (h m hip) (hafter _ _ ⟨rfl, hsize, line', rfl⟩)

/-- The second machine goes on alone. -/
theorem leads_second {target' : Nat} (h : Goes d offset' target') :
    Leads c d (PairAt height offset offset') (PairAt height offset target') := by
  rcases h with rfl | h
  · exact .refl
  · intro steps hafter m m' hm
    have hlooks := hm.looksLike
    obtain ⟨hip, hsize, line', rfl⟩ := hm
    exact .of_second hlooks (h _ rfl) (hafter _ _ ⟨hip, hsize, _, rfl⟩)

/-- A jump forward does nothing else. -/
theorem goes_jump {distance : Nat} (hdistance : distance ≤ Compile.maxDistance)
    (hcode : c.CodeAt offset ((.jump distance.toUInt16, line) :: rest)) :
    Goes c offset (offset + 3 + distance) := by
  refine .inr fun m hip => ?_
  refine step_of_execute hcode hip (by simp) ?_
  show EStateM.Result.ok () { m.atLine c with ip := m.ip + 3 + distance.toUInt16.toNat } = _
  rw [toNat_toUInt16 hdistance, hip]

/-- A jump back does nothing else. -/
theorem step_loop {distance target : Nat} (hdistance : distance ≤ Compile.maxDistance)
    (htarget : target + distance = offset + 3)
    (hcode : c.CodeAt offset ((.loop distance.toUInt16, line) :: rest)) {m : Machine}
    (hip : m.ip = offset) : step c m = .ok .running { m.atLine c with ip := target } := by
  have hnat := toNat_toUInt16 hdistance
  refine step_of_execute hcode hip (by simp) ?_
  have hback : m.ip + 3 - distance.toUInt16.toNat = target := by omega
  rw [execute, jumpBackward_apply, if_pos]
  · show EStateM.Result.ok () { m.atLine c with ip := m.ip + 3 - distance.toUInt16.toNat } = _
    rw [hback]
  · show distance.toUInt16.toNat ≤ m.ip + 3
    omega

/-- The value on top decides and stays where it is. -/
theorem step_jumpIfFalse {distance : Nat} {value : Value}
    (hdistance : distance ≤ Compile.maxDistance)
    (hcode : c.CodeAt offset ((.jumpIfFalse distance.toUInt16, line) :: rest)) {m : Machine}
    (hip : m.ip = offset) (hvalue : m.stack.back? = some value) :
    step c m = .ok .running
      { m.atLine c with ip := if value.isFalsey then offset + 3 + distance else offset + 3 } := by
  have htop : (m.past c (.jumpIfFalse distance.toUInt16)).stack.back? = some value := hvalue
  refine step_of_execute hcode hip (by simp) ?_
  rw [execute_jumpIfFalse, htop, toNat_toUInt16 hdistance, ← hip]
  rfl

/-- Both machines look at the same value, so that both jump or both go on. -/
theorem leads_branch {distance distance' : Nat} (hdistance : distance ≤ Compile.maxDistance)
    (hdistance' : distance' ≤ Compile.maxDistance)
    (hcode : c.CodeAt offset ((.jumpIfFalse distance.toUInt16, line) :: rest))
    (hcode' : d.CodeAt offset' ((.jumpIfFalse distance'.toUInt16, line') :: rest')) :
    Leads c d (PairAt (height + 1) offset offset') fun m m' =>
      PairAt (height + 1) (offset + 3) (offset' + 3) m m' ∨
        PairAt (height + 1) (offset + 3 + distance) (offset' + 3 + distance') m m' := by
  intro steps hafter m m' hm
  have hlooks := hm.looksLike
  obtain ⟨hip, hsize, line₂, rfl⟩ := hm
  have hpos : 0 < m.stack.size := by omega
  obtain ⟨value, hvalue⟩ := back?_isSome hpos
  refine .of_first hlooks (step_jumpIfFalse hdistance hcode hip hvalue)
    (.of_second ⟨rfl, rfl⟩ (step_jumpIfFalse hdistance' hcode' rfl hvalue) (hafter _ _ ?_))
  by_cases hfalsey : value.isFalsey = true
  · rw [if_pos hfalsey, if_pos hfalsey]
    exact .inr ⟨rfl, hsize, _, rfl⟩
  · rw [if_neg hfalsey, if_neg hfalsey]
    exact .inl ⟨rfl, hsize, _, rfl⟩

theorem step_pop (hcode : c.CodeAt offset ((.pop, line) :: rest)) {m : Machine}
    (hip : m.ip = offset) (hpos : 0 < m.stack.size) :
    step c m = .ok .running { m.atLine c with ip := offset + 1, stack := m.stack.pop } := by
  obtain ⟨value, hvalue⟩ := back?_isSome hpos
  refine step_of_execute hcode hip (by simp) (discard_of_ok (a := value) ?_)
  have htop : (m.past c .pop).stack.back? = some value := hvalue
  rw [pop_apply, htop]
  show EStateM.Result.ok value { m.atLine c with ip := m.ip + 1, stack := m.stack.pop } = _
  rw [hip]

/-- Both machines drop a value, on whatever lines. -/
theorem leads_pop (hcode : c.CodeAt offset ((.pop, line) :: rest))
    (hcode' : d.CodeAt offset' ((.pop, line') :: rest')) :
    Leads c d (PairAt (height + 1) offset offset') (PairAt height (offset + 1) (offset' + 1)) := by
  intro steps hafter m m' hm
  have hlooks := hm.looksLike
  obtain ⟨hip, hsize, line₂, rfl⟩ := hm
  have hpos : 0 < m.stack.size := by omega
  have hless : m.stack.pop.size = height := by
    rw [Array.size_pop]
    omega
  exact .of_first hlooks (step_pop hcode hip hpos)
    (.of_second ⟨rfl, rfl⟩ (step_pop hcode' rfl hpos) (hafter _ _ ⟨rfl, hless, _, rfl⟩))

end Instructions

end StackScript.Machine
