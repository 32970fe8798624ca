import StackScript.Proofs.Machine.Runs
import StackScript.Proofs.Tree.Evaluation

/-!
# Following an evaluation with the machine

How the state of the machine represents what an evaluation has done, and what it means that the
machine follows an evaluation from such a state.

* **`Matches`**: the locals of all blocks lie at the bottom of the stack in the order of their
  declaration, above them the values that are held back.
* **`Follows`**: if the evaluation succeeds, the machine reaches a matching state; if it fails, the
  machine fails alike; if it runs out of fuel, the machine runs on for as many steps.
* **`Follows.bind`**: one evaluation after another.
-/

namespace StackScript

open StackScript.Tree

/-! ## States

A store of the evaluation has one frame for each block that is open. The machine has the values of
all frames on its stack, the outermost first. -/

namespace Tree.Store

/-- The values of the locals, in the order of their declaration. -/
def values (s : Store) : List Value :=
  (s.frames.flatten.map (·.2)).reverse

/-- The names of the locals, block by block. -/
def blocks (s : Store) : Blocks :=
  s.frames.map fun frame => frame.map (·.1)

/-- The names of all locals, with the last one first. -/
theorem flatten_blocks (s : Store) : s.blocks.flatten = s.frames.flatten.map (·.1) := by
  rw [blocks, List.map_flatten]

/-- Every local has one value. -/
theorem length_values (s : Store) : s.values.length = s.frames.flatten.length := by
  rw [values, List.length_reverse, List.length_map]

end Tree.Store

/-! ### The slots of locals

The slot that the compiler finds for a name is where the machine keeps the value that the store has
for it. -/

namespace Tree

/-- The latest local of a name is in its slot. -/
theorem lookup_of_slot? {l : Frame} {name : String} {slot : Nat}
    (h : slot? name (l.map (·.1)) = some slot) :
    ∃ value, l.lookup name = some value ∧ (l.map (·.2)).reverse[slot]? = some value := by
  induction l with
  | nil => cases h
  | cons entry rest ih =>
    obtain ⟨other, old⟩ := entry
    rw [List.map_cons, slot?] at h
    rw [List.map_cons, List.reverse_cons, List.lookup_cons]
    by_cases hname : other = name
    -- the last entry has the highest slot
    · rw [if_pos hname] at h
      cases h
      refine ⟨old, by simp [hname], ?_⟩
      rw [List.getElem?_append_right (by simp)]
      simp
    -- the slot is one of the entries before it, which stand first in the reverse list
    · rw [if_neg hname] at h
      have hlt := slot?_lt h
      obtain ⟨value, hlookup, hslot⟩ := ih h
      refine ⟨value, by rw [beq_false_of_ne (Ne.symm hname), hlookup], ?_⟩
      rwa [List.getElem?_append_left (by simpa using hlt)]

/-- A name without a slot is not the name of a local. -/
theorem lookup_of_slot?_eq_none {l : Frame} {name : String}
    (h : slot? name (l.map (·.1)) = none) : l.lookup name = none := by
  induction l with
  | nil => rfl
  | cons entry rest ih =>
    rw [List.map_cons, slot?] at h
    split at h
    · cases h
    · rename_i hname
      rw [List.lookup_cons, beq_false_of_ne (Ne.symm hname), ih h]

/-- Assigning to a local changes its slot and no other. -/
theorem values_assign {l : Frame} {name : String} {slot : Nat} (value : Value)
    (h : slot? name (l.map (·.1)) = some slot) :
    ((l.assign name value).map (·.2)).reverse = (l.map (·.2)).reverse.set slot value := by
  induction l with
  | nil => cases h
  | cons entry rest ih =>
    obtain ⟨other, old⟩ := entry
    rw [List.map_cons, slot?] at h
    rw [Frame.assign]
    by_cases hname : other = name
    · rw [if_pos hname] at h ⊢
      cases h
      rw [List.map_cons, List.map_cons, List.reverse_cons, List.reverse_cons,
        List.set_append_right _ _ (by simp)]
      simp
    · rw [if_neg hname] at h ⊢
      have hlt := slot?_lt h
      rw [List.map_cons, List.map_cons, List.reverse_cons, List.reverse_cons, ih h,
        List.set_append_left _ _ (by simpa using hlt)]

/-- An assignment does not change the names. -/
theorem names_assign (l : Frame) (name : String) (value : Value) :
    (l.assign name value).map (·.1) = l.map (·.1) := by
  induction l with
  | nil => rfl
  | cons entry rest ih =>
    rw [Frame.assign]
    split
    · rfl
    · rw [List.map_cons, ih, List.map_cons]

/-- The innermost local of that name gets the value. -/
theorem assign_append (a b : Frame) (name : String) (value : Value) :
    Frame.assign name value (a ++ b) =
      if (a.lookup name).isSome then a.assign name value ++ b else a ++ b.assign name value := by
  induction a with
  | nil => rfl
  | cons entry rest ih =>
    obtain ⟨other, old⟩ := entry
    rw [List.cons_append, Frame.assign, Frame.assign, List.lookup_cons]
    by_cases hname : other = name
    · simp [hname]
    · rw [if_neg hname, if_neg hname, ih, beq_false_of_ne (Ne.symm hname)]
      split <;> rfl

/-- It does not matter for an assignment in which frame the local is. -/
theorem flatten_assignLocal (frames : List Frame) (name : String) (value : Value) :
    (assignLocal name value frames).flatten = Frame.assign name value frames.flatten := by
  induction frames with
  | nil => rfl
  | cons frame outer ih =>
    rw [assignLocal, List.flatten_cons, assign_append]
    split
    · rw [List.flatten_cons]
    · rw [List.flatten_cons, ih]

/-- An assignment does not change the names in any frame. -/
theorem names_assignLocal (frames : List Frame) (name : String) (value : Value) :
    (assignLocal name value frames).map (fun frame => frame.map (·.1)) =
      frames.map fun frame => frame.map (·.1) := by
  induction frames with
  | nil => rfl
  | cons frame outer ih =>
    rw [assignLocal]
    split
    · rw [List.map_cons, List.map_cons, names_assign]
    · rw [List.map_cons, List.map_cons, ih]

end Tree

namespace Machine

/-- The machine is at an offset, and its state is that of the evaluation with some values held
back. -/
structure Matches (offset : Nat) (held : List Value) (s : Store) (m : Machine) : Prop where
  ip : m.ip = offset
  stack : m.stack.toList = s.values ++ held
  le_maxStack : m.stack.size ≤ maxStack
  globals : m.globals = s.globals
  written : m.output.written = s.printed
  /-- The output takes everything. -/
  room : m.output.room = none

/-- The machine is at an offset and has a value on top of those that are held back. -/
def Leaves (blocks : Blocks) (offset : Nat) (held : List Value) (value : Value) (s : Store)
    (m : Machine) : Prop :=
  s.blocks = blocks ∧ Matches offset (held ++ [value]) s m

/-- The machine follows an evaluation with the given result. -/
def Follows {α : Type} (chunk : Chunk) (fuel : Nat) (m : Machine)
    (result : EStateM.Result Stop Store α) (post : α → Store → Machine → Prop) : Prop :=
  match result with
  | .ok a s => ∃ count m', Reaches chunk count m m' ∧ post a s m'
  | .error (.fault e) s =>
    ∃ count before m', Reaches chunk count m before ∧ step chunk before = .error e.fault m' ∧
      chunk.line before.ip = e.line ∧ m'.globals = s.globals ∧ m'.output.written = s.printed
  | .error .outOfFuel _ => ∃ count m', fuel ≤ count ∧ Reaches chunk count m m'

section Follows

variable {α β : Type} {chunk : Chunk} {fuel : Nat} {m : Machine}
  {post : α → Store → Machine → Prop}

/-- The evaluation is over, and the machine has nothing to do. -/
theorem follows_ok {a : α} {s : Store} (h : post a s m) : Follows chunk fuel m (.ok a s) post :=
  ⟨0, m, rfl, h⟩

/-- Steps that the evaluation does not know of come first. They count when it runs out of fuel. -/
theorem Follows.after {result : EStateM.Result Stop Store α} {count : Nat} {before : Machine}
    (hbefore : Reaches chunk count before m) (h : Follows chunk fuel m result post) :
    Follows chunk (fuel + count) before result post := by
  match result, h with
  | .ok a s, ⟨more, m', hreaches, hpost⟩ => exact ⟨_, m', hbefore.trans hreaches, hpost⟩
  | .error (.fault e) s, ⟨more, last, m', hreaches, hrest⟩ =>
    exact ⟨_, last, m', hbefore.trans hreaches, hrest⟩
  | .error .outOfFuel s, ⟨more, m', hmore, hreaches⟩ =>
    exact ⟨_, m', by omega, hbefore.trans hreaches⟩

/-- It is enough that the machine keeps up with a longer evaluation. -/
theorem Follows.less {result : EStateM.Result Stop Store α} (h : Follows chunk fuel m result post)
    {fuel' : Nat} (hfuel : fuel' ≤ fuel) : Follows chunk fuel' m result post := by
  match result, h with
  | .ok a s, h => exact h
  | .error (.fault e) s, h => exact h
  | .error .outOfFuel s, ⟨more, m', hmore, hreaches⟩ =>
    exact ⟨more, m', Nat.le_trans hfuel hmore, hreaches⟩

/-- The machine may take steps first that the evaluation does not know of. -/
theorem Follows.of_reaches {result : EStateM.Result Stop Store α} {count : Nat} {before : Machine}
    (hbefore : Reaches chunk count before m) (h : Follows chunk fuel m result post) :
    Follows chunk fuel before result post :=
  (h.after hbefore).less (Nat.le_add_right _ _)

/-- Steps that the evaluation does not know of come last. -/
theorem Follows.andThen {result : EStateM.Result Stop Store α}
    {post' : α → Store → Machine → Prop} (h : Follows chunk fuel m result post)
    (hpost : ∀ a s m, post a s m → ∃ count m', Reaches chunk count m m' ∧ post' a s m') :
    Follows chunk fuel m result post' := by
  match result, h with
  | .ok a s, ⟨count, m', hreaches, ha⟩ =>
    obtain ⟨more, m'', hmore, ha'⟩ := hpost a s m' ha
    exact ⟨_, m'', hreaches.trans hmore, ha'⟩
  | .error (.fault e) s, h => exact h
  | .error .outOfFuel s, h => exact h

/-- Less may be said in the end. -/
theorem Follows.mono {result : EStateM.Result Stop Store α}
    {post' : α → Store → Machine → Prop} (h : Follows chunk fuel m result post)
    (hpost : ∀ a s m, post a s m → post' a s m) : Follows chunk fuel m result post' :=
  h.andThen fun a s m ha => ⟨0, m, rfl, hpost a s m ha⟩

/-- The machine keeps up with one action after the other. An evaluation that stops in the first has
no second. -/
theorem Follows.bind {x : EvalM α} {f : α → EvalM β} {s : Store}
    {post' : β → Store → Machine → Prop} (hx : Follows chunk fuel m (x s) post)
    (hf : ∀ a s' m', post a s' m' → Follows chunk fuel m' (f a s') post') :
    Follows chunk fuel m ((x >>= f) s) post' := by
  cases h : x s with
  | ok a s' =>
    rw [h] at hx
    rw [bind_of_ok h]
    obtain ⟨count, m', hreaches, ha⟩ := hx
    exact (hf a s' m' ha).of_reaches hreaches
  -- the evaluation stops in the first action, whatever the reason
  | error stop s' =>
    rw [h] at hx
    rw [bind_of_error h]
    cases stop with
    | fault e => exact hx
    | outOfFuel => exact hx

/-- The result of an action may be dropped. -/
theorem Follows.discard {x : EvalM α} {s : Store} {post : Store → Machine → Prop}
    (hx : Follows chunk fuel m (x s) fun _ => post) :
    Follows chunk fuel m ((discard x) s) fun _ => post := by
  cases h : x s with
  | ok a s' =>
    rw [h] at hx
    rw [discard_of_ok h]
    exact hx
  | error stop s' =>
    rw [h] at hx
    rw [discard_of_error h]
    cases stop with
    | fault e => exact hx
    | outOfFuel => exact hx

end Follows

/-! ## Single instructions

A step of the machine from an offset at which the code is known. -/

section Instructions

variable {chunk : Chunk} {fuel offset line : Nat} {held : List Value} {s : Store} {m m' : Machine}
  {i : Instruction} {rest : List (Instruction × Nat)} {blocks : Blocks}

/-- The step decodes and executes the instruction that is there. -/
theorem step_of_codeAt (hcode : chunk.CodeAt offset ((i, line) :: rest)) (hip : m.ip = offset) :
    step chunk m = (do execute chunk i; return progress i) (m.past chunk i) := by
  apply step_of_decode
  rw [hip]
  exact hcode.decode

/-- The execution of an instruction is a step. -/
theorem step_of_execute (hcode : chunk.CodeAt offset ((i, line) :: rest)) (hip : m.ip = offset)
    (hret : i ≠ .ret) (h : execute chunk i (m.past chunk i) = .ok () m') :
    step chunk m = .ok .running m' := by
  rw [step_of_codeAt hcode hip, bind_of_ok h, progress, if_neg hret]
  rfl

/-- An instruction that is executed without a fault is one step. -/
theorem reaches_of_execute (hcode : chunk.CodeAt offset ((i, line) :: rest)) (hip : m.ip = offset)
    (hret : i ≠ .ret) (h : execute chunk i (m.past chunk i) = .ok () m') : Reaches chunk 1 m m' :=
  .single (step_of_execute hcode hip hret h)

/-- A fault of an instruction is one of the line on which it stands. -/
theorem follows_of_fault {α : Type} {post : α → Store → Machine → Prop} {fault : Fault}
    (hcode : chunk.CodeAt offset ((i, line) :: rest)) (hip : m.ip = offset)
    (h : execute chunk i (m.past chunk i) = .error fault m') (hglobals : m'.globals = s.globals)
    (hwritten : m'.output.written = s.printed) :
    Follows chunk fuel m (failAt line fault s) post := by
  refine ⟨0, m, m', rfl, ?_, ?_, hglobals, hwritten⟩
  · rw [step_of_codeAt hcode hip, bind_of_error h]
  -- the fault is on the line of the instruction
  · rw [hip]
    exact hcode.line

/-! ### Reading a matching state

What the machine finds on its stack, said in terms of the store and of the values that are held. -/

/-- Reading an instruction leaves everything else as it is. -/
theorem Matches.past (hm : Matches offset held s m) (chunk : Chunk) (i : Instruction) :
    Matches (offset + i.width) held s (m.past chunk i) :=
  ⟨congrArg (· + i.width) hm.ip, hm.stack, hm.le_maxStack, hm.globals, hm.written, hm.room⟩

/-- The stack has one value for each local and for each value that is held. -/
theorem Matches.size_eq (hm : Matches offset held s m) :
    m.stack.size = s.frames.flatten.length + held.length := by
  rw [← Array.length_toList, hm.stack, List.length_append, Store.length_values]

/-- The value held last is on top. -/
theorem Matches.back? {value : Value} (hm : Matches offset (held ++ [value]) s m) :
    m.stack.back? = some value := by
  rw [← Array.getLast?_toList, hm.stack, ← List.append_assoc, List.getLast?_concat]

/-- So it is the one that is looked at. -/
theorem Matches.peek {value : Value} (hm : Matches offset (held ++ [value]) s m) :
    peek m = .ok value m := by
  rw [peek_apply, hm.back?]

/-- The value on top is taken off, and there is a place for another. -/
theorem Matches.pop {value : Value} (hm : Matches offset (held ++ [value]) s m) :
    pop m = .ok value { m with stack := m.stack.pop } ∧
      Matches offset held s { m with stack := m.stack.pop } ∧ m.stack.pop.size < maxStack := by
  have hpop : m.stack.pop.toList = s.values ++ held := by
    rw [Array.toList_pop, hm.stack, ← List.append_assoc, List.dropLast_concat]
  have hsize : m.stack.pop.size < maxStack := by
    have hle := hm.le_maxStack
    have hpos := hm.size_eq
    rw [List.length_append, List.length_singleton] at hpos
    rw [Array.size_pop]
    omega
  refine ⟨by rw [pop_apply, hm.back?], ?_, hsize⟩
  exact ⟨hm.ip, hpop, Nat.le_of_lt hsize, hm.globals, hm.written, hm.room⟩

/-- A value can be put where one was taken off. -/
theorem Matches.push (hm : Matches offset held s m) (hlt : m.stack.size < maxStack)
    (value : Value) : push value m = .ok () { m with stack := m.stack.push value } ∧
      Matches offset (held ++ [value]) s { m with stack := m.stack.push value } := by
  refine ⟨by rw [push_apply, if_pos hlt], ?_⟩
  refine ⟨hm.ip, ?_, ?_, hm.globals, hm.written, hm.room⟩
  · change (m.stack.push value).toList = _
    rw [Array.toList_push, hm.stack, List.append_assoc]
  · change (m.stack.push value).size ≤ maxStack
    rw [Array.size_push]
    omega

/-! ### Instructions that the evaluation does not know of

Jumps and pops change where the machine is and what it holds, and leave the store alone. -/

/-- The value held last is dropped. -/
theorem reaches_pop {value : Value} (hcode : chunk.CodeAt offset ((.pop, line) :: rest))
    (hm : Matches offset (held ++ [value]) s m) :
    ∃ m', Reaches chunk 1 m m' ∧ Matches (offset + 1) held s m' := by
  obtain ⟨hpop, hm', -⟩ := (hm.past chunk .pop).pop
  exact ⟨_, reaches_of_execute hcode hm.ip nofun (discard_of_ok hpop), hm'⟩

/-- Code that starts by dropping the value on top of the stack. -/
theorem follows_after_pop {α : Type} {post : α → Store → Machine → Prop} {value : Value}
    {result : EStateM.Result Stop Store α} {base : Nat} {code : Lowering}
    (hholds : chunk.Holds offset base (Lowering.instruction .pop line ++ code))
    (hm : Matches offset (held ++ [value]) s m)
    (h : ∀ m', chunk.Holds (offset + 1) base code → Matches (offset + 1) held s m' →
      Follows chunk fuel m' result post) : Follows chunk fuel m result post := by
  obtain ⟨m₁, hpop, hm₁⟩ := reaches_pop hholds.code hm
  exact (h m₁ hholds.right hm₁).of_reaches hpop

/-- A jump forward goes on at its target. -/
theorem reaches_jump {distance : Nat} (hdistance : distance ≤ Compile.maxDistance)
    (hcode : chunk.CodeAt offset ((.jump distance.toUInt16, line) :: rest))
    (hm : Matches offset held s m) :
    ∃ m', Reaches chunk 1 m m' ∧ Matches (offset + 3 + distance) held s m' := by
  refine ⟨{ m.atLine chunk with ip := m.ip + 3 + distance.toUInt16.toNat }, ?_, ?_⟩
  · exact reaches_of_execute hcode hm.ip nofun rfl
  · rw [toNat_toUInt16 hdistance]
    exact ⟨congrArg (· + 3 + distance) hm.ip, hm.stack, hm.le_maxStack, hm.globals, hm.written,
      hm.room⟩

/-- A conditional jump looks at the value on top of the stack and leaves it there. -/
theorem reaches_jumpIfFalse {distance : Nat} {value : Value}
    (hdistance : distance ≤ Compile.maxDistance)
    (hcode : chunk.CodeAt offset ((.jumpIfFalse distance.toUInt16, line) :: rest))
    (hm : Matches offset (held ++ [value]) s m) :
    ∃ m', Reaches chunk 1 m m' ∧
      Matches (if value.isFalsey then offset + 3 + distance else offset + 3) (held ++ [value]) s
        m' := by
  -- the value is only looked at, so it is held in both cases
  have hpeek := (hm.past chunk (.jumpIfFalse distance.toUInt16)).peek
  by_cases hvalue : value.isFalsey = true
  · refine ⟨{ m.atLine chunk with ip := m.ip + 3 + distance.toUInt16.toNat }, ?_, ?_⟩
    · apply reaches_of_execute hcode hm.ip nofun
      rw [execute, bind_of_ok hpeek, if_pos hvalue]
      rfl
    · rw [if_pos hvalue, toNat_toUInt16 hdistance]
      exact ⟨congrArg (· + 3 + distance) hm.ip, hm.stack, hm.le_maxStack, hm.globals, hm.written,
        hm.room⟩
  · refine ⟨{ m.atLine chunk with ip := m.ip + 3 }, ?_, ?_⟩
    · apply reaches_of_execute hcode hm.ip nofun
      rw [execute, bind_of_ok hpeek, if_neg hvalue]
      rfl
    · rw [if_neg hvalue]
      exact ⟨congrArg (· + 3) hm.ip, hm.stack, hm.le_maxStack, hm.globals, hm.written, hm.room⟩

/-- A jump back goes on at its target. -/
theorem reaches_loop {distance target : Nat} (hdistance : distance ≤ Compile.maxDistance)
    (htarget : target + distance = offset + 3)
    (hcode : chunk.CodeAt offset ((.loop distance.toUInt16, line) :: rest))
    (hm : Matches offset held s m) :
    ∃ m', Reaches chunk 1 m m' ∧ Matches target held s m' := by
  have hip := hm.ip
  have hnat := toNat_toUInt16 hdistance
  refine ⟨{ m.atLine chunk with ip := m.ip + 3 - distance.toUInt16.toNat }, ?_, ?_⟩
  · apply reaches_of_execute hcode hip nofun
    rw [execute, jumpBackward_apply, if_pos (by
      change distance.toUInt16.toNat ≤ m.ip + 3
      omega)]
    rfl
  · have hback : m.ip + 3 - distance.toUInt16.toNat = target := by omega
    exact ⟨hback, hm.stack, hm.le_maxStack, hm.globals, hm.written, hm.room⟩

/-! ### Values

The evaluation has a limit for the values that it holds, which is the height of the stack. -/

/-- A value is kept if there is a place left for it. -/
theorem keep_some (places held line : Nat) (value : Value) (s : Store) :
    keep (some places) held line value s =
      if s.frames.flatten.length + held < places then .ok value s
      else failAt line .stackOverflow s := by
  unfold keep
  rw [bind_of_ok (get_apply s)]
  simp only [Option.all_some, decide_eq_true_eq]
  split <;> rfl

/-- An instruction that pushes a value keeps it, if there is a place for it. -/
theorem follows_keep {value : Value} (hcode : chunk.CodeAt offset ((i, line) :: rest))
    (hret : i ≠ .ret) (hexecute : execute chunk i (m.past chunk i) = push value (m.past chunk i))
    (hs : s.blocks = blocks) (hm : Matches offset held s m) :
    Follows chunk fuel m (keep (some maxStack) held.length line value s)
      (Leaves blocks (offset + i.width) held) := by
  -- the limit of the evaluation is the height of the stack
  have hsize := hm.size_eq
  rw [keep_some]
  by_cases hroom : s.frames.flatten.length + held.length < maxStack
  · rw [if_pos hroom]
    have hlt : (m.past chunk i).stack.size < maxStack := by
      change m.stack.size < maxStack
      omega
    obtain ⟨hpush, hm'⟩ := (hm.past chunk i).push hlt value
    exact ⟨1, _, reaches_of_execute hcode hm.ip hret (hexecute.trans hpush), hs, hm'⟩
  · rw [if_neg hroom]
    have hfull : ¬ (m.past chunk i).stack.size < maxStack := by
      change ¬ m.stack.size < maxStack
      omega
    rw [push_apply, if_neg hfull] at hexecute
    exact follows_of_fault hcode hm.ip hexecute hm.globals hm.written

end Instructions

end Machine

end StackScript
