import StackScript.Proofs.Machine.Safety
import StackScript.Proofs.Machine.Simulation

/-!
# The same variables in two places

Two machines can keep some variables in different places: the first among its globals, the second in
locals at the bottom of its stack. An instruction for the first has a twin for the second, which
does the same with the variables where they are.

* **`Mirrors`**: the states of two such machines. **`Alongside`** does not tell the values.
* **`Tracks`**: an action of the first machine does what an action of the second does, unless the
  stack of the second overflows, which holds more.
* **`Twin`**: instructions that do the same.
* **`tracks_execute`**: they do.
-/

namespace StackScript

open StackScript.Tree

/-! ## Variables in a frame

The names of the frame are the outer ones, with their values. -/

namespace Tree

/-- An assignment changes one variable of a frame that has it. -/
theorem lookup_assign {frame : Frame} {name : String} {old : Value} (value : Value)
    (h : frame.lookup name = some old) (other : String) :
    (frame.assign name value).lookup other =
      if other = name then some value else frame.lookup other := by
  induction frame with
  | nil => cases h
  | cons entry rest ih =>
    obtain ⟨first, kept⟩ := entry
    rw [Frame.assign]
    by_cases hfirst : first = name
    -- the first entry of the name is the one that is assigned
    · subst hfirst
      rw [if_pos rfl, List.lookup_cons, List.lookup_cons]
      by_cases hother : other = first
      · simp [hother]
      · rw [beq_false_of_ne hother, if_neg hother]
    · rw [List.lookup_cons, beq_false_of_ne (Ne.symm hfirst)] at h
      rw [if_neg hfirst, List.lookup_cons, List.lookup_cons, ih h]
      by_cases hother : other = first
      · simp [hother, hfirst]
      · rw [beq_false_of_ne hother]

end Tree

namespace Machine

/-! ## States

One machine holds the outer variables as globals, the other one as locals at the bottom of its
stack. -/

/-- The second machine has the variables of `frame` below its stack, the first one has them among
its globals. For each of them there are two bytes more in the code of the first. -/
structure Mirrors (frame : Frame) (m m' : Machine) : Prop where
  ip : m.ip = m'.ip + 2 * frame.length
  stack : m'.stack.toList = (frame.map (·.2)).reverse ++ m.stack.toList
  globals : ∀ name : String, m.globals[name]? = (frame.lookup name).or m'.globals[name]?
  output : m'.output = m.output

/-- The second machine keeps the variables of the given names in locals. -/
def Alongside (names : List String) (m m' : Machine) : Prop :=
  ∃ frame : Frame, frame.map (·.1) = names ∧ Mirrors frame m m'

section Mirrors

variable {frame : Frame} {names : List String} {m m' : Machine}

/-- The second stack is higher by the outer variables. -/
theorem Mirrors.size_eq (h : Mirrors frame m m') :
    m'.stack.size = frame.length + m.stack.size := by
  have hlength := congrArg List.length h.stack
  simpa using hlength

/-- The first program begins with a definition of two bytes for each outer variable. -/
theorem Alongside.ip (h : Alongside names m m') : m.ip = m'.ip + 2 * names.length := by
  obtain ⟨frame, rfl, hmirrors⟩ := h
  rw [List.length_map]
  exact hmirrors.ip

/-- Other variables are the same in both. -/
theorem Alongside.globals (h : Alongside names m m') {name : String}
    (hname : slot? name names = none) : m.globals[name]? = m'.globals[name]? := by
  obtain ⟨frame, rfl, hmirrors⟩ := h
  rw [hmirrors.globals, lookup_of_slot?_eq_none hname, Option.none_or]

/-- Both have printed the same. -/
theorem Alongside.output (h : Alongside names m m') : m'.output = m.output := by
  obtain ⟨frame, -, hmirrors⟩ := h
  exact hmirrors.output

/-- Both machines look at the same value on top of the stack. -/
theorem Mirrors.back? (h : Mirrors frame m m') (hpos : 0 < m.stack.size) :
    ∃ value, m.stack.back? = some value ∧ m'.stack.back? = some value := by
  obtain ⟨value, hback⟩ := back?_isSome hpos
  refine ⟨value, hback, ?_⟩
  rw [← Array.getLast?_toList] at hback ⊢
  rw [h.stack, List.getLast?_append, hback]
  rfl

/-- A value is popped from both stacks. -/
theorem Mirrors.pop (h : Mirrors frame m m') (hpos : 0 < m.stack.size) :
    Mirrors frame { m with stack := m.stack.pop } { m' with stack := m'.stack.pop } where
  ip := h.ip
  stack := by
    have hne : m.stack.toList ≠ [] := by
      intro hnil
      rw [← Array.length_toList, hnil] at hpos
      exact Nat.lt_irrefl 0 hpos
    rw [Array.toList_pop, Array.toList_pop, h.stack, List.dropLast_append_of_ne_nil hne]
  globals := h.globals
  output := h.output

/-- The same value is pushed on both stacks. -/
theorem Mirrors.push (h : Mirrors frame m m') (value : Value) :
    Mirrors frame { m with stack := m.stack.push value }
      { m' with stack := m'.stack.push value } where
  ip := h.ip
  stack := by rw [Array.toList_push, Array.toList_push, h.stack, List.append_assoc]
  globals := h.globals
  output := h.output

/-- A local of the first machine lies above the locals that only the second has. -/
theorem Mirrors.setLocal (h : Mirrors frame m m') (slot : Nat) (value : Value) :
    Mirrors frame { m with stack := m.stack.setIfInBounds slot value }
      { m' with stack := m'.stack.setIfInBounds (slot + frame.length) value } where
  ip := h.ip
  stack := by
    rw [Array.toList_setIfInBounds, Array.toList_setIfInBounds, h.stack,
      List.set_append_right _ _ (by simp)]
    simp
  globals := h.globals
  output := h.output

/-- A global that is not an outer variable is one for both machines. -/
theorem Mirrors.defineGlobal (h : Mirrors frame m m') {name : String}
    (hname : frame.lookup name = none) (value : Value) :
    Mirrors frame { m with globals := m.globals.insert name value }
      { m' with globals := m'.globals.insert name value } where
  ip := h.ip
  stack := h.stack
  globals other := by
    simp only [Std.ExtTreeMap.getElem?_insert]
    by_cases hother : name = other
    · simp [← hother, hname]
    · simp [hother, h.globals]
  output := h.output

/-- An assignment to a variable of the frame changes a global here and a slot there. -/
theorem Mirrors.assign (h : Mirrors frame m m') {name : String} {slot : Nat}
    (hslot : Tree.slot? name (frame.map (·.1)) = some slot) (value : Value) :
    Mirrors (frame.assign name value) { m with globals := m.globals.insert name value }
      { m' with stack := m'.stack.setIfInBounds slot value } := by
  obtain ⟨old, hlookup, -⟩ := lookup_of_slot? hslot
  have hlength : (frame.assign name value).length = frame.length := by
    have hnames := congrArg List.length (names_assign frame name value)
    rwa [List.length_map, List.length_map] at hnames
  refine ⟨?_, ?_, ?_, h.output⟩
  · rw [hlength]
    exact h.ip
  · have hlt := slot?_lt hslot
    rw [List.length_map] at hlt
    rw [values_assign value hslot, Array.toList_setIfInBounds, h.stack,
      List.set_append_left _ _ (by simpa using hlt)]
  · intro other
    simp only [Std.ExtTreeMap.getElem?_insert]
    rw [lookup_assign value hlookup]
    by_cases hother : other = name
    · simp [hother]
    · simp [hother, Ne.symm hother, h.globals]

end Mirrors

/-! ## Actions

Both machines make the same step, with the same result. -/

/-- The second action is followed by the first: both succeed with the same result, or both fail
with the same fault. Only the stack of the second machine may overflow. -/
def Tracks {α : Type} (names : List String) (x y : MachineM α) (m m' : Machine)
    (post : α → Machine → Machine → Prop) : Prop :=
  match y m' with
  | .ok a n' => ∃ n, x m = .ok a n ∧ post a n n'
  | .error fault n' =>
    fault = .stackOverflow ∨ ∃ n, x m = .error fault n ∧ Alongside names n n'

section Tracks

variable {α β : Type} {names : List String} {x y : MachineM α} {f g : α → MachineM β}
  {m m' : Machine} {post : α → Machine → Machine → Prop} {post' : β → Machine → Machine → Prop}

/-- Both succeed with the same value. -/
theorem tracks_of_ok {a : α} {n n' : Machine} (h : x m = .ok a n) (h' : y m' = .ok a n')
    (hpost : post a n n') : Tracks names x y m m' post := by
  unfold Tracks
  rw [h']
  exact ⟨n, h, hpost⟩

/-- Both fail with the same fault. -/
theorem tracks_of_error {fault : Fault} {n n' : Machine} (h : x m = .error fault n)
    (h' : y m' = .error fault n') (hn : Alongside names n n') : Tracks names x y m m' post := by
  unfold Tracks
  rw [h']
  exact .inr ⟨n, h, hn⟩

theorem Tracks.bind (hx : Tracks names x y m m' post)
    (hf : ∀ a n n', post a n n' → Tracks names (f a) (g a) n n' post') :
    Tracks names (x >>= f) (y >>= g) m m' post' := by
  unfold Tracks at hx
  cases h : y m' with
  | ok a n' =>
    rw [h] at hx
    obtain ⟨n, hn, hpost⟩ := hx
    have hrest := hf a n n' hpost
    unfold Tracks at hrest ⊢
    rw [bind_of_ok h, bind_of_ok hn]
    exact hrest
  -- the second machine has failed, and the first one with it unless the stack has overflowed
  | error fault n' =>
    rw [h] at hx
    unfold Tracks
    rw [bind_of_error h]
    rcases hx with hover | ⟨n, hn, hlast⟩
    · exact .inl hover
    · exact .inr ⟨n, bind_of_error hn, hlast⟩

theorem Tracks.mono {post' : α → Machine → Machine → Prop} (hx : Tracks names x y m m' post)
    (himp : ∀ a n n', post a n n' → post' a n n') : Tracks names x y m m' post' := by
  unfold Tracks at hx ⊢
  cases h : y m' with
  | ok a n' =>
    rw [h] at hx
    obtain ⟨n, hn, hpost⟩ := hx
    exact ⟨n, hn, himp a n n' hpost⟩
  | error fault n' =>
    rw [h] at hx
    exact hx

theorem Tracks.discard {post : Machine → Machine → Prop}
    (hx : Tracks names x y m m' fun _ => post) :
    Tracks names (discard x) (discard y) m m' fun _ => post := by
  unfold Tracks at hx ⊢
  cases h : y m' with
  | ok a n' =>
    rw [h] at hx
    obtain ⟨n, hn, hpost⟩ := hx
    rw [discard_of_ok h]
    exact ⟨n, discard_of_ok hn, hpost⟩
  | error fault n' =>
    rw [h] at hx
    rw [discard_of_error h]
    rcases hx with hover | ⟨n, hn, hlast⟩
    · exact .inl hover
    · exact .inr ⟨n, discard_of_error hn, hlast⟩

end Tracks

variable {names : List String} {m m' : Machine} {c d : Chunk}

/-! ### The stack

What is above the outer variables is the same on both stacks. -/

/-- The stack of the second machine is the higher one, so it overflows first. -/
theorem tracks_push (h : Alongside names m m') (value : Value) :
    Tracks names (push value) (push value) m m' fun _ n n' => Alongside names n n' := by
  obtain ⟨frame, hframe, hmirrors⟩ := h
  have hsize := hmirrors.size_eq
  by_cases hroom : m'.stack.size < maxStack
  · have hroom' : m.stack.size < maxStack := by omega
    exact tracks_of_ok (by rw [push_apply, if_pos hroom']) (by rw [push_apply, if_pos hroom])
      ⟨frame, hframe, hmirrors.push value⟩
  · unfold Tracks
    rw [push_apply, if_neg hroom]
    exact .inl rfl

/-- The stack of the first machine is not empty, so neither reaches the outer variables. -/
theorem tracks_pop (h : Alongside names m m') (hpos : 0 < m.stack.size) :
    Tracks names pop pop m m' fun _ n n' =>
      Alongside names n n' ∧ n.stack.size = m.stack.size - 1 := by
  obtain ⟨frame, hframe, hmirrors⟩ := h
  obtain ⟨value, hback, hback'⟩ := hmirrors.back? hpos
  exact tracks_of_ok (by rw [pop_apply, hback]) (by rw [pop_apply, hback'])
    ⟨⟨frame, hframe, hmirrors.pop hpos⟩, Array.size_pop ..⟩

theorem tracks_peek (h : Alongside names m m') (hpos : 0 < m.stack.size) :
    Tracks names peek peek m m' fun _ n n' => n = m ∧ n' = m' := by
  obtain ⟨frame, -, hmirrors⟩ := h
  obtain ⟨value, hback, hback'⟩ := hmirrors.back? hpos
  exact tracks_of_ok (by rw [peek_apply, hback]) (by rw [peek_apply, hback']) ⟨rfl, rfl⟩

/-- A local has a slot that is larger by the number of outer variables. -/
theorem tracks_getLocal (h : Alongside names m m') {slot slot' : UInt8}
    (hslot : slot'.toNat = slot.toNat + names.length) (hlt : slot.toNat < m.stack.size) :
    Tracks names (getLocal slot) (getLocal slot') m m' fun _ n n' => n = m ∧ n' = m' := by
  obtain ⟨frame, rfl, hmirrors⟩ := h
  rw [List.length_map] at hslot
  have hvalue : m'.stack[slot'.toNat]? = m.stack[slot.toNat]? := by
    rw [← Array.getElem?_toList, ← Array.getElem?_toList, hmirrors.stack, hslot,
      List.getElem?_append_right (by simp)]
    simp
  have hfound := Array.getElem?_eq_getElem hlt
  exact tracks_of_ok (by rw [getLocal_apply, hfound]) (by rw [getLocal_apply, hvalue, hfound])
    ⟨rfl, rfl⟩

/-- A local is set in both machines. -/
theorem tracks_setLocal (h : Alongside names m m') {slot slot' : UInt8}
    (hslot : slot'.toNat = slot.toNat + names.length) (value : Value) :
    Tracks names (setLocal slot value) (setLocal slot' value) m m' fun _ n n' =>
      Alongside names n n' := by
  obtain ⟨frame, rfl, hmirrors⟩ := h
  rw [List.length_map] at hslot
  have hset := hmirrors.setLocal slot.toNat value
  rw [← hslot] at hset
  exact tracks_of_ok rfl rfl ⟨frame, rfl, hset⟩

/-- An operation on two values. -/
theorem tracks_binary {operation : Value → Value → MachineM Value}
    (hoperation : ∀ a b n n', Alongside names n n' →
      Tracks names (operation a b) (operation a b) n n' fun _ => Alongside names)
    (h : Alongside names m m') (hsize : 2 ≤ m.stack.size) :
    Tracks names (binary operation) (binary operation) m m' fun _ => Alongside names := by
  refine (tracks_pop h (by omega)).bind ?_
  rintro right n n' ⟨hn, hless⟩
  refine (tracks_pop hn (by omega)).bind ?_
  rintro left n n' ⟨hn, -⟩
  refine (hoperation left right n n' hn).bind ?_
  intro value n n' hn
  exact tracks_push hn value

theorem tracks_onNumbers (operation : Float → Float → Value) (a b : Value)
    (h : Alongside names m m') :
    Tracks names (onNumbers operation a b) (onNumbers operation a b) m m' fun _ =>
      Alongside names := by
  cases a <;> cases b <;> first | exact tracks_of_ok rfl rfl h | exact tracks_of_error rfl rfl h

theorem tracks_addValues (a b : Value) (h : Alongside names m m') :
    Tracks names (addValues a b) (addValues a b) m m' fun _ => Alongside names := by
  cases a <;> cases b <;> first | exact tracks_of_ok rfl rfl h | exact tracks_of_error rfl rfl h

/-- The value on top is the same. -/
theorem tracks_negateTop (h : Alongside names m m') (hpos : 0 < m.stack.size) :
    Tracks names negateTop negateTop m m' fun _ => Alongside names := by
  refine (tracks_pop h hpos).bind ?_
  rintro value n n' ⟨hn, -⟩
  cases value with
  | number a => exact tracks_push hn _
  | _ => exact tracks_of_error rfl rfl hn

/-! ### Variables, output and jumps

A jump within the program is the same in both machines; a jump back must not lead into the
definitions before it. -/

theorem tracks_constantAt {index index' : UInt8} {value : Value}
    (hvalue : c.constants[index.toNat]? = some value)
    (hvalue' : d.constants[index'.toNat]? = some value) :
    Tracks names (constantAt c index) (constantAt d index') m m' fun a n n' =>
      a = value ∧ n = m ∧ n' = m' :=
  tracks_of_ok (by rw [constantAt_apply, hvalue]) (by rw [constantAt_apply, hvalue'])
    ⟨rfl, rfl, rfl⟩

/-- The same name from two pools. -/
theorem tracks_nameAt {index index' : UInt8} {name : String}
    (hname : c.constants[index.toNat]? = some (.string name))
    (hname' : d.constants[index'.toNat]? = some (.string name)) :
    Tracks names (nameAt c index) (nameAt d index') m m' fun a n n' =>
      a = name ∧ n = m ∧ n' = m' :=
  tracks_of_ok (nameAt_of_string hname m) (nameAt_of_string hname' m') ⟨rfl, rfl, rfl⟩

/-- A global that is not an outer variable. -/
theorem tracks_getGlobal (h : Alongside names m m') {name : String}
    (hname : slot? name names = none) :
    Tracks names (getGlobal name) (getGlobal name) m m' fun _ n n' => n = m ∧ n' = m' := by
  have hsame := h.globals hname
  cases hglobal : m'.globals[name]? with
  | some value =>
    exact tracks_of_ok (by rw [getGlobal_apply, hsame, hglobal])
      (by rw [getGlobal_apply, hglobal]) ⟨rfl, rfl⟩
  | none =>
    exact tracks_of_error (by rw [getGlobal_apply, hsame, hglobal])
      (by rw [getGlobal_apply, hglobal]) h

theorem tracks_defineGlobal (h : Alongside names m m') {name : String}
    (hname : slot? name names = none) (value : Value) :
    Tracks names (defineGlobal name value) (defineGlobal name value) m m' fun _ =>
      Alongside names := by
  obtain ⟨frame, rfl, hmirrors⟩ := h
  exact tracks_of_ok rfl rfl
    ⟨frame, rfl, hmirrors.defineGlobal (lookup_of_slot?_eq_none hname) value⟩

/-- Both print the same, and both or neither find the output full. -/
theorem tracks_printLine (h : Alongside names m m') (text : String) :
    Tracks names (printLine text) (printLine text) m m' fun _ => Alongside names := by
  obtain ⟨frame, hframe, hmirrors⟩ := h
  have hprinted : Alongside names { m with output := (m.output.writeText (text ++ "\n")).2 }
      { m' with output := (m'.output.writeText (text ++ "\n")).2 } :=
    ⟨frame, hframe, hmirrors.ip, hmirrors.stack, hmirrors.globals, by rw [hmirrors.output]⟩
  have hprint := printLine_apply text m
  have hprint' := printLine_apply text m'
  by_cases hroom : (m.output.writeText (text ++ "\n")).1 = true
  · rw [if_pos hroom] at hprint
    rw [if_pos (hmirrors.output ▸ hroom)] at hprint'
    exact tracks_of_ok hprint hprint' hprinted
  · rw [if_neg hroom] at hprint
    rw [if_neg (hmirrors.output ▸ hroom)] at hprint'
    exact tracks_of_error hprint hprint' hprinted

theorem tracks_jumpForward (h : Alongside names m m') (distance : UInt16) :
    Tracks names (jumpForward distance) (jumpForward distance) m m' fun _ =>
      Alongside names := by
  obtain ⟨frame, hframe, hmirrors⟩ := h
  refine tracks_of_ok rfl rfl ⟨frame, hframe, ?_, hmirrors.stack, hmirrors.globals, hmirrors.output⟩
  have hip := hmirrors.ip
  show m.ip + distance.toNat = m'.ip + distance.toNat + 2 * frame.length
  omega

/-- A jump back that stays behind the definitions. -/
theorem tracks_jumpBackward (h : Alongside names m m') {distance : UInt16}
    (hback : distance.toNat + 2 * names.length ≤ m.ip) :
    Tracks names (jumpBackward distance) (jumpBackward distance) m m' fun _ =>
      Alongside names := by
  obtain ⟨frame, rfl, hmirrors⟩ := h
  have hip := hmirrors.ip
  rw [List.length_map] at hback
  have hjump := (jumpBackward_apply distance m).trans (if_pos (by omega))
  have hjump' := (jumpBackward_apply distance m').trans (if_pos (by omega))
  refine tracks_of_ok hjump hjump'
    ⟨frame, rfl, ?_, hmirrors.stack, hmirrors.globals, hmirrors.output⟩
  show m.ip - distance.toNat = m'.ip - distance.toNat + 2 * frame.length
  omega

/-! ## Instructions

Twins do the same to both machines. -/

/-- Instructions of two chunks that do the same if the second machine keeps the variables of the
given names in locals. -/
inductive Twin (c d : Chunk) (names : List String) : Instruction → Instruction → Prop
  | same {i : Instruction} (hconstant : i.constant? = none) (hslot : i.slot? = none) :
      Twin c d names i i
  | constant {index index' : UInt8} {value : Value}
      (h : c.constants[index.toNat]? = some value)
      (h' : d.constants[index'.toNat]? = some value) :
      Twin c d names (.constant index) (.constant index')
  | getLocal {slot slot' : UInt8} (h : slot'.toNat = slot.toNat + names.length) :
      Twin c d names (.getLocal slot) (.getLocal slot')
  | setLocal {slot slot' : UInt8} (h : slot'.toNat = slot.toNat + names.length) :
      Twin c d names (.setLocal slot) (.setLocal slot')
  | getGlobal {index index' : UInt8} {name : String}
      (h : c.constants[index.toNat]? = some (.string name))
      (h' : d.constants[index'.toNat]? = some (.string name)) (hname : slot? name names = none) :
      Twin c d names (.getGlobal index) (.getGlobal index')
  | setGlobal {index index' : UInt8} {name : String}
      (h : c.constants[index.toNat]? = some (.string name))
      (h' : d.constants[index'.toNat]? = some (.string name)) (hname : slot? name names = none) :
      Twin c d names (.setGlobal index) (.setGlobal index')
  | getMoved {index slot : UInt8} {name : String}
      (h : c.constants[index.toNat]? = some (.string name))
      (hslot : slot? name names = some slot.toNat) :
      Twin c d names (.getGlobal index) (.getLocal slot)
  | setMoved {index slot : UInt8} {name : String}
      (h : c.constants[index.toNat]? = some (.string name))
      (hslot : slot? name names = some slot.toNat) :
      Twin c d names (.setGlobal index) (.setLocal slot)

variable {i i' : Instruction}

/-- Twins have the same width. -/
theorem Twin.width_eq (h : Twin c d names i i') : i'.width = i.width := by
  cases h <;> rfl

/-- The machine goes on after both of two twins, or after neither. -/
theorem Twin.progress_eq (h : Twin c d names i i') : progress i' = progress i := by
  cases h <;> rfl

/-- The first of two twins finds its constant, and its name if it uses one. -/
theorem Twin.constant_lt (h : Twin c d names i i') {index : UInt8}
    (hindex : i.constant? = some index) : index.toNat < c.constants.size := by
  have hsize : ∀ {index : UInt8} {value : Value}, c.constants[index.toNat]? = some value →
      index.toNat < c.constants.size := fun hvalue => (Array.getElem?_eq_some_iff.mp hvalue).1
  cases h with
  | same hconstant => rw [hconstant] at hindex; cases hindex
  | constant hvalue => cases hindex; exact hsize hvalue
  | getLocal | setLocal => cases hindex
  | getGlobal hname | setGlobal hname | getMoved hname | setMoved hname =>
    cases hindex
    exact hsize hname

/-- The constant that a global instruction refers to is a name. -/
theorem Twin.exists_name (h : Twin c d names i i') {index : UInt8}
    (hindex : index ∈ i.globalName?) : ∃ name, c.constants[index.toNat]? = some (.string name) := by
  cases h with
  | same hconstant =>
    rw [Instruction.constant?_of_globalName? hindex] at hconstant
    cases hconstant
  | constant | getLocal | setLocal => cases hindex
  | getGlobal hname | setGlobal hname | getMoved hname | setMoved hname =>
    cases hindex
    exact ⟨_, hname⟩

/-- A variable that was moved has its value there in a slot. -/
theorem Mirrors.exists_value {frame : Frame} {name : String} {slot : UInt8}
    (h : Mirrors frame m m') (hslot : slot? name (frame.map (·.1)) = some slot.toNat) :
    ∃ value, Machine.getGlobal name m = .ok value m ∧
      Machine.getLocal slot m' = .ok value m' := by
  obtain ⟨value, hlookup, hvalue⟩ := lookup_of_slot? hslot
  have hlt := slot?_lt hslot
  rw [List.length_map] at hlt
  have hlocal : m'.stack[slot.toNat]? = some value := by
    rw [← Array.getElem?_toList, h.stack, List.getElem?_append_left (by simpa using hlt)]
    exact hvalue
  refine ⟨value, ?_, by rw [getLocal_apply, hlocal]⟩
  rw [getGlobal_apply, h.globals, hlookup, Option.some_or]

/-- An outer variable is read as a global and as a local. -/
theorem tracks_getMoved {index slot : UInt8} {name : String} (h : Alongside names m m')
    (hname : c.constants[index.toNat]? = some (.string name))
    (hslot : slot? name names = some slot.toNat) :
    Tracks names (execute c (.getGlobal index)) (execute d (.getLocal slot)) m m' fun _ =>
      Alongside names := by
  obtain ⟨frame, rfl, hmirrors⟩ := h
  obtain ⟨value, hglobal, hlocal⟩ := hmirrors.exists_value hslot
  have hread : execute c (.getGlobal index) m = push value m := by
    rw [execute, bind_of_ok (nameAt_of_string hname m), bind_of_ok hglobal]
  have hread' : execute d (.getLocal slot) m' = push value m' := by
    rw [execute, bind_of_ok hlocal]
  unfold Tracks
  rw [hread, hread']
  exact tracks_push ⟨frame, rfl, hmirrors⟩ value

/-- Here the value is looked at before the variable is, there after it, but both are there. -/
theorem tracks_setMoved {index slot : UInt8} {name : String} (h : Alongside names m m')
    (hname : c.constants[index.toNat]? = some (.string name))
    (hslot : slot? name names = some slot.toNat) (hpos : 0 < m.stack.size) :
    Tracks names (execute c (.setGlobal index)) (execute d (.setLocal slot)) m m' fun _ =>
      Alongside names := by
  obtain ⟨frame, rfl, hmirrors⟩ := h
  obtain ⟨value, hback, hback'⟩ := hmirrors.back? hpos
  obtain ⟨old, hglobal, hlocal⟩ := hmirrors.exists_value hslot
  -- the first machine sets a global
  have hset : execute c (.setGlobal index) m =
      .ok () { m with globals := m.globals.insert name value } := by
    rw [execute, bind_of_ok (nameAt_of_string hname m), bind_of_ok (by rw [peek_apply, hback]),
      bind_of_ok (discard_of_ok hglobal)]
    rfl
  -- the second machine sets the local that takes its place
  have hset' : execute d (.setLocal slot) m' =
      .ok () { m' with stack := m'.stack.setIfInBounds slot.toNat value } := by
    rw [execute, bind_of_ok (discard_of_ok hlocal), bind_of_ok (by rw [peek_apply, hback'])]
    rfl
  exact tracks_of_ok hset hset'
    ⟨frame.assign name value, names_assign frame name value, hmirrors.assign hslot value⟩

/-- An instruction that uses no constant and no slot does the same on both machines. -/
theorem tracks_same (hconstant : i.constant? = none) (hlocal : i.slot? = none)
    (h : Alongside names m m') (hneeds : i.needs ≤ m.stack.size)
    (hback : ∀ distance, i = .loop distance → distance.toNat + 2 * names.length ≤ m.ip) :
    Tracks names (execute c i) (execute d i) m m' fun _ => Alongside names := by
  cases i with
  -- these instructions have an operand that may differ
  | constant _ | getGlobal _ | defineGlobal _ | setGlobal _ => cases hconstant
  | getLocal _ | setLocal _ => cases hlocal
  | nil | true | false => exact tracks_push h _
  | pop =>
    have hpop : Tracks names pop pop m m' fun _ => Alongside names :=
      (tracks_pop h hneeds).mono fun _ _ _ hn => hn.1
    exact hpop.discard
  | equal => exact tracks_binary (fun _ _ _ _ hn => tracks_of_ok rfl rfl hn) h hneeds
  | greater | less | subtract | multiply | divide =>
    exact tracks_binary (fun a b _ _ hn => tracks_onNumbers _ a b hn) h hneeds
  | add => exact tracks_binary (fun a b _ _ hn => tracks_addValues a b hn) h hneeds
  | not =>
    refine (tracks_pop h hneeds).bind ?_
    rintro value n n' ⟨hn, -⟩
    exact tracks_push hn _
  | negate => exact tracks_negateTop h hneeds
  | print =>
    refine (tracks_pop h hneeds).bind ?_
    rintro value n n' ⟨hn, -⟩
    exact tracks_printLine hn _
  | jump distance => exact tracks_jumpForward h distance
  | jumpIfFalse distance =>
    refine (tracks_peek h hneeds).bind ?_
    rintro value _ _ ⟨rfl, rfl⟩
    by_cases hvalue : value.isFalsey = true
    · rw [if_pos hvalue]
      exact tracks_jumpForward h distance
    · rw [if_neg hvalue]
      exact tracks_of_ok rfl rfl h
  -- the second machine is behind by the definitions that it does not have, and still the jump does
  -- not lead to before the start
  | loop distance => exact tracks_jumpBackward h (hback distance rfl)
  | ret => exact tracks_of_ok rfl rfl h

/-- Twins do the same, if the first finds its operands. -/
theorem tracks_execute (htwin : Twin c d names i i') (h : Alongside names m m')
    (hneeds : i.needs ≤ m.stack.size) (hslot : ∀ slot ∈ i.slot?, slot.toNat < m.stack.size)
    (hback : ∀ distance, i = .loop distance → distance.toNat + 2 * names.length ≤ m.ip) :
    Tracks names (execute c i) (execute d i') m m' fun _ => Alongside names := by
  cases htwin with
  | constant hvalue hvalue' =>
    refine (tracks_constantAt hvalue hvalue').bind ?_
    rintro value _ _ ⟨-, rfl, rfl⟩
    exact tracks_push h value
  -- the second machine has more locals, so the slots differ
  | getLocal hshift =>
    refine (tracks_getLocal h hshift (hslot _ rfl)).bind ?_
    rintro value _ _ ⟨rfl, rfl⟩
    exact tracks_push h value
  | setLocal hshift =>
    refine (tracks_getLocal h hshift (hslot _ rfl)).discard.bind ?_
    rintro _ _ _ ⟨rfl, rfl⟩
    refine (tracks_peek h hneeds).bind ?_
    rintro value _ _ ⟨rfl, rfl⟩
    exact tracks_setLocal h hshift value
  | getGlobal hconstant hconstant' hname =>
    refine (tracks_nameAt hconstant hconstant').bind ?_
    rintro _ _ _ ⟨rfl, rfl, rfl⟩
    refine (tracks_getGlobal h hname).bind ?_
    rintro value _ _ ⟨rfl, rfl⟩
    exact tracks_push h value
  | setGlobal hconstant hconstant' hname =>
    refine (tracks_nameAt hconstant hconstant').bind ?_
    rintro _ _ _ ⟨rfl, rfl, rfl⟩
    refine (tracks_peek h hneeds).bind ?_
    rintro value _ _ ⟨rfl, rfl⟩
    refine (tracks_getGlobal h hname).discard.bind ?_
    rintro _ _ _ ⟨rfl, rfl⟩
    exact tracks_defineGlobal h hname value
  -- a global in the first machine, and a local in the second
  | getMoved hconstant hmoved => exact tracks_getMoved h hconstant hmoved
  | setMoved hconstant hmoved => exact tracks_setMoved h hconstant hmoved hneeds
  | same hconstant hlocal => exact tracks_same hconstant hlocal h hneeds hback

end Machine

end StackScript
