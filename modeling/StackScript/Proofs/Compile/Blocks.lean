import StackScript.Proofs.Tree.Lowering

/-!
# Locals as a stack of blocks

The compiler keeps all locals in one list and tells their blocks apart by depth. `Scope.ofBlocks`
is the list that stands for a stack of blocks, each with its names; the operations of a scope are
the plain ones on that stack.
-/

namespace StackScript.Compile.Scope

open StackScript.Tree (slot?)

/-- The locals of a stack of blocks. The outermost block has depth 1. -/
def localsOf : Blocks → List Local
  | [] => []
  | block :: outer => block.map (fun name => ⟨name, some (outer.length + 1)⟩) ++ localsOf outer

/-- The scope in which exactly the given blocks are open. -/
def ofBlocks (blocks : Blocks) : Scope where
  locals := localsOf blocks
  depth := blocks.length

@[simp] theorem length_localsOf (blocks : Blocks) :
    (localsOf blocks).length = blocks.flatten.length := by
  induction blocks with
  | nil => rfl
  | cons block outer ih => simp [localsOf, ih]

/-- Every local of a stack of blocks lies at some depth between 1 and the number of blocks. -/
theorem depth_of_mem_localsOf {blocks : Blocks} {l : Local} (h : l ∈ localsOf blocks) :
    ∃ d, l.depth = some d ∧ 1 ≤ d ∧ d ≤ blocks.length := by
  induction blocks with
  | nil => simp [localsOf] at h
  | cons block outer ih =>
    rcases List.mem_append.mp h with hblock | houter
    · obtain ⟨name, _, rfl⟩ := List.mem_map.mp hblock
      exact ⟨outer.length + 1, rfl, by omega, by simp⟩
    · obtain ⟨d, hd, hpos, hle⟩ := ih houter
      exact ⟨d, hd, hpos, by rw [List.length_cons]; omega⟩

/-! ## Looking a name up

The last local of a name is the one that is found, whichever block it is in. -/

/-- Looking a name up among locals that all have a depth. -/
theorem find?_of_depths {ls : List Local} (h : ∀ l ∈ ls, l.depth.isSome) (name : String) :
    match slot? name (ls.map (·.name)) with
    | some slot => ∃ l : Local, find? name ls = some (slot, l) ∧ l.depth.isSome
    | none => find? name ls = none := by
  induction ls with
  | nil => rfl
  | cons l rest ih =>
    simp only [List.map_cons, slot?, find?, List.length_map]
    by_cases hname : l.name = name
    · simp only [hname, if_true]
      exact ⟨l, rfl, h l List.mem_cons_self⟩
    · simp only [hname, if_false]
      exact ih fun l hl => h l (List.mem_cons_of_mem _ hl)

/-- The locals have the names of all blocks. -/
theorem names_localsOf (blocks : Blocks) :
    (localsOf blocks).map (·.name) = blocks.flatten := by
  induction blocks with
  | nil => rfl
  | cons block outer ih =>
    rw [localsOf, List.map_append, ih, List.map_map, List.flatten_cons]
    exact congrArg (· ++ outer.flatten) (List.map_id block)

/-- A name is resolved to the slot of its latest local, and that local has a value. -/
theorem resolve_ofBlocks (blocks : Blocks) (name : String) :
    match slot? name blocks.flatten with
    | some slot =>
      ∃ l : Local, (ofBlocks blocks).resolve name = some (slot.toUInt8, l) ∧ l.depth.isSome
    | none => (ofBlocks blocks).resolve name = none := by
  -- between declarations every local has its value
  have hdepths : ∀ l ∈ localsOf blocks, l.depth.isSome := fun l hl => by
    obtain ⟨d, hd, _⟩ := depth_of_mem_localsOf hl
    simp [hd]
  have hfind := find?_of_depths hdepths name
  rw [names_localsOf] at hfind
  simp only [resolve, ofBlocks]
  cases hslot : slot? name blocks.flatten with
  | none =>
    simp only [hslot] at hfind
    simp [hfind]
  | some slot =>
    simp only [hslot] at hfind
    obtain ⟨l, hl, hdepth⟩ := hfind
    exact ⟨l, by simp [hl], hdepth⟩

/-- While a local waits for its value its own name leads to it. -/
theorem resolve_declare_self (scope : Scope) (name : String) :
    (scope.declare name).resolve name =
      some (scope.locals.length.toUInt8, ⟨name, none⟩) := by
  simp [resolve, declare, find?]

/-- While a local waits for its value all other names lead where they did. -/
theorem resolve_declare_of_ne (scope : Scope) {name other : String} (h : other ≠ name) :
    (scope.declare name).resolve other = scope.resolve other := by
  simp [resolve, declare, find?, Ne.symm h]

/-! ## The innermost block

Its locals are exactly those within its depth, so both scans that stop at the first local of an
outer block stop where the block ends. -/

theorem isWithin_block (block : List String) (depth : Nat) :
    ∀ l ∈ block.map (fun name => (⟨name, some depth⟩ : Local)), Local.isWithin depth l = true := by
  intro l hl
  obtain ⟨name, _, rfl⟩ := List.mem_map.mp hl
  simp [Local.isWithin]

theorem not_isWithin_of_depth {l : Local} {d depth : Nat} (hd : l.depth = some d)
    (hle : d ≤ depth) : Local.isWithin (depth + 1) l = false := by
  simp only [Local.isWithin, hd, decide_eq_false_iff_not]
  omega

/-- None of the outer locals belongs to the innermost block. -/
theorem not_isWithin_outer (outer : Blocks) :
    ∀ l ∈ localsOf outer, Local.isWithin (outer.length + 1) l = false := by
  intro l hl
  obtain ⟨d, hd, _, hle⟩ := depth_of_mem_localsOf hl
  exact not_isWithin_of_depth hd hle

/-- In an open block a name counts as declared exactly if the block has it. -/
theorem declares_ofBlocks (block : List String) (outer : Blocks) (name : String) :
    (ofBlocks (block :: outer)).declares name = decide (name ∈ block) := by
  have houter : (localsOf outer).takeWhile (Local.isWithin (outer.length + 1)) = [] := by
    cases hls : localsOf outer with
    | nil => rfl
    | cons l rest =>
      have hl := not_isWithin_outer outer l (by simp [hls])
      simp [hl]
  simp only [declares, ofBlocks, localsOf, List.length_cons]
  rw [List.takeWhile_append_of_pos (isWithin_block block _), houter, List.append_nil,
    List.any_map]
  apply Bool.eq_iff_iff.mpr
  simp

/-- There is a limit for the locals of all blocks together. -/
theorem isFull_ofBlocks (blocks : Blocks) :
    (ofBlocks blocks).isFull = decide (maxLocals ≤ blocks.flatten.length) := by
  simp [isFull, ofBlocks]

/-! ## Opening and closing a block

A block is closed by dropping the locals that belong to it. -/

/-- A block starts without locals. -/
theorem beginBlock_ofBlocks (blocks : Blocks) :
    (ofBlocks blocks).beginBlock = ofBlocks ([] :: blocks) := rfl

/-- Closing a block drops its locals and no others. -/
theorem endBlock_append {inner outer : List Local} {depth : Nat}
    (hinner : ∀ l ∈ inner, Local.isWithin (depth + 1) l = true)
    (houter : ∀ l ∈ outer, Local.isWithin (depth + 1) l = false) :
    endBlock ⟨inner ++ outer, depth + 1⟩ = ⟨outer, depth⟩ := by
  have hstop : outer.dropWhile (Local.isWithin (depth + 1)) = outer := by
    cases outer with
    | nil => rfl
    | cons l rest => simp [houter l List.mem_cons_self]
  simp only [endBlock, Nat.add_sub_cancel]
  rw [List.dropWhile_append_of_pos hinner, hstop]

/-- What is left are the outer blocks. -/
theorem endBlock_ofBlocks (block : List String) (outer : Blocks) :
    (ofBlocks (block :: outer)).endBlock = ofBlocks outer :=
  endBlock_append (isWithin_block block _) (not_isWithin_outer outer)

end StackScript.Compile.Scope
