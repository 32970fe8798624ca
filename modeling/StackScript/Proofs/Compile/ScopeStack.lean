import StackScript.Proofs.Compile.Blocks

/-!
# A scope is a stack of blocks

A scope keeps the locals of all open blocks in one list. Which block a local belongs to is told by
its depth alone, and the latest local may have none yet. Here the operations on a scope are compared
with those on a plain stack of name lists.

* **`Scope.Operation`**: what changes a scope. **`Scope.after`** is the scope after some operations.
* **`Scope.Stack.follow?`**: the stack after the same operations. It is there only if they are
  issued in order: a block is closed that is open, a local is declared in a block that has room for
  it, and gets its value before anything else happens.
* **`Scope.Refines`**: what the scope says about names is what the stack says.
* **`Scope.after_endBlock`**: a block that is closed leaves the scope as it was before the block.
-/

namespace StackScript.Compile.Scope

/-! ## Operations

A scope is changed by four operations. The same operations act on a stack of blocks, where they may
not be possible. -/

/-- What changes a scope. -/
inductive Operation where
  | beginBlock
  | endBlock
  | declare (name : String)
  | markInitialized
deriving DecidableEq

def Operation.apply : Operation → Scope → Scope
  | beginBlock, c => c.beginBlock
  | endBlock, c => c.endBlock
  | declare name, c => c.declare name
  | markInitialized, c => c.markInitialized

/-- The scope after some operations, the earliest first. -/
def after (ops : List Operation) : Scope :=
  ops.foldl (fun c op => op.apply c) empty

theorem after_append (first second : List Operation) :
    after (first ++ second) = second.foldl (fun c op => op.apply c) (after first) :=
  List.foldl_append

/-- A stack of blocks. -/
structure Stack where
  /-- The names declared in each open block, the innermost block and the latest name first. -/
  blocks : Blocks
  /-- Whether the latest name has no value yet. -/
  waiting : Bool
deriving DecidableEq

namespace Stack

def empty : Stack where
  blocks := []
  waiting := false

/-- All names in the order of their slots: the blocks from the outermost to the innermost, and in
each the names as they were declared. -/
def slots (k : Stack) : List String :=
  (k.blocks.reverse.map List.reverse).flatten

/-- The names of the innermost block. -/
def innermost (k : Stack) : List String :=
  k.blocks.headD []

/-- The stack after an operation that comes in order. -/
def step? : Stack → Operation → Option Stack
  | ⟨blocks, false⟩, .beginBlock => some ⟨[] :: blocks, false⟩
  | ⟨_ :: outer, false⟩, .endBlock => some ⟨outer, false⟩
  | ⟨block :: outer, false⟩, .declare name =>
    if (block :: outer).flatten.length < maxLocals then some ⟨(name :: block) :: outer, true⟩
    else none
  | ⟨blocks, true⟩, .markInitialized => some ⟨blocks, false⟩
  | _, _ => none

/-- The stack after operations that come in order, the earliest first. -/
def follow? (ops : List Operation) : Option Stack :=
  ops.foldlM step? empty

/-- What an operation that comes in order does. -/
theorem step?_cases {k k' : Stack} {op : Operation} (h : step? k op = some k') :
    (∃ blocks, op = .beginBlock ∧ k = ⟨blocks, false⟩ ∧ k' = ⟨[] :: blocks, false⟩) ∨
    (∃ block outer, op = .endBlock ∧ k = ⟨block :: outer, false⟩ ∧ k' = ⟨outer, false⟩) ∨
    (∃ name block outer, op = .declare name ∧ k = ⟨block :: outer, false⟩ ∧
      (block :: outer).flatten.length < maxLocals ∧ k' = ⟨(name :: block) :: outer, true⟩) ∨
    (∃ blocks, op = .markInitialized ∧ k = ⟨blocks, true⟩ ∧ k' = ⟨blocks, false⟩) := by
  obtain ⟨blocks, waiting⟩ := k
  cases op with
  | beginBlock =>
    cases waiting with
    -- a local waits for its value, and nothing else may happen before it has one
    | true => cases h
    | false =>
      cases h
      exact .inl ⟨blocks, rfl, rfl, rfl⟩
  | endBlock =>
    cases waiting with
    | true => cases blocks <;> cases h
    | false =>
      cases blocks with
      -- there is no block to close
      | nil => cases h
      | cons block outer =>
        cases h
        exact .inr (.inl ⟨block, outer, rfl, rfl, rfl⟩)
  | declare name =>
    cases waiting with
    | true => cases blocks <;> cases h
    | false =>
      cases blocks with
      | nil => cases h
      | cons block outer =>
        rw [step?] at h
        split at h
        · rename_i hroom
          cases h
          exact .inr (.inr (.inl ⟨name, block, outer, rfl, rfl, hroom, rfl⟩))
        · cases h
  | markInitialized =>
    cases waiting with
    | false => cases blocks <;> cases h
    | true =>
      cases h
      exact .inr (.inr (.inr ⟨blocks, rfl, rfl, rfl⟩))

/-- Operations come in order exactly if the first of them do and then the others do. -/
theorem follow?_append {first second : List Operation} {k : Stack} :
    follow? (first ++ second) = some k ↔
      ∃ k₁, follow? first = some k₁ ∧ second.foldlM step? k₁ = some k := by
  rw [follow?, List.foldlM_append, Option.bind_eq_bind, Option.bind_eq_some_iff]
  rfl

theorem follow?_concat {ops : List Operation} {op : Operation} {k k' : Stack}
    (h : follow? ops = some k) (hop : step? k op = some k') :
    follow? (ops ++ [op]) = some k' := by
  refine follow?_append.mpr ⟨k, h, ?_⟩
  rw [List.foldlM_cons, hop]
  rfl

end Stack

/-! ## The scope of a stack

A scope represents a stack if it lists the locals of all its blocks with their depths. -/

/-- The scope keeps the locals of the stack. A name that has no value yet has no depth. -/
inductive Represents : Stack → Scope → Prop where
  | settled (blocks : Blocks) (hroom : blocks.flatten.length ≤ maxLocals) :
      Represents ⟨blocks, false⟩ (ofBlocks blocks)
  | waiting (name : String) (block : List String) (outer : Blocks)
      (hroom : ((name :: block) :: outer).flatten.length ≤ maxLocals) :
      Represents ⟨(name :: block) :: outer, true⟩ ((ofBlocks (block :: outer)).declare name)

namespace Represents

variable {k k' : Stack} {c c' : Scope}

theorem start : Represents .empty empty :=
  settled [] (Nat.zero_le _)

/-- There is one scope for a stack. -/
theorem unique (h : Represents k c) (h' : Represents k c') : c = c' := by
  cases h <;> cases h' <;> rfl

/-- **Step.** The scope follows each operation that comes in order. -/
theorem step (h : Represents k c) {op : Operation} (hop : k.step? op = some k') :
    Represents k' (op.apply c) := by
  rcases Stack.step?_cases hop with ⟨blocks, rfl, rfl, rfl⟩ | ⟨block, outer, rfl, rfl, rfl⟩ |
    ⟨name, block, outer, rfl, rfl, hroom, rfl⟩ | ⟨blocks, rfl, rfl, rfl⟩
  · obtain ⟨_, hroom⟩ := h
    exact settled ([] :: blocks) hroom
  · obtain ⟨_, hroom⟩ := h
    rw [List.flatten_cons, List.length_append] at hroom
    have hclosed : Operation.endBlock.apply (ofBlocks (block :: outer)) = ofBlocks outer :=
      endBlock_ofBlocks block outer
    rw [hclosed]
    exact settled outer (by omega)
  · obtain ⟨_, _⟩ := h
    exact waiting name block outer hroom
  · cases h with
    | waiting name block outer hroom => exact settled ((name :: block) :: outer) hroom

/-- **Run.** So it follows any operations that come in order. -/
theorem run (h : Represents k c) {ops : List Operation}
    (hops : ops.foldlM Stack.step? k = some k') :
    Represents k' (ops.foldl (fun c op => op.apply c) c) := by
  induction ops generalizing k c with
  | nil =>
    cases hops
    exact h
  | cons op ops ih =>
    rw [List.foldlM_cons, Option.bind_eq_bind, Option.bind_eq_some_iff] at hops
    obtain ⟨k₁, hstep, hrest⟩ := hops
    exact ih (h.step hstep) hrest

/-- The depth is the number of blocks. -/
theorem depth_eq (h : Represents k c) : c.depth = k.blocks.length := by
  cases h <;> rfl

/-- The locals are those of all blocks. -/
theorem names_eq (h : Represents k c) : c.locals.map (·.name) = k.blocks.flatten := by
  cases h with
  | settled blocks => exact names_localsOf blocks
  | waiting name block outer => exact congrArg (name :: ·) (names_localsOf (block :: outer))

/-- There are no more locals than slots. -/
theorem length_le (h : Represents k c) : c.locals.length ≤ maxLocals := by
  rw [← List.length_map (·.name), h.names_eq]
  cases h with
  | settled _ hroom => exact hroom
  | waiting _ _ _ hroom => exact hroom

/-- In an open block a name can be declared as long as the scope is not full. -/
theorem exists_declare {blocks : Blocks} (h : Represents ⟨blocks, false⟩ c) (name : String)
    (hdepth : c.depth ≠ 0) (hroom : ¬ c.isFull) :
    ∃ block outer, blocks = block :: outer ∧ Stack.step? ⟨blocks, false⟩ (.declare name) =
      some ⟨(name :: block) :: outer, true⟩ := by
  rw [h.depth_eq] at hdepth
  obtain ⟨block, outer, rfl⟩ := List.exists_cons_of_length_pos (Nat.pos_of_ne_zero hdepth)
  refine ⟨block, outer, rfl, if_pos ?_⟩
  rw [← h.names_eq, List.length_map]
  simpa [isFull] using hroom

/-- The locals of the innermost block are the first of all, and those within its depth. -/
theorem exists_inner (h : Represents k c) {block : List String} {outer : Blocks}
    (hblocks : k.blocks = block :: outer) :
    ∃ inner, c.locals = inner ++ localsOf outer ∧ inner.map (·.name) = block ∧
      ∀ l ∈ inner, Local.isWithin (outer.length + 1) l = true := by
  cases h with
  | settled blocks =>
    obtain rfl : blocks = block :: outer := hblocks
    refine ⟨block.map fun name => ⟨name, some (outer.length + 1)⟩, rfl, ?_, isWithin_block block _⟩
    rw [List.map_map]
    exact List.map_id block
  | waiting name rest around =>
    obtain ⟨rfl, rfl⟩ := List.cons.inj hblocks
    refine ⟨⟨name, none⟩ :: rest.map fun name => ⟨name, some (around.length + 1)⟩, rfl, ?_, ?_⟩
    · rw [List.map_cons, List.map_map]
      exact congrArg (name :: ·) (List.map_id rest)
    · intro l hl
      rcases List.mem_cons.mp hl with rfl | hl
      · rfl
      · exact isWithin_block rest _ l hl

end Represents

/-! ## Names

What is found for a name is the last local of that name, and its slot counts the locals before it.
-/

/-- Nothing is found only for a name that no local has. -/
theorem find?_eq_none_iff {name : String} {ls : List Local} :
    find? name ls = none ↔ name ∉ ls.map (·.name) := by
  induction ls with
  | nil => simp [find?]
  | cons l rest ih =>
    rw [find?, List.map_cons, List.mem_cons]
    by_cases hname : l.name = name
    · simp [hname]
    · rw [if_neg hname, ih]
      simp [Ne.symm hname]

/-- What is found is the index of a local. -/
theorem find?_lt {name : String} {ls : List Local} {index : Nat} {l : Local}
    (h : find? name ls = some (index, l)) : index < ls.length := by
  induction ls with
  | nil => cases h
  | cons l' rest ih =>
    rw [find?] at h
    rw [List.length_cons]
    split at h
    · cases h
      omega
    · exact Nat.lt_succ_of_lt (ih h)

/-- The latest local of a name is found, with the number of locals before it. -/
theorem find?_append_cons {name : String} {later earlier : List Local} {l : Local}
    (hl : l.name = name) (hlater : name ∉ later.map (·.name)) :
    find? name (later ++ l :: earlier) = some (earlier.length, l) := by
  induction later with
  | nil => rw [List.nil_append, find?, if_pos hl]
  | cons l' rest ih =>
    rw [List.map_cons, List.mem_cons, not_or] at hlater
    rw [List.cons_append, find?, if_neg (Ne.symm hlater.1), ih hlater.2]

/-- A name is resolved to its declaration in a block of the stack: the latest of the name in the
block. Its slot is the number of names in the blocks around it and of those declared before it. -/
structure ResolvesTo (c : Scope) (name : String) (block : List String) (outer : Blocks)
    (slot : UInt8) (l : Local) : Prop where
  resolve : c.resolve name = some (slot, l)
  name_eq : l.name = name
  local_at : c.locals.reverse[slot.toNat]? = some l
  latest : ∃ later earlier, block = later ++ name :: earlier ∧ name ∉ later ∧
    slot.toNat = outer.flatten.length + earlier.length

/-- What a scope says about names, and what closing its innermost block does, are what a stack of
blocks says. -/
structure Refines (k : Stack) (c : Scope) : Prop where
  /-- In the order of their slots the names are those of the blocks, the outermost first. -/
  slots : c.locals.reverse.map (·.name) = k.slots
  depth : c.depth = k.blocks.length
  /-- A name is not resolved exactly if no open block declares it. -/
  resolve_eq_none : ∀ name, c.resolve name = none ↔ ∀ block ∈ k.blocks, name ∉ block
  /-- Otherwise it is resolved to its declaration in the innermost block that has one. -/
  resolve_eq_some : ∀ name inner block outer, k.blocks = inner ++ block :: outer → name ∈ block →
    (∀ block' ∈ inner, name ∉ block') →
    ∃ slot l, c.ResolvesTo name block outer slot l ∧ k.slots[slot.toNat]? = some name
  declares : ∀ name, c.declares name = true ↔ name ∈ k.innermost
  /-- Closing the innermost block removes as many locals as it has names, the latest ones. -/
  endBlock : ∀ block outer, k = ⟨block :: outer, false⟩ →
    c.endBlock.locals = c.locals.drop block.length ∧
    c.locals.length - c.endBlock.locals.length = block.length ∧
    c.endBlock.locals.reverse.map (·.name) = Stack.slots ⟨outer, false⟩ ∧
    c.endBlock.depth = outer.length

section Refines

variable {k : Stack} {c : Scope}

/-- Read from the other end, a stack of blocks is its concatenation. -/
theorem Stack.slots_eq_reverse (k : Stack) : k.slots = k.blocks.flatten.reverse := by
  rw [Stack.slots, List.reverse_flatten, List.map_reverse]

/-- Slots are counted from the outermost local. -/
theorem Represents.slots_eq (h : Represents k c) : c.locals.reverse.map (·.name) = k.slots := by
  rw [List.map_reverse, h.names_eq, k.slots_eq_reverse]

/-- A name that is in no block is not resolved. -/
theorem Represents.resolve_eq_none_iff (h : Represents k c) (name : String) :
    c.resolve name = none ↔ ∀ block ∈ k.blocks, name ∉ block := by
  rw [resolve, Option.map_eq_none_iff, find?_eq_none_iff, h.names_eq, List.mem_flatten]
  constructor
  · intro hnone block hblock hname
    exact hnone ⟨block, hblock, hname⟩
  · rintro hnone ⟨block, hblock, hname⟩
    exact hnone block hblock hname

/-- Every slot fits in a byte, so the slot of a local is its place among the locals. -/
theorem Represents.resolve_of_find? (h : Represents k c) {name : String}
    {later earlier : List Local} {l : Local} (hlocals : c.locals = later ++ l :: earlier)
    (hl : l.name = name) (hlater : name ∉ later.map (·.name)) :
    ∃ slot : UInt8, c.resolve name = some (slot, l) ∧ slot.toNat = earlier.length := by
  have hlength := h.length_le
  rw [hlocals, List.length_append, List.length_cons, maxLocals] at hlength
  refine ⟨earlier.length.toUInt8, ?_, UInt8.toNat_ofNat_of_lt' (show earlier.length < 256 by omega)⟩
  rw [resolve, hlocals, find?_append_cons hl hlater]
  rfl

/-- A name is resolved to the innermost block that has it. -/
theorem Represents.exists_resolvesTo (h : Represents k c) {name : String} {inner : Blocks}
    {block : List String} {outer : Blocks} (hblocks : k.blocks = inner ++ block :: outer)
    (hname : name ∈ block) (hinner : ∀ block' ∈ inner, name ∉ block') :
    ∃ slot l, c.ResolvesTo name block outer slot l ∧ k.slots[slot.toNat]? = some name := by
  obtain ⟨later, earlier, hblock, hlater⟩ := List.eq_append_cons_of_mem hname
  -- The declaration divides the names, and so it divides the locals.
  have hnames : c.locals.map (·.name) =
      (inner.flatten ++ later) ++ name :: (earlier ++ outer.flatten) := by
    rw [h.names_eq, hblocks, hblock]
    simp
  obtain ⟨before, rest, hlocals, hbefore, hrest⟩ := List.map_eq_append_iff.mp hnames
  obtain ⟨l, behind, rfl, hl, hbehind⟩ := List.map_eq_cons_iff.mp hrest
  have hfirst : name ∉ before.map (·.name) := by
    rw [hbefore, List.mem_append, List.mem_flatten]
    rintro (⟨block', hmem, hin⟩ | hin)
    · exact hinner block' hmem hin
    · exact hlater hin
  obtain ⟨slot, hresolve, hslot⟩ := h.resolve_of_find? hlocals hl hfirst
  have hlength : behind.length = outer.flatten.length + earlier.length := by
    rw [← List.length_map (·.name), hbehind, List.length_append, Nat.add_comm]
  have hlocal : c.locals.reverse[slot.toNat]? = some l := by
    rw [hlocals, hslot, List.reverse_append, List.reverse_cons, List.append_assoc,
      List.getElem?_append_right (by simp), List.length_reverse, Nat.sub_self]
    rfl
  refine ⟨slot, l, ⟨hresolve, hl, hlocal, later, earlier, hblock, hlater, ?_⟩, ?_⟩
  · rw [hslot, hlength]
  · rw [← h.slots_eq, List.getElem?_map, hlocal, ← hl]
    rfl

/-- The locals within the depth of the innermost block are its own. -/
theorem Represents.declares_iff (h : Represents k c) (name : String) :
    c.declares name = true ↔ name ∈ k.innermost := by
  rw [Scope.declares, h.depth_eq]
  cases hblocks : k.blocks with
  | nil =>
    have hnone : c.locals = [] := by
      have hnames := h.names_eq
      rw [hblocks] at hnames
      exact List.map_eq_nil_iff.mp hnames
    simp [Stack.innermost, hblocks, hnone]
  | cons block outer =>
    obtain ⟨inner, hlocals, hinner, hwithin⟩ := h.exists_inner hblocks
    have houter : (localsOf outer).takeWhile (Local.isWithin (outer.length + 1)) = [] := by
      cases hls : localsOf outer with
      | nil => rfl
      | cons l rest => simp [not_isWithin_outer outer l (by simp [hls])]
    rw [hlocals, List.length_cons, List.takeWhile_append_of_pos hwithin, houter, List.append_nil,
      Stack.innermost, hblocks, List.headD_cons, ← hinner]
    simp

theorem Represents.refines (h : Represents k c) : Refines k c where
  slots := h.slots_eq
  depth := h.depth_eq
  resolve_eq_none := h.resolve_eq_none_iff
  resolve_eq_some _ _ _ _ := h.exists_resolvesTo
  declares := h.declares_iff
  endBlock block outer hk := by
    subst hk
    obtain ⟨_, _⟩ := h
    have hlength : (ofBlocks (block :: outer)).locals.length =
        block.length + (localsOf outer).length := by
      simp [ofBlocks, localsOf]
    rw [endBlock_ofBlocks]
    refine ⟨?_, ?_, ?_, rfl⟩
    · exact (List.drop_left' (by simp)).symm
    · rw [hlength]
      exact Nat.add_sub_cancel _ _
    · rw [List.map_reverse, Stack.slots_eq_reverse]
      exact congrArg List.reverse (names_localsOf outer)

/-- Operations that come in order keep the scope and the stack together. -/
theorem represents_after {ops : List Operation} (h : Stack.follow? ops = some k) :
    Represents k (after ops) :=
  Represents.start.run h

end Refines

/-! ## Closing a block

After a block is closed the scope is what it was when the block was opened. -/

/-- Of the operations after `before`, the first opens a block and `inside` are in that block: it is
open all the time, and when they are done it is the innermost one. -/
structure Inside (before inside : List Operation) : Prop where
  isOpen : ∀ first, first <+: inside →
    (after before).depth < (after (before ++ .beginBlock :: first)).depth
  innermost : (after (before ++ .beginBlock :: inside)).depth = (after before).depth + 1

namespace Stack

/-- Operations in a block leave the blocks around it alone. -/
theorem suffix_of_step? {k k' : Stack} {op : Operation} {outer : Blocks} (h : k.step? op = some k')
    (hk : ∃ block inner, k.blocks = inner ++ block :: outer)
    (hopen : outer.length < k'.blocks.length) :
    ∃ block inner, k'.blocks = inner ++ block :: outer := by
  obtain ⟨block, inner, hblocks⟩ := hk
  rcases step?_cases h with ⟨_, rfl, rfl, rfl⟩ | ⟨_, _, rfl, rfl, rfl⟩ |
    ⟨name, _, _, rfl, rfl, -, rfl⟩ | ⟨_, rfl, rfl, rfl⟩
  · exact ⟨block, [] :: inner, congrArg ([] :: ·) hblocks⟩
  · cases inner with
    | nil =>
      obtain ⟨-, rfl⟩ := List.cons.inj hblocks
      exact absurd hopen (Nat.lt_irrefl _)
    | cons _ inner => exact ⟨block, inner, (List.cons.inj hblocks).2⟩
  · cases inner with
    | nil =>
      obtain ⟨rfl, rfl⟩ := List.cons.inj hblocks
      exact ⟨name :: _, [], rfl⟩
    | cons first inner =>
      obtain ⟨rfl, rfl⟩ := List.cons.inj hblocks
      exact ⟨block, (name :: _) :: inner, rfl⟩
  · exact ⟨block, inner, hblocks⟩

/-- By induction on the operations. The blocks outside of the one that was opened stay as they are.
-/
theorem suffix_of_foldlM {k k' : Stack} {ops : List Operation} {outer : Blocks}
    (h : ops.foldlM step? k = some k') (hk : ∃ block inner, k.blocks = inner ++ block :: outer)
    (hopen : ∀ first k₁, first <+: ops → first.foldlM step? k = some k₁ →
      outer.length < k₁.blocks.length) :
    ∃ block inner, k'.blocks = inner ++ block :: outer := by
  induction ops generalizing k with
  | nil =>
    cases h
    exact hk
  | cons op ops ih =>
    rw [List.foldlM_cons, Option.bind_eq_bind, Option.bind_eq_some_iff] at h
    obtain ⟨k₁, hstep, hrest⟩ := h
    have hfirst : outer.length < k₁.blocks.length := by
      refine hopen [op] k₁ (List.prefix_append [op] ops) ?_
      rw [List.foldlM_cons, hstep]
      rfl
    refine ih hrest (suffix_of_step? hstep hk hfirst) fun first k₂ hprefix hfollow => ?_
    refine hopen (op :: first) k₂ (List.cons_prefix_cons.mpr ⟨rfl, hprefix⟩) ?_
    rw [List.foldlM_cons, hstep]
    exact hfollow

end Stack

/-- A block that is closed leaves the scope as it was before the block was opened. -/
theorem after_endBlock {before inside : List Operation} {k : Stack}
    (h : Stack.follow? (before ++ .beginBlock :: inside ++ [.endBlock]) = some k)
    (hinside : Inside before inside) :
    after (before ++ .beginBlock :: inside ++ [.endBlock]) = after before := by
  obtain ⟨k₂, hinner, hclose⟩ := Stack.follow?_append.mp h
  obtain ⟨k₀, hbefore, hrest⟩ := Stack.follow?_append.mp hinner
  rw [List.foldlM_cons, Option.bind_eq_bind, Option.bind_eq_some_iff] at hrest
  obtain ⟨k₁, hopen, hrun⟩ := hrest
  rw [List.foldlM_cons, Option.bind_eq_bind, Option.bind_eq_some_iff] at hclose
  obtain ⟨k₃, hstep, ⟨⟩⟩ := hclose
  have hdepth := (represents_after hbefore).depth_eq
  -- The block is open to the end of `inside`, so the blocks around it are those of `before`.
  have hstays : ∀ first k', first <+: inside → first.foldlM Stack.step? k₁ = some k' →
      k₀.blocks.length < k'.blocks.length := by
    intro first k' hprefix hfollow
    have hreach : Stack.follow? (before ++ .beginBlock :: first) = some k' := by
      refine Stack.follow?_append.mpr ⟨k₀, hbefore, ?_⟩
      rw [List.foldlM_cons, hopen]
      exact hfollow
    have hless := hinside.isOpen first hprefix
    rwa [hdepth, (represents_after hreach).depth_eq] at hless
  have hlast := hinside.innermost
  rw [hdepth, (represents_after hinner).depth_eq] at hlast
  -- Opening the block and closing it are possible only when no name is without a value.
  obtain ⟨outer, rfl, rfl⟩ : ∃ outer, k₀ = ⟨outer, false⟩ ∧ k₁ = ⟨[] :: outer, false⟩ := by
    rcases Stack.step?_cases hopen with ⟨outer, -, rfl, rfl⟩ | ⟨_, _, ⟨⟩, _⟩ | ⟨_, _, _, ⟨⟩, _⟩ |
      ⟨_, ⟨⟩, _⟩
    exact ⟨outer, rfl, rfl⟩
  obtain ⟨block, inner, hblocks⟩ := Stack.suffix_of_foldlM hrun ⟨[], [], rfl⟩ hstays
  have hnone : inner = [] := by
    rw [hblocks, List.length_append, List.length_cons] at hlast
    exact List.length_eq_zero_iff.mp (by simp only at hlast; omega)
  have hk : k = ⟨outer, false⟩ := by
    rcases Stack.step?_cases hstep with ⟨_, ⟨⟩, _⟩ | ⟨_, _, -, rfl, rfl⟩ | ⟨_, _, _, ⟨⟩, _⟩ |
      ⟨_, ⟨⟩, _⟩
    rw [hnone] at hblocks
    rw [(List.cons.inj hblocks).2]
  exact (represents_after (hk ▸ h)).unique (represents_after hbefore)

end StackScript.Compile.Scope
