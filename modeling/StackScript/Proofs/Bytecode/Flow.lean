import StackScript.Proofs.Tree.Lowering

/-!
# Control flow and stack heights

Code is safe if a height of the stack can be given to each of its offsets so that every instruction
finds its operands below its height and leads only to offsets that have the height it leaves.

* **`Instruction.located`**: the instructions of a list with their offsets.
* **`Flow`**: code from an offset on is safe in this sense, between a height at its start and one at
  its end. What comes before and after the code does not matter.
* **`Flow.append`**: safe code after safe code.
* **`Flow.of_laid`**: jumps between pieces of safe code. The pieces lie one after the other, and
  each jump between them leads to the start of one that has its height.
-/

namespace StackScript

namespace Instruction

/-! ## Offsets

Instructions one after the other, each at its own offset. -/

/-- The number of bytes of a list of instructions. -/
def extent (ops : List Instruction) : Nat :=
  (ops.map width).sum

@[simp] theorem extent_nil : extent [] = 0 := rfl

@[simp] theorem extent_cons (i : Instruction) (ops : List Instruction) :
    extent (i :: ops) = i.width + extent ops := rfl

/-- The extents of two sequences add up. -/
@[simp] theorem extent_append (a b : List Instruction) : extent (a ++ b) = extent a + extent b := by
  simp [extent]

/-- The instructions with the offsets where they start, the first of them at `start`. -/
def located (start : Nat) : List Instruction → List (Nat × Instruction)
  | [] => []
  | i :: rest => (start, i) :: located (start + i.width) rest

/-- The offsets where the instructions start. -/
def offsets (start : Nat) (ops : List Instruction) : List Nat :=
  (located start ops).map (·.1)

/-- The offsets between the instructions, with the one at the end. -/
def boundaries (start : Nat) (ops : List Instruction) : List Nat :=
  offsets start ops ++ [start + extent ops]

/-- The second of two sequences starts where the first one ends. -/
theorem located_append (start : Nat) (a b : List Instruction) :
    located start (a ++ b) = located start a ++ located (start + extent a) b := by
  induction a generalizing start with
  | nil => simp [located]
  | cons i a ih => simp [located, ih, Nat.add_assoc]

@[simp] theorem boundaries_nil (start : Nat) : boundaries start [] = [start] := rfl

@[simp] theorem boundaries_cons (start : Nat) (i : Instruction) (ops : List Instruction) :
    boundaries start (i :: ops) = start :: boundaries (start + i.width) ops := by
  simp [boundaries, offsets, located, Nat.add_assoc]

/-- A sequence starts at a boundary. -/
theorem start_mem_boundaries (start : Nat) (ops : List Instruction) :
    start ∈ boundaries start ops := by
  cases ops <;> simp

/-- It ends at a boundary. -/
theorem end_mem_boundaries (start : Nat) (ops : List Instruction) :
    start + extent ops ∈ boundaries start ops := by
  simp [boundaries]

/-- Where two lists meet, both have a boundary. -/
theorem mem_boundaries_append {start t : Nat} {a b : List Instruction} :
    t ∈ boundaries start (a ++ b) ↔
      t ∈ boundaries start a ∨ t ∈ boundaries (start + extent a) b := by
  induction a generalizing start with
  | nil =>
    have hstart := start_mem_boundaries start b
    simp only [List.nil_append, boundaries_nil, List.mem_singleton, extent_nil, Nat.add_zero]
    constructor
    · exact .inr
    · rintro (rfl | h)
      · exact hstart
      · exact h
  | cons i a ih => simp [ih, Nat.add_assoc, or_assoc]

/-- Boundaries lie between start and end. -/
theorem mem_boundaries_bounds {start t : Nat} {ops : List Instruction}
    (h : t ∈ boundaries start ops) : start ≤ t ∧ t ≤ start + extent ops := by
  induction ops generalizing start with
  | nil =>
    simp only [boundaries_nil, List.mem_singleton] at h
    simp [h]
  | cons i ops ih =>
    rw [boundaries_cons, List.mem_cons] at h
    rw [extent_cons]
    rcases h with rfl | h
    · omega
    · have := ih h
      omega

/-- An instruction lies between start and end with all its bytes. -/
theorem located_bounds {start t : Nat} {i : Instruction} {ops : List Instruction}
    (h : (t, i) ∈ located start ops) : start ≤ t ∧ t + i.width ≤ start + extent ops := by
  induction ops generalizing start with
  | nil => simp [located] at h
  | cons j ops ih =>
    rw [located, List.mem_cons, Prod.mk.injEq] at h
    rw [extent_cons]
    rcases h with ⟨rfl, rfl⟩ | h
    · omega
    · have := ih h
      omega

theorem mem_of_located {start t : Nat} {i : Instruction} {ops : List Instruction}
    (h : (t, i) ∈ located start ops) : i ∈ ops := by
  induction ops generalizing start with
  | nil => cases h
  | cons j ops ih =>
    rw [located, List.mem_cons, Prod.mk.injEq] at h
    rcases h with ⟨-, rfl⟩ | h
    · exact List.mem_cons_self ..
    · exact List.mem_cons_of_mem _ (ih h)

/-- Every instruction has an offset. -/
theorem exists_located_of_mem {i : Instruction} {ops : List Instruction} (h : i ∈ ops)
    (start : Nat) : ∃ t, (t, i) ∈ located start ops := by
  induction ops generalizing start with
  | nil => cases h
  | cons j ops ih =>
    rcases List.mem_cons.mp h with rfl | h
    · exact ⟨start, List.mem_cons_self ..⟩
    · obtain ⟨t, ht⟩ := ih h (start + j.width)
      exact ⟨t, List.mem_cons_of_mem _ ht⟩

/-- Each instruction starts after the one before it. -/
theorem pairwise_offsets (start : Nat) (ops : List Instruction) :
    (offsets start ops).Pairwise (· < ·) := by
  induction ops generalizing start with
  | nil => exact .nil
  | cons i ops ih =>
    refine .cons (fun t ht => ?_) (ih (start + i.width))
    obtain ⟨⟨_, j⟩, hj, rfl⟩ := List.mem_map.mp ht
    exact Nat.lt_of_lt_of_le (Nat.lt_add_of_pos_right i.width_pos) (located_bounds hj).1

/-- There are as many offsets as instructions. -/
theorem length_offsets (start : Nat) (ops : List Instruction) :
    (offsets start ops).length = ops.length := by
  induction ops generalizing start with
  | nil => rfl
  | cons i ops ih => exact congrArg (· + 1) (ih (start + i.width))

theorem map_located {α : Type} (f : Instruction → α) (start : Nat) (ops : List Instruction) :
    (located start ops).map (fun entry => f entry.2) = ops.map f := by
  induction ops generalizing start with
  | nil => rfl
  | cons i ops ih => exact congrArg (f i :: ·) (ih (start + i.width))

/-! ## What an instruction asks of the stack and leaves on it

The height of the stack before an instruction tells whether it can be executed, and the height after
it. -/

/-- How many values the instruction takes or looks at. -/
def needs : Instruction → Nat
  | equal | greater | less | add | subtract | multiply | divide => 2
  | pop | setLocal _ | defineGlobal _ | setGlobal _ | not | negate | print | jumpIfFalse _ => 1
  | constant _ | nil | true | false | getLocal _ | getGlobal _ | jump _ | loop _ | ret => 0

/-- The height of the stack after the instruction. -/
def heightAfter (height : Nat) : Instruction → Nat
  | constant _ | nil | true | false | getLocal _ | getGlobal _ => height + 1
  | pop | defineGlobal _ | print | equal | greater | less | add | subtract | multiply | divide =>
    height - 1
  | setLocal _ | setGlobal _ | not | negate | jump _ | jumpIfFalse _ | loop _ | ret => height

/-- The slot of the local that the instruction reads or writes. -/
def slot? : Instruction → Option UInt8
  | getLocal slot | setLocal slot => some slot
  | _ => none

/-- Where the machine can go on after the instruction at an offset. -/
def successors (offset : Nat) : Instruction → List Nat
  | jump distance => [offset + 3 + distance.toNat]
  | jumpIfFalse distance => [offset + 3, offset + 3 + distance.toNat]
  | loop distance => [offset + 3 - distance.toNat]
  | ret => []
  | i => [offset + i.width]

theorem successors_jump (offset : Nat) (distance : UInt16) :
    (jump distance).successors offset = [offset + 3 + distance.toNat] := rfl

/-- A conditional jump goes on behind itself or where it leads. -/
theorem successors_jumpIfFalse (offset : Nat) (distance : UInt16) :
    (jumpIfFalse distance).successors offset =
      [offset + 3, offset + 3 + distance.toNat] := rfl

/-- A jump back counts from behind itself. -/
theorem successors_loop (offset : Nat) (distance : UInt16) :
    (loop distance).successors offset = [offset + 3 - distance.toNat] := rfl

/-- Only the return leads nowhere. -/
theorem exists_mem_successors {i : Instruction} (h : i ≠ ret) (offset : Nat) :
    ∃ t, t ∈ i.successors offset := by
  cases i with
  | ret => exact absurd rfl h
  | _ => exact ⟨_, List.mem_cons_self ..⟩

/-- Whether the instruction always goes on with the next one. -/
def fallsThrough : Instruction → Bool
  | jump _ | jumpIfFalse _ | loop _ | ret => .false
  | _ => .true

/-- Most instructions are followed by the next one. -/
theorem successors_of_fallsThrough {i : Instruction} (h : i.fallsThrough) (offset : Nat) :
    i.successors offset = [offset + i.width] := by
  cases i <;> first | rfl | cases h

/-- A jump back goes back, and not to before the start of the code. -/
def LeadsBack (offset : Nat) : Instruction → Prop
  | loop distance => 0 < distance.toNat ∧ distance.toNat ≤ offset + 3
  | _ => True

theorem leadsBack_of_fallsThrough {i : Instruction} (h : i.fallsThrough) (offset : Nat) :
    i.LeadsBack offset := by
  cases i with
  | loop distance => cases h
  | _ => trivial

/-- An instruction at an offset is safe at a height if it goes on, and if `target` holds of the
offsets and heights it leads to. -/
structure Safe (target : Nat → Nat → Prop) (offset height : Nat) (i : Instruction) : Prop where
  ne_ret : i ≠ ret
  needs_le : i.needs ≤ height
  slot_lt : ∀ slot ∈ i.slot?, slot.toNat < height
  leadsBack : i.LeadsBack offset
  leads : ∀ t ∈ i.successors offset, target t (i.heightAfter height)

/-- More targets may be allowed. -/
theorem Safe.mono {target target' : Nat → Nat → Prop} {offset height : Nat} {i : Instruction}
    (h : i.Safe target offset height) (himp : ∀ t n, target t n → target' t n) :
    i.Safe target' offset height :=
  { h with leads := fun t ht => himp _ _ (h.leads t ht) }

end Instruction

open Instruction

/-! ## Code between two heights

A height is given for every boundary, so that each instruction is safe there and leads to boundaries
with the right height. -/

/-- Heights for the boundaries of code under which all its instructions are safe. None is above
`limit`, and what leads out of the code leads to `labels`. -/
structure Heights (labels : Nat → Nat → Prop) (limit start : Nat) (ops : List Instruction)
    (height : Nat → Nat) : Prop where
  safe : ∀ t i, (t, i) ∈ located start ops →
    i.Safe (fun t n => t ∈ boundaries start ops ∧ height t = n ∨ labels t n) t (height t)
  le_limit : ∀ t ∈ boundaries start ops, height t ≤ limit

/-- Code from `start` on that begins with `n` values on the stack and ends with `m`. -/
def Flow (limit start n : Nat) (ops : List Instruction) (m : Nat) : Prop :=
  ∃ height : Nat → Nat, Heights (fun _ _ => False) limit start ops height ∧ height start = n ∧
    height (start + extent ops) = m

/-- Takes the heights of the code before an offset from one assignment and the rest from another. -/
def joinHeights (offset : Nat) (before after : Nat → Nat) (t : Nat) : Nat :=
  if t < offset then before t else after t

/-- Up to the place where two pieces meet, the heights are those of the first. -/
theorem joinHeights_before {offset t : Nat} {before after : Nat → Nat} (ht : t ≤ offset)
    (hmeet : before offset = after offset) : joinHeights offset before after t = before t := by
  unfold joinHeights
  split
  · rfl
  · obtain rfl : t = offset := by omega
    exact hmeet.symm

/-- From there on they are those of the second. -/
theorem joinHeights_after {offset t : Nat} {before after : Nat → Nat} (ht : offset ≤ t) :
    joinHeights offset before after t = after t :=
  if_neg (by omega)

/-- Heights of two pieces of code that agree where the pieces meet. -/
theorem Heights.append {labels : Nat → Nat → Prop} {limit start : Nat} {a b : List Instruction}
    {before after : Nat → Nat} (ha : Heights labels limit start a before)
    (hb : Heights labels limit (start + extent a) b after)
    (hmeet : before (start + extent a) = after (start + extent a)) :
    Heights labels limit start (a ++ b) (joinHeights (start + extent a) before after) where
  safe t i hi := by
    rw [located_append, List.mem_append] at hi
    rcases hi with hi | hi
    · have hbounds := located_bounds hi
      rw [joinHeights_before (by omega) hmeet]
      refine (ha.safe t i hi).mono ?_
      -- a place in the first piece keeps its height, also the last one, where both agree
      rintro t n (⟨ht, hn⟩ | hlabel)
      · refine .inl ⟨mem_boundaries_append.mpr (.inl ht), ?_⟩
        rwa [joinHeights_before (mem_boundaries_bounds ht).2 hmeet]
      · exact .inr hlabel
    · rw [joinHeights_after (located_bounds hi).1]
      refine (hb.safe t i hi).mono ?_
      rintro t n (⟨ht, hn⟩ | hlabel)
      · refine .inl ⟨mem_boundaries_append.mpr (.inr ht), ?_⟩
        rwa [joinHeights_after (mem_boundaries_bounds ht).1]
      · exact .inr hlabel
  le_limit t ht := by
    rcases mem_boundaries_append.mp ht with ht | ht
    · rw [joinHeights_before (mem_boundaries_bounds ht).2 hmeet]
      exact ha.le_limit t ht
    · rw [joinHeights_after (mem_boundaries_bounds ht).1]
      exact hb.le_limit t ht

/-- Jumps to labels that are boundaries of the code with their height do not leave it. -/
theorem Heights.close {labels : Nat → Nat → Prop} {limit start : Nat} {ops : List Instruction}
    {height : Nat → Nat} (h : Heights labels limit start ops height)
    (hlabels : ∀ t n, labels t n → t ∈ boundaries start ops ∧ height t = n) :
    Heights (fun _ _ => False) limit start ops height where
  safe t i hi := (h.safe t i hi).mono fun t n ht => .inl (ht.elim id (hlabels t n))
  le_limit := h.le_limit

/-- More labels, and a larger limit. -/
theorem Heights.weaken {labels labels' : Nat → Nat → Prop} {limit limit' start : Nat}
    {ops : List Instruction} {height : Nat → Nat} (h : Heights labels limit start ops height)
    (hlabels : ∀ t n, labels t n → labels' t n) (hlimit : limit ≤ limit') :
    Heights labels' limit' start ops height where
  safe t i hi := (h.safe t i hi).mono fun t n ht => ht.imp id (hlabels t n)
  le_limit t ht := Nat.le_trans (h.le_limit t ht) hlimit

namespace Flow

variable {limit start n m : Nat} {ops : List Instruction}

theorem mono (h : Flow limit start n ops m) {limit' : Nat} (hlimit : limit ≤ limit') :
    Flow limit' start n ops m := by
  obtain ⟨height, hheights, hfirst, hlast⟩ := h
  exact ⟨height, hheights.weaken (fun _ _ => id) hlimit, hfirst, hlast⟩

theorem nil (h : n ≤ limit) : Flow limit start n [] n := by
  refine ⟨fun _ => n, ⟨?_, fun _ _ => h⟩, rfl, rfl⟩
  simp [located]

/-- The heights at the two ends stay within the limit. -/
theorem le_limit (h : Flow limit start n ops m) : n ≤ limit ∧ m ≤ limit := by
  obtain ⟨height, hheights, rfl, rfl⟩ := h
  exact ⟨hheights.le_limit _ (start_mem_boundaries start ops),
    hheights.le_limit _ (end_mem_boundaries start ops)⟩

/-- The second piece starts at the height at which the first one ends. -/
theorem append {k : Nat} {more : List Instruction} (ha : Flow limit start n ops m)
    (hb : Flow limit (start + extent ops) m more k) : Flow limit start n (ops ++ more) k := by
  obtain ⟨before, hbefore, hfirst, hmid⟩ := ha
  obtain ⟨after, hafter, hmid', hlast⟩ := hb
  have hmeet : before (start + extent ops) = after (start + extent ops) := hmid.trans hmid'.symm
  refine ⟨_, hbefore.append hafter hmeet, ?_, ?_⟩
  · rw [joinHeights_before (by omega) hmeet, hfirst]
  · rw [extent_append, ← Nat.add_assoc, joinHeights_after (by omega), hlast]

end Flow

/-! ## Jumps between pieces of code

A branch or a loop consists of pieces without jumps out of them and of jumps between these pieces.
It is enough that each jump leads to the start of a piece, at the height at which the piece starts.
-/

/-- A part of code that contains jumps: code that flows through, or one instruction that may lead to
the start of another part. -/
inductive Part where
  | code (n : Nat) (ops : List Instruction) (m : Nat)
  | instruction (n : Nat) (i : Instruction)

namespace Part

def ops : Part → List Instruction
  | code _ ops _ => ops
  | instruction _ i => [i]

/-- The height at the start of the part. -/
def entry : Part → Nat
  | code n _ _ | instruction n _ => n

/-- The instructions of the parts one after the other. -/
def allOps (parts : List Part) : List Instruction :=
  parts.flatMap ops

/-- The height at the start of the first part, or at the end of the code. -/
def firstEntry (final : Nat) : List Part → Nat
  | [] => final
  | p :: _ => p.entry

/-- The offsets and heights at the start of each part and at the end. -/
def entries (final start : Nat) : List Part → List (Nat × Nat)
  | [] => [(start, final)]
  | p :: rest => (start, p.entry) :: entries final (start + extent p.ops) rest

/-- The parts fit together, and their jumps lead to `labels`. -/
def Laid (labels : List (Nat × Nat)) (limit final : Nat) : (start : Nat) → List Part → Prop
  | _, [] => final ≤ limit
  | start, .code n ops m :: rest =>
    Flow limit start n ops m ∧ firstEntry final rest = m ∧
      Laid labels limit final (start + extent ops) rest
  | start, .instruction n i :: rest =>
    i.Safe (fun t n => (t, n) ∈ labels) start n ∧ n ≤ limit ∧
      Laid labels limit final (start + i.width) rest

/-- The first part can be jumped to. -/
theorem mem_entries_first (final start : Nat) (parts : List Part) :
    (start, firstEntry final parts) ∈ entries final start parts := by
  cases parts <;> simp [firstEntry, entries]

/-- All parts start at boundaries. -/
theorem entries_subset_boundaries {final start t n : Nat} {parts : List Part}
    (h : (t, n) ∈ entries final start parts) : t ∈ boundaries start (allOps parts) := by
  induction parts generalizing start with
  | nil =>
    rw [entries, List.mem_singleton, Prod.mk.injEq] at h
    simp [allOps, h.1]
  | cons p rest ih =>
    rw [entries, List.mem_cons, Prod.mk.injEq] at h
    change t ∈ boundaries start (p.ops ++ allOps rest)
    rw [mem_boundaries_append]
    rcases h with ⟨rfl, -⟩ | h
    · exact .inl (start_mem_boundaries t p.ops)
    · exact .inr (ih h)

/-- The first part starts within the limit. -/
theorem firstEntry_le {labels : List (Nat × Nat)} {limit final start : Nat} {parts : List Part}
    (h : Laid labels limit final start parts) : firstEntry final parts ≤ limit := by
  match parts, h with
  | [], h => exact h
  | .code _ _ _ :: _, h => exact h.1.le_limit.1
  | .instruction _ _ :: _, h => exact h.2.1

/-- Parts that fit together have heights, which at the start of each part are those it asks for. -/
theorem exists_heights {labels : List (Nat × Nat)} {limit final start : Nat} {parts : List Part}
    (h : Laid labels limit final start parts) :
    ∃ height, Heights (fun t n => (t, n) ∈ labels) limit start (allOps parts) height ∧
      ∀ t n, (t, n) ∈ entries final start parts → height t = n := by
  induction parts generalizing start with
  | nil =>
    refine ⟨fun _ => final, ⟨by simp [allOps, located], fun _ _ => h⟩, ?_⟩
    intro t n ht
    rw [entries, List.mem_singleton, Prod.mk.injEq] at ht
    exact ht.2.symm
  | cons p rest ih =>
    -- heights of the first part that agree with those of the rest where they meet
    have hpart : Laid labels limit final (start + extent p.ops) rest ∧
        ∃ before, Heights (fun t n => (t, n) ∈ labels) limit start p.ops before ∧
          before start = p.entry ∧ before (start + extent p.ops) = firstEntry final rest := by
      cases p with
      | code n ops m =>
        obtain ⟨⟨before, hbefore, hfirst, hlast⟩, hmeet, hrest⟩ := h
        exact ⟨hrest, before, hbefore.weaken (fun _ _ => False.elim) (Nat.le_refl _), hfirst,
          hlast.trans hmeet.symm⟩
      | instruction n i =>
        obtain ⟨hsafe, hn, hrest⟩ := h
        have hwidth := i.width_pos
        refine ⟨hrest, fun t => if t = start then n else firstEntry final rest, ⟨?_, ?_⟩,
          if_pos rfl, if_neg (by simp only [ops, extent_cons]; omega)⟩
        · intro t j hj
          rw [ops, located, located, List.mem_singleton, Prod.mk.injEq] at hj
          obtain ⟨rfl, rfl⟩ := hj
          rw [if_pos rfl]
          exact hsafe.mono fun _ _ => .inr
        · intro t _
          split
          · exact hn
          · exact firstEntry_le hrest
    obtain ⟨hrest, before, hbefore, hfirst, hlast⟩ := hpart
    obtain ⟨after, hafter, hentries⟩ := ih hrest
    have hmeet : before (start + extent p.ops) = after (start + extent p.ops) :=
      hlast.trans (hentries _ _ (mem_entries_first final _ rest)).symm
    refine ⟨_, hbefore.append hafter hmeet, ?_⟩
    intro t n ht
    rw [entries, List.mem_cons, Prod.mk.injEq] at ht
    rcases ht with ⟨rfl, rfl⟩ | ht
    · rw [joinHeights_before (by omega) hmeet, hfirst]
    · rw [joinHeights_after (mem_boundaries_bounds (entries_subset_boundaries ht)).1]
      exact hentries t n ht

/-- The end can be jumped to. -/
theorem end_mem_entries (final start : Nat) (parts : List Part) :
    (start + extent (allOps parts), final) ∈ entries final start parts := by
  induction parts generalizing start with
  | nil => simp [entries, allOps]
  | cons p rest ih =>
    have := ih (start + extent p.ops)
    rw [Nat.add_assoc, ← extent_append] at this
    exact List.mem_cons_of_mem _ this

end Part

/-- Parts whose jumps lead to the starts of parts, or to the end, are code that flows through. -/
theorem Flow.of_laid {limit start final : Nat} {ops : List Instruction} (parts : List Part)
    (hops : Part.allOps parts = ops)
    (h : Part.Laid (Part.entries final start parts) limit final start parts) :
    Flow limit start (Part.firstEntry final parts) ops final := by
  subst hops
  obtain ⟨height, hheights, hentries⟩ := Part.exists_heights h
  refine ⟨height, hheights.close ?_, ?_, ?_⟩
  · intro t n ht
    exact ⟨Part.entries_subset_boundaries ht, hentries t n ht⟩
  · exact hentries _ _ (Part.mem_entries_first final start parts)
  · exact hentries _ _ (Part.end_mem_entries final start parts)

/-- An instruction that goes on with the next one. -/
theorem Flow.instruction {limit start n : Nat} {i : Instruction}
    (hnext : i.fallsThrough) (hneeds : i.needs ≤ n)
    (hslot : ∀ slot ∈ i.slot?, slot.toNat < n) (hn : n ≤ limit)
    (hafter : i.heightAfter n ≤ limit) : Flow limit start n [i] (i.heightAfter n) := by
  have hsafe : i.Safe (fun t m => (t, m) ∈ Part.entries (i.heightAfter n) start [.instruction n i])
      start n := by
    refine ⟨?_, hneeds, hslot, leadsBack_of_fallsThrough hnext start, ?_⟩
    · rintro rfl
      cases hnext
    intro t ht
    rw [successors_of_fallsThrough hnext, List.mem_singleton] at ht
    subst ht
    simp [Part.entries, Part.ops]
  exact Flow.of_laid [.instruction n i] rfl ⟨hsafe, hn, hafter⟩

end StackScript
