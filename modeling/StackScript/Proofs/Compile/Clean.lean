import StackScript.Proofs.Compile.Effects

/-!
# Clean steps

Errors are either thrown or recorded in the state. A step is clean if it does neither, and
**`Rejects`** says that a step is not. Because no step forgets a recorded error (**`Grows`**), a
sequence is clean only if every step in it is. **`Yields`** describes a step that is clean exactly
under a condition, and what it does then; it composes along `>>=`.
-/

namespace StackScript.Compile

/-! ## No step forgets an error

Errors are only ever added behind those that are listed. -/

/-- The second state has the errors of the first, and perhaps more. -/
def ErrorsGrow (s t : State) : Prop :=
  s.errors.toList <+: t.errors.toList

instance : Oblivious ErrorsGrow where
  refl _ := List.prefix_rfl
  trans := List.IsPrefix.trans
  advances _ := List.prefix_rfl
  synchronizes _ := List.prefix_rfl
  emits _ _ _ _ := List.prefix_rfl
  records s e := by
    show s.errors.toList <+: (s.errors.push e).toList
    rw [Array.toList_push]
    exact List.prefix_append _ _
  rescopes _ _ := List.prefix_rfl

/-- A step only adds to the recorded errors. -/
abbrev Grows {α : Type} (x : CompileM α) : Prop :=
  Respects ErrorsGrow x

/-! ## The first error of a step

The error that a step lists or raises first, which later errors do not hide. -/

/-- The errors that are known when a step ends: those recorded, and the one it fails with. -/
def reported {α : Type} : EStateM.Result Error State α → List Error
  | .ok _ s => s.errors.toList
  | .error e s => s.errors.toList ++ [e]

/-- The first error that a step finds. -/
def Finds {α : Type} (x : CompileM α) (s : State) (e : Error) : Prop :=
  s.errors.toList ++ [e] <+: reported (x s)

section Finds

variable {α β : Type} {x : CompileM α} {f : α → CompileM β} {s t : State} {e : Error}

theorem finds_of_error (h : x s = .error e t) (herrors : t.errors = s.errors) : Finds x s e := by
  rw [Finds, h, ← herrors]
  exact List.prefix_rfl

/-- The errors before a step are among those after it. -/
theorem Grows.prefix_reported (h : Grows x) (s : State) : s.errors.toList <+: reported (x s) := by
  have hgrows := h s
  cases hx : x s with
  | ok a t =>
    rw [hx] at hgrows
    exact hgrows
  | error e t =>
    rw [hx] at hgrows
    exact List.IsPrefix.trans hgrows (List.prefix_append _ _)

/-- What the first step finds the sequence finds. -/
theorem Finds.bind (h : Finds x s e) (hf : ∀ a, Grows (f a)) : Finds (x >>= f) s e := by
  unfold Finds at h ⊢
  cases hx : x s with
  | ok a t =>
    rw [hx] at h
    rw [bind_of_ok hx]
    exact List.IsPrefix.trans h ((hf a).prefix_reported t)
  | error e' t =>
    rw [hx] at h
    rw [bind_of_error hx]
    exact h

/-- The first error comes from the second step. -/
theorem Finds.after {a : α} (h : x s = .ok a t) (herrors : t.errors = s.errors)
    (hf : Finds (f a) t e) : Finds (x >>= f) s e := by
  unfold Finds at hf ⊢
  rw [bind_of_ok h, ← herrors]
  exact hf

/-- A step that finds an error and succeeds has listed it. -/
theorem Finds.size_lt {a : α} (h : Finds x s e) (hx : x s = .ok a t) :
    s.errors.size < t.errors.size := by
  rw [Finds, hx] at h
  have hlength := h.length_le
  rw [List.length_append, List.length_singleton] at hlength
  exact hlength

end Finds

/-! ## Steps that are not clean

A step that finds an error which is not about the syntax. -/

/-- A step finds an error, though the tokens follow the grammar. -/
def Rejects {α : Type} (x : CompileM α) (s : State) : Prop :=
  ∃ e, e.cause.isSyntax = false ∧ Finds x s e

section Rejects

variable {α β : Type} {x : CompileM α} {f : α → CompileM β} {s t : State}

theorem rejects_of_error {e : Error} (h : x s = .error e t) (he : e.cause.isSyntax = false)
    (herrors : t.errors = s.errors) : Rejects x s :=
  ⟨e, he, finds_of_error h herrors⟩

/-- A sequence that starts with an unclean step is not clean. -/
theorem Rejects.bind (hx : Rejects x s) (hf : ∀ a, Grows (f a)) : Rejects (x >>= f) s := by
  obtain ⟨e, he, hfinds⟩ := hx
  exact ⟨e, he, hfinds.bind hf⟩

/-- A sequence is not clean if what follows its first step is not. -/
theorem Rejects.after {a : α} (h : x s = .ok a t) (herrors : t.errors = s.errors)
    (hf : Rejects (f a) t) : Rejects (x >>= f) s := by
  obtain ⟨e, he, hfinds⟩ := hf
  exact ⟨e, he, .after h herrors hfinds⟩

/-- A step that rejects something and succeeds has listed an error. -/
theorem Rejects.size_lt {a : α} (h : Rejects x s) (hx : x s = .ok a t) :
    s.errors.size < t.errors.size := by
  obtain ⟨e, -, hfinds⟩ := h
  exact hfinds.size_lt hx

end Rejects

/-! ## Steps that are clean under a condition

A step either succeeds without errors, and then the result is known, or it rejects something. A
condition says which of the two it is. -/

/-- Exactly if `fits` holds the step is clean, and then it gives `a` and leads from `s` to `s'`. -/
structure Yields {α : Type} (x : CompileM α) (s : State) (a : α) (s' : State) (fits : Prop) :
    Prop where
  clean : fits → x s = .ok a s'
  rejects : ¬ fits → Rejects x s

section Yields

variable {α β : Type} {x : CompileM α} {f : α → CompileM β} {a : α} {b : β} {s t u : State}
  {P Q : Prop}

/-- A step that always succeeds. -/
theorem yields_of_ok (h : x s = .ok a t) : Yields x s a t True :=
  ⟨fun _ => h, fun hfalse => absurd trivial hfalse⟩

/-- A step that fails unless a condition holds. -/
theorem yields_of_ite [Decidable P] {e : Error}
    (h : x s = if P then .ok a t else .error e u) (he : e.cause.isSyntax = false)
    (herrors : u.errors = s.errors) : Yields x s a t P where
  clean hP := by rw [h, if_pos hP]
  rejects hP := rejects_of_error (by rw [h, if_neg hP]) he herrors

/-- The condition may be put in other words. -/
theorem Yields.congr (h : Yields x s a t P) (hiff : P ↔ Q) : Yields x s a t Q :=
  ⟨fun hQ => h.clean (hiff.mpr hQ), fun hQ => h.rejects fun hP => hQ (hiff.mp hP)⟩

/-- One step after the other: both conditions have to hold. -/
theorem Yields.bind (hx : Yields x s a t P) (hf : P → Yields (f a) t b u Q)
    (hgrows : ∀ a, Grows (f a)) (herrors : t.errors = s.errors) :
    Yields (x >>= f) s b u (P ∧ Q) where
  clean h := by
    rw [bind_of_ok (hx.clean h.1)]
    exact (hf h.1).clean h.2
  rejects h := by
    by_cases hP : P
    · have hQ : ¬ Q := fun hQ => h ⟨hP, hQ⟩
      exact Rejects.after (hx.clean hP) herrors ((hf hP).rejects hQ)
    · exact (hx.rejects hP).bind hgrows

/-- A step that always succeeds, and then another. -/
theorem Yields.after (hx : x s = .ok a t) (hf : Yields (f a) t b u Q)
    (herrors : t.errors = s.errors) : Yields (x >>= f) s b u Q where
  clean hQ := by
    rw [bind_of_ok hx]
    exact hf.clean hQ
  rejects hQ := Rejects.after hx herrors (hf.rejects hQ)

/-- A step under a condition, and then one that always succeeds. -/
theorem Yields.andThen (hx : Yields x s a t P) (hf : f a t = .ok b u)
    (hgrows : ∀ a, Grows (f a)) : Yields (x >>= f) s b u P where
  clean hP := by
    rw [bind_of_ok (hx.clean hP)]
    exact hf
  rejects hP := (hx.rejects hP).bind hgrows

/-- Two steps that do the same in a state. -/
theorem Yields.of_eq {y : CompileM α} (hy : Yields y t a u P) (h : x s = y t)
    (herrors : t.errors = s.errors) : Yields x s a u P where
  clean hP := h.trans (hy.clean hP)
  rejects hP := by
    obtain ⟨e, he, hfinds⟩ := hy.rejects hP
    refine ⟨e, he, ?_⟩
    rw [Finds, h, ← herrors]
    exact hfinds

/-! ### Failures that are held back

A failure is held back while a block is closed, and it is listed where the compiler recovers from
it. -/

theorem attempt_of_ok {x : CompileM Unit} (h : x s = .ok () t) : attempt x s = .ok none t := by
  rw [attempt, h]

theorem attempt_of_error {x : CompileM Unit} {e : Error} (h : x s = .error e t) :
    attempt x s = .ok (some e) t := by
  rw [attempt, h]

/-- The errors known when a step has ended are the same if its failure is held back. -/
theorem reported_settled {x g : CompileM Unit} (hg : Settles g) (s : State) :
    reported ((attempt x >>= fun outcome => g >>= fun _ => settle outcome) s) =
      reported (x s) := by
  cases hx : x s with
  | ok _ t =>
    obtain ⟨chunk, scope, openJumps, hsettled⟩ := hg t
    rw [bind_of_ok (attempt_of_ok hx), bind_of_ok hsettled]
    rfl
  | error e t =>
    obtain ⟨chunk, scope, openJumps, hsettled⟩ := hg t
    rw [bind_of_ok (attempt_of_error hx), bind_of_ok hsettled]
    rfl

/-- They are also the same if its failure is recorded. -/
theorem reported_recovering (x : CompileM Unit) (s : State) :
    reported (recovering x s) = reported (x s) := by
  cases hx : x s with
  | ok _ t =>
    rw [recovering, bind_of_ok (attempt_of_ok hx)]
    rfl
  | error e t =>
    rw [recovering, bind_of_ok (attempt_of_error hx)]
    exact Array.toList_push

/-- A step whose failure is held back until another step has run. -/
theorem Yields.settled {x g : CompileM Unit} (hx : Yields x s () t P) (hg : g t = .ok () u)
    (hsettles : Settles g) :
    Yields (attempt x >>= fun outcome => g >>= fun _ => settle outcome) s () u P where
  clean hP := by
    rw [bind_of_ok (attempt_of_ok (hx.clean hP)), bind_of_ok hg]
    rfl
  rejects hP := by
    obtain ⟨e, he, hfinds⟩ := hx.rejects hP
    refine ⟨e, he, ?_⟩
    rw [Finds, reported_settled hsettles]
    exact hfinds

/-- A step whose failure is recorded. -/
theorem Yields.recovering {x : CompileM Unit} (hx : Yields x s () t P) :
    Yields (recovering x) s () t P where
  clean hP := by
    rw [Compile.recovering, bind_of_ok (attempt_of_ok (hx.clean hP))]
    rfl
  rejects hP := by
    obtain ⟨e, he, hfinds⟩ := hx.rejects hP
    refine ⟨e, he, ?_⟩
    rw [Finds, reported_recovering]
    exact hfinds

end Yields

/-! ## Jumps

A jump is completed when the code it leads over is there. In between other steps see a state that is
`awaiting` its distance. -/

section Jumps

variable {make : UInt16 → Instruction}

/-- A jump is completed if the code it leads over is not too long. -/
theorem yields_patchJump (hmake : Chunk.IsForward make) (s : State) (last : Token)
    (rest : List Token) (code : Lowering) :
    Yields (patchJump (s.chunk.size + 1)) (((s.awaiting make).past last rest).append code) ()
      ((s.past last rest).append (.jump make code.size s.cursor.previous.line ++ code))
      (code.size ≤ maxDistance) := by
  have hopen : s.chunk.size + 1 ∈ (((s.awaiting make).past last rest).append code).openJumps :=
    List.mem_cons_self ..
  have hyields := yields_of_ite (patchJump_apply hmake rfl hopen) rfl rfl
  have hrest : (((s.awaiting make).past last rest).append code).openJumps.erase (s.chunk.size + 1) =
      s.openJumps := List.erase_cons_head ..
  rw [hrest] at hyields
  exact hyields

/-- A jump over code that ends in another open jump is completed; the other one stays open. -/
theorem yields_patchJump_awaiting {other : UInt16 → Instruction} (hmake : Chunk.IsForward make)
    (hother : Chunk.IsForward other) (s : State) (last : Token) (rest : List Token)
    (code : Lowering) :
    Yields (patchJump (s.chunk.size + 1))
      ((((s.awaiting make).past last rest).append code).awaiting other) ()
      (((s.past last rest).append
        (.jump make (code.size + 3) s.cursor.previous.line ++ code)).awaiting other)
      (code.size + 3 ≤ maxDistance) := by
  let inner := ((s.awaiting make).past last rest).append code
  let outer := Lowering.jump other maxDistance last.line
  have hsize : (code ++ outer).size = code.size + 3 := by
    rw [Lowering.size_append, hother.size_jump]
  have hinner : inner.chunk.size = s.chunk.size + 3 + code.size := by
    simp [inner, hmake.size_jump]
  have hopen : s.chunk.size + 1 ∈ (inner.awaiting other).openJumps :=
    List.mem_cons_of_mem _ (List.mem_cons_self ..)
  have hchunk : (inner.awaiting other).chunk =
      (s.chunk.extend (.jump make maxDistance s.cursor.previous.line)).extend (code ++ outer) :=
    (Chunk.extend_append ..).symm
  -- the other jump was emitted later and stays open
  have hstill : (inner.awaiting other).openJumps.erase (s.chunk.size + 1) =
      (inner.chunk.size + 1) :: s.openJumps := by
    have hne : inner.chunk.size + 1 ≠ s.chunk.size + 1 := by omega
    change ((inner.chunk.size + 1) :: (s.chunk.size + 1) :: s.openJumps).erase _ = _
    rw [List.erase_cons_tail (by simpa using hne), List.erase_cons_head]
  have hyields := yields_of_ite (patchJump_apply hmake hchunk hopen) rfl rfl
  rw [hsize, hstill, hinner, ← Lowering.append_assoc, Chunk.extend_append] at hyields
  -- the size of the code does not depend on the distance that is filled in
  have hlength : s.chunk.size + 3 + code.size = (s.chunk.extend
      (.jump make (code.size + 3) s.cursor.previous.line ++ code)).size := by
    rw [Chunk.size_extend, Lowering.size_append, hmake.size_jump, Nat.add_assoc]
  rw [hlength] at hyields
  exact hyields

end Jumps

end StackScript.Compile
