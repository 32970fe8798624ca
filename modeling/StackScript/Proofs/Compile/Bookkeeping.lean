import StackScript.Proofs.Compile.Observed

/-!
# Scope bookkeeping

The compiler goes on after an error, so the scope has to be right after a failure too. This module
follows the scope through every call of `declaration`, `statement` and `initializer` that compiling
makes, for any tokens, whether the call succeeds or fails.

* `Scope.WellFormed` is the order between statements: all locals have a value, their depths lie
  between 1 and the depth of the scope and never decrease, and there are at most 256 of them.
* `Scope.Extends` says which scopes the declarations of a block lead to.
* `Call.KeepsScope` says what a call may do to the scope.
* `LeavesScope` follows a step that starts in a known scope; its rules follow the steps.
-/

namespace StackScript.Compile

/-! ## Scopes between statements

What holds of a scope before and after every statement, and how declarations may change it. -/

namespace Scope

/-- The depths of the locals that have one, the latest first. -/
def depths (c : Scope) : List Nat :=
  c.locals.filterMap Local.depth

/-- Blocks are nested, and every local has a slot. -/
structure Ordered (c : Scope) : Prop where
  within : ∀ d ∈ c.depths, 1 ≤ d ∧ d ≤ c.depth
  nested : c.depths.Pairwise (· ≥ ·)
  bounded : c.locals.length ≤ maxLocals

/-- A scope in which every local has a value. -/
structure WellFormed (c : Scope) : Prop extends c.Ordered where
  initialized : ∀ l ∈ c.locals, l.depth.isSome

/-- A scope with one more local in the innermost block. -/
def add (c : Scope) (name : String) : Scope :=
  { c with locals := ⟨name, some c.depth⟩ :: c.locals }

/-- What a declaration does to a scope: nothing, or it adds a local. -/
structure Grown (c c' : Scope) : Prop where
  wellFormed : c'.WellFormed
  added : c' = c ∨ ∃ name, c' = c.add name

/-- A scope in which an initializer is compiled: only the local that it is for, if it is for a
local, has no value yet. -/
structure Initializes (c : Scope) : Prop extends c.Ordered where
  latest : c.depth = 0 ∧ c.WellFormed ∨
    ∃ (outer : Scope) (name : String), c = outer.declare name ∧ outer.depth ≠ 0 ∧ outer.WellFormed

/-- A scope that declarations in the innermost block lead to. -/
structure Extends (c c' : Scope) : Prop where
  wellFormed : c'.WellFormed
  added : ∃ locals, c' = { c with locals := locals ++ c.locals } ∧
    ∀ l ∈ locals, l.depth = some c.depth

variable {c c' c'' : Scope}

/-- At the start of a script there are no locals. -/
theorem wellFormed_empty : empty.WellFormed where
  within := by simp [depths, empty]
  nested := List.Pairwise.nil
  bounded := Nat.zero_le _
  initialized := by simp [empty]

/-- A new block is deeper than all locals. -/
theorem WellFormed.beginBlock (h : c.WellFormed) : c.beginBlock.WellFormed where
  within d hd := by
    have hwithin := h.within d hd
    change 1 ≤ d ∧ d ≤ c.depth + 1
    omega
  nested := h.nested
  bounded := h.bounded
  initialized := h.initialized

/-- All locals have a value, and they belong to the blocks that are open. -/
theorem WellFormed.depth_le (h : c.WellFormed) {l : Local} (hl : l ∈ c.locals) :
    ∃ d, l.depth = some d ∧ 1 ≤ d ∧ d ≤ c.depth := by
  obtain ⟨d, hd⟩ := Option.isSome_iff_exists.mp (h.initialized l hl)
  exact ⟨d, hd, h.within d (List.mem_filterMap.mpr ⟨l, hl, hd⟩)⟩

/-- While its initializer is compiled, a local takes a slot but has no depth. -/
theorem WellFormed.ordered_declare (h : c.WellFormed) (name : String) (hroom : ¬ c.isFull) :
    (c.declare name).Ordered where
  within := h.within
  nested := h.nested
  bounded := by
    have hlength : c.locals.length < maxLocals := by simpa [isFull] using hroom
    exact hlength

/-- A local is added to the innermost block. -/
theorem WellFormed.add (h : c.WellFormed) (name : String) (hdepth : c.depth ≠ 0)
    (hroom : ¬ c.isFull) : (c.add name).WellFormed where
  within d hd := by
    rcases List.mem_cons.mp (show d ∈ c.depth :: c.depths from hd) with rfl | hd
    · exact ⟨Nat.pos_of_ne_zero hdepth, Nat.le_refl _⟩
    · exact h.within d hd
  nested := List.Pairwise.cons (fun d hd => (h.within d hd).2) h.nested
  bounded := (h.ordered_declare name hroom).bounded
  initialized l hl := by
    rcases List.mem_cons.mp hl with rfl | hl
    · rfl
    · exact h.initialized l hl

/-- No local is added. -/
theorem WellFormed.grown (h : c.WellFormed) : Grown c c :=
  ⟨h, .inl rfl⟩

theorem WellFormed.extended (h : c.WellFormed) : Extends c c :=
  ⟨h, [], rfl, by simp⟩

/-- One more declaration in the same block. -/
theorem Extends.trans (h : Extends c c') (hgrown : Grown c' c'') : Extends c c'' := by
  obtain ⟨locals, rfl, hlocals⟩ := h.added
  rcases hgrown.added with rfl | ⟨name, rfl⟩
  · exact h
  · refine ⟨hgrown.wellFormed, ⟨name, some c.depth⟩ :: locals, rfl, fun l hl => ?_⟩
    rcases List.mem_cons.mp hl with rfl | hl
    · rfl
    · exact hlocals l hl

/-- Closing a block drops what was declared in it and nothing else. -/
theorem Extends.endBlock (h : Extends c.beginBlock c') (hc : c.WellFormed) : c'.endBlock = c := by
  obtain ⟨locals, rfl, hlocals⟩ := h.added
  refine endBlock_append (fun l hl => ?_) (fun l hl => ?_)
  · simp [Local.isWithin, hlocals l hl, Scope.beginBlock]
  · obtain ⟨d, hd, _, hle⟩ := hc.depth_le hl
    exact not_isWithin_of_depth hd hle

/-- Outside of all blocks there are no locals. -/
theorem Extends.eq_of_depth_zero (h : Extends c c') (hdepth : c.depth = 0) : c' = c := by
  obtain ⟨locals, rfl, hlocals⟩ := h.added
  cases locals with
  | nil => rfl
  | cons l rest =>
    obtain ⟨d, hd, hpos, _⟩ := h.wellFormed.depth_le (l := l) (by simp)
    rw [hlocals l (by simp), hdepth] at hd
    cases hd
    omega

end Scope

/-! ## Steps in a scope

A step is followed from the scope in which it starts, and all calls during the step are examined. A
step that makes no calls is examined without its notes. -/

/-- The scope stays as it is. -/
def SameScope (s t : State) : Prop :=
  t.scope = s.scope

instance : Indifferent SameScope where
  refl _ := rfl
  trans hst htu := Eq.trans htu hst
  advances _ := rfl
  synchronizes _ := rfl
  emits _ _ _ _ := rfl
  records _ _ := rfl

/-- What a call may do to the scope. Between statements the scope is well formed. A statement leaves
it as it is, a declaration adds at most one local to the innermost block, and while an initializer
is compiled only the latest local, if any, has no value. -/
def Call.KeepsScope (call : Call) : Prop :=
  match call.routine with
  | .declaration =>
    call.before.scope.WellFormed ∧ call.before.scope.Grown call.after.scope
  | .statement =>
    call.before.scope.WellFormed ∧ call.after.scope = call.before.scope
  | .initializer =>
    call.before.scope.Initializes ∧ call.after.scope = call.before.scope

/-- Notes all calls. -/
def allCalls : Observer Call :=
  .calls fun _ => true

/-- Started in the scope `c`, the step leaves a scope that satisfies `P`, whether it succeeds or
fails, and all its calls keep the scope in order. -/
def LeavesScope {α : Type} (c : Scope) (P : Scope → Prop) (x : Noted Call α) : Prop :=
  ∀ s, s.scope = c → P (endState (x s).1).scope ∧ ∀ call ∈ (x s).2, call.KeepsScope

/-- The step leaves the scope as it is. -/
abbrev Keeps {α : Type} (c : Scope) (x : Noted Call α) : Prop :=
  LeavesScope c (· = c) x

section Rules

open Noted (lift call)

variable {α β : Type} {c : Scope} {P Q : Scope → Prop} {x : Noted Call α} {f : α → Noted Call β}

/-- A step that makes no calls. -/
theorem leaves_of_silent {y : CompileM α} (h : Silent x y)
    (hy : ∀ s, s.scope = c → P (endState (y s)).scope) : LeavesScope c P x := by
  intro s hs
  refine ⟨?_, fun call hcall => (h.notes s call hcall).elim⟩
  rw [h.result s]
  exact hy s hs

/-- A step that makes no calls and leaves the scope as it is. -/
theorem keeps_of_silent {y : CompileM α} (h : Silent x y) (hy : Respects SameScope y) :
    Keeps c x :=
  leaves_of_silent h fun s hs => (hy s).trans hs

/-- A step of the compiler about which nothing is noted. -/
theorem keeps_lift {y : CompileM α} (hy : Respects SameScope y) : Keeps c (lift y) :=
  keeps_of_silent (erases_lift y) hy

/-- Less may be said about the scope. -/
theorem LeavesScope.mono (h : LeavesScope c P x) (hPQ : ∀ c', P c' → Q c') :
    LeavesScope c Q x := by
  intro s hs
  exact ⟨hPQ _ (h s hs).1, (h s hs).2⟩

/-- One step after the other. If the first fails, what it leaves is left by the sequence. -/
theorem LeavesScope.bind (hx : LeavesScope c P x) (hPQ : ∀ c', P c' → Q c')
    (hf : ∀ a c', P c' → LeavesScope c' Q (f a)) : LeavesScope c Q (x >>= f) := by
  intro s hs
  obtain ⟨hleft, hcalls⟩ := hx s hs
  cases h : x s with
  | mk result calls =>
    rw [h] at hleft hcalls
    cases result with
    | ok a t =>
      obtain ⟨hleft', hcalls'⟩ := hf a t.scope hleft t rfl
      rw [Noted.bind_of_ok h, List.forall_mem_append]
      exact ⟨hleft', hcalls, hcalls'⟩
    | error e t =>
      rw [Noted.bind_of_error h]
      exact ⟨hPQ _ hleft, hcalls⟩

/-- One step after the other, neither of which changes the scope. -/
theorem Keeps.bind (hx : Keeps c x) (hf : ∀ a, Keeps c (f a)) : Keeps c (x >>= f) := by
  apply LeavesScope.bind hx fun _ h => h
  rintro a c' rfl
  exact hf a

/-- What holds of the scope before a step that leaves it as it is holds after it. -/
theorem Keeps.leaves (h : Keeps c x) (hc : P c) : LeavesScope c P x :=
  LeavesScope.mono h fun _ hsame => hsame ▸ hc

/-- A step that leaves the scope as it is, and then others. -/
theorem Keeps.andThen (hx : Keeps c x) (hc : P c) (hf : ∀ a, LeavesScope c P (f a)) :
    LeavesScope c P (x >>= f) := by
  apply LeavesScope.bind hx fun _ h => h ▸ hc
  rintro a c' rfl
  exact hf a

theorem leaves_ite {p : Prop} [Decidable p] {x' : Noted Call α} (h : LeavesScope c P x)
    (h' : LeavesScope c P x') : LeavesScope c P (if p then x else x') := by
  split
  · exact h
  · exact h'

/-- A failure that is held back does not end the sequence. -/
theorem leaves_attempt {x : Noted Call Unit} {f : Option Error → Noted Call β}
    (hx : LeavesScope c P x) (hf : ∀ outcome c', P c' → LeavesScope c' Q (f outcome)) :
    LeavesScope c Q (Noted.attempt x >>= f) := by
  intro s hs
  obtain ⟨hleft, hcalls⟩ := hx s hs
  -- whatever the step returns, its notes come first and the rest goes on where it ended
  have hrest : ∀ outcome, Noted.attempt x s = (.ok outcome (endState (x s).1), (x s).2) →
      Q (endState ((Noted.attempt x >>= f) s).1).scope ∧
        ∀ call ∈ ((Noted.attempt x >>= f) s).2, call.KeepsScope := by
    intro outcome hrun
    obtain ⟨hleft', hcalls'⟩ := hf outcome _ hleft (endState (x s).1) rfl
    rw [Noted.bind_of_ok hrun, List.forall_mem_append]
    exact ⟨hleft', hcalls, hcalls'⟩
  cases h : x s with
  | mk result calls =>
    cases result with
    | ok _ t =>
      apply hrest none
      rw [Noted.attempt, h]
      rfl
    | error e t =>
      apply hrest (some e)
      rw [Noted.attempt, h]
      rfl

/-- A step that puts another scope in place, and then others. -/
theorem leaves_perform {x : Noted Call β} (op : Scope.Operation)
    (h : LeavesScope (op.apply c) P x) :
    LeavesScope c P (Observed.perform allCalls op >>= fun _ => x) := by
  intro s hs
  exact h { s with scope := op.apply s.scope } (congrArg op.apply hs)

/-- A call is noted before those that it makes itself. -/
theorem leaves_call {x : Noted Call Unit} {routine : Routine} (h : LeavesScope c P x)
    (hcall : ∀ s t : State, s.scope = c → P t.scope → Call.KeepsScope ⟨routine, s, t⟩) :
    LeavesScope c P (call allCalls routine x) := by
  intro s hs
  obtain ⟨hleft, hcalls⟩ := h s hs
  exact ⟨hleft, List.forall_mem_cons.mpr ⟨hcall s _ hs hleft, hcalls⟩⟩

/-- A failure that is recorded changes nothing about the scope. -/
theorem leaves_recovering {x : Noted Call Unit} (h : LeavesScope c P x) :
    LeavesScope c P (Observed.recovering x) := by
  apply leaves_attempt h
  intro outcome c' hc'
  cases outcome with
  | none => exact (keeps_lift (respects_pure ())).leaves hc'
  | some e =>
    apply leaves_of_silent (erases_lift _)
    rintro s rfl
    exact hc'

/-- By induction on how often the step may be repeated. The scope changes from round to round. -/
theorem leaves_repeatUntil {x : Noted Call Unit} (stop : Kind → Bool)
    (h : ∀ c', P c' → LeavesScope c' P x) (hc : P c) (count : Nat) :
    LeavesScope c P (Observed.repeatUntil stop x count) := by
  induction count generalizing c with
  | zero => exact (keeps_lift (respects_pure ())).leaves hc
  | succ count ih =>
    apply (keeps_lift respects_current).andThen hc
    intro token
    apply leaves_ite
    · exact (keeps_lift (respects_pure ())).leaves hc
    · exact (h c hc).bind (fun _ h' => h') fun _ c' hc' => ih hc'

end Rules

/-! ## Every call keeps the order

Function by function. Expressions and jumps make no calls and do not touch the scope, so most of a
statement is passed over at once. -/

section Statements

open Noted (lift)

variable {c : Scope} {x : Noted Call Unit}

/-- Nothing is noted about a step that only makes requests. -/
theorem keeps_requests {α : Type} {x : Noted Call α} {y : CompileM α}
    (h : (∀ request s, ∀ call ∈ allCalls.onRequest request s, False) → Silent x y)
    (hy : Respects SameScope y) : Keeps c x :=
  keeps_of_silent (h (not_mem_onRequest _)) hy

theorem keeps_condition (bound : Nat) (what : Expectation) :
    Keeps c (Observed.condition allCalls bound what) :=
  keeps_requests (fun h => erases_condition h bound what) (respects_condition bound what)

theorem keeps_emitJump (make : UInt16 → Instruction) :
    Keeps c (Observed.emitJump allCalls make) :=
  keeps_requests (fun h => erases_emitJump h make) (respects_emitJump make)

theorem keeps_patchJump (operand : Nat) : Keeps c (Observed.patchJump allCalls operand) :=
  keeps_requests (fun h => erases_patchJump h operand) (respects_patchJump operand)

theorem keeps_emitLoop (start : Nat) : Keeps c (Observed.emitLoop allCalls start) :=
  keeps_requests (fun h => erases_emitLoop h start) (respects_emitLoop start)

theorem keeps_expressionStatement (bound : Nat) :
    Keeps c (Observed.expressionStatement allCalls bound) :=
  keeps_requests (fun h => erases_expressionStatement h bound)
    (respects_expressionStatement bound)

/-- What is declared in a block is dropped where the block is closed. -/
theorem keeps_inBlock (hc : c.WellFormed)
    (h : LeavesScope c.beginBlock (Scope.Extends c.beginBlock) x) :
    Keeps c (Observed.inBlock allCalls x) := by
  refine leaves_perform .beginBlock (leaves_attempt h fun outcome c' hc' => ?_)
  have hsilent : Silent (Observed.closeBlock allCalls >>= fun _ => lift (settle outcome))
      (closeBlock >>= fun _ => settle outcome) :=
    (erases_closeBlock (not_mem_onRequest _)).bind fun _ => erases_lift _
  apply leaves_of_silent hsilent
  intro s hs
  -- the block is closed before the failure of its body, if it had one, goes on
  have hclosed : s.scope.endBlock = c := hs ▸ hc'.endBlock hc
  let dropped := s.scope.locals.length - s.scope.endBlock.locals.length
  have hrest := Respects.andThen (R := SameScope) (respects_forM_emit (.replicate dropped .pop))
    (fun _ => respects_settle outcome) { s with scope := s.scope.endBlock }
  exact hrest.trans hclosed

/-- Both branches leave the scope as it is. -/
theorem keeps_ifStatement (bound : Nat) (h : Keeps c x) :
    Keeps c (Observed.ifStatement allCalls bound x) := by
  apply (keeps_condition bound _).bind
  intro _
  apply (keeps_emitJump _).bind
  intro otherwise
  apply (keeps_lift (respects_emit _)).bind
  intro _
  apply h.bind
  intro _
  apply (keeps_emitJump _).bind
  intro done
  apply (keeps_patchJump otherwise).bind
  intro _
  apply (keeps_lift (respects_emit _)).bind
  intro _
  apply (keeps_lift (respects_accept _)).bind
  intro hasElse
  exact leaves_ite (h.bind fun _ => keeps_patchJump done) (keeps_patchJump done)

/-- The body leaves the scope as it is. -/
theorem keeps_whileStatement (bound : Nat) (h : Keeps c x) :
    Keeps c (Observed.whileStatement allCalls bound x) := by
  apply (keeps_lift respects_codeSize).bind
  intro start
  apply (keeps_condition bound _).bind
  intro _
  apply (keeps_emitJump _).bind
  intro done
  apply (keeps_lift (respects_emit _)).bind
  intro _
  apply h.bind
  intro _
  apply (keeps_emitLoop start).bind
  intro _
  apply (keeps_patchJump done).bind
  intro _
  exact keeps_lift (respects_emit _)

/-- A variable is refused, is global, or becomes a local without a value. -/
theorem declareVariable_cases (s : State) :
    (∃ e, declareVariable s = .error e s) ∨
    (s.scope.depth = 0 ∧ ∃ index t, declareVariable s = .ok (some index) t ∧ t.scope = s.scope) ∨
    (s.scope.depth ≠ 0 ∧ ¬ s.scope.isFull ∧ ∃ name,
      declareVariable s = .ok none { s with scope := s.scope.declare name }) := by
  unfold declareVariable
  rw [bind_of_ok (previous_apply s), bind_of_ok (get_apply s)]
  by_cases hdepth : s.scope.depth = 0
  · rw [if_pos hdepth]
    have hconstant := addConstant_apply (.string s.cursor.previous.lexeme) s
    split at hconstant
    · exact .inr (.inl ⟨hdepth, _, _, bind_of_ok hconstant, rfl⟩)
    · exact .inl ⟨_, bind_of_error hconstant⟩
  · rw [if_neg hdepth]
    by_cases hdeclared : s.scope.declares s.cursor.previous.lexeme
    · exact .inl ⟨_, by rw [if_pos hdeclared]; rfl⟩
    · rw [if_neg hdeclared]
      by_cases hfull : s.scope.isFull
      · exact .inl ⟨_, by rw [if_pos hfull]; rfl⟩
      · exact .inr (.inr ⟨hdepth, hfull, _, by rw [if_neg hfull]; rfl⟩)

/-- An initializer is compiled where only its own local has no value. -/
theorem keeps_initializer (bound : Nat) (hc : c.Initializes) :
    Keeps c (Observed.initializer allCalls bound) := by
  have hbody : Keeps c (do
      if ← accept .equal then Observed.expression allCalls bound else emit .nil
      expect .semicolon .semicolonAfterVariable) := by
    apply (keeps_lift (respects_accept _)).bind
    intro given
    have hend : Keeps c (lift (expect .semicolon .semicolonAfterVariable)) :=
      keeps_lift (respects_expect _ _)
    apply leaves_ite
    · exact Keeps.bind (keeps_requests (fun h => erases_expression h bound)
        (respects_expression bound)) fun _ => hend
    · exact (keeps_lift (respects_emit _)).bind fun _ => hend
  apply leaves_call hbody
  rintro s t rfl hsame
  exact ⟨hc, hsame⟩

/-- The local that is declared is there after the declaration, also if its initializer fails. -/
theorem leaves_variableDeclaration (bound : Nat) (hc : c.WellFormed) :
    LeavesScope c c.Grown (Observed.variableDeclaration allCalls bound) := by
  have hdeclare : Observed.declareVariable allCalls = lift declareVariable :=
    Silent.eq_lift (erases_declareVariable (not_mem_onRequest _))
  unfold Observed.variableDeclaration
  rw [hdeclare]
  apply (keeps_lift (respects_expect _ _)).andThen hc.grown
  intro _ s hs
  rcases declareVariable_cases s with ⟨e, he⟩ | ⟨hdepth, index, t, ht, hscope⟩ |
    ⟨hdepth, hroom, name, ht⟩
  -- the name cannot be declared; or it is a global, or a local
  · have hrefused : (lift declareVariable : Noted Call _) s = (.error e s, []) := by
      rw [Noted.lift, he]
    rw [Noted.bind_of_error hrefused]
    exact ⟨hs.symm ▸ hc.grown, by simp⟩
  · rw [Noted.lift_bind_of_ok ht]
    have hc' : c.Initializes := ⟨hc.toOrdered, .inl ⟨hs ▸ hdepth, hc⟩⟩
    refine leaves_attempt (keeps_initializer bound hc') (fun outcome c' hsame => ?_) t
      (hscope.trans hs)
    rw [hsame]
    have hdefined : Respects SameScope (emit (.defineGlobal index) >>= fun _ => settle outcome) :=
      respects_bind (respects_emit _) fun _ => respects_settle outcome
    have hsilent : Silent (Observed.defineVariable allCalls (some index) >>= fun _ =>
        lift (settle outcome)) (emit (.defineGlobal index) >>= fun _ => settle outcome) :=
      (erases_lift _).bind fun _ => erases_lift _
    exact (keeps_of_silent hsilent hdefined).leaves hc.grown
  · rw [Noted.lift_bind_of_ok ht]
    subst hs
    have hc' : (s.scope.declare name).Initializes :=
      ⟨hc.ordered_declare name hroom, .inr ⟨s.scope, name, rfl, hdepth, hc⟩⟩
    refine leaves_attempt (keeps_initializer bound hc') (fun outcome c' hsame => ?_) _ rfl
    rw [hsame]
    have hgrown : s.scope.Grown (s.scope.declare name).markInitialized :=
      ⟨hc.add name hdepth hroom, .inr ⟨name, rfl⟩⟩
    exact leaves_perform .markInitialized ((keeps_lift (respects_settle outcome)).leaves hgrown)

/-- A declaration adds at most one local, also if it fails. -/
theorem leaves_declaration (bound : Nat) (hc : c.WellFormed) (h : Keeps c x) :
    LeavesScope c c.Grown (Observed.declaration allCalls bound x) := by
  have hbody : LeavesScope c c.Grown (do
      if ← accept .varKw then Observed.variableDeclaration allCalls bound else x) := by
    apply (keeps_lift (respects_accept _)).andThen hc.grown
    intro declares
    exact leaves_ite (leaves_variableDeclaration bound hc) (h.leaves hc.grown)
  apply leaves_call (leaves_recovering hbody)
  rintro s t rfl hgrown
  exact ⟨hc, hgrown⟩

/-- The first clause of a loop may declare its variable. -/
theorem leaves_forInitializer (bound : Nat) (hc : c.WellFormed) :
    LeavesScope c c.Grown (Observed.forInitializer allCalls bound) := by
  apply (keeps_lift (respects_accept _)).andThen hc.grown
  intro missing
  apply leaves_ite
  · exact (keeps_lift (respects_pure ())).leaves hc.grown
  · apply (keeps_lift (respects_accept _)).andThen hc.grown
    intro declares
    exact leaves_ite (leaves_variableDeclaration bound hc)
      ((keeps_expressionStatement bound).leaves hc.grown)

/-- A loop runs in the block of its own variable. -/
theorem leaves_forStatement (bound : Nat) (hc : c.WellFormed)
    (h : ∀ c' : Scope, c'.WellFormed → Keeps c' x) :
    LeavesScope c c.Extends (Observed.forStatement allCalls bound x) := by
  apply (keeps_lift (respects_expect _ _)).andThen hc.extended
  intro _
  apply (leaves_forInitializer bound hc).bind fun _ hgrown => hc.extended.trans hgrown
  intro _ c' hgrown
  -- from here on the scope is that of the body, with the variable of the loop if it has one
  refine Keeps.leaves ?_ (hc.extended.trans hgrown)
  apply (keeps_lift respects_codeSize).bind
  intro start
  apply Keeps.bind (keeps_requests (fun h => erases_forCondition h bound)
    (respects_forCondition bound))
  intro leave
  apply Keeps.bind (keeps_requests (fun h => erases_forIncrement h bound start)
    (respects_forIncrement bound start))
  intro continueAt
  apply (h c' hgrown.wellFormed).bind
  intro _
  apply (keeps_emitLoop continueAt).bind
  intro _
  exact keeps_requests (fun h => erases_loopEnd h leave) (respects_loopEnd leave)

/-- The declarations of a block, or of a script. -/
theorem leaves_declarations (bound : Nat) (stop : Kind → Bool) (hc : c.WellFormed)
    (h : ∀ c' : Scope, c'.WellFormed → Keeps c' x) (count : Nat) :
    LeavesScope c c.Extends
      (Observed.repeatUntil stop (Observed.declaration allCalls bound x) count) := by
  apply leaves_repeatUntil stop ?_ hc.extended
  intro c' hc'
  have hdeclaration := leaves_declaration bound hc'.wellFormed (h c' hc'.wellFormed)
  exact hdeclaration.mono fun _ hgrown => hc'.trans hgrown

/-- The declarations of a block add to its locals, up to the brace or to an error. -/
theorem leaves_block (bound : Nat) (hc : c.WellFormed)
    (h : ∀ c' : Scope, c'.WellFormed → Keeps c' x) :
    LeavesScope c c.Extends (Observed.block allCalls bound x) := by
  apply (leaves_declarations bound _ hc h bound).bind fun _ h' => h'
  intro _ c' hc'
  exact (keeps_lift (respects_expect _ _)).leaves hc'

/-- A statement leaves the scope as it finds it, whatever it is and however it ends. -/
theorem keeps_statement (bound : Nat) (hc : c.WellFormed) :
    Keeps c (Observed.statement allCalls bound) := by
  -- whatever form the statement has, the call of it is noted with the scopes before and after
  have hcall : ∀ (c : Scope) {y : Noted Call Unit}, c.WellFormed → Keeps c y →
      Keeps c (Noted.call allCalls .statement y) := by
    intro c y hc hy
    apply leaves_call hy
    rintro s t rfl hsame
    exact ⟨hc, hsame⟩
  induction bound generalizing c with
  | zero => exact hcall c hc (keeps_expressionStatement 0)
  | succ bound ih =>
    have hbody : ∀ c' : Scope, c'.WellFormed → Keeps c' (Observed.statement allCalls bound) :=
      fun c' hc' => ih hc'
    apply hcall c hc
    apply (keeps_lift respects_current).bind
    intro token
    cases token.kind
    case printKw =>
      apply (keeps_lift respects_advance).bind
      intro _
      exact keeps_requests (fun h => erases_printStatement h bound) (respects_printStatement bound)
    -- the body is compiled inside a block, so it must keep the scope of that block
    case forKw =>
      apply (keeps_lift respects_advance).bind
      intro _
      exact keeps_inBlock hc (leaves_forStatement bound hc.beginBlock hbody)
    case ifKw =>
      apply (keeps_lift respects_advance).bind
      intro _
      exact keeps_ifStatement bound (ih hc)
    case whileKw =>
      apply (keeps_lift respects_advance).bind
      intro _
      exact keeps_whileStatement bound (ih hc)
    case leftBrace =>
      apply (keeps_lift respects_advance).bind
      intro _
      exact keeps_inBlock hc (leaves_block bound hc.beginBlock hbody)
    all_goals exact keeps_expressionStatement (bound + 1)

/-- Outside of all blocks no locals are declared, so the scope is empty in the end. -/
theorem keeps_program (bound : Nat) : Keeps .empty (Observed.program allCalls bound) := by
  have hempty := Scope.wellFormed_empty
  have hdeclarations : Keeps .empty _ :=
    (leaves_declarations bound (· = .eof) hempty (fun _ hc => keeps_statement bound hc)
      bound).mono fun _ hextends => hextends.eq_of_depth_zero rfl
  apply hdeclarations.bind
  intro _
  apply (keeps_lift respects_advance).bind
  intro _
  exact keeps_lift (respects_emit _)

end Statements

/-! ## Compiling any tokens

What was seen under observation is true of the compiler, which does the same. -/

/-- A statement leaves the scope as it is. -/
theorem scope_statement (bound : Nat) {s : State} (hs : s.scope.WellFormed) :
    (endState (statement bound s)).scope = s.scope := by
  have hkept := (keeps_statement bound hs s rfl).1
  rwa [(same_statement allCalls bound).result s] at hkept

/-- A declaration adds at most one local to the innermost block. -/
theorem grown_declaration (bound : Nat) {s : State} (hs : s.scope.WellFormed) :
    s.scope.Grown (endState (declaration bound (statement bound) s)).scope := by
  have hgrown := (leaves_declaration bound hs (keeps_statement bound hs) s rfl).1
  rwa [(same_declaration allCalls (same_statement allCalls bound) bound).result s] at hgrown

/-- Scopes are kept in order whatever the tokens are, and however a call ends.

* Between statements a scope is well formed. A statement leaves it as it was, a declaration adds at
  most one local to the innermost block.
* So it is for every call made while compiling, and initializers are compiled where at most the
  latest local has no value, which they leave so.
* In the end no block is open and there are no locals. -/
theorem scopes_kept (tokens : List Token) :
    (∀ (bound : Nat) (s : State), s.scope.WellFormed →
      (endState (statement bound s)).scope = s.scope ∧
      s.scope.Grown (endState (declaration bound (statement bound) s)).scope) ∧
    (Observed.program allCalls tokens.length (.start tokens)).1 =
      program tokens.length (.start tokens) ∧
    (∀ call ∈ (Observed.program allCalls tokens.length (.start tokens)).2, call.KeepsScope) ∧
    ∃ s, program tokens.length (.start tokens) = .ok () s ∧ s.scope = .empty ∧
      compile tokens = s.compilation := by
  have herases := erases_program allCalls tokens.length (.start tokens)
  obtain ⟨hscope, hcalls⟩ := keeps_program tokens.length (.start tokens) rfl
  obtain ⟨s, hs⟩ := program_ok tokens.length (.start tokens)
  refine ⟨fun bound s hs => ⟨scope_statement bound hs, grown_declaration bound hs⟩, herases, hcalls,
    s, hs, ?_, ?_⟩
  · rw [herases, hs] at hscope
    exact hscope
  · rw [compile_eq_endState, hs]
    rfl

/-- A block that ends inside a declaration. -/
theorem scopes_kept_in_open_block :
    let tokens : List Token := [⟨.leftBrace, "\x7b", none, 1⟩, ⟨.varKw, "var", none, 1⟩,
      ⟨.identifier, "a", none, 1⟩, ⟨.equal, "=", none, 1⟩, ⟨.eof, "", none, 1⟩]
    let calls := (Observed.program allCalls tokens.length (.start tokens)).2
    (compile tokens).errors.length = 2 ∧ (compile tokens).locals = 0 ∧
      calls.map Call.routine = [.declaration, .statement, .declaration, .initializer] ∧
      ∀ call ∈ calls, call.KeepsScope := by
  intro tokens calls
  obtain ⟨-, -, hcalls, s, -, hscope, hcompile⟩ := scopes_kept tokens
  have hlocals : (compile tokens).locals = 0 := by
    rw [hcompile, State.compilation, hscope]
    rfl
  exact ⟨by decide +kernel, hlocals, by decide +kernel, hcalls⟩

end StackScript.Compile
