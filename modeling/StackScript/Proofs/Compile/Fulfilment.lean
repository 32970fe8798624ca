import StackScript.Proofs.Compile.Requests

/-!
# Every request is met

Whatever the tokens are, the compiler asks only for what can be done, before and after errors. A
jump is completed by the step that emitted it, or not at all; so a step is described by the jumps
that it may complete.

* **`Meets`**: a step that starts with certain jumps pending asks only for what can be done, and
  completes no other jumps, whether it succeeds or fails. Its rules follow the compiler's steps.
* **`scopes_refine_stack`**: the scope is a stack of blocks.
* **`requests_met`**: compiling neither wraps nor truncates, nor overwrites other code.
-/

namespace StackScript.Compile

/-! ## Steps that complete certain jumps

A step is followed from a recording in which everything so far has been met. What it needs is there
at the start: the jumps that it is going to complete are pending, and the offsets to which it is
going to jump back lie inside the code. -/

/-- A step has led from one recording to another. Jumps that were pending are so still, apart from
those that it may complete. The innermost block may have got more names. -/
structure Continues (jumps : List Nat) (r r' : Recording) : Prop where
  sound : Sound r'
  size_le : r.state.chunk.size ≤ r'.state.chunk.size
  pending : ∀ o, Pending r.history o → o ∉ jumps → Pending r'.history o
  stack : ∀ blocks waiting, r.stack? = some ⟨blocks, waiting⟩ →
    ∃ blocks', r'.stack? = some ⟨blocks', waiting⟩ ∧ blocks'.tail = blocks.tail ∧
      blocks'.length = blocks.length

/-- A recording in which the given jumps are pending and the given offsets are not behind the end of
the code. -/
structure Prepared (waiting : Bool) (jumps starts : List Nat) (r : Recording) : Prop where
  sound : Sound r
  stack : ∃ blocks, r.stack? = some ⟨blocks, waiting⟩
  nodup : jumps.Nodup
  pending : ∀ o ∈ jumps, Pending r.history o
  starts : ∀ n ∈ starts, n ≤ r.state.chunk.size

/-- How a step ends that is made in the recording `r` and completes no jumps but the given ones.
What it has led to is compared with an earlier recording `r₀`. -/
structure Concludes {α : Type} (jumps : List Nat) (r₀ r : Recording)
    (result : EStateM.Result Error State α × List Event) : Prop where
  continues : Continues jumps r₀ (r.extend (endState result.1) result.2)
  cause : ∀ e t, result.1 = .error e t → e.cause ≠ .misplacedJump

/-- Wherever the given jumps are pending and the given offsets are not behind the end of the code,
all requests of the step are met, and it completes no other jumps. -/
def Meets {α : Type} (waiting : Bool) (jumps starts : List Nat) (x : Noted Event α) : Prop :=
  ∀ r, Prepared waiting jumps starts r → Concludes jumps r r (x r.state)

section Rules

open Noted (lift ask call)

variable {α β : Type} {waiting : Bool} {jumps starts : List Nat} {r₀ r r' r'' : Recording}

/-- Nothing has been done. -/
theorem Continues.refl (h : Sound r) : Continues jumps r r :=
  ⟨h, Nat.le_refl _, fun _ ho _ => ho, fun blocks _ hk => ⟨blocks, hk, rfl, rfl⟩⟩

/-- Two steps may complete the jumps that either of them may complete. -/
theorem Continues.trans {first rest : List Nat} (h : Continues first r r')
    (h' : Continues rest r' r'') : Continues (first ++ rest) r r'' where
  sound := h'.sound
  size_le := Nat.le_trans h.size_le h'.size_le
  pending o ho hnot := by
    rw [List.mem_append, not_or] at hnot
    exact h'.pending o (h.pending o ho hnot.1) hnot.2
  stack blocks waiting hk := by
    obtain ⟨blocks', hk', htail, hlength⟩ := h.stack blocks waiting hk
    obtain ⟨blocks'', hk'', htail', hlength'⟩ := h'.stack blocks' waiting hk'
    exact ⟨blocks'', hk'', htail'.trans htail, hlength'.trans hlength⟩

/-- A step may be allowed to complete more jumps than it does. -/
theorem Continues.mono {jumps' : List Nat} (h : Continues jumps r r')
    (hsub : ∀ o ∈ jumps, o ∈ jumps') : Continues jumps' r r' :=
  ⟨h.sound, h.size_le, fun o ho hnot => h.pending o ho fun hin => hnot (hsub o hin), h.stack⟩

/-- A step that needs nothing can be made wherever all has been met so far. -/
theorem Prepared.of_stack (h : Sound r) (hk : ∃ blocks, r.stack? = some ⟨blocks, waiting⟩) :
    Prepared waiting [] [] r :=
  ⟨h, hk, List.nodup_nil, by simp, by simp⟩

/-- An offset inside the code can be jumped back to. -/
theorem Prepared.start (h : Prepared waiting jumps starts r) {n : Nat}
    (hn : n ≤ r.state.chunk.size) : Prepared waiting jumps (n :: starts) r := by
  refine ⟨h.sound, h.stack, h.nodup, h.pending, fun n' hn' => ?_⟩
  rcases List.mem_cons.mp hn' with rfl | hn'
  · exact hn
  · exact h.starts n' hn'

/-- What a step may need is still there after another step that does not touch it. -/
theorem Prepared.next {first rest : List Nat} (h : Prepared waiting (first ++ rest) starts r)
    (hcontinues : Continues first r r') : Prepared waiting rest starts r' := by
  obtain ⟨blocks, hk⟩ := h.stack
  obtain ⟨blocks', hk', -⟩ := hcontinues.stack blocks waiting hk
  obtain ⟨-, hrest, hdisjoint⟩ := List.nodup_append.mp h.nodup
  refine ⟨hcontinues.sound, ⟨blocks', hk'⟩, hrest, fun o ho => ?_, fun n hn => ?_⟩
  -- the first step completes other jumps than these
  · refine hcontinues.pending o (h.pending o (List.mem_append_right _ ho)) fun hfirst => ?_
    exact hdisjoint o hfirst o ho rfl
  · exact Nat.le_trans (h.starts n hn) hcontinues.size_le

/-- What comes before a step counts as done by the step. -/
theorem Continues.concludes {first rest : List Nat}
    {result : EStateM.Result Error State α × List Event}
    (h : Continues first r₀ r) (hrest : Concludes rest r r result) :
    Concludes (first ++ rest) r₀ r result :=
  ⟨h.trans hrest.continues, hrest.cause⟩

/-- A step that succeeds, and then others, which are made where it has led to. -/
theorem Concludes.step {x : Noted Event α} {f : α → Noted Event β} {a : α} {t : State}
    {notes : List Event} (hrun : x r.state = (.ok a t, notes))
    (h : Concludes jumps r₀ (r.extend t notes) (f a t)) :
    Concludes jumps r₀ r ((x >>= f) r.state) := by
  rw [Noted.bind_of_ok hrun]
  refine ⟨?_, h.cause⟩
  rw [← Recording.extend_extend]
  exact h.continues

/-- One step after the other: the jumps that both may complete are different ones. -/
theorem Meets.append {first rest : List Nat} {x : Noted Event α} {f : α → Noted Event β}
    (hx : Meets waiting first starts x) (hf : ∀ a, Meets waiting rest starts (f a)) :
    Meets waiting (first ++ rest) starts (x >>= f) := by
  intro r h
  obtain ⟨hnodup, -, -⟩ := List.nodup_append.mp h.nodup
  have hfirst := hx r ⟨h.sound, h.stack, hnodup,
    fun o ho => h.pending o (List.mem_append_left _ ho), h.starts⟩
  cases hrun : x r.state with
  | mk result notes =>
    rw [hrun] at hfirst
    cases result with
    | ok a t =>
      apply Concludes.step hrun
      exact hfirst.continues.concludes (hf a _ (h.next hfirst.continues))
    | error e t =>
      -- the second step is not made
      rw [Noted.bind_of_error hrun]
      refine ⟨hfirst.continues.mono fun o => List.mem_append_left _, ?_⟩
      intro e' t' herror
      cases herror
      exact hfirst.cause e t rfl

/-- A step that completes no jumps, and then others. -/
theorem Meets.bind {x : Noted Event α} {f : α → Noted Event β} (hx : Meets waiting [] starts x)
    (hf : ∀ a, Meets waiting jumps starts (f a)) : Meets waiting jumps starts (x >>= f) :=
  hx.append hf

/-- It does not matter in which order the jumps are listed. -/
theorem Meets.perm {jumps' : List Nat} {x : Noted Event α} (h : Meets waiting jumps starts x)
    (hperm : jumps.Perm jumps') : Meets waiting jumps' starts x := by
  intro r hr
  have hends := h r ⟨hr.sound, hr.stack, hperm.nodup_iff.mpr hr.nodup,
    fun o ho => hr.pending o (hperm.mem_iff.mp ho), hr.starts⟩
  exact ⟨hends.continues.mono fun o => hperm.mem_iff.mp, hends.cause⟩

/-- What needs nothing can be done anywhere. -/
theorem Meets.anywhere {x : Noted Event α} (h : Meets waiting [] [] x) :
    Meets waiting jumps starts x := by
  intro r hr
  have hends := h r (.of_stack hr.sound hr.stack)
  exact ⟨hends.continues.mono (by simp), hends.cause⟩

theorem meets_ite {c : Prop} [Decidable c] {x y : Noted Event α}
    (hx : Meets waiting jumps starts x) (hy : Meets waiting jumps starts y) :
    Meets waiting jumps starts (if c then x else y) := by
  split
  · exact hx
  · exact hy

/-- Nothing is noted about calls. -/
theorem meets_call {x : Noted Event Unit} (h : Meets waiting jumps starts x) (routine : Routine) :
    Meets waiting jumps starts (call allRequests routine x) :=
  h

/-! ### Steps without requests

Everything that the compiler does to the tokens, and the instructions that it emits as they are,
makes no request. Such a step leaves all that was asked for as it was. -/

/-- A step without requests changes neither the history nor what is pending. -/
theorem Continues.quiet (h : Sound r) {t : State} (hquiet : Quiet r.state t) :
    Continues jumps r (r.extend t []) :=
  ⟨h.quiet hquiet, hquiet.size_le, fun _ ho _ => ho, fun blocks _ hk => ⟨blocks, hk, rfl, rfl⟩⟩

/-- A step that is quiet where it is made. -/
theorem concludes_lift {x : CompileM α} (h : Sound r) (hx : QuietAt x r.state) :
    Concludes jumps r r (lift x r.state) :=
  ⟨.quiet h hx.1, hx.2⟩

/-- A step without requests completes nothing, so it can stand anywhere. -/
theorem meets_lift {x : CompileM α} (hx : QuietStep x) : Meets waiting jumps starts (lift x) :=
  fun r h => concludes_lift h.sound (hx r.state)

theorem meets_pure (a : α) : Meets waiting jumps starts (pure a : Noted Event α) :=
  meets_lift fun s => quietAt_of_ok rfl (.refl s)

theorem meets_emit (i : Instruction) : Meets waiting jumps starts (lift (emit i)) :=
  meets_lift (quietStep_emit i)

theorem meets_expect (kind : Kind) (what : Expectation) :
    Meets waiting jumps starts (lift (expect kind what)) :=
  meets_lift (quietStep_expect kind what)

/-- No step fails for a misplaced jump, but it may fail for any other cause. -/
theorem meets_fail {cause : Cause} (h : cause ≠ .misplacedJump) :
    Meets waiting jumps starts (lift (failAtPrevious cause : CompileM α)) :=
  meets_lift (quietStep_failAtPrevious h)

/-- A step without requests, and then others. -/
theorem Meets.after {x : CompileM α} {f : α → Noted Event β} (hx : QuietStep x)
    (hf : ∀ a, Meets waiting jumps starts (f a)) : Meets waiting jumps starts (lift x >>= f) :=
  (meets_lift hx).bind hf

/-- Where the code ends now is not behind its end later. -/
theorem meets_codeSize {f : Nat → Noted Event β}
    (hf : ∀ n, Meets waiting jumps (n :: starts) (f n)) :
    Meets waiting jumps starts (lift codeSize >>= f) := by
  intro r h
  rw [Noted.lift_bind_of_ok (codeSize_apply r.state)]
  exact hf _ r (h.start (Nat.le_refl _))

/-- A step that is refused, whatever would follow it. -/
theorem meets_refused {cause : Cause} (hcause : cause ≠ .misplacedJump)
    {f : α → Noted Event β} : Meets waiting jumps starts (lift (failAtPrevious cause) >>= f) := by
  intro r h
  have hrun : lift (failAtPrevious cause : CompileM α) r.state =
      (.error (.atToken r.state.cursor.previous cause) r.state, ([] : List Event)) := rfl
  rw [Noted.bind_of_error hrun]
  refine ⟨.refl h.sound, fun e t herror => ?_⟩
  cases herror
  exact hcause

/-! ### Requests

A request is noted, and the step that it is for follows. -/

/-- A request that changes nothing. -/
theorem Continues.asked (h : Sound r) {request : Request} (hscope : request.operation? = none)
    (hjump : ∀ make, request ≠ .jump make) (hmet : Event.IsMet r.history ⟨request, r.state⟩)
    (hjumps : ∀ o, request = .patch o → o ∈ jumps) : Continues jumps r (r.asked request) where
  sound := h.asked hscope hjump hmet
  size_le := Nat.le_refl _
  pending o ho hnot := ho.cons fun hpatch => hnot (hjumps o hpatch)
  stack blocks waiting hk := by
    refine ⟨blocks, ?_, rfl, rfl⟩
    rw [Recording.stack?, Recording.asked, operations_cons, hscope, Option.toList_none,
      List.append_nil]
    exact hk

/-- A request that is met, and then a step. -/
theorem Concludes.asked {x : Noted Event α} {request : Request}
    (h : Continues [] r (r.asked request))
    (hx : Concludes jumps (r.asked request) (r.asked request) (x r.state)) :
    Concludes jumps r r ((ask allRequests request >>= fun _ => x) r.state) := by
  have hrun : ask allRequests request r.state = (.ok () r.state, [⟨request, r.state⟩]) := rfl
  apply Concludes.step hrun
  exact h.concludes hx

/-- The jump that is emitted last is pending: a request to complete it would have been about a jump
inside the code. -/
theorem Sound.pending_emitted (h : Sound r) (make : UInt16 → Instruction) :
    Pending (r.asked (.jump make)).history (r.state.chunk.size + 1) := by
  refine ⟨emitted_cons.mpr (.inl ⟨make, rfl, rfl⟩), fun e he hpatch => ?_⟩
  rcases List.mem_cons.mp he with rfl | he
  · cases hpatch
  -- a jump that has been completed was emitted before, so its operand lies inside the code
  · obtain ⟨later, earlier, hsplit⟩ := List.append_of_mem he
    have hmet := h.met later e earlier hsplit
    rw [Event.IsMet, hpatch] at hmet
    obtain ⟨e', he', make', hrequest, -, hoperand, -⟩ := hmet.awaits
    have hinside := h.inside (r.state.chunk.size + 1)
      ⟨e', by rw [hsplit]; simp [he'], make', hrequest, hoperand⟩
    omega

/-- A jump that is emitted is one that the steps after it may complete. -/
theorem meets_emitJump {make : UInt16 → Instruction} (hmake : IsBranch make)
    {f : Nat → Noted Event β} (hf : ∀ o, Meets waiting (o :: jumps) starts (f o)) :
    Meets waiting jumps starts (Observed.emitJump allRequests make >>= f) := by
  intro r h
  let r₁ : Recording := ⟨r.state.awaiting make, (r.asked (.jump make)).history⟩
  have hrun : Observed.emitJump allRequests make r.state =
      (.ok (r.state.chunk.size + 1) r₁.state, [⟨.jump make, r.state⟩]) :=
    congrArg (·, _) (emitJump_apply make r.state)
  have hsize : r.state.chunk.size ≤ r₁.state.chunk.size := by simp [r₁]
  have hstack : r₁.stack? = r.stack? := by
    simp [r₁, Recording.stack?, Recording.asked, operations_cons, Request.operation?]
  -- the jumps that were pending still are, and none of them is the new one
  have hkept : ∀ o, Pending r.history o → Pending r₁.history o ∧ o ≠ r.state.chunk.size + 1 := by
    intro o ho
    have hinside := h.sound.inside o ho.1
    exact ⟨ho.cons (fun hpatch => by cases hpatch), by omega⟩
  have hends := hf (r.state.chunk.size + 1) r₁ {
    sound := h.sound.jumped hmake
    stack := by rw [hstack]; exact h.stack
    nodup := List.nodup_cons.mpr ⟨fun hin => (hkept _ (h.pending _ hin)).2 rfl, h.nodup⟩
    pending := fun o ho => by
      rcases List.mem_cons.mp ho with rfl | ho
      · exact h.sound.pending_emitted make
      · exact (hkept o (h.pending o ho)).1
    starts := fun n hn => Nat.le_trans (h.starts n hn) hsize }
  apply Concludes.step hrun
  refine ⟨⟨hends.continues.sound, Nat.le_trans hsize hends.continues.size_le, ?_, ?_⟩,
    hends.cause⟩
  · intro o ho hnot
    obtain ⟨hstill, hne⟩ := hkept o ho
    exact hends.continues.pending o hstill (by simp [hne, hnot])
  · intro blocks waiting hk
    exact hends.continues.stack blocks waiting (hstack ▸ hk)

/-- A pending jump is completed, or its distance is too large and it is reported. -/
theorem meets_patchJump (operand : Nat) :
    Meets waiting [operand] starts (Observed.patchJump allRequests operand) := by
  intro r h
  have hpending := h.pending operand (List.mem_singleton_self _)
  have hfills := h.sound.fillsIn hpending
  have hasked : Continues [operand] r (r.asked (.patch operand)) := by
    refine .asked h.sound rfl (fun _ hjump => by cases hjump) hfills fun o hpatch => ?_
    cases hpatch
    exact List.mem_singleton_self _
  have hpatch := patchJump_of_open (h.sound.pending operand hpending).1
  rw [if_pos hfills.inside] at hpatch
  have hrun : Observed.patchJump allRequests operand r.state =
      (patchJump operand r.state, [⟨.patch operand, r.state⟩]) := rfl
  split at hpatch
  -- the distance fits and is filled in
  · rw [hrun, hpatch]
    refine ⟨⟨h.sound.patched hpending _, ?_, hasked.pending, hasked.stack⟩, ?_⟩
    · exact Nat.le_of_eq (Chunk.size_patchWord ..).symm
    · intro e t herror
      cases herror
  -- the distance is too large, so that the jump stays as it is and an error is raised
  · rw [hrun, hpatch]
    refine ⟨hasked, fun e t herror => ?_⟩
    cases herror
    exact fun hcause => by cases hcause

/-- A request that neither changes the scope nor is about a jump forward. -/
def Request.isPlain : Request → Bool
  | scope _ | jump _ | patch _ => false
  | _ => true

/-- A plain request completes no jump. -/
theorem Continues.plain (h : Sound r) {request : Request} (hplain : request.isPlain = true)
    (hmet : Event.IsMet r.history ⟨request, r.state⟩) : Continues jumps r (r.asked request) := by
  refine .asked h ?_ ?_ hmet ?_
  · cases request <;> first | rfl | cases hplain
  · rintro make rfl
    cases hplain
  · rintro o rfl
    cases hplain

/-- A plain request, and then the step that it is for. -/
theorem meets_asked {request : Request} (hplain : request.isPlain = true) {x : Noted Event α}
    (hmet : ∀ r, Prepared waiting jumps starts r → Event.IsMet r.history ⟨request, r.state⟩)
    (hx : Meets waiting jumps starts x) :
    Meets waiting jumps starts (ask allRequests request >>= fun _ => x) := by
  intro r h
  have hasked : Continues [] r (r.asked request) := .plain h.sound hplain (hmet r h)
  exact .asked hasked (hx _ (h.next hasked))

/-- A jump back is possible to any offset that is known to be inside the code. -/
theorem meets_emitLoop {start : Nat} (hstart : start ∈ starts) :
    Meets waiting jumps starts (Observed.emitLoop allRequests start) := by
  apply meets_asked rfl
  · intro r h
    exact returns_of_le (h.starts start hstart)
  · intro r h
    exact concludes_lift h.sound (quietAt_emitLoop (h.starts start hstart))

/-- A constant is asked for, and found or refused at once. -/
theorem meets_addConstant (value : Value) :
    Meets waiting jumps starts (Observed.addConstant allRequests value) := by
  apply meets_asked rfl
  · intro r h
    exact adds_constant r.state value
  · exact meets_lift (quietStep_addConstant value)

/-- The index that the request gave is emitted. -/
theorem meets_emitConstant (value : Value) :
    Meets waiting jumps starts (Observed.emitConstant allRequests value) := by
  apply (meets_addConstant value).bind
  intro index
  exact meets_emit _

/-- A name is looked up in the scope. Only the name of a global needs a constant. -/
theorem meets_access (name : String) :
    Meets waiting jumps starts (Observed.access allRequests name) := by
  apply meets_asked rfl
  · intro r h slot l hresolve
    obtain ⟨blocks, hk⟩ := h.stack
    exact find?_of_resolve h.sound hk hresolve
  · apply Meets.after quietStep_get
    intro s
    cases s.scope.resolve name with
    | some found => exact meets_ite (meets_fail fun hcause => by cases hcause) (meets_pure _)
    | none =>
      apply (meets_addConstant _).bind
      intro index
      exact meets_pure _

/-! ### Failures that are held back

A failure that is held back goes on later, or it is recorded. Either way its cause must not be a
misplaced jump. -/

/-- No step fails for a misplaced jump. -/
def Mentionable (outcome : Option Error) : Prop :=
  ∀ e ∈ outcome, e.cause ≠ .misplacedJump

/-- A step that cannot fail ends as the step whose failure it holds back. -/
theorem attempt_eq {x : Noted Event Unit} (h : Concludes jumps r r (x r.state)) :
    ∃ outcome t notes, Noted.attempt x r.state = (.ok outcome t, notes) ∧ Mentionable outcome ∧
      Continues jumps r (r.extend t notes) := by
  unfold Noted.attempt
  cases hrun : x r.state with
  | mk result notes =>
    rw [hrun] at h
    cases result with
    | ok _ t => exact ⟨none, t, notes, rfl, by simp [Mentionable], h.continues⟩
    | error e t =>
      refine ⟨some e, t, notes, rfl, fun e' he => ?_, h.continues⟩
      cases he
      exact h.cause e t rfl

/-- A failure that was held back goes on. -/
theorem quietStep_settle {outcome : Option Error} (h : Mentionable outcome) :
    QuietStep (settle outcome) := by
  intro s
  cases outcome with
  | none => exact quietAt_of_ok rfl (.refl s)
  | some e => exact quietAt_of_error rfl (h e rfl)

/-- What follows a step whose failure is held back is done in any case. -/
theorem meets_attempt {x : Noted Event Unit} {f : Option Error → Noted Event β}
    (hx : Meets waiting [] starts x)
    (hf : ∀ outcome, Mentionable outcome → Meets waiting jumps starts (f outcome)) :
    Meets waiting jumps starts (Noted.attempt x >>= f) := by
  intro r h
  obtain ⟨outcome, t, notes, hrun, houtcome, hcontinues⟩ :=
    attempt_eq (hx r ⟨h.sound, h.stack, List.nodup_nil, by simp, h.starts⟩)
  apply Concludes.step hrun
  exact hcontinues.concludes (hf outcome houtcome _ (h.next hcontinues))

/-- Like `meets_attempt`, and the cursor moves to the next statement. -/
theorem meets_recovering {x : Noted Event Unit} (h : Meets waiting [] starts x) :
    Meets waiting jumps starts (Observed.recovering x) := by
  apply meets_attempt h
  intro outcome houtcome
  cases outcome with
  | none => exact meets_pure ()
  | some e =>
    apply meets_lift
    intro s
    exact quietAt_of_ok rfl (quiet_recorded s (houtcome e rfl))

/-! ### Operations on the scope

Blocks are opened and closed, and locals declared and marked, in pairs. Between the two operations
of a pair the stack is another one; so a pair is followed as a whole. -/

/-- The recording when the scope has changed. -/
def Recording.performed (r : Recording) (op : Scope.Operation) : Recording :=
  ⟨{ r.state with scope := op.apply r.state.scope }, (r.asked (.scope op)).history⟩

/-- The stack follows the scope. -/
theorem stack?_performed {k k' : Scope.Stack} {op : Scope.Operation} (hk : r.stack? = some k)
    (hop : k.step? op = some k') : (r.performed op).stack? = some k' := by
  have hoperations : operations (r.performed op).history = operations r.history ++ [op] :=
    operations_cons ..
  rw [Recording.stack?, hoperations]
  exact Scope.Stack.follow?_concat hk hop

/-- An operation on the scope always succeeds, and then others are made. -/
theorem Concludes.performed {x : Noted Event β} (op : Scope.Operation)
    (h : Concludes jumps r₀ (r.performed op) (x (r.performed op).state)) :
    Concludes jumps r₀ r ((Observed.perform allRequests op >>= fun _ => x) r.state) := by
  have hrun : Observed.perform allRequests op r.state =
      (.ok () (r.performed op).state, [⟨.scope op, r.state⟩]) := rfl
  exact Concludes.step hrun h

/-- A step between two operations, the second of which undoes what the first did to the stack, apart
from a name that may have been added. -/
theorem Continues.between {op op' : Scope.Operation} {k k₁ : Scope.Stack}
    (hk : r.stack? = some k) (hop : k.step? op = some k₁)
    (hinner : Continues [] (r.performed op) r')
    (hclose : ∀ blocks, blocks.tail = k₁.blocks.tail → blocks.length = k₁.blocks.length →
      ∃ blocks', Scope.Stack.step? ⟨blocks, k₁.waiting⟩ op' = some ⟨blocks', k.waiting⟩ ∧
        blocks'.tail = k.blocks.tail ∧ blocks'.length = k.blocks.length) :
    Continues [] r (r'.performed op') where
  sound := hinner.sound.performed op'
  size_le := hinner.size_le
  pending o ho _ := by
    have hinside := hinner.pending o (ho.cons fun hpatch => by cases hpatch) (by simp)
    exact hinside.cons fun hpatch => by cases hpatch
  stack blocks waiting hblocks := by
    obtain rfl : k = ⟨blocks, waiting⟩ := Option.some.inj (hk.symm.trans hblocks)
    -- between the two operations the stack may change in its innermost block only
    obtain ⟨blocks₂, hk₂, htail, hlength⟩ := hinner.stack _ _ (stack?_performed hk hop)
    obtain ⟨blocks₃, hop', htail', hlength'⟩ := hclose blocks₂ htail hlength
    exact ⟨blocks₃, stack?_performed hk₂ hop', htail', hlength'⟩

/-- Closing a block changes the scope and then drops values. -/
theorem concludes_closeBlock {outcome : Option Error}
    (h : Continues [] r₀ (r.performed .endBlock)) (houtcome : Mentionable outcome) :
    Concludes jumps r₀ r
      ((Observed.closeBlock allRequests >>= fun _ => lift (settle outcome)) r.state) := by
  let dropped := r.state.scope.locals.length - r.state.scope.endBlock.locals.length
  have hclose : Observed.closeBlock allRequests r.state =
      (Observed.perform allRequests .endBlock >>= fun _ =>
        lift ((List.replicate dropped Instruction.pop).forM emit)) r.state := rfl
  have hpops : Concludes [] r₀ r (Observed.closeBlock allRequests r.state) := by
    rw [hclose]
    apply Concludes.performed
    exact h.concludes (concludes_lift h.sound (quietStep_forM_emit _ _))
  -- dropping values does not fail, so what is left is the failure that was held back
  have hrun : Observed.closeBlock allRequests r.state = (.ok () _, [⟨.scope .endBlock, r.state⟩]) :=
    congrArg (·, _) (forM_emit_apply (.replicate dropped .pop) (r.performed .endBlock).state)
  rw [hrun] at hpops
  apply Concludes.step hrun
  exact hpops.continues.concludes
    (concludes_lift hpops.continues.sound (quietStep_settle houtcome _))

/-- A block is opened before its body and closed after it, however the body ends. -/
theorem meets_inBlock {x : Noted Event Unit} (h : Meets false [] [] x) :
    Meets false jumps starts (Observed.inBlock allRequests x) := by
  intro r hr
  obtain ⟨blocks, hk⟩ := hr.stack
  have hbegin : Scope.Stack.step? ⟨blocks, false⟩ .beginBlock = some ⟨[] :: blocks, false⟩ := rfl
  have hbody := h (r.performed .beginBlock)
    (.of_stack (hr.sound.performed _) ⟨_, stack?_performed hk hbegin⟩)
  obtain ⟨outcome, t, notes, hrun, houtcome, hcontinues⟩ := attempt_eq hbody
  apply Concludes.performed
  apply Concludes.step hrun
  refine concludes_closeBlock (.between hk hbegin hcontinues ?_) houtcome
  -- the block is on top of those that were open before it
  intro blocks' htail hlength
  cases blocks' with
  | nil => cases hlength
  | cons block outer =>
    obtain rfl : outer = blocks := htail
    exact ⟨outer, rfl, rfl, rfl⟩

/-- A variable is refused, or it is global, or it becomes a local in a block with room for it. -/
theorem meets_declareVariable {f : Option UInt8 → Noted Event β}
    (hglobal : ∀ index, Meets false jumps starts (f (some index)))
    (hlocal : ∀ r name, Prepared false jumps starts r → r.state.scope.depth ≠ 0 →
      ¬ r.state.scope.isFull →
      Concludes jumps r (r.performed (.declare name))
        (f none (r.performed (.declare name)).state)) :
    Meets false jumps starts (Observed.declareVariable allRequests >>= f) := by
  unfold Observed.declareVariable
  rw [bind_assoc]
  apply Meets.after quietStep_previous
  intro token r h
  rw [bind_assoc]
  show Concludes jumps r r ((lift (get : CompileM State) >>= _) r.state)
  rw [Noted.lift_bind_of_ok (get_apply r.state)]
  by_cases hdepth : r.state.scope.depth = 0
  -- outside of all blocks, the name becomes a constant
  · rw [if_pos hdepth, bind_assoc]
    apply (meets_addConstant _).bind ?_ r h
    intro index
    exact hglobal index
  -- inside a block the compiler asks whether the name is taken
  · rw [if_neg hdepth, bind_assoc]
    have hasked : Continues [] r (r.asked (.declares token.lexeme)) := .plain h.sound rfl trivial
    refine .asked hasked ?_
    split
    -- the name is taken
    · exact meets_refused (fun hcause => by cases hcause) _ (h.next hasked)
    · split
      -- there is no slot left
      · exact meets_refused (fun hcause => by cases hcause) _ (h.next hasked)
      · rename_i hroom
        rw [bind_assoc]
        apply Concludes.performed
        exact hlocal _ token.lexeme (h.next hasked) hdepth hroom

end Rules

/-! ## Expressions

The short-circuit operators emit jumps and complete them themselves. Apart from these an expression
needs nothing that was there before it. -/

section Expressions

open Noted (lift)

variable {waiting : Bool} {jumps starts : List Nat}

theorem meets_number : Meets waiting jumps starts (Observed.number allRequests) := by
  apply Meets.after quietStep_previous
  intro token
  split
  · exact meets_emitConstant _
  · split
    · exact meets_emitConstant _
    · exact meets_fail fun hcause => by cases hcause

theorem meets_string : Meets waiting jumps starts (Observed.string allRequests) := by
  apply Meets.after quietStep_previous
  intro token
  split
  · exact meets_emitConstant _
  · exact meets_emitConstant _

section Operands

variable {operand : Precedence → Noted Event Unit} (h : ∀ p, Meets waiting [] [] (operand p))

include h

/-- A name is read, or it is assigned to. -/
theorem meets_variableUse (canAssign : Bool) :
    Meets waiting jumps starts (Observed.variableUse allRequests operand canAssign) := by
  apply Meets.after quietStep_previous
  intro token
  apply (meets_access _).bind
  intro place
  have hrest : ∀ assigns : Bool, Meets waiting jumps starts
      (if assigns then do operand .assignment; emit place.set else emit place.get) := by
    intro assigns
    apply meets_ite
    · exact (h _).anywhere.bind fun _ => meets_emit _
    · exact meets_emit _
  -- only where an assignment is possible the next token is looked at
  exact meets_ite (.after (quietStep_accept _) hrest) ((meets_pure false).bind hrest)

/-- By cases on the form. Only literals and variables make requests of their own. -/
theorem meets_prefixForm (canAssign : Bool) (form : PrefixForm) :
    Meets waiting jumps starts (Observed.prefixForm allRequests operand canAssign form) := by
  cases form with
  | grouping => exact (h _).anywhere.bind fun _ => meets_expect _ _
  | unary operator => exact (h _).anywhere.bind fun _ => meets_emit _
  | name => exact meets_variableUse h canAssign
  | string => exact meets_string
  | number => exact meets_number
  | constant value => exact meets_emit _

/-- The short-circuit operators complete the jumps that they emit. -/
theorem meets_infixForm (form : InfixForm) :
    Meets waiting [] [] (Observed.infixForm allRequests operand form) := by
  cases form with
  | binary operator => exact (h _).bind fun _ => meets_lift (quietStep_forM_emit _)
  | and =>
    apply meets_emitJump (.inr rfl)
    intro done
    apply Meets.after (quietStep_emit _)
    intro _
    apply (h _).anywhere.bind
    intro _
    exact meets_patchJump done
  | or =>
    apply meets_emitJump (.inr rfl)
    intro otherwise
    apply meets_emitJump (.inl rfl)
    intro done
    -- the jump that was emitted first is completed first
    refine Meets.perm ((meets_patchJump otherwise).append fun _ => ?_) (.swap ..)
    apply Meets.after (quietStep_emit _)
    intro _
    apply (h _).anywhere.bind
    intro _
    exact meets_patchJump done

/-- By induction on the number of operators. -/
theorem meets_infixForms (precedence : Precedence) (count : Nat) :
    Meets waiting [] [] (Observed.infixForms allRequests operand precedence count) := by
  induction count with
  | zero => exact meets_pure ()
  | succ count ih =>
    apply Meets.after quietStep_current
    intro token
    refine meets_ite ?_ (meets_pure ())
    apply Meets.after quietStep_advance
    intro _
    cases token.kind.infixForm? with
    | none => exact (meets_pure ()).bind fun _ => ih
    | some form => exact (meets_infixForm h form).bind fun _ => ih

end Operands

/-- By induction on the bound with which the compiler counts down. -/
theorem meets_expressionAt (bound : Nat) (precedence : Precedence) :
    Meets waiting [] [] (Observed.expressionAt allRequests bound precedence) := by
  induction bound generalizing precedence with
  | zero =>
    apply Meets.after quietStep_advance
    intro _
    exact meets_fail fun hcause => by cases hcause
  | succ bound ih =>
    apply Meets.after quietStep_advance
    intro _
    apply Meets.after quietStep_previous
    intro token
    cases token.kind.prefixForm? with
    -- the token starts no expression
    | none => exact meets_fail fun hcause => by cases hcause
    | some form =>
      -- an equals sign is accepted only to be refused
      have hend : ∀ assigns : Bool, Meets waiting [] []
          (if assigns then lift (failAtPrevious .invalidAssignmentTarget) else pure ()) := by
        intro assigns
        exact meets_ite (meets_fail fun hcause => by cases hcause) (meets_pure ())
      apply (meets_prefixForm ih _ form).bind
      intro _
      apply (meets_infixForms ih _ _).bind
      intro _
      exact meets_ite (.after (quietStep_accept _) hend) ((meets_pure false).bind hend)

theorem meets_expression (bound : Nat) :
    Meets waiting jumps starts (Observed.expression allRequests bound) :=
  (meets_expressionAt bound _).anywhere

end Expressions

/-! ## Statements

A statement completes the jumps that it emits. An error in its body leaves them behind, and then
nobody asks to complete them. -/

section Statements

open Noted (lift)

variable {waiting : Bool} {jumps starts : List Nat}

/-- Without a value it is `nil` that is emitted. -/
theorem meets_initializer (bound : Nat) :
    Meets waiting jumps starts (Observed.initializer allRequests bound) := by
  refine meets_call ?_ .initializer
  apply Meets.after (quietStep_accept _)
  intro given
  apply meets_ite
  · exact (meets_expression bound).bind fun _ => meets_expect _ _
  · exact (meets_emit _).bind fun _ => meets_expect _ _

/-- Between its declaration and the end of its initializer a local waits for its value, and nothing
happens to the scope. -/
theorem meets_variableDeclaration (bound : Nat) :
    Meets false jumps starts (Observed.variableDeclaration allRequests bound) := by
  apply Meets.after (quietStep_expect _ _)
  intro _
  apply meets_declareVariable
  -- a global
  · intro index
    apply meets_attempt (meets_initializer bound)
    intro outcome houtcome
    apply Meets.after (quietStep_emit _)
    intro _
    exact meets_lift (quietStep_settle houtcome)
  -- a local
  · intro r name h hdepth hroom
    obtain ⟨blocks, hk⟩ := h.stack
    have hscope := h.sound.scope ▸ Scope.represents_after hk
    obtain ⟨block, outer, rfl, hdeclare⟩ := hscope.exists_declare name hdepth hroom
    have hinitializer : Meets true [] [] (Observed.initializer allRequests bound) :=
      meets_initializer bound
    obtain ⟨outcome, t, notes, hrun, houtcome, hcontinues⟩ := attempt_eq (hinitializer
      (r.performed (.declare name))
      (.of_stack (h.sound.performed _) ⟨_, stack?_performed hk hdeclare⟩))
    have hmarked : Continues [] r
        (((r.performed (.declare name)).extend t notes).performed .markInitialized) :=
      .between hk hdeclare hcontinues fun blocks' htail hlength => ⟨blocks', rfl, htail, hlength⟩
    apply Concludes.step hrun
    apply Concludes.performed
    exact hmarked.concludes (concludes_lift hmarked.sound (quietStep_settle houtcome _))

theorem meets_printStatement (bound : Nat) :
    Meets waiting jumps starts (Observed.printStatement allRequests bound) := by
  apply (meets_expression bound).bind
  intro _
  apply (meets_expect _ _).bind
  intro _
  exact meets_emit _

theorem meets_expressionStatement (bound : Nat) :
    Meets waiting jumps starts (Observed.expressionStatement allRequests bound) := by
  apply (meets_expression bound).bind
  intro _
  apply (meets_expect _ _).bind
  intro _
  exact meets_emit _

/-- Parentheses make no requests. -/
theorem meets_condition (bound : Nat) (what : Expectation) :
    Meets waiting jumps starts (Observed.condition allRequests bound what) := by
  apply (meets_expect _ _).bind
  intro _
  apply (meets_expression bound).bind
  intro _
  exact meets_expect _ _

/-- A declaration, an expression statement or nothing at all. -/
theorem meets_forInitializer (bound : Nat) :
    Meets false jumps starts (Observed.forInitializer allRequests bound) := by
  apply Meets.after (quietStep_accept _)
  intro missing
  refine meets_ite (meets_pure ()) ?_
  apply Meets.after (quietStep_accept _)
  intro declares
  exact meets_ite (meets_variableDeclaration bound) (meets_expressionStatement bound)

/-- The jump that leaves a loop is completed by what follows the condition. -/
theorem meets_forCondition (bound : Nat) {β : Type} {f : Option Nat → Noted Event β}
    (hf : ∀ leave, Meets waiting leave.toList starts (f leave)) :
    Meets waiting [] starts (Observed.forCondition allRequests bound >>= f) := by
  unfold Observed.forCondition
  rw [bind_assoc]
  apply Meets.after (quietStep_accept _)
  intro missing
  cases missing with
  | true => exact hf none
  -- the jump out of the loop is pending for all that follows
  | false =>
    simp only [Bool.false_eq_true, if_false, bind_assoc, pure_bind]
    apply (meets_expression bound).bind
    intro _
    apply (meets_expect _ _).bind
    intro _
    apply meets_emitJump (.inr rfl)
    intro done
    apply (meets_emit _).bind
    intro _
    exact hf (some done)

/-- The jump over the increment is completed where the body starts. -/
theorem meets_forIncrement (bound : Nat) {start : Nat} (hstart : start ∈ starts) {β : Type}
    {f : Nat → Noted Event β} (hf : ∀ n, Meets waiting jumps (n :: starts) (f n)) :
    Meets waiting jumps starts (Observed.forIncrement allRequests bound start >>= f) := by
  unfold Observed.forIncrement
  rw [bind_assoc]
  apply Meets.after (quietStep_accept _)
  intro missing
  cases missing with
  -- without an increment the body goes on at the test, whose offset is among the starts already
  | true =>
    intro r h
    exact hf start r (h.start (h.starts start hstart))
  -- the increment starts behind a jump to the body, which is completed when its code is done
  | false =>
    simp only [Bool.false_eq_true, if_false, bind_assoc, pure_bind]
    apply meets_emitJump (.inl rfl)
    intro body
    apply meets_codeSize
    intro increment
    apply (meets_expression bound).bind
    intro _
    apply (meets_emit _).bind
    intro _
    apply (meets_expect _ _).bind
    intro _
    apply (meets_emitLoop (List.mem_cons_of_mem _ hstart)).bind
    intro _
    apply (meets_patchJump body).append
    intro _
    exact hf increment

/-- The jump out of the loop is completed here, if there is one. -/
theorem meets_loopEnd (leave : Option Nat) :
    Meets waiting leave.toList starts (Observed.loopEnd allRequests leave) := by
  cases leave with
  | none => exact meets_pure ()
  | some done =>
    apply (meets_patchJump done).append
    intro _
    exact meets_emit _

section Bodies

variable {x : Noted Event Unit} (h : Meets false [] [] x)

include h

/-- The jump over the first branch is completed before the one over the second. -/
theorem meets_ifStatement (bound : Nat) :
    Meets false [] [] (Observed.ifStatement allRequests bound x) := by
  apply (meets_condition _ _).bind
  intro _
  apply meets_emitJump (.inr rfl)
  intro otherwise
  apply (meets_emit _).bind
  intro _
  apply h.anywhere.bind
  intro _
  apply meets_emitJump (.inl rfl)
  intro done
  -- both jumps are pending now
  refine Meets.perm ((meets_patchJump otherwise).append fun _ => ?_) (.swap ..)
  apply (meets_emit _).bind
  intro _
  apply Meets.after (quietStep_accept _)
  intro hasElse
  exact meets_ite (h.anywhere.bind fun _ => meets_patchJump done) (meets_patchJump done)

/-- The start of the loop is where the test begins. The jump out of it waits while the body is
compiled. -/
theorem meets_whileStatement (bound : Nat) :
    Meets false [] [] (Observed.whileStatement allRequests bound x) := by
  apply meets_codeSize
  intro start
  apply (meets_condition _ _).bind
  intro _
  apply meets_emitJump (.inr rfl)
  intro done
  apply (meets_emit _).bind
  intro _
  -- the body cannot complete the jump that is pending, and the start stays inside the code
  apply h.anywhere.bind
  intro _
  apply (meets_emitLoop (List.mem_cons_self ..)).bind
  intro _
  apply (meets_patchJump done).append
  intro _
  exact meets_emit _

/-- A loop with three clauses goes back to its increment, or to its condition if it has none. -/
theorem meets_forStatement (bound : Nat) :
    Meets false [] [] (Observed.forStatement allRequests bound x) := by
  apply (meets_expect _ _).bind
  intro _
  apply (meets_forInitializer bound).bind
  intro _
  apply meets_codeSize
  intro start
  apply meets_forCondition bound
  intro leave
  apply meets_forIncrement bound (List.mem_cons_self ..)
  intro continueAt
  -- whether or not there is a jump out of the loop, the body leaves it pending
  apply h.anywhere.bind
  intro _
  apply (meets_emitLoop (List.mem_cons_self ..)).bind
  intro _
  exact meets_loopEnd leave

/-- What a failed declaration leaves open is not completed later. -/
theorem meets_declaration (bound : Nat) :
    Meets false [] [] (Observed.declaration allRequests bound x) := by
  refine meets_call (meets_recovering ?_) .declaration
  apply Meets.after (quietStep_accept _)
  intro declares
  exact meets_ite (meets_variableDeclaration bound) h

/-- By induction on the number of rounds. -/
theorem meets_repeatUntil (stop : Kind → Bool) (count : Nat) :
    Meets false [] [] (Observed.repeatUntil stop x count) := by
  induction count with
  | zero => exact meets_pure ()
  | succ count ih =>
    apply Meets.after quietStep_current
    intro token
    exact meets_ite (meets_pure ()) (h.bind fun _ => ih)

/-- Declarations, and the brace that ends them. -/
theorem meets_block (bound : Nat) : Meets false [] [] (Observed.block allRequests bound x) := by
  apply (meets_repeatUntil (meets_declaration h bound) _ _).bind
  intro _
  exact meets_expect _ _

end Bodies

/-- By induction on the bound: a statement inside another has a smaller one. -/
theorem meets_statement (bound : Nat) :
    Meets false [] [] (Observed.statement allRequests bound) := by
  induction bound with
  | zero => exact meets_call (meets_expressionStatement 0) .statement
  | succ bound ih =>
    refine meets_call ?_ .statement
    apply Meets.after quietStep_current
    intro token
    cases token.kind
    case printKw => exact .after quietStep_advance fun _ => meets_printStatement bound
    case forKw =>
      exact .after quietStep_advance fun _ => meets_inBlock (meets_forStatement ih bound)
    case ifKw => exact .after quietStep_advance fun _ => meets_ifStatement ih bound
    case whileKw => exact .after quietStep_advance fun _ => meets_whileStatement ih bound
    case leftBrace => exact .after quietStep_advance fun _ => meets_inBlock (meets_block ih bound)
    all_goals exact meets_expressionStatement (bound + 1)

/-- A script needs nothing that was asked for before. -/
theorem meets_program (bound : Nat) :
    Meets false [] [] (Observed.program allRequests bound) := by
  apply (meets_repeatUntil (meets_declaration (meets_statement bound) bound) _ _).bind
  intro _
  apply Meets.after quietStep_advance
  intro _
  exact meets_emit _

end Statements

/-! ## Compiling any tokens

Before the first token nothing has been asked for. -/

/-- A recording that starts before the first token ends with all requests met. -/
theorem continues_record (tokens : List Token) :
    Continues [] ⟨.start tokens, []⟩ (record tokens) := by
  refine (meets_program tokens.length ⟨.start tokens, []⟩ ?_).continues
  exact .of_stack (Sound.start tokens) ⟨[], rfl⟩

/-- All blocks that are opened are closed, and all operations come in order. -/
theorem stack?_record (tokens : List Token) :
    Scope.Stack.follow? (operations (record tokens).history) = some .empty := by
  obtain ⟨blocks, hk, -, hlength⟩ := (continues_record tokens).stack [] false rfl
  obtain rfl : blocks = [] := List.length_eq_zero_iff.mp hlength
  exact hk

/-- The operations of an earlier part of a history come first. -/
theorem operations_append (later earlier : List Event) :
    operations (later ++ earlier) = operations earlier ++ operations later := by
  simp [operations]

/-- The scope is a stack of blocks.

* After any operations that come in order it says about names what the stack says, and closing a
  block leaves it as it was before the block was opened.
* The operations of a compilation come in order, whatever the tokens are. They are all that happens
  to the scope: wherever something is asked for, it is asked for in the scope that the operations so
  far have led to. -/
theorem scopes_refine_stack :
    (∀ ops k, Scope.Stack.follow? ops = some k → Scope.Refines k (Scope.after ops)) ∧
    (∀ before inside k,
      Scope.Stack.follow? (before ++ .beginBlock :: inside ++ [.endBlock]) = some k →
      Scope.Inside before inside →
      Scope.after (before ++ .beginBlock :: inside ++ [.endBlock]) = Scope.after before) ∧
    ∀ tokens, (record tokens).state.compilation = compile tokens ∧
      Scope.Stack.follow? (operations (record tokens).history) = some .empty ∧
      (record tokens).state.scope = Scope.after (operations (record tokens).history) ∧
      Throughout (fun earlier e => ∃ k, Scope.Stack.follow? (operations earlier) = some k ∧
        e.state.scope = Scope.after (operations earlier) ∧ Scope.Refines k e.state.scope)
        (record tokens).history := by
  refine ⟨fun ops k h => (Scope.represents_after h).refines, fun before inside k h hinside =>
    Scope.after_endBlock h hinside, fun tokens => ⟨compilation_record tokens, stack?_record tokens,
    (continues_record tokens).sound.scope, fun later e earlier hsplit => ?_⟩⟩
  -- the operations before a request are the first ones of all, so they come in order too
  have hwhole := stack?_record tokens
  rw [hsplit, List.append_cons, operations_append] at hwhole
  obtain ⟨k, hk, -⟩ := Scope.Stack.follow?_append.mp hwhole
  have hscope : e.state.scope = Scope.after (operations earlier) :=
    (continues_record tokens).sound.scopes later e earlier hsplit
  exact ⟨k, hk, hscope, hscope ▸ (Scope.represents_after hk).refines⟩

/-- Inside a block that shadows a name, after a block without names, a name has no value yet. -/
theorem scopes_refine_stack_shadowing :
    let before : List Scope.Operation :=
      [.beginBlock, .declare "a", .markInitialized, .declare "b", .markInitialized]
    let inside : List Scope.Operation :=
      [.declare "a", .markInitialized, .beginBlock, .endBlock, .declare "c"]
    let ops := before ++ .beginBlock :: inside
    Scope.Stack.follow? ops = some ⟨[["c", "a"], ["b", "a"]], true⟩ ∧
    Scope.Refines ⟨[["c", "a"], ["b", "a"]], true⟩ (Scope.after ops) ∧
    (Scope.after ops).resolve "a" = some (2, ⟨"a", some 2⟩) ∧
    (Scope.after ops).resolve "c" = some (3, ⟨"c", none⟩) ∧
    Scope.after (before ++ .beginBlock :: (inside ++ [.markInitialized]) ++ [.endBlock]) =
      Scope.after before := by
  intro before inside ops
  refine ⟨rfl, scopes_refine_stack.1 _ _ rfl, by decide, by decide,
    scopes_refine_stack.2.1 _ _ ⟨[["b", "a"]], false⟩ rfl ⟨?_, rfl⟩⟩
  intro first hfirst
  -- the block is open after each of the operations inside it
  have hopen : ∀ n < 7, (Scope.after before).depth < (Scope.after
      (before ++ .beginBlock :: List.take n (inside ++ [.markInitialized]))).depth := by
    decide
  rw [List.prefix_iff_eq_take.mp hfirst]
  exact hopen first.length (Nat.lt_succ_of_le hfirst.length_le)

/-- Compiling meets every request, whatever the tokens are, before and after errors: it completes a
jump at most once and where it stands, counts no distance below zero, and puts indices, slots and
distances into bytes in full or reports them. So no jump is ever misplaced. -/
theorem requests_met (tokens : List Token) :
    (record tokens).state.compilation = compile tokens ∧
    Throughout Event.IsMet (record tokens).history ∧
    ∀ e ∈ (compile tokens).errors, e.cause ≠ .misplacedJump := by
  have hsound := (continues_record tokens).sound
  refine ⟨compilation_record tokens, hsound.met, fun e he => ?_⟩
  rw [← compilation_record tokens] at he
  exact hsound.errors e (Array.mem_toList_iff.mp he)

-- An error leaves a jump behind. It stays as it is, and the jump after it is completed.
example :
    let tokens := [Kind.ifKw, .leftParen, .trueKw, .rightParen, .semicolon,
      .trueKw, .andKw, .trueKw, .semicolon].map fun kind => Token.mk kind "" none 1
    (record tokens).state.openJumps = [2] ∧ (compile tokens).errors.length = 1 := by
  decide +kernel

end StackScript.Compile
