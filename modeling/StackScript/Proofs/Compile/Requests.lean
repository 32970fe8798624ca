import StackScript.Proofs.Compile.Observed

/-!
# What the compiler asks for

The compiler computes distances by subtraction, puts indices into bytes, and overwrites code that it
emitted before. It goes on after an error, and then jumps stay behind that are never completed. This
module says when a request can be met all the same, and what holds of a recording at every point.

* **`Recording`**: the state of the compiler together with what an observer has noted about its
  requests so far.
* **`Event.IsMet`**: a request is met exactly, or what is too large is reported.
* **`Pending`**: a jump has been emitted, and nobody has asked to complete it.
* **`Sound`**: all requests so far have been met. Pending jumps stand in the code as they were
  emitted and do not overlap, and the scope is the one that the history leads to.
* **`Quiet`**: a step that only passes tokens and appends code.
-/

namespace StackScript

/-! ## Code that is overwritten

Only the operands of jumps are overwritten, and everything else can be decoded as before. -/

/-- An instruction takes at most three bytes, and the same bytes are read as the same
instruction. -/
theorem Instruction.decode_congr {code code' : Array UInt8} {offset : Nat}
    (h : ∀ k < 3, code'[offset + k]? = code[offset + k]?) :
    decode code' offset = decode code offset := by
  have hfirst : code'[offset]? = code[offset]? := h 0 (by decide)
  have hbyte : byteOperand code' offset = byteOperand code offset := by
    unfold byteOperand
    rw [h 1 (by decide)]
  have hword : wordOperand code' offset = wordOperand code offset := by
    unfold wordOperand
    rw [h 1 (by decide), h 2 (by decide)]
  have hopcode : decodeOpcode code' offset = decodeOpcode code offset := by
    funext opcode
    cases opcode <;> simp only [decodeOpcode, hbyte, hword]
  unfold decode
  rw [hfirst, hopcode]

namespace Chunk

@[simp] theorem size_patchWord (c : Chunk) (operand : Nat) (word : UInt16) :
    (c.patchWord operand word).size = c.size := by
  simp [patchWord, size]

/-- Only the two bytes of the word are overwritten. -/
theorem getElem?_patchWord_of_ne (c : Chunk) {operand k : Nat} (word : UInt16) (hhigh : k ≠ operand)
    (hlow : k ≠ operand + 1) : (c.patchWord operand word).code[k]? = c.code[k]? := by
  rw [patchWord, Array.getElem?_setIfInBounds_ne (Ne.symm hlow),
    Array.getElem?_setIfInBounds_ne (Ne.symm hhigh)]

/-- A word that is inside the code is read as it was written. -/
theorem readWord?_patchWord {c : Chunk} {operand : Nat} (h : operand + 2 ≤ c.size) (word : UInt16) :
    (c.patchWord operand word).readWord? operand = some word := by
  have hsize : operand + 2 ≤ c.code.size := h
  have hhigh : (c.patchWord operand word).code[operand]? = some (highByte word) := by
    rw [patchWord, Array.getElem?_setIfInBounds_ne (by omega),
      Array.getElem?_setIfInBounds_self_of_lt (by omega)]
  have hlow : (c.patchWord operand word).code[operand + 1]? = some (lowByte word) := by
    rw [patchWord, Array.getElem?_setIfInBounds_self_of_lt]
    rw [Array.size_setIfInBounds]
    omega
  rw [readWord?, hhigh, hlow]
  simp

end Chunk

namespace Compile

/-! ## Histories

A request is noted together with the state in which it is made, so that a history can be examined
for requests that cannot be met. -/

/-- A request and the state in which it is made. -/
structure Event where
  request : Request
  state : State

/-- Notes what the compiler asks for. -/
def allRequests : Observer Event where
  onRequest request s := [⟨request, s⟩]
  onCall _ _ _ := []

/-- The state of the compiler, and what it has asked for so far, the latest first. -/
structure Recording where
  state : State
  history : List Event

/-- The recording when a step has led to another state and made some notes. -/
def Recording.extend (r : Recording) (t : State) (notes : List Event) : Recording :=
  ⟨t, notes.reverse ++ r.history⟩

/-- Two steps extend a recording one after the other. -/
theorem Recording.extend_extend (r : Recording) (t u : State) (notes notes' : List Event) :
    (r.extend t notes).extend u notes' = r.extend u (notes ++ notes') := by
  simp [extend]

/-- Compiles the tokens of a script and keeps the history. -/
def record (tokens : List Token) : Recording :=
  let result := Observed.program allRequests tokens.length (.start tokens)
  Recording.extend ⟨.start tokens, []⟩ (endState result.1) result.2

/-- The state that is recorded in the end is the one that the compiler reaches. -/
theorem compilation_record (tokens : List Token) :
    (record tokens).state.compilation = compile tokens := by
  show (endState (Observed.program allRequests tokens.length (.start tokens)).1).compilation = _
  rw [erases_program, compile_eq_endState]

/-- The operation that a request is for. -/
def Request.operation? : Request → Option Scope.Operation
  | scope op => some op
  | _ => none

/-- The operations on the scope in a history, the earliest first. -/
def operations (history : List Event) : List Scope.Operation :=
  (history.filterMap fun e => e.request.operation?).reverse

/-! ## Requests that are met

Each kind of request has its own condition. Where something may be too large for the bytes that it
is put into, the condition says both what is written and when it is reported instead. -/

/-- A jump whose distance is filled in later. -/
def IsBranch (make : UInt16 → Instruction) : Prop :=
  make = .jump ∨ make = .jumpIfFalse

/-- A jump has been emitted that has its operand at the given offset. -/
def Emitted (history : List Event) (operand : Nat) : Prop :=
  ∃ e ∈ history, ∃ make, e.request = .jump make ∧ e.state.chunk.size + 1 = operand

/-- The jump stands in the code as it was emitted. -/
def Awaits (history : List Event) (code : Array UInt8) (operand : Nat) : Prop :=
  ∃ e ∈ history, ∃ make, e.request = .jump make ∧ IsBranch make ∧
    e.state.chunk.size + 1 = operand ∧
    Instruction.decode code e.state.chunk.size = .ok (make maxDistance.toUInt16)

/-- A jump has been emitted, and nobody has asked to complete it. -/
def Pending (history : List Event) (operand : Nat) : Prop :=
  Emitted history operand ∧ ∀ e ∈ history, e.request ≠ .patch operand

/-- A jump can be completed: its operand is inside the code, the jump was emitted before and stands
there unchanged, and it is the first request to complete it. Its distance is written in full where
its operand stands, and nowhere else, or it is reported. -/
structure FillsIn (earlier : List Event) (s : State) (operand : Nat) : Prop where
  inside : operand + 2 ≤ s.chunk.size
  awaits : Awaits earlier s.chunk.code operand
  once : ∀ e ∈ earlier, e.request ≠ .patch operand
  written : s.chunk.size - (operand + 2) ≤ 65535 →
    ∃ (word : UInt16) (t : State), patchJump operand s = .ok () t ∧
      operand + 2 + word.toNat = s.chunk.size ∧ t.chunk.readWord? operand = some word ∧
      t.chunk.size = s.chunk.size ∧
      ∀ k, k ≠ operand → k ≠ operand + 1 → t.chunk.code[k]? = s.chunk.code[k]?
  reported : 65535 < s.chunk.size - (operand + 2) →
    patchJump operand s = .error (.atToken s.cursor.previous .jumpTooFar) s

/-- A jump can lead back to an offset: it is not behind the end of the code, and the distance is
emitted in full or reported. -/
structure Returns (s : State) (start : Nat) : Prop where
  inside : start ≤ s.chunk.size
  written : s.chunk.size + 3 - start ≤ 65535 →
    ∃ (word : UInt16) (t : State), emitLoop start s = .ok () t ∧
      start + word.toNat = s.chunk.size + 3 ∧
      t.chunk = (s.chunk.emit (.loop word) s.cursor.previous.line).2
  reported : 65535 < s.chunk.size + 3 - start →
    emitLoop start s = .error (.atToken s.cursor.previous .loopTooLarge) s

/-- A constant is found at the index that is returned for it, or that there is no room for it is
reported. -/
structure Adds (s : State) (value : Value) : Prop where
  added : s.chunk.constants.size < 256 →
    ∃ (index : UInt8) (t : State), addConstant value s = .ok index t ∧
      index.toNat = s.chunk.constants.size ∧ t.chunk.constants = s.chunk.constants.push value
  reported : 256 ≤ s.chunk.constants.size →
    addConstant value s = .error (.atToken s.cursor.previous .tooManyConstants) s

/-- A request is met exactly, or what is too large is reported. -/
def Event.IsMet (earlier : List Event) (e : Event) : Prop :=
  match e.request with
  | .patch operand => FillsIn earlier e.state operand
  | .loop start => Returns e.state start
  | .constant value => Adds e.state value
  | .resolve name => ∀ slot l, e.state.scope.resolve name = some (slot, l) →
    Scope.find? name e.state.scope.locals = some (slot.toNat, l)
  | .jump make => IsBranch make
  | .scope _ | .declares _ => True

/-- A property of each event of a history, and of those before it. -/
def Throughout (P : List Event → Event → Prop) (history : List Event) : Prop :=
  ∀ later e earlier, history = later ++ e :: earlier → P earlier e

section Throughout

variable {history : List Event} {e : Event} {operand : Nat}

/-- Nothing has been asked for yet. -/
theorem throughout_nil (P : List Event → Event → Prop) : Throughout P [] := by
  intro later e earlier h
  simp at h

/-- One more request, of which it has to be shown. -/
theorem Throughout.cons {P : List Event → Event → Prop} (h : Throughout P history)
    (he : P history e) : Throughout P (e :: history) := by
  intro later e' earlier heq
  cases later with
  | nil =>
    cases heq
    exact he
  | cons _ later =>
    obtain ⟨-, hrest⟩ := List.cons.inj heq
    exact h later e' earlier hrest

/-- The operation of a request comes after those of the history. -/
theorem operations_cons (e : Event) (history : List Event) :
    operations (e :: history) = operations history ++ e.request.operation?.toList := by
  unfold operations
  cases h : e.request.operation? <;> simp [h]

/-- A jump is emitted now, or it was emitted before. -/
theorem emitted_cons : Emitted (e :: history) operand ↔
    (∃ make, e.request = .jump make ∧ e.state.chunk.size + 1 = operand) ∨
      Emitted history operand := by
  simp [Emitted]

/-- A jump stands as it was emitted if none of its bytes is overwritten. -/
theorem Awaits.mono {history' : List Event} {code code' : Array UInt8}
    (h : Awaits history code operand) (hhistory : ∀ e ∈ history, e ∈ history')
    (hcode : ∀ k, operand ≤ k + 1 → k < operand + 2 → code'[k]? = code[k]?) :
    Awaits history' code' operand := by
  obtain ⟨e, he, make, hrequest, hmake, hoperand, hdecode⟩ := h
  refine ⟨e, hhistory e he, make, hrequest, hmake, hoperand, ?_⟩
  rw [Instruction.decode_congr fun k hk => hcode _ (by omega) (by omega), hdecode]

/-- What is pending stays so when anything else is asked for. -/
theorem Pending.cons (h : Pending history operand) (he : e.request ≠ .patch operand) :
    Pending (e :: history) operand := by
  refine ⟨emitted_cons.mpr (.inr h.1), fun e' he' => ?_⟩
  rcases List.mem_cons.mp he' with rfl | he'
  · exact he
  · exact h.2 e' he'

/-- Only a jump that is emitted is pending and was not so before. -/
theorem Pending.of_cons (h : Pending (e :: history) operand)
    (he : ∀ make, e.request ≠ .jump make) : Pending history operand := by
  refine ⟨?_, fun e' he' => h.2 e' (List.mem_cons_of_mem _ he')⟩
  rcases emitted_cons.mp h.1 with ⟨make, hmake, _⟩ | hbefore
  · exact absurd hmake (he make)
  · exact hbefore

end Throughout

/-! ## Steps that change no code

Most steps ask for nothing. They pass tokens, append code or fail, and all that was emitted before
stays where it is. -/

/-- Tokens are passed and code is appended. Errors that are recorded are not about misplaced
jumps. -/
structure Quiet (s t : State) : Prop where
  scope : t.scope = s.scope
  openJumps : t.openJumps = s.openJumps
  size_le : s.chunk.size ≤ t.chunk.size
  code : ∀ k < s.chunk.size, t.chunk.code[k]? = s.chunk.code[k]?
  errors : ∀ e ∈ t.errors, e ∈ s.errors ∨ e.cause ≠ .misplacedJump

section Quiet

variable {s t u : State}

/-- Nothing happens. -/
theorem Quiet.refl (s : State) : Quiet s s :=
  ⟨rfl, rfl, Nat.le_refl _, fun _ _ => rfl, fun _ he => .inl he⟩

/-- Tokens are passed. -/
theorem quiet_past (s : State) (cursor : Cursor) : Quiet s { s with cursor := cursor } :=
  ⟨rfl, rfl, Nat.le_refl _, fun _ _ => rfl, fun _ he => .inl he⟩

/-- Code that is appended does not change what was there. -/
theorem getElem?_extend_of_lt (c : Chunk) (l : Lowering) {k : Nat} (h : k < c.size) :
    (c.extend l).code[k]? = c.code[k]? :=
  Array.getElem?_append_left h

/-- Code is appended. -/
theorem quiet_append (s : State) (l : Lowering) : Quiet s (s.append l) where
  scope := rfl
  openJumps := rfl
  size_le := by simp
  code _ hk := getElem?_extend_of_lt s.chunk l hk
  errors _ he := .inl he

/-- An error is recorded, and the tokens up to the next statement are passed. -/
theorem quiet_recorded (s : State) {e : Error} (he : e.cause ≠ .misplacedJump) :
    Quiet s { s with errors := s.errors.push e, cursor := s.cursor.synchronize } where
  scope := rfl
  openJumps := rfl
  size_le := Nat.le_refl _
  code _ _ := rfl
  errors e' he' := by
    rcases Array.mem_push.mp he' with hbefore | rfl
    · exact .inl hbefore
    · exact .inr he

/-- In the given state a step passes tokens and appends code, and does not fail for a misplaced
jump. -/
def QuietAt {α : Type} (x : CompileM α) (s : State) : Prop :=
  Quiet s (endState (x s)) ∧ ∀ e t, x s = .error e t → e.cause ≠ .misplacedJump

/-- In every state the step passes tokens and appends code. -/
def QuietStep {α : Type} (x : CompileM α) : Prop :=
  ∀ s, QuietAt x s

variable {α : Type}

/-- A step that succeeds. -/
theorem quietAt_of_ok {x : CompileM α} {a : α} (h : x s = .ok a t) (hquiet : Quiet s t) :
    QuietAt x s := by
  rw [QuietAt, h]
  exact ⟨hquiet, fun _ _ herror => by cases herror⟩

/-- A step that fails and leaves the state as it is. -/
theorem quietAt_of_error {x : CompileM α} {e : Error} (h : x s = .error e s)
    (he : e.cause ≠ .misplacedJump) : QuietAt x s := by
  rw [QuietAt, h]
  refine ⟨.refl s, fun e' t herror => ?_⟩
  cases herror
  exact he

theorem quietStep_previous : QuietStep previous :=
  fun s => quietAt_of_ok rfl (.refl s)

theorem quietStep_current : QuietStep current :=
  fun s => quietAt_of_ok rfl (.refl s)

theorem quietStep_get : QuietStep (get : CompileM State) :=
  fun s => quietAt_of_ok rfl (.refl s)

/-- Tokens are passed, which changes no code. -/
theorem quietStep_advance : QuietStep advance :=
  fun s => quietAt_of_ok rfl (quiet_past s _)

/-- Code is added behind the code that is there. -/
theorem quietStep_emit (i : Instruction) : QuietStep (emit i) :=
  fun s => quietAt_of_ok (emit_apply i s) (quiet_append s _)

theorem quietStep_forM_emit (is : List Instruction) : QuietStep (is.forM emit) :=
  fun s => quietAt_of_ok (forM_emit_apply is s) (quiet_append s _)

theorem quietStep_accept (kind : Kind) : QuietStep (accept kind) := by
  intro s
  have haccept := accept_apply kind s
  split at haccept
  · exact quietAt_of_ok haccept (quiet_past s _)
  · exact quietAt_of_ok haccept (.refl s)

/-- Any error but one about jumps. -/
theorem quietStep_failAtPrevious {cause : Cause} (h : cause ≠ .misplacedJump) :
    QuietStep (failAtPrevious cause : CompileM α) :=
  fun _ => quietAt_of_error rfl h

theorem quietStep_expect (kind : Kind) (what : Expectation) : QuietStep (expect kind what) := by
  intro s
  have hexpect := expect_apply kind what s
  split at hexpect
  · exact quietAt_of_ok hexpect (quiet_past s _)
  · exact quietAt_of_error hexpect fun hcause => by cases hcause

/-- The constants are no code. -/
theorem quietStep_addConstant (value : Value) : QuietStep (addConstant value) := by
  intro s
  have hadd := addConstant_apply value s
  split at hadd
  · exact quietAt_of_ok hadd (quiet_append s _)
  · exact quietAt_of_error hadd fun hcause => by cases hcause

/-- The start of the loop must be inside the code. -/
theorem quietAt_emitLoop {start : Nat} (h : start ≤ s.chunk.size) : QuietAt (emitLoop start) s := by
  have hloop := emitLoop_apply start s h
  split at hloop
  · exact quietAt_of_ok hloop (quiet_append s _)
  · exact quietAt_of_error hloop fun hcause => by cases hcause

end Quiet

/-! ## Recordings

What holds of a recording is shown for each kind of step: one that asks for nothing, a plain
request, an operation on the scope, a jump that is emitted, and one that is completed. -/

/-- The stack of blocks that the operations in the history lead to. -/
def Recording.stack? (r : Recording) : Option Scope.Stack :=
  Scope.Stack.follow? (operations r.history)

/-- What holds of a recording at every point. -/
structure Sound (r : Recording) : Prop where
  /-- The scope changes by the operations in the history, and only by these. -/
  scope : r.state.scope = .after (operations r.history)
  scopes : Throughout (fun earlier e => e.state.scope = .after (operations earlier)) r.history
  met : Throughout Event.IsMet r.history
  /-- Jumps do not overlap. -/
  apart : ∀ o o', Emitted r.history o → Emitted r.history o' →
    o = o' ∨ o + 3 ≤ o' ∨ o' + 3 ≤ o
  inside : ∀ o, Emitted r.history o → o + 2 ≤ r.state.chunk.size
  pending : ∀ o, Pending r.history o →
    o ∈ r.state.openJumps ∧ Awaits r.history r.state.chunk.code o
  errors : ∀ e ∈ r.state.errors, e.cause ≠ .misplacedJump

/-- The recording when a request has been put into the history. -/
def Recording.asked (r : Recording) (request : Request) : Recording :=
  { r with history := ⟨request, r.state⟩ :: r.history }

namespace Sound

variable {r : Recording} {t : State} {request : Request}

/-- Before the first token. -/
theorem start (tokens : List Token) : Sound ⟨.start tokens, []⟩ where
  scope := rfl
  scopes := throughout_nil _
  met := throughout_nil _
  apart := by simp [Emitted]
  inside := by simp [Emitted]
  pending := by simp [Pending, Emitted]
  errors := by simp [State.start]

/-- A step that asks for nothing. -/
theorem quiet (h : Sound r) (hquiet : Quiet r.state t) : Sound { r with state := t } where
  scope := hquiet.scope.trans h.scope
  scopes := h.scopes
  met := h.met
  apart := h.apart
  inside o ho := Nat.le_trans (h.inside o ho) hquiet.size_le
  pending o ho := by
    obtain ⟨hopen, hawaits⟩ := h.pending o ho
    have hinside := h.inside o ho.1
    refine ⟨hquiet.openJumps ▸ hopen, hawaits.mono (fun _ he => he) fun k _ hk => ?_⟩
    exact hquiet.code k (by omega)
  errors e he := by
    rcases hquiet.errors e he with hbefore | hcause
    · exact h.errors e hbefore
    · exact hcause

/-- A request that emits no jump. The scope may change as the history says. -/
theorem next (h : Sound r) (hjump : ∀ make, request ≠ .jump make) {scope : Scope}
    (hscope : scope = .after (operations (r.asked request).history))
    (hmet : Event.IsMet r.history ⟨request, r.state⟩) :
    Sound ⟨{ r.state with scope := scope }, (r.asked request).history⟩ := by
  -- the request is not for a jump, so the jumps are those that were emitted before
  have hemitted : ∀ o, Emitted (r.asked request).history o → Emitted r.history o := by
    intro o ho
    rcases emitted_cons.mp ho with ⟨make, hmake, _⟩ | hbefore
    · exact absurd hmake (hjump make)
    · exact hbefore
  refine ⟨hscope, h.scopes.cons h.scope, h.met.cons hmet, ?_, ?_, ?_, h.errors⟩
  · intro o o' ho ho'
    exact h.apart o o' (hemitted o ho) (hemitted o' ho')
  · intro o ho
    exact h.inside o (hemitted o ho)
  · intro o ho
    obtain ⟨hopen, hawaits⟩ := h.pending o (ho.of_cons hjump)
    exact ⟨hopen, hawaits.mono (fun _ => List.mem_cons_of_mem _) fun _ _ _ => rfl⟩

/-- A request that changes nothing. -/
theorem asked (h : Sound r) (hscope : request.operation? = none)
    (hjump : ∀ make, request ≠ .jump make) (hmet : Event.IsMet r.history ⟨request, r.state⟩) :
    Sound (r.asked request) := by
  refine h.next hjump ?_ hmet
  rw [h.scope, Recording.asked, operations_cons, hscope, Option.toList_none, List.append_nil]

/-- An operation on the scope. -/
theorem performed (h : Sound r) (op : Scope.Operation) :
    Sound ⟨{ r.state with scope := op.apply r.state.scope }, (r.asked (.scope op)).history⟩ := by
  refine h.next (fun _ hjump => by cases hjump) ?_ trivial
  rw [h.scope, Recording.asked, operations_cons, Scope.after_append]
  rfl

/-- A jump is emitted behind all others. -/
theorem jumped (h : Sound r) {make : UInt16 → Instruction} (hmake : IsBranch make) :
    Sound ⟨r.state.awaiting make, (r.asked (.jump make)).history⟩ := by
  have hforward : Chunk.IsForward make := by
    rcases hmake with rfl | rfl
    · exact Chunk.isForward_jump
    · exact Chunk.isForward_jumpIfFalse
  have hsize : (r.state.awaiting make).chunk.size = r.state.chunk.size + 3 := by
    rw [State.chunk_awaiting, Chunk.size_extend, hforward.size_jump]
  have hemitted : ∀ o, Emitted (r.asked (.jump make)).history o →
      o = r.state.chunk.size + 1 ∨ Emitted r.history o := by
    intro o ho
    rcases emitted_cons.mp ho with ⟨_, _, rfl⟩ | hbefore
    · exact .inl rfl
    · exact .inr hbefore
  refine ⟨?_, h.scopes.cons h.scope, h.met.cons hmake, ?_, ?_, ?_, h.errors⟩
  · simp only [Recording.asked, operations_cons, Request.operation?, Option.toList_none,
      List.append_nil]
    exact h.scope
  -- all earlier jumps are inside the code, so the new one does not overlap them
  · intro o o' ho ho'
    rcases hemitted o ho with rfl | hbefore <;> rcases hemitted o' ho' with rfl | hbefore'
    · exact .inl rfl
    · have := h.inside o' hbefore'
      omega
    · have := h.inside o hbefore
      omega
    · exact h.apart o o' hbefore hbefore'
  · intro o ho
    rw [hsize]
    rcases hemitted o ho with rfl | hbefore
    · exact Nat.le_refl _
    · have := h.inside o hbefore
      omega
  · intro o ho
    -- the new jump stands at the end as emitted, and the bytes of the others are as they were
    by_cases hnew : o = r.state.chunk.size + 1
    · subst hnew
      refine ⟨List.mem_cons_self .., ⟨.jump make, r.state⟩, List.mem_cons_self .., make, rfl, hmake,
        rfl, ?_⟩
      have hcode : (r.state.awaiting make).chunk.code.toList = r.state.chunk.code.toList ++
          ((make maxDistance.toUInt16).encode ++ []) := by
        simp [Chunk.extend, Lowering.jump, Lowering.bytes]
      exact Chunk.decode_of_toList _ _ hcode
    · have hbefore : Emitted r.history o := (hemitted o ho.1).resolve_left hnew
      have hinside := h.inside o hbefore
      obtain ⟨hopen, hawaits⟩ :=
        h.pending o ⟨hbefore, fun e he => ho.2 e (List.mem_cons_of_mem _ he)⟩
      refine ⟨List.mem_cons_of_mem _ hopen, hawaits.mono (fun _ => List.mem_cons_of_mem _) ?_⟩
      intro k _ hk
      exact getElem?_extend_of_lt r.state.chunk _ (by omega)

/-- A pending jump can be completed. -/
theorem fillsIn (h : Sound r) {o : Nat} (ho : Pending r.history o) :
    FillsIn r.history r.state o := by
  obtain ⟨hopen, hawaits⟩ := h.pending o ho
  have hinside := h.inside o ho.1
  have hpatch := patchJump_of_open hopen
  rw [if_pos hinside] at hpatch
  refine ⟨hinside, hawaits, ho.2, fun hnear => ?_, fun hfar => ?_⟩
  -- the distance fits into two bytes
  · rw [if_pos (show _ ≤ maxDistance from hnear)] at hpatch
    refine ⟨_, _, hpatch, ?_, Chunk.readWord?_patchWord hinside _, Chunk.size_patchWord .., ?_⟩
    · rw [toNat_toUInt16 hnear]
      omega
    · intro k hhigh hlow
      exact Chunk.getElem?_patchWord_of_ne _ _ hhigh hlow
  · rwa [if_neg (show ¬ _ ≤ maxDistance from Nat.not_le.mpr hfar)] at hpatch

/-- When a jump is completed, all others that are pending stand as they did. -/
theorem patched (h : Sound r) {o : Nat} (ho : Pending r.history o) (word : UInt16) :
    Sound
      ⟨{ r.state with
          chunk := r.state.chunk.patchWord o word
          openJumps := r.state.openJumps.erase o },
        (r.asked (.patch o)).history⟩ := by
  have hasked : Sound (r.asked (.patch o)) :=
    h.asked rfl (fun _ hjump => by cases hjump) (h.fillsIn ho)
  refine ⟨hasked.scope, hasked.scopes, hasked.met, hasked.apart, ?_, ?_, h.errors⟩
  · intro o' ho'
    rw [Chunk.size_patchWord]
    exact hasked.inside o' ho'
  · intro o' ho'
    -- a jump that is still pending is another one, so its operand does not overlap the one that is
    -- filled in
    have hne : o' ≠ o := by
      rintro rfl
      exact ho'.2 _ (List.mem_cons_self ..) rfl
    obtain ⟨hopen, hawaits⟩ := hasked.pending o' ho'
    have hemitted : Emitted (r.asked (.patch o)).history o := emitted_cons.mpr (.inr ho.1)
    have hapart := hasked.apart o' o ho'.1 hemitted
    refine ⟨(List.mem_erase_of_ne hne).mpr hopen, hawaits.mono (fun _ he => he) fun k hk hk' => ?_⟩
    exact Chunk.getElem?_patchWord_of_ne _ _ (by omega) (by omega)

end Sound

/-- A jump can lead back to any place in the code. -/
theorem returns_of_le {s : State} {start : Nat} (h : start ≤ s.chunk.size) : Returns s start := by
  have hdistance : s.chunk.size - start + 3 = s.chunk.size + 3 - start := by omega
  have hloop := emitLoop_apply start s h
  rw [hdistance] at hloop
  refine ⟨h, fun hnear => ?_, fun hfar => ?_⟩
  · rw [if_pos (show _ ≤ maxDistance from hnear)] at hloop
    refine ⟨_, _, hloop, ?_, (congrArg Prod.snd (Chunk.emit_eq_extend ..)).symm⟩
    rw [toNat_toUInt16 hnear]
    omega
  · rwa [if_neg (show ¬ _ ≤ maxDistance from Nat.not_le.mpr hfar)] at hloop

/-- A constant can be added anywhere, if only to be reported. -/
theorem adds_constant (s : State) (value : Value) : Adds s value := by
  have hadd := addConstant_apply value s
  refine ⟨fun hroom => ?_, fun hfull => ?_⟩
  · rw [if_pos (show _ < Chunk.maxConstants from hroom)] at hadd
    refine ⟨_, _, hadd, UInt8.toNat_ofNat_of_lt' hroom, ?_⟩
    simp [Chunk.extend, Lowering.pool]
  · rwa [if_neg (show ¬ _ < Chunk.maxConstants from Nat.not_lt.mpr hfull)] at hadd

/-- A slot fits in a byte wherever the operations on the scope have come in order. -/
theorem find?_of_resolve {r : Recording} (h : Sound r) {k : Scope.Stack} (hk : r.stack? = some k)
    {name : String} {slot : UInt8} {l : Local}
    (hresolve : r.state.scope.resolve name = some (slot, l)) :
    Scope.find? name r.state.scope.locals = some (slot.toNat, l) := by
  have hlength := (h.scope ▸ Scope.represents_after hk).length_le
  rw [Scope.resolve, Option.map_eq_some_iff] at hresolve
  obtain ⟨⟨index, l'⟩, hfind, heq⟩ := hresolve
  cases heq
  -- there are no more locals than a byte can count, so no slot is cut off
  have hindex := Scope.find?_lt hfind
  rw [hfind, UInt8.toNat_ofNat_of_lt' (show index < 256 from Nat.lt_of_lt_of_le hindex hlength)]

end Compile

end StackScript
