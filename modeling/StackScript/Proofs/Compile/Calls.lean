import StackScript.Proofs.Compile.Observed
import StackScript.Proofs.Compile.Progress

/-!
# The calls of `declaration`

An observer of the compiler notes the calls of `declaration`, in the order in which they start.
Each of these calls starts at a token of its own and passes it. So there are no more calls than
tokens, and no more errors than calls.

* **`Accounts`**: what the calls of a step say about the step.
* **`Accounted`**: a step for which they do, wherever it starts. Its rules follow the compiler.
-/

namespace StackScript.Compile

/-- Notes the calls of `declaration`. -/
abbrev declarationCalls : Observer Call :=
  .calls (· = .declaration)

/-- The place at which a call starts. -/
abbrev Call.start (c : Call) : Cursor :=
  c.before.cursor

/-- The place at which a call ends. -/
abbrev Call.stop (c : Call) : Cursor :=
  c.after.cursor

/-! ## What the calls account for

Tokens that were passed are counted without ends of a script, since `declaration` is not called at
one. A step is followed from where it starts: the tokens ahead of it there are those among which its
calls are made. -/

/-- A step that passes tokens without recording an error. -/
def Passing (s t : State) : Prop :=
  Forward s t ∧ t.errors = s.errors

instance : Rescoping Passing where
  refl s := ⟨Tolerant.refl s, rfl⟩
  trans hst htu := ⟨Tolerant.trans hst.1 htu.1, htu.2.trans hst.2⟩
  advances s := ⟨Tolerant.advances s, rfl⟩
  emits s _ _ hlines := ⟨Tolerant.emits s _ _ hlines, rfl⟩
  rescopes s _ := ⟨Rescoping.rescopes s _, rfl⟩

/-- What is ahead after a step was already ahead before it. -/
theorem Forward.suffix {s t : State} (h : Forward s t) : t.cursor.ahead <:+ s.cursor.ahead := by
  obtain ⟨count, hcount⟩ := h
  rw [hcount, Cursor.ahead_skip]
  exact List.drop_suffix _ _

/-- How many tokens are not the end of a script. -/
def realTokens (tokens : List Token) : Nat :=
  tokens.countP (·.kind ≠ .eof)

/-- Fewer tokens are ahead further on. -/
theorem realTokens_le {tokens tokens' : List Token} (h : tokens <:+ tokens') :
    realTokens tokens ≤ realTokens tokens' :=
  h.sublist.countP_le

/-- The call starts at a token that is not the end of a script, and passes it. -/
def Call.Proper (c : Call) : Prop :=
  ∃ token rest, c.start.ahead = token :: rest ∧ token.kind ≠ .eof ∧ c.stop.ahead <:+ rest

/-- What a step has done that started in the state `s` and made its calls among the tokens
`ahead`. -/
structure Accounts {α : Type} (ahead : List Token) (s : State)
    (result : EStateM.Result Error State α × List Call) : Prop where
  suffix : (endState result.1).cursor.ahead <:+ ahead
  /-- The calls start among the tokens that were passed. -/
  proper : ∀ c ∈ result.2, c.Proper ∧ c.start.ahead <:+ ahead ∧
    (endState result.1).cursor.ahead.length < c.start.ahead.length
  /-- No two calls start at the same token. -/
  ordered : result.2.Pairwise fun c d => d.start.ahead.length < c.start.ahead.length
  tokens : result.2.length + realTokens (endState result.1).cursor.ahead ≤ realTokens ahead
  errors : (endState result.1).errors.size ≤ s.errors.size + result.2.length

/-- Wherever the step starts, its calls account for what it does. -/
abbrev Accounted {α : Type} (x : Noted Call α) : Prop :=
  ∀ s, Accounts s.cursor.ahead s (x s)

section Accounts

open Noted (lift call)

variable {α β : Type} {ahead : List Token} {s : State}

/-- More tokens may be counted than those among which the calls were made. -/
theorem Accounts.mono {result : EStateM.Result Error State α × List Call}
    (h : Accounts ahead s result) {ahead' : List Token} (hsuffix : ahead <:+ ahead') :
    Accounts ahead' s result where
  suffix := h.suffix.trans hsuffix
  proper c hc := ⟨(h.proper c hc).1, (h.proper c hc).2.1.trans hsuffix, (h.proper c hc).2.2⟩
  ordered := h.ordered
  tokens := Nat.le_trans h.tokens (realTokens_le hsuffix)
  errors := h.errors

/-- A step that makes no calls and ends among some tokens. -/
theorem accounts_of_suffix {x : CompileM α} (h : Respects Passing x)
    (hsuffix : (endState (x s)).cursor.ahead <:+ ahead) : Accounts ahead s (lift x s) := by
  refine ⟨hsuffix, ?_, List.Pairwise.nil, ?_, ?_⟩
  · intro c hc
    exact absurd hc List.not_mem_nil
  · show 0 + realTokens (endState (x s)).cursor.ahead ≤ _
    rw [Nat.zero_add]
    exact realTokens_le hsuffix
  · show (endState (x s)).errors.size ≤ s.errors.size + 0
    rw [(h s).2]
    exact Nat.le_refl _

/-- A step that makes no calls. -/
theorem accounted_lift {x : CompileM α} (h : Respects Passing x) : Accounted (lift x) := by
  intro s
  exact accounts_of_suffix h (h s).1.suffix

/-- Nothing is noted about a step that only makes requests. -/
theorem accounted_requests {x : Noted Call α} {y : CompileM α}
    (h : (∀ request s, ∀ c ∈ declarationCalls.onRequest request s, False) → Silent x y)
    (hy : Respects Passing y) : Accounted x := by
  have hx : x = lift y := (h (not_mem_onRequest _)).eq_lift
  rw [hx]
  exact accounted_lift hy

/-- One step after the other: the calls of the second start after those of the first. -/
theorem Accounts.bind {x : Noted Call α} {f : α → Noted Call β} (hx : Accounts ahead s (x s))
    (hf : ∀ a, Accounted (f a)) : Accounts ahead s ((x >>= f) s) := by
  cases h : x s with
  | mk result calls =>
    rw [h] at hx
    cases result with
    | error e t =>
      rw [Noted.bind_of_error h]
      exact ⟨hx.suffix, hx.proper, hx.ordered, hx.tokens, hx.errors⟩
    | ok a t =>
      have hrest := hf a t
      -- every call of the first step starts before the place where the second one begins
      have hbefore : ∀ c ∈ calls, t.cursor.ahead.length < c.start.ahead.length :=
        fun c hc => (hx.proper c hc).2.2
      rw [Noted.bind_of_ok h]
      refine ⟨hrest.suffix.trans hx.suffix, ?_, ?_, ?_, ?_⟩
      · intro c hc
        rcases List.mem_append.mp hc with hc | hc
        · obtain ⟨hproper, hsuffix, hlength⟩ := hx.proper c hc
          exact ⟨hproper, hsuffix, Nat.lt_of_le_of_lt hrest.suffix.length_le hlength⟩
        · obtain ⟨hproper, hsuffix, hlength⟩ := hrest.proper c hc
          exact ⟨hproper, hsuffix.trans hx.suffix, hlength⟩
      · refine List.pairwise_append.mpr ⟨hx.ordered, hrest.ordered, ?_⟩
        intro c hc d hd
        exact Nat.lt_of_le_of_lt (hrest.proper d hd).2.1.length_le (hbefore c hc)
      · have hfirst : calls.length + realTokens t.cursor.ahead ≤ realTokens ahead := hx.tokens
        have hsecond := hrest.tokens
        show (calls ++ (f a t).2).length + realTokens (endState (f a t).1).cursor.ahead ≤ _
        rw [List.length_append]
        omega
      · have hfirst : t.errors.size ≤ s.errors.size + calls.length := hx.errors
        have hsecond := hrest.errors
        show (endState (f a t).1).errors.size ≤ s.errors.size + (calls ++ (f a t).2).length
        rw [List.length_append]
        omega

theorem Accounted.bind {x : Noted Call α} {f : α → Noted Call β} (hx : Accounted x)
    (hf : ∀ a, Accounted (f a)) : Accounted (x >>= f) := by
  intro s
  exact (hx s).bind hf

/-- A step that passes a token first makes its calls among the tokens after it. -/
theorem accounts_advance {f : Unit → Noted Call β} (hf : ∀ a, Accounted (f a)) (s : State) :
    Accounts s.cursor.ahead.tail s ((lift advance >>= f) s) := by
  have hfirst : Accounts s.cursor.ahead.tail s (lift advance s) :=
    accounts_of_suffix respects_advance (List.suffix_refl _)
  exact hfirst.bind hf

theorem accounted_ite {c : Prop} [Decidable c] {x y : Noted Call α} (hx : Accounted x)
    (hy : Accounted y) : Accounted (if c then x else y) := by
  split
  · exact hx
  · exact hy

/-- A failure that is held back keeps its calls. -/
theorem accounted_attempt {x : Noted Call Unit} (hx : Accounted x) :
    Accounted (Noted.attempt x) := by
  intro s
  have hstep := hx s
  unfold Noted.attempt
  cases h : x s with
  | mk result calls =>
    rw [h] at hstep
    cases result <;> exact ⟨hstep.suffix, hstep.proper, hstep.ordered, hstep.tokens, hstep.errors⟩

/-! ### Statements

What a statement does around its body makes no calls, so only the calls of the body count. -/

section Bodies

theorem accounted_emit (i : Instruction) : Accounted (lift (emit i)) :=
  accounted_lift (respects_emit i)

theorem accounted_emitJump (make : UInt16 → Instruction) :
    Accounted (Observed.emitJump declarationCalls make) :=
  accounted_requests (fun h => erases_emitJump h make) (respects_emitJump make)

theorem accounted_patchJump (operand : Nat) :
    Accounted (Observed.patchJump declarationCalls operand) :=
  accounted_requests (fun h => erases_patchJump h operand) (respects_patchJump operand)

theorem accounted_emitLoop (start : Nat) :
    Accounted (Observed.emitLoop declarationCalls start) :=
  accounted_requests (fun h => erases_emitLoop h start) (respects_emitLoop start)

theorem accounted_condition (bound : Nat) (what : Expectation) :
    Accounted (Observed.condition declarationCalls bound what) :=
  accounted_requests (fun h => erases_condition h bound what) (respects_condition bound what)

variable {x : Noted Call Unit} (h : Accounted x)

include h

/-- The block is closed without passing a token. -/
theorem accounted_inBlock : Accounted (Observed.inBlock declarationCalls x) := by
  have hopen : Accounted (Observed.perform declarationCalls .beginBlock) :=
    accounted_requests (fun h => erases_perform h .beginBlock)
      (respects_modify fun s => Rescoping.rescopes s _)
  apply hopen.bind
  intro _
  apply (accounted_attempt h).bind
  intro outcome
  have hclose : Accounted (Observed.closeBlock declarationCalls) :=
    accounted_requests erases_closeBlock respects_closeBlock
  apply hclose.bind
  intro _
  exact accounted_lift (respects_settle outcome)

theorem accounted_ifStatement (bound : Nat) :
    Accounted (Observed.ifStatement declarationCalls bound x) := by
  apply (accounted_condition bound _).bind
  intro _
  apply (accounted_emitJump _).bind
  intro otherwise
  apply (accounted_emit _).bind
  intro _
  apply h.bind
  intro _
  apply (accounted_emitJump _).bind
  intro done
  apply (accounted_patchJump otherwise).bind
  intro _
  apply (accounted_emit _).bind
  intro _
  apply (accounted_lift (respects_accept _)).bind
  intro hasElse
  exact accounted_ite (h.bind fun _ => accounted_patchJump done) (accounted_patchJump done)

theorem accounted_whileStatement (bound : Nat) :
    Accounted (Observed.whileStatement declarationCalls bound x) := by
  apply (accounted_lift respects_codeSize).bind
  intro start
  apply (accounted_condition bound _).bind
  intro _
  apply (accounted_emitJump _).bind
  intro done
  apply (accounted_emit _).bind
  intro _
  apply h.bind
  intro _
  apply (accounted_emitLoop start).bind
  intro _
  apply (accounted_patchJump done).bind
  intro _
  exact accounted_emit _

/-- The body is compiled after the three clauses. -/
theorem accounted_forStatement (bound : Nat) :
    Accounted (Observed.forStatement declarationCalls bound x) := by
  -- the clauses call neither declarations nor statements, so they have nothing to account for
  have hinitializer : Accounted (Observed.forInitializer declarationCalls bound) :=
    accounted_requests (fun h => erases_forInitializer h (not_mem_onCall rfl) bound)
      (respects_forInitializer bound)
  have hcondition : Accounted (Observed.forCondition declarationCalls bound) :=
    accounted_requests (fun h => erases_forCondition h bound) (respects_forCondition bound)
  have hincrement : ∀ start, Accounted (Observed.forIncrement declarationCalls bound start) :=
    fun start => accounted_requests (fun h => erases_forIncrement h bound start)
      (respects_forIncrement bound start)
  have hend : ∀ leave, Accounted (Observed.loopEnd declarationCalls leave) := fun leave =>
    accounted_requests (fun h => erases_loopEnd h leave) (respects_loopEnd leave)
  apply (accounted_lift (respects_expect _ _)).bind
  intro _
  apply hinitializer.bind
  intro _
  apply (accounted_lift respects_codeSize).bind
  intro start
  apply hcondition.bind
  intro leave
  apply (hincrement start).bind
  intro continueAt
  apply h.bind
  intro _
  apply (accounted_emitLoop continueAt).bind
  intro _
  exact hend leave

end Bodies

/-! ### Declarations

A call is noted where it starts, so it comes before the calls that it makes itself. It accounts for
its first token and for one error. -/

/-- A step whose failure is recorded may add an error that none of its calls has recorded. -/
theorem recovering_accounts {x : Noted Call Unit} (h : Accounts ahead s (x s)) :
    ∃ t calls, Observed.recovering x s = (.ok () t, calls) ∧ t.cursor.ahead <:+ ahead ∧
      (∀ c ∈ calls, c.Proper ∧ c.start.ahead <:+ ahead ∧
        t.cursor.ahead.length < c.start.ahead.length) ∧
      (calls.Pairwise fun c d => d.start.ahead.length < c.start.ahead.length) ∧
      calls.length + realTokens t.cursor.ahead ≤ realTokens ahead ∧
      t.errors.size ≤ s.errors.size + calls.length + 1 := by
  obtain ⟨u, hsuffix, herrors, hrun⟩ : ∃ u : State,
      u.cursor.ahead <:+ (endState (x s).1).cursor.ahead ∧
      u.errors.size ≤ (endState (x s).1).errors.size + 1 ∧
      Observed.recovering x s = (.ok () u, (x s).2 ++ []) := by
    show ∃ u : State, _ ∧ _ ∧ Noted.bind (Noted.attempt x) _ s = _
    unfold Noted.bind Noted.attempt
    cases hx : x s with
    | mk result calls =>
      cases result with
      | ok _ t => exact ⟨t, List.suffix_refl _, Nat.le_succ _, rfl⟩
      | error e t =>
        -- recovery moves forward, or not at all
        have hsync : Forward t { t with cursor := t.cursor.synchronize } :=
          t.cursor.exists_skip_synchronize
        refine ⟨{ t with errors := t.errors.push e, cursor := t.cursor.synchronize },
          hsync.suffix, ?_, rfl⟩
        show (t.errors.push e).size ≤ t.errors.size + 1
        rw [Array.size_push]
  rw [List.append_nil] at hrun
  refine ⟨u, (x s).2, hrun, hsuffix.trans h.suffix, ?_, h.ordered, ?_, ?_⟩
  · intro c hc
    obtain ⟨hproper, hstart, hlength⟩ := h.proper c hc
    exact ⟨hproper, hstart, Nat.lt_of_le_of_lt hsuffix.length_le hlength⟩
  · have htokens := h.tokens
    have hless := realTokens_le hsuffix
    omega
  · have hadded := h.errors
    omega

section Declarations

variable {x : Noted Call Unit} (h : ∀ s, Accounts s.cursor.ahead.tail s (x s))

include h

/-- A call accounts for the token at which it starts and for the error that it may record. -/
theorem accounts_declaration (bound : Nat) {token : Token} {rest : List Token}
    (hahead : s.cursor.ahead = token :: rest) (hkind : token.kind ≠ .eof) :
    Accounts s.cursor.ahead s (Observed.declaration declarationCalls bound x s) := by
  -- the calls that it makes itself start at later tokens
  have hstep : Accounts rest s ((do
      if ← accept .varKw then
        Observed.variableDeclaration declarationCalls bound
      else
        x : Noted Call Unit) s) := by
    have htail : s.cursor.ahead.tail = rest := by rw [hahead]; rfl
    have haccept := accept_apply .varKw s
    rw [← htail]
    split at haccept
    · have hvariable : Accounted (Observed.variableDeclaration declarationCalls bound) :=
        accounted_requests (fun h => erases_variableDeclaration h (not_mem_onCall rfl) bound)
          (respects_variableDeclaration bound)
      have hpassed := accounts_advance (fun _ => hvariable) s
      rw [Noted.lift_bind_of_ok (advance_apply s)] at hpassed
      exact (Noted.lift_bind_of_ok haccept).symm ▸ hpassed
    · exact (Noted.lift_bind_of_ok haccept).symm ▸ h s
  obtain ⟨t, calls, hrun, hstop, hproper, hordered, htokens, herrors⟩ := recovering_accounts hstep
  have hdeclaration : Observed.declaration declarationCalls bound x s =
      (.ok () t, ⟨.declaration, s, t⟩ :: calls) := by
    unfold Observed.declaration call
    rw [hrun]
    rfl
  rw [hdeclaration, hahead]
  refine ⟨hstop.trans (List.suffix_cons _ _), ?_, ?_, ?_, ?_⟩
  · intro c hc
    rcases List.mem_cons.mp hc with rfl | hc
    · refine ⟨⟨token, rest, hahead, hkind, hstop⟩, ?_, ?_⟩
      · rw [hahead]
      · rw [hahead]
        exact Nat.lt_succ_of_le hstop.length_le
    · obtain ⟨hcall, hstart, hlength⟩ := hproper c hc
      exact ⟨hcall, hstart.trans (List.suffix_cons _ _), hlength⟩
  · refine List.Pairwise.cons (fun c hc => ?_) hordered
    rw [hahead]
    exact Nat.lt_succ_of_le (hproper c hc).2.1.length_le
  · have hreal : realTokens (token :: rest) = realTokens rest + 1 := by simp [realTokens, hkind]
    show calls.length + 1 + realTokens t.cursor.ahead ≤ _
    omega
  · show t.errors.size ≤ s.errors.size + (calls.length + 1)
    omega

/-- The loop over declarations calls none of them at the end of a script. -/
theorem accounted_declarations (bound : Nat) {stop : Kind → Bool} (heof : stop .eof = true)
    (count : Nat) :
    Accounted (Observed.repeatUntil stop (Observed.declaration declarationCalls bound x)
      count) := by
  intro s
  induction count generalizing s with
  | zero => exact accounted_lift (respects_pure ()) s
  | succ count ih =>
    have hround : Observed.repeatUntil stop (Observed.declaration declarationCalls bound x)
          (count + 1) s =
        (if stop s.cursor.current.kind then lift (pure ()) else
          Observed.declaration declarationCalls bound x >>= fun _ =>
            Observed.repeatUntil stop (Observed.declaration declarationCalls bound x) count :
          Noted Call Unit) s :=
      Noted.lift_bind_of_ok (current_apply s)
    rw [hround, current_kind]
    split
    · exact accounted_lift (respects_pure ()) s
    · rename_i hgo
      -- the loop goes on only at a token that is not the end, and so each call has one to start at
      cases hahead : s.cursor.ahead with
      | nil =>
        rw [hahead] at hgo
        exact absurd heof hgo
      | cons token rest =>
        have hkind : token.kind ≠ .eof := by
          intro heq
          rw [hahead, nextKind_cons, heq] at hgo
          exact hgo heof
        rw [← hahead]
        apply (accounts_declaration h bound hahead hkind).bind
        intro _
        exact ih

theorem accounted_block (bound : Nat) :
    Accounted (Observed.block declarationCalls bound x) := by
  apply (accounted_declarations h bound rfl bound).bind
  intro _
  exact accounted_lift (respects_expect _ _)

end Declarations

/-- Calls of `statement` are not noted. -/
theorem call_statement (x : Noted Call Unit) : call declarationCalls .statement x = x :=
  rfl

/-- An expression statement makes no calls, and it passes a token. -/
theorem accounts_expressionStatement (bound : Nat) (s : State) :
    Accounts s.cursor.ahead.tail s (Observed.expressionStatement declarationCalls bound s) := by
  have hsilent : Observed.expressionStatement declarationCalls bound =
      lift (expressionStatement bound) :=
    Silent.eq_lift (erases_expressionStatement (not_mem_onRequest _) bound)
  rw [hsilent]
  apply accounts_of_suffix (respects_expressionStatement bound)
  obtain ⟨count, hcount⟩ := consumes_expressionStatement bound s
  rw [hcount, Cursor.ahead_skip, Nat.add_comm, ← List.drop_drop, List.drop_one]
  exact List.drop_suffix _ _

/-- A statement makes its calls after its first token. -/
theorem accounts_statement (bound : Nat) (s : State) :
    Accounts s.cursor.ahead.tail s (Observed.statement declarationCalls bound s) := by
  induction bound generalizing s with
  | zero =>
    unfold Observed.statement
    rw [call_statement]
    exact accounts_expressionStatement 0 s
  | succ bound ih =>
    have hbody : Accounted (Observed.statement declarationCalls bound) := fun s =>
      (ih s).mono (List.tail_suffix _)
    have hprint : Accounted (Observed.printStatement declarationCalls bound) :=
      accounted_requests (fun h => erases_printStatement h bound) (respects_printStatement bound)
    unfold Observed.statement
    rw [call_statement]
    show Accounts s.cursor.ahead.tail s ((lift current >>= _) s)
    rw [Noted.lift_bind_of_ok (current_apply s)]
    -- the token that tells which statement it is is passed before any call
    cases s.cursor.current.kind
    case printKw => exact accounts_advance (fun _ => hprint) s
    case forKw =>
      exact accounts_advance (fun _ => accounted_inBlock (accounted_forStatement hbody bound)) s
    case ifKw => exact accounts_advance (fun _ => accounted_ifStatement hbody bound) s
    case whileKw => exact accounts_advance (fun _ => accounted_whileStatement hbody bound) s
    case leftBrace =>
      exact accounts_advance (fun _ => accounted_inBlock (accounted_block ih bound)) s
    all_goals exact accounts_expressionStatement (bound + 1) s

theorem accounted_program (bound : Nat) : Accounted (Observed.program declarationCalls bound) := by
  apply (accounted_declarations (accounts_statement bound) bound rfl bound).bind
  intro _
  apply (accounted_lift respects_advance).bind
  intro _
  exact accounted_emit _

/-- The calls are made one after the other at tokens further and further on. -/
theorem Accounts.exists_starts {result : EStateM.Result Error State α × List Call}
    (h : Accounts ahead s result) :
    ∃ starts : List Nat, starts.Pairwise (· < ·) ∧
      List.Forall₂ (fun call i => (∃ token, ahead[i]? = some token ∧ token.kind ≠ .eof) ∧
        call.start.ahead = ahead.drop i ∧ ∃ j > i, call.stop.ahead = ahead.drop j)
        result.2 starts := by
  -- the index of a token is told by how many tokens are ahead of it
  refine ⟨result.2.map fun c => ahead.length - c.start.ahead.length, ?_, ?_⟩
  · rw [List.pairwise_map]
    refine h.ordered.imp_of_mem fun {c d} hc _ hless => ?_
    have hle := (h.proper c hc).2.1.length_le
    omega
  · rw [List.forall₂_map_right_iff, List.forall₂_same]
    intro c hc
    obtain ⟨⟨token, rest, hstart, hkind, hstop⟩, hsuffix, -⟩ := h.proper c hc
    have hdrop := List.suffix_iff_eq_drop.mp hsuffix
    have hrest : rest <:+ ahead := by
      rw [hstart] at hsuffix
      exact (List.suffix_cons token rest).trans hsuffix
    have hstopLength := hstop.length_le
    have hstartLength := hsuffix.length_le
    refine ⟨⟨token, ?_, hkind⟩, hdrop, ahead.length - c.stop.ahead.length, ?_, ?_⟩
    · rw [← List.head?_drop, ← hdrop, hstart]
      rfl
    · rw [hstart, List.length_cons] at hstartLength ⊢
      omega
    · exact List.suffix_iff_eq_drop.mp (hstop.trans hrest)

end Accounts

end StackScript.Compile
