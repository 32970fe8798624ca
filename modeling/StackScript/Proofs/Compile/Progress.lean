import Mathlib.Logic.Function.Iterate
import StackScript.Proofs.Compile.ScriptCode

/-!
# The compiler moves on

Whatever the tokens are, the cursor only moves forward, and wherever a statement can start the
compiler passes at least one token. So the bounds with which its recursions count down are never
reached: with any larger bounds it does the same.

* **`Forward`**: no step goes back.
* **`Consumes`**: a step passes at least one token.
* **`SameUpTo`**: two steps do the same unless too many tokens are ahead. This is how a bound is
  exchanged for another.
-/

namespace StackScript.Compile

/-! ## Going forward

A cursor is moved by passing tokens, one after the other. So where it is can be told by how many
tokens have been passed. -/

namespace Cursor

/-- The cursor when some more tokens are passed. -/
def skip (c : Cursor) (count : Nat) : Cursor :=
  advance^[count] c

@[simp] theorem skip_zero (c : Cursor) : c.skip 0 = c := rfl

/-- Tokens are passed in two portions. -/
theorem skip_skip (c : Cursor) (first second : Nat) :
    (c.skip first).skip second = c.skip (first + second) := by
  unfold skip
  rw [Nat.add_comm, Function.iterate_add_apply]

theorem advance_skip (c : Cursor) (count : Nat) : (c.skip count).advance = c.skip (count + 1) :=
  skip_skip c count 1

/-- What is ahead is what is left when the tokens are passed. -/
theorem ahead_skip (c : Cursor) (count : Nat) : (c.skip count).ahead = c.ahead.drop count := by
  induction count generalizing c with
  | zero => rfl
  | succ count ih =>
    show (c.advance.skip count).ahead = _
    rw [ih]
    show c.ahead.tail.drop count = _
    rw [← List.drop_one, List.drop_drop, Nat.add_comm]

/-- The token that is next when some tokens are passed. -/
def nth (c : Cursor) (count : Nat) : Token :=
  (c.skip count).current

/-- The token passed last is the one that was next before it. -/
theorem previous_skip_succ (c : Cursor) (count : Nat) :
    (c.skip (count + 1)).previous = c.nth count := by
  rw [← advance_skip]
  rfl

/-- The tokens after some are counted from there. -/
theorem nth_skip (c : Cursor) (first second : Nat) :
    (c.skip first).nth second = c.nth (first + second) := by
  unfold nth
  rw [skip_skip]

/-- Looking for the next statement means passing tokens. -/
theorem exists_skip_synchronize (c : Cursor) : ∃ count, c.synchronize = c.skip count := by
  obtain ⟨previous, ahead⟩ := c
  show ∃ count, skipToStatement previous ahead = _
  induction ahead generalizing previous with
  | nil => exact ⟨0, rfl⟩
  | cons token rest ih =>
    rw [skipToStatement]
    split
    · exact ⟨0, rfl⟩
    · obtain ⟨count, hcount⟩ := ih token
      refine ⟨count + 1, ?_⟩
      rw [hcount]
      rfl

end Cursor

/-- The second state is reached by passing tokens. -/
def Forward (s t : State) : Prop :=
  ∃ count, t.cursor = s.cursor.skip count

instance : Oblivious Forward where
  refl _ := ⟨0, rfl⟩
  trans := by
    rintro s t u ⟨first, hfirst⟩ ⟨second, hsecond⟩
    exact ⟨first + second, by rw [hsecond, hfirst, Cursor.skip_skip]⟩
  advances _ := ⟨1, rfl⟩
  synchronizes s := s.cursor.exists_skip_synchronize
  emits _ _ _ _ := ⟨0, rfl⟩
  records _ _ := ⟨0, rfl⟩
  rescopes _ _ := ⟨0, rfl⟩

/-- A step does not leave more tokens ahead than there were. -/
theorem Forward.length_le {s t : State} (h : Forward s t) :
    t.cursor.ahead.length ≤ s.cursor.ahead.length := by
  obtain ⟨count, hcount⟩ := h
  rw [hcount, Cursor.ahead_skip, List.length_drop]
  omega

/-- A step passes at least one token, whether it succeeds or fails. At the end of the tokens this
is the end of the script. -/
def Consumes {α : Type} (x : CompileM α) : Prop :=
  ∀ s, ∃ count, (endState (x s)).cursor = s.cursor.skip (count + 1)

section Consumes

variable {α β : Type}

/-- If a token is ahead, a step that passes one leaves fewer. -/
theorem Consumes.length_lt {x : CompileM α} (h : Consumes x) {s : State}
    (hs : s.cursor.ahead ≠ []) :
    (endState (x s)).cursor.ahead.length < s.cursor.ahead.length := by
  obtain ⟨count, hcount⟩ := h s
  have hpos := List.length_pos_iff.mpr hs
  rw [hcount, Cursor.ahead_skip, List.length_drop]
  omega

/-- A step that passes a token, and then one that goes forward. -/
theorem exists_skip_of_forward {s t u : State} (h : ∃ count, t.cursor = s.cursor.skip (count + 1))
    (hforward : Forward t u) : ∃ count, u.cursor = s.cursor.skip (count + 1) := by
  obtain ⟨first, hfirst⟩ := h
  obtain ⟨second, hsecond⟩ := hforward
  refine ⟨first + second, ?_⟩
  rw [hsecond, hfirst, Cursor.skip_skip, Nat.add_right_comm]

/-- It is enough that the first of several steps passes a token. -/
theorem consumes_bind {x : CompileM α} {f : α → CompileM β} (hx : Consumes x)
    (hf : ∀ a, Respects Forward (f a)) : Consumes (x >>= f) := by
  intro s
  have hfirst := hx s
  cases h : x s with
  | ok a t =>
    rw [h] at hfirst
    rw [bind_of_ok h]
    exact exists_skip_of_forward hfirst (hf a t)
  | error e t =>
    rw [h] at hfirst
    rw [bind_of_error h]
    exact hfirst

theorem consumes_advance : Consumes advance := fun _ => ⟨0, rfl⟩

/-- The check for an assignment passes at most the equals sign. -/
theorem respects_noAssignment {R : State → State → Prop} [Tolerant R]
    (precedence : Precedence) : Respects R (noAssignment precedence) := by
  refine respects_ite ?_ (respects_pure _)
  apply respects_bind (respects_accept _)
  intro assigns
  exact respects_ite (respects_failAtPrevious _) (respects_pure _)

/-- What starts an expression passes the first token before it looks at it. -/
theorem consumes_first {operand : Precedence → CompileM Unit}
    (h : ∀ p, Respects Forward (operand p)) (precedence : Precedence) :
    Consumes (first operand precedence) := by
  apply consumes_bind consumes_advance
  intro _
  refine respects_bind respects_previous fun token => ?_
  split
  · exact respects_failAtPrevious _
  · exact respects_prefixForm h _ _

/-- Also where the bound is reached an expression passes a token before it fails. -/
theorem consumes_expressionAt (bound : Nat) (precedence : Precedence) :
    Consumes (expressionAt bound precedence) := by
  cases bound with
  | zero => exact consumes_bind consumes_advance fun _ => respects_failAtPrevious _
  | succ bound =>
    have hoperand : ∀ p, Respects Forward (expressionAt bound p) := respects_expressionAt bound
    rw [expressionAt_succ]
    refine consumes_bind ?_ fun _ => respects_noAssignment precedence
    apply consumes_bind (consumes_first hoperand precedence)
    intro _
    exact respects_infixForms hoperand _ _

/-- An expression statement passes the first token of its expression. -/
theorem consumes_expressionStatement (bound : Nat) : Consumes (expressionStatement bound) := by
  apply consumes_bind (consumes_expressionAt bound _)
  intro _
  apply respects_bind (respects_expect _ _)
  intro _
  exact respects_emit _

/-- A statement starts with a keyword or with an expression. -/
theorem consumes_statement (bound : Nat) : Consumes (statement bound) := by
  cases bound with
  | zero => exact consumes_expressionStatement 0
  | succ bound =>
    have hbody : Respects Forward (statement bound) := respects_statement bound
    intro s
    rw [statement_apply]
    cases nextKind s.cursor.ahead
    case printKw => exact consumes_bind consumes_advance (fun _ => respects_printStatement bound) s
    case forKw =>
      exact consumes_bind consumes_advance
        (fun _ => respects_inBlock (respects_forStatement bound hbody)) s
    case ifKw =>
      exact consumes_bind consumes_advance (fun _ => respects_ifStatement bound hbody) s
    case whileKw =>
      exact consumes_bind consumes_advance (fun _ => respects_whileStatement bound hbody) s
    case leftBrace =>
      exact consumes_bind consumes_advance
        (fun _ => respects_inBlock (respects_block bound hbody)) s
    -- any other statement starts with an expression
    all_goals exact consumes_expressionStatement (bound + 1) s

/-- A recovering step passes what the step passes, and what it skips after a failure. -/
theorem consumes_recovering {step : CompileM Unit} (h : Consumes step) :
    Consumes (recovering step) := by
  have hattempt : Consumes (attempt step) := by
    intro s
    have hstep := h s
    cases hrun : step s with
    | ok _ t =>
      rw [attempt_of_ok hrun]
      rwa [hrun] at hstep
    | error e t =>
      rw [attempt_of_error hrun]
      rwa [hrun] at hstep
  refine consumes_bind hattempt fun outcome => ?_
  cases outcome with
  | none => exact respects_pure ()
  | some e => exact respects_modify fun s => s.cursor.exists_skip_synchronize

/-- **Progress.** A declaration passes at least one token. -/
theorem consumes_declaration {step : CompileM Unit} (bound : Nat) (h : Consumes step) :
    Consumes (declaration bound step) := by
  refine consumes_recovering fun s => ?_
  have haccept := accept_apply .varKw s
  split at haccept
  · rw [bind_of_ok haccept]
    have hrest : Respects Forward (variableDeclaration bound) := respects_variableDeclaration bound
    exact exists_skip_of_forward (consumes_advance s) (hrest _)
  · rw [bind_of_ok haccept]
    exact h s

end Consumes

/-! ## Bounds

The recursions of the compiler count down from the number of tokens. Two bounds are compared by how
many tokens are ahead: each recursive call is made with fewer of them. -/

/-- Two steps do the same as long as at most `n` tokens are ahead. -/
def SameUpTo {α : Type} (n : Nat) (x y : CompileM α) : Prop :=
  ∀ s, s.cursor.ahead.length ≤ n → x s = y s

section SameUpTo

variable {α β : Type} {n : Nat} {x y : CompileM α} {f g : α → CompileM β}

/-- A step is the same as itself. -/
theorem sameUpTo_refl (x : CompileM α) : SameUpTo n x x := fun _ _ => rfl

/-- With fewer tokens ahead the steps are the same all the more. -/
theorem SameUpTo.mono (h : SameUpTo n x y) {m : Nat} (hle : m ≤ n) : SameUpTo m x y :=
  fun s hs => h s (Nat.le_trans hs hle)

/-- The first step leaves no more tokens than there were. -/
theorem SameUpTo.bind (hx : SameUpTo n x y) (hforward : Respects Forward x)
    (hf : ∀ a, SameUpTo n (f a) (g a)) : SameUpTo n (x >>= f) (y >>= g) := by
  intro s hs
  have hle := (hforward s).length_le
  have hsame := hx s hs
  cases h : x s with
  | ok a t =>
    rw [h] at hle
    rw [bind_of_ok h, bind_of_ok (hsame ▸ h)]
    exact hf a t (Nat.le_trans hle hs)
  | error e t => rw [bind_of_error h, bind_of_error (hsame ▸ h)]

/-- After a step that is the same in both sequences. -/
theorem SameUpTo.after (hforward : Respects Forward x) (hf : ∀ a, SameUpTo n (f a) (g a)) :
    SameUpTo n (x >>= f) (x >>= g) :=
  (sameUpTo_refl x).bind hforward hf

/-- Before a step that is the same in both sequences. -/
theorem SameUpTo.andThen (hx : SameUpTo n x y) (f : α → CompileM β) :
    SameUpTo n (x >>= f) (y >>= f) :=
  fun s hs => bind_apply_congr (hx s hs)

/-- When a token is passed, there is one less ahead. -/
theorem SameUpTo.advance (h : SameUpTo n x y) :
    SameUpTo (n + 1) (advance >>= fun _ => x) (advance >>= fun _ => y) := by
  intro s hs
  refine h _ ?_
  show s.cursor.ahead.tail.length ≤ n
  rw [List.length_tail]
  omega

/-- Two ways to go on, in both sequences under the same condition. -/
theorem SameUpTo.ite {c : Prop} [Decidable c] {x' y' : CompileM α} (h : SameUpTo n x y)
    (h' : SameUpTo n x' y') : SameUpTo n (if c then x else x') (if c then y else y') := by
  split
  · exact h
  · exact h'

/-- Two steps that do the same also fail alike. -/
theorem SameUpTo.attempt {x y : CompileM Unit} (h : SameUpTo n x y) :
    SameUpTo n (attempt x) (attempt y) := by
  intro s hs
  unfold Compile.attempt
  rw [h s hs]

/-! ### Expressions

The operands of a form are recursive calls. They are only compared from assignment upwards, since
nothing binds less and the end of the tokens would not stop a loop over operators. -/

section Operands

variable {operand operand' : Precedence → CompileM Unit}
  (h : ∀ p, .assignment ≤ p → SameUpTo n (operand p) (operand' p))
  (hforward : ∀ p, Respects Forward (operand p))

include h

/-- Only a form with an operand depends on the bound. -/
theorem sameUpTo_prefixForm (canAssign : Bool) (form : PrefixForm) :
    SameUpTo n (prefixForm operand canAssign form) (prefixForm operand' canAssign form) := by
  cases form with
  | grouping => exact (h _ (by decide)).andThen _
  | unary operator => exact (h _ (by decide)).andThen _
  | name =>
    apply SameUpTo.after respects_previous
    intro token
    apply SameUpTo.after (respects_access _)
    intro place
    have hrest : ∀ assigns : Bool, SameUpTo n
        (if assigns then do operand .assignment; emit place.set else emit place.get)
        (if assigns then do operand' .assignment; emit place.set else emit place.get) := by
      intro assigns
      exact ((h _ (by decide)).andThen _).ite (sameUpTo_refl _)
    cases canAssign with
    | true => exact .after (respects_accept _) hrest
    | false => exact hrest false
  | string | number | constant => exact sameUpTo_refl _

/-- What stands right of an operator is compiled in the same way. -/
theorem sameUpTo_infixForm (form : InfixForm) :
    SameUpTo n (infixForm operand form) (infixForm operand' form) := by
  cases form with
  | binary operator => exact (h _ (by cases operator <;> decide)).andThen _
  | and =>
    apply SameUpTo.after (respects_emitJump _)
    intro done
    apply SameUpTo.after (respects_emit _)
    intro _
    exact (h _ (by decide)).andThen _
  | or =>
    apply SameUpTo.after (respects_emitJump _)
    intro otherwise
    apply SameUpTo.after (respects_emitJump _)
    intro done
    apply SameUpTo.after (respects_patchJump otherwise)
    intro _
    apply SameUpTo.after (respects_emit _)
    intro _
    exact (h _ (by decide)).andThen _

include hforward

/-- Each round of the loop passes an operator, and at the end of the tokens there is none. -/
theorem sameUpTo_infixForms {precedence : Precedence} (hprecedence : .assignment ≤ precedence)
    {m count count' : Nat} (hm : m ≤ n) (hcount : m ≤ count) (hcount' : m ≤ count') :
    SameUpTo m (infixForms operand precedence count) (infixForms operand' precedence count') := by
  induction m generalizing count count' with
  | zero =>
    intro s hs
    have hnone : s.cursor.ahead = [] := List.length_eq_zero_iff.mp (Nat.le_zero.mp hs)
    -- the end of a script is no operator
    have hstop : (nextKind s.cursor.ahead).precedence < precedence := by
      rw [hnone]
      cases precedence <;> first | decide | exact absurd hprecedence (by decide)
    rw [infixForms_of_stop _ hstop, infixForms_of_stop _ hstop]
  | succ m ih =>
    obtain ⟨count, rfl⟩ : ∃ c, count = c + 1 := ⟨count - 1, by omega⟩
    obtain ⟨count', rfl⟩ : ∃ c, count' = c + 1 := ⟨count' - 1, by omega⟩
    have hrest := ih (by omega) (Nat.le_of_succ_le_succ hcount) (Nat.le_of_succ_le_succ hcount')
    apply SameUpTo.after respects_current
    intro token
    refine .ite (.advance ?_) (sameUpTo_refl _)
    cases token.kind.infixForm? with
    | none => exact hrest
    | some form =>
      have hform := (sameUpTo_infixForm h form).mono (show m ≤ n by omega)
      apply hform.bind (respects_infixForm hforward form)
      intro _
      exact hrest

end Operands

/-- At the end of the tokens there is no expression, whatever the bound. -/
theorem expressionAt_of_nil {s : State} (h : s.cursor.ahead = []) (bound : Nat)
    (precedence : Precedence) :
    expressionAt bound precedence s =
      .error (.atToken s.cursor.current (.expected .expression))
        { s with cursor := s.cursor.advance } := by
  cases bound with
  | zero => rfl
  | succ bound =>
    have hkind : s.cursor.current.kind = .eof := by
      rw [current_kind, h]
      rfl
    have hfirst : first (expressionAt bound) precedence s =
        .error (.atToken s.cursor.current (.expected .expression))
          { s with cursor := s.cursor.advance } := by
      unfold first
      rw [bind_of_ok (advance_apply s), bind_of_ok (previous_apply _)]
      -- the end of a script starts no expression
      have hform :
          ({ s with cursor := s.cursor.advance } : State).cursor.previous.kind.prefixForm? =
            none := by
        show s.cursor.current.kind.prefixForm? = none
        rw [hkind]
        rfl
      rw [hform]
      rfl
    rw [expressionAt_succ]
    exact bind_of_error (bind_of_error hfirst)

/-- An expression needs no larger bound than the number of tokens ahead. -/
theorem sameUpTo_expressionAt {bound bound' : Nat} (hbound : n ≤ bound) (hbound' : n ≤ bound')
    {precedence : Precedence} (hprecedence : .assignment ≤ precedence) :
    SameUpTo n (expressionAt bound precedence) (expressionAt bound' precedence) := by
  induction n generalizing bound bound' precedence with
  | zero =>
    intro s hs
    -- the induction is on the tokens ahead, not on the bounds
    have hnone : s.cursor.ahead = [] := List.length_eq_zero_iff.mp (Nat.le_zero.mp hs)
    rw [expressionAt_of_nil hnone, expressionAt_of_nil hnone]
  | succ n ih =>
    obtain ⟨bound, rfl⟩ : ∃ b, bound = b + 1 := ⟨bound - 1, by omega⟩
    obtain ⟨bound', rfl⟩ : ∃ b, bound' = b + 1 := ⟨bound' - 1, by omega⟩
    have hn : n ≤ bound := Nat.le_of_succ_le_succ hbound
    have hn' : n ≤ bound' := Nat.le_of_succ_le_succ hbound'
    have hoperand : ∀ p, .assignment ≤ p →
        SameUpTo n (expressionAt bound p) (expressionAt bound' p) := fun p hp => ih hn hn' hp
    have hforward : ∀ p, Respects Forward (expressionAt bound p) := respects_expressionAt bound
    rw [expressionAt, expressionAt]
    -- the first token is passed before anything else, so operands have fewer tokens ahead
    refine .advance (.after respects_previous fun token => ?_)
    cases token.kind.prefixForm? with
    | none => exact sameUpTo_refl _
    | some form =>
      refine (sameUpTo_prefixForm hoperand _ form).bind (respects_prefixForm hforward _ form) ?_
      intro _
      exact (sameUpTo_infixForms hoperand hforward hprecedence (Nat.le_refl n) hn hn').andThen _

/-! ### Statements

A statement depends on its bound through the expressions in it and through its body. -/

section Bounds

variable {bound bound' : Nat} (hbound : n ≤ bound) (hbound' : n ≤ bound')

include hbound hbound'

theorem sameUpTo_expression : SameUpTo n (expression bound) (expression bound') :=
  sameUpTo_expressionAt hbound hbound' (le_refl _)

/-- Only the initial value has a bound. -/
theorem sameUpTo_variableDeclaration :
    SameUpTo n (variableDeclaration bound) (variableDeclaration bound') := by
  have hexpression := sameUpTo_expression hbound hbound'
  have hinitializer : SameUpTo n (initializer bound) (initializer bound') := by
    apply SameUpTo.after (respects_accept _)
    intro given
    exact .ite (hexpression.andThen _) (sameUpTo_refl _)
  apply SameUpTo.after (respects_expect _ _)
  intro _
  apply SameUpTo.after respects_declareVariable
  intro name
  exact hinitializer.attempt.andThen _

theorem sameUpTo_printStatement : SameUpTo n (printStatement bound) (printStatement bound') :=
  (sameUpTo_expression hbound hbound').andThen _

theorem sameUpTo_expressionStatement :
    SameUpTo n (expressionStatement bound) (expressionStatement bound') :=
  (sameUpTo_expression hbound hbound').andThen _

theorem sameUpTo_condition (what : Expectation) :
    SameUpTo n (condition bound what) (condition bound' what) := by
  apply SameUpTo.after (respects_expect _ _)
  intro _
  exact (sameUpTo_expression hbound hbound').andThen _

theorem sameUpTo_forInitializer : SameUpTo n (forInitializer bound) (forInitializer bound') := by
  apply SameUpTo.after (respects_accept _)
  intro missing
  refine .ite (sameUpTo_refl _) ?_
  apply SameUpTo.after (respects_accept _)
  intro declares
  exact .ite (sameUpTo_variableDeclaration hbound hbound')
    (sameUpTo_expressionStatement hbound hbound')

theorem sameUpTo_forCondition : SameUpTo n (forCondition bound) (forCondition bound') := by
  apply SameUpTo.after (respects_accept _)
  intro missing
  exact .ite (sameUpTo_refl _) ((sameUpTo_expression hbound hbound').andThen _)

theorem sameUpTo_forIncrement (start : Nat) :
    SameUpTo n (forIncrement bound start) (forIncrement bound' start) := by
  apply SameUpTo.after (respects_accept _)
  intro missing
  refine .ite (sameUpTo_refl _) ?_
  apply SameUpTo.after (respects_emitJump _)
  intro body
  apply SameUpTo.after respects_codeSize
  intro increment
  exact (sameUpTo_expression hbound hbound').andThen _

section Bodies

variable {body body' : CompileM Unit} (h : SameUpTo n body body')

include h

/-- The second branch has no more tokens ahead than the first. -/
theorem sameUpTo_ifStatement (hbody : Respects Forward body) :
    SameUpTo n (ifStatement bound body) (ifStatement bound' body') := by
  apply (sameUpTo_condition hbound hbound' _).bind (respects_condition _ _)
  intro _
  apply SameUpTo.after (respects_emitJump _)
  intro otherwise
  apply SameUpTo.after (respects_emit _)
  intro _
  apply h.bind hbody
  intro _
  apply SameUpTo.after (respects_emitJump _)
  intro done
  apply SameUpTo.after (respects_patchJump otherwise)
  intro _
  apply SameUpTo.after (respects_emit _)
  intro _
  apply SameUpTo.after (respects_accept _)
  intro hasElse
  exact .ite (h.andThen _) (sameUpTo_refl _)

theorem sameUpTo_whileStatement :
    SameUpTo n (whileStatement bound body) (whileStatement bound' body') := by
  apply SameUpTo.after respects_codeSize
  intro start
  apply (sameUpTo_condition hbound hbound' _).bind (respects_condition _ _)
  intro _
  apply SameUpTo.after (respects_emitJump _)
  intro done
  apply SameUpTo.after (respects_emit _)
  intro _
  exact h.andThen _

theorem sameUpTo_forStatement :
    SameUpTo n (forStatement bound body) (forStatement bound' body') := by
  apply SameUpTo.after (respects_expect _ _)
  intro _
  apply (sameUpTo_forInitializer hbound hbound').bind (respects_forInitializer bound)
  intro _
  apply SameUpTo.after respects_codeSize
  intro start
  apply (sameUpTo_forCondition hbound hbound').bind (respects_forCondition bound)
  intro leave
  apply (sameUpTo_forIncrement hbound hbound' start).bind (respects_forIncrement bound start)
  intro continueAt
  exact h.andThen _

/-- A declaration of a variable, or a statement. -/
theorem sameUpTo_declaration : SameUpTo n (declaration bound body) (declaration bound' body') := by
  have hstep : SameUpTo n (accept .varKw >>= fun isVar =>
      if isVar then variableDeclaration bound else body) (accept .varKw >>= fun isVar =>
        if isVar then variableDeclaration bound' else body') := by
    apply SameUpTo.after (respects_accept _)
    intro isVar
    exact .ite (sameUpTo_variableDeclaration hbound hbound') h
  exact hstep.attempt.andThen _

end Bodies

end Bounds

theorem sameUpTo_inBlock {body body' : CompileM Unit} (h : SameUpTo n body body') :
    SameUpTo n (inBlock body) (inBlock body') := by
  refine .after (respects_modify fun _ => ⟨0, rfl⟩) fun _ => ?_
  exact h.attempt.andThen _

/-- Each round of a loop over statements passes a token, and at the end of the tokens it stops. -/
theorem sameUpTo_repeatUntil {stop : Kind → Bool} (heof : stop .eof = true)
    {step step' : CompileM Unit} (h : SameUpTo n step step') (hconsumes : Consumes step)
    {count count' : Nat} (hcount : n ≤ count) (hcount' : n ≤ count') :
    SameUpTo n (repeatUntil stop step count) (repeatUntil stop step' count') := by
  induction n generalizing count count' with
  | zero =>
    intro s hs
    have hnone : s.cursor.ahead = [] := List.length_eq_zero_iff.mp (Nat.le_zero.mp hs)
    have hstop : stop (nextKind s.cursor.ahead) = true := by rw [hnone]; exact heof
    rw [repeatUntil_of_stop hstop, repeatUntil_of_stop hstop]
  | succ n ih =>
    obtain ⟨count, rfl⟩ : ∃ c, count = c + 1 := ⟨count - 1, by omega⟩
    obtain ⟨count', rfl⟩ : ∃ c, count' = c + 1 := ⟨count' - 1, by omega⟩
    intro s hs
    cases hstop : stop (nextKind s.cursor.ahead) with
    | true => rw [repeatUntil_of_stop hstop, repeatUntil_of_stop hstop]
    | false =>
      -- a round passes a token, which pays for the rounds after it
      have hne : s.cursor.ahead ≠ [] := by
        intro hnone
        rw [hnone] at hstop
        exact absurd (hstop.symm.trans heof) (by decide)
      have hless := hconsumes.length_lt hne
      have hsame := h s hs
      rw [repeatUntil_succ hstop, repeatUntil_succ hstop]
      cases hrun : step s with
      | ok _ t =>
        rw [hrun] at hless
        have hle : t.cursor.ahead.length ≤ n := by
          have : t.cursor.ahead.length < s.cursor.ahead.length := hless
          omega
        rw [bind_of_ok hrun, bind_of_ok (hsame ▸ hrun)]
        exact ih (h.mono (Nat.le_succ n)) (by omega) (by omega) t hle
      | error e t => rw [bind_of_error hrun, bind_of_error (hsame ▸ hrun)]

/-- Each statement in the block passes a token, so neither bound is used up before the tokens are.
-/
theorem sameUpTo_block {bound bound' : Nat} (hbound : n ≤ bound) (hbound' : n ≤ bound')
    {body body' : CompileM Unit} (h : SameUpTo n body body') (hconsumes : Consumes body) :
    SameUpTo n (block bound body) (block bound' body') := by
  have hdeclaration := sameUpTo_declaration hbound hbound' h
  have hpasses := consumes_declaration bound hconsumes
  exact (sameUpTo_repeatUntil rfl hdeclaration hpasses hbound hbound').andThen _

/-- A statement needs no larger bound than the number of tokens ahead. -/
theorem sameUpTo_statement {bound bound' : Nat} (hbound : n ≤ bound) (hbound' : n ≤ bound') :
    SameUpTo n (statement bound) (statement bound') := by
  induction n generalizing bound bound' with
  | zero =>
    -- no keyword is ahead, so the statement can only be an expression
    have hexpression : ∀ bound, SameUpTo 0 (statement bound) (expressionStatement bound) := by
      intro bound s hs
      have hnone : s.cursor.ahead = [] := List.length_eq_zero_iff.mp (Nat.le_zero.mp hs)
      cases bound with
      | zero => rfl
      | succ bound =>
        rw [statement_apply, hnone]
        rfl
    intro s hs
    rw [hexpression bound s hs, hexpression bound' s hs]
    exact sameUpTo_expressionStatement hbound hbound' s hs
  | succ n ih =>
    obtain ⟨bound, rfl⟩ : ∃ b, bound = b + 1 := ⟨bound - 1, by omega⟩
    obtain ⟨bound', rfl⟩ : ∃ b, bound' = b + 1 := ⟨bound' - 1, by omega⟩
    have hn : n ≤ bound := Nat.le_of_succ_le_succ hbound
    have hn' : n ≤ bound' := Nat.le_of_succ_le_succ hbound'
    have hbody := ih hn hn'
    have hforward : Respects Forward (statement bound) := respects_statement bound
    have hconsumes := consumes_statement bound
    intro s hs
    rw [statement_apply, statement_apply]
    cases nextKind s.cursor.ahead
    case printKw => exact (sameUpTo_printStatement hn hn').advance s hs
    case forKw =>
      exact (sameUpTo_inBlock (sameUpTo_forStatement hn hn' hbody)).advance s hs
    case ifKw => exact (sameUpTo_ifStatement hn hn' hbody hforward).advance s hs
    case whileKw => exact (sameUpTo_whileStatement hn hn' hbody).advance s hs
    case leftBrace =>
      exact (sameUpTo_inBlock (sameUpTo_block hn hn' hbody hconsumes)).advance s hs
    all_goals exact sameUpTo_expressionStatement hbound hbound' s hs

/-- **No bound is reached.** A script needs no larger bound than its number of tokens. -/
theorem sameUpTo_program {bound bound' : Nat} (hbound : n ≤ bound) (hbound' : n ≤ bound') :
    SameUpTo n (program bound) (program bound') := by
  have hdeclaration :=
    sameUpTo_declaration hbound hbound' (sameUpTo_statement hbound hbound')
  have hpasses := consumes_declaration bound (consumes_statement bound)
  exact (sameUpTo_repeatUntil rfl hdeclaration hpasses hbound hbound').andThen _

end SameUpTo

/-! ## Reaching the end

Since every round of the outermost loop passes a token, its count does not run out before the
tokens do. -/

/-- A loop whose steps pass tokens ends where it is meant to stop, not where its count runs out. -/
theorem stop_of_repeatUntil {stop : Kind → Bool} (heof : stop .eof = true) {step : CompileM Unit}
    (hconsumes : Consumes step) {count : Nat} {s t : State} (hs : s.cursor.ahead.length ≤ count)
    (hrun : repeatUntil stop step count s = .ok () t) :
    stop (nextKind t.cursor.ahead) = true := by
  induction count generalizing s with
  | zero =>
    -- no tokens are left, and the loop stops at the end of the script
    have hnone : s.cursor.ahead = [] := List.length_eq_zero_iff.mp (Nat.le_zero.mp hs)
    cases hrun
    rw [hnone]
    exact heof
  | succ count ih =>
    cases hstop : stop (nextKind s.cursor.ahead) with
    | true =>
      rw [repeatUntil_of_stop hstop] at hrun
      cases hrun
      exact hstop
    | false =>
      have hne : s.cursor.ahead ≠ [] := by
        intro hnone
        rw [hnone] at hstop
        exact absurd (hstop.symm.trans heof) (by decide)
      -- a round passes a token, so that the bound is enough for the rest
      have hless := hconsumes.length_lt hne
      rw [repeatUntil_succ hstop] at hrun
      obtain ⟨_, u, hstep, hrest⟩ := bind_eq_ok.mp hrun
      rw [hstep] at hless
      have hless : u.cursor.ahead.length < s.cursor.ahead.length := hless
      exact ih (by omega) hrest

/-- The compiler goes on until it has passed the end of a script. -/
theorem program_eq_ok (tokens : List Token) :
    ∃ s, program tokens.length (.start tokens) = .ok () s ∧ s.cursor.previous.kind = .eof := by
  obtain ⟨t, hloop⟩ := repeatUntil_ok (recovering_ok _) (fun kind => kind = .eof) tokens.length
    (.start tokens)
  have hconsumes := consumes_declaration tokens.length (consumes_statement tokens.length)
  have hstop := stop_of_repeatUntil (decide_eq_true rfl) hconsumes
    (s := .start tokens) (Nat.le_refl tokens.length) hloop
  refine ⟨_, (bind_of_ok hloop).trans ((bind_of_ok (advance_apply t)).trans (emit_apply _ _)), ?_⟩
  show t.cursor.current.kind = .eof
  rw [current_kind]
  exact of_decide_eq_true hstop

end StackScript.Compile
