import StackScript.Proofs.Compile.Parsing
import StackScript.Proofs.Compile.ScriptCode

/-!
# The scripts that the compiler accepts

`Parsing` continued for statements, where a step can also succeed with errors recorded. Together
with `ScriptCode` it says what the compiler accepts and what it makes of it
(**`result_compile_eq_ok`**): the tokens of a grouped script that fits, followed by nothing or an
end of script, and its code.
-/

namespace StackScript

open StackScript.Tree

namespace Compile

/-! ## Clean runs

A run that succeeds without listing an error. Since errors are never removed, all parts of a clean
run are clean. -/

/-- A step succeeds and records no error. -/
def Cleanly {α : Type} (x : CompileM α) (s : State) (a : α) (s' : State) : Prop :=
  x s = .ok a s' ∧ s'.errors.size = s.errors.size

section Cleanly

variable {α β : Type} {x : CompileM α} {f : α → CompileM β} {s s' : State} {b : β}

/-- No error is removed. -/
theorem Grows.of_ok {a : α} (hx : Grows x) (h : x s = .ok a s') :
    s.errors.size ≤ s'.errors.size := by
  have hgrows := hx s
  rw [h] at hgrows
  exact List.IsPrefix.length_le hgrows

/-- No step takes errors back, so both parts of a clean sequence are clean. -/
theorem Cleanly.of_bind (h : Cleanly (x >>= f) s b s') (hx : Grows x) (hf : ∀ a, Grows (f a)) :
    ∃ a t, Cleanly x s a t ∧ Cleanly (f a) t b s' := by
  obtain ⟨hok, herrors⟩ := h
  obtain ⟨a, t, hfirst, hrest⟩ := bind_eq_ok.mp hok
  have hfirstErrors := hx.of_ok hfirst
  have hrestErrors := (hf a).of_ok hrest
  exact ⟨a, t, ⟨hfirst, by omega⟩, ⟨hrest, by omega⟩⟩

/-- Where no error was listed, there was none to recover from. -/
theorem Cleanly.of_recovering {step : CompileM Unit} (hstep : Grows step)
    (h : Cleanly (recovering step) s () s') : Cleanly step s () s' := by
  obtain ⟨hok, herrors⟩ := h
  cases hrun : step s with
  | ok _ t =>
    rw [recovering, bind_of_ok (attempt_of_ok hrun)] at hok
    cases hok
    exact ⟨hrun, herrors⟩
  | error e t =>
    rw [recovering, bind_of_ok (attempt_of_error hrun)] at hok
    cases hok
    have hgrows := hstep s
    rw [hrun] at hgrows
    change (t.errors.push e).size = s.errors.size at herrors
    rw [Array.size_push] at herrors
    have hle : s.errors.size ≤ t.errors.size := List.IsPrefix.length_le hgrows
    omega

end Cleanly

/-- A failure that was held back has not happened if the whole step succeeds. -/
theorem ok_of_settled {x g : CompileM Unit} {s s' : State}
    (h : (attempt x >>= fun outcome => g >>= fun _ => settle outcome) s = .ok () s') :
    ∃ t, x s = .ok () t ∧ g t = .ok () s' := by
  obtain ⟨outcome, t, hattempt, hrest⟩ := bind_eq_ok.mp h
  obtain ⟨_, u, hg, hsettle⟩ := bind_eq_ok.mp hrest
  cases hrun : x s with
  | ok _ v =>
    rw [attempt_of_ok hrun] at hattempt
    cases hattempt
    cases hsettle
    exact ⟨_, rfl, hg⟩
  | error e v =>
    rw [attempt_of_error hrun] at hattempt
    cases hattempt
    cases hsettle

/-! ## Statements without statements inside

From a run that succeeds, a tree is read off whose tokens are those that were passed. -/

section Simple

variable {bound : Nat} {s s' : State}

/-- The name comes before the tokens that are passed here, so it is given. -/
theorem initializer_reads (hbound : s.cursor.ahead.length ≤ bound)
    (h : initializer bound s = .ok () s') (name : TokenOf .identifier) :
    ∃ d : VarDecl, d.name = name ∧ d.Grouped ∧
      s.cursor.ahead = valueTokens d ++ s'.cursor.ahead := by
  obtain ⟨assigns, t, haccept, hafter⟩ := bind_eq_ok.mp h
  rcases ahead_of_accept (by decide) haccept with ⟨rfl, equal, hequal⟩ | ⟨rfl, rfl, _⟩
  · obtain ⟨_, u, hvalue, hclose⟩ := bind_eq_ok.mp hafter
    rw [hequal, List.length_cons] at hbound
    obtain ⟨value, hgrouped, htokens⟩ := expression_reads (by omega) hvalue
    obtain ⟨semicolon, hsemicolon⟩ := ahead_of_expect (by decide) hclose
    refine ⟨⟨name, some (equal, value), semicolon⟩, rfl, ?_, ?_⟩
    · rintro _ ⟨⟩
      exact hgrouped
    · rw [hequal, htokens, hsemicolon]
      simp [valueTokens]
  · obtain ⟨_, u, hemit, hclose⟩ := bind_eq_ok.mp hafter
    obtain ⟨semicolon, hsemicolon⟩ := ahead_of_expect (by decide) hclose
    refine ⟨⟨name, none, semicolon⟩, rfl, ?_, ?_⟩
    · rintro _ ⟨⟩
    · rw [← Stays.of_ok (respects_emit _) hemit, hsemicolon]
      rfl

theorem variableDeclaration_reads (hbound : s.cursor.ahead.length ≤ bound)
    (h : variableDeclaration bound s = .ok () s') :
    ∃ d : VarDecl, d.Grouped ∧ s.cursor.ahead = d.tokens ++ s'.cursor.ahead := by
  obtain ⟨_, t, hexpect, hafter⟩ := bind_eq_ok.mp h
  obtain ⟨index, u, hdeclare, hrest⟩ := bind_eq_ok.mp hafter
  obtain ⟨v, hvalue, hdefine⟩ := ok_of_settled hrest
  obtain ⟨name, hname⟩ := ahead_of_expect (by decide) hexpect
  have hstart := Stays.of_ok respects_declareVariable hdeclare
  have hend := Stays.of_ok (respects_defineVariable _) hdefine
  rw [hname, List.length_cons, ← hstart] at hbound
  obtain ⟨d, rfl, hgrouped, htokens⟩ := initializer_reads (by omega) hvalue name
  refine ⟨d, hgrouped, ?_⟩
  rw [tokens_varDecl, hname, ← hstart, htokens, hend, List.cons_append]

/-- The statements that end with a semicolon. -/
theorem valueStatement_reads {what : Expectation} {i : Instruction}
    (hbound : s.cursor.ahead.length ≤ bound)
    (h : (do expression bound; expect .semicolon what; emit i : CompileM Unit) s = .ok () s') :
    ∃ (value : Expr) (semicolon : TokenOf .semicolon), value.Grouped ∧
      s.cursor.ahead = value.tokens ++ [semicolon.val] ++ s'.cursor.ahead := by
  obtain ⟨_, t, hvalue, hafter⟩ := bind_eq_ok.mp h
  obtain ⟨_, u, hclose, hemit⟩ := bind_eq_ok.mp hafter
  obtain ⟨value, hgrouped, htokens⟩ := expression_reads hbound hvalue
  obtain ⟨semicolon, hsemicolon⟩ := ahead_of_expect (by decide) hclose
  refine ⟨value, semicolon, hgrouped, ?_⟩
  rw [htokens, hsemicolon, Stays.of_ok (respects_emit _) hemit, List.append_assoc,
    List.singleton_append]

theorem condition_reads {what : Expectation} (hbound : s.cursor.ahead.length ≤ bound)
    (h : condition bound what s = .ok () s') :
    ∃ c : Condition, c.value.Grouped ∧ s.cursor.ahead = c.tokens ++ s'.cursor.ahead := by
  obtain ⟨_, t, hopen, hafter⟩ := bind_eq_ok.mp h
  obtain ⟨_, u, hvalue, hclose⟩ := bind_eq_ok.mp hafter
  obtain ⟨left, hleft⟩ := ahead_of_expect (by decide) hopen
  rw [hleft, List.length_cons] at hbound
  obtain ⟨value, hgrouped, htokens⟩ := expression_reads (by omega) hvalue
  obtain ⟨right, hright⟩ := ahead_of_expect (by decide) hclose
  refine ⟨⟨left, value, right⟩, hgrouped, ?_⟩
  rw [hleft, htokens, hright]
  simp [Condition.tokens]

/-! ### The clauses of a `for` loop

Any of them may be missing, which is seen at the next token. -/

theorem forInitializer_reads (hbound : s.cursor.ahead.length ≤ bound)
    (h : forInitializer bound s = .ok () s') :
    ∃ start : ForStart, start.Grouped ∧ s.cursor.ahead = start.tokens ++ s'.cursor.ahead := by
  obtain ⟨isEmpty, t, haccept, hafter⟩ := bind_eq_ok.mp h
  rcases ahead_of_accept (by decide) haccept with ⟨rfl, semicolon, hsemicolon⟩ | ⟨rfl, rfl, _⟩
  · cases hafter
    exact ⟨.none semicolon, trivial, hsemicolon⟩
  · obtain ⟨declares, u, haccept', hafter'⟩ := bind_eq_ok.mp hafter
    rcases ahead_of_accept (by decide) haccept' with ⟨rfl, keyword, hkeyword⟩ | ⟨rfl, rfl, _⟩
    · rw [hkeyword, List.length_cons] at hbound
      obtain ⟨d, hgrouped, htokens⟩ := variableDeclaration_reads (by omega) hafter'
      exact ⟨.declaration keyword d, hgrouped, by rw [hkeyword, htokens]; rfl⟩
    · obtain ⟨value, semicolon, hgrouped, htokens⟩ := valueStatement_reads hbound hafter'
      exact ⟨.expression value semicolon, hgrouped, htokens⟩

theorem forCondition_reads {leave : Option Nat} (hbound : s.cursor.ahead.length ≤ bound)
    (h : forCondition bound s = .ok leave s') :
    ∃ (condition : Option Expr) (semicolon : TokenOf .semicolon),
      (∀ value ∈ condition, value.Grouped) ∧
      s.cursor.ahead = optionalTokens condition ++ semicolon.val :: s'.cursor.ahead := by
  obtain ⟨isEmpty, t, haccept, hafter⟩ := bind_eq_ok.mp h
  rcases ahead_of_accept (by decide) haccept with ⟨rfl, semicolon, hsemicolon⟩ | ⟨rfl, rfl, _⟩
  · cases hafter
    exact ⟨none, semicolon, fun _ => (nomatch ·), hsemicolon⟩
  · obtain ⟨_, u, hvalue, hafter⟩ := bind_eq_ok.mp hafter
    obtain ⟨_, v, hclose, hafter⟩ := bind_eq_ok.mp hafter
    obtain ⟨done, w, hjump, hafter⟩ := bind_eq_ok.mp hafter
    obtain ⟨_, x, hpop, hpure⟩ := bind_eq_ok.mp hafter
    cases hpure
    obtain ⟨value, hgrouped, htokens⟩ := expression_reads hbound hvalue
    obtain ⟨semicolon, hsemicolon⟩ := ahead_of_expect (by decide) hclose
    refine ⟨some value, semicolon, ?_, ?_⟩
    · rintro _ ⟨⟩
      exact hgrouped
    · rw [htokens, hsemicolon, Stays.of_ok (respects_emit _) hpop,
        Stays.of_ok (respects_emitJump _) hjump]
      rfl

/-- A value or nothing before the parenthesis. -/
theorem forIncrement_reads {start continueAt : Nat} (hbound : s.cursor.ahead.length ≤ bound)
    (h : forIncrement bound start s = .ok continueAt s') :
    ∃ (increment : Option Expr) (right : TokenOf .rightParen),
      (∀ value ∈ increment, value.Grouped) ∧
      s.cursor.ahead = optionalTokens increment ++ right.val :: s'.cursor.ahead := by
  obtain ⟨isEmpty, t, haccept, hafter⟩ := bind_eq_ok.mp h
  rcases ahead_of_accept (by decide) haccept with ⟨rfl, right, hright⟩ | ⟨rfl, rfl, _⟩
  · cases hafter
    exact ⟨none, right, fun _ => (nomatch ·), hright⟩
  -- the steps one by one, of which only the value and the parenthesis pass tokens
  · obtain ⟨jumped, t₁, hjump, hafter⟩ := bind_eq_ok.mp hafter
    obtain ⟨increment, t₂, hsize, hafter⟩ := bind_eq_ok.mp hafter
    obtain ⟨_, t₃, hvalue, hafter⟩ := bind_eq_ok.mp hafter
    obtain ⟨_, t₄, hpop, hafter⟩ := bind_eq_ok.mp hafter
    obtain ⟨_, t₅, hclose, hafter⟩ := bind_eq_ok.mp hafter
    obtain ⟨_, t₆, hloop, hafter⟩ := bind_eq_ok.mp hafter
    obtain ⟨_, t₇, hpatch, hpure⟩ := bind_eq_ok.mp hafter
    cases hpure
    have hstart : t₂.cursor = t.cursor :=
      (Stays.of_ok respects_codeSize hsize).trans (Stays.of_ok (respects_emitJump _) hjump)
    have hend : s'.cursor = t₅.cursor :=
      (Stays.of_ok (respects_patchJump _) hpatch).trans (Stays.of_ok (respects_emitLoop _) hloop)
    obtain ⟨value, hgrouped, htokens⟩ := expression_reads (hstart ▸ hbound) hvalue
    obtain ⟨right, hright⟩ := ahead_of_expect (by decide) hclose
    refine ⟨some value, right, ?_, ?_⟩
    · rintro _ ⟨⟩
      exact hgrouped
    · rw [← hstart, htokens, ← Stays.of_ok (respects_emit _) hpop, hright, hend]
      rfl

end Simple

/-! ## Statements with statements inside

An `else` belongs to the nearest `if`. So where a statement ends with an `if` that has no `else`,
the next token is not that keyword. -/

/-- What is compiled as a statement is one, and no `else` follows that it could have taken. -/
def ReadsStmt (bound : Nat) : Prop :=
  ∀ ⦃s s'⦄, s.cursor.ahead.length ≤ bound → Cleanly (statement bound) s () s' →
    ∃ t : Stmt, t.Grouped ∧ s.cursor.ahead = t.tokens ++ s'.cursor.ahead ∧
      (t.endsOpen = true → nextKind s'.cursor.ahead ≠ .elseKw)

section Compound

variable {bound : Nat} (hstatement : ReadsStmt bound) {s s' : State}

include hstatement

/-- The keyword is taken if it is there. -/
theorem elseBranch_reads (hbound : s.cursor.ahead.length ≤ bound)
    (h : Cleanly (elseBranch (statement bound)) s () s') {isOpen : Bool}
    (hopen : isOpen = true → nextKind s.cursor.ahead ≠ .elseKw) :
    ∃ t : Else, t.GroupedAfter isOpen ∧ s.cursor.ahead = t.tokens ++ s'.cursor.ahead ∧
      (t.endsOpen = true → nextKind s'.cursor.ahead ≠ .elseKw) := by
  obtain ⟨has, t, haccept, hafter⟩ := h.of_bind (respects_accept _) fun _ =>
    respects_ite (respects_statement bound) (respects_pure _)
  rcases ahead_of_accept (by decide) haccept.1 with ⟨rfl, keyword, hkeyword⟩ | ⟨rfl, rfl, hnone⟩
  · rw [hkeyword, List.length_cons] at hbound
    obtain ⟨body, hgrouped, htokens, hends⟩ := hstatement (by omega) hafter
    have hclosed : isOpen = false := by
      rw [← Bool.not_eq_true]
      intro htrue
      refine hopen htrue ?_
      rw [hkeyword, nextKind_cons, keyword.property]
    exact ⟨.branch keyword body, ⟨hclosed, hgrouped⟩, by rw [hkeyword, htokens]; rfl, hends⟩
  · cases hafter.1
    exact ⟨.none, trivial, rfl, fun _ => hnone⟩

/-- A condition and one or two branches. -/
theorem ifStatement_reads (hbound : s.cursor.ahead.length ≤ bound)
    (h : Cleanly (ifStatement bound (statement bound)) s () s') :
    ∃ (c : Condition) (body : Stmt) (otherwise : Else), c.value.Grouped ∧ body.Grouped ∧
      otherwise.GroupedAfter body.endsOpen ∧
      s.cursor.ahead = c.tokens ++ (body.tokens ++ otherwise.tokens) ++ s'.cursor.ahead ∧
      (otherwise.endsOpen = true → nextKind s'.cursor.ahead ≠ .elseKw) := by
  obtain ⟨hok, herrors⟩ := h
  rw [ifStatement_eq] at hok
  obtain ⟨_, t₁, hcondition, hok⟩ := bind_eq_ok.mp hok
  obtain ⟨_, t₂, hjump, hok⟩ := bind_eq_ok.mp hok
  obtain ⟨_, t₃, hbranch, hok⟩ := bind_eq_ok.mp hok
  obtain ⟨_, t₄, hjump', hok⟩ := bind_eq_ok.mp hok
  obtain ⟨_, t₅, hpatch, hok⟩ := bind_eq_ok.mp hok
  obtain ⟨_, t₆, hotherwise, hpatch'⟩ := bind_eq_ok.mp hok
  obtain ⟨_, u, hpop, hbody⟩ := bind_eq_ok.mp hbranch
  obtain ⟨_, v, hpop', helse⟩ := bind_eq_ok.mp hotherwise
  -- both branches are clean, because the errors do not change from the start to the end
  have e₁ := Grows.of_ok (respects_condition bound _) hcondition
  have e₂ := Grows.of_ok (respects_emitJump _) hjump
  have e₃ := Grows.of_ok (respects_emit _) hpop
  have e₄ := Grows.of_ok (respects_statement bound) hbody
  have e₅ := Grows.of_ok (respects_emitJump _) hjump'
  have e₆ := Grows.of_ok (respects_patchJump _) hpatch
  have e₇ := Grows.of_ok (respects_emit _) hpop'
  have e₈ := (grows_elseBranch (respects_statement bound)).of_ok helse
  have e₉ := Grows.of_ok (respects_patchJump _) hpatch'
  have hbefore : u.cursor = t₁.cursor :=
    (Stays.of_ok (respects_emit _) hpop).trans (Stays.of_ok (respects_emitJump _) hjump)
  have hbetween : v.cursor = t₃.cursor :=
    ((Stays.of_ok (respects_emit _) hpop').trans (Stays.of_ok (respects_patchJump _) hpatch)).trans
      (Stays.of_ok (respects_emitJump _) hjump')
  have hend := Stays.of_ok (respects_patchJump _) hpatch'
  obtain ⟨c, hc, hctokens⟩ := condition_reads hbound hcondition
  have hlength := congrArg List.length hctokens
  rw [List.length_append, ← hbefore] at hlength
  obtain ⟨body, hgrouped, htokens, hopen⟩ :=
    hstatement (by omega) (⟨hbody, by omega⟩ : Cleanly (statement bound) u () t₃)
  have hlength' := congrArg List.length htokens
  rw [List.length_append, ← hbetween] at hlength'
  rw [← hbetween] at hopen htokens
  obtain ⟨otherwise, hafter, helseTokens, helseOpen⟩ := elseBranch_reads hstatement (by omega)
    (⟨helse, by omega⟩ : Cleanly (elseBranch (statement bound)) v () t₆) hopen
  refine ⟨c, body, otherwise, hc, hgrouped, hafter, ?_, hend ▸ helseOpen⟩
  rw [hctokens, ← hbefore, htokens, helseTokens, hend]
  simp only [List.append_assoc]

theorem whileStatement_reads (hbound : s.cursor.ahead.length ≤ bound)
    (h : Cleanly (whileStatement bound (statement bound)) s () s') :
    ∃ (c : Condition) (body : Stmt), c.value.Grouped ∧ body.Grouped ∧
      s.cursor.ahead = c.tokens ++ body.tokens ++ s'.cursor.ahead ∧
      (body.endsOpen = true → nextKind s'.cursor.ahead ≠ .elseKw) := by
  obtain ⟨hok, herrors⟩ := h
  obtain ⟨start, t₀, hsize, hok⟩ := bind_eq_ok.mp hok
  obtain ⟨_, t₁, hcondition, hok⟩ := bind_eq_ok.mp hok
  obtain ⟨_, t₂, hjump, hok⟩ := bind_eq_ok.mp hok
  obtain ⟨_, t₃, hpop, hok⟩ := bind_eq_ok.mp hok
  obtain ⟨_, t₄, hbody, hok⟩ := bind_eq_ok.mp hok
  obtain ⟨_, t₅, hloop, hok⟩ := bind_eq_ok.mp hok
  obtain ⟨_, t₆, hpatch, hpop'⟩ := bind_eq_ok.mp hok
  cases hsize
  -- no step removes an error, and there are none in the end, so there are none in between
  have e₁ := Grows.of_ok (respects_condition bound _) hcondition
  have e₂ := Grows.of_ok (respects_emitJump _) hjump
  have e₃ := Grows.of_ok (respects_emit _) hpop
  have e₄ := Grows.of_ok (respects_statement bound) hbody
  have e₅ := Grows.of_ok (respects_emitLoop _) hloop
  have e₆ := Grows.of_ok (respects_patchJump _) hpatch
  have e₇ := Grows.of_ok (respects_emit _) hpop'
  -- emitting code does not pass a token
  have hbefore : t₃.cursor = t₁.cursor :=
    (Stays.of_ok (respects_emit _) hpop).trans (Stays.of_ok (respects_emitJump _) hjump)
  have hend : s'.cursor = t₄.cursor :=
    ((Stays.of_ok (respects_emit _) hpop').trans (Stays.of_ok (respects_patchJump _) hpatch)).trans
      (Stays.of_ok (respects_emitLoop _) hloop)
  obtain ⟨c, hc, hctokens⟩ := condition_reads hbound hcondition
  have hlength := congrArg List.length hctokens
  rw [List.length_append, ← hbefore] at hlength
  obtain ⟨body, hgrouped, htokens, hopen⟩ :=
    hstatement (by omega) (⟨hbody, by omega⟩ : Cleanly (statement bound) t₃ () t₄)
  refine ⟨c, body, hc, hgrouped, ?_, hend ▸ hopen⟩
  rw [hctokens, ← hbefore, htokens, hend, List.append_assoc]

theorem forStatement_reads (hbound : s.cursor.ahead.length ≤ bound)
    (h : Cleanly (forStatement bound (statement bound)) s () s') :
    ∃ (c : ForClauses) (body : Stmt), c.Grouped ∧ body.Grouped ∧
      s.cursor.ahead = c.tokens ++ body.tokens ++ s'.cursor.ahead ∧
      (body.endsOpen = true → nextKind s'.cursor.ahead ≠ .elseKw) := by
  obtain ⟨hok, herrors⟩ := h
  obtain ⟨_, t₁, hopen, hok⟩ := bind_eq_ok.mp hok
  obtain ⟨_, t₂, hinitializer, hok⟩ := bind_eq_ok.mp hok
  obtain ⟨start, t₂', hsize, hok⟩ := bind_eq_ok.mp hok
  obtain ⟨leave, t₃, hcondition, hok⟩ := bind_eq_ok.mp hok
  obtain ⟨continueAt, t₄, hincrement, hok⟩ := bind_eq_ok.mp hok
  obtain ⟨_, t₅, hbody, hok⟩ := bind_eq_ok.mp hok
  obtain ⟨_, t₆, hloop, hloopEnd⟩ := bind_eq_ok.mp hok
  cases hsize
  have e₁ := Grows.of_ok (respects_expect _ _) hopen
  have e₂ := Grows.of_ok (respects_forInitializer bound) hinitializer
  have e₃ := Grows.of_ok (respects_forCondition bound) hcondition
  have e₄ := Grows.of_ok (respects_forIncrement bound _) hincrement
  have e₅ := Grows.of_ok (respects_statement bound) hbody
  have e₆ := Grows.of_ok (respects_emitLoop _) hloop
  have e₇ := Grows.of_ok (respects_loopEnd leave) hloopEnd
  -- after the body only code is emitted
  have hend : s'.cursor = t₅.cursor :=
    (Stays.of_ok (respects_loopEnd leave) hloopEnd).trans (Stays.of_ok (respects_emitLoop _) hloop)
  obtain ⟨left, hleft⟩ := ahead_of_expect (by decide) hopen
  rw [hleft, List.length_cons] at hbound
  obtain ⟨start, hstart, hstartTokens⟩ := forInitializer_reads (by omega) hinitializer
  have hlength₁ := congrArg List.length hstartTokens
  rw [List.length_append] at hlength₁
  obtain ⟨test, semicolon, htest, htestTokens⟩ := forCondition_reads (by omega) hcondition
  have hlength₂ := congrArg List.length htestTokens
  rw [List.length_append, List.length_cons] at hlength₂
  obtain ⟨increment, right, hstep, hstepTokens⟩ := forIncrement_reads (by omega) hincrement
  have hlength₃ := congrArg List.length hstepTokens
  rw [List.length_append, List.length_cons] at hlength₃
  obtain ⟨body, hgrouped, htokens, hopenEnd⟩ :=
    hstatement (by omega) (⟨hbody, by omega⟩ : Cleanly (statement bound) t₄ () t₅)
  refine ⟨⟨left, start, test, semicolon, increment, right⟩, body, ⟨hstart, htest, hstep⟩, hgrouped,
    ?_, hend ▸ hopenEnd⟩
  rw [hleft, hstartTokens, htestTokens, hstepTokens, htokens, hend]
  simp [ForClauses.tokens]

/-! ### Lists of declarations

The loops of blocks and scripts stop only where they have to, since each declaration passes a token.
-/

/-- One round of the loop over declarations passes a declaration or a statement. -/
theorem declaration_reads (hbound : s.cursor.ahead.length ≤ bound)
    (h : Cleanly (declaration bound (statement bound)) s () s') :
    (∃ (keyword : TokenOf .varKw) (d : VarDecl), d.Grouped ∧
      s.cursor.ahead = keyword.val :: (d.tokens ++ s'.cursor.ahead)) ∨
    (∃ t : Stmt, t.Grouped ∧ s.cursor.ahead = t.tokens ++ s'.cursor.ahead) := by
  have hgrows : Grows (accept .varKw >>= fun declares =>
      if declares then variableDeclaration bound else statement bound) :=
    respects_bind (respects_accept _) fun _ =>
      respects_ite (respects_variableDeclaration bound) (respects_statement bound)
  obtain ⟨declares, t, haccept, hafter⟩ := (h.of_recovering hgrows).of_bind (respects_accept _)
    fun _ => respects_ite (respects_variableDeclaration bound) (respects_statement bound)
  rcases ahead_of_accept (by decide) haccept.1 with ⟨rfl, keyword, hkeyword⟩ | ⟨rfl, rfl, _⟩
  · rw [hkeyword, List.length_cons] at hbound
    obtain ⟨d, hgrouped, htokens⟩ := variableDeclaration_reads (by omega) hafter.1
    exact .inl ⟨keyword, d, hgrouped, by rw [hkeyword, htokens]⟩
  · obtain ⟨t, hgrouped, htokens, _⟩ := hstatement hbound hafter
    exact .inr ⟨t, hgrouped, htokens⟩

/-- By induction on the number of rounds. -/
theorem repeatUntil_reads {stop : Kind → Bool} (heof : stop .eof = true) {count : Nat}
    (hbound : s.cursor.ahead.length ≤ bound) (hcount : s.cursor.ahead.length ≤ count)
    (h : Cleanly (repeatUntil stop (declaration bound (statement bound)) count) s () s') :
    ∃ ds : Decls, ds.Grouped ∧ s.cursor.ahead = ds.tokens ++ s'.cursor.ahead ∧
      stop (nextKind s'.cursor.ahead) = true := by
  have hgrows : Grows (declaration bound (statement bound)) :=
    respects_declaration bound (respects_statement bound)
  induction count generalizing s with
  | zero =>
    -- the bound is the number of tokens ahead, so none are left when it is used up
    have hnone : s.cursor.ahead = [] := List.length_eq_zero_iff.mp (Nat.le_zero.mp hcount)
    cases h.1
    exact ⟨.nil, trivial, rfl, by rw [hnone]; exact heof⟩
  | succ count ih =>
    cases hstop : stop (nextKind s.cursor.ahead) with
    | true =>
      have hok := h.1
      rw [repeatUntil_of_stop hstop] at hok
      cases hok
      exact ⟨.nil, trivial, rfl, hstop⟩
    | false =>
      have hclean : Cleanly (declaration bound (statement bound) >>= fun _ =>
          repeatUntil stop (declaration bound (statement bound)) count) s () s' :=
        ⟨(repeatUntil_succ hstop count) ▸ h.1, h.2⟩
      obtain ⟨_, t, hfirst, hmore⟩ := hclean.of_bind hgrows fun _ =>
        respects_repeatUntil stop hgrows count
      rcases declaration_reads hstatement hbound hfirst with
        ⟨keyword, d, hgrouped, htokens⟩ | ⟨first, hgrouped, htokens⟩
      · have hlength := congrArg List.length htokens
        rw [List.length_cons, List.length_append] at hlength
        obtain ⟨ds, hds, hdsTokens, hend⟩ := ih (by omega) (by omega) hmore
        refine ⟨.declaration keyword d ds, ⟨hgrouped, hds⟩, ?_, hend⟩
        rw [htokens, hdsTokens]
        simp [Decls.tokens]
      -- a statement has at least one token, which brings the bound down
      · obtain ⟨token, others, hcons, _⟩ := first.tokens_eq_cons
        have hlength := congrArg List.length htokens
        rw [List.length_append, hcons, List.length_cons] at hlength
        obtain ⟨ds, hds, hdsTokens, hend⟩ := ih (by omega) (by omega) hmore
        refine ⟨.statement first ds, ⟨hgrouped, hds⟩, ?_, hend⟩
        rw [htokens, hdsTokens]
        simp [Decls.tokens]

theorem block_reads (hbound : s.cursor.ahead.length ≤ bound)
    (h : Cleanly (block bound (statement bound)) s () s') :
    ∃ (body : Decls) (right : TokenOf .rightBrace), body.Grouped ∧
      s.cursor.ahead = body.tokens ++ [right.val] ++ s'.cursor.ahead := by
  obtain ⟨_, t, hdecls, hclose⟩ := h.of_bind
    (respects_repeatUntil _ (respects_declaration bound (respects_statement bound)) _)
    fun _ => respects_expect _ _
  obtain ⟨body, hgrouped, htokens, _⟩ := repeatUntil_reads hstatement rfl hbound hbound hdecls
  obtain ⟨right, hright⟩ := ahead_of_expect (by decide) hclose.1
  refine ⟨body, right, hgrouped, ?_⟩
  rw [htokens, hright, List.append_assoc, List.singleton_append]

end Compound

/-- A block of its own does not change what is read. -/
theorem inBlock_reads {body : CompileM Unit} (hgrows : Grows body) {s s' : State}
    (h : Cleanly (inBlock body) s () s') :
    ∃ t u : State, t.cursor = s.cursor ∧ Cleanly body t () u ∧ s'.cursor = u.cursor := by
  obtain ⟨hok, herrors⟩ := h
  rw [inBlock_eq] at hok
  obtain ⟨_, t, hbegin, hok⟩ := bind_eq_ok.mp hok
  obtain ⟨u, hbody, hclose⟩ := ok_of_settled hok
  have hstart : t.cursor = s.cursor ∧ t.errors = s.errors := by
    cases hbegin
    exact ⟨rfl, rfl⟩
  have e₁ := hgrows.of_ok hbody
  have e₂ := Grows.of_ok respects_closeBlock hclose
  rw [hstart.2] at e₁
  refine ⟨t, u, hstart.1, ⟨hbody, ?_⟩, Stays.of_ok respects_closeBlock hclose⟩
  rw [hstart.2]
  omega

/-- A keyword is passed, and then what it starts. -/
theorem keyword_reads {kind : Kind} {x : CompileM Unit} {bound : Nat} {s s' : State}
    (hne : kind ≠ .eof) (hkind : nextKind s.cursor.ahead = kind)
    (hbound : s.cursor.ahead.length ≤ bound + 1)
    (h : Cleanly (advance >>= fun _ => x) s () s') :
    ∃ (token : TokenOf kind) (t : State), s.cursor.ahead = token.val :: t.cursor.ahead ∧
      t.cursor.ahead.length ≤ bound ∧ Cleanly x t () s' := by
  obtain ⟨token, htoken⟩ := ahead_of_nextKind hne hkind
  have hok := h.1
  rw [bind_of_ok (advance_cons htoken)] at hok
  refine ⟨token, s.past token.val s.cursor.advance.ahead, htoken, ?_, hok, h.2⟩
  rw [htoken, List.length_cons] at hbound
  exact Nat.le_of_succ_le_succ hbound

/-- What is compiled as a statement is one. -/
theorem statement_reads (bound : Nat) : ReadsStmt bound := by
  induction bound with
  | zero =>
    intro s s' hbound h
    obtain ⟨value, semicolon, hgrouped, htokens⟩ := valueStatement_reads hbound h.1
    exact ⟨.expression value semicolon, hgrouped, htokens, fun hopen => nomatch hopen⟩
  | succ bound ih =>
    intro s s' hbound h
    have hclean : Cleanly (statementFrom bound (nextKind s.cursor.ahead)) s () s' :=
      ⟨(statement_apply bound s).symm.trans h.1, h.2⟩
    -- the next token decides which form is compiled
    generalize hkind : nextKind s.cursor.ahead = kind at hclean
    cases kind with
    | printKw =>
      obtain ⟨keyword, t, hahead, hlength, hclean⟩ := keyword_reads (by decide) hkind hbound hclean
      obtain ⟨value, semicolon, hgrouped, htokens⟩ := valueStatement_reads hlength hclean.1
      refine ⟨.print keyword value semicolon, hgrouped, ?_, fun hopen => nomatch hopen⟩
      rw [hahead, htokens]
      rfl
    | forKw =>
      obtain ⟨keyword, t, hahead, hlength, hclean⟩ := keyword_reads (by decide) hkind hbound hclean
      -- opening and closing a block passes no token
      obtain ⟨u, v, hstart, hbody, hend⟩ :=
        inBlock_reads (respects_forStatement bound (respects_statement bound)) hclean
      rw [← hstart] at hlength hahead
      obtain ⟨c, body, hc, hgrouped, htokens, hopen⟩ := forStatement_reads ih hlength hbody
      refine ⟨.forLoop keyword c body, ⟨hc, hgrouped⟩, ?_, hend ▸ hopen⟩
      rw [hahead, htokens, hend]
      rfl
    | ifKw =>
      obtain ⟨keyword, t, hahead, hlength, hclean⟩ := keyword_reads (by decide) hkind hbound hclean
      obtain ⟨c, body, otherwise, hc, hgrouped, hafter, htokens, hopen⟩ :=
        ifStatement_reads ih hlength hclean
      refine ⟨.conditional keyword c body otherwise, ⟨hc, hgrouped, hafter⟩, ?_, hopen⟩
      rw [hahead, htokens]
      rfl
    | whileKw =>
      obtain ⟨keyword, t, hahead, hlength, hclean⟩ := keyword_reads (by decide) hkind hbound hclean
      obtain ⟨c, body, hc, hgrouped, htokens, hopen⟩ := whileStatement_reads ih hlength hclean
      refine ⟨.whileLoop keyword c body, ⟨hc, hgrouped⟩, ?_, hopen⟩
      rw [hahead, htokens]
      rfl
    | leftBrace =>
      obtain ⟨left, t, hahead, hlength, hclean⟩ := keyword_reads (by decide) hkind hbound hclean
      obtain ⟨u, v, hstart, hbody, hend⟩ :=
        inBlock_reads (respects_block bound (respects_statement bound)) hclean
      rw [← hstart] at hlength hahead
      obtain ⟨body, right, hgrouped, htokens⟩ := block_reads ih hlength hbody
      refine ⟨.block left body right, hgrouped, ?_, fun hopen => nomatch hopen⟩
      rw [hahead, htokens, hend]
      rfl
    | _ =>
      obtain ⟨value, semicolon, hgrouped, htokens⟩ := valueStatement_reads hbound hclean.1
      exact ⟨.expression value semicolon, hgrouped, htokens, fun hopen => nomatch hopen⟩

/-! ## Whole scripts

A script that compiles is a list of declarations up to the end of the tokens. -/

/-- The loop over the declarations stops at the end of the script. -/
theorem program_reads {tokens : List Token} {s' : State}
    (h : Cleanly (program tokens.length) (.start tokens) () s') :
    ∃ (script : Decls) (rest : List Token), script.Grouped ∧ tokens = script.tokens ++ rest ∧
      nextKind rest = .eof := by
  obtain ⟨_, t, hdecls, _⟩ := h.of_bind
    (respects_repeatUntil _ (respects_declaration _ (respects_statement _)) _)
    fun _ => respects_bind respects_advance fun _ => respects_emit _
  have hlength : (State.start tokens).cursor.ahead.length ≤ tokens.length := Nat.le_refl _
  obtain ⟨script, hgrouped, htokens, hend⟩ := repeatUntil_reads (statement_reads tokens.length)
    (decide_eq_true rfl) hlength hlength hdecls
  exact ⟨script, t.cursor.ahead, hgrouped, htokens, of_decide_eq_true hend⟩

/-- The compiler accepts exactly the tokens of the scripts that fit, and it gives the code of the
script. -/
theorem result_compile_eq_ok {tokens : List Token} {chunk : Chunk} :
    (compile tokens).result = .ok chunk ↔
      ∃ (script : Decls) (rest : List Token), script.Grouped ∧ tokens = script.tokens ++ rest ∧
        nextKind rest = .eof ∧ ScriptFits (endLine script rest) script ∧
        chunk = Chunk.empty.extend (script.program (endLine script rest)) := by
  constructor
  · intro h
    obtain ⟨t, ht⟩ := program_ok tokens.length (.start tokens)
    have hcompile : compile tokens = t.compilation := by
      rw [compile, ht]
    have hclean : Cleanly (program tokens.length) (.start tokens) () t := by
      refine ⟨ht, ?_⟩
      rw [hcompile, Compilation.result] at h
      split at h
      · rename_i hempty
        simp only [State.compilation, List.isEmpty_iff, Array.toList_eq_nil_iff] at hempty
        rw [hempty]
        rfl
      · cases h
    obtain ⟨script, rest, hgrouped, rfl, hrest⟩ := program_reads hclean
    exact ⟨script, rest, hgrouped, rfl, hrest, (result_compile_eq_ok_iff hgrouped hrest).mp h⟩
  · rintro ⟨script, rest, hgrouped, rfl, hrest, hfits⟩
    exact (result_compile_eq_ok_iff hgrouped hrest).mpr hfits

end Compile

end StackScript
