import StackScript.Proofs.Compile.ExpressionCode

/-!
# The trees that the compiler reads

The compiler never builds a tree, but wherever it runs cleanly the tokens that it passes are those
of one. This module follows a clean run and collects the tree; code and scopes play no part, only
the cursor does.

The loop over operators carries a tree for what has been passed so far, whose right end is closed
off by the next token: `(nextKind ahead).precedence < left.rightLevel`. That is what makes the next
operator take the whole tree as its left operand.

Main statements: `infixForms_reads` for the loop and `expressionAt_reads` for expressions.
-/

namespace StackScript

open StackScript.Tree

/-! ## Tokens from what they stand for

Each prefix or infix form is that of one kind of token. -/

/-- The kind of token that stands for the form. -/
def PrefixForm.kind : PrefixForm → Kind
  | grouping => .leftParen
  | unary operator => operator.kind
  | name => .identifier
  | string => .string
  | number => .number
  | constant value => value.kind

def InfixForm.kind : InfixForm → Kind
  | binary operator => operator.kind
  | and => .andKw
  | or => .orKw

theorem Kind.eq_of_prefixForm? {kind : Kind} {form : PrefixForm}
    (h : kind.prefixForm? = some form) : kind = form.kind := by
  cases kind <;> cases h <;> rfl

theorem Kind.eq_of_infixForm? {kind : Kind} {form : InfixForm}
    (h : kind.infixForm? = some form) : kind = form.kind := by
  cases kind <;> cases h <;> rfl

namespace Compile

/-! ## Steps that pass no token

Steps that only append code or change the scope are of this kind. -/

/-- A step that leaves the cursor where it is. -/
def Stays {α : Type} (x : CompileM α) : Prop :=
  ∀ s a s', x s = .ok a s' → s'.cursor = s.cursor

theorem Stays.of_ok {α : Type} {x : CompileM α} (h : Stays x) {s s' : State} {a : α}
    (hrun : x s = .ok a s') : s'.cursor = s.cursor :=
  h s a s' hrun

instance : Declaring @Stays where
  pure _ := by
    intro s _ s' h
    cases h
    rfl
  bind hx hf := by
    intro s b s' h
    obtain ⟨a, t, hfirst, hrest⟩ := bind_eq_ok.mp h
    exact (hf a t b s' hrest).trans (hx s a t hfirst)
  inspect _ hf := fun s => hf s s
  readsPrevious _ hf := fun s => hf s.cursor.previous s
  emits _ _ := by
    intro s _ s' h
    cases h
    rfl
  refuses _ := by
    intro s _ s' h
    cases h
  rescopes _ := by
    intro s _ s' h
    cases h
    rfl

/-! ## Steps that pass one token

What is known of the tokens ahead from a step that succeeded. -/

section Tokens

variable {kind : Kind} {s s' : State}

/-- Where the next token has a kind other than that of an end of script, there is one. -/
theorem ahead_of_nextKind (hkind : kind ≠ .eof) (h : nextKind s.cursor.ahead = kind) :
    ∃ token : TokenOf kind, s.cursor.ahead = token.val :: s.cursor.advance.ahead := by
  have hadvance : s.cursor.advance.ahead = s.cursor.ahead.tail := rfl
  rw [hadvance]
  cases hahead : s.cursor.ahead with
  | nil =>
    rw [hahead] at h
    exact absurd h.symm hkind
  | cons token rest =>
    rw [hahead] at h
    exact ⟨⟨token, h⟩, rfl⟩

/-- The token was there and is passed, or it was not there. -/
theorem ahead_of_accept (hkind : kind ≠ .eof) {b : Bool} (h : accept kind s = .ok b s') :
    (b = true ∧ ∃ token : TokenOf kind, s.cursor.ahead = token.val :: s'.cursor.ahead) ∨
      (b = false ∧ s' = s ∧ nextKind s.cursor.ahead ≠ kind) := by
  rw [accept_apply, current_kind] at h
  split at h
  · rename_i hnext
    cases h
    exact .inl ⟨rfl, ahead_of_nextKind hkind hnext⟩
  · rename_i hnext
    cases h
    exact .inr ⟨rfl, rfl, hnext⟩

/-- The token was there. -/
theorem ahead_of_expect {what : Expectation} (hkind : kind ≠ .eof)
    (h : expect kind what s = .ok () s') :
    ∃ token : TokenOf kind, s.cursor.ahead = token.val :: s'.cursor.ahead := by
  rw [expect_apply, current_kind] at h
  split at h
  · rename_i hnext
    cases h
    exact ahead_of_nextKind hkind hnext
  · cases h

end Tokens

/-! ## Expressions

From an expression that compiles, a tree is read off whose tokens are those that were passed. -/

/-- What is compiled at a precedence is an expression of that level or a tighter one, and the next
token does not continue it. -/
def Reads (operand : Precedence → CompileM Unit) (bound : Nat) : Prop :=
  ∀ ⦃p s s'⦄, .assignment ≤ p → p ≤ .unary → s.cursor.ahead.length ≤ bound →
    operand p s = .ok () s' →
    ∃ e : Expr, e.Grouped ∧ p ≤ e.level ∧ s.cursor.ahead = e.tokens ++ s'.cursor.ahead ∧
      (nextKind s'.cursor.ahead).precedence < p ∧
      (p ≤ .assignment → nextKind s'.cursor.ahead ≠ .equal)

/-- A literal that compiles is a number. -/
theorem number_reads {s s' : State} (h : number s = .ok () s') :
    ∃ value, s.cursor.previous.numberValue? = some value := by
  rw [number, bind_of_ok (previous_apply s)] at h
  unfold Token.numberValue?
  cases hvalue : Decimal.readNumber? s.cursor.previous.lexeme with
  | some value =>
    cases s.cursor.previous.literal with
    | none => exact ⟨value, rfl⟩
    | some literal => cases literal <;> exact ⟨_, rfl⟩
  | none =>
    -- a token that spells no number has to have one of its own
    rw [hvalue] at h
    cases hliteral : s.cursor.previous.literal with
    | none =>
      rw [hliteral] at h
      cases h
    | some literal =>
      rw [hliteral] at h
      cases literal with
      | number value => exact ⟨value, rfl⟩
      | string text => cases h

section Operands

variable {operand : Precedence → CompileM Unit} {bound : Nat} {p : Precedence} {s s' : State}

/-- An operand that holds together as tightly as possible. -/
theorem primary_reads (hp : p ≤ .unary) {e : Expr} (hgrouped : e.Grouped)
    (hlevel : e.level = .primary) (hright : e.rightLevel = .primary) (ahead : List Token) :
    e.Grouped ∧ p ≤ e.level ∧ (nextKind ahead).precedence < e.rightLevel := by
  rw [hlevel, hright]
  exact ⟨hgrouped, le_trans hp (by decide),
    lt_of_lt_of_le (Kind.precedence_lt_unary _) (by decide)⟩

/-- A variable, or an assignment to it. -/
theorem variableUse_reads (hoperand : Reads operand bound) (hp : p ≤ .unary)
    (hbound : s.cursor.ahead.length ≤ bound) (hkind : s.cursor.previous.kind = .identifier)
    (h : variableUse operand (p ≤ .assignment) s = .ok () s') :
    ∃ e : Expr, e.Grouped ∧ p ≤ e.level ∧
      s.cursor.previous :: s.cursor.ahead = e.tokens ++ s'.cursor.ahead ∧
      (nextKind s'.cursor.ahead).precedence < e.rightLevel := by
  let target : TokenOf .identifier := ⟨s.cursor.previous, hkind⟩
  rw [variableUse_eq, bind_of_ok (previous_apply s)] at h
  obtain ⟨place, t, haccess, hafter⟩ := bind_eq_ok.mp h
  obtain ⟨assigns, u, hassigns, huse⟩ := bind_eq_ok.mp hafter
  have hstay := Stays.of_ok (respects_access _) haccess
  -- a plain use of the variable
  have hname : u.cursor = t.cursor → emit place.get u = .ok () s' →
      ∃ e : Expr, e.Grouped ∧ p ≤ e.level ∧
        s.cursor.previous :: s.cursor.ahead = e.tokens ++ s'.cursor.ahead ∧
        (nextKind s'.cursor.ahead).precedence < e.rightLevel := by
    intro hcursor hemit
    have hend : s'.cursor = s.cursor :=
      (Stays.of_ok (respects_emit _) hemit).trans (hcursor.trans hstay)
    obtain ⟨hgrouped, hlevel, hright⟩ :=
      primary_reads hp (e := .name target) trivial rfl rfl s'.cursor.ahead
    exact ⟨.name target, hgrouped, hlevel, by rw [hend]; rfl, hright⟩
  by_cases hassign : p ≤ .assignment
  · have haccept : accept .equal t = .ok assigns u := by
      rw [decide_eq_true hassign] at hassigns
      exact hassigns
    rcases ahead_of_accept (by decide) haccept with ⟨rfl, equal, hequal⟩ | ⟨rfl, rfl, _⟩
    · obtain ⟨_, v, hvalue, hemit⟩ := bind_eq_ok.mp huse
      have hend := Stays.of_ok (respects_emit _) hemit
      rw [hstay] at hequal
      have hlength : u.cursor.ahead.length ≤ bound := by
        rw [hequal, List.length_cons] at hbound
        omega
      obtain ⟨value, hgrouped, _, htokens, hnext, _⟩ :=
        hoperand (by decide) (by decide) hlength hvalue
      refine ⟨.assign target equal value, hgrouped, hassign, ?_, ?_⟩
      · rw [hequal, htokens, hend]
        rfl
      · rw [hend]
        exact hnext
    · exact hname rfl huse
  · rw [decide_eq_false hassign] at hassigns
    cases hassigns
    exact hname rfl huse

/-- What starts with the token passed last. -/
theorem prefixForm_reads (hoperand : Reads operand bound) (hp : p ≤ .unary) {form : PrefixForm}
    (hbound : s.cursor.ahead.length ≤ bound)
    (hform : s.cursor.previous.kind.prefixForm? = some form)
    (h : prefixForm operand (p ≤ .assignment) form s = .ok () s') :
    ∃ e : Expr, e.Grouped ∧ p ≤ e.level ∧
      s.cursor.previous :: s.cursor.ahead = e.tokens ++ s'.cursor.ahead ∧
      (nextKind s'.cursor.ahead).precedence < e.rightLevel := by
  have hkind := Kind.eq_of_prefixForm? hform
  cases form with
  | grouping =>
    obtain ⟨_, t, hinner, hclose⟩ := bind_eq_ok.mp h
    -- inside parentheses any expression will do, so the level of the inner one does not matter
    obtain ⟨inner, hgrouped, _, htokens, _⟩ := hoperand (by decide) (by decide) hbound hinner
    obtain ⟨right, hright⟩ := ahead_of_expect (by decide) hclose
    obtain ⟨hall, hlevel, hnext⟩ := primary_reads hp
      (e := .grouping ⟨s.cursor.previous, hkind⟩ inner right) hgrouped rfl rfl s'.cursor.ahead
    refine ⟨_, hall, hlevel, ?_, hnext⟩
    rw [htokens, hright]
    simp [Expr.tokens]
  | unary operator =>
    obtain ⟨_, t, hinner, hemit⟩ := bind_eq_ok.mp h
    have hend := Stays.of_ok (respects_emit _) hemit
    -- the operand binds at least as tightly as the operator
    obtain ⟨inner, hgrouped, hlevel, htokens, hnext, _⟩ :=
      hoperand (by decide) (by decide) hbound hinner
    refine ⟨.unary operator ⟨s.cursor.previous, hkind⟩ inner, ⟨hgrouped, hlevel⟩, hp, ?_, ?_⟩
    · rw [htokens, hend]
      rfl
    · exact Kind.precedence_lt_unary _
  | name => exact variableUse_reads hoperand hp hbound hkind h
  | string =>
    have hend := Stays.of_ok respects_string h
    obtain ⟨hall, hlevel, hnext⟩ := primary_reads hp (e := .string ⟨s.cursor.previous, hkind⟩)
      trivial rfl rfl s'.cursor.ahead
    exact ⟨_, hall, hlevel, by rw [hend]; rfl, hnext⟩
  | number =>
    have hend := Stays.of_ok respects_number h
    obtain ⟨value, hvalue⟩ := number_reads h
    obtain ⟨hall, hlevel, hnext⟩ := primary_reads hp
      (e := .number ⟨s.cursor.previous, hkind⟩ value hvalue) trivial rfl rfl s'.cursor.ahead
    exact ⟨_, hall, hlevel, by rw [hend]; rfl, hnext⟩
  | constant value =>
    have hend := Stays.of_ok (respects_emit _) h
    obtain ⟨hall, hlevel, hnext⟩ := primary_reads hp
      (e := .constant value ⟨s.cursor.previous, hkind⟩) trivial rfl rfl s'.cursor.ahead
    exact ⟨_, hall, hlevel, by rw [hend]; rfl, hnext⟩

/-! ### Operators

The levels of the operands are what the precedence of an operator asks for, so the tree is grouped.
-/

/-- An operator before which an expression ends takes the whole of it as its left operand. -/
theorem precedence_le_level {operator : BinaryOperator} {left : Expr}
    (h : operator.precedence < left.rightLevel) : operator.precedence ≤ left.level := by
  have hrank := Precedence.rank_precedence operator
  rw [← Precedence.rank_strictMono.lt_iff_lt] at h
  rw [← Precedence.rank_strictMono.le_iff_le]
  cases left with
  | binary inner _ _ _ =>
    have hnext := Precedence.rank_next_precedence inner
    simp only [Expr.rightLevel, Expr.level] at h ⊢
    omega
  | _ =>
    simp only [Expr.rightLevel, Expr.level, Precedence.rank] at h hrank ⊢
    omega

/-- An operand that binds tighter at its right end does so on the whole. -/
theorem and_lt_level {left : Expr} (h : Precedence.and < left.rightLevel) :
    Precedence.and < left.level := by
  cases left with
  | binary inner _ _ _ => exact (Precedence.rank_precedence inner).1
  | _ => exact h

theorem or_lt_level {left : Expr} (h : Precedence.or < left.rightLevel) :
    Precedence.or < left.level := by
  cases left with
  | binary inner _ _ _ => exact Nat.lt_trans (by decide) (Precedence.rank_precedence inner).1
  | _ => exact h

/-- An operator makes one tree of what is before it and what is after it. -/
theorem infixForm_reads (hoperand : Reads operand bound) {form : InfixForm} {token : Token}
    (hkind : token.kind = form.kind) {left : Expr} (hleft : left.Grouped)
    (hends : form.precedence < left.rightLevel) (hbound : s.cursor.ahead.length ≤ bound)
    (h : infixForm operand form s = .ok () s') :
    ∃ e right : Expr, e.Grouped ∧ e.level = form.precedence ∧
      e.tokens = left.tokens ++ token :: right.tokens ∧
      s.cursor.ahead = right.tokens ++ s'.cursor.ahead ∧
      (nextKind s'.cursor.ahead).precedence < e.rightLevel := by
  cases form with
  | binary operator =>
    have hrank := Precedence.rank_precedence operator
    have hnextRank := Precedence.rank_next_precedence operator
    -- the right operand is read one level up, which groups equal operators to the left
    have hloose : .assignment ≤ operator.precedence.next := by
      rw [← Precedence.rank_strictMono.le_iff_le]
      simp only [Precedence.rank] at hrank hnextRank ⊢
      omega
    have htight : operator.precedence.next ≤ .unary := by
      rw [← Precedence.rank_strictMono.le_iff_le]
      omega
    obtain ⟨_, t, hright, hemit⟩ := bind_eq_ok.mp h
    have hend := Stays.of_ok (respects_forM_emit _) hemit
    obtain ⟨right, hgrouped, hlevel, htokens, hnext, _⟩ := hoperand hloose htight hbound hright
    refine ⟨.binary operator left ⟨token, hkind⟩ right, right,
      ⟨hleft, hgrouped, precedence_le_level hends, hlevel⟩, rfl, rfl, ?_, ?_⟩
    · rw [htokens, hend]
    · rw [hend]
      exact hnext
  | and =>
    obtain ⟨done, t, hjump, hafter⟩ := bind_eq_ok.mp h
    obtain ⟨_, u, hpop, hafter⟩ := bind_eq_ok.mp hafter
    obtain ⟨_, v, hright, hpatch⟩ := bind_eq_ok.mp hafter
    -- emitting and completing jumps passes no token; the right operand may be another `and`
    have hstart : u.cursor = s.cursor :=
      (Stays.of_ok (respects_emit _) hpop).trans (Stays.of_ok (respects_emitJump _) hjump)
    have hend := Stays.of_ok (respects_patchJump _) hpatch
    obtain ⟨right, hgrouped, hlevel, htokens, hnext, _⟩ :=
      hoperand (by decide) (by decide) (hstart ▸ hbound) hright
    refine ⟨.and left ⟨token, hkind⟩ right, right,
      ⟨hleft, hgrouped, and_lt_level hends, hlevel⟩, rfl, rfl, ?_, ?_⟩
    · rw [← hstart, htokens, hend]
    · rw [hend]
      exact hnext
  | or =>
    obtain ⟨otherwise, t, hjump, hafter⟩ := bind_eq_ok.mp h
    obtain ⟨done, t', hjump', hafter⟩ := bind_eq_ok.mp hafter
    obtain ⟨_, u, hpatch, hafter⟩ := bind_eq_ok.mp hafter
    obtain ⟨_, u', hpop, hafter⟩ := bind_eq_ok.mp hafter
    obtain ⟨_, v, hright, hpatch'⟩ := bind_eq_ok.mp hafter
    have hstart : u'.cursor = s.cursor :=
      ((Stays.of_ok (respects_emit _) hpop).trans (Stays.of_ok (respects_patchJump _) hpatch)).trans
        ((Stays.of_ok (respects_emitJump _) hjump').trans (Stays.of_ok (respects_emitJump _) hjump))
    have hend := Stays.of_ok (respects_patchJump _) hpatch'
    obtain ⟨right, hgrouped, hlevel, htokens, hnext, _⟩ :=
      hoperand (by decide) (by decide) (hstart ▸ hbound) hright
    refine ⟨.or left ⟨token, hkind⟩ right, right, ⟨hleft, hgrouped, or_lt_level hends, hlevel⟩, rfl,
      rfl, ?_, ?_⟩
    · rw [← hstart, htokens, hend]
    · rw [hend]
      exact hnext

/-- A token that binds at all is an operator. -/
theorem operator_ahead (h : .assignment ≤ (nextKind s.cursor.ahead).precedence) :
    ∃ token rest, s.cursor.ahead = token :: rest ∧ ∃ form, token.kind.infixForm? = some form := by
  cases hahead : s.cursor.ahead with
  | nil =>
    rw [hahead] at h
    exact absurd h (by decide)
  | cons token rest =>
    rw [hahead, nextKind_cons, Kind.precedence] at h
    cases hform : token.kind.infixForm? with
    | none =>
      rw [hform] at h
      exact absurd h (by decide)
    | some form => exact ⟨token, rest, rfl, form, hform⟩

/-- The loop extends the tree on its left until an operator comes that binds too loosely. -/
theorem infixForms_reads (hoperand : Reads operand bound) (hp : .assignment ≤ p) {count : Nat}
    {left : Expr} (hleft : left.Grouped) (hlevel : p ≤ left.level)
    (hends : (nextKind s.cursor.ahead).precedence < left.rightLevel)
    (hbound : s.cursor.ahead.length ≤ bound) (hcount : s.cursor.ahead.length ≤ count)
    (h : infixForms operand p count s = .ok () s') :
    ∃ e : Expr, e.Grouped ∧ p ≤ e.level ∧
      left.tokens ++ s.cursor.ahead = e.tokens ++ s'.cursor.ahead ∧
      (nextKind s'.cursor.ahead).precedence < p := by
  induction count generalizing left s with
  | zero =>
    -- no token is left, and an end of script continues nothing
    have hnone : s.cursor.ahead = [] := List.length_eq_zero_iff.mp (Nat.le_zero.mp hcount)
    cases h
    refine ⟨left, hleft, hlevel, rfl, ?_⟩
    rw [hnone]
    exact lt_of_lt_of_le (by decide) hp
  | succ count ih =>
    rw [infixForms, bind_of_ok (current_apply s), current_kind] at h
    by_cases hgo : p ≤ (nextKind s.cursor.ahead).precedence
    · rw [if_pos hgo] at h
      obtain ⟨token, rest, hahead, form, hform⟩ := operator_ahead (le_trans hp hgo)
      rw [hahead, nextKind_cons] at h hgo hends
      rw [hahead, List.length_cons] at hbound hcount
      rw [bind_of_ok (advance_cons hahead), hform] at h
      obtain ⟨_, t, hoperator, hmore⟩ := bind_eq_ok.mp h
      have hprecedence : token.kind.precedence = form.precedence := by
        rw [Kind.precedence, hform]
      rw [hprecedence] at hgo hends
      have hrestBound : (s.past token rest).cursor.ahead.length ≤ bound := by
        show rest.length ≤ bound
        omega
      obtain ⟨e, right, hgrouped, helevel, htokens, hrest, hnext⟩ := infixForm_reads hoperand
        (Kind.eq_of_infixForm? hform) hleft hends hrestBound hoperator
      -- the operator was a token, so the rest is short enough for the next round
      have hlengths := congrArg List.length hrest
      rw [List.length_append] at hlengths
      change rest.length = _ at hlengths
      obtain ⟨e', hgrouped', helevel', htokens', hnext'⟩ :=
        ih hgrouped (helevel ▸ hgo) hnext (by omega) (by omega) hmore
      refine ⟨e', hgrouped', helevel', ?_, hnext'⟩
      change rest = _ at hrest
      rw [← htokens', htokens, hahead, hrest, List.append_assoc, List.cons_append]
    · rw [if_neg hgo] at h
      cases h
      exact ⟨left, hleft, hlevel, rfl, not_le.mp hgo⟩

/-- The first operand is there and starts with a token that can start one. -/
theorem first_reads (hoperand : Reads operand bound) (hp : p ≤ .unary)
    (hbound : s.cursor.ahead.length ≤ bound + 1) (h : first operand p s = .ok () s') :
    ∃ e : Expr, e.Grouped ∧ p ≤ e.level ∧ s.cursor.ahead = e.tokens ++ s'.cursor.ahead ∧
      (nextKind s'.cursor.ahead).precedence < e.rightLevel := by
  rw [first] at h
  cases hahead : s.cursor.ahead with
  | nil =>
    rw [bind_of_ok (advance_apply s), bind_of_ok (previous_apply _)] at h
    simp only [Cursor.advance, Cursor.current, hahead] at h
    cases h
  | cons token rest =>
    rw [bind_of_ok (advance_cons hahead), bind_of_ok (previous_apply _)] at h
    rw [hahead, List.length_cons] at hbound
    cases hform : token.kind.prefixForm? with
    | none =>
      simp only [State.cursor_past, hform] at h
      cases h
    | some form =>
      simp only [State.cursor_past, hform] at h
      have hrest : (s.past token rest).cursor.ahead.length ≤ bound := by
        show rest.length ≤ bound
        omega
      exact prefixForm_reads hoperand hp hrest hform h

end Operands

/-- What is compiled as an expression is one. -/
theorem expressionAt_reads (bound : Nat) : Reads (expressionAt bound) bound := by
  induction bound with
  | zero =>
    intro p s s' _ _ _ h
    cases h
  | succ bound ih =>
    intro p s s' hloose htight hbound h
    rw [expressionAt_succ] at h
    obtain ⟨_, u, hlead, hafter⟩ := bind_eq_ok.mp h
    obtain ⟨_, t, hfirst, hloop⟩ := bind_eq_ok.mp hlead
    obtain ⟨left, hleft, hleftLevel, hleftTokens, hends⟩ := first_reads ih htight hbound hfirst
    have hlengths := congrArg List.length hleftTokens
    have hpositive := left.spine_lt_length_tokens
    rw [List.length_append] at hlengths
    obtain ⟨e, hgrouped, hlevel, htokens, hnext⟩ :=
      infixForms_reads ih hloose hleft hleftLevel hends (by omega) (by omega) hloop
    -- an assignment that could not be made is an error, so no `=` is left
    have hequal : s' = u ∧ (p ≤ .assignment → nextKind u.cursor.ahead ≠ .equal) := by
      rw [noAssignment] at hafter
      by_cases hassign : p ≤ .assignment
      · rw [if_pos hassign] at hafter
        obtain ⟨b, v, haccept, hrest⟩ := bind_eq_ok.mp hafter
        rcases ahead_of_accept (by decide) haccept with ⟨rfl, _⟩ | ⟨rfl, rfl, hne⟩
        · cases hrest
        · cases hrest
          exact ⟨rfl, fun _ => hne⟩
      · rw [if_neg hassign] at hafter
        cases hafter
        exact ⟨rfl, fun hle => absurd hle hassign⟩
    obtain ⟨rfl, hequal⟩ := hequal
    exact ⟨e, hgrouped, hlevel, hleftTokens.trans htokens, hnext, hequal⟩

theorem expression_reads {bound : Nat} {s s' : State} (hbound : s.cursor.ahead.length ≤ bound)
    (h : expression bound s = .ok () s') :
    ∃ e : Expr, e.Grouped ∧ s.cursor.ahead = e.tokens ++ s'.cursor.ahead := by
  obtain ⟨e, hgrouped, _, htokens, _⟩ :=
    expressionAt_reads bound (by decide) (by decide) hbound h
  exact ⟨e, hgrouped, htokens⟩

end Compile

end StackScript
