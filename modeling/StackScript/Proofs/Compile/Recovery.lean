import StackScript.Proofs.Compile.Acceptance
import StackScript.Proofs.Compile.Bookkeeping
import StackScript.Proofs.Compile.FlatStatement

/-!
# Errors that do not disturb each other

After an error the compiler takes up again at the next statement. So an error stays in the statement
it belongs to, as long as the end of that statement is not in doubt.

* **`Resumes`**: the loop over declarations comes from one state to another.
* **`Travels`**: two scripts that share some tokens pass them with the same errors, whatever comes
  before and after the tokens.
* **`IsItem`**: pieces of a script with a clear end: correct code, flat statements, and blocks of
  such pieces.
* **`errors_eq_flatMap`**: the errors of a script of such pieces are those of its pieces.
-/

namespace StackScript.Compile

open StackScript.Tree

/-! ## The loop over declarations

The loop that compiles a script can be cut after any declaration: what is left is the same loop from
the state that was reached. -/

/-- The loop over declarations does in the state `s` what it does in the state `t`. -/
def Resumes (stop : Kind → Bool) (bound : Nat) (s t : State) : Prop :=
  ∀ ⦃count count' : Nat⦄, s.cursor.ahead.length ≤ count → t.cursor.ahead.length ≤ count' →
    repeatUntil stop (declaration bound (statement bound)) count s =
      repeatUntil stop (declaration bound (statement bound)) count' t

section Resumes

variable {stop : Kind → Bool} {bound : Nat} {s t u : State}

theorem resumes_refl (heof : stop .eof = true) (bound : Nat) (s : State) :
    Resumes stop bound s s := by
  intro count count' hcount hcount'
  exact sameUpTo_repeatUntil heof (sameUpTo_refl _)
    (consumes_declaration bound (consumes_statement bound)) hcount hcount' s (Nat.le_refl _)

/-- The loop goes on where it was cut, and is cut again. -/
theorem Resumes.trans (hst : Resumes stop bound s t) (htu : Resumes stop bound t u) :
    Resumes stop bound s u := by
  intro count count' hcount hcount'
  exact (hst hcount (Nat.le_refl _)).trans (htu (Nat.le_refl _) hcount')

/-- Where the loop goes on, there is a token. -/
theorem ahead_ne_nil_of_not_stop (heof : stop .eof = true)
    (hstop : stop (nextKind s.cursor.ahead) = false) : s.cursor.ahead ≠ [] := by
  intro hnone
  rw [hnone] at hstop
  exact absurd (hstop.symm.trans heof) (by decide)

/-- A declaration is one round of the loop. -/
theorem resumes_of_declaration (heof : stop .eof = true)
    (hstop : stop (nextKind s.cursor.ahead) = false)
    (hstep : declaration bound (statement bound) s = .ok () t) : Resumes stop bound s t := by
  intro count count' hcount hcount'
  have hconsumes := consumes_declaration bound (consumes_statement bound)
  have hless := hconsumes.length_lt (ahead_ne_nil_of_not_stop heof hstop)
  rw [hstep] at hless
  have hless : t.cursor.ahead.length < s.cursor.ahead.length := hless
  obtain ⟨count, rfl⟩ : ∃ c, count = c + 1 := ⟨count - 1, by omega⟩
  rw [repeatUntil_succ hstop, bind_of_ok hstep]
  exact resumes_refl heof bound t (by omega) hcount'

/-- The loop ends where it is meant to stop. -/
theorem Resumes.eq_ok (h : Resumes stop bound s t) (hstop : stop (nextKind t.cursor.ahead) = true)
    {count : Nat} (hcount : s.cursor.ahead.length ≤ count) :
    repeatUntil stop (declaration bound (statement bound)) count s = .ok () t := by
  rw [h hcount (Nat.le_refl _)]
  exact repeatUntil_of_stop hstop _

end Resumes

/-! ### The token before a declaration

A declaration does not look at the token before it, so the loop goes on in the same way whatever
statement came before. -/

/-- The token passed last does not matter to a step that begins by passing the next one. -/
def IgnoresPrevious {α : Type} (x : CompileM α) : Prop :=
  ∀ (s : State) (last token : Token) (rest : List Token), s.cursor.ahead = token :: rest →
    x (s.past last (token :: rest)) = x s

section IgnoresPrevious

variable {α β : Type}

/-- It is enough that the first step passes a token without looking at the one before. -/
theorem IgnoresPrevious.bind {x : CompileM α} (hx : IgnoresPrevious x) (f : α → CompileM β) :
    IgnoresPrevious (x >>= f) :=
  fun s last token rest hahead => bind_apply_congr (hx s last token rest hahead)

theorem ignoresPrevious_advance : IgnoresPrevious advance := by
  intro s last token rest hahead
  rw [advance_cons hahead, advance_cons (s := s.past last (token :: rest)) rfl]
  rfl

theorem ignoresPrevious_expressionStatement (bound : Nat) :
    IgnoresPrevious (expressionStatement bound) := by
  have hexpression : IgnoresPrevious (expression bound) := by
    cases bound with
    | zero => exact ignoresPrevious_advance.bind _
    | succ bound => exact ignoresPrevious_advance.bind _
  exact hexpression.bind _

/-- A statement passes its first token before it looks back. -/
theorem ignoresPrevious_statement (bound : Nat) : IgnoresPrevious (statement bound) := by
  cases bound with
  | zero => exact ignoresPrevious_expressionStatement 0
  | succ bound =>
    intro s last token rest hahead
    have hfrom : IgnoresPrevious (statementFrom bound token.kind) := by
      cases token.kind
      case printKw => exact ignoresPrevious_advance.bind _
      case forKw => exact ignoresPrevious_advance.bind _
      case ifKw => exact ignoresPrevious_advance.bind _
      case whileKw => exact ignoresPrevious_advance.bind _
      case leftBrace => exact ignoresPrevious_advance.bind _
      all_goals exact ignoresPrevious_expressionStatement (bound + 1)
    rw [statement_apply, statement_apply, hahead]
    exact hfrom s last token rest hahead

/-- So does a declaration. -/
theorem ignoresPrevious_declaration (bound : Nat) :
    IgnoresPrevious (declaration bound (statement bound)) := by
  intro s last token rest hahead
  have hstep : (do if ← accept .varKw then variableDeclaration bound else statement bound :
      CompileM Unit) (s.past last (token :: rest)) =
      (do if ← accept .varKw then variableDeclaration bound else statement bound :
        CompileM Unit) s := by
    by_cases hvar : token.kind = .varKw
    · rw [bind_of_ok (accept_cons hahead .varKw hvar),
        bind_of_ok (accept_cons (s := s.past last (token :: rest)) rfl .varKw hvar)]
      rfl
    · rw [bind_of_ok (accept_of_ne (s := s.past last (token :: rest)) .varKw hvar),
        bind_of_ok (accept_of_ne .varKw (by rwa [hahead]))]
      exact ignoresPrevious_statement bound s last token rest hahead
  unfold declaration recovering
  refine bind_apply_congr ?_
  rw [attempt, attempt, hstep]

/-- The loop goes on in the same way after any other token. -/
theorem resumes_past {stop : Kind → Bool} (heof : stop .eof = true) (bound : Nat) {s : State}
    (hstop : stop (nextKind s.cursor.ahead) = false) (last : Token) :
    Resumes stop bound s (s.past last s.cursor.ahead) := by
  obtain ⟨token, rest, hahead⟩ := List.exists_cons_of_ne_nil (ahead_ne_nil_of_not_stop heof hstop)
  intro count count' hcount hcount'
  have hstop' : stop (nextKind (s.past last s.cursor.ahead).cursor.ahead) = false := hstop
  have hpositive : 0 < s.cursor.ahead.length := by simp [hahead]
  obtain ⟨count, rfl⟩ : ∃ c, count = c + 1 := ⟨count - 1, by omega⟩
  rw [resumes_refl heof bound _ hcount' hcount, repeatUntil_succ hstop, repeatUntil_succ hstop']
  have hsame := ignoresPrevious_declaration bound s last token rest hahead
  rw [← hahead] at hsame
  exact (bind_apply_congr hsame).symm

end IgnoresPrevious

/-! ## Scripts that share tokens

Two scripts have some tokens in common, with other tokens before and after them. The shared tokens
lead to the same errors in both, if they can be passed in one piece. -/

/-- A scope between two statements. -/
structure AtStatement (c : Scope) : Prop where
  wellFormed : c.WellFormed
  blocks : ∃ blocks, c = .ofBlocks blocks

theorem atStatement_empty : AtStatement .empty :=
  ⟨Scope.wellFormed_empty, [], rfl⟩

/-- A block can be opened between statements. -/
theorem AtStatement.beginBlock {c : Scope} (h : AtStatement c) : AtStatement c.beginBlock := by
  obtain ⟨hwell, blocks, rfl⟩ := h
  exact ⟨hwell.beginBlock, [] :: blocks, rfl⟩

/-- Outside of all blocks there are no locals. -/
theorem AtStatement.eq_empty {c : Scope} (h : AtStatement c) (hdepth : c.depth = 0) :
    c = .empty := by
  obtain ⟨_, blocks, rfl⟩ := h
  rw [List.eq_nil_of_length_eq_zero hdepth]
  rfl

/-- A declaration leads from one place between statements to another. -/
theorem AtStatement.grown {c c' : Scope} (h : AtStatement c) (hgrown : c.Grown c') :
    AtStatement c' ∧ c'.depth = c.depth := by
  obtain ⟨hwell, hadded⟩ := hgrown
  rcases hadded with rfl | ⟨name, rfl⟩
  · exact ⟨h, rfl⟩
  · obtain ⟨_, blocks, rfl⟩ := h
    refine ⟨⟨hwell, ?_⟩, rfl⟩
    cases blocks with
    | nil =>
      -- outside of all blocks no local can have been added
      have hdepth := hwell.within 0 List.mem_cons_self
      omega
    | cons block outer => exact ⟨(name :: block) :: outer, rfl⟩

/-- The scope after a declaration. -/
theorem AtStatement.declaration {bound : Nat} {s t : State} (h : AtStatement s.scope)
    (hstep : Compile.declaration bound (statement bound) s = .ok () t) :
    AtStatement t.scope ∧ t.scope.depth = s.scope.depth := by
  have hgrown := grown_declaration bound h.wellFormed
  rw [hstep] at hgrown
  exact h.grown hgrown

/-- Two scripts are about to pass the same tokens, after which they go on differently. -/
structure Ready (rest rest' shared : List Token) (s s' : State) : Prop where
  ahead : s.cursor.ahead = shared ++ rest
  ahead' : s'.cursor.ahead = shared ++ rest'
  scope : s'.scope = s.scope
  atStatement : AtStatement s.scope
  room : Room 0 s
  room' : Room 0 s'

/-- Both scripts go on where the shared tokens end, and have found the same errors on the way. -/
def Passes (stop : Kind → Bool) (bound : Nat) (rest rest' : List Token) (s s' : State) : Prop :=
  ∃ t t' es, Resumes stop bound s t ∧ Resumes stop bound s' t' ∧ Ready rest rest' [] t t' ∧
    t.scope.depth = s.scope.depth ∧ t.errors.toList = s.errors.toList ++ es ∧
    t'.errors.toList = s'.errors.toList ++ es

/-- Tokens that two scripts can share: whatever comes before and after them, if it is no `else`,
both scripts pass them with the same errors. -/
structure Travels (shared : List Token) : Prop where
  start : ∀ {rest : List Token}, nextKind rest ≠ .elseKw → nextKind (shared ++ rest) ≠ .elseKw
  passes : ∀ {stop : Kind → Bool} {bound : Nat} {rest rest' : List Token} {s s' : State},
    stop .eof = true → (∀ kind, stop kind = true → kind = .rightBrace ∨ kind = .eof) →
    nextKind rest ≠ .elseKw → nextKind rest' ≠ .elseKw →
    s.cursor.ahead.length ≤ bound → s'.cursor.ahead.length ≤ bound →
    Ready rest rest' shared s s' → Passes stop bound rest rest' s s'

theorem travels_nil : Travels [] where
  start hrest := hrest
  passes heof _ _ _ _ _ hready :=
    ⟨_, _, [], resumes_refl heof _ _, resumes_refl heof _ _, hready, rfl,
      (List.append_nil _).symm, (List.append_nil _).symm⟩

/-- Pieces can be put together. -/
theorem Travels.append {a b : List Token} (ha : Travels a) (hb : Travels b) :
    Travels (a ++ b) where
  start hrest := by
    rw [List.append_assoc]
    exact ha.start (hb.start hrest)
  passes := by
    intro stop bound rest rest' s s' heof hstop hrest hrest' hbound hbound' hready
    have hahead := hready.ahead
    have hahead' := hready.ahead'
    rw [List.append_assoc] at hahead hahead'
    -- the first piece in both scripts
    obtain ⟨t, t', es, hst, hst', ht, hdepth, herrors, herrors'⟩ :=
      ha.passes heof hstop (hb.start hrest) (hb.start hrest') hbound hbound'
        ⟨hahead, hahead', hready.scope, hready.atStatement, hready.room, hready.room'⟩
    have hlength : t.cursor.ahead.length ≤ bound := by
      rw [ht.ahead]
      rw [hahead, List.length_append] at hbound
      exact Nat.le_trans (Nat.le_add_left _ _) hbound
    have hlength' : t'.cursor.ahead.length ≤ bound := by
      rw [ht.ahead']
      rw [hahead', List.length_append] at hbound'
      exact Nat.le_trans (Nat.le_add_left _ _) hbound'
    -- the second piece, from where the first one has led to
    obtain ⟨u, u', fs, htu, htu', hu, hdepth', herrors₂, herrors₂'⟩ :=
      hb.passes heof hstop hrest hrest' hlength hlength'
        ⟨ht.ahead, ht.ahead', ht.scope, ht.atStatement, ht.room, ht.room'⟩
    refine ⟨u, u', es ++ fs, hst.trans htu, hst'.trans htu', hu, hdepth'.trans hdepth, ?_, ?_⟩
    · rw [herrors₂, herrors, List.append_assoc]
    · rw [herrors₂', herrors', List.append_assoc]

/-- Any number of pieces can be put together. -/
theorem travels_flatten {items : List (List Token)} (h : ∀ item ∈ items, Travels item) :
    Travels items.flatten := by
  induction items with
  | nil => exact travels_nil
  | cons item items ih =>
    obtain ⟨hitem, hitems⟩ := List.forall_mem_cons.mp h
    exact hitem.append (ih hitems)

/-! ### Flat statements

They are compiled with the same errors wherever they stand. -/

/-- A flat statement starts with a plain token or is only a semicolon. -/
theorem nextKind_flat {left : List Token} (h : Flat left) (rest : List Token) :
    nextKind (left ++ rest) = .semicolon ∨ (nextKind (left ++ rest)).isPlain = true := by
  cases h with
  | last hkind => exact .inl hkind
  | cons hplain _ => exact .inr hplain

/-- So the loop does not stop before it. -/
theorem not_stop_flat {stop : Kind → Bool}
    (hstop : ∀ kind, stop kind = true → kind = .rightBrace ∨ kind = .eof) {left rest : List Token}
    (h : Flat left) : stop (nextKind (left ++ rest)) = false := by
  rcases hkind : stop (nextKind (left ++ rest)) with _ | _
  · rfl
  · have hnext := nextKind_flat h rest
    rcases hstop _ hkind with hbrace | hend
    · rw [hbrace] at hnext
      exact absurd hnext (by decide)
    · rw [hend] at hnext
      exact absurd hnext (by decide)

/-- The pieces of a flat statement, one after the other. -/
theorem exists_past_of_along {stop : Kind → Bool} (heof : stop .eof = true)
    (hstop : ∀ kind, stop kind = true → kind = .rightBrace ∨ kind = .eof) (bound : Nat)
    {k : Fork} {s s' : State} (h : Abreast k Along 0 s s') (hs : AtStatement s.scope) :
    ∃ t t' es, Resumes stop bound s t ∧ Resumes stop bound s' t' ∧
      Abreast (k.report es) Past 0 t t' ∧ AtStatement t.scope ∧
      t.scope.depth = s.scope.depth := by
  induction hlength : s.cursor.ahead.length using Nat.strongRecOn generalizing k s s' with
  | ind n ih =>
    obtain ⟨left, hflat, hahead, hcursor⟩ := h.cursor
    have hround : stop (nextKind s.cursor.ahead) = false := by
      rw [hahead]
      exact not_stop_flat hstop hflat
    have hround' : stop (nextKind s'.cursor.ahead) = false := by
      rw [hcursor]
      exact not_stop_flat hstop hflat
    -- one round in each of the two compilations, which report the same errors
    obtain ⟨t, t', es, hstep, hstep', ht⟩ := h.declaration bound
    obtain ⟨hat, hdepth⟩ := hs.declaration hstep
    have hst := resumes_of_declaration heof hround hstep
    have hst' := resumes_of_declaration heof hround' hstep'
    obtain ⟨left', hwithin, hplace⟩ := ht.cursor
    rcases hwithin with halong | hpast
    -- recovery may stop in the middle of the statement, but further on than before
    · have hless := (consumes_declaration bound (consumes_statement bound)).length_lt
        (ahead_ne_nil_of_not_stop heof hround)
      rw [hstep, hlength] at hless
      obtain ⟨u, u', fs, htu, htu', hu, hat', hdepth'⟩ :=
        ih _ hless { ht with cursor := ⟨left', halong, hplace⟩ } hat rfl
      rw [Fork.report_report] at hu
      exact ⟨u, u', es ++ fs, hst.trans htu, hst'.trans htu', hu, hat', hdepth'.trans hdepth⟩
    · exact ⟨t, t', es, hst, hst', { ht with cursor := ⟨left', hpast, hplace⟩ }, hat, hdepth⟩

/-- A flat statement is a piece, whether it is correct or not. -/
theorem travels_flat {left : List Token} (h : Flat left) : Travels left where
  start {rest} _ := by
    rcases nextKind_flat h rest with hkind | hplain
    · rw [hkind]
      decide
    · intro helse
      rw [helse] at hplain
      exact absurd hplain (by decide)
  passes := by
    intro stop bound rest rest' s s' heof hstop _ _ _ _ hready
    let k : Fork := ⟨rest, rest', s'.chunk.size, s.chunk.size, s.errors.toList, s'.errors.toList⟩
    have hround : stop (nextKind s'.cursor.ahead) = false := by
      rw [hready.ahead']
      exact not_stop_flat hstop h
    -- what was passed before the statement may differ, and nothing in it depends on that
    have hpast := resumes_past heof bound hround s.cursor.previous
    have hk : Abreast k Along 0 s (s'.past s.cursor.previous s'.cursor.ahead) := by
      refine ⟨⟨left, h, hready.ahead, ?_⟩, hready.scope, Nat.add_comm _ _, rfl, rfl, hready.room,
        ⟨hready.room'.constants, hready.room'.locals⟩⟩
      rw [State.cursor_past, hready.ahead']
    obtain ⟨t, t', es, hst, hst', ht, hat, hdepth⟩ :=
      exists_past_of_along heof hstop bound hk hready.atStatement
    obtain ⟨left, ⟨rfl, _⟩, hahead, hcursor⟩ := ht.cursor
    have hahead' : t'.cursor.ahead = [] ++ rest' := by rw [hcursor]; rfl
    exact ⟨t, t', es, hst, hpast.trans hst',
      ⟨hahead, hahead', ht.scope, hat, ht.room, ht.room'⟩, hdepth, ht.errors, ht.errors'⟩

/-! ### Statements in one piece

A correct statement of any kind is a piece too, since it compiles without an error. -/

/-- A statement has been passed, and some errors were found in it. -/
structure Completes (rest : List Token) (es : List Error) (s u : State) : Prop where
  ahead : u.cursor.ahead = rest
  scope : u.scope = s.scope
  errors : u.errors.toList = s.errors.toList ++ es
  room : Room 0 u

/-- A statement takes one round of the loop on either side. -/
theorem Ready.passes {stop : Kind → Bool} (heof : stop .eof = true) {bound : Nat}
    {rest rest' : List Token} {token : Token} {more : List Token} {s s' u u' : State}
    {es : List Error} (hready : Ready rest rest' (token :: more) s s')
    (hstop : stop token.kind = false)
    (hstep : declaration bound (statement bound) s = .ok () u)
    (hstep' : declaration bound (statement bound) s' = .ok () u') (hu : Completes rest es s u)
    (hu' : Completes rest' es s' u') : Passes stop bound rest rest' s s' := by
  have hround : stop (nextKind s.cursor.ahead) = false := by rwa [hready.ahead]
  have hround' : stop (nextKind s'.cursor.ahead) = false := by rwa [hready.ahead']
  refine ⟨u, u', es, resumes_of_declaration heof hround hstep,
    resumes_of_declaration heof hround' hstep', ⟨hu.ahead, hu'.ahead, ?_, ?_, hu.room, hu'.room⟩,
    ?_, hu.errors, hu'.errors⟩
  · rw [hu.scope, hu'.scope, hready.scope]
  · rw [hu.scope]
    exact hready.atStatement
  · rw [hu.scope]

/-- What is not a variable declaration is a statement. -/
theorem declaration_of_statement {bound : Nat} {s u : State}
    (hvar : nextKind s.cursor.ahead ≠ .varKw) (h : statement bound s = .ok () u) :
    declaration bound (statement bound) s = .ok () u := by
  have hstep : (do if ← accept .varKw then variableDeclaration bound else statement bound :
      CompileM Unit) s = .ok () u := by
    rw [bind_of_ok (accept_of_ne .varKw hvar)]
    exact h
  rw [declaration, recovering, bind_of_ok (attempt_of_ok hstep)]
  rfl

/-- A statement that fits by itself is compiled without errors wherever there is room. -/
theorem exists_completes_of_fits {t : Stmt} {base : Nat} (hgrouped : t.Grouped)
    (hfits : PieceFits (t.locals []) base (t.lower [] base)) {bound : Nat} {rest : List Token}
    {s : State} (hahead : s.cursor.ahead = t.tokens ++ rest)
    (hbound : s.cursor.ahead.length ≤ bound) (hat : AtStatement s.scope) (hroom : Room 0 s)
    (hrest : nextKind rest ≠ .elseKw) :
    ∃ u, statement bound s = .ok () u ∧ Completes rest [] s u := by
  obtain ⟨_, blocks, hscope⟩ := hat
  obtain ⟨hconstants, hlocals⟩ := hroom
  rw [hahead, wordCount_append] at hconstants hlocals
  have hlength : s.scope.locals.length = blocks.flatten.length := by
    rw [hscope]
    exact Scope.length_localsOf blocks
  have hreading : Reading bound (.ofBlocks blocks) t.tokens rest s := by
    refine ⟨hahead, ?_, hscope, by omega⟩
    rw [hahead, List.length_append] at hbound
    exact hbound
  have hyields := stmtCompiles_of_grouped t hgrouped hreading fun _ => hrest
  -- inside blocks the statement has the same layout as outside all of them, up to its constants
  have hcode : PieceFits (t.locals blocks) s.chunk.constants.size
      (t.lower blocks s.chunk.constants.size) :=
    ⟨t.scoped_of_scoped_nil hfits.1 (by omega), t.limits_of_limits_nil hfits.2 (by omega)⟩
  have hwords := t.length_constants_le blocks s.chunk.constants.size
  refine ⟨_, hyields.clean hcode, rfl, rfl, (List.append_nil _).symm, ?_, ?_⟩
  · simp only [State.chunk_append, State.chunk_past, Chunk.size_constants_extend,
      State.cursor_append, State.cursor_past]
    omega
  · simp only [State.scope_append, State.scope_past, State.cursor_append, State.cursor_past]
    omega

/-- A statement that compiles anywhere compiles everywhere. -/
theorem travels_statement {t : Stmt} {base : Nat} (hgrouped : t.Grouped)
    (hfits : PieceFits (t.locals []) base (t.lower [] base)) : Travels t.tokens := by
  obtain ⟨token, more, htokens, hopens⟩ := t.tokens_eq_cons
  refine ⟨fun _ => ?_, ?_⟩
  · rw [htokens]
    intro helse
    have helse : token.kind = .elseKw := helse
    rw [helse] at hopens
    exact absurd hopens (by decide)
  · intro stop bound rest rest' s s' heof hstop hrest hrest' hbound hbound' hready
    -- no statement starts with a token at which the loop stops
    have hround : stop token.kind = false := by
      rcases hkind : stop token.kind with _ | _
      · rfl
      · rcases hstop _ hkind with hend | hend <;> rw [hend] at hopens <;>
          exact absurd hopens (by decide)
    have hvar : token.kind ≠ .varKw := by
      intro hvar
      rw [hvar] at hopens
      exact absurd hopens (by decide)
    have hat' : AtStatement s'.scope := by
      rw [hready.scope]
      exact hready.atStatement
    -- it compiles in both scripts, whatever stands around it
    obtain ⟨u, hstep, hu⟩ := exists_completes_of_fits hgrouped hfits hready.ahead hbound
      hready.atStatement hready.room hrest
    obtain ⟨u', hstep', hu'⟩ := exists_completes_of_fits hgrouped hfits hready.ahead' hbound' hat'
      hready.room' hrest'
    have hahead := hready.ahead
    have hahead' := hready.ahead'
    rw [htokens] at hready hahead hahead'
    refine hready.passes heof hround (declaration_of_statement ?_ hstep)
      (declaration_of_statement ?_ hstep') hu hu'
    · rw [hahead]
      exact hvar
    · rw [hahead']
      exact hvar

/-! ### Blocks

A block of pieces is a piece. Its errors are those of the pieces. -/

/-- Where the declarations of a block end. -/
def atBlockEnd (kind : Kind) : Bool :=
  kind = .rightBrace || kind = .eof

/-- The loop over the declarations of a block stops at its brace or at the end of the script. -/
theorem eq_of_atBlockEnd {kind : Kind} (h : atBlockEnd kind = true) :
    kind = .rightBrace ∨ kind = .eof := by
  simpa [atBlockEnd] using h

/-- The state behind the brace that opens a block. -/
def State.inside (s : State) (left : Token) (inner : List Token) : State :=
  { s.past left inner with scope := s.scope.beginBlock }

/-- Opening a block takes no room. -/
theorem Room.inside {s : State} {left : Token} {inner : List Token} (h : Room 0 s)
    (hahead : s.cursor.ahead = left :: inner) : Room 0 (s.inside left inner) := by
  have hpast := (h.past hahead).mono (Nat.zero_le _)
  exact ⟨hpast.constants, hpast.locals⟩

/-- A block is passed if its declarations lead to its closing brace. -/
theorem exists_completes_of_block {bound : Nat} {left right : Token} {body rest : List Token}
    {es : List Error} {s t : State} (hleft : left.kind = .leftBrace)
    (hright : right.kind = .rightBrace)
    (hahead : s.cursor.ahead = left :: (body ++ right :: rest))
    (hbound : (body ++ right :: rest).length ≤ bound) (hat : AtStatement s.scope) (hroom : Room 0 s)
    (hloop : Resumes atBlockEnd bound (s.inside left (body ++ right :: rest)) t)
    (ht : t.cursor.ahead = right :: rest) (hatEnd : AtStatement t.scope)
    (hdepth : t.scope.depth = s.scope.depth + 1) (hroomEnd : Room 0 t)
    (herrors : t.errors.toList = s.errors.toList ++ es) :
    ∃ u, statement (bound + 1) s = .ok () u ∧ Completes rest es s u := by
  have hend : atBlockEnd (nextKind t.cursor.ahead) = true := by
    rw [ht, nextKind_cons, hright]
    rfl
  have hbody : block bound (statement bound) (s.inside left (body ++ right :: rest)) =
      .ok () (t.past right rest) := by
    rw [block]
    exact (bind_of_ok (hloop.eq_ok hend hbound)).trans (expect_cons ht .rightBrace _ hright)
  obtain ⟨_, blocks, hblocks⟩ := hatEnd
  -- the block is still open where its declarations end
  obtain ⟨names, outer, rfl⟩ : ∃ names outer, blocks = names :: outer := by
    cases blocks with
    | nil =>
      rw [hblocks] at hdepth
      exact absurd hdepth (Nat.succ_ne_zero _).symm
    | cons names outer => exact ⟨names, outer, rfl⟩
  have hclose := closeBlock_apply (s := t.past right rest) hblocks
  have hstatement : statement (bound + 1) s = .ok () (((t.past right rest).within outer).append
      (dropLocals names.length right.line)) := by
    rw [statement_apply, hahead, nextKind_cons, hleft]
    simp only [statementFrom]
    rw [bind_of_ok (advance_cons hahead), inBlock_eq]
    exact (bind_of_ok (modify_apply _ _)).trans ((bind_of_ok (attempt_of_ok hbody)).trans
      (bind_of_ok hclose))
  -- the locals that are left are those from before the block
  have hkeeps := scope_statement (bound + 1) hat.wellFormed
  rw [hstatement] at hkeeps
  refine ⟨_, hstatement, rfl, hkeeps, herrors, ?_, ?_⟩
  · have hconstants := hroomEnd.constants
    rw [ht, wordCount_cons] at hconstants
    simp only [State.chunk_append, State.chunk_within, State.chunk_past,
      Chunk.size_constants_extend, dropLocals, Lowering.constants_instructions, List.length_nil,
      State.cursor_append, State.cursor_within, State.cursor_past]
    omega
  · have hlocals := hroom.locals
    rw [hahead, wordCount_cons, wordCount_append, wordCount_cons] at hlocals
    have hscope : (((t.past right rest).within outer).append
        (dropLocals names.length right.line)).scope = s.scope := hkeeps
    rw [hscope]
    simp only [State.cursor_append, State.cursor_within, State.cursor_past]
    omega

/-- The brace that ends the block is found since every piece inside it is passed as a whole. -/
theorem travels_block {left right : Token} {body : List Token} (hleft : left.kind = .leftBrace)
    (hright : right.kind = .rightBrace) (hbody : Travels body) :
    Travels (left :: body ++ [right]) where
  start _ := by
    show left.kind ≠ .elseKw
    rw [hleft]
    decide
  passes := by
    intro stop bound rest rest' s s' heof hstop hrest hrest' hbound hbound' hready
    have hahead : s.cursor.ahead = left :: (body ++ right :: rest) := by simp [hready.ahead]
    have hahead' : s'.cursor.ahead = left :: (body ++ right :: rest') := by simp [hready.ahead']
    rw [hahead, List.length_cons] at hbound
    rw [hahead', List.length_cons] at hbound'
    -- the brace takes one from the bound
    obtain ⟨bound, rfl⟩ : ∃ b, bound = b + 1 := ⟨bound - 1, by omega⟩
    have hbound := Nat.le_of_succ_le_succ hbound
    have hbound' := Nat.le_of_succ_le_succ hbound'
    have hat' : AtStatement s'.scope := by
      rw [hready.scope]
      exact hready.atStatement
    have hbrace : ∀ rest : List Token, nextKind (right :: rest) ≠ .elseKw := by
      intro rest
      rw [nextKind_cons, hright]
      decide
    -- behind the brace both compilations are as ready as before it
    have hinside : Ready (right :: rest) (right :: rest') body
        (s.inside left (body ++ right :: rest)) (s'.inside left (body ++ right :: rest')) :=
      ⟨rfl, rfl, congrArg Scope.beginBlock hready.scope, hready.atStatement.beginBlock,
        hready.room.inside hahead, hready.room'.inside hahead'⟩
    obtain ⟨t, t', es, hst, hst', ht, hdepth, herrors, herrors'⟩ :=
      hbody.passes rfl (fun _ => eq_of_atBlockEnd) (hbrace rest)
        (hbrace rest') hbound hbound' hinside
    have hdepth' : t'.scope.depth = s'.scope.depth + 1 := by
      rw [ht.scope, hready.scope]
      exact hdepth
    obtain ⟨u, hstep, hu⟩ := exists_completes_of_block hleft hright hahead hbound
      hready.atStatement hready.room hst ht.ahead ht.atStatement hdepth ht.room herrors
    obtain ⟨u', hstep', hu'⟩ := exists_completes_of_block hleft hright hahead' hbound' hat'
      hready.room' hst' ht.ahead' (by rw [ht.scope]; exact ht.atStatement) hdepth' ht.room'
      herrors'
    have hround : stop left.kind = false := by
      rcases hkind : stop left.kind with _ | _
      · rfl
      · rcases hstop _ hkind with hend | hend <;> rw [hleft] at hend <;> cases hend
    refine Ready.passes heof hready hround (declaration_of_statement ?_ hstep)
      (declaration_of_statement ?_ hstep') hu hu'
    · rw [hahead, nextKind_cons, hleft]
      decide
    · rw [hahead', nextKind_cons, hleft]
      decide

/-! ### Correct code

Scripts without errors are made of pieces. -/

/-- All tokens of an expression are plain. -/
theorem isPlain_tokens (e : Expr) : ∀ token ∈ e.tokens, token.kind.isPlain = true := by
  -- the kind of each token is known from its type
  have hplain : ∀ {kind : Kind} (t : TokenOf kind), kind.isPlain = true →
      t.val.kind.isPlain = true := fun t h => by rw [t.property, h]
  induction e with
  | constant value word =>
    simpa [Expr.tokens] using hplain word (by cases value <;> rfl)
  | number token _ _ | string token | name token =>
    simpa [Expr.tokens] using hplain token rfl
  | assign target equal value ih =>
    simpa [Expr.tokens] using ⟨hplain target rfl, hplain equal rfl, ih⟩
  | grouping left inner right ih =>
    simp only [Expr.tokens, List.mem_cons, List.mem_append, List.not_mem_nil, or_false]
    rintro token (rfl | hinner | rfl)
    · exact hplain left rfl
    · exact ih token hinner
    · exact hplain right rfl
  | unary operator token operand ih =>
    simpa [Expr.tokens] using ⟨hplain token (by cases operator <;> rfl), ih⟩
  | binary operator left token right ihleft ihright =>
    simp only [Expr.tokens, List.mem_append, List.mem_cons]
    rintro t (hleft | rfl | hright)
    · exact ihleft t hleft
    · exact hplain token (by cases operator <;> rfl)
    · exact ihright t hright
  | and left token right ihleft ihright | or left token right ihleft ihright =>
    simp only [Expr.tokens, List.mem_append, List.mem_cons]
    rintro t (hleft | rfl | hright)
    · exact ihleft t hleft
    · exact hplain token rfl
    · exact ihright t hright

/-- Plain tokens and a semicolon are a flat statement. -/
theorem flat_append_semicolon {tokens : List Token} (h : ∀ t ∈ tokens, t.kind.isPlain = true)
    (semicolon : TokenOf .semicolon) : Flat (tokens ++ [semicolon.val]) := by
  induction tokens with
  | nil => exact .last semicolon.property
  | cons token rest ih =>
    obtain ⟨htoken, hrest⟩ := List.forall_mem_cons.mp h
    exact .cons htoken (ih hrest)

/-- A variable declaration is a flat statement. -/
theorem flat_declaration (keyword : TokenOf .varKw) (d : VarDecl) :
    Flat (keyword.val :: d.tokens) := by
  obtain ⟨name, initializer, semicolon⟩ := d
  have hname : name.val.kind.isPlain = true := by rw [name.property]; rfl
  refine .cons (by rw [keyword.property]; rfl) ?_
  cases initializer with
  | none => exact .cons hname (.last semicolon.property)
  | some initializer =>
    obtain ⟨equal, value⟩ := initializer
    exact .cons hname (.cons (by rw [equal.property]; rfl)
      (flat_append_semicolon (isPlain_tokens value) semicolon))

/-- A script that fits by itself can be shared. In blocks its declarations may turn out to be
errors; they are flat statements, so that these errors stay what they are. -/
theorem travels_decls {script : Decls} {base : Nat} (hgrouped : script.Grouped)
    (hfits : PieceFits (script.locals []) base (script.lower [] base)) :
    Travels script.tokens := by
  match script with
  | .nil => exact travels_nil
  | .declaration keyword declared rest =>
    rw [Decls.locals, Decls.lower, pieceFits_append] at hfits
    have hrest := travels_decls hgrouped.2 hfits.2
    rw [Decls.tokens, ← List.cons_append]
    exact (travels_flat (flat_declaration keyword declared)).append hrest
  | .statement first rest =>
    rw [Decls.locals, Decls.lower, pieceFits_append] at hfits
    have hrest := travels_decls hgrouped.2 hfits.2
    rw [Decls.tokens]
    exact (travels_statement hgrouped.1 hfits.1).append hrest

/-- What compiles by itself can be shared. -/
theorem travels_of_result {tokens : List Token} {eof : Token} {chunk : Chunk}
    (hend : ∀ t ∈ tokens, t.kind ≠ .eof) (heof : eof.kind = .eof)
    (h : (compile (tokens ++ [eof])).result = .ok chunk) : Travels tokens := by
  obtain ⟨script, rest, hgrouped, htokens, hrest, hfits, -⟩ := result_compile_eq_ok.mp h
  have hsame : script.tokens = tokens :=
    Decls.Spells.tokens_eq_of_eof ⟨hgrouped, rest, htokens, hrest⟩ heof hend
  rw [ScriptFits, Decls.program, PieceFits, Lowering.limits_append_instruction] at hfits
  rw [← hsame]
  exact travels_decls hgrouped hfits

/-! ## Scripts in pieces

The errors of a script are those of its pieces, each compiled on its own. -/

/-- Pieces of a script with a clear end: code that compiles by itself, flat statements, correct or
not, and blocks of pieces. -/
inductive IsItem : List Token → Prop where
  | correct {tokens : List Token} {eof : Token} {chunk : Chunk} : (∀ t ∈ tokens, t.kind ≠ .eof) →
    eof.kind = .eof → (compile (tokens ++ [eof])).result = .ok chunk → IsItem tokens
  | flat {tokens : List Token} : Flat tokens → IsItem tokens
  | block {left right : Token} {items : List (List Token)} : left.kind = .leftBrace →
    right.kind = .rightBrace → (∀ item ∈ items, IsItem item) →
    IsItem (left :: items.flatten ++ [right])

/-- Each kind of piece can be passed as a whole. -/
theorem IsItem.travels {item : List Token} (h : IsItem item) : Travels item := by
  induction h with
  | correct hend heof hresult => exact travels_of_result hend heof hresult
  | flat hflat => exact travels_flat hflat
  | block hleft hright _ ih => exact travels_block hleft hright (travels_flatten ih)

/-- Where a script ends. -/
def atScriptEnd (kind : Kind) : Bool :=
  kind = .eof

theorem eq_of_atScriptEnd {kind : Kind} (h : atScriptEnd kind = true) :
    kind = .rightBrace ∨ kind = .eof :=
  .inr (of_decide_eq_true h)

/-- The errors of a script are those found when its end is reached. -/
theorem errors_compile {tokens : List Token} {bound : Nat} {t : State}
    (hbound : tokens.length ≤ bound) (h : Resumes atScriptEnd bound (.start tokens) t)
    (hend : nextKind t.cursor.ahead = .eof) : (compile tokens).errors = t.errors.toList := by
  have hloop := h.eq_ok (decide_eq_true hend) hbound
  have hprogram : program bound (.start tokens) =
      (advance >>= fun _ => emit .ret) t := bind_of_ok hloop
  have hsame := sameUpTo_program (Nat.le_refl tokens.length) hbound (.start tokens) (Nat.le_refl _)
  rw [compile, hsame, hprogram]
  rfl

/-- A script with few words leaves room for all its constants. -/
theorem room_start {tokens : List Token} (h : wordCount tokens ≤ 256) : Room 0 (.start tokens) :=
  ⟨by simpa [State.start, Cursor.start, Chunk.empty, Chunk.maxConstants] using h,
    by simpa [State.start, Cursor.start, Scope.empty, Scope.maxLocals] using h⟩

section Items

variable {items : List (List Token)} {eof eof' : Token}

/-- The loop over the declarations of a script passes its items one after the other, and finds in
each the errors that the item has by itself. -/
theorem exists_resumes_items (hitems : ∀ item ∈ items, Travels item) (heof : eof.kind = .eof)
    (heof' : eof'.kind = .eof) {bound : Nat} {s : State}
    (hahead : s.cursor.ahead = items.flatten ++ [eof]) (hscope : s.scope = .empty)
    (hroom : Room 0 s) (hbound : s.cursor.ahead.length ≤ bound) :
    ∃ t, Resumes atScriptEnd bound s t ∧ t.cursor.ahead = [eof] ∧
      t.errors.toList =
        s.errors.toList ++ items.flatMap fun item => (compile (item ++ [eof'])).errors := by
  induction items generalizing s with
  | nil => exact ⟨s, resumes_refl rfl bound s, hahead, (List.append_nil _).symm⟩
  | cons item items ih =>
    obtain ⟨hitem, hrest⟩ := List.forall_mem_cons.mp hitems
    have hnoElse : ∀ {last : Token}, last.kind = .eof → nextKind [last] ≠ .elseKw := by
      intro last hlast
      rw [nextKind_cons, hlast]
      decide
    rw [List.flatten_cons, List.append_assoc] at hahead
    -- beside the script, the item is compiled alone
    let alone : State := .start (item ++ [eof'])
    have hwords : wordCount (item ++ [eof']) ≤ 256 := by
      have hconstants := hroom.constants
      rw [hahead, wordCount_append] at hconstants
      rw [wordCount_append, wordCount_cons, heof', wordCount_nil]
      simp only [Chunk.maxConstants] at hconstants
      show wordCount item + 0 ≤ 256
      omega
    have hbound' : (item ++ [eof']).length ≤ bound := by
      rw [hahead] at hbound
      simp only [List.length_append, List.length_cons, List.length_nil] at hbound ⊢
      omega
    have hready : Ready (items.flatten ++ [eof]) [eof'] item s alone :=
      ⟨hahead, rfl, hscope.symm, hscope ▸ atStatement_empty, hroom, room_start hwords⟩
    obtain ⟨t, t', es, hst, hst', ht, hdepth, herrors, herrors'⟩ :=
      hitem.passes rfl (fun _ => eq_of_atScriptEnd)
        ((travels_flatten hrest).start (hnoElse heof)) (hnoElse heof') hbound hbound' hready
    have halone : (compile (item ++ [eof'])).errors = es := by
      rw [errors_compile hbound' hst' (by rw [ht.ahead']; exact heof'), herrors']
      rfl
    -- the script goes on with the other items
    have hlength : t.cursor.ahead.length ≤ bound := by
      rw [hahead, List.length_append] at hbound
      rw [ht.ahead]
      exact Nat.le_trans (Nat.le_add_left _ _) hbound
    have hempty : t.scope = .empty := ht.atStatement.eq_empty (by rw [hdepth, hscope]; rfl)
    obtain ⟨u, htu, hu, hmore⟩ := ih hrest ht.ahead hempty ht.room hlength
    refine ⟨u, hst.trans htu, hu, ?_⟩
    rw [hmore, herrors, List.append_assoc, List.flatMap_cons, halone]

/-- **Errors do not disturb each other.** A script of pieces with a clear end, with no more words
than there is room for, has exactly the errors that its pieces have when each is compiled alone, in
the order of the pieces. -/
theorem errors_eq_flatMap (hitems : ∀ item ∈ items, IsItem item)
    (hwords : wordCount items.flatten ≤ 256) (heof : eof.kind = .eof) (heof' : eof'.kind = .eof) :
    (compile (items.flatten ++ [eof])).errors =
      items.flatMap fun item => (compile (item ++ [eof'])).errors := by
  have htotal : wordCount (items.flatten ++ [eof]) ≤ 256 := by
    rw [wordCount_append, wordCount_cons, heof]
    exact hwords
  have hlength := Nat.le_refl (items.flatten ++ [eof]).length
  obtain ⟨t, hst, hahead, herrors⟩ := exists_resumes_items (fun item h => (hitems item h).travels)
    heof heof' (s := .start (items.flatten ++ [eof])) rfl rfl (room_start htotal) hlength
  rw [errors_compile hlength hst (by rw [hahead]; exact heof), herrors]
  rfl

end Items

/-- The statement `print nil var;`, which lacks a semicolon and a name. -/
def doublyFaulty (line : Nat) : List Token :=
  [⟨.printKw, "print", none, line⟩, ⟨.nilKw, "nil", none, line⟩, ⟨.varKw, "var", none, line⟩,
    ⟨.semicolon, ";", none, line⟩]

theorem isItem_doublyFaulty (line : Nat) : IsItem (doublyFaulty line) :=
  .flat (.cons rfl (.cons rfl (.cons rfl (.last rfl))))

/-- A block around pieces of a script. -/
def braced (items : List (List Token)) : List Token :=
  ⟨.leftBrace, "\x7b", none, 2⟩ :: items.flatten ++ [⟨.rightBrace, "\x7d", none, 2⟩]

/-- Two errors before a block, two in it, and none in the loop behind it. -/
theorem errors_eq_flatMap_block :
    let loop : List Token := [⟨.whileKw, "while", none, 3⟩, ⟨.leftParen, "(", none, 3⟩,
      ⟨.nilKw, "nil", none, 3⟩, ⟨.rightParen, ")", none, 3⟩, ⟨.nilKw, "nil", none, 3⟩,
      ⟨.semicolon, ";", none, 3⟩]
    let items := [doublyFaulty 1, braced [doublyFaulty 2], loop]
    (∀ item ∈ items, IsItem item) ∧
    (compile (items.flatten ++ [.eof 3])).errors =
      [⟨1, .at "var", .expected .semicolonAfterValue⟩, ⟨1, .at ";", .expected .variableName⟩,
        ⟨2, .at "var", .expected .semicolonAfterValue⟩, ⟨2, .at ";", .expected .variableName⟩] := by
  intro loop items
  have hloop : IsItem loop := by
    have hok : (compile (loop ++ [.eof 3])).result.isOk := by decide +kernel
    obtain ⟨chunk, hchunk⟩ := exists_ok_of_isOk hok
    exact .correct (by decide) rfl hchunk
  have hblock : IsItem (braced [doublyFaulty 2]) :=
    .block rfl rfl (List.forall_mem_singleton.mpr (isItem_doublyFaulty 2))
  have hitems : ∀ item ∈ items, IsItem item :=
    List.forall_mem_cons.mpr ⟨isItem_doublyFaulty 1,
      List.forall_mem_cons.mpr ⟨hblock, List.forall_mem_singleton.mpr hloop⟩⟩
  refine ⟨hitems, ?_⟩
  rw [errors_eq_flatMap hitems (by decide) rfl (rfl : (Token.eof 9).kind = .eof)]
  decide +kernel

end StackScript.Compile
