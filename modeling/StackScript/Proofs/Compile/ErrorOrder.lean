import StackScript.Proofs.Compile.Calls
import StackScript.Proofs.Token.Lexemes

/-!
# Errors are found in order

Every error is found at the token passed last or at the next one. Because the compiler only goes
forward, the errors that it records lie one after the other along the tokens, and on lines that do
not decrease if the lines of the tokens do not.

* **`Blames`**: where the error of a step that fails lies.
* **`InOrder`**: the errors so far lie in order, before the cursor or not far behind it.
* **`errors_in_order`**: calls, errors and bounds of the compiler, for any tokens.
-/

namespace StackScript.Compile

/-! ## Where a step fails

An error names the token that was passed last or the next one. So its place in the script can be
told from where the step stopped.
-/

/-- The error lies at the token passed last or at the next one. -/
def Error.IsAt (e : Error) (c : Cursor) : Prop :=
  e = .atToken c.previous e.cause ∨ e = .atToken c.current e.cause

/-- A step that fails does so where the cursor is. -/
def Blames {α : Type} (x : CompileM α) : Prop :=
  ∀ s e t, x s = .error e t → e.IsAt t.cursor

section Blames

variable {α β : Type}

/-- A step that never fails. -/
theorem blames_of_ok {x : CompileM α} (h : ∀ s, ∃ a t, x s = .ok a t) : Blames x := by
  intro s e t herror
  obtain ⟨a, u, hok⟩ := h s
  rw [hok] at herror
  cases herror

/-- The error is reported at the last token. -/
theorem blames_failAtPrevious (cause : Cause) : Blames (failAtPrevious cause : CompileM α) := by
  intro s e t h
  cases h
  exact .inl rfl

/-- The step that fails is the last one that moves. -/
theorem blames_bind {x : CompileM α} {f : α → CompileM β} (hx : Blames x)
    (hf : ∀ a, Blames (f a)) : Blames (x >>= f) := by
  intro s e t h
  cases hrun : x s with
  | ok a u =>
    rw [bind_of_ok hrun] at h
    exact hf a u e t h
  | error e' u =>
    rw [bind_of_error hrun] at h
    cases h
    exact hx s _ _ hrun

theorem blames_previous : Blames previous :=
  blames_of_ok fun s => ⟨_, s, rfl⟩

theorem blames_current : Blames current :=
  blames_of_ok fun s => ⟨_, s, rfl⟩

instance : Compositional (@Blames) where
  pure a := blames_of_ok fun s => ⟨a, s, rfl⟩
  bind := blames_bind
  inspect _ hf := fun s => hf s s
  readsPrevious _ hf := blames_bind blames_previous hf
  readsCurrent _ hf := blames_bind blames_current hf
  advance := blames_of_ok fun s => ⟨_, _, rfl⟩
  emits _ _ := blames_of_ok fun s => ⟨_, _, rfl⟩
  refuses _ := blames_failAtPrevious _
  failAtPrevious := blames_failAtPrevious
  failAtCurrent cause := by
    intro s e t h
    cases h
    exact .inr rfl

-- the failure that was held back lies where the cursor still is
/-- A failure that is held back names the token at which it happened. What is done before it is
raised again does not move. -/
theorem blames_holdsBack {x g : CompileM Unit} (hx : Blames x) (hg : Settles g) :
    Blames (attempt x >>= fun outcome => g >>= fun _ => settle outcome) := by
  intro s e t h
  cases hrun : x s with
  | ok _ u =>
    obtain ⟨chunk, scope, openJumps, hsettled⟩ := hg u
    rw [bind_of_ok (attempt_of_ok hrun), bind_of_ok hsettled] at h
    cases h
  | error e' u =>
    obtain ⟨chunk, scope, openJumps, hsettled⟩ := hg u
    rw [bind_of_ok (attempt_of_error hrun), bind_of_ok hsettled] at h
    cases h
    show e.IsAt u.cursor
    exact hx s _ _ hrun

instance : Universal (@Blames) where
  rescopes _ := blames_of_ok fun _ => ⟨_, _, rfl⟩
  holdsBack hx _ hg := blames_holdsBack hx hg
  recovers _ := blames_of_ok fun _ => ⟨(), recovering_ok _ _⟩

end Blames

/-! ## Errors along the tokens

The errors are listed with the positions of their tokens, which never decrease. An induction needs a
limit for the positions too, which moves with the cursor. -/

/-- The errors lie one after the other at the tokens from the cursor on, before a limit. -/
def InOrder (c : Cursor) (limit : Nat) (errors : List Error) : Prop :=
  ∃ positions : List Nat, positions.Pairwise (· ≤ ·) ∧ (∀ i ∈ positions, i < limit) ∧
    List.Forall₂ (fun e i => e = .atToken (c.nth i) e.cause) errors positions

section InOrder

variable {α β : Type} {c : Cursor} {limit : Nat} {errors : List Error}

theorem InOrder.mono (h : InOrder c limit errors) {limit' : Nat} (hle : limit ≤ limit') :
    InOrder c limit' errors := by
  obtain ⟨positions, hsorted, hlimit, herrors⟩ := h
  exact ⟨positions, hsorted, fun i hi => Nat.lt_of_lt_of_le (hlimit i hi) hle, herrors⟩

/-- An error is added that lies at the last token before the limit or behind it. -/
theorem InOrder.append (h : InOrder c limit errors) {e : Error} {i : Nat} (hle : limit ≤ i + 1)
    (he : e = .atToken (c.nth i) e.cause) : InOrder c (i + 1) (errors ++ [e]) := by
  obtain ⟨positions, hsorted, hlimit, herrors⟩ := h
  refine ⟨positions ++ [i], ?_, ?_, ?_⟩
  · refine List.pairwise_append.mpr ⟨hsorted, List.pairwise_singleton _ _, ?_⟩
    intro j hj k hk
    have hlt := hlimit j hj
    rw [List.mem_singleton] at hk
    omega
  · intro j hj
    rcases List.mem_append.mp hj with hj | hj
    · exact Nat.lt_of_lt_of_le (hlimit j hj) hle
    · rw [List.mem_singleton] at hj
      omega
  · exact List.rel_append herrors (.cons he .nil)

/-- How a step ends that started with the errors in order. One that succeeds leaves no error at a
token ahead. -/
def Orderly (c : Cursor) : EStateM.Result Error State α → Prop
  | .ok _ t => ∃ count, 0 < count ∧ t.cursor = c.skip count ∧ InOrder c count t.errors.toList
  | .error e t => ∃ count, t.cursor = c.skip count ∧ InOrder c (count + 1) (t.errors.toList ++ [e])

/-- A step that records no errors of its own, and in the end has passed all tokens with an error. -/
theorem orderly_of_blames {x : CompileM α} (hx : Blames x) {s : State} {count : Nat}
    (hcursor : (endState (x s)).cursor = c.skip count)
    (herrors : (endState (x s)).errors = s.errors) (h : InOrder c limit s.errors.toList)
    (hle : limit ≤ count) (hpos : 0 < count) : Orderly c (x s) := by
  cases hrun : x s with
  | ok a t =>
    rw [hrun] at hcursor herrors
    refine ⟨count, hpos, hcursor, ?_⟩
    have herrors : t.errors = s.errors := herrors
    rw [herrors]
    exact h.mono hle
  | error e t =>
    rw [hrun] at hcursor herrors
    refine ⟨count, hcursor, ?_⟩
    have herrors : t.errors = s.errors := herrors
    have hcursor : t.cursor = c.skip count := hcursor
    have hat : e.IsAt t.cursor := hx s e t hrun
    rw [hcursor] at hat
    rw [herrors]
    -- the error is at the token passed last, or at the next one
    rcases hat with he | he
    · obtain ⟨i, rfl⟩ := Nat.exists_eq_succ_of_ne_zero (Nat.ne_of_gt hpos)
      rw [c.previous_skip_succ i] at he
      exact (h.append hle he).mono (Nat.le_succ _)
    · exact h.append (Nat.le_succ_of_le hle) he

/-- A step that keeps the errors in order, if none lies at a token ahead. -/
def Tidy (x : CompileM α) : Prop :=
  ∀ c count s, 0 < count → s.cursor = c.skip count → InOrder c count s.errors.toList →
    Orderly c (x s)

/-- A step that lists no errors and fails where it stopped. -/
theorem tidy_of_passing {x : CompileM α} (hpassing : Respects Passing x) (hx : Blames x) :
    Tidy x := by
  intro c count s hpos hcursor h
  obtain ⟨⟨more, hmore⟩, herrors⟩ := hpassing s
  rw [hcursor, Cursor.skip_skip] at hmore
  exact orderly_of_blames hx hmore herrors h (Nat.le_add_right _ _) (Nat.add_pos_left hpos _)

/-- The second step starts where the first one stopped. -/
theorem tidy_bind {x : CompileM α} {f : α → CompileM β} (hx : Tidy x) (hf : ∀ a, Tidy (f a)) :
    Tidy (x >>= f) := by
  intro c count s hpos hcursor h
  have hfirst := hx c count s hpos hcursor h
  cases hrun : x s with
  | ok a t =>
    rw [hrun] at hfirst
    obtain ⟨count', hpos', hcursor', h'⟩ := hfirst
    rw [bind_of_ok hrun]
    exact hf a c count' t hpos' hcursor' h'
  | error e t =>
    rw [hrun] at hfirst
    rw [bind_of_error hrun]
    exact hfirst

/-- The errors of a step are the same when its failure is held back. -/
theorem tidy_holdsBack {x g : CompileM Unit} (hx : Tidy x) (hg : Settles g) :
    Tidy (attempt x >>= fun outcome => g >>= fun _ => settle outcome) := by
  intro c count s hpos hcursor h
  have hfirst := hx c count s hpos hcursor h
  cases hrun : x s with
  | ok _ t =>
    obtain ⟨chunk, scope, openJumps, hsettled⟩ := hg t
    rw [hrun] at hfirst
    rw [bind_of_ok (attempt_of_ok hrun), bind_of_ok hsettled]
    exact hfirst
  | error e t =>
    obtain ⟨chunk, scope, openJumps, hsettled⟩ := hg t
    rw [hrun] at hfirst
    rw [bind_of_ok (attempt_of_error hrun), bind_of_ok hsettled]
    exact hfirst

instance : Scoping (@Tidy) where
  pure a := tidy_of_passing (respects_pure a) (respects_pure a)
  bind := tidy_bind
  inspect _ hf := fun c count s => hf s c count s
  readsPrevious _ hf := tidy_bind (tidy_of_passing respects_previous blames_previous) hf
  readsCurrent _ hf := tidy_bind (tidy_of_passing respects_current blames_current) hf
  advance := tidy_of_passing respects_advance respects_advance
  emits change h := tidy_of_passing (Emitting.emits change h) (Emitting.emits change h)
  refuses h := tidy_of_passing (Emitting.refuses h) (Emitting.refuses h)
  failAtPrevious cause :=
    tidy_of_passing (Compositional.failAtPrevious cause) (Compositional.failAtPrevious cause)
  failAtCurrent cause :=
    tidy_of_passing (Compositional.failAtCurrent cause) (Compositional.failAtCurrent cause)
  rescopes change := tidy_of_passing (Declaring.rescopes change) (Declaring.rescopes change)
  holdsBack hx _ hg := tidy_holdsBack hx hg

/-! ### Declarations

A declaration that failed may have left an error at the next token. The next declaration passes this
token before it can fail, so its own errors do not come before that one. -/

/-- The errors so far are in order, and none lies behind the next token. -/
def Recovered (c : Cursor) (s : State) : Prop :=
  ∃ count, s.cursor = c.skip count ∧ InOrder c (count + 1) s.errors.toList

/-- A step that keeps the errors in order, even if one lies at the next token. -/
def Starts (x : CompileM α) : Prop :=
  ∀ c s, Recovered c s → Orderly c (x s)

/-- There need not be an error at the next token. -/
theorem Starts.tidy {x : CompileM α} (h : Starts x) : Tidy x := fun c count s _ hcursor herrors =>
  h c s ⟨count, hcursor, herrors.mono (Nat.le_succ count)⟩

/-- A step that passes a token before it can fail. -/
theorem starts_of_consumes {x : CompileM α} (hpassing : Respects Passing x) (hx : Blames x)
    (hconsumes : Consumes x) : Starts x := by
  rintro c s ⟨count, hcursor, h⟩
  obtain ⟨more, hmore⟩ := hconsumes s
  rw [hcursor, Cursor.skip_skip] at hmore
  exact orderly_of_blames hx hmore (hpassing s).2 h (by omega) (by omega)

/-- The first token is passed, and then anything tidy may follow. -/
theorem starts_advance {f : Unit → CompileM α} (hf : Tidy (f ())) :
    Starts (advance >>= f) := by
  rintro c s ⟨count, hcursor, h⟩
  refine hf c (count + 1) { s with cursor := s.cursor.advance } (Nat.succ_pos _) ?_ h
  show s.cursor.advance = _
  rw [hcursor, Cursor.advance_skip]

/-- A step that always succeeds and keeps the errors in order. -/
def Recovers (x : CompileM Unit) : Prop :=
  ∀ c s, Recovered c s → ∃ t, x s = .ok () t ∧ Recovered c t

/-- The failure is listed, and the cursor goes on to the next statement. -/
theorem recovers_recovering {x : CompileM Unit} (h : Starts x) : Recovers (recovering x) := by
  intro c s hs
  have hend := h c s hs
  cases hx : x s with
  | ok _ t =>
    rw [hx] at hend
    obtain ⟨count, -, hcursor, herrors⟩ := hend
    refine ⟨t, ?_, count, hcursor, herrors.mono (Nat.le_succ count)⟩
    rw [recovering, bind_of_ok (attempt_of_ok hx)]
    rfl
  | error e t =>
    rw [hx] at hend
    obtain ⟨count, hcursor, herrors⟩ := hend
    obtain ⟨more, hmore⟩ := t.cursor.exists_skip_synchronize
    refine ⟨{ t with errors := t.errors.push e, cursor := t.cursor.synchronize }, ?_,
      count + more, ?_, ?_⟩
    · rw [recovering, bind_of_ok (attempt_of_error hx)]
      rfl
    · show t.cursor.synchronize = _
      rw [hmore, hcursor, Cursor.skip_skip]
    · show InOrder c _ (t.errors.push e).toList
      rw [Array.toList_push]
      exact herrors.mono (by omega)

/-- In both forms of a declaration. -/
theorem recovers_declaration {step : CompileM Unit} (h : Starts step) (bound : Nat) :
    Recovers (declaration bound step) := by
  refine recovers_recovering fun c s hs => ?_
  by_cases hkind : s.cursor.current.kind = .varKw
  · have haccept : accept .varKw s = .ok true { s with cursor := s.cursor.advance } := by
      rw [accept_apply, if_pos hkind]
    have hvariable : Tidy (variableDeclaration bound) := respects_variableDeclaration bound
    rw [bind_of_ok haccept]
    exact starts_advance (f := fun _ => variableDeclaration bound) hvariable c s hs
  · have haccept : accept .varKw s = .ok false s := by
      rw [accept_apply, if_neg hkind]
    rw [bind_of_ok haccept]
    exact h c s hs

/-- By induction on the number of rounds. -/
theorem recovers_repeatUntil {step : CompileM Unit} (h : Recovers step) (stop : Kind → Bool)
    (count : Nat) : Recovers (repeatUntil stop step count) := by
  intro c s hs
  induction count generalizing s with
  | zero => exact ⟨s, rfl, hs⟩
  | succ count ih =>
    cases hstop : stop (nextKind s.cursor.ahead) with
    | true => exact ⟨s, repeatUntil_of_stop hstop _, hs⟩
    | false =>
      obtain ⟨t, hstep, ht⟩ := h c s hs
      obtain ⟨u, hrest, hu⟩ := ih t ht
      refine ⟨u, ?_, hu⟩
      rw [repeatUntil_succ hstop, bind_of_ok hstep, hrest]

/-- A block fails only at its end, where the brace is missing. -/
theorem tidy_block {step : CompileM Unit} (h : Starts step) (bound : Nat) :
    Tidy (block bound step) := by
  refine Starts.tidy fun c s hs => ?_
  obtain ⟨t, hloop, count, hcursor, herrors⟩ :=
    recovers_repeatUntil (recovers_declaration h bound)
      (fun kind => kind = .rightBrace || kind = .eof) bound c s hs
  rw [block, bind_of_ok hloop, expect_apply]
  split
  · refine ⟨count + 1, Nat.succ_pos _, ?_, herrors⟩
    show t.cursor.advance = _
    rw [hcursor, Cursor.advance_skip]
  · refine ⟨count, hcursor, herrors.append (Nat.le_refl _) ?_⟩
    show Error.atToken t.cursor.current _ = .atToken (c.nth count) _
    rw [hcursor]
    rfl

/-- A statement starts by passing a token, so its errors lie behind those before it. -/
theorem starts_statement (bound : Nat) : Starts (statement bound) := by
  induction bound with
  | zero =>
    exact starts_of_consumes (respects_expressionStatement 0) (respects_expressionStatement 0)
      (consumes_expressionStatement 0)
  | succ bound ih =>
    have hexpression : Starts (expressionStatement (bound + 1)) :=
      starts_of_consumes (respects_expressionStatement _) (respects_expressionStatement _)
        (consumes_expressionStatement _)
    intro c s hs
    rw [statement_apply]
    cases nextKind s.cursor.ahead
    case printKw => exact starts_advance (respects_printStatement bound) c s hs
    case forKw =>
      exact starts_advance (respects_inBlock (respects_forStatement bound ih.tidy)) c s hs
    case ifKw => exact starts_advance (respects_ifStatement bound ih.tidy) c s hs
    case whileKw => exact starts_advance (respects_whileStatement bound ih.tidy) c s hs
    case leftBrace => exact starts_advance (respects_inBlock (tidy_block ih bound)) c s hs
    all_goals exact hexpression c s hs

end InOrder

/-- The errors of a script lie in order along its tokens. -/
theorem inOrder_compile (tokens : List Token) :
    ∃ limit, InOrder (.start tokens) limit (compile tokens).errors := by
  have hstart : Recovered (.start tokens) (.start tokens) :=
    ⟨0, rfl, [], .nil, List.forall_mem_nil _, .nil⟩
  obtain ⟨t, hloop, count, -, herrors⟩ :=
    recovers_repeatUntil (recovers_declaration (starts_statement tokens.length) tokens.length)
      (fun kind => kind = .eof) tokens.length _ _ hstart
  have hprogram : program tokens.length (.start tokens) =
      .ok () (({ t with cursor := t.cursor.advance }).append
        (.instruction .ret t.cursor.current.line)) := by
    rw [program, bind_of_ok hloop, bind_of_ok (advance_apply t), emit_apply]
    rfl
  refine ⟨count + 1, ?_⟩
  rw [compile_eq_endState, hprogram]
  exact herrors

/-! ## Positions and lines

Positions of tokens become lines. Lines grow with positions since the scanner counts them upwards.
-/

/-- The token at a position, or the end of the script, which is on the line of the last token. -/
def tokenOrEnd (tokens : List Token) (i : Nat) : Token :=
  tokens[i]?.getD (.eof ((tokens.getLast?.map Token.line).getD 1))

/-- Behind the last token there is the end, on the same line. -/
theorem Cursor.nth_eq (c : Cursor) (i : Nat) :
    c.nth i =
      c.ahead[i]?.getD (.eof ((c.ahead.getLast?.map Token.line).getD c.previous.line)) := by
  obtain ⟨previous, ahead⟩ := c
  induction i generalizing previous ahead with
  | zero => cases ahead <;> rfl
  | succ i ih =>
    show ((⟨previous, ahead⟩ : Cursor).advance).nth i = _
    cases ahead with
    | nil => exact ih _ []
    | cons token rest =>
      refine (ih token rest).trans ?_
      cases rest <;> rfl

/-- At the start the tokens are numbered as in the script. -/
theorem nth_start (tokens : List Token) (i : Nat) :
    (Cursor.start tokens).nth i = tokenOrEnd tokens i :=
  Cursor.nth_eq _ i

/-- All positions behind the tokens are the end of the script. -/
theorem tokenOrEnd_min (tokens : List Token) (i : Nat) :
    tokenOrEnd tokens (min i tokens.length) = tokenOrEnd tokens i := by
  rcases Nat.le_total i tokens.length with h | h
  · rw [Nat.min_eq_left h]
  · unfold tokenOrEnd
    rw [Nat.min_eq_right h, List.getElem?_eq_none h, List.getElem?_eq_none (Nat.le_refl _)]

/-- The lines of the positions do not decrease if those of the tokens do not. -/
theorem line_tokenOrEnd_le {tokens : List Token} (h : (tokens.map Token.line).Pairwise (· ≤ ·))
    (hne : tokens ≠ []) {i j : Nat} (hij : i ≤ j) :
    (tokenOrEnd tokens i).line ≤ (tokenOrEnd tokens j).line := by
  have hlength := List.length_pos_iff.mpr hne
  have hget : ∀ k, (tokenOrEnd tokens k).line =
      (tokens.get ⟨min k (tokens.length - 1), by omega⟩).line := by
    intro k
    unfold tokenOrEnd
    rcases Nat.lt_or_ge k tokens.length with hlt | hge
    · have hmin : min k (tokens.length - 1) = k := by omega
      simp [List.getElem?_eq_getElem hlt, hmin]
    · have hmin : min k (tokens.length - 1) = tokens.length - 1 := by omega
      simp [List.getElem?_eq_none hge, hmin, List.getLast?_eq_getElem?, hlength,
        Token.eof]
  rw [hget, hget]
  rw [List.pairwise_map, List.pairwise_iff_get] at h
  rcases Nat.lt_or_ge (min i (tokens.length - 1)) (min j (tokens.length - 1)) with hlt | hge
  · exact h _ _ hlt
  · have hmin : min i (tokens.length - 1) = min j (tokens.length - 1) := by omega
    simp [hmin]

/-- The lines of the tokens of a script do not decrease. -/
theorem pairwise_lines_of_scans {line : Nat} {bytes : List UInt8} {tokens : List Token}
    (h : Scanner.Scans line bytes tokens) :
    (line :: tokens.map Token.line).Pairwise (· ≤ ·) := by
  have hskip : ∀ line bytes, line ≤ (Scanner.skipTrivia false line bytes).1 := by
    intro line bytes
    obtain ⟨run, -, -, hline⟩ := Scanner.longest_skipTrivia line bytes
    omega
  induction h with
  | @eof line last bytes htrivia =>
    have hle := hskip line bytes
    rw [htrivia] at hle
    exact List.pairwise_pair.mpr hle
  | @lexeme line start more bytes rest first kind tokens htrivia _ _ ih =>
    have hle := hskip line bytes
    rw [htrivia] at hle
    have hline : line ≤ (Scanner.tokenAt start kind (first :: rest.take more)).line :=
      Nat.le_trans hle (Nat.le_add_right _ _)
    refine List.pairwise_cons.mpr ⟨?_, ih⟩
    -- the lines behind the first token are no lower than its own
    intro other hother
    rcases List.mem_cons.mp hother with rfl | hmem
    · exact hline
    · exact Nat.le_trans hline (List.rel_of_pairwise_cons ih hmem)

/-- The lines of the tokens of a script never decrease. -/
theorem pairwise_lines_of_scan {source : String} {tokens : List Token}
    (h : Token.scan source = .ok tokens) :
    (tokens.map Token.line).Pairwise (· ≤ ·) ∧ tokens ≠ [] := by
  have hscans := scans_of_scan h
  refine ⟨(List.pairwise_cons.mp (pairwise_lines_of_scans hscans)).2, ?_⟩
  cases hscans <;> exact List.cons_ne_nil _ _

/-- The compiler makes progress and reports errors in order, whatever the tokens are: also where no
token, or more than the last one, is the end of a script.

* It goes on until it has passed the end of a script. The bound with which it counts down is never
  reached: a larger one makes no difference.
* Each call of `declaration` starts at a token that is not the end of a script and at which no other
  call starts, and it passes this token.
* There are no more errors than tokens that are not the end of a script.
* The errors are at tokens one after the other, or at the end. So the lines of the errors do not
  decrease if the scanner gave the tokens. -/
theorem errors_in_order (tokens : List Token) :
    (∃ s, program tokens.length (.start tokens) = .ok () s ∧ s.cursor.previous.kind = .eof) ∧
    (∀ bound, tokens.length ≤ bound →
      program bound (.start tokens) = program tokens.length (.start tokens)) ∧
    (Observed.program declarationCalls tokens.length (.start tokens)).1 =
      program tokens.length (.start tokens) ∧
    (∃ starts : List Nat, starts.Pairwise (· < ·) ∧
      List.Forall₂ (fun call i => (∃ token, tokens[i]? = some token ∧ token.kind ≠ .eof) ∧
        call.start.ahead = tokens.drop i ∧ ∃ j > i, call.stop.ahead = tokens.drop j)
        (Observed.program declarationCalls tokens.length (.start tokens)).2 starts) ∧
    (compile tokens).errors.length ≤ tokens.countP (·.kind ≠ .eof) ∧
    (∃ positions : List Nat, positions.Pairwise (· ≤ ·) ∧ (∀ i ∈ positions, i ≤ tokens.length) ∧
      List.Forall₂ (fun e i => e = .atToken (tokenOrEnd tokens i) e.cause)
        (compile tokens).errors positions) ∧
    ∀ source, Token.scan source = .ok tokens →
      ((compile tokens).errors.map Error.line).Pairwise (· ≤ ·) := by
  have haccounts := accounted_program tokens.length (.start tokens)
  have herases := erases_program declarationCalls tokens.length (.start tokens)
  obtain ⟨limit, positions, hsorted, -, herrors⟩ := inOrder_compile tokens
  refine ⟨program_eq_ok tokens, ?_, herases, haccounts.exists_starts, ?_, ?_, ?_⟩
  · intro bound hbound
    exact sameUpTo_program hbound (Nat.le_refl _) (.start tokens) (Nat.le_refl _)
  · have hcount := haccounts.errors
    have htokens := haccounts.tokens
    rw [herases] at hcount
    rw [compile_eq_endState]
    show (endState (program tokens.length (.start tokens))).errors.toList.length ≤ _
    rw [Array.length_toList]
    show _ ≤ realTokens tokens
    have hnone : (State.start tokens).errors.size = 0 := rfl
    have hahead : (State.start tokens).cursor.ahead = tokens := rfl
    rw [hahead] at htokens
    omega
  -- positions behind the last token all mean the end
  · refine ⟨positions.map (min · tokens.length), ?_, ?_, ?_⟩
    · exact hsorted.map _ fun i j hij => min_le_min_right _ hij
    · intro i hi
      obtain ⟨j, -, rfl⟩ := List.mem_map.mp hi
      exact Nat.min_le_right _ _
    · rw [List.forall₂_map_right_iff]
      refine herrors.imp fun e i he => ?_
      rw [tokenOrEnd_min, ← nth_start]
      exact he
  · intro source hscan
    obtain ⟨hlines, hne⟩ := pairwise_lines_of_scan hscan
    have hline : (compile tokens).errors.map Error.line =
        positions.map fun i => (tokenOrEnd tokens i).line := by
      rw [← List.forall₂_eq_eq_eq, List.forall₂_map_left_iff, List.forall₂_map_right_iff]
      refine herrors.imp fun e i he => ?_
      rw [he, nth_start]
      rfl
    rw [hline]
    exact hsorted.map _ fun i j hij => line_tokenOrEnd_le hlines hne hij

end StackScript.Compile
