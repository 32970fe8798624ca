import StackScript.Proofs.Compile.ErrorOrder
import StackScript.Proofs.Compile.ScriptParsing
import StackScript.Proofs.Tree.Grammar

/-!
# Syntax errors are found as early as possible

The first error of a script that does not follow the grammar lies at the first token with which the
tokens up to it are no longer the start of a script.

* **`Matches`**: the tokens that a step passes belong to a language, those before its first syntax
  error can be completed to be in it, and the tokens behind the error do not matter.
* **`matches_expressionAt`**, **`matches_statement`**: the steps match their part of the grammar.
* **`syntaxError_earliest`**: where the first syntax error lies.
-/

namespace StackScript.Compile

open StackScript.Tree

/-! ## Cursors with the same tokens

A step that has passed some tokens cannot know what comes after them. So it is run again with other
tokens behind those that it has passed. -/

namespace Cursor

/-- The kinds of the next tokens. -/
def kinds (c : Cursor) (count : Nat) : List Kind :=
  (List.range count).map fun i => (c.nth i).kind

@[simp] theorem kinds_zero (c : Cursor) : c.kinds 0 = [] := rfl

theorem kinds_one (c : Cursor) : c.kinds 1 = [c.current.kind] := rfl

/-- The kinds of tokens in two portions. -/
theorem kinds_add (c : Cursor) (first second : Nat) :
    c.kinds (first + second) = c.kinds first ++ (c.skip first).kinds second := by
  unfold kinds
  simp [List.range_add, nth_skip]

/-- Two cursors that cannot be told apart before some tokens are passed. -/
structure Shares (c : Cursor) (count : Nat) (d : Cursor) : Prop where
  previous : d.previous = c.previous
  nth : ∀ i < count, d.nth i = c.nth i

variable {c d : Cursor} {count : Nat}

theorem Shares.refl (c : Cursor) (count : Nat) : c.Shares count c := ⟨rfl, fun _ _ => rfl⟩

/-- Cursors that share some tokens share fewer. -/
theorem Shares.mono (h : c.Shares count d) {fewer : Nat} (hle : fewer ≤ count) :
    c.Shares fewer d :=
  ⟨h.previous, fun i hi => h.nth i (Nat.lt_of_lt_of_le hi hle)⟩

/-- Cursors that share a token have it next. -/
theorem Shares.current (h : c.Shares (count + 1) d) : d.current = c.current :=
  h.nth 0 (Nat.succ_pos count)

/-- After a token that both share the rest is shared. -/
theorem Shares.skip {passed : Nat} (h : c.Shares (passed + count) d) :
    (c.skip passed).Shares count (d.skip passed) := by
  constructor
  · cases passed with
    | zero => exact h.previous
    | succ passed =>
      rw [previous_skip_succ, previous_skip_succ]
      exact h.nth passed (by omega)
  · intro i hi
    rw [nth_skip, nth_skip]
    exact h.nth (passed + i) (by omega)

end Cursor

/-! ## Steps that match a language

The tokens that a step passes belong to a language, or it fails where no word of the language goes
on like that. The rules follow the steps of the compiler. -/

/-- What a step does to the tokens, started in a state. -/
structure Matches {α : Type} (L : List Kind → Prop) (x : CompileM α) (s : State) : Prop where
  grows : Grows x
  possible : ∃ ks, L ks
  /-- Without an error the step passes a word of the language, and does not depend on what comes
  after the next token. -/
  clean : ∀ a t, Cleanly x s a t → ∃ n, t.cursor = s.cursor.skip n ∧ L (s.cursor.kinds n) ∧
    ∀ c, s.cursor.Shares (n + 1) c →
      x { s with cursor := c } = .ok a { t with cursor := c.skip n }
  /-- The tokens before the first error are the start of a word, if it is a syntax error, and it is
  found whatever comes after its token. -/
  finds : ∀ e, Finds x s e → e.cause.isSyntax = true →
    ∃ n, e = .atToken (s.cursor.nth n) e.cause ∧ (∃ more, L (s.cursor.kinds n ++ more)) ∧
      ∀ c, s.cursor.Shares (n + 1) c → Finds x { s with cursor := c } e

section Matches

variable {α β : Type} {L M N : List Kind → Prop} {x : CompileM α} {f : α → CompileM β} {s : State}

/-- A clean run records no errors. -/
theorem Cleanly.errors_eq {a : α} {t : State} (h : Cleanly x s a t) (hx : Grows x) :
    t.errors = s.errors := by
  have hgrows := hx s
  rw [h.1] at hgrows
  have hlist : s.errors.toList = t.errors.toList :=
    List.IsPrefix.eq_of_length hgrows h.2.symm
  exact (Array.toList_inj.mp hlist).symm

/-- The first error of a sequence is that of its first part, or that of the second one. -/
theorem finds_bind {e : Error} (h : Finds (x >>= f) s e) (hx : Grows x) (hf : ∀ a, Grows (f a)) :
    Finds x s e ∨ ∃ a t, Cleanly x s a t ∧ Finds (f a) t e := by
  unfold Finds at h
  cases hrun : x s with
  | error e' t =>
    rw [bind_of_error hrun] at h
    left
    rw [Finds, hrun]
    exact h
  | ok a t =>
    rw [bind_of_ok hrun] at h
    have hgrows := hx s
    rw [hrun] at hgrows
    have hle : s.errors.size ≤ t.errors.size := List.IsPrefix.length_le hgrows
    rcases Nat.lt_or_eq_of_le hle with hmore | hsame
    -- the first step has listed an error, and this is the one that is found
    · left
      rw [Finds, hrun]
      refine List.prefix_of_prefix_length_le h ((hf a).prefix_reported t) ?_
      rw [List.length_append, List.length_singleton]
      exact hmore
    -- the first step has listed nothing, so the error comes from the second
    · right
      have hclean : Cleanly x s a t := ⟨hrun, hsame.symm⟩
      refine ⟨a, t, hclean, ?_⟩
      rw [Finds, hclean.errors_eq hx]
      exact h

/-- A step matches every larger language. -/
theorem Matches.mono (h : Matches L x s) (hle : ∀ ks, L ks → M ks) : Matches M x s where
  grows := h.grows
  possible := h.possible.imp hle
  clean a t hclean := by
    obtain ⟨n, hcursor, hword, hsame⟩ := h.clean a t hclean
    exact ⟨n, hcursor, hle _ hword, hsame⟩
  finds e he hgrammar := by
    obtain ⟨n, hat, ⟨more, hmore⟩, hsame⟩ := h.finds e he hgrammar
    exact ⟨n, hat, ⟨more, hle _ hmore⟩, hsame⟩

/-- A step that does the same as another one wherever the next token is the same. -/
theorem Matches.of_eq {y : CompileM α} (h : Matches L y s) (hx : Grows x)
    (heq : ∀ c, s.cursor.Shares 1 c → x { s with cursor := c } = y { s with cursor := c }) :
    Matches L x s where
  grows := hx
  possible := h.possible
  clean a t hclean := by
    have hhere : x s = y s := heq s.cursor (.refl _ _)
    have hclean' : Cleanly y s a t := by
      rw [Cleanly, ← hhere]
      exact hclean
    obtain ⟨n, hcursor, hword, hsame⟩ := h.clean a t hclean'
    refine ⟨n, hcursor, hword, fun c hc => ?_⟩
    rw [heq c (hc.mono (by omega))]
    exact hsame c hc
  finds e he hgrammar := by
    have hhere : x s = y s := heq s.cursor (.refl _ _)
    have he' : Finds y s e := by
      rw [Finds, ← hhere]
      exact he
    obtain ⟨n, hat, hword, hsame⟩ := h.finds e he' hgrammar
    refine ⟨n, hat, hword, fun c hc => ?_⟩
    rw [Finds, heq c (hc.mono (by omega))]
    exact hsame c hc

/-- No step after the first one removes an error. -/
theorem Matches.grows_rest (hx : Matches L x s)
    (hf : ∀ ks, L ks → ∀ a t, Matches (fun more => N (ks ++ more)) (f a) t) (a : α) :
    Grows (f a) := by
  obtain ⟨ks, hks⟩ := hx.possible
  exact (hf ks hks a s).grows

/-- One step after the other: the second one has to go on with what the first one has passed. -/
theorem Matches.bind [Nonempty α] (hx : Matches L x s)
    (hf : ∀ ks, L ks → ∀ a t, Matches (fun more => N (ks ++ more)) (f a) t) :
    Matches N (x >>= f) s where
  grows := respects_bind hx.grows (hx.grows_rest hf)
  possible := by
    obtain ⟨ks, hks⟩ := hx.possible
    obtain ⟨a⟩ := ‹Nonempty α›
    obtain ⟨more, hmore⟩ := (hf ks hks a s).possible
    exact ⟨ks ++ more, hmore⟩
  clean b u hclean := by
    obtain ⟨a, t, hfirst, hrest⟩ := hclean.of_bind hx.grows (hx.grows_rest hf)
    obtain ⟨n, hcursor, hword, hsame⟩ := hx.clean a t hfirst
    obtain ⟨m, hcursor', hword', hsame'⟩ := (hf _ hword a t).clean b u hrest
    -- the first step has passed `n` tokens, so the second one is compared from there on
    refine ⟨n + m, ?_, ?_, fun c hc => ?_⟩
    · rw [hcursor', hcursor, Cursor.skip_skip]
    · rw [Cursor.kinds_add, ← hcursor]
      exact hword'
    · have hshares : t.cursor.Shares (m + 1) (c.skip n) := by
        rw [hcursor]
        exact Cursor.Shares.skip (hc.mono (by omega))
      rw [bind_of_ok (hsame c (hc.mono (by omega))), ← Cursor.skip_skip]
      exact hsame' _ hshares
  finds e he hgrammar := by
    rcases finds_bind he hx.grows (hx.grows_rest hf) with hfirst | ⟨a, t, hfirst, hrest⟩
    -- an error of the first step: what it still wants can be followed by what the second one wants
    · obtain ⟨n, hat, ⟨more, hmore⟩, hsame⟩ := hx.finds e hfirst hgrammar
      obtain ⟨a⟩ := ‹Nonempty α›
      obtain ⟨more', hmore'⟩ := (hf _ hmore a s).possible
      refine ⟨n, hat, ⟨more ++ more', ?_⟩, fun c hc => (hsame c hc).bind (hx.grows_rest hf)⟩
      rw [← List.append_assoc]
      exact hmore'
    · obtain ⟨n, hcursor, hword, hsame⟩ := hx.clean a t hfirst
      obtain ⟨m, hat, ⟨more, hmore⟩, hsame'⟩ := (hf _ hword a t).finds e hrest hgrammar
      refine ⟨n + m, ?_, ⟨more, ?_⟩, fun c hc => ?_⟩
      · rw [← Cursor.nth_skip, ← hcursor]
        exact hat
      · rw [Cursor.kinds_add, ← hcursor, List.append_assoc]
        exact hmore
      · have hshares : t.cursor.Shares (m + 1) (c.skip n) := by
          rw [hcursor]
          exact Cursor.Shares.skip (hc.mono (by omega))
        exact .after (hsame c (hc.mono (by omega))) (hfirst.errors_eq hx.grows) (hsame' _ hshares)

/-- A step that records nothing finds only the error with which it fails. -/
theorem Finds.eq_of_error {e e' : Error} {t : State} (h : Finds x s e) (hx : x s = .error e' t)
    (herrors : t.errors = s.errors) : e = e' := by
  rw [Finds, hx, reported, herrors] at h
  have hlist := List.append_cancel_left (h.eq_of_length (by simp))
  exact List.singleton_inj.mp hlist

/-- A step that succeeds has recorded the error that it found. -/
theorem Finds.ne_of_ok {e : Error} {a : α} {t : State} (h : Finds x s e) (hx : x s = .ok a t) :
    t.errors ≠ s.errors := by
  intro herrors
  have hlt := h.size_lt hx
  rw [herrors] at hlt
  exact Nat.lt_irrefl _ hlt

/-- A step that fails at the next token, before it looks any further. -/
theorem matches_of_error (hx : Grows x) (cause : Cause)
    (herror : ∀ c, s.cursor.Shares 1 c → ∃ t, t.errors = s.errors ∧
      x { s with cursor := c } = .error (.atToken c.current cause) t)
    (hpossible : ∃ ks, L ks) : Matches L x s where
  grows := hx
  possible := hpossible
  clean a t hclean := by
    obtain ⟨u, -, hu⟩ := herror s.cursor (.refl _ _)
    cases hclean.1.symm.trans hu
  finds e he _ := by
    obtain ⟨t, herrors, ht⟩ := herror s.cursor (.refl _ _)
    have hfound : e = .atToken s.cursor.current cause := he.eq_of_error ht herrors
    refine ⟨0, by rw [hfound]; rfl, hpossible, fun c hc => ?_⟩
    obtain ⟨u, herrors', hu⟩ := herror c hc
    rw [hfound, ← hc.current]
    exact finds_of_error hu herrors'

/-! ### Steps that pass no tokens

Such a step does the same wherever the cursor is, apart from the token passed last. -/

/-- A step that passes no tokens, does not look at those ahead, and finds no syntax errors. -/
structure Neutral (x : CompileM α) : Prop where
  ok : ∀ s a t, x s = .ok a t → t.cursor = s.cursor ∧ t.errors = s.errors ∧
    ∀ c : Cursor, c.previous = s.cursor.previous →
      x { s with cursor := c } = .ok a { t with cursor := c }
  error : ∀ s e t, x s = .error e t → e.cause.isSyntax = false ∧ t.errors = s.errors

/-- A step that always succeeds and looks at no token ahead. -/
theorem neutral_of_ok {x : CompileM α} (g : State → α) (h : State → State)
    (hx : ∀ s, x s = .ok (g s) (h s))
    (hcursor : ∀ s, (h s).cursor = s.cursor ∧ (h s).errors = s.errors)
    (hsame : ∀ s (c : Cursor), c.previous = s.cursor.previous →
      g { s with cursor := c } = g s ∧ h { s with cursor := c } = { h s with cursor := c }) :
    Neutral x where
  ok s a t hok := by
    cases (hx s).symm.trans hok
    refine ⟨(hcursor s).1, (hcursor s).2, fun c hc => ?_⟩
    rw [hx, (hsame s c hc).1, (hsame s c hc).2]
  error s e t herror := by
    cases (hx s).symm.trans herror

/-- One such step after the other. -/
theorem Neutral.bind (hx : Neutral x) (hf : ∀ a, Neutral (f a)) : Neutral (x >>= f) where
  ok s b u hok := by
    obtain ⟨a, t, hfirst, hrest⟩ := bind_eq_ok.mp hok
    obtain ⟨hcursor, herrors, hsame⟩ := hx.ok s a t hfirst
    obtain ⟨hcursor', herrors', hsame'⟩ := (hf a).ok t b u hrest
    refine ⟨hcursor'.trans hcursor, herrors'.trans herrors, fun c hc => ?_⟩
    rw [bind_of_ok (hsame c hc)]
    exact hsame' c (by rw [hc, hcursor])
  error s e u herror := by
    cases hrun : x s with
    | error e' t =>
      rw [bind_of_error hrun] at herror
      cases herror
      exact hx.error s _ _ hrun
    | ok a t =>
      rw [bind_of_ok hrun] at herror
      obtain ⟨hgrammar, herrors⟩ := (hf a).error t e u herror
      exact ⟨hgrammar, herrors.trans (hx.ok s a t hrun).2.1⟩

/-- A look at the state that does not see the cursor. -/
theorem neutral_inspect {f : State → CompileM β}
    (heq : ∀ s cursor, f { s with cursor := cursor } = f s) (hf : ∀ s, Neutral (f s)) :
    Neutral (get >>= f) where
  ok s a t hok := by
    obtain ⟨hcursor, herrors, hsame⟩ := (hf s).ok s a t hok
    refine ⟨hcursor, herrors, fun c hc => ?_⟩
    show f { s with cursor := c } { s with cursor := c } = _
    rw [heq]
    exact hsame c hc
  error s e t herror := (hf s).error s e t herror

theorem neutral_previous : Neutral previous :=
  neutral_of_ok (fun s => s.cursor.previous) id (fun _ => rfl) (fun _ => ⟨rfl, rfl⟩)
    fun _ _ hc => ⟨hc, rfl⟩

instance : Declaring (@Neutral) where
  pure a := neutral_of_ok (fun _ => a) id (fun _ => rfl) (fun _ => ⟨rfl, rfl⟩)
    fun _ _ _ => ⟨rfl, rfl⟩
  bind := Neutral.bind
  inspect hsame := neutral_inspect fun s cursor => hsame s cursor s.chunk.lines s.errors
  readsPrevious _ hf := neutral_previous.bind hf
  emits change _ := neutral_of_ok (fun _ => ())
    (fun s => { s with
      chunk := (change s.cursor.previous.line s.chunk s.openJumps).1
      openJumps := (change s.cursor.previous.line s.chunk s.openJumps).2 })
    (fun _ => rfl) (fun _ => ⟨rfl, rfl⟩) fun s c hc => ⟨rfl, by simp only [hc]⟩
  refuses hcause := by
    constructor
    · intro s a t hok
      cases hok
    · intro s e t herror
      cases herror
      exact ⟨hcause, rfl⟩
  rescopes change := neutral_of_ok (fun _ => ()) (fun s => { s with scope := change s.scope })
    (fun _ => rfl) (fun _ => ⟨rfl, rfl⟩) fun _ _ _ => ⟨rfl, rfl⟩

theorem Neutral.grows (hx : Neutral x) : Grows x := by
  intro s
  cases hrun : x s with
  | ok a t =>
    show s.errors.toList <+: t.errors.toList
    rw [(hx.ok s a t hrun).2.1]
  | error e t =>
    show s.errors.toList <+: t.errors.toList
    rw [(hx.error s e t hrun).2]

/-- A step that passes no tokens matches what is left of a language. -/
theorem Neutral.matches (hx : Neutral x) (s : State) : Matches (· = []) x s where
  grows := hx.grows
  possible := ⟨[], rfl⟩
  clean a t hclean := by
    obtain ⟨hcursor, -, hsame⟩ := hx.ok s a t hclean.1
    exact ⟨0, hcursor, rfl, fun c hc => hsame c hc.previous⟩
  finds e he hgrammar := by
    cases hrun : x s with
    | ok a t => exact absurd (hx.ok s a t hrun).2.1 (he.ne_of_ok hrun)
    | error e' t =>
      obtain ⟨hcause, herrors⟩ := hx.error s e' t hrun
      rw [he.eq_of_error hrun herrors, hcause] at hgrammar
      cases hgrammar

/-- A step that passes no tokens, before one that matches a language. -/
theorem Neutral.matches_bind [Nonempty α] (hx : Neutral x) (hf : ∀ a t, Matches L (f a) t)
    (s : State) : Matches L (x >>= f) s := by
  refine (hx.matches s).bind ?_
  rintro ks rfl a t
  exact hf a t

/-! ### Sequences of phrases

Productions of the grammar are sequences of phrases, and each step of the compiler is for the next
of them. -/

/-- The phrases can be written one after the other. -/
inductive DerivesAll : List Phrase → List Kind → Prop where
  | nil : DerivesAll [] []
  | cons {p : Phrase} {ps : List Phrase} {ks ks' : List Kind} :
    Derives p ks → DerivesAll ps ks' → DerivesAll (p :: ps) (ks ++ ks')

/-- The words of two sequences one after the other. -/
theorem DerivesAll.append {ps qs : List Phrase} {ks ks' : List Kind} (h : DerivesAll ps ks)
    (h' : DerivesAll qs ks') : DerivesAll (ps ++ qs) (ks ++ ks') := by
  induction h with
  | nil => exact h'
  | cons hfirst _ ih =>
    rw [List.append_assoc]
    exact .cons hfirst ih

/-- Two phrases of a sequence are one phrase. -/
theorem DerivesAll.merge {a b : Phrase} {ps : List Phrase} {ks : List Kind}
    (h : DerivesAll (a :: b :: ps) ks) : DerivesAll ((a ++ b) :: ps) ks := by
  cases h with
  | cons hfirst hrest =>
    cases hrest with
    | cons hsecond hrest =>
      rw [← List.append_assoc]
      exact .cons (.seq hfirst hsecond) hrest

/-- A sequence of phrases is one phrase. -/
theorem DerivesAll.derives {p : Phrase} {ps : List Phrase} {ks : List Kind}
    (h : DerivesAll (p :: ps) ks) : Derives (ps.foldl (· ++ ·) p) ks := by
  induction ps generalizing p ks with
  | nil =>
    cases h with
    | cons hfirst hrest =>
      cases hrest
      rw [List.append_nil]
      exact hfirst
  | cons q ps ih => exact ih h.merge

/-- The first phrase may be replaced by one with more words. -/
theorem DerivesAll.map {a b : Phrase} (hle : ∀ ks, Derives a ks → Derives b ks) {ps : List Phrase}
    {ks : List Kind} (h : DerivesAll (a :: ps) ks) : DerivesAll (b :: ps) ks := by
  cases h with
  | cons hfirst hrest => exact .cons (hle _ hfirst) hrest

/-- A phrase that is there or not. -/
theorem derivesAll_optional {a : Phrase} {ps : List Phrase} {ks : List Kind}
    (h : DerivesAll (a :: ps) ks ∨ DerivesAll ps ks) : DerivesAll (.optional a :: ps) ks := by
  rcases h with h | h
  · exact h.map fun _ => .optionalSome
  · exact .cons .optionalNone h

theorem derivesAll_singleton {p : Phrase} {ks : List Kind} (h : Derives p ks) :
    DerivesAll [p] ks := by
  rw [← List.append_nil ks]
  exact .cons h .nil

/-- A token is the only word of its phrase. -/
theorem DerivesAll.eq_of_token {kind : Kind} {ks : List Kind} (h : DerivesAll [.token kind] ks) :
    ks = [kind] := by
  cases h.derives with
  | oneOf hmem => rw [List.mem_singleton.mp hmem]

section Phrases

variable {ps qs : List Phrase}

/-- Steps match the phrases of a sequence one after the other. -/
theorem Matches.seq [Nonempty α] (hx : Matches (DerivesAll ps) x s)
    (hf : ∀ a t, Matches (DerivesAll qs) (f a) t) :
    Matches (DerivesAll (ps ++ qs)) (x >>= f) s :=
  hx.bind fun _ hks a t => (hf a t).mono fun _ hks' => hks.append hks'

/-- A step that passes no tokens matches the empty sequence. -/
theorem Neutral.matches_nil (hx : Neutral x) (s : State) : Matches (DerivesAll []) x s :=
  (hx.matches s).mono fun _ hks => hks ▸ .nil

/-- The next token is passed, whatever it is. -/
theorem matches_advance {kind : Kind} (h : s.cursor.current.kind = kind) :
    Matches (DerivesAll [.token kind]) advance s where
  grows := respects_advance
  possible := ⟨_, derivesAll_singleton (derives_token kind)⟩
  clean a t hclean := by
    cases hclean.1
    refine ⟨1, rfl, ?_, fun c _ => rfl⟩
    rw [Cursor.kinds_one, h]
    exact derivesAll_singleton (derives_token kind)
  finds e he _ := (he.ne_of_ok (advance_apply s) rfl).elim

/-- A token is passed that has to be there, or the step fails at the one that stands in its place.
-/
theorem matches_expect (kind : Kind) (what : Expectation) (s : State) :
    Matches (DerivesAll [.token kind]) (expect kind what) s := by
  by_cases h : s.cursor.current.kind = kind
  · refine (matches_advance h).of_eq (respects_expect kind what) fun c hc => ?_
    rw [expect_apply, if_pos (by rw [hc.current]; exact h), advance_apply]
  · refine matches_of_error (respects_expect kind what) (.expected what) (fun c hc => ?_)
      ⟨_, derivesAll_singleton (derives_token kind)⟩
    refine ⟨{ s with cursor := c }, rfl, ?_⟩
    rw [expect_apply, if_neg (by rw [hc.current]; exact h)]

/-- A choice that depends on whether the next token has some kind. -/
theorem matches_accept (kind : Kind) {x y : CompileM α}
    (hx : ∀ t, Matches (DerivesAll ps) x t) (hy : ∀ t, Matches L y t) (s : State) :
    Matches (fun ks => DerivesAll (.token kind :: ps) ks ∨ L ks)
      (accept kind >>= fun accepted => if accepted then x else y) s := by
  have hgrows : Grows (accept kind >>= fun accepted => if accepted then x else y) :=
    respects_bind (respects_accept kind) fun _ => respects_ite (hx s).grows (hy s).grows
  by_cases hkind : s.cursor.current.kind = kind
  · have hseq := (matches_advance hkind).seq fun _ => hx
    refine Matches.of_eq (hseq.mono fun ks hks => .inl hks) hgrows fun c hc => ?_
    rw [bind_of_ok ((accept_apply kind _).trans (if_pos (by rw [hc.current]; exact hkind))),
      bind_of_ok (advance_apply _)]
    rfl
  · refine Matches.of_eq ((hy s).mono fun ks hks => .inr hks) hgrows fun c hc => ?_
    rw [bind_of_ok ((accept_apply kind _).trans (if_neg (by rw [hc.current]; exact hkind)))]
    rfl

end Phrases

/-- A phrase is a sequence of one phrase. -/
theorem Matches.single {p : Phrase} (h : Matches (Derives p) x s) : Matches (DerivesAll [p]) x s :=
  h.mono fun _ => derivesAll_singleton

end Matches

/-! ## Expressions

At each precedence the language is that of the expressions which hold together at least as tightly.
-/

/-- The expressions of a level. -/
abbrev ExpressionAt (p : Precedence) : List Kind → Prop :=
  Derives (.ref (symbolAt p))

section Expressions

variable {operand : Precedence → CompileM Unit} {p : Precedence}

/-- A primary expression holds together as tightly as possible. -/
theorem expressionAt_of_primary {ks : List Kind} (h : Derives (.ref .primary) ks) :
    ExpressionAt p ks :=
  derives_of_le (q := .primary) p.rank_le h

/-- There are expressions at every precedence. -/
theorem exists_expressionAt (p : Precedence) : ∃ ks, ExpressionAt p ks :=
  ⟨[.nilKw], expressionAt_of_primary (.ref (.left (.oneOf (by decide))))⟩

/-- A token that binds at all is an operator. -/
theorem exists_infixForm {kind : Kind} (hassign : .assignment ≤ p) (hle : p ≤ kind.precedence) :
    ∃ form, kind.infixForm? = some form ∧ kind.precedence = form.precedence := by
  cases hform : kind.infixForm? with
  | some form =>
    refine ⟨form, rfl, ?_⟩
    rw [Kind.precedence, hform]
  | none =>
    rw [Kind.precedence, hform] at hle
    exact absurd (le_trans hassign hle) (by decide)

variable
  (hoperand : ∀ q, .assignment ≤ q → q ≤ .unary → ∀ t, Matches (ExpressionAt q) (operand q) t)

include hoperand

/-- After a name an assignment may follow, where one is allowed. -/
theorem matches_variableUse (canAssign : Bool) (t : State) :
    Matches (fun ks => ks = [] ∨ canAssign = true ∧ DerivesAll [.token .equal, .ref .expression] ks)
      (variableUse operand canAssign) t := by
  have hget : ∀ place : Access, Neutral (emit place.get) := fun place => respects_emit _
  have hset : ∀ (place : Access) t, Matches (DerivesAll [.ref .expression])
      (operand .assignment >>= fun _ => emit place.set) t := by
    intro place t
    have hvalue := (hoperand .assignment (by decide) (by decide) t).single
    have hemit : Neutral (emit place.set) := respects_emit _
    exact hvalue.seq fun _ => hemit.matches_nil
  have : Nonempty Token := ⟨.eof 1⟩
  have : Nonempty Access := ⟨⟨.pop, .pop⟩⟩
  refine Neutral.matches_bind neutral_previous (fun token t => ?_) t
  refine Neutral.matches_bind (respects_access _) (fun place t => ?_) t
  cases canAssign with
  | true =>
    have hchoice := matches_accept .equal (hset place) (hget place).matches t
    refine hchoice.mono fun ks hks => ?_
    rcases hks with hks | hks
    · exact .inr ⟨rfl, hks⟩
    · exact .inl hks
  | false =>
    exact ((hget place).matches t).mono fun ks hks => .inl hks

/-- What a token starts, after the token. -/
theorem matches_prefixForm {kind : Kind} {form : PrefixForm} (hform : kind.prefixForm? = some form)
    (hunary : p ≤ .unary) (t : State) :
    Matches (fun ks => ExpressionAt p (kind :: ks))
      (prefixForm operand (p ≤ .assignment) form) t := by
  -- a token that is an expression by itself
  have hleaf : ∀ {x : CompileM Unit}, Neutral x →
      kind ∈ [.number, .string, .identifier, .trueKw, .falseKw, .nilKw] →
      Matches (fun ks => ExpressionAt p (kind :: ks)) x t := by
    intro x hx hmem
    refine (hx.matches t).mono fun ks hks => ?_
    rw [hks]
    exact expressionAt_of_primary (.ref (.left (.oneOf hmem)))
  have hunaryForm : ∀ operator : UnaryOperator, kind ∈ [.bang, .minus] →
      Matches (fun ks => ExpressionAt p (kind :: ks))
        (operand .unary >>= fun _ => emit operator.instruction) t := by
    intro operator hmem
    have hemit : Neutral (emit operator.instruction) := respects_emit _
    have hvalue := (hoperand .unary (by decide) (by decide) t).single
    have hseq := hvalue.seq fun _ => hemit.matches_nil
    refine hseq.mono fun ks hks => derives_of_le hunary ?_
    exact .ref (.left (.seq (.oneOf hmem) hks.derives))
  cases kind <;> cases hform
  case leftParen =>
    have hvalue := (hoperand .assignment (by decide) (by decide) t).single
    have hseq := hvalue.seq fun _ => matches_expect .rightParen .parenAfterExpression
    refine hseq.mono fun ks hks => expressionAt_of_primary (.ref (.right ?_))
    exact (DerivesAll.cons (derives_token .leftParen) hks).derives
  case minus => exact hunaryForm _ (by decide)
  case bang => exact hunaryForm _ (by decide)
  case identifier =>
    refine (matches_variableUse hoperand _ t).mono fun ks hks => ?_
    rcases hks with rfl | ⟨hassign, hks⟩
    · exact expressionAt_of_primary (.ref (.left (.oneOf (by decide))))
    · refine derives_of_le (q := .assignment) (of_decide_eq_true hassign) (.ref (.left ?_))
      exact (DerivesAll.cons (derives_token .identifier) hks).derives
  case string => exact hleaf respects_string (by decide)
  case number => exact hleaf respects_number (by decide)
  case falseKw => exact hleaf (respects_emit _) (by decide)
  case nilKw => exact hleaf (respects_emit _) (by decide)
  case trueKw => exact hleaf (respects_emit _) (by decide)

/-- What an expression starts with. If the first token starts no expression, the step fails at it.
-/
theorem matches_first (hgrows : ∀ q, Grows (operand q)) (hunary : p ≤ .unary) (s : State) :
    Matches (ExpressionAt p) (first operand p) s := by
  have hgrowsFirst : Grows (first operand p) := by
    refine respects_bind respects_advance fun _ => respects_bind respects_previous fun token => ?_
    split
    · exact respects_failAtPrevious _
    · exact respects_prefixForm hgrows _ _
  cases hform : s.cursor.current.kind.prefixForm? with
  | none =>
    -- with a token that starts no expression the step fails, whatever comes after it
    refine matches_of_error hgrowsFirst (.expected .expression) (fun c hc => ?_)
      (exists_expressionAt p)
    refine ⟨{ s with cursor := c.advance }, rfl, ?_⟩
    have hprevious : c.advance.previous.kind.prefixForm? = none := by
      show c.current.kind.prefixForm? = none
      rw [hc.current]
      exact hform
    rw [first, bind_of_ok (advance_apply _), bind_of_ok (previous_apply _)]
    simp only [hprevious]
    rfl
  | some form =>
    have hbegins := matches_prefixForm hoperand hform hunary
    -- otherwise the token fixes the form
    have hseq : Matches (ExpressionAt p)
        (advance >>= fun _ => prefixForm operand (p ≤ .assignment) form) s := by
      refine (matches_advance rfl).bind fun ks hks _ t => ?_
      rw [hks.eq_of_token]
      exact hbegins t
    refine hseq.of_eq hgrowsFirst fun c hc => ?_
    have hprevious : c.advance.previous.kind.prefixForm? = some form := by
      show c.current.kind.prefixForm? = some form
      rw [hc.current]
      exact hform
    rw [first, bind_of_ok (advance_apply _), bind_of_ok (advance_apply _),
      bind_of_ok (previous_apply _)]
    simp only [hprevious]

/-- The right operand of an operator. -/
theorem matches_infixForm (form : InfixForm) (t : State) :
    Matches (ExpressionAt form.precedence) (infixForm operand form) t := by
  cases form with
  | binary operator =>
    have hemit : Neutral (operator.instructions.forM emit) := respects_forM_emit _
    have hvalue := (hoperand operator.precedence.next (by cases operator <;> decide)
      (by cases operator <;> decide) t).single
    have hseq := hvalue.seq fun _ => hemit.matches_nil
    exact hseq.mono fun ks hks => derives_next hks.derives
  | and =>
    refine Neutral.matches_bind (respects_emitJump _) (fun done t => ?_) t
    refine Neutral.matches_bind (respects_emit _) (fun _ t => ?_) t
    have hpatch : Neutral (patchJump done) := respects_patchJump _
    have hseq := (hoperand .and (by decide) (by decide) t).single.seq fun _ => hpatch.matches_nil
    exact hseq.mono fun ks hks => hks.derives
  | or =>
    refine Neutral.matches_bind (respects_emitJump _) (fun otherwise t => ?_) t
    refine Neutral.matches_bind (respects_emitJump _) (fun done t => ?_) t
    refine Neutral.matches_bind (respects_patchJump _) (fun _ t => ?_) t
    refine Neutral.matches_bind (respects_emit _) (fun _ t => ?_) t
    have hpatch : Neutral (patchJump done) := respects_patchJump _
    have hseq := (hoperand .or (by decide) (by decide) t).single.seq fun _ => hpatch.matches_nil
    exact hseq.mono fun ks hks => hks.derives

/-- The operators after an expression, which is `before`. -/
theorem matches_infixForms (hgrows : ∀ q, Grows (operand q)) (hassign : .assignment ≤ p)
    (count : Nat) {before : List Kind} (hbefore : ExpressionAt p before) (s : State) :
    Matches (fun ks => ExpressionAt p (before ++ ks)) (infixForms operand p count) s := by
  have hend : ∀ {before : List Kind}, ExpressionAt p before → ∀ s,
      Matches (fun ks => ExpressionAt p (before ++ ks)) (pure () : CompileM Unit) s := by
    intro before hbefore s
    have hpure : Neutral (pure () : CompileM Unit) := respects_pure ()
    refine (hpure.matches s).mono fun ks hks => ?_
    rw [hks, List.append_nil]
    exact hbefore
  induction count generalizing before s with
  | zero => exact hend hbefore s
  | succ count ih =>
    have hgrowsForms := respects_infixForms hgrows p (count + 1)
    by_cases hle : p ≤ s.cursor.current.kind.precedence
    · obtain ⟨form, hform, hprecedence⟩ := exists_infixForm hassign hle
      have hround : Matches (fun ks => ExpressionAt p (before ++ ks))
          (advance >>= fun _ => infixForm operand form >>= fun _ => infixForms operand p count)
          s := by
        refine (matches_advance rfl).bind fun kind hkind _ t => ?_
        refine (matches_infixForm hoperand form t).bind fun right hright _ t => ?_
        rw [hkind.eq_of_token]
        rw [hprecedence] at hle
        -- the operator and its operand make a longer expression, on which the other rounds go on
        have hlonger := derives_operation hform hle hbefore hright
        refine (ih hlonger t).mono fun ks hks => ?_
        simpa using hks
      refine hround.of_eq hgrowsForms fun c hc => ?_
      rw [infixForms, bind_of_ok (current_apply _), hc.current, if_pos hle]
      simp only [hform]
    · refine (hend hbefore s).of_eq hgrowsForms fun c hc => ?_
      rw [infixForms, bind_of_ok (current_apply _), hc.current, if_neg hle]

omit hoperand in
/-- Where an assignment is not allowed, a `=` after the expression is an error at the `=`. -/
theorem matches_noAssignment (p : Precedence) (s : State) :
    Matches (· = []) (noAssignment p) s := by
  have hpure : Neutral (pure () : CompileM Unit) := respects_pure ()
  have hgrows : Grows (noAssignment p) := respects_noAssignment p
  by_cases h : p ≤ .assignment ∧ s.cursor.current.kind = .equal
  · refine matches_of_error hgrows .invalidAssignmentTarget (fun c hc => ?_) ⟨[], rfl⟩
    refine ⟨{ s with cursor := c.advance }, rfl, ?_⟩
    have hkind : c.current.kind = .equal := by
      rw [hc.current]
      exact h.2
    rw [noAssignment, if_pos h.1, bind_of_ok ((accept_apply .equal _).trans (if_pos hkind))]
    rfl
  · refine (hpure.matches s).of_eq hgrows fun c hc => ?_
    rw [noAssignment]
    by_cases hassign : p ≤ .assignment
    · have hkind : c.current.kind ≠ .equal := by
        rw [hc.current]
        exact fun hkind => h ⟨hassign, hkind⟩
      rw [if_pos hassign, bind_of_ok ((accept_apply .equal _).trans (if_neg hkind))]
      rfl
    · rw [if_neg hassign]

omit hoperand in
/-- By induction on the bound. An operand is compiled with a smaller one. -/
theorem matches_expressionAt (bound : Nat) (hassign : .assignment ≤ p) (hunary : p ≤ .unary)
    (s : State) : Matches (ExpressionAt p) (expressionAt bound p) s := by
  induction bound generalizing p s with
  | zero =>
    exact matches_of_error (respects_expressionAt 0 p) (.expected .expression)
      (fun c _ => ⟨{ s with cursor := c.advance }, rfl, rfl⟩) (exists_expressionAt p)
  | succ bound ih =>
    have hoperand : ∀ q, .assignment ≤ q → q ≤ .unary → ∀ t,
        Matches (ExpressionAt q) (expressionAt bound q) t := fun q h h' t => ih h h' t
    have hgrows : ∀ q, Grows (expressionAt bound q) := respects_expressionAt bound
    have hlead : Matches (ExpressionAt p) (lead (expressionAt bound) p bound) s :=
      (matches_first hoperand hgrows hunary s).bind fun before hbefore _ t =>
        matches_infixForms hoperand hgrows hassign bound hbefore t
    rw [expressionAt_succ]
    refine hlead.bind fun ks hks _ t => (matches_noAssignment p t).mono fun more hmore => ?_
    rw [hmore, List.append_nil]
    exact hks

end Expressions

/-! ## Statements

Each function of the compiler matches the production that it is for. -/

section Statements

variable {L : List Kind → Prop} {s : State}

theorem matches_expression (bound : Nat) (s : State) :
    Matches (DerivesAll [.ref .expression]) (expression bound) s :=
  (matches_expressionAt bound (p := .assignment) (by decide) (by decide) s).single

/-- A step whose failure is held back until another one has run. -/
theorem Matches.settled {x g : CompileM Unit} (hx : Matches L x s) (hg : Neutral g)
    (hsettles : Settles g) :
    Matches L (attempt x >>= fun outcome => g >>= fun _ => settle outcome) s where
  grows := Scoping.holdsBack hx.grows hg.grows hsettles
  possible := hx.possible
  clean a u hclean := by
    obtain ⟨t, hfirst, hrest⟩ := ok_of_settled hclean.1
    obtain ⟨hcursor', herrors, hsame'⟩ := hg.ok t () u hrest
    have hcleanFirst : Cleanly x s () t := ⟨hfirst, by rw [← herrors]; exact hclean.2⟩
    obtain ⟨n, hcursor, hword, hsame⟩ := hx.clean () t hcleanFirst
    refine ⟨n, hcursor'.trans hcursor, hword, fun c hc => ?_⟩
    have hprevious : (c.skip n).previous = t.cursor.previous := by
      rw [hcursor]
      exact (Cursor.Shares.skip hc).previous
    rw [bind_of_ok (attempt_of_ok (hsame c hc)), bind_of_ok (hsame' _ hprevious)]
    rfl
  finds e he hgrammar := by
    rw [Finds, reported_settled hsettles] at he
    obtain ⟨n, hat, hword, hsame⟩ := hx.finds e he hgrammar
    refine ⟨n, hat, hword, fun c hc => ?_⟩
    rw [Finds, reported_settled hsettles]
    exact hsame c hc

/-- A failure that is recorded is found all the same. -/
theorem Matches.recovering {x : CompileM Unit} (hx : Matches L x s) :
    Matches L (recovering x) s where
  grows := Recovering.recovers hx.grows
  possible := hx.possible
  clean a t hclean := by
    obtain ⟨n, hcursor, hword, hsame⟩ := hx.clean () t (hclean.of_recovering hx.grows)
    refine ⟨n, hcursor, hword, fun c hc => ?_⟩
    rw [Compile.recovering, bind_of_ok (attempt_of_ok (hsame c hc))]
    rfl
  finds e he hgrammar := by
    rw [Finds, reported_recovering] at he
    obtain ⟨n, hat, hword, hsame⟩ := hx.finds e he hgrammar
    refine ⟨n, hat, hword, fun c hc => ?_⟩
    rw [Finds, reported_recovering]
    exact hsame c hc

/-- Opening and closing a block passes no tokens. -/
theorem Matches.inBlock {x : CompileM Unit} (hx : ∀ t, Matches L x t) (s : State) :
    Matches L (inBlock x) s := by
  rw [inBlock_eq]
  exact Neutral.matches_bind (Declaring.rescopes Scope.beginBlock)
    (fun _ t => (hx t).settled respects_closeBlock settles_closeBlock) s

theorem matches_initializer (bound : Nat) (s : State) :
    Matches (DerivesAll [.optional (.token .equal ++ .ref .expression), .token .semicolon])
      (initializer bound) s := by
  have hvalue : ∀ t, Matches (DerivesAll [.ref .expression, .token .semicolon])
      (expression bound >>= fun _ => expect .semicolon .semicolonAfterVariable) t := fun t =>
    (matches_expression bound t).seq fun _ => matches_expect _ _
  have hnone : ∀ t, Matches (DerivesAll [.token .semicolon])
      (emit .nil >>= fun _ => expect .semicolon .semicolonAfterVariable) t := fun t =>
    Neutral.matches_bind (respects_emit _) (fun _ => matches_expect _ _) t
  refine (matches_accept .equal hvalue hnone s).mono fun ks hks => derivesAll_optional ?_
  exact hks.imp_left DerivesAll.merge

/-- A declaration after its keyword. -/
theorem matches_variableDeclaration (bound : Nat) (s : State) :
    Matches (DerivesAll [.token .identifier, .optional (.token .equal ++ .ref .expression),
      .token .semicolon]) (variableDeclaration bound) s := by
  refine (matches_expect .identifier .variableName s).seq fun _ t => ?_
  refine Neutral.matches_bind respects_declareVariable (fun name t => ?_) t
  exact (matches_initializer bound t).settled (respects_defineVariable name)
    (settles_defineVariable name)

/-- A `print` statement after its keyword. -/
theorem matches_printStatement (bound : Nat) (s : State) :
    Matches (DerivesAll [.ref .expression, .token .semicolon]) (printStatement bound) s := by
  have hemit : Neutral (emit .print) := respects_emit _
  exact (matches_expression bound s).seq fun _ t => (matches_expect _ _ t).seq fun _ =>
    hemit.matches_nil

theorem matches_expressionStatement (bound : Nat) (s : State) :
    Matches (Derives (.ref .exprStmt)) (expressionStatement bound) s := by
  have hemit : Neutral (emit .pop) := respects_emit _
  have hseq := (matches_expression bound s).seq fun _ t =>
    (matches_expect .semicolon .semicolonAfterExpression t).seq fun _ => hemit.matches_nil
  exact hseq.mono fun ks hks => .ref hks.derives

theorem matches_condition (bound : Nat) (what : Expectation) (s : State) :
    Matches (DerivesAll [.token .leftParen, .ref .expression, .token .rightParen])
      (condition bound what) s :=
  (matches_expect _ _ s).seq fun _ t => (matches_expression bound t).seq fun _ =>
    matches_expect _ _

/-- A conditional after its keyword. The `else` is taken wherever there is one. -/
theorem matches_ifStatement (bound : Nat) {branch : CompileM Unit}
    (h : ∀ t, Matches (Derives (.ref .statement)) branch t) (s : State) :
    Matches (DerivesAll [.token .leftParen, .ref .expression, .token .rightParen,
      .ref .statement, .optional (.token .elseKw ++ .ref .statement)])
      (ifStatement bound branch) s := by
  refine (matches_condition bound .parenAfterIf s).seq fun _ t => ?_
  refine Neutral.matches_bind (respects_emitJump _) (fun otherwise t => ?_) t
  refine Neutral.matches_bind (respects_emit _) (fun _ t => ?_) t
  refine (h t).single.seq fun _ t => ?_
  refine Neutral.matches_bind (respects_emitJump _) (fun done t => ?_) t
  refine Neutral.matches_bind (respects_patchJump _) (fun _ t => ?_) t
  refine Neutral.matches_bind (respects_emit _) (fun _ t => ?_) t
  have hpatch : Neutral (patchJump done) := respects_patchJump _
  have helse : ∀ t, Matches (DerivesAll [.ref .statement])
      (branch >>= fun _ => patchJump done) t := fun t =>
    (h t).single.seq fun _ => hpatch.matches_nil
  refine (matches_accept .elseKw helse hpatch.matches_nil t).mono fun ks hks => ?_
  exact derivesAll_optional (hks.imp_left DerivesAll.merge)

/-- A loop with a condition after its keyword. -/
theorem matches_whileStatement (bound : Nat) {body : CompileM Unit}
    (h : ∀ t, Matches (Derives (.ref .statement)) body t) (s : State) :
    Matches (DerivesAll [.token .leftParen, .ref .expression, .token .rightParen,
      .ref .statement]) (whileStatement bound body) s := by
  refine Neutral.matches_bind respects_codeSize (fun start t => ?_) s
  refine (matches_condition bound .parenAfterWhile t).seq fun _ t => ?_
  refine Neutral.matches_bind (respects_emitJump _) (fun done t => ?_) t
  refine Neutral.matches_bind (respects_emit _) (fun _ t => ?_) t
  refine (h t).single.seq fun _ t => ?_
  have hend : Neutral (do emitLoop start; patchJump done; emit .pop) := by
    refine respects_bind (respects_emitLoop start) fun _ => ?_
    refine respects_bind (respects_patchJump done) fun _ => ?_
    exact respects_emit _
  exact hend.matches_nil t

/-- The first clause of a loop, with the semicolon that ends it. -/
theorem matches_forInitializer (bound : Nat) (s : State) :
    Matches (Derives (.ref .varDecl ||| .ref .exprStmt ||| .token .semicolon))
      (forInitializer bound) s := by
  have hpure : Neutral (pure () : CompileM Unit) := respects_pure ()
  have hrest := matches_accept .varKw (matches_variableDeclaration bound)
    (matches_expressionStatement bound)
  refine (matches_accept .semicolon hpure.matches_nil hrest s).mono fun ks hks => ?_
  rcases hks with hks | hks | hks
  · exact .right hks.derives
  · exact .left (.left (.ref hks.derives))
  · exact .left (.right hks)

/-- The second clause of a loop. -/
theorem matches_forCondition (bound : Nat) (s : State) :
    Matches (DerivesAll [.optional (.ref .expression), .token .semicolon])
      (forCondition bound) s := by
  have hnone : Neutral (pure none : CompileM (Option Nat)) := respects_pure none
  have hvalue : ∀ t, Matches (DerivesAll [.ref .expression, .token .semicolon]) (do
      expression bound
      expect .semicolon .semicolonAfterCondition
      let done ← emitJump .jumpIfFalse
      emit .pop
      return some done) t := by
    intro t
    refine (matches_expression bound t).seq fun _ t => (matches_expect _ _ t).seq fun _ t => ?_
    have hend : Neutral (do
        let done ← emitJump .jumpIfFalse
        emit .pop
        return some done) :=
      respects_bind (respects_emitJump _) fun _ => respects_bind (respects_emit _) fun _ =>
        respects_pure _
    exact hend.matches_nil t
  refine (matches_accept .semicolon hnone.matches_nil hvalue s).mono fun ks hks => ?_
  exact derivesAll_optional hks.symm

/-- The third clause of a loop, with the parenthesis that ends it. -/
theorem matches_forIncrement (bound start : Nat) (s : State) :
    Matches (DerivesAll [.optional (.ref .expression), .token .rightParen])
      (forIncrement bound start) s := by
  have hnone : Neutral (pure start : CompileM Nat) := respects_pure start
  have hvalue : ∀ t, Matches (DerivesAll [.ref .expression, .token .rightParen]) (do
      let body ← emitJump .jump
      let increment ← codeSize
      expression bound
      emit .pop
      expect .rightParen .parenAfterClauses
      emitLoop start
      patchJump body
      return increment) t := by
    intro t
    refine Neutral.matches_bind (respects_emitJump _) (fun body t => ?_) t
    refine Neutral.matches_bind respects_codeSize (fun increment t => ?_) t
    refine (matches_expression bound t).seq fun _ t => ?_
    refine Neutral.matches_bind (respects_emit _) (fun _ t => ?_) t
    refine (matches_expect _ _ t).seq fun _ t => ?_
    -- what is left emits code and looks at no token
    have hend : Neutral (do
        emitLoop start
        patchJump body
        return increment) := by
      refine respects_bind (respects_emitLoop start) fun _ => ?_
      refine respects_bind (respects_patchJump body) fun _ => ?_
      exact respects_pure increment
    exact hend.matches_nil t
  refine (matches_accept .rightParen hnone.matches_nil hvalue s).mono fun ks hks => ?_
  exact derivesAll_optional hks.symm

/-- A loop with three clauses after its keyword. -/
theorem matches_forStatement (bound : Nat) {body : CompileM Unit}
    (h : ∀ t, Matches (Derives (.ref .statement)) body t) (s : State) :
    Matches (DerivesAll [.token .leftParen,
      .ref .varDecl ||| .ref .exprStmt ||| .token .semicolon, .optional (.ref .expression),
      .token .semicolon, .optional (.ref .expression), .token .rightParen, .ref .statement])
      (forStatement bound body) s := by
  refine (matches_expect .leftParen .parenAfterFor s).seq fun _ t => ?_
  refine (matches_forInitializer bound t).single.seq fun _ t => ?_
  refine Neutral.matches_bind respects_codeSize (fun start t => ?_) t
  refine (matches_forCondition bound t).seq fun leave t => ?_
  refine (matches_forIncrement bound start t).seq fun continueAt t => ?_
  refine (h t).single.seq fun _ t => ?_
  exact Neutral.matches_nil
    (respects_bind (respects_emitLoop _) fun _ => respects_loopEnd leave) t

/-! ### Declarations

A step that records errors matches as if it failed at the first of them. -/

section Declarations

variable {step : CompileM Unit}

/-- A declaration is that of a variable, or a statement. -/
theorem matches_declaration (bound : Nat) (h : ∀ t, Matches (Derives (.ref .statement)) step t)
    (s : State) : Matches (Derives (.ref .declaration)) (declaration bound step) s := by
  refine Matches.recovering ?_
  refine (matches_accept .varKw (matches_variableDeclaration bound) h s).mono fun ks hks => ?_
  rcases hks with hks | hks
  · exact .ref (.left (.ref hks.derives))
  · exact .ref (.right hks)

/-- Steps that are repeated match the repeated phrase. -/
theorem matches_repeatUntil {p : Phrase} (h : ∀ t, Matches (Derives p) step t)
    (stop : Kind → Bool) (count : Nat) (s : State) :
    Matches (Derives (.many p)) (repeatUntil stop step count) s := by
  have hend : ∀ s, Matches (Derives (.many p)) (pure () : CompileM Unit) s := by
    intro s
    have hpure : Neutral (pure () : CompileM Unit) := respects_pure ()
    exact (hpure.matches s).mono fun _ hks => hks ▸ .manyNil
  induction count generalizing s with
  | zero => exact hend s
  | succ count ih =>
    have hgrows := respects_repeatUntil stop (h s).grows (count + 1)
    cases hstop : stop s.cursor.current.kind with
    | true =>
      refine (hend s).of_eq hgrows fun c hc => ?_
      rw [repeatUntil, bind_of_ok (current_apply _), hc.current, if_pos hstop]
    | false =>
      have hround : Matches (Derives (.many p)) (step >>= fun _ => repeatUntil stop step count) s :=
        (h s).bind fun ks hks _ t => (ih t).mono fun _ hmore => hks.manyCons hmore
      refine hround.of_eq hgrows fun c hc => ?_
      rw [repeatUntil, bind_of_ok (current_apply _), hc.current, if_neg (by rw [hstop]; decide)]

/-- A block after its brace. -/
theorem matches_block (bound : Nat) (h : ∀ t, Matches (Derives (.ref .statement)) step t)
    (s : State) :
    Matches (DerivesAll [.many (.ref .declaration), .token .rightBrace]) (block bound step) s :=
  (matches_repeatUntil (matches_declaration bound h) _ bound s).single.seq fun _ =>
    matches_expect _ _

end Declarations

/-- By induction on the bound. The first token tells which statement it is. -/
theorem matches_statement (bound : Nat) (s : State) :
    Matches (Derives (.ref .statement)) (statement bound) s := by
  induction bound generalizing s with
  | zero => exact (matches_expressionStatement 0 s).mono fun ks hks => .ref (.right hks)
  | succ bound ih =>
    have hfrom : Matches (Derives (.ref .statement))
        (statementFrom bound s.cursor.current.kind) s := by
      cases hkind : s.cursor.current.kind
      case printKw =>
        have hseq := (matches_advance hkind).seq fun _ => matches_printStatement bound
        exact hseq.mono fun ks hks => .ref (.left (.left (.left (.left (.left hks.derives)))))
      case ifKw =>
        have hseq := (matches_advance hkind).seq fun _ => matches_ifStatement bound ih
        exact hseq.mono fun ks hks => .ref (.left (.left (.left (.left (.right hks.derives)))))
      case whileKw =>
        have hseq := (matches_advance hkind).seq fun _ => matches_whileStatement bound ih
        exact hseq.mono fun ks hks => .ref (.left (.left (.left (.right hks.derives))))
      case forKw =>
        have hseq := (matches_advance hkind).seq fun _ =>
          Matches.inBlock (matches_forStatement bound ih)
        exact hseq.mono fun ks hks => .ref (.left (.left (.right hks.derives)))
      case leftBrace =>
        have hseq := (matches_advance hkind).seq fun _ => Matches.inBlock (matches_block bound ih)
        exact hseq.mono fun ks hks => .ref (.left (.right hks.derives))
      -- any other token starts an expression, or nothing
      all_goals
        exact (matches_expressionStatement (bound + 1) s).mono fun ks hks => .ref (.right hks)
    refine hfrom.of_eq (respects_statement (bound + 1)) fun c hc => ?_
    rw [statement_apply, ← current_kind, hc.current]

end Statements

/-! ## Scripts

The first error of a script is the one that its first failing step finds. -/

/-- A step finds no two errors. -/
theorem Finds.unique {α : Type} {x : CompileM α} {s : State} {e e' : Error} (h : Finds x s e)
    (h' : Finds x s e') : e = e' := by
  have hbegins := List.prefix_of_prefix_length_le h h' (by simp)
  have hlist := List.append_cancel_left (hbegins.eq_of_length (by simp))
  exact List.singleton_inj.mp hlist

/-- The first error of tokens that follow the grammar is not a syntax error. -/
theorem isSyntax_eq_false {tokens : List Token} (hread : ∀ t ∈ tokens, t.IsReadable)
    (h : Derives (.ref .program) (tokens.map Token.kind)) {e : Error}
    (he : Finds (program tokens.length) (.start tokens) e) : e.cause.isSyntax = false := by
  obtain ⟨script, eof, hgrouped, rfl⟩ := (derives_program_iff hread).mp h
  have heof : nextKind [eof.val] = .eof := eof.property
  have hyields := yields_program hgrouped heof rfl
  by_cases hfits : ScriptFits (endLine script [eof.val]) script
  · exact (he.ne_of_ok (hyields.clean hfits) rfl).elim
  · obtain ⟨e', hcause, he'⟩ := hyields.rejects hfits
    rw [he.unique he']
    exact hcause

/-- The kinds are those with which some script starts. -/
def StartsScript (ks : List Kind) : Prop :=
  ∃ more, Derives (.ref .program) (ks ++ more)

/-- What starts a script starts with the start of one. -/
theorem StartsScript.of_append {ks ks' : List Kind} (h : StartsScript (ks ++ ks')) :
    StartsScript ks := by
  obtain ⟨more, hmore⟩ := h
  exact ⟨ks' ++ more, by rwa [← List.append_assoc]⟩

theorem startsScript_nil : StartsScript [] :=
  ⟨[.eof], .ref (.seq .manyNil (derives_token .eof))⟩

/-- A script has one end. -/
theorem exists_body {ks : List Kind} (h : Derives (.ref .program) ks) :
    ∃ body, ks = body ++ [.eof] ∧ .eof ∉ body := by
  cases h.of_ref with
  | @seq _ _ body last hbody hlast =>
    cases hlast with
    | oneOf hmem =>
      rw [List.mem_singleton.mp hmem]
      exact ⟨body, rfl, hbody.eof_notMem rfl⟩

/-- What starts a script and ends in an end of script is a script. -/
theorem StartsScript.derives {ks : List Kind} (h : StartsScript (ks ++ [.eof])) :
    Derives (.ref .program) (ks ++ [.eof]) := by
  obtain ⟨more, hmore⟩ := h
  obtain ⟨body, heq, hbody⟩ := exists_body hmore
  rcases List.eq_nil_or_concat more with rfl | ⟨middle, last, rfl⟩
  · rwa [List.append_nil] at hmore
  · rw [List.concat_eq_append, ← List.append_assoc] at heq
    have hinside := (List.append_inj' heq rfl).1
    exact absurd (by simp [← hinside]) hbody

/-- The loop over the declarations of a script. -/
theorem matches_declarations (bound : Nat) (s : State) :
    Matches (Derives (.many (.ref .declaration)))
      (repeatUntil (fun kind => kind = .eof) (declaration bound (statement bound)) bound) s :=
  matches_repeatUntil (matches_declaration bound (matches_statement bound)) _ bound s

/-- The first error is found before the end of the script is passed. -/
theorem finds_program {bound : Nat} {s : State} {e : Error} :
    Finds (program bound) s e ↔
      Finds (repeatUntil (fun kind => kind = .eof) (declaration bound (statement bound)) bound)
        s e := by
  have hend : ∀ _ : Unit, Grows (advance >>= fun _ => emit .ret) := fun _ =>
    respects_bind respects_advance fun _ => respects_emit _
  constructor
  · intro h
    rcases finds_bind h (matches_declarations bound s).grows hend with h | ⟨_, t, -, h⟩
    · exact h
    · exact (h.ne_of_ok ((bind_of_ok (advance_apply t)).trans (emit_apply _ _)) rfl).elim
  · exact fun h => h.bind hend

/-- Positions before the last token are those in the list of tokens. -/
theorem nth_start_of_lt {tokens : List Token} {i : Nat} (h : i < tokens.length) :
    tokens[i]? = some ((Cursor.start tokens).nth i) := by
  rw [nth_start, tokenOrEnd, List.getElem?_eq_getElem h]
  rfl

theorem kinds_start {tokens : List Token} {count : Nat} (h : count ≤ tokens.length) :
    (Cursor.start tokens).kinds count = (tokens.take count).map Token.kind := by
  refine List.ext_getElem? fun i => ?_
  rcases Nat.lt_or_ge i count with hi | hi
  · have htoken := nth_start_of_lt (Nat.lt_of_lt_of_le hi h)
    simp [Cursor.kinds, hi, htoken]
  · simp [Cursor.kinds, Nat.not_lt.mpr hi]

/-- A token of a kind, as the scanner might have given it. -/
def anyToken (kind : Kind) : Token :=
  ⟨kind, "", some (.number 0), 1⟩

/-- The first syntax error does not lie among tokens with which some script starts. -/
theorem exists_error_position {tokens : List Token} (hread : ∀ t ∈ tokens, t.IsReadable)
    {e : Error} (he : Finds (program tokens.length) (.start tokens) e)
    (hgrammar : e.cause.isSyntax = true) {count : Nat} (hcount : count ≤ tokens.length)
    (hstarts : StartsScript ((tokens.take count).map Token.kind)) :
    ∃ n, count ≤ n ∧ e = .atToken ((Cursor.start tokens).nth n) e.cause ∧
      StartsScript ((Cursor.start tokens).kinds n) := by
  obtain ⟨more, hmore⟩ := hstarts
  -- a script that starts with the same tokens and has no syntax error
  let other := tokens.take count ++ more.map anyToken
  let bound := max tokens.length other.length
  have hother : Derives (.ref .program) (other.map Token.kind) := by
    have hkinds : more.map (Token.kind ∘ anyToken) = more := List.map_id' more
    rw [List.map_append, List.map_map, hkinds]
    exact hmore
  have hreadOther : ∀ t ∈ other, t.IsReadable := by
    intro t ht
    rcases List.mem_append.mp ht with ht | ht
    · exact hread t (List.mem_of_mem_take ht)
    · obtain ⟨kind, -, rfl⟩ := List.mem_map.mp ht
      exact fun _ => rfl
  -- the two are compiled with the same bound
  have hsame : ∀ list : List Token, list.length ≤ bound →
      program bound (.start list) = program list.length (.start list) := fun list hlist =>
    sameUpTo_program hlist (Nat.le_refl _) _ (Nat.le_refl _)
  have hloop : Finds (program bound) (.start tokens) e := by
    rw [Finds, hsame tokens (Nat.le_max_left _ _)]
    exact he
  obtain ⟨n, hat, ⟨rest, hrest⟩, hfound⟩ :=
    (matches_declarations bound (.start tokens)).finds e (finds_program.mp hloop) hgrammar
  refine ⟨n, ?_, hat, rest ++ [.eof], ?_⟩
  · -- otherwise the error would also be found in the other script
    by_contra hless
    have hshares : (Cursor.start tokens).Shares (n + 1) (.start other) := by
      refine ⟨rfl, fun i hi => ?_⟩
      have hlength : count ≤ other.length := by
        rw [List.length_append, List.length_take]
        omega
      have hfirst := nth_start_of_lt (show i < other.length by omega)
      have hsecond := nth_start_of_lt (show i < tokens.length by omega)
      rw [List.getElem?_append_left (by rw [List.length_take]; omega),
        List.getElem?_take_of_lt (by omega), hsecond] at hfirst
      exact (Option.some.inj hfirst).symm
    have hfoundOther := finds_program.mpr (hfound _ hshares)
    have hwrong : Finds (program other.length) (.start other) e := by
      rw [Finds, ← hsame other (Nat.le_max_right _ _)]
      exact hfoundOther
    rw [isSyntax_eq_false hreadOther hother hwrong] at hgrammar
    cases hgrammar
  · rw [← List.append_assoc]
    exact .ref (.seq hrest (derives_token .eof))

/-- Between what holds and what does not there is a last place where it holds. -/
theorem exists_last_of_not {P : Nat → Prop} (hzero : P 0) {n : Nat} (hn : ¬ P n) :
    ∃ k < n, P k ∧ ¬ P (k + 1) := by
  induction n with
  | zero => exact absurd hzero hn
  | succ n ih =>
    by_cases h : P n
    · exact ⟨n, Nat.lt_succ_self n, h, hn⟩
    · obtain ⟨k, hk, hlast⟩ := ih h
      exact ⟨k, Nat.lt_succ_of_lt hk, hlast⟩

/-- Tokens that the scanner gives are readable. -/
theorem isReadable_of_scan {source : String} {tokens : List Token}
    (h : Token.scan source = .ok tokens) : ∀ t ∈ tokens, t.IsReadable := by
  obtain ⟨body, last, rfl, -, hnumbers⟩ := (scans_of_scan h).exists_eof
  intro t ht hkind
  rcases List.mem_append.mp ht with ht | ht
  · obtain ⟨value, hvalue⟩ := hnumbers t ht hkind
    rw [Token.numberValue?, hvalue]
    rfl
  · obtain rfl := List.mem_singleton.mp ht
    cases hkind

/-- **Syntax errors are found as early as possible.** If the first error of a script is that it does
not follow the grammar, it lies at the first token with which it does not: the tokens before it
start some script, and with it they start none. The end of the script is a token as well. -/
theorem syntaxError_earliest {source : String} {tokens : List Token} {e : Error}
    {others : List Error} (hscan : Token.scan source = .ok tokens)
    (herrors : (compile tokens).errors = e :: others) (hgrammar : e.cause.isSyntax = true) :
    ∃ before token after, tokens = before ++ token :: after ∧ e = .atToken token e.cause ∧
      (∃ more, Derives (.ref .program) (before.map Token.kind ++ more)) ∧
      ¬ ∃ more, Derives (.ref .program) (before.map Token.kind ++ token.kind :: more) := by
  have hread := isReadable_of_scan hscan
  have hfinds : Finds (program tokens.length) (.start tokens) e := by
    obtain ⟨t, ht⟩ := program_ok tokens.length (.start tokens)
    rw [compile_eq_endState, ht] at herrors
    have hreported : t.errors.toList = e :: others := herrors
    rw [Finds, ht, reported, hreported]
    exact ⟨others, rfl⟩
  -- the tokens are not a script, so there is a last one up to which they start one
  have hscript : ¬ StartsScript ((tokens.take tokens.length).map Token.kind) := by
    rw [List.take_length]
    intro hstarts
    have hderives : Derives (.ref .program) (tokens.map Token.kind) := by
      obtain ⟨body, last, rfl, -, -⟩ := (scans_of_scan hscan).exists_eof
      rw [List.map_append] at hstarts ⊢
      exact hstarts.derives
    rw [isSyntax_eq_false hread hderives hfinds] at hgrammar
    cases hgrammar
  obtain ⟨count, hcount, hstarts, hstops⟩ := exists_last_of_not
    (P := fun count => StartsScript ((tokens.take count).map Token.kind)) startsScript_nil hscript
  obtain ⟨n, hle, hat, hn⟩ :=
    exists_error_position hread hfinds hgrammar (Nat.le_of_lt hcount) hstarts
  have hhere : n = count := by
    by_contra hne
    refine hstops ?_
    rw [← kinds_start hcount]
    obtain ⟨k, rfl⟩ := Nat.exists_eq_add_of_le (show count + 1 ≤ n by omega)
    rw [Cursor.kinds_add] at hn
    exact hn.of_append
  subst hhere
  have htoken := nth_start_of_lt hcount
  have hnext : tokens.take (n + 1) = tokens.take n ++ [(Cursor.start tokens).nth n] := by
    rw [List.take_add_one, htoken]
    rfl
  refine ⟨tokens.take n, (Cursor.start tokens).nth n, tokens.drop (n + 1), ?_, hat, hstarts, ?_⟩
  · rw [← List.singleton_append, ← List.append_assoc, ← hnext, List.take_append_drop]
  · rintro ⟨more, hmore⟩
    refine hstops ⟨more, ?_⟩
    rw [hnext, List.map_append, List.append_assoc]
    exact hmore

/-- A stray assignment, deep inside a statement of a block. -/
theorem syntaxError_earliest_assignment :
    ∃ tokens, Token.scan "\x7b print !(a + b = 1); \x7d" = .ok tokens ∧
      (compile tokens).errors = [⟨1, .at "=", .invalidAssignmentTarget⟩] ∧
      ∃ before token after, tokens = before ++ token :: after ∧
        (⟨1, .at "=", .invalidAssignmentTarget⟩ : Error) =
          .atToken token .invalidAssignmentTarget ∧
        (∃ more, Derives (.ref .program) (before.map Token.kind ++ more)) ∧
        ¬ ∃ more, Derives (.ref .program) (before.map Token.kind ++ token.kind :: more) := by
  have herrors : (Token.scan "\x7b print !(a + b = 1); \x7d").toOption.map
      (fun tokens => (compile tokens).errors) =
      some [⟨1, .at "=", .invalidAssignmentTarget⟩] := by
    decide +kernel
  cases hscan : Token.scan "\x7b print !(a + b = 1); \x7d" with
  | error e =>
    rw [hscan] at herrors
    cases herrors
  | ok tokens =>
    rw [hscan] at herrors
    have hone := Option.some.inj herrors
    exact ⟨tokens, rfl, hone, syntaxError_earliest hscan hone rfl⟩

end StackScript.Compile
