import StackScript.Token.Scan

/-!
# The tokens of a script

How the tokens that the scanner finds are cut out of the bytes of a script, one after the other.

* **`Scans`**: the tokens of the bytes that are left, with the trivia before each of them.
* **`scans_of_scan`**: the scanner finds such tokens.
* **`Scans.exists_eof`**: the last token is the end of the script, and no other one is.
-/

namespace StackScript

/-- The tokens differ at most in their lines. -/
structure Token.EqUpToLine (a b : Token) : Prop where
  kind : a.kind = b.kind
  lexeme : a.lexeme = b.lexeme
  literal : a.literal = b.literal

namespace Scanner

/-- The token of a lexeme that starts on a line. -/
def tokenAt (line : Nat) (kind : Kind) (lexeme : List UInt8) : Token where
  kind := kind
  lexeme := sliceText lexeme
  literal := literal? kind lexeme
  line := line + lexeme.count newline

/-- The tokens of the bytes from a line on. -/
inductive Scans : Nat → List UInt8 → List Token → Prop where
  | eof {line last : Nat} {bytes : List UInt8} :
    skipTrivia false line bytes = (last, []) → Scans line bytes [.eof last]
  | lexeme {line start more : Nat} {bytes rest : List UInt8} {first : UInt8} {kind : Kind}
      {tokens : List Token} :
    skipTrivia false line bytes = (start, first :: rest) →
    munch first rest = .lexeme kind more →
    Scans (tokenAt start kind (first :: rest.take more)).line (rest.drop more) tokens →
    Scans line bytes (tokenAt start kind (first :: rest.take more) :: tokens)

/-- The scanner finds the end, or a lexeme after which it goes on. -/
theorem next_cases {s s' : Scanner} {token : Token} (h : s.next = (some (.ok token), s')) :
    (∃ line, skipTrivia false s.line s.rest = (line, []) ∧ token = .eof line ∧
      s' = ⟨[], line, true⟩) ∨
    ∃ line first rest kind more, skipTrivia false s.line s.rest = (line, first :: rest) ∧
      munch first rest = .lexeme kind more ∧
      token = tokenAt line kind (first :: rest.take more) ∧
      s' = ⟨rest.drop more, token.line, false⟩ := by
  unfold next at h
  split at h
  · cases h
  · dsimp only at h
    split at h
    · rename_i hend
      cases h
      exact .inl ⟨_, Prod.ext rfl hend, rfl, rfl⟩
    · rename_i first rest hrest
      split at h
      · rename_i kind more hmunch
        cases h
        exact .inr ⟨_, first, rest, kind, more, Prod.ext rfl hrest, hmunch, rfl, rfl⟩
      · cases h
      · cases h

/-- A call gives nothing only after the end. -/
theorem ended_of_next_none {s s' : Scanner} (h : s.next = (none, s')) : s.ended = true := by
  unfold next at h
  split at h
  · assumption
  · dsimp only at h
    split at h
    · cases h
    · split at h <;> cases h

/-- After the end no token is collected. -/
theorem collect_of_ended {s : Scanner} (h : s.ended = true) (found : Array Token) :
    s.collect found = .ok found := by
  have hnext : s.next = (none, s) := by
    unfold next
    rw [if_pos h]
  unfold collect
  split
  · rfl
  · rename_i e s' hs'
    rw [hnext] at hs'
    cases hs'
  · rename_i token s' hs'
    rw [hnext] at hs'
    cases hs'

/-- By induction on the calls. Each of them gives a token or the end. -/
theorem scans_of_collect {s : Scanner} {found result : Array Token}
    (h : s.collect found = .ok result) (hs : s.ended = false) :
    ∃ tokens, Scans s.line s.rest tokens ∧ result.toList = found.toList ++ tokens := by
  fun_induction collect s found with
  | case1 s found s' hnext => rw [ended_of_next_none hnext] at hs; cases hs
  | case2 s found e s' hnext => cases h
  | case3 s found token s' hnext ih =>
    rcases next_cases hnext with
      ⟨line, htrivia, rfl, rfl⟩ | ⟨line, first, rest, kind, more, htrivia, hmunch, rfl, rfl⟩
    · rw [collect_of_ended rfl] at h
      cases h
      exact ⟨_, .eof htrivia, by simp⟩
    · obtain ⟨tokens, htokens, hresult⟩ := ih h rfl
      refine ⟨_, .lexeme htrivia hmunch htokens, ?_⟩
      rw [hresult]
      simp

/-! ## Kinds of tokens

The mark for the end of a script is not the kind of any lexeme, so it comes once and last. -/

/-- A word is a keyword or a name. -/
theorem ofWord_ne_eof (word : String) : Kind.ofWord word ≠ .eof := by
  unfold Kind.ofWord
  split <;> decide

/-- No operator is the end. -/
theorem operator?_ne_eof {first : UInt8} {rest : List UInt8} {kind : Kind} {more : Nat}
    (h : operator? first rest = some (kind, more)) : kind ≠ .eof := by
  unfold operator? at h
  dsimp only at h
  split at h <;> grind

/-- No lexeme is the end of a script. -/
theorem munch_ne_eof {first : UInt8} {rest : List UInt8} {kind : Kind} {more : Nat}
    (h : munch first rest = .lexeme kind more) : kind ≠ .eof := by
  unfold munch at h
  split at h
  · dsimp only at h
    split at h
    · cases h
    · cases h
      decide
  split at h
  · cases h
    decide
  split at h
  · cases h
    exact ofWord_ne_eof _
  split at h
  · rename_i hoperator
    cases h
    exact operator?_ne_eof hoperator
  · cases h

/-- The end comes last and only once, and a number has a value. -/
theorem Scans.exists_eof {line : Nat} {bytes : List UInt8} {tokens : List Token}
    (h : Scans line bytes tokens) :
    ∃ body last, tokens = body ++ [.eof last] ∧ (∀ t ∈ body, t.kind ≠ .eof) ∧
      ∀ t ∈ body, t.kind = .number → ∃ value, t.literal = some (.number value) := by
  induction h with
  | eof htrivia => exact ⟨[], _, rfl, List.forall_mem_nil _, List.forall_mem_nil _⟩
  | @lexeme line start more bytes rest first kind tokens htrivia hmunch _ ih =>
    obtain ⟨body, last, rfl, hkinds, hnumbers⟩ := ih
    refine ⟨_ :: body, last, rfl, ?_, ?_⟩
    · exact List.forall_mem_cons.mpr ⟨munch_ne_eof hmunch, hkinds⟩
    · refine List.forall_mem_cons.mpr ⟨?_, hnumbers⟩
      rintro ⟨rfl⟩
      exact ⟨_, rfl⟩

end Scanner

/-- A script that is scanned is scanned from its first line. -/
theorem scans_of_scan {source : String} {tokens : List Token}
    (h : Token.scan source = .ok tokens) : Scanner.Scans 1 (Text.encode source) tokens := by
  unfold Token.scan at h
  cases hcollect : (Scanner.start source).collect #[] with
  | error e =>
    rw [hcollect] at h
    cases h
  | ok result =>
    rw [hcollect] at h
    cases h
    obtain ⟨tokens, htokens, hresult⟩ := Scanner.scans_of_collect hcollect rfl
    rw [hresult]
    exact htokens

end StackScript
