import StackScript.Proofs.Token.LexicalGrammar
import StackScript.Proofs.Token.Scanning

/-!
# Scripts below each other

A newline ends every lexeme and every comment, so two scripts with a newline between them have the
tokens of the first script without its end and then those of the second, further down.

* **`skipTrivia_append`**: trivia is the same before a newline, and goes on behind it.
* **`munch_append`**: a lexeme does not see beyond a blank.
* **`Scans.append`**: the tokens of two scripts below each other.
* **`Scans.later`**: the tokens of a script that starts further down.
* **`scan_append`**: both together, for whole texts.
-/

namespace StackScript

/-- A token some lines further down. -/
def Token.later (lines : Nat) (token : Token) : Token :=
  { token with line := token.line + lines }

namespace Scanner

/-! ## Trivia

What is skipped before a newline does not depend on what comes after it. -/

/-- Two slashes are never separated by the newline. -/
theorem startsComment_append (first : UInt8) (rest more : List UInt8) :
    startsComment first (rest ++ newline :: more) = startsComment first rest := by
  cases rest with
  | nil =>
    -- a newline is no slash
    show (_ && some newline == some '/'.toUInt8) = (_ && none == some '/'.toUInt8)
    rfl
  | cons byte rest => rfl

/-- Trivia that reaches the end of the first script goes on below, and other trivia is as it was. -/
theorem skipTrivia_append (inComment : Bool) (line : Nat) (bytes more : List UInt8) :
    skipTrivia inComment line (bytes ++ newline :: more) =
      match skipTrivia inComment line bytes with
      | (last, []) => skipTrivia false (last + 1) more
      | (start, first :: rest) => (start, first :: (rest ++ newline :: more)) := by
  induction bytes generalizing inComment line with
  | nil => simp [skipTrivia]
  | cons byte rest ih =>
    rw [List.cons_append, skipTrivia, skipTrivia, startsComment_append]
    split
    · exact ih false (line + 1)
    split
    · exact ih true line
    split
    · exact ih false line
    split
    · exact ih true line
    · rfl

/-- The lines of trivia are counted from where it starts. -/
theorem skipTrivia_later (inComment : Bool) (line lines : Nat) (bytes : List UInt8) :
    skipTrivia inComment (line + lines) bytes =
      ((skipTrivia inComment line bytes).1 + lines, (skipTrivia inComment line bytes).2) := by
  induction bytes generalizing inComment line with
  | nil => rfl
  | cons byte rest ih =>
    rw [skipTrivia, skipTrivia]
    split
    · rw [Nat.add_right_comm]
      exact ih false (line + 1)
    split
    · exact ih true line
    split
    · exact ih false line
    split
    · exact ih true line
    · rfl

/-- Trivia counts the newlines that it skips. -/
theorem line_skipTrivia (inComment : Bool) (line : Nat) (bytes : List UInt8) :
    (skipTrivia inComment line bytes).1 + (skipTrivia inComment line bytes).2.count newline =
      line + bytes.count newline := by
  induction bytes generalizing inComment line with
  | nil => rfl
  | cons byte rest ih =>
    rw [skipTrivia]
    split
    · rename_i hnewline
      rw [ih, hnewline, List.count_cons_self]
      omega
    · rename_i hother
      rw [List.count_cons_of_ne hother]
      split
      · exact ih true line
      split
      · exact ih false line
      split
      · exact ih true line
      · rw [List.count_cons_of_ne hother]

/-! ## Lexemes

A lexeme ends before a blank, so it is the same with or without the text behind it. -/

/-- Bytes are taken up to one that fails the test. -/
theorem takeWhile_append_of_false {p : UInt8 → Bool} {last : UInt8} (h : p last = false)
    (bytes more : List UInt8) :
    (bytes ++ last :: more).takeWhile p = bytes.takeWhile p := by
  rw [List.takeWhile_append, List.takeWhile_cons, h]
  split
  · rename_i hall
    rw [(List.takeWhile_prefix p).eq_of_length hall]
    simp
  · rfl

section Blank

variable {last : UInt8} (hblank : last ∈ Lexical.blanks)

include hblank

/-- A blank is no part of a number or a word, and no operator goes on with it. -/
theorem not_continues_of_blank :
    isDigit last = false ∧ isWordByte last = false ∧ last ≠ '.'.toUInt8 ∧
      last ≠ '='.toUInt8 ∧ last ≠ '>'.toUInt8 := by
  have hall : ∀ byte ∈ Lexical.blanks, isDigit byte = false ∧ isWordByte byte = false ∧
      byte ≠ '.'.toUInt8 ∧ byte ≠ '='.toUInt8 ∧ byte ≠ '>'.toUInt8 := by
    decide +kernel
  exact hall last hblank

/-- Neither digits nor a point follow. -/
theorem numberMore_append (rest more : List UInt8) :
    numberMore (rest ++ last :: more) = numberMore rest := by
  obtain ⟨hdigit, -, hpoint, -⟩ := not_continues_of_blank hblank
  have hle : (rest.takeWhile isDigit).length ≤ rest.length :=
    (List.takeWhile_prefix isDigit).length_le
  unfold numberMore
  rw [takeWhile_append_of_false hdigit]
  simp only [List.drop_append_of_le_length hle]
  cases hrest : rest.drop (rest.takeWhile isDigit).length with
  | nil => simp [hpoint]
  | cons byte fraction => simp only [List.cons_append, takeWhile_append_of_false hdigit]

/-- The second character of an operator is no blank. -/
theorem operator?_append (first : UInt8) (rest more : List UInt8) :
    operator? first (rest ++ last :: more) = operator? first rest := by
  cases rest with
  | cons byte rest => rfl
  | nil =>
    obtain ⟨-, -, -, hequal, harrow⟩ := not_continues_of_blank hblank
    have hequal : (some last == some '='.toUInt8) = false := by simpa using hequal
    have harrow : (some last == some '>'.toUInt8) = false := by simpa using harrow
    unfold operator?
    simp only [List.nil_append, List.head?_cons, List.head?_nil, hequal, harrow]
    rfl

end Blank

/-- A number does not go beyond the bytes that are there. -/
theorem numberMore_le (rest : List UInt8) : numberMore rest ≤ rest.length := by
  have hsplit : (rest.takeWhile isDigit).length + (rest.drop (rest.takeWhile isDigit).length).length
      = rest.length := by
    have hle := (List.takeWhile_prefix isDigit (l := rest)).length_le
    rw [List.length_drop]
    omega
  unfold numberMore
  dsimp only
  split
  · omega
  · rename_i byte fraction hrest
    have hle := (List.takeWhile_prefix isDigit (l := fraction)).length_le
    rw [hrest, List.length_cons] at hsplit
    split
    · omega
    · omega

/-- Only an operator of two characters asks for a byte, and it has seen it. -/
theorem operator?_le {first : UInt8} {rest : List UInt8} {kind : Kind} {count : Nat}
    (h : operator? first rest = some (kind, count)) : count ≤ rest.length := by
  cases rest with
  | nil =>
    unfold operator? at h
    dsimp only at h
    split at h <;> simp_all
  | cons byte rest =>
    have hone : count ≤ 1 := by
      unfold operator? at h
      dsimp only at h
      split at h <;> grind
    rw [List.length_cons]
    omega

/-- A lexeme ends before a blank. -/
theorem munch_append {first last : UInt8} {rest : List UInt8} {kind : Kind} {count : Nat}
    (h : munch first rest = .lexeme kind count) (hblank : last ∈ Lexical.blanks)
    (more : List UInt8) :
    munch first (rest ++ last :: more) = .lexeme kind count ∧ count ≤ rest.length := by
  unfold munch at h ⊢
  dsimp only at h ⊢
  by_cases hquote : first = quote
  · rw [if_pos hquote] at h ⊢
    -- the closing quote comes before the blank
    by_cases hopen : rest.drop (rest.takeWhile (· ≠ quote)).length = []
    · rw [if_pos hopen] at h
      cases h
    · rw [if_neg hopen] at h
      cases h
      have hlt : (rest.takeWhile (· ≠ quote)).length < rest.length := by
        rw [List.drop_eq_nil_iff] at hopen
        omega
      have hsame : (rest ++ last :: more).takeWhile (· ≠ quote) =
          rest.takeWhile (· ≠ quote) := by
        rw [List.takeWhile_append, if_neg (by omega)]
      rw [hsame]
      refine ⟨if_neg ?_, hlt⟩
      rw [List.drop_eq_nil_iff, List.length_append]
      omega
  rw [if_neg hquote] at h ⊢
  by_cases hdigit : isDigit first = true
  · rw [if_pos hdigit] at h ⊢
    cases h
    rw [numberMore_append hblank]
    exact ⟨rfl, numberMore_le rest⟩
  rw [if_neg hdigit] at h ⊢
  by_cases hletter : isLetter first = true
  · rw [if_pos hletter] at h ⊢
    cases h
    rw [takeWhile_append_of_false (not_continues_of_blank hblank).2.1]
    exact ⟨rfl, (List.takeWhile_prefix isWordByte).length_le⟩
  rw [if_neg hletter] at h ⊢
  rw [operator?_append hblank]
  cases hoperator : operator? first rest with
  | none =>
    rw [hoperator] at h
    cases h
  | some found =>
    rw [hoperator] at h
    cases h
    exact ⟨rfl, operator?_le hoperator⟩

/-! ## Tokens

The second text is scanned as if it stood alone, with all lines later. -/

/-- A token that starts some lines later. -/
theorem tokenAt_later (line lines : Nat) (kind : Kind) (lexeme : List UInt8) :
    tokenAt (line + lines) kind lexeme = (tokenAt line kind lexeme).later lines := by
  unfold tokenAt Token.later
  rw [Nat.add_right_comm]

/-- A script that starts further down has the same tokens further down. -/
theorem Scans.later {line : Nat} {bytes : List UInt8} {tokens : List Token}
    (h : Scans line bytes tokens) (lines : Nat) :
    Scans (line + lines) bytes (tokens.map (Token.later lines)) := by
  induction h with
  | @eof line last bytes htrivia =>
    have hlater : skipTrivia false (line + lines) bytes = (last + lines, []) := by
      rw [skipTrivia_later, htrivia]
    exact .eof hlater
  | @lexeme line start count bytes rest first kind tokens htrivia hmunch _ ih =>
    have hlater : skipTrivia false (line + lines) bytes = (start + lines, first :: rest) := by
      rw [skipTrivia_later, htrivia]
    rw [List.map_cons, ← tokenAt_later]
    apply Scans.lexeme hlater hmunch
    rw [tokenAt_later]
    exact ih

/-- After a lexeme, the newlines of the bytes that are left are still to be counted. -/
theorem line_tokenAt {line start : Nat} {bytes rest : List UInt8} {first : UInt8}
    (h : skipTrivia false line bytes = (start, first :: rest)) (kind : Kind) (count : Nat) :
    (tokenAt start kind (first :: rest.take count)).line + (rest.drop count).count newline =
      line + bytes.count newline := by
  have hskip := line_skipTrivia false line bytes
  rw [h] at hskip
  have hsplit : (rest.take count).count newline + (rest.drop count).count newline =
      rest.count newline := by
    rw [← List.count_append, List.take_append_drop]
  show start + (first :: rest.take count).count newline + _ = _
  simp only [List.count_cons] at hskip ⊢
  omega

/-- The end of a script is on the line after all its newlines, and a script below it starts on the
next one. -/
theorem Scans.append {line : Nat} {bytes : List UInt8} {tokens : List Token}
    (h : Scans line bytes tokens) :
    ∃ body, tokens = body ++ [.eof (line + bytes.count newline)] ∧
      ∀ {more : List UInt8} {tokens' : List Token},
        Scans (line + bytes.count newline + 1) more tokens' →
        Scans line (bytes ++ newline :: more) (body ++ tokens') := by
  induction h with
  | @eof line last bytes htrivia =>
    have hlast : last = line + bytes.count newline := by
      have hskip := line_skipTrivia false line bytes
      rw [htrivia] at hskip
      exact hskip
    refine ⟨[], by rw [hlast, List.nil_append], ?_⟩
    intro more tokens' hmore
    have hbelow := skipTrivia_append false line bytes more
    rw [htrivia, hlast] at hbelow
    -- only trivia lies before the first token of the second script
    cases hmore with
    | eof hend => exact .eof (hbelow.trans hend)
    | lexeme hstart hmunch hrest => exact .lexeme (hbelow.trans hstart) hmunch hrest
  | @lexeme line start count bytes rest first kind tokens htrivia hmunch _ ih =>
    rw [line_tokenAt htrivia] at ih
    obtain ⟨body, rfl, hbody⟩ := ih
    refine ⟨tokenAt start kind (first :: rest.take count) :: body, rfl, ?_⟩
    intro more tokens' hmore
    have hnewline : newline ∈ Lexical.blanks := by decide
    obtain ⟨hmunch', hle⟩ := munch_append hmunch hnewline more
    have hbelow := skipTrivia_append false line bytes more
    rw [htrivia] at hbelow
    have htail := hbody hmore
    -- the lexeme and the bytes after it are cut out of the longer text at the same place
    have hlexeme : (rest ++ newline :: more).take count = rest.take count :=
      List.take_append_of_le_length hle
    rw [← List.drop_append_of_le_length hle, ← hlexeme] at htail
    rw [← hlexeme]
    exact .lexeme hbelow hmunch' htail

/-! ## Whole texts

From the relation between bytes and tokens back to the scanner. -/

theorem collect_of_next {s s' : Scanner} {token : Token} (h : s.next = (some (.ok token), s'))
    (found : Array Token) : s.collect found = s'.collect (found.push token) := by
  rw [collect]
  split
  · rename_i hs
    rw [h] at hs
    cases hs
  · rename_i hs
    rw [h] at hs
    cases hs
  · rename_i hs
    rw [h] at hs
    cases hs
    rfl

/-- At the end there is a mark with the last line. -/
theorem next_of_end {line last : Nat} {bytes : List UInt8}
    (h : skipTrivia false line bytes = (last, [])) :
    next ⟨bytes, line, false⟩ = (some (.ok (.eof last)), ⟨[], last, true⟩) := by
  unfold next
  simp [h]

/-- The lexeme that starts at the next byte becomes a token. -/
theorem next_of_munch {line start count : Nat} {bytes rest : List UInt8} {first : UInt8}
    {kind : Kind} (h : skipTrivia false line bytes = (start, first :: rest))
    (hmunch : munch first rest = .lexeme kind count) :
    next ⟨bytes, line, false⟩ =
      (some (.ok (tokenAt start kind (first :: rest.take count))),
        ⟨rest.drop count, (tokenAt start kind (first :: rest.take count)).line, false⟩) := by
  unfold next tokenAt
  simp [h, hmunch]

/-- The scanner finds every token. -/
theorem collect_of_scans {line : Nat} {bytes : List UInt8} {tokens : List Token}
    (h : Scans line bytes tokens) (found : Array Token) :
    collect ⟨bytes, line, false⟩ found = .ok (found ++ tokens.toArray) := by
  induction h generalizing found with
  | eof htrivia =>
    rw [collect_of_next (next_of_end htrivia), collect_of_ended rfl, Array.push_eq_append]
  | lexeme htrivia hmunch _ ih =>
    rw [collect_of_next (next_of_munch htrivia hmunch), ih]
    simp

end Scanner

/-- A script is scanned from its first line. -/
theorem scan_of_scans {source : String} {tokens : List Token}
    (h : Scanner.Scans 1 (Text.encode source) tokens) : Token.scan source = .ok tokens := by
  unfold Token.scan Scanner.start
  rw [Scanner.collect_of_scans h, Array.empty_append]
  rfl

namespace Text

/-- A byte is a newline only if its number is. -/
theorem ofNat_ne_newline {code : Nat} (h : code % 256 ≠ 10) :
    UInt8.ofNat code ≠ Scanner.newline := by
  intro hnewline
  have hcode := congrArg UInt8.toNat hnewline
  rw [UInt8.toNat_ofNat'] at hcode
  exact h hcode

/-- A newline is one byte, and no other character has a byte that is one. -/
theorem count_newline_utf8EncodeChar (c : Char) :
    (String.utf8EncodeChar c).count Scanner.newline = [c].count '\n' := by
  by_cases hc : c = '\n'
  · rw [hc]
    decide
  have hcode : c.val.toNat ≠ 10 := by
    intro hcode
    apply hc
    exact Char.ext (UInt32.toNat_inj.mp hcode)
  have hnone : ∀ byte ∈ String.utf8EncodeChar c, byte ≠ Scanner.newline := by
    unfold String.utf8EncodeChar
    dsimp only
    split
    · simp only [List.forall_mem_cons]
      refine ⟨ofNat_ne_newline (by omega), List.forall_mem_nil _⟩
    -- the bytes of a character beyond the first 128 are all beyond them
    split
    · simp only [List.forall_mem_cons]
      refine ⟨ofNat_ne_newline (by omega), ofNat_ne_newline (by omega), List.forall_mem_nil _⟩
    split
    · simp only [List.forall_mem_cons]
      refine ⟨ofNat_ne_newline (by omega), ofNat_ne_newline (by omega),
        ofNat_ne_newline (by omega), List.forall_mem_nil _⟩
    · simp only [List.forall_mem_cons]
      refine ⟨ofNat_ne_newline (by omega), ofNat_ne_newline (by omega),
        ofNat_ne_newline (by omega), ofNat_ne_newline (by omega), List.forall_mem_nil _⟩
  rw [List.count_eq_zero_of_not_mem (fun h => hnone _ h rfl), List.count_cons_of_ne hc,
    List.count_nil]

/-- The newlines of a text are those of its bytes. -/
theorem count_newline_encode (text : String) :
    (encode text).count Scanner.newline = text.toList.count '\n' := by
  rw [encode_eq_flatMap]
  induction text.toList with
  | nil => rfl
  | cons c rest ih =>
    rw [List.flatMap_cons, List.count_append, ih, count_newline_utf8EncodeChar,
      ← List.count_append, List.singleton_append]

end Text

/-- Two scripts that the scanner accepts, one below the other. -/
theorem scan_append {first second : String} {tokens tokens' : List Token}
    (h : Token.scan first = .ok tokens) (h' : Token.scan second = .ok tokens') :
    ∃ body last, tokens = body ++ [.eof last] ∧
      last = 1 + first.toList.count '\n' ∧
      Token.scan (first ++ "\n" ++ second) = .ok (body ++ tokens'.map (Token.later last)) := by
  obtain ⟨body, htokens, hbody⟩ := (scans_of_scan h).append
  refine ⟨body, _, htokens, by rw [Text.count_newline_encode], ?_⟩
  apply scan_of_scans
  rw [Text.encode_append, Text.encode_append, List.append_assoc]
  apply hbody
  rw [Nat.add_comm]
  exact (scans_of_scan h').later _

/-- A brace in front of a script that the scanner accepts. -/
theorem scan_brace {brace : String} {kind : Kind}
    (hbrace : brace = "\x7b" ∧ kind = .leftBrace ∨ brace = "\x7d" ∧ kind = .rightBrace)
    {source : String} {tokens : List Token} (h : Token.scan source = .ok tokens) :
    Token.scan (brace ++ source) = .ok (⟨kind, brace, none, 1⟩ :: tokens) := by
  obtain ⟨first, hencode, hskip, hmunch, htoken⟩ : ∃ first, Text.encode brace = [first] ∧
      (∀ rest, Scanner.skipTrivia false 1 (first :: rest) = (1, first :: rest)) ∧
      (∀ rest, Scanner.munch first rest = .lexeme kind 0) ∧
      Scanner.tokenAt 1 kind [first] = ⟨kind, brace, none, 1⟩ := by
    rcases hbrace with ⟨rfl, rfl⟩ | ⟨rfl, rfl⟩
    · exact ⟨'\x7b'.toUInt8, rfl, fun _ => rfl, fun _ => rfl, rfl⟩
    · exact ⟨'\x7d'.toUInt8, rfl, fun _ => rfl, fun _ => rfl, rfl⟩
  have hfirst : Scanner.skipTrivia false 1 (Text.encode (brace ++ source)) =
      (1, first :: Text.encode source) := by
    rw [Text.encode_append, hencode]
    exact hskip _
  have hline : (Scanner.tokenAt 1 kind [first]).line = 1 := by rw [htoken]
  have hrest : Scanner.Scans (Scanner.tokenAt 1 kind [first]).line (Text.encode source) tokens := by
    rw [hline]
    exact scans_of_scan h
  rw [← htoken]
  exact scan_of_scans (.lexeme hfirst (hmunch _) hrest)

end StackScript
