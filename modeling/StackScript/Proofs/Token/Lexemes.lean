import StackScript.Proofs.Token.Concatenation
import StackScript.Proofs.Token.LexicalGrammar

/-!
# Trivia and lexemes at the front of a script

The scanner looks at its bytes once and decides by the first one or two of them. What it skips is
nevertheless the longest run of trivia, and what it takes the longest lexeme of the grammar.

* **`longest_skipTrivia`**: what is skipped is the longest run of trivia.
* **`munch_of_lexeme`**: where a lexeme stands, a lexeme at least as long is taken.
* **`lexeme_of_munch`**: what is taken is a lexeme.
-/

namespace StackScript.Scanner

open Lexical Text

/-! ## Classes of bytes

The tests of the scanner, and the ranges that the description of the lexemes gives. -/

/-- The digits from `0` to `9`. -/
theorem isDigit_iff (byte : UInt8) : isDigit byte = true ↔ Digit byte := by
  simp [isDigit, Digit]

/-- Letters of both cases, and the underscore. -/
theorem isLetter_iff (byte : UInt8) : isLetter byte = true ↔ Letter byte := by
  simp [isLetter, Letter, or_assoc]

/-- What a word consists of after its first letter. -/
theorem isWordByte_iff (byte : UInt8) : isWordByte byte = true ↔ Letter byte ∨ Digit byte := by
  simp [isWordByte, isLetter_iff, isDigit_iff]

/-- The blanks are the spaces and the newline. -/
theorem mem_blanks_iff (byte : UInt8) : byte ∈ blanks ↔ byte = newline ∨ isSpace byte = true := by
  simp only [blanks, isSpace, List.mem_cons, List.not_mem_nil, Bool.or_eq_true, decide_eq_true_eq]
  grind

/-! ## Trivia

The scanner skips as much as it can, so that a token starts with the next byte. -/

/-- A comment goes on up to the next newline. -/
theorem skipTrivia_comment {body : List UInt8} (h : newline ∉ body) (line : Nat)
    (rest : List UInt8) : skipTrivia true line (body ++ rest) = skipTrivia true line rest := by
  induction body with
  | nil => rfl
  | cons byte body ih =>
    rw [List.mem_cons, not_or] at h
    rw [List.cons_append, skipTrivia, if_neg (Ne.symm h.1), if_pos rfl]
    exact ih h.2

/-- Behind a run of trivia the scanner is still skipping, be it in a comment or not. -/
theorem skipTrivia_of_trivia {run : List UInt8} (h : Trivia run) (inComment : Bool) (line : Nat)
    (rest : List UInt8) :
    ∃ inside line', skipTrivia inComment line (run ++ rest) = skipTrivia inside line' rest := by
  induction h generalizing inComment line with
  | nil => exact ⟨inComment, line, rfl⟩
  | @blank byte run hblank _ ih =>
    rw [List.cons_append, skipTrivia]
    by_cases hnewline : byte = newline
    · rw [if_pos hnewline]
      exact ih false (line + 1)
    · have hspace : isSpace byte = true := ((mem_blanks_iff byte).mp hblank).resolve_left hnewline
      rw [if_neg hnewline, if_pos hspace]
      by_cases hinside : inComment = true
      · rw [if_pos hinside]
        exact ih true line
      · rw [if_neg hinside]
        exact ih false line
  | @comment body run hbody _ ih =>
    -- two slashes start a comment, and inside of one they change nothing
    have hslashes : skipTrivia inComment line (encode "//" ++ (body ++ run) ++ rest) =
        skipTrivia true line (body ++ (run ++ rest)) := by
      rw [List.append_assoc, List.append_assoc]
      cases inComment <;> rfl
    rw [hslashes, skipTrivia_comment hbody]
    exact ih true line

/-- A comment goes on to the end of its line. -/
theorem skipTrivia_true (line : Nat) (bytes : List UInt8) :
    skipTrivia true line bytes = skipTrivia false line (bytes.dropWhile (· ≠ newline)) := by
  induction bytes with
  | nil => rfl
  | cons byte rest ih =>
    by_cases hnewline : byte = newline
    · rw [List.dropWhile_cons_of_neg (by simpa using hnewline), skipTrivia, skipTrivia,
        if_pos hnewline, if_pos hnewline]
    · rw [List.dropWhile_cons_of_pos (by simpa using hnewline), skipTrivia, if_neg hnewline,
        if_pos rfl]
      exact ih

/-- What is skipped is trivia. -/
theorem trivia_skipTrivia (line : Nat) (bytes : List UInt8) :
    ∃ run, bytes = run ++ (skipTrivia false line bytes).2 ∧ Trivia run := by
  induction hlength : bytes.length using Nat.strongRecOn generalizing line bytes with
  | ind length ih =>
  subst hlength
  cases bytes with
  | nil => exact ⟨[], rfl, .nil⟩
  | cons byte rest =>
    rw [List.length_cons] at ih
    rw [skipTrivia]
    by_cases hnewline : byte = newline
    · rw [if_pos hnewline]
      obtain ⟨run, hrun, htrivia⟩ := ih _ (by omega) (line + 1) rest rfl
      refine ⟨byte :: run, ?_, .blank ((mem_blanks_iff byte).mpr (.inl hnewline)) htrivia⟩
      rw [List.cons_append, ← hrun]
    rw [if_neg hnewline, if_neg Bool.false_ne_true]
    by_cases hspace : isSpace byte = true
    · rw [if_pos hspace]
      obtain ⟨run, hrun, htrivia⟩ := ih _ (by omega) line rest rfl
      refine ⟨byte :: run, ?_, .blank ((mem_blanks_iff byte).mpr (.inr hspace)) htrivia⟩
      rw [List.cons_append, ← hrun]
    rw [if_neg hspace]
    by_cases hcomment : startsComment byte rest = true
    · rw [if_pos hcomment]
      simp only [startsComment, Bool.and_eq_true, decide_eq_true_eq, beq_iff_eq] at hcomment
      obtain ⟨rfl, hhead⟩ := hcomment
      obtain ⟨rest, rfl⟩ := List.head?_eq_some_iff.mp hhead
      -- the comment is the rest of the line, and the trivia goes on behind it
      have hskip : skipTrivia true line ('/'.toUInt8 :: rest) =
          skipTrivia false line (rest.dropWhile (· ≠ newline)) := skipTrivia_true line rest
      have hshorter := (List.dropWhile_suffix (· ≠ newline) (l := rest)).length_le
      obtain ⟨run, hrun, htrivia⟩ :=
        ih _ (by rw [List.length_cons]; omega) line (rest.dropWhile (· ≠ newline)) rfl
      have hbody : newline ∉ rest.takeWhile (· ≠ newline) := by
        intro hmem
        simpa using List.all_eq_true.mp List.all_takeWhile newline hmem
      refine ⟨_, ?_, .comment hbody htrivia⟩
      rw [hskip, List.append_assoc, List.append_assoc, ← hrun, List.takeWhile_append_dropWhile]
      rfl
    · rw [if_neg hcomment]
      exact ⟨[], rfl, .nil⟩

/-- What is skipped is the longest run of trivia, and its newlines are counted. -/
theorem longest_skipTrivia (line : Nat) (bytes : List UInt8) :
    ∃ run, bytes = run ++ (skipTrivia false line bytes).2 ∧ Longest Trivia bytes run ∧
      (skipTrivia false line bytes).1 = line + run.count newline := by
  obtain ⟨run, hrun, htrivia⟩ := trivia_skipTrivia line bytes
  have hlength := congrArg List.length hrun
  have hlines := congrArg (List.count newline) hrun
  rw [List.length_append] at hlength
  rw [List.count_append] at hlines
  refine ⟨run, hrun, ⟨⟨_, hrun.symm⟩, htrivia, ?_⟩, ?_⟩
  · rintro other ⟨rest, rfl⟩ hother
    -- the scanner skips all of the other run, and perhaps more
    obtain ⟨inside, line', hskip⟩ := skipTrivia_of_trivia hother false line rest
    have hle := length_skipTrivia_le inside line' rest
    rw [← hskip] at hle
    rw [List.length_append] at hlength
    omega
  · have hcount := line_skipTrivia false line bytes
    omega

/-- The lines are counted on the way. -/
theorem skipTrivia_of_longest {trivia rest : List UInt8}
    (h : Longest Trivia (trivia ++ rest) trivia) (line : Nat) :
    skipTrivia false line (trivia ++ rest) = (line + trivia.count newline, rest) := by
  obtain ⟨run, hrun, hlongest, hline⟩ := longest_skipTrivia line (trivia ++ rest)
  obtain rfl := hlongest.unique h
  exact Prod.ext hline (List.append_cancel_left hrun).symm

/-! ## Operators

The table of operators says what the scanner finds with one byte of lookahead. -/

/-- Each operator of the table is found as a whole, and nothing else starts with its first byte. -/
theorem operator?_of_lookup {text : String} {kind : Kind} {first : UInt8} {rest : List UInt8}
    (h : operators.lookup text = some kind) (htext : encode text = first :: rest) :
    operator? first rest = some (kind, rest.length) ∧ first ≠ quote ∧ isDigit first = false ∧
      isLetter first = false := by
  have htable : ∀ p ∈ operators, ∀ byte ∈ (encode p.1).head?,
      operator? byte (encode p.1).tail = some (p.2, (encode p.1).tail.length) ∧ byte ≠ quote ∧
        isDigit byte = false ∧ isLetter byte = false := by decide +kernel
  obtain ⟨before, after, hsplit, -⟩ := List.lookup_eq_some_iff.mp h
  have hmem : (text, kind) ∈ operators := by simp [hsplit]
  have hfound := htable _ hmem first (by rw [htext]; rfl)
  rwa [htext] at hfound

/-- Whether an operator starts with a byte does not depend on what follows. -/
theorem isSome_operator? (first : UInt8) (rest rest' : List UInt8) :
    (operator? first rest).isSome = (operator? first rest').isSome := by
  unfold operator?
  dsimp only
  split <;> rfl

/-- With more bytes behind it an operator is found as well, or a longer one. -/
theorem operator?_extend {first : UInt8} {front : List UInt8} {kind : Kind}
    (h : operator? first front = some (kind, front.length)) (more : List UInt8) :
    ∃ kind' count, operator? first (front ++ more) = some (kind', count) ∧
      front.length ≤ count := by
  cases front with
  | nil =>
    have hsome := isSome_operator? first more []
    rw [h] at hsome
    obtain ⟨⟨kind', count⟩, hfound⟩ := Option.isSome_iff_exists.mp hsome
    exact ⟨kind', count, hfound, Nat.zero_le count⟩
  | cons second front =>
    -- only the second byte is looked at, and it is the same
    exact ⟨kind, _, h, Nat.le_refl _⟩

/-- A character that was made from a byte is that byte. -/
theorem eq_toUInt8_of_ofUInt8 {byte : UInt8} {c : Char} (h : Char.ofUInt8 byte = c) :
    byte = c.toUInt8 := by
  subst h
  show byte = byte.toUInt32.toUInt8
  rw [UInt8.toUInt8_toUInt32]

/-- An operator of one character. -/
theorem lexeme_singleton {first : UInt8} {c : Char} {kind : Kind} (hfirst : Char.ofUInt8 first = c)
    (hbytes : encode (String.singleton c) = [c.toUInt8])
    (hkind : operators.lookup (String.singleton c) = some kind) : Lexeme kind [first] := by
  rw [eq_toUInt8_of_ofUInt8 hfirst, ← hbytes]
  exact .operator hkind

/-- An operator of two characters, the second of which is the next byte. -/
theorem lexeme_pair {first : UInt8} {rest : List UInt8} {c d : Char} {kind : Kind}
    (hfirst : Char.ofUInt8 first = c) (hsecond : (rest.head? == some d.toUInt8) = true)
    (hbytes : encode (String.ofList [c, d]) = [c.toUInt8, d.toUInt8])
    (hkind : operators.lookup (String.ofList [c, d]) = some kind) :
    Lexeme kind (first :: rest.take 1) := by
  obtain ⟨rest, rfl⟩ := List.head?_eq_some_iff.mp (beq_iff_eq.mp hsecond)
  rw [List.take_succ_cons, List.take_zero, eq_toUInt8_of_ofUInt8 hfirst, ← hbytes]
  exact .operator hkind

/-- What is found is an operator of the table. -/
theorem lexeme_of_operator? {first : UInt8} {rest : List UInt8} {kind : Kind} {count : Nat}
    (h : operator? first rest = some (kind, count)) : Lexeme kind (first :: rest.take count) := by
  unfold operator? at h
  dsimp only at h
  split at h
  case h_14 hfirst | h_15 hfirst | h_16 hfirst =>
    -- an equals sign makes a longer operator
    by_cases hsecond : (rest.head? == some '='.toUInt8) = true
    · rw [if_pos hsecond] at h
      cases h
      exact lexeme_pair hfirst hsecond rfl rfl
    · rw [if_neg hsecond] at h
      cases h
      exact lexeme_singleton hfirst rfl rfl
  case h_17 hfirst =>
    by_cases harrow : (rest.head? == some '>'.toUInt8) = true
    · rw [if_pos harrow] at h
      cases h
      exact lexeme_pair hfirst harrow rfl rfl
    by_cases hsecond : (rest.head? == some '='.toUInt8) = true
    · rw [if_neg harrow, if_pos hsecond] at h
      cases h
      exact lexeme_pair hfirst hsecond rfl rfl
    · rw [if_neg harrow, if_neg hsecond] at h
      cases h
      exact lexeme_singleton hfirst rfl rfl
  case h_18 => cases h
  all_goals
    rename_i hfirst
    cases h
    exact lexeme_singleton hfirst rfl rfl

/-! ## Numbers

Digits, and a fraction if there are digits after the point. -/

/-- At least one digit is taken. -/
theorem digits_of_takeWhile {first : UInt8} (hfirst : isDigit first = true) (rest : List UInt8) :
    Digits (first :: rest.takeWhile isDigit) := by
  refine ⟨List.cons_ne_nil _ _, ?_⟩
  rw [List.forall_mem_cons, ← isDigit_iff]
  refine ⟨hfirst, fun byte hmem => ?_⟩
  rw [← isDigit_iff]
  exact List.all_eq_true.mp List.all_takeWhile byte hmem

/-- Digits are taken, and then those that follow. -/
theorem takeWhile_of_digits {bytes : List UInt8} (h : ∀ byte ∈ bytes, Digit byte)
    (more : List UInt8) :
    (bytes ++ more).takeWhile isDigit = bytes ++ more.takeWhile isDigit :=
  List.takeWhile_append_of_pos fun byte hmem => (isDigit_iff byte).mpr (h byte hmem)

/-- What is left after the bytes that were taken. -/
theorem drop_length_takeWhile (p : UInt8 → Bool) (bytes : List UInt8) :
    bytes.drop (bytes.takeWhile p).length = bytes.dropWhile p := by
  have hdrop : (bytes.takeWhile p ++ bytes.dropWhile p).drop (bytes.takeWhile p).length =
      bytes.dropWhile p := List.drop_left
  rwa [List.takeWhile_append_dropWhile] at hdrop

/-- A number goes on with digits, and with a point if digits follow that. -/
theorem numberMore_cases (rest : List UInt8) :
    numberMore rest = (rest.takeWhile isDigit).length ∨
    ∃ after, rest = rest.takeWhile isDigit ++ point :: after ∧ after.takeWhile isDigit ≠ [] ∧
      numberMore rest = (rest.takeWhile isDigit).length + 1 + (after.takeWhile isDigit).length := by
  unfold numberMore
  dsimp only
  rw [drop_length_takeWhile]
  cases hrest : rest.dropWhile isDigit with
  | nil => exact .inl rfl
  | cons byte after =>
    by_cases hpoint : byte = point ∧ 0 < (after.takeWhile isDigit).length
    · refine .inr ⟨after, ?_, List.length_pos_iff.mp hpoint.2, if_pos hpoint⟩
      rw [← hpoint.1, ← hrest, List.takeWhile_append_dropWhile]
    · exact .inl (if_neg hpoint)

/-- What is taken is a number. -/
theorem isNumber_numberMore {first : UInt8} (hfirst : isDigit first = true) (rest : List UInt8) :
    IsNumber (first :: rest.take (numberMore rest)) := by
  have hwhole := digits_of_takeWhile hfirst rest
  rcases numberMore_cases rest with hmore | ⟨after, hrest, hfraction, hmore⟩
  · rw [hmore, ← List.prefix_iff_eq_take.mp (List.takeWhile_prefix isDigit)]
    exact .inl hwhole
  · refine .inr ⟨_, after.takeWhile isDigit, hwhole, ⟨hfraction, ?_⟩, ?_⟩
    · intro byte hmem
      exact (isDigit_iff byte).mp (List.all_eq_true.mp List.all_takeWhile byte hmem)
    · have htake : rest.takeWhile isDigit ++ point :: after.takeWhile isDigit <+: rest := by
        conv => rhs; rw [hrest]
        rw [List.prefix_append_right_inj, List.cons_prefix_cons]
        exact ⟨rfl, List.takeWhile_prefix isDigit⟩
      have hlength : numberMore rest =
          (rest.takeWhile isDigit ++ point :: after.takeWhile isDigit).length := by
        rw [hmore, List.length_append, List.length_cons]
        omega
      rw [hlength, ← List.prefix_iff_eq_take.mp htake]
      rfl

/-- Where a number stands, all of it is taken. -/
theorem le_numberMore {first : UInt8} {front : List UInt8} (h : IsNumber (first :: front))
    (more : List UInt8) : front.length ≤ numberMore (front ++ more) := by
  rcases h with ⟨-, hdigits⟩ | ⟨whole, fraction, hwhole, hfraction, hbytes⟩
  · have hwhole := takeWhile_of_digits (List.forall_mem_cons.mp hdigits).2 more
    have hle : ((front ++ more).takeWhile isDigit).length ≤ numberMore (front ++ more) := by
      rcases numberMore_cases (front ++ more) with hmore | ⟨after, -, -, hmore⟩ <;> omega
    rw [hwhole, List.length_append] at hle
    omega
  · cases whole with
    | nil => exact absurd rfl hwhole.1
    | cons byte whole =>
      rw [List.cons_append, List.cons.injEq] at hbytes
      obtain ⟨rfl, rfl⟩ := hbytes
      have hdigits : ∀ byte ∈ whole, Digit byte := (List.forall_mem_cons.mp hwhole.2).2
      -- the digits before the point end there
      have hwhole : ((whole ++ point :: fraction) ++ more).takeWhile isDigit = whole := by
        rw [List.append_assoc, takeWhile_of_digits hdigits, List.cons_append,
          List.takeWhile_cons_of_neg (by decide), List.append_nil]
      have hrest : ((whole ++ point :: fraction) ++ more).dropWhile isDigit =
          point :: (fraction ++ more) := by
        rw [List.append_assoc, List.dropWhile_append_of_pos
          fun byte hmem => (isDigit_iff byte).mpr (hdigits byte hmem)]
        exact List.dropWhile_cons_of_neg (by decide)
      have hfractionMore := takeWhile_of_digits hfraction.2 more
      have hpos := List.length_pos_iff.mpr hfraction.1
      unfold numberMore
      dsimp only
      rw [drop_length_takeWhile, hwhole, hrest]
      dsimp only
      rw [hfractionMore, if_pos ⟨rfl, by rw [List.length_append]; omega⟩]
      simp only [List.length_append, List.length_cons]
      omega

/-! ## Words

Names and keywords are read in the same way and told apart afterwards. -/

/-- The text of a slice is the text that was encoded. -/
theorem sliceText_encode (text : String) : sliceText (encode text) = text := by
  rw [sliceText, decode?_encode]
  rfl

/-- A word is a keyword if it is in the table, and an identifier otherwise. -/
theorem ofWord_eq (word : String) : Kind.ofWord word = (keywords.lookup word).getD .identifier := by
  unfold Kind.ofWord
  split
  case h_19 =>
    have hnone : keywords.lookup word = none := by
      rw [List.lookup_eq_none_iff]
      simp_all [keywords]
    rw [hnone]
    rfl
  all_goals rfl

/-- A word as the scanner tests it. -/
theorem isWord_iff {first : UInt8} {rest : List UInt8} :
    IsWord (first :: rest) ↔ isLetter first = true ∧ ∀ byte ∈ rest, isWordByte byte = true := by
  simp only [isLetter_iff, isWordByte_iff]
  constructor
  · rintro ⟨first', rest', hbytes, hfirst, hrest⟩
    cases hbytes
    exact ⟨hfirst, hrest⟩
  · rintro ⟨hfirst, hrest⟩
    exact ⟨first, rest, rfl, hfirst, hrest⟩

/-! ## Lexemes

The first byte of a token says which kind of lexeme it is. -/

theorem ne_quote_of_isDigit {byte : UInt8} (h : isDigit byte = true) : byte ≠ quote := by
  rintro rfl
  cases h

theorem ne_quote_of_isLetter {byte : UInt8} (h : isLetter byte = true) : byte ≠ quote := by
  rintro rfl
  cases h

/-- A word is no number. -/
theorem isDigit_of_isLetter {byte : UInt8} (h : isLetter byte = true) : isDigit byte = false := by
  rw [← Bool.not_eq_true, isDigit_iff]
  rw [isLetter_iff] at h
  rintro ⟨-, hhigh⟩
  -- all letters come after the digits
  rcases h with h | h | rfl
  · exact absurd (UInt8.le_trans h.1 hhigh) (by decide)
  · exact absurd (UInt8.le_trans h.1 hhigh) (by decide)
  · exact absurd hhigh (by decide)

section Munch

variable {first : UInt8}

/-- A digit starts a number. -/
theorem munch_of_isDigit (h : isDigit first = true) (rest : List UInt8) :
    munch first rest = .lexeme .number (numberMore rest) := by
  unfold munch
  rw [if_neg (ne_quote_of_isDigit h), if_pos h]

/-- A letter starts a word. -/
theorem munch_of_isLetter (h : isLetter first = true) (rest : List UInt8) :
    munch first rest =
      .lexeme (.ofWord (sliceText (first :: rest.takeWhile isWordByte)))
        (rest.takeWhile isWordByte).length := by
  unfold munch
  rw [if_neg (ne_quote_of_isLetter h), if_neg (by rw [isDigit_of_isLetter h]; decide), if_pos h]

/-- A string ends at the next quote. -/
theorem munch_quote {body : List UInt8} (h : quote ∉ body) (rest : List UInt8) :
    munch quote (body ++ quote :: rest) = .lexeme .string (body.length + 1) := by
  have hbody : (body ++ quote :: rest).takeWhile (· ≠ quote) = body := by
    rw [List.takeWhile_append_of_pos, List.takeWhile_cons_of_neg (by simp), List.append_nil]
    intro byte hmem
    have hne : byte ≠ quote := fun heq => h (heq ▸ hmem)
    simpa using hne
  unfold munch
  rw [if_pos rfl]
  dsimp only
  rw [hbody, List.drop_left, if_neg (List.cons_ne_nil _ _)]

/-- A string without an end is found where no other quote follows. -/
theorem munch_quote_of_not_mem {rest : List UInt8} (h : quote ∉ rest) :
    munch quote rest = .openString := by
  have hall : rest.takeWhile (· ≠ quote) = rest := by
    rw [← List.append_nil rest, List.takeWhile_append_of_pos, List.takeWhile_nil]
    intro byte hmem
    have hne : byte ≠ quote := fun heq => h (heq ▸ hmem)
    simpa using hne
  unfold munch
  rw [if_pos rfl]
  dsimp only
  rw [hall, List.drop_length, if_pos rfl]

/-- The part of the bytes before a quote that is among them. -/
theorem exists_append_quote {rest : List UInt8} (h : quote ∈ rest) :
    ∃ body after, rest = body ++ quote :: after ∧ quote ∉ body := by
  obtain ⟨body, after, hrest, hbody⟩ := List.eq_append_cons_of_mem h
  exact ⟨body, after, hrest, hbody⟩

/-- Any other byte starts an operator or nothing. -/
theorem munch_of_other (hquote : first ≠ quote) (hdigit : isDigit first = false)
    (hletter : isLetter first = false) (rest : List UInt8) :
    munch first rest = ((operator? first rest).map fun found =>
      Munch.lexeme found.1 found.2).getD .stranger := by
  unfold munch
  rw [if_neg hquote, if_neg (by rw [hdigit]; decide), if_neg (by rw [hletter]; decide)]
  cases operator? first rest <;> rfl

/-- Where a lexeme stands, a lexeme is taken that is at least as long. If nothing follows then it
has the same kind. -/
theorem munch_of_lexeme {kind : Kind} {front : List UInt8} (h : Lexeme kind (first :: front))
    (more : List UInt8) :
    ∃ kind' count, munch first (front ++ more) = .lexeme kind' count ∧ front.length ≤ count ∧
      (more = [] → kind' = kind) := by
  generalize hbytes : first :: front = bytes at h
  cases h with
  | operator hlookup =>
    obtain ⟨hfound, hquote, hdigit, hletter⟩ := operator?_of_lookup hlookup hbytes.symm
    -- what follows may make a longer operator of it
    obtain ⟨kind', count, hmore, hle⟩ := operator?_extend hfound more
    refine ⟨kind', count, ?_, hle, ?_⟩
    · rw [munch_of_other hquote hdigit hletter, hmore]
      rfl
    · rintro rfl
      rw [List.append_nil, hfound] at hmore
      cases hmore
      rfl
  | number hnumber =>
    subst hbytes
    have hdigit : isDigit first = true := (isDigit_iff first).mpr hnumber.first
    exact ⟨.number, _, munch_of_isDigit hdigit _, le_numberMore hnumber more, fun _ => rfl⟩
  | @word text hword =>
    rw [← hbytes, isWord_iff] at hword
    refine ⟨_, _, munch_of_isLetter hword.1 _, ?_, ?_⟩
    -- what follows may make a longer word of it, and a keyword a name
    · rw [List.takeWhile_append_of_pos hword.2, List.length_append]
      omega
    · rintro rfl
      rw [List.takeWhile_append_of_pos hword.2, List.takeWhile_nil, List.append_nil, hbytes,
        sliceText_encode, ofWord_eq]
  | string hbody =>
    cases hbytes
    rw [List.append_assoc, List.singleton_append, munch_quote hbody]
    refine ⟨.string, _, rfl, ?_, fun _ => rfl⟩
    rw [List.length_append]
    exact Nat.le_refl _

/-- What is taken is a lexeme. -/
theorem lexeme_of_munch {rest : List UInt8} {kind : Kind} {count : Nat}
    (h : munch first rest = .lexeme kind count) : Lexeme kind (first :: rest.take count) := by
  -- the first byte tells strings, numbers, words and operators apart
  by_cases hquote : first = quote
  · subst hquote
    by_cases hmem : quote ∈ rest
    · obtain ⟨body, after, rfl, hbody⟩ := exists_append_quote hmem
      rw [munch_quote hbody] at h
      cases h
      have htake : (body ++ quote :: after).take (body.length + 1) = body ++ [quote] := by
        rw [List.take_append, List.take_of_length_le (Nat.le_succ _), Nat.add_sub_cancel_left]
        rfl
      rw [htake]
      exact .string hbody
    · rw [munch_quote_of_not_mem hmem] at h
      cases h
  by_cases hdigit : isDigit first = true
  · rw [munch_of_isDigit hdigit] at h
    cases h
    exact .number (isNumber_numberMore hdigit rest)
  by_cases hletter : isLetter first = true
  · rw [munch_of_isLetter hletter] at h
    cases h
    have hword : IsWord (first :: rest.takeWhile isWordByte) :=
      isWord_iff.mpr ⟨hletter, fun byte hmem => List.all_eq_true.mp List.all_takeWhile byte hmem⟩
    have htext := encode_ofList_map hword.lt
    rw [← List.prefix_iff_eq_take.mp (List.takeWhile_prefix isWordByte), ofWord_eq, ← htext,
      sliceText_encode]
    rw [← htext] at hword
    exact .word hword
  rw [Bool.not_eq_true] at hdigit hletter
  rw [munch_of_other hquote hdigit hletter] at h
  cases hfound : operator? first rest with
  | none =>
    rw [hfound] at h
    cases h
  | some found =>
    rw [hfound] at h
    cases h
    exact lexeme_of_operator? hfound

end Munch

end StackScript.Scanner
