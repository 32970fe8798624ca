import StackScript.Proofs.Token.Lexemes

/-!
# The scanner takes the longest lexeme

The scanner splits every script as the lexical grammar says, and it finds an error exactly where the
grammar has one. All tokens are cut out of the text between characters, so that lexemes and strings
are texts again.

* **`exists_readNumber?`**: every number of the grammar is read.
* **`collect_of_tokenizes`**: what the grammar says is what the scanner finds.
* **`exists_tokenizes`**: the grammar says something about every text.
* **`scan_eq_iff`**: both together.
-/

namespace StackScript

open Lexical Text

/-! ## Numbers

Every lexeme that is a number can be read as one. -/

namespace Decimal

/-- A byte that is a digit is a character that is one. -/
theorem isDigit_ofUInt8 {byte : UInt8} (h : Digit byte) : (Char.ofUInt8 byte).isDigit = true := by
  obtain ⟨hlow, hhigh⟩ := h
  rw [UInt8.le_iff_toNat_le] at hlow hhigh
  simp only [Char.isDigit, ge_iff_le, Bool.and_eq_true, decide_eq_true_eq, UInt32.le_iff_toNat_le,
    toNat_val_ofUInt8]
  exact ⟨hlow, hhigh⟩

/-- A digit is no sign. -/
theorem splitSign_of_isDigit {c : Char} (h : c.isDigit = true) (chars : List Char) :
    splitSign (c :: chars) = (false, c :: chars) := by
  unfold splitSign
  split
  · rename_i heq
    cases heq
    cases h
  · rename_i heq
    cases heq
    cases h
  · rfl

/-- A numeral that starts with a digit is none of the names. -/
theorem readBits?_of_isDigit {c : Char} (h : c.isDigit = true) (chars : List Char) :
    readBits? (c :: chars) = (readUnsigned? (c :: chars)).map bits := by
  -- a digit is not the start of one of the names of special values
  have hlower : c.toLower = c := by
    have hhigh : c.val ≤ 57 := by simpa using (Bool.and_eq_true_iff.mp h).2
    unfold Char.toLower
    rw [dif_neg]
    rintro ⟨hlow, -⟩
    exact absurd (UInt32.le_trans hlow hhigh) (by decide)
  have hi : c ≠ 'i' := by
    rintro rfl
    cases h
  have hn : c ≠ 'n' := by
    rintro rfl
    cases h
  unfold readBits?
  rw [List.map_cons, hlower]
  split
  · rename_i heq
    exact absurd (List.cons.inj heq).1 hi
  · rename_i heq
    exact absurd (List.cons.inj heq).1 hi
  · rename_i heq
    exact absurd (List.cons.inj heq).1 hn
  · rfl

/-- Digits, and a point with more digits, are read. -/
theorem exists_readUnsigned? {whole : List Char} (hne : whole ≠ [])
    (hwhole : ∀ c ∈ whole, c.isDigit = true) {rest : List Char}
    (hrest : rest = [] ∨ ∃ fraction, rest = '.' :: fraction ∧ ∀ c ∈ fraction, c.isDigit = true) :
    ∃ value, readUnsigned? (whole ++ rest) = some value := by
  have hsplit : ∃ fraction, splitFraction rest = (fraction, []) := by
    rcases hrest with rfl | ⟨fraction, rfl, hfraction⟩
    · exact ⟨[], rfl⟩
    · refine ⟨_, Prod.ext rfl ?_⟩
      show fraction.dropWhile Char.isDigit = []
      rw [← List.append_nil fraction, List.dropWhile_append_of_pos hfraction, List.dropWhile_nil]
  have hstop : rest.takeWhile Char.isDigit = [] ∧ rest.dropWhile Char.isDigit = rest := by
    rcases hrest with rfl | ⟨fraction, rfl, -⟩
    · exact ⟨rfl, rfl⟩
    · exact ⟨List.takeWhile_cons_of_neg (by decide), List.dropWhile_cons_of_neg (by decide)⟩
  obtain ⟨fraction, hfraction⟩ := hsplit
  unfold readUnsigned?
  dsimp only
  rw [List.takeWhile_append_of_pos hwhole, List.dropWhile_append_of_pos hwhole, hstop.1, hstop.2,
    hfraction, if_neg (by simp [hne])]
  exact ⟨_, rfl⟩

/-- Every number of the grammar is read. -/
theorem exists_readNumber? {text : String} (h : IsNumber (encode text)) :
    ∃ value, readNumber? text = some value := by
  have hchars : text.toList = (encode text).map Char.ofUInt8 := by
    have htext := congrArg String.toList (encode_inj (encode_ofList_map h.lt))
    rw [String.toList_ofList] at htext
    exact htext.symm
  have hdigits : ∀ {bytes : List UInt8}, Digits bytes →
      bytes.map Char.ofUInt8 ≠ [] ∧ ∀ c ∈ bytes.map Char.ofUInt8, c.isDigit = true := by
    intro bytes hbytes
    refine ⟨by simpa using hbytes.1, ?_⟩
    rw [List.forall_mem_map]
    exact fun byte hmem => isDigit_ofUInt8 (hbytes.2 byte hmem)
  obtain ⟨whole, rest, hsplit, hwhole, hrest⟩ : ∃ whole rest,
      (encode text).map Char.ofUInt8 = whole ++ rest ∧
      (whole ≠ [] ∧ ∀ c ∈ whole, c.isDigit = true) ∧
      (rest = [] ∨ ∃ fraction, rest = '.' :: fraction ∧ ∀ c ∈ fraction, c.isDigit = true) := by
    rcases h with h | ⟨whole, fraction, hwhole, hfraction, hbytes⟩
    · exact ⟨_, [], (List.append_nil _).symm, hdigits h, .inl rfl⟩
    · refine ⟨_, _, ?_, hdigits hwhole, .inr ⟨_, rfl, (hdigits hfraction).2⟩⟩
      rw [hbytes, List.map_append, List.map_cons]
      rfl
  obtain ⟨value, hvalue⟩ := exists_readUnsigned? hwhole.1 hwhole.2 hrest
  -- the first character is a digit, so there is no sign and no name
  obtain ⟨c, chars, rfl⟩ := List.exists_cons_of_ne_nil hwhole.1
  have hc : c.isDigit = true := hwhole.2 c List.mem_cons_self
  unfold readNumber?
  rw [hchars, hsplit, List.cons_append, splitSign_of_isDigit hc]
  dsimp only
  rw [readBits?_of_isDigit hc, ← List.cons_append, hvalue]
  exact ⟨_, rfl⟩

end Decimal

/-! ## Tokens

What the scanner takes is the longest lexeme, and there is one kind for it. -/

namespace Scanner

/-- No lexeme is empty. -/
theorem ne_nil_of_lexeme {kind : Kind} {bytes : List UInt8} (h : Lexeme kind bytes) :
    bytes ≠ [] := by
  obtain ⟨front, last, rfl, -⟩ := h.exists_last
  simp

/-- A lexeme has one kind, since the scanner gives it one when nothing follows. -/
theorem kind_unique {kind kind' : Kind} {bytes : List UInt8} (h : Lexeme kind bytes)
    (h' : Lexeme kind' bytes) : kind = kind' := by
  obtain ⟨first, front, rfl⟩ := List.exists_cons_of_ne_nil (ne_nil_of_lexeme h)
  obtain ⟨a, _, hmunch, -, ha⟩ := munch_of_lexeme h []
  obtain ⟨b, _, hmunch', -, hb⟩ := munch_of_lexeme h' []
  rw [hmunch] at hmunch'
  cases hmunch'
  exact (ha rfl).symm.trans (hb rfl)

/-- What is taken is the longest lexeme. -/
theorem longest_of_munch {first : UInt8} {rest : List UInt8} {kind : Kind} {count : Nat}
    (h : munch first rest = .lexeme kind count) :
    Longest IsLexeme (first :: rest) (first :: rest.take count) := by
  refine ⟨?_, ⟨kind, lexeme_of_munch h⟩, ?_⟩
  · rw [List.cons_prefix_cons]
    exact ⟨rfl, List.take_prefix count rest⟩
  · rintro other hprefix ⟨kind', hother⟩
    obtain ⟨byte, other, rfl⟩ := List.exists_cons_of_ne_nil (ne_nil_of_lexeme hother)
    obtain ⟨rfl, more, rfl⟩ := List.cons_prefix_cons.mp hprefix
    obtain ⟨kind'', count', hmunch, hle, -⟩ := munch_of_lexeme hother more
    rw [h] at hmunch
    cases hmunch
    rw [List.length_cons, List.length_cons, List.length_take, List.length_append]
    omega

/-- The longest lexeme is what is taken. -/
theorem munch_of_longest {first : UInt8} {front rest : List UInt8} {kind : Kind}
    (hlongest : Longest IsLexeme (first :: (front ++ rest)) (first :: front))
    (hkind : Lexeme kind (first :: front)) :
    munch first (front ++ rest) = .lexeme kind front.length := by
  obtain ⟨kind', count, hmunch, hle, -⟩ := munch_of_lexeme hkind rest
  have hsame := (longest_of_munch hmunch).unique hlongest
  have hcount : count = front.length := by
    have hlength := congrArg List.length hsame
    have hnewline : newline ∈ Lexical.blanks := by decide
    have hbound := (munch_append hmunch hnewline []).2
    rw [List.length_cons, List.length_cons, List.length_take] at hlength
    omega
  have hlexeme := lexeme_of_munch hmunch
  rw [hsame] at hlexeme
  rw [hmunch, hcount, kind_unique hlexeme hkind]

/-- Only a quote opens a string. -/
theorem munch_ne_openString {first : UInt8} (h : first ≠ quote) (rest : List UInt8) :
    munch first rest ≠ .openString := by
  unfold munch
  rw [if_neg h]
  by_cases hdigit : isDigit first = true
  · rw [if_pos hdigit]
    simp
  by_cases hletter : isLetter first = true
  · rw [if_neg hdigit, if_pos hletter]
    simp
  · rw [if_neg hdigit, if_neg hletter]
    cases operator? first rest <;> simp

/-- Where no lexeme stands and no quote, nothing is taken. -/
theorem munch_eq_stranger_iff {first : UInt8} {rest : List UInt8} :
    munch first rest = .stranger ↔
      first ≠ quote ∧ ∀ front, front <+: first :: rest → ¬ IsLexeme front := by
  constructor
  · intro h
    refine ⟨?_, ?_⟩
    · rintro rfl
      -- a quote starts a string, whether or not it has an end
      by_cases hmem : quote ∈ rest
      · obtain ⟨body, after, rfl, hbody⟩ := exists_append_quote hmem
        rw [munch_quote hbody] at h
        cases h
      · rw [munch_quote_of_not_mem hmem] at h
        cases h
    -- a lexeme would have been found
    · rintro front hprefix ⟨kind, hfront⟩
      obtain ⟨byte, front, rfl⟩ := List.exists_cons_of_ne_nil (ne_nil_of_lexeme hfront)
      obtain ⟨rfl, more, rfl⟩ := List.cons_prefix_cons.mp hprefix
      obtain ⟨kind', count, hmunch, -⟩ := munch_of_lexeme hfront more
      rw [h] at hmunch
      cases hmunch
  · rintro ⟨hquote, hnone⟩
    cases hmunch : munch first rest with
    | lexeme kind count =>
      have hlongest := longest_of_munch hmunch
      exact absurd hlongest.holds (hnone _ hlongest.isPrefix)
    | openString => exact absurd hmunch (munch_ne_openString hquote rest)
    | stranger => rfl

/-- Only strings and numbers have a literal. -/
theorem literal?_of_ne {kind : Kind} (hstring : kind ≠ .string) (hnumber : kind ≠ .number)
    (bytes : List UInt8) : literal? kind bytes = none := by
  cases kind with
  | string => exact absurd rfl hstring
  | number => exact absurd rfl hnumber
  | _ => rfl

/-- The token that the grammar describes is the one that the scanner builds. -/
theorem eq_tokenAt {line : Nat} {bytes : List UInt8} {token : Token}
    (h : IsToken line bytes token) : token = tokenAt line token.kind bytes := by
  obtain ⟨kind, lexeme, literal, line'⟩ := token
  obtain ⟨-, hlexeme, hliteral, hline⟩ := h
  dsimp only at hlexeme hliteral hline
  subst hlexeme hline
  unfold tokenAt
  rw [sliceText_encode]
  congr 1
  cases hliteral with
  | @string body hbody =>
    have hslice : (encode lexeme).tail.dropLast = encode body := by
      rw [hbody, List.tail_cons, List.dropLast_concat]
    rw [literal?, hslice, sliceText_encode]
  | number hvalue =>
    rw [literal?, sliceText_encode, hvalue]
    rfl
  | other hstring hnumber => exact (literal?_of_ne hstring hnumber _).symm

/-! ## Scanning

By induction on the way a text is cut into tokens. -/

/-- Only a quote is encoded with the byte of a quote. -/
theorem eq_of_quote {c : Char} {more : List UInt8}
    (h : String.utf8EncodeChar c = quote :: more) : c = '"' :=
  eq_of_mem_utf8EncodeChar rfl (by decide) (h ▸ List.mem_cons_self)

/-- The first error ends the scanning. -/
theorem collect_of_error {s s' : Scanner} {e : ScanError} (h : s.next = (some (.error e), s'))
    (found : Array Token) : s.collect found = .error e := by
  rw [collect]
  split
  · rename_i hs
    rw [h] at hs
    cases hs
  · rename_i hs
    rw [h] at hs
    cases hs
    rfl
  · rename_i hs
    rw [h] at hs
    cases hs

/-- The scanner finds what the grammar says. -/
theorem collect_of_tokenizes {line : Nat} {bytes : List UInt8}
    {result : Except ScanError (List Token)} (h : Tokenizes line bytes result)
    (found : Array Token) :
    collect ⟨bytes, line, false⟩ found = result.map (found ++ ·.toArray) := by
  induction h generalizing found with
  | @eof line trivia htrivia =>
    -- nothing but trivia is left
    have hwhole : Longest Trivia (trivia ++ []) trivia := by rwa [List.append_nil]
    have hskip := skipTrivia_of_longest hwhole line
    rw [List.append_nil] at hskip
    rw [collect_of_next (next_of_end hskip), collect_of_ended rfl, Array.push_eq_append]
    rfl
  | @lexeme line trivia front rest token result htrivia hfront htoken _ ih =>
    have hskip := skipTrivia_of_longest htrivia line
    obtain ⟨first, front, rfl⟩ := List.exists_cons_of_ne_nil (ne_nil_of_lexeme htoken.kind)
    rw [List.cons_append] at hskip hfront ⊢
    -- the scanner takes the longest lexeme, and the grammar goes on where it stops
    have hmunch := munch_of_longest hfront htoken.kind
    have hnext := next_of_munch hskip hmunch
    rw [List.take_left, List.drop_left, ← eq_tokenAt htoken] at hnext
    rw [collect_of_next hnext, ih]
    cases result with
    | error e => rfl
    | ok tokens => simp [Except.map]
  | @unterminatedString line trivia rest htrivia hrest =>
    have hskip := skipTrivia_of_longest htrivia line
    have hnext : next ⟨trivia ++ quote :: rest, line, false⟩ =
        (some (.error (.unterminatedString (line + (trivia ++ quote :: rest).count newline)
          (line + trivia.count newline))),
          ⟨[], line + (trivia ++ quote :: rest).count newline, true⟩) := by
      -- the quote itself is no newline
      have hline : line + (trivia ++ quote :: rest).count newline =
          line + trivia.count newline + rest.count newline := by
        rw [List.count_append, List.count_cons_of_ne (by decide), Nat.add_assoc]
      rw [hline]
      unfold next
      simp [hskip, munch_quote_of_not_mem hrest]
    rw [collect_of_error hnext]
    rfl
  | @unexpectedCharacter line trivia rest c htrivia hquote hnone =>
    have hskip := skipTrivia_of_longest htrivia line
    have hchar := firstChar?_append c rest
    obtain ⟨first, more, hbytes⟩ := List.exists_cons_of_ne_nil (utf8EncodeChar_ne_nil c)
    rw [hbytes, List.cons_append] at htrivia hnone hskip hchar ⊢
    -- a character that starts with the byte of a quote is a quote
    have hfirst : first ≠ quote := by
      rintro rfl
      exact hquote (eq_of_quote hbytes)
    have hmunch := munch_eq_stranger_iff.mpr ⟨hfirst, hnone⟩
    have hnext : next ⟨trivia ++ first :: (more ++ rest), line, false⟩ =
        (some (.error (.unexpectedCharacter c (line + trivia.count newline))),
          ⟨more ++ rest, line + trivia.count newline, true⟩) := by
      unfold next
      simp [hskip, hmunch, hchar]
    rw [collect_of_error hnext]
    rfl

/-! ## Texts

A text is cut between characters, so every lexeme is text again. -/

/-- Trivia ends between characters: blanks are characters of their own, and a comment ends with a
newline or with the script. -/
theorem isText_skipTrivia {before bytes : List UInt8} {inComment : Bool}
    (h : IsText (before ++ bytes)) (hbefore : inComment = false → before = []) (line : Nat) :
    IsText (skipTrivia inComment line bytes).2 := by
  induction bytes generalizing before inComment line with
  | nil => exact isText_nil
  | cons byte rest ih =>
    rw [skipTrivia]
    by_cases hnewline : byte = newline
    · rw [if_pos hnewline]
      subst hnewline
      -- a newline is a character of its own
      have hrest : IsText ([] ++ rest) := (h.split (by decide)).2.2
      exact ih hrest (fun _ => rfl) (line + 1)
    rw [if_neg hnewline]
    cases inComment with
    | true =>
      rw [if_pos rfl]
      -- in a comment this may be the middle of a character: `before` ends with its first bytes
      have hinside : IsText ((before ++ [byte]) ++ rest) := by simpa using h
      exact ih hinside (by simp) line
    | false =>
      obtain rfl := hbefore rfl
      rw [if_neg Bool.false_ne_true]
      by_cases hspace : isSpace byte = true
      · rw [if_pos hspace]
        have hlt : byte < 128 := by
          simp only [isSpace, Bool.or_eq_true, decide_eq_true_eq] at hspace
          rcases hspace with (rfl | rfl) | rfl <;> decide
        have hrest : IsText ([] ++ rest) := (h.split hlt).2.2
        exact ih hrest (fun _ => rfl) line
      rw [if_neg hspace]
      by_cases hcomment : startsComment byte rest = true
      · rw [if_pos hcomment]
        have hinside : IsText ([byte] ++ rest) := h
        exact ih hinside (by simp) line
      · rw [if_neg hcomment]
        exact h

/-- A lexeme of a text is a text, and so is what follows it. -/
theorem isText_of_lexeme {kind : Kind} {front rest : List UInt8} (h : Lexeme kind front)
    (htext : IsText (front ++ rest)) : IsText front ∧ IsText rest := by
  obtain ⟨front, last, rfl, hlast⟩ := h.exists_last
  rw [List.append_assoc] at htext
  obtain ⟨hfront, hbyte, hrest⟩ := htext.split hlast
  exact ⟨hfront.append hbyte, hrest⟩

/-- What is taken from a text is a part of the text. -/
theorem exists_append_of_munch {text : String} {first : UInt8} {rest : List UInt8} {kind : Kind}
    {count : Nat} (htext : encode text = first :: rest)
    (hmunch : munch first rest = .lexeme kind count) :
    ∃ lexeme more, text = lexeme ++ more ∧ encode lexeme = first :: rest.take count ∧
      encode more = rest.drop count := by
  have hsplit : encode text = (first :: rest.take count) ++ rest.drop count := by
    rw [htext, List.cons_append, List.take_append_drop]
  obtain ⟨⟨lexeme, hlexeme⟩, more, hmore⟩ :=
    isText_of_lexeme (lexeme_of_munch hmunch) ⟨text, hsplit⟩
  refine ⟨lexeme, more, encode_inj ?_, hlexeme, hmore⟩
  rw [hsplit, encode_append, hlexeme, hmore]

/-- The token that the scanner makes of a lexeme. -/
theorem isToken_tokenAt {kind : Kind} {bytes : List UInt8} (h : Lexeme kind bytes)
    (htext : IsText bytes) (line : Nat) : IsToken line bytes (tokenAt line kind bytes) := by
  obtain ⟨text, rfl⟩ := htext
  have hslice := sliceText_encode text
  refine ⟨h, congrArg encode hslice, ?_, rfl⟩
  show Denotes (sliceText (encode text)) kind (literal? kind (encode text))
  rw [hslice]
  rcases h.kind_cases with ⟨rfl, body, hbody⟩ | ⟨rfl, hnumber⟩ | ⟨hstring, hnumber⟩
  · -- what stands between the quotes is a text
    have hquoted : IsText ([] ++ quote :: (body ++ [quote])) := ⟨text, hbody⟩
    obtain ⟨body, rfl⟩ := ((hquoted.split (by decide)).2.2.split (by decide)).1
    have hliteral : literal? .string (encode text) = some (.string body) := by
      rw [literal?, hbody, List.tail_cons, List.dropLast_concat, sliceText_encode]
    rw [hliteral]
    exact .string hbody
  · obtain ⟨value, hvalue⟩ := Decimal.exists_readNumber? hnumber
    have hliteral : literal? .number (encode text) = some (.number value) := by
      rw [literal?, hslice, hvalue]
      rfl
    rw [hliteral]
    exact .number hvalue
  · rw [literal?_of_ne hstring hnumber]
    exact .other hstring hnumber

/-- A lexeme that is taken behind trivia is a token of the grammar, and a text follows it. -/
theorem isToken_of_munch {line start count : Nat} {bytes rest : List UInt8} {first : UInt8}
    {kind : Kind} (htext : IsText bytes)
    (hskip : skipTrivia false line bytes = (start, first :: rest))
    (hmunch : munch first rest = .lexeme kind count) :
    IsToken start (first :: rest.take count) (tokenAt start kind (first :: rest.take count)) ∧
      IsText (rest.drop count) := by
  have hwhole : IsText ([] ++ bytes) := htext
  have hleft : IsText (skipTrivia false line bytes).2 :=
    isText_skipTrivia hwhole (fun _ => rfl) line
  rw [hskip] at hleft
  obtain ⟨text, htext⟩ := hleft
  obtain ⟨lexeme, more, -, hlexeme, hmore⟩ := exists_append_of_munch htext hmunch
  exact ⟨isToken_tokenAt (lexeme_of_munch hmunch) ⟨lexeme, hlexeme⟩ start, more, hmore⟩

/-- The grammar says something about every text. -/
theorem exists_tokenizes {bytes : List UInt8} (h : IsText bytes) (line : Nat) :
    ∃ result, Tokenizes line bytes result := by
  induction hlength : bytes.length using Nat.strongRecOn generalizing bytes line with
  | ind length ih =>
  subst hlength
  obtain ⟨trivia, hbytes, hlongest, -⟩ := longest_skipTrivia line bytes
  have hwhole : IsText ([] ++ bytes) := h
  have hrest : IsText (skipTrivia false line bytes).2 :=
    isText_skipTrivia hwhole (fun _ => rfl) line
  generalize (skipTrivia false line bytes).2 = rest at hbytes hrest
  subst hbytes
  cases rest with
  | nil =>
    rw [List.append_nil] at hlongest ⊢
    exact ⟨_, .eof hlongest⟩
  | cons first rest =>
    cases hmunch : munch first rest with
    | lexeme kind count =>
      have hfront := longest_of_munch hmunch
      have hkind := lexeme_of_munch hmunch
      -- the scanner's lexeme is the longest one, and cutting it off leaves a shorter text
      have hsplit : first :: rest = (first :: rest.take count) ++ rest.drop count := by
        rw [List.cons_append, List.take_append_drop]
      rw [hsplit] at hlongest hrest hfront ⊢
      obtain ⟨hfrontText, hrestText⟩ := isText_of_lexeme hkind hrest
      have htoken := isToken_tokenAt hkind hfrontText (line + trivia.count newline)
      obtain ⟨result, hresult⟩ := ih (rest.drop count).length (by simp; omega) hrestText
        (tokenAt (line + trivia.count newline) kind (first :: rest.take count)).line rfl
      exact ⟨_, .lexeme hlongest hfront htoken hresult⟩
    | openString =>
      obtain rfl : first = quote :=
        Decidable.byContradiction fun hne => munch_ne_openString hne rest hmunch
      -- with another quote the scanner would have found the end of the string
      refine ⟨_, .unterminatedString hlongest ?_⟩
      intro hmem
      obtain ⟨body, after, rfl, hbody⟩ := exists_append_quote hmem
      rw [munch_quote hbody] at hmunch
      cases hmunch
    | stranger =>
      obtain ⟨hquote, hnone⟩ := munch_eq_stranger_iff.mp hmunch
      obtain ⟨c, more, hchar⟩ := hrest.exists_append
      have hc : c ≠ '"' := by
        rintro rfl
        exact hquote (List.cons.inj hchar).1
      rw [hchar] at hlongest hnone ⊢
      exact ⟨_, .unexpectedCharacter hlongest hc hnone⟩

end Scanner

/-- **The scanner implements the lexical grammar by maximal munch.** For every script it finds the
tokens that come of taking away the longest trivia and the longest lexeme, over and over, and it
fails where and as the grammar says. If it does not fail, the last token is the end of the script
and no other one is. -/
theorem scan_eq_iff_tokenizes (source : String) :
    (∀ result, Token.scan source = result ↔ Tokenizes 1 (encode source) result) ∧
    match Token.scan source with
    | .ok tokens => ∃ body last, tokens = body ++ [.eof last] ∧ ∀ t ∈ body, t.kind ≠ .eof
    | .error _ => True := by
  have hscan : ∀ {result}, Tokenizes 1 (encode source) result → Token.scan source = result := by
    intro result htokenizes
    unfold Token.scan Scanner.start
    rw [Scanner.collect_of_tokenizes htokenizes]
    cases result with
    | error e => rfl
    | ok tokens => simp [Except.map]
  refine ⟨fun result => ⟨?_, hscan⟩, ?_⟩
  · rintro rfl
    obtain ⟨result, hresult⟩ := Scanner.exists_tokenizes ⟨source, rfl⟩ 1
    rw [hscan hresult]
    exact hresult
  · cases hok : Token.scan source with
    | error e => trivial
    | ok tokens =>
      obtain ⟨body, last, htokens, hkinds, -⟩ := (scans_of_scan hok).exists_eof
      exact ⟨body, last, htokens, hkinds⟩

end StackScript
