import StackScript.Proofs.Token.MaximalMunch

/-!
# Tokens tile a script

Nothing of a script is lost between its tokens, and nothing is read twice. The scanner counts lines
in two places, where it skips trivia and where it measures a lexeme, so that the line it is on is
always the one after all newlines that it has passed.

* **`Gap`**: the blanks and comments before a lexeme; `exists_gap`: what is skipped is a gap.
* **`Cuts`**, **`Finishes`**: what a call does, and `cuts_or_finishes`: it does one of the two.
* **`Tiles`**: the calls on a whole text, and `exists_tiles`: every text is tiled.
* **`scan_tiles`**: the tokens of a script, their lines, and where an error is reported.
-/

namespace StackScript.Tiling

open Scanner Text
open Lexical (IsLexeme)

/-! ## Gaps

The characters between two tokens: blanks, and comments up to the end of their lines. -/

/-- Blanks and comments. A comment goes on to the end of its line; only the last one of a script
may go without a newline. -/
inductive Gap (atEnd : Bool) : List Char → Prop where
  | nil : Gap atEnd []
  | blank {c : Char} {rest : List Char} :
    c ∈ [' ', '\r', '\t', '\n'] → Gap atEnd rest → Gap atEnd (c :: rest)
  | comment {body rest : List Char} :
    '\n' ∉ body → Gap atEnd rest → Gap atEnd ('/' :: '/' :: (body ++ '\n' :: rest))
  | lastComment {body : List Char} :
    atEnd = true → '\n' ∉ body → Gap atEnd ('/' :: '/' :: body)

/-- The number of newlines in a text. -/
def newlines (text : String) : Nat :=
  text.toList.count '\n'

@[simp] theorem newlines_append (a b : String) : newlines (a ++ b) = newlines a + newlines b := by
  unfold newlines
  rw [String.toList_append, List.count_append]

/-- A character of one byte stands where its byte does. -/
theorem mem_flatMap_utf8EncodeChar {d : Char} {byte : UInt8}
    (hd : String.utf8EncodeChar d = [byte]) (hbyte : byte < 128) {chars : List Char} :
    byte ∈ chars.flatMap String.utf8EncodeChar ↔ d ∈ chars := by
  rw [List.mem_flatMap]
  constructor
  · rintro ⟨c, hc, hmem⟩
    rwa [← eq_of_mem_utf8EncodeChar hd hbyte hmem]
  · intro hmem
    exact ⟨d, hmem, hd ▸ List.mem_singleton_self byte⟩

theorem skipTrivia_blank {c : Char} (h : c ∈ [' ', '\r', '\t', '\n']) (line : Nat)
    (rest : List UInt8) :
    ∃ line', skipTrivia false line (String.utf8EncodeChar c ++ rest) =
      skipTrivia false line' rest := by
  simp only [List.mem_cons, List.not_mem_nil, or_false] at h
  rcases h with rfl | rfl | rfl | rfl
  · exact ⟨line, rfl⟩
  · exact ⟨line, rfl⟩
  · exact ⟨line, rfl⟩
  · exact ⟨line + 1, rfl⟩

/-- All of a comment is skipped. -/
theorem skipTrivia_slashes {body : List Char} (h : '\n' ∉ body) (line : Nat) (rest : List Char) :
    skipTrivia false line (('/' :: '/' :: (body ++ rest)).flatMap String.utf8EncodeChar) =
      skipTrivia true line (rest.flatMap String.utf8EncodeChar) := by
  have hbody : newline ∉ body.flatMap String.utf8EncodeChar := fun hmem =>
    h ((mem_flatMap_utf8EncodeChar rfl (by decide)).mp hmem)
  show skipTrivia true line ((body ++ rest).flatMap String.utf8EncodeChar) = _
  rw [List.flatMap_append, skipTrivia_comment hbody]

/-- Where neither a blank nor a comment stands nothing is skipped. -/
theorem skipTrivia_of_other {c : Char} (hblank : c ∉ [' ', '\r', '\t', '\n']) {chars : List Char}
    (hcomment : ¬ (c = '/' ∧ chars.head? = some '/')) (line : Nat) :
    skipTrivia false line ((c :: chars).flatMap String.utf8EncodeChar) =
      (line, (c :: chars).flatMap String.utf8EncodeChar) := by
  simp only [List.mem_cons, List.not_mem_nil, or_false, not_or] at hblank
  obtain ⟨first, more, hbytes⟩ := List.exists_cons_of_ne_nil (utf8EncodeChar_ne_nil c)
  -- the bytes of blanks and slashes occur in no other characters
  have hmem : first ∈ String.utf8EncodeChar c := hbytes ▸ List.mem_cons_self
  have hnewline : first ≠ newline := by
    rintro rfl
    exact hblank.2.2.2 (eq_of_mem_utf8EncodeChar rfl (by decide) hmem)
  have hspace : isSpace first ≠ true := by
    simp only [isSpace, Bool.or_eq_true, decide_eq_true_eq, ne_eq, not_or]
    refine ⟨⟨?_, ?_⟩, ?_⟩
    · rintro rfl
      exact hblank.1 (eq_of_mem_utf8EncodeChar rfl (by decide) hmem)
    · rintro rfl
      exact hblank.2.2.1 (eq_of_mem_utf8EncodeChar rfl (by decide) hmem)
    · rintro rfl
      exact hblank.2.1 (eq_of_mem_utf8EncodeChar rfl (by decide) hmem)
  have hslashes : startsComment first (more ++ chars.flatMap String.utf8EncodeChar) ≠ true := by
    simp only [startsComment, Bool.and_eq_true, decide_eq_true_eq, beq_iff_eq, ne_eq]
    rintro ⟨rfl, hhead⟩
    obtain rfl : c = '/' := eq_of_mem_utf8EncodeChar rfl (by decide) hmem
    obtain rfl : more = [] := (List.cons.inj hbytes).2.symm
    refine hcomment ⟨rfl, ?_⟩
    cases chars with
    | nil => cases hhead
    | cons d chars =>
      obtain ⟨byte, bytes, hd⟩ := List.exists_cons_of_ne_nil (utf8EncodeChar_ne_nil d)
      rw [List.nil_append, List.flatMap_cons, hd] at hhead
      obtain rfl : byte = '/'.toUInt8 := Option.some.inj hhead
      have hslash : '/'.toUInt8 ∈ String.utf8EncodeChar d := hd ▸ List.mem_cons_self
      obtain rfl : d = '/' := eq_of_mem_utf8EncodeChar rfl (by decide) hslash
      rfl
  rw [List.flatMap_cons, hbytes, List.cons_append, skipTrivia, if_neg hnewline,
    if_neg Bool.false_ne_true, if_neg hspace, if_neg hslashes]

/-- What is skipped is a gap. -/
theorem exists_gap (line : Nat) (chars : List Char) :
    ∃ gap rest, chars = gap ++ rest ∧ Gap rest.isEmpty gap ∧
      (skipTrivia false line (chars.flatMap String.utf8EncodeChar)).2 =
        rest.flatMap String.utf8EncodeChar := by
  induction hlength : chars.length using Nat.strongRecOn generalizing line chars with
  | ind length ih =>
  subst hlength
  cases chars with
  | nil => exact ⟨[], [], rfl, .nil, rfl⟩
  | cons c chars =>
    by_cases hblank : c ∈ [' ', '\r', '\t', '\n']
    · obtain ⟨line', hskip⟩ := skipTrivia_blank hblank line (chars.flatMap String.utf8EncodeChar)
      obtain ⟨gap, rest, rfl, hgap, hrest⟩ := ih _ (by simp) line' chars rfl
      exact ⟨c :: gap, rest, rfl, .blank hblank hgap, by rw [List.flatMap_cons, hskip, hrest]⟩
    by_cases hcomment : c = '/' ∧ chars.head? = some '/'
    · obtain ⟨rfl, hhead⟩ := hcomment
      obtain ⟨chars, rfl⟩ := List.head?_eq_some_iff.mp hhead
      by_cases hnewline : '\n' ∈ chars
      · -- the newline that ends the comment is skipped, and so is what follows it
        obtain ⟨body, after, rfl, hbody⟩ := List.eq_append_cons_of_mem hnewline
        obtain ⟨gap, rest, rfl, hgap, hrest⟩ :=
          ih after.length (by simp; omega) (line + 1) after rfl
        refine ⟨'/' :: '/' :: (body ++ '\n' :: gap), rest, by simp, .comment hbody hgap, ?_⟩
        rw [skipTrivia_slashes hbody]
        exact hrest
      -- the comment is the last thing in the text
      · have hskip := skipTrivia_slashes hnewline line []
        rw [List.append_nil] at hskip
        refine ⟨'/' :: '/' :: chars, [], (List.append_nil _).symm, .lastComment rfl hnewline, ?_⟩
        rw [hskip]
        rfl
    · exact ⟨[], c :: chars, rfl, .nil, by rw [skipTrivia_of_other hblank hcomment]⟩

/-- What is skipped is a gap, and its newlines are counted. -/
theorem exists_gap_text (line : Nat) (text : String) :
    ∃ gap rest : String, text = gap ++ rest ∧ Gap rest.toList.isEmpty gap.toList ∧
      skipTrivia false line (encode text) = (line + newlines gap, encode rest) := by
  obtain ⟨gap, rest, htext, hgap, hskip⟩ := exists_gap line text.toList
  rw [← encode_eq_flatMap] at hskip
  have hsplit : text = String.ofList gap ++ String.ofList rest := by
    rw [← String.ofList_append, ← htext, String.ofList_toList]
  have hrest : (skipTrivia false line (encode text)).2 = encode (String.ofList rest) := by
    rw [hskip, encode_eq_flatMap, String.toList_ofList]
  refine ⟨String.ofList gap, String.ofList rest, hsplit, ?_, Prod.ext ?_ hrest⟩
  · rwa [String.toList_ofList, String.toList_ofList]
  · -- what is not left has been counted
    have hlines := line_skipTrivia false line (encode text)
    have htotal : newlines text = newlines (String.ofList gap) + newlines (String.ofList rest) := by
      rw [← newlines_append, ← hsplit]
    rw [hrest, count_newline_encode, count_newline_encode] at hlines
    unfold newlines at htotal ⊢
    show (skipTrivia false line (encode text)).1 = _
    omega

/-! ## Scanning from the middle of a script

The state of the scanner between two calls is known from the text that was passed. -/

/-- The scanner between two parts of a script. -/
def between (before text : String) : Scanner :=
  ⟨encode text, 1 + newlines before, false⟩

/-- The results of repeated calls. -/
def calls : (count : Nat) → Scanner → List (Option (Except ScanError Token))
  | 0, _ => []
  | count + 1, s => s.next.1 :: calls count s.next.2

/-! ## Pieces

A piece is a gap together with the token behind it. What is left after all pieces ends the script or
cannot be scanned. -/

/-- A token and the trivia before it. -/
structure Piece where
  trivia : String
  token : Token

def Piece.text (p : Piece) : String :=
  p.trivia ++ p.token.lexeme

/-- The part of a script that pieces make up. -/
def joined : List Piece → String
  | [] => ""
  | p :: pieces => p.text ++ joined pieces

/-- How scanning ends behind a part of a script, before which trivia is skipped and the rest is
left. Lines count the newlines up to there. -/
inductive Ends (before : String) : (trivia rest : String) → Except ScanError Token → Prop where
  | eof {trivia : String} : Gap true trivia.toList →
    Ends before trivia "" (.ok (.eof (1 + newlines (before ++ trivia))))
  /-- The line is the last one of the script, and the string was opened where its quote stands. -/
  | unterminatedString {trivia body : String} : Gap false trivia.toList → '"' ∉ body.toList →
    Ends before trivia ("\"" ++ body) (.error (.unterminatedString
      (1 + newlines (before ++ trivia ++ ("\"" ++ body))) (1 + newlines (before ++ trivia))))
  | unexpectedCharacter {trivia more : String} {c : Char} : Gap false trivia.toList → c ≠ '"' →
    (∀ front, front <+: encode (String.singleton c ++ more) → ¬ IsLexeme front) →
    Ends before trivia (String.singleton c ++ more)
      (.error (.unexpectedCharacter c (1 + newlines (before ++ trivia))))

/-! ## Calls

A call passes one piece, or it finishes the script. -/

/-- A call cuts a piece off the text that is left. -/
structure Cuts (before text : String) (p : Piece) (more : String) : Prop where
  text_eq : text = p.text ++ more
  gap : Gap false p.trivia.toList
  kind : p.token.kind ≠ .eof
  line : p.token.line = 1 + newlines (before ++ p.text)
  next : (between before text).next = (some (.ok p.token), between (before ++ p.text) more)

/-- A call is the last one that finds something. -/
structure Finishes (before text trivia rest : String) (final : Except ScanError Token) : Prop where
  text_eq : text = trivia ++ rest
  ends : Ends before trivia rest final
  next : ∃ last, (between before text).next = (some final, last) ∧ last.ended = true

/-- A string without an end is reported on the last line, together with the line where it starts. -/
theorem next_of_openString {line start : Nat} {bytes rest : List UInt8} {first : UInt8}
    (hskip : skipTrivia false line bytes = (start, first :: rest))
    (hmunch : munch first rest = .openString) :
    next ⟨bytes, line, false⟩ =
      (some (.error (.unterminatedString (start + rest.count newline) start)),
        ⟨[], start + rest.count newline, true⟩) := by
  unfold next
  simp [hskip, hmunch]

/-- A character that starts no token is reported on its line. -/
theorem next_of_stranger {line start : Nat} {bytes rest : List UInt8} {first : UInt8} {c : Char}
    (hskip : skipTrivia false line bytes = (start, first :: rest))
    (hmunch : munch first rest = .stranger) (hchar : firstChar? (first :: rest) = some c) :
    next ⟨bytes, line, false⟩ =
      (some (.error (.unexpectedCharacter c start)), ⟨rest, start, true⟩) := by
  unfold next
  simp [hskip, hmunch, hchar]

section Step

variable {before gap rest : String} {first : UInt8} {bytes : List UInt8}

/-- The line of a lexeme counts the newlines of the gap before it and its own. -/
theorem cuts_of_munch {kind : Kind} {count : Nat} (hgap : Gap false gap.toList)
    (hbytes : encode rest = first :: bytes)
    (hskip : skipTrivia false (1 + newlines before) (encode (gap ++ rest)) =
      (1 + newlines (before ++ gap), first :: bytes))
    (hmunch : munch first bytes = .lexeme kind count) :
    ∃ p more, Cuts before (gap ++ rest) p more := by
  -- a lexeme ends between characters, so that both parts are texts
  obtain ⟨lexeme, more, rfl, hlexeme, hmore⟩ := exists_append_of_munch hbytes hmunch
  have hnext := next_of_munch hskip hmunch
  rw [← hlexeme, ← hmore] at hnext
  have htext : (tokenAt (1 + newlines (before ++ gap)) kind (encode lexeme)).lexeme = lexeme :=
    sliceText_encode lexeme
  have hline : (tokenAt (1 + newlines (before ++ gap)) kind (encode lexeme)).line =
      1 + newlines (before ++ (gap ++ lexeme)) := by
    show 1 + newlines (before ++ gap) + (encode lexeme).count newline = _
    rw [count_newline_encode, ← String.append_assoc, newlines_append (before ++ gap), Nat.add_assoc]
    rfl
  refine ⟨⟨gap, tokenAt (1 + newlines (before ++ gap)) kind (encode lexeme)⟩, more, ?_⟩
  refine ⟨?_, hgap, munch_ne_eof hmunch, ?_, ?_⟩
  · rw [Piece.text, htext, String.append_assoc]
  · rw [Piece.text, htext, hline]
  · rw [Piece.text, htext]
    rw [hline] at hnext
    exact hnext

/-- The string was opened behind the gap, and all that follows has been read for its end. -/
theorem finishes_of_openString (hgap : Gap false gap.toList) (hbytes : encode rest = first :: bytes)
    (hskip : skipTrivia false (1 + newlines before) (encode (gap ++ rest)) =
      (1 + newlines (before ++ gap), first :: bytes))
    (hmunch : munch first bytes = .openString) :
    ∃ final, Finishes before (gap ++ rest) gap rest final := by
  obtain rfl : first = quote :=
    Decidable.byContradiction fun hne => munch_ne_openString hne bytes hmunch
  have hnone : quote ∉ bytes := by
    intro hmem
    obtain ⟨body, after, rfl, hbody⟩ := exists_append_quote hmem
    rw [munch_quote hbody] at hmunch
    cases hmunch
  have hwhole : IsText ([] ++ quote :: bytes) := ⟨rest, hbytes⟩
  obtain ⟨body, rfl⟩ := (hwhole.split (by decide)).2.2
  obtain rfl : rest = "\"" ++ body := encode_inj (by rw [hbytes, encode_append]; rfl)
  -- the byte of a quote stands for a quote wherever it occurs
  have hbody : '"' ∉ body.toList := by
    rw [encode_eq_flatMap] at hnone
    exact fun hmem => hnone ((mem_flatMap_utf8EncodeChar rfl (by decide)).mpr hmem)
  have hline : 1 + newlines (before ++ gap) + (encode body).count newline =
      1 + newlines (before ++ gap ++ ("\"" ++ body)) := by
    rw [count_newline_encode, newlines_append (before ++ gap), newlines_append "\"", Nat.add_assoc,
      show newlines "\"" = 0 from rfl, Nat.zero_add]
    rfl
  have hnext := next_of_openString hskip hmunch
  rw [hline] at hnext
  exact ⟨_, rfl, .unterminatedString hgap hbody, _, hnext, rfl⟩

/-- The character can be decoded since the text is cut between characters. -/
theorem finishes_of_stranger (hgap : Gap false gap.toList) (hbytes : encode rest = first :: bytes)
    (hskip : skipTrivia false (1 + newlines before) (encode (gap ++ rest)) =
      (1 + newlines (before ++ gap), first :: bytes))
    (hmunch : munch first bytes = .stranger) :
    ∃ final, Finishes before (gap ++ rest) gap rest final := by
  obtain ⟨hquote, hnone⟩ := munch_eq_stranger_iff.mp hmunch
  obtain ⟨c, more, rfl, hchar⟩ := exists_singleton_append hbytes
  have hc : c ≠ '"' := by
    rintro rfl
    exact hquote (List.cons.inj hchar).1.symm
  rw [← hbytes] at hnone
  have hfirst := firstChar?_append c (encode more)
  rw [hchar] at hfirst
  have hnext := next_of_stranger hskip hmunch hfirst
  exact ⟨_, rfl, .unexpectedCharacter hgap hc hnone, _, hnext, rfl⟩

end Step

/-- What a call does between two parts of a script. -/
theorem cuts_or_finishes (before text : String) :
    (∃ p more, Cuts before text p more) ∨
      ∃ trivia rest final, Finishes before text trivia rest final := by
  obtain ⟨gap, rest, rfl, hgap, hskip⟩ := exists_gap_text (1 + newlines before) text
  rw [Nat.add_assoc, ← newlines_append] at hskip
  cases hbytes : encode rest with
  | nil =>
    obtain rfl : rest = "" := encode_inj hbytes
    have hnext := next_of_end hskip
    exact .inr ⟨gap, "", _, rfl, .eof hgap, _, hnext, rfl⟩
  | cons first bytes =>
    -- something is left, so that no comment has come to the end of the script
    have hclosed : Gap false gap.toList := by
      cases hrest : rest.toList with
      | nil =>
        rw [encode_eq_flatMap, hrest] at hbytes
        cases hbytes
      | cons c chars =>
        rw [hrest] at hgap
        exact hgap
    rw [hbytes] at hskip
    cases hmunch : munch first bytes with
    | lexeme kind count => exact .inl (cuts_of_munch hclosed hbytes hskip hmunch)
    | openString => exact .inr ⟨gap, rest, finishes_of_openString hclosed hbytes hskip hmunch⟩
    | stranger => exact .inr ⟨gap, rest, finishes_of_stranger hclosed hbytes hskip hmunch⟩

/-! ## Runs

A text is passed piece by piece. The induction is on its length, as every piece has a token. -/

/-- Calls cut pieces off a text until one of them finishes. -/
inductive Tiles : (before text : String) → List Piece → (trivia rest : String) →
    Except ScanError Token → Prop where
  | finish {before text trivia rest : String} {final : Except ScanError Token} :
    Finishes before text trivia rest final → Tiles before text [] trivia rest final
  | cut {before text more trivia rest : String} {final : Except ScanError Token} {p : Piece}
      {pieces : List Piece} :
    Cuts before text p more → Tiles (before ++ p.text) more pieces trivia rest final →
    Tiles before text (p :: pieces) trivia rest final

/-- A piece is not empty. -/
theorem Cuts.length_lt {before text more : String} {p : Piece} (h : Cuts before text p more) :
    (encode more).length < (encode text).length := by
  have hless := remaining_next_lt h.next
  simpa [remaining, between] using hless

/-- Every text is tiled, since each piece makes what is left shorter. -/
theorem exists_tiles (before text : String) :
    ∃ pieces trivia rest final, Tiles before text pieces trivia rest final := by
  induction hlength : (encode text).length using Nat.strongRecOn generalizing before text with
  | ind length ih =>
  subst hlength
  rcases cuts_or_finishes before text with
    ⟨p, more, hcuts⟩ | ⟨trivia, rest, final, hfinishes⟩
  · obtain ⟨pieces, trivia, rest, final, htiles⟩ := ih _ hcuts.length_lt (before ++ p.text) more rfl
    exact ⟨p :: pieces, trivia, rest, final, .cut hcuts htiles⟩
  · exact ⟨[], trivia, rest, final, .finish hfinishes⟩

/-- After the end every call gives nothing. -/
theorem calls_of_ended {s : Scanner} (h : s.ended = true) (count : Nat) :
    calls count s = List.replicate count none := by
  have hnext : s.next = (none, s) := by
    unfold next
    rw [if_pos h]
  induction count with
  | zero => rfl
  | succ count ih => rw [calls, hnext, ih, List.replicate_succ]

section Runs

variable {before text trivia rest : String} {pieces : List Piece} {final : Except ScanError Token}

/-- The pieces are the text. -/
theorem Tiles.text_eq (h : Tiles before text pieces trivia rest final) :
    text = joined pieces ++ trivia ++ rest := by
  induction h with
  | finish hfinishes => rw [hfinishes.text_eq, joined, String.empty_append]
  | cut hcuts _ ih =>
    rw [hcuts.text_eq, ih, joined]
    simp only [String.append_assoc]

/-- The end is behind all pieces. -/
theorem Tiles.ends (h : Tiles before text pieces trivia rest final) :
    Ends (before ++ joined pieces) trivia rest final := by
  induction h with
  | finish hfinishes =>
    rw [joined, String.append_empty]
    exact hfinishes.ends
  | cut _ _ ih =>
    rw [joined, ← String.append_assoc]
    exact ih

/-- Each token is on the line after all newlines up to its end. -/
theorem Tiles.piece (h : Tiles before text pieces trivia rest final) {front back : List Piece}
    {p : Piece} (hp : pieces = front ++ p :: back) :
    Gap false p.trivia.toList ∧ p.token.kind ≠ .eof ∧
      p.token.line = 1 + newlines (before ++ (joined front ++ p.text)) := by
  induction h generalizing front with
  | finish _ => simp at hp
  | cut hcuts _ ih =>
    cases front with
    | nil =>
      obtain ⟨rfl, -⟩ := List.cons.inj hp
      refine ⟨hcuts.gap, hcuts.kind, ?_⟩
      rw [joined, String.empty_append]
      exact hcuts.line
    | cons q front =>
      obtain ⟨rfl, hrest⟩ := List.cons.inj hp
      obtain ⟨hgap, hkind, hline⟩ := ih hrest
      refine ⟨hgap, hkind, ?_⟩
      rw [hline, joined, String.append_assoc, String.append_assoc]

/-- The tokens of the pieces are collected in their order. -/
theorem Tiles.collect (h : Tiles before text pieces trivia rest final) (found : Array Token) :
    (between before text).collect found =
      final.map fun last => found ++ (pieces.map Piece.token ++ [last]).toArray := by
  induction h generalizing found with
  | @finish before text trivia rest final hfinishes =>
    obtain ⟨last, hnext, hended⟩ := hfinishes.next
    cases final with
    | error e => exact collect_of_error hnext found
    | ok token =>
      rw [collect_of_next hnext, collect_of_ended hended, Array.push_eq_append]
      rfl
  | cut hcuts _ ih =>
    rw [collect_of_next hcuts.next, ih]
    congr 1
    funext last
    simp

/-- The pieces are found one by one, then the end or an error, and then nothing. -/
theorem Tiles.calls (h : Tiles before text pieces trivia rest final) (more : Nat) :
    calls (pieces.length + 1 + more) (between before text) =
      pieces.map (some ∘ Except.ok ∘ Piece.token) ++ some final :: List.replicate more none := by
  induction h with
  | finish hfinishes =>
    obtain ⟨last, hnext, hended⟩ := hfinishes.next
    rw [List.length_nil, Nat.zero_add, Nat.add_comm, Tiling.calls, hnext, calls_of_ended hended]
    rfl
  | @cut before text after trivia rest final p pieces hcuts _ ih =>
    rw [List.length_cons, show pieces.length + 1 + 1 + more = pieces.length + 1 + more + 1 by omega,
      Tiling.calls, hcuts.next, ih]
    rfl

end Runs

/-- **Tokens tile a script.** The calls of `next` cut pieces off every script, each of them trivia
and a token, then they find the end or an error, and then nothing more. The script is these pieces,
trivia, and a rest where an error was found. Each token is on the line after all newlines up to
the end of its lexeme, and so are the end of a script and an error, as `Ends` says. -/
theorem scan_tiles (source : String) :
    ∃ (pieces : List Piece) (trivia rest : String) (final : Except ScanError Token),
      source = joined pieces ++ trivia ++ rest ∧
      (∀ front p back, pieces = front ++ p :: back →
        Gap false p.trivia.toList ∧ p.token.kind ≠ .eof ∧
          p.token.line = 1 + newlines (joined front ++ (p.trivia ++ p.token.lexeme))) ∧
      Ends (joined pieces) trivia rest final ∧
      Token.scan source = final.map (fun last => pieces.map Piece.token ++ [last]) ∧
      ∀ more, calls (pieces.length + 1 + more) (Scanner.start source) =
        pieces.map (some ∘ Except.ok ∘ Piece.token) ++ some final :: List.replicate more none := by
  obtain ⟨pieces, trivia, rest, final, htiles⟩ := exists_tiles "" source
  -- nothing was passed before the script
  have hempty : ∀ text : String, "" ++ text = text := fun _ => String.empty_append
  refine ⟨pieces, trivia, rest, final, htiles.text_eq, fun front p back hp => ?_, ?_, ?_,
    htiles.calls⟩
  · obtain ⟨hgap, hkind, hline⟩ := htiles.piece hp
    rw [hempty] at hline
    exact ⟨hgap, hkind, hline⟩
  · have hends := htiles.ends
    rwa [hempty] at hends
  · have hcollect : (Scanner.start source).collect #[] = _ := htiles.collect #[]
    rw [Token.scan, hcollect]
    cases final with
    | error e => rfl
    | ok last => simp [Except.map]

end StackScript.Tiling
