import Mathlib.Data.List.Forall2
import StackScript.Proofs.Token.Tiling

/-!
# Re-spacing a script

The lexemes of a script can be written down again with any blanks and comments between them, as
long as a blank comes first. Nothing that was one token becomes two, and nothing that was two tokens
becomes one: every lexeme is measured up to the blank and taken as it was.

* **`Separator`**, **`Spaced`**: lexemes written down with separators between them.
* **`skipTrivia_gap`**: gaps are skipped; `skipTrivia_lexeme`: lexemes are not.
* **`munch_lexeme`**: a lexeme before a blank or at the end is taken as it is.
* **`scan_respaced`**: the tokens of a re-spaced script.
-/

namespace StackScript.Respacing

open Scanner Text Lexical
open Tiling (Gap skipTrivia_blank skipTrivia_slashes)

/-- Blanks and comments between two lexemes. It starts with a blank, so that it is never read as a
part of the first one. -/
def Separator (text : String) : Prop :=
  ∃ c rest, text.toList = c :: rest ∧ c ∈ [' ', '\r', '\t', '\n'] ∧ Gap false rest

/-- The lexemes, one after the other, with a separator between each two of them. -/
inductive Spaced : List String → String → Prop where
  | nil : Spaced [] ""
  | single {lexeme : String} : Spaced [lexeme] lexeme
  | cons {lexeme next separator text : String} {lexemes : List String} :
    Separator separator → Spaced (next :: lexemes) text →
    Spaced (lexeme :: next :: lexemes) (lexeme ++ (separator ++ text))

/-- The lexemes of a script, without the end. -/
def lexemes (tokens : List Token) : List String :=
  (tokens.filter (·.kind ≠ .eof)).map Token.lexeme

/-! ## Separators

A separator is skipped as a whole, whatever comes after it, since it ends with a blank. -/

/-- What is skipped has no effect but on the number of lines. -/
theorem skipTrivia_gap {gap : List Char} (h : Gap false gap) (line : Nat) (rest : List Char) :
    ∃ line', skipTrivia false line ((gap ++ rest).flatMap String.utf8EncodeChar) =
      skipTrivia false line' (rest.flatMap String.utf8EncodeChar) := by
  induction h generalizing line with
  | nil => exact ⟨line, rfl⟩
  | @blank c gap hc _ ih =>
    obtain ⟨next, hnext⟩ :=
      skipTrivia_blank hc line ((gap ++ rest).flatMap String.utf8EncodeChar)
    obtain ⟨line', hline'⟩ := ih next
    exact ⟨line', by rw [List.cons_append, List.flatMap_cons, hnext, hline']⟩
  | @comment body gap hbody _ ih =>
    obtain ⟨line', hline'⟩ := ih (line + 1)
    refine ⟨line', ?_⟩
    rw [List.cons_append, List.cons_append, List.append_assoc, skipTrivia_slashes hbody]
    exact hline'
  | lastComment hend => cases hend

/-- What the scanner finds depends on what is left when trivia has been skipped. -/
theorem scans_of_skipTrivia {line line' : Nat} {bytes bytes' : List UInt8} {tokens : List Token}
    (h : skipTrivia false line bytes = skipTrivia false line' bytes')
    (hscans : Scans line' bytes' tokens) : Scans line bytes tokens := by
  cases hscans with
  | eof hend => exact .eof (h.trans hend)
  | lexeme hskip hmunch hrest => exact .lexeme (h.trans hskip) hmunch hrest

/-- A blank is one byte. -/
theorem exists_blank {c : Char} (h : c ∈ [' ', '\r', '\t', '\n']) :
    ∃ last ∈ blanks, String.utf8EncodeChar c = [last] := by
  simp only [List.mem_cons, List.not_mem_nil, or_false] at h
  rcases h with rfl | rfl | rfl | rfl
  · exact ⟨' '.toUInt8, by decide, rfl⟩
  · exact ⟨'\r'.toUInt8, by decide, rfl⟩
  · exact ⟨'\t'.toUInt8, by decide, rfl⟩
  · exact ⟨newline, by decide, rfl⟩

/-- Scanning goes on behind the separator. -/
theorem Separator.exists_scans {separator : String} (h : Separator separator) (text : String)
    (line : Nat) :
    (∃ last more, encode (separator ++ text) = last :: more ∧ last ∈ blanks) ∧
      ∃ line', ∀ tokens, Scans line' (encode text) tokens →
        Scans line (encode (separator ++ text)) tokens := by
  obtain ⟨c, rest, hseparator, hc, hgap⟩ := h
  have hbytes : encode (separator ++ text) =
      (c :: rest ++ text.toList).flatMap String.utf8EncodeChar := by
    rw [encode_eq_flatMap, String.toList_append, hseparator]
  refine ⟨?_, ?_⟩
  · obtain ⟨last, hlast, hencode⟩ := exists_blank hc
    refine ⟨last, (rest ++ text.toList).flatMap String.utf8EncodeChar, ?_, hlast⟩
    rw [hbytes, List.cons_append, List.flatMap_cons, hencode, List.singleton_append]
  · obtain ⟨line', hskip⟩ := skipTrivia_gap (.blank hc hgap) line text.toList
    rw [← hbytes, ← encode_eq_flatMap] at hskip
    exact ⟨line', fun tokens hscans => scans_of_skipTrivia hskip hscans⟩

/-! ## Lexemes

A lexeme that is followed by a blank is scanned again as it was: nothing of what follows belongs to
it. -/

/-- A lexeme does not start with a blank, and only the slash alone starts with one. -/
theorem front_of_lexeme {kind : Kind} {first : UInt8} {front : List UInt8}
    (h : Lexeme kind (first :: front)) :
    first ∉ blanks ∧ (first = '/'.toUInt8 → front = []) := by
  have hother : ∀ {byte : UInt8}, byte ∉ '/'.toUInt8 :: blanks →
      byte ∉ blanks ∧ (byte = '/'.toUInt8 → front = []) := by
    intro byte hbyte
    rw [List.mem_cons, not_or] at hbyte
    exact ⟨hbyte.2, fun hslash => absurd hslash hbyte.1⟩
  generalize hbytes : first :: front = bytes at h
  cases h with
  | @operator text kind hlookup =>
    -- no operator starts with a blank, and none but the slash itself with a slash
    have htable : ∀ p ∈ operators, ∀ byte ∈ (encode p.1).head?,
        byte ∉ blanks ∧ (byte = '/'.toUInt8 → (encode p.1).tail = []) := by
      decide +kernel
    obtain ⟨before, after, hsplit, -⟩ := List.lookup_eq_some_iff.mp hlookup
    have hfirst := htable (text, kind) (by simp [hsplit]) first
    rw [← hbytes] at hfirst
    exact hfirst rfl
  | number hnumber =>
    subst hbytes
    apply hother
    rintro hmem
    have hdigit := (isDigit_iff first).mpr hnumber.first
    have hnone : ∀ byte ∈ '/'.toUInt8 :: blanks, isDigit byte = false := by decide +kernel
    rw [hnone first hmem] at hdigit
    cases hdigit
  | word hword =>
    rw [← hbytes, isWord_iff] at hword
    apply hother
    rintro hmem
    have hnone : ∀ byte ∈ '/'.toUInt8 :: blanks, isLetter byte = false := by decide +kernel
    rw [hnone first hmem] at hword
    cases hword.1
  | string hbody =>
    cases hbytes
    exact hother (by decide)

/-- No part of a lexeme is skipped if nothing follows it, or a blank. -/
theorem skipTrivia_lexeme {kind : Kind} {first : UInt8} {front more : List UInt8}
    (h : Lexeme kind (first :: front)) (hmore : ∀ byte ∈ more.head?, byte ∈ blanks) (line : Nat) :
    skipTrivia false line (first :: (front ++ more)) = (line, first :: (front ++ more)) := by
  obtain ⟨hblank, hslash⟩ := front_of_lexeme h
  rw [mem_blanks_iff, not_or] at hblank
  have hcomment : startsComment first (front ++ more) ≠ true := by
    intro hstarts
    simp only [startsComment, Bool.and_eq_true, decide_eq_true_eq, beq_iff_eq] at hstarts
    obtain ⟨hfirst, hhead⟩ := hstarts
    rw [hslash hfirst, List.nil_append] at hhead
    exact absurd (hmore _ hhead) (by decide)
  rw [skipTrivia, if_neg hblank.1, if_neg Bool.false_ne_true, if_neg hblank.2, if_neg hcomment]

/-- A lexeme is taken as it is if nothing follows it, or a blank. -/
theorem munch_lexeme {kind : Kind} {first : UInt8} {front more : List UInt8}
    (h : Lexeme kind (first :: front)) (hmore : ∀ byte ∈ more.head?, byte ∈ blanks) :
    munch first (front ++ more) = .lexeme kind front.length := by
  -- alone it is the longest lexeme, and a blank ends all lexemes that could be longer
  have halone : munch first (front ++ []) = .lexeme kind front.length := by
    refine munch_of_longest ⟨?_, ⟨kind, h⟩, ?_⟩ h
    · exact List.prefix_append (first :: front) []
    · intro other hother _
      rw [List.append_nil] at hother
      exact hother.length_le
  rw [List.append_nil] at halone
  cases more with
  | nil => rw [List.append_nil, halone]
  | cons last more => exact (munch_append halone (hmore last rfl) more).1

/-- A lexeme in front of more of them. -/
theorem scans_cons {kind : Kind} {first : UInt8} {front more : List UInt8} {tokens : List Token}
    (h : Lexeme kind (first :: front)) (hmore : ∀ byte ∈ more.head?, byte ∈ blanks) (line : Nat)
    (hscans : Scans (tokenAt line kind (first :: front)).line more tokens) :
    Scans line (first :: front ++ more) (tokenAt line kind (first :: front) :: tokens) := by
  have hrest : Scans (tokenAt line kind (first :: (front ++ more).take front.length)).line
      ((front ++ more).drop front.length) tokens := by
    rwa [List.take_left, List.drop_left]
  have hcons := Scans.lexeme (skipTrivia_lexeme h hmore line) (munch_lexeme h hmore) hrest
  rwa [List.take_left] at hcons

/-! ## Tokens

Each token is scanned from its own lexeme, wherever it stood. -/

/-- The token is cut out of a script as a lexeme. -/
def IsCut (token : Token) : Prop :=
  ∃ line, IsToken line (encode token.lexeme) token

/-- Every token but the last is cut from the text. -/
theorem isCut_of_scans {line : Nat} {bytes : List UInt8} {tokens : List Token}
    (h : Scans line bytes tokens) (htext : IsText bytes) :
    ∀ token ∈ tokens, token.kind ≠ .eof → IsCut token := by
  induction h with
  | eof _ =>
    rw [List.forall_mem_singleton]
    exact fun hkind => absurd rfl hkind
  | @lexeme line start count bytes rest first kind tokens hskip hmunch _ ih =>
    obtain ⟨htoken, hrest⟩ := isToken_of_munch htext hskip hmunch
    rw [List.forall_mem_cons]
    refine ⟨fun _ => ⟨start, ?_⟩, ih hrest⟩
    rw [htoken.lexeme]
    exact htoken

/-- The lexeme determines a token up to its line. -/
theorem eqUpToLine_tokenAt {token : Token} {line : Nat}
    (h : IsToken line (encode token.lexeme) token) (line' : Nat) :
    token.EqUpToLine (tokenAt line' token.kind (encode token.lexeme)) := by
  refine ⟨rfl, (sliceText_encode token.lexeme).symm, ?_⟩
  show token.literal = (tokenAt line token.kind (encode token.lexeme)).literal
  rw [← eq_tokenAt h]

/-- However lexemes are spaced, the scanner finds them again. -/
theorem exists_scans {body : List Token} (hbody : ∀ token ∈ body, IsCut token) {text : String}
    (h : Spaced (body.map Token.lexeme) text) (line : Nat) :
    ∃ found last, Scans line (encode text) (found ++ [.eof last]) ∧
      List.Forall₂ Token.EqUpToLine body found := by
  -- the lines of the tokens found depend on the separators before them
  induction body generalizing text line with
  | nil =>
    cases h
    exact ⟨[], line, .eof rfl, .nil⟩
  | cons token body ih =>
    rw [List.forall_mem_cons] at hbody
    obtain ⟨⟨_, htoken⟩, hbody⟩ := hbody
    obtain ⟨first, front, hlexeme⟩ := List.exists_cons_of_ne_nil (ne_nil_of_lexeme htoken.kind)
    have hkind := htoken.kind
    rw [hlexeme] at hkind
    have hsame := eqUpToLine_tokenAt htoken line
    rw [hlexeme] at hsame
    generalize hlexemes : (token :: body).map Token.lexeme = written at h
    cases h with
    | nil => cases hlexemes
    | single =>
      obtain ⟨rfl, hnone⟩ := List.cons.inj hlexemes
      obtain rfl := List.map_eq_nil_iff.mp hnone
      have hnothing : ∀ byte ∈ ([] : List UInt8).head?, byte ∈ blanks := by simp
      have hcons := scans_cons hkind hnothing line (.eof rfl)
      rw [List.append_nil, ← hlexeme] at hcons
      exact ⟨_, _, hcons, .cons (hlexeme ▸ hsame) .nil⟩
    | @cons lexeme next separator text others hseparator hspaced =>
      obtain ⟨rfl, hothers⟩ := List.cons.inj hlexemes
      obtain ⟨⟨last, more, hblank, hmem⟩, line', hskip⟩ :=
        hseparator.exists_scans text (tokenAt line token.kind (first :: front)).line
      obtain ⟨found, last, hscans, hfound⟩ := ih hbody (hothers ▸ hspaced) line'
      refine ⟨_ :: found, last, ?_, .cons hsame hfound⟩
      have hcons := scans_cons hkind (by rw [hblank]; simpa using hmem) line (hskip _ hscans)
      rw [encode_append, hlexeme]
      exact hcons

/-- **Re-spacing a script keeps its tokens.** The lexemes of a script that the scanner accepts can
be written down in order with any separators between them: the scanner accepts the result, and its
tokens have the same kinds, lexemes and literals. -/
theorem scan_respaced {source text : String} {tokens : List Token}
    (h : Token.scan source = .ok tokens) (hspaced : Spaced (lexemes tokens) text) :
    ∃ tokens', Token.scan text = .ok tokens' ∧ List.Forall₂ Token.EqUpToLine tokens tokens' := by
  have hscans := scans_of_scan h
  obtain ⟨body, last, rfl, hkinds, -⟩ := hscans.exists_eof
  have hbody : ∀ token ∈ body, IsCut token := by
    intro token hmem
    exact isCut_of_scans hscans ⟨source, rfl⟩ token (List.mem_append_left _ hmem)
      (hkinds token hmem)
  have hlexemes : lexemes (body ++ [.eof last]) = body.map Token.lexeme := by
    unfold lexemes
    have hfilter : body.filter (·.kind ≠ .eof) = body :=
      List.filter_eq_self.mpr fun token hmem => by simpa using hkinds token hmem
    rw [List.filter_append, hfilter]
    simp [Token.eof]
  rw [hlexemes] at hspaced
  obtain ⟨found, last', hfound, hsame⟩ := exists_scans hbody hspaced 1
  refine ⟨found ++ [.eof last'], scan_of_scans hfound, ?_⟩
  exact List.rel_append hsame (.cons ⟨rfl, rfl, rfl⟩ .nil)

/-- A slash stays a slash in front of a comment, and a string keeps the slashes in it. -/
theorem scan_respaced_slashes :
    ∃ tokens tokens', Token.scan "a=\"//\"/b" = .ok tokens ∧
      Spaced (lexemes tokens) "a // =\n=\t\"//\"\n/ //\nb" ∧
      Token.scan "a // =\n=\t\"//\"\n/ //\nb" = .ok tokens' ∧
      List.Forall₂ Token.EqUpToLine tokens tokens' := by
  have hfound : (Token.scan "a=\"//\"/b").map lexemes = .ok ["a", "=", "\"//\"", "/", "b"] := by
    decide +kernel
  cases hscan : Token.scan "a=\"//\"/b" with
  | error e =>
    rw [hscan] at hfound
    cases hfound
  | ok tokens =>
    rw [hscan] at hfound
    have hlexemes : lexemes tokens = ["a", "=", "\"//\"", "/", "b"] := Except.ok.inj hfound
    have hblank : ∀ c ∈ [' ', '\r', '\t', '\n'], Separator (String.singleton c) := fun c hc =>
      ⟨c, [], String.toList_singleton c, hc, .nil⟩
    have hcomment : ∀ body, '\n' ∉ body →
        Separator (String.ofList (' ' :: '/' :: '/' :: (body ++ ['\n']))) := fun body hbody =>
      ⟨' ', _, String.toList_ofList, by decide, .comment hbody .nil⟩
    -- comments between the lexemes, and slashes inside one of them
    have hspaced : Spaced (lexemes tokens) "a // =\n=\t\"//\"\n/ //\nb" := by
      have htext : "a // =\n=\t\"//\"\n/ //\nb" = "a" ++ (" // =\n" ++ ("=" ++ ("\t" ++
          ("\"//\"" ++ ("\n" ++ ("/" ++ (" //\n" ++ "b"))))))) := by
        decide
      rw [htext, hlexemes]
      exact .cons (hcomment [' ', '='] (by decide)) (.cons (hblank '\t' (by decide))
        (.cons (hblank '\n' (by decide)) (.cons (hcomment [] (by decide)) .single)))
    obtain ⟨tokens', hscan', hsame⟩ := scan_respaced hscan hspaced
    exact ⟨tokens, tokens', rfl, hspaced, hscan', hsame⟩

end StackScript.Respacing
