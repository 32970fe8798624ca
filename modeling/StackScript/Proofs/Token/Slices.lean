import StackScript.Proofs.Token.Tiling

/-!
# Slices of a script

The scanner goes through the bytes of a script one by one, also through comments and strings where
any character may stand. All that it cuts out is cut between characters nevertheless: it stops only
at bytes that are characters of their own, and no byte of a longer character is one of those.

* **`IsSlice`**: a part of a script from one character to another.
* **`Reaches`**: what is left of a script from some character on; `Reaches.skipTrivia` and
  `Reaches.munch`: trivia and lexemes lead from one such place to another.
* **`next_slices`**: all slices that a call takes, after any number of calls.
-/

namespace StackScript.Scanner

open Text Lexical
open Tiling (exists_gap_text next_of_openString next_of_stranger)

/-- The text between two offsets of a script, both of them at the start of a character or at the
end of the script. -/
structure IsSlice (source : String) (start stop : Nat) (text : String) : Prop where
  start_isValid : String.Pos.Raw.IsValid source ⟨start⟩
  stop_isValid : String.Pos.Raw.IsValid source ⟨stop⟩
  le : start ≤ stop
  bytes : ((encode source).take stop).drop start = encode text

/-- The offset in the script of the bytes that are left. -/
def offset (source : String) (left : List UInt8) : Nat :=
  (encode source).length - left.length

/-- The scanner of a script after some calls. -/
def after (source : String) : (calls : Nat) → Scanner
  | 0 => start source
  | calls + 1 => (after source calls).next.2

/-! ## Offsets

Offsets count bytes. Those between two parts of a text are always at the start of a character. -/

/-- A text can be cut between two parts of it. -/
theorem isValid_append (before more : String) :
    String.Pos.Raw.IsValid (before ++ more) ⟨(encode before).length⟩ := by
  rw [String.Pos.Raw.isValid_iff_exists_append]
  refine ⟨before, more, rfl, ?_⟩
  ext
  simp [encode]

/-- The part in the middle is a slice. -/
theorem isSlice_append (before text more : String) :
    IsSlice (before ++ (text ++ more)) (encode before).length
      ((encode before).length + (encode text).length) text := by
  refine ⟨isValid_append before _, ?_, Nat.le_add_right _ _, ?_⟩
  · have hvalid := isValid_append (before ++ text) more
    rwa [encode_append, List.length_append, String.append_assoc] at hvalid
  · rw [encode_append, encode_append, List.take_length_add_append, List.take_left, List.drop_left]

/-- The offset of what is left counts what came before it. -/
theorem offset_append (before text : String) :
    offset (before ++ text) (encode text) = (encode before).length := by
  rw [offset, encode_append, List.length_append, Nat.add_sub_cancel]

/-! ## Places in a script

The places that the scanner gets to, which all lie between characters. -/

/-- The bytes are those of the script from some character on. -/
def Reaches (source : String) (left : List UInt8) : Prop :=
  ∃ before text, source = before ++ text ∧ encode text = left

/-- What is left at such a place is text. -/
theorem Reaches.isText {source : String} {left : List UInt8} (h : Reaches source left) :
    IsText left := by
  obtain ⟨_, text, -, htext⟩ := h
  exact ⟨text, htext⟩

/-- Skipping trivia leads to such a place. -/
theorem Reaches.skipTrivia {source : String} {left : List UInt8} (h : Reaches source left)
    (line : Nat) : Reaches source (skipTrivia false line left).2 := by
  obtain ⟨before, text, rfl, rfl⟩ := h
  obtain ⟨gap, rest, rfl, -, hskip⟩ := exists_gap_text line text
  refine ⟨before ++ gap, rest, (String.append_assoc ..).symm, ?_⟩
  rw [hskip]

/-- A lexeme is a part of the script. -/
theorem Reaches.munch {source : String} {first : UInt8} {rest : List UInt8} {kind : Kind}
    {count : Nat} (h : Reaches source (first :: rest))
    (hmunch : munch first rest = .lexeme kind count) :
    ∃ before lexeme more, source = before ++ (lexeme ++ more) ∧
      encode lexeme = first :: rest.take count ∧ encode more = rest.drop count := by
  obtain ⟨before, text, rfl, htext⟩ := h
  obtain ⟨lexeme, more, rfl, hlexeme, hmore⟩ := exists_append_of_munch htext hmunch
  exact ⟨before, lexeme, more, rfl, hlexeme, hmore⟩

/-- The character at the front is the one that the script goes on with. -/
theorem Reaches.firstChar? {source : String} {first : UInt8} {rest : List UInt8}
    (h : Reaches source (first :: rest)) :
    ∃ before c more, source = before ++ (String.singleton c ++ more) ∧
      encode (String.singleton c ++ more) = first :: rest ∧
      firstChar? (first :: rest) = some c := by
  obtain ⟨before, text, rfl, htext⟩ := h
  obtain ⟨c, more, rfl, hchar⟩ := exists_singleton_append htext
  refine ⟨before, c, more, rfl, htext, ?_⟩
  rw [← hchar]
  exact firstChar?_append c (encode more)

/-! ## Calls

A call of the scanner leads from one of these places to another. -/

/-- The scanner is between two characters, or it has ended. -/
def Between (source : String) (s : Scanner) : Prop :=
  s.ended = true ∨ Reaches source s.rest

/-- A call leads from one place between characters to another, or it is the last one. -/
theorem Between.next {source : String} {s : Scanner} (h : Between source s) :
    Between source s.next.2 := by
  obtain ⟨bytes, line, ended⟩ := s
  cases ended with
  | true => exact .inl rfl
  | false =>
    have hreaches : Reaches source bytes := h.resolve_left Bool.false_ne_true
    have hleft := hreaches.skipTrivia line
    cases hskip : Scanner.skipTrivia false line bytes with
    | mk start left =>
    rw [hskip] at hleft
    cases left with
    | nil =>
      rw [next_of_end hskip]
      exact .inl rfl
    | cons first rest =>
      cases hmunch : Scanner.munch first rest with
      | lexeme kind count =>
        rw [next_of_munch hskip hmunch]
        obtain ⟨before, lexeme, more, hsource, -, hmore⟩ := hleft.munch hmunch
        exact .inr ⟨before ++ lexeme, more, by rw [hsource, String.append_assoc], hmore⟩
      | openString =>
        -- an error may leave the scanner inside a character, but no call goes on from there
        rw [next_of_openString hskip hmunch]
        exact .inl rfl
      | stranger =>
        obtain ⟨_, c, _, -, -, hchar⟩ := hleft.firstChar?
        rw [next_of_stranger hskip hmunch hchar]
        exact .inl rfl

/-- By induction on the number of calls. -/
theorem between_after (source : String) (calls : Nat) : Between source (after source calls) := by
  induction calls with
  | zero => exact .inr ⟨"", source, String.empty_append.symm, rfl⟩
  | succ calls ih => exact ih.next

/-! ## Slices of a call

A token spans what the call has passed after the trivia. An unexpected character is the one at the
place where the trivia ends. -/

/-- Where an unexpected character is found. -/
theorem next_unexpected {s s' : Scanner} {c : Char} {line : Nat}
    (h : s.next = (some (.error (.unexpectedCharacter c line)), s')) :
    ∃ first rest, skipTrivia false s.line s.rest = (line, first :: rest) ∧
      c = (firstChar? (first :: rest)).getD (Char.ofUInt8 first) := by
  unfold next at h
  split at h
  · cases h
  dsimp only at h
  split at h
  · cases h
  · rename_i first rest hrest
    split at h
    · cases h
    · cases h
    · cases h
      exact ⟨first, rest, Prod.ext rfl hrest, rfl⟩

/-- A call that gives something comes before the end. -/
theorem ended_of_next_some {s s' : Scanner} {result : Except ScanError Token}
    (h : s.next = (some result, s')) : s.ended ≠ true := by
  intro hended
  unfold next at h
  rw [if_pos hended] at h
  cases h

/-- Only a string denotes a text, and that stands between its quotes. -/
theorem denotes_cases {text : String} {kind : Kind} {literal? : Option Literal}
    (h : Denotes text kind literal?) :
    (kind = .string ∧ ∃ body, literal? = some (.string body) ∧ text = "\"" ++ (body ++ "\"")) ∨
      (kind ≠ .string ∧ ∀ body, literal? ≠ some (.string body)) := by
  cases h with
  | @string body hbytes =>
    refine .inl ⟨rfl, body, rfl, encode_inj ?_⟩
    rw [hbytes, encode_append, encode_append]
    rfl
  | number hvalue => exact .inr ⟨by decide, by simp⟩
  | other hstring hnumber => exact .inr ⟨hstring, by simp⟩

section Call

variable {source : String} {s s' : Scanner}

/-- A lexeme is a slice, and so is what stands between the quotes of a string. -/
theorem isSlice_of_token {token : Token} (h : Between source s)
    (hnext : s.next = (some (.ok token), s')) (hkind : token.kind ≠ .eof) :
    let start := offset source (skipTrivia false s.line s.rest).2
    let stop := offset source s'.rest
    IsSlice source start stop token.lexeme ∧
      (token.kind = .string → ∃ body, token.literal = some (.string body) ∧
        IsSlice source (start + 1) (stop - 1) body) ∧
      (token.kind ≠ .string → ∀ body, token.literal ≠ some (.string body)) := by
  have hreaches : Reaches source s.rest := h.resolve_left (ended_of_next_some hnext)
  have hleft := hreaches.skipTrivia s.line
  rcases next_cases hnext with
    ⟨line, -, rfl, -⟩ | ⟨line, first, rest, kind, count, hskip, hmunch, htoken, rfl⟩
  · exact absurd rfl hkind
  have hgrammar := (isToken_of_munch hreaches.isText hskip hmunch).1
  rw [← htoken] at hgrammar
  rw [hskip] at hleft
  obtain ⟨before, lexeme, more, rfl, hlexeme, hmore⟩ := hleft.munch hmunch
  obtain rfl : lexeme = token.lexeme := encode_inj (hlexeme.trans hgrammar.lexeme.symm)
  -- the bytes that are left, before and behind the lexeme, are those of a rest of the script
  have hstart : offset (before ++ (token.lexeme ++ more)) (skipTrivia false s.line s.rest).2 =
      (encode before).length := by
    rw [hskip, ← List.take_append_drop count rest, ← List.cons_append, ← hlexeme, ← hmore,
      ← encode_append, offset_append]
  have hstop : offset (before ++ (token.lexeme ++ more)) (rest.drop count) =
      (encode before).length + (encode token.lexeme).length := by
    rw [← hmore, ← String.append_assoc, offset_append, encode_append, List.length_append]
  dsimp only
  rw [hstart, hstop]
  refine ⟨isSlice_append before token.lexeme more, ?_⟩
  rcases denotes_cases hgrammar.literal with ⟨hstring, body, hbody, htext⟩ | ⟨hne, hnone⟩
  · refine ⟨fun _ => ⟨body, hbody, ?_⟩, fun hne => absurd hstring hne⟩
    -- the quotes are one byte each
    have hslice := isSlice_append (before ++ "\"") body ("\"" ++ more)
    have hquote : (encode "\"").length = 1 := rfl
    have hlength : (encode token.lexeme).length = 1 + ((encode body).length + 1) := by
      rw [htext, encode_append, encode_append, List.length_append, List.length_append, hquote]
    have hsource : before ++ "\"" ++ (body ++ ("\"" ++ more)) =
        before ++ (token.lexeme ++ more) := by
      rw [htext]
      simp only [String.append_assoc]
    have hend : (encode before).length + 1 + (encode body).length =
        (encode before).length + (encode token.lexeme).length - 1 := by
      omega
    rwa [hsource, encode_append, List.length_append, hquote, hend] at hslice
  · exact ⟨fun hstring => absurd hstring hne, fun _ => hnone⟩

/-- An unexpected character is the one that the script goes on with. -/
theorem isSlice_of_unexpected {c : Char} {line : Nat} (h : Between source s)
    (hnext : s.next = (some (.error (.unexpectedCharacter c line)), s')) :
    ∃ more, IsSlice source (offset source (skipTrivia false s.line s.rest).2)
      (encode source).length (String.singleton c ++ more) := by
  have hreaches : Reaches source s.rest := h.resolve_left (ended_of_next_some hnext)
  have hleft := hreaches.skipTrivia s.line
  obtain ⟨first, rest, hskip, hc⟩ := next_unexpected hnext
  rw [hskip] at hleft ⊢
  obtain ⟨before, d, more, rfl, hbytes, hchar⟩ := hleft.firstChar?
  rw [hchar] at hc
  obtain rfl : c = d := hc
  have hslice := isSlice_append before (String.singleton c ++ more) ""
  rw [String.append_empty, ← List.length_append, ← encode_append] at hslice
  refine ⟨more, ?_⟩
  rw [← hbytes, offset_append]
  exact hslice

end Call

/-- **Scanning never splits a character.** After any number of calls on a script, the lexeme of
the token that the next call finds is a slice of the script that starts behind trivia and ends where
the scanner goes on, and a string is the slice between the quotes. Where a character is unexpected,
it is the one that the script goes on with behind trivia. All these slices start and end between
characters. -/
theorem next_slices (source : String) (calls : Nat) :
    let s := after source calls
    let start := offset source (skipTrivia false s.line s.rest).2
    let stop := offset source s.next.2.rest
    (∀ token, s.next.1 = some (.ok token) → token.kind ≠ .eof →
      IsSlice source start stop token.lexeme ∧
        (token.kind = .string → ∃ body, token.literal = some (.string body) ∧
          IsSlice source (start + 1) (stop - 1) body) ∧
        (token.kind ≠ .string → ∀ body, token.literal ≠ some (.string body))) ∧
    ∀ c line, s.next.1 = some (.error (.unexpectedCharacter c line)) →
      ∃ more, IsSlice source start (encode source).length (String.singleton c ++ more) := by
  have hbetween := between_after source calls
  refine ⟨fun token htoken hkind => ?_, fun c line herror => ?_⟩
  · exact isSlice_of_token hbetween (Prod.ext htoken rfl) hkind
  · exact isSlice_of_unexpected hbetween (Prod.ext herror rfl)

/-- A string of one character of two bytes, and the same character where nothing starts with it. -/
theorem next_slices_accents :
    IsSlice "\"é\" é" 0 4 "\"é\"" ∧ IsSlice "\"é\" é" 1 3 "é" ∧
      ∃ more, IsSlice "\"é\" é" 5 7 ("é" ++ more) := by
  have hstring : (after "\"é\" é" 0).next.1 =
      some (.ok ⟨.string, "\"é\"", some (.string "é"), 1⟩) := by
    rfl
  have hunexpected : (after "\"é\" é" 1).next.1 = some (.error (.unexpectedCharacter 'é' 1)) := by
    rfl
  obtain ⟨hlexeme, hbody, -⟩ := (next_slices "\"é\" é" 0).1 _ hstring (by decide)
  obtain ⟨body, hliteral, hbody⟩ := hbody rfl
  obtain ⟨rfl⟩ : "é" = body := by simpa using hliteral
  exact ⟨hlexeme, hbody, (next_slices "\"é\" é" 1).2 _ _ hunexpected⟩

end StackScript.Scanner
