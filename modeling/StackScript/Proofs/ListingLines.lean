import StackScript.Proofs.Bytecode.Entries
import StackScript.Proofs.Machine.Concatenation
import StackScript.Proofs.Token.Respacing
import StackScript.Proofs.Tree.CodeLiterals

/-!
# The lines of a listing

A listing shows constants as they are. A string literal may go on over several lines, and then the
entry of the instruction that loads it does so as well. Nothing else in a listing breaks a line: the
names of variables are words, and all the rest are numbers, mnemonics and blanks.

* **`Chunk.Rows`**: the lines of the entries of some instructions.
* **`exists_rows`**: a listing is its heading and such lines.
* **`sum_breaks`**: the lines are broken where the string literals of the script are.
* **`listing_lines`**: how many lines a listing has, and when there is one for each instruction.
-/

namespace StackScript

open Tiling (newlines newlines_append)
open Instruction (located offsets constantIndices)

/-! ## Texts on one line

All parts of an entry other than strings are written without a line break. -/

theorem newlines_ofList (chars : List Char) :
    newlines (String.ofList chars) = chars.count '\n' := by
  rw [newlines, String.toList_ofList]

/-- No newline is counted if there is none. -/
theorem newlines_eq_zero {text : String} : newlines text = 0 ↔ '\n' ∉ text.toList :=
  List.count_eq_zero

/-- A digit is no newline. -/
theorem count_newline_toDigits (n : Nat) : (Nat.toDigits 10 n).count '\n' = 0 := by
  refine List.count_eq_zero.mpr fun hmem => ?_
  have hdigit := Nat.isDigit_of_mem_toDigits (by decide) (by decide) hmem
  revert hdigit
  decide

/-- Natural numbers are written on one line. -/
theorem newlines_toString (n : Nat) : newlines (toString n) = 0 := by
  rw [Nat.toString_eq_ofList_toDigits, newlines_ofList, count_newline_toDigits]

theorem newlines_intToString (n : Int) : newlines (toString n) = 0 := by
  cases n with
  | ofNat n => exact newlines_toString n
  | negSucc n =>
    show newlines ("-" ++ toString n.succ) = 0
    rw [newlines_append, newlines_toString]
    decide

/-- So are decimals, with all their zeros. -/
theorem newlines_positional (d : Decimal) : newlines d.positional = 0 := by
  have hdigits := List.count_eq_zero.mp (count_newline_toDigits d.coefficient)
  have hzeros : ∀ n, '\n' ∉ List.replicate n '0' := fun n hmem =>
    absurd (List.eq_of_mem_replicate hmem) (by decide)
  rw [newlines_eq_zero]
  unfold Decimal.positional
  dsimp only
  split
  · simp [hdigits, hzeros]
  · split
    · rw [String.toList_ofList, List.mem_append, List.mem_cons]
      rintro (hmem | hmem | hmem)
      · exact hdigits (List.mem_of_mem_take hmem)
      · exact absurd hmem (by decide)
      · exact hdigits (List.mem_of_mem_drop hmem)
    · simp [hdigits, hzeros]

/-- A number is shown on one line. -/
theorem newlines_numberText (x : Float) : newlines (numberText x) = 0 := by
  unfold numberText
  have hsign : newlines (if x.toBits &&& Decimal.signBit = 0 then "" else "-") = 0 := by
    split <;> decide
  dsimp only
  split
  · decide
  · rw [newlines_append, hsign]
    decide
  · split
    · rw [newlines_append, hsign]
      decide
    · rw [newlines_append, hsign, newlines_positional]

namespace Chunk

variable {c : Chunk}

/-- What fills a column is no newline. -/
theorem newlines_padLeft {fill : Char} (h : fill ≠ '\n') (width : Nat) (text : String) :
    newlines (padLeft width fill text) = newlines text := by
  rw [padLeft, newlines_append, newlines_ofList, List.count_replicate, if_neg (by simpa using h),
    Nat.zero_add]

/-- Names of opcodes are words. -/
theorem newlines_mnemonic (op : Opcode) : newlines op.mnemonic = 0 := by
  cases op <;> decide

theorem newlines_columns (i : Instruction) (number : Nat) : newlines (columns i number) = 0 := by
  rw [columns, newlines_append, newlines_append, newlines_padLeft (by decide), newlines_toString,
    padRight, newlines_append, newlines_mnemonic, newlines_ofList, List.count_replicate,
    if_neg (by decide)]
  decide

theorem newlines_margin (c : Chunk) (offset : Nat) : newlines (c.margin offset) = 0 := by
  have hline : newlines (if 0 < offset ∧ c.line offset = c.line (offset - 1) then "   |"
      else padLeft 4 ' ' (toString (c.line offset))) = 0 := by
    split
    · decide
    · rw [newlines_padLeft (by decide), newlines_toString]
  rw [margin, newlines_append, newlines_append, newlines_append, newlines_padLeft (by decide),
    newlines_toString, hline]
  decide

/-! ## Lines of entries

An entry begins with its offset and takes one more line for each newline in the string it shows. -/

/-- How often a line is broken inside the constant that the instruction uses. -/
def breaks (c : Chunk) (i : Instruction) : Nat :=
  newlines (c.constantNote i)

/-- The line of an entry starts with the offset in four digits or more. -/
def StartsAt (offset : Nat) (line : List Char) : Prop :=
  (padLeft 4 '0' (toString offset)).toList <+: line

/-- The lines of the entries of some instructions: each has a line that starts with its offset, and
one more for each time that this line is broken. -/
inductive Rows (c : Chunk) : List (Nat × Instruction) → List (List Char) → Prop where
  | nil : Rows c [] []
  | cons {offset : Nat} {i : Instruction} {first : List Char} {more lines : List (List Char)}
      {rest : List (Nat × Instruction)} :
    StartsAt offset first → more.length = c.breaks i → Rows c rest lines →
      Rows c ((offset, i) :: rest) (first :: more ++ lines)

/-- All the newlines of an entry are in the constant that it shows. -/
theorem newlines_of_shows {offset : Nat} {i : Instruction} {text : String}
    (h : c.Shows offset i text) :
    ∃ rest, text = c.margin offset ++ rest ∧ newlines rest = c.breaks i := by
  unfold Shows at h
  cases i with
  | getLocal slot | setLocal slot | constant index | getGlobal index | defineGlobal index
  | setGlobal index => exact ⟨_, h, by rw [newlines_append, newlines_columns, Nat.zero_add]; rfl⟩
  | jump distance | jumpIfFalse distance | loop distance =>
    refine ⟨_, h, ?_⟩
    rw [newlines_append, newlines_append, newlines_columns, newlines_intToString]
    rfl
  | _ => exact ⟨_, h, newlines_mnemonic _⟩

/-- A text is split into one line more than it has newlines, and a start without newlines is part of
the first line. -/
theorem exists_splitOn {start : List Char} (h : '\n' ∉ start) (rest : List Char) :
    ∃ first more, (start ++ rest).splitOn '\n' = first :: more ∧ start <+: first ∧
      more.length = rest.count '\n' := by
  induction start with
  | nil =>
    -- without a start it remains to count the lines
    induction rest with
    | nil => exact ⟨[], [], List.splitOn_nil _, List.prefix_refl _, rfl⟩
    | cons c rest ih =>
      obtain ⟨first, more, hsplit, -, hlength⟩ := ih
      rw [List.nil_append] at hsplit ⊢
      rw [List.splitOn_cons_eq_if_modifyHead, hsplit, List.count_cons]
      split
      · exact ⟨[], first :: more, rfl, List.prefix_refl _, congrArg (· + 1) hlength⟩
      · exact ⟨c :: first, more, rfl, List.nil_prefix, hlength⟩
  | cons c start ih =>
    rw [List.mem_cons, not_or] at h
    obtain ⟨first, more, hsplit, hstart, hlength⟩ := ih h.2
    refine ⟨c :: first, more, ?_, List.cons_prefix_cons.mpr ⟨rfl, hstart⟩, hlength⟩
    rw [List.cons_append, List.splitOn_cons_eq_if_modifyHead, hsplit,
      if_neg (by simpa using Ne.symm h.1)]
    rfl

/-- A newline separates the lines before it from those after it. -/
theorem splitOn_newline (text more : String) :
    (text ++ ("\n" ++ more)).toList.splitOn '\n' =
      text.toList.splitOn '\n' ++ more.toList.splitOn '\n' := by
  have hnewline : ("\n" ++ more).toList = '\n' :: more.toList := by
    rw [String.toList_append]
    rfl
  rw [String.toList_append, hnewline, List.splitOn_append_cons_self]

theorem exists_rows_of_shows {entries : List (Nat × Instruction)}
    (h : ∀ t i, (t, i) ∈ entries → c.Shows t i (c.entry t).1) :
    ∃ lines, c.Rows entries lines ∧
      (String.join ((entries.map (·.1)).map fun t => (c.entry t).1 ++ "\n")).toList.splitOn '\n' =
        lines ++ [[]] := by
  induction entries with
  | nil => exact ⟨[], .nil, List.splitOn_nil _⟩
  | cons entry entries ih =>
    obtain ⟨t, i⟩ := entry
    obtain ⟨lines, hrows, hlines⟩ := ih fun t j hj => h t j (List.mem_cons_of_mem _ hj)
    obtain ⟨rest, hrest, hbreaks⟩ := newlines_of_shows (h t i List.mem_cons_self)
    obtain ⟨first, more, hsplit, hstart, hlength⟩ :=
      exists_splitOn (newlines_eq_zero.mp (c.newlines_margin t)) rest.toList
    refine ⟨first :: more ++ lines, .cons ?_ (hlength.trans hbreaks) hrows, ?_⟩
    · refine List.IsPrefix.trans ?_ hstart
      rw [margin, String.toList_append, String.toList_append, String.toList_append,
        List.append_assoc, List.append_assoc]
      exact List.prefix_append ..
    · -- the newline after the entry ends its last line
      rw [← String.toList_append, ← hrest] at hsplit
      rw [List.map_cons, List.map_cons, String.join_cons, String.append_assoc, splitOn_newline,
        hsplit, hlines, List.append_assoc]

/-- The first line of a listing. -/
def heading (name : String) : String :=
  "== " ++ name ++ " =="

/-- Under its heading a listing has the lines of its entries. Nothing follows the last newline. -/
theorem exists_rows {ops : List Instruction} (hlists : c.Lists ops []) {name : String}
    (hname : '\n' ∉ name.toList) :
    ∃ lines, c.Rows (located 0 ops) lines ∧
      (c.listing name).toList.splitOn '\n' = (heading name).toList :: (lines ++ [[]]) := by
  obtain ⟨lines, hrows, hlines⟩ := exists_rows_of_shows hlists.2
  refine ⟨lines, hrows, ?_⟩
  have hheading : '\n' ∉ (heading name).toList := by
    rw [← newlines_eq_zero, heading, newlines_append, newlines_append, newlines_eq_zero.mpr hname]
    decide
  have htext : c.listing name =
      heading name ++ ("\n" ++
        String.join ((c.entryOffsets 0).map fun t => (c.entry t).1 ++ "\n")) := by
    have hend : " ==\n" = " ==" ++ "\n" := by decide
    rw [listing, entriesFrom_eq_join, hend, heading]
    simp only [String.append_assoc]
  rw [htext, hlists.1, List.append_nil, splitOn_newline, List.splitOn_eq_singleton hheading,
    offsets, hlines]
  rfl

namespace Rows

variable {entries : List (Nat × Instruction)} {lines : List (List Char)}

/-- One line for each entry, and one more for each line break. -/
theorem length_eq (h : c.Rows entries lines) :
    lines.length = entries.length + (entries.map fun entry => c.breaks entry.2).sum := by
  induction h with
  | nil => rfl
  | cons _ hmore _ ih =>
    simp only [List.length_append, List.length_cons, List.map_cons, List.sum_cons]
    omega

/-- There is one line for each instruction if and only if no line is broken. -/
theorem forall₂_iff (h : c.Rows entries lines) :
    List.Forall₂ StartsAt (entries.map (·.1)) lines ↔
      (entries.map fun entry => c.breaks entry.2).sum = 0 := by
  constructor
  · intro hall
    have hlength := hall.length_eq
    rw [List.length_map, h.length_eq] at hlength
    omega
  · intro hsum
    induction h with
    | nil => exact .nil
    | cons hfirst hmore _ ih =>
      rw [List.map_cons, List.sum_cons, Nat.add_eq_zero_iff] at hsum
      rw [hsum.1, List.length_eq_zero_iff] at hmore
      subst hmore
      exact .cons hfirst (ih hsum.2)

end Rows

end Chunk

/-! ## Line breaks in a script

Only string literals can hold a newline: all other tokens are cut from the text without one. -/

open Respacing (IsCut isCut_of_scans)

/-- Operators, words and numbers have no newline in them. -/
theorem newlines_of_isCut {token : Token} (h : IsCut token) (hkind : token.kind ≠ .string) :
    newlines token.lexeme = 0 := by
  obtain ⟨line, htoken⟩ := h
  rw [newlines, ← Text.count_newline_encode]
  exact List.count_eq_zero.mpr (htoken.kind.newline_not_mem hkind)

/-- The text of a string literal has the newlines of its lexeme, for a quote is none. -/
theorem newlines_stringValue {token : Token} (h : IsCut token) (hkind : token.kind = .string) :
    newlines token.stringValue = newlines token.lexeme := by
  obtain ⟨line, htoken⟩ := h
  have hdenotes := htoken.literal
  rw [hkind] at hdenotes
  generalize hliteral : token.literal = literal at hdenotes
  cases hdenotes with
  | @string body hbody =>
    have hvalue : token.stringValue = body := by rw [Token.stringValue, hliteral]
    have hquote : [Scanner.quote].count Scanner.newline = 0 := by decide
    rw [hvalue, newlines, newlines, ← Text.count_newline_encode, ← Text.count_newline_encode, hbody,
      ← List.singleton_append, List.count_append, List.count_append, hquote, Nat.zero_add,
      Nat.add_zero]
  | other hstring _ => exact absurd rfl hstring

/-- How often a line is broken inside the string literals of a script. -/
def literalBreaks (tokens : List Token) : Nat :=
  (tokens.map fun token => if token.kind = .string then newlines token.lexeme else 0).sum

/-- No literal spans lines. -/
theorem literalBreaks_eq_zero {tokens : List Token} :
    literalBreaks tokens = 0 ↔
      ∀ token ∈ tokens, token.kind = .string → '\n' ∉ token.lexeme.toList := by
  rw [literalBreaks, List.sum_eq_zero_iff]
  constructor
  · intro h token hmem hkind
    have hzero := h _ (List.mem_map_of_mem hmem)
    rw [if_pos hkind] at hzero
    exact newlines_eq_zero.mp hzero
  · intro h n hn
    obtain ⟨token, hmem, rfl⟩ := List.mem_map.mp hn
    split
    · exact newlines_eq_zero.mpr (h token hmem ‹_›)
    · rfl

/-- The constants of a script break lines as its string literals do. -/
theorem sum_newlines_of_literals {tokens : List Token} {values : List Value}
    (h : Tree.Literals tokens values)
    (hcut : ∀ token ∈ tokens, token.kind ≠ .eof → IsCut token) :
    (values.map fun value => newlines value.display).sum = literalBreaks tokens := by
  unfold literalBreaks
  induction h with
  | nil => rfl
  | other hkind _ ih =>
    rw [List.forall_mem_cons] at hcut
    rw [List.map_cons, List.sum_cons, if_neg hkind, Nat.zero_add, ih hcut.2]
  | @number token value _ _ hkind _ ih =>
    rw [List.forall_mem_cons] at hcut
    have hvalue : newlines (Value.number value).display = 0 := newlines_numberText value
    rw [List.map_cons, List.sum_cons, List.map_cons, List.sum_cons, ih hcut.2, hvalue,
      if_neg (by simp [hkind])]
  | @string token _ _ hkind _ ih =>
    rw [List.forall_mem_cons] at hcut
    have hvalue : newlines (Value.string token.stringValue).display = newlines token.lexeme :=
      newlines_stringValue (hcut.1 (by simp [hkind])) hkind
    rw [List.map_cons, List.sum_cons, List.map_cons, List.sum_cons, ih hcut.2, hvalue,
      if_pos hkind]
  | @name token _ _ hkind _ ih =>
    rw [List.forall_mem_cons] at hcut
    -- a name is cut from the text without a newline
    have hvalue : newlines (Value.string token.lexeme).display = 0 :=
      newlines_of_isCut (hcut.1 (by simp [hkind])) (by simp [hkind])
    rw [List.map_cons, List.sum_cons, List.map_cons, List.sum_cons, ih hcut.2, hvalue,
      if_neg (by simp [hkind])]

/-! ## Listings of scripts

Each constant is used once, so its line breaks are counted once. -/

namespace Chunk

variable {c : Chunk}

/-- How often a line is broken inside a constant. -/
def constantBreaks (c : Chunk) (index : Nat) : Nat :=
  (c.constants[index]?).elim 0 fun value => newlines value.display

/-- The line breaks of an entry are those of its constant. -/
theorem breaks_of_constant {i : Instruction} {index : UInt8} (h : i.constant? = some index) :
    c.breaks i = c.constantBreaks index.toNat := by
  have hblank : newlines " " = 0 := by decide
  have hquote : newlines "'" = 0 := by decide
  rw [breaks, constantNote, h, constantBreaks]
  dsimp only
  rw [constantText, newlines_append, hblank, Nat.zero_add]
  cases c.constants[index.toNat]? with
  | none =>
    show newlines "<missing>" = 0
    decide
  | some value =>
    show newlines ("'" ++ value.display ++ "'") = newlines value.display
    rw [newlines_append, newlines_append, hquote, Nat.zero_add, Nat.add_zero]

/-- An entry without a constant is one line. -/
theorem breaks_of_none {i : Instruction} (h : i.constant? = none) : c.breaks i = 0 := by
  rw [breaks, constantNote, h]
  rfl

/-- The line breaks of all entries, counted by constants. -/
theorem sum_breaks_eq (ops : List Instruction) :
    (ops.map c.breaks).sum = ((constantIndices ops).map c.constantBreaks).sum := by
  induction ops with
  | nil => rfl
  | cons i ops ih =>
    unfold constantIndices at ih ⊢
    rw [List.map_cons, List.sum_cons, ih, List.filterMap_cons]
    cases hconstant : i.constant? with
    | none =>
      rw [breaks_of_none hconstant, Nat.zero_add]
      rfl
    | some index =>
      rw [breaks_of_constant hconstant]
      rfl

/-- Each constant is shown once, so the lines are broken where the constants are. -/
theorem sum_breaks {ops : List Instruction}
    (h : (constantIndices ops).Perm (List.range c.constants.size)) :
    (ops.map c.breaks).sum = (c.constants.toList.map fun value => newlines value.display).sum := by
  have hconstants : (List.range c.constants.size).map c.constantBreaks =
      c.constants.toList.map fun value => newlines value.display := by
    apply List.ext_getElem
    · simp
    · intro k hk hk'
      rw [List.length_map, List.length_range] at hk
      simp [constantBreaks, hk]
  rw [sum_breaks_eq, (h.map c.constantBreaks).sum_eq, hconstants]

end Chunk

namespace Script

open StackScript.Tree Compile

variable {source : String} {chunk : Chunk} {tokens : List Token}

/-- The lines of the listing of a script are broken as its string literals are. -/
theorem breaks_of_compile (h : compile source = .ok chunk)
    (hscan : Token.scan source = .ok tokens) :
    ∃ ops, chunk.instructions = .ok ops ∧
      ((located 0 ops).map fun entry => chunk.breaks entry.2).sum = literalBreaks tokens := by
  obtain ⟨script, last, htokens, -, hfits, rfl⟩ := compile_eq_ok_iff.mp h
  rw [hscan] at htokens
  obtain rfl := Except.ok.inj htokens
  have hwell := wellFormed_of_fits hfits
  refine ⟨_, hwell.instructions, ?_⟩
  rw [Instruction.map_located, Chunk.sum_breaks hwell.constants]
  -- the end of the script adds nothing to the pool
  have hliterals : Literals (script.tokens ++ [.eof last])
      (Chunk.empty.extend (script.program last)).constants.toList := by
    have hconstants : (Chunk.empty.extend (script.program last)).constants.toList =
        (script.lower [] 0).constants ++ [] := by
      simp [Chunk.extend, Chunk.empty, Decls.program]
    rw [hconstants]
    exact (script.literals [] 0).append (.other (by simp [Token.eof]) .nil)
  exact sum_newlines_of_literals hliterals
    (isCut_of_scans (scans_of_scan hscan) ⟨source, rfl⟩)

/-- **A listing has one line for each instruction, and one more for each line break in a string
literal.** Under the heading each instruction has a line that starts with its offset. Other lines
come only from the literals. So there is exactly one line for each instruction if and only if every
string literal of the script is on one line. -/
theorem listing_lines {name : String} (h : compile source = .ok chunk)
    (hname : '\n' ∉ name.toList) :
    ∃ tokens ops lines, Token.scan source = .ok tokens ∧ chunk.instructions = .ok ops ∧
      (chunk.listing name).toList.splitOn '\n' = (Chunk.heading name).toList :: (lines ++ [[]]) ∧
      chunk.Rows (located 0 ops) lines ∧
      lines.length = ops.length + literalBreaks tokens ∧
      (List.Forall₂ Chunk.StartsAt (offsets 0 ops) lines ↔
        ∀ token ∈ tokens, token.kind = .string → '\n' ∉ token.lexeme.toList) := by
  obtain ⟨script, last, hscan, -⟩ := compile_eq_ok_iff.mp h
  obtain ⟨ops, hops, hbreaks⟩ := breaks_of_compile h hscan
  obtain ⟨lines, hrows, hlines⟩ := Chunk.exists_rows (Chunk.lists_of_instructions hops) hname
  refine ⟨_, ops, lines, hscan, hops, hlines, hrows, ?_, ?_⟩
  · rw [hrows.length_eq, hbreaks, ← Instruction.length_offsets 0 ops, offsets, List.length_map]
  · rw [← literalBreaks_eq_zero, ← hbreaks]
    exact hrows.forall₂_iff

/-- A script whose only string stands on one line. -/
theorem listing_lines_one_line_string :
    ∃ chunk ops lines, compile "print \"a\";" = .ok chunk ∧ chunk.instructions = .ok ops ∧
      '\n' ∉ "code".toList ∧
      (chunk.listing "code").toList.splitOn '\n' =
        (Chunk.heading "code").toList :: (lines ++ [[]]) ∧
      List.Forall₂ Chunk.StartsAt (offsets 0 ops) lines := by
  have hname : '\n' ∉ "code".toList := by decide
  obtain ⟨chunk, hchunk⟩ : ∃ chunk, compile "print \"a\";" = .ok chunk :=
    exists_ok_of_isOk (by decide +kernel)
  obtain ⟨tokens, ops, lines, hscan, hops, hlines, -, -, hiff⟩ := listing_lines hchunk hname
  have hone : ∀ tokens ∈ (Token.scan "print \"a\";").toOption,
      ∀ token ∈ tokens, token.kind = .string → '\n' ∉ token.lexeme.toList := by
    decide +kernel
  have hall := hiff.mpr (hone tokens (by rw [hscan]; rfl))
  exact ⟨chunk, ops, lines, hchunk, hops, hname, hlines, hall⟩

/-- With a string literal on two lines there is more than one line for each instruction. -/
theorem two_line_string_breaks_listing :
    ∃ chunk ops, compile "print \"a\nb\";" = .ok chunk ∧ chunk.instructions = .ok ops ∧
      ¬ ∃ first lines, (chunk.listing "code").toList.splitOn '\n' = first :: (lines ++ [[]]) ∧
        List.Forall₂ Chunk.StartsAt (offsets 0 ops) lines := by
  obtain ⟨chunk, hchunk⟩ : ∃ chunk, compile "print \"a\nb\";" = .ok chunk :=
    exists_ok_of_isOk (by decide +kernel)
  obtain ⟨script, last, hscan, -⟩ := compile_eq_ok_iff.mp hchunk
  obtain ⟨ops, hops, hbreaks⟩ := breaks_of_compile hchunk hscan
  have hname : '\n' ∉ "code".toList := by decide
  obtain ⟨lines, hrows, hlines⟩ := Chunk.exists_rows (Chunk.lists_of_instructions hops) hname
  have hbroken : ∀ tokens ∈ (Token.scan "print \"a\nb\";").toOption, literalBreaks tokens ≠ 0 := by
    decide +kernel
  refine ⟨chunk, ops, hchunk, hops, ?_⟩
  rintro ⟨first, lines', hlines', hall⟩
  rw [hlines] at hlines'
  obtain ⟨-, hsame⟩ := List.cons.inj hlines'
  obtain rfl := List.append_cancel_right hsame
  -- with one line for each instruction no literal could be broken
  refine hbroken _ (by rw [hscan]; rfl) ?_
  rw [← hbreaks]
  exact hrows.forall₂_iff.mp hall

end Script

end StackScript
