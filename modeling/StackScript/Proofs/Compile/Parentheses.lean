import StackScript.Proofs.Compile.ScriptParsing
import StackScript.Proofs.Tree.Printing

/-!
# Precedence and associativity

Compiling an expression depends on nothing but its term. Whether the text has only the parentheses
that the grammar needs or one pair around every operation, it is accepted or rejected alike, and the
code is that of the term.

* **`TermFits`**: when a term can be compiled.
* **`yields_prints`**: what compiling a text of a term does, in any scope.
* **`expression_prints`**: the texts of a term are compiled alike.
-/

namespace StackScript

open StackScript.Tree

/-- The bytes of a piece of code do not depend on its lines. -/
theorem Lowering.bytes_eq_encode_ops (l : Lowering) :
    bytes l.code = l.ops.flatMap Instruction.encode := by
  unfold bytes ops
  rw [List.flatMap_map]

namespace Compile

/-- A term can be compiled: it does not use the local that has no value yet, its constants have room
after `base` others, and no operand is too long to be jumped over. -/
def TermFits (blocks : Blocks) (pending : Option String) (base : Nat) (t : Term) : Prop :=
  Unused pending t.names ∧ base + (t.constants blocks.flatten).length ≤ Chunk.maxConstants ∧
    ∀ d ∈ t.distances blocks.flatten base, d ≤ maxDistance

/-- Whether an expression fits depends on its term only. -/
theorem fits_iff_termFits {blocks : Blocks} {pending : Option String} {base : Nat} {e : Expr} :
    Fits blocks pending base e ↔ TermFits blocks pending base e.term := by
  unfold Fits TermFits Lowering.Limits
  rw [e.names_term, e.constants_lower, e.distances_lower]

/-- The compiler is about to read an expression, and the token after it does not continue it. The
scope has any blocks, and a local may be waiting for its value. -/
def AtExpression (bound : Nat) (blocks : Blocks) (pending : Option String) (e : Expr) (s : State) :
    Prop :=
  ∃ rest, Reading bound (.during blocks pending) e.tokens rest s ∧
    (nextKind rest).infixForm? = none ∧ nextKind rest ≠ .equal

section Prints

variable {bound : Nat} {blocks : Blocks} {pending : Option String} {p : Expr} {t : Term}
  {s : State}

/-- A text of a term appends the code of the term, and is rejected exactly if the term does not
fit. -/
theorem yields_prints (hp : p.Prints t) (h : AtExpression bound blocks pending p s) :
    ∃ s', Yields (expression bound) s () s' (TermFits blocks pending s.chunk.constants.size t) ∧
      s'.errors = s.errors ∧
      s'.chunk.code = s.chunk.code ++
        ((t.ops blocks.flatten s.chunk.constants.size).flatMap Instruction.encode).toArray ∧
      s'.chunk.constants = s.chunk.constants ++ (t.constants blocks.flatten).toArray := by
  obtain ⟨hgrouped, rfl⟩ := hp
  obtain ⟨rest, hreading, hcontinues, hequal⟩ := h
  have hstop : (nextKind rest).precedence < .assignment := by
    unfold Kind.precedence
    rw [hcontinues]
    decide
  have hyields := compiles_of_grouped hgrouped hreading p.assignment_le_level hstop
    fun _ => hequal
  refine ⟨s.through blocks p rest, hyields.congr fits_iff_termFits, rfl, ?_, ?_⟩
  · rw [← p.ops_lower, ← Lowering.bytes_eq_encode_ops]
    rfl
  · rw [← p.constants_lower]
    rfl

/-- Whether an expression compiles depends on its term only. -/
theorem exists_cleanly_iff (hp : p.Prints t) (h : AtExpression bound blocks pending p s) :
    (∃ s', Cleanly (expression bound) s () s') ↔
      TermFits blocks pending s.chunk.constants.size t := by
  obtain ⟨last, hyields, herrors, -, -⟩ := yields_prints hp h
  constructor
  · rintro ⟨s', hok, hsame⟩
    apply Classical.byContradiction
    intro hfits
    have hmore := (hyields.rejects hfits).size_lt hok
    omega
  · intro hfits
    exact ⟨last, hyields.clean hfits, by rw [herrors]⟩

/-- So does the code. -/
theorem code_of_cleanly (hp : p.Prints t) (h : AtExpression bound blocks pending p s) {s' : State}
    (hclean : Cleanly (expression bound) s () s') :
    s'.chunk.code = s.chunk.code ++
        ((t.ops blocks.flatten s.chunk.constants.size).flatMap Instruction.encode).toArray ∧
      s'.chunk.constants = s.chunk.constants ++ (t.constants blocks.flatten).toArray := by
  obtain ⟨last, hyields, -, hcode, hconstants⟩ := yields_prints hp h
  have hok := hyields.clean ((exists_cleanly_iff hp h).mp ⟨s', hclean⟩)
  rw [hclean.1] at hok
  cases hok
  exact ⟨hcode, hconstants⟩

end Prints

/-- **Precedence and associativity.** An expression can be written with the fewest parentheses and
with all of them. Both are texts of its term, all texts are sentences of the grammar, and none has
fewer parentheses than the first. Every text is compiled exactly if its term fits, to the code of
the term; so two texts are both accepted, with the same bytes and constants, or both rejected. -/
theorem expression_prints (e : Expr) (left : TokenOf .leftParen) (right : TokenOf .rightParen) :
    (e.withLeastParens left right).Prints e.term ∧
    (e.withAllParens left right).Prints e.term ∧
    (∀ p : Expr, p.Prints e.term →
      Derives (.ref .expression) p.kinds ∧
      (e.withLeastParens left right).kinds.Sublist p.kinds) ∧
    (∀ (p : Expr) (bound : Nat) (blocks : Blocks) (pending : Option String) (s : State),
      p.Prints e.term → AtExpression bound blocks pending p s →
      ((∃ s', Cleanly (expression bound) s () s') ↔
        TermFits blocks pending s.chunk.constants.size e.term) ∧
      ∀ s', Cleanly (expression bound) s () s' →
        s'.chunk.code = s.chunk.code ++
          ((e.term.ops blocks.flatten s.chunk.constants.size).flatMap
            Instruction.encode).toArray ∧
        s'.chunk.constants = s.chunk.constants ++ (e.term.constants blocks.flatten).toArray) ∧
    ∀ (p q : Expr) (bound bound' : Nat) (blocks : Blocks) (pending : Option String) (s t : State),
      p.Prints e.term → q.Prints e.term → AtExpression bound blocks pending p s →
      AtExpression bound' blocks pending q t → s.chunk = t.chunk →
      ((∃ s', Cleanly (expression bound) s () s') ↔ ∃ t', Cleanly (expression bound') t () t') ∧
      ∀ s' t', Cleanly (expression bound) s () s' → Cleanly (expression bound') t () t' →
        s'.chunk.code = t'.chunk.code ∧ s'.chunk.constants = t'.chunk.constants := by
  refine ⟨e.prints_withLeastParens, e.prints_withAllParens, ?_, ?_, ?_⟩
  · intro p hp
    refine ⟨derives_expression p hp.1, ?_⟩
    rw [e.kinds_withLeastParens, ← hp.2]
    exact (Expr.sublist_kinds hp.1).1
  · intro p bound blocks pending s hp hs
    exact ⟨exists_cleanly_iff hp hs, fun s' => code_of_cleanly hp hs⟩
  -- both texts are compared with the term
  · intro p q bound bound' blocks pending s t hp hq hs ht hchunk
    constructor
    · rw [exists_cleanly_iff hp hs, exists_cleanly_iff hq ht, hchunk]
    · intro s' t' hs' ht'
      obtain ⟨hcode, hconstants⟩ := code_of_cleanly hp hs hs'
      obtain ⟨hcode', hconstants'⟩ := code_of_cleanly hq ht ht'
      rw [hcode, hcode', hconstants, hconstants', hchunk]
      exact ⟨rfl, rfl⟩

/-- The expression `a = b - c - (d and e)`, of which no parentheses are part. -/
def mixed : Expr :=
  let name (text : String) : TokenOf .identifier := ⟨⟨.identifier, text, none, 1⟩, rfl⟩
  .assign (name "a") ⟨⟨.equal, "=", none, 1⟩, rfl⟩
    (.binary .subtract
      (.binary .subtract (.name (name "b")) ⟨⟨.minus, "-", none, 1⟩, rfl⟩ (.name (name "c")))
      ⟨⟨.minus, "-", none, 1⟩, rfl⟩
      (.and (.name (name "d")) ⟨⟨.andKw, "and", none, 1⟩, rfl⟩ (.name (name "e"))))

/-- The compiler in a block with a local `a`, before an expression and a semicolon. -/
def beforeSemicolon (p : Expr) : State :=
  { State.start (p.tokens ++ [⟨.semicolon, ";", none, 1⟩]) with scope := .ofBlocks [["a"]] }

/-- One pair of parentheses is needed; with three more pairs the code is the same. -/
theorem expression_prints_mixed :
    let left : TokenOf .leftParen := ⟨⟨.leftParen, "(", none, 1⟩, rfl⟩
    let right : TokenOf .rightParen := ⟨⟨.rightParen, ")", none, 1⟩, rfl⟩
    (mixed.withLeastParens left right).kinds =
      [.identifier, .equal, .identifier, .minus, .identifier, .minus,
        .leftParen, .identifier, .andKw, .identifier, .rightParen] ∧
    ∃ s' t', Cleanly (expression 20) (beforeSemicolon (mixed.withLeastParens left right)) () s' ∧
      Cleanly (expression 20) (beforeSemicolon (mixed.withAllParens left right)) () t' ∧
      s'.chunk.code = t'.chunk.code ∧ s'.chunk.constants = t'.chunk.constants := by
  intro left right
  obtain ⟨hleast, hall, -, hcompiles, hsame⟩ := expression_prints mixed left right
  have hat : ∀ p : Expr, p.tokens.length ≤ 19 →
      AtExpression 20 [["a"]] none p (beforeSemicolon p) := by
    intro p hlength
    exact ⟨_, ⟨rfl, Nat.succ_le_succ hlength, rfl, Nat.zero_le _⟩, rfl, nofun⟩
  have hfits : TermFits [["a"]] none 0 mixed.term :=
    ⟨fun _ => (nomatch ·), by decide, by decide⟩
  have hsl := hat (mixed.withLeastParens left right) (by decide)
  have hsa := hat (mixed.withAllParens left right) (by decide)
  obtain ⟨s', hs'⟩ := (hcompiles _ _ _ _ _ hleast hsl).1.mpr hfits
  obtain ⟨t', ht'⟩ := (hcompiles _ _ _ _ _ hall hsa).1.mpr hfits
  exact ⟨by decide, s', t', hs', ht', (hsame _ _ _ _ _ _ _ _ hleast hall hsl hsa rfl).2 _ _ hs' ht'⟩

end Compile

end StackScript
