import StackScript.Proofs.Compile.Progress
import StackScript.Proofs.Tree.Portability

/-!
# Two runs over a flat statement

A statement without blocks and branches, correct or not, ends at its only semicolon. How it is
compiled depends on the tokens up to there and on the scope. It does not depend on what comes
after the semicolon, nor on the code and the constants that are there already, as long as there is
room for more constants.

* **`Flat`**: the tokens of such a statement.
* **`Abreast`**: two states of the compiler at the same place of the same flat statement.
* **`InStep`**: two steps lead from such states to such states, or fail with the same error.
-/

namespace StackScript

/-! ## Flat statements

A flat statement has no statement inside it, so all its tokens but the last are plain. -/

/-- The kinds of tokens that a flat statement can have before its end. -/
def Kind.isPlain : Kind → Bool
  | .semicolon | .eof | .leftBrace | .rightBrace | .ifKw | .elseKw | .forKw | .whileKw => false
  | _ => true

/-- Tokens that end in their only semicolon, without blocks, branches and loops. -/
inductive Flat : List Token → Prop where
  | last {token : Token} : token.kind = .semicolon → Flat [token]
  | cons {token : Token} {rest : List Token} : token.kind.isPlain = true → Flat rest →
    Flat (token :: rest)

namespace Compile

/-! ## States abreast

A flat statement is compiled twice: in two states with other code, constants and locals before it.
The two runs pass the same tokens and append code of the same size. -/

/-- There is a constant and a slot for every word ahead, and for some more. -/
structure Room (spare : Nat) (s : State) : Prop where
  constants : s.chunk.constants.size + wordCount s.cursor.ahead + spare ≤ Chunk.maxConstants
  locals : s.scope.locals.length + wordCount s.cursor.ahead + spare ≤ Scope.maxLocals

/-- Two scripts that go on differently after the same flat statement, with the errors found in each
so far. The code before the statement may differ in size: with `gap` more bytes the one is as long
as the other with `gap'` more. -/
structure Fork where
  rest : List Token
  rest' : List Token
  gap : Nat
  gap' : Nat
  errors : List Error
  errors' : List Error

/-- More errors are found on both sides. -/
def Fork.report (k : Fork) (es : List Error) : Fork :=
  { k with errors := k.errors ++ es, errors' := k.errors' ++ es }

theorem Fork.report_nil (k : Fork) : k.report [] = k := by
  simp [Fork.report]

/-- Errors are reported one after the other. -/
theorem Fork.report_report (k : Fork) (es fs : List Error) :
    (k.report es).report fs = k.report (es ++ fs) := by
  simp [Fork.report]

/-- Inside a flat statement. -/
def Along (_ : Token) (left : List Token) : Prop :=
  Flat left

/-- Behind the semicolon of a flat statement. -/
def Past (previous : Token) (left : List Token) : Prop :=
  left = [] ∧ previous.kind = .semicolon

/-- Inside a flat statement or behind it. -/
def Within (previous : Token) (left : List Token) : Prop :=
  Along previous left ∨ Past previous left

/-- The states of two scripts at the same place of the statement they share. Which place that is
says `P`, of the token passed last and of what is left of the statement. -/
structure Abreast (k : Fork) (P : Token → List Token → Prop) (spare : Nat) (s s' : State) :
    Prop where
  cursor : ∃ left, P s.cursor.previous left ∧ s.cursor.ahead = left ++ k.rest ∧
    s'.cursor = ⟨s.cursor.previous, left ++ k.rest'⟩
  scope : s'.scope = s.scope
  size : s.chunk.size + k.gap = s'.chunk.size + k.gap'
  errors : s.errors.toList = k.errors
  errors' : s'.errors.toList = k.errors'
  room : Room spare s
  room' : Room spare s'

/-- How two steps end that keep in step: with related values and with the given jumps still open,
or with the same error. -/
inductive Concur (k : Fork) (Q : Token → List Token → Prop) (spare : Nat) {α : Type}
    (V : α → α → Prop) (jumps jumps' : List Nat) :
    EStateM.Result Error State α → EStateM.Result Error State α → Prop where
  | ok {a a' : α} {t t' : State} : V a a' → Abreast k Q spare t t' → t.openJumps = jumps →
    t'.openJumps = jumps' → Concur k Q spare V jumps jumps' (.ok a t) (.ok a' t')
  | error (e : Error) {t t' : State} : Abreast k Within 0 t t' →
    Concur k Q spare V jumps jumps' (.error e t) (.error e t')

/-- From states at the place `P`, with some constants to spare, two steps come to the place `Q`.
They leave no jump open. -/
def InStep (k : Fork) (P : Token → List Token → Prop) (spare : Nat)
    (Q : Token → List Token → Prop) (spare' : Nat) {α : Type} (V : α → α → Prop)
    (x y : CompileM α) : Prop :=
  ∀ ⦃s s' : State⦄, Abreast k P spare s s' →
    Concur k Q spare' V s.openJumps s'.openJumps (x s) (y s')

section Abreast

variable {k : Fork} {P Q R : Token → List Token → Prop} {n m l : Nat} {s s' : State}

/-- Both have passed the same token last. -/
theorem Abreast.previous_eq (h : Abreast k P n s s') : s'.cursor.previous = s.cursor.previous := by
  obtain ⟨left, _, _, hcursor⟩ := h.cursor
  rw [hcursor]

/-- Room for some constants is room for fewer. -/
theorem Room.mono (h : Room n s) (hle : m ≤ n) : Room m s where
  constants := Nat.le_trans (Nat.add_le_add_left hle _) h.constants
  locals := Nat.le_trans (Nat.add_le_add_left hle _) h.locals

/-- A weaker condition on the tokens, and room for fewer constants. -/
theorem Abreast.mono (h : Abreast k P n s s') (hPQ : ∀ p left, P p left → Q p left)
    (hle : m ≤ n) : Abreast k Q m s s' where
  cursor := by
    obtain ⟨left, hP, hrest⟩ := h.cursor
    exact ⟨left, hPQ _ _ hP, hrest⟩
  scope := h.scope
  size := h.size
  errors := h.errors
  errors' := h.errors'
  room := h.room.mono hle
  room' := h.room'.mono hle

/-- Before the end of the statement is inside of it. -/
theorem Abreast.within_of_along (h : Abreast k Along n s s') : Abreast k Within 0 s s' :=
  h.mono (fun _ _ => .inl) (Nat.zero_le n)

/-- So is the place right after it. -/
theorem Abreast.within_of_past (h : Abreast k Past n s s') : Abreast k Within 0 s s' :=
  h.mono (fun _ _ => .inr) (Nat.zero_le n)

/-- Code takes up room for the constants that it brings. -/
theorem Room.append (h : Room n s) {code : Lowering} (hn : code.constants.length + m ≤ n) :
    Room m (s.append code) where
  constants := by
    have := h.constants
    simp only [State.chunk_append, Chunk.size_constants_extend, State.cursor_append]
    omega
  locals := by
    have := h.locals
    simp only [State.scope_append, State.cursor_append]
    omega

/-- Code of the same size is appended on both sides. -/
theorem Abreast.append (h : Abreast k P n s s') {code code' : Lowering}
    (hsize : code'.size = code.size) (hn : code.constants.length + m ≤ n)
    (hn' : code'.constants.length + m ≤ n) :
    Abreast k P m (s.append code) (s'.append code') where
  cursor := h.cursor
  scope := h.scope
  size := by
    have := h.size
    simp only [State.chunk_append, Chunk.size_extend]
    omega
  errors := h.errors
  errors' := h.errors'
  room := h.room.append hn
  room' := h.room'.append hn'

/-- A word that is passed makes room for one more constant. -/
theorem Room.past {token : Token} {more : List Token} (h : Room n s)
    (hahead : s.cursor.ahead = token :: more) :
    Room (n + token.kind.isWord.toNat) (s.past token more) where
  constants := by
    have := h.constants
    rw [hahead, wordCount_cons] at this
    simp only [State.chunk_past, State.cursor_past]
    omega
  locals := by
    have := h.locals
    rw [hahead, wordCount_cons] at this
    simp only [State.scope_past, State.cursor_past]
    omega

/-- Both sides pass the next token, which is the semicolon or one before it. -/
theorem Abreast.next (h : Abreast k Along n s s') :
    ∃ token left, s.cursor.ahead = token :: (left ++ k.rest) ∧
      s'.cursor.ahead = token :: (left ++ k.rest') ∧
      (token.kind = .semicolon ∧ Abreast k Past n (s.past token (left ++ k.rest))
          (s'.past token (left ++ k.rest')) ∨
        token.kind.isPlain = true ∧ Abreast k Along (n + token.kind.isWord.toNat)
          (s.past token (left ++ k.rest)) (s'.past token (left ++ k.rest'))) := by
  obtain ⟨left, hflat, hahead, hcursor⟩ := h.cursor
  have hahead' : s'.cursor.ahead = left ++ k.rest' := by rw [hcursor]
  -- wherever the token leads, the states stay abreast
  have hpast : ∀ {Q : Token → List Token → Prop} {token : Token} {left : List Token},
      s.cursor.ahead = token :: (left ++ k.rest) → s'.cursor.ahead = token :: (left ++ k.rest') →
      Q token left → Abreast k Q (n + token.kind.isWord.toNat) (s.past token (left ++ k.rest))
        (s'.past token (left ++ k.rest')) := by
    intro Q token left hahead hahead' hQ
    exact ⟨⟨left, hQ, rfl, rfl⟩, h.scope, h.size, h.errors, h.errors', h.room.past hahead,
      h.room'.past hahead'⟩
  cases hflat with
  | @last token hkind =>
    refine ⟨token, [], hahead, hahead', .inl ⟨hkind, ?_⟩⟩
    exact (hpast hahead hahead' ⟨rfl, hkind⟩).mono (fun _ _ hQ => hQ) (Nat.le_add_right _ _)
  | @cons token left hplain hleft =>
    exact ⟨token, left, hahead, hahead', .inr ⟨hplain, hpast hahead hahead' hleft⟩⟩

/-! ## Steps

Both runs of a step end in the same way, in states that are abreast again. -/

variable {α β : Type} {V : α → α → Prop} {W : β → β → Prop}

/-- If the first step ends in the same way, the second one is compared where it starts. -/
theorem Concur.bind {x y : CompileM α} {f g : α → CompileM β} {jumps jumps' after after' : List Nat}
    (hx : Concur k Q m V jumps jumps' (x s) (y s'))
    (hf : ∀ a a' t t', V a a' → Abreast k Q m t t' → t.openJumps = jumps → t'.openJumps = jumps' →
      Concur k R l W after after' (f a t) (g a' t')) :
    Concur k R l W after after' ((x >>= f) s) ((y >>= g) s') := by
  generalize hr : x s = r at hx
  generalize hr' : y s' = r' at hx
  cases hx with
  | ok hV ht hjumps hjumps' =>
    rw [bind_of_ok hr, bind_of_ok hr']
    exact hf _ _ _ _ hV ht hjumps hjumps'
  | error e ht =>
    rw [bind_of_error hr, bind_of_error hr']
    exact .error e ht

theorem InStep.bind {x y : CompileM α} {f g : α → CompileM β} (hx : InStep k P n Q m V x y)
    (hf : ∀ a a', V a a' → InStep k Q m R l W (f a) (g a')) :
    InStep k P n R l W (x >>= f) (y >>= g) := by
  intro s s' h
  refine (hx h).bind fun a a' t t' hV ht hjumps hjumps' => ?_
  rw [← hjumps, ← hjumps']
  exact hf a a' hV ht

/-- Room that is not needed is left alone. -/
theorem InStep.mono {x y : CompileM α} {n' m' : Nat} (h : InStep k P n Q m V x y) (hn : n ≤ n')
    (hm : m' ≤ m) : InStep k P n' Q m' V x y := by
  intro s s' hs
  have hxy := h (hs.mono (fun _ _ hP => hP) hn)
  generalize x s = r at hxy ⊢
  generalize y s' = r' at hxy ⊢
  cases hxy with
  | ok hV ht hjumps hjumps' => exact .ok hV (ht.mono (fun _ _ hQ => hQ) hm) hjumps hjumps'
  | error e ht => exact .error e ht

theorem inStep_pure {a a' : α} (hV : V a a') : InStep k P n P n V (pure a) (pure a') :=
  fun _ _ h => .ok hV h rfl rfl

theorem inStep_previous : InStep k P n P n (· = ·) previous previous :=
  fun _ _ h => .ok h.previous_eq.symm h rfl rfl

/-- Both fail at the same token for the same cause. -/
theorem inStep_failAtPrevious (cause : Cause) (hP : ∀ p left, P p left → Within p left) :
    InStep k P n Q m V (failAtPrevious cause) (failAtPrevious cause) := by
  intro s s' h
  rw [failAtPrevious_apply, failAtPrevious_apply, h.previous_eq]
  exact .error _ (h.mono hP (Nat.zero_le n))

theorem inStep_ite {c : Prop} [Decidable c] {x x' y y' : CompileM α}
    (hx : InStep k P n Q m V x x') (hy : InStep k P n Q m V y y') :
    InStep k P n Q m V (if c then x else y) (if c then x' else y') := by
  split
  · exact hx
  · exact hy

/-- Instructions of the same width. -/
theorem inStep_emit {i i' : Instruction} (hwidth : i'.width = i.width) :
    InStep k P n P n (fun _ _ => True) (emit i) (emit i') := by
  intro s s' h
  rw [emit_apply, emit_apply]
  refine .ok trivial (h.append ?_ (Nat.le_of_eq (Nat.zero_add n)) (Nat.le_of_eq (Nat.zero_add n)))
    rfl rfl
  rw [Lowering.size_instruction, Lowering.size_instruction, hwidth]

theorem inStep_forM_emit (is : List Instruction) :
    InStep k P n P n (fun _ _ => True) (is.forM emit) (is.forM emit) := by
  intro s s' h
  rw [forM_emit_apply, forM_emit_apply, h.previous_eq]
  exact .ok trivial (h.append rfl (Nat.le_of_eq (Nat.zero_add n)) (Nat.le_of_eq (Nat.zero_add n)))
    rfl rfl

/-- Where there is room, the pool is not full. -/
theorem Room.lt_maxConstants (h : Room (n + 1) s) :
    s.chunk.constants.size < Chunk.maxConstants := by
  have := h.constants
  omega

/-- A constant takes up some of the room. -/
theorem inStep_addConstant (value : Value) :
    InStep k P (n + 1) P n (fun _ _ => True) (addConstant value) (addConstant value) := by
  intro s s' h
  rw [addConstant_apply, addConstant_apply, if_pos h.room.lt_maxConstants,
    if_pos h.room'.lt_maxConstants]
  have hone : (Lowering.pool [value]).constants.length + n ≤ n + 1 :=
    Nat.le_of_eq (Nat.add_comm 1 n)
  exact .ok trivial (h.append rfl hone hone) rfl rfl

theorem inStep_emitConstant (value : Value) :
    InStep k P (n + 1) P n (fun _ _ => True) (emitConstant value) (emitConstant value) :=
  (inStep_addConstant value).bind fun _ _ _ => inStep_emit rfl

/-! ### Tokens

Both look at the same tokens. Only the semicolon at the end leads out of the statement. -/

theorem inStep_accept {kind : Kind} (hkind : kind ≠ .semicolon) :
    InStep k Along n Along n (· = ·) (accept kind) (accept kind) := by
  intro s s' h
  obtain ⟨token, left, hahead, hahead', hnext⟩ := h.next
  by_cases htoken : token.kind = kind
  · rw [accept_cons hahead kind htoken, accept_cons hahead' kind htoken]
    rcases hnext with ⟨hlast, _⟩ | ⟨_, ht⟩
    · exact absurd (htoken.symm.trans hlast) hkind
    · exact .ok rfl (ht.mono (fun _ _ h => h) (Nat.le_add_right n _)) rfl rfl
  · rw [accept_of_ne kind (by rwa [hahead]), accept_of_ne kind (by rwa [hahead'])]
    exact .ok rfl h rfl rfl

/-- A token that is missing on one side is missing on the other. -/
theorem concur_expect {kind : Kind} {what : Expectation} {token : Token} {left : List Token}
    (h : Abreast k Along n s s') (hahead : s.cursor.ahead = token :: (left ++ k.rest))
    (hahead' : s'.cursor.ahead = token :: (left ++ k.rest'))
    (hpast : token.kind = kind →
      Abreast k Q m (s.past token (left ++ k.rest)) (s'.past token (left ++ k.rest'))) :
    Concur k Q m (fun _ _ => True) s.openJumps s'.openJumps (expect kind what s)
      (expect kind what s') := by
  by_cases hkind : token.kind = kind
  · rw [expect_cons hahead kind what hkind, expect_cons hahead' kind what hkind]
    exact .ok trivial (hpast hkind) rfl rfl
  · have hcurrent : s.cursor.current = token := by simp [Cursor.current, hahead]
    have hcurrent' : s'.cursor.current = token := by simp [Cursor.current, hahead']
    rw [expect_apply, expect_apply, hcurrent, hcurrent', if_neg hkind, if_neg hkind]
    exact .error _ h.within_of_along

/-- Passing a word makes room for a constant. -/
theorem inStep_expect {kind : Kind} (hkind : kind ≠ .semicolon) (what : Expectation) :
    InStep k Along n Along (n + kind.isWord.toNat) (fun _ _ => True) (expect kind what)
      (expect kind what) := by
  intro s s' h
  obtain ⟨token, left, hahead, hahead', hnext⟩ := h.next
  refine concur_expect h hahead hahead' fun htoken => ?_
  rcases hnext with ⟨hlast, _⟩ | ⟨_, ht⟩
  · exact absurd (htoken.symm.trans hlast) hkind
  · rwa [htoken] at ht

/-- The semicolon ends the statement. -/
theorem inStep_expect_semicolon (what : Expectation) :
    InStep k Along n Past n (fun _ _ => True) (expect .semicolon what)
      (expect .semicolon what) := by
  intro s s' h
  obtain ⟨token, left, hahead, hahead', hnext⟩ := h.next
  refine concur_expect h hahead hahead' fun htoken => ?_
  rcases hnext with ⟨_, ht⟩ | ⟨hplain, _⟩
  · exact ht
  · rw [htoken] at hplain
    exact absurd hplain (by decide)

/-! ### Jumps

The code between a jump and its target has the same size in both runs, so the distance is the same.
-/

/-- An open jump over code of the same size on both sides is filled in on both sides, or it is too
far on both. -/
theorem concur_patchJump {operand operand' : Nat} (h : Abreast k Along n s s')
    (hgap : operand + k.gap = operand' + k.gap') (hopen : operand ∈ s.openJumps)
    (hopen' : operand' ∈ s'.openJumps) :
    Concur k Along n (fun _ _ => True) (s.openJumps.erase operand) (s'.openJumps.erase operand')
      (patchJump operand s) (patchJump operand' s') := by
  have hsize := h.size
  rw [patchJump_of_open hopen, patchJump_of_open hopen', h.previous_eq]
  by_cases hroom : operand + 2 ≤ s.chunk.size
  · have hroom' : operand' + 2 ≤ s'.chunk.size := by omega
    have hdistance : s'.chunk.size - (operand' + 2) = s.chunk.size - (operand + 2) := by omega
    rw [if_pos hroom, if_pos hroom', hdistance]
    split
    · refine .ok trivial ⟨h.cursor, h.scope, ?_, h.errors, h.errors',
        ⟨h.room.constants, h.room.locals⟩, ⟨h.room'.constants, h.room'.locals⟩⟩ rfl rfl
      simpa [Chunk.patchWord, Chunk.size] using hsize
    · exact .error _ h.within_of_along
  · have hroom' : ¬ operand' + 2 ≤ s'.chunk.size := by omega
    rw [if_neg hroom, if_neg hroom']
    exact .error _ h.within_of_along

/-- A jump that is still open takes three bytes. -/
theorem Abreast.awaiting {make : UInt16 → Instruction} (h : Abreast k P n s s') :
    Abreast k P n (s.awaiting make) (s'.awaiting make) := by
  have ht : Abreast k P n (s.append (.jump make maxDistance s.cursor.previous.line))
      (s'.append (.jump make maxDistance s'.cursor.previous.line)) :=
    h.append rfl (Nat.le_of_eq (Nat.zero_add n)) (Nat.le_of_eq (Nat.zero_add n))
  exact ⟨ht.cursor, ht.scope, ht.size, ht.errors, ht.errors',
    ⟨ht.room.constants, ht.room.locals⟩, ⟨ht.room'.constants, ht.room'.locals⟩⟩

end Abreast

/-! ## Expressions

The operands are recursive calls; both runs of these are abreast by assumption. -/

section Expressions

variable {k : Fork} {operand : Precedence → CompileM Unit}

/-- Two ways to reach a variable by instructions of the same size. -/
def SameWidths (a a' : Access) : Prop :=
  a'.get.width = a.get.width ∧ a'.set.width = a.set.width

/-- A name may stand for a local in one run and for a global in the other. Both take two bytes. -/
theorem inStep_access (name : String) :
    InStep k Along 1 Along 0 SameWidths (access name) (access name) := by
  intro s s' h
  unfold access
  rw [bind_of_ok (get_apply s), bind_of_ok (get_apply s'), h.scope]
  cases s.scope.resolve name with
  | none => exact ((inStep_addConstant _).bind fun _ _ _ => inStep_pure ⟨rfl, rfl⟩) h
  | some place =>
    have hfound : InStep k Along 0 Along 0 SameWidths
        (if place.2.depth.isNone then failAtPrevious .selfReference
          else pure ⟨.getLocal place.1, .setLocal place.1⟩)
        (if place.2.depth.isNone then failAtPrevious .selfReference
          else pure ⟨.getLocal place.1, .setLocal place.1⟩) :=
      inStep_ite (inStep_failAtPrevious _ fun _ _ => .inl) (inStep_pure ⟨rfl, rfl⟩)
    exact hfound.mono (Nat.zero_le 1) (Nat.le_refl 0) h

theorem inStep_number : InStep k Along 1 Along 0 (fun _ _ => True) number number := by
  refine inStep_previous.bind fun token _ htoken => ?_
  subst htoken
  split
  · exact inStep_emitConstant _
  · split
    · exact inStep_emitConstant _
    · exact inStep_failAtPrevious _ fun _ _ => .inl

theorem inStep_string : InStep k Along 1 Along 0 (fun _ _ => True) string string := by
  refine inStep_previous.bind fun token _ htoken => ?_
  subst htoken
  split
  · exact inStep_emitConstant _
  · exact inStep_emitConstant _

theorem inStep_noAssignment (p : Precedence) :
    InStep k Along 0 Along 0 (fun _ _ => True) (noAssignment p) (noAssignment p) := by
  refine inStep_ite ?_ (inStep_pure trivial)
  refine (inStep_accept (by decide)).bind fun assigns _ hassigns => ?_
  subst hassigns
  exact inStep_ite (inStep_failAtPrevious _ fun _ _ => .inl) (inStep_pure trivial)

variable (hoperand : ∀ q, .assignment ≤ q →
  InStep k Along 0 Along 0 (fun _ _ => True) (operand q) (operand q))

include hoperand

/-- A name is read, or assigned to, in both runs. -/
theorem inStep_variableUse (canAssign : Bool) :
    InStep k Along 1 Along 0 (fun _ _ => True) (variableUse operand canAssign)
      (variableUse operand canAssign) := by
  refine inStep_previous.bind fun token _ htoken => ?_
  subst htoken
  refine (inStep_access _).bind fun place place' hplace => ?_
  have hend : ∀ assigns assigns' : Bool, assigns = assigns' →
      InStep k Along 0 Along 0 (fun _ _ => True)
        (if assigns then (do operand .assignment; emit place.set) else emit place.get)
        (if assigns' then (do operand .assignment; emit place'.set) else emit place'.get) := by
    rintro assigns _ rfl
    exact inStep_ite
      ((hoperand .assignment (by decide)).bind fun _ _ _ => inStep_emit hplace.2)
      (inStep_emit hplace.1)
  exact inStep_ite ((inStep_accept (by decide)).bind hend) ((inStep_pure rfl).bind hend)

/-- What a token starts, after the token. A word has left room for its constant. -/
theorem inStep_prefixForm {kind : Kind} {form : PrefixForm}
    (hform : kind.prefixForm? = some form) (canAssign : Bool) :
    InStep k Along kind.isWord.toNat Along 0 (fun _ _ => True) (prefixForm operand canAssign form)
      (prefixForm operand canAssign form) := by
  cases kind <;> cases hform
  case leftParen =>
    have hparen : Kind.rightParen ≠ .semicolon := by decide
    exact (hoperand .assignment (by decide)).bind fun _ _ _ => inStep_expect hparen _
  case minus => exact (hoperand .unary (by decide)).bind fun _ _ _ => inStep_emit rfl
  case bang => exact (hoperand .unary (by decide)).bind fun _ _ _ => inStep_emit rfl
  case identifier => exact inStep_variableUse hoperand canAssign
  case string => exact inStep_string
  case number => exact inStep_number
  all_goals exact inStep_emit rfl

/-- The first token of an expression makes room for the constant that it may need. -/
theorem inStep_first (p : Precedence) :
    InStep k Along 0 Along 0 (fun _ _ => True) (first operand p) (first operand p) := by
  intro s s' h
  obtain ⟨token, left, hahead, hahead', hnext⟩ := h.next
  cases hform : token.kind.prefixForm? with
  | some form =>
    rw [first_apply hahead hform, first_apply hahead' hform]
    rcases hnext with ⟨hlast, _⟩ | ⟨_, ht⟩
    -- the semicolon starts no expression
    · rw [hlast] at hform
      cases hform
    · rw [Nat.zero_add] at ht
      exact inStep_prefixForm hoperand hform _ ht
  | none =>
    have hfails : ∀ {s : State} {rest : List Token}, s.cursor.ahead = token :: rest →
        first operand p s =
          .error (.atToken token (.expected .expression)) (s.past token rest) := by
      intro s rest hahead
      rw [first, bind_of_ok (advance_cons hahead), bind_of_ok (previous_apply _)]
      simp only [State.cursor_past, hform]
      rfl
    rw [hfails hahead, hfails hahead']
    -- the token has been passed all the same, and it may have been the semicolon
    rcases hnext with ⟨_, ht⟩ | ⟨_, ht⟩
    · exact .error _ ht.within_of_past
    · exact .error _ ht.within_of_along

omit hoperand in
/-- The latest open jump is made to lead over a step. -/
theorem concur_jumpOver {x : CompileM Unit} (hx : InStep k Along 0 Along 0 (fun _ _ => True) x x)
    {s s' : State} (h : Abreast k Along 0 s s') {target target' : Nat} {jumps jumps' : List Nat}
    (hgap : target + k.gap = target' + k.gap') (hjumps : s.openJumps = target :: jumps)
    (hjumps' : s'.openJumps = target' :: jumps') :
    Concur k Along 0 (fun _ _ => True) jumps jumps' ((x >>= fun _ => patchJump target) s)
      ((x >>= fun _ => patchJump target') s') := by
  refine (hx h).bind fun _ _ t t' _ ht hopen hopen' => ?_
  rw [hjumps] at hopen
  rw [hjumps'] at hopen'
  have hpatch := concur_patchJump ht hgap (by simp [hopen]) (by simp [hopen'])
  rw [hopen, hopen', List.erase_cons_head, List.erase_cons_head] at hpatch
  exact hpatch

/-- The rest of an operation; its jumps lead over the right operand, of the same size on both
sides. -/
theorem inStep_infixForm (form : InfixForm) :
    InStep k Along 0 Along 0 (fun _ _ => True) (infixForm operand form)
      (infixForm operand form) := by
  have hright : ∀ q, .assignment ≤ q → InStep k Along 0 Along 0 (fun _ _ => True)
      (emit .pop >>= fun _ => operand q) (emit .pop >>= fun _ => operand q) := by
    intro q hq
    exact (inStep_emit rfl).bind fun _ _ _ => hoperand q hq
  cases form with
  | binary operator =>
    exact (hoperand operator.precedence.next (by cases operator <;> decide)).bind fun _ _ _ =>
      inStep_forM_emit _
  | and =>
    intro s s' h
    have hgap := h.size
    simp only [infixForm]
    rw [bind_of_ok (emitJump_apply _ s), bind_of_ok (emitJump_apply _ s'), ← bind_assoc,
      ← bind_assoc]
    exact concur_jumpOver (hright .and (by decide)) h.awaiting (by omega) rfl rfl
  | or =>
    intro s s' h
    have hgap := h.size
    have hsize : ∀ s : State, (s.awaiting .jumpIfFalse).chunk.size = s.chunk.size + 3 := by
      simp
    simp only [infixForm]
    rw [bind_of_ok (emitJump_apply _ s), bind_of_ok (emitJump_apply _ s'),
      bind_of_ok (emitJump_apply _ _), bind_of_ok (emitJump_apply _ _)]
    -- the second jump is the latest one, so the first is not at the head of the list
    have herase : ∀ s : State,
        ((s.awaiting .jumpIfFalse).awaiting .jump).openJumps.erase (s.chunk.size + 1) =
          ((s.awaiting .jumpIfFalse).chunk.size + 1) :: s.openJumps := by
      intro s
      show (((s.awaiting .jumpIfFalse).chunk.size + 1) :: (s.chunk.size + 1) :: s.openJumps).erase
        (s.chunk.size + 1) = _
      rw [List.erase_cons_tail (by simp), List.erase_cons_head]
    have hawaiting : Abreast k Along 0 ((s.awaiting .jumpIfFalse).awaiting .jump)
        ((s'.awaiting .jumpIfFalse).awaiting .jump) := h.awaiting.awaiting
    have hfirst : s.chunk.size + 1 + k.gap = s'.chunk.size + 1 + k.gap' := by omega
    have hpatch := concur_patchJump hawaiting hfirst (List.mem_cons_of_mem _ List.mem_cons_self)
      (List.mem_cons_of_mem _ List.mem_cons_self)
    refine hpatch.bind fun _ _ t t' _ ht hopen hopen' => ?_
    rw [herase] at hopen hopen'
    rw [← bind_assoc, ← bind_assoc]
    refine concur_jumpOver (hright .or (by decide)) ht ?_ hopen hopen'
    rw [hsize, hsize]
    omega

/-- The operators after an operand. -/
theorem inStep_infixForms {p : Precedence} (hassign : .assignment ≤ p) (count : Nat) :
    InStep k Along 0 Along 0 (fun _ _ => True) (infixForms operand p count)
      (infixForms operand p count) := by
  induction count with
  | zero => exact inStep_pure trivial
  | succ count ih =>
    intro s s' h
    obtain ⟨token, left, hahead, hahead', hnext⟩ := h.next
    have hcurrent : s.cursor.current = token := by simp [Cursor.current, hahead]
    have hcurrent' : s'.cursor.current = token := by simp [Cursor.current, hahead']
    rw [infixForms, bind_of_ok (current_apply s), bind_of_ok (current_apply s'), hcurrent,
      hcurrent']
    by_cases hle : p ≤ token.kind.precedence
    · rw [if_pos hle, bind_of_ok (advance_cons hahead),
        bind_of_ok (advance_cons hahead')]
      rcases hnext with ⟨hlast, _⟩ | ⟨_, ht⟩
      · -- the semicolon is no operator
        rw [hlast] at hle
        exact absurd (le_trans hassign hle) (by decide)
      · have ht := ht.mono (fun _ _ hQ => hQ) (Nat.zero_le _)
        cases token.kind.infixForm? with
        | none => exact ih ht
        | some form => exact ((inStep_infixForm hoperand form).bind fun _ _ _ => ih) ht
    · rw [if_neg hle]
      exact .ok trivial h rfl rfl

omit hoperand in
theorem inStep_expressionAt (bound : Nat) {p : Precedence} (hassign : .assignment ≤ p) :
    InStep k Along 0 Along 0 (fun _ _ => True) (expressionAt bound p) (expressionAt bound p) := by
  induction bound generalizing p with
  | zero =>
    intro s s' h
    obtain ⟨token, left, hahead, hahead', hnext⟩ := h.next
    rw [expressionAt, bind_of_ok (advance_cons hahead), bind_of_ok (advance_cons hahead')]
    rcases hnext with ⟨_, ht⟩ | ⟨_, ht⟩
    · exact .error _ ht.within_of_past
    · exact .error _ ht.within_of_along
  | succ bound ih =>
    have hoperand : ∀ q, .assignment ≤ q → InStep k Along 0 Along 0 (fun _ _ => True)
        (expressionAt bound q) (expressionAt bound q) := fun q hq => ih hq
    rw [expressionAt_succ]
    have hlead : InStep k Along 0 Along 0 (fun _ _ => True) (lead (expressionAt bound) p bound)
        (lead (expressionAt bound) p bound) :=
      (inStep_first hoperand p).bind fun _ _ _ => inStep_infixForms hoperand hassign bound
    exact hlead.bind fun _ _ _ => inStep_noAssignment p

end Expressions

/-! ## Statements

Only flat ones: expressions, `print` and declarations of variables. -/

section Statements

variable {k : Fork}

theorem inStep_expression (bound : Nat) :
    InStep k Along 0 Along 0 (fun _ _ => True) (expression bound) (expression bound) :=
  inStep_expressionAt bound (by decide)

theorem inStep_printStatement (bound : Nat) :
    InStep k Along 0 Past 0 (fun _ _ => True) (printStatement bound) (printStatement bound) :=
  (inStep_expression bound).bind fun _ _ _ =>
    (inStep_expect_semicolon _).bind fun _ _ _ => inStep_emit rfl

theorem inStep_expressionStatement (bound : Nat) :
    InStep k Along 0 Past 0 (fun _ _ => True) (expressionStatement bound)
      (expressionStatement bound) :=
  (inStep_expression bound).bind fun _ _ _ =>
    (inStep_expect_semicolon _).bind fun _ _ _ => inStep_emit rfl

/-- The value of a variable, up to the semicolon. -/
theorem inStep_initializer (bound : Nat) :
    InStep k Along 0 Past 0 (fun _ _ => True) (initializer bound) (initializer bound) := by
  refine (inStep_accept (by decide)).bind fun given _ hgiven => ?_
  subst hgiven
  exact inStep_ite
    ((inStep_expression bound).bind fun _ _ _ => inStep_expect_semicolon _)
    ((inStep_emit rfl).bind fun _ _ _ => inStep_expect_semicolon _)

/-- Both sides declare a global or both a local. A word has left room for either. -/
theorem inStep_declareVariable :
    InStep k Along 1 Along 0 (fun name name' => name'.isSome = name.isSome) declareVariable
      declareVariable := by
  intro s s' h
  unfold declareVariable
  rw [bind_of_ok (previous_apply s), bind_of_ok (previous_apply s'), bind_of_ok (get_apply s),
    bind_of_ok (get_apply s'), h.scope, h.previous_eq]
  split
  -- a global needs a constant, a local needs a place in the scope
  · refine (inStep_addConstant _ h).bind fun index index' t t' _ ht hjumps hjumps' => ?_
    exact .ok (Option.isSome_some.trans Option.isSome_some.symm) ht hjumps hjumps'
  · split
    · exact inStep_failAtPrevious _ (fun _ _ => .inl) h
    · split
      · exact inStep_failAtPrevious _ (fun _ _ => .inl) h
      · have hlocals : ∀ {s : State} (name : String), Room 1 s →
            Room 0 { s with scope := s.scope.declare name } := by
          intro s name hroom
          have hlocals := hroom.locals
          refine ⟨(hroom.mono (Nat.zero_le 1)).constants, ?_⟩
          simp only [Scope.declare, List.length_cons]
          omega
        refine .ok rfl ⟨h.cursor, ?_, h.size, h.errors, h.errors', hlocals _ h.room,
          hlocals _ h.room'⟩ rfl rfl
        exact congrArg (Scope.declare · _) h.scope

/-- A local that gets its value is not a new one. -/
theorem length_locals_markInitialized (scope : Scope) :
    scope.markInitialized.locals.length = scope.locals.length := by
  unfold Scope.markInitialized
  split <;> simp_all

theorem inStep_defineVariable {P : Token → List Token → Prop} {name name' : Option UInt8}
    (hname : name'.isSome = name.isSome) :
    InStep k P 0 P 0 (fun _ _ => True) (defineVariable name) (defineVariable name') := by
  cases name with
  | some index =>
    obtain ⟨index', rfl⟩ := Option.isSome_iff_exists.mp hname
    exact inStep_emit rfl
  | none =>
    obtain rfl := Option.not_isSome_iff_eq_none.mp (by simpa using hname)
    have hlocals : ∀ {s : State}, Room 0 s →
        Room 0 { s with scope := s.scope.markInitialized } := by
      intro s hroom
      refine ⟨hroom.constants, ?_⟩
      rw [length_locals_markInitialized]
      exact hroom.locals
    intro s s' h
    refine .ok trivial ⟨h.cursor, ?_, h.size, h.errors, h.errors', hlocals h.room,
      hlocals h.room'⟩ rfl rfl
    exact congrArg Scope.markInitialized h.scope

/-- A failure is held back on both sides until the variable is defined. -/
theorem inStep_settled {P Q : Token → List Token → Prop} {x g g' : CompileM Unit}
    (hx : InStep k P 0 Q 0 (fun _ _ => True) x x)
    (hg : ∀ R, InStep k R 0 R 0 (fun _ _ => True) g g') :
    InStep k P 0 Q 0 (fun _ _ => True)
      (attempt x >>= fun outcome => g >>= fun _ => settle outcome)
      (attempt x >>= fun outcome => g' >>= fun _ => settle outcome) := by
  intro s s' h
  have hrun := hx h
  generalize hr : x s = r at hrun
  generalize hr' : x s' = r' at hrun
  cases hrun with
  | ok _ ht hjumps hjumps' =>
    rw [bind_of_ok (attempt_of_ok hr), bind_of_ok (attempt_of_ok hr')]
    refine (hg Q ht).bind fun _ _ u u' _ hu hopen hopen' => ?_
    exact .ok trivial hu (hopen.trans hjumps) (hopen'.trans hjumps')
  | error e ht =>
    rw [bind_of_ok (attempt_of_error hr), bind_of_ok (attempt_of_error hr')]
    exact (hg Within ht).bind fun _ _ u u' _ hu _ _ => .error e hu

/-- A variable is a local in both runs or in none, since blocks around it do not matter. -/
theorem inStep_variableDeclaration (bound : Nat) :
    InStep k Along 0 Past 0 (fun _ _ => True) (variableDeclaration bound)
      (variableDeclaration bound) := by
  have hname : Kind.identifier ≠ .semicolon := by decide
  refine (inStep_expect hname _).bind fun _ _ _ => ?_
  refine inStep_declareVariable.bind fun name name' hsome => ?_
  exact inStep_settled (inStep_initializer bound) fun _ => inStep_defineVariable hsome

/-- A statement that starts with a plain token or a semicolon. -/
theorem inStep_statement (bound : Nat) :
    InStep k Along 0 Past 0 (fun _ _ => True) (statement bound) (statement bound) := by
  cases bound with
  | zero => exact inStep_expressionStatement 0
  | succ bound =>
    intro s s' h
    obtain ⟨token, left, hahead, hahead', hnext⟩ := h.next
    rw [statement_apply, statement_apply, hahead, hahead', nextKind_cons, nextKind_cons]
    by_cases hprint : token.kind = .printKw
    · rw [hprint]
      simp only [statementFrom]
      rw [bind_of_ok (advance_cons hahead), bind_of_ok (advance_cons hahead')]
      rcases hnext with ⟨hlast, _⟩ | ⟨_, ht⟩
      · exact absurd (hprint.symm.trans hlast) (by decide)
      · exact inStep_printStatement bound (ht.mono (fun _ _ hQ => hQ) (Nat.zero_le _))
    · have hfrom : statementFrom bound token.kind = expressionStatement (bound + 1) := by
        rcases hnext with ⟨hlast, _⟩ | ⟨hplain, _⟩
        · rw [hlast]
          rfl
        · cases hkind : token.kind <;> rw [hkind] at hplain hprint <;>
            first | rfl | exact absurd hplain (by decide) | exact absurd rfl hprint
      rw [hfrom]
      exact inStep_expressionStatement (bound + 1) h

end Statements

/-! ## Recovery

After an error both runs pass the rest of the statement, or stop at its end. -/

/-- After an error in a flat statement the compiler takes up again inside the statement or behind
it, and where that is does not depend on what follows. -/
theorem skipToStatement_flat {previous : Token} {left : List Token} (h : Within previous left) :
    ∃ (previous' : Token) (left' : List Token), Within previous' left' ∧
      wordCount left' ≤ wordCount left ∧
      ∀ rest, Cursor.skipToStatement previous (left ++ rest) = ⟨previous', left' ++ rest⟩ := by
  have hbehind : ∀ {token : Token}, token.kind = .semicolon → ∀ rest,
      Cursor.skipToStatement token rest = ⟨token, rest⟩ := by
    intro token hkind rest
    cases rest with
    | nil => rfl
    | cons next rest => exact if_pos (.inr (.inl hkind))
  -- the last token of the statement is a semicolon, and nothing is skipped behind it
  rcases h with hflat | ⟨rfl, hlast⟩
  · replace hflat : Flat left := hflat
    induction hflat generalizing previous with
    | @last token hkind =>
      by_cases hstop : token.kind = .eof ∨ previous.kind = .semicolon ∨ token.kind.startsStatement
      · exact ⟨previous, [token], .inl (Flat.last hkind), Nat.le_refl _, fun _ => if_pos hstop⟩
      · refine ⟨token, [], .inr ⟨rfl, hkind⟩, Nat.zero_le _, fun rest => ?_⟩
        exact (if_neg hstop).trans (hbehind hkind rest)
    | @cons token left hplain hleft ih =>
      by_cases hstop : token.kind = .eof ∨ previous.kind = .semicolon ∨ token.kind.startsStatement
      · exact ⟨previous, token :: left, .inl (Flat.cons hplain hleft), Nat.le_refl _,
          fun _ => if_pos hstop⟩
      · obtain ⟨previous', left', hwithin, hwords, hskip⟩ := @ih token
        refine ⟨previous', left', hwithin, ?_, fun rest => (if_neg hstop).trans (hskip rest)⟩
        rw [wordCount_cons]
        omega
  · exact ⟨previous, [], .inr ⟨rfl, hlast⟩, Nat.le_refl _, hbehind hlast⟩

section Recovery

variable {k : Fork} {s s' : State}

/-- Tokens that are passed without being compiled leave room. -/
theorem Room.synchronize {left left' rest : List Token} {cursor : Cursor} (h : Room 0 s)
    (hahead : s.cursor.ahead = left ++ rest) (hwords : wordCount left' ≤ wordCount left)
    (hcursor : cursor.ahead = left' ++ rest) (errors : Array Error) :
    Room 0 { s with cursor := cursor, errors := errors } := by
  obtain ⟨hconstants, hlocals⟩ := h
  rw [hahead, wordCount_append] at hconstants hlocals
  refine ⟨?_, ?_⟩
  · show s.chunk.constants.size + wordCount cursor.ahead + 0 ≤ Chunk.maxConstants
    rw [hcursor, wordCount_append]
    omega
  · show s.scope.locals.length + wordCount cursor.ahead + 0 ≤ Scope.maxLocals
    rw [hcursor, wordCount_append]
    omega

/-- The error is recorded on both sides, and both take up again at the same place. -/
theorem Abreast.recover (h : Abreast k Within 0 s s') (e : Error) :
    Abreast (k.report [e]) Within 0
      { s with errors := s.errors.push e, cursor := s.cursor.synchronize }
      { s' with errors := s'.errors.push e, cursor := s'.cursor.synchronize } := by
  obtain ⟨left, hwithin, hahead, hcursor⟩ := h.cursor
  -- both compilers skip the same tokens, since the statement ends before the others begin
  obtain ⟨previous, left', hwithin', hwords, hskip⟩ := skipToStatement_flat hwithin
  have hahead' : s'.cursor.ahead = left ++ k.rest' := by rw [hcursor]
  have hsync : s.cursor.synchronize = ⟨previous, left' ++ k.rest⟩ := by
    rw [Cursor.synchronize, hahead, hskip]
  have hsync' : s'.cursor.synchronize = ⟨previous, left' ++ k.rest'⟩ := by
    rw [Cursor.synchronize, hcursor, hskip]
  refine ⟨?_, h.scope, h.size, ?_, ?_, ?_, ?_⟩
  · refine ⟨left', ?_, ?_, ?_⟩
    · show Within s.cursor.synchronize.previous left'
      rw [hsync]
      exact hwithin'
    · show s.cursor.synchronize.ahead = _
      rw [hsync]
      rfl
    · show s'.cursor.synchronize = ⟨s.cursor.synchronize.previous, _⟩
      rw [hsync, hsync']
      rfl
  · show (s.errors.push e).toList = k.errors ++ [e]
    rw [Array.toList_push, h.errors]
  · show (s'.errors.push e).toList = k.errors' ++ [e]
    rw [Array.toList_push, h.errors']
  · exact h.room.synchronize hahead hwords (by rw [hsync]) _
  · exact h.room'.synchronize hahead' hwords (by rw [hsync']) _

/-- One declaration, or a piece of one, is compiled on both sides. -/
theorem Abreast.declaration (h : Abreast k Along 0 s s') (bound : Nat) :
    ∃ t t' es, Compile.declaration bound (statement bound) s = .ok () t ∧
      Compile.declaration bound (statement bound) s' = .ok () t' ∧
      Abreast (k.report es) Within 0 t t' := by
  have hstep : InStep k Along 0 Past 0 (fun _ _ => True)
      (do if ← accept .varKw then variableDeclaration bound else statement bound)
      (do if ← accept .varKw then variableDeclaration bound else statement bound) := by
    refine (inStep_accept (by decide)).bind fun declares _ hdeclares => ?_
    subst hdeclares
    exact inStep_ite (inStep_variableDeclaration bound) (inStep_statement bound)
  -- both sides succeed behind the statement, or both fail with the same error
  have hrun := hstep h
  unfold Compile.declaration recovering
  generalize hr : (do if ← accept .varKw then variableDeclaration bound else statement bound :
    CompileM Unit) s = r at hrun
  generalize hr' : (do if ← accept .varKw then variableDeclaration bound else statement bound :
    CompileM Unit) s' = r' at hrun
  cases hrun with
  | ok _ ht _ _ =>
    rw [bind_of_ok (attempt_of_ok hr), bind_of_ok (attempt_of_ok hr')]
    refine ⟨_, _, [], rfl, rfl, ?_⟩
    rw [Fork.report_nil]
    exact ht.within_of_past
  | error e ht =>
    rw [bind_of_ok (attempt_of_error hr), bind_of_ok (attempt_of_error hr')]
    exact ⟨_, _, [e], rfl, rfl, ht.recover e⟩

end Recovery

end Compile

end StackScript
