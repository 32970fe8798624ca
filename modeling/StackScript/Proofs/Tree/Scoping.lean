import StackScript.Compile.Scope
import StackScript.Proofs.Tree.Lowering

/-!
# The locals of a syntax tree

Which declarations of a tree declare locals, and what a local asks of the place where it is
declared. A declaration inside a block declares a local, one outside all blocks a global.

* **`Decls.locals`**: the declarations of locals, each with the blocks around it.
* **`Admitted`**: a local is not declared twice in its block, its value does not use it, and there
  is a slot for it.
-/

namespace StackScript.Tree

/-! ## Declarations of locals

All declarations of locals in a tree, each with the blocks that are open where it stands. -/

def VarDecl.locals (blocks : Blocks) (d : VarDecl) : List (Blocks × VarDecl) :=
  match blocks with
  | [] => []
  | _ :: _ => [(blocks, d)]

def ForStart.locals (blocks : Blocks) : ForStart → List (Blocks × VarDecl)
  | none _ | expression _ _ => []
  | declaration _ declared => declared.locals blocks

mutual

/-- The declarations of locals in a statement, each with the blocks in which it stands. -/
def Stmt.locals (blocks : Blocks) : Stmt → List (Blocks × VarDecl)
  | .print _ _ _ | .expression _ _ => []
  | .conditional _ _ body otherwise => body.locals blocks ++ otherwise.locals blocks
  | .whileLoop _ _ body => body.locals blocks
  | .forLoop _ clauses body =>
    clauses.start.locals ([] :: blocks) ++ body.locals (clauses.start.blocks ([] :: blocks))
  | .block _ body _ => body.locals ([] :: blocks)

def Else.locals (blocks : Blocks) : Else → List (Blocks × VarDecl)
  | .none => []
  | .branch _ body => body.locals blocks

def Decls.locals (blocks : Blocks) : Decls → List (Blocks × VarDecl)
  | .nil => []
  | .declaration _ declared rest =>
    declared.locals blocks ++ rest.locals (blocks.declare declared.name.val.lexeme)
  | .statement first rest => first.locals blocks ++ rest.locals blocks

end

/-! ## What a local asks for

The conditions under which a declaration of a local is accepted. -/

/-- The names in the value of a declared variable. -/
def VarDecl.valueNames (d : VarDecl) : List String :=
  match d.initializer with
  | none => []
  | some (_, value) => value.names

/-- The innermost block does not declare the name yet. -/
def VarDecl.IsNew (blocks : Blocks) (d : VarDecl) : Prop :=
  d.name.val.lexeme ∉ innermost blocks

/-- The value does not use the local itself, which is the latest of its name. -/
def VarDecl.IsIndependent (d : VarDecl) : Prop :=
  d.name.val.lexeme ∉ d.valueNames

/-- With the local there are not more locals than slots. -/
def HasSlot (blocks : Blocks) : Prop :=
  blocks.flatten.length + 1 ≤ Compile.Scope.maxLocals

instance (blocks : Blocks) (d : VarDecl) : Decidable (d.IsNew blocks) :=
  inferInstanceAs (Decidable (_ ∉ _))

instance (d : VarDecl) : Decidable d.IsIndependent :=
  inferInstanceAs (Decidable (_ ∉ _))

instance (blocks : Blocks) : Decidable (HasSlot blocks) :=
  inferInstanceAs (Decidable (_ ≤ _))

/-- A local can be declared in the given blocks. -/
structure Admitted (blocks : Blocks) (d : VarDecl) : Prop where
  isNew : d.IsNew blocks
  isIndependent : d.IsIndependent
  hasSlot : HasSlot blocks

/-- All the given locals can be declared where they are. -/
def Scoped (locals : List (Blocks × VarDecl)) : Prop :=
  ∀ l ∈ locals, Admitted l.1 l.2

theorem scoped_nil : Scoped [] := by
  simp [Scoped]

theorem scoped_singleton {l : Blocks × VarDecl} : Scoped [l] ↔ Admitted l.1 l.2 := by
  simp [Scoped]

/-- Each declaration is judged by itself. -/
theorem scoped_append {a b : List (Blocks × VarDecl)} : Scoped (a ++ b) ↔ Scoped a ∧ Scoped b :=
  List.forall_mem_append

/-- The three conditions on locals, each for all of them. -/
theorem scoped_iff {locals : List (Blocks × VarDecl)} :
    Scoped locals ↔
      (∀ l ∈ locals, l.2.IsNew l.1) ∧ (∀ l ∈ locals, l.2.IsIndependent) ∧
        ∀ l ∈ locals, HasSlot l.1 := by
  constructor
  · intro h
    exact ⟨fun l hl => (h l hl).isNew, fun l hl => (h l hl).isIndependent,
      fun l hl => (h l hl).hasSlot⟩
  · rintro ⟨hnew, hindependent, hslot⟩ l hl
    exact ⟨hnew l hl, hindependent l hl, hslot l hl⟩

end StackScript.Tree
