/-!
# Opcodes

The first byte of an instruction. Besides the opcodes that the machine executes there are reserved
ones, which have a name and no meaning yet.
-/

namespace StackScript

/-- The assigned opcodes, in the order of their bytes. -/
inductive Opcode where
  | constant | nil | true | false | pop
  | getLocal | setLocal | getGlobal | defineGlobal | setGlobal
  | getUpvalue | setUpvalue | getProperty | setProperty | getSuper
  | equal | greater | less | add | subtract | multiply | divide | not | negate
  | print | jump | jumpIfFalse | loop
  | call | invoke | superInvoke | closure | closeUpvalue
  | ret
  | classDef | inherit | method
deriving DecidableEq

namespace Opcode

/-- All opcodes; each stands at the index that is its byte. -/
def all : Array Opcode :=
  #[.constant, .nil, .true, .false, .pop,
    .getLocal, .setLocal, .getGlobal, .defineGlobal, .setGlobal,
    .getUpvalue, .setUpvalue, .getProperty, .setProperty, .getSuper,
    .equal, .greater, .less, .add, .subtract, .multiply, .divide, .not, .negate,
    .print, .jump, .jumpIfFalse, .loop,
    .call, .invoke, .superInvoke, .closure, .closeUpvalue,
    .ret,
    .classDef, .inherit, .method]

/-- The opcode that a byte is assigned to. -/
def ofByte? (byte : UInt8) : Option Opcode :=
  all[byte.toNat]?

def toByte : Opcode → UInt8
  | constant => 0
  | nil => 1
  | true => 2
  | false => 3
  | pop => 4
  | getLocal => 5
  | setLocal => 6
  | getGlobal => 7
  | defineGlobal => 8
  | setGlobal => 9
  | getUpvalue => 10
  | setUpvalue => 11
  | getProperty => 12
  | setProperty => 13
  | getSuper => 14
  | equal => 15
  | greater => 16
  | less => 17
  | add => 18
  | subtract => 19
  | multiply => 20
  | divide => 21
  | not => 22
  | negate => 23
  | print => 24
  | jump => 25
  | jumpIfFalse => 26
  | loop => 27
  | call => 28
  | invoke => 29
  | superInvoke => 30
  | closure => 31
  | closeUpvalue => 32
  | ret => 33
  | classDef => 34
  | inherit => 35
  | method => 36

@[simp] theorem ofByte?_toByte (op : Opcode) : ofByte? op.toByte = some op := by
  cases op <;> rfl

/-- The name of an opcode in listings and messages. -/
def mnemonic : Opcode → String
  | constant => "OP_CONSTANT"
  | nil => "OP_NIL"
  | true => "OP_TRUE"
  | false => "OP_FALSE"
  | pop => "OP_POP"
  | getLocal => "OP_GET_LOCAL"
  | setLocal => "OP_SET_LOCAL"
  | getGlobal => "OP_GET_GLOBAL"
  | defineGlobal => "OP_DEFINE_GLOBAL"
  | setGlobal => "OP_SET_GLOBAL"
  | getUpvalue => "OP_GET_UPVALUE"
  | setUpvalue => "OP_SET_UPVALUE"
  | getProperty => "OP_GET_PROPERTY"
  | setProperty => "OP_SET_PROPERTY"
  | getSuper => "OP_GET_SUPER"
  | equal => "OP_EQUAL"
  | greater => "OP_GREATER"
  | less => "OP_LESS"
  | add => "OP_ADD"
  | subtract => "OP_SUBTRACT"
  | multiply => "OP_MULTIPLY"
  | divide => "OP_DIVIDE"
  | not => "OP_NOT"
  | negate => "OP_NEGATE"
  | print => "OP_PRINT"
  | jump => "OP_JUMP"
  | jumpIfFalse => "OP_JUMP_IF_FALSE"
  | loop => "OP_LOOP"
  | call => "OP_CALL"
  | invoke => "OP_INVOKE"
  | superInvoke => "OP_SUPER_INVOKE"
  | closure => "OP_CLOSURE"
  | closeUpvalue => "OP_CLOSE_UPVALUE"
  | ret => "OP_RETURN"
  | classDef => "OP_CLASS"
  | inherit => "OP_INHERIT"
  | method => "OP_METHOD"

/-- The opcodes kept for calls, closures and classes. -/
def isReserved : Opcode → Bool
  | getUpvalue | setUpvalue | getProperty | setProperty | getSuper => .true
  | call | invoke | superInvoke | closure | closeUpvalue => .true
  | classDef | inherit | method => .true
  | _ => .false

end Opcode

end StackScript
