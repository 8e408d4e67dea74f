import Unjump.Floating.Format
import Unjump.Operator

/-! The instruction set: opcode numbers, their mnemonics and what each of them does. -/

namespace Unjump

/-- The number of a local variable. -/
abbrev Slot := UInt16

/-- The position of a constant in the pool, counted from one. -/
abbrev PoolIndex := UInt16

/-- The position of an instruction in the code. -/
abbrev Offset := UInt32

/-- A source line. -/
abbrev Line := UInt32

/-- What an instruction does, up to the operand that follows its opcode. -/
inductive Operation where
  /-- Changes nothing. -/
  | nothing
  /-- Push a constant that the opcode itself names. -/
  | null
  | int (value : Int32)
  | long (value : Int64)
  | float (value : Single)
  | double (value : Double)
  /-- Push the int that follows the opcode. -/
  | immediate
  /-- Push a constant of the pool. -/
  | constant
  /-- Access a local variable, named by the opcode or by its operand. -/
  | load (kind : ValueKind) (slot : Option Slot)
  | store (kind : ValueKind) (slot : Option Slot)
  | arrayLoad (element : ElementKind)
  | arrayStore (element : ElementKind)
  /-- Rearrange the stack. -/
  | pop | pop2 | dup | dupX1 | dupX2 | dup2 | dup2X1 | dup2X2 | swap
  | arith (op : ArithOp) (kind : ValueKind)
  | negate (kind : ValueKind)
  /-- Add a constant to a local variable. -/
  | increment
  | convert (target : Signature)
  /-- Compare two numbers into an int. -/
  | compare
  /-- Branch on an int against zero, on two values, or on a reference against null. -/
  | ifZero (comparison : Comparison)
  | ifCompare (comparison : Comparison)
  | ifNull (comparison : Comparison)
  | goto
  /-- Call a subroutine, and return from one. -/
  | jsr | ret
  | switch
  | returnValue | returnVoid
  | throw
  | getStatic | putStatic | getField | putField
  | invoke (kind : CallKind)
  | new
  | newArray | newObjectArray | newMultiArray
  | arrayLength
  | checkCast | instanceOf
  | monitor (action : MonitorAction)
deriving DecidableEq, Inhabited, Repr

namespace Operation

/-- Whether the operation pushes an int literal, whose own type is narrower than it seems. -/
def isNarrowLiteral : Operation → Bool
  | .int _ | .immediate => true
  | _ => false

/-- Whether the operation is a conditional branch. -/
def isConditional : Operation → Bool
  | .ifZero _ | .ifCompare _ | .ifNull _ => true
  | _ => false

/-- Whether the operation returns from the method. -/
def isReturn : Operation → Bool
  | .returnValue | .returnVoid => true
  | _ => false

/-- Whether control never passes on to the following instruction. -/
def endsFlow : Operation → Bool
  | .goto | .switch | .returnValue | .returnVoid | .throw | .ret => true
  | _ => false

/-- Whether the operation is the last one of its block. -/
def endsBlock (operation : Operation) : Bool :=
  operation.endsFlow || operation.isConditional || operation == .jsr

end Operation

/-- An opcode number, of which only the first ones are assigned. -/
structure Opcode where
  code : UInt16
deriving DecidableEq, Inhabited, Repr

namespace Opcode

/-- The mnemonic and the operation of every assigned opcode, in the order of their numbers. -/
def table : List (String × Operation) := [
  ("nop", .nothing), ("aconst_null", .null), ("iconst_m1", .int (-1)), ("iconst_0", .int 0),
  ("iconst_1", .int 1), ("iconst_2", .int 2), ("iconst_3", .int 3), ("iconst_4", .int 4),
  ("iconst_5", .int 5), ("lconst_0", .long 0), ("lconst_1", .long 1), ("fconst_0", .float ⟨0⟩),
  ("fconst_1", .float ⟨0x3f800000⟩), ("fconst_2", .float ⟨0x40000000⟩), ("dconst_0", .double ⟨0⟩),
  ("dconst_1", .double ⟨0x3ff0000000000000⟩), ("bipush", .immediate), ("sipush", .immediate),
  ("ldc", .constant), ("ldc_w", .constant), ("ldc2_w", .constant), ("iload", .load .int none),
  ("lload", .load .long none), ("fload", .load .float none), ("dload", .load .double none),
  ("aload", .load .reference none), ("iload_0", .load .int (some 0)),
  ("iload_1", .load .int (some 1)), ("iload_2", .load .int (some 2)),
  ("iload_3", .load .int (some 3)), ("lload_0", .load .long (some 0)),
  ("lload_1", .load .long (some 1)), ("lload_2", .load .long (some 2)),
  ("lload_3", .load .long (some 3)), ("fload_0", .load .float (some 0)),
  ("fload_1", .load .float (some 1)), ("fload_2", .load .float (some 2)),
  ("fload_3", .load .float (some 3)), ("dload_0", .load .double (some 0)),
  ("dload_1", .load .double (some 1)), ("dload_2", .load .double (some 2)),
  ("dload_3", .load .double (some 3)), ("aload_0", .load .reference (some 0)),
  ("aload_1", .load .reference (some 1)), ("aload_2", .load .reference (some 2)),
  ("aload_3", .load .reference (some 3)), ("iaload", .arrayLoad .int), ("laload", .arrayLoad .long),
  ("faload", .arrayLoad .float), ("daload", .arrayLoad .double), ("aaload", .arrayLoad .reference),
  ("baload", .arrayLoad .byte), ("caload", .arrayLoad .char), ("saload", .arrayLoad .short),
  ("istore", .store .int none), ("lstore", .store .long none), ("fstore", .store .float none),
  ("dstore", .store .double none), ("astore", .store .reference none),
  ("istore_0", .store .int (some 0)), ("istore_1", .store .int (some 1)),
  ("istore_2", .store .int (some 2)), ("istore_3", .store .int (some 3)),
  ("lstore_0", .store .long (some 0)), ("lstore_1", .store .long (some 1)),
  ("lstore_2", .store .long (some 2)), ("lstore_3", .store .long (some 3)),
  ("fstore_0", .store .float (some 0)), ("fstore_1", .store .float (some 1)),
  ("fstore_2", .store .float (some 2)), ("fstore_3", .store .float (some 3)),
  ("dstore_0", .store .double (some 0)), ("dstore_1", .store .double (some 1)),
  ("dstore_2", .store .double (some 2)), ("dstore_3", .store .double (some 3)),
  ("astore_0", .store .reference (some 0)), ("astore_1", .store .reference (some 1)),
  ("astore_2", .store .reference (some 2)), ("astore_3", .store .reference (some 3)),
  ("iastore", .arrayStore .int), ("lastore", .arrayStore .long), ("fastore", .arrayStore .float),
  ("dastore", .arrayStore .double), ("aastore", .arrayStore .reference),
  ("bastore", .arrayStore .byte), ("castore", .arrayStore .char), ("sastore", .arrayStore .short),
  ("pop", .pop), ("pop2", .pop2), ("dup", .dup), ("dup_x1", .dupX1), ("dup_x2", .dupX2),
  ("dup2", .dup2), ("dup2_x1", .dup2X1), ("dup2_x2", .dup2X2), ("swap", .swap),
  ("iadd", .arith .add .int), ("ladd", .arith .add .long), ("fadd", .arith .add .float),
  ("dadd", .arith .add .double), ("isub", .arith .sub .int), ("lsub", .arith .sub .long),
  ("fsub", .arith .sub .float), ("dsub", .arith .sub .double), ("imul", .arith .mul .int),
  ("lmul", .arith .mul .long), ("fmul", .arith .mul .float), ("dmul", .arith .mul .double),
  ("idiv", .arith .div .int), ("ldiv", .arith .div .long), ("fdiv", .arith .div .float),
  ("ddiv", .arith .div .double), ("irem", .arith .rem .int), ("lrem", .arith .rem .long),
  ("frem", .arith .rem .float), ("drem", .arith .rem .double), ("ineg", .negate .int),
  ("lneg", .negate .long), ("fneg", .negate .float), ("dneg", .negate .double),
  ("ishl", .arith .shl .int), ("lshl", .arith .shl .long), ("ishr", .arith .shr .int),
  ("lshr", .arith .shr .long), ("iushr", .arith .ushr .int), ("lushr", .arith .ushr .long),
  ("iand", .arith .and .int), ("land", .arith .and .long), ("ior", .arith .or .int),
  ("lor", .arith .or .long), ("ixor", .arith .xor .int), ("lxor", .arith .xor .long),
  ("iinc", .increment), ("i2l", .convert .long), ("i2f", .convert .float),
  ("i2d", .convert .double),
  ("l2i", .convert .int), ("l2f", .convert .float), ("l2d", .convert .double),
  ("f2i", .convert .int), ("f2l", .convert .long), ("f2d", .convert .double),
  ("d2i", .convert .int),
  ("d2l", .convert .long), ("d2f", .convert .float), ("i2b", .convert .byte),
  ("i2c", .convert .char), ("i2s", .convert .short), ("lcmp", .compare), ("fcmpl", .compare),
  ("fcmpg", .compare), ("dcmpl", .compare), ("dcmpg", .compare), ("ifeq", .ifZero .eq),
  ("ifne", .ifZero .ne), ("iflt", .ifZero .lt), ("ifge", .ifZero .ge), ("ifgt", .ifZero .gt),
  ("ifle", .ifZero .le), ("if_icmpeq", .ifCompare .eq), ("if_icmpne", .ifCompare .ne),
  ("if_icmplt", .ifCompare .lt), ("if_icmpge", .ifCompare .ge), ("if_icmpgt", .ifCompare .gt),
  ("if_icmple", .ifCompare .le), ("if_acmpeq", .ifCompare .eq), ("if_acmpne", .ifCompare .ne),
  ("goto", .goto), ("jsr", .jsr), ("ret", .ret), ("tableswitch", .switch),
  ("lookupswitch", .switch),
  ("ireturn", .returnValue), ("lreturn", .returnValue), ("freturn", .returnValue),
  ("dreturn", .returnValue), ("areturn", .returnValue), ("return", .returnVoid),
  ("getstatic", .getStatic), ("putstatic", .putStatic), ("getfield", .getField),
  ("putfield", .putField), ("invokevirtual", .invoke .virtual), ("invokespecial", .invoke .special),
  ("invokestatic", .invoke .static), ("invokeinterface", .invoke .interface),
  ("invokedynamic", .invoke .dynamic), ("new", .new), ("newarray", .newArray),
  ("anewarray", .newObjectArray), ("arraylength", .arrayLength), ("athrow", .throw),
  ("checkcast", .checkCast), ("instanceof", .instanceOf), ("monitorenter", .monitor .enter),
  ("monitorexit", .monitor .exit), ("wide", .nothing), ("multianewarray", .newMultiArray),
  ("ifnull", .ifNull .eq), ("ifnonnull", .ifNull .ne), ("goto_w", .goto), ("jsr_w", .jsr)
]

/-- The mnemonic of an assigned opcode. -/
def mnemonic? (opcode : Opcode) : Option String := (table[opcode.code.toNat]?).map (·.1)

/-- The operation of an assigned opcode. -/
def operation? (opcode : Opcode) : Option Operation := (table[opcode.code.toNat]?).map (·.2)

/-- The opcode that a mnemonic spells. -/
def ofMnemonic? (name : String) : Option Opcode :=
  (table.findIdx? fun (mnemonic, _) => mnemonic == name).map fun position => ⟨UInt16.ofNat position⟩

/-- Whether an assigned opcode's operation satisfies a test. -/
def satisfies (opcode : Opcode) (test : Operation → Bool) : Bool := opcode.operation?.any test

/-- Whether the opcode pushes an int literal of no authoritative type. -/
def isNarrowLiteral (opcode : Opcode) : Bool := opcode.satisfies Operation.isNarrowLiteral

/-- Whether the opcode is a conditional branch. -/
def isConditional (opcode : Opcode) : Bool := opcode.satisfies Operation.isConditional

/-- Whether the opcode is an unconditional jump. -/
def isGoto (opcode : Opcode) : Bool := opcode.satisfies (· == .goto)

/-- Whether the opcode calls a subroutine. -/
def isJsr (opcode : Opcode) : Bool := opcode.satisfies (· == .jsr)

/-- Whether the opcode is a switch. -/
def isSwitch (opcode : Opcode) : Bool := opcode.satisfies (· == .switch)

/-- Whether the opcode returns from the method. -/
def isReturn (opcode : Opcode) : Bool := opcode.satisfies Operation.isReturn

/-- Whether control never passes on to the following instruction. -/
def endsFlow (opcode : Opcode) : Bool := opcode.satisfies Operation.endsFlow

/-- Whether the opcode is the last one of its block. -/
def endsBlock (opcode : Opcode) : Bool := opcode.satisfies Operation.endsBlock

end Opcode

end Unjump
