/-!
# Opcodes

The closed set of opcodes of the CPython 3.7 interpreter, with their names, their bytes and the
way each transfers control. A name and a byte determine the opcode (`ofName?_name`,
`ofByte?_byte`).
-/

namespace BytecodeFlow

/-- An opcode of the interpreter. -/
inductive Opcode where
  | popTop | rotTwo | rotThree | dupTop | dupTopTwo | nop | unaryPositive | unaryNegative
  | unaryNot | unaryInvert | binaryMatrixMultiply | inplaceMatrixMultiply | binaryPower
  | binaryMultiply | binaryModulo | binaryAdd | binarySubtract | binarySubscr | binaryFloorDivide
  | binaryTrueDivide | inplaceFloorDivide | inplaceTrueDivide | getAiter | getAnext
  | beforeAsyncWith | inplaceAdd | inplaceSubtract | inplaceMultiply | inplaceModulo
  | storeSubscr | deleteSubscr | binaryLshift | binaryRshift | binaryAnd | binaryXor | binaryOr
  | inplacePower | getIter | getYieldFromIter | printExpr | loadBuildClass | yieldFrom
  | getAwaitable | inplaceLshift | inplaceRshift | inplaceAnd | inplaceXor | inplaceOr
  | breakLoop | withCleanupStart | withCleanupFinish | returnValue | importStar
  | setupAnnotations | yieldValue | popBlock | endFinally | popExcept | storeName | deleteName
  | unpackSequence | forIter | unpackEx | storeAttr | deleteAttr | storeGlobal | deleteGlobal
  | loadConst | loadName | buildTuple | buildList | buildSet | buildMap | loadAttr | compareOp
  | importName | importFrom | jumpForward | jumpIfFalseOrPop | jumpIfTrueOrPop | jumpAbsolute
  | popJumpIfFalse | popJumpIfTrue | loadGlobal | continueLoop | setupLoop | setupExcept
  | setupFinally | loadFast | storeFast | deleteFast | raiseVarargs | callFunction | makeFunction
  | buildSlice | loadClosure | loadDeref | storeDeref | deleteDeref | callFunctionKw
  | callFunctionEx | setupWith | extendedArg | listAppend | setAdd | mapAdd | loadClassderef
  | buildListUnpack | buildMapUnpack | buildMapUnpackWithCall | buildTupleUnpack | buildSetUnpack
  | setupAsyncWith | formatValue | buildConstKeyMap | buildString | buildTupleUnpackWithCall
  | loadMethod | callMethod
deriving DecidableEq

namespace Opcode

/-- Every opcode, by ascending byte. -/
def all : List Opcode :=
  [.popTop, .rotTwo, .rotThree, .dupTop, .dupTopTwo, .nop, .unaryPositive, .unaryNegative,
    .unaryNot, .unaryInvert, .binaryMatrixMultiply, .inplaceMatrixMultiply, .binaryPower,
    .binaryMultiply, .binaryModulo, .binaryAdd, .binarySubtract, .binarySubscr,
    .binaryFloorDivide, .binaryTrueDivide, .inplaceFloorDivide, .inplaceTrueDivide, .getAiter,
    .getAnext, .beforeAsyncWith, .inplaceAdd, .inplaceSubtract, .inplaceMultiply, .inplaceModulo,
    .storeSubscr, .deleteSubscr, .binaryLshift, .binaryRshift, .binaryAnd, .binaryXor, .binaryOr,
    .inplacePower, .getIter, .getYieldFromIter, .printExpr, .loadBuildClass, .yieldFrom,
    .getAwaitable, .inplaceLshift, .inplaceRshift, .inplaceAnd, .inplaceXor, .inplaceOr,
    .breakLoop, .withCleanupStart, .withCleanupFinish, .returnValue, .importStar,
    .setupAnnotations, .yieldValue, .popBlock, .endFinally, .popExcept, .storeName, .deleteName,
    .unpackSequence, .forIter, .unpackEx, .storeAttr, .deleteAttr, .storeGlobal, .deleteGlobal,
    .loadConst, .loadName, .buildTuple, .buildList, .buildSet, .buildMap, .loadAttr, .compareOp,
    .importName, .importFrom, .jumpForward, .jumpIfFalseOrPop, .jumpIfTrueOrPop, .jumpAbsolute,
    .popJumpIfFalse, .popJumpIfTrue, .loadGlobal, .continueLoop, .setupLoop, .setupExcept,
    .setupFinally, .loadFast, .storeFast, .deleteFast, .raiseVarargs, .callFunction,
    .makeFunction, .buildSlice, .loadClosure, .loadDeref, .storeDeref, .deleteDeref,
    .callFunctionKw, .callFunctionEx, .setupWith, .extendedArg, .listAppend, .setAdd, .mapAdd,
    .loadClassderef, .buildListUnpack, .buildMapUnpack, .buildMapUnpackWithCall,
    .buildTupleUnpack, .buildSetUnpack, .setupAsyncWith, .formatValue, .buildConstKeyMap,
    .buildString, .buildTupleUnpackWithCall, .loadMethod, .callMethod]

/-- The name in a listing. -/
def name : Opcode → String
  | .popTop => "POP_TOP"
  | .rotTwo => "ROT_TWO"
  | .rotThree => "ROT_THREE"
  | .dupTop => "DUP_TOP"
  | .dupTopTwo => "DUP_TOP_TWO"
  | .nop => "NOP"
  | .unaryPositive => "UNARY_POSITIVE"
  | .unaryNegative => "UNARY_NEGATIVE"
  | .unaryNot => "UNARY_NOT"
  | .unaryInvert => "UNARY_INVERT"
  | .binaryMatrixMultiply => "BINARY_MATRIX_MULTIPLY"
  | .inplaceMatrixMultiply => "INPLACE_MATRIX_MULTIPLY"
  | .binaryPower => "BINARY_POWER"
  | .binaryMultiply => "BINARY_MULTIPLY"
  | .binaryModulo => "BINARY_MODULO"
  | .binaryAdd => "BINARY_ADD"
  | .binarySubtract => "BINARY_SUBTRACT"
  | .binarySubscr => "BINARY_SUBSCR"
  | .binaryFloorDivide => "BINARY_FLOOR_DIVIDE"
  | .binaryTrueDivide => "BINARY_TRUE_DIVIDE"
  | .inplaceFloorDivide => "INPLACE_FLOOR_DIVIDE"
  | .inplaceTrueDivide => "INPLACE_TRUE_DIVIDE"
  | .getAiter => "GET_AITER"
  | .getAnext => "GET_ANEXT"
  | .beforeAsyncWith => "BEFORE_ASYNC_WITH"
  | .inplaceAdd => "INPLACE_ADD"
  | .inplaceSubtract => "INPLACE_SUBTRACT"
  | .inplaceMultiply => "INPLACE_MULTIPLY"
  | .inplaceModulo => "INPLACE_MODULO"
  | .storeSubscr => "STORE_SUBSCR"
  | .deleteSubscr => "DELETE_SUBSCR"
  | .binaryLshift => "BINARY_LSHIFT"
  | .binaryRshift => "BINARY_RSHIFT"
  | .binaryAnd => "BINARY_AND"
  | .binaryXor => "BINARY_XOR"
  | .binaryOr => "BINARY_OR"
  | .inplacePower => "INPLACE_POWER"
  | .getIter => "GET_ITER"
  | .getYieldFromIter => "GET_YIELD_FROM_ITER"
  | .printExpr => "PRINT_EXPR"
  | .loadBuildClass => "LOAD_BUILD_CLASS"
  | .yieldFrom => "YIELD_FROM"
  | .getAwaitable => "GET_AWAITABLE"
  | .inplaceLshift => "INPLACE_LSHIFT"
  | .inplaceRshift => "INPLACE_RSHIFT"
  | .inplaceAnd => "INPLACE_AND"
  | .inplaceXor => "INPLACE_XOR"
  | .inplaceOr => "INPLACE_OR"
  | .breakLoop => "BREAK_LOOP"
  | .withCleanupStart => "WITH_CLEANUP_START"
  | .withCleanupFinish => "WITH_CLEANUP_FINISH"
  | .returnValue => "RETURN_VALUE"
  | .importStar => "IMPORT_STAR"
  | .setupAnnotations => "SETUP_ANNOTATIONS"
  | .yieldValue => "YIELD_VALUE"
  | .popBlock => "POP_BLOCK"
  | .endFinally => "END_FINALLY"
  | .popExcept => "POP_EXCEPT"
  | .storeName => "STORE_NAME"
  | .deleteName => "DELETE_NAME"
  | .unpackSequence => "UNPACK_SEQUENCE"
  | .forIter => "FOR_ITER"
  | .unpackEx => "UNPACK_EX"
  | .storeAttr => "STORE_ATTR"
  | .deleteAttr => "DELETE_ATTR"
  | .storeGlobal => "STORE_GLOBAL"
  | .deleteGlobal => "DELETE_GLOBAL"
  | .loadConst => "LOAD_CONST"
  | .loadName => "LOAD_NAME"
  | .buildTuple => "BUILD_TUPLE"
  | .buildList => "BUILD_LIST"
  | .buildSet => "BUILD_SET"
  | .buildMap => "BUILD_MAP"
  | .loadAttr => "LOAD_ATTR"
  | .compareOp => "COMPARE_OP"
  | .importName => "IMPORT_NAME"
  | .importFrom => "IMPORT_FROM"
  | .jumpForward => "JUMP_FORWARD"
  | .jumpIfFalseOrPop => "JUMP_IF_FALSE_OR_POP"
  | .jumpIfTrueOrPop => "JUMP_IF_TRUE_OR_POP"
  | .jumpAbsolute => "JUMP_ABSOLUTE"
  | .popJumpIfFalse => "POP_JUMP_IF_FALSE"
  | .popJumpIfTrue => "POP_JUMP_IF_TRUE"
  | .loadGlobal => "LOAD_GLOBAL"
  | .continueLoop => "CONTINUE_LOOP"
  | .setupLoop => "SETUP_LOOP"
  | .setupExcept => "SETUP_EXCEPT"
  | .setupFinally => "SETUP_FINALLY"
  | .loadFast => "LOAD_FAST"
  | .storeFast => "STORE_FAST"
  | .deleteFast => "DELETE_FAST"
  | .raiseVarargs => "RAISE_VARARGS"
  | .callFunction => "CALL_FUNCTION"
  | .makeFunction => "MAKE_FUNCTION"
  | .buildSlice => "BUILD_SLICE"
  | .loadClosure => "LOAD_CLOSURE"
  | .loadDeref => "LOAD_DEREF"
  | .storeDeref => "STORE_DEREF"
  | .deleteDeref => "DELETE_DEREF"
  | .callFunctionKw => "CALL_FUNCTION_KW"
  | .callFunctionEx => "CALL_FUNCTION_EX"
  | .setupWith => "SETUP_WITH"
  | .extendedArg => "EXTENDED_ARG"
  | .listAppend => "LIST_APPEND"
  | .setAdd => "SET_ADD"
  | .mapAdd => "MAP_ADD"
  | .loadClassderef => "LOAD_CLASSDEREF"
  | .buildListUnpack => "BUILD_LIST_UNPACK"
  | .buildMapUnpack => "BUILD_MAP_UNPACK"
  | .buildMapUnpackWithCall => "BUILD_MAP_UNPACK_WITH_CALL"
  | .buildTupleUnpack => "BUILD_TUPLE_UNPACK"
  | .buildSetUnpack => "BUILD_SET_UNPACK"
  | .setupAsyncWith => "SETUP_ASYNC_WITH"
  | .formatValue => "FORMAT_VALUE"
  | .buildConstKeyMap => "BUILD_CONST_KEY_MAP"
  | .buildString => "BUILD_STRING"
  | .buildTupleUnpackWithCall => "BUILD_TUPLE_UNPACK_WITH_CALL"
  | .loadMethod => "LOAD_METHOD"
  | .callMethod => "CALL_METHOD"

/-- The byte that encodes the opcode. -/
def byte : Opcode → Nat
  | .popTop => 1
  | .rotTwo => 2
  | .rotThree => 3
  | .dupTop => 4
  | .dupTopTwo => 5
  | .nop => 9
  | .unaryPositive => 10
  | .unaryNegative => 11
  | .unaryNot => 12
  | .unaryInvert => 15
  | .binaryMatrixMultiply => 16
  | .inplaceMatrixMultiply => 17
  | .binaryPower => 19
  | .binaryMultiply => 20
  | .binaryModulo => 22
  | .binaryAdd => 23
  | .binarySubtract => 24
  | .binarySubscr => 25
  | .binaryFloorDivide => 26
  | .binaryTrueDivide => 27
  | .inplaceFloorDivide => 28
  | .inplaceTrueDivide => 29
  | .getAiter => 50
  | .getAnext => 51
  | .beforeAsyncWith => 52
  | .inplaceAdd => 55
  | .inplaceSubtract => 56
  | .inplaceMultiply => 57
  | .inplaceModulo => 59
  | .storeSubscr => 60
  | .deleteSubscr => 61
  | .binaryLshift => 62
  | .binaryRshift => 63
  | .binaryAnd => 64
  | .binaryXor => 65
  | .binaryOr => 66
  | .inplacePower => 67
  | .getIter => 68
  | .getYieldFromIter => 69
  | .printExpr => 70
  | .loadBuildClass => 71
  | .yieldFrom => 72
  | .getAwaitable => 73
  | .inplaceLshift => 75
  | .inplaceRshift => 76
  | .inplaceAnd => 77
  | .inplaceXor => 78
  | .inplaceOr => 79
  | .breakLoop => 80
  | .withCleanupStart => 81
  | .withCleanupFinish => 82
  | .returnValue => 83
  | .importStar => 84
  | .setupAnnotations => 85
  | .yieldValue => 86
  | .popBlock => 87
  | .endFinally => 88
  | .popExcept => 89
  | .storeName => 90
  | .deleteName => 91
  | .unpackSequence => 92
  | .forIter => 93
  | .unpackEx => 94
  | .storeAttr => 95
  | .deleteAttr => 96
  | .storeGlobal => 97
  | .deleteGlobal => 98
  | .loadConst => 100
  | .loadName => 101
  | .buildTuple => 102
  | .buildList => 103
  | .buildSet => 104
  | .buildMap => 105
  | .loadAttr => 106
  | .compareOp => 107
  | .importName => 108
  | .importFrom => 109
  | .jumpForward => 110
  | .jumpIfFalseOrPop => 111
  | .jumpIfTrueOrPop => 112
  | .jumpAbsolute => 113
  | .popJumpIfFalse => 114
  | .popJumpIfTrue => 115
  | .loadGlobal => 116
  | .continueLoop => 119
  | .setupLoop => 120
  | .setupExcept => 121
  | .setupFinally => 122
  | .loadFast => 124
  | .storeFast => 125
  | .deleteFast => 126
  | .raiseVarargs => 130
  | .callFunction => 131
  | .makeFunction => 132
  | .buildSlice => 133
  | .loadClosure => 135
  | .loadDeref => 136
  | .storeDeref => 137
  | .deleteDeref => 138
  | .callFunctionKw => 141
  | .callFunctionEx => 142
  | .setupWith => 143
  | .extendedArg => 144
  | .listAppend => 145
  | .setAdd => 146
  | .mapAdd => 147
  | .loadClassderef => 148
  | .buildListUnpack => 149
  | .buildMapUnpack => 150
  | .buildMapUnpackWithCall => 151
  | .buildTupleUnpack => 152
  | .buildSetUnpack => 153
  | .setupAsyncWith => 154
  | .formatValue => 155
  | .buildConstKeyMap => 156
  | .buildString => 157
  | .buildTupleUnpackWithCall => 158
  | .loadMethod => 160
  | .callMethod => 161

/-- The opcode of a name. -/
def ofName? (text : String) : Option Opcode :=
  all.find? (·.name == text)

/-- The opcode that a byte encodes. -/
def ofByte? (value : Nat) : Option Opcode :=
  all.find? (·.byte == value)

/-- The first byte whose opcode takes an argument. -/
def firstWithArg : Nat := 90

/-- Whether the opcode takes an argument. -/
def hasArg (op : Opcode) : Bool :=
  firstWithArg ≤ op.byte

theorem mem_all (op : Opcode) : op ∈ all := by
  cases op <;> decide

theorem ofByte?_byte (op : Opcode) : ofByte? op.byte = some op := by
  cases op <;> rfl

theorem ofName?_name (op : Opcode) : ofName? op.name = some op := by
  have h : (all.all fun op => ofName? op.name == some op) = true := by decide +kernel
  simpa using List.all_eq_true.1 h op (mem_all op)

theorem isUpper_or_underscore_of_mem_name {op : Opcode} {c : Char} (h : c ∈ op.name.toList) :
    c.isUpper = true ∨ c = '_' := by
  have hall : (all.all fun op => op.name.toList.all fun c => c.isUpper || c == '_') = true := by
    decide +kernel
  have hop := List.all_eq_true.1 hall op (mem_all op)
  simpa using List.all_eq_true.1 hop c h

/-- No opcode has the empty name. -/
theorem toList_name_ne_nil (op : Opcode) : op.name.toList ≠ [] := by
  intro hnil
  have hname : op.name = "" := String.toList_inj.1 hnil
  have hfound := ofName?_name op
  have hnone : ofName? "" = none := by decide +kernel
  rw [hname, hnone] at hfound
  cases hfound

theorem name_of_ofName? {text : String} {op : Opcode} (h : ofName? text = some op) :
    op.name = text := by
  simpa using List.find?_some h

end Opcode

end BytecodeFlow
