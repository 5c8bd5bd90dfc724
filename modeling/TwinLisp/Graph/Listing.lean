import TwinLisp.Graph.Text

/-! The listing of a module: its text as an assembly program. -/

namespace TwinLisp.Graph

def utf8Bytes (text : String) : List UInt8 :=
  text.toList.flatMap String.utf8EncodeChar

/-- A hexadecimal digit in upper case. -/
def hexDigit (n : Nat) : Char :=
  if n < 10 then Char.ofNat (48 + n) else Char.ofNat (55 + n)

/-- Printable ASCII stands for itself, but quotation marks and backslashes are written like every
other byte: as a backslash and two hexadecimal digits. -/
def escapeByte (byte : UInt8) : List Char :=
  let n := byte.toNat
  if 32 ≤ n ∧ n ≤ 126 ∧ n ≠ 34 ∧ n ≠ 92 then [Char.ofNat n]
  else ['\\', hexDigit (n / 16), hexDigit (n % 16)]

def escape (text : String) : String :=
  String.ofList ((utf8Bytes text).flatMap escapeByte)

/-- Characters of names that need no quotation marks. -/
def isPlainChar (c : Char) : Bool :=
  c.isAlphanum || c == '_' || c == '.' || c == '$'

def isPlainName (name : String) : Bool :=
  !name.toList.isEmpty && name.toList.all isPlainChar

def globalText (name : String) : String :=
  if isPlainName name then "@" ++ name else "@\"" ++ escape name ++ "\""

def arithText : ArithOp → String
  | .add => "add"
  | .sub => "sub"
  | .mul => "mul"
  | .div => "sdiv"

def compareText : CmpOp → String
  | .lt => "slt"
  | .gt => "sgt"
  | .eq => "eq"
  | .ne => "ne"
  | .le => "sle"
  | .ge => "sge"

def typedText (operand : Operand) : String :=
  "i64 " ++ operandText operand

def commaList (texts : List String) : String :=
  ", ".intercalate texts

namespace Module

def operationText (m : Module) : Operation → String
  | .load slot => "load i64, ptr " ++ slotText slot
  | .arith op left right => arithText op ++ " " ++ typedText left ++ ", " ++ operandText right
  | .neg operand => "sub i64 0, " ++ operandText operand
  | .compare op left right =>
    "icmp " ++ compareText op ++ " " ++ typedText left ++ ", " ++ operandText right
  | .extend operand => "zext i1 " ++ valueText operand ++ " to i64"
  | .call callee args =>
    -- a unit that does not exist has no name
    "call i64 " ++ globalText (((m.units[callee]?).map (·.name)).getD "?") ++
      "(" ++ commaList (args.map typedText) ++ ")"
  | .phi incoming =>
    "phi i64 " ++ commaList (incoming.map fun (block, operand) =>
      "[ " ++ operandText operand ++ ", %" ++ blockText block ++ " ]")

def effectText : Effect → String
  | .store slot value => "store " ++ typedText value ++ ", ptr " ++ slotText slot
  | .printInt value => "call void @print_i64(" ++ typedText value ++ ")"
  | .printStr string => "call void @print_str(ptr " ++ stringText string ++ ")"

/-- An instruction of a body; an allocation names its variable. -/
def instrText (m : Module) (body : Body) : Instr → String
  | .alloca slot =>
    slotText slot ++ " = alloca i64 ; " ++ ((body.slots[slot]?).map (·.name)).getD ""
  | .define dst operation => valueText dst ++ " = " ++ m.operationText operation
  | .perform effect => effectText effect

def terminatorText : Option Terminator → String
  | some (.ret value) => "ret " ++ typedText value
  | some (.br target) => "br label %" ++ blockText target
  | some (.condBr cond yes no) =>
    "br i1 " ++ valueText cond ++ ", label %" ++ blockText yes ++ ", label %" ++ blockText no
  | none => "; missing terminator"

def blockLines (m : Module) (body : Body) (block : Block) : List String :=
  (blockText block.id ++ ":") :: block.instrs.map (fun i => "  " ++ m.instrText body i) ++
    ["  " ++ terminatorText block.terminator]

/-- The lines of a unit: its code, or a declaration. -/
def unitLines (m : Module) (unit : CodeUnit) : List String :=
  match unit.body with
  | none =>
    ["declare i64 " ++ globalText unit.name ++ "(" ++
      commaList (List.replicate unit.arity "i64") ++ ")"]
  | some body =>
    ["define i64 " ++ globalText unit.name ++ "(" ++
      commaList (body.params.map fun p => "i64 " ++ valueText p) ++ ") \x7b"] ++
    body.blocks.flatMap (m.blockLines body) ++ ["\x7d"]

/-- The line of a string constant, which is ended by a zero byte. -/
def stringLine (id : StringId) (text : String) : String :=
  stringText id ++ " = private constant [" ++ toString ((utf8Bytes text).length + 1) ++
    " x i8] c\"" ++ escape text ++ "\\00\""

def listingLines (m : Module) : List String :=
  ["; ModuleID = \x27" ++ m.name ++ "\x27"] ++
  m.strings.toList.mapIdx stringLine ++
  ["", "declare void @print_i64(i64)", "declare void @print_str(ptr)"] ++
  m.units.toList.flatMap fun unit => "" :: m.unitLines unit

/-- The listing, every line ended by a line feed. -/
def listing (m : Module) : String :=
  String.join (m.listingLines.map (· ++ "\n"))

end Module

end TwinLisp.Graph
