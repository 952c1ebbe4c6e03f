import GlyphMachine.Code

/-!
# Printing block code

The written form of operations and exits: a name, then the arguments in brackets, or named in
braces where there is more than a plain list.  All numbers are decimal.
-/

namespace GlyphMachine

/-- A name with arguments in brackets. -/
def Text.applied (name : String) (args : List String) : String :=
  name ++ "(" ++ ", ".intercalate args ++ ")"

/-- A name with named arguments in braces. -/
def Text.named (name : String) (fields : List (String × String)) : String :=
  name ++ " \x7b " ++ ", ".intercalate (fields.map fun (field, text) => field ++ ": " ++ text) ++
    " \x7d"

/-- A word as the integer it holds. -/
def Word.decimal (w : Word) : String := toString w.toInt

/-- The name of the operation. -/
def BinaryOp.name : BinaryOp → String
  | add => "Add"
  | sub => "Sub"
  | mul => "Mul"
  | div => "Div"
  | mod => "Mod"
  | bitAnd => "And"
  | bitOr => "Or"
  | bitXor => "Xor"
  | shift => "Shift"
  | rotate => "Rotate"
  | angle => "Atan2"

/-- The name of the operation. -/
def UnaryOp.name : UnaryOp → String
  | sine => "Sin"
  | root => "Sqrt"
  | bitNot => "Not"
  | negativePart => "ClampNeg"
  | positivePart => "ClampPos"
  | zeroTest => "IsZero"

/-- The written form of an operation. -/
def Op.text : Op → String
  | push w => Text.applied "Push" [w.decimal]
  | pushTwice w => Text.applied "PushTwice" [w.decimal]
  | binary f => Text.applied "Binary" [f.name]
  | binaryWith f w => Text.applied "BinaryImm" [f.name, w.decimal]
  | unary f => Text.applied "Unary" [f.name]
  | dup => "Dup"
  | drop => "Drop"
  | exchange => "Exchange"
  | rotateUp => "TriRot"
  | rotateDown => "TriRotReverse"
  | pick => "Pick"
  | pickAt n => Text.applied "PickAt" [toString n]
  | bury => "Bury"
  | buryAt n => Text.applied "BuryAt" [toString n]
  | load => "Load"
  | loadAt addr => Text.applied "LoadAt" [toString addr]
  | loadDirect addr => Text.applied "LoadDirect" [toString addr]
  | store => "Store"
  | storeAt addr => Text.applied "StoreAt" [toString addr]
  | storeDirect addr => Text.applied "StoreDirect" [toString addr]
  | fromControl => "FromControl"
  | toControl => "ToControl"
  | toControlWith w => Text.applied "ToControlImm" [w.decimal]
  | controlPeek n => Text.applied "ControlPeek" [toString n]
  | mark marker => Text.applied "Mark" [marker.decimal]
  | markCounted marker => Text.applied "MarkCounted" [marker.decimal]
  | markCountedWith count marker =>
    Text.named "MarkCountedImm" [("count", count.decimal), ("marker", marker.decimal)]
  | define entry => Text.named "Define" [("entry", entry.decimal)]
  | defineAt addr entry =>
    Text.named "DefineAt" [("slot", toString addr), ("entry", entry.decimal)]
  | context => "Where"

/-- The written form of an exit. -/
def Exit.text : Exit → String
  | goto next => Text.applied "Goto" [toString next]
  | ifZero skipTo next =>
    Text.named "IfZero" [("skip_to", toString skipTo), ("next", toString next)]
  | loopWhile next => Text.named "While" [("next", toString next)]
  | countDown next => Text.named "CountDown" [("next", toString next)]
  | ret => "Return"
  | call back slot =>
    let slot := match slot with
      | none => "None"
      | some addr => Text.applied "Some" [toString addr]
    Text.named "Call" [("ret", back.decimal), ("slot", slot)]
  | jump => "Jump"
  | jumpTo target => Text.applied "JumpTo" [toString target]
  | switch addr resume =>
    Text.named "Switch" [("at", toString addr), ("resume", toString resume)]
  | terminate addr => Text.named "Terminate" [("at", toString addr)]

end GlyphMachine
