namespace ThriftIdl

abbrev TypeId := Nat

inductive Builtin
  | bool | byte | i16 | i32 | i64 | double | string | binary | void
deriving DecidableEq, Repr

namespace Builtin

def every : List Builtin :=
  [bool, byte, i16, i32, i64, double, string, binary, void]

def name : Builtin → String
  | bool => "bool"
  | byte => "byte"
  | i16 => "i16"
  | i32 => "i32"
  | i64 => "i64"
  | double => "double"
  | string => "string"
  | binary => "binary"
  | void => "void"

/-- The type with this name. An `i8` is a byte. -/
def ofName? : String → Option Builtin
  | "bool" => some bool
  | "byte" => some byte
  | "i8" => some byte
  | "i16" => some i16
  | "i32" => some i32
  | "i64" => some i64
  | "double" => some double
  | "string" => some string
  | "binary" => some binary
  | "void" => some void
  | _ => none

def id : Builtin → TypeId
  | bool => 1
  | byte => 2
  | i16 => 3
  | i32 => 4
  | i64 => 5
  | double => 6
  | string => 7
  | binary => 8
  | void => 9

end Builtin

end ThriftIdl
