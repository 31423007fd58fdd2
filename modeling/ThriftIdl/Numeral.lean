namespace ThriftIdl.Numeral

def minInt32 : Int := -2147483648

def maxInt32 : Int := 2147483647

def fitsInt32 (n : Int) : Bool := minInt32 ≤ n && n ≤ maxInt32

def digit? (base : Nat) (c : Char) : Option Nat :=
  let value :=
    if '0' ≤ c && c ≤ '9' then c.toNat - '0'.toNat
    else if 'a' ≤ c && c ≤ 'f' then c.toNat - 'a'.toNat + 10
    else if 'A' ≤ c && c ≤ 'F' then c.toNat - 'A'.toNat + 10
    else base
  if value < base then some value else none

def digits? (base : Nat) (cs : List Char) : Option Nat :=
  cs.foldlM (fun n c => (digit? base c).map (n * base + ·)) 0

/-- An unsigned number: `0x` and hexadecimal digits, or decimal digits. -/
def magnitude? : List Char → Option Nat
  | '0' :: 'x' :: cs | '0' :: 'X' :: cs => if cs.isEmpty then none else digits? 16 cs
  | cs => if cs.isEmpty then none else digits? 10 cs

def signed? : List Char → Option Int
  | '-' :: cs => (magnitude? cs).map fun n => -(n : Int)
  | '+' :: cs => (magnitude? cs).map fun n => (n : Int)
  | cs => (magnitude? cs).map fun n => (n : Int)

def int32? (cs : List Char) : Option Int :=
  (signed? cs).filter fitsInt32

end ThriftIdl.Numeral
