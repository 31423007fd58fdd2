namespace ThriftIdl.Text

def isWhiteSpace (c : Char) : Bool :=
  ('\t' ≤ c && c ≤ '\r') || c == ' ' || c == '\u0085' || c == '\u00a0' || c == '\u1680' ||
    ('\u2000' ≤ c && c ≤ '\u200a') || c == '\u2028' || c == '\u2029' || c == '\u202f' ||
    c == '\u205f' || c == '\u3000'

def trimLeft (p : Char → Bool) (s : List Char) : List Char :=
  s.dropWhile p

def trimRight (p : Char → Bool) (s : List Char) : List Char :=
  (s.reverse.dropWhile p).reverse

def trim (p : Char → Bool) (s : List Char) : List Char :=
  trimRight p (trimLeft p s)

def occursIn (pattern : List Char) : List Char → Bool
  | [] => pattern.isEmpty
  | c :: cs => pattern.isPrefixOf (c :: cs) || occursIn pattern cs

def mentions (word : String) (text : String) : Bool :=
  occursIn word.toList (text.toList.map Char.toLower)

def joinLines (lines : List String) : String :=
  "\n".intercalate lines

end ThriftIdl.Text
