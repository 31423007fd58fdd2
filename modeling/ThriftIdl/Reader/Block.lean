import ThriftIdl.Numbering
import ThriftIdl.Reader.Lexeme

namespace ThriftIdl.Reader

variable {α σ : Type}

/-- Items up to a closing character. Each is given the documentation in front of it, and a state
is passed from one to the next. -/
def itemsUntil (close : Char) (item : String → σ → Reader (α × σ)) (s : σ) : Reader (List α) :=
  fix (fun again (items, s) => do
    let doc ← documentation
    if (← peek true) = close then
      advance
      return items
    else
      let (value, s') ← item doc s
      again (items ++ [value], s')) (([] : List α), s)

def joinDocumentation (leading following : String) : String :=
  Text.joinLines ([leading, following].filter (· ≠ ""))

end ThriftIdl.Reader
