import ThriftIdl.Reader.Declaration

namespace ThriftIdl.Document

def parse (file : String) (text : String) : Except SyntaxError Document := do
  let declarations ← Reader.declarations.run' (Cursor.ofText text)
  return ⟨file, declarations⟩

end ThriftIdl.Document
