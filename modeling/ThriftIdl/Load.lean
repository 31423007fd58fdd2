import ThriftIdl.Discovery
import ThriftIdl.LinkOrder
import ThriftIdl.Linking.Program
import ThriftIdl.Schema.Json

namespace ThriftIdl

structure LoadedPrograms where
  programs : List Program
  order : List ProgramId
deriving DecidableEq, Repr

def loadPrograms (space : SearchSpace) (roots : List String) : Except LoadError LoadedPrograms := do
  let (ids, programs) ← Discovery.discover space roots
  let order ← LinkOrder.ofRoots programs ids
  return ⟨programs, order⟩

/-- Reads the roots and everything they include, and links it to one schema. The first error ends
the load. -/
def load (space : SearchSpace) (roots : List String) : Except LoadError Schema := do
  let loaded ← loadPrograms space roots
  ((Linking.linkAll loaded.order).run (.ofPrograms loaded.programs)).1

end ThriftIdl
