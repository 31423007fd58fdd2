import ThriftIdl.Document.Canonical
import ThriftIdl.Load
import ThriftIdl.ScanSession
import ThriftIdl.TypeTables
import ThriftIdl.Proofs.Interning
import ThriftIdl.Proofs.Unfolding
import ThriftIdl.Proofs.GraphConstruction
import ThriftIdl.Proofs.TypeTables
import ThriftIdl.Proofs.Denotation
import ThriftIdl.Proofs.Resolution
import ThriftIdl.Proofs.LinkStates
import ThriftIdl.Proofs.LinkedDeclarations
import ThriftIdl.Proofs.SymbolTables
import ThriftIdl.Proofs.DeclaredNames
import ThriftIdl.Proofs.TypedefRounds
import ThriftIdl.Proofs.TypedefFixpoint
import ThriftIdl.Proofs.TypedefMeaning
import ThriftIdl.Proofs.IncludeDiscovery
import ThriftIdl.Proofs.IncludeCycles
import ThriftIdl.Proofs.LoadOrder
import ThriftIdl.Proofs.DiscoveryOrder
import ThriftIdl.Proofs.IncludeSearch
import ThriftIdl.Proofs.IncludeClosure
import ThriftIdl.Proofs.LinkedParts
import ThriftIdl.Proofs.LinkedSchema
import ThriftIdl.Proofs.NameCapture
import ThriftIdl.Proofs.SchemaContents
import ThriftIdl.Proofs.RoundTrip
import ThriftIdl.Proofs.Trails
import ThriftIdl.Proofs.LinkingRules
import ThriftIdl.Proofs.ServiceInheritance
import ThriftIdl.Proofs.ServiceSymbols
import ThriftIdl.Proofs.ServiceRuns
import ThriftIdl.Proofs.WellFoundedServices
import ThriftIdl.Proofs.LinkedGraphs
import ThriftIdl.Proofs.CanonicalNames
import ThriftIdl.Proofs.TypeForms
import ThriftIdl.Proofs.DeclaredPositions
import ThriftIdl.Proofs.ValidSchemas
import ThriftIdl.Proofs.UnplacedTypes
import ThriftIdl.Proofs.LinkingInStep
import ThriftIdl.Proofs.TypesInStep
import ThriftIdl.Proofs.ServicesInStep
import ThriftIdl.Proofs.ProgramsInStep
import ThriftIdl.Proofs.SchemaArrays
import ThriftIdl.Proofs.ModularLoads
import ThriftIdl.Proofs.CursorMovement
import ThriftIdl.Proofs.LexemeMovement
import ThriftIdl.Proofs.CommentTexts
import ThriftIdl.Proofs.CommentRuns
import ThriftIdl.Proofs.SourcePositions
import ThriftIdl.Proofs.DocumentLists
import ThriftIdl.Proofs.SourceOrder
import ThriftIdl.Proofs.FaultPositions
import ThriftIdl.Proofs.ReadingInStep
import ThriftIdl.Proofs.Layout
import ThriftIdl.Proofs.LayoutLexemes
import ThriftIdl.Proofs.Relocation
import ThriftIdl.Proofs.LayoutReading
import ThriftIdl.Proofs.CheckedScanning
import ThriftIdl.Proofs.ScanRules
import ThriftIdl.Proofs.ScannedComments
import ThriftIdl.Proofs.ScannedLexemes
import ThriftIdl.Proofs.ScanTraces
import ThriftIdl.Proofs.CheckedParsing
import ThriftIdl.Proofs.ScannedDocuments
import ThriftIdl.Proofs.CheckedLoading
import ThriftIdl.Proofs.CheckedDiscovery
import ThriftIdl.Proofs.CheckedOrder
import ThriftIdl.Proofs.GuardedStates
import ThriftIdl.Proofs.GuardedRuns
import ThriftIdl.Proofs.LoadSafety
import ThriftIdl.Proofs.MoreDirectories
import ThriftIdl.Proofs.Numberings
import ThriftIdl.Proofs.FieldNumbers
import ThriftIdl.Proofs.EnumValues
import ThriftIdl.Proofs.TypeResolution
import ThriftIdl.Proofs.TypedefFaults
import ThriftIdl.Proofs.ReadingAlike
import ThriftIdl.Proofs.LineBreaks
import ThriftIdl.Proofs.RewrittenComments
import ThriftIdl.Proofs.LiteralSpellings
import ThriftIdl.Proofs.RewrittenLexemes
import ThriftIdl.Proofs.RewrittenReading
import ThriftIdl.Proofs.DeclarationRuns
import ThriftIdl.Proofs.JoinedTexts
import ThriftIdl.Proofs.NameChecks
import ThriftIdl.Proofs.MethodRules
import ThriftIdl.Proofs.TypeSpellings
import ThriftIdl.Proofs.NamesReadBack
import ThriftIdl.Proofs.Numerals
import ThriftIdl.Proofs.HarvestedComments
import ThriftIdl.Proofs.LiteralReading
import ThriftIdl.Proofs.TrailingComments
import ThriftIdl.Proofs.OneLineComments
import ThriftIdl.Proofs.CanonicalPaths
