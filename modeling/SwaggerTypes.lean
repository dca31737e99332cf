import SwaggerTypes.CommandLine.Arguments
import SwaggerTypes.CommandLine.Command
import SwaggerTypes.CommandLine.OptionFile
import SwaggerTypes.Conversion
import SwaggerTypes.Decimal.Double
import SwaggerTypes.Decimal.Reading
import SwaggerTypes.Decimal.Shortest
import SwaggerTypes.Document.Entries
import SwaggerTypes.Document.Mismatch
import SwaggerTypes.Document.Pointer
import SwaggerTypes.Document.Record
import SwaggerTypes.Document.Value
import SwaggerTypes.Fault
import SwaggerTypes.Main
import SwaggerTypes.Markup.Cursor
import SwaggerTypes.Markup.Datum
import SwaggerTypes.Markup.Document
import SwaggerTypes.Markup.Expansion
import SwaggerTypes.Markup.Merge
import SwaggerTypes.Markup.Node
import SwaggerTypes.Markup.Scalar
import SwaggerTypes.Markup.Tag
import SwaggerTypes.Markup.Token
import SwaggerTypes.Model
import SwaggerTypes.Model.Definition
import SwaggerTypes.Model.Operation
import SwaggerTypes.Model.Parameter
import SwaggerTypes.Options
import SwaggerTypes.Proofs.AddressableDefinitions
import SwaggerTypes.Proofs.Addresses
import SwaggerTypes.Proofs.Adequacy
import SwaggerTypes.Proofs.AliasCycles
import SwaggerTypes.Proofs.Approximation
import SwaggerTypes.Proofs.Budget
import SwaggerTypes.Proofs.ByteOrder
import SwaggerTypes.Proofs.ChildSchemas
import SwaggerTypes.Proofs.CircularWarnings
import SwaggerTypes.Proofs.CommandEffects
import SwaggerTypes.Proofs.Comments
import SwaggerTypes.Proofs.Composed
import SwaggerTypes.Proofs.DanglingReferences
import SwaggerTypes.Proofs.Declarations
import SwaggerTypes.Proofs.DeclaredNames
import SwaggerTypes.Proofs.DefinitionOrder
import SwaggerTypes.Proofs.Degradation
import SwaggerTypes.Proofs.DistinctNames
import SwaggerTypes.Proofs.DocumentPointers
import SwaggerTypes.Proofs.EffectiveParameters
import SwaggerTypes.Proofs.ExchangedSchemas
import SwaggerTypes.Proofs.ExchangedValues
import SwaggerTypes.Proofs.FaultContainment
import SwaggerTypes.Proofs.GivenTypes
import SwaggerTypes.Proofs.IdentifierCharacters
import SwaggerTypes.Proofs.Intersections
import SwaggerTypes.Proofs.KeptNames
import SwaggerTypes.Proofs.Lines
import SwaggerTypes.Proofs.ListedAlternatives
import SwaggerTypes.Proofs.ListedValues
import SwaggerTypes.Proofs.Membership
import SwaggerTypes.Proofs.MergedObjects
import SwaggerTypes.Proofs.NamedReferences
import SwaggerTypes.Proofs.Names
import SwaggerTypes.Proofs.NamespaceLines
import SwaggerTypes.Proofs.Numerals
import SwaggerTypes.Proofs.Operands
import SwaggerTypes.Proofs.ParameterChains
import SwaggerTypes.Proofs.ParameterForms
import SwaggerTypes.Proofs.ParameterKeywords
import SwaggerTypes.Proofs.ParameterSchemas
import SwaggerTypes.Proofs.ParameterSources
import SwaggerTypes.Proofs.ParameterWarnings
import SwaggerTypes.Proofs.PlaceIndependence
import SwaggerTypes.Proofs.Pointers
import SwaggerTypes.Proofs.PropertyOrder
import SwaggerTypes.Proofs.QueryInterfaces
import SwaggerTypes.Proofs.QuotedTexts
import SwaggerTypes.Proofs.Reach
import SwaggerTypes.Proofs.ReadableTypes
import SwaggerTypes.Proofs.Reading
import SwaggerTypes.Proofs.ReferenceHops
import SwaggerTypes.Proofs.RenamedDeclarations
import SwaggerTypes.Proofs.ReorderedTypes
import SwaggerTypes.Proofs.RepeatedMembers
import SwaggerTypes.Proofs.Resolution
import SwaggerTypes.Proofs.RoutineAgreement
import SwaggerTypes.Proofs.Routines
import SwaggerTypes.Proofs.Run
import SwaggerTypes.Proofs.SanitizedNames
import SwaggerTypes.Proofs.ShortestDecimals
import SwaggerTypes.Proofs.Slots
import SwaggerTypes.Proofs.SortedBuilds
import SwaggerTypes.Proofs.StateDiscipline
import SwaggerTypes.Proofs.StorageLaws
import SwaggerTypes.Proofs.Termination
import SwaggerTypes.Proofs.TextNumbers
import SwaggerTypes.Proofs.TypeGrammar
import SwaggerTypes.Proofs.TypeReading
import SwaggerTypes.Proofs.TypeSameness
import SwaggerTypes.Proofs.TypeScanning
import SwaggerTypes.Proofs.TypeTexts
import SwaggerTypes.Proofs.UnnamedCycles
import SwaggerTypes.Proofs.Validity
import SwaggerTypes.Proofs.WarningOrigins
import SwaggerTypes.Proofs.WarningPointers
import SwaggerTypes.Proofs.WellFormed
import SwaggerTypes.Proofs.WrittenChildren
import SwaggerTypes.Proofs.WrittenParameters
import SwaggerTypes.Proofs.WrittenSchemas
import SwaggerTypes.Resolution.Chain
import SwaggerTypes.Resolution.ParameterChain
import SwaggerTypes.Resolution.Target
import SwaggerTypes.Schema.Keywords
import SwaggerTypes.Schema.Node
import SwaggerTypes.Schema.Reading
import SwaggerTypes.Schema.References
import SwaggerTypes.Storage.Access
import SwaggerTypes.Storage.Path
import SwaggerTypes.Storage.Tree
import SwaggerTypes.Synthesis.Build
import SwaggerTypes.Synthesis.Definitions
import SwaggerTypes.Synthesis.Mapping
import SwaggerTypes.Synthesis.Merging
import SwaggerTypes.Synthesis.Naming
import SwaggerTypes.Synthesis.Query
import SwaggerTypes.Synthesis.State
import SwaggerTypes.Text.Alphabetic
import SwaggerTypes.Text.Blank
import SwaggerTypes.Text.Bytes
import SwaggerTypes.Text.CodeRanges
import SwaggerTypes.Text.Excerpt
import SwaggerTypes.Text.Identifier
import SwaggerTypes.Text.Numeric
import SwaggerTypes.Text.Pieces
import SwaggerTypes.Text.Quoted
import SwaggerTypes.Text.Uppercase
import SwaggerTypes.Text.Visible
import SwaggerTypes.Types.Declaration
import SwaggerTypes.Types.Expr
import SwaggerTypes.Types.Namespace
import SwaggerTypes.Types.Printer
