import TypeGraph.Checker.Walk
import TypeGraph.Definition.Json
import TypeGraph.JsonSchema.Document
import TypeGraph.Node.Equality
import TypeGraph.SchemaGraph.OfNode
import TypeGraph.SchemaGraph.ToNode
import TypeGraph.TypeExpr.Printer
import TypeGraph.TypeStore.Operation
import TypeGraph.TypeStore.Text
import TypeGraph.Validator.Module
import TypeGraph.Proofs.Definition.Recursive
import TypeGraph.Proofs.Extraction.Termination
import TypeGraph.Proofs.Extraction.Equations
import TypeGraph.Proofs.Extraction.Policies
import TypeGraph.Proofs.Emission.Extracted
import TypeGraph.Proofs.Registry.Session
import TypeGraph.Proofs.Emission.Wrapping
import TypeGraph.Proofs.SchemaGraph.Calls
import TypeGraph.Proofs.TypeExpr.Reading
import TypeGraph.Proofs.Validator.ZodTree
import TypeGraph.Proofs.Emission.Declarations
import TypeGraph.Proofs.SchemaGraph.Exact
import TypeGraph.Proofs.Emission.Names
import TypeGraph.Proofs.Definition.Serialized
import TypeGraph.Proofs.Text.Distinct
import TypeGraph.Proofs.TypeExpr.Tuples
import TypeGraph.Proofs.Emission.Optional
import TypeGraph.Proofs.JsonSchema.References
import TypeGraph.Proofs.JsonSchema.Keys
import TypeGraph.Proofs.Extraction.Recurring
import TypeGraph.Proofs.Emission.Supported
import TypeGraph.Proofs.Node.Leaves
import TypeGraph.Proofs.Definition.Cycles
import TypeGraph.Proofs.Text.Notation
import TypeGraph.Proofs.Number.DecimalInteger
import TypeGraph.Proofs.TypeStore.Built
import TypeGraph.Proofs.Text.Words
import TypeGraph.Proofs.Node.Children
