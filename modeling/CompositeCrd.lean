import CompositeCrd.Host.FileTree
import CompositeCrd.Main
import CompositeCrd.Proofs.Decimal.Rounding
import CompositeCrd.Proofs.Decimal.Shortest
import CompositeCrd.Proofs.Json.Numeral
import CompositeCrd.Proofs.Json.Value
import CompositeCrd.Proofs.Json.Grammar
import CompositeCrd.Proofs.Schema.Acceptance
import CompositeCrd.Proofs.Schema.Regular
import CompositeCrd.Proofs.Schema.RoundTrip
import CompositeCrd.Proofs.Crd.Generation
import CompositeCrd.Proofs.Schema.Overlay
import CompositeCrd.Proofs.Crd.Assembly
import CompositeCrd.Proofs.Crd.Failures
import CompositeCrd.Proofs.Crd.Image
import CompositeCrd.Proofs.Json.Codec
import CompositeCrd.Proofs.Crd.RoundTrip
import CompositeCrd.Proofs.Definition.Embedding
import CompositeCrd.Proofs.Command.Agreement
import CompositeCrd.Proofs.Host.FileTree
import CompositeCrd.Proofs.Command.Storing
import CompositeCrd.Proofs.Command.Printing
import CompositeCrd.Proofs.Crd.Lookup
import CompositeCrd.Proofs.Json.Source
import CompositeCrd.Proofs.Json.Whole
import CompositeCrd.Proofs.Schema.Whole
import CompositeCrd.Proofs.Yaml.Scalar
import CompositeCrd.Proofs.Yaml.Stream
import CompositeCrd.Proofs.Yaml.Node
import CompositeCrd.Proofs.Yaml.Dynamic
import CompositeCrd.Proofs.Yaml.Extract
import CompositeCrd.Proofs.Command.Established
import CompositeCrd.Proofs.Definition.Issues
import CompositeCrd.Proofs.Schema.Layers
import CompositeCrd.Proofs.Command.Hindrance
import CompositeCrd.Proofs.Yaml.Reader
import CompositeCrd.Proofs.Command.Manifest
import CompositeCrd.Proofs.Schema.Depth
import CompositeCrd.Proofs.Crd.Depth
import CompositeCrd.Proofs.Yaml.Lines
import CompositeCrd.Proofs.Yaml.Margin
import CompositeCrd.Proofs.Crd.Stream
import CompositeCrd.Proofs.Yaml.Gap
import CompositeCrd.Proofs.Yaml.Printable
import CompositeCrd.Proofs.Yaml.Quoted
import CompositeCrd.Proofs.Yaml.Plain
import CompositeCrd.Proofs.Yaml.Block
import CompositeCrd.Proofs.Yaml.Settings
import CompositeCrd.Proofs.Yaml.Entries
import CompositeCrd.Proofs.Yaml.Recall
import CompositeCrd.Proofs.Config
