import SchemaWire.Native.Building
import SchemaWire.Native.Records
import SchemaWire.Proofs.Wire.Reading
import SchemaWire.Proofs.Wire.Varint
import SchemaWire.Proofs.Layout.Snapshot
import SchemaWire.Proofs.Wire.Script
import SchemaWire.Proofs.Layout.NormalForm
import SchemaWire.Proofs.Wire.Zigzag
import SchemaWire.Proofs.Layout.Primitive
import SchemaWire.Proofs.Program.Scripts
import SchemaWire.Proofs.Program.MinSize
import SchemaWire.Proofs.Program.Pieces
import SchemaWire.Proofs.Program.RoundTrip
import SchemaWire.Proofs.Program.Soundness
import SchemaWire.Proofs.Program.Conformance
import SchemaWire.Proofs.Layout.Nodes
import SchemaWire.Proofs.Schema.Declaration
import SchemaWire.Proofs.Schema.Resolution
import SchemaWire.Proofs.Program.Family
import SchemaWire.Proofs.Serializer.Built
import SchemaWire.Proofs.Serializer.Codec
import SchemaWire.Proofs.Schema.Reachability
import SchemaWire.Proofs.Layout.Extension
import SchemaWire.Proofs.Program.Extension
import SchemaWire.Proofs.Schema.Evolution
import SchemaWire.Proofs.Serializer.Header
import SchemaWire.Proofs.Serializer.Evolution
import SchemaWire.Proofs.Wire.Locality
import SchemaWire.Proofs.Program.Locality
import SchemaWire.Proofs.Serializer.Locality
import SchemaWire.Proofs.Layout.Preorder
import SchemaWire.Proofs.Schema.Preorder
import SchemaWire.Proofs.Schema.Outcome
import SchemaWire.Proofs.Serializer.Building
import SchemaWire.Proofs.Program.Mirror
import SchemaWire.Proofs.Program.Table
import SchemaWire.Proofs.Serializer.WellFormed
import SchemaWire.Proofs.Layout.Nesting
import SchemaWire.Proofs.Wire.Failing
import SchemaWire.Proofs.Program.Nesting
import SchemaWire.Proofs.Wire.Counting
import SchemaWire.Proofs.Program.Counting
import SchemaWire.Proofs.Serializer.Nesting
import SchemaWire.Proofs.Program.Upgrade
import SchemaWire.Proofs.Serializer.Upgrade
import SchemaWire.Proofs.Wire.Framing
import SchemaWire.Proofs.Serializer.Framing
import SchemaWire.Proofs.Program.Versions
import SchemaWire.Proofs.Serializer.Versions
import SchemaWire.Proofs.Schema.Acceptance
import SchemaWire.Proofs.Schema.Registration
import SchemaWire.Proofs.Schema.WireContent
import SchemaWire.Proofs.Serializer.Sharing
import SchemaWire.Proofs.Program.Occupation
import SchemaWire.Proofs.Program.Amplification
import SchemaWire.Proofs.Serializer.Amplification
import SchemaWire.Proofs.Wire.Anonymous
import SchemaWire.Proofs.Layout.Renaming
import SchemaWire.Proofs.Schema.Renaming
import SchemaWire.Proofs.Program.Renaming
import SchemaWire.Proofs.Serializer.Renaming
import SchemaWire.Proofs.Serializer.CacheHistory
import SchemaWire.Proofs.Serializer.Growing
import SchemaWire.Proofs.Program.Appending
import SchemaWire.Proofs.Serializer.Appending
import SchemaWire.Proofs.Wire.LeftOpen
import SchemaWire.Proofs.Wire.LessRoom
import SchemaWire.Proofs.Program.Congruence
import SchemaWire.Proofs.Program.LeftOpen
import SchemaWire.Proofs.Wire.Spelling
import SchemaWire.Proofs.Serializer.Spelling
import SchemaWire.Proofs.Serializer.Overflow
import SchemaWire.Proofs.Native.Building
import SchemaWire.Proofs.Program.Measuring
import SchemaWire.Proofs.Layout.OptionalBooleans
import SchemaWire.Proofs.Program.Levels
import SchemaWire.Proofs.Serializer.Levels
import SchemaWire.Proofs.Layout.Boxing
import SchemaWire.Proofs.Wire.SameEnd
import SchemaWire.Proofs.Program.Boxing
import SchemaWire.Proofs.Schema.Simplification
import SchemaWire.Proofs.Serializer.Simplification
import SchemaWire.Proofs.Program.Consumption
import SchemaWire.Proofs.Program.ListCounts
import SchemaWire.Proofs.Program.Tightness
import SchemaWire.Proofs.Serializer.Tightness
import SchemaWire.Proofs.Wire.VarintAnswers
import SchemaWire.Proofs.Layout.IntegerRange
