import FlatAidl.Catalogue.Basic
import FlatAidl.Catalogue.Building
import FlatAidl.Catalogue.Inheritance
import FlatAidl.CommandLine.Arguments
import FlatAidl.CommandLine.Configuration
import FlatAidl.Declaration.Basic
import FlatAidl.Declaration.Primitive
import FlatAidl.Diagnostics.Event
import FlatAidl.Diagnostics.Settings
import FlatAidl.Diagnostics.Trace
import FlatAidl.Doc.Comment
import FlatAidl.Doc.Returns
import FlatAidl.Emission.Basic
import FlatAidl.Emission.FileMap
import FlatAidl.Emission.Stream
import FlatAidl.FileTree.Basic
import FlatAidl.FileTree.Writing
import FlatAidl.Flattening.Merge
import FlatAidl.Json.Basic
import FlatAidl.Json.Double
import FlatAidl.Json.Number
import FlatAidl.Json.Reading
import FlatAidl.Json.Record
import FlatAidl.Json.Token
import FlatAidl.Json.Writing
import FlatAidl.Layout.Indented
import FlatAidl.Layout.Wrapped
import FlatAidl.Main
import FlatAidl.Name.Basic
import FlatAidl.Name.Reading
import FlatAidl.Package.Assembly
import FlatAidl.Package.Model
import FlatAidl.Package.Reading
import FlatAidl.Package.Resolution
import FlatAidl.Package.Targets
import FlatAidl.Path.Basic
import FlatAidl.Proofs.Catalogue.Chain
import FlatAidl.Proofs.Catalogue.Consistency
import FlatAidl.Proofs.Catalogue.Cycle
import FlatAidl.Proofs.Catalogue.Forest
import FlatAidl.Proofs.Catalogue.History
import FlatAidl.Proofs.Catalogue.Names
import FlatAidl.Proofs.Catalogue.Nesting
import FlatAidl.Proofs.Catalogue.Places
import FlatAidl.Proofs.Catalogue.Rooted
import FlatAidl.Proofs.Doc.Block
import FlatAidl.Proofs.Doc.Closing
import FlatAidl.Proofs.Doc.Reading
import FlatAidl.Proofs.Doc.Replacement
import FlatAidl.Proofs.Doc.Update
import FlatAidl.Proofs.Emission.Progress
import FlatAidl.Proofs.Emission.Refusal
import FlatAidl.Proofs.Emission.Store
import FlatAidl.Proofs.Emission.Streams
import FlatAidl.Proofs.Emission.Targets
import FlatAidl.Proofs.FileTree.Writing
import FlatAidl.Proofs.Flattening.Candidates
import FlatAidl.Proofs.Flattening.Composition
import FlatAidl.Proofs.Flattening.Conservation
import FlatAidl.Proofs.Flattening.Greatest
import FlatAidl.Proofs.Flattening.Insertion
import FlatAidl.Proofs.Flattening.Suffixes
import FlatAidl.Proofs.Layout.Indentation
import FlatAidl.Proofs.Layout.Rows
import FlatAidl.Proofs.Layout.Strokes
import FlatAidl.Proofs.Layout.Weaving
import FlatAidl.Proofs.Layout.Wrapping
import FlatAidl.Proofs.Name.Files
import FlatAidl.Proofs.Name.Grammar
import FlatAidl.Proofs.Name.RoundTrip
import FlatAidl.Proofs.Occurrence
import FlatAidl.Proofs.Outcome
import FlatAidl.Proofs.Package.Assembly
import FlatAidl.Proofs.Package.Contents
import FlatAidl.Proofs.Package.Headings
import FlatAidl.Proofs.Package.Listing
import FlatAidl.Proofs.Package.Members
import FlatAidl.Proofs.Package.Outline
import FlatAidl.Proofs.Package.Rearrangement
import FlatAidl.Proofs.Package.References
import FlatAidl.Proofs.Package.Relocation
import FlatAidl.Proofs.Package.Scope
import FlatAidl.Proofs.Package.TypeText
import FlatAidl.Proofs.Path.Names
import FlatAidl.Proofs.Rendering.Faultless
import FlatAidl.Proofs.Rendering.Formatting
import FlatAidl.Proofs.Rendering.ImportNames
import FlatAidl.Proofs.Rendering.Imports
import FlatAidl.Proofs.Rendering.LineBreaks
import FlatAidl.Proofs.Rendering.Parts
import FlatAidl.Proofs.Rendering.Remarks
import FlatAidl.Proofs.Rendering.Signatures
import FlatAidl.Proofs.Renumbering.Basic
import FlatAidl.Proofs.Renumbering.Rendering
import FlatAidl.Proofs.Renumbering.Resolution
import FlatAidl.Proofs.Run.Files
import FlatAidl.Proofs.Run.InOrder
import FlatAidl.Proofs.Run.Log
import FlatAidl.Proofs.Run.Team
import FlatAidl.Proofs.Signature.Descriptions
import FlatAidl.Proofs.Signature.Fates
import FlatAidl.Proofs.Signature.Plan
import FlatAidl.Proofs.Text.Cuts
import FlatAidl.Proofs.Text.Gaps
import FlatAidl.Proofs.Text.Lines
import FlatAidl.Proofs.Text.Numeral
import FlatAidl.Proofs.Text.Trimming
import FlatAidl.Proofs.Text.UpperCase
import FlatAidl.Proofs.Text.Utf8
import FlatAidl.Rendering.File
import FlatAidl.Rendering.Imports
import FlatAidl.Rendering.Translate
import FlatAidl.Run.Basic
import FlatAidl.Run.Models
import FlatAidl.Signature.Plan
import FlatAidl.Text.Basic
import FlatAidl.Text.Blank
import FlatAidl.Text.Decimal
import FlatAidl.Text.UpperCase
import FlatAidl.Text.Utf8
