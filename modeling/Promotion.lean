import Promotion.Archive.Basic
import Promotion.Archive.Checksum
import Promotion.Archive.Gzip
import Promotion.Archive.Record
import Promotion.Archive.Tar
import Promotion.Arguments.Grammar
import Promotion.Arguments.Invocation
import Promotion.Arguments.Problem
import Promotion.Arguments.Reader
import Promotion.Audit
import Promotion.Bundle.Assembly
import Promotion.Bundle.Basic
import Promotion.Bundle.Build
import Promotion.Bundle.Contents
import Promotion.Bundle.Discovery
import Promotion.Bundle.Listing
import Promotion.Command.Bundle
import Promotion.Command.Sync
import Promotion.CommandLine
import Promotion.Config.Basic
import Promotion.Config.Document
import Promotion.Config.Store
import Promotion.Decimal.Binary64
import Promotion.Decimal.Shortest
import Promotion.Digest.Blake3
import Promotion.Digest.Store
import Promotion.Digest.Stream
import Promotion.Document.Error
import Promotion.Document.Misfit
import Promotion.Document.Value
import Promotion.Environment
import Promotion.Failure
import Promotion.FileTree.Basic
import Promotion.FileTree.Edit
import Promotion.FileTree.Fault
import Promotion.FileTree.Pending
import Promotion.FileTree.Resolve
import Promotion.FileTree.Walk
import Promotion.Json.Number
import Promotion.Json.Place
import Promotion.Json.Printer
import Promotion.Json.Reader
import Promotion.Json.Token
import Promotion.Latest
import Promotion.Log.Event
import Promotion.Log.Filter
import Promotion.Log.Line
import Promotion.Main
import Promotion.Manifest.Document
import Promotion.Manifest.Store
import Promotion.Manifest.Value
import Promotion.Package
import Promotion.Path.Basic
import Promotion.Proofs.Agreement
import Promotion.Proofs.Archive.Gzip
import Promotion.Proofs.Archive.Tar
import Promotion.Proofs.Audit
import Promotion.Proofs.Bundle.ArchiveNames
import Promotion.Proofs.Bundle.Assembly
import Promotion.Proofs.Bundle.Batch
import Promotion.Proofs.Bundle.Beside
import Promotion.Proofs.Bundle.Build
import Promotion.Proofs.Bundle.Contents
import Promotion.Proofs.Bundle.Discovery
import Promotion.Proofs.Bundle.Effect
import Promotion.Proofs.Bundle.Failure
import Promotion.Proofs.Bundle.Guard
import Promotion.Proofs.Bundle.SelfPacking
import Promotion.Proofs.Bundle.Unpack
import Promotion.Proofs.Command.Bundle
import Promotion.Proofs.Command.Compare
import Promotion.Proofs.Command.Sync
import Promotion.Proofs.Config.Layout
import Promotion.Proofs.Digest
import Promotion.Proofs.Document.Loaded
import Promotion.Proofs.Environment
import Promotion.Proofs.Except
import Promotion.Proofs.FileTree.Basic
import Promotion.Proofs.FileTree.Edit
import Promotion.Proofs.FileTree.Fill
import Promotion.Proofs.FileTree.Link
import Promotion.Proofs.FileTree.Pending
import Promotion.Proofs.FileTree.Resolve
import Promotion.Proofs.FileTree.Unfolding
import Promotion.Proofs.FileTree.Walk
import Promotion.Proofs.FileTree.Write
import Promotion.Proofs.Installation
import Promotion.Proofs.Json.Reader
import Promotion.Proofs.Json.Token
import Promotion.Proofs.Latest
import Promotion.Proofs.Latest.First
import Promotion.Proofs.Manifest.Digits
import Promotion.Proofs.Manifest.Document
import Promotion.Proofs.Manifest.Entries
import Promotion.Proofs.Manifest.Loading
import Promotion.Proofs.Manifest.Nodes
import Promotion.Proofs.Manifest.PlainVersion
import Promotion.Proofs.Manifest.Store
import Promotion.Proofs.Manifest.Value
import Promotion.Proofs.Package
import Promotion.Proofs.Path
import Promotion.Proofs.Path.Above
import Promotion.Proofs.Path.Components
import Promotion.Proofs.Path.Leading
import Promotion.Proofs.Path.Order
import Promotion.Proofs.Path.Pending
import Promotion.Proofs.Review
import Promotion.Proofs.Session
import Promotion.Proofs.Session.Outcome
import Promotion.Proofs.Text.Utf8
import Promotion.Proofs.Version.Grammar
import Promotion.Proofs.Version.Marked
import Promotion.Proofs.Version.Numbers
import Promotion.Proofs.Version.Obtained
import Promotion.Proofs.Version.Order
import Promotion.Proofs.Version.Text
import Promotion.Proofs.Yaml.BlockScalar
import Promotion.Proofs.Yaml.Content
import Promotion.Proofs.Yaml.Cursor
import Promotion.Proofs.Yaml.Folding
import Promotion.Proofs.Yaml.Lexer
import Promotion.Proofs.Yaml.Load
import Promotion.Proofs.Yaml.Meaning
import Promotion.Proofs.Yaml.PlainScalar
import Promotion.Proofs.Yaml.Printer
import Promotion.Proofs.Yaml.QuotedScalar
import Promotion.Proofs.Yaml.Reader
import Promotion.Proofs.Yaml.Records
import Promotion.Proofs.Yaml.Requoted
import Promotion.Proofs.Yaml.Scalar
import Promotion.Proofs.Yaml.Whole
import Promotion.Release
import Promotion.Review
import Promotion.Session
import Promotion.Shell
import Promotion.Strategy
import Promotion.Text.Blank
import Promotion.Text.Fields
import Promotion.Text.Quoted
import Promotion.Text.Unprinted
import Promotion.Text.Utf8
import Promotion.Version.Basic
import Promotion.Version.Comparison
import Promotion.Version.Document
import Promotion.Version.Order
import Promotion.Version.Value
import Promotion.Yaml.BlockScalar
import Promotion.Yaml.Cursor
import Promotion.Yaml.Folding
import Promotion.Yaml.Lexer
import Promotion.Yaml.Load
import Promotion.Yaml.Node
import Promotion.Yaml.PlainScalar
import Promotion.Yaml.Printer
import Promotion.Yaml.QuotedScalar
import Promotion.Yaml.Reader
import Promotion.Yaml.Resolve
import Promotion.Yaml.Tag
import Promotion.Yaml.Token
import Promotion.Yaml.Typed
