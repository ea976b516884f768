import TunnelConf.Address.Basic
import TunnelConf.Address.Subnet
import TunnelConf.Command.Arguments
import TunnelConf.Command.JsonText
import TunnelConf.Command.Run
import TunnelConf.Diff.Block
import TunnelConf.Diff.Grid
import TunnelConf.Diff.Script
import TunnelConf.Diff.Unified
import TunnelConf.Document
import TunnelConf.Edit.Error
import TunnelConf.Edit.File
import TunnelConf.Edit.Outcome
import TunnelConf.Edit.Value
import TunnelConf.Finding
import TunnelConf.Grammar
import TunnelConf.Key.Base64
import TunnelConf.Key.Curve25519
import TunnelConf.Key.Pair
import TunnelConf.Key.Random
import TunnelConf.Line
import TunnelConf.Log.Event
import TunnelConf.Log.Filter
import TunnelConf.Log.Record
import TunnelConf.Main
import TunnelConf.Merge
import TunnelConf.Pattern.Basic
import TunnelConf.Pattern.Class
import TunnelConf.Pattern.Meaning
import TunnelConf.Pattern.Read
import TunnelConf.Pattern.Tree
import TunnelConf.Position
import TunnelConf.Proofs.Command.Check
import TunnelConf.Proofs.Command.JsonText
import TunnelConf.Proofs.Command.Reproducible
import TunnelConf.Proofs.Command.Secrecy
import TunnelConf.Proofs.Crlf
import TunnelConf.Proofs.Diff.Hunks
import TunnelConf.Proofs.Diff.Patch
import TunnelConf.Proofs.Diff.SmallEdits
import TunnelConf.Proofs.Document.Blocks
import TunnelConf.Proofs.Document.Edited
import TunnelConf.Proofs.Document.Rendered
import TunnelConf.Proofs.Document.Scanned
import TunnelConf.Proofs.Document.Statements
import TunnelConf.Proofs.Edit.Calls
import TunnelConf.Proofs.Edit.Files
import TunnelConf.Proofs.Edit.FilledKeys
import TunnelConf.Proofs.Grammar
import TunnelConf.Proofs.Key.Base64Form
import TunnelConf.Proofs.Key.Encoded
import TunnelConf.Proofs.Key.Generated
import TunnelConf.Proofs.LetterCase.Meaning
import TunnelConf.Proofs.LineEdit
import TunnelConf.Proofs.LineRecord
import TunnelConf.Proofs.Lines
import TunnelConf.Proofs.Merge.Capture
import TunnelConf.Proofs.Merge.Commute
import TunnelConf.Proofs.Merge.Diff
import TunnelConf.Proofs.Merge.Edit
import TunnelConf.Proofs.Merge.Findings
import TunnelConf.Proofs.Merge.Frame
import TunnelConf.Proofs.Merge.KeyLine
import TunnelConf.Proofs.Merge.KeyPattern
import TunnelConf.Proofs.Merge.Structure
import TunnelConf.Proofs.Merge.Target
import TunnelConf.Proofs.Merge.Values
import TunnelConf.Proofs.Pattern.Groups
import TunnelConf.Proofs.Pattern.Language
import TunnelConf.Proofs.Pattern.Places
import TunnelConf.Proofs.Pattern.Search
import TunnelConf.Proofs.Position
import TunnelConf.Proofs.Position.Order
import TunnelConf.Proofs.Rule.Endpoint
import TunnelConf.Proofs.Rule.Numeric
import TunnelConf.Proofs.Rule.Path
import TunnelConf.Proofs.Rule.Subnet
import TunnelConf.Proofs.Rule.Token
import TunnelConf.Proofs.Scan.Annotations
import TunnelConf.Proofs.Scan.Autofill
import TunnelConf.Proofs.Scan.DerivedKey
import TunnelConf.Proofs.Scan.Findings
import TunnelConf.Proofs.Scan.FirstKeys
import TunnelConf.Proofs.Scan.Join
import TunnelConf.Proofs.Scan.Layout
import TunnelConf.Proofs.Scan.LineGroups
import TunnelConf.Proofs.Scan.LineNumbers
import TunnelConf.Proofs.Scan.LinePattern
import TunnelConf.Proofs.Scan.Matches
import TunnelConf.Proofs.Scan.PrivateKeys
import TunnelConf.Proofs.Scan.Randomness
import TunnelConf.Proofs.Scan.Recognised
import TunnelConf.Proofs.Session.Nested
import TunnelConf.Proofs.Session.Refresh
import TunnelConf.Proofs.Settings.Finish
import TunnelConf.Proofs.Settings.Precedence
import TunnelConf.Proofs.Settings.Problems
import TunnelConf.Proofs.Settings.SharedPaths
import TunnelConf.Proofs.Splice
import TunnelConf.Proofs.Storage.Atomic
import TunnelConf.Proofs.Storage.Cleanup
import TunnelConf.Proofs.Storage.Exposure
import TunnelConf.Proofs.Storage.Replace
import TunnelConf.Proofs.Storage.Sibling
import TunnelConf.Proofs.Storage.Step
import TunnelConf.Proofs.Storage.Tree
import TunnelConf.Proofs.Text.Parts
import TunnelConf.Proofs.Text.Utf8
import TunnelConf.Rule.Basic
import TunnelConf.Rule.Endpoint
import TunnelConf.Rule.Path
import TunnelConf.Rule.Token
import TunnelConf.Scan
import TunnelConf.Session
import TunnelConf.Settings.File
import TunnelConf.Settings.Layer
import TunnelConf.Settings.Load
import TunnelConf.Span
import TunnelConf.Splice
import TunnelConf.Storage.FileTree
import TunnelConf.Storage.Path
import TunnelConf.Storage.Replace
import TunnelConf.Text.Ascii
import TunnelConf.Text.Basic
import TunnelConf.Text.Case
import TunnelConf.Text.Category
import TunnelConf.Text.Category.Letter
import TunnelConf.Text.Category.Mark
import TunnelConf.Text.Category.Number
import TunnelConf.Text.Category.Punctuation
import TunnelConf.Text.Category.Symbol
import TunnelConf.Text.Letter
import TunnelConf.Text.Number
import TunnelConf.Text.Ranges
import TunnelConf.Text.Space
import TunnelConf.Text.Utf8
import TunnelConf.Text.Word
import TunnelConf.Toml.Moment
import TunnelConf.Toml.Parse
import TunnelConf.Toml.Quoted
import TunnelConf.Toml.Table
