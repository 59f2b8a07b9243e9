import SamplingProfile.Binary.Layout
import SamplingProfile.Binary.NameTable
import SamplingProfile.Binary.Read
import SamplingProfile.Binary.Write
import SamplingProfile.Bytes.Leb128
import SamplingProfile.Bytes.LittleEndian
import SamplingProfile.Bytes.Utf8
import SamplingProfile.CommandLine.Arguments
import SamplingProfile.CommandLine.Command
import SamplingProfile.CommandLine.Files
import SamplingProfile.CommandLine.Hottest
import SamplingProfile.CommandLine.Merge
import SamplingProfile.CommandLine.Show
import SamplingProfile.CommandLine.Similarity
import SamplingProfile.CommandLine.Weighted
import SamplingProfile.Count
import SamplingProfile.Folder.Basic
import SamplingProfile.Folder.Path
import SamplingProfile.Folder.Profiles
import SamplingProfile.Folder.Stability
import SamplingProfile.FunctionProfile.Basic
import SamplingProfile.FunctionProfile.Merge
import SamplingProfile.FunctionProfile.Record
import SamplingProfile.FunctionProfile.Traversal
import SamplingProfile.Heap
import SamplingProfile.Intake
import SamplingProfile.Location
import SamplingProfile.Main
import SamplingProfile.NameList
import SamplingProfile.Profile
import SamplingProfile.Reading.Problem
import SamplingProfile.Reading.Reader
import SamplingProfile.SortedMap
import SamplingProfile.Store.Basic
import SamplingProfile.Store.Depth
import SamplingProfile.Store.Event
import SamplingProfile.Store.Merge
import SamplingProfile.Store.Summary
import SamplingProfile.Summary.Basic
import SamplingProfile.Summary.Describe
import SamplingProfile.Text.Decimal
import SamplingProfile.Text.Grammar
import SamplingProfile.Text.Line
import SamplingProfile.Text.Read
import SamplingProfile.Text.Write
import SamplingProfile.Writing.Output
import SamplingProfile.Zlib.Adler32
import SamplingProfile.Zlib.Bits
import SamplingProfile.Zlib.Inflate
import SamplingProfile.Zlib.Limit
import SamplingProfile.Zlib.Stored
import SamplingProfile.Proofs.Bytes.Leb128
import SamplingProfile.Proofs.Reading.Delimited
import SamplingProfile.Proofs.Binary.Delimited
import SamplingProfile.Proofs.Store.MergedCounts
import SamplingProfile.Proofs.Reading.Undoing
import SamplingProfile.Proofs.Binary.Parts
import SamplingProfile.Proofs.Binary.Trees
import SamplingProfile.Proofs.Binary.Written
import SamplingProfile.Proofs.Binary.RoundTrip
import SamplingProfile.Proofs.Store.LegalTrees
import SamplingProfile.Proofs.Text.Reading
import SamplingProfile.Proofs.Reading.LegalProfiles
import SamplingProfile.Proofs.Store.Reachable
import SamplingProfile.Proofs.Binary.Room
import SamplingProfile.Proofs.Binary.WriteErrors
import SamplingProfile.Proofs.Store.StackPaths
import SamplingProfile.Proofs.Store.Reports
import SamplingProfile.Proofs.Store.RecordedCounts
import SamplingProfile.Proofs.CommandLine.MergedFile
import SamplingProfile.Proofs.Bytes.Utf8
import SamplingProfile.Proofs.Text.BodyLines
import SamplingProfile.Proofs.Text.LineParts
import SamplingProfile.Proofs.Text.Lines
import SamplingProfile.Proofs.Text.Tokens
import SamplingProfile.Proofs.Text.PlainForm
import SamplingProfile.Proofs.Text.Written
import SamplingProfile.Proofs.Text.RoundTrip
import SamplingProfile.Proofs.Store.Shards
import SamplingProfile.Proofs.Store.Entries
import SamplingProfile.Proofs.Reading.TakenProfiles
import SamplingProfile.Proofs.Reading.Grammar
import SamplingProfile.Proofs.Binary.Listing
import SamplingProfile.Proofs.Binary.FixedGrammar
import SamplingProfile.Proofs.Binary.Reproduced
import SamplingProfile.Proofs.Summary.Builder
import SamplingProfile.Proofs.Summary.Coverage
import SamplingProfile.Proofs.Store.Digest
import SamplingProfile.Proofs.Store.NameRules
import SamplingProfile.Proofs.Store.Bodies
import SamplingProfile.Proofs.Text.ReadNames
import SamplingProfile.Proofs.Text.LineItems
import SamplingProfile.Proofs.Text.CalledTargets
import SamplingProfile.Proofs.CommandLine.MergedText
import SamplingProfile.Proofs.Store.MergeLaws
import SamplingProfile.Proofs.Summary.Outcome
import SamplingProfile.Proofs.Summary.Threshold
import SamplingProfile.Proofs.Store.RepeatedMerges
import SamplingProfile.Proofs.Text.Rows
import SamplingProfile.Proofs.Text.Nesting
import SamplingProfile.Proofs.Text.Layout
import SamplingProfile.Proofs.Text.HeaderLines
import SamplingProfile.Proofs.FunctionProfile.Walks
import SamplingProfile.Proofs.Store.Totals
import SamplingProfile.Proofs.Reading.SourceLines
import SamplingProfile.Proofs.Reading.Progress
import SamplingProfile.Proofs.Binary.Progress
import SamplingProfile.Proofs.CommandLine.Hottest
import SamplingProfile.Proofs.NameList
import SamplingProfile.Proofs.Reading.Anywhere
import SamplingProfile.Proofs.NameList.Forms
import SamplingProfile.Proofs.Binary.Anywhere
import SamplingProfile.Proofs.Binary.SummarySection
import SamplingProfile.Proofs.Store.Copies
import SamplingProfile.Proofs.Binary.NameTable
import SamplingProfile.Proofs.Reading.Positions
import SamplingProfile.Proofs.Binary.Positions
import SamplingProfile.Proofs.Text.Positions
import SamplingProfile.Proofs.Reading.Steps
import SamplingProfile.Proofs.Text.BodyExtent
import SamplingProfile.Proofs.Reading.Numbers
