import ArithTree.Command.Arguments
import ArithTree.Command.Invocation
import ArithTree.Command.Printing
import ArithTree.Command.Run
import ArithTree.Command.Style
import ArithTree.Environment
import ArithTree.Failure
import ArithTree.Libraries
import ArithTree.Libraries.Standard
import ArithTree.Literal
import ArithTree.Main
import ArithTree.Node
import ArithTree.NodePath
import ArithTree.OutputFormat
import ArithTree.Parser
import ArithTree.Parser.Bytes
import ArithTree.Parser.Search
import ArithTree.Placement
import ArithTree.Placement.Copy
import ArithTree.Proofs.AnyLinks
import ArithTree.Proofs.Backtracking
import ArithTree.Proofs.ByteSearch
import ArithTree.Proofs.Calls
import ArithTree.Proofs.Closest
import ArithTree.Proofs.Composition
import ArithTree.Proofs.Conservation
import ArithTree.Proofs.Copies
import ArithTree.Proofs.Drawings
import ArithTree.Proofs.Drops
import ArithTree.Proofs.Edits
import ArithTree.Proofs.Flatness
import ArithTree.Proofs.Flattening
import ArithTree.Proofs.Forests
import ArithTree.Proofs.Ghosts
import ArithTree.Proofs.Grafting
import ArithTree.Proofs.Grammar
import ArithTree.Proofs.Growth
import ArithTree.Proofs.Holding
import ArithTree.Proofs.IndependentMoves
import ArithTree.Proofs.KeyTrees
import ArithTree.Proofs.Layering
import ArithTree.Proofs.Literals
import ArithTree.Proofs.Memo
import ArithTree.Proofs.Merging
import ArithTree.Proofs.Moves
import ArithTree.Proofs.Normality
import ArithTree.Proofs.Occurrences
import ArithTree.Proofs.Offsets
import ArithTree.Proofs.Outlines
import ArithTree.Proofs.Parentheses
import ArithTree.Proofs.Parsing
import ArithTree.Proofs.PathLanguage
import ArithTree.Proofs.PathOrder
import ArithTree.Proofs.Paths
import ArithTree.Proofs.Placements
import ArithTree.Proofs.Ranges
import ArithTree.Proofs.Reachability
import ArithTree.Proofs.Relocation
import ArithTree.Proofs.Removal
import ArithTree.Proofs.Renaming
import ArithTree.Proofs.Reordering
import ArithTree.Proofs.RoundTrip
import ArithTree.Proofs.ScoreOrder
import ArithTree.Proofs.Scores
import ArithTree.Proofs.Search
import ArithTree.Proofs.Sessions
import ArithTree.Proofs.SettingsFiles
import ArithTree.Proofs.Shape
import ArithTree.Proofs.Spans
import ArithTree.Proofs.Splits
import ArithTree.Proofs.Stages
import ArithTree.Proofs.Traversals
import ArithTree.Proofs.Visits
import ArithTree.Proofs.WellFormed
import ArithTree.Proofs.WrittenDocuments
import ArithTree.Proofs.WrittenPaths
import ArithTree.Proofs.WrittenSettings
import ArithTree.Rearrangement
import ArithTree.Render.Drawing
import ArithTree.Render.Dump
import ArithTree.Render.Formula
import ArithTree.Score
import ArithTree.Session
import ArithTree.Settings.Basic
import ArithTree.Settings.File
import ArithTree.Settings.KeyPath
import ArithTree.Settings.KeyTree
import ArithTree.Settings.Layers
import ArithTree.Settings.Reader
import ArithTree.Settings.Variables
import ArithTree.Store.Basic
import ArithTree.Store.Flatten
import ArithTree.Store.Lemmas
import ArithTree.Store.Path
import ArithTree.Store.Traversal
import ArithTree.Store.Unfolding
import ArithTree.Surroundings
import ArithTree.Text.Blank
import ArithTree.Text.Numeral
import ArithTree.Text.Quoted
import ArithTree.Text.Unprintable
import ArithTree.Toml.Document
import ArithTree.Toml.Draft
import ArithTree.Toml.Library
import ArithTree.Toml.Moment
import ArithTree.Toml.Number
import ArithTree.Toml.Text
import ArithTree.Toml.Value
import ArithTree.Toml.Writer
