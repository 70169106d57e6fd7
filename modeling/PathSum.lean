import PathSum.Alphabet
import PathSum.AnyMatrix.Arithmetic
import PathSum.AnyMatrix.Stored
import PathSum.AnyMatrix.Unchecked
import PathSum.AnyMatrix.Wire
import PathSum.Automaton.Basic
import PathSum.Automaton.Runs
import PathSum.Automaton.Stored
import PathSum.Graph.Adjacency
import PathSum.Graph.Relations
import PathSum.Graph.Traversal
import PathSum.Graph.Walks
import PathSum.HiddenMarkov.Flaws
import PathSum.HiddenMarkov.Runs
import PathSum.HiddenMarkov.Stored
import PathSum.HiddenMarkov.Wire
import PathSum.Matrix.Paths
import PathSum.Matrix.Power
import PathSum.Regex.Cause
import PathSum.Regex.CharSet
import PathSum.Regex.Compiled
import PathSum.Regex.Edges
import PathSum.Regex.Entries
import PathSum.Regex.Grammar
import PathSum.Regex.Language
import PathSum.Regex.NodeTable
import PathSum.Regex.ParseError
import PathSum.Regex.Pattern
import PathSum.Regex.Reader
import PathSum.Regex.Recursion
import PathSum.Regex.Walk
import PathSum.ShapeError
import PathSum.StateSet
import PathSum.StateSet.Bits
import PathSum.SymbolMap
import PathSum.SymbolMap.Ordered
import PathSum.Text.Quoted
import PathSum.Weights.Basic
import PathSum.Weights.FixedWidth
import PathSum.Weights.Floating
import PathSum.Weights.Laws
import PathSum.Proofs.Automaton.Acceptance
import PathSum.Proofs.Automaton.Forward
import PathSum.Proofs.Automaton.Product
import PathSum.Proofs.Automaton.Regrouping
import PathSum.Proofs.Automaton.RunSums
import PathSum.Proofs.FixedWidth.Images
import PathSum.Proofs.FixedWidth.Laws
import PathSum.Proofs.FixedWidth.Truncation
import PathSum.Proofs.Floating.Addition
import PathSum.Proofs.Floating.Lengths
import PathSum.Proofs.Floating.Packing
import PathSum.Proofs.Floating.Ranks
import PathSum.Proofs.Floating.Rounding
import PathSum.Proofs.Graph.Agreement
import PathSum.Proofs.Graph.BoundedWalks
import PathSum.Proofs.Graph.Counting
import PathSum.Proofs.Graph.Reachability
import PathSum.Proofs.Graph.ShortWalks
import PathSum.Proofs.Graph.Storage
import PathSum.Proofs.HiddenMarkov.AsAutomaton
import PathSum.Proofs.HiddenMarkov.Construction
import PathSum.Proofs.HiddenMarkov.StateSums
import PathSum.Proofs.Matrix.Boolean
import PathSum.Proofs.Matrix.Carrying
import PathSum.Proofs.Matrix.Kronecker
import PathSum.Proofs.Matrix.Laws
import PathSum.Proofs.Matrix.Lightest
import PathSum.Proofs.Matrix.Loops
import PathSum.Proofs.Matrix.Power
import PathSum.Proofs.Matrix.RepeatedProduct
import PathSum.Proofs.Matrix.Saturation
import PathSum.Proofs.Matrix.StarSums
import PathSum.Proofs.Matrix.Storage
import PathSum.Proofs.Matrix.SumOrder
import PathSum.Proofs.Matrix.Transposition
import PathSum.Proofs.Matrix.Wire
import PathSum.Proofs.Regex.Building
import PathSum.Proofs.Regex.Causes
import PathSum.Proofs.Regex.Completeness
import PathSum.Proofs.Regex.Continuation
import PathSum.Proofs.Regex.Fragments
import PathSum.Proofs.Regex.Matching
import PathSum.Proofs.Regex.Nesting
import PathSum.Proofs.Regex.Numbering
import PathSum.Proofs.Regex.Outgoing
import PathSum.Proofs.Regex.Places
import PathSum.Proofs.Regex.Printing
import PathSum.Proofs.Regex.Recognition
import PathSum.Proofs.Regex.Recursion
import PathSum.Proofs.Regex.Restriction
import PathSum.Proofs.Regex.Sharing
import PathSum.Proofs.Regex.SilentEdges
import PathSum.Proofs.Regex.Sizes
import PathSum.Proofs.Regex.Soundness
import PathSum.Proofs.Shapes.Automata
import PathSum.Proofs.Shapes.Matrices
import PathSum.Proofs.Shapes.Models
import PathSum.Proofs.Shapes.Sizes
import PathSum.Proofs.StateSet.Equality
import PathSum.Proofs.StateSet.Histories
import PathSum.Proofs.StateSet.Uses
