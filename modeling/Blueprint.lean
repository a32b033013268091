import Blueprint.Proofs.Grammar.InOrder
import Blueprint.Proofs.Tree.Depth
import Blueprint.Main
import Blueprint.Session
import Blueprint.Visitor
import Blueprint.Scope
import Blueprint.Proofs.Token.Partition
import Blueprint.Proofs.Tree.Lossless
import Blueprint.Proofs.Tree.Shape
import Blueprint.Proofs.Grammar.Accepts
import Blueprint.Proofs.Grammar.Layout
import Blueprint.Proofs.Grammar.Damage
import Blueprint.Proofs.Grammar.Truncates
import Blueprint.Proofs.Grammar.Recovers
import Blueprint.Proofs.Grammar.Mirrors
import Blueprint.Proofs.Grammar.Settles
import Blueprint.Proofs.Token.Joint
import Blueprint.Proofs.Tree.Leaves
import Blueprint.Proofs.Grammar.Isolates
import Blueprint.Proofs.Grammar.Room
import Blueprint.Proofs.Grammar.Tells
import Blueprint.Proofs.Grammar.Extents
import Blueprint.Proofs.Session.Coherent
import Blueprint.Proofs.Scope.Visible
import Blueprint.Proofs.Grammar.Sizes
import Blueprint.Proofs.Token.Between
import Blueprint.Proofs.Grammar.Parses.Junk
import Blueprint.Proofs.Grammar.Resumes
import Blueprint.Proofs.Grammar.Contains
import Blueprint.Proofs.Session.Bounds
import Blueprint.Proofs.Session.Chain
import Blueprint.Proofs.Token.Literal
import Blueprint.Proofs.Token.Open
import Blueprint.Proofs.Token.Names
import Blueprint.Proofs.Tree.Seen
import Blueprint.Proofs.Grammar.Written
import Blueprint.Proofs.Halving
import Blueprint.Proofs.Tree.Offset
import Blueprint.Proofs.Tree.Listing
import Blueprint.Proofs.Visitor
import Blueprint.Proofs.Tree.Traversals
import Blueprint.Proofs.Grammar.Typed
import Blueprint.Proofs.Scope.Modules
import Blueprint.Proofs.Tree.FieldPath
import Blueprint.Proofs.Text.Line
import Blueprint.Proofs.Diagnostic
import Blueprint.Proofs.Command.Check
import Blueprint.Proofs.Files.Names
import Blueprint.Proofs.Files.Search
import Blueprint.Proofs.Files.Collect
import Blueprint.Proofs.Grammar.Uncut
import Blueprint.Proofs.Grammar.Adjoins
