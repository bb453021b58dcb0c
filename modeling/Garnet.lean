import Garnet.Proofs.Control.Unwinding
import Garnet.Proofs.Control.Return
import Garnet.Proofs.Jumps.Handling
import Garnet.Proofs.Lookup.Super
import Garnet.Proofs.Constants.Lasting
import Garnet.Proofs.Constants.Lexical
import Garnet.Session.Program
import Garnet.Tree.Json
import Garnet.Tree.Printer
import Garnet.Tree.Reader
import Garnet.Proofs.Hierarchy.Link
import Garnet.Proofs.Lookup.Flat
import Garnet.Proofs.Lookup.Tables
import Garnet.Proofs.Lookup.Visibility
import Garnet.Proofs.Hierarchy.Acyclic
import Garnet.Proofs.Hierarchy.Walks
import Garnet.Proofs.Hierarchy.Changes
import Garnet.Proofs.Hierarchy.Sessions
import Garnet.Proofs.Bodies.Moves
import Garnet.Proofs.Bodies.Body
import Garnet.Proofs.Bodies.Operations
import Garnet.Proofs.Bodies.Statements
import Garnet.Proofs.Bodies.Tables
import Garnet.Proofs.Bodies.Symbols
import Garnet.Proofs.Trees.RoundTrip
import Garnet.Proofs.Trees.Reread
import Garnet.Proofs.Trees.Boundaries
import Garnet.Proofs.Hierarchy.Rescue
import Garnet.Proofs.Hierarchy.ClassVariables
import Garnet.Proofs.Interning
import Garnet.Proofs.Lookup.Mutations
import Garnet.Proofs.Lookup.Splicing
import Garnet.Proofs.Lookup.Listing
import Garnet.Proofs.Hashes.Keys
import Garnet.Proofs.Scopes.Variables
import Garnet.Proofs.Trees.Accepted
import Garnet.Proofs.Comparisons
import Garnet.Proofs.Refusals.Unknown
import Garnet.Proofs.Equality.Codes
import Garnet.Proofs.Equality.Answers
import Garnet.Proofs.Json.Trees
import Garnet.Proofs.Arguments.Destructuring
import Garnet.Proofs.Assignments.Updates
import Garnet.Proofs.Control.Nests
import Garnet.Proofs.Hashes.History
import Garnet.Proofs.Hashes.Laws
import Garnet.Proofs.InPlace.Operations
import Garnet.Proofs.Sorting.Elements
import Garnet.Proofs.Ranges.Overrides
import Garnet.Proofs.Ranges.Counting
import Garnet.Proofs.Ranges.Texts
import Garnet.Proofs.Arrays.Nesting
import Garnet.Proofs.Arrays.Segments
import Garnet.Proofs.Arrays.Sets
import Garnet.Proofs.Enumerable.Splitting
import Garnet.Proofs.Enumeration.Agreement
import Garnet.Proofs.Texts.Inspection
import Garnet.Proofs.Integers.Arithmetic
import Garnet.Proofs.Numerals.Literals
import Garnet.Proofs.Numerals.Directives
import Garnet.Proofs.Searches.Positions
import Garnet.Proofs.Searches.Separators
