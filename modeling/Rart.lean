import Rart.Debug.Arrays
import Rart.Debug.Bytes
import Rart.Debug.Insert
import Rart.Debug.Mappings
import Rart.Debug.Nodes
import Rart.Debug.Programs
import Rart.Debug.Remove
import Rart.Debug.Update
import Rart.Iter.Bounded
import Rart.Iter.Frames
import Rart.Iter.Inner
import Rart.Iter.KeyView
import Rart.Iter.Lending
import Rart.Iter.Owned
import Rart.Iter.Paths
import Rart.Iter.Range
import Rart.Iter.Seek
import Rart.Iter.Values
import Rart.Iter.Views
import Rart.Keys.Builder
import Rart.Keys.Chains
import Rart.Keys.CommonPrefix
import Rart.Keys.Embeddings
import Rart.Keys.Integers
import Rart.Keys.Joins
import Rart.Keys.Storage
import Rart.Keys.Typed
import Rart.Keys.Types
import Rart.Lib.Checked
import Rart.Lib.Cursor
import Rart.Lib.Digits
import Rart.Lib.LexOrder
import Rart.Lib.Program
import Rart.Lib.RcHeap.Cells
import Rart.Lib.RcHeap.Counted
import Rart.Lib.RcHeap.Drops
import Rart.Lib.RcHeap.Valid
import Rart.Lib.Rules
import Rart.Lib.SortedAssoc
import Rart.Lib.Views
import Rart.Lib.Words
import Rart.Mapping.Copies
import Rart.Mapping.Direct
import Rart.Mapping.Drops
import Rart.Mapping.Indexed
import Rart.Mapping.SortedKeyed
import Rart.Node
import Rart.NodeDrops
import Rart.NodeRuns
import Rart.Panic
import Rart.Partials
import Rart.Probe
import Rart.Query.Intersect
import Rart.Query.Prefix
import Rart.Query.PrefixMatch
import Rart.Query.Scans
import Rart.RangeViews
import Rart.Reachable
import Rart.Reference
import Rart.Shared.Branches
import Rart.Shared.GetMut
import Rart.Shared.Insert
import Rart.Shared.Interleavings
import Rart.Shared.Nodes
import Rart.Shared.Programs
import Rart.Shared.Remove
import Rart.Shared.Scans.Iterators
import Rart.Shared.Scans.Runs
import Rart.Shared.Scans.Turns
import Rart.Shared.Steps
import Rart.Shared.Update
import Rart.Shared.World
import Rart.Slot
import Rart.Tree.Bulk
import Rart.Tree.Canonical
import Rart.Tree.Drops
import Rart.Tree.History
import Rart.Tree.Insert
import Rart.Tree.Invariant
import Rart.Tree.Load
import Rart.Tree.Map
import Rart.Tree.Nodes
import Rart.Tree.Reads
import Rart.Tree.Refines
import Rart.Tree.Remove
import Rart.Tree.Scans
import Rart.Tree.Shape
import Rart.Tree.Stats
import Rart.Tree.Update
import Rart.Trie
import Rart.Utils.BitArray
import Rart.Utils.Bitset
import Rart.Utils.BitsetRuns
import Rart.Utils.U8Keys
import Rart.Versioned.Accounts
import Rart.Versioned.Branches
import Rart.Versioned.Clones
import Rart.Versioned.Convert
import Rart.Versioned.Cost.Descent
import Rart.Versioned.Cost.Trees
import Rart.Versioned.Cow
import Rart.Versioned.Edges
import Rart.Versioned.Forest
import Rart.Versioned.GetMut
import Rart.Versioned.InPlace.Conditions
import Rart.Versioned.InPlace.Insert
import Rart.Versioned.InPlace.Remove
import Rart.Versioned.InPlace.Trees
import Rart.Versioned.InPlace.Update
import Rart.Versioned.Insert
import Rart.Versioned.Node
import Rart.Versioned.Remove
import Rart.Versioned.Scans
import Rart.Versioned.Sharing
import Rart.Versioned.Steps
import Rart.Versioned.Tree
import Rart.Versioned.Update
import Rart.Versioned.Versions
import Rart.Versioned.View
