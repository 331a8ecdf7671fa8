import Extpp.Machine
import Extpp.Leaf.Node
import Extpp.Leaf.Algebra
import Extpp.Leaf.Run
import Extpp.Btree.Tree
import Extpp.Array.Growth
import Extpp.Array.Impl
import Extpp.Array.Handle
import Extpp.Array.Cells
import Extpp.Array.Abstract
import Extpp.Array.Refinement
import Extpp.Array.Storage
import Extpp.Array.Resizes
import Extpp.Array.Typed
