import Motr.Lib.SortedKV
import Motr.Btree.Node
import Motr.Btree.Move
import Motr.Btree.Invariant
import Motr.Btree.Put
import Motr.Btree.PutCorrect
import Motr.Btree.Del
import Motr.Btree.DelCorrect
import Motr.Btree.Run
import Motr.Btree.Get
import Motr.Btree.GetCorrect
import Motr.Emap.Ext
import Motr.Lib.Tiling
import Motr.Emap.Cursor
import Motr.Emap.Paste
import Motr.Emap.PasteSpec
import Motr.Emap.PasteCorrect
import Motr.Emap.PasteRefine
import Motr.Pool.Machine
import Motr.Pool.MachineInv
import Motr.Dtm0.Log
import Motr.Lib.PointwiseMax
import Motr.Dtm0.LogSpec
import Motr.Layout.Pdclust
import Motr.Layout.PdclustSpec
import Motr.Rm.Credit
import Motr.Rm.CreditSpec
import Motr.Lib.CNumber
import Motr.Lib.LeBytes
import Motr.Xcode.Binary
import Motr.Lib.Parse
import Motr.Xcode.BinarySpec
import Motr.Xcode.Text
import Motr.Xcode.TextSpec
import Motr.Be.LogRun
import Motr.Lib.RingWindow
import Motr.Btree.Truncate
import Motr.Emap.Merge
import Motr.Btree.Format
import Motr.Btree.Ff
import Motr.Btree.Fkvv
import Motr.Btree.FkvvLeaf
import Motr.Dix.Imask
import Motr.Lib.Steps
import Motr.Xcode.Cursor
import Motr.Vec.Bufvec
import Motr.Vec.Ivec
import Motr.Varr.Cursor
import Motr.Rpc.FormationRun
import Motr.Be.Regmap
import Motr.Be.RegmapSpec
import Motr.Be.RegArea
