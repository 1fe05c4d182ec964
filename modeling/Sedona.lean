import Sedona.Library.Transition
import Sedona.Library.Lockstep
import Sedona.Library.Postorder
import Sedona.Library.TwoRuns
import Sedona.Library.LastIndex
import Sedona.Library.Bitmap
import Sedona.Library.Blocks
import Sedona.Library.Ends
import Sedona.Library.ByteCells
import Sedona.Library.Words
import Sedona.Library.IteratedHash
import Sedona.Library.Answers
import Sedona.Library.Loops
import Sedona.Library.Cursor
import Sedona.Dasp.ReceiveWindow
import Sedona.Dasp.DeviceWindow
import Sedona.Dasp.SendWindow
import Sedona.Dasp.Delivery
import Sedona.Dasp.DaspMsg
import Sedona.Sys.BufInStream
import Sedona.Library.Chain
import Sedona.Library.ChainEnds
import Sedona.Library.Threads
import Sedona.Library.Rethread
import Sedona.Library.Fuel
import Sedona.Library.LabelledCode
import Sedona.Vm.Svm
import Sedona.Compiler.ImageLayout
import Sedona.Compiler.ImageGen
import Sedona.Compiler.BlockIndices
import Sedona.Compiler.JumpLayout
import Sedona.Compiler.JumpPatch
import Sedona.Compiler.JumpTargets
import Sedona.Compiler.ConstFolding
import Sedona.Compiler.ConstFoldingAgain
import Sedona.Compiler.ConstFoldingSound
import Sedona.Compiler.ConstFoldingSteps
import Sedona.Compiler.ConstPool
import Sedona.Compiler.ConstTables
import Sedona.Compiler.LiteralPool
import Sedona.Compiler.VTableImage
import Sedona.Compiler.Inherit
import Sedona.Compiler.VTableLayout
import Sedona.Compiler.VirtualDispatch
import Sedona.Compiler.FieldLayout
import Sedona.Compiler.FieldSizes
import Sedona.Compiler.FieldPasses
import Sedona.Compiler.FieldInlines
import Sedona.Compiler.FieldTypes
import Sedona.Compiler.FieldLayoutSound
import Sedona.Pricomp.PrioritizedBool
import Sedona.Pstore.PstoreValidate
import Sedona.Pstore.PstoreClaim
import Sedona.Pstore.PstoreIsolation
import Sedona.Compiler.OptimizeIr
import Sedona.Compiler.OptimizeIrSound
import Sedona.Sys.Meta
import Sedona.Sys.App
import Sedona.Sys.Tree
import Sedona.Sys.Heap
import Sedona.Sys.LinkLists
import Sedona.Sys.AppInv
import Sedona.Sys.AppAdd
import Sedona.Sys.AppRemove
import Sedona.Sys.AppStructure
import Sedona.Sys.RunApp
import Sedona.Sys.ScanTree
import Sedona.Sys.ScanWork
import Sedona.Sys.ScanLaw
import Sedona.Library.Decoding
import Sedona.Sys.Stream
import Sedona.Sys.Props
import Sedona.Sys.AppFile
import Sedona.Sys.AppSave
import Sedona.Sys.AppLoad
import Sedona.Sys.AppSchema
import Sedona.Sys.AppRoundTrip
import Sedona.Sys.AppSaveStream
import Sedona.Sys.BufOutStream
import Sedona.Library.Sink
import Sedona.Dasp.DeviceSendWindow
import Sedona.Sys.AppNames
import Sedona.Sox.TreeCommands
import Sedona.Sox.TreeRequests
import Sedona.Sox.HonestReplies
import Sedona.Sox.ReorderRequests
import Sedona.Sox.AddRequests
import Sedona.Sox.OpenTransfer
import Sedona.Library.Rescan
import Sedona.Web.Handler
import Sedona.Web.RequestText
import Sedona.Web.HandlerText
import Sedona.Web.HandlerBounds
import Sedona.Web.SpoiledText
import Sedona.Web.HandlerCuts
import Sedona.Sox.SiblingNames
import Sedona.Dasp.AckHeaders
import Sedona.Sox.SoxSession
import Sedona.Sox.SoxDevice
import Sedona.Sox.SoxCommands
import Sedona.Sox.SlotAgreement
import Sedona.Sox.SlotRequests
import Sedona.Sox.SlotReuse
import Sedona.Sox.SlotIsolation
import Sedona.Sox.UniqueSessions
import Sedona.Sox.Handshake
import Sedona.Offline.OfflineApp
import Sedona.Offline.OfflineTree
import Sedona.Offline.OfflineCalls
import Sedona.Offline.DecodeApp
import Sedona.Offline.DecodeLoops
import Sedona.Offline.DecodeRead
import Sedona.Offline.DecodeTree
import Sedona.Sox.SoxExchange
import Sedona.Library.ComparatorSort
import Sedona.Compiler.OrderStaticInits
import Sedona.Compiler.InheritStep
import Sedona.Library.ChunkedFile
import Sedona.Sox.PutTransfer
import Sedona.BasicSchedule.DailySchedule
import Sedona.Compiler.NormalizeExpr
import Sedona.Compiler.CodeAsm
import Sedona.Compiler.SwitchStmt
import Sedona.Sys.CompIds
import Sedona.Sys.FileStream
import Sedona.Library.Calendar
import Sedona.DateTime.DateTime
import Sedona.Library.PiecewiseLinear
import Sedona.Control.Linearize
import Sedona.Library.RingHistory
import Sedona.Control.Avg10
import Sedona.Library.GuardedRuns
import Sedona.Control.PeriodicBlocks
import Sedona.Control.LSeq
import Sedona.Control.LP
import Sedona.Library.Signal
import Sedona.Control.TimedBlocks
import Sedona.Sys.FindType
import Sedona.Sys.LinkPropagate
import Sedona.Library.LineBreaks
import Sedona.Web.Base64
import Sedona.Library.Scanner
import Sedona.Compiler.Tokenizer
import Sedona.Compiler.Comments
import Sedona.Compiler.StrLiterals
import Sedona.Compiler.TokenScan
import Sedona.Library.Spans
import Sedona.Kits.Depend
import Sedona.Kits.DependText
import Sedona.Kits.DependMatch
import Sedona.Kits.DependRound
import Sedona.Library.Definedness
import Sedona.Library.Fields
import Sedona.Library.Numerals
import Sedona.Inet.IpAddr
import Sedona.Inet.IpText
import Sedona.Inet.IpParse
import Sedona.Inet.IpNotation
import Sedona.Inet.SecureHash
import Sedona.Inet.Sha1
import Sedona.Xml.XReader
import Sedona.Xml.XParser
import Sedona.Xml.XTokens
import Sedona.Xml.XDocuments
import Sedona.Xml.XWriter
import Sedona.Xml.XLineBreaks
