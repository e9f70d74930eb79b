import Donkeyji.Lib.Memory
import Donkeyji.Xy3.DataBuf
import Donkeyji.Xy3.DataBufTheorems
import Donkeyji.Xy3.FramingTheorems
import Donkeyji.Mydb.DataFormat
import Donkeyji.Mydb.ArgManager
import Donkeyji.Mydb.ArgTree
import Donkeyji.Mydb.ArgTreeTheorems
import Donkeyji.Mydb.RoundTripTheorems
import Donkeyji.Lib.Chain
import Donkeyji.Lib.Runs
import Donkeyji.Mempool.MemoryPool
import Donkeyji.Mempool.MemoryPoolTheorems
import Donkeyji.Mempool.PoolRunTheorems
import Donkeyji.Xy3.Proto
import Donkeyji.Xy3.ProtoTheorems
import Donkeyji.Mydb.Protocol
import Donkeyji.Mydb.Layout
import Donkeyji.Mydb.LayoutExactTheorems
import Donkeyji.Mydb.CheckIdTheorems
import Donkeyji.Mydb.ProtoManager
import Donkeyji.Mydb.ProtoManagerTheorems
import Donkeyji.Mydb.UnpackData
import Donkeyji.Mydb.HeaderTheorems
import Donkeyji.Lib.KeyedMap
import Donkeyji.ServerMaps.RpcMgr
import Donkeyji.ServerMaps.RpcMgrTheorems
import Donkeyji.Lib.Text
import Donkeyji.PyProto.Proto
import Donkeyji.PyProto.Survives
import Donkeyji.PyProto.TextTheorems
import Donkeyji.PyProto.RoundTripTheorems
import Donkeyji.Mytimer.MinHeap
import Donkeyji.Mytimer.MinHeapTheorems
import Donkeyji.Mytimer.NodeList
import Donkeyji.Mytimer.Timer
import Donkeyji.Mytimer.TimerTheorems
import Donkeyji.Mytimer.LifeCycleTheorems
import Donkeyji.MyEvent.Epoll
import Donkeyji.MyEvent.EpollTheorems
import Donkeyji.MyEvent.Evbuffer
import Donkeyji.MyEvent.EvbufferTheorems
import Donkeyji.Xy3.CodecErrorTheorems
import Donkeyji.Lib.TailQueue
import Donkeyji.MyEvent.Event
import Donkeyji.Lib.Outcome
import Donkeyji.MyEvent.EventQueueTheorems
import Donkeyji.MyEvent.EventFrameTheorems
import Donkeyji.MyEvent.EventRunTheorems
import Donkeyji.MyEvent.EventStackTheorems
import Donkeyji.MyEvent.EventTableTheorems
import Donkeyji.MyEvent.EventSilenceTheorems
import Donkeyji.Cpp.KvParser
import Donkeyji.Cpp.KvParserTheorems
import Donkeyji.MultiProgress.Process
import Donkeyji.MultiProgress.ProcessTheorems
import Donkeyji.Lib.SwapPool
import Donkeyji.MultiProgress.Chunk
import Donkeyji.MultiProgress.Conn
import Donkeyji.MultiProgress.WriteTheorems
import Donkeyji.MultiProgress.ConnMgrTheorems
import Donkeyji.Lib.Decoder
import Donkeyji.Mydb.BoundTheorems
import Donkeyji.Mydb.ProgressTheorems
import Donkeyji.Xy3.Client
import Donkeyji.Xy3.SendTheorems
import Donkeyji.Lib.Sessions
import Donkeyji.Xy3.Server
import Donkeyji.Xy3.ServerTheorems
import Donkeyji.Xy3.DrainTheorems
import Donkeyji.ServerMaps.Buffer
import Donkeyji.ServerMaps.ResponseTheorems
import Donkeyji.Xy3.MainLoop
import Donkeyji.Xy3.ReplyTheorems
import Donkeyji.MultiProgress.Cgi
import Donkeyji.MultiProgress.CgiTheorems
import Donkeyji.Rank.Core
import Donkeyji.Xy3.BufferRunTheorems
import Donkeyji.Xy3.RecvLoopTheorems
import Donkeyji.Mydb.Buf
import Donkeyji.Mydb.BufTheorems
import Donkeyji.Mydb.NamingTheorems
import Donkeyji.Mydb.FormatTheorems
import Donkeyji.Mydb.Send
import Donkeyji.Mydb.SendTheorems
import Donkeyji.Lib.DoubleChain
import Donkeyji.Rank.ScoreListTheorems
import Donkeyji.Rank.UidListTheorems
import Donkeyji.Rank.StepTheorems
import Donkeyji.Rank.RankTheorems
import Donkeyji.Rank.UpdateTheorems
import Donkeyji.Rank.QueryTheorems
import Donkeyji.Lib.HeapOrder
import Donkeyji.Mytimer.HeapOrderTheorems
import Donkeyji.Mytimer.ExpiryTheorems
import Donkeyji.Mytimer.HeapRunTheorems
import Donkeyji.Mytimer.FiringOrderTheorems
import Donkeyji.Mytimer.LTimer
import Donkeyji.Mytimer.LTimerTheorems
import Donkeyji.Xy3.UnicastTheorems
import Donkeyji.Xy3.ShutDownTheorems
import Donkeyji.PyProto.OriginTheorems
import Donkeyji.Mempool.SizeTheorems
import Donkeyji.MyEvent.EvbufferFifoTheorems
import Donkeyji.MultiProgress.FinishedTheorems
import Donkeyji.ServerMaps.AppendTheorems
import Donkeyji.MultiProgress.AppendTheorems
import Donkeyji.MultiProgress.ChunkLinks
import Donkeyji.MultiProgress.ChunkLinksTheorems
import Donkeyji.MultiProgress.DisposalTheorems
import Donkeyji.ServerMaps.ClientTable
import Donkeyji.ServerMaps.ClientTableTheorems
import Donkeyji.ServerMaps.Login
import Donkeyji.ServerMaps.LoginTheorems
import Donkeyji.MyEvent.Evsignal
import Donkeyji.MyEvent.EvsignalFrameTheorems
import Donkeyji.MyEvent.EvsignalTheorems
import Donkeyji.MyEvent.EvsignalTickTheorems
import Donkeyji.Mytimer.HeapWords
import Donkeyji.Mytimer.HeapWordsTheorems
import Donkeyji.CgiHandler.PageManage
import Donkeyji.CgiHandler.PageManageTheorems
import Donkeyji.Cpp.KvIndices
import Donkeyji.Cpp.KvIndicesTheorems
import Donkeyji.Lib.PairTable
import Donkeyji.LuaBase.Class
import Donkeyji.LuaBase.ClassTheorems
import Donkeyji.LuaBase.UpdateTheorems
import Donkeyji.LuaBase.Import
import Donkeyji.LuaBase.ImportTheorems
import Donkeyji.MyEvent.Bufferevent
import Donkeyji.MyEvent.BuffereventTheorems
import Donkeyji.Aoi.Scene
import Donkeyji.Lib.Raising
import Donkeyji.Aoi.SceneTheorems
import Donkeyji.Lib.FileTree
import Donkeyji.CgiHandler.UploadSession
import Donkeyji.CgiHandler.UploadSessionTheorems
import Donkeyji.Rank.ScoreRunTheorems
import Donkeyji.Rank.OwnerTheorems
import Donkeyji.Xy3.RemoteCalls
import Donkeyji.Xy3.RemoteCallTheorems
import Donkeyji.MyEvent.Outgoing
import Donkeyji.MyEvent.OutgoingTheorems
import Donkeyji.Mydb.TwoEndsTheorems
import Donkeyji.Lib.Overwrite
import Donkeyji.Posix.ModeMuncher
import Donkeyji.Posix.ModeMuncherTheorems
import Donkeyji.Lib.FileMoves
import Donkeyji.Tools.Rename
import Donkeyji.Tools.RenameTheorems
import Donkeyji.Lib.Ring
import Donkeyji.Enet.Host
import Donkeyji.Enet.HostTheorems
import Donkeyji.MyEvent.EventDeliveryTheorems
import Donkeyji.MyEvent.EventOrderTheorems
import Donkeyji.Xy3.Exchange
import Donkeyji.Xy3.ExchangeTheorems
