import Captain.ByteArray.RoundTrip
import Captain.ByteArray.Capacity
import Captain.ByteArray.File
import Captain.ByteArray.Readers
import Captain.ByteArray.Strings
import Captain.FdManager
import Captain.Timer.Announce
import Captain.Timer.Runs
import Captain.Timer.Delay
import Captain.IOManager.Runs
import Captain.IOManager.Dispatch
import Captain.IOManager.Idle
import Captain.IOManager.Table
import Captain.IOManager.Wakeup
import Captain.Hook.Nonblock
import Captain.Hook.Recycle
import Captain.Hook.Timeout
import Captain.Hook.Reschedule
import Captain.Scheduler.Exclusive
import Captain.Scheduler.Ledger
import Captain.Scheduler.Stopping
import Captain.Scheduler.Reuse
import Captain.Config.Load
import Captain.Config.Notify
import Captain.Log.FileAppender
import Captain.Log.Listener
import Captain.Log.DefineYaml
import Captain.TcpServerConf
import Captain.Http.Segmentation
import Captain.Http.Pipeline
import Captain.Http.BodyLimit
import Captain.Http.Response
import Captain.Address.IPv4
import Captain.Address.IPv6
import Captain.Address.Insert
import Captain.Address.Lookup
import Captain.Http.Dump
import Captain.Http.Server
import Captain.Log.SetValue
import Captain.TcpServer
import Captain.FdManager.Threads
import Captain.Hook.SockOpt
import Captain.Http.Maps
import Captain.Log.Directives
import Captain.Log.Inherit
import Captain.Scheduler.Loop
import Captain.Stream
import Captain.Http.Client
import Captain.Http.ClientChunks
import Captain.Http.ClientDump
import Captain.Http.ClientSplit
import Captain.Http.Call
import Captain.TcpServer.Serving
import Captain.TcpServer.Stop
import Captain.Http.FixSize
