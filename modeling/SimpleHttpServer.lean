import SimpleHttpServer.Lib.Machine
import SimpleHttpServer.Lib.MapM
import SimpleHttpServer.Lib.SortedBy
import SimpleHttpServer.Lib.CString
import SimpleHttpServer.Lib.Interned
import SimpleHttpServer.Lib.Local
import SimpleHttpServer.Lib.Loop
import SimpleHttpServer.Lib.Queue
import SimpleHttpServer.Lib.Tally
import SimpleHttpServer.Lib.Owners
import SimpleHttpServer.Lib.Lockable
import SimpleHttpServer.Lib.Locks
import SimpleHttpServer.Lib.Races
import SimpleHttpServer.Mutex.Mutex
import SimpleHttpServer.Mutex.ScopedLock
import SimpleHttpServer.Yaml.Node
import SimpleHttpServer.Yaml.Flow
import SimpleHttpServer.Config.Lexical
import SimpleHttpServer.Config.Strings
import SimpleHttpServer.Config.ConfigVar
import SimpleHttpServer.Config.SharedVar
import SimpleHttpServer.Config.Notify
import SimpleHttpServer.Config.Listeners
import SimpleHttpServer.Config.Flatten
import SimpleHttpServer.Config.Load
import SimpleHttpServer.Config.Case
import SimpleHttpServer.Config.Reload
import SimpleHttpServer.Config.Registry
import SimpleHttpServer.Log.Level
import SimpleHttpServer.Log.Formatter
import SimpleHttpServer.Log.Scan
import SimpleHttpServer.Log.Pattern
import SimpleHttpServer.Log.Order
import SimpleHttpServer.Log.Escape
import SimpleHttpServer.Log.Bounds
import SimpleHttpServer.Log.Date
import SimpleHttpServer.Log.Format
import SimpleHttpServer.Log.Logger
import SimpleHttpServer.Log.Define
import SimpleHttpServer.Log.Codec
import SimpleHttpServer.Log.Normal
import SimpleHttpServer.Log.Dump
import SimpleHttpServer.Log.Routing
import SimpleHttpServer.Log.Fallback
import SimpleHttpServer.Log.Initer
import SimpleHttpServer.Log.Removal
import SimpleHttpServer.Log.Reconfigure
import SimpleHttpServer.Log.Files
import SimpleHttpServer.Log.Handles
import SimpleHttpServer.Log.Lines
import SimpleHttpServer.Log.Threads
import SimpleHttpServer.Log.File
import SimpleHttpServer.Log.Rotate
import SimpleHttpServer.Log.LockOrder
import SimpleHttpServer.Log.Races
import SimpleHttpServer.Thread.Start
import SimpleHttpServer.Fiber.Switch
import SimpleHttpServer.Fiber.Resume
import SimpleHttpServer.Fiber.Home
import SimpleHttpServer.Fiber.Lifetime
import SimpleHttpServer.Scheduler.Model
import SimpleHttpServer.Scheduler.Steps
import SimpleHttpServer.Scheduler.Active
import SimpleHttpServer.Scheduler.Exclusive
import SimpleHttpServer.Scheduler.Affinity
import SimpleHttpServer.Scheduler.Tidy
import SimpleHttpServer.Scheduler.Inventory
import SimpleHttpServer.Scheduler.Drain
import SimpleHttpServer.Scheduler.Turn
import SimpleHttpServer.Scheduler.Tickle
import SimpleHttpServer.Scheduler.Life
import SimpleHttpServer.Scheduler.Fiber
import SimpleHttpServer.Scheduler.Stage
import SimpleHttpServer.Scheduler.Placed
import SimpleHttpServer.Scheduler.Cycles
import SimpleHttpServer.Scheduler.Net
import SimpleHttpServer.Scheduler.SwitchTo
import SimpleHttpServer.Server.Accept
