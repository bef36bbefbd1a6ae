import FFSys.Socket.RecvRuns
import FFSys.Filemon.WindowsRuns
import FFSys.Winreg.Store
import FFSys.Winreg.EnumAll
import FFSys.Timer.ThreadRuns
import FFSys.File.WriteWhole
import FFSys.Server.Edges
import FFSys.Process.Exec
import FFSys.Process.ExecWaitRuns
import FFSys.Path.NormContract
import FFSys.Path.NormUnix
import FFSys.Timer.Periodic
import FFSys.Timer.Terminate
import FFSys.Kcall.Wakeup
import FFSys.Kcall.Deliver
import FFSys.Kcall.State
import FFSys.Path.Normalize
import FFSys.Path.NormalizeStack
import FFSys.Path.NormalizeWalk
import FFSys.Path.NormalizeSimple
import FFSys.Lib.Bytes
import FFSys.Std.Key
import FFSys.Std.Escape
import FFSys.Std.KeyPrefix
import FFSys.Std.KeyStream
import FFSys.Netlink.Message
import FFSys.Netlink.Iterate
import FFSys.Netconf.Interfaces
import FFSys.Netconf.Unique
import FFSys.Netlink.Safe
import FFSys.Dirscan.Order
import FFSys.Filemon.Inotify
import FFSys.Filemon.Safe
import FFSys.Dirscan.Complete
import FFSys.Netconf.Attributes
import FFSys.Socket.Iovec
import FFSys.Socket.Sendv
import FFSys.File.Open
import FFSys.Path.NormalizeTwice
import FFSys.Path.NormalizeForce
import FFSys.Path.NormalizeInPlace
import FFSys.Path.NormPlain
import FFSys.Std.KeyGrammar
import FFSys.Std.KeySegment
import FFSys.Socket.Accept
import FFSys.Dirscan.ScanX
import FFSys.Dirscan.CompleteX
import FFSys.Environ.Expand
import FFSys.Netconf.Dns
import FFSys.Netconf.DnsWords
import FFSys.Netconf.Slots
import FFSys.Lib.Signed
import FFSys.Time.Winftime
import FFSys.Dir.Make
import FFSys.File.ReadWhole
import FFSys.Lib.Unicode
import FFSys.Time.Deadline
import FFSys.Lib.FileTree
import FFSys.Dir.Tree
import FFSys.Dir.Windows
import FFSys.Lib.ArgSplit
import FFSys.Process.Cmdln
import FFSys.Winreg.Write
import FFSys.Winreg.Read
import FFSys.Winreg.Enum
import FFSys.Process.Inherit
import FFSys.Timer.Unix
import FFSys.Semaphore.Lock
import FFSys.Kqueue.Post
import FFSys.Socket.Connect
