import OsPlayground.Proc.Model
import OsPlayground.Lib.Links
import OsPlayground.Proc.Queue
import OsPlayground.Proc.Moves
import OsPlayground.Proc.Inv
import OsPlayground.Proc.Slice
import OsPlayground.Proc.Complete
import OsPlayground.Proc.Recycle
import OsPlayground.Lib.Sums
import OsPlayground.Vm.Frames
import OsPlayground.Vm.Owned
import OsPlayground.Memo.Capture
import OsPlayground.Memo.Lock
import OsPlayground.File.Model
import OsPlayground.File.Safe
import OsPlayground.Lib.Ring
import OsPlayground.Pipe.Model
import OsPlayground.Pipe.Fifo
import OsPlayground.Console.Input
import OsPlayground.Console.Line
import OsPlayground.Sync.Sleep
import OsPlayground.Sync.Wakeup
import OsPlayground.Sync.Cli
import OsPlayground.Sync.Exclusion
import OsPlayground.Console.Windows
import OsPlayground.Lib.Ledger
import OsPlayground.Proc.Family
import OsPlayground.Proc.Reap
import OsPlayground.Lib.Access
import OsPlayground.Syscall.Args
import OsPlayground.Syscall.Confined
import OsPlayground.Scsh.Parse
import OsPlayground.Scsh.Print
import OsPlayground.Scsh.Control
import OsPlayground.Scsh.Substitute
import OsPlayground.Scsh.Defun
import OsPlayground.Log.Model
import OsPlayground.Log.Crash
import OsPlayground.Log.Reserve
import OsPlayground.Log.Spare
import OsPlayground.Sync.Sleeplock
import OsPlayground.Lib.Circle
import OsPlayground.Bio.Model
import OsPlayground.Bio.Cache
import OsPlayground.Lib.Words
import OsPlayground.Fs.Model
import OsPlayground.Fs.Alloc
import OsPlayground.Fs.Map
import OsPlayground.Fs.Content
import OsPlayground.Fs.Sound
import OsPlayground.Fs.Filewrite
import OsPlayground.Fs.Bytes
import OsPlayground.Fs.Trunc
import OsPlayground.Fs.Life
import OsPlayground.Lib.Both
import OsPlayground.Mkfs.Model
import OsPlayground.Mkfs.Agree
import OsPlayground.Mkfs.Append
import OsPlayground.Mkfs.Build
import OsPlayground.Mkfs.Image
import OsPlayground.Lib.Triple
import OsPlayground.Sysfile.Model
import OsPlayground.Sysfile.Calls
import OsPlayground.Sysfile.Refs
import OsPlayground.Sysfile.Holders
import OsPlayground.Sysfile.Balanced
import OsPlayground.Sysfile.Counted
import OsPlayground.Sysfile.Directory
import OsPlayground.Lib.Total
import OsPlayground.Sysfile.Elements
import OsPlayground.Sysfile.Resolve
import OsPlayground.Scsh.Numeral
import OsPlayground.Vm.Shared
import OsPlayground.Syscall.Index
import OsPlayground.Vm.Contents
import OsPlayground.Vm.Kernel
import OsPlayground.Vm.Grow
import OsPlayground.Vm.Copyout
import OsPlayground.Scsh.Argv
import OsPlayground.Scsh.Store
import OsPlayground.Scsh.Table
import OsPlayground.Vm.Fork
import OsPlayground.Vm.Exec
import OsPlayground.Syscall.ExecArgs
import OsPlayground.Scsh.Equal
import OsPlayground.Grep.Match
import OsPlayground.Grep.Chunks
import OsPlayground.Vm.Dealloc
import OsPlayground.Lib.Terminal
import OsPlayground.Console.Terminal
import OsPlayground.Lib.Round
import OsPlayground.Umalloc.Model
import OsPlayground.Umalloc.Blocks
import OsPlayground.Umalloc.Search
import OsPlayground.Umalloc.Managed
import OsPlayground.Sh.Parse
import OsPlayground.Sh.Print
import OsPlayground.Sh.Lex
import OsPlayground.Sh.Tree
import OsPlayground.Sh.Roundtrip
import OsPlayground.Scsh.Grammar
import OsPlayground.Scsh.Accepts
import OsPlayground.Proc.Holding
import OsPlayground.Vm.Space
import OsPlayground.Vm.Isolation
import OsPlayground.Vm.Boot
import OsPlayground.Lib.NullList
import OsPlayground.Ide.Model
import OsPlayground.Ide.Serve
import OsPlayground.Lib.Volume
import OsPlayground.Log.Journal
import OsPlayground.Log.Durable
import OsPlayground.Sh.Runcmd
