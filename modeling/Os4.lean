import Os4.Lib.Bytes
import Os4.Lib.Wp
import Os4.Lib.Ownership
import Os4.Param
import Os4.Log.Bio
import Os4.Log.Admission
import Os4.Log.Recovery
import Os4.Log.Machine
import Os4.Log.Crash
import Os4.Fs.Layout
import Os4.Fs.State
import Os4.Fs.Inode
import Os4.Fs.Path
import Os4.Fs.Sys
import Os4.Fs.Alloc
import Os4.Fs.Respects
import Os4.Fs.MountTable
import Os4.Fs.Volume
import Os4.Fs.Bmap
import Os4.Fs.Content
import Os4.Fs.File
import Os4.Fs.Cache
import Os4.Fs.Quota
import Os4.Fs.Checked
import Os4.Fs.Reclaim
import Os4.Fs.Dir
import Os4.Fs.Walk
import Os4.Fs.Balance
import Os4.Fs.Redirect
import Os4.Fs.Spelling
import Os4.Fs.Plain
import Os4.Mkfs.Image
import Os4.Mkfs.Append
import Os4.Mkfs.Partition
import Os4.Mkfs.Apart
import Os4.Mkfs.Holes
import Os4.Mkfs.Format
import Os4.Lib.Thread
import Os4.Fs.Par
import Os4.Fs.Accounts
import Os4.Fs.Accounting
import Os4.Lib.Ring
import Os4.Proc.Pipe
import Os4.Proc.Args
import Os4.Fs.Transaction
import Os4.Fs.MountOnce
import Os4.Proc.Frames
import Os4.Proc.Owners
import Os4.Proc.Calls
import Os4.Proc.Isolation
import Os4.Proc.ExecSafe
import Os4.Lib.Dlist
import Os4.Log.Buffers
import Os4.Log.Overrun
import Os4.Log.Memide
import Os4.Mkfs.Driver
import Os4.Proc.Table
import Os4.Proc.Wait
import Os4.Proc.Spin
import Os4.Log.Dry
import Os4.Lib.Notes
import Os4.Proc.Steps
import Os4.Proc.Files
import Os4.Fs.Locked
import Os4.Fs.Writers
import Os4.Lib.Alone
import Os4.Proc.Uvm
import Os4.Proc.Sweep
import Os4.Proc.Grow
import Os4.Proc.Copy
import Os4.Proc.Leak
import Os4.Dev.Console
import Os4.Dev.Mp
import Os4.Dev.Ide
import Os4.User.Grep
import Os4.Proc.Copyout
import Os4.User.Malloc
import Os4.Fs.Memory
