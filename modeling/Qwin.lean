import Qwin.User.Printf
import Qwin.User.Base64
import Qwin.User.PasswdRecord
import Qwin.WallClock
import Qwin.Kernel.Mp
import Qwin.Mkfs.Image
import Qwin.Log.Atomicity
import Qwin.Fs.ReadWrite
import Qwin.Fs.Paths
import Qwin.Sys.Machine
import Qwin.Sys.Exec
import Qwin.Proc.Uid
import Qwin.Sys.Arg
import Qwin.Sys.PipeCall
import Qwin.Proc.Kill
import Qwin.Pipe.Wakeup
import Qwin.Sys.FileRefs
import Qwin.Sys.LocksHeld
import Qwin.User.Heap
import Qwin.User.Grep
import Qwin.User.Mv
import Qwin.Shell.Redirect
import Qwin.Sys.GetcwdPath
import Qwin.Sys.Link
import Qwin.Sys.Output
import Qwin.Vm.Grow
import Qwin.Vm.Copy
import Qwin.Vm.Copyout
import Qwin.Vm.Stack
import Qwin.Tty.Eof
import Qwin.Kernel.Killed
import Qwin.Kernel.Memmove
import Qwin.Vm.Mappages
import Qwin.Shell.Environ
