import Twcos.Prog.Basic
import Twcos.Tree.Basic
import Twcos.Tree.Rep
import Twcos.Tree.Rotate
import Twcos.Tree.Balance
import Twcos.Tree.Walk
import Twcos.Tree.Update
import Twcos.Assoc.Basic
import Twcos.Tree.Map
import Twcos.Tree.Run
import Twcos.Run.Basic
import Twcos.Sync.Mutex
import Twcos.Vm.Segment
import Twcos.Vm.Check
import Twcos.Vm.CheckEnds
import Twcos.Bitmap.Basic
import Twcos.Heap.Alloc
import Twcos.Heap.Finalize
import Twcos.Dfs.Basic
import Twcos.Heap.Mark
import Twcos.Vm.Fault
import Twcos.Vm.Cow
import Twcos.Vm.File
import Twcos.Arraymap.Basic
import Twcos.Arraymap.Run
import Twcos.Page.Alloc
import Twcos.Sync.Monitor
import Twcos.Timer.Queue
import Twcos.Timer.Delete
import Twcos.Timer.Pit
import Twcos.Vector.Basic
import Twcos.Vector.Entry
import Twcos.Vector.Run
import Twcos.Exception.Basic
import Twcos.Exception.Structured
import Twcos.Exception.Agree
import Twcos.Tarfs.Basic
import Twcos.Prog.Keeps
import Twcos.Tarfs.Vnodes
import Twcos.Tarfs.Scan
import Twcos.Ring.Basic
import Twcos.Sched.List
import Twcos.Sched.Queue
import Twcos.Join.Basic
import Twcos.Join.Inv
import Twcos.Join.Step
import Twcos.Join.Run
import Twcos.Compound.Key
import Twcos.Vm.Handle
import Twcos.Vm.Usage
import Twcos.Chain.Basic
import Twcos.Dtor.Stack
import Twcos.Exception.Ledger
import Twcos.Exception.Balance
import Twcos.Sched.Wake
import Twcos.Prog.Turns
import Twcos.Tarfs.Walk
import Twcos.Tarfs.Device
import Twcos.Vm.Access
import Twcos.Vmap.Basic
import Twcos.Vmap.Window
import Twcos.Vmap.Shared
import Twcos.Pci.Scan
import Twcos.Pci.Coverage
import Twcos.Prog.Emits
import Twcos.Prog.Logs
import Twcos.Prog.Forest
import Twcos.Vector.Walk
import Twcos.Arraymap.Index
import Twcos.Prog.Sim
import Twcos.Tree.Alike
import Twcos.Tree.Lookup
import Twcos.Tree.Traverse
import Twcos.Bin.Height
import Twcos.Tree.Optimize
import Twcos.Tree.Treap
import Twcos.Tree.Splay
import Twcos.Map.Range
import Twcos.Bin.Heap
import Twcos.Heap.Pools
import Twcos.Heap.Malloc
import Twcos.Arenas.Basic
import Twcos.Compound.Passes
import Twcos.Tarfs.Validate
import Twcos.Tarfs.Page
import Twcos.Tarfs.Mapped
import Twcos.Text.Stream
import Twcos.Tarfs.Fullname
import Twcos.Vm.Steal
import Twcos.Sched.Deque
import Twcos.Numeral.Basic
import Twcos.Text.Puts
import Twcos.Text.Format
import Twcos.Text.Vsnprintf
import Twcos.Text.Compare
import Twcos.Text.Path
import Twcos.Split.Basic
import Twcos.Split.Run
import Twcos.Console.Basic
import Twcos.Console.Terminal
import Twcos.Console.Stores
import Twcos.Console.Keyq
import Twcos.Assoc.Order
import Twcos.Map.Arraykey
import Twcos.Sched.Members
import Twcos.Tarfs.Dirent
import Twcos.Arraymap.Put
import Twcos.Timer.Insert
import Twcos.Tree.Access
import Twcos.Vector.Growth
import Twcos.Spin.Basic
import Twcos.Page.Boot
import Twcos.Page.Heap
import Twcos.Prog.Inside
import Twcos.Tree.Table
import Twcos.Vfs.Pagecache
import Twcos.Process.Fork
import Twcos.Isr.Entry
import Twcos.Irq.Basic
import Twcos.Context.Setjmp
import Twcos.Context.Thread
import Twcos.Context.Switch
import Twcos.Context.Fork
import Twcos.Context.Runs
import Twcos.Console.Printk
