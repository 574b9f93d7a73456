import LinuxServer.Http.Blank
import LinuxServer.Http.Bounds
import LinuxServer.Http.Answer
import LinuxServer.Http.Request
import LinuxServer.Http.Erasure
import LinuxServer.TimeHeap.Build
import LinuxServer.TimeHeap.Cost
import LinuxServer.TimeHeap.Grow
import LinuxServer.TimeHeap.Order
import LinuxServer.TimeHeap.Safety
import LinuxServer.TimeHeap.Tick
import LinuxServer.TimeWheel.Ownership
import LinuxServer.TimeWheel.Rearm
import LinuxServer.SortedList.Queue
import LinuxServer.SortedList.Adjust
import LinuxServer.SortedList.Ends
import LinuxServer.SortedList.Adding
import LinuxServer.ThreadPool.Stranded
import LinuxServer.ThreadPool.Bound
import LinuxServer.ThreadPool.Construct
import LinuxServer.Epoll.Accept
import LinuxServer.Epoll.OneShot
import LinuxServer.Epoll.Printed
import LinuxServer.Epoll.Delivery
import LinuxServer.Epoll.LoopDelivery
import LinuxServer.Writev.Client
import LinuxServer.Connect.Timeout
import LinuxServer.Timers.HeapAndList
import LinuxServer.Timers.WheelAndList
import LinuxServer.ThreadPool.Drain
import LinuxServer.Ipc.Private
import LinuxServer.Locker.Cond
