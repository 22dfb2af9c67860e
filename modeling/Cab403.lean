import Cab403.Buffer.Fifo
import Cab403.Car.Events
import Cab403.Car.Ladder
import Cab403.Controller.Accept
import Cab403.Ipc.Handshake
import Cab403.RoundRobin.Schedule
import Cab403.Vector.Refine
import Cab403.Lib.Linked
import Cab403.Hashtable.Table
import Cab403.Hashtable.Stacks
import Cab403.Hashtable.Search
import Cab403.Vector.Accesses
import Cab403.Car.Interference
import Cab403.Lib.Circle
import Cab403.Lib.Turns
import Cab403.Conditional.Programs
import Cab403.Conditional.Ones
import Cab403.Conditional.Progress
import Cab403.Buffer.Progress
import Cab403.Ipc.Shutdown
import Cab403.MessageQueue.Threads
import Cab403.MessageQueue.Updates
import Cab403.MessageQueue.Shutdown
import Cab403.Lib.Regex
import Cab403.Car.Consistency
import Cab403.Car.Dispatch
import Cab403.Call.Validation
import Cab403.Hashtable.Find
import Cab403.Hashtable.Fill
import Cab403.Hashtable.Scan
import Cab403.Ipc.Serving
import Cab403.Lib.Strtok
import Cab403.Controller.Register
import Cab403.Controller.CarList
import Cab403.Ipc.Attach
import Cab403.Controller.ThreadList
import Cab403.Hashtable.Release
import Cab403.RoundRobin.Print
import Cab403.Controller.Handler
import Cab403.Controller.Hangup
import Cab403.Vector.Capacity
import Cab403.Vector.Growth
import Cab403.Vector.Memory
import Cab403.Vector.Destroy
import Cab403.Vector.Counters
import Cab403.Vector.Failures
import Cab403.Car.Passes
import Cab403.Car.Locking
import Cab403.Car.Overflow
import Cab403.Display.Floors
import Cab403.RoundRobin.Fifo
import Cab403.RoundRobin.Links
import Cab403.RoundRobin.Fairness
import Cab403.Servers.Terminator
import Cab403.Lib.Transfer
import Cab403.Shared.Messages
import Cab403.Shared.Frames
import Cab403.Display.Cars
import Cab403.Display.Scan
import Cab403.Display.Order
import Cab403.Display.History
import Cab403.Display.Drawing
import Cab403.Display.Layout
import Cab403.Display.Range
import Cab403.Car.Names
import Cab403.Servers.Sessions
import Cab403.Car.Halting
import Cab403.Car.Statements
import Cab403.Conditional.Statements
import Cab403.Car.Connect
import Cab403.MessageQueue.Alone
import Cab403.Counter.AddMillion
