import Ados.Common.BlockQueue
import Ados.Common.LogLines
import Ados.Common.LogText
import Ados.Common.LogTool
import Ados.Common.ThreadSetUp
import Ados.Common.ThreadTool
import Ados.Common.TimeTool
import Ados.Common.Timestamps
import Ados.Common.WakeUps
import Ados.Core.AdosCore
import Ados.Core.Children
import Ados.Core.CleanUp
import Ados.Core.Convert
import Ados.Core.Executor
import Ados.Core.ExecutorManager
import Ados.Core.Grammar
import Ados.Core.HandOff
import Ados.Core.Process
import Ados.Core.Quitting
import Ados.Core.Registry
import Ados.Core.Signals
import Ados.Core.Startup
import Ados.Core.States
import Ados.GuardThread.Admission
import Ados.GuardThread.Counter
import Ados.GuardThread.Lifecycle
import Ados.GuardThread.Machine
import Ados.GuardThread.Order
import Ados.GuardThread.Rejection
import Ados.GuardThread.Response
import Ados.GuardThread.WakeUps
import Ados.Lib.Agenda
import Ados.Lib.Bag
import Ados.Lib.Call
import Ados.Lib.Delimited
import Ados.Lib.Fifo
import Ados.Lib.Ledger
import Ados.Lib.Numeral
import Ados.Lib.Odometer
import Ados.Lib.Run
import Ados.Lib.Yaml
import Ados.TimeWheel.Agenda
import Ados.TimeWheel.CallOrder
import Ados.TimeWheel.Clock
import Ados.TimeWheel.Conservation
import Ados.TimeWheel.Contents
import Ados.TimeWheel.Cursors
import Ados.TimeWheel.Deadlines
import Ados.TimeWheel.EarlyWakeUp
import Ados.TimeWheel.Executor
import Ados.TimeWheel.Filing
import Ados.TimeWheel.Geometry
import Ados.TimeWheel.Horizon
import Ados.TimeWheel.IndexSafety
import Ados.TimeWheel.LockedLoop
import Ados.TimeWheel.LoopInvariant
import Ados.TimeWheel.NearHorizon
import Ados.TimeWheel.Periodic
import Ados.TimeWheel.RealTime
import Ados.TimeWheel.Refiling
import Ados.TimeWheel.Schedule
import Ados.TimeWheel.Simulation
import Ados.TimeWheel.SingleWheel
import Ados.TimeWheel.SlicedSleep
import Ados.TimeWheel.Stopping
import Ados.TimeWheel.System
import Ados.TimeWheel.TickBounds
import Ados.TimeWheel.Ticks
import Ados.TimeWheel.TimerLoop
import Ados.TimeWheel.Wheel
