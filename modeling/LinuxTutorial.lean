import LinuxTutorial.Controller.Reference
import LinuxTutorial.Controller.Interference
import LinuxTutorial.Controller.Mailbox
import LinuxTutorial.Controller.Startup
import LinuxTutorial.Controller.Sampling
import LinuxTutorial.Controller.Liveness
import LinuxTutorial.TimerController.Moves
import LinuxTutorial.TimerController.Lockstep
import LinuxTutorial.TimerController.Startup
import LinuxTutorial.TimerController.Sampling
import LinuxTutorial.SemController.Handshake
import LinuxTutorial.SemController.NullStatus
import LinuxTutorial.SemController.Mailbox
import LinuxTutorial.SemController.Agreement
import LinuxTutorial.Mutex.SharedVariable
import LinuxTutorial.Mutex.Join
import LinuxTutorial.Mutex.Simple
import LinuxTutorial.ThreeThreads.Timers
import LinuxTutorial.ThreeThreads.Alarm
import LinuxTutorial.Watchdog
import LinuxTutorial.BasicThread
import LinuxTutorial.Memory.Heap
import LinuxTutorial.PingPong.PThread
import LinuxTutorial.PingPong.Priority
import LinuxTutorial.Controller.Serial
import LinuxTutorial.PingPong.WithTimer
import LinuxTutorial.PingPong.TimerRuns
import LinuxTutorial.PingPong.TimerLiveness
import LinuxTutorial.PingPong.SemArg
import LinuxTutorial.SemController.Settling
import LinuxTutorial.SemController.Keyboard
import LinuxTutorial.TimerController.Reference
import LinuxTutorial.TimerController.Atomic
import LinuxTutorial.TimerController.Serial
import LinuxTutorial.TimerController.Liveness
import LinuxTutorial.Watchdog.Variants
import LinuxTutorial.Watchdog.Handler
