import Dtrun.Image.Confinement
import Dtrun.Image.Flatten
import Dtrun.Host.Answer
import Dtrun.Host.Child
import Dtrun.Host.ExecFifo
import Dtrun.Host.Finish
import Dtrun.Host.Handshake
import Dtrun.Host.IdMaps
import Dtrun.Host.Shields
import Dtrun.Host.SignalNames
import Dtrun.Host.Signals
import Dtrun.Host.Spawn
import Dtrun.Host.Overwrites
import Dtrun.Host.StateDir
import Dtrun.Host.TraceFile
import Dtrun.Supervisor.Agreement
import Dtrun.Supervisor.Attach
import Dtrun.Supervisor.Buffers
import Dtrun.Supervisor.Delivery
import Dtrun.Supervisor.Futex
import Dtrun.Supervisor.GroupExit
import Dtrun.Supervisor.Injections
import Dtrun.Supervisor.Replay
import Dtrun.Supervisor.Killed
import Dtrun.Supervisor.LeaderExit
import Dtrun.Supervisor.Pairing
import Dtrun.Supervisor.Records
import Dtrun.Supervisor.Renaming
import Dtrun.Supervisor.Requests
import Dtrun.Supervisor.Reuse
import Dtrun.Supervisor.Spaces
import Dtrun.Supervisor.Seeds
import Dtrun.Supervisor.Clock
import Dtrun.Supervisor.Timeouts
import Dtrun.Supervisor.Stashes
import Dtrun.Supervisor.Turns
import Dtrun.Image.Whiteouts
import Dtrun.Image.Reproducible
import Dtrun.Host.MountResult
import Dtrun.Host.Sysctl
import Dtrun.Host.Limits
import Dtrun.Host.Confine
import Dtrun.Host.Credentials
import Dtrun.Host.Exec
import Dtrun.Host.Relay
import Dtrun.Oci.PageSizes
import Dtrun.Oci.Validation
import Dtrun.Oci.Versions
import Dtrun.Host.TraceLines
