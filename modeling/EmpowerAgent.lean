import EmpowerAgent.Receive
import EmpowerAgent.Outgoing
import EmpowerAgent.TaskOwnership
import EmpowerAgent.Disconnection
import EmpowerAgent.Release
import EmpowerAgent.Requests
import EmpowerAgent.TriggerKeys
import EmpowerAgent.Measurements
import EmpowerAgent.SendOrder
import EmpowerAgent.Sequence
import EmpowerAgent.TriggerUse
import EmpowerAgent.Lifecycle
import EmpowerAgent.TriggerStore
import EmpowerAgent.TriggerIds
import EmpowerAgent.Status
import EmpowerAgent.Credits
import EmpowerAgent.Delay
import EmpowerAgent.Delivery
import EmpowerAgent.ClosedPeer
import EmpowerAgent.Locking
import EmpowerAgent.Logging
import EmpowerAgent.Quantum
import EmpowerAgent.NetworkError
import EmpowerAgent.Shutdown
import EmpowerAgent.Descriptors
import EmpowerAgent.Callbacks
import EmpowerAgent.Inert
import EmpowerAgent.Allocation
import EmpowerAgent.ControllerAddress
import EmpowerAgent.DelTrigger
import EmpowerAgent.SliceUsers
import EmpowerAgent.LinkedRuns
import EmpowerAgent.Attendance
import EmpowerAgent.Recovery
import EmpowerAgent.Exclusion
