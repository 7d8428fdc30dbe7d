import BlenderBottle.Lib.Gregorian
import BlenderBottle.Lib.Months
import BlenderBottle.Lib.Weeks
import BlenderBottle.Lib.CInt
import BlenderBottle.Lib.CText
import BlenderBottle.Lib.LinkedList
import BlenderBottle.Lib.Framing
import BlenderBottle.Lib.Syslog
import BlenderBottle.Lib.Rfc3339
import BlenderBottle.Lib.PathWalk
import BlenderBottle.Lib.FileTree
import BlenderBottle.Tm
import BlenderBottle.Datetime
import BlenderBottle.LocalTime
import BlenderBottle.Increments
import BlenderBottle.Bounds
import BlenderBottle.Packed
import BlenderBottle.Daylight
import BlenderBottle.Fmt
import BlenderBottle.Decoders
import BlenderBottle.FmtScan
import BlenderBottle.Directives
import BlenderBottle.WeekNumbers
import BlenderBottle.FmtSize
import BlenderBottle.Tz
import BlenderBottle.Log
import BlenderBottle.LogDepth
import BlenderBottle.LogList
import BlenderBottle.LogFlush
import BlenderBottle.LogText
import BlenderBottle.Nlog
import BlenderBottle.NlogHeader
import BlenderBottle.NlogFraming
import BlenderBottle.NlogSession
import BlenderBottle.NlogTime
import BlenderBottle.Collector
import BlenderBottle.Intake
import BlenderBottle.Destination
import BlenderBottle.Apply
import BlenderBottle.Lib.Trie
import BlenderBottle.Lib.Wildcard
import BlenderBottle.Broker.Topic
import BlenderBottle.Broker.Subs
import BlenderBottle.Broker.SubsInv
import BlenderBottle.Broker.SubsRun
import BlenderBottle.Broker.Retain
import BlenderBottle.Broker.Queue
import BlenderBottle.Broker.QueueInv
import BlenderBottle.Broker.QueueRun
import BlenderBottle.Broker.QueueAccept
import BlenderBottle.Broker.Server
import BlenderBottle.Broker.ServerRun
import BlenderBottle.Broker.Deliver
import BlenderBottle.Pipeline
