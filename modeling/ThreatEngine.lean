import ThreatEngine.Lib.Guarded
import ThreatEngine.Lib.Residue
import ThreatEngine.Lib.Exchange
import ThreatEngine.Lib.Mealy
import ThreatEngine.Lib.Loop
import ThreatEngine.Lib.Utf8
import ThreatEngine.Lib.Sweep
import ThreatEngine.Lib.Tumbling
import ThreatEngine.Models
import ThreatEngine.Queue.Ring
import ThreatEngine.Queue.Call
import ThreatEngine.Queue.Threads
import ThreatEngine.Queue.Invariant
import ThreatEngine.Queue.Steps
import ThreatEngine.Queue.History
import ThreatEngine.Queue.Delivery
import ThreatEngine.Queue.Truthful
import ThreatEngine.Queue.Sequential
import ThreatEngine.Queue.Fifo
import ThreatEngine.Queue.Spsc
import ThreatEngine.Detection.Cep
import ThreatEngine.Detection.CepSharding
import ThreatEngine.Detection.CepRuns
import ThreatEngine.Detection.CepSoundness
import ThreatEngine.Detection.CepCompleteness
import ThreatEngine.Detection.CepLive
import ThreatEngine.Detection.CountMin
import ThreatEngine.Detection.FxCollisions
import ThreatEngine.Detection.HyperLogLog
import ThreatEngine.Detection.Anomaly
import ThreatEngine.Detection.SynFlood
import ThreatEngine.Detection.PortScan
import ThreatEngine.Pipeline.Stages
import ThreatEngine.Pipeline.Accounting
import ThreatEngine.Detection.WindowRoll
import ThreatEngine.Detection.HyperLogLogLaws
import ThreatEngine.Detection.Overestimate
import ThreatEngine.Detection.PortEvasion
import ThreatEngine.Pipeline.AlertHistory
import ThreatEngine.Detection.Signature
import ThreatEngine.Detection.KnownBad
import ThreatEngine.Pipeline.Engines
import ThreatEngine.Pipeline.AlertIdentity
import ThreatEngine.Detection.FloodBursts
import ThreatEngine.Detection.CepMemory
import ThreatEngine.Detection.CepPriority
import ThreatEngine.Capture.XdpFilter
import ThreatEngine.Detection.SignatureAlerts
import ThreatEngine.Lib.Mixing
import ThreatEngine.Pipeline.ShardBalance
import ThreatEngine.Ingestion.Simulated
import ThreatEngine.Lib.Atomic
import ThreatEngine.Pipeline.Correlation
import ThreatEngine.Queue.Linearizable
import ThreatEngine.Queue.Progress
import ThreatEngine.Analysis.Capture
import ThreatEngine.Capture.FilterRuns
import ThreatEngine.Dashboard.Rows
import ThreatEngine.Detection.CepIndependence
import ThreatEngine.Detection.PortCounters
import ThreatEngine.Detection.WindowState
import ThreatEngine.Ingestion.Injected
import ThreatEngine.Lib.Fair
import ThreatEngine.Lib.HappensBefore
import ThreatEngine.Pipeline.Enabled
import ThreatEngine.Pipeline.FlowKeys
import ThreatEngine.Pipeline.Liveness
import ThreatEngine.Pipeline.SideBySide
import ThreatEngine.Pipeline.SignatureDelivery
import ThreatEngine.Queue.RaceFree
