import Tremor.Main
import Tremor.Waveform.Extract
import Tremor.Proofs.CircleGrid
import Tremor.Proofs.ClusterLevel
import Tremor.Proofs.ConfigFiles
import Tremor.Proofs.Coverage
import Tremor.Proofs.CycleOrder
import Tremor.Proofs.Delivery
import Tremor.Proofs.DirtyCheck
import Tremor.Proofs.Eviction
import Tremor.Proofs.ExactAverages
import Tremor.Proofs.ExtractedTimes
import Tremor.Proofs.IdlePasses
import Tremor.Proofs.LocateShift
import Tremor.Proofs.MedianMagnitude
import Tremor.Proofs.NewestRecords
import Tremor.Proofs.PassChecks
import Tremor.Proofs.PassOutcome
import Tremor.Proofs.PickOrder
import Tremor.Proofs.Records
import Tremor.Proofs.RegularTimes
import Tremor.Proofs.RingExtract
import Tremor.Proofs.RingLookup
import Tremor.Proofs.RingRun
import Tremor.Proofs.RootAndAnchor
import Tremor.Proofs.RunnableConfigs
import Tremor.Proofs.SampleClock
import Tremor.Proofs.SamplingGrid
import Tremor.Proofs.ScoreAgreement
import Tremor.Proofs.SearchPace
import Tremor.Proofs.SearchedPicks
import Tremor.Proofs.ServerRing
import Tremor.Proofs.Spread
import Tremor.Proofs.StationMagnitudes
import Tremor.Proofs.ThirdPoints
import Tremor.Proofs.TriggerRuns
import Tremor.Proofs.WeakPicks
