import BurstEnergy.Check
import BurstEnergy.Document.Profile
import BurstEnergy.Document.Report
import BurstEnergy.Document.Trace
import BurstEnergy.Logging
import BurstEnergy.Scenario
import BurstEnergy.Proofs.Profile.Validation
import BurstEnergy.Proofs.Burst.Segments
import BurstEnergy.Proofs.Radio.Coalescing
import BurstEnergy.Proofs.Radio.Plan
import BurstEnergy.Proofs.Radio.Tiling
import BurstEnergy.Proofs.Scalar.Binary64Order
import BurstEnergy.Proofs.Scalar.Binary64Rounding
import BurstEnergy.Proofs.Scalar.Binary64
import BurstEnergy.Proofs.Radio.Descent
import BurstEnergy.Proofs.Radio.Semantics
import BurstEnergy.Proofs.CutPoint
import BurstEnergy.Proofs.Traffic.Timeline
import BurstEnergy.Proofs.Profile.Additivity
import BurstEnergy.Proofs.Radio.EnergyWithin
import BurstEnergy.Proofs.Radio.Waking
import BurstEnergy.Proofs.Radio.ChargeStart
import BurstEnergy.Proofs.Radio.ChargeSum
import BurstEnergy.Proofs.Conservation
import BurstEnergy.Proofs.Radio.Charging
import BurstEnergy.Proofs.Radio.Selection
import BurstEnergy.Proofs.Radio.Rows
import BurstEnergy.Proofs.Radio.Arrivals
import BurstEnergy.Proofs.Totals
import BurstEnergy.Proofs.Radio.Visits
import BurstEnergy.Proofs.Burst.Members
import BurstEnergy.Proofs.ActiveEnergy
import BurstEnergy.Proofs.Burst.Causes
import BurstEnergy.Proofs.Burst.Recurrence
import BurstEnergy.Proofs.Burst.Clusters
import BurstEnergy.Proofs.Verdicts
import BurstEnergy.Proofs.Burst.Extension
import BurstEnergy.Proofs.Burst.Shift
import BurstEnergy.Proofs.Burst.Partition
import BurstEnergy.Proofs.Traffic.Acceptance
import BurstEnergy.Proofs.Document.Admission
import BurstEnergy.Proofs.Json.Numerals
import BurstEnergy.Proofs.Document.Profile
import BurstEnergy.Proofs.Document.Trace
import BurstEnergy.Proofs.Burst.Drift
import BurstEnergy.Proofs.Burst.Trains
import BurstEnergy.Proofs.Burst.Figures
import BurstEnergy.Proofs.Burst.History
import BurstEnergy.Proofs.Traffic.Capture
import BurstEnergy.Proofs.Inspection
import BurstEnergy.Proofs.Access.Radio
