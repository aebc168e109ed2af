import BurstEnergy.Burst.Collection
import BurstEnergy.Burst.Segmentation
import BurstEnergy.Radio.Statistics
import BurstEnergy.Radio.Simulation

/-!
# Analysis of a trace

One run segments a trace into bursts, finds their causes, simulates the radio, reduces its state
intervals to statistics, charges the energy to the bursts, and judges the outcome. An analyser is
a profile that passed its checks; runs share nothing else.
-/
namespace BurstEnergy
open Traffic (Trace)
open Radio (Ladder StateInterval Statistics)
variable {α : Type} [Scalar α]

/-- All that one run found out. -/
structure Report (α : Type) where
  bursts : Collection α
  states : List (StateInterval α)
  statistics : Statistics α
  practices : Practices α
  deriving DecidableEq

namespace Report

def family (report : Report α) : Radio.Family := report.statistics.family

def duration (report : Report α) : α := report.statistics.duration

def summary (report : Report α) : List (Collection.CategoryTotal α) := report.bursts.summary

end Report

/-- A profile ready for use. -/
structure Analyser (α : Type) where
  profile : Profile α
  deriving DecidableEq

namespace Analyser

/-- The analyser for a profile, which is checked first. -/
def ofProfile (profile : Profile α) : Except (Error α) (Analyser α) := do
  profile.validate
  return ⟨profile⟩

def ladder (analyser : Analyser α) : Ladder α := .ofProfile analyser.profile

def classified (analyser : Analyser α) (trace : Trace α) : Classification.Result α :=
  let t := analyser.profile.thresholds
  Classification.classify t (Segmentation.segment t.burstGap trace.timeline) trace.timeline
    trace.markers

def states (analyser : Analyser α) (trace : Trace α) : List (StateInterval α) :=
  analyser.ladder.simulate (analyser.classified trace).bursts trace.duration

def statistics (analyser : Analyser α) (trace : Trace α) : Statistics α :=
  .reduce analyser.ladder analyser.profile.energy (analyser.states trace) trace.timeline
    trace.duration

/-- The bursts of a trace with their causes and energies. -/
def charged (analyser : Analyser α) (trace : Trace α) : Classification.Result α :=
  let found := analyser.classified trace
  { found with
    bursts := Radio.Attribution.charge analyser.profile.energy (analyser.states trace)
      trace.timeline trace.duration found.bursts }

def collection (analyser : Analyser α) (trace : Trace α) : Collection α :=
  .assemble analyser.profile.thresholds (analyser.charged trace)

/-- The report of a trace that fits the analyser. -/
def report (analyser : Analyser α) (trace : Trace α) : Report α :=
  let collection := analyser.collection trace
  { bursts := collection
    states := analyser.states trace
    statistics := analyser.statistics trace
    practices := .evaluate collection }

/-- Analyse a trace: its family has to be the profile's, and it has to be well formed. -/
def run (analyser : Analyser α) (trace : Trace α) : Except (Error α) (Report α) := do
  if trace.family ≠ analyser.profile.family then
    .error (.familyMismatch analyser.profile.family trace.family)
  trace.validate
  return analyser.report trace

end Analyser
end BurstEnergy
