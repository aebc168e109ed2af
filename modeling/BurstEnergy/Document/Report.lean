import BurstEnergy.Json.Text
import BurstEnergy.Report

/-!
# Report documents

The JSON form of a report: the bursts with their figures, the state intervals, the statistics
and the practices, set out over lines.
-/
namespace BurstEnergy
open Json (Value)

def Burst.toJson (b : Burst Float) : Value :=
  .ofMembers [("begin_time", .ofFloat b.beginTime), ("end_time", .ofFloat b.endTime),
    ("category", .ofString b.category.code), ("energy", .ofFloat b.energy),
    ("packets",
      .ofMembers [("start", .ofNat b.packets.first), ("end", .ofNat b.packets.stop)]),
    ("bytes", .ofNat b.bytes)]

def Collection.toJson (c : Collection Float) : Value :=
  .ofMembers [("bursts", .ofList Burst.toJson c.bursts),
    ("tightly_coupled_count", .ofNat c.tightlyCoupledCount),
    ("long_burst_count", .ofNat c.longBurstCount),
    ("minimum_periodic_repeat_time", .ofFloat c.minimumPeriodicRepeatTime),
    ("total_energy", .ofFloat c.totalEnergy),
    ("user_input_burst_count", .ofNat c.userInputBurstCount),
    ("screen_rotation_burst_time", .ofOption .ofFloat c.screenRotationBurstTime)]

namespace Radio

def StateInterval.toJson (i : StateInterval Float) : Value :=
  .ofMembers [("start", .ofFloat i.start), ("end", .ofFloat i.stop),
    ("state", .ofString i.state.code), ("tail", .bool i.tail)]

def StateTotals.toJson (row : StateTotals Float) : Value :=
  .ofMembers [("state", .ofString row.state.code), ("seconds", .ofFloat row.seconds),
    ("ratio", .ofFloat row.ratio), ("energy", .ofFloat row.energy),
    ("tail_seconds", .ofFloat row.tailSeconds), ("intervals", .ofNat row.intervals)]

def FamilyRatios.code : FamilyRatios Float → String
  | umts .. => "Umts"
  | lte .. => "Lte"
  | wifi .. => "Wifi"

def FamilyRatios.entries : FamilyRatios Float → List (String × Float)
  | umts dch fach => [("dch_tail_ratio", dch), ("fach_tail_ratio", fach)]
  | lte tail short long =>
    [("cr_tail_ratio", tail), ("short_drx_ratio", short), ("long_drx_ratio", long)]
  | wifi active tail idle =>
    [("active_ratio", active), ("tail_ratio", tail), ("idle_ratio", idle)]

/-- The document form of the ratios of a family, the word for the family first. -/
def FamilyRatios.toJson (ratios : FamilyRatios Float) : Value :=
  .ofMembers (("family", .ofString ratios.code)
    :: ratios.entries.map fun (name, x) => (name, .ofFloat x))

def Statistics.toJson (s : Statistics Float) : Value :=
  .ofMembers [("family", .ofString s.family.code), ("duration", .ofFloat s.duration),
    ("states", .ofList StateTotals.toJson s.states), ("total_energy", .ofFloat s.totalEnergy),
    ("tail_ratio", .ofFloat s.tailRatio), ("promotion_ratio", .ofFloat s.promotionRatio),
    ("family_ratios", s.familyRatios.toJson)]

end Radio

def Practices.toJson (p : Practices Float) : Value :=
  .ofMembers [("tcp_control_energy", .ofFloat p.tcpControlEnergy),
    ("tcp_control_energy_ratio", .ofFloat p.tcpControlEnergyRatio),
    ("largest_tcp_energy_time", .ofFloat p.largestTcpEnergyTime),
    ("largest_burst_time", .ofFloat p.largestBurstTime),
    ("screen_rotation_burst_time", .ofOption .ofFloat p.screenRotationBurstTime),
    ("user_input_burst_count", .ofNat p.userInputBurstCount),
    ("connection_closing_passed", .bool p.connectionClosingPassed),
    ("multiple_tcp_connections_passed", .bool p.multipleTcpConnectionsPassed),
    ("periodic_transfer_passed", .bool p.periodicTransferPassed),
    ("screen_rotation_passed", .bool p.screenRotationPassed),
    ("prefetching_passed", .bool p.prefetchingPassed),
    ("wifi_offloading_passed", .bool p.wifiOffloadingPassed)]

namespace Report

def toJson (report : Report Float) : Value :=
  .ofMembers [("bursts", report.bursts.toJson),
    ("states", .ofList Radio.StateInterval.toJson report.states),
    ("statistics", report.statistics.toJson), ("practices", report.practices.toJson)]

def toDocument (report : Report Float) : String := report.toJson.pretty

end Report
end BurstEnergy
