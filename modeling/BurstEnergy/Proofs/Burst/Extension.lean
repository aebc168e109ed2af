import BurstEnergy.Proofs.Burst.Members
import BurstEnergy.Proofs.Burst.Recurrence
import BurstEnergy.Proofs.Scalar.Binary64

/-!
# Packets that come later

More packets at the end of a timeline leave the bursts that are finished as they are, and the burst
that was last may only grow. Cycles and categories look back, never ahead, so they do not change
either.
-/
namespace BurstEnergy
open Scalar (Lawful)
open Traffic (Markers Packet Timeline)
variable {α : Type} [Scalar α]

namespace Periodicity
variable {d : Detector α} {times : List α} {t cycle tolerance : α}

theorem walkBack_append (more : List α) {links current : ℕ} (hc : current < times.length) :
    walkBack (times ++ more) cycle tolerance links current =
      walkBack times cycle tolerance links current := by
  induction links generalizing current with
  | zero => rfl
  | succ links ih =>
    unfold walkBack
    rw [List.getElem?_append_left hc, List.take_append_of_le_length hc.le]
    refine Option.bind_congr fun time _ => Option.bind_congr fun earlier hnear => ?_
    -- each link is sought below the one before, so the walk never comes near the later times
    have hlt := nearestWithin_lt hnear
    rw [List.length_take] at hlt
    exact ih (by omega)

theorem searchAnchors_append (more : List α) {anchors : ℕ} (ha : anchors ≤ times.length) :
    searchAnchors d (times ++ more) t anchors = searchAnchors d times t anchors := by
  induction anchors with
  | zero => rfl
  | succ anchor ih =>
    have hchain (cycle : α) :
        chainStart d (times ++ more) anchor cycle = chainStart d times anchor cycle :=
      walkBack_append more ha
    unfold searchAnchors
    rw [List.getElem?_append_left ha]
    refine Option.bind_congr fun s _ => ?_
    simp only [hchain, ih (Nat.le_of_succ_le ha)]
    split
    · rfl
    · split
      · rfl
      · cases hfirst : chainStart d times anchor (t - s) with
        | none => rfl
        | some first =>
          have hlt : first < times.length := (walkBack_le hfirst).trans_lt ha
          simp only [List.getElem?_append_left hlt]

/-- Later times change no cycle found before. -/
theorem cycleAt_append (more : List α) {index : ℕ} (hi : index < times.length) :
    cycleAt d (times ++ more) index = cycleAt d times index := by
  unfold cycleAt
  rw [List.getElem?_append_left hi]
  exact Option.bind_congr fun t _ => searchAnchors_append more hi.le

theorem cycles_prefix (d : Detector α) {earlier later : List α} (h : earlier <+: later) :
    (detect d earlier).cycles <+: (detect d later).cycles := by
  obtain ⟨more, rfl⟩ := h
  refine ⟨(List.range more.length).map fun i =>
    cycleAt d (earlier ++ more) (earlier.length + i), ?_⟩
  simp only [detect, List.length_append, List.range_add, List.map_append, List.map_map]
  congr 1
  exact List.map_congr_left fun i hi => (cycleAt_append more (List.mem_range.mp hi)).symm

end Periodicity

namespace Segmentation
variable {gap : α} {run : Run α}

/-- The bursts that packets after a run finish, and the run that is open after them. -/
def advance (gap : α) (run : Run α) : List (Packet α) → List (Burst α) × Run α
  | [] => ([], run)
  | p :: rest =>
    if p.timestamp - run.latestTime ≤ gap then advance gap (run.push p) rest
    else
      let (closed, last) := advance gap (.start run.stop p) rest
      (run.close :: closed, last)

theorem continueRun_append (gap : α) (run : Run α) (packets more : List (Packet α)) :
    continueRun gap run (packets ++ more) =
      (advance gap run packets).1 ++ continueRun gap (advance gap run packets).2 more := by
  induction packets generalizing run with
  | nil => rfl
  | cons p rest ih =>
    rw [List.cons_append, continueRun, advance]
    split
    · exact ih _
    · rw [ih, List.cons_append]

/-- The open run goes on from the last packet. -/
theorem latestTime_advance (packets : List (Packet α)) :
    (advance gap run packets).2.latestTime =
      (packets.getLast?.map (·.timestamp)).getD run.latestTime := by
  induction packets generalizing run with
  | nil => rfl
  | cons p rest ih =>
    have hlast : ((p :: rest).getLast?.map (·.timestamp)).getD run.latestTime =
        (rest.getLast?.map (·.timestamp)).getD p.timestamp := by
      cases rest <;> simp [List.getLast?_cons]
    rw [advance, hlast]
    split
    · exact ih
    · exact ih

theorem exists_continueRun (gap : α) (run : Run α) (packets : List (Packet α)) :
    ∃ burst rest, continueRun gap run packets = burst :: rest ∧
      burst.beginTime = run.beginTime := by
  induction packets generalizing run with
  | nil => exact ⟨run.close, [], rfl, rfl⟩
  | cons p rest ih =>
    rw [continueRun]
    split
    · exact ih _
    · exact ⟨run.close, _, rfl, rfl⟩

/-- More packets leave all bursts but the last one as they are, and that one with its begin. -/
theorem segment_append (gap : α) (packets more : List (Packet α)) :
    packets = [] ∨ ∃ closed last grown rest,
      segment gap ⟨packets⟩ = closed ++ [last] ∧
      segment gap ⟨packets ++ more⟩ = closed ++ grown :: rest ∧
      grown.beginTime = last.beginTime ∧
      (∀ p ∈ packets.getLast?, ∀ q ∈ more.head?, ¬ q.timestamp - p.timestamp ≤ gap →
        grown = last) := by
  cases packets with
  | nil => exact .inl rfl
  | cons p rest =>
    right
    have hsplit := continueRun_append gap (.start 0 p) rest
    obtain ⟨grown, later, hgrown, hbegin⟩ :=
      exists_continueRun gap (advance gap (.start 0 p) rest).2 more
    refine ⟨(advance gap (.start 0 p) rest).1, (advance gap (.start 0 p) rest).2.close, grown,
      later, ?_, ?_, hbegin, ?_⟩
    · have hwhole := hsplit []
      rwa [List.append_nil] at hwhole
    · exact (hsplit more).trans (by rw [hgrown])
    · intro s hs q hq hfar
      have hlatest : (advance gap (.start 0 p) rest).2.latestTime = s.timestamp := by
        rw [latestTime_advance, Run.start]
        cases rest <;> simp_all [List.getLast?_cons]
      obtain ⟨tail, rfl⟩ := List.head?_eq_some_iff.mp hq
      rw [continueRun, hlatest, if_neg hfar] at hgrown
      exact (List.cons.inj hgrown).1.symm

/-- All bursts but the last one stay. -/
theorem dropLast_segment_prefix (gap : α) (packets more : List (Packet α)) :
    (segment gap ⟨packets⟩).dropLast <+: segment gap ⟨packets ++ more⟩ := by
  rcases segment_append gap packets more with rfl | ⟨closed, last, grown, rest, hall, hmore, -⟩
  · exact List.nil_prefix
  · rw [hall, hmore, List.dropLast_concat]
    exact List.prefix_append closed _

/-- All bursts stay when the packets to come are beyond the gap. -/
theorem segment_prefix {packets more : List (Packet α)}
    (hfar : ∀ p ∈ packets.getLast?, ∀ q ∈ more.head?, ¬ q.timestamp - p.timestamp ≤ gap) :
    segment gap ⟨packets⟩ <+: segment gap ⟨packets ++ more⟩ := by
  rcases segment_append gap packets more with
    rfl | ⟨closed, last, grown, rest, hall, hmore, -, hsame⟩
  · exact List.nil_prefix
  · cases more with
    | nil => rw [List.append_nil]
    | cons q later =>
      obtain ⟨p, hp⟩ : ∃ p, packets.getLast? = some p := by
        cases packets with
        | nil => simp at hall
        | cons p rest => exact ⟨_, List.getLast?_cons⟩
      rw [hall, hmore, hsame p hp q rfl (hfar p hp q rfl)]
      simp

theorem beginTime_segment_prefix (gap : α) (packets more : List (Packet α)) :
    (segment gap ⟨packets⟩).map (·.beginTime) <+:
      (segment gap ⟨packets ++ more⟩).map (·.beginTime) := by
  rcases segment_append gap packets more with
    rfl | ⟨closed, last, grown, rest, hall, hmore, hbegin, -⟩
  · exact List.nil_prefix
  · rw [hall, hmore]
    simp [hbegin]

theorem members_append {packets : List (Packet α)} {burst : Burst α}
    (hb : burst ∈ segment gap ⟨packets⟩) (more : List (Packet α)) :
    burst.members ⟨packets ++ more⟩ = burst.members ⟨packets⟩ := by
  obtain ⟨before, members, after, hsplit, hholds⟩ := holds_of_mem_segment hb
  have hlonger : (⟨packets ++ more⟩ : Timeline α).packets =
      before ++ members ++ (after ++ more) := by
    simp [show packets = before ++ members ++ after from hsplit]
  rw [hholds.members_eq hsplit, hholds.members_eq hlonger]

end Segmentation

namespace Classification
variable {t : Profile.Thresholds α} {markers : Markers α} {timeline other : Timeline α}
  {history : History α}

/-- The first bursts are classified without a look at those that follow. -/
theorem take_classifyFrom (n : ℕ) (items : List (Burst α × Option α)) :
    (classifyFrom t timeline markers history items).1.take n =
      (classifyFrom t timeline markers history (items.take n)).1 := by
  induction items generalizing n history with
  | nil => simp [classifyFrom]
  | cons item rest ih =>
    cases n with
    | zero => rfl
    | succ n => exact congrArg (List.cons _) (ih n)

/-- Of a timeline classification sees the packets of the bursts. -/
theorem classifyFrom_congr {items : List (Burst α × Option α)}
    (h : ∀ item ∈ items, item.1.members other = item.1.members timeline) :
    classifyFrom t other markers history items = classifyFrom t timeline markers history items := by
  induction items generalizing history with
  | nil => rfl
  | cons item rest ih =>
    obtain ⟨hitem, hrest⟩ := List.forall_mem_cons.mp h
    simp only [classifyFrom, hitem, ih hrest]

def classifyPackets (t : Profile.Thresholds α) (markers : Markers α) (packets : List (Packet α)) :
    Result α :=
  classify t (Segmentation.segment t.burstGap ⟨packets⟩) ⟨packets⟩ markers

theorem cycles_classifyPackets_prefix (t : Profile.Thresholds α) (markers : Markers α)
    (packets more : List (Packet α)) :
    (classifyPackets t markers packets).periodicity.cycles <+:
      (classifyPackets t markers (packets ++ more)).periodicity.cycles :=
  Periodicity.cycles_prefix _ (Segmentation.beginTime_segment_prefix _ packets more)

theorem take_bursts_classifyPackets (t : Profile.Thresholds α) (markers : Markers α)
    (packets : List (Packet α)) (n : ℕ) :
    (classifyPackets t markers packets).bursts.take n =
      (classifyFrom t ⟨packets⟩ markers .start
        (((Segmentation.segment t.burstGap ⟨packets⟩).take n).zip
          ((classifyPackets t markers packets).periodicity.cycles.take n))).1 := by
  simp only [classifyPackets, classify, take_classifyFrom, List.zip, List.take_zipWith]

/-- Bursts that stay keep their causes. -/
theorem take_classifyPackets (markers : Markers α) {packets more : List (Packet α)}
    {front : List (Burst α)}
    (hall : front <+: Segmentation.segment t.burstGap ⟨packets⟩)
    (hmore : front <+: Segmentation.segment t.burstGap ⟨packets ++ more⟩) :
    (classifyPackets t markers (packets ++ more)).bursts.take front.length =
      (classifyPackets t markers packets).bursts.take front.length := by
  have hcycles : (classifyPackets t markers (packets ++ more)).periodicity.cycles.take
      front.length = (classifyPackets t markers packets).periodicity.cycles.take front.length := by
    obtain ⟨tail, htail⟩ := cycles_classifyPackets_prefix t markers packets more
    rw [← htail, List.take_append_of_le_length]
    simpa [classifyPackets, classify] using hall.length_le
  rw [take_bursts_classifyPackets, take_bursts_classifyPackets, hcycles,
    ← List.prefix_iff_eq_take.mp hall, ← List.prefix_iff_eq_take.mp hmore]
  refine congrArg Prod.fst (classifyFrom_congr fun item hitem => ?_)
  exact Segmentation.members_append (hall.subset (List.of_mem_zip hitem).1) more

/-- Later packets leave all bursts but the last one as they are, causes included, and the last one
too when they come after the gap; the cycles found go on as before. -/
theorem classifyPackets_append [Lawful α] (t : Profile.Thresholds α) (markers : Markers α)
    (packets more : List (Packet α)) :
    let found := classifyPackets t markers packets
    let later := classifyPackets t markers (packets ++ more)
    later.bursts.take (found.bursts.length - 1) = found.bursts.take (found.bursts.length - 1) ∧
      found.periodicity.cycles <+: later.periodicity.cycles ∧
      ((∀ p ∈ packets.getLast?, ∀ q ∈ more.head?, t.burstGap < q.timestamp - p.timestamp) →
        found.bursts <+: later.bursts) := by
  intro found later
  have hlength : found.bursts.length = (Segmentation.segment t.burstGap ⟨packets⟩).length :=
    Classification.length_classify t _ _ markers
  refine ⟨?_, cycles_classifyPackets_prefix t markers packets more, fun hfar => ?_⟩
  · have hfront := Segmentation.dropLast_segment_prefix t.burstGap packets more
    have hsame := take_classifyPackets markers (List.dropLast_prefix _) hfront
    rwa [List.length_dropLast, ← hlength] at hsame
  · have hfront := Segmentation.segment_prefix fun p hp q hq =>
      Scalar.not_le_of_lt (hfar p hp q hq)
    have hsame := take_classifyPackets markers (List.prefix_refl _) hfront
    rw [← hlength, List.take_length] at hsame
    exact hsame ▸ List.take_prefix _ _

/-- The upload at four seconds comes after the gap and leaves the download before it alone, in exact
arithmetic and in binary64. -/
theorem classifyPackets_append_standard :
    ((classifyPackets .standard .empty
        [.data 1 .downlink 900, .data 1.5 .downlink 900] : Result Rat).bursts <+:
      (classifyPackets .standard .empty
        ([.data 1 .downlink 900, .data 1.5 .downlink 900] ++ [.data 4 .uplink 100])).bursts) ∧
    ((classifyPackets .standard .empty
        [.data 1 .downlink 900, .data 1.5 .downlink 900] : Result Float).bursts <+:
      (classifyPackets .standard .empty
        ([.data 1 .downlink 900, .data 1.5 .downlink 900] ++ [.data 4 .uplink 100])).bursts) :=
  ⟨(classifyPackets_append _ _ _ _).2.2 (by decide +kernel),
    (classifyPackets_append _ _ _ _).2.2 (by decide +kernel)⟩

end Classification
end BurstEnergy
