import BurstEnergy.Proofs.Burst.Nearest

/-!
# Chains

What a search for cycles finds: the chains of nearest bursts, and which chains these are.
-/
namespace BurstEnergy.Periodicity

/-! ## Chains of repeated bursts

A chain leads from a burst back to an anchor and on from there, one cycle at a time, always to the
burst nearest to one cycle before the last. A cycle is found for a burst just when some anchor in
range starts a chain that is long enough, and the nearest such anchor decides: anchors beyond the
greatest cycle need no look, because distances only grow. A chain leads to earlier bursts only, so
it never has more links than there are bursts before its anchor.
-/
section Nearest
open Scalar (Antitone Lawful Monotone)
variable {α : Type} [Scalar α] {d : Detector α} {times : List α} {t s found cycle : α}
  {anchor current first index later earlier links : ℕ} {rest : List ℕ}

/-- An earlier burst is within the tolerance of one cycle before a later one. -/
def Link (d : Detector α) (times : List α) (cycle : α) (later earlier : ℕ) : Prop :=
  earlier < later ∧ ∃ t s, times[later]? = some t ∧ times[earlier]? = some s ∧
    Scalar.magnitude (s - (t - cycle)) ≤ d.tolerance

/-- The burst nearest to one cycle before a later one, of those before it, within the tolerance. -/
def NearestLink (d : Detector α) (times : List α) (cycle : α) (later earlier : ℕ) : Prop :=
  ∃ t s, times[later]? = some t ∧ Nearest (times.take later) (t - cycle) earlier s ∧
    Scalar.magnitude (s - (t - cycle)) ≤ d.tolerance

theorem NearestLink.link (h : NearestLink d times cycle later earlier) :
    Link d times cycle later earlier := by
  obtain ⟨t, s, ht, hs, hwithin⟩ := h
  have htake := hs.time
  rw [List.getElem?_take] at htake
  split at htake
  · next hlt => exact ⟨hlt, t, s, ht, htake, hwithin⟩
  · cases htake

/-- As many bursts before a time as the detector asks for: an anchor whose distance is in range and
is the cycle, and earlier bursts that follow it one by one by links of a kind. -/
structure Chain (link : Detector α → List α → α → ℕ → ℕ → Prop) (d : Detector α) (times : List α)
    (t cycle : α) (anchor : ℕ) (rest : List ℕ) : Prop where
  cycle_eq : ∃ s, times[anchor]? = some s ∧ cycle = t - s
  minCycle_le : d.minCycle ≤ cycle
  le_maxCycle : cycle ≤ d.minCycle + d.tolerance
  length : rest.length + 1 = d.minSamples
  linked : (anchor :: rest).IsChain (link d times cycle)

/-- An anchor starts a chain of nearest bursts behind a time. -/
def StartsChain (d : Detector α) (times : List α) (t : α) (anchor : ℕ) : Prop :=
  ∃ cycle rest, Chain NearestLink d times t cycle anchor rest

/-- A cycle is the mean distance over the chain of nearest bursts that the nearest anchor starts. -/
def IsMeanOfChain (d : Detector α) (times : List α) (index : ℕ) (t found : α) : Prop :=
  ∃ cycle anchor rest first f, (index :: anchor :: rest).Pairwise (· > ·) ∧
    Chain NearestLink d times t cycle anchor rest ∧ (anchor :: rest).getLast? = some first ∧
    times[first]? = some f ∧ found = (t - f) / (d.minSamples : α) ∧
    ∀ nearer, anchor < nearer → nearer < index → ¬ StartsChain d times t nearer

theorem Chain.imp {link link' : Detector α → List α → α → ℕ → ℕ → Prop}
    (h : Chain link d times t cycle anchor rest)
    (himp : ∀ {later earlier}, link d times cycle later earlier →
      link' d times cycle later earlier) : Chain link' d times t cycle anchor rest :=
  { h with linked := h.linked.imp fun _ _ => himp }

theorem pairwise_gt_of_isChain (h : (anchor :: rest).IsChain (Link d times cycle)) :
    (anchor :: rest).Pairwise (· > ·) :=
  List.isChain_iff_pairwise.mp (h.imp fun _ _ hlink => hlink.1)

theorem add_length_le (h : (anchor :: rest).Pairwise (· > ·))
    (hlast : (anchor :: rest).getLast? = some first) : first + rest.length ≤ anchor := by
  induction rest generalizing anchor with
  | nil => exact (Option.some.inj hlast).ge
  | cons next rest ih =>
    obtain ⟨hall, hrest⟩ := List.pairwise_cons.mp h
    have hlt : next < anchor := hall next List.mem_cons_self
    have hle := ih hrest (by rwa [List.getLast?_cons_cons] at hlast)
    rw [List.length_cons]
    omega

theorem exists_getLast? (anchor : ℕ) (rest : List ℕ) :
    ∃ first, (anchor :: rest).getLast? = some first :=
  ⟨_, List.getLast?_eq_some_getLast (List.cons_ne_nil anchor rest)⟩

/-- A chain has no more links than there are bursts before its anchor. -/
theorem length_le_of_isChain (h : (anchor :: rest).IsChain (NearestLink d times cycle)) :
    rest.length ≤ anchor := by
  obtain ⟨first, hfirst⟩ := exists_getLast? anchor rest
  have hle := add_length_le (pairwise_gt_of_isChain (h.imp fun _ _ => NearestLink.link)) hfirst
  omega

section Search
variable [Lawful α] [Monotone α]

theorem not_foundFrom_of_far (h : Ascending times) (ht : Scalar.isFinite t = true)
    (hs : times[anchor]? = some s) (hfar : d.minCycle + d.tolerance < t - s)
    (hle : earlier ≤ anchor) : ¬ FoundFrom d times t found earlier := by
  rintro ⟨s', -, -, hs', -, hlong, -⟩
  have hback : t - s ≤ t - s' :=
    Monotone.sub_le_sub ht ht (Lawful.le_self_of_isFinite ht) (h.le hle hs' hs)
  exact hlong (Scalar.lt_of_lt_of_le hfar hback)

theorem searchAnchors_eq_none (h : Ascending times) (ht : Scalar.isFinite t = true)
    {anchors : ℕ} (ha : anchors ≤ times.length) (hnone : searchAnchors d times t anchors = none) :
    ∀ anchor < anchors, ¬ FoundFrom d times t found anchor := by
  induction anchors with
  | zero => exact fun anchor hlt => absurd hlt (Nat.not_lt_zero anchor)
  | succ last ih =>
    have hs := List.getElem?_eq_getElem ha
    have hlater (hrest : searchAnchors d times t last = none)
        (hlast : ¬ FoundFrom d times t found last) :
        ∀ anchor < last + 1, ¬ FoundFrom d times t found anchor := by
      intro anchor hlt
      rcases Nat.lt_succ_iff_lt_or_eq.mp hlt with hbelow | rfl
      · exact ih (Nat.le_of_succ_le ha) hrest anchor hbelow
      · exact hlast
    simp only [searchAnchors, hs, Option.bind_eq_bind, Option.bind_some] at hnone
    split at hnone
    · next hshort =>
      refine hlater hnone ?_
      rintro ⟨s', -, -, hs', hlong, -⟩
      obtain rfl := Option.some.inj (hs.symm.trans hs')
      exact hlong hshort
    · split at hnone
      · next hfar =>
        exact fun anchor hlt => not_foundFrom_of_far h ht hs hfar (Nat.le_of_lt_succ hlt)
      · split at hnone
        · next first hchain =>
          have hlt : first < times.length := (walkBack_le hchain).trans_lt ha
          simp [List.getElem?_eq_getElem hlt] at hnone
        · next hchain =>
          refine hlater hnone ?_
          rintro ⟨s', first, -, hs', -, -, hfirst, -⟩
          obtain rfl := Option.some.inj (hs.symm.trans hs')
          exact Option.some_ne_none _ (hfirst.symm.trans hchain)

theorem cycleAt_eq_none_iff (h : Ascending times) (ht : times[index]? = some t) :
    cycleAt d times index = none ↔
      ∀ anchor < index, ∀ found, ¬ FoundFrom d times t found anchor := by
  have hsearch : cycleAt d times index = searchAnchors d times t index := by
    simp only [cycleAt, ht, Option.bind_eq_bind, Option.bind_some]
  rw [hsearch]
  constructor
  · intro hnone anchor hlt found
    exact searchAnchors_eq_none h (h.isFinite ht) (List.getElem?_eq_some_iff.mp ht).1.le hnone
      anchor hlt
  · intro hall
    by_contra hsome
    obtain ⟨found, hfound⟩ := Option.ne_none_iff_exists'.mp hsome
    obtain ⟨anchor, hlt, hfrom, -⟩ := exists_anchor_of_searchAnchors hfound
    exact hall anchor hlt found hfrom

variable [Antitone α]

/-- Walking back follows a chain of nearest bursts to its end. -/
theorem walkBack_eq_some_iff (h : Ascending times) (hc : cycle ≤ cycle) :
    walkBack times cycle d.tolerance links current = some first ↔
      ∃ rest, rest.length = links ∧ (current :: rest).IsChain (NearestLink d times cycle) ∧
        (current :: rest).getLast? = some first := by
  have hstep {current earlier : ℕ} {t : α} (ht : times[current]? = some t) :
      nearestWithin (times.take current) (t - cycle) d.tolerance = some earlier ↔
        NearestLink d times cycle current earlier := by
    rw [nearestWithin_eq_some_iff (h.take current)
      (Scalar.sub_le_self_of_isFinite (h.isFinite ht) hc)]
    constructor
    · rintro ⟨s, hs, hwithin⟩
      exact ⟨t, s, ht, hs, hwithin⟩
    · rintro ⟨t', s, ht', hs, hwithin⟩
      obtain rfl := Option.some.inj (ht.symm.trans ht')
      exact ⟨s, hs, hwithin⟩
  induction links generalizing current with
  | zero =>
    constructor
    · intro hwalk
      exact ⟨[], rfl, List.isChain_singleton current, hwalk⟩
    · rintro ⟨rest, hlength, -, hlast⟩
      obtain rfl := List.length_eq_zero_iff.mp hlength
      exact hlast
  | succ links ih =>
    constructor
    · intro hwalk
      obtain ⟨t, ht, hnext⟩ := Option.bind_eq_some_iff.mp hwalk
      obtain ⟨earlier, hnear, hrest⟩ := Option.bind_eq_some_iff.mp hnext
      obtain ⟨rest, hlength, hchain, hlast⟩ := ih.mp hrest
      exact ⟨earlier :: rest, congrArg Nat.succ hlength,
        List.isChain_cons_cons.mpr ⟨(hstep ht).mp hnear, hchain⟩,
        (List.getLast?_cons_cons ..).trans hlast⟩
    · rintro ⟨rest, hlength, hchain, hlast⟩
      obtain ⟨earlier, rest, rfl⟩ := List.exists_cons_of_length_eq_add_one hlength
      obtain ⟨hlink, hchain⟩ := List.isChain_cons_cons.mp hchain
      obtain ⟨t, s, ht, hs⟩ := hlink
      rw [List.getLast?_cons_cons] at hlast
      exact Option.bind_eq_some_iff.mpr ⟨t, ht, Option.bind_eq_some_iff.mpr
        ⟨earlier, (hstep ht).mpr ⟨t, s, ht, hs⟩,
          ih.mpr ⟨rest, Nat.succ_inj.mp hlength, hchain, hlast⟩⟩⟩

/-- A cycle is found from an anchor just when a chain of nearest bursts starts there. -/
theorem foundFrom_iff (h : Ascending times) (ht : Scalar.isFinite t = true)
    (hrange : d.minCycle ≤ d.minCycle + d.tolerance) (hn : 0 < d.minSamples) :
    FoundFrom d times t found anchor ↔ ∃ cycle rest first f,
      Chain NearestLink d times t cycle anchor rest ∧ (anchor :: rest).getLast? = some first ∧
        times[first]? = some f ∧ found = (t - f) / (d.minSamples : α) := by
  have hnumber {s : α} (hs : times[anchor]? = some s) : t - s ≤ t - s :=
    Scalar.sub_le_self_of_isFinite ht (h.le_self hs)
  constructor
  · rintro ⟨s, first, f, hs, hshort, hlong, hchain, hf, hfound⟩
    obtain ⟨rest, hlength, hlinked, hlast⟩ := (walkBack_eq_some_iff h (hnumber hs)).mp hchain
    refine ⟨t - s, rest, first, f, ⟨⟨s, hs, rfl⟩, ?_, ?_, by omega, hlinked⟩, hlast, hf, hfound⟩
    · exact Scalar.le_of_not_lt (hnumber hs) (Scalar.le_self_left hrange) hshort
    · exact Scalar.le_of_not_lt (Scalar.le_self_right hrange) (hnumber hs) hlong
  · rintro ⟨cycle, rest, first, f, hchain, hlast, hf, hfound⟩
    obtain ⟨s, hs, rfl⟩ := hchain.cycle_eq
    have hlength := hchain.length
    exact ⟨s, first, f, hs, Scalar.not_lt_of_le hchain.minCycle_le,
      Scalar.not_lt_of_le hchain.le_maxCycle,
      (walkBack_eq_some_iff h (hnumber hs)).mpr ⟨rest, by omega, hchain.linked, hlast⟩, hf, hfound⟩

theorem exists_foundFrom_iff (h : Ascending times) (ht : Scalar.isFinite t = true)
    (hrange : d.minCycle ≤ d.minCycle + d.tolerance) (hn : 0 < d.minSamples) :
    (∃ found, FoundFrom d times t found anchor) ↔ StartsChain d times t anchor := by
  constructor
  · rintro ⟨found, hfound⟩
    obtain ⟨cycle, rest, -, -, hchain, -⟩ := (foundFrom_iff h ht hrange hn).mp hfound
    exact ⟨cycle, rest, hchain⟩
  · rintro ⟨cycle, rest, hchain⟩
    obtain ⟨s, hs, -⟩ := hchain.cycle_eq
    obtain ⟨first, hlast⟩ := exists_getLast? anchor rest
    have hle := add_length_le
      (pairwise_gt_of_isChain (hchain.linked.imp fun _ _ => NearestLink.link)) hlast
    have hlt : first < times.length := by
      have := (List.getElem?_eq_some_iff.mp hs).1
      omega
    exact ⟨_, (foundFrom_iff h ht hrange hn).mpr
      ⟨cycle, rest, first, _, hchain, hlast, List.getElem?_eq_getElem hlt, rfl⟩⟩

/-- What is reported for a burst is the mean over a chain of nearest bursts. -/
theorem isMeanOfChain_of_cycle (h : Ascending times)
    (hrange : d.minCycle ≤ d.minCycle + d.tolerance) (hn : 0 < d.minSamples)
    (ht : times[index]? = some t) (hfound : (detect d times).cycle index = some found) :
    IsMeanOfChain d times index t found := by
  have hfin := h.isFinite ht
  obtain ⟨t', ht', hsearch⟩ := Option.bind_eq_some_iff.mp (cycle_detect.symm.trans hfound)
  obtain rfl := Option.some.inj (ht.symm.trans ht')
  obtain ⟨anchor, hlt, hfrom, hnearer⟩ := exists_anchor_of_searchAnchors hsearch
  obtain ⟨cycle, rest, first, f, hchain, hlast, hf, hmean⟩ :=
    (foundFrom_iff h hfin hrange hn).mp hfrom
  have hback := pairwise_gt_of_isChain (hchain.linked.imp fun _ _ => NearestLink.link)
  refine ⟨cycle, anchor, rest, first, f, List.pairwise_cons.mpr ⟨?_, hback⟩, hchain, hlast, hf,
    hmean, fun nearer hlow hhigh hstart => ?_⟩
  · intro earlier hearlier
    rcases List.mem_cons.mp hearlier with rfl | hearlier
    · exact hlt
    · exact ((List.pairwise_cons.mp hback).1 earlier hearlier).trans hlt
  · obtain ⟨other, hother⟩ := (exists_foundFrom_iff h hfin hrange hn).mpr hstart
    exact hnearer nearer hlow hhigh other hother

/-- Nothing is reported for a burst just when no anchor before it starts a chain. -/
theorem cycle_eq_none_iff (h : Ascending times)
    (hrange : d.minCycle ≤ d.minCycle + d.tolerance) (hn : 0 < d.minSamples)
    (ht : times[index]? = some t) :
    (detect d times).cycle index = none ↔ ∀ anchor < index, ¬ StartsChain d times t anchor := by
  rw [cycle_detect, cycleAt_eq_none_iff h ht]
  refine forall₂_congr fun anchor _ => ?_
  rw [← not_exists, exists_foundFrom_iff h (h.isFinite ht) hrange hn]

/-- A cycle is reported for a burst just when some anchor before it starts a chain of nearest bursts
that is long enough. The nearest such anchor decides, and the cycle is the mean over its chain. No
walk along nearest bursts takes more links than there are bursts before it starts, however many
samples are asked for. -/
theorem detect_follows_nearest_chain (htimes : Ascending times) (hm : 0 ≤ d.minCycle)
    (hw : 0 ≤ d.tolerance) (hn : 0 < d.minSamples) (ht : times[index]? = some t) :
    (∀ found, (detect d times).cycle index = some found →
      IsMeanOfChain d times index t found) ∧
    ((detect d times).cycle index = none ↔ ∀ anchor < index, ¬ StartsChain d times t anchor) ∧
    ∀ cycle anchor rest, (anchor :: rest).IsChain (NearestLink d times cycle) →
      rest.length ≤ anchor := by
  have hrange : d.minCycle ≤ d.minCycle + d.tolerance := Lawful.le_add hm hw
  exact ⟨fun _ => isMeanOfChain_of_cycle htimes hrange hn ht,
    cycle_eq_none_iff htimes hrange hn ht, fun _ _ _ => length_le_of_isChain⟩

/-- Bursts between the repetitions are passed over, in binary64. -/
theorem detect_follows_nearest_chain_noise :
    Ascending ([0, 3, 10, 14, 20, 27, 30] : List Float) ∧ (0 : Float) ≤ 10 ∧ (0 : Float) ≤ 0.5 ∧
    (detect ⟨10, 0.5, 3⟩ ([0, 3, 10, 14, 20, 27, 30] : List Float)).cycle 6 = some 10 ∧
    IsMeanOfChain ⟨10, 0.5, 3⟩ ([0, 3, 10, 14, 20, 27, 30] : List Float) 6 30 10 := by
  have htimes : Ascending ([0, 3, 10, 14, 20, 27, 30] : List Float) :=
    ⟨by decide +kernel, by decide +kernel⟩
  have hm : (0 : Float) ≤ 10 := by decide +kernel
  have hw : (0 : Float) ≤ 0.5 := by decide +kernel
  have hfound : (detect ⟨10, 0.5, 3⟩ ([0, 3, 10, 14, 20, 27, 30] : List Float)).cycle 6 =
      some 10 := by decide +kernel
  have ht : ([0, 3, 10, 14, 20, 27, 30] : List Float)[6]? = some 30 := rfl
  exact ⟨htimes, hm, hw, hfound,
    (detect_follows_nearest_chain (d := ⟨10, 0.5, 3⟩) htimes hm hw (by decide) ht).1 10 hfound⟩

end Search

end Nearest

/-! ## Bursts between the repetitions

Each link of a chain goes to the burst nearest to its ideal position, and no link is taken back. So
a chain is found when no other burst comes as near to an ideal position as the chain's own burst
does, and every cycle that is found has a chain. Between the two lie chains that noise hides: a
burst nearer to an ideal position is followed although it leads nowhere. Where bursts are more than
twice the tolerance apart, none can come between.
-/
section Noise
open Scalar (Antitone Lawful Monotone distance)
variable {index anchor later earlier : ℕ} {rest : List ℕ}

section Search
variable {α : Type} [Scalar α] {d : Detector α} {times : List α} {t cycle : α}

/-- A link to whose ideal position no other burst before the later one is as near. -/
def ClearLink (d : Detector α) (times : List α) (cycle : α) (later earlier : ℕ) : Prop :=
  Link d times cycle later earlier ∧ ∀ t s, times[later]? = some t → times[earlier]? = some s →
    ∀ other < later, other ≠ earlier → ∀ u, times[other]? = some u →
      distance (t - cycle) s < distance (t - cycle) u

variable [Lawful α] [Monotone α] [Antitone α]

theorem ClearLink.nearestLink (h : ClearLink d times cycle later earlier) (htimes : Ascending times)
    (hc : cycle ≤ cycle) : NearestLink d times cycle later earlier := by
  obtain ⟨⟨hlt, t, s, ht, hs, hwithin⟩, hclear⟩ := h
  have htarget := Scalar.sub_le_self_of_isFinite (htimes.isFinite ht) hc
  have htake {other : ℕ} {u : α} (hu : (times.take later)[other]? = some u) :
      other < later ∧ times[other]? = some u := by
    rw [List.getElem?_take] at hu
    split at hu
    · next hbelow => exact ⟨hbelow, hu⟩
    · cases hu
  have honly {other : ℕ} {u : α} (hu : (times.take later)[other]? = some u)
      (hle : distance (t - cycle) u ≤ distance (t - cycle) s) : other = earlier := by
    obtain ⟨hbelow, hu⟩ := htake hu
    by_contra hne
    exact Scalar.not_le_of_lt (hclear t s ht hs other hbelow hne u hu) hle
  refine ⟨t, s, ht, ⟨?_, fun u hu => ?_, ?_, ?_⟩, hwithin⟩
  · rw [List.getElem?_take, if_pos hlt, hs]
  · obtain ⟨other, hother⟩ := List.mem_iff_getElem?.mp hu
    obtain ⟨hbelow, hother⟩ := htake hother
    by_cases heq : other = earlier
    · subst heq
      obtain rfl := Option.some.inj (hs.symm.trans hother)
      exact Scalar.distance_le_self (htimes.isFinite hs) htarget
    · exact Scalar.le_of_lt (hclear t s ht hs other hbelow heq u hother)
  · intro _ other u hu hle _
    exact (honly hu hle).le
  · intro hge other u hu hle
    obtain rfl := honly hu hle
    obtain rfl := Option.some.inj (hs.symm.trans (htake hu).2)
    exact ⟨hge, le_rfl⟩

theorem cycle_ne_none_iff (h : Ascending times) (hrange : d.minCycle ≤ d.minCycle + d.tolerance)
    (hn : 0 < d.minSamples) (ht : times[index]? = some t) :
    (detect d times).cycle index ≠ none ↔ ∃ anchor < index, StartsChain d times t anchor := by
  rw [Ne, cycle_eq_none_iff h hrange hn ht]
  simp only [not_forall, not_not, exists_prop]

theorem cycle_isSome_iff (h : Ascending times) (hrange : d.minCycle ≤ d.minCycle + d.tolerance)
    (hn : 0 < d.minSamples) (ht : times[index]? = some t) :
    ((detect d times).cycle index).isSome = true ↔
      ∃ cycle, ∃ anchor < index, ∃ rest, Chain NearestLink d times t cycle anchor rest := by
  rw [Option.isSome_iff_ne_none, cycle_ne_none_iff h hrange hn ht]
  constructor
  · rintro ⟨anchor, hlt, cycle, rest, hchain⟩
    exact ⟨cycle, anchor, hlt, rest, hchain⟩
  · rintro ⟨cycle, anchor, hlt, rest, hchain⟩
    exact ⟨anchor, hlt, cycle, rest, hchain⟩

/-- A chain of clear links is found, whatever bursts lie between. -/
theorem cycle_isSome_of_clear (h : Ascending times) (hrange : d.minCycle ≤ d.minCycle + d.tolerance)
    (hn : 0 < d.minSamples) (ht : times[index]? = some t) (hlt : anchor < index)
    (hchain : Chain ClearLink d times t cycle anchor rest) :
    ((detect d times).cycle index).isSome = true :=
  (cycle_isSome_iff h hrange hn ht).mpr ⟨cycle, anchor, hlt, rest,
    hchain.imp fun hclear => hclear.nearestLink h (Scalar.le_self_right hchain.minCycle_le)⟩

/-- A cycle is reported for a burst just when a chain of nearest bursts is behind it. In particular
some chain is, and where a chain has only clear links a cycle is reported. -/
theorem cycle_isSome_of_clear_chain (htimes : Ascending times)
    (hrange : d.minCycle ≤ d.minCycle + d.tolerance) (hn : 0 < d.minSamples)
    (ht : times[index]? = some t) :
    (((detect d times).cycle index).isSome = true ↔
      ∃ cycle, ∃ anchor < index, ∃ rest, Chain NearestLink d times t cycle anchor rest) ∧
    (((detect d times).cycle index).isSome = true →
      ∃ cycle, ∃ anchor < index, ∃ rest, Chain Link d times t cycle anchor rest) ∧
    ∀ cycle, ∀ anchor < index, ∀ rest, Chain ClearLink d times t cycle anchor rest →
      ((detect d times).cycle index).isSome = true := by
  have hiff := cycle_isSome_iff htimes hrange hn ht
  refine ⟨hiff, fun hsome => ?_, fun cycle anchor hlt rest =>
    cycle_isSome_of_clear htimes hrange hn ht hlt⟩
  obtain ⟨cycle, anchor, hlt, rest, hchain⟩ := hiff.mp hsome
  exact ⟨cycle, anchor, hlt, rest, hchain.imp NearestLink.link⟩

/-- Noise that is nowhere nearer than the chain leaves the cycle, in binary64. -/
theorem cycle_isSome_of_clear_chain_noise :
    Ascending ([0, 3, 10, 14, 20, 27, 30] : List Float) ∧ (10 : Float) ≤ 10 + 0.5 ∧
    ∃ cycle, ∃ anchor < 6, ∃ rest,
      Chain Link ⟨10, 0.5, 3⟩ ([0, 3, 10, 14, 20, 27, 30] : List Float) 30 cycle anchor rest := by
  have htimes : Ascending ([0, 3, 10, 14, 20, 27, 30] : List Float) :=
    ⟨by decide +kernel, by decide +kernel⟩
  have hrange : (10 : Float) ≤ 10 + 0.5 := by decide +kernel
  have ht : ([0, 3, 10, 14, 20, 27, 30] : List Float)[6]? = some 30 := rfl
  have hsome : ((detect ⟨10, 0.5, 3⟩ ([0, 3, 10, 14, 20, 27, 30] : List Float)).cycle 6).isSome =
      true := by decide +kernel
  exact ⟨htimes, hrange,
    (cycle_isSome_of_clear_chain (d := ⟨10, 0.5, 3⟩) htimes hrange (by decide) ht).2.1 hsome⟩

end Search

section Exact
variable {d : Detector Rat} {times : List Rat} {t cycle : Rat}

/-- Where bursts are more than twice the tolerance apart, none comes between. -/
theorem Link.clearLink (h : Link d times cycle later earlier)
    (hsparse : times.Pairwise fun s t => s + 2 * d.tolerance < t) :
    ClearLink d times cycle later earlier := by
  refine ⟨h, fun t s ht hs other hother hne u hu => ?_⟩
  obtain ⟨-, t', s', ht', hs', hwithin⟩ := h
  obtain rfl := Option.some.inj (ht.symm.trans ht')
  obtain rfl := Option.some.inj (hs.symm.trans hs')
  have hapart {i j : ℕ} {x y : Rat} (hij : i < j) (hx : times[i]? = some x)
      (hy : times[j]? = some y) : x + 2 * d.tolerance < y := by
    obtain ⟨hi, rfl⟩ := List.getElem?_eq_some_iff.mp hx
    obtain ⟨hj, rfl⟩ := List.getElem?_eq_some_iff.mp hy
    exact List.pairwise_iff_getElem.mp hsparse i j hi hj hij
  rw [Scalar.distance_eq_abs, Scalar.distance_eq_abs]
  rw [Scalar.magnitude_eq_abs] at hwithin
  have hnear := abs_le.mp hwithin
  refine hwithin.trans_lt (lt_abs.mpr ?_)
  rcases Nat.lt_or_gt_of_ne hne with hlt | hgt
  · have hgap := hapart hlt hu hs
    exact .inr (by linarith)
  · have hgap := hapart hgt hs hu
    exact .inl (by linarith)

/-- The search misses no chain of bursts that are more than twice the tolerance apart. -/
theorem cycle_isSome_iff_of_sparse (hw : 0 ≤ d.tolerance) (hn : 0 < d.minSamples)
    (hsparse : times.Pairwise fun s t => s + 2 * d.tolerance < t) (ht : times[index]? = some t) :
    ((detect d times).cycle index).isSome = true ↔
      ∃ cycle, ∃ anchor < index, ∃ rest, Chain Link d times t cycle anchor rest := by
  have htimes : Ascending times :=
    ⟨fun _ _ => rfl, hsparse.imp fun hst => by linarith⟩
  have hrange : d.minCycle ≤ d.minCycle + d.tolerance := le_add_of_nonneg_right hw
  constructor
  · intro hsome
    obtain ⟨cycle, anchor, hlt, rest, hchain⟩ := (cycle_isSome_iff htimes hrange hn ht).mp hsome
    exact ⟨cycle, anchor, hlt, rest, hchain.imp NearestLink.link⟩
  · rintro ⟨cycle, anchor, hlt, rest, hchain⟩
    exact cycle_isSome_of_clear htimes hrange hn ht hlt (hchain.imp fun h => h.clearLink hsparse)

/-- A burst that is as near as can be and leads nowhere hides a chain: from 44 the search goes to 24
and not to 22, and from there 1 is out of reach. -/
theorem exists_hidden_chain :
    ¬ ∀ (d : Detector Rat) (times : List Rat) (index : ℕ) (t cycle : Rat) (anchor : ℕ)
      (rest : List ℕ), times.Pairwise (· < ·) → 0 ≤ d.tolerance → 0 < d.minSamples →
      times[index]? = some t → anchor < index → Chain Link d times t cycle anchor rest →
      ((detect d times).cycle index).isSome = true := by
  intro h
  have hchain : Chain Link (⟨20, 2, 3⟩ : Detector Rat) [1, 22, 24, 44, 64] 64 20 3 [1, 0] := by
    refine ⟨⟨44, rfl, by norm_num⟩, le_rfl, by norm_num, rfl, ?_⟩
    refine List.isChain_cons_cons.mpr ⟨⟨by decide, 44, 22, rfl, rfl, by decide +kernel⟩, ?_⟩
    exact List.isChain_cons_cons.mpr ⟨⟨by decide, 22, 1, rfl, rfl, by decide +kernel⟩,
      List.isChain_singleton 0⟩
  have hsome := h ⟨20, 2, 3⟩ [1, 22, 24, 44, 64] 4 64 20 3 [1, 0] (by decide +kernel)
    (by norm_num) (by decide) rfl (by decide) hchain
  have hnone : (detect (⟨20, 2, 3⟩ : Detector Rat) [1, 22, 24, 44, 64]).cycle 4 = none := by
    decide +kernel
  rw [hnone] at hsome
  cases hsome

end Exact

end Noise

end BurstEnergy.Periodicity
