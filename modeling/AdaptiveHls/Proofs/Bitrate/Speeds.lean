import AdaptiveHls.Proofs.Bitrate.Runs
import Mathlib.Algebra.Group.Action.Defs
import Mathlib.Algebra.Order.BigOperators.Group.List
import Mathlib.Algebra.Order.Group.Nat
import Mathlib.Algebra.Ring.Nat
import Mathlib.Data.List.Induction
import Mathlib.Data.List.Perm.Basic

/-!
# The mean of the speeds

A third of the speeds, the slowest, is left out of the mean. Which ones are kept is said without
sorting: as many as are to be kept, and none of the others is greater. Their mean comes out exactly if
their sum fits into 64 bits, and nothing does if it overflows. A window for one speed is the only one
in which it always fits.
-/

namespace AdaptiveHls

/-- The partial sums only grow, so the whole sum tells whether any of them is out of bounds. -/
theorem Count.sum?_eq (counts : List Nat) :
    sum? counts = if counts.sum ≤ greatest then some counts.sum else none := by
  have hfold : ∀ start ≤ greatest, counts.foldlM add? start =
      if start + counts.sum ≤ greatest then some (start + counts.sum) else none := by
    induction counts with
    | nil => intro start hstart; simp [hstart]
    | cons a rest ih =>
      intro start _
      rw [List.foldlM_cons, List.sum_cons, ← Nat.add_assoc]
      by_cases ha : start + a ≤ greatest
      · rw [add?, if_pos ha]
        exact ih (start + a) ha
      · rw [add?, if_neg ha, if_neg (by omega)]
        rfl
  rw [sum?, hfold 0 (Nat.zero_le _), Nat.zero_add]

namespace Selector

variable {s s' : Selector} {a : Action} {p : Playback} {kept others samples : List Nat}

/-- Some of the samples are its fastest two thirds, rounded up. -/
structure IsFastest (kept samples : List Nat) : Prop where
  length : kept.length = samples.length - samples.length / 3
  rest : ∃ others, (kept ++ others).Perm samples ∧ ∀ a ∈ kept, ∀ b ∈ others, b ≤ a

/-- What comes out is the mean of the fastest two thirds of the speeds, rounded down; it is zero if
there is none. -/
def AveragesFastest (s : Selector) : Prop :=
  ∀ kept, IsFastest kept s.speeds.items → s.averageSpeed? = some (kept.sum / kept.length)

/-! ## The fastest samples -/

def descending (samples : List Nat) : List Nat := samples.mergeSort fun a b => b ≤ a

theorem descending_perm (samples : List Nat) : (descending samples).Perm samples :=
  List.mergeSort_perm _ _

theorem descending_pairwise (samples : List Nat) : (descending samples).Pairwise (· ≥ ·) := by
  refine (List.pairwise_mergeSort (fun a b c hab hbc => ?_) (fun a b => ?_) samples).imp
    of_decide_eq_true
  · exact decide_eq_true ((of_decide_eq_true hbc).trans (of_decide_eq_true hab))
  · simpa using Nat.le_total b a

/-- The first two thirds in descending order are the fastest two thirds. -/
theorem isFastest_take (samples : List Nat) :
    IsFastest ((descending samples).take (samples.length - samples.length / 3)) samples := by
  have hlength : (descending samples).length = samples.length := (descending_perm samples).length_eq
  refine ⟨?_, (descending samples).drop (samples.length - samples.length / 3), ?_, ?_⟩
  · rw [List.length_take, hlength]
    omega
  · rw [List.take_append_drop]
    exact descending_perm samples
  · have hsorted := descending_pairwise samples
    rw [← List.take_append_drop (samples.length - samples.length / 3) (descending samples)] at hsorted
    exact (List.pairwise_append.1 hsorted).2.2

/-- Sorted downwards, the samples begin with the fastest, whichever of equal ones are kept. -/
theorem IsFastest.perm_take (h : IsFastest kept samples) :
    ((descending samples).take kept.length).Perm kept := by
  obtain ⟨others, hperm, hle⟩ := h.rest
  have hsorted : (descending kept ++ descending others).Pairwise (· ≥ ·) := by
    refine List.pairwise_append.2 ⟨descending_pairwise kept, descending_pairwise others, ?_⟩
    intro a ha b hb
    exact hle a ((descending_perm kept).mem_iff.1 ha) b ((descending_perm others).mem_iff.1 hb)
  have hsame : descending samples = descending kept ++ descending others := by
    refine List.Perm.eq_of_pairwise (fun a b _ _ hab hba => Nat.le_antisymm hba hab)
      (descending_pairwise samples) hsorted ?_
    exact (descending_perm samples).trans
      (hperm.symm.trans ((descending_perm kept).append (descending_perm others)).symm)
  rw [hsame, List.take_left' (descending_perm kept).length_eq]
  exact descending_perm kept

theorem IsFastest.mem (h : IsFastest kept samples) {v : Nat} (hv : v ∈ kept) : v ∈ samples := by
  obtain ⟨others, hperm, -⟩ := h.rest
  exact hperm.mem_iff.1 (List.mem_append_left others hv)

/-! ## The mean and what is computed -/

/-- Whichever of equal speeds are kept, it is their mean that comes out, if their sum fits. -/
theorem averageSpeed?_eq (h : IsFastest kept s.speeds.items) :
    s.averageSpeed? = if kept.sum < 2 ^ 64 then some (kept.sum / kept.length) else none := by
  have hperm := h.perm_take
  have hdef : s.averageSpeed? =
      if ((descending s.speeds.items).take kept.length).isEmpty then some 0
      else (Count.sum? ((descending s.speeds.items).take kept.length)).map
        (· / ((descending s.speeds.items).take kept.length).length) := by
    rw [h.length, ← (descending_perm s.speeds.items).length_eq]
    rfl
  have hbound : kept.sum ≤ Count.greatest ↔ kept.sum < 2 ^ 64 := Nat.le_iff_lt_add_one
  rw [hdef, Count.sum?_eq, hperm.sum_eq, hperm.length_eq]
  by_cases hnone : ((descending s.speeds.items).take kept.length).isEmpty
  · rw [List.isEmpty_iff.1 hnone] at hperm
    simp [← hperm.nil_eq]
  · rw [if_neg hnone]
    by_cases hfits : kept.sum < 2 ^ 64
    · rw [if_pos (hbound.2 hfits), if_pos hfits, Option.map_some]
    · rw [if_neg (mt hbound.1 hfits), if_neg hfits, Option.map_none]

/-- What comes out is the mean exactly if the sum of the kept speeds fits. -/
theorem averageSpeed?_eq_mean_iff (h : IsFastest kept s.speeds.items) :
    s.averageSpeed? = some (kept.sum / kept.length) ↔ kept.sum < 2 ^ 64 := by
  rw [averageSpeed?_eq h]
  split <;> simp_all

/-- Nothing comes out exactly if the sum overflows. -/
theorem averageSpeed?_eq_none_iff (h : IsFastest kept s.speeds.items) :
    s.averageSpeed? = none ↔ 2 ^ 64 ≤ kept.sum := by
  rw [averageSpeed?_eq h]
  split <;> simp_all

/-- A mean lies between the bounds of the samples. -/
theorem IsFastest.mean_bounds (h : IsFastest kept samples) (nonempty : samples ≠ []) {low high : Nat}
    (within : ∀ v ∈ samples, low ≤ v ∧ v ≤ high) :
    low ≤ kept.sum / kept.length ∧ kept.sum / kept.length ≤ high := by
  have hpositive : 0 < kept.length := by
    have := h.length
    have := List.length_pos_iff.2 nonempty
    omega
  have hlow := kept.card_nsmul_le_sum low fun v hv => (within v (h.mem hv)).1
  have hhigh := kept.sum_le_card_nsmul high fun v hv => (within v (h.mem hv)).2
  rw [smul_eq_mul] at hlow hhigh
  constructor
  · exact (Nat.le_div_iff_mul_le hpositive).2 (Nat.mul_comm low _ ▸ hlow)
  · exact Nat.div_le_of_le_mul hhigh

/-! ## The window of the speeds -/

/-- A sample may be taken up; a reset lets go of all; nothing else touches the speeds. -/
theorem act_speeds (s : Selector) (a : Action) :
    (s.act a).2.speeds = s.speeds ∨ (s.act a).2.speeds = s.speeds.clear ∨
      ∃ now p, a.sample? = some (now, p) ∧ (s.act a).2.speeds = s.speeds.push p.speed := by
  cases hsample : a.sample? with
  | some sample =>
    obtain ⟨now, p⟩ := sample
    have htaken : (s.act a).2.speeds = s.speeds ∨ (s.act a).2.speeds = (s.sampled p).speeds := by
      rcases act_sample_cases (s := s) hsample with hsame | htaken | ⟨_, _, _, _, hresponse⟩
      · exact .inl (by rw [hsame])
      · exact .inr (by rw [htaken])
      · exact .inr hresponse.speeds
    rcases htaken with hsame | htaken
    · exact .inl hsame
    · rw [htaken]
      rcases s.sampled_speeds p with hkept | hpushed
      · exact .inl hkept
      · exact .inr (.inr ⟨now, p, rfl, hpushed⟩)
  | none =>
    cases a with
    | setCurrent now bitrate =>
      rw [act, setCurrent_selector]
      exact .inl rfl
    | tick | process => simp [Action.sample?] at hsample
    | reset | clear => exact .inr (.inl rfl)
    | _ => exact .inl rfl

/-- The window of the speeds is of the size that was asked for and not overfull, and each of the
speeds in it was told in some sample. -/
structure Measured (s : Selector) (actions : List Action) : Prop where
  capacity : s.speeds.capacity = max s.config.speedWindow 1
  fits : s.speeds.items.length ≤ s.speeds.capacity
  told : ∀ v ∈ s.speeds.items, ∃ a ∈ actions, ∃ now p, a.sample? = some (now, p) ∧ p.speed = v

theorem Measured.act {actions : List Action} (h : s.Measured actions) (a : Action) :
    (s.act a).2.Measured (actions ++ [a]) := by
  have htold : ∀ v ∈ s.speeds.items, ∃ b ∈ actions ++ [a], ∃ now p, b.sample? = some (now, p) ∧
      p.speed = v := fun v hv => by
    obtain ⟨b, hb, hspeed⟩ := h.told v hv
    exact ⟨b, List.mem_append_left [a] hb, hspeed⟩
  have hcapacity := h.capacity
  rcases s.act_speeds a with hkept | hcleared | ⟨now, p, hsample, hpushed⟩
  · refine ⟨?_, ?_, ?_⟩
    · rwa [act_config, hkept]
    · rw [hkept]
      exact h.fits
    · rwa [hkept]
  · refine ⟨?_, ?_, ?_⟩
    · rwa [act_config, hcleared]
    · rw [hcleared]
      exact Nat.zero_le _
    · simp [hcleared]
  · refine ⟨?_, ?_, fun v hv => ?_⟩
    · rwa [act_config, hpushed]
    · rw [hpushed]
      exact Window.push_length_le h.fits (hcapacity ▸ Nat.le_max_right _ 1) p.speed
    · rw [hpushed] at hv
      rcases Window.mem_of_mem_push hv with hold | rfl
      · exact htold v hold
      · exact ⟨a, by simp, now, p, hsample, rfl⟩

variable (config : BitrateConfig) (reportsStatus : Bool)

theorem measured_run (actions : List Action) :
    ((ofConfig config reportsStatus).run actions).Measured actions := by
  induction actions using List.reverseRecOn with
  | nil => exact ⟨rfl, Nat.zero_le _, by simp [ofConfig, Window.ofCapacity]⟩
  | append_singleton actions a ih =>
    rw [run_append, run_cons, run_nil]
    exact ih.act a

/-! ## Any speeds can be told -/

theorem sampled_speeds_of_room (compared : s.lastBuffer.isSome) (room : s.isFull p = false) :
    (s.sampled p).speeds = s.speeds.push p.speed := by
  obtain ⟨lastBuffer, hlast⟩ := Option.isSome_iff_exists.1 compared
  have hroom : ({ s with lastBuffer := some p.buffer }).isFull p = false := room
  simp [sampled, hlast, sample, hroom]

/-- A confirmation and two samples of the same speed. The first sample is there to be compared with,
so one speed is taken up. -/
def telling (speed : Nat) : List Action :=
  [.setCurrent 0 1, .tick 0 { speed }, .tick 0 { speed }]

theorem speed_of_mem_telling {speed : Nat} {now : Int} (h : a ∈ telling speed)
    (hsample : a.sample? = some (now, p)) : p.speed = speed := by
  simp only [telling, List.mem_cons, List.not_mem_nil, or_false] at h
  rcases h with rfl | rfl | rfl
  · cases hsample
  · cases hsample
    rfl
  · cases hsample
    rfl

/-- Two samples of one speed bring just that speed into the window. -/
theorem run_telling (attached : s.attached = true) (choice : 2 ≤ s.streams.length) (speed : Nat) :
    (s.run (telling speed)).speeds = s.speeds.push speed ∧
      (s.run (telling speed)).streams = s.streams ∧ (s.run (telling speed)).attached = true := by
  refine ⟨?_, by simp [telling, act_streams], by simp [telling, act_attached, attached]⟩
  let p : Playback := { speed }
  have hconfirm := s.setCurrent_selector 0 1
  rw [telling, run_cons, run_cons, run_cons, run_nil, act, act, act]
  generalize (s.setCurrent 0 1).2 = confirmed at hconfirm
  have hready : confirmed.Ready 0 := by
    rw [hconfirm]
    exact ⟨rfl, attached, choice, rfl⟩
  have hnothing : confirmed.lastBuffer = none := by rw [hconfirm]
  have hnoted : confirmed.sampled p = { confirmed with lastBuffer := some 0 } := by
    rw [sampled, hnothing]
  have hcompared : (confirmed.sampled p).lastBuffer.isSome := by rw [hnoted]; rfl
  have hspeeds : (confirmed.sampled p).speeds = s.speeds := by rw [hnoted, hconfirm]
  have hroom : (confirmed.sampled p).isFull p = false := by simp [isFull, p]
  have hfirst : confirmed.tick 0 p = ([], confirmed.sampled p) := by
    rw [hready.tick_eq rfl, hnothing]
    rfl
  have hsecond : (confirmed.sampled p).tick 0 p =
      ((confirmed.sampled p).sampled p).respond p (elapsed 0 0) := by
    rw [(hready.sampled p).tick_eq rfl, if_pos hcompared]
  rw [hfirst, hsecond]
  obtain ⟨_, hresponse⟩ := ((confirmed.sampled p).sampled p).respond_response p (elapsed 0 0)
  rw [hresponse.speeds, sampled_speeds_of_room hcompared hroom, hspeeds]

/-- Two speeds whose sum does not fit, and nothing else in the window. -/
theorem exists_overflow (wide : 2 ≤ config.speedWindow) :
    ∃ actions, (∀ a ∈ actions, ∀ now p, a.sample? = some (now, p) → p.speed < 2 ^ 64) ∧
      ((ofConfig config reportsStatus).run actions).speeds.items = [2 ^ 63, 2 ^ 63] := by
  let setup : List Action := [.addStream 0 1, .addStream 1 2, .attach]
  let start := (ofConfig config reportsStatus).run setup
  have hstart : start.streams.length = 2 := rfl
  obtain ⟨hspeeds, hstreams, hattached⟩ := run_telling (s := start) rfl hstart.ge (2 ^ 63)
  obtain ⟨hagain, -, -⟩ := run_telling hattached (hstreams ▸ hstart.ge) (2 ^ 63)
  have hsilent : ∀ a ∈ setup, a.sample? = none := by decide
  refine ⟨setup ++ telling (2 ^ 63) ++ telling (2 ^ 63), ?_, ?_⟩
  · intro a ha now p hsample
    suffices hspeed : p.speed = 2 ^ 63 by omega
    simp only [List.mem_append, or_assoc] at ha
    rcases ha with ha | ha | ha
    · cases (hsilent a ha).symm.trans hsample
    · exact speed_of_mem_telling ha hsample
    · exact speed_of_mem_telling ha hsample
  · have hcapacity : start.speeds.capacity = max config.speedWindow 1 := rfl
    have hempty : start.speeds.items = [] := rfl
    have hone : ¬ 0 = start.speeds.capacity := by omega
    have htwo : ¬ 1 = start.speeds.capacity := by omega
    rw [run_append, run_append, hagain, hspeeds]
    simp [Window.push, hempty, hone, htwo]

/-- The sum of at most one small speed is small. -/
theorem IsFastest.sum_lt {bound : Nat} (h : IsFastest kept samples) (few : samples.length ≤ 1)
    (positive : 0 < bound) (small : ∀ v ∈ samples, v < bound) : kept.sum < bound := by
  have hlength := h.length
  match kept, h with
  | [], _ => exact positive
  | [v], h => simpa using small v (h.mem List.mem_cons_self)
  | _ :: _ :: _, _ =>
    simp only [List.length_cons] at hlength
    omega

/-! ## The average of a run -/

/-- Whatever a run has told, what comes out for the speeds in the window is the mean of the fastest
two thirds exactly if their sum fits into 64 bits, and nothing exactly if it does not. A mean lies
between the slowest and the fastest of all, and it is zero if there is none. A configuration makes it
the mean in every run of speeds of 64 bits exactly if its window is for one speed. -/
theorem averages_fastest_iff (config : BitrateConfig) (reportsStatus : Bool) :
    (∀ actions, let s := (ofConfig config reportsStatus).run actions
      (s.speeds.items = [] → s.averageSpeed? = some 0) ∧ (∃ kept, IsFastest kept s.speeds.items) ∧
      ∀ kept, IsFastest kept s.speeds.items →
        (s.averageSpeed? = some (kept.sum / kept.length) ↔ kept.sum < 2 ^ 64) ∧
        (s.averageSpeed? = none ↔ 2 ^ 64 ≤ kept.sum) ∧
        (s.speeds.items ≠ [] → ∀ low high, (∀ v ∈ s.speeds.items, low ≤ v ∧ v ≤ high) →
          ∀ speed, s.averageSpeed? = some speed → low ≤ speed ∧ speed ≤ high)) ∧
    ((∀ actions, (∀ a ∈ actions, ∀ now p, a.sample? = some (now, p) → p.speed < 2 ^ 64) →
      ((ofConfig config reportsStatus).run actions).AveragesFastest) ↔ config.speedWindow ≤ 1) := by
  refine ⟨fun actions => ⟨fun hnone => ?_, ⟨_, isFastest_take _⟩, fun kept hkept =>
    ⟨averageSpeed?_eq_mean_iff hkept, averageSpeed?_eq_none_iff hkept, ?_⟩⟩, ?_⟩
  · rw [averageSpeed?_eq (isFastest_take _), hnone]
    rfl
  · intro hsome low high hwithin speed hspeed
    rw [averageSpeed?_eq hkept] at hspeed
    split at hspeed
    · rw [← Option.some.inj hspeed]
      exact hkept.mean_bounds hsome hwithin
    · cases hspeed
  constructor
  · intro hmeans
    by_contra hwide
    obtain ⟨actions, htold, hitems⟩ := exists_overflow config reportsStatus (by omega)
    have hall : IsFastest [2 ^ 63, 2 ^ 63]
        ((ofConfig config reportsStatus).run actions).speeds.items :=
      ⟨by rw [hitems]; rfl, [], by simp [hitems], by simp⟩
    exact absurd ((averageSpeed?_eq_mean_iff hall).1 (hmeans actions htold _ hall)) (by decide)
  · intro hone actions htold kept hkept
    have hmeasured := measured_run config reportsStatus actions
    have hfits := hmeasured.fits
    rw [hmeasured.capacity, run_config] at hfits
    apply (averageSpeed?_eq_mean_iff hkept).2
    apply hkept.sum_lt
    · exact hfits.trans (Nat.max_le.2 ⟨hone, Nat.le_refl 1⟩)
    · exact Nat.two_pow_pos 64
    · intro v hv
      obtain ⟨a, ha, now, p, hsample, rfl⟩ := hmeasured.told v hv
      exact htold a ha now p hsample

/-- Three bitrates, the highest of them played, and samples of these speeds while the buffer stays as
it is. -/
def steadyBuffer (speeds : List Nat) : List Action :=
  [.addStream 0 1000000, .addStream 1 2000000, .addStream 2 4000000, .setDuration 600000, .attach,
    .setCurrent 0 4000000, .tick 0 { buffer := 20000, maxBuffer := 60000 }] ++
    speeds.map fun speed => .tick 0 { buffer := 20000, maxBuffer := 60000, speed }

/-- The slowest of three is left out. -/
example : ((ofConfig {} true).run (steadyBuffer [3000000, 500000, 2000000])).averageSpeed? =
    some 2500000 := by cbv

/-- The sum of two speeds of half the range overflows, so that a call which has to switch down breaks
off. -/
theorem averages_nothing_of_overflow :
    let s := (ofConfig {} true).run (steadyBuffer [2 ^ 63])
    let p : Playback := { buffer := 50, maxBuffer := 60000, speed := 2 ^ 63 }
    let t := s.sampled p
    s.act (.tick 0 p) = ([.overflow], t) ∧ t.speeds.items = [2 ^ 63, 2 ^ 63] ∧
      IsFastest [2 ^ 63, 2 ^ 63] t.speeds.items ∧ t.averageSpeed? = none ∧
      ¬ t.AveragesFastest := by
  intro s p t
  have hitems : t.speeds.items = [2 ^ 63, 2 ^ 63] := by decide +kernel
  have hkept : IsFastest [2 ^ 63, 2 ^ 63] t.speeds.items := by
    rw [hitems]
    exact ⟨rfl, [], by decide, by decide⟩
  have hnothing : t.averageSpeed? = none := (averageSpeed?_eq_none_iff hkept).2 (by decide)
  have hact : s.act (.tick 0 p) = ([.overflow], t) := by
    have hready : s.Ready 0 := ⟨rfl, rfl, by decide, rfl⟩
    have hcompared : s.lastBuffer.isSome := by decide +kernel
    have hasked : t.AsksDown p (-2) := .inl (by decide +kernel)
    have hposition : t.bitrates.idxOf? 4000000 = some 2 := by decide +kernel
    rw [act, hready.tick_eq rfl, if_pos hcompared, respond_of_asksDown (by decide +kernel) hasked,
      switchBitrate_overflow (by decide +kernel) hposition hnothing]
    rfl
  refine ⟨hact, hitems, hkept, hnothing, fun hmean => ?_⟩
  have heq := hmean _ hkept
  rw [hnothing] at heq
  cases heq

end Selector

end AdaptiveHls
