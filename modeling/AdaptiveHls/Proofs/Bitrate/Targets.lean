import AdaptiveHls.Proofs.Bitrate.Flight
import Mathlib.Order.Bounds.Basic

/-!
# Where a switch goes

The bitrates stand by rising bitrate, so the last one that a forward search allows and the first one
that a backward search allows are both the greatest of those allowed. Which bitrates a switch may go
to is said by their places in the ladder: on the way up those behind the next one, on the way down
all below the present one, and each only if the mean speed reaches it. Without a mean, as the sum of
the speeds overflows, there is no switch.
-/

namespace AdaptiveHls.Selector

variable {s : Selector} {p : Playback} {a : Action} {speed position current target : Nat}

/-- The bitrates that a mean speed allows a switch to go to, from a place in the ladder. -/
def allowed (s : Selector) (speed position : Nat) : Bool → Set Nat
  | true => {b | (∃ j, position + 2 ≤ j ∧ s.bitrates[j]? = some b) ∧ b ≤ speed}
  | false => {b | (∃ v ∈ s.speeds.items, 0 < v) ∧
      (∃ j < position, s.bitrates[j]? = some b) ∧ b ≤ speed}

/-- The bitrate to go to is the greatest that is allowed. If there is none, it is the next one on the
way up and the lowest on the way down. -/
def IsTarget (s : Selector) (speed position : Nat) (up : Bool) (target : Nat) : Prop :=
  IsGreatest (s.allowed speed position up) target ∨
    s.allowed speed position up = ∅ ∧ s.bitrates[if up then position + 1 else 0]? = some target

/-- There is nowhere to go: the present bitrate is the last one in this direction, or the newest
switch went down and no speed has reached the next bitrate. -/
def Blocked (s : Selector) (speed position : Nat) : Bool → Prop
  | true => position + 1 = s.bitrates.length ∨ 0 < speed ∧ s.wentDown = true ∧
      ∃ next, s.bitrates[position + 1]? = some next ∧ s.maxSpeed < next
  | false => position = 0

/-! ## Searches through a ladder -/

/-- What stands from a place on is what stands at that place or behind it. -/
theorem mem_drop_iff {ladder : List Nat} {n b : Nat} :
    b ∈ ladder.drop n ↔ ∃ j, n ≤ j ∧ ladder[j]? = some b := by
  rw [List.mem_iff_getElem?]
  constructor
  · rintro ⟨j, hj⟩
    exact ⟨n + j, Nat.le_add_right n j, by rwa [List.getElem?_drop] at hj⟩
  · rintro ⟨j, hle, hj⟩
    refine ⟨j - n, ?_⟩
    rwa [List.getElem?_drop, Nat.add_sub_cancel' hle]

theorem mem_take_iff {ladder : List Nat} {n b : Nat} :
    b ∈ ladder.take n ↔ ∃ j < n, ladder[j]? = some b := by
  rw [List.mem_iff_getElem?]
  refine exists_congr fun j => ?_
  rw [List.getElem?_take]
  by_cases hj : j < n <;> simp [hj]

/-- The last bitrate that the speed allows is the greatest. -/
theorem upTarget_spec (speed : Nat) {next : Nat} {others : List Nat}
    (ascending : (next :: others).Pairwise (· < ·)) :
    IsGreatest {b | b ∈ others ∧ b ≤ speed} (upTarget speed next others) ∨
      {b | b ∈ others ∧ b ≤ speed} = ∅ ∧ upTarget speed next others = next := by
  induction others generalizing next with
  | nil => exact .inr ⟨by simp, rfl⟩
  | cons b rest ih =>
    obtain ⟨hnext, hrest⟩ := List.pairwise_cons.1 ascending
    have habove := (List.pairwise_cons.1 hrest).1
    rw [upTarget, List.foldl_cons, ← upTarget]
    by_cases hb : b ≤ speed
    · rw [if_pos hb]
      rcases ih hrest with ⟨⟨hmem, hle⟩, hgreatest⟩ | ⟨hnone, htarget⟩
      · refine .inl ⟨⟨List.mem_cons_of_mem b hmem, hle⟩, ?_⟩
        rintro c ⟨hc, hspeed⟩
        rcases List.mem_cons.1 hc with rfl | hc
        · exact (habove _ hmem).le
        · exact hgreatest ⟨hc, hspeed⟩
      · rw [htarget]
        refine .inl ⟨⟨List.mem_cons_self, hb⟩, ?_⟩
        rintro c ⟨hc, hspeed⟩
        rcases List.mem_cons.1 hc with rfl | hc
        · exact le_rfl
        · exact absurd (hnone ▸ ⟨hc, hspeed⟩ : c ∈ (∅ : Set Nat)) (Set.notMem_empty c)
    · have hsame : {c | c ∈ b :: rest ∧ c ≤ speed} = {c | c ∈ rest ∧ c ≤ speed} := by
        ext c
        refine ⟨fun hc => ?_, fun hc => ⟨List.mem_cons_of_mem b hc.1, hc.2⟩⟩
        rcases List.mem_cons.1 hc.1 with rfl | hmem
        · exact absurd hc.2 hb
        · exact ⟨hmem, hc.2⟩
      rw [if_neg hb, hsame]
      refine ih (List.pairwise_cons.2 ⟨fun c hc => ?_, (List.pairwise_cons.1 hrest).2⟩)
      exact hnext c (List.mem_cons_of_mem b hc)

/-- The first bitrate from above that the speed allows is the greatest. -/
theorem downTarget_spec (speed : Nat) (anySpeed : Bool) {lowest : Nat} {below : List Nat}
    (ascending : below.Pairwise (· < ·)) :
    IsGreatest {b | anySpeed = true ∧ b ∈ below ∧ b ≤ speed}
        (downTarget speed anySpeed lowest below) ∨
      {b | anySpeed = true ∧ b ∈ below ∧ b ≤ speed} = ∅ ∧
        downTarget speed anySpeed lowest below = lowest := by
  cases anySpeed with
  | false => exact .inr ⟨by simp, rfl⟩
  | true =>
    rw [downTarget, if_pos rfl]
    cases hfind : below.reverse.find? (· ≤ speed) with
    | none =>
      refine .inr ⟨Set.eq_empty_of_forall_notMem ?_, rfl⟩
      rintro b ⟨-, hb, hspeed⟩
      simpa [hspeed] using List.find?_eq_none.1 hfind b (List.mem_reverse.2 hb)
    | some target =>
      obtain ⟨htarget, above, under, hsplit, habove⟩ := List.find?_eq_some_iff_append.1 hfind
      have hdescending := List.pairwise_reverse.2 ascending
      rw [hsplit] at hdescending
      have hunder := (List.pairwise_cons.1 (List.pairwise_append.1 hdescending).2.1).1
      have hmem : target ∈ below := List.mem_reverse.1 (hsplit ▸ by simp)
      refine .inl ⟨⟨rfl, hmem, of_decide_eq_true htarget⟩, ?_⟩
      rintro b ⟨-, hb, hspeed⟩
      rw [← List.mem_reverse, hsplit, List.mem_append, List.mem_cons] at hb
      rcases hb with hb | rfl | hb
      · simpa [hspeed] using habove b hb
      · exact le_rfl
      · exact (hunder b hb).le

theorem lt_foldl_max_iff (items : List Nat) (start n : Nat) :
    n < items.foldl max start ↔ n < start ∨ ∃ v ∈ items, n < v := by
  induction items generalizing start with
  | nil => simp
  | cons v rest ih =>
    rw [List.foldl_cons, ih, lt_sup_iff, List.exists_mem_cons_iff, or_assoc]

theorem lt_maxSpeed_iff (s : Selector) (n : Nat) : n < s.maxSpeed ↔ ∃ v ∈ s.speeds.items, n < v := by
  rw [maxSpeed, lt_foldl_max_iff]
  exact or_iff_right (Nat.not_lt_zero n)

/-! ## Targets by their places -/

/-- The bitrate that a selector goes up to is the target, and above the present one. -/
theorem isTarget_upTarget {below others : List Nat} {next : Nat} (speed : Nat)
    (ladder : s.bitrates = below ++ current :: next :: others)
    (ascending : s.bitrates.Pairwise (· < ·)) :
    s.IsTarget speed below.length true (upTarget speed next others) ∧
      current < upTarget speed next others := by
  have habove := (List.pairwise_append.1 (ladder ▸ ascending)).2.1
  obtain ⟨hcurrent, hothers⟩ := List.pairwise_cons.1 habove
  have hnext : s.bitrates[below.length + 1]? = some next := by simp [ladder]
  have hplaces : ∀ b, b ∈ others ↔ ∃ j, below.length + 2 ≤ j ∧ s.bitrates[j]? = some b := by
    intro b
    rw [← mem_drop_iff, ladder, ← List.drop_drop, List.drop_left]
    rfl
  have hallowed : s.allowed speed below.length true = {b | b ∈ others ∧ b ≤ speed} := by
    simp only [allowed, hplaces]
  refine ⟨?_, hcurrent _ (upTarget_mem _ _ _)⟩
  rw [IsTarget, hallowed, if_pos rfl, hnext, Option.some_inj, eq_comm (a := next)]
  exact upTarget_spec speed hothers

/-- The bitrate that it goes down to is the target, and below the present one. -/
theorem isTarget_downTarget {lowest : Nat} {rest above : List Nat} (speed : Nat)
    (ladder : s.bitrates = lowest :: rest ++ current :: above)
    (ascending : s.bitrates.Pairwise (· < ·)) :
    s.IsTarget speed (lowest :: rest).length false
        (downTarget speed (0 < s.maxSpeed) lowest (lowest :: rest)) ∧
      downTarget speed (0 < s.maxSpeed) lowest (lowest :: rest) < current := by
  obtain ⟨hbelow, -, hcurrent⟩ := List.pairwise_append.1 (ladder ▸ ascending)
  have hlowest : s.bitrates[0]? = some lowest := by simp [ladder]
  have hplaces : ∀ b, b ∈ lowest :: rest ↔
      ∃ j < (lowest :: rest).length, s.bitrates[j]? = some b := by
    intro b
    rw [← mem_take_iff, ladder, List.take_left]
  have hallowed : s.allowed speed (lowest :: rest).length false =
      {b | decide (0 < s.maxSpeed) = true ∧ b ∈ lowest :: rest ∧ b ≤ speed} := by
    simp only [allowed, hplaces, decide_eq_true_iff, lt_maxSpeed_iff]
  refine ⟨?_, hcurrent _ (downTarget_mem _ _ _ _) _ List.mem_cons_self⟩
  rw [IsTarget, hallowed, if_neg Bool.false_ne_true, hlowest, Option.some_inj,
    eq_comm (a := lowest)]
  exact downTarget_spec speed (decide (0 < s.maxSpeed)) hbelow

/-- A rising ladder around one of its places, at which the present bitrate is found. -/
theorem ladder_at (ascending : s.bitrates.Pairwise (· < ·))
    (registered : s.bitrates[position]? = some current) :
    s.bitrates.idxOf? current = some position ∧
      s.bitrates = s.bitrates.take position ++ current :: s.bitrates.drop (position + 1) ∧
      (s.bitrates.take position).length = position := by
  obtain ⟨hlt, hat⟩ := List.getElem?_eq_some_iff.1 registered
  have hindex : s.bitrates.idxOf? current = some position := by
    refine List.idxOf?_eq_some_iff.2 ⟨hlt, hat, fun j hj heq => ?_⟩
    have hbelow := List.pairwise_iff_getElem.1 ascending j position (hj.trans hlt) hlt hj
    exact hbelow.ne (heq.trans hat.symm)
  exact ⟨hindex, eq_append_of_idxOf? hindex, List.length_take_of_le hlt.le⟩

/-- A search upwards, by what stands behind the place of the present bitrate. -/
theorem switchBitrate_up_eq (present : s.current = some current)
    (index : s.bitrates.idxOf? current = some position) (averaged : s.averageSpeed? = some speed) :
    s.switchBitrate true = match s.bitrates.drop (position + 1) with
      | [] => s.setStatus .highestAlready false
      | next :: others =>
        if 0 < speed && s.wentDown && s.maxSpeed < next then ([], s)
        else s.commit current (upTarget speed next others) true := by
  cases habove : s.bitrates.drop (position + 1) <;>
    simp [switchBitrate, present, index, averaged, habove]

theorem switchBitrate_down_eq (present : s.current = some current)
    (index : s.bitrates.idxOf? current = some position) (averaged : s.averageSpeed? = some speed) :
    s.switchBitrate false = match s.bitrates.take position with
      | [] => s.setStatus .lowestAlready false
      | lowest :: rest =>
        s.commit current (downTarget speed (0 < s.maxSpeed) lowest (lowest :: rest)) false := by
  cases hbelow : s.bitrates.take position <;> simp [switchBitrate, present, index, averaged, hbelow]

/-- Looking for a bitrate from a place in the ladder commits a switch to the target, or it changes
nothing but the status. -/
theorem switchBitrate_spec (ascending : s.bitrates.Pairwise (· < ·))
    (present : s.current = some current) (registered : s.bitrates[position]? = some current)
    (averaged : s.averageSpeed? = some speed) (up : Bool) :
    (s.Blocked speed position up →
      ∃ status, (s.switchBitrate up).2 = { s with status } ∧
        (s.switchBitrate up).1.filterMap SwitchEvent.index? = []) ∧
    (¬ s.Blocked speed position up →
      ∃ target, s.switchBitrate up = s.commit current target up ∧
        s.IsTarget speed position up target ∧
        if up then current < target ∧ position + 2 ≤ s.bitrates.length else target < current) := by
  obtain ⟨hindex, hladder, hlength⟩ := ladder_at ascending registered
  have hlt : position < s.bitrates.length := (List.getElem?_eq_some_iff.1 registered).1
  cases up with
  | true =>
    rw [switchBitrate_up_eq present hindex averaged]
    cases habove : s.bitrates.drop (position + 1) with
    | nil =>
      have hend : position + 1 = s.bitrates.length := by
        have := List.drop_eq_nil_iff.1 habove
        omega
      refine ⟨fun _ => ⟨_, setStatus_selector _ _ _, setStatus_calls _ _ _⟩, fun hfree => ?_⟩
      exact absurd (.inl hend) hfree
    | cons next others =>
      rw [habove] at hladder
      have hnext : s.bitrates[position + 1]? = some next := by
        rw [← List.head?_drop, habove, List.head?_cons]
      have hroom : position + 2 ≤ s.bitrates.length := (List.getElem?_eq_some_iff.1 hnext).1
      have hblocked : s.Blocked speed position true ↔
          (decide (0 < speed) && s.wentDown && decide (s.maxSpeed < next)) = true := by
        simp only [Blocked, hnext, Option.some_inj, exists_eq_left', Bool.and_eq_true,
          decide_eq_true_iff, and_assoc]
        exact or_iff_right (by omega)
      rw [hblocked]
      dsimp only
      constructor
      · intro h
        rw [if_pos h]
        exact ⟨s.status, rfl, rfl⟩
      · intro h
        rw [if_neg h]
        obtain ⟨htarget, hhigher⟩ := isTarget_upTarget speed hladder ascending
        exact ⟨_, rfl, hlength ▸ htarget, hhigher, hroom⟩
  | false =>
    rw [switchBitrate_down_eq present hindex averaged]
    cases hbelow : s.bitrates.take position with
    | nil =>
      have hfirst : position = 0 := by
        rw [← hlength, hbelow, List.length_nil]
      exact ⟨fun _ => ⟨_, setStatus_selector _ _ _, setStatus_calls _ _ _⟩, absurd hfirst⟩
    | cons lowest rest =>
      rw [hbelow] at hladder hlength
      obtain ⟨htarget, hlower⟩ := isTarget_downTarget speed hladder ascending
      rw [hlength] at htarget
      refine ⟨fun hfirst => ?_, fun _ => ⟨_, rfl, htarget, hlower⟩⟩
      exact absurd (hlength.trans hfirst) (Nat.succ_ne_zero rest.length)

/-! ## Targets by the speed -/

/-- In every state that a call can find, after a sample or without one, looking for a bitrate commits
a switch to the target, strictly in the direction it is said to go in, unless there is nowhere to go.
Then it changes nothing but the status and calls for no stream. If the speeds have no mean the call
breaks off and changes nothing at all. A switch that an operation commits is made on a sample, and
goes to the target of the state that has taken it. -/
theorem switch_targets (config : BitrateConfig) (reportsStatus : Bool) (actions : List Action) :
    let s := (ofConfig config reportsStatus).run actions
    (∀ t, (t = s ∨ ∃ p, t = s.sampled p) → ∀ current position up, t.current = some current →
      t.bitrates[position]? = some current → match t.averageSpeed? with
      | none => t.switchBitrate up = ([.overflow], t)
      | some speed =>
        (t.Blocked speed position up → ∃ status, (t.switchBitrate up).2 = { t with status } ∧
          (t.switchBitrate up).1.filterMap SwitchEvent.index? = []) ∧
        (¬ t.Blocked speed position up → ∃ target,
          t.switchBitrate up = t.commit current target up ∧ t.IsTarget speed position up target ∧
          if up then current < target ∧ position + 2 ≤ t.bitrates.length else target < current)) ∧
    ∀ a up, s.switched? a = some up → ∃ now p speed current position target,
      a.sample? = some (now, p) ∧ (s.sampled p).averageSpeed? = some speed ∧
      s.current = some current ∧ s.bitrates[position]? = some current ∧
      (s.act a).2.current = some target ∧ (s.sampled p).IsTarget speed position up target ∧
      if up then current < target else target < current := by
  intro s
  have hs : s.Sound := (sound_ofConfig config reportsStatus).run actions
  refine ⟨fun t ht current position up hcurrent hposition => ?_, fun a up hswitched => ?_⟩
  · have hascending : t.bitrates.Pairwise (· < ·) := by
      rcases ht with rfl | ⟨p, rfl⟩
      · exact hs.ascending
      · exact (hs.sampled p).ascending
    cases haverage : t.averageSpeed? with
    | none =>
      exact switchBitrate_overflow hcurrent (ladder_at hascending hposition).1 haverage up
    | some speed => exact switchBitrate_spec hascending hcurrent hposition haverage up
  · obtain ⟨now, p, _, hsample, -, hresponse⟩ := committed hs hswitched
    have hascending := (hs.sampled p).ascending
    generalize s.act a = result at hresponse
    cases hresponse with
    | @fall _ speed lowest current rest above present ladder counted averaged asked =>
      obtain ⟨htarget, hlower⟩ := isTarget_downTarget speed ladder hascending
      rw [sampled_current] at present
      rw [sampled_bitrates] at ladder
      refine ⟨now, p, speed, current, (lowest :: rest).length, _, hsample, averaged, present, ?_, ?_,
        htarget, hlower⟩
      · simp [ladder]
      · rw [commit_selector]
    | @rise _ speed current next below others present ladder counted averaged asked patient fast =>
      obtain ⟨htarget, hhigher⟩ := isTarget_upTarget speed ladder hascending
      rw [sampled_current] at present
      rw [sampled_bitrates] at ladder
      refine ⟨now, p, speed, current, below.length, _, hsample, averaged, present, ?_, ?_, htarget,
        hhigher⟩
      · simp [ladder]
      · rw [commit_selector]

end AdaptiveHls.Selector
