import AdaptiveHls.Proofs.Bitrate.Targets

/-!
# Switches and the trend

How far a trend must have come for a switch is worked out from the size of its window: it may miss
one end or the other by two. With a window of two samples or fewer the two bounds meet or cross, so
that a falling trend makes the selector go up, or a rising one makes it go down. The size is taken as
a signed number of 32 bits, so some very large windows have the bounds of a small one, or no bounds
at all.

For each of those sizes there is a run that shows it: at the lower of two bitrates, or at the higher
one, comes a sample that asks for the switch, if need be after one that does not.
-/

namespace AdaptiveHls.Selector

variable {s : Selector} {a : Action} {p : Playback} {up : Bool} {buffer : Nat}

/-- A switch up is made after a sample with which the trend rises. -/
def RisesWithTrend (s : Selector) (a : Action) : Prop :=
  s.switched? a = some true →
    ∃ now p, a.sample? = some (now, p) ∧ 0 < (s.sampled p).trend.items.sum

/-- A switch down is made after a sample with which the trend falls, if the buffer has not all but
run out. -/
def FallsWithTrend (s : Selector) (a : Action) : Prop :=
  s.switched? a = some false → ∃ now p, a.sample? = some (now, p) ∧
    (s.config.starvationBuffer < p.buffer → (s.sampled p).trend.items.sum < 0)

/-! ## The bounds -/

/-- With a window of such a size, a sum that asks for a switch up is a rise. -/
theorem rises_of_asks {sum : Int}
    (size : 3 ≤ Window.wrap32 s.config.trendWindow ∨
      Window.wrap32 s.config.trendWindow < -0x7ffffffe)
    (counted : s.trend.sum? = some sum) (asked : s.Asks true sum) : 0 < s.trend.items.sum := by
  rw [← Window.eq_sum_of_sum? counted]
  rw [asks_up] at asked
  omega

/-- With a window of such a size, a sum that asks for a switch down is a fall. -/
theorem falls_of_asks {sum : Int}
    (size : 3 ≤ Window.wrap32 s.config.trendWindow ∨
      Window.wrap32 s.config.trendWindow < -0x7ffffffd)
    (counted : s.trend.sum? = some sum) (asked : s.Asks false sum) : s.trend.items.sum < 0 := by
  rw [← Window.eq_sum_of_sum? counted]
  rw [asks_down] at asked
  omega

/-- As long as there is a bound, a sum asks for a switch if it is no further against its direction
than the size is short of two. -/
theorem asks_iff_sign {sum : Int}
    (low : (if up then -0x7ffffffe else -0x7ffffffd) ≤ Window.wrap32 s.config.trendWindow) :
    s.Asks up sum ↔ sign up * sum ≤ 2 - Window.wrap32 s.config.trendWindow := by
  cases up with
  | true =>
    rw [asks_up]
    simp only [sign, if_true] at low ⊢
    omega
  | false =>
    rw [asks_down]
    simp only [sign, Bool.false_eq_true, if_false] at low ⊢
    omega

/-- A committed switch was asked for by the trend, or by a buffer that has all but run out. -/
theorem asks_of_switched? (hs : s.Sound) (h : s.switched? a = some up) :
    ∃ now p sum, a.sample? = some (now, p) ∧ (s.sampled p).trend.sum? = some sum ∧
      ((s.sampled p).Asks up sum ∨ up = false ∧ p.buffer ≤ s.config.starvationBuffer) ∧
      (up = false → s.config.starvationBuffer < p.buffer → p.buffer < s.config.lowerBuffer) := by
  obtain ⟨now, p, _, hsample, -, hresponse⟩ := committed hs h
  generalize s.act a = result at hresponse
  cases hresponse with
  | rise present ladder counted averaged asked patient fast =>
    exact ⟨now, p, _, hsample, counted, .inl asked.2, by simp⟩
  | fall present ladder counted averaged asked =>
    rw [AsksDown, sampled_config] at asked
    refine ⟨now, p, _, hsample, counted, ?_, fun _ hmore => ?_⟩
    · exact asked.elim (fun hfew => .inr ⟨rfl, hfew⟩) fun htrend => .inl htrend.2
    · rcases asked with hfew | ⟨hlower, -⟩
      · omega
      · exact hlower

/-! ## A sample that asks -/

/-- With this much in the buffer it is the trend that decides on a switch. -/
def Leaves (config : BitrateConfig) (up : Bool) (buffer : Nat) : Prop :=
  config.starvationBuffer < buffer ∧
    if up then config.lowerBuffer ≤ buffer else buffer < config.lowerBuffer

/-- A selector with two bitrates, at the one from which it can switch, that has never come down. -/
structure Waiting (s : Selector) (up : Bool) : Prop where
  ready : s.Ready 0
  compared : s.lastBuffer.isSome
  ladder : s.bitrates = [1, 2]
  present : s.current = some (if up then 1 else 2)
  fresh : s.wentDown = false

/-- Where the buffer leaves the decision to a trend that asks, the selector searches in that
direction. -/
theorem respond_of_asks {sum : Int} (leaves : Leaves s.config up p.buffer)
    (high : up = true → s.config.upperBuffer ≤ p.buffer ∨ s.isFull p = true)
    (fresh : s.wentDown = false) (counted : s.trend.sum? = some sum) (asked : s.Asks up sum)
    (sinceConfirmed : Nat) : s.respond p sinceConfirmed = s.switchBitrate up := by
  obtain ⟨hmore, hbuffer⟩ := leaves
  cases up with
  | true =>
    have hstays : s.falls? p sum = some false := by
      have hlower : ¬ p.buffer < s.config.lowerBuffer := by simpa using hbuffer
      rw [falls?, if_neg (Nat.not_le_of_lt hmore), if_neg hlower]
    exact respond_of_asksUp counted hstays ⟨high rfl, asked⟩ fresh sinceConfirmed
  | false =>
    have hlower : p.buffer < s.config.lowerBuffer := by simpa using hbuffer
    exact respond_of_asksDown counted (.inr ⟨hlower, asked⟩) sinceConfirmed

/-- A selector that waits finds the other of its two bitrates, in the direction that it waits for.
-/
theorem Waiting.switches (h : s.Waiting up) (averaged : s.averageSpeed?.isSome) :
    ∃ target, s.switchBitrate up = s.commit (if up then 1 else 2) target up ∧
      decide ((if up then 1 else 2) < target) = up := by
  obtain ⟨speed, hspeed⟩ := Option.isSome_iff_exists.1 averaged
  have hascending : s.bitrates.Pairwise (· < ·) := by
    rw [h.ladder]
    decide
  have hregistered : s.bitrates[if up then 0 else 1]? = some (if up then 1 else 2) := by
    rw [h.ladder]
    cases up <;> rfl
  have hfree : ¬ s.Blocked speed (if up then 0 else 1) up := by
    cases up <;> simp [Blocked, h.ladder, h.fresh]
  obtain ⟨target, hcommit, -, hdirection⟩ :=
    (switchBitrate_spec hascending h.present hregistered hspeed up).2 hfree
  refine ⟨target, hcommit, ?_⟩
  cases up with
  | true => exact decide_eq_true hdirection.1
  | false => exact decide_eq_false (Nat.lt_asymm hdirection)

theorem Waiting.sampled (h : s.Waiting up) (p : Playback) : (s.sampled p).Waiting up := by
  have hready := h.ready.sampled p
  obtain ⟨_, _, _, hs⟩ := s.sampled_eq p
  rw [hs] at hready ⊢
  exact ⟨hready, rfl, h.ladder, h.present, h.fresh⟩

theorem Waiting.act_tick (h : s.Waiting up) (underway : p.completed = false) :
    s.act (.tick 0 p) = (s.sampled p).respond p (elapsed 0 0) := by
  rw [act, h.ready.tick_eq underway, if_pos h.compared]

/-- A sample that asks for a switch gets one. -/
theorem Waiting.switched? {sum : Int} (h : s.Waiting up) (underway : p.completed = false)
    (leaves : Leaves s.config up p.buffer)
    (high : up = true → s.config.upperBuffer ≤ p.buffer ∨ s.isFull p = true)
    (counted : (s.sampled p).trend.sum? = some sum) (asked : s.Asks up sum)
    (averaged : (s.sampled p).averageSpeed?.isSome) : s.switched? (.tick 0 p) = some up := by
  have hconfig := sampled_config s p
  have hfull : (s.sampled p).isFull p = s.isFull p := by
    obtain ⟨_, _, _, hs⟩ := s.sampled_eq p
    rw [hs]
    rfl
  have hresponse := respond_of_asks (by rwa [hconfig]) (by rwa [hconfig, hfull])
    (h.sampled p).fresh counted ((asks_of_config hconfig).2 asked) (elapsed 0 0)
  obtain ⟨target, hcommit, hdirection⟩ := (h.sampled p).switches averaged
  rw [Selector.switched?, h.act_tick underway, hresponse, hcommit, commit_selector]
  simpa [h.ready.idle, h.present] using hdirection

/-! ## A sample that does not ask -/

/-- There is nothing above the higher of the two bitrates. -/
theorem Waiting.not_rises (h : s.Waiting false) {current next : Nat} {below others : List Nat}
    (present : s.current = some current) :
    s.bitrates ≠ below ++ current :: next :: others := by
  intro ladder
  obtain rfl : 2 = current := Option.some.inj (h.present.symm.trans present)
  have hlength := congrArg List.length (h.ladder.symm.trans ladder)
  have hbelow : below = [] := by
    rw [← List.length_eq_zero_iff]
    simp at hlength
    omega
  simp [h.ladder, hbelow] at ladder

/-- As long as the trend does not ask, a selector that waits does no more than to change its status.
-/
theorem Waiting.response_stays {result : List SwitchEvent × Selector} {up? : Option Bool}
    {sinceConfirmed : Nat} (h : s.Waiting up) (leaves : Leaves s.config up p.buffer)
    (quiet : ¬ s.Asks up s.trend.items.sum) (hresponse : s.Response p sinceConfirmed up? result) :
    ∃ status, result.2 = { s with status } := by
  obtain ⟨hmore, hbuffer⟩ := leaves
  cases up? with
  | none => exact hresponse.stays
  | some direction =>
    exfalso
    cases hresponse with
    | fall present ladder counted averaged asked =>
      rw [Window.eq_sum_of_sum? counted] at asked
      cases up with
      | true =>
        have hlower : s.config.lowerBuffer ≤ p.buffer := by simpa using hbuffer
        rcases asked with hfew | ⟨hfewer, -⟩ <;> omega
      | false => exact quiet (asked.resolve_left (by omega)).2
    | rise present ladder counted averaged asked patient fast =>
      rw [Window.eq_sum_of_sum? counted] at asked
      cases up with
      | true => exact quiet asked.2
      | false => exact h.not_rises present ladder

/-- A sample that asks for nothing is only taken. -/
theorem Waiting.waits (h : s.Waiting up) (leaves : Leaves s.config up buffer) (rebuffering : Bool)
    (quiet : ¬ s.Asks up (s.trend.push (sign rebuffering)).items.sum) :
    let next := (s.act (.tick 0 (brimful buffer rebuffering))).2
    next.Waiting up ∧ next.trend = s.trend.push (sign rebuffering) ∧ next.speeds = s.speeds := by
  intro next
  have hconfig := sampled_config s (brimful buffer rebuffering)
  have hsampled := sampled_brimful h.compared (Nat.zero_lt_of_lt leaves.1) rebuffering
  have hwaiting := h.sampled (brimful buffer rebuffering)
  obtain ⟨up?, hresponse⟩ := respond_response (s.sampled (brimful buffer rebuffering))
    (brimful buffer rebuffering) (elapsed 0 0)
  obtain ⟨status, hstays⟩ := hwaiting.response_stays (by rw [hconfig]; exact leaves)
    (by rw [asks_of_config hconfig, hsampled]; exact quiet) hresponse
  have hnext : next = { s.sampled (brimful buffer rebuffering) with status } := by
    rw [← hstays, ← h.act_tick rfl]
  obtain ⟨hidle, hattached, hchoice, hconfirmed⟩ := hwaiting.ready
  rw [hnext]
  refine ⟨⟨⟨hidle, hattached, hchoice, hconfirmed⟩, hwaiting.compared, hwaiting.ladder,
    hwaiting.present, hwaiting.fresh⟩, ?_, ?_⟩
  · rw [hsampled]
  · rw [hsampled]

/-! ## Runs that lead to a switch -/

def opening (up : Bool) (buffer : Nat) : List Action :=
  [.addStream 0 1, .addStream 1 2, .attach, .setCurrent 0 (if up then 1 else 2),
    .tick 0 (brimful buffer false)]

/-- Two bitrates, somebody to ask and a confirmation make a selector wait, whatever its settings. -/
theorem waiting_opening (config : BitrateConfig) (reportsStatus up : Bool) (buffer : Nat) :
    let s := (ofConfig config reportsStatus).run (opening up buffer)
    s.Waiting up ∧ s.trend = Window.ofCapacity config.trendWindow ∧ s.speeds.items = [] := by
  have hrun : (ofConfig config reportsStatus).run (opening up buffer) =
      { ofConfig config reportsStatus with
        attached := true
        streams := [⟨1, 0⟩, ⟨2, 1⟩]
        current := some (if up then 1 else 2)
        confirmed := some 0
        lastBuffer := some buffer } := rfl
  rw [hrun]
  exact ⟨⟨⟨rfl, rfl, Nat.le_refl 2, rfl⟩, rfl, rfl, rfl, rfl⟩, rfl, rfl⟩

/-- Without speeds there is a mean, so a waiting selector switches if the trend asks for it. -/
theorem Waiting.switched?_brimful (h : s.Waiting up) (hs : s.Sound)
    (leaves : Leaves s.config up buffer) (speedless : s.speeds.items = []) (rebuffering : Bool)
    (few : (s.trend.push (sign rebuffering)).items.length < 0x80000000)
    (asked : s.Asks up (s.trend.push (sign rebuffering)).items.sum) :
    s.switched? (.tick 0 (brimful buffer rebuffering)) = some up ∧
      (s.sampled (brimful buffer rebuffering)).trend.items.sum =
        (s.trend.push (sign rebuffering)).items.sum := by
  have hpositive : 0 < buffer := Nat.zero_lt_of_lt leaves.1
  have hsampled := sampled_brimful h.compared hpositive rebuffering
  have hsound := hs.sampled (brimful buffer rebuffering)
  have htrend : (s.sampled (brimful buffer rebuffering)).trend = s.trend.push (sign rebuffering) := by
    rw [hsampled]
  have haveraged : (s.sampled (brimful buffer rebuffering)).averageSpeed? = some 0 := by
    rw [hsampled]
    exact averageSpeed?_of_no_speeds speedless
  rw [← htrend] at few asked ⊢
  refine ⟨h.switched? rfl leaves (fun _ => .inr (isFull_brimful s hpositive rebuffering))
    (hsound.trend.sum?_eq few) asked ?_, rfl⟩
  rw [haveraged]
  rfl

theorem push_opening_items (config : BitrateConfig) (reportsStatus up rebuffering : Bool)
    (buffer : Nat) :
    (((ofConfig config reportsStatus).run (opening up buffer)).trend.push (sign rebuffering)).items =
      [sign rebuffering] := by
  rw [(waiting_opening config reportsStatus up buffer).2.1]
  apply Window.push_items_of_room
  rw [Window.ofCapacity_items, Window.ofCapacity_capacity, List.length_nil]
  omega

/-- A sample that asks for a switch at once. -/
theorem exists_switch_of_one {config : BitrateConfig} (reportsStatus last : Bool)
    (leaves : Leaves config up buffer) (asked : (ofConfig config reportsStatus).Asks up (sign last)) :
    ∃ actions, let s := (ofConfig config reportsStatus).run actions
      s.switched? (.tick 0 (brimful buffer last)) = some up ∧
        (s.sampled (brimful buffer last)).trend.items.sum = sign last := by
  obtain ⟨hopened, -, hspeedless⟩ := waiting_opening config reportsStatus up buffer
  have hsound := (sound_ofConfig config reportsStatus).run (opening up buffer)
  have hconfig := run_config (ofConfig config reportsStatus) (opening up buffer)
  have hitems := push_opening_items config reportsStatus up last buffer
  have hswitch := hopened.switched?_brimful hsound (by rw [hconfig]; exact leaves) hspeedless last
    (by rw [hitems, List.length_singleton]; omega)
    (by rwa [asks_of_config hconfig, hitems, List.sum_singleton])
  rw [hitems, List.sum_singleton] at hswitch
  exact ⟨opening up buffer, hswitch⟩

/-- The same after one sample that asks for nothing. -/
theorem exists_switch_of_two {config : BitrateConfig} (reportsStatus first last : Bool)
    (leaves : Leaves config up buffer) (room : 2 ≤ config.trendWindow)
    (quiet : ¬ (ofConfig config reportsStatus).Asks up (sign first))
    (asked : (ofConfig config reportsStatus).Asks up (sign first + sign last)) :
    ∃ actions, let s := (ofConfig config reportsStatus).run actions
      s.switched? (.tick 0 (brimful buffer last)) = some up ∧
        (s.sampled (brimful buffer last)).trend.items.sum = sign first + sign last := by
  obtain ⟨hopened, htrend, hspeedless⟩ := waiting_opening config reportsStatus up buffer
  have hsound := (sound_ofConfig config reportsStatus).run (opening up buffer)
  have hconfig := run_config (ofConfig config reportsStatus) (opening up buffer)
  have hone := push_opening_items config reportsStatus up first buffer
  obtain ⟨hwaiting, htrend', hspeeds⟩ := hopened.waits (by rw [hconfig]; exact leaves) first
    (by rwa [asks_of_config hconfig, hone, List.sum_singleton])
  have hsound' := hsound.act (.tick 0 (brimful buffer first))
  have hconfig' := (act_config _ (.tick 0 (brimful buffer first))).trans hconfig
  refine ⟨opening up buffer ++ [.tick 0 (brimful buffer first)], ?_⟩
  rw [run_append, run_cons, run_nil]
  generalize (((ofConfig config reportsStatus).run (opening up buffer)).act
    (.tick 0 (brimful buffer first))).2 = t at *
  have htwo : (t.trend.push (sign last)).items = [sign first, sign last] := by
    rw [htrend', Window.push_items_of_room, hone]
    · rfl
    · rw [hone, Window.push_capacity, htrend, Window.ofCapacity_capacity, List.length_singleton]
      omega
  have hsum : [sign first, sign last].sum = sign first + sign last := by
    rw [List.sum_cons, List.sum_singleton]
  have hswitch := hwaiting.switched?_brimful hsound' (by rw [hconfig']; exact leaves)
    (by rw [hspeeds]; exact hspeedless) last (by simp [htwo])
    (by rwa [asks_of_config hconfig', htwo, hsum])
  rwa [htwo, hsum] at hswitch

/-! ## Sizes with which a switch goes against the trend -/

/-- With a window of at most two samples, one sample against the direction asks for the switch, or
one against it and then one along it. -/
theorem exists_switch_against {config : BitrateConfig} (reportsStatus : Bool)
    (leaves : Leaves config up buffer)
    (low : (if up then -0x7ffffffe else -0x7ffffffd) ≤ Window.wrap32 config.trendWindow)
    (high : Window.wrap32 config.trendWindow ≤ 2) :
    ∃ actions last, let s := (ofConfig config reportsStatus).run actions
      s.switched? (.tick 0 (brimful buffer last)) = some up ∧
        0 ≤ sign up * (s.sampled (brimful buffer last)).trend.items.sum := by
  have hasks (sum : Int) : (ofConfig config reportsStatus).Asks up sum ↔
      sign up * sum ≤ 2 - Window.wrap32 config.trendWindow := asks_iff_sign low
  have hagainst : sign up * sign up = 1 := by cases up <;> rfl
  by_cases hone : Window.wrap32 config.trendWindow ≤ 1
  · obtain ⟨actions, hswitched, hsum⟩ := exists_switch_of_one reportsStatus up leaves
      ((hasks _).2 (by omega))
    refine ⟨actions, up, hswitched, ?_⟩
    rw [hsum, hagainst]
    decide
  · have hroom : Window.wrap32 config.trendWindow ≤ config.trendWindow :=
      Window.wrap32_le config.trendWindow
    have hboth : sign up + sign (!up) = 0 := by cases up <;> rfl
    obtain ⟨actions, hswitched, hsum⟩ := exists_switch_of_two reportsStatus up (!up) leaves
      (by omega) (by rw [hasks]; omega) (by rw [hasks, hboth]; omega)
    refine ⟨actions, !up, hswitched, ?_⟩
    rw [hsum, hboth, Int.mul_zero]

/-- On the way up there is always a buffer that leaves the switch to the trend. -/
theorem exists_rise_against (config : BitrateConfig) (reportsStatus : Bool)
    (low : -0x7ffffffe ≤ Window.wrap32 config.trendWindow)
    (high : Window.wrap32 config.trendWindow ≤ 2) :
    ∃ actions a, ¬ ((ofConfig config reportsStatus).run actions).RisesWithTrend a := by
  obtain ⟨buffer, hleaves⟩ : ∃ buffer, Leaves config true buffer := by
    refine ⟨max config.starvationBuffer config.lowerBuffer + 1, ?_⟩
    rw [Leaves, if_pos rfl]
    omega
  obtain ⟨actions, last, hswitched, hsum⟩ := exists_switch_against reportsStatus hleaves low high
  refine ⟨actions, .tick 0 (brimful buffer last), fun hrises => ?_⟩
  obtain ⟨now, p, hsample, hpositive⟩ := hrises hswitched
  obtain ⟨-, rfl⟩ : 0 = now ∧ brimful buffer last = p := by simpa [Action.sample?] using hsample
  simp only [sign, if_true] at hsum
  omega

/-- On the way down there has to be one. -/
theorem exists_fall_against (config : BitrateConfig) (reportsStatus : Bool)
    (low : -0x7ffffffd ≤ Window.wrap32 config.trendWindow)
    (high : Window.wrap32 config.trendWindow ≤ 2)
    (more : config.starvationBuffer < buffer) (fewer : buffer < config.lowerBuffer) :
    ∃ actions a, ¬ ((ofConfig config reportsStatus).run actions).FallsWithTrend a := by
  have hleaves : Leaves config false buffer := ⟨more, fewer⟩
  obtain ⟨actions, last, hswitched, hsum⟩ := exists_switch_against reportsStatus hleaves low high
  refine ⟨actions, .tick 0 (brimful buffer last), fun hfalls => ?_⟩
  obtain ⟨now, p, hsample, hnegative⟩ := hfalls hswitched
  obtain ⟨-, rfl⟩ : 0 = now ∧ brimful buffer last = p := by simpa [Action.sample?] using hsample
  rw [run_config] at hnegative
  have hfall := hnegative more
  simp only [sign, Bool.false_eq_true, if_false] at hsum
  omega

/-! ## Switches along the trend -/

/-- Each switch up follows the trend exactly if the size of the window, as a signed number of 32 bits,
is at least three, or so low that there is no bound for a switch up. Each switch down follows it, as
long as the buffer has not all but run out, if the size is at least three, or there is no bound for a
switch down, or no buffer leaves one to the trend. -/
theorem follows_trend_iff (config : BitrateConfig) (reportsStatus : Bool) :
    let size := Window.wrap32 config.trendWindow
    ((∀ actions a, ((ofConfig config reportsStatus).run actions).RisesWithTrend a) ↔
      3 ≤ size ∨ size < -0x7ffffffe) ∧
    ((∀ actions a, ((ofConfig config reportsStatus).run actions).FallsWithTrend a) ↔
      3 ≤ size ∨ size < -0x7ffffffd ∨
        ¬ ∃ buffer, config.starvationBuffer < buffer ∧ buffer < config.lowerBuffer) := by
  intro size
  have hsound (actions) : ((ofConfig config reportsStatus).run actions).Sound :=
    (sound_ofConfig config reportsStatus).run actions
  have hconfig (actions) (p : Playback) :
      (((ofConfig config reportsStatus).run actions).sampled p).config = config := by
    rw [sampled_config, run_config]
    rfl
  refine ⟨⟨fun hrises => ?_, ?_⟩, ⟨fun hfalls => ?_, ?_⟩⟩
  · by_contra hsize
    obtain ⟨actions, a, hagainst⟩ :=
      exists_rise_against config reportsStatus (by omega) (by omega)
    exact hagainst (hrises actions a)
  · intro hsize actions a hswitched
    obtain ⟨now, p, sum, hsample, hcounted, hasked, -⟩ := asks_of_switched? (hsound actions) hswitched
    refine ⟨now, p, hsample, rises_of_asks ?_ hcounted ?_⟩
    · rwa [hconfig]
    · exact hasked.resolve_right (by simp)
  · by_contra hnone
    have hbuffers : ∃ buffer, config.starvationBuffer < buffer ∧ buffer < config.lowerBuffer := by
      by_contra hbuffers
      exact hnone (.inr (.inr hbuffers))
    obtain ⟨buffer, hmore, hfewer⟩ := hbuffers
    obtain ⟨actions, a, hagainst⟩ :=
      exists_fall_against config reportsStatus (by omega) (by omega) hmore hfewer
    exact hagainst (hfalls actions a)
  · intro hsize actions a hswitched
    obtain ⟨now, p, sum, hsample, hcounted, hasked, hfewer⟩ :=
      asks_of_switched? (hsound actions) hswitched
    refine ⟨now, p, hsample, fun hmore => ?_⟩
    by_cases hbetween : ∃ buffer, config.starvationBuffer < buffer ∧ buffer < config.lowerBuffer
    · apply falls_of_asks _ hcounted
      · exact hasked.resolve_right fun hfew => absurd hfew.2 (Nat.not_le_of_lt hmore)
      · rw [hconfig]
        exact hsize.imp_right fun h => h.resolve_right (not_not.2 hbetween)
    · have hbelow := hfewer rfl hmore
      rw [run_config] at hmore hbelow
      exact absurd ⟨p.buffer, hmore, hbelow⟩ hbetween

/-- With a window of one sample the selector goes up on a buffer that falls. -/
theorem rises_on_fall :
    let s := (ofConfig { trendWindow := 1 } true).run
      [.addStream 0 1, .addStream 1 2, .attach, .setCurrent 0 1, .tick 0 { buffer := 40000 }]
    let p : Playback := { buffer := 39000 }
    s.switched? (.tick 0 p) = some true ∧ (s.sampled p).trend.items = [-1] ∧
      ¬ s.RisesWithTrend (.tick 0 p) := by
  intro s p
  have hwaiting : s.Waiting true := ⟨⟨rfl, rfl, by decide, rfl⟩, rfl, rfl, rfl, rfl⟩
  have hasked : s.Asks true (-1) := asks_up.2 (by decide)
  have hswitched : s.switched? (.tick 0 p) = some true :=
    hwaiting.switched? rfl ⟨by decide, by decide⟩ (fun _ => .inl (by decide)) rfl hasked
      (by decide +kernel)
  have hfall : (s.sampled p).trend.items = [-1] := rfl
  refine ⟨hswitched, hfall, fun hrises => ?_⟩
  obtain ⟨now, p', hsample, hpositive⟩ := hrises hswitched
  obtain ⟨-, rfl⟩ : 0 = now ∧ p = p' := by simpa [Action.sample?] using hsample
  rw [hfall] at hpositive
  exact absurd hpositive (by decide)

end AdaptiveHls.Selector
