import AdaptiveHls.Proofs.Bitrate.Runs

/-!
# Going up again after a switch up

A switch up sets a cooldown too, and a shorter one, but only while the newest switch went down is
there a cooldown to be waited for. So after a switch up it does not matter how much time has passed.
What there is to wait for is the trend, which each switch empties: once enough rises have been
sampled the selector goes up again, however soon that is.
-/

namespace AdaptiveHls.Selector

variable {s : Selector} {a : Action} {now : Int}

/-- A selector that has all it needs to go up but the trend. -/
structure Poised (s : Selector) : Prop where
  idle : s.switching = false
  attached : s.attached = true
  confirmed : s.confirmed.isSome
  compared : s.lastBuffer.isSome
  ladder : ∃ below current next others, s.current = some current ∧
    s.bitrates = below ++ current :: next :: others

/-- There is a playback on which the selector goes up: one more sample makes the trend, and the speeds
have a mean, with one more or without it. -/
structure CanRise (s : Selector) : Prop extends s.Poised where
  trend : ∃ sample sum, (sample = 1 ∨ sample = -1) ∧ (s.trend.push sample).sum? = some sum ∧
    s.Asks true sum
  speeds : s.averageSpeed?.isSome ∨
    ∃ speed, ({ s with speeds := s.speeds.push speed } : Selector).averageSpeed?.isSome

/-! ## What a switch up tells -/

theorem wentDown_sampled (s : Selector) (p : Playback) : (s.sampled p).wentDown = s.wentDown := by
  rw [wentDown, sampled_history, wentDown]

/-- A sample with nothing to ask, or nothing to be compared with, switches nothing. -/
theorem tick_switching (h : s.attached = false ∨ s.lastBuffer = none) (now : Int) (p : Playback) :
    (s.tick now p).2.switching = s.switching := by
  unfold tick
  split
  · rfl
  · split
    · rfl
    · split
      · rfl
      · rcases h with hdetached | hnone <;> simp_all

/-- A selector switches only if it has somebody to ask and has seen the buffer before. -/
theorem attached_of_switched? {up : Bool} (h : s.switched? a = some up) :
    s.attached = true ∧ s.lastBuffer.isSome := by
  by_contra hready
  have hmissing : s.attached = false ∨ s.lastBuffer = none := by
    by_cases hattached : s.attached = true
    · exact .inr (Option.not_isSome_iff_eq_none.1 fun hsome => hready ⟨hattached, hsome⟩)
    · exact .inl (Bool.eq_false_iff.2 hattached)
  have hsame : (s.act a).2.switching = s.switching := by
    cases hsample : a.sample? with
    | none => simp [switched?_of_no_sample hsample] at h
    | some sample =>
      cases a with
      | tick now p => exact tick_switching hmissing now p
      | process now p =>
        simp only [act, process]
        split
        · rfl
        · exact tick_switching hmissing now p
      | _ => simp [Action.sample?] at hsample
  simp [switched?, hsame] at h

/-- A selector that goes up was able to. -/
theorem canRise_of_switched? (hs : s.Sound) (h : s.switched? a = some true) : s.CanRise := by
  obtain ⟨now, p, confirmed, -, hconfirmed, hresponse⟩ := committed hs h
  obtain ⟨hattached, hcompared⟩ := attached_of_switched? h
  obtain ⟨lastBuffer, hlast⟩ := Option.isSome_iff_exists.1 hcompared
  have hidle := not_switching_of_switched? h
  generalize s.act a = result at hresponse
  cases hresponse with
  | @rise sum speed _ _ _ _ present ladder counted averaged asked patient fast =>
    have hasked := (asks_of_config (sampled_config s p)).1 asked.2
    have htrend : (s.sampled p).trend =
        s.trend.push (if !p.rebuffering && (s.isFull p || lastBuffer < p.buffer) then 1 else -1) := by
      simp only [sampled, hlast]
      rfl
    rw [sampled_current] at present
    rw [sampled_bitrates] at ladder
    rw [htrend] at counted
    have hsome : (s.sampled p).averageSpeed?.isSome := Option.isSome_of_eq_some averaged
    refine ⟨⟨hidle, hattached, by simp [hconfirmed], hcompared, _, _, _, _, present, ladder⟩,
      ⟨_, sum, ?_, counted, hasked⟩, ?_⟩
    · split <;> simp
    · rcases s.sampled_speeds p with hkept | hpushed
      · exact .inl (averageSpeed?_congr hkept ▸ hsome)
      · refine .inr ⟨p.speed, ?_⟩
        rwa [← averageSpeed?_congr
          (s := ({ s with speeds := s.speeds.push p.speed } : Selector)) hpushed]

/-! ## With plenty in the buffer -/

/-- More in the buffer than any bound asks for. -/
structure Ample (config : BitrateConfig) (p : Playback) : Prop where
  starvation : config.starvationBuffer < p.buffer
  lower : config.lowerBuffer ≤ p.buffer
  upper : config.upperBuffer ≤ p.buffer
  underway : p.completed = false

theorem Ample.falls?_eq (h : Ample s.config p) (sum : Int) : s.falls? p sum = some false := by
  rw [falls?, if_neg (Nat.not_le_of_lt h.starvation), if_neg (Nat.not_lt_of_le h.lower)]

/-- More than any bound asks for, and no room left. -/
def plenty (config : BitrateConfig) (rebuffering : Bool) : Playback :=
  brimful (max config.starvationBuffer (max config.lowerBuffer config.upperBuffer) + 1) rebuffering

theorem ample_plenty (config : BitrateConfig) (rebuffering : Bool) :
    Ample config (plenty config rebuffering) := by
  constructor
  · simp only [plenty, brimful]; omega
  · simp only [plenty, brimful]; omega
  · simp only [plenty, brimful]; omega
  · rfl

theorem sampled_plenty (rebuffering : Bool) (compared : s.lastBuffer.isSome) :
    s.sampled (plenty s.config rebuffering) =
      { s with
        lastBuffer := some (plenty s.config rebuffering).buffer
        trend := s.trend.push (sign rebuffering) } :=
  sampled_brimful compared (Nat.succ_pos _) rebuffering

/-- More than any bound asks for and than there was before, but room for more. -/
def roomy (config : BitrateConfig) (lastBuffer speed : Nat) (rebuffering : Bool) : Playback where
  buffer := max lastBuffer (plenty config rebuffering).buffer + 1
  speed := speed
  rebuffering := rebuffering

theorem ample_roomy (config : BitrateConfig) (lastBuffer speed : Nat) (rebuffering : Bool) :
    Ample config (roomy config lastBuffer speed rebuffering) := by
  obtain ⟨hstarvation, hlower, hupper, -⟩ := ample_plenty config rebuffering
  constructor
  · simp only [roomy]; omega
  · simp only [roomy]; omega
  · simp only [roomy]; omega
  · rfl

theorem sampled_roomy {lastBuffer : Nat} (compared : s.lastBuffer = some lastBuffer) (speed : Nat)
    (rebuffering : Bool) :
    s.sampled (roomy s.config lastBuffer speed rebuffering) =
      { s with
        lastBuffer := some (roomy s.config lastBuffer speed rebuffering).buffer
        speeds := s.speeds.push speed
        trend := s.trend.push (sign rebuffering) } := by
  have hmore : lastBuffer < max lastBuffer (plenty s.config rebuffering).buffer + 1 := by omega
  cases rebuffering <;> simp [sampled, compared, sample, isFull, roomy, sign, hmore]

theorem length_bitrates (s : Selector) : s.bitrates.length = s.streams.length :=
  List.length_map _

theorem idxOf?_append {below others : List Nat} {current : Nat}
    (ascending : (below ++ current :: others).Pairwise (· < ·)) :
    (below ++ current :: others).idxOf? current = some below.length := by
  refine List.idxOf?_eq_some_iff.2 ⟨by simp, by simp, fun j hj heq => ?_⟩
  have hlower := (List.pairwise_append.1 ascending).2.2 _ (List.getElem_mem hj) current (by simp)
  rw [List.getElem_append_left hj] at heq
  exact hlower.ne heq

/-- A selector that has not just come down goes up from any bitrate but the last. -/
theorem switchBitrate_ladder {below others : List Nat} {current next : Nat}
    (present : s.current = some current) (ladder : s.bitrates = below ++ current :: next :: others)
    (ascending : s.bitrates.Pairwise (· < ·)) (up : s.wentDown = false) {speed : Nat}
    (averaged : s.averageSpeed? = some speed) :
    s.switchBitrate true = s.commit current (upTarget speed next others) true := by
  have hposition : s.bitrates.idxOf? current = some below.length := by
    rw [ladder] at ascending ⊢
    exact idxOf?_append ascending
  have habove : s.bitrates.drop (below.length + 1) = next :: others := by
    rw [ladder]
    simp
  simp [switchBitrate, present, hposition, averaged, habove, up]

theorem Poised.ready (h : s.Poised) : ∃ confirmed, s.Ready confirmed := by
  obtain ⟨confirmed, hconfirmed⟩ := Option.isSome_iff_exists.1 h.confirmed
  obtain ⟨below, current, next, others, -, hladder⟩ := h.ladder
  refine ⟨confirmed, h.idle, h.attached, ?_, hconfirmed⟩
  rw [← length_bitrates, hladder, List.length_append, List.length_cons, List.length_cons]
  omega

/-- Unless it has come down, with more than enough in the buffer it goes up if the trend asks for it
and the speeds have a mean. -/
theorem Poised.switched? {p : Playback} {sum : Int} (h : s.Poised) (hs : s.Sound)
    (up : s.wentDown = false) (ample : Ample s.config p)
    (counted : (s.sampled p).trend.sum? = some sum) (asked : s.Asks true sum)
    (averaged : (s.sampled p).averageSpeed?.isSome) (now : Int) :
    s.switched? (.tick now p) = some true := by
  obtain ⟨confirmed, hready⟩ := h.ready
  obtain ⟨speed, hspeed⟩ := Option.isSome_iff_exists.1 averaged
  obtain ⟨below, current, next, others, hcurrent, hladder⟩ := h.ladder
  have hconfig := sampled_config s p
  have hup := (wentDown_sampled s p).trans up
  rw [← hconfig] at ample
  have hasked : (s.sampled p).AsksUp p sum := ⟨.inl ample.upper, (asks_of_config hconfig).2 asked⟩
  have hact : s.act (.tick now p) =
      (s.sampled p).commit current (upTarget speed next others) true := by
    rw [act, hready.tick_eq ample.underway, if_pos h.compared,
      respond_of_asksUp counted (ample.falls?_eq sum) hasked hup,
      switchBitrate_ladder ((sampled_current s p).trans hcurrent)
        ((sampled_bitrates s p).trans hladder) (hs.sampled p).ascending hup hspeed]
  have hhigher : current < upTarget speed next others := by
    have hascending := hs.ascending
    rw [hladder] at hascending
    have habove := (List.pairwise_append.1 hascending).2.1
    exact (List.pairwise_cons.1 habove).1 _ (upTarget_mem speed next others)
  rw [Selector.switched?, hact, commit_selector]
  simp [h.idle, hcurrent, hhigher]

/-- Unless it has come down, a selector that can go up does so at any time. -/
theorem CanRise.switched? (h : s.CanRise) (hs : s.Sound) (up : s.wentDown = false) (now : Int) :
    ∃ p, s.switched? (.tick now p) = some true := by
  obtain ⟨sample, sum, hsign, hcounted, hasked⟩ := h.trend
  obtain ⟨lastBuffer, hlast⟩ := Option.isSome_iff_exists.1 h.compared
  obtain ⟨rebuffering, rfl⟩ : ∃ rebuffering, sample = sign rebuffering := by
    rcases hsign with rfl | rfl
    · exact ⟨false, rfl⟩
    · exact ⟨true, rfl⟩
  rcases h.speeds with haveraged | ⟨speed, haveraged⟩
  · have hsampled := sampled_plenty rebuffering h.compared
    refine ⟨_, h.toPoised.switched? hs up (ample_plenty s.config rebuffering) ?_ hasked ?_ now⟩
    · rw [hsampled]
      exact hcounted
    · rw [hsampled]
      exact haveraged
  · have hsampled := sampled_roomy hlast speed rebuffering
    have hample := ample_roomy s.config lastBuffer speed rebuffering
    refine ⟨_, h.toPoised.switched? hs up hample ?_ hasked ?_ now⟩
    · rw [hsampled]
      exact hcounted
    · rw [hsampled]
      exact haveraged

/-! ## Rises in a row -/

/-- How many rises in a row make the trend. -/
def risesNeeded (s : Selector) : Nat := max (Window.wrap32 s.config.trendWindow - 2).toNat 1

theorem Sound.risesNeeded_le (hs : s.Sound) :
    s.risesNeeded ≤ s.trend.capacity ∧ s.risesNeeded < 0x80000000 := by
  have hbounds := Window.wrap32_bounds s.config.trendWindow
  have hle := Window.wrap32_le s.config.trendWindow
  rw [hs.capacity, risesNeeded]
  omega

/-- After nothing but rises the trend is their number. -/
theorem Sound.push_rise (hs : s.Sound) {k : Nat} (rises : s.trend.items = List.replicate k 1)
    (few : k < s.risesNeeded) :
    (s.trend.push 1).items = List.replicate (k + 1) 1 ∧
      (s.trend.push 1).sum? = some (k + 1 : Int) := by
  obtain ⟨hroom, hsmall⟩ := hs.risesNeeded_le
  have hlength : ¬ s.trend.items.length = s.trend.capacity := by
    rw [rises, List.length_replicate]
    omega
  have hitems : (s.trend.push 1).items = List.replicate (k + 1) 1 := by
    rw [Window.push_items_of_room hlength, rises, List.replicate_succ']
  have hsum : (List.replicate (k + 1) (1 : Int)).sum = k + 1 := by simp
  refine ⟨hitems, ?_⟩
  rw [(hs.trend.push (.inl rfl)).sum?_eq, hitems, hsum]
  rw [hitems, List.length_replicate]
  omega

theorem Poised.sampled_plenty (h : s.Poised) (rebuffering : Bool) :
    (s.sampled (plenty s.config rebuffering)).Poised := by
  rw [Selector.sampled_plenty rebuffering h.compared]
  exact ⟨h.idle, h.attached, h.confirmed, rfl, h.ladder⟩

theorem switches_cons_of_quiet {rest : List Action} (quiet : s.switched? a = none) :
    s.switches (a :: rest) = (s.act a).2.switches rest := by
  rw [switches, quiet]
  rfl

/-- A rise that does not make the trend is only taken. -/
theorem Poised.act_rise (h : s.Poised) {sum : Int}
    (bounded : -0x7ffffffe ≤ Window.wrap32 s.config.trendWindow)
    (counted : (s.trend.push 1).sum? = some sum)
    (short : sum < Window.wrap32 s.config.trendWindow - 2) (now : Int) :
    s.act (.tick now (plenty s.config false)) = ([], s.sampled (plenty s.config false)) := by
  obtain ⟨confirmed, hready⟩ := h.ready
  have hsampled := Selector.sampled_plenty false h.compared
  have hbounds := Window.wrap32_bounds s.config.trendWindow
  have hconfig := sampled_config s (plenty s.config false)
  have hample : Ample (s.sampled (plenty s.config false)).config (plenty s.config false) := by
    rw [hconfig]
    exact ample_plenty s.config false
  have hcounted : (s.sampled (plenty s.config false)).trend.sum? = some sum := by
    rw [hsampled]
    exact counted
  have hquiet : (s.sampled (plenty s.config false)).rises? (plenty s.config false) sum =
      some false := by
    have hroom : (s.config.upperBuffer ≤ (plenty s.config false).buffer ||
        (s.sampled (plenty s.config false)).isFull (plenty s.config false)) = true := by
      rw [decide_eq_true (ample_plenty s.config false).upper, Bool.true_or]
    rw [rises?, riseBound?, hconfig, Window.checked32_of_small (by omega) (by omega), if_pos hroom,
      Option.map_some, decide_eq_false (Int.not_le.2 short)]
  rw [act, hready.tick_eq rfl, if_pos h.compared,
    respond_of_quiet hcounted (hample.falls?_eq sum) hquiet]

/-- One rise after the other, it goes up in the end. -/
theorem Poised.climbs (h : s.Poised) (hs : s.Sound) (up : s.wentDown = false)
    (bounded : -0x7ffffffe ≤ Window.wrap32 s.config.trendWindow)
    (averaged : s.averageSpeed?.isSome) (now : Int) {k gap : Nat}
    (rises : s.trend.items = List.replicate k 1) (left : k + 1 + gap = s.risesNeeded) :
    let rise := Action.tick now (plenty s.config false)
    s.switches (List.replicate gap rise) = [] ∧
      (s.run (List.replicate gap rise)).switched? rise = some true := by
  intro rise
  induction gap generalizing s k with
  | zero =>
    have hcounted := (hs.push_rise rises (by omega)).2
    have hsampled := Selector.sampled_plenty false h.compared
    have hasked : s.Asks true (k + 1) := by
      rw [asks_up]
      rw [risesNeeded] at left
      omega
    refine ⟨rfl, h.switched? hs up (ample_plenty s.config false) ?_ hasked ?_ now⟩
    · rw [hsampled]
      exact hcounted
    · rw [hsampled]
      exact averaged
  | succ gap ih =>
    obtain ⟨hitems, hcounted⟩ := hs.push_rise rises (by omega)
    have hact : s.act rise = ([], s.sampled (plenty s.config false)) := by
      refine h.act_rise bounded hcounted ?_ now
      rw [risesNeeded] at left
      omega
    have hsampled := Selector.sampled_plenty false h.compared
    have hquiet : s.switched? rise = none := by
      rw [Selector.switched?, hact, hsampled]
      simp [h.idle]
    have hconfig : (s.sampled (plenty s.config false)).config = s.config := sampled_config s _
    have hrest := ih (h.sampled_plenty false) (hs.sampled _) ((wentDown_sampled s _).trans up)
      (by rwa [hconfig]) (by rw [hsampled]; exact averaged) (k := k + 1)
      (by rw [hsampled]; exact hitems) (by rw [risesNeeded, hconfig, ← risesNeeded]; omega)
    rw [hconfig] at hrest
    rw [List.replicate_succ, switches_cons_of_quiet hquiet, run_cons, hact]
    exact hrest

/-- A confirmation of the lower of two bitrates, and then plenty in the buffer at every sample. -/
def lap (config : BitrateConfig) (n : Nat) : List Action :=
  .setCurrent 0 1 :: List.replicate (n + 1) (.tick 0 (plenty config false))

theorem newestConfirmation?_lap (config : BitrateConfig) (n : Nat) :
    Action.newestConfirmation? (lap config n) = some 0 := by
  have hticks : (List.replicate (n + 1) (Action.tick 0 (plenty config false))).filterMap
      Action.confirms? = [] := by
    simp [Action.confirms?]
  rw [lap, Action.newestConfirmation?, List.filterMap_cons, hticks]
  rfl

/-- With a higher bitrate to go to, a lap of some length makes the selector go up. -/
theorem exists_lap (hs : s.Sound) (bounded : -0x7ffffffe ≤ Window.wrap32 s.config.trendWindow)
    (attached : s.attached = true) (ladder : s.bitrates = [1, 2]) (empty : s.trend.items = [])
    (speedless : s.speeds.items = []) (up : s.wentDown = false) :
    ∃ n, s.switches (lap s.config n) = [] ∧
      (s.run (lap s.config n)).switched? (.tick 0 (plenty s.config false)) = some true := by
  have hconfirm : (s.act (.setCurrent 0 1)).2 = _ := s.setCurrent_selector 0 1
  have hchoice : ¬ s.streams.length < 2 := by
    rw [← length_bitrates, ladder]
    decide
  have hnoted : ((s.act (.setCurrent 0 1)).2.act (.tick 0 (plenty s.config false))).2 =
      { (s.act (.setCurrent 0 1)).2 with lastBuffer := some (plenty s.config false).buffer } := by
    rw [hconfirm]
    simp [act, tick, hchoice, attached, plenty, brimful]
  have hquiet : (s.act (.setCurrent 0 1)).2.switched? (.tick 0 (plenty s.config false)) = none := by
    rw [switched?, hnoted, hconfirm]
    rfl
  have hsound := (hs.act (.setCurrent 0 1)).act (.tick 0 (plenty s.config false))
  generalize hu : ((s.act (.setCurrent 0 1)).2.act (.tick 0 (plenty s.config false))).2 = u at *
  have hconfig : u.config = s.config := by rw [hnoted, hconfirm]
  have hpoised : u.Poised := by
    rw [hnoted, hconfirm]
    exact ⟨rfl, attached, rfl, rfl, [], 1, 2, [], rfl, ladder⟩
  have hrises : u.trend.items = List.replicate 0 1 := by rw [hnoted, hconfirm]; exact empty
  have hup : u.wentDown = false := by rw [hnoted, hconfirm]; exact up
  have hleft : 0 + 1 + (u.risesNeeded - 1) = u.risesNeeded := by rw [risesNeeded]; omega
  have haveraged : u.averageSpeed? = some 0 := by
    apply averageSpeed?_of_no_speeds
    rw [hnoted, hconfirm]
    exact speedless
  obtain ⟨hwaits, hclimbs⟩ := hpoised.climbs hsound hup (by rwa [hconfig])
    (Option.isSome_of_eq_some haveraged) 0 hrises hleft
  rw [hconfig] at hwaits hclimbs
  refine ⟨u.risesNeeded - 1, ?_, ?_⟩
  · rw [lap, switches_cons_of_quiet (switched?_of_no_sample rfl), List.replicate_succ,
      switches_cons_of_quiet hquiet, hu]
    exact hwaits
  · rw [lap, run_cons, List.replicate_succ, run_cons, hu]
    exact hclimbs

/-- A switch empties the trend. -/
theorem switched_trend {up : Bool} (hs : s.Sound) (h : s.switched? a = some up) :
    (s.act a).2.trend.items = [] := by
  obtain ⟨_, _, _, _, _, _, hcommit⟩ := switched_commit hs h
  rw [hcommit, commit_selector]
  rfl

theorem sampled_plenty_speeds (s : Selector) (rebuffering : Bool) :
    (s.sampled (plenty s.config rebuffering)).speeds = s.speeds := by
  by_cases hcompared : s.lastBuffer.isSome
  · rw [sampled_plenty rebuffering hcompared]
  · rw [sampled, Option.not_isSome_iff_eq_none.1 hcompared]

/-- With plenty in the buffer no speeds are sampled. -/
theorem act_plenty_speeds (s : Selector) (now : Int) (rebuffering : Bool) :
    (s.act (.tick now (plenty s.config rebuffering))).2.speeds = s.speeds := by
  have hsampled := s.sampled_plenty_speeds rebuffering
  rcases s.tick_cases now (plenty s.config rebuffering) with
    hsame | htaken | ⟨_, _, _, _, hresponse⟩
  · rw [act, hsame]
  · rw [act, htaken]
    exact hsampled
  · exact hresponse.speeds.trans hsampled

/-- What is left of a lap but for the bitrate, the trend and the times: all as it was. -/
theorem run_lap (s : Selector) (n : Nat) :
    (s.run (lap s.config n)).streams = s.streams ∧
      (s.run (lap s.config n)).attached = s.attached ∧
      (s.run (lap s.config n)).speeds = s.speeds := by
  have hrises : ∀ (n : Nat) (t : Selector), t.config = s.config →
      let u := t.run (List.replicate n (.tick 0 (plenty s.config false)))
      u.streams = t.streams ∧ u.attached = t.attached ∧ u.speeds = t.speeds := by
    intro n
    induction n with
    | zero => exact fun t _ => ⟨rfl, rfl, rfl⟩
    | succ n ih =>
      intro t ht
      obtain ⟨hstreams, hattached, hspeeds⟩ := ih (t.act (.tick 0 (plenty s.config false))).2
        ((act_config t _).trans ht)
      rw [← ht] at hstreams hattached hspeeds ⊢
      rw [List.replicate_succ, run_cons]
      exact ⟨hstreams.trans (act_streams t _), hattached.trans (act_attached t _),
        hspeeds.trans (t.act_plenty_speeds 0 false)⟩
  have hconfirm : (s.act (.setCurrent 0 1)).2 = _ := s.setCurrent_selector 0 1
  obtain ⟨hstreams, hattached, hspeeds⟩ := hrises (n + 1) (s.act (.setCurrent 0 1)).2
    (act_config s _)
  rw [lap, run_cons]
  refine ⟨hstreams.trans ?_, hattached.trans ?_, hspeeds.trans ?_⟩ <;> rw [hconfirm]

/-! ## The cooldown after a switch up -/

/-- A run whose newest switch is one up, by `first`, which has not been forgotten since. -/
structure Raised (s : Selector) (before : List Action) (first : Action) (between : List Action) :
    Prop where
  raised : (s.run before).switched? first = some true
  kept : ∀ a ∈ between, a.forgets = false
  quiet : (s.run (before ++ [first])).switches between = []

/-- The selector does not go up another time before the cooldown is over since the bitrate was
confirmed last. -/
def WaitsAfterUp (s : Selector) (before : List Action) (first : Action) (between : List Action) :
    Prop :=
  ∀ second now p confirmed, second.sample? = some (now, p) →
    Action.newestConfirmation? between = some confirmed →
    (now - confirmed).toNat < s.config.cooldownAfterUp →
    (s.run (before ++ first :: between)).switched? second ≠ some true

variable {before between : List Action} {first : Action}

/-- What is left of a switch up: it is no switch down, and it has been confirmed once it is over. -/
theorem Raised.after (h : s.Raised before first between) (hs : s.Sound) :
    (s.run (before ++ first :: between)).wentDown = false ∧
      ((s.run (before ++ first :: between)).switching = false →
        Action.newestConfirmation? between = (s.run (before ++ first :: between)).confirmed) := by
  have hbefore := hs.run before
  obtain ⟨hhistory, hswitching, -⟩ := switched_selector hbefore h.raised
  have hquiet := h.quiet
  rw [run_append, run_cons, run_nil] at hquiet
  have hkept := undisturbed_run (hbefore.act first) h.kept hquiet
  rw [run_append, run_cons]
  refine ⟨?_, hkept.confirmed_of_idle hswitching⟩
  rw [wentDown, hkept.history, hhistory]
  rfl

/-- A selector waits behind a switch up exactly if there is no cooldown to wait for, or it can not
go up in any case: the cooldown after a switch up is not read. -/
theorem Raised.waits_iff (h : s.Raised before first between) (hs : s.Sound) :
    s.WaitsAfterUp before first between ↔
      s.config.cooldownAfterUp = 0 ∨ ¬ (s.run (before ++ first :: between)).CanRise := by
  obtain ⟨hup, hnewest⟩ := h.after hs
  have hsound := hs.run (before ++ first :: between)
  constructor
  · intro hwaits
    by_contra hboth
    obtain ⟨hcooldown, hrises⟩ := not_or.1 hboth
    have hrises := not_not.1 hrises
    obtain ⟨confirmed, hconfirmed⟩ := Option.isSome_iff_exists.1 hrises.confirmed
    obtain ⟨p, hp⟩ := hrises.switched? hsound hup confirmed
    refine hwaits _ confirmed p confirmed rfl ((hnewest hrises.idle).trans hconfirmed) ?_ hp
    rw [Int.sub_self]
    exact Nat.pos_of_ne_zero hcooldown
  · rintro (hnone | hstays) second now p confirmed - - hearly hp
    · omega
    · exact hstays (canRise_of_switched? hsound hp)

/-- With every configuration that has a bound for it, the selector may go up twice at the moment of a
confirmation. -/
theorem exists_raised_again (config : BitrateConfig) (reportsStatus : Bool)
    (bounded : -0x7ffffffe ≤ Window.wrap32 config.trendWindow) :
    ∃ before first between second p, (ofConfig config reportsStatus).Raised before first between ∧
      second.sample? = some (0, p) ∧ Action.newestConfirmation? between = some 0 ∧
      ((ofConfig config reportsStatus).run (before ++ first :: between)).switched? second =
        some true := by
  let setup : List Action := [.addStream 0 1, .addStream 1 2, .attach]
  let rise : Action := .tick 0 (plenty config false)
  have hsetup := (sound_ofConfig config reportsStatus).run setup
  obtain ⟨n, -, hfirst⟩ := exists_lap hsetup bounded rfl rfl rfl rfl rfl
  obtain ⟨hstreams, hattached, hspeeds⟩ := run_lap ((ofConfig config reportsStatus).run setup) n
  rw [show ((ofConfig config reportsStatus).run setup).config = config from rfl] at *
  have hsound := hsetup.run (lap config n)
  have hconfig : (((ofConfig config reportsStatus).run setup).run (lap config n)).config = config :=
    (run_config _ _).trans (run_config _ _)
  generalize hlap : ((ofConfig config reportsStatus).run setup).run (lap config n) = s at *
  obtain ⟨hhistory, -, -⟩ := switched_selector hsound hfirst
  have hbitrates : (s.act rise).2.bitrates = [1, 2] := by
    rw [bitrates, act_streams s rise, hstreams]
    rfl
  have hspeedless : (s.act rise).2.speeds.items = [] := by
    have hkept := s.act_plenty_speeds 0 false
    rw [hconfig] at hkept
    rw [hkept, hspeeds]
    rfl
  obtain ⟨m, hquiet, hsecond⟩ := exists_lap (hsound.act rise)
    (by rw [act_config, hconfig]; exact bounded) ((act_attached s rise).trans hattached) hbitrates
    (switched_trend hsound hfirst) hspeedless (by rw [wentDown, hhistory]; rfl)
  rw [act_config, hconfig] at hquiet hsecond
  have hkept : ∀ a ∈ lap config m, a.forgets = false := by
    simp [lap, Action.forgets]
  refine ⟨setup ++ lap config n, rise, lap config m, rise, plenty config false,
    ⟨?_, hkept, ?_⟩, rfl, newestConfirmation?_lap config m, ?_⟩
  · rw [run_append, hlap]
    exact hfirst
  · rw [run_append, run_append, hlap]
    exact hquiet
  · rw [run_append, run_append, hlap]
    exact hsecond

/-- Without a bound there is no trend that asks for a switch up. -/
theorem not_canRise_of_unbounded
    (unbounded : Window.wrap32 s.config.trendWindow < -0x7ffffffe) : ¬ s.CanRise := by
  intro h
  obtain ⟨_, _, _, _, hasked⟩ := h.trend
  have hbound := (asks_up.1 hasked).2
  omega

/-! ## Waiting behind a switch up -/

/-- After a switch up and until the selector is reset, whether it waits for the cooldown before it
goes up again is a matter of the samples alone: it does so exactly if it can not go up at all, or
there is no cooldown. A configuration makes every run wait exactly if its cooldown is zero, or the
size of its trend window, as a signed number of 32 bits, is so low that there is no bound for a switch
up. -/
theorem waits_after_up_iff (config : BitrateConfig) (reportsStatus : Bool) :
    let s := ofConfig config reportsStatus
    (∀ before first between, s.Raised before first between →
      (s.WaitsAfterUp before first between ↔
        config.cooldownAfterUp = 0 ∨ ¬ (s.run (before ++ first :: between)).CanRise)) ∧
    ((∀ before first between, s.Raised before first between →
      s.WaitsAfterUp before first between) ↔
        config.cooldownAfterUp = 0 ∨ Window.wrap32 config.trendWindow < -0x7ffffffe) := by
  intro s
  have hs : s.Sound := sound_ofConfig config reportsStatus
  refine ⟨fun before first between h => h.waits_iff hs, fun hwaits => ?_, ?_⟩
  · by_contra hboth
    obtain ⟨hcooldown, hbound⟩ := not_or.1 hboth
    obtain ⟨before, first, between, second, p, hraised, hsample, hnewest, hsecond⟩ :=
      exists_raised_again config reportsStatus (Int.not_lt.1 hbound)
    refine hwaits before first between hraised second 0 p 0 hsample hnewest ?_ hsecond
    exact Nat.pos_of_ne_zero hcooldown
  · intro hnever before first between h
    refine (h.waits_iff hs).2 (hnever.imp_right fun hunbounded => ?_)
    apply not_canRise_of_unbounded
    rwa [run_config]

def fullBuffer : Playback := { buffer := 59500, maxBuffer := 60000 }

/-- A full buffer from the start: every sample but the first is a rise, and there is one to come for
the first switch, from the first of three bitrates to the second. -/
def firstClimb : List Action :=
  [.addStream 0 1000000, .addStream 1 2000000, .addStream 2 4000000, .setDuration 600000, .attach,
    .setCurrent 0 1000000] ++
    List.replicate 8 (.tick 0 fullBuffer)

/-- The same buffer, sampled once a second from the confirmation on. -/
def secondClimb (samples : Nat) : List Action :=
  .setCurrent 1000 2000000 :: (List.range samples).map fun (n : Nat) =>
    .tick (1000 + 1000 * n) fullBuffer

/-- Behind a switch up, seven samples do not make a trend yet, so the selector waits. -/
theorem waits_after_up_of_few_rises :
    let s := ofConfig {} true
    let first := Action.tick 0 fullBuffer
    s.Raised firstClimb first (secondClimb 7) ∧
      ¬ (s.run (firstClimb ++ first :: secondClimb 7)).CanRise ∧
      s.WaitsAfterUp firstClimb first (secondClimb 7) := by
  intro s first
  have hraised : s.Raised firstClimb first (secondClimb 7) :=
    ⟨by decide +kernel, by decide, by decide +kernel⟩
  have hstays : ¬ (s.run (firstClimb ++ first :: secondClimb 7)).CanRise := by
    intro hrises
    obtain ⟨sample, sum, hsign, hcounted, hasked⟩ := hrises.trend
    have hsum := Window.eq_sum_of_sum? hcounted
    have hless := (asks_up.1 hasked).1
    rw [hsum] at hless
    rcases hsign with rfl | rfl
    · exact absurd hless (by decide +kernel)
    · exact absurd hless (by decide +kernel)
  exact ⟨hraised, hstays, ((waits_after_up_iff {} true).1 _ _ _ hraised).2 (.inr hstays)⟩

/-- One more sample, and it goes up again a second before the cooldown of nine is over. -/
theorem rises_before_cooldown :
    let s := ofConfig {} true
    let first := Action.tick 0 fullBuffer
    let second := Action.tick 9000 fullBuffer
    s.Raised firstClimb first (secondClimb 8) ∧ s.config.cooldownAfterUp = 9000 ∧
      Action.newestConfirmation? (secondClimb 8) = some 1000 ∧
      (s.run (firstClimb ++ first :: secondClimb 8)).switched? second = some true ∧
      ¬ s.WaitsAfterUp firstClimb first (secondClimb 8) := by
  intro s first second
  have hnewest : Action.newestConfirmation? (secondClimb 8) = some 1000 := by decide
  have hsecond : (s.run (firstClimb ++ first :: secondClimb 8)).switched? second = some true := by
    decide +kernel
  refine ⟨⟨by decide +kernel, by decide, by decide +kernel⟩, rfl, hnewest, hsecond, fun hwaits => ?_⟩
  exact hwaits second 9000 _ 1000 rfl hnewest (by decide) hsecond

end AdaptiveHls.Selector
