import AdaptiveHls.Proofs.Bitrate.Runs
import Mathlib.Algebra.Group.Nat.Defs
import Mathlib.Order.Bounds.Defs

/-!
# Going up again after a switch down

A switch down is remembered until the next switch, and with it the long cooldown, whatever the owner
does in between but resetting the selector. So the next switch, if it is up, comes only when the
cooldown is over since the bitrate was confirmed last, after nothing but rises, and with a download
that was fast enough once.
-/

namespace AdaptiveHls.Selector

variable {s : Selector} {p : Playback}

/-- The bitrate behind the present one is the next higher one. -/
theorem isLeast_above {current next : Nat} {below others : List Nat}
    (ladder : s.bitrates = below ++ current :: next :: others)
    (ascending : s.bitrates.Pairwise (· < ·)) :
    IsLeast {b | b ∈ s.bitrates ∧ current < b} next := by
  rw [ladder] at ascending ⊢
  obtain ⟨-, habove, hbelow⟩ := List.pairwise_append.1 ascending
  obtain ⟨hcurrent, hothers⟩ := List.pairwise_cons.1 habove
  refine ⟨⟨by simp, hcurrent next List.mem_cons_self⟩, ?_⟩
  rintro b ⟨hb, hlt⟩
  rcases List.mem_append.1 hb with hb | hb
  · exact absurd hlt (hbelow b hb current List.mem_cons_self).not_gt
  · rcases List.mem_cons.1 hb with rfl | hb
    · exact absurd hlt (lt_irrefl b)
    · rcases List.mem_cons.1 hb with rfl | hb
      · exact le_rfl
      · exact ((List.pairwise_cons.1 hothers).1 b hb).le

/-- A trend that reaches the size of its window is full of rises. -/
theorem Sound.trend_full (hs : s.Sound) {sum : Int}
    (window : 1 ≤ s.config.trendWindow ∧ s.config.trendWindow < 2 ^ 31)
    (counted : s.trend.sum? = some sum) (reached : Window.wrap32 s.config.trendWindow ≤ sum) :
    s.trend.items = List.replicate s.config.trendWindow 1 := by
  have hcapacity : s.trend.capacity = s.config.trendWindow := by
    rw [hs.capacity, Nat.max_eq_left window.1]
  rw [Window.wrap32_of_small (by omega) (by omega), ← hcapacity,
    Window.eq_sum_of_sum? counted] at reached
  rw [← hcapacity]
  exact hs.trend.capacity_le_sum_iff.1 reached

/-- What it takes to go up while the newest switch went down. -/
theorem Sound.raised_of_wentDown (hs : s.Sound) {a : Action}
    (window : 1 ≤ s.config.trendWindow ∧ s.config.trendWindow < 2 ^ 31) (down : s.wentDown)
    (h : s.switched? a = some true) :
    ∃ now p confirmed current next, a.sample? = some (now, p) ∧ s.confirmed = some confirmed ∧
      s.upCooldown ≤ elapsed confirmed now ∧
      (s.sampled p).trend.items = List.replicate s.config.trendWindow 1 ∧
      s.current = some current ∧ IsLeast {b | b ∈ s.bitrates ∧ current < b} next ∧
      ∃ speed, (s.sampled p).averageSpeed? = some speed ∧
        (0 < speed → next ≤ (s.sampled p).maxSpeed) := by
  obtain ⟨now, p, confirmed, hsample, hconfirmed, hresponse⟩ := committed hs h
  have hsampled := hs.sampled p
  generalize s.act a = result at hresponse
  cases hresponse with
  | @rise sum speed current next below others present ladder counted averaged asked patient fast =>
    have hdown : (s.sampled p).wentDown := by simpa [wentDown] using down
    obtain ⟨hcooldown, hreached⟩ := patient hdown
    have hfull := hsampled.trend_full (by simpa using window) counted hreached
    have hleast := isLeast_above ladder hsampled.ascending
    rw [sampled_config] at hfull
    rw [sampled_upCooldown] at hcooldown
    rw [sampled_current] at present
    rw [sampled_bitrates] at hleast
    exact ⟨now, p, confirmed, current, next, hsample, hconfirmed, hcooldown, hfull, present, hleast,
      speed, averaged, fast hdown⟩

/-- The switch down is what the selector still remembers, and it has been confirmed since. -/
theorem Sound.raised_after (hs : s.Sound) {between : List Action} {down up : Action}
    (window : 1 ≤ s.config.trendWindow ∧ s.config.trendWindow < 2 ^ 31)
    (lowered : s.switched? down = some false) (kept : ∀ a ∈ between, a.forgets = false)
    (quiet : (s.act down).2.switches between = [])
    (raised : ((s.act down).2.run between).switched? up = some true) :
    let ready := (s.act down).2.run between
    ∃ now p confirmed current next, up.sample? = some (now, p) ∧
      Action.newestConfirmation? between = some confirmed ∧
      s.config.cooldownAfterDown ≤ elapsed confirmed now ∧
      (ready.sampled p).trend.items = List.replicate s.config.trendWindow 1 ∧
      ready.current = some current ∧ IsLeast {b | b ∈ ready.bitrates ∧ current < b} next ∧
      ∃ speed, (ready.sampled p).averageSpeed? = some speed ∧
        (0 < speed → next ≤ (ready.sampled p).maxSpeed) := by
  intro ready
  have hready : ready.Sound := (hs.act down).run between
  have hconfig : ready.config = s.config := (run_config _ between).trans (s.act_config down)
  obtain ⟨hhistory, hswitching, hcooldown⟩ := switched_selector hs lowered
  have hkept := undisturbed_run (hs.act down) kept quiet
  have hdown : ready.wentDown := by
    rw [wentDown, hkept.history, hhistory]
    rfl
  obtain ⟨now, p, confirmed, current, next, hsample, hconfirmed, hwaited, htrend, hcurrent, hnext,
    hspeed⟩ := hready.raised_of_wentDown (hconfig.symm ▸ window) hdown raised
  have hnewest : Action.newestConfirmation? between = some confirmed :=
    (hkept.confirmed_of_idle hswitching (not_switching_of_switched? raised)).trans hconfirmed
  rw [hkept.upCooldown, hcooldown] at hwaited
  rw [hconfig] at htrend
  exact ⟨now, p, confirmed, current, next, hsample, hnewest, hwaited, htrend, hcurrent, hnext,
    hspeed⟩

/-! ## A rise behind a fall -/

/-- After a switch down and until the selector is reset, the next switch, if it is up, is made on a
sample at a time when the cooldown has passed since the newest confirmation, with a trend window
that is full of rises, and with a speed that reaches the next higher bitrate, unless the mean of the
speeds is zero. -/
theorem up_after_down {config : BitrateConfig} (reportsStatus : Bool)
    (window : 1 ≤ config.trendWindow ∧ config.trendWindow < 2 ^ 31)
    {before between : List Action} {down up : Action}
    (lowered : ((ofConfig config reportsStatus).run before).switched? down = some false)
    (kept : ∀ a ∈ between, a.forgets = false)
    (quiet : ((ofConfig config reportsStatus).run (before ++ [down])).switches between = [])
    (raised : ((ofConfig config reportsStatus).run (before ++ down :: between)).switched? up =
      some true) :
    let s := (ofConfig config reportsStatus).run (before ++ down :: between)
    ∃ now p confirmed current next, up.sample? = some (now, p) ∧
      Action.newestConfirmation? between = some confirmed ∧
      config.cooldownAfterDown ≤ (now - confirmed).toNat ∧
      (s.sampled p).trend.items = List.replicate config.trendWindow 1 ∧
      s.current = some current ∧ IsLeast {b | b ∈ s.bitrates ∧ current < b} next ∧
      ∃ speed, (s.sampled p).averageSpeed? = some speed ∧
        (0 < speed → next ≤ (s.sampled p).maxSpeed) := by
  have hbefore := (sound_ofConfig config reportsStatus).run before
  have hconfig : ((ofConfig config reportsStatus).run before).config = config := run_config _ before
  rw [run_append, run_cons, run_nil] at quiet
  rw [run_append, run_cons] at raised ⊢
  have h := hbefore.raised_after (by rwa [hconfig]) lowered kept quiet raised
  rwa [hconfig] at h

/-- With a full buffer at every sample it is the cooldown of a minute that the selector waits for. -/
theorem up_after_down_of_full_buffer :
    let full : Playback := { buffer := 59500, maxBuffer := 60000, speed := 5000000 }
    let before : List Action := [.addStream 0 1000000, .addStream 1 2000000, .addStream 2 4000000,
      .setDuration 600000, .attach, .setCurrent 0 4000000, .tick 0 { full with buffer := 20000 }]
    let down : Action := .tick 0 { full with buffer := 80 }
    let between : List Action := .setCurrent 1000 2000000 :: .tick 1000 full ::
      List.replicate 10 (.tick 31000 full)
    let up : Action := .tick 62000 full
    let s := (ofConfig {} true).run (before ++ down :: between)
    ∃ now p confirmed current next, up.sample? = some (now, p) ∧
      Action.newestConfirmation? between = some confirmed ∧
      60000 ≤ (now - confirmed).toNat ∧ (s.sampled p).trend.items = List.replicate 10 1 ∧
      s.current = some current ∧ IsLeast {b | b ∈ s.bitrates ∧ current < b} next ∧
      ∃ speed, (s.sampled p).averageSpeed? = some speed ∧
        (0 < speed → next ≤ (s.sampled p).maxSpeed) := by
  dsimp only
  exact @up_after_down {} true (by decide) _ _ _ _ (by decide +kernel) (by decide)
    (by decide +kernel) (by decide +kernel)

end AdaptiveHls.Selector
