import AdaptiveHls.Bitrate.Selector
import AdaptiveHls.Proofs.Bitrate.Trend
import Mathlib.Order.Nat
import Mathlib.Tactic.Tauto

/-!
# Runs of a selector

The owner of a selector may do anything to it, in any order. What one operation can do is said once:
only a sample of playback commits a switch, in one way down and one way up, and without a switch
only a reset touches what the newest one has left. What a whole run keeps follows by induction on
the run.
-/

namespace AdaptiveHls

namespace Selector

/-- What the owner of a selector may do, and when if that matters. -/
inductive Action where
  | addStream (index : Int) (bitrate : Nat)
  | setCurrent (now : Int) (bitrate : Nat)
  | setDuration (duration : Nat)
  | attach
  | tick (now : Int) (p : Playback)
  | process (now : Int) (p : Playback)
  | reset
  | clear
  deriving DecidableEq, Repr

def act (s : Selector) : Action → List SwitchEvent × Selector
  | .addStream index bitrate => ([], s.addStream index bitrate)
  | .setCurrent now bitrate => s.setCurrent now bitrate
  | .setDuration duration => ([], s.setDuration duration)
  | .attach => ([], s.attach)
  | .tick now p => s.tick now p
  | .process now p => s.process now p
  | .reset => ([], s.reset)
  | .clear => ([], s.clear)

def run (s : Selector) (actions : List Action) : Selector :=
  actions.foldl (fun s a => (s.act a).2) s

/-- The direction of the switch that an operation commits; true is to a higher bitrate. -/
def switched? (s : Selector) (a : Action) : Option Bool :=
  let after := (s.act a).2
  if !s.switching && after.switching then
    some (decide (s.current.getD 0 < after.current.getD 0))
  else none

def switches (s : Selector) : List Action → List Bool
  | [] => []
  | a :: rest => (s.switched? a).toList ++ (s.act a).2.switches rest

namespace Action

def sample? : Action → Option (Int × Playback)
  | .tick now p | .process now p => some (now, p)
  | _ => none

def confirms? : Action → Option Int
  | .setCurrent now _ => some now
  | _ => none

def forgets : Action → Bool
  | .reset | .clear => true
  | _ => false

def newestConfirmation? (actions : List Action) : Option Int :=
  (actions.filterMap confirms?).getLast?

theorem newestConfirmation?_cons (a : Action) (rest : List Action) :
    newestConfirmation? (a :: rest) = (newestConfirmation? rest).or a.confirms? := by
  rw [newestConfirmation?, newestConfirmation?, List.filterMap_cons]
  cases a.confirms? with
  | none => simp
  | some now => rw [List.getLast?_cons]; cases (rest.filterMap confirms?).getLast? <;> rfl

end Action

variable {s s' s'' : Selector} {a : Action} {p : Playback}

@[simp] theorem run_nil (s : Selector) : s.run [] = s := rfl

@[simp] theorem run_cons (s : Selector) (a : Action) (rest : List Action) :
    s.run (a :: rest) = (s.act a).2.run rest := rfl

theorem run_append (s : Selector) (actions more : List Action) :
    s.run (actions ++ more) = (s.run actions).run more := List.foldl_append

/-! ## Single operations -/

@[simp] theorem setStatus_selector (s : Selector) (status : SwitchStatus) (force : Bool) :
    (s.setStatus status force).2 = { s with status } := by
  rw [setStatus]
  split
  · next h => cases s; simp_all
  · rfl

theorem setStatus_events (s : Selector) (status : SwitchStatus) (force : Bool) :
    (s.setStatus status force).1 =
      if (!force && s.status = status) || !s.reportsStatus then [] else [.status status] := by
  rw [setStatus]
  cases !force && decide (s.status = status) <;> cases s.reportsStatus <;> rfl

/-- After a confirmation no switch is in flight, and the next sample has none to be compared
with. -/
theorem setCurrent_selector (s : Selector) (now : Int) (bitrate : Nat) :
    (s.setCurrent now bitrate).2 =
      { s with
        current := some bitrate
        confirmed := some now
        lastBuffer := none
        switching := false
        status := if s.switching then .idle else s.status } := by
  cases hs : s.switching <;> simp [setCurrent, hs]

@[simp] theorem commit_selector (s : Selector) (source target : Nat) (up : Bool) :
    (s.commit source target up).2 =
      { s with
        previous := some source
        current := some target
        switching := true
        trend := s.trend.clear
        history := s.history.push up
        upCooldown := if up then s.config.cooldownAfterUp else s.config.cooldownAfterDown
        status := .switching } := by
  simp only [commit, setStatus_selector]

/-- The selector that a tick decides on. -/
def sampled (s : Selector) (p : Playback) : Selector :=
  let noted := { s with lastBuffer := some p.buffer }
  match s.lastBuffer with
  | none => noted
  | some lastBuffer => noted.sample p lastBuffer

/-- A sample changes no more than the samples. -/
theorem sampled_eq (s : Selector) (p : Playback) :
    ∃ speeds trend, (trend = s.trend ∨ ∃ a, (a = 1 ∨ a = -1) ∧ trend = s.trend.push a) ∧
      s.sampled p = { s with lastBuffer := some p.buffer, speeds, trend } := by
  rw [sampled]
  cases s.lastBuffer with
  | none => exact ⟨s.speeds, s.trend, .inl rfl, rfl⟩
  | some lastBuffer =>
    refine ⟨_, _, .inr ⟨_, ?_, rfl⟩, rfl⟩
    split <;> simp

@[simp] theorem sampled_config (s : Selector) (p : Playback) :
    (s.sampled p).config = s.config := by
  rw [sampled]; cases s.lastBuffer <;> rfl

@[simp] theorem sampled_streams (s : Selector) (p : Playback) :
    (s.sampled p).streams = s.streams := by
  rw [sampled]; cases s.lastBuffer <;> rfl

@[simp] theorem sampled_bitrates (s : Selector) (p : Playback) :
    (s.sampled p).bitrates = s.bitrates := by
  rw [bitrates, sampled_streams, bitrates]

@[simp] theorem sampled_current (s : Selector) (p : Playback) :
    (s.sampled p).current = s.current := by
  rw [sampled]; cases s.lastBuffer <;> rfl

@[simp] theorem sampled_history (s : Selector) (p : Playback) :
    (s.sampled p).history = s.history := by
  rw [sampled]; cases s.lastBuffer <;> rfl

@[simp] theorem sampled_upCooldown (s : Selector) (p : Playback) :
    (s.sampled p).upCooldown = s.upCooldown := by
  rw [sampled]; cases s.lastBuffer <;> rfl

/-- At most one speed is taken up, at the newest end. -/
theorem sampled_speeds (s : Selector) (p : Playback) :
    (s.sampled p).speeds = s.speeds ∨ (s.sampled p).speeds = s.speeds.push p.speed := by
  rw [sampled]
  cases s.lastBuffer with
  | none => exact .inl rfl
  | some lastBuffer =>
    simp only [sample]
    split
    · exact .inl rfl
    · exact .inr rfl

/-- When no more can be buffered, only rebuffering lets the trend fall. -/
theorem sampled_of_isFull (compared : s.lastBuffer.isSome) (full : s.isFull p = true) :
    s.sampled p =
      { s with
        lastBuffer := some p.buffer
        trend := s.trend.push (if p.rebuffering then -1 else 1) } := by
  obtain ⟨lastBuffer, hlast⟩ := Option.isSome_iff_exists.1 compared
  have hfull : ({ s with lastBuffer := some p.buffer } : Selector).isFull p = true := full
  simp only [sampled, hlast, sample, hfull]
  cases p.rebuffering <;> rfl

/-- A playback that can not be buffered any further, so that only rebuffering makes a fall of it. -/
def brimful (buffer : Nat) (rebuffering : Bool) : Playback :=
  { buffer, maxBuffer := buffer, rebuffering }

def sign (rebuffering : Bool) : Int := if rebuffering then -1 else 1

theorem isFull_brimful (s : Selector) {buffer : Nat} (positive : 0 < buffer) (rebuffering : Bool) :
    s.isFull (brimful buffer rebuffering) = true := by
  simp [isFull, brimful]
  omega

theorem sampled_brimful (compared : s.lastBuffer.isSome) {buffer : Nat} (positive : 0 < buffer)
    (rebuffering : Bool) :
    s.sampled (brimful buffer rebuffering) =
      { s with lastBuffer := some buffer, trend := s.trend.push (sign rebuffering) } :=
  sampled_of_isFull compared (isFull_brimful s positive rebuffering)

/-! ## What a switch takes -/

/-- A trend of this sum asks for a switch in a direction. -/
def Asks (s : Selector) (up : Bool) (sum : Int) : Prop :=
  if up then ∃ bound, s.riseBound? = some bound ∧ bound ≤ sum
  else ∃ bound, s.fallBound? = some bound ∧ sum ≤ bound

/-- The bound for a switch up is two less than the size of the window, unless that overflows. -/
theorem asks_up {sum : Int} :
    s.Asks true sum ↔ Window.wrap32 s.config.trendWindow - 2 ≤ sum ∧
      -0x80000000 ≤ Window.wrap32 s.config.trendWindow - 2 := by
  have hbounds := Window.wrap32_bounds s.config.trendWindow
  rw [Asks, if_pos rfl, riseBound?]
  simp only [Window.checked32_eq_some]
  constructor
  · rintro ⟨bound, ⟨rfl, hlow, -⟩, hle⟩
    exact ⟨hle, hlow⟩
  · rintro ⟨hle, hlow⟩
    exact ⟨_, ⟨rfl, hlow, by omega⟩, hle⟩

/-- The bound for a switch down is that number with the other sign. -/
theorem asks_down {sum : Int} :
    s.Asks false sum ↔ sum ≤ 2 - Window.wrap32 s.config.trendWindow ∧
      2 - Window.wrap32 s.config.trendWindow < 0x80000000 := by
  have hbounds := Window.wrap32_bounds s.config.trendWindow
  rw [Asks, if_neg Bool.false_ne_true, fallBound?, riseBound?]
  simp only [Option.bind_eq_some_iff, Window.checked32_eq_some]
  constructor
  · rintro ⟨bound, ⟨margin, ⟨rfl, -⟩, rfl, -, hhigh⟩, hle⟩
    omega
  · rintro ⟨hle, hhigh⟩
    exact ⟨_, ⟨_, ⟨rfl, by omega, by omega⟩, rfl, by omega, by omega⟩, by omega⟩

/-- It is the configuration that says so. -/
theorem asks_of_config {t : Selector} {up : Bool} {sum : Int} (h : t.config = s.config) :
    t.Asks up sum ↔ s.Asks up sum := by
  cases up with
  | true => rw [asks_up, asks_up, h]
  | false => rw [asks_down, asks_down, h]

/-- The buffer asks for a switch down, or it lets the trend decide and the trend does. -/
def AsksDown (s : Selector) (p : Playback) (sum : Int) : Prop :=
  p.buffer ≤ s.config.starvationBuffer ∨ p.buffer < s.config.lowerBuffer ∧ s.Asks false sum

/-- The buffer lets the trend decide on a switch up, and the trend asks for it. -/
def AsksUp (s : Selector) (p : Playback) (sum : Int) : Prop :=
  (s.config.upperBuffer ≤ p.buffer ∨ s.isFull p = true) ∧ s.Asks true sum

theorem falls?_eq_true {sum : Int} : s.falls? p sum = some true ↔ s.AsksDown p sum := by
  rw [falls?, AsksDown, Asks]
  by_cases hstarving : p.buffer ≤ s.config.starvationBuffer
  · simp [hstarving]
  · by_cases hlower : p.buffer < s.config.lowerBuffer <;> simp [hstarving, hlower]

theorem rises?_eq_true {sum : Int} : s.rises? p sum = some true ↔ s.AsksUp p sum := by
  rw [rises?, AsksUp, Asks]
  by_cases hhigh : s.config.upperBuffer ≤ p.buffer ∨ s.isFull p = true <;> simp [hhigh]

/-- What a selector may do on a sample, some time after its bitrate was confirmed, and the direction
of the switch that it commits by that. -/
inductive Response (s : Selector) (p : Playback) (sinceConfirmed : Nat) :
    Option Bool → List SwitchEvent × Selector → Prop
  | stay : Response s p sinceConfirmed none ([], s)
  | overflow : Response s p sinceConfirmed none s.breakOff
  | limit {status : SwitchStatus} (atEnd : status = .lowestAlready ∨ status = .highestAlready) :
    Response s p sinceConfirmed none (s.setStatus status false)
  | fall {sum : Int} {speed lowest current : Nat} {rest above : List Nat}
    (present : s.current = some current)
    (ladder : s.bitrates = lowest :: rest ++ current :: above)
    (counted : s.trend.sum? = some sum) (averaged : s.averageSpeed? = some speed)
    (asked : s.AsksDown p sum) :
    Response s p sinceConfirmed (some false)
      (s.commit current (downTarget speed (0 < s.maxSpeed) lowest (lowest :: rest)) false)
  | rise {sum : Int} {speed current next : Nat} {below others : List Nat}
    (present : s.current = some current)
    (ladder : s.bitrates = below ++ current :: next :: others)
    (counted : s.trend.sum? = some sum) (averaged : s.averageSpeed? = some speed)
    (asked : s.AsksUp p sum)
    (patient : s.wentDown → s.upCooldown ≤ sinceConfirmed ∧
      Window.wrap32 s.config.trendWindow ≤ sum)
    (fast : s.wentDown → 0 < speed → next ≤ s.maxSpeed) :
    Response s p sinceConfirmed (some true) (s.commit current (upTarget speed next others) true)

theorem eq_append_of_idxOf? {items : List Nat} {b position : Nat}
    (h : items.idxOf? b = some position) :
    items = items.take position ++ b :: items.drop (position + 1) := by
  obtain ⟨hlt, hb, -⟩ := List.findIdx?_eq_some_iff_getElem.1 h
  rw [← eq_of_beq hb, ← List.drop_eq_getElem_cons hlt, List.take_append_drop]

/-- A search downwards, where the trend or the buffer asks for it, is one of the responses. -/
theorem switchBitrate_down {sinceConfirmed : Nat} {sum : Int} (counted : s.trend.sum? = some sum)
    (asked : s.AsksDown p sum) :
    ∃ up?, s.Response p sinceConfirmed up? (s.switchBitrate false) := by
  unfold switchBitrate
  split
  · exact ⟨none, .stay⟩
  · next current hcurrent =>
    split
    · exact ⟨none, .stay⟩
    · next position hposition =>
      have hladder := eq_append_of_idxOf? hposition
      split
      · exact ⟨none, .overflow⟩
      · next speed haveraged =>
        rw [if_neg Bool.false_ne_true]
        split
        · exact ⟨none, .limit (.inl rfl)⟩
        · next lowest rest hbelow =>
          exact ⟨some false, .fall hcurrent (hbelow ▸ hladder) counted haveraged asked⟩

/-- A search upwards, where the trend asks for it and no cooldown is in the way, is one of the
responses. -/
theorem switchBitrate_up {sinceConfirmed : Nat} {sum : Int} (counted : s.trend.sum? = some sum)
    (asked : s.AsksUp p sum)
    (patient : s.wentDown → s.upCooldown ≤ sinceConfirmed ∧
      Window.wrap32 s.config.trendWindow ≤ sum) :
    ∃ up?, s.Response p sinceConfirmed up? (s.switchBitrate true) := by
  unfold switchBitrate
  split
  · exact ⟨none, .stay⟩
  · next current hcurrent =>
    split
    · exact ⟨none, .stay⟩
    · next position hposition =>
      have hladder := eq_append_of_idxOf? hposition
      split
      · exact ⟨none, .overflow⟩
      · next speed haveraged =>
        rw [if_pos rfl]
        split
        · exact ⟨none, .limit (.inr rfl)⟩
        · next next others habove =>
          split
          · exact ⟨none, .stay⟩
          · next hfast =>
            refine ⟨some true, .rise hcurrent (habove ▸ hladder) counted haveraged asked patient ?_⟩
            intro hdown hspeed
            simpa [hdown, hspeed] using hfast

/-- All that a selector does on a sample is one of the responses. -/
theorem respond_response (s : Selector) (p : Playback) (sinceConfirmed : Nat) :
    ∃ up?, s.Response p sinceConfirmed up? (s.respond p sinceConfirmed) := by
  unfold respond
  split
  · exact ⟨none, .overflow⟩
  · next sum hcounted =>
    split
    · exact ⟨none, .overflow⟩
    · next hdown => exact switchBitrate_down hcounted (falls?_eq_true.1 hdown)
    · split
      · exact ⟨none, .overflow⟩
      · exact ⟨none, .stay⟩
      · next hup =>
        split
        · exact ⟨none, .stay⟩
        · next hpatient =>
          refine switchBitrate_up hcounted (rises?_eq_true.1 hup) fun hdown => ?_
          simpa [hdown] using hpatient

theorem respond_of_asksDown {sum : Int} (counted : s.trend.sum? = some sum)
    (asked : s.AsksDown p sum) (sinceConfirmed : Nat) :
    s.respond p sinceConfirmed = s.switchBitrate false := by
  simp only [respond, counted, falls?_eq_true.2 asked]

theorem respond_of_quiet {sum : Int} (counted : s.trend.sum? = some sum)
    (stays : s.falls? p sum = some false) (quiet : s.rises? p sum = some false)
    (sinceConfirmed : Nat) : s.respond p sinceConfirmed = ([], s) := by
  simp only [respond, counted, stays, quiet]

/-- Unless it has come down, a selector that the trend asks to go up does not wait. -/
theorem respond_of_asksUp {sum : Int} (counted : s.trend.sum? = some sum)
    (stays : s.falls? p sum = some false) (asked : s.AsksUp p sum) (fresh : s.wentDown = false)
    (sinceConfirmed : Nat) : s.respond p sinceConfirmed = s.switchBitrate true := by
  simp [respond, counted, stays, rises?_eq_true.2 asked, fresh]

theorem averageSpeed?_congr {t : Selector} (h : t.speeds = s.speeds) :
    t.averageSpeed? = s.averageSpeed? := by
  simp only [averageSpeed?, h]

theorem averageSpeed?_of_no_speeds (h : s.speeds.items = []) : s.averageSpeed? = some 0 := by
  simp [averageSpeed?, h]

/-- Without a mean of the speeds no bitrate is looked for. -/
theorem switchBitrate_overflow {current position : Nat} (present : s.current = some current)
    (index : s.bitrates.idxOf? current = some position) (averaged : s.averageSpeed? = none)
    (up : Bool) : s.switchBitrate up = s.breakOff := by
  simp [switchBitrate, present, index, averaged]

/-! ## Samples -/

theorem Response.speeds {sinceConfirmed : Nat} {up? : Option Bool}
    {result : List SwitchEvent × Selector} (h : s.Response p sinceConfirmed up? result) :
    result.2.speeds = s.speeds := by
  cases h with
  | stay | overflow => rfl
  | limit => rw [setStatus_selector]
  | fall | rise => rw [commit_selector]

/-- A tick does nothing, or it takes a sample, and it decides only with a buffer to compare. -/
theorem tick_cases (s : Selector) (now : Int) (p : Playback) :
    s.tick now p = ([], s) ∨ s.tick now p = ([], s.sampled p) ∨
      ∃ confirmed up?, s.switching = false ∧ s.confirmed = some confirmed ∧
        (s.sampled p).Response p (elapsed confirmed now) up? (s.tick now p) := by
  unfold tick
  split
  · exact .inl rfl
  · next hready =>
    have hready : s.switching = false := by simp_all
    split
    · exact .inl rfl
    · next confirmed hconfirmed =>
      dsimp only
      split
      · next hnone => exact .inr (.inl (by rw [sampled, hnone]))
      · next lastBuffer hsome =>
        obtain ⟨up?, h⟩ := (s.sampled p).respond_response p (elapsed confirmed now)
        refine .inr (.inr ⟨confirmed, up?, hready, hconfirmed, ?_⟩)
        simpa only [sampled, hsome] using h

/-- An operation that takes a sample is a tick, or it does nothing. -/
theorem act_sample_cases {now : Int} (h : a.sample? = some (now, p)) :
    s.act a = ([], s) ∨ s.act a = ([], s.sampled p) ∨
      ∃ confirmed up?, s.switching = false ∧ s.confirmed = some confirmed ∧
        (s.sampled p).Response p (elapsed confirmed now) up? (s.act a) := by
  cases a with
  | tick now' p' =>
    obtain ⟨rfl, rfl⟩ : now' = now ∧ p' = p := by simpa [Action.sample?] using h
    exact s.tick_cases now' p'
  | process now' p' =>
    obtain ⟨rfl, rfl⟩ : now' = now ∧ p' = p := by simpa [Action.sample?] using h
    simp only [act, process]
    split
    · exact .inl rfl
    · exact s.tick_cases now' p'
  | _ => simp [Action.sample?] at h

/-- A selector that is asked for nothing but a decision: no switch is in flight, there is somebody to
ask and there are bitrates to choose from, and the present one has been confirmed. -/
structure Ready (s : Selector) (confirmed : Int) : Prop where
  idle : s.switching = false
  attached : s.attached = true
  choice : 2 ≤ s.streams.length
  confirmed : s.confirmed = some confirmed

theorem Ready.sampled {confirmed : Int} (h : s.Ready confirmed) (p : Playback) :
    (s.sampled p).Ready confirmed := by
  obtain ⟨_, _, _, hs⟩ := s.sampled_eq p
  rw [hs]
  exact ⟨h.idle, h.attached, h.choice, h.confirmed⟩

/-- With a bitrate confirmed, a tick decides at once. The first sample has nothing to be compared
with. -/
theorem Ready.tick_eq {confirmed : Int} (h : s.Ready confirmed) (underway : p.completed = false)
    (now : Int) :
    s.tick now p = if s.lastBuffer.isSome then (s.sampled p).respond p (elapsed confirmed now)
      else ([], s.sampled p) := by
  have hchoice : ¬ s.streams.length < 2 := Nat.not_lt_of_le h.choice
  have hready : (s.switching || decide (s.streams.length < 2) || !s.attached || p.completed) =
      false := by
    rw [h.idle, decide_eq_false hchoice, h.attached, underway]
    rfl
  simp only [tick, hready, Bool.false_eq_true, if_false, h.confirmed, Selector.sampled]
  cases s.lastBuffer <;> rfl

/-! ## What holds of every selector -/

/-- The streams stand by rising bitrate, and the trend is one, of the size that was asked for. -/
structure Sound (s : Selector) : Prop where
  ascending : s.bitrates.Pairwise (· < ·)
  trend : s.trend.IsTrend
  capacity : s.trend.capacity = max s.config.trendWindow 1

/-- The bitrates of the streams with one more are those of before and its own. -/
theorem mem_insertStream {new : Stream} {streams : List Stream} {b : Nat} :
    b ∈ (insertStream new streams).map (·.bitrate) ↔
      b = new.bitrate ∨ b ∈ streams.map (·.bitrate) := by
  induction streams with
  | nil => simp [insertStream]
  | cons first rest ih =>
    rw [insertStream]
    split
    · simp
    · split
      · next heq => simp [heq]
      · simp only [List.map_cons, List.mem_cons, ih]
        tauto

/-- A stream is put in its place, so the bitrates go on rising. -/
theorem insertStream_ascending (new : Stream) {streams : List Stream}
    (h : (streams.map (·.bitrate)).Pairwise (· < ·)) :
    ((insertStream new streams).map (·.bitrate)).Pairwise (· < ·) := by
  induction streams with
  | nil => simp [insertStream]
  | cons first rest ih =>
    obtain ⟨hfirst, hrest⟩ := List.pairwise_cons.1 h
    rw [insertStream]
    split
    · next hlt =>
      refine List.pairwise_cons.2 ⟨fun b hb => ?_, h⟩
      rcases List.mem_cons.1 hb with rfl | hb
      · exact hlt
      · exact hlt.trans (hfirst b hb)
    · next hge =>
      split
      · next heq =>
        refine List.pairwise_cons.2 ⟨fun b hb => ?_, hrest⟩
        exact heq.trans_lt (hfirst b hb)
      · next hne =>
        refine List.pairwise_cons.2 ⟨fun b hb => ?_, ih hrest⟩
        rcases mem_insertStream.1 hb with rfl | hb
        · exact lt_of_le_of_ne (not_lt.1 hge) (Ne.symm hne)
        · exact hfirst b hb

theorem sound_ofConfig (config : BitrateConfig) (reportsStatus : Bool) :
    (ofConfig config reportsStatus).Sound :=
  ⟨.nil, Window.isTrend_ofCapacity _, rfl⟩

theorem Sound.sampled (h : s.Sound) (p : Playback) : (s.sampled p).Sound := by
  obtain ⟨speeds, trend, htrend, hs⟩ := s.sampled_eq p
  rw [hs]
  rcases htrend with rfl | ⟨a, ha, rfl⟩
  · exact ⟨h.ascending, h.trend, h.capacity⟩
  · exact ⟨h.ascending, h.trend.push ha, h.capacity⟩

/-- A response leaves the ladder and the trend as they are to be. -/
theorem Sound.response {sinceConfirmed : Nat} {up? : Option Bool}
    {result : List SwitchEvent × Selector} (h : s.Sound)
    (hresponse : s.Response p sinceConfirmed up? result) : result.2.Sound := by
  cases hresponse with
  | stay | overflow => exact h
  | limit =>
    rw [setStatus_selector]
    exact ⟨h.ascending, h.trend, h.capacity⟩
  | fall | rise =>
    rw [commit_selector]
    exact ⟨h.ascending, h.trend.clear, h.capacity⟩

/-- What a sample leaves as it is. -/
structure Keeps (s s' : Selector) : Prop where
  config : s'.config = s.config
  reportsStatus : s'.reportsStatus = s.reportsStatus
  attached : s'.attached = s.attached
  streams : s'.streams = s.streams
  duration : s'.duration = s.duration
  confirmed : s'.confirmed = s.confirmed
  trend : s'.trend.capacity = s.trend.capacity
  speeds : s'.speeds.capacity = s.speeds.capacity
  history : s'.history.capacity = s.history.capacity

theorem Keeps.refl (s : Selector) : s.Keeps s := ⟨rfl, rfl, rfl, rfl, rfl, rfl, rfl, rfl, rfl⟩

/-- A sample changes no more than the samples. -/
theorem sampled_keeps (s : Selector) (p : Playback) : s.Keeps (s.sampled p) := by
  rw [sampled]
  cases s.lastBuffer with
  | none => exact { Keeps.refl s with }
  | some lastBuffer =>
    have hspeeds : (s.sample p lastBuffer).speeds.capacity = s.speeds.capacity := by
      simp only [sample]
      split <;> rfl
    exact { Keeps.refl s with speeds := hspeeds }

theorem Keeps.response {sinceConfirmed : Nat} {up? : Option Bool}
    {result : List SwitchEvent × Selector} (h : s.Keeps s')
    (hresponse : s'.Response p sinceConfirmed up? result) : s.Keeps result.2 := by
  cases hresponse with
  | stay | overflow => exact h
  | limit =>
    rw [setStatus_selector]
    exact { h with }
  | fall | rise =>
    rw [commit_selector]
    exact { h with }

theorem keeps_act (h : a.sample?.isSome) : s.Keeps (s.act a).2 := by
  obtain ⟨sample, hsample⟩ := Option.isSome_iff_exists.1 h
  rcases act_sample_cases (s := s) hsample with hsame | htaken | ⟨_, _, _, _, hresponse⟩
  · rw [hsame]
    exact .refl s
  · rw [htaken]
    exact s.sampled_keeps sample.2
  · exact (s.sampled_keeps sample.2).response hresponse

theorem act_config (s : Selector) (a : Action) : (s.act a).2.config = s.config := by
  cases a with
  | setCurrent now bitrate => rw [act, setCurrent_selector]
  | tick now p => exact (keeps_act (a := .tick now p) rfl).config
  | process now p => exact (keeps_act (a := .process now p) rfl).config
  | _ => rfl

/-- Only a registration or a clearance changes the streams. -/
theorem act_streams (s : Selector) (a : Action) :
    (s.act a).2.streams = match a with
      | .addStream index bitrate => insertStream ⟨bitrate, index⟩ s.streams
      | .clear => []
      | _ => s.streams := by
  cases a with
  | setCurrent now bitrate => rw [act, setCurrent_selector]
  | tick now p => exact (keeps_act (a := .tick now p) rfl).streams
  | process now p => exact (keeps_act (a := .process now p) rfl).streams
  | _ => rfl

/-- Only an attachment changes whether there is somebody to ask. -/
theorem act_attached (s : Selector) (a : Action) :
    (s.act a).2.attached = match a with
      | .attach => true
      | _ => s.attached := by
  cases a with
  | setCurrent now bitrate => rw [act, setCurrent_selector]
  | tick now p => exact (keeps_act (a := .tick now p) rfl).attached
  | process now p => exact (keeps_act (a := .process now p) rfl).attached
  | _ => rfl

/-- No operation breaks the ladder or the trend. -/
theorem Sound.act (h : s.Sound) (a : Action) : (s.act a).2.Sound := by
  cases hsample : a.sample? with
  | some sample =>
    rcases act_sample_cases (s := s) hsample with hsame | hsampled | ⟨_, _, _, _, hresponse⟩
    · rwa [hsame]
    · rw [hsampled]
      exact h.sampled sample.2
    · exact (h.sampled sample.2).response hresponse
  | none =>
    cases a with
    | addStream index bitrate =>
      exact ⟨insertStream_ascending _ h.ascending, h.trend, h.capacity⟩
    | setCurrent now bitrate =>
      rw [Selector.act, setCurrent_selector]
      exact ⟨h.ascending, h.trend, h.capacity⟩
    | setDuration | attach => exact ⟨h.ascending, h.trend, h.capacity⟩
    | reset => exact ⟨h.ascending, h.trend.clear, h.capacity⟩
    | clear => exact ⟨.nil, h.trend.clear, h.capacity⟩
    | tick | process => simp [Action.sample?] at hsample

@[simp] theorem run_config (s : Selector) (actions : List Action) :
    (s.run actions).config = s.config := by
  induction actions generalizing s with
  | nil => rfl
  | cons a rest ih => rw [run_cons, ih, act_config]

theorem Sound.run (h : s.Sound) (actions : List Action) : (s.run actions).Sound := by
  induction actions generalizing s with
  | nil => exact h
  | cons a rest ih => exact ih (h.act a)

/-! ## Switches -/

/-- A selector goes up to a bitrate of its ladder. -/
theorem upTarget_mem (speed next : Nat) (others : List Nat) :
    upTarget speed next others ∈ next :: others := by
  rw [upTarget]
  induction others generalizing next with
  | nil => simp
  | cons b rest ih =>
    rw [List.foldl_cons]
    split
    · exact List.mem_cons_of_mem next (ih b)
    · exact List.mem_cons.2 ((List.mem_cons.1 (ih next)).imp id (List.mem_cons_of_mem b))

theorem downTarget_mem (speed : Nat) (anySpeed : Bool) (lowest : Nat) (rest : List Nat) :
    downTarget speed anySpeed lowest (lowest :: rest) ∈ lowest :: rest := by
  rw [downTarget]
  split
  · cases hfind : (lowest :: rest).reverse.find? (· ≤ speed) with
    | none => simp
    | some b => exact List.mem_reverse.1 (List.mem_of_find?_eq_some hfind)
  · exact List.mem_cons_self

theorem Response.stays {sinceConfirmed : Nat} {result : List SwitchEvent × Selector}
    (h : s.Response p sinceConfirmed none result) : ∃ status, result.2 = { s with status } := by
  cases h with
  | stay | overflow => exact ⟨s.status, rfl⟩
  | limit => exact ⟨_, s.setStatus_selector _ _⟩

/-- A switch goes to a registered bitrate, in the direction it is said to go in. -/
theorem Response.commits {sinceConfirmed : Nat} {up : Bool}
    {result : List SwitchEvent × Selector} (h : s.Response p sinceConfirmed (some up) result)
    (ascending : s.bitrates.Pairwise (· < ·)) :
    ∃ current target, s.current = some current ∧ target ∈ s.bitrates ∧ target ≠ current ∧
      decide (current < target) = up ∧ result = s.commit current target up := by
  cases h with
  | @fall _ speed lowest _ rest _ present ladder =>
    rw [ladder] at ascending
    have htarget := downTarget_mem speed (0 < s.maxSpeed) lowest rest
    have hlower := (List.pairwise_append.1 ascending).2.2 _ htarget _ List.mem_cons_self
    refine ⟨_, _, present, ?_, hlower.ne, decide_eq_false hlower.not_gt, rfl⟩
    rw [ladder]
    exact List.mem_append_left _ htarget
  | @rise _ speed _ next _ others present ladder =>
    rw [ladder] at ascending
    have habove := (List.pairwise_append.1 ascending).2.1
    have htarget := upTarget_mem speed next others
    have hhigher := (List.pairwise_cons.1 habove).1 _ htarget
    refine ⟨_, _, present, ?_, hhigher.ne', decide_eq_true hhigher, rfl⟩
    rw [ladder]
    exact List.mem_append_right _ (List.mem_cons_of_mem _ htarget)

/-- The direction of a response is that of the switch that the operation commits. -/
theorem switched?_of_response {up? : Option Bool} {sinceConfirmed : Nat} (hs : s.Sound)
    (ready : s.switching = false) (h : (s.sampled p).Response p sinceConfirmed up? (s.act a)) :
    s.switched? a = up? := by
  obtain ⟨_, _, _, hsampled⟩ := s.sampled_eq p
  cases up? with
  | none =>
    obtain ⟨status, hstays⟩ := h.stays
    rw [switched?, hstays, hsampled]
    simp [ready]
  | some up =>
    obtain ⟨current, target, hcurrent, -, -, hup, hcommit⟩ := h.commits (hs.sampled p).ascending
    have hpresent : s.current = some current := by rwa [hsampled] at hcurrent
    rw [switched?, hcommit, commit_selector]
    simpa [ready, hpresent] using hup

theorem switched?_of_no_sample (h : a.sample? = none) : s.switched? a = none := by
  cases a with
  | setCurrent now bitrate =>
    simp [switched?, act, setCurrent_selector]
  | tick | process => simp [Action.sample?] at h
  | reset | clear => simp [switched?, act, reset, Selector.clear]
  | _ => simp [switched?, act, addStream, setDuration, attach]

theorem not_switching_of_switched? {up : Bool} (h : s.switched? a = some up) :
    s.switching = false := by
  rw [switched?] at h
  cases hs : s.switching with
  | false => rfl
  | true => simp [hs] at h

/-- Only a sample commits a switch. -/
theorem committed {up : Bool} (hs : s.Sound) (h : s.switched? a = some up) :
    ∃ now p confirmed, a.sample? = some (now, p) ∧ s.confirmed = some confirmed ∧
      (s.sampled p).Response p (elapsed confirmed now) (some up) (s.act a) := by
  cases hsample : a.sample? with
  | none => simp [switched?_of_no_sample hsample] at h
  | some sample =>
    obtain ⟨now, p⟩ := sample
    obtain ⟨_, _, _, hsampled⟩ := s.sampled_eq p
    rcases act_sample_cases (s := s) hsample with
      hsame | htaken | ⟨confirmed, up?, hready, hconfirmed, hresponse⟩
    · simp [switched?, hsame] at h
    · simp [switched?, htaken, hsampled] at h
    · obtain rfl := (switched?_of_response hs hready hresponse).symm.trans h
      exact ⟨now, p, confirmed, rfl, hconfirmed, hresponse⟩

/-- A switch goes from the present bitrate to another one that is registered. -/
theorem switched_commit {up : Bool} (hs : s.Sound) (h : s.switched? a = some up) :
    ∃ p current target, s.current = some current ∧ target ∈ s.bitrates ∧ target ≠ current ∧
      s.act a = (s.sampled p).commit current target up := by
  obtain ⟨_, p, _, _, _, hresponse⟩ := committed hs h
  obtain ⟨current, target, hcurrent, htarget, hne, -, hcommit⟩ :=
    hresponse.commits (hs.sampled p).ascending
  rw [sampled_current] at hcurrent
  rw [sampled_bitrates] at htarget
  exact ⟨p, current, target, hcurrent, htarget, hne, hcommit⟩

/-- A switch is remembered, sets the cooldown and waits to be confirmed. -/
theorem switched_selector {up : Bool} (hs : s.Sound) (h : s.switched? a = some up) :
    (s.act a).2.history.last? = some up ∧ (s.act a).2.switching = true ∧
      (s.act a).2.upCooldown =
        if up then s.config.cooldownAfterUp else s.config.cooldownAfterDown := by
  obtain ⟨p, _, _, _, _, _, hcommit⟩ := switched_commit hs h
  obtain ⟨_, _, _, hsampled⟩ := s.sampled_eq p
  rw [hcommit, commit_selector, hsampled]
  exact ⟨Window.push_last? s.history up, rfl, rfl⟩

/-- What a selector keeps while it commits no switch and forgets none. The newest confirmation, if
there is one, is the one that counts. -/
structure Undisturbed (s : Selector) (confirmation : Option Int) (s' : Selector) : Prop where
  history : s'.history = s.history
  upCooldown : s'.upCooldown = s.upCooldown
  confirmed : s'.confirmed = confirmation.or s.confirmed
  switching : s'.switching = (s.switching && confirmation.isNone)

theorem Undisturbed.refl (s : Selector) : s.Undisturbed none s := ⟨rfl, rfl, rfl, by simp⟩

theorem Undisturbed.trans {first second : Option Int} (h : s.Undisturbed first s')
    (h' : s'.Undisturbed second s'') : s.Undisturbed (second.or first) s'' where
  history := h'.history.trans h.history
  upCooldown := h'.upCooldown.trans h.upCooldown
  confirmed := by rw [h'.confirmed, h.confirmed, Option.or_assoc]
  switching := by
    rw [h'.switching, h.switching]
    cases second <;> simp

/-- Once a switch is over, the newest confirmation is the one after it. -/
theorem Undisturbed.confirmed_of_idle {confirmation : Option Int}
    (h : s.Undisturbed confirmation s') (busy : s.switching = true) (idle : s'.switching = false) :
    confirmation = s'.confirmed := by
  rw [h.switching, busy, Bool.true_and] at idle
  obtain ⟨newest, rfl⟩ := Option.isSome_iff_exists.1 (Option.isNone_eq_false_iff.1 idle)
  exact h.confirmed.symm

/-- An operation that neither switches nor forgets leaves the selector where it is, and may confirm
the bitrate. -/
theorem undisturbed_act (hs : s.Sound) (kept : a.forgets = false) (h : s.switched? a = none) :
    s.Undisturbed a.confirms? (s.act a).2 := by
  cases hsample : a.sample? with
  | some sample =>
    obtain ⟨_, _, _, hsampled⟩ := s.sampled_eq sample.2
    have hconfirms : a.confirms? = none := by
      cases a <;> simp_all [Action.sample?, Action.confirms?]
    rw [hconfirms]
    rcases act_sample_cases (s := s) hsample with hsame | htaken | ⟨_, up?, hready, _, hresponse⟩
    · rw [hsame]
      exact .refl s
    · rw [htaken, hsampled]
      exact ⟨rfl, rfl, rfl, by simp⟩
    · obtain rfl := (switched?_of_response hs hready hresponse).symm.trans h
      obtain ⟨status, hstays⟩ := hresponse.stays
      rw [hstays, hsampled]
      exact ⟨rfl, rfl, rfl, by simp⟩
  | none =>
    cases a with
    | setCurrent now bitrate =>
      rw [act, setCurrent_selector]
      exact ⟨rfl, rfl, rfl, by simp [Action.confirms?]⟩
    | addStream | setDuration | attach => exact ⟨rfl, rfl, rfl, (Bool.and_true _).symm⟩
    | tick | process => simp [Action.sample?] at hsample
    | reset | clear => simp [Action.forgets] at kept

/-- So does a run, whose newest confirmation is the one that counts. -/
theorem undisturbed_run (hs : s.Sound) {actions : List Action}
    (kept : ∀ a ∈ actions, a.forgets = false) (h : s.switches actions = []) :
    s.Undisturbed (Action.newestConfirmation? actions) (s.run actions) := by
  induction actions generalizing s with
  | nil => exact .refl s
  | cons a rest ih =>
    obtain ⟨hfirst, hrest⟩ := List.append_eq_nil_iff.1 h
    have hstep := undisturbed_act hs (kept a (by simp)) (Option.toList_eq_nil_iff.1 hfirst)
    have htail := ih (hs.act a) (fun b hb => kept b (by simp [hb])) hrest
    rw [Action.newestConfirmation?_cons]
    exact hstep.trans htail

end Selector

end AdaptiveHls
