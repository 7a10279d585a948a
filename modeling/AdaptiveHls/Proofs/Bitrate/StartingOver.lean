import AdaptiveHls.Proofs.Bitrate.Runs
import Mathlib.Data.List.Nodup
import Mathlib.Data.List.Perm.Basic

/-!
# Starting over

A selector that is cleared is a new one: nothing is left of what it has seen. One that is reset
keeps, beside its streams, the bitrates of its newest switch. They are left over and not used: the
one that was left is only ever written, and the present one is read for a switch, which takes a
confirmation that sets it first. So the two runs go on in step, with selectors that differ in these
bitrates at most.
-/

namespace AdaptiveHls.Selector

variable {s t : Selector} {a : Action}

def registrations (s : Selector) : List Action :=
  s.streams.map fun c => .addStream c.index c.bitrate

/-- The operations that tell a selector of the content and of playback, as it has been told. -/
def surroundings (s : Selector) : List Action :=
  .setDuration s.duration :: if s.attached then [.attach] else []

/-- What the owner of a selector sees of it, and what it will be told next, are the same. -/
structure LooksLike (s t : Selector) : Prop where
  status : s.status = t.status
  switching : s.switching = t.switching
  bitrates : s.bitrates = t.bitrates
  events : ∀ a, (s.act a).1 = (t.act a).1

/-! ## The bitrate that was left -/

def withPrevious (s : Selector) (previous : Option Nat) : Selector := { s with previous }

/-- The second result differs in no more than the bitrate that was left. -/
def SameButPrevious (r r' : List SwitchEvent × Selector) : Prop :=
  r'.1 = r.1 ∧ ∃ previous, r'.2 = r.2.withPrevious previous

variable {previous : Option Nat}

namespace SameButPrevious

theorem refl (r : List SwitchEvent × Selector) : SameButPrevious r r := ⟨rfl, r.2.previous, rfl⟩

theorem quiet : SameButPrevious ([], s) ([], s.withPrevious previous) := ⟨rfl, previous, rfl⟩

theorem breakOff : SameButPrevious s.breakOff (s.withPrevious previous).breakOff :=
  ⟨rfl, previous, rfl⟩

/-- Two selectors that decide alike go the same way. -/
theorem ite {c c' : Prop} [Decidable c] [Decidable c'] {x x' y y' : List SwitchEvent × Selector}
    (h : c ↔ c') (hx : SameButPrevious x x') (hy : SameButPrevious y y') :
    SameButPrevious (if c then x else y) (if c' then x' else y') := by
  by_cases hc : c
  · rwa [if_pos hc, if_pos (h.1 hc)]
  · rwa [if_neg hc, if_neg (mt h.2 hc)]

theorem setStatus (status : SwitchStatus) (force : Bool) :
    SameButPrevious (s.setStatus status force)
      ((s.withPrevious previous).setStatus status force) := by
  refine ⟨?_, previous, ?_⟩
  · rw [setStatus_events, setStatus_events]
    rfl
  · rw [setStatus_selector, setStatus_selector]
    rfl

theorem commit (source target : Nat) (up : Bool) :
    SameButPrevious (s.commit source target up)
      ((s.withPrevious previous).commit source target up) :=
  refl (s.commit source target up)

/-- The bitrate that was left has no part in the search for another. -/
theorem switchBitrate (up : Bool) :
    SameButPrevious (s.switchBitrate up) ((s.withPrevious previous).switchBitrate up) := by
  have hcurrent : (s.withPrevious previous).current = s.current := rfl
  have hbitrates : (s.withPrevious previous).bitrates = s.bitrates := rfl
  have haverage : (s.withPrevious previous).averageSpeed? = s.averageSpeed? := rfl
  unfold Selector.switchBitrate
  rw [hcurrent, hbitrates, haverage]
  cases s.current with
  | none => exact quiet
  | some current =>
    dsimp only
    cases s.bitrates.idxOf? current with
    | none => exact quiet
    | some position =>
      dsimp only
      cases s.averageSpeed? with
      | none => exact breakOff
      | some speed =>
        refine ite Iff.rfl ?_ ?_
        · cases s.bitrates.drop (position + 1) with
          | nil => exact setStatus _ _
          | cons next others => exact ite Iff.rfl quiet (commit _ _ _)
        · cases s.bitrates.take position with
          | nil => exact setStatus _ _
          | cons lowest rest => exact commit _ _ _

/-- Nor has it a part in the decision to search. -/
theorem respond (p : Playback) (sinceConfirmed : Nat) :
    SameButPrevious (s.respond p sinceConfirmed)
      ((s.withPrevious previous).respond p sinceConfirmed) := by
  have htrend : (s.withPrevious previous).trend = s.trend := rfl
  have hfalls : (s.withPrevious previous).falls? p = s.falls? p := rfl
  have hrises : (s.withPrevious previous).rises? p = s.rises? p := rfl
  unfold Selector.respond
  rw [htrend, hfalls, hrises]
  cases s.trend.sum? with
  | none => exact breakOff
  | some sum =>
    dsimp only
    cases s.falls? p sum with
    | none => exact breakOff
    | some falls =>
      cases falls with
      | true => exact switchBitrate false
      | false =>
        dsimp only
        cases s.rises? p sum with
        | none => exact breakOff
        | some rises =>
          cases rises with
          | false => exact quiet
          | true => exact ite Iff.rfl quiet (switchBitrate true)

/-- Nor in a tick. -/
theorem tick (now : Int) (p : Playback) :
    SameButPrevious (s.tick now p) ((s.withPrevious previous).tick now p) := by
  have hconfirmed : (s.withPrevious previous).confirmed = s.confirmed := rfl
  have hlastBuffer : (s.withPrevious previous).lastBuffer = s.lastBuffer := rfl
  unfold Selector.tick
  rw [hconfirmed, hlastBuffer]
  refine ite Iff.rfl quiet ?_
  cases s.confirmed with
  | none => exact quiet
  | some confirmed =>
    dsimp only
    cases hlast : s.lastBuffer with
    | none => exact quiet
    | some lastBuffer => exact respond p _

theorem setCurrent (current : Option Nat) (now : Int) (bitrate : Nat) :
    SameButPrevious (s.setCurrent now bitrate)
      (({ s with current, previous }).setCurrent now bitrate) :=
  ite Iff.rfl (setStatus _ _) quiet

theorem act (a : Action) : SameButPrevious (s.act a) ((s.withPrevious previous).act a) := by
  cases a with
  | tick now p => exact tick now p
  | process now p => exact ite Iff.rfl quiet (tick now p)
  | setCurrent now bitrate => exact setCurrent s.current now bitrate
  | clear => exact refl _
  | _ => exact quiet

end SameButPrevious

/-! ## Runs in step -/

/-- The second selector differs in no more than the bitrate that was left, or the present bitrate
has not been confirmed and it differs in that too. -/
def Alike (s t : Selector) : Prop :=
  (∃ previous, t = s.withPrevious previous) ∨
    s.confirmed = none ∧ ∃ current previous, t = { s with current, previous }

theorem SameButPrevious.alike {r r' : List SwitchEvent × Selector} (h : SameButPrevious r r') :
    r'.1 = r.1 ∧ r.2.Alike r'.2 :=
  ⟨h.1, .inl h.2⟩

theorem tick_of_unconfirmed (h : s.confirmed = none) (now : Int) (p : Playback) :
    s.tick now p = ([], s) := by
  simp [tick, h]

theorem process_of_unconfirmed (h : s.confirmed = none) (now : Int) (p : Playback) :
    s.process now p = ([], s) := by
  simp [process, tick_of_unconfirmed h]

/-- Without a confirmation nothing is decided, so the present bitrate is not looked at. -/
theorem act_of_unconfirmed (h : s.confirmed = none) (current previous : Option Nat) (a : Action) :
    (({ s with current, previous }).act a).1 = (s.act a).1 ∧
      (s.act a).2.Alike (({ s with current, previous }).act a).2 := by
  have hstill : s.Alike { s with current, previous } := .inr ⟨h, current, previous, rfl⟩
  cases a with
  | tick now p =>
    rw [act, act, tick_of_unconfirmed h, tick_of_unconfirmed (by exact h)]
    exact ⟨rfl, hstill⟩
  | process now p =>
    rw [act, act, process_of_unconfirmed h, process_of_unconfirmed (by exact h)]
    exact ⟨rfl, hstill⟩
  | setCurrent now bitrate => exact (SameButPrevious.setCurrent current now bitrate).alike
  | clear => exact (SameButPrevious.refl _).alike
  | reset => exact ⟨rfl, .inr ⟨rfl, current, previous, rfl⟩⟩
  | _ => exact ⟨rfl, .inr ⟨h, current, previous, rfl⟩⟩

theorem Alike.act (h : s.Alike t) (a : Action) :
    (t.act a).1 = (s.act a).1 ∧ (s.act a).2.Alike (t.act a).2 := by
  rcases h with ⟨previous, rfl⟩ | ⟨h, current, previous, rfl⟩
  · exact (SameButPrevious.act a).alike
  · exact act_of_unconfirmed h current previous a

theorem Alike.run (h : s.Alike t) (actions : List Action) :
    (s.run actions).Alike (t.run actions) := by
  induction actions generalizing s t with
  | nil => exact h
  | cons a rest ih => exact ih (h.act a).2

theorem Alike.looksLike (h : s.Alike t) : t.LooksLike s := by
  have hevents : ∀ a, (t.act a).1 = (s.act a).1 := fun a => (h.act a).1
  rcases h with ⟨previous, rfl⟩ | ⟨-, current, previous, rfl⟩
  · exact ⟨rfl, rfl, rfl, hevents⟩
  · exact ⟨rfl, rfl, rfl, hevents⟩

/-! ## New selectors -/

variable (config : BitrateConfig) (reportsStatus : Bool)

/-- A new selector that has been told of streams, content and playback. -/
def furnished (s : Selector) : Selector :=
  { ofConfig config reportsStatus with
    streams := s.streams, duration := s.duration, attached := s.attached }

theorem insertStream_last {new : Stream} {streams : List Stream}
    (h : ∀ c ∈ streams, c.bitrate < new.bitrate) : insertStream new streams = streams ++ [new] := by
  induction streams with
  | nil => rfl
  | cons first rest ih =>
    have hfirst := h first List.mem_cons_self
    rw [insertStream, if_neg hfirst.not_gt, if_neg hfirst.ne',
      ih fun c hc => h c (List.mem_cons_of_mem _ hc), List.cons_append]

/-- Streams of different bitrates may be registered in any order. -/
theorem insertStream_comm {c d : Stream} (h : c.bitrate ≠ d.bitrate) (streams : List Stream) :
    insertStream c (insertStream d streams) = insertStream d (insertStream c streams) := by
  induction streams with
  | nil => grind [insertStream]
  | cons first rest ih => grind [insertStream]

/-- Streams that are registered in the order of their bitrates. -/
theorem run_addStreams (streams : List Stream)
    (h : ((s.streams ++ streams).map (·.bitrate)).Pairwise (· < ·)) :
    s.run (streams.map fun c => .addStream c.index c.bitrate) =
      { s with streams := s.streams ++ streams } := by
  induction streams generalizing s with
  | nil => rw [List.append_nil]; rfl
  | cons c rest ih =>
    have hlast : insertStream c s.streams = s.streams ++ [c] := by
      refine insertStream_last fun d hd => ?_
      rw [List.map_append] at h
      exact (List.pairwise_append.1 h).2.2 _ (List.mem_map_of_mem hd) _ (by simp)
    have hact : (s.act (.addStream c.index c.bitrate)).2 =
        { s with streams := s.streams ++ [c] } := by
      rw [← hlast]
      rfl
    rw [List.map_cons, run_cons, hact, ih (by simpa using h)]
    simp

theorem run_settings (hs : s.Sound) :
    (ofConfig config reportsStatus).run (s.registrations ++ s.surroundings) =
      s.furnished config reportsStatus := by
  rw [run_append, registrations, run_addStreams s.streams (by exact hs.ascending), surroundings]
  cases h : s.attached <;> simp [run, act, setDuration, attach, furnished, ofConfig, h]

/-- What a new selector is told may be told in any order. -/
theorem settings_comm (hs : s.Sound) : ∀ a ∈ s.registrations ++ s.surroundings,
    ∀ b ∈ s.registrations ++ s.surroundings, ∀ z : Selector,
      ((z.act a).2.act b).2 = ((z.act b).2.act a).2 := by
  have hmem : ∀ a ∈ s.registrations ++ s.surroundings,
      (∃ c ∈ s.streams, a = .addStream c.index c.bitrate) ∨ a = .setDuration s.duration ∨
        a = .attach := by
    intro a ha
    rcases List.mem_append.1 ha with ha | ha
    · obtain ⟨c, hc, rfl⟩ := List.mem_map.1 ha
      exact .inl ⟨c, hc, rfl⟩
    · rcases List.mem_cons.1 ha with rfl | ha
      · exact .inr (.inl rfl)
      · split at ha
        · exact .inr (.inr (List.mem_singleton.1 ha))
        · cases ha
  intro a ha b hb z
  rcases hmem a ha with ⟨c, hc, rfl⟩ | rfl | rfl <;>
    rcases hmem b hb with ⟨d, hd, rfl⟩ | rfl | rfl <;> try rfl
  by_cases h : c.bitrate = d.bitrate
  · have hnodup : (s.streams.map (·.bitrate)).Nodup := hs.ascending.imp fun hlt => hlt.ne
    rw [List.inj_on_of_nodup_map hnodup hc hd h]
  · simp only [act, addStream, insertStream_comm (c := ⟨d.bitrate, d.index⟩) (Ne.symm h)]

theorem run_setup (hs : s.Sound) {setup : List Action}
    (h : setup.Perm (s.registrations ++ s.surroundings)) :
    (ofConfig config reportsStatus).run setup = s.furnished config reportsStatus := by
  rw [← run_settings config reportsStatus hs]
  exact (h.symm.foldl_eq' (settings_comm hs) _).symm

/-! ## What clearing leaves -/

theorem Keeps.clear (h : s.Keeps t) : t.clear = s.clear := by
  simp only [Selector.clear, reset, Window.clear, h.config, h.reportsStatus, h.attached, h.duration,
    h.trend, h.speeds, h.history]

variable {config reportsStatus}

/-- Whatever is done to a selector, cleared it is a new one. -/
theorem clear_act (h : s.clear = s.clear.furnished config reportsStatus) (a : Action) :
    (s.act a).2.clear = (s.act a).2.clear.furnished config reportsStatus := by
  cases a with
  | tick now p => rwa [(keeps_act (a := .tick now p) rfl).clear]
  | process now p => rwa [(keeps_act (a := .process now p) rfl).clear]
  | setCurrent now bitrate =>
    rw [act, setCurrent_selector]
    exact h
  | setDuration duration => exact congrArg (fun u => { u with duration }) h
  | attach => exact congrArg (fun u => { u with attached := true }) h
  | _ => exact h

theorem clear_run (h : s.clear = s.clear.furnished config reportsStatus) (actions : List Action) :
    (s.run actions).clear = (s.run actions).clear.furnished config reportsStatus := by
  induction actions generalizing s with
  | nil => exact h
  | cons a rest ih => exact ih (clear_act h a)

/-- A reset leaves the streams and the bitrates of the newest switch besides. -/
theorem alike_reset (h : s.clear = s.clear.furnished config reportsStatus) :
    (s.furnished config reportsStatus).Alike s.reset :=
  .inr ⟨rfl, s.current, s.previous, congrArg (fun u =>
    { u with streams := s.streams, current := s.current, previous := s.previous }) h⟩

/-! ## Clearing and new selectors -/

/-- A selector that has been reset can not be told from a new one that has been told, in any order,
of the same streams, content and playback, whatever is done to both afterwards. One that has been
cleared is a new one that has been told of content and playback. -/
theorem starts_over (config : BitrateConfig) (reportsStatus : Bool) (actions later : List Action) :
    let fresh := ofConfig config reportsStatus
    let s := fresh.run actions
    (∀ setup : List Action, setup.Perm (s.registrations ++ s.surroundings) →
      (s.reset.run later).LooksLike (fresh.run (setup ++ later))) ∧
    ∀ setup : List Action, setup.Perm s.surroundings →
      s.clear.run later = fresh.run (setup ++ later) := by
  intro fresh s
  have hs : s.Sound := (sound_ofConfig config reportsStatus).run actions
  have hclear : s.clear = s.clear.furnished config reportsStatus := clear_run rfl actions
  constructor
  · intro setup hsetup
    rw [run_append, run_setup config reportsStatus hs hsetup]
    exact ((alike_reset hclear).run later).looksLike
  · intro setup hsetup
    have hrun := run_setup config reportsStatus (hs.act .clear) hsetup
    rw [run_append, hrun]
    exact congrArg (·.run later) hclear

end AdaptiveHls.Selector
