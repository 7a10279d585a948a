import AdaptiveHls.Proofs.Bitrate.Runs
import Mathlib.Data.List.Basic
import Mathlib.Data.List.Induction

/-!
# Switches in flight

The owner is called for a switch only while none is in flight, and from then on one is, until the
owner confirms a bitrate or resets the selector. Which stream the owner is called for is a matter of
the whole history: it is the one that the new bitrate was registered with last. So the streams of a
selector are described by the operations that led to it, without looking at the selector.
-/

namespace AdaptiveHls

def SwitchEvent.index? : SwitchEvent → Option Int
  | .switch index => some index
  | .status _ | .overflow => none

namespace Selector

def calls (s : Selector) (a : Action) : List Int := (s.act a).1.filterMap SwitchEvent.index?

def Action.endsSwitch : Action → Bool
  | .setCurrent _ _ | .reset | .clear => true
  | _ => false

/-! ## What a history says of the streams -/

/-- Something with `p` was done, and nothing with `q` since. -/
def Since (p q : Action → Prop) (actions : List Action) : Prop :=
  ∃ before a after, actions = before ++ a :: after ∧ p a ∧ ∀ b ∈ after, ¬ q b

/-- A bitrate was registered, with any stream, and the streams were not cleared since. -/
def Registered (actions : List Action) (bitrate : Nat) : Prop :=
  Since (fun a => ∃ index, a = .addStream index bitrate) (· = .clear) actions

/-- A bitrate was registered with a stream, and neither registered again nor cleared since. -/
def RegisteredLast (actions : List Action) (bitrate : Nat) (index : Int) : Prop :=
  Since (· = .addStream index bitrate) (fun a => a = .clear ∨ ∃ i, a = .addStream i bitrate) actions

theorem since_nil (p q : Action → Prop) : ¬ Since p q [] := by
  rintro ⟨before, a, after, h, -⟩
  simp at h

/-- What was done since is the newest operation, or else one that this operation does not undo. -/
theorem since_append_singleton {p q : Action → Prop} {actions : List Action} {a : Action} :
    Since p q (actions ++ [a]) ↔ p a ∨ Since p q actions ∧ ¬ q a := by
  constructor
  · rintro ⟨before, b, after, h, hp, hq⟩
    rcases after.eq_nil_or_concat' with rfl | ⟨after, c, rfl⟩
    · obtain ⟨-, hlast⟩ := List.append_inj' h rfl
      obtain rfl := List.singleton_inj.1 hlast
      exact .inl hp
    · rw [← List.cons_append, ← List.append_assoc] at h
      obtain ⟨rfl, hlast⟩ := List.append_inj' h rfl
      obtain rfl := List.singleton_inj.1 hlast
      exact .inr ⟨⟨before, b, after, rfl, hp, fun d hd => hq d (by simp [hd])⟩, hq a (by simp)⟩
  · rintro (hp | ⟨⟨before, b, after, rfl, hp, hq⟩, hlast⟩)
    · exact ⟨actions, a, [], rfl, hp, by simp⟩
    · refine ⟨before, b, after ++ [a], by simp, hp, fun d hd => ?_⟩
      rcases List.mem_append.1 hd with hd | hd
      · exact hq d hd
      · exact List.mem_singleton.1 hd ▸ hlast

variable {s : Selector} {a : Action} {c : Stream} {b : Nat}

/-- A registration replaces the stream of the same bitrate and no other. -/
theorem mem_insertStream_iff {new : Stream} {streams : List Stream}
    (ascending : (streams.map (·.bitrate)).Pairwise (· < ·)) :
    c ∈ insertStream new streams ↔ c = new ∨ c ∈ streams ∧ c.bitrate ≠ new.bitrate := by
  induction streams with
  | nil => simp [insertStream]
  | cons first rest ih =>
    obtain ⟨hfirst, hrest⟩ := List.pairwise_cons.1 ascending
    have habove : ∀ d ∈ rest, first.bitrate < d.bitrate := fun d hd =>
      hfirst _ (List.mem_map_of_mem hd)
    rw [insertStream]
    split_ifs with hlt heq
    · have hother : ∀ d ∈ first :: rest, d.bitrate ≠ new.bitrate := by
        intro d hd
        rcases List.mem_cons.1 hd with rfl | hd
        · exact hlt.ne'
        · exact (hlt.trans (habove d hd)).ne'
      rw [List.mem_cons]
      exact or_congr_right ⟨fun hc => ⟨hc, hother c hc⟩, And.left⟩
    · have hother : ∀ d ∈ rest, d.bitrate ≠ new.bitrate := fun d hd => (heq ▸ habove d hd).ne'
      rw [List.mem_cons, List.mem_cons]
      refine or_congr_right ⟨fun hc => ⟨.inr hc, hother c hc⟩, ?_⟩
      rintro ⟨rfl | hc, hne⟩
      · exact absurd heq.symm hne
      · exact hc
    · rw [List.mem_cons, ih hrest, List.mem_cons]
      constructor
      · rintro (rfl | rfl | ⟨hc, hne⟩)
        · exact .inr ⟨.inl rfl, Ne.symm heq⟩
        · exact .inl rfl
        · exact .inr ⟨.inr hc, hne⟩
      · rintro (rfl | ⟨rfl | hc, hne⟩)
        · exact .inr (.inl rfl)
        · exact .inl rfl
        · exact .inr (.inr ⟨hc, hne⟩)

/-- A stream is there if it has just been added, or if it was there and neither another of its
bitrate was added nor all were cleared. -/
theorem mem_act_streams (hs : s.Sound) : c ∈ (s.act a).2.streams ↔
    a = .addStream c.index c.bitrate ∨
      c ∈ s.streams ∧ ¬ (a = .clear ∨ ∃ i, a = .addStream i c.bitrate) := by
  rw [act_streams]
  cases a with
  | addStream index bitrate =>
    rw [mem_insertStream_iff hs.ascending]
    obtain ⟨cb, ci⟩ := c
    simp [and_comm, eq_comm]
  | _ => simp

theorem mem_act_bitrates : b ∈ (s.act a).2.bitrates ↔
    (∃ index, a = .addStream index b) ∨ b ∈ s.bitrates ∧ a ≠ .clear := by
  rw [bitrates, act_streams]
  cases a with
  | addStream index bitrate =>
    rw [mem_insertStream]
    simp [bitrates, eq_comm]
  | _ => simp [bitrates]

variable (config : BitrateConfig) (reportsStatus : Bool) (actions : List Action)

/-- The streams of a selector are those that were registered last for their bitrates. -/
theorem mem_streams_run :
    c ∈ ((ofConfig config reportsStatus).run actions).streams ↔
      RegisteredLast actions c.bitrate c.index := by
  induction actions using List.reverseRecOn with
  | nil => exact iff_of_false (by simp [ofConfig]) (since_nil _ _)
  | append_singleton actions a ih =>
    have hs := (sound_ofConfig config reportsStatus).run actions
    rw [run_append, run_cons, run_nil, mem_act_streams hs, ih]
    unfold RegisteredLast
    rw [since_append_singleton]

theorem mem_bitrates_run :
    b ∈ ((ofConfig config reportsStatus).run actions).bitrates ↔ Registered actions b := by
  induction actions using List.reverseRecOn with
  | nil => exact iff_of_false (by simp [ofConfig, bitrates]) (since_nil _ _)
  | append_singleton actions a ih =>
    rw [run_append, run_cons, run_nil, mem_act_bitrates, ih]
    unfold Registered
    rw [since_append_singleton]

/-! ## Calls -/

theorem setStatus_calls (s : Selector) (status : SwitchStatus) (force : Bool) :
    (s.setStatus status force).1.filterMap SwitchEvent.index? = [] := by
  rw [setStatus_events]
  split <;> rfl

/-- A switch calls for a stream with the bitrate that it goes to. -/
theorem commit_calls (source : Nat) {target : Nat} (up : Bool) (h : target ∈ s.bitrates) :
    ∃ c ∈ s.streams, c.bitrate = target ∧
      (s.commit source target up).1.filterMap SwitchEvent.index? = [c.index] := by
  obtain ⟨d, hd, hbitrate⟩ := List.mem_map.1 h
  have hsome : (s.streams.find? (·.bitrate == target)).isSome :=
    List.find?_isSome.2 ⟨d, hd, by simpa using hbitrate⟩
  obtain ⟨c, hc⟩ := Option.isSome_iff_exists.1 hsome
  refine ⟨c, List.mem_of_find?_eq_some hc, by simpa using List.find?_some hc, ?_⟩
  simp only [commit, setStatus_selector, List.filterMap_append, setStatus_calls, hc]
  rfl

/-- With a switch the owner is called for one stream: that of the new bitrate, which is another one
than the old. -/
theorem calls_of_switched? {up : Bool} (hs : s.Sound) (h : s.switched? a = some up) :
    ∃ old c, s.current = some old ∧ c ∈ s.streams ∧ (s.act a).2.current = some c.bitrate ∧
      c.bitrate ≠ old ∧ s.calls a = [c.index] := by
  obtain ⟨p, old, target, hold, htarget, hne, hcommit⟩ := switched_commit hs h
  obtain ⟨c, hc, rfl, hcalls⟩ := commit_calls (s := s.sampled p) old up
    (by rwa [sampled_bitrates])
  rw [sampled_streams] at hc
  refine ⟨old, c, hold, hc, ?_, hne, ?_⟩
  · rw [hcommit, commit_selector]
  · rw [calls, hcommit, hcalls]

/-- Without a switch the owner is not called. -/
theorem calls_of_not_switched? (hs : s.Sound) (h : s.switched? a = none) : s.calls a = [] := by
  cases hsample : a.sample? with
  | some sample =>
    rcases act_sample_cases (s := s) hsample with hsame | htaken | ⟨_, up?, hready, _, hresponse⟩
    · rw [calls, hsame]
      rfl
    · rw [calls, htaken]
      rfl
    · obtain rfl := (switched?_of_response hs hready hresponse).symm.trans h
      rw [calls]
      generalize s.act a = result at hresponse
      cases hresponse with
      | stay | overflow => rfl
      | limit => exact setStatus_calls _ _ _
  | none =>
    cases a with
    | setCurrent now bitrate =>
      rw [calls, act, setCurrent]
      split
      · exact setStatus_calls _ _ _
      · rfl
    | tick | process => simp [Action.sample?] at hsample
    | _ => rfl

/-! ## Flights -/

/-- Whether a switch is in flight is what the status tells. -/
theorem switching_iff_act (h : s.switching = true ↔ s.status = .switching) (a : Action) :
    (s.act a).2.switching = true ↔ (s.act a).2.status = .switching := by
  cases hsample : a.sample? with
  | some sample =>
    obtain ⟨_, _, _, hsampled⟩ := s.sampled_eq sample.2
    rcases act_sample_cases (s := s) hsample with hsame | htaken | ⟨_, up?, hready, _, hresponse⟩
    · rwa [hsame]
    · rwa [htaken, hsampled]
    · generalize s.act a = result at hresponse
      cases hresponse with
      | stay | overflow => rwa [hsampled]
      | limit atEnd =>
        rw [setStatus_selector, hsampled]
        rcases atEnd with rfl | rfl <;> simp [hready]
      | fall | rise =>
        rw [commit_selector]
        exact iff_of_true rfl rfl
  | none =>
    cases a with
    | setCurrent now bitrate =>
      rw [act, setCurrent_selector]
      cases hs : s.switching <;> simp_all
    | tick | process => simp [Action.sample?] at hsample
    | reset | clear => exact iff_of_false Bool.false_ne_true (by simp [act, reset, Selector.clear])
    | _ => exact h

theorem switching_iff_run :
    ((ofConfig config reportsStatus).run actions).switching = true ↔
      ((ofConfig config reportsStatus).run actions).status = .switching := by
  induction actions using List.reverseRecOn with
  | nil => exact iff_of_false Bool.false_ne_true (by simp [ofConfig])
  | append_singleton actions a ih =>
    rw [run_append, run_cons, run_nil]
    exact switching_iff_act ih a

theorem tick_of_switching (h : s.switching = true) (now : Int) (p : Playback) :
    s.tick now p = ([], s) := by
  simp [tick, h]

/-- A switch stays in flight through everything that does not end it. -/
theorem switching_act (h : s.switching = true) (kept : a.endsSwitch = false) :
    (s.act a).2.switching = true := by
  cases a with
  | tick now p => rwa [act, tick_of_switching h]
  | process now p =>
    rw [act, process, tick_of_switching h]
    split <;> exact h
  | setCurrent | reset | clear => simp [Action.endsSwitch] at kept
  | _ => exact h

variable {actions} in
theorem switching_run (h : s.switching = true) (kept : ∀ a ∈ actions, a.endsSwitch = false) :
    (s.run actions).switching = true := by
  induction actions generalizing s with
  | nil => exact h
  | cons a rest ih =>
    exact ih (switching_act h (kept a (by simp))) fun b hb => kept b (by simp [hb])

theorem switched?_of_calls (hs : s.Sound) (h : s.calls a ≠ []) : ∃ up, s.switched? a = some up := by
  cases hswitched : s.switched? a with
  | some up => exact ⟨up, rfl⟩
  | none => exact absurd (calls_of_not_switched? hs hswitched) h

/-- Between two calls the switch of the first one is ended. -/
theorem Sound.exists_endsSwitch (hs : s.Sound) {first second : Action} {between : List Action}
    (hfirst : s.calls first ≠ []) (hsecond : ((s.act first).2.run between).calls second ≠ []) :
    ∃ a ∈ between, a.endsSwitch = true := by
  by_contra hnone
  obtain ⟨_, hswitched⟩ := switched?_of_calls hs hfirst
  obtain ⟨_, hagain⟩ := switched?_of_calls ((hs.act first).run between) hsecond
  obtain ⟨-, hbusy, -⟩ := switched_selector hs hswitched
  have hkept : ∀ a ∈ between, a.endsSwitch = false := by simpa using hnone
  have hidle := not_switching_of_switched? hagain
  rw [switching_run hbusy hkept] at hidle
  cases hidle

/-! ## One switch at a time -/

/-- Between two calls for a switch the owner confirms a bitrate or resets the selector. A switch
goes to another bitrate that is registered and calls once, for the stream that this bitrate was
registered with last; nothing else calls. A switch is in flight exactly if the status says so. The
bitrates rise, and they are those registered since the selector was cleared. -/
theorem one_switch_in_flight (config : BitrateConfig) (reportsStatus : Bool)
    (actions : List Action) :
    let s := (ofConfig config reportsStatus).run actions
    (∀ first between second, s.calls first ≠ [] →
      ((s.act first).2.run between).calls second ≠ [] → ∃ a ∈ between, a.endsSwitch = true) ∧
    (∀ a, match s.switched? a with
      | none => s.calls a = []
      | some _ => ∃ old new index, s.current = some old ∧ (s.act a).2.current = some new ∧
          new ≠ old ∧ new ∈ s.bitrates ∧ RegisteredLast actions new index ∧
          s.calls a = [index]) ∧
    (s.switching = true ↔ s.status = .switching) ∧
    s.bitrates.Pairwise (· < ·) ∧ ∀ b, b ∈ s.bitrates ↔ Registered actions b := by
  intro s
  have hs : s.Sound := (sound_ofConfig config reportsStatus).run actions
  refine ⟨fun first between second hfirst hsecond => hs.exists_endsSwitch hfirst hsecond,
    fun a => ?_, switching_iff_run config reportsStatus actions, hs.ascending,
    fun b => mem_bitrates_run config reportsStatus actions⟩
  cases hswitched : s.switched? a with
  | none => exact calls_of_not_switched? hs hswitched
  | some up =>
    obtain ⟨old, c, hold, hc, hnew, hne, hcalls⟩ := calls_of_switched? hs hswitched
    exact ⟨old, c.bitrate, c.index, hold, hnew, hne, List.mem_map_of_mem hc,
      (mem_streams_run config reportsStatus actions).1 hc, hcalls⟩

end Selector

end AdaptiveHls
