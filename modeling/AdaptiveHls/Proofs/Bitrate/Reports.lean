import AdaptiveHls.Proofs.Bitrate.Runs
import Mathlib.Data.List.Basic
import Mathlib.Data.List.Induction

/-!
# What the owner is told of the status

An owner who wants to be told of the status knows of it what it was told last. Every operation that
changes the status tells of it, but for a reset, which makes it idle and tells nobody. From then on,
until something is told again, the owner takes the selector to have the status that the reset has
ended. So what the owner knows is the status throughout a run exactly if every reset in it finds an
idle selector.
-/

namespace AdaptiveHls

def SwitchEvent.status? : SwitchEvent → Option SwitchStatus
  | .status s => some s
  | .switch _ | .overflow => none

namespace Selector

variable {s : Selector} {a : Action} {p : Playback} {actions more : List Action}

def reported (s : Selector) (a : Action) : List SwitchStatus :=
  (s.act a).1.filterMap SwitchEvent.status?

def reports (s : Selector) : List Action → List SwitchStatus
  | [] => []
  | a :: rest => s.reported a ++ (s.act a).2.reports rest

/-- The status that the owner knows of after a run: the one that was told last, and idle if there
was none yet. -/
def shown (s : Selector) (actions : List Action) : SwitchStatus :=
  (s.reports actions).getLast?.getD .idle

/-- A reset has ended a status other than idle, and nothing was told since. -/
def Silenced (s : Selector) (actions : List Action) : Prop :=
  ∃ before a after, actions = before ++ a :: after ∧ a.forgets = true ∧
    (s.run before).status ≠ .idle ∧ ((s.run before).act a).2.reports after = []

/-- After each operation the owner knows the status, and it is told of one status at a time, which is
another one than before but for a switch. -/
structure Mirrored (s : Selector) (actions : List Action) : Prop where
  shown : ∀ before after, actions = before ++ after → s.shown before = (s.run before).status
  single : ∀ before a after, actions = before ++ a :: after →
    ((s.run before).reported a).length ≤ 1
  repeated : ∀ before a after status, actions = before ++ a :: after →
    status ∈ (s.run before).reported a → (s.reports before).getLast? = some status →
    ((s.run before).switched? a).isSome

theorem reports_append (s : Selector) (actions more : List Action) :
    s.reports (actions ++ more) = s.reports actions ++ (s.run actions).reports more := by
  induction actions generalizing s with
  | nil => rfl
  | cons a rest ih => rw [List.cons_append, reports, ih, reports, run_cons, List.append_assoc]

theorem reports_append_singleton (s : Selector) (actions : List Action) (a : Action) :
    s.reports (actions ++ [a]) = s.reports actions ++ (s.run actions).reported a := by
  rw [reports_append, reports, reports, List.append_nil]

/-! ## Single operations -/

theorem setStatus_reported (s : Selector) (status : SwitchStatus) (force : Bool) :
    (s.setStatus status force).1.filterMap SwitchEvent.status? =
      if (!force && s.status = status) || !s.reportsStatus then [] else [status] := by
  rw [setStatus_events]
  split <;> rfl

theorem commit_reported (reporting : s.reportsStatus = true) (source target : Nat) (up : Bool) :
    (s.commit source target up).1.filterMap SwitchEvent.status? = [.switching] := by
  have hcalled : ∀ stream : Option Stream, (stream.map fun c =>
      SwitchEvent.switch c.index).toList.filterMap SwitchEvent.status? = [] := by
    rintro (_ | _) <;> rfl
  simp [commit, setStatus_selector, List.filterMap_append, setStatus_reported, hcalled, reporting]

theorem act_reportsStatus (s : Selector) (a : Action) :
    (s.act a).2.reportsStatus = s.reportsStatus := by
  cases a with
  | setCurrent now bitrate => rw [act, setCurrent_selector]
  | tick now p => exact (keeps_act (a := .tick now p) rfl).reportsStatus
  | process now p => exact (keeps_act (a := .process now p) rfl).reportsStatus
  | _ => rfl

theorem run_reportsStatus (s : Selector) (actions : List Action) :
    (s.run actions).reportsStatus = s.reportsStatus := by
  induction actions generalizing s with
  | nil => rfl
  | cons a rest ih => rw [run_cons, ih, act_reportsStatus]

theorem reported_of_forgets (h : a.forgets = true) :
    s.reported a = [] ∧ (s.act a).2.status = .idle := by
  cases a with
  | reset | clear => exact ⟨rfl, rfl⟩
  | _ => simp [Action.forgets] at h

/-- What the owner is told of an operation that finds the status `old`: nothing, and then the status
is still this one, or the status that it leaves, which is another one if no switch is committed. -/
inductive Tells (old : SwitchStatus) (committed : Prop) (result : List SwitchEvent × Selector) : Prop
  | nothing (told : result.1.filterMap SwitchEvent.status? = []) (same : result.2.status = old)
  | status (told : result.1.filterMap SwitchEvent.status? = [result.2.status])
    (another : result.2.status ≠ old ∨ committed)

/-- A status that is set without force is told of exactly if it is another one. -/
theorem setStatus_tells {old : SwitchStatus} (found : s.status = old)
    (reporting : s.reportsStatus = true) (status : SwitchStatus) (committed : Prop) :
    Tells old committed (s.setStatus status false) := by
  subst found
  have hreported := s.setStatus_reported status false
  have hselector := s.setStatus_selector status false
  by_cases hsame : s.status = status
  · refine .nothing ?_ ?_
    · simpa [hsame] using hreported
    · rw [hselector, hsame]
  · refine .status ?_ (.inl ?_)
    · simpa [hsame, reporting] using hreported
    · rw [hselector]
      exact Ne.symm hsame

/-- An operation that forgets nothing tells of the status it leaves, or leaves the one that it
found. -/
theorem act_tells (hs : s.Sound) (reporting : s.reportsStatus = true) (kept : a.forgets = false) :
    Tells s.status (s.switched? a).isSome (s.act a) := by
  cases hsample : a.sample? with
  | some sample =>
    obtain ⟨_, _, _, hsampled⟩ := s.sampled_eq sample.2
    rcases act_sample_cases (s := s) hsample with hsame | htaken | ⟨_, up?, hready, _, hresponse⟩
    · rw [hsame]
      exact .nothing rfl rfl
    · rw [htaken, hsampled]
      exact .nothing rfl rfl
    · rw [switched?_of_response hs hready hresponse]
      have hstatus : (s.sampled sample.2).status = s.status := by rw [hsampled]
      have hreporting : (s.sampled sample.2).reportsStatus = true := by rw [hsampled]; exact reporting
      generalize s.act a = result at hresponse
      rw [← hstatus]
      cases hresponse with
      | stay | overflow => exact .nothing rfl rfl
      | limit => exact setStatus_tells rfl hreporting _ _
      | fall | rise =>
        refine .status ?_ (.inr rfl)
        rw [commit_reported hreporting, commit_selector]
  | none =>
    cases a with
    | setCurrent now bitrate =>
      rw [act, setCurrent]
      split
      · refine setStatus_tells ?_ ?_ .idle _
        · rfl
        · exact reporting
      · exact .nothing rfl rfl
    | tick | process => simp [Action.sample?] at hsample
    | reset | clear => simp [Action.forgets] at kept
    | _ => exact .nothing rfl rfl

/-! ## Runs -/

theorem shown_append_singleton (s : Selector) (actions : List Action) (a : Action) :
    s.shown (actions ++ [a]) = ((s.run actions).reported a).getLast?.getD (s.shown actions) := by
  rw [shown, reports_append_singleton, List.getLast?_append, shown]
  cases ((s.run actions).reported a).getLast? <;> rfl

/-- A silence begins with an operation that forgets a status, and lasts as long as nothing is told.
-/
theorem silenced_append_singleton :
    s.Silenced (actions ++ [a]) ↔ a.forgets = true ∧ (s.run actions).status ≠ .idle ∨
      s.Silenced actions ∧ (s.run actions).reported a = [] := by
  constructor
  · rintro ⟨before, b, after, h, hforgets, hstatus, hnothing⟩
    rcases after.eq_nil_or_concat' with rfl | ⟨after, c, rfl⟩
    · obtain ⟨rfl, hlast⟩ := List.append_inj' h rfl
      obtain rfl := List.singleton_inj.1 hlast
      exact .inl ⟨hforgets, hstatus⟩
    · rw [← List.cons_append, ← List.append_assoc] at h
      obtain ⟨rfl, hlast⟩ := List.append_inj' h rfl
      obtain rfl := List.singleton_inj.1 hlast
      rw [reports_append_singleton, List.append_eq_nil_iff] at hnothing
      rw [run_append, run_cons]
      exact .inr ⟨⟨before, b, after, rfl, hforgets, hstatus, hnothing.1⟩, hnothing.2⟩
  · rintro (⟨hforgets, hstatus⟩ | ⟨⟨before, b, after, rfl, hforgets, hstatus, hnothing⟩, hlast⟩)
    · exact ⟨actions, a, [], rfl, hforgets, hstatus, rfl⟩
    · refine ⟨before, b, after ++ [a], by simp, hforgets, hstatus, ?_⟩
      rw [run_append, run_cons] at hlast
      rw [reports_append_singleton, hnothing, hlast]
      rfl

/-- While it is silenced the selector is idle and the owner knows something else. -/
theorem shown_run (hs : s.Sound) (reporting : s.reportsStatus = true) (idle : s.status = .idle)
    (actions : List Action) :
    s.Silenced actions ∧ (s.run actions).status = .idle ∧ s.shown actions ≠ .idle ∨
      ¬ s.Silenced actions ∧ s.shown actions = (s.run actions).status := by
  induction actions using List.reverseRecOn with
  | nil =>
    refine .inr ⟨?_, idle.symm⟩
    rintro ⟨before, a, after, h, -⟩
    simp at h
  | append_singleton actions a ih =>
    rw [silenced_append_singleton, shown_append_singleton, run_append, run_cons, run_nil]
    cases hforgets : a.forgets with
    | true =>
      obtain ⟨hnothing, hidle⟩ := reported_of_forgets (s := s.run actions) hforgets
      rw [hnothing, hidle]
      rcases ih with ⟨hsilenced, -, hshown⟩ | ⟨hheard, hshown⟩
      · exact .inl ⟨.inr ⟨hsilenced, rfl⟩, rfl, hshown⟩
      · by_cases hstatus : (s.run actions).status = .idle
        · exact .inr ⟨by simp [hstatus, hheard], hshown.trans hstatus⟩
        · exact .inl ⟨.inl ⟨rfl, hstatus⟩, rfl, hshown.trans_ne hstatus⟩
    | false =>
      have hreporting := (run_reportsStatus s actions).trans reporting
      cases act_tells (hs.run actions) hreporting hforgets with
      | nothing told same =>
        change (s.run actions).reported a = [] at told
        rw [told, same]
        simpa using ih
      | status told another =>
        change (s.run actions).reported a = _ at told
        rw [told]
        exact .inr ⟨by simp, rfl⟩

/-! ## The status that is shown -/

/-- What the owner knows after a run is the status exactly if nothing has been kept from it since the
newest report. Throughout a run the status is mirrored, each report but that of a switch being news,
exactly if every reset finds an idle selector. -/
theorem status_shown_iff (config : BitrateConfig) (actions : List Action) :
    let s := ofConfig config true
    (s.shown actions = (s.run actions).status ↔ ¬ s.Silenced actions) ∧
    (s.Mirrored actions ↔ ∀ before a after, actions = before ++ a :: after → a.forgets = true →
      (s.run before).status = .idle) := by
  intro s
  have hs : s.Sound := sound_ofConfig config true
  have hshown : ∀ actions, s.shown actions = (s.run actions).status ↔ ¬ s.Silenced actions := by
    intro actions
    rcases shown_run hs rfl rfl actions with ⟨hsilenced, hidle, hother⟩ | ⟨hheard, hsame⟩
    · exact iff_of_false (hidle ▸ hother) (not_not.2 hsilenced)
    · exact iff_of_true hsame hheard
  refine ⟨hshown actions, fun hmirrored => ?_, fun hidle => ?_⟩
  · rintro before a after rfl hforgets
    by_contra hstatus
    refine (hshown (before ++ [a])).1 (hmirrored.shown (before ++ [a]) after (by simp)) ?_
    exact silenced_append_singleton.2 (.inl ⟨hforgets, hstatus⟩)
  · have hstart : ∀ before after, actions = before ++ after →
        s.shown before = (s.run before).status := by
      rintro before after rfl
      refine (hshown before).2 ?_
      rintro ⟨start, a, rest, rfl, hforgets, hstatus, -⟩
      exact hstatus (hidle start a (rest ++ after) (by simp) hforgets)
    have htells : ∀ before a after, actions = before ++ a :: after →
        (s.run before).reported a = [] ∨ ∃ status, (s.run before).reported a = [status] ∧
          (status ≠ (s.run before).status ∨ ((s.run before).switched? a).isSome) := by
      intro before a after _
      cases hforgets : a.forgets with
      | true => exact .inl (reported_of_forgets hforgets).1
      | false =>
        cases act_tells (hs.run before) (run_reportsStatus s before) hforgets with
        | nothing told => exact .inl told
        | status told another => exact .inr ⟨_, told, another⟩
    refine ⟨hstart, fun before a after hactions => ?_, ?_⟩
    · rcases htells before a after hactions with hnothing | ⟨status, htold, -⟩
      · simp [hnothing]
      · simp [htold]
    · intro before a after status hactions hstatus hlast
      rcases htells before a after hactions with hnothing | ⟨status', htold, hanother⟩
      · simp [hnothing] at hstatus
      · obtain rfl : status = status' := by simpa [htold] using hstatus
        have hknown := hstart before (a :: after) hactions
        rw [shown, hlast, Option.getD_some] at hknown
        exact hanother.resolve_left (not_not.2 hknown)

/-- A switch down is told of, and then it is reset without a word. -/
theorem status_shown_of_reset :
    let s := ofConfig {} true
    let low : Playback := { buffer := 50, connected := true }
    let lowered : List Action := [.addStream 0 1000000, .addStream 1 2000000, .attach,
      .setCurrent 0 2000000, .tick 0 { low with buffer := 20000 }, .tick 0 low]
    (s.run lowered).status = .switching ∧ s.reports lowered = [.switching] ∧
      (s.run (lowered ++ [.reset])).status = .idle ∧ s.shown (lowered ++ [.reset]) = .switching ∧
      ¬ s.Mirrored (lowered ++ [.reset]) := by
  intro s low lowered
  have hstatus : (s.run (lowered ++ [.reset])).status = .idle := by decide +kernel
  have hshown : s.shown (lowered ++ [.reset]) = .switching := by decide +kernel
  refine ⟨by decide +kernel, by decide +kernel, hstatus, hshown, fun hmirrored => ?_⟩
  have hsame := hmirrored.shown (lowered ++ [.reset]) [] (by simp)
  rw [hstatus, hshown] at hsame
  cases hsame

end Selector

end AdaptiveHls
