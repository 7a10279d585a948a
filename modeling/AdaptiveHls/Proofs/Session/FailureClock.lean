import AdaptiveHls.Proofs.Session.Turns
import Mathlib.Data.List.DropRight

/-!
# Since when loads have been failing

Of the attempts to load no more is remembered than one moment. It is the end of the first attempt that
has failed since one ended well, and it is there exactly as long as the latest attempt is a failure. So
whether loads have been failing for too long can be told from it, however many attempts have been made
and whatever they failed of.
-/

namespace AdaptiveHls

/-- An attempt to load that was not interrupted: when it ended, and whether it ended well. -/
structure Attempt where
  moment : Nat
  succeeded : Bool
  deriving DecidableEq, Repr

namespace Attempt

variable {log before after : List Attempt} {a : Attempt}

/-- The attempt has failed and none behind it has succeeded. -/
def Unmended (log : List Attempt) (a : Attempt) : Prop :=
  ∃ before after, log = before ++ a :: after ∧ ∀ b ∈ a :: after, b.succeeded = false

/-- The attempt is the first that has failed behind the latest one that has succeeded. -/
def FirstFailed (log : List Attempt) (a : Attempt) : Prop :=
  ∃ before after, log = before ++ a :: after ∧ (∀ b ∈ before.getLast?, b.succeeded = true) ∧
    ∀ b ∈ a :: after, b.succeeded = false

/-- The attempts behind the latest one that has succeeded. -/
def failures (log : List Attempt) : List Attempt := log.rtakeWhile fun a => !a.succeeded

theorem failures_append_singleton (log : List Attempt) (a : Attempt) :
    failures (log ++ [a]) = if a.succeeded then [] else failures log ++ [a] := by
  rw [failures, List.rtakeWhile_concat, failures]
  cases a.succeeded <;> rfl

theorem failures_append (before : List Attempt) (h : ∀ b ∈ after, b.succeeded = false) :
    failures (before ++ after) = failures before ++ after := by
  induction after using List.reverseRecOn with
  | nil => simp
  | append_singleton rest b ih =>
    rw [List.forall_mem_append] at h
    rw [← List.append_assoc, failures_append_singleton, ih h.1, h.2 b (List.mem_singleton_self b),
      if_neg Bool.false_ne_true, List.append_assoc]

theorem failures_eq_nil_iff : failures log = [] ↔ ∀ b ∈ log.getLast?, b.succeeded = true := by
  induction log using List.reverseRecOn with
  | nil => simp [failures]
  | append_singleton rest b _ =>
    rw [failures_append_singleton]
    cases h : b.succeeded <;> simp [h]

/-- What is behind the latest success is all that has failed since. -/
theorem exists_eq_append_failures (log : List Attempt) :
    ∃ before, log = before ++ failures log ∧ (∀ b ∈ before.getLast?, b.succeeded = true) ∧
      ∀ b ∈ failures log, b.succeeded = false := by
  refine ⟨log.rdropWhile fun a => !a.succeeded, List.rdropWhile_append_rtakeWhile.symm, ?_, ?_⟩
  · intro b hb
    obtain ⟨hne, rfl⟩ := List.mem_getLast?_eq_getLast hb
    simpa using List.rdropWhile_last_not _ log hne
  · intro b hb
    simpa using List.mem_rtakeWhile_imp hb

/-- The failures behind the latest success are those that no success has followed. -/
theorem mem_failures_iff : a ∈ failures log ↔ Unmended log a := by
  constructor
  · intro ha
    obtain ⟨before, hlog, _, hfailed⟩ := exists_eq_append_failures log
    obtain ⟨front, after, hsplit⟩ := List.append_of_mem ha
    refine ⟨before ++ front, after, ?_, fun b hb => hfailed b ?_⟩
    · rw [List.append_assoc, ← hsplit]
      exact hlog
    · rw [hsplit]
      exact List.mem_append_right _ hb
  · rintro ⟨before, after, rfl, hfailed⟩
    rw [failures_append before hfailed]
    exact List.mem_append_right _ List.mem_cons_self

/-- The first of them is the first failure. -/
theorem head?_failures_eq_some_iff : (failures log).head? = some a ↔ FirstFailed log a := by
  constructor
  · intro hhead
    obtain ⟨before, hlog, hlast, hfailed⟩ := exists_eq_append_failures log
    obtain ⟨after, hafter⟩ := List.head?_eq_some_iff.1 hhead
    rw [hafter] at hlog hfailed
    exact ⟨before, after, hlog, hlast, hfailed⟩
  · rintro ⟨before, after, rfl, hlast, hfailed⟩
    rw [failures_append before hfailed, failures_eq_nil_iff.2 hlast]
    rfl

end Attempt

namespace Session

variable {s u : Session} {log : List Attempt}

/-! ## The clock -/

theorem finishLoad_now (t : Task) (result : Except Failure Unit) :
    (s.finishLoad t result).now = s.now := by
  cases s.finishLoad_cases t result with
  | told _ _ _ _ heq | again _ _ _ heq | ended _ heq => rw [heq]; exact leave_now t.id
  | begun _ _ heq => rw [heq, startBackground_now]; exact leave_now t.id

theorem startFetch_now (t : Task) (full : Bool) : (s.startFetch t full).now = s.now := by
  simp only [startFetch]
  split <;> rfl

theorem startLoad_now (t : Task) : (s.startLoad t).now = s.now := enter_now t.id

theorem finishFetch_now (t : Task) (f : Fetch) (answer : Except Failure (List UInt8)) :
    (s.finishFetch t f answer).now = s.now := by
  rw [finishFetch]
  repeat' split
  · exact finishLoad_now t _
  · exact startFetch_now t true
  · exact finishLoad_now t _

/-- Steps take no time. -/
theorem step_now (t : Task) : (s.step t).now = s.now := by
  cases hactivity : t.activity with
  | planning =>
    simp only [step, hactivity]
    rfl
  | finished o => simp only [step, hactivity]
  | resting moment =>
    simp only [step, hactivity]
    split
    · rfl
    · split
      · exact startLoad_now t
      · rfl
  | pausing moment =>
    simp only [step, hactivity]
    split
    · rfl
    · exact startLoad_now t
  | waiting =>
    simp only [step, hactivity]
    split
    · exact finishLoad_now t _
    · exact startFetch_now t _
  | fetching f =>
    simp only [step, hactivity]
    split
    · exact finishLoad_now t _
    · split
      · exact finishFetch_now t f _
      · exact finishFetch_now t f _

/-- Time does not go back. -/
theorem now_le_move (s : Session) (m : Move) : s.now ≤ (s.move m).now := by
  cases m with
  | proceed place =>
    simp only [move]
    repeat' split
    · exact Nat.le_of_eq (step_now _).symm
    · exact Nat.le_refl _
    · exact Nat.le_refl _
  | wait ms => exact Nat.le_add_right _ _
  | start purpose called =>
    simp only [move]
    split
    · next hwants =>
      rw [look_of_wants hwants]
      split
      · simp [startCall]
      · simp [startTask, addTask]
    · exact Nat.le_refl _
  | resume =>
    simp only [move]
    repeat' split
    · rw [startBackground_now]
    · exact Nat.le_refl _
    · exact Nat.le_refl _
  | stop | call | drop => exact Nat.le_refl _

/-! ## The attempts of a run -/

/-- The attempt that a move ends, if it does and nobody has interrupted it. -/
def attempt? (s : Session) (m : Move) : Option Attempt :=
  if s.ends m then some { moment := s.now, succeeded := s.installing m } else none

def attempts (s : Session) : List Move → List Attempt
  | [] => []
  | m :: rest => (s.attempt? m).toList ++ (s.move m).attempts rest

theorem attempts_append_singleton (moves : List Move) (m : Move) :
    s.attempts (moves ++ [m]) = s.attempts moves ++ ((s.run moves).attempt? m).toList := by
  induction moves generalizing s with
  | nil => simp [attempts]
  | cons n rest ih => simp [attempts, ih]

/-- What is remembered of the attempts of a run. -/
structure Clocked (u : Session) (log : List Attempt) : Prop where
  failing : u.tracker.reload.failingSince = (Attempt.failures log).head?.map (·.moment)
  sorted : log.Pairwise (·.moment ≤ ·.moment)
  past : ∀ a ∈ log, a.moment ≤ u.now

/-- A move keeps what is remembered in step with the attempts. -/
theorem Clocked.move (h : u.Clocked log) (m : Move) :
    (u.move m).Clocked (log ++ (u.attempt? m).toList) where
  failing := by
    rw [attempt?]
    cases u.move_logged m with
    | silent ends _ _ failingSince =>
      rw [ends, if_neg Bool.false_ne_true, Option.toList_none, List.append_nil, failingSince]
      exact h.failing
    | failed ends installing _ failingSince =>
      rw [ends, if_pos rfl, Option.toList_some, Attempt.failures_append_singleton, installing,
        if_neg Bool.false_ne_true, failingSince, h.failing]
      cases Attempt.failures log <;> rfl
    | succeeded ends installing _ failingSince =>
      rw [ends, if_pos rfl, Option.toList_some, Attempt.failures_append_singleton, installing,
        if_pos rfl, failingSince]
      rfl
  sorted := by
    rw [attempt?]
    split
    · rw [Option.toList_some, List.pairwise_append]
      refine ⟨h.sorted, List.pairwise_singleton _ _, fun a ha b hb => ?_⟩
      rw [List.mem_singleton.1 hb]
      exact h.past a ha
    · rw [Option.toList_none, List.append_nil]
      exact h.sorted
  past a ha := by
    refine Nat.le_trans ?_ (u.now_le_move m)
    rw [attempt?] at ha
    rcases List.mem_append.1 ha with ha | ha
    · exact h.past a ha
    · split at ha
      · rw [List.mem_singleton.1 ha]
      · cases ha

theorem clocked_run (h : s.tracker.reload.failingSince = none) (moves : List Move) :
    (s.run moves).Clocked (s.attempts moves) := by
  induction moves using List.reverseRecOn with
  | nil => exact ⟨h, .nil, by simp [attempts]⟩
  | append_singleton before m ih =>
    rw [attempts_append_singleton, run_append]
    exact ih.move m

/-- Loads are given up on exactly if a failure that no success has followed is old enough. -/
theorem Clocked.isStalled_iff (h : u.Clocked log) :
    u.tracker.isStalled u.now = true ↔ ∃ a, Attempt.Unmended log a ∧
      a.moment + u.tracker.config.failureTimeout ≤ u.now := by
  rw [Tracker.isStalled, h.failing]
  constructor
  · intro hstalled
    obtain ⟨moment, hmoment, hlong⟩ := (Option.any_eq_true _ _).1 hstalled
    obtain ⟨a, hhead, rfl⟩ := Option.map_eq_some_iff.1 hmoment
    have hmem := List.mem_of_head? hhead
    have hpast := h.past a ((List.rtakeWhile_suffix _ log).mem hmem)
    have hlong := of_decide_eq_true hlong
    exact ⟨a, Attempt.mem_failures_iff.1 hmem, by omega⟩
  · rintro ⟨a, hunmended, hlong⟩
    have hmem := Attempt.mem_failures_iff.2 hunmended
    have hsorted : (Attempt.failures log).Pairwise (·.moment ≤ ·.moment) :=
      h.sorted.sublist (List.rtakeWhile_suffix _ log).sublist
    cases hfailures : Attempt.failures log with
    | nil => rw [hfailures] at hmem; cases hmem
    | cons first rest =>
      rw [hfailures] at hmem hsorted
      have hfirst : first.moment ≤ a.moment := by
        rcases List.mem_cons.1 hmem with rfl | hrest
        · exact Nat.le_refl _
        · exact List.rel_of_pairwise_cons hsorted hrest
      simp only [List.head?_cons, Option.map_some, Option.any_some, decide_eq_true_eq]
      omega

/-! ## What the clock tells -/

/-- The moment since which loads have been failing is there exactly if the latest attempt has failed,
and then it is the end of the first attempt that has failed behind the latest one that succeeded. So
loads are given up on exactly if an attempt has failed at least so long ago as is put up with and none
has succeeded behind it. An attempt that was interrupted does not count, and the second attempt of a
load does. -/
theorem failure_clock_tells (descriptor : Rendition) (config : TrackerConfig)
    (initial : Option (List UInt8)) (server : Nat → Answer) (moves : List Move) :
    let s := fresh descriptor config initial server
    let u := s.run moves
    let log := s.attempts moves
    (u.tracker.reload.failingSince.isSome = true ↔ ∃ a ∈ log.getLast?, a.succeeded = false) ∧
    (∀ moment, u.tracker.reload.failingSince = some moment ↔
      ∃ a, Attempt.FirstFailed log a ∧ a.moment = moment) ∧
    (u.tracker.isStalled u.now = true ↔
      ∃ a, Attempt.Unmended log a ∧ a.moment + config.failureTimeout ≤ u.now) := by
  intro s u log
  have hclocked : u.Clocked log := clocked_run rfl moves
  have hconfig : u.tracker.config = config := (s.run_descriptor_config moves).2
  refine ⟨?_, fun moment => ?_, hconfig ▸ hclocked.isStalled_iff⟩
  · rw [hclocked.failing, Option.isSome_map, List.isSome_head?, ne_eq, Attempt.failures_eq_nil_iff]
    simp
  · rw [hclocked.failing, Option.map_eq_some_iff]
    simp only [Attempt.head?_failures_eq_some_iff]

/-- A delta update that cannot be completed is an attempt, and what is loaded in its place another. -/
example :
    let s := served ["#EXTM3U\na\n", "#EXTM3U\n#EXT-X-SKIP:SKIPPED-SEGMENTS=9\nb\n", "a"]
    s.attempts (reloadMoves ++ reloadMoves ++ [.wait 5, .proceed 0]) =
      [⟨0, true⟩, ⟨0, false⟩, ⟨5, false⟩] := by
  decide +kernel

end Session

end AdaptiveHls
