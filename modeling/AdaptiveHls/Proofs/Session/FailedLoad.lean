import AdaptiveHls.Proofs.Session.Moves
import Mathlib.Data.List.Basic

/-!
# Loads that fail

A load is a stretch of one task's steps, from the start of the load to the step that ends it. Between
them other tasks may take steps and calls may come, and these may change the tracker. The steps of a
load that ends badly do not: each of them leaves the tracker untouched, whatever the reason is and
however late the load finds out.
-/

namespace AdaptiveHls

namespace Session

/-- From `s` on the load of task `id` takes these steps, each given by the sessions before and after
it, and then ends with `r`. -/
inductive Underway (id : Nat) : Session → List (Session × Session) → Except Failure Unit → Prop where
  | elsewhere {s : Session} {m : Move} {steps : List (Session × Session)} {r : Except Failure Unit}
    (other : ∀ t, s.actor? m = some t → t.id ≠ id) (rest : Underway id (s.move m) steps r) :
    Underway id s steps r
  | goesOn {s : Session} {m : Move} {t : Task} {steps : List (Session × Session)}
    {r : Except Failure Unit} (own : s.actor? m = some t) (hid : t.id = id)
    (ending : s.ending? t = none) (rest : Underway id (s.move m) steps r) :
    Underway id s ((s, s.move m) :: steps) r
  | ends {s : Session} {m : Move} {t : Task} {r : Except Failure Unit}
    (own : s.actor? m = some t) (hid : t.id = id) (ending : s.ending? t = some r) :
    Underway id s [(s, s.move m)] r

/-- A load that a user starts, or the background task when it has rested. -/
inductive Load (id : Nat) : List (Session × Session) → Except Failure Unit → Prop where
  | called {s : Session} {purpose : Purpose} {called : Bool} {steps : List (Session × Session)}
    {r : Except Failure Unit} (wanted : s.wants purpose = true) (hid : s.nextId = id)
    (rest : Underway id (s.move (.start purpose called)) steps r) :
    Load id ((s, s.move (.start purpose called)) :: steps) r
  | scheduled {s : Session} {m : Move} {t : Task} {steps : List (Session × Session)}
    {r : Except Failure Unit} (own : s.actor? m = some t) (hid : t.id = id)
    (starts : s.step t = s.startLoad t) (rest : Underway id (s.move m) steps r) :
    Load id ((s, s.move m) :: steps) r

variable {id : Nat} {s : Session} {steps : List (Session × Session)} {e : Failure}

/-- No step of a load that ends in an error touches what its user sees. -/
theorem Underway.untouched (h : Underway id s steps (.error e)) :
    ∀ p ∈ steps, p.1.tracker.Untouched p.2.tracker := by
  generalize hr : (Except.error e : Except Failure Unit) = r at h
  induction h with
  | elsewhere _ _ ih => exact ih hr
  | goesOn own _ ending _ ih =>
    refine List.forall_mem_cons.2 ⟨?_, ih hr⟩
    rw [move_of_actor own]
    exact step_untouched _ _ (by simp [ending])
  | ends own _ ending =>
    rw [List.forall_mem_singleton, move_of_actor own]
    exact step_untouched _ _ (by simp [ending, ← hr])

theorem find?_setTask {tasks : List Task} {t u : Task} (ht : t ∈ tasks) (hid : t.id = u.id) :
    (tasks.map fun v => if v.id = u.id then u else v).find? (·.id == u.id) = some u := by
  induction tasks with
  | nil => cases ht
  | cons v rest ih =>
    by_cases hv : v.id = u.id
    · simp [hv]
    · have hrest : t ∈ rest := by
        rcases List.mem_cons.1 ht with rfl | hrest
        · exact absurd hid hv
        · exact hrest
      simp only [List.map_cons, if_neg hv, List.find?_cons, beq_eq_false_iff_ne.2 hv]
      exact ih hrest

theorem outcome?_setTask {t u : Task} (ht : t ∈ s.tasks) (hid : t.id = u.id) :
    (s.setTask u).outcome? u.id = u.activity.outcome? := by
  simp only [outcome?, setTask, find?_setTask ht hid, Option.bind_some]

/-- A load that has failed says so, unless it is one of the background task. -/
theorem finishLoad_outcome {t : Task} (ht : t ∈ s.tasks) (hpurpose : t.purpose ≠ .background)
    (e : Failure) : (s.finishLoad t (.error e)).outcome? t.id = some (.failed e) := by
  have hfinish : s.finishLoad t (.error e) =
      (s.leave t.id).setTask { t with activity := .finished (.failed e) } := by
    cases hp : t.purpose with
    | background => exact absurd hp hpurpose
    | _ => simp only [finishLoad, hp]
  have htasks : (s.leave t.id).tasks = s.tasks := by
    simp only [leave]
    split <;> rfl
  rw [hfinish]
  exact outcome?_setTask (t := t) (u := { t with activity := .finished (.failed e) })
    (htasks ▸ ht) rfl

/-- A task tells its caller with which failure its load has ended. -/
theorem outcome?_of_ending {t : Task} (ht : t ∈ s.tasks) (hpurpose : t.purpose ≠ .background)
    (h : s.ending? t = some (.error e)) : (s.step t).outcome? t.id = some (.failed e) := by
  cases s.step_cases t with
  | between ending _ => rw [ending] at h; cases h
  | begun _ ending _ => rw [ending] at h; cases h
  | retried _ _ ending _ _ => rw [ending] at h; cases h
  | interrupted ending step =>
    rw [ending] at h
    cases h
    rw [step]
    exact finishLoad_outcome ht hpurpose _
  | ended answer ending step =>
    rw [ending, Option.some.injEq] at h
    rw [step, h]
    refine finishLoad_outcome ?_ hpurpose e
    exact ht

/-- A load that ends badly leaves the tracker untouched with every step that it takes. -/
theorem failed_load_untouched (h : Load id steps (.error e)) :
    ∀ p ∈ steps, p.1.tracker.Untouched p.2.tracker := by
  cases h with
  | called wanted _ rest =>
    refine List.forall_mem_cons.2 ⟨?_, rest.untouched⟩
    simp only [move, wanted, if_true, look_of_wants wanted]
    split
    · rw [startCall_tracker]; exact .refl _
    · rw [startTask_tracker]; exact .refl _
  | scheduled own _ starts rest =>
    refine List.forall_mem_cons.2 ⟨?_, rest.untouched⟩
    rw [move_of_actor own, starts, startLoad_tracker]
    exact .refl _

/-- A playlist, and then twice a delta update that leaves out more than can be filled in. -/
def staleBodies : List String :=
  let delta := "#EXTM3U\n#EXT-X-MEDIA-SEQUENCE:5\n#EXT-X-SKIP:SKIPPED-SEGMENTS=3\nb.ts\n"
  ["#EXTM3U\n#EXT-X-MEDIA-SEQUENCE:5\na.ts\n", delta, delta]

theorem exists_actor {m : Move} {ending : Option (Except Failure Unit)}
    (h : (s.actor? m).map (fun t => (t.id, s.ending? t)) = some (id, ending)) :
    ∃ t, s.actor? m = some t ∧ t.id = id ∧ s.ending? t = ending := by
  obtain ⟨t, ht, hfields⟩ := Option.map_eq_some_iff.1 h
  exact ⟨t, ht, Prod.mk.inj hfields⟩

/-- A delta update that leaves out too much, and another one where the playlist in full was asked
for: the load fails and leaves everything as it was. -/
theorem failed_load_untouched_of_stale_delta :
    ∃ steps, Load 1 steps (.error (.missingSegments 2)) ∧ steps.length = 4 ∧
      ∀ p ∈ steps, p.1.tracker.Untouched p.2.tracker := by
  let s := (served staleBodies).run (reloadMoves ++ [.call .next])
  let s₁ := s.move (.start .reload true)
  let s₂ := s₁.move (.proceed 0)
  let s₃ := s₂.move (.proceed 0)
  let next (s : Session) := (s.actor? (.proceed 0)).map fun t => (t.id, s.ending? t)
  obtain ⟨hid, h₁, h₂, h₃⟩ : s.nextId = 1 ∧ next s₁ = some (1, none) ∧ next s₂ = some (1, none) ∧
      next s₃ = some (1, some (.error (.missingSegments 2))) := by
    decide +kernel
  obtain ⟨t₁, own₁, hid₁, ending₁⟩ := exists_actor h₁
  obtain ⟨t₂, own₂, hid₂, ending₂⟩ := exists_actor h₂
  obtain ⟨t₃, own₃, hid₃, ending₃⟩ := exists_actor h₃
  have hrest : Underway 1 (s.move (.start .reload true)) _ (.error (.missingSegments 2)) :=
    .goesOn own₁ hid₁ ending₁ (.goesOn own₂ hid₂ ending₂ (.ends own₃ hid₃ ending₃))
  have hload := Load.called rfl hid hrest
  exact ⟨_, hload, rfl, failed_load_untouched hload⟩

end Session

end AdaptiveHls
