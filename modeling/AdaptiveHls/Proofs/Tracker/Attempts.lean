import AdaptiveHls.Tracker.Basic

/-!
# What attempts to load change

An attempt makes a request and then ends. Until it has ended well it may only use up what was
meant to be used, and record how it went; `Untouched` lists what stays. An attempt that ends well
installs a rendition, and that is all that it does.
-/

namespace AdaptiveHls

/-- What `u` has in common with `t` when no load has ended well in between. -/
structure Tracker.Untouched (t u : Tracker) : Prop where
  descriptor : u.descriptor = t.descriptor
  config : u.config = t.config
  snapshot : u.snapshot = t.snapshot
  cursor : u.cursor = t.cursor
  seeked : u.seeked = t.seeked
  unchanged : u.reload.unchanged = t.reload.unchanged
  lastHint : u.lastHint = t.lastHint
  preload : u.preload = t.preload
  /-- Initial data and reports can be used up. -/
  initial : u.initial = t.initial ∨ u.initial = none
  reports : u.reports = t.reports ∨ u.reports = []

namespace Tracker

variable {t u v : Tracker} {now : Nat} {answer : Except Failure (List UInt8)}

theorem Untouched.refl (t : Tracker) : Untouched t t :=
  ⟨rfl, rfl, rfl, rfl, rfl, rfl, rfl, rfl, .inl rfl, .inl rfl⟩

theorem Untouched.trans (h : Untouched t u) (h' : Untouched u v) : Untouched t v where
  descriptor := h'.descriptor.trans h.descriptor
  config := h'.config.trans h.config
  snapshot := h'.snapshot.trans h.snapshot
  cursor := h'.cursor.trans h.cursor
  seeked := h'.seeked.trans h.seeked
  unchanged := h'.unchanged.trans h.unchanged
  lastHint := h'.lastHint.trans h.lastHint
  preload := h'.preload.trans h.preload
  initial := by
    rcases h'.initial with hi | hi
    · rw [hi]; exact h.initial
    · exact .inr hi
  reports := by
    rcases h'.reports with hr | hr
    · rw [hr]; exact h.reports
    · exact .inr hr

theorem Untouched.segmentList? (h : Untouched t u) : u.segmentList? = t.segmentList? := by
  rw [Tracker.segmentList?, Tracker.segmentList?, h.snapshot]

theorem takeInitial_untouched (t : Tracker) : Untouched t t.takeInitial.2 :=
  { Untouched.refl t with initial := .inr rfl }

/-- Making a request uses up no more than the reports. -/
theorem nextRequest_eq (t : Tracker) (now : Nat) (full : Bool) :
    (t.nextRequest now full).2 = t ∨ (t.nextRequest now full).2 = { t with reports := [] } := by
  simp only [nextRequest]
  split
  · exact .inl rfl
  · split
    · exact .inl rfl
    · dsimp only
      generalize Option.isSome _ = used
      cases used with
      | true => exact .inr rfl
      | false => exact .inl rfl

theorem nextRequest_untouched (t : Tracker) (now : Nat) (full : Bool) :
    Untouched t (t.nextRequest now full).2 := by
  rcases t.nextRequest_eq now full with h | h
  · rw [h]; exact .refl t
  · rw [h]; exact { Untouched.refl t with reports := .inr rfl }

theorem demandFull_untouched (t : Tracker) : Untouched t t.demandFull :=
  { Untouched.refl t with unchanged := rfl }

theorem recordFailure_untouched (t : Tracker) (now : Nat) : Untouched t (t.recordFailure now) :=
  { Untouched.refl t with unchanged := rfl }

/-- An attempt either fails and touches nothing, or installs what it has read. -/
theorem conclude_cases (t : Tracker) (now : Nat) (answer : Except Failure (List UInt8)) :
    (∃ e, (t.conclude now answer).1 = .error e ∧ Untouched t (t.conclude now answer).2) ∨
      ∃ data r complete, answer = .ok data ∧ t.readSnapshot data = .ok r ∧
        t.completeDelta r = .ok complete ∧
        t.conclude now answer = (.ok (), t.install now complete) := by
  cases answer with
  | error e =>
    refine .inl ⟨e, ?_⟩
    cases e with
    | interrupted => exact ⟨rfl, .refl t⟩
    | _ => exact ⟨rfl, t.recordFailure_untouched now⟩
  | ok data =>
    simp only [conclude, apply, bind, Except.bind]
    cases hr : t.readSnapshot data with
    | error e => exact .inl ⟨e, rfl, t.recordFailure_untouched now⟩
    | ok r =>
      cases hc : t.completeDelta r with
      | error e => exact .inl ⟨e, by simp [hc], by simpa [hc] using t.recordFailure_untouched now⟩
      | ok complete => exact .inr ⟨data, r, complete, rfl, hr, hc, by simp [hc, pure, Except.pure]⟩

theorem conclude_untouched {e : Failure} (h : (t.conclude now answer).1 = .error e) :
    Untouched t (t.conclude now answer).2 := by
  rcases t.conclude_cases now answer with ⟨_, _, hu⟩ | ⟨_, _, _, _, _, _, hok⟩
  · exact hu
  · rw [hok] at h
    cases h

end Tracker

end AdaptiveHls
