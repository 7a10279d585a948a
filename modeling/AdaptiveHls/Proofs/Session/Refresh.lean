import AdaptiveHls.Proofs.Session.Background

/-!
# Keeping a live playlist fresh

A background task is started by a first load that brings a live playlist and by a resumption that
finds one, and it goes on until the playlist has ended or the session is interrupted. But neither a
first load that finds a snapshot nor a load of the user starts one, so a live playlist that is come
upon in such a way is kept fresh only if it was before.
-/

namespace AdaptiveHls

namespace Session

variable {s u : Session} {t v : Task} {quiet : Prop} {m : Move}

/-- A live playlist is kept fresh unless the session is interrupted. -/
def Attended (s : Session) : Prop :=
  s.tracker.isLive = true → s.interrupted = false → s.isRefreshed = true

/-- Whether the first load returns well in a move; it does at once if there is a snapshot. -/
def initReturns (s : Session) (m : Move) : Bool :=
  match m with
  | .start .init _ => s.tracker.snapshot.isSome
  | _ => (s.actor? m).any fun t => t.purpose = .init && s.endsWell t

/-- Whether the first load has returned well in a run. -/
def inited (s : Session) (moves : List Move) : Bool := (s.newest? initReturns moves).isSome

/-- Whether a move of the user comes upon a live playlist: the first load finds one, or a load of
another kind, after it, brings one. -/
def meetsLive (s : Session) (inited : Bool) (m : Move) : Bool :=
  match m with
  | .start .init _ => s.tracker.isLive && !s.interrupted
  | _ => inited && (s.move m).tracker.isLive &&
      (s.actor? m).any fun t => (t.purpose = .reload || t.purpose = .current) && s.endsWell t

def dropsBackground (s : Session) : Move → Bool
  | .drop id => s.tasks.any fun t => t.id = id && t.purpose = .background
  | _ => false

/-! ## Runs -/

theorem Honest.of_tasks (h : s.Honest) (hserver : u.server = s.server)
    (htasks : ∀ v ∈ u.tasks, v ∈ s.tasks ∨ v.isFetching = false) : u.Honest where
  server := hserver ▸ h.server
  tasks v hv := (htasks v hv).elim (h.tasks v) honest_of_not_fetching

theorem Honest.continued (h : s.Honest) (hu : s.Continued t u) : u.Honest where
  server := hu.server ▸ h.server
  tasks v hv := by
    by_cases hid : v.id = t.id
    · exact (hu.own v hv hid).2
    · exact h.tasks v ((hu.others v hid).1 hv)

theorem Honest.startBackground (h : s.Honest) : s.startBackground.Honest := by
  refine h.of_tasks s.startBackground_frame.2 fun v hv => ?_
  rcases mem_startBackground hv with ⟨hold, -⟩ | ⟨-, hplanning⟩
  · exact .inl hold
  · exact .inr (by simp [Task.isFetching, hplanning])

theorem Honest.step (h : s.Honest) (horderly : s.Orderly quiet none) (ht : t ∈ s.tasks) :
    (s.step t).Honest := by
  rcases step_continued horderly h ht with hu | ⟨-, w, hw, heq⟩
  · exact h.continued hu
  · rw [heq]
    exact (h.continued hw).startBackground

/-- A load that is asked for is one more task, if it is wanted. -/
theorem mem_move_start {purpose : Purpose} {called : Bool} :
    v ∈ (s.move (.start purpose called)).tasks ↔
      v ∈ s.tasks ∨ s.wants purpose = true ∧ v = ⟨s.nextId, purpose, s.period, .waiting⟩ := by
  simp only [Session.move]
  split
  · next hw =>
    rw [look_of_wants hw]
    split
    · simp [startCall, hw, or_comm]
    · simp [startTask, addTask, hw]
  · next hw => simp [hw]

theorem move_start_frame (s : Session) (purpose : Purpose) (called : Bool) :
    let u := s.move (.start purpose called)
    u.interrupted = s.interrupted ∧ u.period = s.period ∧ u.server = s.server ∧
      u.tracker = s.tracker := by
  simp only [Session.move]
  split
  · next hw =>
    rw [look_of_wants hw]
    split
    · simp [startCall]
    · simp [startTask, addTask]
  · simp

theorem Honest.move (h : s.Honest) (horderly : s.Orderly quiet none) (m : Move) :
    (s.move m).Honest := by
  cases m with
  | proceed place =>
    cases hactor : s.actor? (.proceed place) with
    | some t =>
      rw [move_of_actor hactor]
      exact h.step horderly (mem_of_actor hactor).1
    | none =>
      rw [move_of_no_actor hactor]
      exact h
  | start purpose called =>
    refine h.of_tasks (s.move_start_frame purpose called).2.2.1 fun v hv => ?_
    exact (mem_move_start.1 hv).imp_right fun hnew => by simp [hnew.2, Task.isFetching]
  | resume =>
    have hresumed : Honest { s with interrupted := false, period := s.period + 1 } :=
      h.of_tasks rfl fun v hv => .inl hv
    simp only [Session.move]
    split
    · split
      · exact hresumed.startBackground
      · exact hresumed
    · exact h
  | drop id => exact h.of_tasks rfl fun v hv => .inl (mem_removeTask.1 hv).1
  | wait | stop | call => exact h.of_tasks rfl fun v hv => .inl hv

/-- Another task can not take the background task away, only bring a live playlist without one. -/
theorem Attended.step (hs : s.Attended) (horderly : s.Orderly quiet none) (honest : s.Honest)
    (ht : t ∈ s.tasks)
    (hmeets : t.purpose = .reload ∨ t.purpose = .current → s.endsWell t = true →
      (s.step t).tracker.isLive = true → s.isRefreshed = true) : (s.step t).Attended := by
  intro hlive hgoing
  rcases step_continued horderly honest ht with hu | ⟨-, w, hw, heq⟩
  · cases hrefreshes : s.refreshes t with
    | true => exact isRefreshed_step honest ht hrefreshes hlive
    | false =>
      have hkept := hu.isRefreshed horderly ht hrefreshes
      cases hwell : s.endsWell t with
      | false =>
        rw [isLive_of_not_endsWell hwell] at hlive
        exact hkept (hs hlive (hu.interrupted ▸ hgoing))
      | true =>
        cases hpurpose : t.purpose with
        | init => exact isRefreshed_of_init hwell hpurpose hlive
        | reload => exact hkept (hmeets (.inl hpurpose) hwell hlive)
        | current => exact hkept (hmeets (.inr hpurpose) hwell hlive)
        | background =>
          obtain ⟨hcancelled, hfinished⟩ := not_cancelled_of_endsWell hwell
          simp [refreshes, hpurpose, hcancelled, hfinished] at hrefreshes
  · rw [heq, w.startBackground_frame.1] at hgoing
    rw [heq]
    exact isRefreshed_startBackground hgoing

/-- A move that leaves the background task alone keeps a live playlist fresh, unless it comes upon
one that is not. -/
theorem Attended.move (hs : s.Attended) (horderly : s.Orderly quiet none) (honest : s.Honest)
    (hkept : s.dropsBackground m = false)
    (hmeets : s.meetsLive true m = true → s.isRefreshed = true) : (s.move m).Attended := by
  cases m with
  | proceed place =>
    cases hactor : s.actor? (.proceed place) with
    | none =>
      rw [move_of_no_actor hactor]
      exact hs
    | some t =>
      rw [move_of_actor hactor]
      refine hs.step horderly honest (mem_of_actor hactor).1 fun hpurpose hwell hlive => hmeets ?_
      simp [meetsLive, hactor, move_of_actor hactor, hlive, hwell, hpurpose]
  | start purpose called =>
    intro hlive hgoing
    obtain ⟨hinterrupted, hperiod, -, htracker⟩ := s.move_start_frame purpose called
    rw [htracker] at hlive
    rw [hinterrupted] at hgoing
    obtain ⟨v, hv, hrefreshes⟩ := isRefreshed_iff.1 (hs hlive hgoing)
    refine isRefreshed_iff.2 ⟨v, mem_move_start.2 (.inl hv), ?_⟩
    rw [refreshes_congr hinterrupted hperiod, hrefreshes]
  | resume =>
    simp only [Session.move]
    split
    · split
      · intro _ hgoing
        rw [(startBackground_frame _).1] at hgoing
        exact isRefreshed_startBackground hgoing
      · next hended =>
        intro hlive
        exact absurd hlive hended
    · exact hs
  | drop id =>
    intro hlive hgoing
    obtain ⟨v, hv, hrefreshes⟩ := isRefreshed_iff.1 (hs hlive hgoing)
    refine isRefreshed_iff.2 ⟨v, mem_removeTask.2 ⟨hv, ?_⟩, hrefreshes⟩
    rintro rfl
    have hbackground := (refreshes_iff.1 hrefreshes).1
    rw [dropsBackground, List.any_eq_false] at hkept
    exact hkept v hv (by simp [hbackground])
  | stop => exact fun _ hgoing => absurd hgoing (by simp [Session.move])
  | call c =>
    intro hlive hgoing
    refine hs ?_ hgoing
    rwa [← (s.tracker.call_steady c).isLive]
  | wait ms => exact hs

theorem inited_append_singleton (moves : List Move) (m : Move) :
    s.inited (moves ++ [m]) = (s.inited moves || (s.run moves).initReturns m) := by
  rw [inited, newest?_append_singleton, inited]
  cases (s.run moves).initReturns m <;> simp

/-- A first load that finds a snapshot is over at once. -/
theorem move_of_snapshot {called : Bool} (h : s.tracker.snapshot.isSome = true) :
    s.move (.start .init called) = s :=
  if_neg (by simpa [wants, Option.isSome_iff_ne_none] using h)

theorem snapshot_of_isLive (h : s.tracker.isLive = true) : s.tracker.snapshot.isSome = true := by
  obtain ⟨r, hr, -⟩ := (Option.any_eq_true _ _).1 h
  rw [hr]
  rfl

/-- When the first load returns well, a live playlist is kept fresh, if it has to load; if not, it
is as before. -/
theorem Attended.of_initReturns {inited : Bool} (h : s.initReturns m = true)
    (hmeets : s.meetsLive inited m = true → s.isRefreshed = true) : (s.move m).Attended := by
  cases m with
  | start purpose called =>
    cases purpose with
    | init =>
      intro hlive hgoing
      rw [move_of_snapshot h] at hlive hgoing ⊢
      exact hmeets (by simp [meetsLive, hlive, hgoing])
    | _ => simp [initReturns, actor?] at h
  | proceed place =>
    obtain ⟨t, hactor, ht⟩ := (Option.any_eq_true _ _).1 h
    simp only [Bool.and_eq_true, decide_eq_true_eq] at ht
    rw [move_of_actor hactor]
    exact fun hlive _ => isRefreshed_of_init ht.2 ht.1 hlive
  | _ => simp [initReturns, actor?] at h

/-- What comes upon a live playlist does nothing about its being kept fresh. -/
theorem isRefreshed_of_meetsLive {inited : Bool} (horderly : s.Orderly quiet none)
    (honest : s.Honest) (h : s.meetsLive inited m = true) (hafter : (s.move m).Attended) :
    s.isRefreshed = true := by
  cases m with
  | start purpose called =>
    cases purpose with
    | init =>
      simp only [meetsLive, Bool.and_eq_true, Bool.not_eq_true'] at h
      rw [move_of_snapshot (snapshot_of_isLive h.1)] at hafter
      exact hafter h.1 h.2
    | _ => simp [meetsLive, actor?] at h
  | proceed place =>
    simp only [meetsLive, Bool.and_eq_true] at h
    obtain ⟨⟨-, hlive⟩, hany⟩ := h
    obtain ⟨t, hactor, ht⟩ := (Option.any_eq_true _ _).1 hany
    simp only [Bool.and_eq_true, Bool.or_eq_true, decide_eq_true_eq] at ht
    obtain ⟨hpurpose, hwell⟩ := ht
    have hmem := (mem_of_actor hactor).1
    rw [move_of_actor hactor] at hlive hafter
    rcases step_continued horderly honest hmem with hu | ⟨hinit, -⟩
    · have hgoing := (not_cancelled_of_endsWell hwell).1
      simp only [isCancelled, Bool.or_eq_false_iff] at hgoing
      have hother : t.purpose ≠ .background := by rcases hpurpose with h | h <;> simp [h]
      have hrefreshed := hafter hlive (hu.interrupted.trans hgoing.1)
      exact (hu.isRefreshed_iff horderly hmem hother).1 hrefreshed
    · rcases hpurpose with h | h <;> simp [h] at hinit
  | _ => simp [meetsLive, actor?] at h

/-- A live playlist is come upon by the first load or behind it. -/
theorem inited_of_meetsLive {inited : Bool} (h : s.meetsLive inited m = true) :
    inited = true ∨ s.initReturns m = true := by
  cases m with
  | start purpose called =>
    cases purpose with
    | init =>
      simp only [meetsLive, Bool.and_eq_true] at h
      exact .inr (snapshot_of_isLive h.1)
    | _ => simp [meetsLive, actor?] at h
  | proceed place =>
    simp only [meetsLive, Bool.and_eq_true] at h
    exact .inl h.1.1
  | _ => simp [meetsLive, actor?] at h

theorem Honest.run (h : s.Honest) (horderly : s.Orderly False none) (moves : List Move) :
    (s.run moves).Honest := by
  induction moves generalizing s with
  | nil => exact h
  | cons m rest ih => exact ih (h.move horderly m) (horderly.move m fun hfalse => hfalse.elim)

section Attendance

variable (descriptor : Rendition) (config : TrackerConfig) (initial : Option (List UInt8))
  {server : Nat → Answer} {moves : List Move}

/-- Once the first load has returned, a live playlist is kept fresh throughout a run, exactly if
every first load that finds a live playlist, and every later load of the user that brings one, finds
the background task at work. Nobody drops that task, and no answer says that it was interrupted;
other than that the moves and the answers may be any. -/
theorem attended_throughout_iff (answers : ∀ n, (server n).content ≠ .error .interrupted)
    (kept : ∀ k (h : k < moves.length),
      ((fresh descriptor config initial server).run (moves.take k)).dropsBackground moves[k] =
        false) :
    let s := fresh descriptor config initial server
    (∀ k, s.inited (moves.take k) = true → (s.run (moves.take k)).Attended) ↔
      ∀ k (h : k < moves.length),
        (s.run (moves.take k)).meetsLive (s.inited (moves.take k)) moves[k] = true →
          (s.run (moves.take k)).isRefreshed = true := by
  intro s
  have hfresh : s.Honest := ⟨answers, by simp [s, fresh]⟩
  have horderly (k : Nat) : (s.run (moves.take k)).Orderly False none :=
    (fresh_orderly False descriptor config initial server).run (fun hfalse => hfalse.elim)
  have honest (k : Nat) : (s.run (moves.take k)).Honest :=
    hfresh.run (fresh_orderly False descriptor config initial server) _
  have hnext (k : Nat) (h : k < moves.length) :
      moves.take (k + 1) = moves.take k ++ [moves[k]] :=
    List.take_succ_eq_append_getElem h
  constructor
  · intro hattended k h hmeets
    refine isRefreshed_of_meetsLive (horderly k) (honest k) hmeets ?_
    have hafter := hattended (k + 1)
    rw [hnext k h, inited_append_singleton, run_append] at hafter
    exact hafter (Bool.or_eq_true_iff.2 (inited_of_meetsLive hmeets))
  · intro hmeets k
    induction k with
    | zero => simp [inited]
    | succ k ih =>
      intro hinited
      by_cases h : k < moves.length
      · rw [hnext k h, inited_append_singleton, Bool.or_eq_true] at hinited
        rw [hnext k h, run_append]
        by_cases hbefore : s.inited (moves.take k) = true
        · have hfinds := hmeets k h
          rw [hbefore] at hfinds
          exact (ih hbefore).move (horderly k) (honest k) (kept k h) hfinds
        · exact .of_initReturns (hinited.resolve_left hbefore) (hmeets k h)
      · have hsame : moves.take (k + 1) = moves.take k := by
          rw [List.take_of_length_le (by omega), List.take_of_length_le (by omega)]
        rw [hsame] at hinited ⊢
        exact ih hinited

/-- The first load, one of the background task and one of the user, and an interruption. -/
theorem attended_throughout_of_first_load :
    let s := served (List.replicate 3 "#EXTM3U\na\n")
    let moves := [.start .init true, .proceed 0, .proceed 0, .drop 0, .proceed 0, .wait 10000,
      .proceed 0, .proceed 0, .proceed 0] ++ reloadMoves ++ [.stop, .resume]
    s.inited moves = true ∧ (s.run moves).tracker.isLive = true ∧
      (s.run moves).requests.length = 3 ∧
      ∀ k, s.inited (moves.take k) = true → (s.run (moves.take k)).Attended := by
  intro s moves
  have answers : ∀ n, (s.server n).content ≠ .error .interrupted := by
    intro n
    simp only [s, served, fresh]
    split <;> simp
  refine ⟨by decide +kernel, by decide +kernel, by decide +kernel, ?_⟩
  exact (attended_throughout_iff s.tracker.descriptor {} none answers (by decide +kernel)).2
    (by decide +kernel)

/-- A live playlist that was reloaded before the first load gets no background task, and no other
request is sent. -/
theorem attended_throughout_of_loaded_before :
    let u := (served ["#EXTM3U\na\n"]).reload.2
    let v := u.init.2
    u.init.1 = some .done ∧ v.tracker.isLive = true ∧ v.interrupted = false ∧
      v.isRefreshed = false ∧ (v.advance 60000).requests.length = 1 := by
  decide +kernel

end Attendance

end Session

end AdaptiveHls
