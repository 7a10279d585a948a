import AdaptiveHls.Proofs.Session.Pace
import AdaptiveHls.Proofs.Session.Snapshots

/-!
# The end of a live window

A load is taken to have brought nothing new if the window ends where it ended before, with a segment
of the same number that lists as many parts. The next request then does not ask the server to wait.
That is right but for a segment that has been completed without a further part, which looks the same
although something else is to be waited for now.

What is waited for is told by the last segment, or by what siblings report. The first is never held
already. A report is trusted unless it is behind the last segment, and so it can name that segment
itself.
-/

namespace AdaptiveHls

/-- The last segment has become another one, it has more or fewer parts, or it has been completed. -/
def Rendition.Advances (old new : Rendition) : Prop :=
  ∃ b ∈ new.lastSegment?, ∀ a ∈ old.lastSegment?,
    a.sequence ≠ b.sequence ∨ a.parts.length ≠ b.parts.length ∨
      a.inProgress = true ∧ b.inProgress = false

/-- The last segment has been completed, and no part has come with that. -/
def Rendition.CompletesAlone (old new : Rendition) : Prop :=
  ∃ a ∈ old.lastSegment?, ∃ b ∈ new.lastSegment?, a.sequence = b.sequence ∧
    a.parts.length = b.parts.length ∧ a.inProgress = true ∧ b.inProgress = false

/-- Something that a window which ends with `last` does not hold. -/
def Target.Beyond (target : Target) (last : Segment) : Prop :=
  last.sequence < target.sequence ∨ target.sequence = last.sequence ∧ last.inProgress = true ∧
    ∃ p ∈ target.part, last.parts.length ≤ p

/-- Something that a window which ends with `last` ends with, too. -/
def RenditionReport.Repeats (report : RenditionReport) (last : Segment) : Prop :=
  report.lastSequence = some last.sequence ∧
    (last.inProgress = true → ∀ p ∈ report.lastPart, p < last.parts.length)

instance (old new : Rendition) : Decidable (old.Advances new) :=
  inferInstanceAs (Decidable (∃ b ∈ new.lastSegment?, ∀ a ∈ old.lastSegment?,
    a.sequence ≠ b.sequence ∨ a.parts.length ≠ b.parts.length ∨
      a.inProgress = true ∧ b.inProgress = false))

instance (old new : Rendition) : Decidable (old.CompletesAlone new) :=
  inferInstanceAs (Decidable (∃ a ∈ old.lastSegment?, ∃ b ∈ new.lastSegment?,
    a.sequence = b.sequence ∧ a.parts.length = b.parts.length ∧
      a.inProgress = true ∧ b.inProgress = false))

instance (target : Target) (last : Segment) : Decidable (target.Beyond last) :=
  inferInstanceAs (Decidable (_ ∨ _ ∧ _ ∧ ∃ p ∈ target.part, last.parts.length ≤ p))

instance (report : RenditionReport) (last : Segment) : Decidable (report.Repeats last) :=
  inferInstanceAs (Decidable (_ ∧ (_ → ∀ p ∈ report.lastPart, p < last.parts.length)))

namespace Rendition

variable {old new r : Rendition} {last : Segment}

theorem mem_of_lastSegment (h : r.lastSegment? = some last) : last ∈ r.segments := by
  obtain ⟨l, hl, hlast⟩ := Option.bind_eq_some_iff.1 h
  rw [segments, hl]
  exact List.mem_of_getLast? hlast

theorem lastSequence?_of_lastSegment (h : r.lastSegment? = some last) :
    r.lastSequence? = some last.sequence := by
  obtain ⟨l, hl, hlast⟩ := Option.bind_eq_some_iff.1 h
  simp [lastSequence?, SegmentList.lastSequence?, hl, hlast]

/-- Completion alone cannot be told from no advance at all. -/
theorem edge_ne_iff (h : old.Advances new) :
    Tracker.edge old ≠ Tracker.edge new ↔ ¬ old.CompletesAlone new := by
  obtain ⟨b, hb, hadvance⟩ := h
  rw [Ne, not_iff_not]
  constructor
  · intro hedge
    rw [Tracker.edge, Tracker.edge, hb, Option.map_some, Option.map_eq_some_iff] at hedge
    obtain ⟨a, ha, hsame⟩ := hedge
    obtain ⟨hsequence, hparts⟩ := Prod.mk.inj hsame
    obtain ⟨hopen, hwhole⟩ :=
      ((hadvance a ha).resolve_left (absurd hsequence)).resolve_left (absurd hparts)
    exact ⟨a, ha, b, hb, hsequence, hparts, hopen, hwhole⟩
  · rintro ⟨a, ha, b', hb', hsequence, hparts, _⟩
    rw [Tracker.edge, Tracker.edge, ha, hb', Option.map_some, Option.map_some, hsequence, hparts]

end Rendition

namespace Reload

variable {r : Rendition} {last : Segment} {target : Target}

/-- The next thing is never held already: it is a part more, or the segment behind the last. -/
theorem nextTarget?_beyond (hlast : r.lastSegment? = some last) (hsound : last.Sound)
    (h : nextTarget? r = some target) : target.Beyond last := by
  rw [nextTarget?, hlast, Option.map_some, Option.some.injEq] at h
  cases hprogress : last.inProgress with
  | true =>
    rw [hprogress, if_pos rfl] at h
    rw [← h]
    exact .inr ⟨rfl, hprogress, _, rfl, Nat.le_refl _⟩
  | false =>
    rw [hprogress, if_neg (by decide), hsound.add_one] at h
    rw [← h]
    exact .inl (Nat.lt_succ_self _)

/-- The report that is taken is the first one that says something of use. -/
theorem reportedTarget?_eq (r : Rendition) (reports : List RenditionReport) :
    reportedTarget? r reports =
      (reports.find? fun report => (reportTarget? r report).isSome).bind (reportTarget? r) := by
  rw [reportedTarget?]
  induction reports with
  | nil => rfl
  | cons report rest ih =>
    cases h : reportTarget? r report with
    | none => simp [h, ih]
    | some target => simp [h]

/-- A target that a report names is where the report stands, at the last segment or behind it. -/
theorem reportTarget?_eq_some {report : RenditionReport} (hlast : r.lastSegment? = some last)
    (h : reportTarget? r report = some target) :
    report.lastSequence = some target.sequence ∧ report.lastPart = target.part ∧
      last.sequence ≤ target.sequence := by
  rw [reportTarget?, Rendition.lastSequence?_of_lastSegment hlast] at h
  split at h
  · simp only [Option.map_eq_some_iff, Option.filter_eq_some_iff, Option.getD_some,
      decide_eq_true_eq] at h
    obtain ⟨n, ⟨hn, hle⟩, rfl⟩ := h
    exact ⟨hn, rfl, hle⟩
  · cases h

/-- Among the targets that reports name, only those at the last segment can be held already. -/
theorem beyond_iff_not_repeats {report : RenditionReport} (hlast : r.lastSegment? = some last)
    (h : reportTarget? r report = some target) : target.Beyond last ↔ ¬ report.Repeats last := by
  obtain ⟨hsequence, hpart, hle⟩ := reportTarget?_eq_some hlast h
  rw [RenditionReport.Repeats, hsequence, hpart, Option.some.injEq, Target.Beyond]
  constructor
  · rintro (hlt | ⟨_, hprogress, p, hp, hparts⟩) ⟨heq, hheld⟩
    · omega
    · exact absurd (hheld hprogress p hp) (Nat.not_lt.2 hparts)
  · intro hnot
    by_cases heq : target.sequence = last.sequence
    · refine .inr ⟨heq, ?_⟩
      simp only [heq, true_and, Classical.not_imp, not_forall, Nat.not_lt] at hnot
      obtain ⟨hprogress, p, hp, hparts⟩ := hnot
      exact ⟨hprogress, p, hp, hparts⟩
    · exact .inl (Nat.lt_of_le_of_ne hle (Ne.symm heq))

end Reload

namespace Session

variable {s : Session} {m : Move} {old new : Rendition}

/-- A load that installs a snapshot marks it as unchanged if it ends where the one before ended. -/
theorem unchanged_of_installing (h : s.installing m = true) (hold : s.tracker.snapshot = some old)
    (hnew : (s.move m).tracker.snapshot = some new) :
    (s.move m).tracker.reload.unchanged = (Tracker.edge old == Tracker.edge new) := by
  obtain ⟨data, hdata⟩ := Option.isSome_iff_exists.1 h
  obtain ⟨_, _, complete, _, _, hsteady⟩ := move_of_installs hdata
  have hcomplete : complete = new := Option.some.inj (hsteady.snapshot.symm.trans hnew)
  rw [hsteady.reload, (s.tracker.install_steady s.now complete).2.2, hold, hcomplete]
  rfl

/-! ## Advances and targets -/

/-- When a load finds that the window has advanced, and until another load installs something, the
load is recorded as one that has brought something new exactly if more has come than the completion
of the last segment. The next request to a live playlist whose server can hold requests, whenever it
is made and whatever else it asks for, asks to wait exactly then. -/
theorem advance_recorded_iff {after : List Move} (hold : s.tracker.snapshot = some old)
    (hload : s.installing m = true) (hnew : (s.move m).tracker.snapshot = some new)
    (hafter : (s.move m).installed after = []) (hadvance : old.Advances new) :
    let t := ((s.move m).run after).tracker
    t.snapshot = some new ∧
      (t.reload.unchanged = false ↔ ¬ old.CompletesAlone new) ∧
      (new.live = true → new.serverControl.canBlock = true → ∀ now full,
        ((t.nextRequest now full).1.target.isSome = true ↔ ¬ old.CompletesAlone new) ∧
        ((t.nextRequest now full).1.url.asksToWait = true ↔ ¬ old.CompletesAlone new)) := by
  intro t
  obtain ⟨hsame, hmark⟩ := run_of_installed_nil hafter
  have hsnapshot : t.snapshot = some new := hsame.trans hnew
  have hchanged : t.reload.unchanged = false ↔ ¬ old.CompletesAlone new := by
    rw [hmark, unchanged_of_installing hload hold hnew, beq_eq_false_iff_ne]
    exact Rendition.edge_ne_iff hadvance
  refine ⟨hsnapshot, hchanged, fun hlive hblock now full => ?_⟩
  have htarget : (Reload.nextTarget? new).isSome = true := by
    obtain ⟨b, hb, _⟩ := hadvance
    rw [Reload.nextTarget?, show new.lastSegment? = some b from hb]
    rfl
  have hrequest := Tracker.target_nextRequest hsnapshot hlive hblock htarget now full
  rw [hrequest.1, hrequest.2, Bool.not_eq_true']
  exact ⟨hchanged, hchanged⟩

/-- A playlist whose server can hold requests, with these parts behind a whole segment. -/
def blockingBody (parts : List String) (rest : String) : String :=
  partsBody parts (rest ++ "#EXT-X-SERVER-CONTROL:CAN-BLOCK-RELOAD=YES\n")

/-- A reload, and another one up to the moment at which it is answered. -/
def reloadingMoves : List Move := reloadMoves ++ [.start .reload true, .proceed 0]

/-- One part more is an advance, and it is recorded. -/
theorem advance_recorded_of_part :
    let s := (served [blockingBody ["b0"] "", blockingBody ["b0", "b1"] ""]).run reloadingMoves
    let t := ((s.move (.proceed 0)).run [.call .next]).tracker
    ∃ old new, s.tracker.snapshot = some old ∧ (s.move (.proceed 0)).tracker.snapshot = some new ∧
      s.installing (.proceed 0) = true ∧ (s.move (.proceed 0)).installed [.call .next] = [] ∧
      old.Advances new ∧ t.reload.unchanged = false ∧
      ∀ now full, (t.nextRequest now full).1.url.asksToWait = true := by
  intro s t
  have hrun : s.installing (.proceed 0) = true ∧
      (s.move (.proceed 0)).installed [.call .next] = [] ∧
      ∃ old ∈ s.tracker.snapshot, ∃ new ∈ (s.move (.proceed 0)).tracker.snapshot,
        old.Advances new ∧ ¬ old.CompletesAlone new ∧ new.live = true ∧
          new.serverControl.canBlock = true := by
    decide +kernel
  obtain ⟨hload, hafter, old, hold, new, hnew, hadvance, hmore, hlive, hblock⟩ := hrun
  obtain ⟨_, hchanged, hrequest⟩ := advance_recorded_iff hold hload hnew hafter hadvance
  exact ⟨old, new, hold, hnew, hload, hafter, hadvance, hchanged.2 hmore,
    fun now full => (hrequest hlive hblock now full).2.2 hmore⟩

/-- A segment completes with the parts that it had, and the server is not asked to wait for the one
behind it. -/
theorem advance_recorded_of_completion :
    let s := (served [blockingBody ["b0", "b1"] "", blockingBody ["b0", "b1"] "b\n"]).run
      reloadingMoves
    let t := (s.move (.proceed 0)).tracker
    s.installing (.proceed 0) = true ∧
      (∃ old ∈ s.tracker.snapshot, ∃ new ∈ t.snapshot, old.Advances new ∧ new.live = true ∧
        new.serverControl.canBlock = true) ∧
      t.reload.unchanged = true ∧ (t.nextRequest s.now false).1.target = none := by
  decide +kernel

/-- In whatever snapshot, what the last segment tells to wait for is not held yet. What a list of
reports tells to wait for is not held yet exactly if the first of them that is used, as it is about
the playlist and not behind it, does not repeat where the window ends. -/
theorem targets_beyond_iff {descriptor : Rendition} {config : TrackerConfig}
    {initial : Option (List UInt8)} {server : Nat → Answer} {moves : List Move} {r : Rendition}
    {last : Segment}
    (hr : ((fresh descriptor config initial server).run moves).tracker.snapshot = some r)
    (hlast : r.lastSegment? = some last) :
    (∀ target ∈ Reload.nextTarget? r, target.Beyond last) ∧
    ∀ reports, (∀ target ∈ Reload.reportedTarget? r reports, target.Beyond last) ↔
      ∀ report ∈ reports.find? fun report => (Reload.reportTarget? r report).isSome,
        ¬ report.Repeats last := by
  have hsound : last.Sound := run_sound hr last (Rendition.mem_of_lastSegment hlast)
  refine ⟨fun target htarget => Reload.nextTarget?_beyond hlast hsound htarget, fun reports => ?_⟩
  rw [Reload.reportedTarget?_eq]
  cases hfind : reports.find? fun report => (Reload.reportTarget? r report).isSome with
  | none => simp
  | some report =>
    have hsome : (Reload.reportTarget? r report).isSome = true :=
      List.find?_some (p := fun report => (Reload.reportTarget? r report).isSome) hfind
    obtain ⟨target, htarget⟩ := Option.isSome_iff_exists.1 hsome
    have hiff := Reload.beyond_iff_not_repeats hlast htarget
    simpa [htarget] using hiff

def hostedUrl : Url where
  scheme := "https"
  authority := some { host := .domain "example.com" }
  path := .segments ["live.m3u8"]

def hosted (bodies : List String) : Session :=
  fresh (.ofUrl hostedUrl) {} none (served bodies).server

def ownReport (sequence : Nat) (part : Option Nat) : RenditionReport :=
  { uri := "https://example.com/live.m3u8", lastSequence := some sequence, lastPart := part }

/-- A report that is a part ahead gives a target that is beyond the window. -/
theorem targets_beyond_of_part_ahead :
    ∃ r last target, ((hosted [partsBody ["b0"] ""]).run reloadMoves).tracker.snapshot = some r ∧
      r.lastSegment? = some last ∧
      Reload.reportedTarget? r [ownReport 0 none, ownReport 1 (some 1)] = some target ∧
      target.Beyond last := by
  have hrun : ∃ r ∈ ((hosted [partsBody ["b0"] ""]).run reloadMoves).tracker.snapshot,
      ∃ last ∈ r.lastSegment?,
      ∃ target ∈ Reload.reportedTarget? r [ownReport 0 none, ownReport 1 (some 1)],
      ∀ report ∈ [ownReport 0 none, ownReport 1 (some 1)].find? fun report =>
        (Reload.reportTarget? r report).isSome, ¬ report.Repeats last := by
    decide +kernel
  obtain ⟨r, hr, last, hlast, target, htarget, hfirst⟩ := hrun
  exact ⟨r, last, target, hr, hlast, htarget,
    ((targets_beyond_iff hr hlast).2 _).2 hfirst target htarget⟩

/-- A report that repeats the number of the last segment makes the client wait for what it has. -/
theorem targets_beyond_of_repeated :
    ∃ r ∈ ((hosted [partsBody [] ""]).run reloadMoves).tracker.snapshot,
      r.live = true ∧ Rising r.segments ∧ ∃ last ∈ r.lastSegment?,
        ∃ target ∈ Reload.reportedTarget? r [ownReport 0 none], ¬ target.Beyond last := by
  decide +kernel

end Session

end AdaptiveHls
