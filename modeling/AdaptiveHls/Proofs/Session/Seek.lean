import AdaptiveHls.Proofs.Session.Changes
import AdaptiveHls.Proofs.Session.Remaining

/-!
# Seeking

Playback may place the cursor where no segment is known yet, in front of the window or far behind it.
A load takes the cursor along when the window has left it behind, but the first load that brings a
window after a seek does not, and only that one. Loads that fail or bring no segment do not count. So
the next segment that is handed out after the seek is the first one that is not in front of the place
that was asked for.
-/

namespace AdaptiveHls

def Call.usesCursor : Call → Bool
  | .takePreload | .setReports _ => false
  | _ => true

def Consecutive (segments : List Segment) : Prop :=
  ∃ first, segments.map (·.sequence) = List.range' first segments.length

section Lists

variable {segments : List Segment} {first last : Segment} {n : Nat}

theorem Consecutive.rising (h : Consecutive segments) : Rising segments := by
  obtain ⟨first, h⟩ := h
  rw [Rising, h]
  exact List.pairwise_lt_range'

/-- Between two segments none is missing. -/
theorem Consecutive.exists_mem (h : Consecutive segments) (hfirst : first ∈ segments)
    (hlast : last ∈ segments) (hn : first.sequence ≤ n) (hn' : n ≤ last.sequence) :
    ∃ s ∈ segments, s.sequence = n := by
  obtain ⟨start, h⟩ := h
  have hmem (k : Nat) : (∃ s ∈ segments, s.sequence = k) ↔
      start ≤ k ∧ k < start + segments.length := by
    rw [← List.mem_map, h, List.mem_range'_1]
  have hlow := (hmem _).1 ⟨first, hfirst, rfl⟩
  have hhigh := (hmem _).1 ⟨last, hlast, rfl⟩
  exact (hmem n).2 ⟨by omega, by omega⟩

end Lists

namespace Tracker

variable {t : Tracker} {l : SegmentList}

def windowStart? (t : Tracker) : Option Nat := t.segmentList?.bind (·.firstSequence?)

/-- If no number is missing, the next segment is the first one that is not in front of the cursor. -/
theorem next_of_consecutive (hl : t.segmentList? = some l) (h : Consecutive l.segments)
    (hpart : t.cursor.part = 0) : t.next.1 = (l.since t.cursor.sequence).head? := by
  have hrising : ∀ l', t.segmentList? = some l' → Rising l'.segments := by
    intro l' hl'
    rw [hl] at hl'
    exact Option.some.inj hl' ▸ h.rising
  have hahead : t.ahead = l.since t.cursor.sequence := by rw [ahead, hl]; rfl
  rw [← hahead]
  by_cases habreast : t.Abreast
  · have hlook := segmentAtCursor_of_abreast habreast
    rw [next_of_part_eq_zero (by rw [hlook]; exact hpart), hlook, segment?_eq hrising, hahead]
    cases hhead : (l.since t.cursor.sequence).head? with
    | none => rfl
    | some s =>
      obtain ⟨hs, hle, hleast⟩ := (SegmentList.head?_since_eq_some_iff h.rising).1 hhead
      obtain ⟨first, hfirst⟩ :=
        Option.isSome_iff_exists.1 (List.isSome_head?.2 (List.ne_nil_of_mem hs))
      have hstart : first.sequence ≤ t.cursor.sequence := by
        refine habreast first.sequence ?_
        rw [hl, Option.bind_some, SegmentList.firstSequence?, SegmentList.first?, hfirst]
        rfl
      obtain ⟨e, he, hcursor⟩ := h.exists_mem (List.mem_of_head? hfirst) hs hstart hle
      have hsame : s.sequence = t.cursor.sequence :=
        Nat.le_antisymm (hcursor ▸ hleast e he (Nat.le_of_eq hcursor.symm)) hle
      simp [hsame]
  · obtain ⟨s, hlook, _, _, hsegment, hmoved⟩ := segmentAtCursor_of_not_abreast hrising habreast
    rw [next_of_part_eq_zero (by rw [hlook]; rfl), hlook, ← hmoved]
    rw [segment?_eq (t := t.moveTo s.sequence) hrising, Option.filter_eq_some_iff] at hsegment
    exact hsegment.1.symm

end Tracker

namespace Session

variable {s : Session} {m : Move} {moves : List Move} {n : Nat}

/-- Whether a move looks at the cursor or moves it, other than by following the window. -/
def usesCursor (s : Session) (m : Move) : Bool :=
  match m with
  | .call c => c.usesCursor
  | _ => s.looksAfter m

def bringsWindow (s : Session) (m : Move) : Bool :=
  s.installing m && (s.move m).tracker.windowStart?.isSome

theorem looksAfter_of_not_usesCursor (hm : m.isCall = false) (h : s.usesCursor m = false) :
    s.looksAfter m = false := by
  cases m with
  | call c => cases hm
  | _ => exact h

/-- A place that was asked for stays as long as no window comes. -/
theorem move_cursor (hcursor : s.usesCursor m = false) (hwindow : s.bringsWindow m = false) :
    (s.move m).tracker.cursor = s.tracker.cursor ∧
      (s.move m).tracker.seeked = s.tracker.seeked := by
  cases s.move_cases m with
  | called c call =>
    subst call
    cases c with
    | takePreload | setReports => exact ⟨rfl, rfl⟩
    | _ => cases hcursor
  | untouched _ _ same => exact ⟨same.cursor, same.seeked⟩
  | installed r complete data call installing _ _ tracker =>
    rw [looksAfter_of_not_usesCursor call hcursor, if_neg Bool.false_ne_true] at tracker
    have hstart : complete.firstSequence? = none := by
      rw [bringsWindow, installing, tracker, Bool.true_and] at hwindow
      exact Option.isSome_eq_false_iff.1 hwindow |> Option.isNone_iff_eq_none.1
    rw [tracker]
    exact s.tracker.install_cursor_of_none s.now hstart

/-- Without a use of the cursor and without a new window, neither the cursor nor the seek changes.
-/
theorem run_cursor (hcursor : s.newest? usesCursor moves = none)
    (hwindow : s.newest? bringsWindow moves = none) :
    (s.run moves).tracker.cursor = s.tracker.cursor ∧
      (s.run moves).tracker.seeked = s.tracker.seeked := by
  induction moves generalizing s with
  | nil => exact ⟨rfl, rfl⟩
  | cons m rest ih =>
    rw [newest?_cons_eq_none] at hcursor hwindow
    obtain ⟨hmove, hmove'⟩ := move_cursor hcursor.1 hwindow.1
    obtain ⟨hrest, hrest'⟩ := ih hcursor.2 hwindow.2
    exact ⟨hrest.trans hmove, hrest'.trans hmove'⟩

theorem newest?_append_eq_none {kind : Session → Move → Bool}
    (h : s.newest? kind (moves ++ [m]) = none) :
    s.newest? kind moves = none ∧ kind (s.run moves) m = false := by
  rw [newest?_append_singleton] at h
  split at h
  · cases h
  · next hkind => exact ⟨h, by simpa using hkind⟩

/-- The load that brings a window uses the seek up and leaves the cursor where it was placed. -/
theorem move_cursor_of_seeked (hcursor : s.usesCursor m = false) (hwindow : s.bringsWindow m = true)
    (hseeked : s.tracker.seeked = true) :
    (s.move m).tracker.cursor = s.tracker.cursor ∧ (s.move m).tracker.seeked = false := by
  rw [bringsWindow, Bool.and_eq_true] at hwindow
  cases s.move_cases m with
  | called _ _ installing | untouched _ installing => simp [installing] at hwindow
  | installed r complete data call _ _ _ tracker =>
    rw [looksAfter_of_not_usesCursor call hcursor, if_neg Bool.false_ne_true] at tracker
    rw [tracker] at hwindow ⊢
    obtain ⟨first, hfirst⟩ := Option.isSome_iff_exists.1 hwindow.2
    exact Tracker.install_cursor_of_seeked s.now hseeked hfirst

/-- Without a seek the cursor follows the window. -/
theorem move_cursor_of_not_seeked {first : Nat} (hseeked : s.tracker.seeked = false)
    (hload : s.installing m = true) (hwindow : (s.move m).tracker.windowStart? = some first) :
    (s.move m).tracker.seeked = false ∧ (s.move m).tracker.cursor =
      if s.tracker.cursor.sequence < first then { sequence := first } else s.tracker.cursor := by
  cases s.move_cases m with
  | called _ _ installing | untouched _ installing => simp [installing] at hload
  | installed r complete data _ _ _ _ tracker =>
    rw [Tracker.segmentAtCursor_of_abreast (s.tracker.install_abreast s.now complete hseeked),
      ite_self] at tracker
    rw [tracker] at hwindow ⊢
    have hinstall := s.tracker.install_cursor s.now complete hseeked
    rw [show complete.firstSequence? = some first from hwindow] at hinstall
    exact hinstall

/-! ## Seeks -/

/-- After a seek, and whatever loads follow that bring no window, the first load that does leaves the
cursor at the number that was asked for and uses the seek up. If no number is missing in that window,
the next segment is the one with the least number that is not below, or none if there is no such
segment. A load that brings a window and finds no seek takes the cursor to the first segment if that
is ahead of it, and then nothing of that segment is consumed or out; otherwise it leaves the cursor
as it is. -/
theorem seek_survives (s : Session) :
    (∀ n moves m, let u := s.move (.call (.seek n))
      u.newest? usesCursor (moves ++ [m]) = none → u.newest? bringsWindow moves = none →
      (u.run moves).bringsWindow m = true →
      let before := (u.run moves).tracker
      let t := (u.run (moves ++ [m])).tracker
      (before.cursor = { sequence := n } ∧ before.seeked = true) ∧
      (t.cursor = { sequence := n } ∧ t.seeked = false) ∧
      ∀ l, t.segmentList? = some l → Consecutive l.segments →
        (∀ d, t.next.1 = some d ↔ d ∈ l.segments ∧ n ≤ d.sequence ∧
          ∀ e ∈ l.segments, n ≤ e.sequence → d.sequence ≤ e.sequence) ∧
        (t.next.1 = none ↔ ∀ e ∈ l.segments, e.sequence < n)) ∧
    ∀ m first, s.tracker.seeked = false → s.installing m = true →
      (s.move m).tracker.windowStart? = some first →
      let old := s.tracker.cursor
      let new := (s.move m).tracker.cursor
      new.sequence = max old.sequence first ∧
      (new.sequence ≠ old.sequence → new.position = 0 ∧ new.part = 0) ∧
      (new.sequence = old.sequence → new = old) := by
  constructor
  · intro n moves m u hcursor hwindow hload before t
    obtain ⟨hbefore, hlast⟩ := newest?_append_eq_none hcursor
    obtain ⟨hplaced, hseeked⟩ := run_cursor hbefore hwindow
    obtain ⟨hkept, hdone⟩ := move_cursor_of_seeked hlast hload hseeked
    have hrun : t = ((u.run moves).move m).tracker := by simp only [t, run_append]; rfl
    have hcursor : t.cursor = { sequence := n } := by rw [hrun, hkept, hplaced]; rfl
    refine ⟨⟨hplaced, hseeked⟩, ⟨hcursor, hrun ▸ hdone⟩, fun l hl hnumbers => ?_⟩
    have hnext := Tracker.next_of_consecutive hl hnumbers (by rw [hcursor])
    rw [hcursor] at hnext
    rw [hnext]
    exact ⟨fun d => SegmentList.head?_since_eq_some_iff hnumbers.rising,
      SegmentList.head?_since_eq_none_iff⟩
  · intro m first hseeked hload hwindow old new
    have hnew : new = if old.sequence < first then { sequence := first } else old :=
      (move_cursor_of_not_seeked hseeked hload hwindow).2
    by_cases hlt : old.sequence < first
    · rw [if_pos hlt] at hnew
      rw [hnew]
      exact ⟨(Nat.max_eq_right (Nat.le_of_lt hlt)).symm, fun _ => ⟨rfl, rfl⟩,
        fun heq => absurd heq (Nat.ne_of_gt hlt)⟩
    · rw [if_neg hlt] at hnew
      rw [hnew]
      exact ⟨(Nat.max_eq_left (Nat.le_of_not_lt hlt)).symm, fun hne => absurd rfl hne, fun _ => rfl⟩

def windowBody (number : String) : String :=
  "#EXTM3U\n#EXT-X-MEDIA-SEQUENCE:" ++ number ++ "\na\nb\nc\n"

/-- A window, data that are no playlist, a playlist without segments, and two other windows. -/
def seekBodies : List String :=
  [windowBody "10", "a", "#EXTM3U\n#EXT-X-VERSION:3\n", windowBody "14", windowBody "20"]

/-- The moves of a seek into the gap between two windows and of the loads up to the second one. -/
def seekMoves : List Move := reloadMoves ++ reloadMoves ++ [.start .reload true, .proceed 0]

/-- A seek into a gap between windows survives loads that bring none. The next window gives the
first segment behind the gap, and the one after that takes the cursor along. -/
theorem seek_survives_of_gap :
    let s := (served seekBodies).run reloadMoves
    let u := (s.move (.call (.seek 12))).run (seekMoves ++ [.proceed 0])
    let v := u.run [.start .reload true, .proceed 0]
    u.tracker.cursor = { sequence := 12 } ∧ u.tracker.seeked = false ∧
      (∃ d, u.tracker.next.1 = some d ∧ d.sequence = 14) ∧
      v.tracker.seeked = false ∧ v.installing (.proceed 0) = true ∧
      (v.move (.proceed 0)).tracker.windowStart? = some 20 ∧
      (v.move (.proceed 0)).tracker.cursor.sequence = max v.tracker.cursor.sequence 20 := by
  intro s u v
  obtain ⟨hcursor, hempty, hload⟩ :
      (s.move (.call (.seek 12))).newest? usesCursor (seekMoves ++ [.proceed 0]) = none ∧
      (s.move (.call (.seek 12))).newest? bringsWindow seekMoves = none ∧
      ((s.move (.call (.seek 12))).run seekMoves).bringsWindow (.proceed 0) = true := by
    decide +kernel
  obtain ⟨hseeked, hinstalls, hstart⟩ : v.tracker.seeked = false ∧
      v.installing (.proceed 0) = true ∧
      (v.move (.proceed 0)).tracker.windowStart? = some 20 := by
    decide +kernel
  obtain ⟨l, hl, hnumbers, d, hd, hsequence⟩ : ∃ l ∈ u.tracker.segmentList?,
      l.segments.map (·.sequence) = List.range' 14 l.segments.length ∧
      ∃ d ∈ l.segments, d.sequence = 14 := by
    decide +kernel
  obtain ⟨_, ⟨hkept, hdone⟩, hnext⟩ :=
    (seek_survives s).1 12 seekMoves (.proceed 0) hcursor hempty hload
  have hleast : ∀ e ∈ l.segments, 12 ≤ e.sequence → d.sequence ≤ e.sequence := by
    intro e he _
    have hmem : e.sequence ∈ List.range' 14 l.segments.length := hnumbers ▸ List.mem_map_of_mem he
    exact hsequence ▸ (List.mem_range'_1.1 hmem).1
  refine ⟨hkept, hdone, ⟨d, ?_, hsequence⟩, hseeked, hinstalls, hstart,
    ((seek_survives v).2 (.proceed 0) 20 hseeked hinstalls hstart).1⟩
  exact ((hnext l hl ⟨14, hnumbers⟩).1 d).2 ⟨hd, by omega, hleast⟩

end Session

end AdaptiveHls
