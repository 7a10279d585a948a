import AdaptiveHls.Proofs.Timeline.Order
import Mathlib.Algebra.Ring.Nat
import Mathlib.Data.List.DropRight

/-!
# The numbers of segments

The running number stops at its bound, and the bound itself is never given away. Counted exactly,
the number of a segment is where the playlist starts, and one for each segment in front of it,
whether it is listed or left out. The two agree as long as there is a number to give; once there is
none, nothing that follows gets one either. So the segments of a playlist that states its start in
front are numbered exactly, up to where the numbers end.
-/

namespace AdaptiveHls

namespace Directive

def restart? : Directive → Option Nat
  | .single .mediaSequence value => some (value.count?.getD 0)
  | _ => none

/-- The URI of a segment, which is not empty. -/
def segmentUri? : Directive → Option String
  | .single .uri value => if value.isEmpty then none else some value.raw
  | _ => none

/-- How many segments a directive leaves out; none if it says so in no number. -/
def leftOut : Directive → Nat
  | .list .skip a => ((a.get? "SKIPPED-SEGMENTS").bind (·.count?)).getD 0
  | _ => 0

def isPart : Directive → Bool
  | .list .part _ => true
  | _ => false

/-- Whether a directive belongs behind the start of the numbers: a gap, a part or a URI. -/
def isCounted : Directive → Bool
  | .list .skip _ | .list .part _ | .single .uri _ => true
  | _ => false

variable {d : Directive}

theorem numberless_of_uncounted (h : d.isCounted = false) :
    d.segmentUri? = none ∧ d.leftOut = 0 ∧ d.isPart = false := by
  cases d with
  | single kind value => cases kind <;> simp_all [isCounted, segmentUri?, leftOut, isPart]
  | list kind a => cases kind <;> simp_all [isCounted, segmentUri?, leftOut, isPart]
  | inf a => simp [segmentUri?, leftOut, isPart]

theorem eq_uri_of_segmentUri {uri : String} (h : d.segmentUri? = some uri) :
    uri.isEmpty = false ∧ d = .single .uri ⟨uri⟩ := by
  cases d with
  | single kind value =>
    cases kind with
    | uri =>
      obtain ⟨hvalue, rfl⟩ : value.isEmpty = false ∧ value.raw = uri := by
        simpa [segmentUri?] using h
      exact ⟨hvalue, rfl⟩
    | _ => cases h
  | _ => cases h

theorem eq_mediaSequence_of_restart {n : Nat} (h : d.restart? = some n) :
    n ≤ Count.greatest ∧ ∃ value, d = .single .mediaSequence value := by
  cases d with
  | single kind value =>
    cases kind with
    | mediaSequence =>
      obtain rfl : value.count?.getD 0 = n := by simpa [restart?] using h
      exact ⟨value.getD_count?_le, value, rfl⟩
    | _ => cases h
  | _ => cases h

end Directive

/-! ## Numbers counted exactly -/

/-- Where the numbers start, by the last directive that says so. -/
def startNumber (directives : List Directive) : Nat :=
  (directives.reverse.findSome? (·.restart?)).getD 0

/-- The number of the next segment behind these directives. -/
def numberBehind (start : Nat) (before : List Directive) : Nat :=
  start + (before.map (·.leftOut)).sum + (before.filterMap (·.segmentUri?)).length

/-- Where a segment is due: the directives in front of it, and the URI behind them. A segment that is
still being published has none. -/
structure Place where
  before : List Directive
  uri : String
  deriving DecidableEq

def uriPlaces (directives : List Directive) : List Place :=
  (List.range directives.length).filterMap fun i =>
    (directives[i]?.bind (·.segmentUri?)).map (⟨directives.take i, ·⟩)

/-- The URIs of segments, each with the number that those in front of it leave it. -/
def uriNumbers (start : Nat) (directives : List Directive) : List (Nat × String) :=
  (List.range directives.length).filterMap fun i =>
    (directives[i]?.bind (·.segmentUri?)).map (numberBehind start (directives.take i), ·)

def endsInParts (directives : List Directive) : Bool :=
  (directives.rtakeWhile (·.segmentUri?.isNone)).any (·.isPart)

/-- The numbers and URIs of all segments, the one still being published, if there is one, last and
without a URI. -/
def exactNumbers (start : Nat) (directives : List Directive) : List (Nat × String) :=
  uriNumbers start directives ++
    if endsInParts directives then [(numberBehind start directives, "")] else []

section Counting

variable (start : Nat) (ds : List Directive) (d : Directive)

theorem startNumber_append_singleton :
    startNumber (ds ++ [d]) = d.restart?.getD (startNumber ds) := by
  rw [startNumber, List.reverse_concat, List.findSome?_cons]
  cases d.restart? <;> rfl

theorem numberBehind_append_singleton :
    numberBehind start (ds ++ [d]) =
      numberBehind start ds + d.leftOut + d.segmentUri?.toList.length := by
  simp only [numberBehind, List.map_append, List.sum_append, List.filterMap_append,
    List.length_append, List.map_singleton, List.sum_singleton]
  cases hd : d.segmentUri? with
  | none => simp [hd]; omega
  | some uri => simp [hd]; omega

theorem uriPlaces_append_singleton :
    uriPlaces (ds ++ [d]) = uriPlaces ds ++ (d.segmentUri?.map (⟨ds, ·⟩)).toList := by
  have hfront : ∀ i ∈ List.range ds.length,
      ((ds ++ [d])[i]?.bind (·.segmentUri?)).map (Place.mk ((ds ++ [d]).take i)) =
        (ds[i]?.bind (·.segmentUri?)).map (Place.mk (ds.take i)) := by
    intro i hi
    have hi := List.mem_range.1 hi
    rw [List.getElem?_append_left hi, List.take_append_of_le_length (Nat.le_of_lt hi)]
  rw [uriPlaces, List.length_append, List.length_singleton, List.range_succ,
    List.filterMap_append, List.filterMap_congr hfront, uriPlaces]
  congr 1
  cases hd : d.segmentUri? <;> simp [hd]

theorem uriNumbers_eq :
    uriNumbers start ds = (uriPlaces ds).map fun p => (numberBehind start p.before, p.uri) := by
  simp [uriNumbers, uriPlaces, List.map_filterMap, Function.comp_def]

theorem uriNumbers_append_singleton :
    uriNumbers start (ds ++ [d]) =
      uriNumbers start ds ++ (d.segmentUri?.map (numberBehind start ds, ·)).toList := by
  rw [uriNumbers_eq, uriPlaces_append_singleton, List.map_append, uriNumbers_eq]
  cases d.segmentUri? <;> rfl

theorem endsInParts_append_singleton :
    endsInParts (ds ++ [d]) = (d.segmentUri?.isNone && (endsInParts ds || d.isPart)) := by
  rw [endsInParts, List.rtakeWhile_concat]
  cases d.segmentUri? <;> simp [endsInParts]

/-- Whoever has a URI is counted by all that follow. -/
theorem lt_numberBehind_of_mem {p : Nat × String} (hp : p ∈ uriNumbers start ds) :
    p.1 < numberBehind start ds := by
  induction ds using List.reverseRecOn with
  | nil => cases hp
  | append_singleton ds d ih =>
    rw [numberBehind_append_singleton]
    rw [uriNumbers_append_singleton, List.mem_append] at hp
    rcases hp with hp | hp
    · have := ih hp
      omega
    · cases hd : d.segmentUri? with
      | none => simp [hd] at hp
      | some uri =>
        obtain rfl : p = (numberBehind start ds, uri) := by simpa [hd] using hp
        simp only [Option.toList_some, List.length_singleton]
        omega

/-- In front of the first gap, part or URI there is nothing to number. -/
theorem numbers_of_uncounted (h : ∀ d ∈ ds, d.isCounted = false) :
    uriNumbers start ds = [] ∧ numberBehind start ds = start ∧ endsInParts ds = false := by
  induction ds using List.reverseRecOn with
  | nil => exact ⟨rfl, rfl, rfl⟩
  | append_singleton ds d ih =>
    obtain ⟨hds, hd⟩ := List.forall_mem_append.1 h
    obtain ⟨huris, hnumber, hparts⟩ := ih hds
    obtain ⟨huri, hleft, hpart⟩ :=
      Directive.numberless_of_uncounted (hd d (List.mem_singleton.2 rfl))
    rw [uriNumbers_append_singleton, numberBehind_append_singleton, endsInParts_append_singleton,
      huris, hnumber, hparts, huri, hleft, hpart]
    exact ⟨rfl, rfl, rfl⟩

end Counting

/-- The first elements with a property that the last one has only if all do. -/
theorem takeWhile_append_singleton {α : Type} (p : α → Bool) (xs : List α) (a : α)
    (h : p a = true → ∀ x ∈ xs, p x = true) :
    (xs ++ [a]).takeWhile p = xs.takeWhile p ++ if p a then [a] else [] := by
  cases ha : p a with
  | true =>
    rw [List.takeWhile_append_of_pos (h ha), List.takeWhile_eq_self_iff.2 (h ha)]
    simp [ha]
  | false =>
    rw [List.takeWhile_append]
    split
    · next hall =>
      rw [(List.takeWhile_prefix p).eq_of_length hall]
      simp [ha]
    · simp

/-! ## The running number -/

namespace Timeline

variable {t : Timeline} {d : Directive}

/-- Without a segment to make, only gaps and restarts move the running number, and only parts are
gathered. -/
theorem step_of_no_segment (ht : t.sequence ≤ Count.greatest) (hd : d.segmentUri? = none) :
    (t.step d).segments = t.segments ∧
      (t.step d).sequence = d.restart?.getD (Count.add t.sequence d.leftOut) ∧
      (t.step d).parts.isEmpty = (t.parts.isEmpty && !d.isPart) := by
  have hzero : Count.add t.sequence 0 = t.sequence := Count.add_of_le ht
  cases d with
  | single kind value =>
    cases kind with
    | uri =>
      have hempty : value.isEmpty = true := by simpa [Directive.segmentUri?] using hd
      simp [step, stepSingle, hempty, Directive.restart?, Directive.leftOut, Directive.isPart, hzero]
    | programDateTime =>
      simp only [step, stepSingle]
      split <;> simp [Directive.restart?, Directive.leftOut, Directive.isPart, hzero]
    | _ =>
      simp [step, stepSingle, setRendition, Directive.restart?, Directive.leftOut,
        Directive.isPart, hzero]
  | list kind a =>
    cases kind with
    | partInf | preloadHint =>
      simp only [step, stepList]
      split <;> simp [setRendition, Directive.restart?, Directive.leftOut, Directive.isPart, hzero]
    | _ =>
      simp [step, stepList, addKey, addPart, setInit_eq, setRendition, Directive.restart?,
        Directive.leftOut, Directive.isPart, hzero]
  | inf a => simp [step, Directive.restart?, Directive.leftOut, Directive.isPart, hzero]

theorem step_of_segmentUri {uri : String} (hd : d.segmentUri? = some uri) :
    t.step d = t.emit uri := by
  obtain ⟨huri, rfl⟩ := Directive.eq_uri_of_segmentUri hd
  have hvalue : (⟨uri⟩ : Value).isEmpty = false := huri
  simp [step, stepSingle, hvalue]

/-- A segment gets the running number, if there is one left. -/
theorem emit_numbers (t : Timeline) (uri : String) :
    (t.emit uri).segments.map (fun s => (s.sequence, s.uri)) =
        t.segments.map (fun s => (s.sequence, s.uri)) ++
          (if t.sequence < Count.greatest then [(t.sequence, uri)] else []) ∧
      (t.emit uri).sequence = (if t.sequence < Count.greatest then t.sequence + 1 else t.sequence) ∧
      (t.emit uri).parts = [] := by
  by_cases room : t.sequence < Count.greatest
  · rw [emit_eq t uri room]
    simp [nextSegment, room]
  · simp [emit, room]

/-- How a timeline stands behind directives: its segments are those whose exact numbers are within
the bound, and the running number is the exact one as far as it goes. -/
structure Numbered (directives : List Directive) (t : Timeline) : Prop where
  segments : t.segments.map (fun s => (s.sequence, s.uri)) =
    (uriNumbers (startNumber directives) directives).takeWhile (·.1 < Count.greatest)
  sequence : t.sequence = min (numberBehind (startNumber directives) directives) Count.greatest
  parts : t.parts.isEmpty = !endsInParts directives

/-- A number within the bound has only such numbers in front of it. -/
theorem takeWhile_numbers_append (start : Nat) (directives : List Directive) (uri : String) :
    (uriNumbers start directives ++ [(numberBehind start directives, uri)]).takeWhile
        (·.1 < Count.greatest) =
      (uriNumbers start directives).takeWhile (·.1 < Count.greatest) ++
        if numberBehind start directives < Count.greatest then
          [(numberBehind start directives, uri)] else [] := by
  rw [takeWhile_append_singleton]
  · simp only [decide_eq_true_eq]
  · intro hlast p hp
    have := lt_numberBehind_of_mem start directives hp
    simp only [decide_eq_true_eq] at hlast ⊢
    omega

/-- Each directive keeps the account. The running number has room exactly if the exact one is within
the bound, and a number is set only as long as nothing has been counted. -/
theorem Numbered.step {directives : List Directive} (h : Numbered directives t)
    (hd : d.isRestart = true → ∀ e ∈ directives, e.isCounted = false) :
    Numbered (directives ++ [d]) (t.step d) := by
  have hle : t.sequence ≤ Count.greatest := h.sequence ▸ Nat.min_le_right _ _
  cases huri : d.segmentUri? with
  | some uri =>
    obtain ⟨hrestart, hleft⟩ : d.restart? = none ∧ d.leftOut = 0 := by
      rw [(Directive.eq_uri_of_segmentUri huri).2]
      exact ⟨rfl, rfl⟩
    have hstart : startNumber (directives ++ [d]) = startNumber directives := by
      rw [startNumber_append_singleton, hrestart, Option.getD_none]
    obtain ⟨hsegments, hsequence, hparts⟩ := t.emit_numbers uri
    have hroom : t.sequence < Count.greatest ↔
        numberBehind (startNumber directives) directives < Count.greatest := by
      rw [h.sequence]
      omega
    rw [step_of_segmentUri huri]
    constructor
    · rw [hsegments, hstart, uriNumbers_append_singleton, huri, Option.map_some,
        Option.toList_some, takeWhile_numbers_append, h.segments]
      congr 1
      by_cases room : t.sequence < Count.greatest
      · rw [if_pos room, if_pos (hroom.1 room), h.sequence, Nat.min_eq_left]
        exact Nat.le_of_lt (hroom.1 room)
      · rw [if_neg room, if_neg (mt hroom.2 room)]
    · rw [hsequence, hstart, numberBehind_append_singleton, huri, hleft, Option.toList_some,
        List.length_singleton, h.sequence]
      split <;> omega
    · rw [hparts, endsInParts_append_singleton, huri]
      rfl
  | none =>
    obtain ⟨hsegments, hsequence, hparts⟩ := step_of_no_segment hle huri
    have hbehind (start : Nat) : numberBehind start (directives ++ [d]) =
        numberBehind start directives + d.leftOut := by
      rw [numberBehind_append_singleton, huri, Option.toList_none, List.length_nil, Nat.add_zero]
    have huris (start : Nat) :
        uriNumbers start (directives ++ [d]) = uriNumbers start directives := by
      rw [uriNumbers_append_singleton, huri, Option.map_none, Option.toList_none, List.append_nil]
    have hends : (t.step d).parts.isEmpty = !endsInParts (directives ++ [d]) := by
      rw [hparts, h.parts, endsInParts_append_singleton, huri]
      cases endsInParts directives <;> rfl
    cases hrestart : d.restart? with
    | none =>
      have hstart : startNumber (directives ++ [d]) = startNumber directives := by
        rw [startNumber_append_singleton, hrestart, Option.getD_none]
      refine ⟨?_, ?_, hends⟩
      · rw [hsegments, hstart, huris, h.segments]
      · rw [hsequence, hrestart, Option.getD_none, hstart, hbehind, h.sequence, Count.add]
        omega
    | some n =>
      obtain ⟨hn, hrestarts, hleft⟩ :
          n ≤ Count.greatest ∧ d.isRestart = true ∧ d.leftOut = 0 := by
        obtain ⟨hn, value, rfl⟩ := Directive.eq_mediaSequence_of_restart hrestart
        exact ⟨hn, rfl, rfl⟩
      have hnone (start : Nat) := numbers_of_uncounted start directives (hd hrestarts)
      have hstart : startNumber (directives ++ [d]) = n := by
        rw [startNumber_append_singleton, hrestart, Option.getD_some]
      refine ⟨?_, ?_, hends⟩
      · rw [hsegments, hstart, huris, h.segments, (hnone _).1, (hnone _).1]
      · rw [hsequence, hrestart, Option.getD_some, hstart, hbehind, (hnone _).2.1, hleft,
          Nat.add_zero, Nat.min_eq_left hn]

/-- Where the numbers are set only in front of what is counted, the account holds behind all
directives. -/
theorem numbered_run (r : Rendition) (directives : List Directive)
    (h : directives.Pairwise fun a b => b.isRestart = true → a.isCounted = false) :
    Numbered directives ((start r).run directives) := by
  induction directives using List.reverseRecOn with
  | nil => exact ⟨rfl, rfl, rfl⟩
  | append_singleton ds d ih =>
    obtain ⟨hds, -, hd⟩ := List.pairwise_append.1 h
    rw [run_append, run_cons, run_nil]
    exact (ih hds).step fun hrestart e he => hd e he d (List.mem_singleton.2 rfl) hrestart

/-- A playlist that states where its numbers start, if it does, in front of all gaps, parts and
URIs has its segments numbered exactly. It ends where the numbers end. -/
theorem assemble_numbers (r : Rendition) (directives : List Directive)
    (h : directives.Pairwise fun a b => b.isRestart = true → a.isCounted = false) :
    (assemble r directives).segments.map (fun s => (s.sequence, s.uri)) =
      (exactNumbers (startNumber directives) directives).takeWhile (·.1 < Count.greatest) := by
  have hrun := numbered_run r directives h
  change ((start r).run directives).close.segments.map _ = _
  generalize (start r).run directives = t at hrun
  rw [exactNumbers, close, hrun.parts]
  cases endsInParts directives with
  | false => simpa using hrun.segments
  | true =>
    rw [if_pos rfl, takeWhile_numbers_append, ← hrun.segments]
    by_cases room : t.sequence = Count.greatest
    · have hfull : ¬ numberBehind (startNumber directives) directives < Count.greatest := by
        have := hrun.sequence
        omega
      simp [room, hfull]
    · have hnumber : numberBehind (startNumber directives) directives = t.sequence := by
        have := hrun.sequence
        omega
      have hroom : t.sequence < Count.greatest := by
        have := hrun.sequence
        omega
      simp [room, hnumber, hroom, push]

/-- Two segments, a gap between them, and a part behind them, at the end of the numbers. -/
def lastNumbers : List Directive :=
  [.single .mediaSequence ⟨"18446744073709551612"⟩, .single .uri ⟨"a"⟩,
    .list .skip ⟨[⟨"SKIPPED-SEGMENTS", ⟨"1"⟩⟩]⟩, .single .uri ⟨"b"⟩, .list .part ⟨[]⟩]

theorem assemble_numbers_of_lastNumbers :
    (lastNumbers.Pairwise fun a b => b.isRestart = true → a.isCounted = false) ∧
      (assemble (.ofUrl { scheme := "https", path := .segments ["live.m3u8"] })
          lastNumbers).segments.map (fun s => (s.sequence, s.uri)) =
        [(18446744073709551612, "a"), (18446744073709551614, "b")] := by
  have h : lastNumbers.Pairwise fun a b => b.isRestart = true → a.isCounted = false := by decide
  exact ⟨h, (assemble_numbers _ _ h).trans (by decide +kernel)⟩

end Timeline

end AdaptiveHls
