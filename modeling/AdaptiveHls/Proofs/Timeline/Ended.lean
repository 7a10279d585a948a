import AdaptiveHls.Proofs.Timeline.Steps
import Mathlib.Data.List.Induction

/-!
# When a playlist has ended

An end mark and a playlist type both say whether a playlist goes on, and of all that say so the last
one is believed. So a playlist that says somewhere that it has ended is taken for a live one if a
playlist type other than `VOD` stands behind every place that says so, and in no other case.
-/

namespace AdaptiveHls

namespace Directive

def live? : Directive → Option Bool
  | .single .endList _ => some false
  | .single .playlistType value => some (value.raw != "VOD")
  | _ => none

def ends : Directive → Bool
  | .single .endList _ => true
  | .single .playlistType value => value.raw == "VOD"
  | _ => false

def goesOn : Directive → Bool
  | .single .playlistType value => value.raw != "VOD"
  | _ => false

theorem ends_eq (d : Directive) : d.ends = (d.live? == some false) := by
  cases d with
  | single kind value =>
    cases kind with
    | playlistType => cases hvod : value.raw == "VOD" <;> simp [ends, live?, bne, hvod]
    | _ => rfl
  | list kind a => rfl
  | inf a => rfl

theorem goesOn_eq (d : Directive) : d.goesOn = (d.live? == some true) := by
  cases d with
  | single kind value =>
    cases kind with
    | playlistType => cases hvod : value.raw == "VOD" <;> simp [goesOn, live?, bne, hvod]
    | _ => rfl
  | list kind a => rfl
  | inf a => rfl

/-- Somewhere the playlist says that it has ended, and from there on nothing says that it goes on. -/
def StayEnded (directives : List Directive) : Prop :=
  ∃ before d after, directives = before ++ d :: after ∧ d.ends = true ∧
    ∀ e ∈ after, e.goesOn = false

theorem StayEnded.exists_ends {directives : List Directive} (h : StayEnded directives) :
    ∃ d ∈ directives, d.ends = true := by
  obtain ⟨before, d, after, rfl, hends, -⟩ := h
  exact ⟨d, by simp, hends⟩

/-- The end stays if it is the newest thing said, or stood before and is not taken back. -/
theorem stayEnded_append_singleton (directives : List Directive) (d : Directive) :
    StayEnded (directives ++ [d]) ↔ d.ends = true ∨ d.goesOn = false ∧ StayEnded directives := by
  constructor
  · rintro ⟨before, e, after, hsplit, hends, hafter⟩
    rcases List.eq_nil_or_concat after with rfl | ⟨rest, last, rfl⟩
    · obtain ⟨-, hlast⟩ := List.append_inj' hsplit rfl
      obtain rfl : d = e := by simpa using hlast
      exact .inl hends
    · rw [List.concat_eq_append, ← List.cons_append, ← List.append_assoc] at hsplit
      obtain ⟨hrest, hlast⟩ := List.append_inj' hsplit rfl
      obtain rfl : d = last := by simpa using hlast
      refine .inr ⟨hafter d (by simp), before, e, rest, hrest, hends, fun b hb => ?_⟩
      exact hafter b (by simp [hb])
  · rintro (hends | ⟨hnot, before, e, after, rfl, hends, hafter⟩)
    · exact ⟨directives, d, [], rfl, hends, by simp⟩
    · refine ⟨before, e, after ++ [d], by simp, hends, fun b hb => ?_⟩
      rcases List.mem_append.1 hb with hb | hb
      · exact hafter b hb
      · exact List.mem_singleton.1 hb ▸ hnot

end Directive

namespace Timeline

variable (t : Timeline) (d : Directive)

theorem push_rendition (uri : String) (duration : Int) (parts : List Part) :
    (t.push uri duration parts).rendition = t.rendition := rfl

theorem close_rendition : t.close.rendition = t.rendition := by
  rw [close]
  split
  · rfl
  · rw [push_rendition]

/-- A directive says whether the playlist is live, or leaves that as it was. -/
theorem step_live : (t.step d).rendition.live = d.live?.getD t.rendition.live := by
  cases d with
  | single kind value =>
    cases kind with
    | uri =>
      simp only [step, stepSingle]
      split
      · rfl
      · rw [emit_rendition]
        rfl
    | programDateTime =>
      simp only [step, stepSingle]
      split <;> rfl
    | _ => simp [step, stepSingle, setRendition, Directive.live?]
  | list kind a =>
    cases kind with
    | map => rw [step, stepList, setInit_eq]; rfl
    | preloadHint | partInf =>
      simp only [step, stepList]
      split <;> rfl
    | _ => simp [step, stepList, addKey, addPart, setRendition, Directive.live?]
  | inf a => rfl

/-- What is said last is believed. -/
theorem run_live_append_singleton (r : Rendition) (directives : List Directive) :
    ((start r).run (directives ++ [d])).rendition.live =
      d.live?.getD ((start r).run directives).rendition.live := by
  rw [run_append, run_cons, run_nil, step_live]

/-- The playlist is not live exactly if it has stayed ended. -/
theorem run_live_eq_false_iff (r : Rendition) (directives : List Directive) :
    ((start r).run directives).rendition.live = false ↔ Directive.StayEnded directives := by
  induction directives using List.reverseRecOn with
  | nil =>
    refine iff_of_false (by simp [start]) fun h => ?_
    obtain ⟨d, hd, -⟩ := h.exists_ends
    simp at hd
  | append_singleton directives d ih =>
    rw [run_live_append_singleton, Directive.stayEnded_append_singleton, Directive.ends_eq,
      Directive.goesOn_eq]
    cases d.live? with
    | none => simpa using ih
    | some live => cases live <;> simp

/-! ## Whether a playlist is live -/

/-- A playlist is taken for one that has ended exactly if it says so and does not say behind that
that it goes on. So to say it anywhere is enough exactly if, once said, it is not taken back by the
rest of the directives. -/
theorem live_assemble_iff (r : Rendition) (directives : List Directive) :
    ((assemble r directives).live = false ↔ Directive.StayEnded directives) ∧
    (((assemble r directives).live = false ↔ ∃ d ∈ directives, d.ends = true) ↔
      ((∃ d ∈ directives, d.ends = true) → Directive.StayEnded directives)) := by
  have hlive : (assemble r directives).live = false ↔ Directive.StayEnded directives := by
    rw [← run_live_eq_false_iff r, assemble, close_rendition]
  refine ⟨hlive, fun hany => ?_, fun hstay => ?_⟩
  · exact fun hends => hlive.1 (hany.2 hends)
  · exact hlive.trans ⟨fun h => h.exists_ends, hstay⟩

/-- An end mark is forgotten over a playlist type behind it. -/
theorem live_assemble_of_event_behind_end :
    let directives : List Directive := [.single .endList ⟨""⟩, .single .playlistType ⟨"EVENT"⟩]
    (∃ d ∈ directives, d.ends = true) ∧
      (assemble (.ofUrl { scheme := "https", path := .segments ["live.m3u8"] }) directives).live =
        true := by
  decide

end Timeline

end AdaptiveHls
