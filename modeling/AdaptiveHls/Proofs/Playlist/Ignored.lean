import AdaptiveHls.Playlist.Read
import Mathlib.Data.List.Induction

/-!
# Lines that carry nothing

A comment changes nothing wherever it stands. A tag that is not read adds no directive either, but
it ends the wait for the URI of a variant stream. So between a stream and its URI, and nowhere
else, such a tag makes a difference: the stream is left without the URI and the URI without the
stream.
-/

namespace AdaptiveHls

/-- What a line behind the header is, by how it starts. -/
inductive LineKind where
  | comment
  /-- A tag, with what stands behind its mark. -/
  | tag (text : String)
  | uri
  | blank
  deriving DecidableEq, Repr

def LineKind.of (line : String) : LineKind :=
  match line.toList with
  | '#' :: text =>
    if ['E', 'X', 'T'].isPrefixOf text then .tag (String.ofList text) else .comment
  | _ => if Text.isBlankText line then .blank else .uri

namespace Entries

def isComment (line : String) : Bool := LineKind.of line == .comment

def directive? (line : String) : Option Directive :=
  match LineKind.of line with
  | .tag text => Directive.read? (splitTag text).1 (splitTag text).2
  | _ => none

/-- Whether a line is a tag that holds no directive. -/
def isUnread (line : String) : Bool :=
  match LineKind.of line with
  | .tag text => (Directive.read? (splitTag text).1 (splitTag text).2).isNone
  | _ => false

/-- The variant stream that some lines end with but for comments. -/
def openStream? (lines : List String) : Option Attributes :=
  match (lines.reverse.find? fun line => !isComment line).bind directive? with
  | some (.list .streamInf a) => some a
  | _ => none

/-- The URI that some lines start with but for comments. -/
def nextUri? (lines : List String) : Option String :=
  (lines.find? fun line => !isComment line).filter fun line => LineKind.of line == .uri

def resting (e : Entries) : Entries := { e with awaitsUri := false }

variable {e : Entries} {line : String} {lines : List String}

/-! ## What a line adds -/

theorem kind_of_unmarked (h : ∀ text, line.toList = '#' :: text → False) :
    LineKind.of line = if Text.isBlankText line then .blank else .uri := by
  unfold LineKind.of
  split
  · next text hmark => exact (h text hmark).elim
  · rfl

/-- What a line adds depends on its kind alone: nothing, a tag or a URI. -/
theorem addLine_eq (e : Entries) (line : String) :
    e.addLine line = match LineKind.of line with
      | .comment => e
      | .tag text => e.addTag text
      | .uri => e.addUri line
      | .blank => e.resting := by
  unfold addLine
  split
  · next text hmark =>
    simp only [LineKind.of, hmark]
    split <;> rfl
  · next hmark =>
    rw [kind_of_unmarked hmark]
    split <;> rfl

theorem isComment_of_isUnread (h : isUnread line = true) : isComment line = false := by
  unfold isUnread at h
  split at h
  · next text hkind =>
    rw [isComment, hkind]
    rfl
  · cases h

theorem addTag_resting (e : Entries) (text : String) : e.resting.addTag text = e.addTag text := by
  unfold addTag
  split <;> rfl

theorem addLine_unread (h : isUnread line = true) (e : Entries) : e.addLine line = e.resting := by
  rw [addLine_eq]
  unfold isUnread at h
  split at h
  · next text hkind => simp only [hkind, addTag, Option.isNone_iff_eq_none.1 h, resting]
  · cases h

theorem addUri_awaitsUri (e : Entries) (line : String) : (e.addUri line).awaitsUri = false := by
  unfold addUri
  split
  · split <;> rfl
  · rfl

/-- Whether anything is waited on matters only if it is a variant stream. -/
theorem addUri_resting (h : ∀ a older, e.awaitsUri = true →
    e.newestFirst ≠ .list .streamInf a :: older) : e.resting.addUri line = e.addUri line := by
  obtain ⟨newestFirst, awaitsUri⟩ := e
  cases awaitsUri with
  | false => rfl
  | true =>
    cases newestFirst with
    | nil => rfl
    | cons newest older =>
      have hother : newest.withUri? line = none := by
        cases newest with
        | list kind a =>
          cases kind with
          | streamInf => exact absurd rfl (h a older rfl)
          | _ => rfl
        | _ => rfl
      simp only [addUri, resting, hother, push]

/-! ## What lines add behind others -/

def onto (e : Entries) (older : List Directive) : Entries := ⟨e.newestFirst ++ older, e.awaitsUri⟩

/-- What is waited on is there. -/
def Waits (e : Entries) : Prop := e.awaitsUri = true → e.newestFirst ≠ []

/-- Older entries have no part in what a line adds, as long as the newest one is there to take it.
-/
theorem addLine_onto (h : e.Waits) (line : String) (older : List Directive) :
    (e.onto older).addLine line = (e.addLine line).onto older ∧ (e.addLine line).Waits := by
  rw [addLine_eq, addLine_eq]
  cases LineKind.of line with
  | comment => exact ⟨rfl, h⟩
  | tag text =>
    simp only [addTag]
    split
    · exact ⟨rfl, fun _ => List.cons_ne_nil _ _⟩
    · exact ⟨rfl, nofun⟩
  | uri =>
    refine ⟨?_, fun hwaits => by simp [addUri_awaitsUri] at hwaits⟩
    obtain ⟨newestFirst, awaitsUri⟩ := e
    cases awaitsUri with
    | false => rfl
    | true =>
      cases newestFirst with
      | nil => exact absurd rfl (h rfl)
      | cons newest rest =>
        simp only [onto, addUri, List.cons_append]
        split <;> rfl
  | blank => exact ⟨rfl, nofun⟩

theorem foldl_onto (h : e.Waits) (lines : List String) (older : List Directive) :
    lines.foldl addLine (e.onto older) = (lines.foldl addLine e).onto older := by
  induction lines generalizing e with
  | nil => rfl
  | cons line rest ih =>
    obtain ⟨hline, hwaits⟩ := addLine_onto h line older
    rw [List.foldl_cons, List.foldl_cons, hline, ih hwaits]

/-- Where nothing is waited on, lines add what they hold on their own. -/
theorem directives_foldl (known : List Directive) (lines : List String) :
    (lines.foldl addLine ⟨known, false⟩).directives = known.reverse ++ ofLines lines := by
  have h := foldl_onto (e := {}) nofun lines known
  simp only [onto, List.nil_append] at h
  rw [h, ofLines, directives, directives, List.reverse_append]

theorem awaited_addTag (e : Entries) (text : String) :
    (if (e.addTag text).awaitsUri then (e.addTag text).newestFirst.head? else none) =
      Directive.read? (splitTag text).1 (splitTag text).2 := by
  unfold addTag
  split
  · next d hd => simp [push, hd]
  · next hnone => simp [hnone]

/-- What is waited on behind some lines is what the last of them that is no comment holds. -/
theorem awaited_foldl (lines : List String) :
    (lines.reverse.find? fun line => !isComment line).bind directive? =
      if (lines.foldl addLine {}).awaitsUri then (lines.foldl addLine {}).newestFirst.head?
      else none := by
  induction lines using List.reverseRecOn with
  | nil => rfl
  | append_singleton lines line ih =>
    rw [List.reverse_append, List.foldl_append, List.foldl_cons, List.foldl_nil, addLine_eq,
      List.reverse_singleton, List.singleton_append, List.find?_cons, isComment]
    cases hkind : LineKind.of line with
    | comment => exact ih
    | tag text =>
      have hread : directive? line = Directive.read? (splitTag text).1 (splitTag text).2 := by
        rw [directive?, hkind]
      exact hread.trans (awaited_addTag _ text).symm
    | uri =>
      have hread : directive? line = none := by rw [directive?, hkind]
      change directive? line = _
      rw [hread, addUri_awaitsUri]
      rfl
    | blank =>
      change directive? line = none
      rw [directive?, hkind]

/-- The open stream is the newest directive, while it waits for its URI. -/
theorem openStream?_eq_some_iff {a : Attributes} :
    openStream? lines = some a ↔ (lines.foldl addLine {}).awaitsUri = true ∧
      ∃ older, (lines.foldl addLine {}).newestFirst = .list .streamInf a :: older := by
  rw [openStream?, awaited_foldl]
  obtain ⟨newestFirst, awaitsUri⟩ := lines.foldl addLine {}
  cases awaitsUri with
  | false => simp
  | true =>
    cases newestFirst with
    | nil => simp
    | cons newest older =>
      cases newest with
      | list kind b => cases kind <;> simp
      | _ => simp

/-! ## Two runs that differ in what is waited on -/

/-- Comments are passed over on the way to the next URI; any other line that is none ends the
search. -/
theorem nextUri?_cons (line : String) (rest : List String) :
    nextUri? (line :: rest) = match LineKind.of line with
      | .comment => nextUri? rest
      | .uri => some line
      | _ => none := by
  rw [nextUri?, List.find?_cons, isComment]
  cases hkind : LineKind.of line with
  | comment => rfl
  | _ =>
    change (some line).filter _ = _
    rw [Option.filter_some, hkind]
    rfl

/-- They agree in the end unless it is a variant stream and its URI comes next. -/
theorem foldl_resting (h : ∀ a older uri, e.awaitsUri = true →
      e.newestFirst = .list .streamInf a :: older → nextUri? lines ≠ some uri) :
    (lines.foldl addLine e.resting).directives = (lines.foldl addLine e).directives := by
  induction lines with
  | nil => rfl
  | cons line rest ih =>
    simp only [nextUri?_cons] at h
    rw [List.foldl_cons, List.foldl_cons, addLine_eq, addLine_eq]
    cases hkind : LineKind.of line with
    | comment => exact ih (by simpa only [hkind] using h)
    | tag text => simp only [addTag_resting]
    | uri =>
      have hother : ∀ a older, e.awaitsUri = true → e.newestFirst ≠ .list .streamInf a :: older :=
        fun a older hwaits hnewest => h a older line hwaits hnewest (by rw [hkind])
      simp only [addUri_resting hother]
    | blank => rfl

/-- And then the stream has its URI in one of them, and both stand on their own in the other. -/
theorem foldl_resting_of_stream {a : Attributes} {older : List Directive} {uri : String}
    (waits : e.awaitsUri = true) (newest : e.newestFirst = .list .streamInf a :: older)
    (next : nextUri? lines = some uri) :
    ∃ later, (lines.foldl addLine e).directives =
        older.reverse ++ .list .streamInf (a.insert "URI" ⟨Text.trim uri⟩) :: later ∧
      (lines.foldl addLine e.resting).directives =
        older.reverse ++ .list .streamInf a :: .uri uri :: later := by
  induction lines with
  | nil => cases next
  | cons line rest ih =>
    rw [nextUri?_cons] at next
    rw [List.foldl_cons, List.foldl_cons, addLine_eq, addLine_eq]
    cases hkind : LineKind.of line with
    | comment => exact ih (by rwa [hkind] at next)
    | uri =>
      obtain rfl : line = uri := by rw [hkind] at next; exact Option.some.inj next
      refine ⟨ofLines rest, ?_, ?_⟩
      · have hjoined : e.addUri line =
            ⟨.list .streamInf (a.insert "URI" ⟨Text.trim line⟩) :: older, false⟩ := by
          rw [addUri, waits, newest]
          rfl
        simp only [hjoined, directives_foldl, List.reverse_cons, List.append_assoc,
          List.singleton_append]
      · have hpushed : e.resting.addUri line =
            ⟨.uri line :: .list .streamInf a :: older, false⟩ := by
          rw [← newest]
          rfl
        simp only [hpushed, directives_foldl, List.reverse_cons, List.append_assoc,
          List.cons_append, List.nil_append]
    | _ => rw [hkind] at next; cases next

/-! ## One line more -/

theorem ofLines_insert_comment {x : String} (h : isComment x = true) (before after : List String) :
    ofLines (before ++ x :: after) = ofLines (before ++ after) := by
  have hkind : LineKind.of x = .comment := by simpa [isComment] using h
  rw [ofLines, ofLines, List.foldl_append, List.foldl_append, List.foldl_cons, addLine_eq, hkind]

theorem ofLines_insert_unread {x : String} (h : isUnread x = true) (before after : List String) :
    ofLines (before ++ x :: after) =
      (after.foldl addLine (before.foldl addLine {}).resting).directives := by
  rw [ofLines, List.foldl_append, List.foldl_cons, addLine_unread h]

theorem ofLines_append (before after : List String) :
    ofLines (before ++ after) = (after.foldl addLine (before.foldl addLine {})).directives := by
  rw [ofLines, List.foldl_append]

end Entries

namespace Master

theorem filterMap_replace_iff {α β : Type} (f : α → Option β) (before after : List α) (a b : α) :
    (before ++ a :: after).filterMap f = (before ++ b :: after).filterMap f ↔ f a = f b := by
  rw [List.filterMap_append, List.filterMap_append, List.append_cancel_left_eq,
    List.filterMap_cons, List.filterMap_cons]
  cases f a <;> cases f b <;> simp

/-- With a variant stream in place of another one, and perhaps a URI on its own, the sets are the
same exactly if the rendition of the stream is. -/
theorem sets_replace_iff (base : Url) (before after : List Directive) (a b : Attributes)
    (uri : String) :
    sets (before ++ .list .streamInf b :: .uri uri :: after) base =
        sets (before ++ .list .streamInf a :: after) base ↔
      stream? (groups (before ++ .list .streamInf a :: after))
          (withoutUri (before ++ .list .streamInf a :: after)) base b =
        stream? (groups (before ++ .list .streamInf a :: after))
          (withoutUri (before ++ .list .streamInf a :: after)) base a := by
  have hmedia : mediaAttributes (before ++ .list .streamInf b :: .uri uri :: after) =
      mediaAttributes (before ++ .list .streamInf a :: after) := by
    simp [mediaAttributes, Directive.uri]
  have hstreams : streamAttributes (before ++ .list .streamInf a :: after) =
      streamAttributes before ++ a :: streamAttributes after := by
    simp [streamAttributes]
  have hstreams' : streamAttributes (before ++ .list .streamInf b :: .uri uri :: after) =
      streamAttributes before ++ b :: streamAttributes after := by
    simp [streamAttributes, Directive.uri]
  rw [← filterMap_replace_iff _ (streamAttributes before) (streamAttributes after)]
  simp only [sets, groups, withoutUri, hmedia, hstreams, hstreams']
  generalize List.filterMap _ (streamAttributes before ++ a :: _) = known
  generalize List.filterMap _ (streamAttributes before ++ b :: _) = streams
  cases known <;> cases streams <;> simp

end Master

namespace Playlist

theorem ofDirectives_of_streamInf (url : Url) {directives : List Directive} {a : Attributes}
    (h : .list .streamInf a ∈ directives) :
    ofDirectives url directives = .ok (master url directives) := by
  have hany : directives.any (·.isStreamInf) = true := List.any_eq_true.2 ⟨_, h, rfl⟩
  have hsome : directives.isEmpty = false := List.isEmpty_eq_false_iff_exists_mem.2 ⟨_, h⟩
  rw [ofDirectives, hsome, hany]
  rfl

theorem master_eq_iff (url : Url) (directives directives' : List Directive) :
    master url directives = master url directives' ↔
      Master.sets directives url = Master.sets directives' url := by
  simp [master]

/-! ## A line put in -/

/-- A line that holds no directive changes nothing where it stands, unless it is a tag between a
variant stream and its URI, with at most comments around it, and the playlist has another rendition
for the stream with the URI than without. -/
theorem ofLines_insert_iff (url : Url) {header : String} (valid : isHeader header = true)
    (before after : List String) {x : String}
    (nothing : Entries.isComment x = true ∨ Entries.isUnread x = true) :
    ofLines url (header :: (before ++ x :: after)) = ofLines url (header :: (before ++ after)) ↔
      Entries.isComment x = true ∨
        ∀ a uri, Entries.openStream? before = some a → Entries.nextUri? after = some uri →
          let directives := Entries.ofLines (before ++ after)
          let stream? := Master.stream? (Master.groups directives) (Master.withoutUri directives) url
          stream? a = stream? (a.insert "URI" ⟨Text.trim uri⟩) := by
  have hread : ∀ lines, ofLines url (header :: lines) = ofDirectives url (Entries.ofLines lines) :=
    fun lines => by simp [ofLines, valid]
  rw [hread, hread]
  rcases nothing with hcomment | hunread
  · exact iff_of_true (by rw [Entries.ofLines_insert_comment hcomment]) (.inl hcomment)
  rw [or_iff_right (by simp [Entries.isComment_of_isUnread hunread]),
    Entries.ofLines_insert_unread hunread, Entries.ofLines_append]
  cases hstream : Entries.openStream? before with
  | none =>
    refine iff_of_true (congrArg _ (Entries.foldl_resting ?_)) (by simp)
    intro a older uri hwaits hnewest
    rw [Entries.openStream?_eq_some_iff.2 ⟨hwaits, older, hnewest⟩] at hstream
    cases hstream
  | some a =>
    obtain ⟨hwaits, older, hnewest⟩ := Entries.openStream?_eq_some_iff.1 hstream
    cases hnext : Entries.nextUri? after with
    | none =>
      exact iff_of_true (congrArg _ (Entries.foldl_resting fun _ _ _ _ _ => by simp [hnext]))
        (by simp)
    | some uri =>
      obtain ⟨later, hjoined, hapart⟩ := Entries.foldl_resting_of_stream hwaits hnewest hnext
      rw [hjoined, hapart, ofDirectives_of_streamInf url (a := a) (by simp),
        ofDirectives_of_streamInf url (a := a.insert "URI" ⟨Text.trim uri⟩) (by simp),
        Except.ok.injEq, master_eq_iff, Master.sets_replace_iff]
      simp

/-- A tag that is not read has no effect behind the URI of a stream. -/
theorem ofLines_insert_of_open_none :
    let url : Url := { scheme := "https", authority := some { host := .domain "example.com" },
                       path := .segments ["live", "master.m3u8"] }
    let before := ["#EXT-X-STREAM-INF:BANDWIDTH=1280000", "low.m3u8"]
    let after := ["#EXT-X-STREAM-INF:BANDWIDTH=2560000", "high.m3u8"]
    isHeader "#EXTM3U" = true ∧ Entries.isUnread "#EXT-X-COM-EXAMPLE:1" = true ∧
      Entries.openStream? before = none ∧
      ofLines url ("#EXTM3U" :: (before ++ "#EXT-X-COM-EXAMPLE:1" :: after)) =
        ofLines url ("#EXTM3U" :: (before ++ after)) := by
  intro url before after
  have hvalid : isHeader "#EXTM3U" = true := by decide +kernel
  have hunread : Entries.isUnread "#EXT-X-COM-EXAMPLE:1" = true := by decide +kernel
  have hopen : Entries.openStream? before = none := by decide +kernel
  refine ⟨hvalid, hunread, hopen, ?_⟩
  exact (ofLines_insert_iff url hvalid before after (.inr hunread)).2
    (.inr fun a uri hstream => by simp [hopen] at hstream)

/-- Between a stream and its URI it costs the playlist that stream. -/
theorem ofLines_insert_between :
    let url : Url := { scheme := "https", authority := some { host := .domain "example.com" },
                       path := .segments ["live", "master.m3u8"] }
    let stream := "#EXT-X-STREAM-INF:BANDWIDTH=2560000"
    Entries.isUnread "#EXT-X-COM-EXAMPLE:1" = true ∧
      ofLines url ("#EXTM3U" :: ([stream] ++ "#EXT-X-COM-EXAMPLE:1" :: ["high.m3u8"])) ≠
        ofLines url ("#EXTM3U" :: ([stream] ++ ["high.m3u8"])) := by
  intro url stream
  let count (answer : Except Failure Playlist) : Nat :=
    (answer.toOption.map (·.renditions.length)).getD 0
  have hwith : count (ofLines url
      ("#EXTM3U" :: ([stream] ++ "#EXT-X-COM-EXAMPLE:1" :: ["high.m3u8"]))) = 0 := by
    decide +kernel
  have hwithout : count (ofLines url ("#EXTM3U" :: ([stream] ++ ["high.m3u8"]))) = 1 := by
    decide +kernel
  refine ⟨by decide +kernel, fun heq => ?_⟩
  rw [heq, hwithout] at hwith
  cases hwith

end Playlist

end AdaptiveHls
