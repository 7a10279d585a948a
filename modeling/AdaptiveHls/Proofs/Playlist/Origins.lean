import AdaptiveHls.Proofs.Playlist.Ignored
import Mathlib.Data.List.Forall2

/-!
# Where directives come from

Each directive comes from one line, and the order of the directives is that of their lines. A tag
that is read gives its directive. A URI gives one of its own, or else it goes into the directive of
the variant stream in front of it, from which only comments keep it apart. So no such tag and no URI
is lost, and none is used twice.

All of this is shown line by line. One more line changes what those in front of it give only if it
is a URI and they leave a stream open; the directive of that stream is then the newest one.
-/

namespace AdaptiveHls

namespace Entries

/-- Line `j` is a URI behind the variant stream of line `i`, with only comments in between. -/
structure Joined (lines : List String) (i j : Nat) : Prop where
  lt : i < j
  stream : ∃ a, lines[i]?.bind directive? = some (.list .streamInf a)
  uri : lines[j]?.map LineKind.of = some .uri
  comments : ∀ k, i < k → k < j → ∀ line ∈ lines[k]?, isComment line = true

/-- The directive that comes from line `i`. -/
inductive Gives (lines : List String) (i : Nat) : Directive → Prop
  | tag {d : Directive} (read : lines[i]?.bind directive? = some d)
      (alone : ∀ j, ¬ Joined lines i j) : Gives lines i d
  | stream {a : Attributes} {j : Nat} {uri : String}
      (read : lines[i]?.bind directive? = some (.list .streamInf a))
      (joined : Joined lines i j) (line : lines[j]? = some uri) :
      Gives lines i (.list .streamInf (a.insert "URI" ⟨Text.trim uri⟩))
  | uri {uri : String} (line : lines[i]? = some uri) (kind : LineKind.of uri = .uri)
      (alone : ∀ k, ¬ Joined lines k i) : Gives lines i (.single .uri ⟨Text.trim uri⟩)

/-- Line `i` is the variant stream `a`, with only comments behind it. -/
structure Open (lines : List String) (i : Nat) (a : Attributes) : Prop where
  stream : lines[i]?.bind directive? = some (.list .streamInf a)
  comments : ∀ k, i < k → ∀ line ∈ lines[k]?, isComment line = true

/-- Whether a line gives a directive of its own behind those in front of it. -/
def isOrigin (before : List String) (line : String) : Bool :=
  (directive? line).isSome || (LineKind.of line == .uri && (openStream? before).isNone)

def origins (lines : List String) : List Nat :=
  (List.range lines.length).filter fun i => lines[i]?.any (isOrigin (lines.take i))

variable {lines : List String} {line : String} {i j k : Nat} {a b : Attributes} {d : Directive}

/-! ## Kinds of lines -/

theorem isComment_iff : isComment line = true ↔ LineKind.of line = .comment := by
  rw [isComment, beq_iff_eq]

theorem directive?_of_isComment (h : isComment line = true) : directive? line = none := by
  rw [directive?, isComment_iff.1 h]

theorem directive?_of_uri (h : LineKind.of line = .uri) : directive? line = none := by
  rw [directive?, h]

theorem lt_of_read (h : lines[i]?.bind directive? = some d) : i < lines.length := by
  obtain ⟨line, hline, -⟩ := Option.bind_eq_some_iff.1 h
  exact (List.getElem?_eq_some_iff.1 hline).1

theorem not_isComment_of_read (h : lines[i]?.bind directive? = some d) :
    ¬ ∀ line ∈ lines[i]?, isComment line = true := by
  intro hcomment
  obtain ⟨line, hline, hread⟩ := Option.bind_eq_some_iff.1 h
  rw [directive?_of_isComment (hcomment line hline)] at hread
  cases hread

theorem not_isComment_of_uri (h : lines[i]?.map LineKind.of = some .uri) :
    ¬ ∀ line ∈ lines[i]?, isComment line = true := by
  intro hcomment
  obtain ⟨line, hline, huri⟩ := Option.map_eq_some_iff.1 h
  rw [isComment_iff.1 (hcomment line hline)] at huri
  cases huri

/-! ## The stream that is open -/

theorem Open.unique (hi : Open lines i a) (hj : Open lines j b) : i = j := by
  have before {i j : Nat} {a b : Attributes} (hi : Open lines i a) (hj : Open lines j b) :
      ¬ i < j :=
    fun hlt => not_isComment_of_read hj.stream (hi.comments j hlt)
  exact Nat.le_antisymm (Nat.not_lt.1 (before hj hi)) (Nat.not_lt.1 (before hi hj))

/-- One more line leaves the open stream open if it is a comment, and opens one if it is a stream.
-/
theorem open_append_singleton_iff (lines : List String) (line : String) (i : Nat) (a : Attributes) :
    Open (lines ++ [line]) i a ↔
      (isComment line = true ∧ Open lines i a) ∨
        (i = lines.length ∧ directive? line = some (.list .streamInf a)) := by
  have hbefore {k : Nat} (hk : k < lines.length) : (lines ++ [line])[k]? = lines[k]? :=
    List.getElem?_append_left hk
  have hwithin {k : Nat} {other : String} (h : (lines ++ [line])[k]? = some other) :
      k < lines.length ∨ k = lines.length ∧ line = other := by
    have hk := (List.getElem?_eq_some_iff.1 h).1
    rw [List.length_append, List.length_singleton] at hk
    rcases Nat.lt_succ_iff_lt_or_eq.1 hk with hk | rfl
    · exact .inl hk
    · exact .inr ⟨rfl, by simpa using h⟩
  constructor
  · intro h
    obtain ⟨other, hother, hread⟩ := Option.bind_eq_some_iff.1 h.stream
    rcases hwithin hother with hlt | ⟨rfl, rfl⟩
    · refine .inl ⟨h.comments lines.length hlt line (by simp), hbefore hlt ▸ h.stream,
        fun k hk other hother => h.comments k hk other ?_⟩
      rwa [hbefore (List.getElem?_eq_some_iff.1 hother).1]
    · exact .inr ⟨rfl, hread⟩
  · rintro (⟨hcomment, h⟩ | ⟨rfl, hread⟩)
    · refine ⟨(hbefore (lt_of_read h.stream)).symm ▸ h.stream, fun k hk other hother => ?_⟩
      rcases hwithin hother with hlt | ⟨-, rfl⟩
      · exact h.comments k hk other (hbefore hlt ▸ hother)
      · exact hcomment
    · refine ⟨by simpa using hread, fun k hk other hother => ?_⟩
      rcases hwithin hother with hlt | ⟨rfl, -⟩
      · exact absurd hlt (Nat.not_lt.2 (Nat.le_of_lt hk))
      · exact absurd hk (Nat.lt_irrefl _)

/-- The stream that is open behind one line more. -/
theorem openStream?_append_singleton (lines : List String) (line : String) :
    openStream? (lines ++ [line]) =
      if isComment line then openStream? lines
      else match directive? line with
        | some (.list .streamInf a) => some a
        | _ => none := by
  rw [openStream?, List.reverse_append, List.reverse_singleton, List.singleton_append,
    List.find?_cons]
  cases isComment line <;> rfl

/-- The stream that some lines leave open is that of one of them. -/
theorem openStream?_eq_some_iff_open : openStream? lines = some a ↔ ∃ i, Open lines i a := by
  induction lines using List.reverseRecOn with
  | nil =>
    refine iff_of_false (by simp [openStream?]) ?_
    rintro ⟨i, h⟩
    exact absurd (lt_of_read h.stream) (Nat.not_lt_zero i)
  | append_singleton lines line ih =>
    rw [openStream?_append_singleton]
    simp only [open_append_singleton_iff]
    by_cases hcomment : isComment line = true
    · simp [hcomment, ih, directive?_of_isComment hcomment]
    · simp only [hcomment]
      cases hread : directive? line with
      | none => simp
      | some d =>
        cases d with
        | list kind b => cases kind <;> simp
        | _ => simp

theorem openStream?_eq_none_iff_open : openStream? lines = none ↔ ∀ i a, ¬ Open lines i a := by
  simp only [Option.eq_none_iff_forall_ne_some, ne_eq, openStream?_eq_some_iff_open, not_exists]
  exact forall_comm

/-! ## Which URI goes to which stream -/

/-- A URI goes to the stream that the lines in front of it leave open. -/
theorem joined_iff :
    Joined lines i j ↔ lines[j]?.map LineKind.of = some .uri ∧ ∃ a, Open (lines.take j) i a := by
  constructor
  · intro h
    obtain ⟨a, ha⟩ := h.stream
    refine ⟨h.uri, a, by rwa [List.getElem?_take_of_lt h.lt], fun k hk line hline => ?_⟩
    rw [List.getElem?_take] at hline
    split at hline
    · next hkj => exact h.comments k hk hkj line hline
    · cases hline
  · rintro ⟨huri, a, h⟩
    have hlt : i < j := Nat.lt_of_lt_of_le (lt_of_read h.stream) (List.length_take_le _ _)
    refine ⟨hlt, ⟨a, by rw [← List.getElem?_take_of_lt hlt]; exact h.stream⟩, huri, ?_⟩
    intro k hk hkj line hline
    exact h.comments k hk line (by rwa [List.getElem?_take_of_lt hkj])

theorem Joined.lt_length (h : Joined lines i j) : j < lines.length := by
  obtain ⟨line, hline, -⟩ := Option.map_eq_some_iff.1 h.uri
  exact (List.getElem?_eq_some_iff.1 hline).1

/-- A URI goes to one stream at most. -/
theorem Joined.left_unique (hi : Joined lines i k) (hj : Joined lines j k) : i = j := by
  obtain ⟨-, a, ha⟩ := joined_iff.1 hi
  obtain ⟨-, b, hb⟩ := joined_iff.1 hj
  exact ha.unique hb

/-- A stream takes one URI at most. -/
theorem Joined.right_unique (hj : Joined lines i j) (hk : Joined lines i k) : j = k := by
  have before {j k : Nat} (hj : Joined lines i j) (hk : Joined lines i k) : ¬ j < k :=
    fun hlt => not_isComment_of_uri hj.uri (hk.comments j hj.lt hlt)
  exact Nat.le_antisymm (Nat.not_lt.1 (before hk hj)) (Nat.not_lt.1 (before hj hk))

/-- One more URI goes to the stream that is open; all others go where they went. -/
theorem joined_append_singleton_iff (lines : List String) (line : String) (i j : Nat) :
    Joined (lines ++ [line]) i j ↔
      Joined lines i j ∨ (j = lines.length ∧ LineKind.of line = .uri ∧ ∃ a, Open lines i a) := by
  rw [joined_iff, joined_iff]
  rcases Nat.lt_trichotomy j lines.length with hlt | rfl | hgt
  · rw [List.getElem?_append_left hlt, List.take_append_of_le_length (Nat.le_of_lt hlt)]
    simp [Nat.ne_of_lt hlt]
  · simp
  · have hnone : lines[j]? = none := List.getElem?_eq_none (Nat.le_of_lt hgt)
    have hnone' : (lines ++ [line])[j]? = none := by
      rw [List.getElem?_append_right (Nat.le_of_lt hgt)]
      exact List.getElem?_eq_none (Nat.sub_pos_of_lt hgt)
    simp [hnone, hnone', Nat.ne_of_gt hgt]

/-! ## One more line -/

theorem Gives.lt_length (h : Gives lines i d) : i < lines.length := by
  cases h with
  | tag read _ => exact lt_of_read read
  | stream read _ _ => exact lt_of_read read
  | uri line _ _ => exact (List.getElem?_eq_some_iff.1 line).1

/-- What a line gives stays the same unless it is an open stream and a URI is added. -/
theorem Gives.append_singleton (h : Gives lines i d)
    (closed : LineKind.of line = .uri → ∀ a, ¬ Open lines i a) : Gives (lines ++ [line]) i d := by
  have hsame {k : Nat} (hk : k < lines.length) : (lines ++ [line])[k]? = lines[k]? :=
    List.getElem?_append_left hk
  have hi := h.lt_length
  cases h with
  | tag read alone =>
    refine .tag (by rwa [hsame hi]) fun j hj => ?_
    rcases (joined_append_singleton_iff lines line i j).1 hj with hj | ⟨-, huri, a, ha⟩
    · exact alone j hj
    · exact closed huri a ha
  | stream read joined huri =>
    exact .stream (by rwa [hsame hi]) ((joined_append_singleton_iff lines line _ _).2 (.inl joined))
      (by rwa [hsame joined.lt_length])
  | uri huri kind alone =>
    refine .uri (by rwa [hsame hi]) kind fun k hk => ?_
    rcases (joined_append_singleton_iff lines line k i).1 hk with hk | ⟨rfl, -⟩
    · exact alone k hk
    · exact Nat.lt_irrefl _ hi

/-- One more line is an origin by what stands in front of it. -/
theorem origins_append_singleton (lines : List String) (line : String) :
    origins (lines ++ [line]) =
      origins lines ++ if isOrigin lines line then [lines.length] else [] := by
  have hold : (List.range lines.length).filter
      (fun i => (lines ++ [line])[i]?.any (isOrigin ((lines ++ [line]).take i))) =
        origins lines := by
    refine List.filter_congr fun i hi => ?_
    have hlt := List.mem_range.1 hi
    rw [List.getElem?_append_left hlt, List.take_append_of_le_length (Nat.le_of_lt hlt)]
  rw [origins, List.length_append, List.length_singleton, List.range_succ, List.filter_append, hold,
    List.filter_singleton]
  simp

/-- A line gives a directive of its own if it holds one as a tag, or a URI that no stream waits for.
-/
theorem mem_origins_iff :
    i ∈ origins lines ↔ (∃ d, lines[i]?.bind directive? = some d) ∨
      lines[i]?.map LineKind.of = some .uri ∧ ∀ k, ¬ Joined lines k i := by
  simp only [origins, List.mem_filter, List.mem_range, joined_iff]
  cases hline : lines[i]? with
  | none => simp
  | some line =>
    have hlt := (List.getElem?_eq_some_iff.1 hline).1
    have horigin : isOrigin (lines.take i) line = true ↔ (∃ d, directive? line = some d) ∨
        LineKind.of line = .uri ∧ ∀ k a, ¬ Open (lines.take i) k a := by
      rw [← openStream?_eq_none_iff_open]
      simp [isOrigin, Option.isSome_iff_exists]
    by_cases huri : LineKind.of line = .uri
    · simp [hlt, horigin, huri]
    · simp [hlt, horigin, huri]

/-- The stream that is open is the newest of the lines that give directives: behind it there are only
comments, which give none. -/
theorem Open.eq_newest {older : List Nat} (h : Open lines i a)
    (hnewest : (origins lines).reverse = j :: older) : j = i ∧ ∀ k ∈ older, k < i := by
  have hrising : (j :: older).Pairwise (· > ·) := by
    rw [← hnewest, List.pairwise_reverse]
    exact List.pairwise_lt_range.filter _
  have hmem {k : Nat} : k ∈ origins lines ↔ k ∈ j :: older := by rw [← hnewest, List.mem_reverse]
  rcases List.mem_cons.1 (hmem.1 (mem_origins_iff.2 (.inl ⟨_, h.stream⟩))) with rfl | hi
  · exact ⟨rfl, fun k hk => List.rel_of_pairwise_cons hrising hk⟩
  · have hcomment := h.comments j (List.rel_of_pairwise_cons hrising hi)
    rcases mem_origins_iff.1 (hmem.2 List.mem_cons_self) with ⟨d, hread⟩ | ⟨huri, -⟩
    · exact absurd hcomment (not_isComment_of_read hread)
    · exact absurd hcomment (not_isComment_of_uri huri)

theorem addUri_of_closed (h : openStream? lines = none) (line : String) :
    (lines.foldl addLine {}).addUri line = (lines.foldl addLine {}).push (.uri line) false := by
  rw [← addUri_resting fun a older hwaits hnewest => ?_]
  · rfl
  · rw [openStream?_eq_some_iff.2 ⟨hwaits, older, hnewest⟩] at h
    cases h

theorem addUri_of_open (h : openStream? lines = some a) (line : String) :
    ∃ older, (lines.foldl addLine {}).newestFirst = .list .streamInf a :: older ∧
      ((lines.foldl addLine {}).addUri line).newestFirst =
        .list .streamInf (a.insert "URI" ⟨Text.trim line⟩) :: older := by
  obtain ⟨hwaits, older, hnewest⟩ := openStream?_eq_some_iff.1 h
  exact ⟨older, hnewest, by rw [addUri, hwaits, hnewest]; rfl⟩

/-- The directives so far come from the lines so far, the newest first. -/
def Traced (lines : List String) (newestFirst : List Directive) : Prop :=
  List.Forall₂ (Gives lines) (origins lines).reverse newestFirst

theorem Traced.append_singleton {newestFirst : List Directive} (h : Traced lines newestFirst)
    (horigin : isOrigin lines line = false)
    (closed : LineKind.of line = .uri → ∀ i a, ¬ Open lines i a) :
    Traced (lines ++ [line]) newestFirst := by
  rw [Traced, origins_append_singleton, horigin, if_neg Bool.false_ne_true, List.append_nil]
  exact h.imp fun i d hd => hd.append_singleton fun huri => closed huri i

theorem Traced.push {newestFirst : List Directive} (h : Traced lines newestFirst)
    (horigin : isOrigin lines line = true)
    (closed : LineKind.of line = .uri → ∀ i a, ¬ Open lines i a)
    (hgives : Gives (lines ++ [line]) lines.length d) :
    Traced (lines ++ [line]) (d :: newestFirst) := by
  rw [Traced, origins_append_singleton, horigin, if_pos rfl, List.reverse_append]
  exact .cons hgives (h.imp fun i d hd => hd.append_singleton fun huri => closed huri i)

/-- A URI changes the directive of the open stream, which is the newest, and no other. -/
theorem Traced.join {older : List Directive} (h : Traced lines (.list .streamInf a :: older))
    (hkind : LineKind.of line = .uri) (hopen : Open lines i a) :
    Traced (lines ++ [line]) (.list .streamInf (a.insert "URI" ⟨Text.trim line⟩) :: older) := by
  have horigin : isOrigin lines line = false := by
    simp [isOrigin, directive?_of_uri hkind, openStream?_eq_some_iff_open.2 ⟨i, hopen⟩]
  rw [Traced, origins_append_singleton, horigin, if_neg Bool.false_ne_true, List.append_nil]
  obtain ⟨j, before, -, hbefore, hnewest⟩ := List.forall₂_cons_right_iff.1 h
  obtain ⟨rfl, hlt⟩ := hopen.eq_newest hnewest
  rw [hnewest]
  refine .cons ?_ ?_
  · have hjoined := (joined_append_singleton_iff lines line j lines.length).2
      (.inr ⟨rfl, hkind, a, hopen⟩)
    exact .stream (by rw [List.getElem?_append_left (lt_of_read hopen.stream)]; exact hopen.stream)
      hjoined (by simp)
  · refine ((List.forall₂_and_left _ _).2 ⟨hlt, hbefore⟩).imp fun k d hk => ?_
    exact hk.2.append_singleton fun _ b hb => Nat.ne_of_lt hk.1 (hb.unique hopen)

/-- Behind a tag the directives still come from the lines: it is an origin if it holds a directive,
and gives nothing else. -/
theorem Traced.addTag {text : String} (h : Traced lines (lines.foldl addLine {}).newestFirst)
    (hkind : LineKind.of line = .tag text) :
    Traced (lines ++ [line]) ((lines.foldl addLine {}).addTag text).newestFirst := by
  have hread : directive? line = Directive.read? (splitTag text).1 (splitTag text).2 := by
    rw [directive?, hkind]
  have hclosed : LineKind.of line = .uri → ∀ i a, ¬ Open lines i a := by simp [hkind]
  rw [Entries.addTag, ← hread]
  cases hd : directive? line with
  | none => exact h.append_singleton (by simp [isOrigin, hd, hkind]) hclosed
  | some d =>
    refine h.push (by simp [isOrigin, hd]) hclosed (.tag (by simpa using hd) fun j hj => ?_)
    have hlength := hj.lt_length
    rw [List.length_append] at hlength
    exact Nat.lt_irrefl _ (Nat.lt_of_lt_of_le hj.lt (Nat.le_of_lt_succ hlength))

/-- Behind a URI they do, too: it goes to the open stream if there is one, and is an origin if not.
-/
theorem Traced.addUri (h : Traced lines (lines.foldl addLine {}).newestFirst)
    (hkind : LineKind.of line = .uri) :
    Traced (lines ++ [line]) ((lines.foldl addLine {}).addUri line).newestFirst := by
  cases hstream : openStream? lines with
  | none =>
    have hclosed := openStream?_eq_none_iff_open.1 hstream
    rw [addUri_of_closed hstream]
    refine h.push (by simp [isOrigin, hkind, hstream]) (fun _ => hclosed) ?_
    refine .uri (by simp) hkind fun k hk => ?_
    rcases (joined_append_singleton_iff lines line k _).1 hk with hk | ⟨-, -, a, ha⟩
    · exact Nat.lt_irrefl _ hk.lt_length
    · exact hclosed k a ha
  | some a =>
    obtain ⟨older, hnewest, hjoined⟩ := addUri_of_open hstream line
    obtain ⟨i, hopen⟩ := openStream?_eq_some_iff_open.1 hstream
    rw [hjoined]
    rw [hnewest] at h
    exact h.join hkind hopen

/-- All directives come from the lines. The induction is from their end, as a URI reaches back to a
line in front of it. -/
theorem traced (lines : List String) : Traced lines (lines.foldl addLine {}).newestFirst := by
  induction lines using List.reverseRecOn with
  | nil => exact .nil
  | append_singleton lines line ih =>
    rw [List.foldl_append, List.foldl_cons, List.foldl_nil, addLine_eq]
    cases hkind : LineKind.of line with
    | tag text => exact ih.addTag hkind
    | uri => exact ih.addUri hkind
    | comment | blank =>
      exact ih.append_singleton (by simp [isOrigin, directive?, hkind]) (by simp [hkind])

/-! ## All directives and addresses -/

/-- In the order of the lines there is one directive for each tag that is read, and nothing else but
URIs of their own. Each URI goes to one variant stream and gives no directive, or to none and gives
one. A stream takes one URI at most. -/
theorem ofLines_origins (lines : List String) :
    ∃ origins : List Nat, origins.Pairwise (· < ·) ∧
      List.Forall₂ (Gives lines) origins (ofLines lines) ∧
      (∀ i d, lines[i]?.bind directive? = some d → i ∈ origins) ∧
      (∀ j, lines[j]?.map LineKind.of = some .uri →
        (∃! i, Joined lines i j) ∧ j ∉ origins ∨ (∀ i, ¬ Joined lines i j) ∧ j ∈ origins) ∧
      ∀ i j k, Joined lines i j → Joined lines i k → j = k := by
  refine ⟨origins lines, List.pairwise_lt_range.filter _, ?_, ?_, ?_, ?_⟩
  · rw [ofLines, directives, ← List.forall₂_reverse_iff, List.reverse_reverse]
    exact traced lines
  · exact fun i d hread => mem_origins_iff.2 (.inl ⟨d, hread⟩)
  · intro j huri
    by_cases hjoined : ∃ i, Joined lines i j
    · obtain ⟨i, hi⟩ := hjoined
      refine .inl ⟨⟨i, hi, fun k hk => hk.left_unique hi⟩, fun hmem => ?_⟩
      rcases mem_origins_iff.1 hmem with ⟨d, hread⟩ | ⟨-, hnone⟩
      · obtain ⟨line, hline, hread⟩ := Option.bind_eq_some_iff.1 hread
        rw [hline, Option.map_some, Option.some.injEq] at huri
        rw [directive?_of_uri huri] at hread
        cases hread
      · exact hnone i hi
    · have hnone := not_exists.1 hjoined
      exact .inr ⟨hnone, mem_origins_iff.2 (.inr ⟨huri, hnone⟩)⟩
  · exact fun i j k => Joined.right_unique

end Entries

end AdaptiveHls
