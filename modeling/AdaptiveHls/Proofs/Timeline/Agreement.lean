import AdaptiveHls.Proofs.Playlist.Written
import AdaptiveHls.Proofs.Timeline.Blocks

/-!
# When two timelines make the same segments of the same blocks

Two timelines that give the next segment the same number differ in what is carried and in where the
newest byte range ended. The first block decides about what is carried: it either states an
attribute itself or hands on what it got, and then all later blocks do the same on both sides. An
end of a byte range is only used by a range without an offset, so there a later block may decide.
`Resumes` says of the blocks alone when those behind a gap come out right without it.
-/

namespace AdaptiveHls

def Segment.untimed (s : Segment) : Segment := { s with startTime := 0 }

@[simp] theorem Segment.untimed_duration (s : Segment) : s.untimed.duration = s.duration := rfl
@[simp] theorem Segment.untimed_setStart (s : Segment) (start : Int) :
    { s with startTime := start }.untimed = s.untimed := rfl

/-- Whether each byte range finds within the blocks what it needs: one states an offset before any
relies on the end of a range in front of all. -/
def StatesOffset : List Block → Prop
  | [] => True
  | b :: rest =>
    match b.range? with
    | none => StatesOffset rest
    | some ⟨length, none⟩ => length = 0 ∧ StatesOffset rest
    | some ⟨length, some offset⟩ =>
      (ByteRange.ofLength? offset length).isSome ∨ StatesOffset rest

/-- The blocks of `rest` need nothing that those of `gone` would have carried to them. -/
structure Resumes (gone rest : List Block) : Prop where
  keys : (∀ b ∈ gone, b.keys = []) ∨ ∀ b ∈ rest.head?, b.keys ≠ []
  initSegment : (∀ b ∈ gone, b.initSegment? = none) ∨ ∀ b ∈ rest.head?, b.initSegment? ≠ none
  utcTime : (∀ b ∈ gone, b.date? = none) ∨ ∀ b ∈ rest.head?, b.date? ≠ none
  discontinuity : (∀ b ∈ gone, b.discontinuities = 0) ∨
    ∀ b ∈ rest.head?, Count.greatest ≤ b.discontinuities
  byteRange : (∀ b ∈ gone, b.byteRange 0 = none) ∨ StatesOffset rest

namespace SegmentList

variable (start : Int) {xs ys : List Segment}

theorem retime_untimed : retime start (xs.map (·.untimed)) = retime start xs := by
  induction xs generalizing start with
  | nil => rfl
  | cons s rest ih =>
    simp only [List.map_cons, retime, ih, Segment.untimed_duration]
    rfl

theorem untimed_retime : (retime start xs).map (·.untimed) = xs.map (·.untimed) := by
  induction xs generalizing start with
  | nil => rfl
  | cons s rest ih => simp only [List.map_cons, retime, ih, Segment.untimed_setStart]

/-- Counting the times anew forgets the times and nothing else. -/
theorem retime_eq_retime_iff :
    retime start xs = retime start ys ↔ xs.map (·.untimed) = ys.map (·.untimed) := by
  constructor
  · intro h
    rw [← untimed_retime start, h, untimed_retime]
  · intro h
    rw [← retime_untimed, h, retime_untimed]

end SegmentList

/-- The byte ranges of the blocks' segments if the range in front of them ends at `start`. -/
def byteRanges (start : Nat) : List Block → List (Option ByteRange)
  | [] => []
  | b :: rest => b.byteRange start :: byteRanges (b.rangeEnd start) rest

theorem RangeSpec.length_le_of_read? {s : String} {spec : RangeSpec} (h : read? s = some spec) :
    spec.length ≤ Count.greatest := by
  simp only [read?] at h
  split at h
  · simp only [bind, Option.bind_eq_some_iff] at h
    obtain ⟨length, hlength, offset, -, hspec⟩ := h
    cases hspec
    exact Number.le_of_leadingCount? hlength
  · obtain ⟨length, hlength, rfl⟩ := Option.map_eq_some_iff.1 h
    exact Number.le_of_leadingCount? hlength

theorem ByteRange.next_ne_zero (r : ByteRange) : r.next ≠ 0 := by
  simp only [next, Count.add, Count.greatest]; omega

namespace Block

variable (b : Block)

theorem length_le_of_range? {spec : RangeSpec} (h : b.range? = some spec) :
    spec.length ≤ Count.greatest := by
  obtain ⟨d, -, hd⟩ := List.exists_of_findSome?_eq_some (Option.join_eq_some_iff.1 h)
  cases d with
  | single kind value =>
    cases kind <;> simp [Directive.range?] at hd
    exact RangeSpec.length_le_of_read? hd
  | list kind a => simp [Directive.range?] at hd
  | inf a => simp [Directive.range?] at hd

/-- A range ends at zero only if it begins there and has no byte. -/
theorem rangeEnd_eq_zero_iff (start : Nat) :
    b.rangeEnd start = 0 ↔ start = 0 ∧ b.byteRange 0 = none := by
  rw [rangeEnd]
  constructor
  · intro h
    cases hr : b.byteRange start with
    | some r => simp [hr, ByteRange.next_ne_zero] at h
    | none =>
      have hzero : start = 0 := by simpa [hr] using h
      exact ⟨hzero, hzero ▸ hr⟩
  · rintro ⟨rfl, hr⟩
    rw [hr]; rfl

end Block

/-- A start other than zero shows in the first range that relies on it. -/
theorem byteRanges_eq_byteRanges_zero_iff {start : Nat} {blocks : List Block} :
    byteRanges start blocks = byteRanges 0 blocks ↔ start = 0 ∨ StatesOffset blocks := by
  induction blocks generalizing start with
  | nil => simp [byteRanges, StatesOffset]
  | cons b rest ih =>
    rw [byteRanges, byteRanges, List.cons_eq_cons]
    cases hr : b.range? with
    | none => simpa [StatesOffset, Block.rangeEnd, Block.byteRange, hr] using ih
    | some spec =>
      obtain ⟨length, offset⟩ := spec
      cases offset with
      | some offset =>
        cases ho : ByteRange.ofLength? offset length with
        | some r => simp [StatesOffset, Block.rangeEnd, Block.byteRange, hr, ho]
        | none => simpa [StatesOffset, Block.rangeEnd, Block.byteRange, hr, ho] using ih
      | none =>
        by_cases hzero : length = 0
        · subst hzero
          have hnone (n : Nat) : ByteRange.ofLength? n 0 = none := rfl
          simpa [StatesOffset, Block.rangeEnd, Block.byteRange, hr, hnone] using ih
        · have hle : length ≤ Count.greatest := b.length_le_of_range? hr
          have hsome : ByteRange.ofLength? 0 length = some ⟨0, length - 1⟩ :=
            ByteRange.ofLength?_eq_some.2 ⟨by omega, by omega, by simp⟩
          constructor
          · rintro ⟨hrange, -⟩
            simp only [Block.byteRange, hr, Option.bind_some, Option.getD_none, hsome,
              ByteRange.ofLength?_eq_some] at hrange
            exact .inl (congrArg (·.first) hrange.2.2).symm
          · rintro (rfl | hstates)
            · exact ⟨rfl, rfl⟩
            · simp [StatesOffset, hr, hzero] at hstates

namespace Block

variable {t u : Timeline} (b : Block)

/-- What a block tells its segment is the same as if nothing had been carried exactly if the block
states itself whatever was carried. -/
theorem tell_eq_tell_nothing_iff {c : Carried} :
    b.tell c = b.tell {} ↔
      (c.utcTime = none ∨ b.date? ≠ none) ∧
      (c.discontinuity = 0 ∨ Count.greatest ≤ b.discontinuities) ∧
      (c.keys = [] ∨ b.keys ≠ []) ∧ (c.initSegment = none ∨ b.initSegment? ≠ none) := by
  have hkeys : (if b.keys.isEmpty then c.keys else b.keys) = (if b.keys.isEmpty then [] else b.keys) ↔
      c.keys = [] ∨ b.keys ≠ [] := by
    cases b.keys <;> simp
  have hinit : b.initSegment?.or c.initSegment = b.initSegment?.or none ↔
      c.initSegment = none ∨ b.initSegment? ≠ none := by
    cases b.initSegment? <;> simp
  have hutc : b.date?.or c.utcTime = b.date?.or none ↔ c.utcTime = none ∨ b.date? ≠ none := by
    cases b.date? <;> simp
  have hdisc : Count.add c.discontinuity b.discontinuities = Count.add 0 b.discontinuities ↔
      c.discontinuity = 0 ∨ Count.greatest ≤ b.discontinuities := by
    simp only [Count.add]; omega
  rw [Carried.ext_iff, ← hkeys, ← hinit, ← hutc, ← hdisc]
  rfl

/-- A block makes the same of two timelines if it finds the same carried over, and the same of its
bytes. -/
theorem untimed_segment_eq_iff (ht : t.Fresh) (hu : u.Fresh) (hs : t.sequence = u.sequence)
    (htarget : t.rendition.targetDuration = u.rendition.targetDuration) :
    (b.segment t).untimed = (b.segment u).untimed ↔
      b.tell t.carried = b.tell u.carried ∧ b.byteRange t.rangeEnd = b.byteRange u.rangeEnd := by
  have hparts : (t.run b.tags).parts = (u.run b.tags).parts :=
    Timeline.run_parts b.isSegmentTag_of_mem (by rw [ht.parts, hu.parts])
      (by rw [ht.partRangeEnd, hu.partRangeEnd])
  rw [b.segment_eq ht, b.segment_eq hu, hs, htarget, hparts]
  simp only [Segment.untimed, Segment.mk.injEq, true_and]
  constructor
  · rintro ⟨hutc, hrange, hdisc, hinit, hkeys⟩
    exact ⟨Carried.ext hutc hdisc hkeys hinit, hrange⟩
  · rintro ⟨htell, hrange⟩
    simp [htell, hrange]

end Block

namespace Timeline

variable {t u : Timeline} {blocks : List Block}

/-- With the same things carried, only the ends of byte ranges can make a difference. -/
theorem untimed_segmentsOf_eq_iff (ht : t.Fresh) (hu : u.Fresh) (hs : t.sequence = u.sequence)
    (htarget : t.rendition.targetDuration = u.rendition.targetDuration)
    (hcarried : t.carried = u.carried) (room : t.sequence + blocks.length ≤ Count.greatest) :
    (t.segmentsOf blocks).map (·.untimed) = (u.segmentsOf blocks).map (·.untimed) ↔
      byteRanges t.rangeEnd blocks = byteRanges u.rangeEnd blocks := by
  induction blocks generalizing t u with
  | nil => simp [byteRanges]
  | cons b rest ih =>
    simp only [List.length_cons] at room
    have hbt := b.extends_run ht (by omega)
    have hbu := b.extends_run hu (by omega)
    have hduration : (b.segment t).duration = (b.segment u).duration := by
      rw [b.segment_eq ht, b.segment_eq hu, htarget]
    have hrest := ih hbt.fresh hbu.fresh (by rw [hbt.sequence, hbu.sequence, hs])
      (by rw [hbt.targetDuration, hbu.targetDuration, htarget])
      (by rw [hbt.carried, hbu.carried, hcarried, hduration]) (by rw [hbt.sequence]; omega)
    rw [hbt.rangeEnd, hbu.rangeEnd] at hrest
    simp only [segmentsOf_cons, List.map_cons, byteRanges, List.cons_eq_cons, hrest,
      b.untimed_segment_eq_iff ht hu hs htarget, hcarried, true_and]

/-- What is carried makes a difference to the first block or to none. -/
theorem untimed_segmentsOf_cons_eq_iff (b : Block) (blocks : List Block) (ht : t.Fresh) (hu : u.Fresh)
    (hs : t.sequence = u.sequence)
    (htarget : t.rendition.targetDuration = u.rendition.targetDuration)
    (room : t.sequence + (b :: blocks).length ≤ Count.greatest) :
    (t.segmentsOf (b :: blocks)).map (·.untimed) = (u.segmentsOf (b :: blocks)).map (·.untimed) ↔
      b.tell t.carried = b.tell u.carried ∧
        byteRanges t.rangeEnd (b :: blocks) = byteRanges u.rangeEnd (b :: blocks) := by
  simp only [List.length_cons] at room
  have hbt := b.extends_run ht (by omega)
  have hbu := b.extends_run hu (by omega)
  have hduration : (b.segment t).duration = (b.segment u).duration := by
    rw [b.segment_eq ht, b.segment_eq hu, htarget]
  simp only [segmentsOf_cons, List.map_cons, byteRanges, List.cons_eq_cons,
    b.untimed_segment_eq_iff ht hu hs htarget, and_assoc]
  refine and_congr_right fun htell => and_congr_right fun _ => ?_
  rw [← hbt.rangeEnd, ← hbu.rangeEnd]
  exact untimed_segmentsOf_eq_iff hbt.fresh hbu.fresh (by rw [hbt.sequence, hbu.sequence, hs])
    (by rw [hbt.targetDuration, hbu.targetDuration, htarget])
    (by rw [hbt.carried, hbu.carried, htell, hduration]) (by rw [hbt.sequence]; omega)

/-- Something holds behind all blocks if it does in front of them and each block lets it be. -/
theorem run_blocks_iff {p : Timeline → Prop} {q : Block → Prop}
    (step : ∀ t u b, t.Fresh → Block.Extends b t u → (p u ↔ p t ∧ q b)) (ht : t.Fresh)
    (room : t.sequence + blocks.length ≤ Count.greatest) :
    p (t.run (blocks.flatMap (·.directives))) ↔ p t ∧ ∀ b ∈ blocks, q b := by
  induction blocks generalizing t with
  | nil => simp
  | cons b rest ih =>
    simp only [List.length_cons] at room
    have hb := b.extends_run ht (by omega)
    rw [List.flatMap_cons, run_append, ih hb.fresh (by rw [hb.sequence]; omega),
      step t _ b ht hb, List.forall_mem_cons, and_assoc]

section Carried

variable (ht : t.Fresh) (room : t.sequence + blocks.length ≤ Count.greatest)
include ht room

theorem carried_keys_eq_nil_iff :
    (t.run (blocks.flatMap (·.directives))).carried.keys = [] ↔
      t.carried.keys = [] ∧ ∀ b ∈ blocks, b.keys = [] :=
  run_blocks_iff (p := fun t => t.carried.keys = []) (fun t u b _ hb => by
    rw [hb.carried]
    cases hk : b.keys <;> simp [Carried.after, Block.tell, hk]) ht room

theorem carried_initSegment_eq_none_iff :
    (t.run (blocks.flatMap (·.directives))).carried.initSegment = none ↔
      t.carried.initSegment = none ∧ ∀ b ∈ blocks, b.initSegment? = none :=
  run_blocks_iff (p := fun t => t.carried.initSegment = none) (fun t u b _ hb => by
    rw [hb.carried]
    simp [Carried.after, Block.tell, and_comm]) ht room

theorem carried_utcTime_eq_none_iff :
    (t.run (blocks.flatMap (·.directives))).carried.utcTime = none ↔
      t.carried.utcTime = none ∧ ∀ b ∈ blocks, b.date? = none :=
  run_blocks_iff (p := fun t => t.carried.utcTime = none) (fun t u b _ hb => by
    rw [hb.carried]
    simp [Carried.after, Block.tell, and_comm]) ht room

theorem carried_discontinuity_eq_zero_iff :
    (t.run (blocks.flatMap (·.directives))).carried.discontinuity = 0 ↔
      t.carried.discontinuity = 0 ∧ ∀ b ∈ blocks, b.discontinuities = 0 :=
  run_blocks_iff (p := fun t => t.carried.discontinuity = 0) (fun t u b _ hb => by
    rw [hb.carried]
    simp only [Carried.after, Block.tell, Count.add, Count.greatest]; omega) ht room

theorem rangeEnd_eq_zero_iff :
    (t.run (blocks.flatMap (·.directives))).rangeEnd = 0 ↔
      t.rangeEnd = 0 ∧ ∀ b ∈ blocks, b.byteRange 0 = none :=
  run_blocks_iff (p := fun t => t.rangeEnd = 0) (fun t u b _ hb => by
    rw [hb.rangeEnd, b.rangeEnd_eq_zero_iff]) ht room

end Carried

end Timeline

end AdaptiveHls
