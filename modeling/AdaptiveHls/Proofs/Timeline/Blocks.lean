import AdaptiveHls.Proofs.Timeline.Steps

/-!
# Segment blocks

A block is what stands between one URI and the next, the latter included. Its tags gather the
attributes of one segment, and some of them, held in `Carried`, outlive the segment. All blocks
of a playlist start from a `Fresh` timeline, so a segment depends on the blocks in front of it only
through its number, its times, the end of the newest byte range and what is carried.
-/

namespace AdaptiveHls

namespace Timeline

/-- A timeline in front of a block: nothing has been gathered for the next segment alone, and a new
key starts a new set. -/
structure Fresh (t : Timeline) : Prop where
  discontinuity_le : t.discontinuity ≤ Count.greatest
  duration : t.duration = none
  range : t.range = none
  partRangeEnd : t.partRangeEnd = 0
  keysUsed : t.keysUsed = true
  parts : t.parts = []

end Timeline

/-- The attributes that hold until they are stated anew. -/
@[ext] structure Carried where
  utcTime : Option Int := none
  discontinuity : Nat := 0
  keys : List Key := []
  initSegment : Option InitSegment := none
  deriving DecidableEq, Repr

/-- What is carried over a segment that lasts for `duration`. -/
def Carried.after (c : Carried) (duration : Int) : Carried :=
  { c with utcTime := c.utcTime.map (Ticks.add · duration) }

structure Block where
  tags : List Directive
  uri : Value
  isSegmentTag_of_mem : ∀ d ∈ tags, d.isSegmentTag
  uri_nonempty : uri.isEmpty = false

namespace Block

variable (b : Block)

def directives : List Directive := b.tags ++ [.single .uri b.uri]

def keys : List Key := b.tags.filterMap (·.key?)

def initSegment? : Option InitSegment := b.tags.reverse.findSome? (·.initSegment?)

def date? : Option Int := b.tags.reverse.findSome? (·.date?)

def discontinuities : Nat := b.tags.countP (·.isDiscontinuity)

def range? : Option RangeSpec := (b.tags.reverse.findSome? (·.range?)).join

/-- How long the block's segment lasts, where `target` is meant if it says nothing. -/
def duration (target : Int) : Int := (b.tags.reverse.findSome? (·.duration?)).join.getD target

/-- The byte range of the block's segment if the range before it ends at `start`. -/
def byteRange (start : Nat) : Option ByteRange :=
  b.range?.bind fun spec => ByteRange.ofLength? (spec.offset.getD start) spec.length

def rangeEnd (start : Nat) : Nat := ((b.byteRange start).map (·.next)).getD start

/-- What holds for the block's segment if `c` is carried up to the block. -/
def tell (c : Carried) : Carried where
  utcTime := b.date?.or c.utcTime
  discontinuity := Count.add c.discontinuity b.discontinuities
  keys := if b.keys.isEmpty then c.keys else b.keys
  initSegment := b.initSegment?.or c.initSegment

end Block

namespace Timeline

variable {t u : Timeline} {tags : List Directive}

def carried (t : Timeline) : Carried := ⟨t.utcTime, t.discontinuity, t.keys, t.initSegment⟩

/-- A field that no directive of some kind changes is the same after all of them. -/
theorem run_field {β : Type} (field : Timeline → β) (p : Directive → Prop)
    (same : ∀ t d, p d → field (t.step d) = field t) (h : ∀ d ∈ tags, p d) :
    field (t.run tags) = field t := by
  induction tags generalizing t with
  | nil => rfl
  | cons d rest ih =>
    rw [run_cons, ih fun e he => h e (List.mem_cons_of_mem _ he)]
    exact same t d (h d List.mem_cons_self)

/-- A field that directives state or leave alone is in the end what the last one stated. -/
theorem run_last {β : Type} (field : Timeline → Option β) (stated : Directive → Option β)
    (p : Directive → Prop) (last : ∀ t d, p d → field (t.step d) = (stated d).or (field t))
    (h : ∀ d ∈ tags, p d) :
    field (t.run tags) = (tags.reverse.findSome? stated).or (field t) := by
  induction tags generalizing t with
  | nil => rfl
  | cons d rest ih =>
    rw [run_cons, ih fun e he => h e (List.mem_cons_of_mem _ he), last t d (h d List.mem_cons_self)]
    simp [List.findSome?_append, Option.or_assoc]

theorem run_initSegment :
    (t.run tags).initSegment = (tags.reverse.findSome? (·.initSegment?)).or t.initSegment :=
  run_last (·.initSegment) _ (fun _ => True) (fun t d _ => step_initSegment t d) fun _ _ => trivial

/-- Discontinuities are counted one by one, up to the bound. -/
theorem run_discontinuity (bound : t.discontinuity ≤ Count.greatest) :
    (t.run tags).discontinuity = Count.add t.discontinuity (tags.countP (·.isDiscontinuity)) := by
  induction tags generalizing t with
  | nil => exact (Nat.min_eq_left bound).symm
  | cons d rest ih =>
    have hd := step_discontinuity t d
    by_cases hp : d.isDiscontinuity
    · simp only [hp, if_true] at hd
      rw [run_cons, ih (by rw [hd]; exact Count.add_le _ _), hd, Count.add_add,
        List.countP_cons_of_pos hp, Nat.add_comm]
    · simp only [hp, Bool.false_eq_true, if_false] at hd
      rw [run_cons, ih (by rw [hd]; exact bound), hd, List.countP_cons_of_neg hp]

section NoUri

variable (h : ∀ d ∈ tags, d.isUri = false)
include h

theorem run_segments : (t.run tags).segments = t.segments :=
  run_field (·.segments) _ (fun t d hd => by rw [step_eq t d hd]) h

theorem run_startTime : (t.run tags).startTime = t.startTime :=
  run_field (·.startTime) _ (fun t d hd => by rw [step_eq t d hd]) h

theorem run_rangeEnd : (t.run tags).rangeEnd = t.rangeEnd :=
  run_field (·.rangeEnd) _ (fun t d hd => by rw [step_eq t d hd]) h

theorem run_utcTime : (t.run tags).utcTime = (tags.reverse.findSome? (·.date?)).or t.utcTime :=
  run_last (·.utcTime) _ _ (fun t d hd => by rw [step_eq t d hd]) h

theorem run_duration :
    (t.run tags).duration = (tags.reverse.findSome? (·.duration?)).getD t.duration := by
  have := run_last (t := t) (fun t => some t.duration) (·.duration?) _ (fun t d hd => by
    rw [step_eq t d hd]; cases d.duration? <;> rfl) h
  cases hs : tags.reverse.findSome? (·.duration?) <;> simp_all

theorem run_range : (t.run tags).range = (tags.reverse.findSome? (·.range?)).getD t.range := by
  have := run_last (t := t) (fun t => some t.range) (·.range?) _ (fun t d hd => by
    rw [step_eq t d hd]; cases d.range? <;> rfl) h
  cases hs : tags.reverse.findSome? (·.range?) <;> simp_all

/-- Keys are added to the set only if no segment has used it. -/
theorem run_keys :
    (t.run tags).keysUsed = (t.keysUsed && (tags.filterMap (·.key?)).isEmpty) ∧
      (t.run tags).keys =
        if (tags.filterMap (·.key?)).isEmpty then t.keys
        else (if t.keysUsed then [] else t.keys) ++ tags.filterMap (·.key?) := by
  induction tags generalizing t with
  | nil => simp
  | cons d rest ih =>
    obtain ⟨hused, hkeys⟩ := ih (t := t.step d) fun e he => h e (List.mem_cons_of_mem _ he)
    rw [run_cons, hused, hkeys, step_eq t d (h d List.mem_cons_self)]
    cases hk : d.key? with
    | none => simp [hk]
    | some key => by_cases hr : rest.filterMap (·.key?) = [] <;> simp [hk, hr]

end NoUri

section SegmentTags

/-- A tag for a segment bears neither on the running number nor on the target duration. -/
theorem step_segmentTag {d : Directive} (hd : d.isSegmentTag) :
    (t.step d).sequence = t.sequence ∧
      (t.step d).rendition.targetDuration = t.rendition.targetDuration := by
  cases d with
  | single kind value =>
    cases kind <;> simp [Directive.isSegmentTag, step, stepSingle] at hd ⊢
    split <;> simp
  | list kind a =>
    cases kind <;> simp [Directive.isSegmentTag, step, stepList, addKey, setInit_eq, addPart] at hd ⊢
  | inf a => simp [step]

theorem step_parts {d : Directive} (hd : d.isSegmentTag) (hp : t.parts = u.parts)
    (he : t.partRangeEnd = u.partRangeEnd) :
    (t.step d).parts = (u.step d).parts ∧ (t.step d).partRangeEnd = (u.step d).partRangeEnd := by
  cases d with
  | single kind value =>
    cases kind <;> simp [Directive.isSegmentTag, step, stepSingle, hp, he] at hd ⊢
    split <;> simp [hp, he]
  | list kind a =>
    cases kind <;>
      simp [Directive.isSegmentTag, step, stepList, addKey, setInit_eq, addPart, hp, he] at hd ⊢
  | inf a => exact ⟨hp, he⟩

variable (h : ∀ d ∈ tags, d.isSegmentTag)
include h

theorem run_sequence : (t.run tags).sequence = t.sequence :=
  run_field (·.sequence) _ (fun _ _ hd => (step_segmentTag hd).1) h

theorem run_targetDuration :
    (t.run tags).rendition.targetDuration = t.rendition.targetDuration :=
  run_field (·.rendition.targetDuration) _ (fun _ _ hd => (step_segmentTag hd).2) h

/-- The parts that tags gather depend on nothing but the parts gathered before. -/
theorem run_parts (hp : t.parts = u.parts) (he : t.partRangeEnd = u.partRangeEnd) :
    (t.run tags).parts = (u.run tags).parts := by
  induction tags generalizing t u with
  | nil => exact hp
  | cons d rest ih =>
    obtain ⟨hp, he⟩ := step_parts (h d List.mem_cons_self) hp he
    exact ih (fun e he => h e (List.mem_cons_of_mem _ he)) hp he

end SegmentTags

end Timeline

namespace Block

variable {t u : Timeline} (b : Block)

theorem isUri_of_mem_tags : ∀ d ∈ b.tags, d.isUri = false :=
  fun d hd => Directive.isUri_of_isSegmentTag (b.isSegmentTag_of_mem d hd)

def segment (t : Timeline) : Segment := (t.run b.tags).nextSegment b.uri.raw

theorem run_directives : t.run b.directives = (t.run b.tags).emit b.uri.raw := by
  simp [directives, Timeline.step, Timeline.stepSingle, b.uri_nonempty]

theorem carried_tags (ht : t.Fresh) :
    (t.run b.tags).carried = b.tell t.carried := by
  have h := b.isUri_of_mem_tags
  simp [Timeline.carried, tell, Timeline.run_utcTime h, Timeline.run_initSegment,
    Timeline.run_discontinuity ht.discontinuity_le, (Timeline.run_keys h).2, ht.keysUsed, date?, keys,
    initSegment?, discontinuities]

/-- The byte range that a block takes is its own, read from the end of the one in front. -/
theorem takeRange_tags (ht : t.Fresh) :
    (t.run b.tags).takeRange = (b.byteRange t.rangeEnd, b.rangeEnd t.rangeEnd) := by
  have h := b.isUri_of_mem_tags
  have hr : (t.run b.tags).range = b.range? := by
    rw [Timeline.run_range h, ht.range, range?]
    cases b.tags.reverse.findSome? (·.range?) <;> rfl
  rw [Timeline.takeRange, hr, Timeline.run_rangeEnd h, rangeEnd, byteRange]
  cases b.range? with
  | none => rfl
  | some spec =>
    simp only [Option.bind_some]
    cases ByteRange.ofLength? (spec.offset.getD t.rangeEnd) spec.length <;> rfl

/-- All that a block says of its segment, in one record. -/
theorem segment_eq (ht : t.Fresh) :
    b.segment t =
      { sequence := t.sequence
        startTime := t.startTime
        duration := b.duration t.rendition.targetDuration
        utcTime := (b.tell t.carried).utcTime
        uri := b.uri.raw
        byteRange := b.byteRange t.rangeEnd
        discontinuity := (b.tell t.carried).discontinuity
        initSegment := (b.tell t.carried).initSegment
        parts := (t.run b.tags).parts
        keys := (b.tell t.carried).keys } := by
  have h := b.isUri_of_mem_tags
  have hd : (t.run b.tags).duration = (b.tags.reverse.findSome? (·.duration?)).join := by
    rw [Timeline.run_duration h, ht.duration]
    cases b.tags.reverse.findSome? (·.duration?) <;> rfl
  rw [← b.carried_tags ht, segment, Timeline.nextSegment, takeRange_tags b ht, hd,
    Timeline.run_sequence b.isSegmentTag_of_mem, Timeline.run_startTime h,
    Timeline.run_targetDuration b.isSegmentTag_of_mem]
  rfl

/-- How `u` goes on from `t` by the block. -/
structure Extends (t u : Timeline) : Prop where
  segments : u.segments = t.segments ++ [b.segment t]
  sequence : u.sequence = t.sequence + 1
  startTime : u.startTime = Ticks.add t.startTime (b.segment t).duration
  rangeEnd : u.rangeEnd = b.rangeEnd t.rangeEnd
  carried : u.carried = (b.tell t.carried).after (b.segment t).duration
  targetDuration : u.rendition.targetDuration = t.rendition.targetDuration
  fresh : u.Fresh

/-- A block adds its segment and carries on what it has stated. -/
theorem extends_run (ht : t.Fresh) (room : t.sequence < Count.greatest) :
    b.Extends t (t.run b.directives) := by
  have h := b.isUri_of_mem_tags
  have hs := Timeline.run_sequence (t := t) b.isSegmentTag_of_mem
  rw [run_directives, Timeline.emit_eq _ _ (by rw [hs]; exact room)]
  constructor
  · rw [Timeline.run_segments h, segment]
  · rw [hs]
  · rw [Timeline.run_startTime h, segment]
  · simp only [takeRange_tags b ht]
  · rw [← b.carried_tags ht]; rfl
  · exact Timeline.run_targetDuration b.isSegmentTag_of_mem
  · constructor
    · simp only [Timeline.run_discontinuity ht.discontinuity_le, Count.add_le]
    · rfl
    · rfl
    · rfl
    · simp only [Timeline.run_keys h, ht.keysUsed]
      cases b.tags.filterMap (·.key?) <;> simp
    · rfl

end Block

def Timeline.segmentsOf (t : Timeline) : List Block → List Segment
  | [] => []
  | b :: rest => b.segment t :: (t.run b.directives).segmentsOf rest

namespace Timeline

variable {t : Timeline} {blocks : List Block}

@[simp] theorem segmentsOf_nil : t.segmentsOf [] = [] := rfl
@[simp] theorem segmentsOf_cons (b : Block) :
    t.segmentsOf (b :: blocks) = b.segment t :: (t.run b.directives).segmentsOf blocks := rfl

theorem segmentsOf_append (blocks more : List Block) :
    t.segmentsOf (blocks ++ more) =
      t.segmentsOf blocks ++ (t.run (blocks.flatMap (·.directives))).segmentsOf more := by
  induction blocks generalizing t with
  | nil => rfl
  | cons b rest ih => simp [ih]

@[simp] theorem segmentsOf_length : (t.segmentsOf blocks).length = blocks.length := by
  induction blocks generalizing t with
  | nil => rfl
  | cons b rest ih => simp [ih]

/-- A run over blocks adds their segments, and no block is left half read. -/
theorem run_blocks (blocks : List Block) (ht : t.Fresh)
    (room : t.sequence + blocks.length ≤ Count.greatest) :
    (t.run (blocks.flatMap (·.directives))).segments = t.segments ++ t.segmentsOf blocks ∧
      (t.run (blocks.flatMap (·.directives))).sequence = t.sequence + blocks.length ∧
      (t.run (blocks.flatMap (·.directives))).rendition.targetDuration =
        t.rendition.targetDuration ∧
      (t.run (blocks.flatMap (·.directives))).Fresh := by
  induction blocks generalizing t with
  | nil => simp [ht]
  | cons b rest ih =>
    simp only [List.length_cons] at room
    have hb := b.extends_run ht (by omega)
    obtain ⟨hsegments, hsequence, htarget, hfresh⟩ := ih hb.fresh (by rw [hb.sequence]; omega)
    simp only [List.flatMap_cons, run_append, segmentsOf_cons, List.length_cons]
    refine ⟨?_, ?_, ?_, hfresh⟩
    · rw [hsegments, hb.segments, List.append_assoc, List.singleton_append]
    · rw [hsequence, hb.sequence]; omega
    · rw [htarget, hb.targetDuration]

/-- Blocks are numbered one after the other. -/
theorem segmentsOf_sequences (ht : t.Fresh) (room : t.sequence + blocks.length ≤ Count.greatest) :
    (t.segmentsOf blocks).map (·.sequence) = List.range' t.sequence blocks.length := by
  induction blocks generalizing t with
  | nil => rfl
  | cons b rest ih =>
    simp only [List.length_cons] at room
    have hb := b.extends_run ht (by omega)
    rw [segmentsOf_cons, List.map_cons, ih hb.fresh (by rw [hb.sequence]; omega), hb.sequence,
      b.segment_eq ht]
    rfl

theorem sequence_of_mem_segmentsOf (ht : t.Fresh)
    (room : t.sequence + blocks.length ≤ Count.greatest) {s : Segment}
    (hs : s ∈ t.segmentsOf blocks) :
    t.sequence ≤ s.sequence ∧ s.sequence < t.sequence + blocks.length := by
  have hmem := List.mem_map_of_mem (f := (·.sequence)) hs
  rw [segmentsOf_sequences ht room] at hmem
  exact List.mem_range'_1.1 hmem

/-- The times of the segments are already counted from the first one's on. -/
theorem retime_segmentsOf (ht : t.Fresh) (room : t.sequence + blocks.length ≤ Count.greatest) :
    SegmentList.retime t.startTime (t.segmentsOf blocks) = t.segmentsOf blocks := by
  induction blocks generalizing t with
  | nil => rfl
  | cons b rest ih =>
    simp only [List.length_cons] at room
    have hb := b.extends_run ht (by omega)
    have htime : (b.segment t).startTime = t.startTime := by rw [b.segment_eq ht]
    rw [segmentsOf_cons, SegmentList.retime, ← hb.startTime,
      ih hb.fresh (by rw [hb.sequence]; omega), ← htime]

end Timeline

end AdaptiveHls
