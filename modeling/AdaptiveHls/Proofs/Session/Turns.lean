import AdaptiveHls.Proofs.Session.Answers
import Mathlib.Data.List.Nodup

/-!
# Loads take turns

Loads stand in one order: first the one whose turn it is, then the queue. A task stands in it exactly
while it loads, and only the first may fetch, so no two fetch at once, whatever moves a session
makes. As long as no one asks for a load but the first one, the order is that of the numbers of the
tasks, and the background task is the newest of all. Then whoever started before it has finished
when it fetches.
-/

namespace AdaptiveHls

/-- Whether a task wants the turn or has it. -/
def Task.isLoading (t : Task) : Bool :=
  match t.activity with
  | .waiting | .fetching _ => true
  | _ => false

def Task.isFetching (t : Task) : Bool :=
  match t.activity with
  | .fetching _ => true
  | _ => false

def Task.isFinished (t : Task) : Bool :=
  match t.activity with
  | .finished _ => true
  | _ => false

def Move.isReload : Move → Bool
  | .start .reload _ | .start .current _ => true
  | _ => false

/-- Initial data that are used up and a snapshot that there is stay so. -/
structure Tracker.Onward (t u : Tracker) : Prop where
  initial : t.initial = none → u.initial = none
  snapshot : t.snapshot.isSome → u.snapshot.isSome

namespace Tracker

variable {t u v : Tracker}

theorem Onward.refl (t : Tracker) : Onward t t := ⟨id, id⟩

theorem Onward.trans (h : Onward t u) (h' : Onward u v) : Onward t v :=
  ⟨h'.initial ∘ h.initial, h'.snapshot ∘ h.snapshot⟩

theorem Untouched.onward (h : Untouched t u) : Onward t u := by
  refine ⟨fun hnone => ?_, fun hsome => h.snapshot ▸ hsome⟩
  rcases h.initial with hsame | hused
  · exact hsame.trans hnone
  · exact hused

theorem call_onward (t : Tracker) (c : Call) : Onward t (t.call c) := by
  obtain ⟨_, _, _, _, h⟩ := t.call_changes c
  rw [h]
  exact ⟨id, id⟩

theorem followWindow_initial (t : Tracker) (first : Option Nat) :
    (t.followWindow first).initial = t.initial := by
  simp only [followWindow]
  repeat' split
  all_goals rfl

theorem followHint_initial (t : Tracker) (r : Rendition) : (t.followHint r).initial = t.initial := by
  rw [followHint]
  split <;> rfl

theorem install_onward (t : Tracker) (now : Nat) (r : Rendition) : Onward t (t.install now r) := by
  refine ⟨fun hnone => ?_, fun _ => rfl⟩
  simp only [install, followHint_initial, followWindow_initial]
  exact hnone

theorem conclude_onward (t : Tracker) (now : Nat) (answer : Except Failure (List UInt8)) :
    Onward t (t.conclude now answer).2 := by
  rcases t.conclude_cases now answer with ⟨_, _, hu⟩ | ⟨_, _, _, _, _, _, hok⟩
  · exact hu.onward
  · rw [hok]
    exact t.install_onward now _

end Tracker

namespace Session

variable {s u : Session} {t : Task} {id : Nat} {busy : Option Nat} {quiet : Prop}

/-- The tasks that load: the one whose turn it is and those behind it. -/
def order (s : Session) : List Nat := s.turn.toList ++ s.queue

/-- A task has its place in the order exactly while it loads. -/
structure Placed (quiet : Prop) (s : Session) (t : Task) : Prop where
  number : t.id < s.nextId
  loading : t.isLoading = true ↔ t.id ∈ s.order
  fetching : t.isFetching = true → s.order.head? = some t.id ∧ s.tracker.initial = none
  background : t.purpose = .background → s.tracker.snapshot.isSome ∧ (quiet → t.id + 1 = s.nextId)
  other : t.purpose ≠ .background → t.isLoading = true ∨ t.isFinished = true

/-- Every task has its place, but for one that is about to take or leave it. With `quiet` no load
but the first one is asked for. -/
structure Orderly (quiet : Prop) (busy : Option Nat) (s : Session) : Prop where
  numbers : (s.tasks.map (·.id)).Nodup
  turn : s.turn = s.order.head?
  bound : ∀ i ∈ s.order, i < s.nextId
  rising : quiet → s.order.Pairwise (· < ·)
  placed : ∀ t ∈ s.tasks, some t.id ≠ busy → s.Placed quiet t

/-! ## The order -/

@[simp] theorem setTask_order (t : Task) : (s.setTask t).order = s.order := rfl
@[simp] theorem removeTask_order (id : Nat) : (s.removeTask id).order = s.order := rfl

@[simp] theorem leave_tasks (id : Nat) : (s.leave id).tasks = s.tasks := by
  simp only [leave]
  split <;> rfl

@[simp] theorem leave_nextId (id : Nat) : (s.leave id).nextId = s.nextId := by
  simp only [leave]
  split <;> rfl

@[simp] theorem leave_now (id : Nat) : (s.leave id).now = s.now := by
  simp only [leave]
  split <;> rfl

@[simp] theorem enter_now (id : Nat) : (s.enter id).now = s.now := by
  simp only [enter]
  split <;> rfl

@[simp] theorem enter_tasks (id : Nat) : (s.enter id).tasks = s.tasks := by
  simp only [enter]
  split <;> rfl

@[simp] theorem enter_nextId (id : Nat) : (s.enter id).nextId = s.nextId := by
  simp only [enter]
  split <;> rfl

@[simp] theorem leave_order (id : Nat) : (s.leave id).order = s.order.filter (· != id) := by
  have hcons (l : List Nat) : l.head?.toList ++ l.tail = l := by cases l <;> rfl
  simp only [leave, order]
  split
  · next h =>
    rw [hcons, eq_of_beq h, Option.toList_some, List.singleton_append,
      List.filter_cons_of_neg (by simp)]
  · next h =>
    cases hturn : s.turn with
    | none => rfl
    | some i =>
      have hne : i ≠ id := by simpa [hturn] using h
      simp [hne]

theorem queue_eq_nil (h : s.turn = s.order.head?) (hturn : s.turn = none) : s.queue = [] := by
  rw [hturn] at h
  simpa [order, hturn] using h.symm

theorem enter_order (h : s.turn = s.order.head?) (id : Nat) :
    (s.enter id).order = s.order ++ [id] := by
  simp only [enter]
  cases hturn : s.turn with
  | none => simp [order, hturn, queue_eq_nil h hturn]
  | some i => simp [order, hturn]

theorem enter_turn (id : Nat) : (s.enter id).turn = (s.enter id).order.head? := by
  simp only [enter]
  cases hturn : s.turn with
  | none => simp [order]
  | some i => simp [order]

theorem leave_turn (h : s.turn = s.order.head?) (id : Nat) :
    (s.leave id).turn = (s.leave id).order.head? := by
  simp only [leave]
  split
  · cases hqueue : s.queue.filter (· != id) <;> simp [order]
  · cases hturn : s.turn with
    | none => simp [order, queue_eq_nil h hturn]
    | some i => simp [order]

theorem mem_setTask {v : Task} (h : v ∈ (s.setTask t).tasks) :
    v = t ∨ (v ∈ s.tasks ∧ v.id ≠ t.id) := by
  obtain ⟨w, hw, rfl⟩ := List.mem_map.1 h
  split
  · exact .inl rfl
  · next hne => exact .inr ⟨hw, hne⟩

theorem setTask_numbers (t : Task) : (s.setTask t).tasks.map (·.id) = s.tasks.map (·.id) := by
  simp only [setTask, List.map_map]
  refine List.map_congr_left fun v _ => ?_
  simp only [Function.comp]
  split
  · next h => exact h.symm
  · rfl

theorem mem_removeTask {v : Task} : v ∈ (s.removeTask id).tasks ↔ v ∈ s.tasks ∧ v.id ≠ id := by
  simp [removeTask]

/-! ## Places -/

/-- A place stays while the numbers, the order and the tracker allow it. -/
theorem Placed.of_order {v : Task} (h : s.Placed quiet v) (hnext : u.nextId = s.nextId)
    (hmem : v.id ∈ u.order ↔ v.id ∈ s.order)
    (hhead : s.order.head? = some v.id → u.order.head? = some v.id)
    (honward : s.tracker.Onward u.tracker) : u.Placed quiet v where
  number := hnext ▸ h.number
  loading := h.loading.trans hmem.symm
  fetching hv := ⟨hhead (h.fetching hv).1, honward.initial (h.fetching hv).2⟩
  background hv := ⟨honward.snapshot (h.background hv).1, hnext ▸ (h.background hv).2⟩
  other := h.other

/-- The order stays as long as every task that is there keeps its place. -/
theorem Orderly.of_tasks {busy' : Option Nat} (h : s.Orderly quiet busy)
    (hnumbers : (u.tasks.map (·.id)).Nodup) (horder : u.order = s.order)
    (hturn : u.turn = s.turn) (hnext : u.nextId = s.nextId)
    (hplaced : ∀ v ∈ u.tasks, some v.id ≠ busy' → u.Placed quiet v) : u.Orderly quiet busy' where
  numbers := hnumbers
  turn := by rw [hturn, horder]; exact h.turn
  bound := by rw [horder, hnext]; exact h.bound
  rising := by rw [horder]; exact h.rising
  placed := hplaced

/-- Changes of the tracker keep the order if they do not take back what there is. -/
theorem Orderly.onward (h : s.Orderly quiet busy) (htasks : u.tasks = s.tasks)
    (horder : u.order = s.order) (hturn : u.turn = s.turn) (hnext : u.nextId = s.nextId)
    (honward : s.tracker.Onward u.tracker) : u.Orderly quiet busy := by
  refine h.of_tasks (by rw [htasks]; exact h.numbers) horder hturn hnext fun v hv hne => ?_
  rw [htasks] at hv
  exact (h.placed v hv hne).of_order hnext (by rw [horder]) (by rw [horder]; exact id) honward

/-- A task that takes its place is no longer busy. -/
theorem Orderly.setTask (h : s.Orderly quiet (some t.id)) (ht : s.Placed quiet t) :
    (s.setTask t).Orderly quiet none := by
  refine h.of_tasks (by rw [setTask_numbers]; exact h.numbers) rfl rfl rfl fun v hv _ => ?_
  rcases mem_setTask hv with rfl | ⟨hv, hne⟩
  · exact ht.of_order rfl .rfl (fun h => h) (.refl _)
  · exact (h.placed v hv (by simpa using hne)).of_order rfl .rfl (fun h => h) (.refl _)

theorem Orderly.removeTask (h : s.Orderly quiet (some id)) : (s.removeTask id).Orderly quiet none := by
  refine h.of_tasks (h.numbers.sublist (List.filter_sublist.map _)) rfl rfl rfl fun v hv _ => ?_
  obtain ⟨hv, hne⟩ := mem_removeTask.1 hv
  exact (h.placed v hv (by simpa using hne)).of_order rfl .rfl (fun h => h) (.refl _)

theorem Orderly.aside (h : s.Orderly quiet none) (id : Nat) : s.Orderly quiet (some id) :=
  ⟨h.numbers, h.turn, h.bound, h.rising, fun v hv _ => h.placed v hv (by simp)⟩

/-- Whoever leaves, the others keep their places. -/
theorem Orderly.leave (h : s.Orderly quiet (some id)) : (s.leave id).Orderly quiet (some id) where
  numbers := by rw [leave_tasks]; exact h.numbers
  turn := leave_turn h.turn id
  bound i hi := by
    rw [leave_order] at hi
    rw [leave_nextId]
    exact h.bound i (List.mem_of_mem_filter hi)
  rising hq := by
    rw [leave_order]
    exact (h.rising hq).sublist List.filter_sublist
  placed v hv hne := by
    rw [leave_tasks] at hv
    have hother : v.id ≠ id := by simpa using hne
    refine (h.placed v hv hne).of_order (leave_nextId id) (by simp [hother]) ?_
      (by rw [leave_tracker]; exact .refl _)
    intro hhead
    rw [leave_order]
    cases horder : s.order with
    | nil => simp [horder] at hhead
    | cons i rest =>
      have hi : i = v.id := by simpa [horder] using hhead
      rw [hi, List.filter_cons_of_pos (by simpa using hother), List.head?_cons]

/-- Whoever enters stands last. -/
theorem Orderly.enter (h : s.Orderly quiet (some id)) (hid : id < s.nextId)
    (hlast : quiet → ∀ i ∈ s.order, i < id) : (s.enter id).Orderly quiet (some id) where
  numbers := by rw [enter_tasks]; exact h.numbers
  turn := enter_turn id
  bound i hi := by
    rw [enter_order h.turn, List.mem_append, List.mem_singleton] at hi
    rw [enter_nextId]
    rcases hi with hi | rfl
    · exact h.bound i hi
    · exact hid
  rising hq := by
    rw [enter_order h.turn, List.pairwise_append]
    refine ⟨h.rising hq, List.pairwise_singleton _ _, fun i hi j hj => ?_⟩
    rw [List.mem_singleton.1 hj]
    exact hlast hq i hi
  placed v hv hne := by
    rw [enter_tasks] at hv
    have hother : v.id ≠ id := by simpa using hne
    have horder := enter_order h.turn id
    refine (h.placed v hv hne).of_order (enter_nextId id) (by simp [horder, hother]) ?_
      (by rw [enter_tracker]; exact .refl _)
    intro hhead
    rw [horder, List.head?_append, hhead, Option.some_or]

/-- A number belongs to one task. -/
theorem Orderly.eq_of_id {v : Task} (h : s.Orderly quiet busy) (hv : v ∈ s.tasks) (ht : t ∈ s.tasks)
    (hid : v.id = t.id) : v = t :=
  List.inj_on_of_nodup_map h.numbers hv ht hid

/-- Once the busy task has its place, everything is in order. -/
theorem Orderly.settled (h : s.Orderly quiet (some t.id)) (ht : t ∈ s.tasks)
    (hplaced : s.Placed quiet t) : s.Orderly quiet none := by
  refine ⟨h.numbers, h.turn, h.bound, h.rising, fun v hv _ => ?_⟩
  by_cases hid : v.id = t.id
  · rw [h.eq_of_id hv ht hid]
    exact hplaced
  · exact h.placed v hv (by simpa using hid)

/-- A new task has the next number; while no one asks for other loads, there is no background task
at that time. -/
theorem Orderly.add (h : s.Orderly quiet none) (hnext : u.nextId = s.nextId + 1)
    (htasks : u.tasks.Perm (t :: s.tasks)) (ht : t.id = s.nextId) (hturn : u.turn = s.turn)
    (hqueue : u.queue = s.queue) (htracker : u.tracker = s.tracker)
    (hquiet : quiet → ∀ v ∈ s.tasks, v.purpose ≠ .background) :
    u.Orderly quiet (some t.id) where
  numbers := by
    have hnew : t.id ∉ s.tasks.map (·.id) := by
      intro hmem
      obtain ⟨v, hv, hid⟩ := List.mem_map.1 hmem
      have := (h.placed v hv (by simp)).number
      omega
    have hperm := htasks.map (·.id)
    rw [hperm.nodup_iff, List.map_cons, List.nodup_cons]
    exact ⟨hnew, h.numbers⟩
  turn := by
    rw [order, hturn, hqueue]
    exact h.turn
  bound i hi := by
    rw [order, hturn, hqueue] at hi
    have := h.bound i hi
    omega
  rising hq := by
    rw [order, hturn, hqueue]
    exact h.rising hq
  placed v hv hne := by
    have hold : v ∈ s.tasks := by
      rcases List.mem_cons.1 (htasks.mem_iff.1 hv) with rfl | hold
      · exact absurd rfl hne
      · exact hold
    have hv := h.placed v hold (by simp)
    have horder : u.order = s.order := by rw [order, hturn, hqueue]; rfl
    refine ⟨by have := hv.number; omega, by rw [horder]; exact hv.loading, ?_, ?_, hv.other⟩
    · rw [horder, htracker]
      exact hv.fetching
    · intro hbackground
      rw [htracker]
      exact ⟨(hv.background hbackground).1, fun hq => absurd hbackground (hquiet hq v hold)⟩

/-! ## Steps -/

theorem Orderly.discard (h : s.Orderly quiet none) (id : Nat) :
    ((s.leave id).removeTask id).Orderly quiet none :=
  (h.aside id).leave.removeTask

theorem Orderly.discardAll (h : s.Orderly quiet none) (ts : List Task) :
    (ts.foldl (fun s t => (s.leave t.id).removeTask t.id) s).Orderly quiet none := by
  induction ts generalizing s with
  | nil => exact h
  | cons t rest ih => exact ih (h.discard t.id)

/-- None of the tasks that are discarded is left, and nothing else changes for the others. -/
theorem discardAll_spec (s : Session) (ts : List Task) :
    let u := ts.foldl (fun s t => (s.leave t.id).removeTask t.id) s
    u.tracker = s.tracker ∧ u.now = s.now ∧ ∀ v ∈ u.tasks, v ∈ s.tasks ∧ v ∉ ts := by
  induction ts generalizing s with
  | nil => exact ⟨rfl, rfl, fun v hv => ⟨hv, List.not_mem_nil⟩⟩
  | cons t rest ih =>
    obtain ⟨htracker, hnow, hleft⟩ := ih ((s.leave t.id).removeTask t.id)
    refine ⟨?_, ?_, fun v hv => ?_⟩
    · rw [List.foldl_cons, htracker, removeTask_tracker, leave_tracker]
    · rw [List.foldl_cons, hnow]
      exact leave_now t.id
    · obtain ⟨hv, hrest⟩ := hleft v hv
      rw [mem_removeTask, leave_tasks] at hv
      refine ⟨hv.1, ?_⟩
      rw [List.mem_cons, not_or]
      exact ⟨fun heq => hv.2 (congrArg (·.id) heq), hrest⟩

theorem startBackground_now : s.startBackground.now = s.now :=
  (s.discardAll_spec (s.tasks.filter (·.purpose = .background))).2.1

/-- The background task is a new one, and the only one of its kind. -/
theorem mem_startBackground {v : Task} (h : v ∈ s.startBackground.tasks) :
    (v ∈ s.tasks ∧ v.purpose ≠ .background) ∨
      (v.purpose = .background ∧ v.activity = .planning) := by
  obtain ⟨_, _, hleft⟩ := s.discardAll_spec (s.tasks.filter (·.purpose = .background))
  rcases List.mem_append.1 h with hold | hnew
  · obtain ⟨hv, hnot⟩ := hleft v hold
    exact .inl ⟨hv, fun hpurpose => hnot (by simp [hv, hpurpose])⟩
  · rw [List.mem_singleton.1 hnew]
    exact .inr ⟨rfl, rfl⟩

theorem Orderly.startBackground (h : s.Orderly quiet none) (hlive : s.tracker.isLive = true) :
    s.startBackground.Orderly quiet none := by
  have horderly := h.discardAll (s.tasks.filter (·.purpose = .background))
  obtain ⟨htracker, _, hleft⟩ := s.discardAll_spec (s.tasks.filter (·.purpose = .background))
  rw [Session.startBackground]
  generalize List.foldl _ s _ = u at horderly htracker hleft
  have hnone : ∀ v ∈ u.tasks, v.purpose ≠ .background := by
    intro v hv hpurpose
    obtain ⟨hv, hnot⟩ := hleft v hv
    exact hnot (by simp [hv, hpurpose])
  have hsnapshot : u.tracker.snapshot.isSome := by
    rw [htracker]
    obtain ⟨r, hr, _⟩ := (Option.any_eq_true _ _).1 hlive
    rw [hr]
    rfl
  let t : Task := ⟨u.nextId, .background, u.period, .planning⟩
  have hadd : (u.addTask .background .planning).Orderly quiet (some t.id) :=
    horderly.add rfl (List.perm_append_singleton t u.tasks) rfl rfl rfl rfl fun _ => hnone
  refine hadd.settled (List.mem_append_right _ (List.mem_singleton.2 rfl)) ?_
  have hnot : t.id ∉ u.order := fun hmem => Nat.lt_irrefl _ (horderly.bound _ hmem)
  exact
    { number := Nat.lt_succ_self _
      loading := iff_of_false (by simp [Task.isLoading, t]) hnot
      fetching := by simp [Task.isFetching, t]
      background := fun _ => ⟨hsnapshot, fun _ => rfl⟩
      other := fun hother => absurd rfl hother }

/-- A load that is asked for starts with the next number and stands last. -/
theorem Orderly.start (h : s.Orderly quiet none) {purpose : Purpose} (hpurpose : purpose ≠ .background)
    (hnext : u.nextId = s.nextId + 1) (ht : t = ⟨s.nextId, purpose, s.period, .waiting⟩)
    (htasks : u.tasks.Perm (t :: s.tasks)) (hturn : u.turn = s.turn)
    (hqueue : u.queue = s.queue) (htracker : u.tracker = s.tracker)
    (hquiet : quiet → ∀ v ∈ s.tasks, v.purpose ≠ .background) :
    (u.enter t.id).Orderly quiet none := by
  have hadd := h.add hnext htasks (by rw [ht]) hturn hqueue htracker hquiet
  have horder : u.order = s.order := by rw [order, hturn, hqueue]; rfl
  have hid : t.id < u.nextId := by rw [ht, hnext]; exact Nat.lt_succ_self _
  refine (hadd.enter hid ?_).settled ?_ ?_
  · intro _ i hi
    rw [ht]
    exact h.bound i (horder ▸ hi)
  · rw [enter_tasks]
    exact htasks.mem_iff.2 List.mem_cons_self
  · have hlast : t.id ∈ (u.enter t.id).order := by
      rw [enter_order hadd.turn]
      exact List.mem_append_right _ (List.mem_singleton.2 rfl)
    exact
      { number := by rw [enter_nextId]; exact hid
        loading := iff_of_true (by simp [Task.isLoading, ht]) hlast
        fetching := by simp [Task.isFetching, ht]
        background := fun h => absurd (by simpa [ht] using h) hpurpose
        other := fun _ => .inl (by simp [Task.isLoading, ht]) }

/-- Of tasks that neither load nor have finished there is only the background task. -/
theorem Placed.isBackground (h : s.Placed quiet t) (hidle : t.isLoading = false)
    (hgoing : t.isFinished = false) : t.purpose = .background := by
  by_contra hother
  rcases h.other hother with hloading | hfinished
  · rw [hidle] at hloading; cases hloading
  · rw [hgoing] at hfinished; cases hfinished

/-- A task that does not load may do something else instead. -/
theorem Orderly.rest (h : s.Orderly quiet none) (ht : t ∈ s.tasks) (hidle : t.isLoading = false)
    (hgoing : t.isFinished = false) {a : Activity}
    (ha : Task.isLoading { t with activity := a } = false) :
    (s.setTask { t with activity := a }).Orderly quiet none := by
  have hplaced := h.placed t ht (by simp)
  refine (h.aside t.id).setTask (t := { t with activity := a }) ?_
  exact
    { number := hplaced.number
      loading := by rw [ha, ← hidle]; exact hplaced.loading
      fetching := fun hf => by
        cases a with
        | fetching f => cases ha
        | _ => cases hf
      background := hplaced.background
      other := fun hother => absurd (hplaced.isBackground hidle hgoing) hother }

/-- A task that begins to load takes the turn or its place behind the others. -/
theorem Orderly.startLoad (h : s.Orderly quiet none) (ht : t ∈ s.tasks)
    (hidle : t.isLoading = false) (hgoing : t.isFinished = false) :
    (s.startLoad t).Orderly quiet none := by
  have hplaced := h.placed t ht (by simp)
  have hpurpose := hplaced.isBackground hidle hgoing
  have hnot : t.id ∉ s.order := by
    rw [← hplaced.loading, hidle]
    decide
  have hlast : quiet → ∀ i ∈ s.order, i < t.id := by
    intro hq i hi
    have hbound := h.bound i hi
    have hnewest := (hplaced.background hpurpose).2 hq
    have hne : i ≠ t.id := fun heq => hnot (heq ▸ hi)
    omega
  have hmem : t.id ∈ (s.enter t.id).order := by
    rw [enter_order h.turn]
    exact List.mem_append_right _ (List.mem_singleton.2 rfl)
  refine ((h.aside t.id).enter hplaced.number hlast).setTask
    (t := { t with period := s.period, activity := .waiting }) ?_
  exact
    { number := by rw [enter_nextId]; exact hplaced.number
      loading := iff_of_true rfl hmem
      fetching := by simp [Task.isFetching]
      background := by rw [enter_tracker, enter_nextId]; exact hplaced.background
      other := fun _ => .inl rfl }

/-- Only the tracker and the list of requests change before the task fetches. -/
theorem startFetch_eq (s : Session) (t : Task) (full : Bool) :
    ∃ (tracker : Tracker) (requests : List (Nat × Url)) (f : Fetch),
      s.startFetch t full = { s with tracker, requests }.setTask { t with activity := .fetching f } ∧
        s.tracker.Onward tracker ∧ tracker.initial = none := by
  simp only [Session.startFetch]
  split
  · next data tracker htake =>
    have htracker : s.tracker.takeInitial.2 = tracker := congrArg Prod.snd htake
    rw [← htracker]
    exact ⟨_, s.requests, _, rfl, s.tracker.takeInitial_untouched.onward, rfl⟩
  · next tracker htake =>
    have hnone : s.tracker.initial = none := congrArg Prod.fst htake
    have honward := (s.tracker.nextRequest_untouched s.now full).onward
    exact ⟨_, _, _, rfl, honward, honward.initial hnone⟩

/-- The task whose turn it is keeps it while it loads. -/
theorem Orderly.startFetch (h : s.Orderly quiet none) (ht : t ∈ s.tasks)
    (hturn : s.turn = some t.id) (full : Bool) : (s.startFetch t full).Orderly quiet none := by
  obtain ⟨tracker, requests, f, heq, honward, hnone⟩ := s.startFetch_eq t full
  have hplaced := h.placed t ht (by simp)
  have hhead : s.order.head? = some t.id := h.turn.symm.trans hturn
  rw [heq]
  refine ((h.aside t.id).onward (u := { s with tracker, requests }) rfl rfl rfl rfl honward).setTask
    (t := { t with activity := .fetching f }) ?_
  exact
    { number := hplaced.number
      loading := iff_of_true rfl (List.mem_of_head? hhead)
      fetching := fun _ => ⟨hhead, hnone⟩
      background := fun hb => ⟨honward.snapshot (hplaced.background hb).1, (hplaced.background hb).2⟩
      other := fun _ => .inl rfl }

/-- A task that has left the order and does not load any more has its place. -/
theorem Placed.away (h : s.Placed quiet t) {a : Activity}
    (hidle : Task.isLoading { t with activity := a } = false)
    (hother : t.purpose ≠ .background → Task.isFinished { t with activity := a } = true) :
    (s.leave t.id).Placed quiet { t with activity := a } where
  number := by rw [leave_nextId]; exact h.number
  loading := by
    have hgone : t.id ∉ (s.leave t.id).order := by simp
    exact iff_of_false (by simp [hidle]) hgone
  fetching hf := by
    have hloading : Task.isLoading { t with activity := a } = true := by
      cases a with
      | fetching f => rfl
      | _ => cases hf
    rw [hidle] at hloading
    cases hloading
  background := by rw [leave_tracker, leave_nextId]; exact h.background
  other hpurpose := .inr (hother hpurpose)

/-- All that can follow a load. -/
inductive Followed (s : Session) (t : Task) (result : Except Failure Unit) : Prop where
  | told (o : Outcome) (tracker : Tracker) (honward : s.tracker.Onward tracker)
    (hother : t.purpose ≠ .background)
    (heq : s.finishLoad t result =
      { s.leave t.id with tracker }.setTask { t with activity := .finished o })
  | begun (hother : t.purpose ≠ .background) (hlive : s.tracker.isLive = true)
    (heq : s.finishLoad t result =
      ((s.leave t.id).setTask { t with activity := .finished .done }).startBackground)
  | again (hpurpose : t.purpose = .background) (hresult : result ≠ .error .interrupted)
    (hlive : result = .ok () → s.tracker.isLive = true)
    (heq : s.finishLoad t result = (s.leave t.id).setTask { t with activity := .planning })
  | ended (hpurpose : t.purpose = .background)
    (heq : s.finishLoad t result = (s.leave t.id).removeTask t.id)

/-- One of these follows a load. -/
theorem finishLoad_cases (s : Session) (t : Task) (result : Except Failure Unit) :
    s.Followed t result := by
  have htold (o : Outcome) (hother : t.purpose ≠ .background)
      (heq : s.finishLoad t result = (s.leave t.id).setTask { t with activity := .finished o }) :
      s.Followed t result := by
    refine .told o s.tracker (.refl _) hother ?_
    rw [heq, ← leave_tracker t.id]
  rcases t with ⟨id, purpose, period, activity⟩
  cases result with
  | error e =>
    cases purpose with
    | background =>
      cases e with
      | interrupted => exact .ended rfl rfl
      | _ => exact .again rfl (by simp) (by simp) rfl
    | _ => exact htold _ (by simp) rfl
  | ok _ =>
    cases purpose with
    | init =>
      by_cases hlive : s.tracker.isLive = true
      · refine .begun (by simp) hlive ?_
        simp [Session.finishLoad, hlive]
      · refine htold .done (by simp) ?_
        simp [Session.finishLoad, hlive]
    | reload => exact htold _ (by simp) rfl
    | current =>
      refine .told _ (s.leave id).tracker.segmentAtCursor.2 ?_ (by simp) rfl
      rw [leave_tracker]
      exact s.tracker.call_onward .look
    | background =>
      by_cases hlive : s.tracker.isLive = true
      · refine .again rfl (by simp) (fun _ => hlive) ?_
        simp [Session.finishLoad, hlive]
      · refine .ended rfl ?_
        simp [Session.finishLoad, hlive]

/-- A task that has loaded leaves its place to the next. -/
theorem Orderly.finishLoad (h : s.Orderly quiet none) (ht : t ∈ s.tasks)
    (result : Except Failure Unit) : (s.finishLoad t result).Orderly quiet none := by
  have hleft := (h.aside t.id).leave
  have hplaced := h.placed t ht (by simp)
  have hfinished (o : Outcome) := hplaced.away (a := .finished o) rfl fun _ => rfl
  cases s.finishLoad_cases t result with
  | told o tracker honward _ heq =>
    rw [heq]
    have honward : (s.leave t.id).tracker.Onward tracker := by rwa [leave_tracker]
    refine (hleft.onward (u := { s.leave t.id with tracker }) rfl rfl rfl rfl honward).setTask
      (t := { t with activity := .finished o }) ?_
    exact (hfinished o).of_order rfl .rfl (fun hhead => hhead) honward
  | begun _ hlive heq =>
    rw [heq]
    refine (hleft.setTask (t := { t with activity := .finished .done })
      (hfinished .done)).startBackground ?_
    rwa [setTask_tracker, leave_tracker]
  | again hpurpose _ _ heq =>
    rw [heq]
    exact hleft.setTask (t := { t with activity := .planning })
      (hplaced.away rfl fun hother => absurd hpurpose hother)
  | ended _ heq =>
    rw [heq]
    exact hleft.removeTask

theorem Orderly.finishFetch (h : s.Orderly quiet none) (ht : t ∈ s.tasks)
    (hturn : s.turn = some t.id) (f : Fetch) (answer : Except Failure (List UInt8)) :
    (s.finishFetch t f answer).Orderly quiet none := by
  have honward := s.tracker.conclude_onward s.now answer
  rw [Session.finishFetch]
  split
  · next count u hu =>
    rw [hu] at honward
    split
    · exact (h.onward (u := { s with tracker := u }) rfl rfl rfl rfl honward).finishLoad ht _
    · have hdemand := honward.trans u.demandFull_untouched.onward
      exact (h.onward (u := { s with tracker := u.demandFull }) rfl rfl rfl rfl hdemand).startFetch
        ht hturn true
  · next result u _ hu =>
    rw [hu] at honward
    exact (h.onward (u := { s with tracker := u }) rfl rfl rfl rfl honward).finishLoad ht result

/-- Each step of a task that can go on keeps the order. -/
theorem Orderly.step (h : s.Orderly quiet none) (ht : t ∈ s.tasks) (hcan : s.canStep t = true) :
    (s.step t).Orderly quiet none := by
  have hplaced := h.placed t ht (by simp)
  cases hactivity : t.activity with
  | planning =>
    simp only [Session.step, hactivity]
    refine h.rest ht ?_ ?_ rfl
    · simp [Task.isLoading, hactivity]
    · simp [Task.isFinished, hactivity]
  | resting moment =>
    simp only [Session.step, hactivity]
    split
    · exact (h.aside t.id).removeTask
    · split
      · exact h.startLoad ht (by simp [Task.isLoading, hactivity])
          (by simp [Task.isFinished, hactivity])
      · have hwoken := h.onward (u := { s with wakeUp := false }) rfl rfl rfl rfl (.refl _)
        refine hwoken.rest ht ?_ ?_ rfl
        · simp [Task.isLoading, hactivity]
        · simp [Task.isFinished, hactivity]
  | pausing moment =>
    simp only [Session.step, hactivity]
    split
    · exact (h.aside t.id).removeTask
    · exact h.startLoad ht (by simp [Task.isLoading, hactivity])
        (by simp [Task.isFinished, hactivity])
  | waiting =>
    simp only [Session.step, hactivity]
    split
    · exact h.finishLoad ht _
    · next hgoing =>
      have hturn : s.turn = some t.id := by
        simpa [canStep, hactivity, hgoing] using hcan
      exact h.startFetch ht hturn _
  | fetching f =>
    have hturn : s.turn = some t.id := by
      rw [h.turn]
      exact (hplaced.fetching (by simp [Task.isFetching, hactivity])).1
    simp only [Session.step, hactivity]
    split
    · exact h.finishLoad ht _
    · split
      · exact h.finishFetch ht hturn f _
      · exact h.finishFetch ht hturn f _
  | finished o =>
    simp only [Session.step, hactivity]
    exact h

/-! ## Moves -/

/-- While no one asks for other loads, a first load is only asked for before there is a background
task. -/
theorem Orderly.move (h : s.Orderly quiet none) (m : Move) (hm : quiet → m.isReload = false) :
    (s.move m).Orderly quiet none := by
  cases m with
  | proceed place =>
    simp only [Session.move]
    split
    · next t hplace =>
      split
      · next hcan => exact h.step (List.mem_of_getElem? hplace) hcan
      · exact h
    · exact h
  | start purpose called =>
    simp only [Session.move]
    split
    · next hw =>
      have hpurpose : purpose ≠ .background := by
        rintro rfl
        cases hw
      have hquiet : quiet → ∀ v ∈ s.tasks, v.purpose ≠ .background := by
        intro hq v hv hb
        have hsome := ((h.placed v hv (by simp)).background hb).1
        cases purpose with
        | init =>
          rw [wants, Option.isNone_iff_eq_none] at hw
          rw [hw] at hsome
          cases hsome
        | background => exact hpurpose rfl
        | reload | current => cases hm hq
      rw [look_of_wants hw]
      split
      · refine h.start hpurpose rfl rfl (.refl _) rfl rfl rfl hquiet
      · exact h.start hpurpose rfl rfl (List.perm_append_singleton _ _) rfl rfl rfl hquiet
    · exact h
  | resume =>
    have hresumed := h.onward (u := { s with interrupted := false, period := s.period + 1 })
      rfl rfl rfl rfl (.refl _)
    simp only [Session.move]
    split
    · split
      · next hlive => exact hresumed.startBackground hlive
      · exact hresumed
    · exact h
  | call c => exact h.onward rfl rfl rfl rfl (s.tracker.call_onward c)
  | drop id => exact (h.aside id).removeTask
  | wait | stop => exact h.onward rfl rfl rfl rfl (.refl _)

theorem Orderly.run (h : s.Orderly quiet none) {moves : List Move}
    (hmoves : quiet → ∀ m ∈ moves, m.isReload = false) : (s.run moves).Orderly quiet none := by
  induction moves generalizing s with
  | nil => exact h
  | cons m rest ih =>
    exact ih (h.move m fun hq => hmoves hq m List.mem_cons_self)
      fun hq n hn => hmoves hq n (List.mem_cons_of_mem _ hn)

theorem fresh_orderly (quiet : Prop) (descriptor : Rendition) (config : TrackerConfig)
    (initial : Option (List UInt8)) (server : Nat → Answer) :
    (fresh descriptor config initial server).Orderly quiet none where
  numbers := .nil
  turn := rfl
  bound := by simp [order, fresh]
  rising _ := .nil
  placed := by simp [fresh]

/-- In no run do two tasks fetch at once. -/
theorem fetching_unique (descriptor : Rendition) (config : TrackerConfig)
    (initial : Option (List UInt8)) (server : Nat → Answer) (moves : List Move) :
    let u := (fresh descriptor config initial server).run moves
    ∀ t ∈ u.tasks, ∀ v ∈ u.tasks, t.isFetching = true → v.isFetching = true → v = t := by
  intro u t ht v hv hft hfv
  have h : u.Orderly False none :=
    (fresh_orderly False descriptor config initial server).run (fun hfalse => hfalse.elim)
  have hhead := ((h.placed t ht (by simp)).fetching hft).1
  rw [((h.placed v hv (by simp)).fetching hfv).1] at hhead
  exact h.eq_of_id hv ht (Option.some.inj hhead)

/-- While no one asks for other loads, all others have finished when the background task fetches. -/
theorem Orderly.finished_of_fetching {v : Task} (h : s.Orderly True none) (ht : t ∈ s.tasks)
    (hpurpose : t.purpose = .background) (hf : t.isFetching = true) (hv : v ∈ s.tasks)
    (hne : v ≠ t) : v.purpose ≠ .background ∧ v.isFinished = true := by
  have hplaced := h.placed t ht (by simp)
  have hplaced' := h.placed v hv (by simp)
  have hid : v.id ≠ t.id := fun heq => hne (h.eq_of_id hv ht heq)
  have hnewest := (hplaced.background hpurpose).2 trivial
  have hother : v.purpose ≠ .background := by
    intro hb
    have := (hplaced'.background hb).2 trivial
    omega
  refine ⟨hother, ?_⟩
  rcases hplaced'.other hother with hloading | hfinished
  · exfalso
    have hmem := hplaced'.loading.1 hloading
    have hhead := (hplaced.fetching hf).1
    have hrising := h.rising trivial
    have hbound := h.bound v.id hmem
    cases horder : s.order with
    | nil => simp [horder] at hhead
    | cons i rest =>
      have hi : i = t.id := by simpa [horder] using hhead
      rw [horder, hi] at hrising hmem
      rcases List.mem_cons.1 hmem with heq | hrest
      · exact hid heq
      · have := List.rel_of_pairwise_cons hrising hrest
        omega
  · exact hfinished

end Session

end AdaptiveHls
