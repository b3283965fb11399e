/- GID: OhMyOs/Schedule/SchedulerLocks
   generality: I
   digest: The run queues store by store: what a section under sched_lock does to them is atomic. -/

import OhMyOs.Lib.RingStores
import OhMyOs.Schedule.SchedulerRuns

set_option autoImplicit false
set_option relaxedAutoImplicit false

namespace OhMyOs.Schedule.SchedulerLocks

open OhMyOs.Include.Constants
open OhMyOs.Include.IntrusiveList OhMyOs.Lib.Ring OhMyOs.Lib.RingStores OhMyOs.Lib.Runs
open OhMyOs.Schedule.Scheduler

/-! ### The code -/

abbrev Link := Cell Nat Nat

def insertStores (cur node : Link) : List (Store Nat Nat) :=
  [.prev (.nextOf cur) (.cell node), .next (.cell node) (.nextOf cur),
    .prev (.cell node) (.cell cur), .next (.cell cur) (.cell node)]

def insertBeforeStores (cur node : Link) : List (Store Nat Nat) :=
  [.next (.prevOf cur) (.cell node), .next (.cell node) (.cell cur),
    .prev (.cell node) (.prevOf cur), .prev (.cell cur) (.cell node)]

def removeStores (node : Link) : List (Store Nat Nat) :=
  [.next (.prevOf node) (.nextOf node), .prev (.nextOf node) (.prevOf node)]

private theorem runAll_insertStores (l : Links Nat Nat) (cur node : Link) :
    runAll l (insertStores cur node) = listInsert l cur node := rfl

private theorem runAll_insertBeforeStores (l : Links Nat Nat) (cur node : Link) :
    runAll l (insertBeforeStores cur node) = listInsertBefore l cur node := rfl

private theorem runAll_removeStores (l : Links Nat Nat) (node : Link) :
    runAll l (removeStores node) = listRemove l node := rfl

/-- What a CPU does between `spin_lock` and `spin_unlock`: `thread_run` inserts the new thread,
`schedule` removes the next one, appends the previous one, or takes it out of its thread group. -/
inductive Section
  | insert (arg : Int) (t : Nat)
  | remove (prev next : Nat)
  | append (prev next : Nat)
  | unlink (prev next : Nat)
  deriving DecidableEq

def Section.stores (cpu : Nat) : Section → List (Store Nat Nat)
  | .insert _ t => insertStores (.head cpu) (.node t)
  | .remove _ next => removeStores (.node next)
  | .append prev _ => insertBeforeStores (.head cpu) (.node prev)
  | .unlink _ _ => []

/-- Where `schedule` goes on after `spin_unlock`; `thread_run` is done. -/
def Section.exit : Section → Pc
  | .insert _ _ => .outside
  | .remove prev next => .taken prev next
  | .append prev next => .queued prev next
  | .unlink prev next => .unlinked prev next

/-- Where a CPU is: outside all locked sections, in `thread_run` before `spin_lock`, or in a section
under the lock of a CPU with some stores left. -/
inductive Place
  | unlocked (pc : Pc)
  | waiting (arg : Int) (t : Nat)
  | locked (cpu : Nat) (sec : Section) (todo : List (Store Nat Nat))
  deriving DecidableEq

/-- Two insertions into one ring under different locks, as into `thread_group`. -/
def crossedStores (cur node other : Link) : List (Store Nat Nat) :=
  (insertStores cur node).take 3 ++ insertStores cur other ++ (insertStores cur node).drop 3

private theorem runAll_crossedStores (l : Links Nat Nat) {cur node other : Link}
    (differ : node ≠ other)
    (out : node ≠ cur) :
    (runAll l (crossedStores cur node other)).next cur = node ∧
      (runAll l (crossedStores cur node other)).next node = l.next cur := by
  simp [crossedStores, runAll, insertStores, Store.run, Ref.eval, Links.setNext, Links.setPrev,
    Function.update_apply, differ, out]

/-- The run queues and what decides about them. The group of the process is left out: its stores
are made under the locks of different CPUs. `live` is the memory in use; `home` and `idle` are as in
`SchedState`. -/
structure LockState where
  state : Nat → ThreadState
  rqs : Links Nat Nat
  currentThreads : Nat → Option Nat
  schedLock : Nat → Nat
  place : Nat → Place
  live : Nat → Bool
  home : Nat → Option Nat
  idle : Nat → Option Nat

namespace LockState

def goto (s : LockState) (self : Nat) (place : Place) : LockState :=
  { s with place := Function.update s.place self place }

/-- The `cmpxchg` of `spin_lock` succeeds. -/
def spinLock (s : LockState) (self cpu : Nat) (sec : Section) : Option LockState :=
  if s.schedLock cpu = 0 then
    some ({ s with schedLock := Function.update s.schedLock cpu 1 }.goto self
      (.locked cpu sec (sec.stores cpu)))
  else none

end LockState

/-- `schedule_init`; no other CPU uses the run queue yet. -/
def scheduleInit (s : LockState) (cpu : Nat) (idle : Option Nat) : LockState :=
  let s := { s with
    schedLock := Function.update s.schedLock cpu 0
    rqs := listInit s.rqs (.head cpu) }
  match idle with
  | none => s
  | some idle =>
    { s with
      state := Function.update s.state idle .running
      currentThreads := Function.update s.currentThreads cpu (some idle)
      live := Function.update s.live idle true
      home := Function.update s.home idle (some cpu)
      idle := Function.update s.idle cpu (some idle) }

/-- `thread_run` up to its `spin_lock`; `t` is what kmalloc returns. -/
def threadRun (s : LockState) (self : Nat) (arg : Int) (t : Nat) : LockState :=
  { s with
    state := Function.update s.state t .runnable
    live := Function.update s.live t true }.goto self (.waiting arg t)

/-- `thread_exit`, up to its call of `schedule`. -/
def threadExit (s : LockState) (self : Nat) : Option LockState :=
  (s.currentThreads self).map fun t =>
    { s with state := Function.update s.state t .exit }.goto self (.unlocked .entered)

def scheduleStep (s : LockState) (self : Nat) : Pc → Option LockState
  | .outside => none
  | .entered =>
    (s.currentThreads self).map fun prev =>
      s.goto self (.unlocked (if listEmpty s.rqs (.head self) then .outside else .nonempty prev))
  | .nonempty prev =>
    (containerOf (listNext s.rqs (.head self))).map fun next =>
      s.goto self (.unlocked (if prev = next then .outside else .chosen prev next))
  | .chosen prev next => s.spinLock self self (.remove prev next)
  | .taken prev next =>
    some ({ s with currentThreads := Function.update s.currentThreads self (some next) }.goto self
      (.unlocked (.switched prev next)))
  | .switched prev next =>
    s.spinLock self self (if s.state prev ≠ .exit then .append prev next else .unlink prev next)
  | .queued prev next =>
    some ({ s with
      state := Function.update (Function.update s.state prev .runnable) next .running }.goto self
        (.unlocked .outside))
  | .unlinked prev _ =>
    some ({ s with
      live := Function.update s.live prev false
      home := Function.update s.home prev none }.goto self (.unlocked .outside))

/-- A new thread is on its run queue from the last store of `list_insert` on. -/
def Section.published (home : Nat → Option Nat) (cpu : Nat) :
    Section → List (Store Nat Nat) → Nat → Option Nat
  | .insert _ t, [] => Function.update home t (some cpu)
  | _, _ => home

/-- The next step of a CPU inside `thread_run` or `schedule`. A CPU that waits for a lock has
none. -/
def step (s : LockState) (self : Nat) : Option LockState :=
  match s.place self with
  | .unlocked pc => scheduleStep s self pc
  | .waiting arg t => s.spinLock self (targetCpu self arg) (.insert arg t)
  | .locked cpu sec (st :: rest) =>
    some ({ s with
      rqs := st.run s.rqs
      home := sec.published s.home cpu rest }.goto self (.locked cpu sec rest))
  | .locked cpu sec [] =>
    some ({ s with schedLock := Function.update s.schedLock cpu 0 }.goto self (.unlocked sec.exit))

def ready (s : LockState) (cpu : Nat) : Bool :=
  (s.idle cpu).isSome && s.place cpu = .unlocked .outside

def Section.after : Section → List Nat → List Nat
  | .insert _ t, queue => t :: queue
  | .remove _ next, queue => queue.erase next
  | .append prev _, queue => queue ++ [prev]
  | .unlink _ _, queue => queue

def Section.brings : Section → List Nat
  | .insert _ t => [t]
  | .append prev _ => [prev]
  | .remove _ _ | .unlink _ _ => []

def Section.claims (sec : Section) : List (Store Nat Nat) → List Nat
  | [] => []
  | _ :: _ => sec.brings

def Section.Fits (queue : List Nat) : Section → Prop
  | .insert _ t => t ∉ queue
  | .remove _ next => next ∈ queue
  | .append prev _ => prev ∉ queue
  | .unlink _ _ => True

def firstCell (cpu : Nat) : List Nat → Link
  | [] => .head cpu
  | t :: _ => .node t

/-- The queue before the section can be told from the links while there are stores left: the rest of
the section makes of it what it should, touching no other queue, and until its last store an
insertion is not seen at the head. -/
def Working (l : Links Nat Nat) (cpu : Nat) (queue : List Nat) (sec : Section) :
    List (Store Nat Nat) → Prop
  | [] => Seg l (.head cpu) queue (.head cpu)
  | st :: rest =>
    Seg (runAll l (st :: rest)) (.head cpu) (sec.after queue) (.head cpu) ∧
      Within (cells cpu (sec.brings ++ queue)) l (st :: rest) ∧
      ∀ arg t, sec = .insert arg t → l.next (.head cpu) = firstCell cpu queue

section Queue
variable {l l' : Links Nat Nat} {cpu : Nat} {queue : List Nat} {sec : Section}
  {st : Store Nat Nat} {rest todo : List (Store Nat Nat)}

private theorem Section.mem_after {t : Nat} (member : t ∈ sec.after queue) :
    t ∈ sec.brings ++ queue := by
  cases sec with
  | insert arg t => exact member
  | remove prev next => exact List.mem_of_mem_erase member
  | append prev next =>
    simp only [Section.after, Section.brings, List.mem_append] at member ⊢
    exact member.symm
  | unlink prev next => exact member

private theorem next_firstCell (seg : Seg l (.head cpu) queue (.head cpu)) :
    l.next (.head cpu) = firstCell cpu queue := by
  cases queue with
  | nil => exact seg.1
  | cons t queue => exact seg.1

private theorem Working.frame (working : Working l cpu queue sec todo)
    (agree : Agree (cells cpu (sec.claims todo ++ queue)) l l') :
    Working l' cpu queue sec todo := by
  cases todo with
  | nil => exact agree.seg working fun t member => member
  | cons st rest =>
    obtain ⟨seg, within, head⟩ := working
    obtain ⟨done, still⟩ := agree.runAll within
    refine ⟨done.seg seg fun t => Section.mem_after, still, fun arg t same => ?_⟩
    rw [(agree _ (head_mem_cells cpu _)).1]
    exact head arg t same

private theorem Section.seg_after (seg : Seg l (.head cpu) queue (.head cpu)) (nodup : queue.Nodup)
    (fits : sec.Fits queue) :
    Seg (runAll l (sec.stores cpu)) (.head cpu) (sec.after queue) (.head cpu) := by
  have rings : Rings l {cpu} fun _ => queue := by
    refine ⟨?_, fun _ _ => nodup, ?_⟩
    · rintro i rfl
      exact seg
    · rintro i rfl j rfl differ
      exact absurd rfl differ
  have here : cpu ∈ ({cpu} : Set Nat) := rfl
  cases sec with
  | insert arg t =>
    have done := (listInsert_rings rings here (a := t) fun _ _ => fits).ring cpu here
    rwa [Function.update_self] at done
  | remove prev next =>
    have done := (listRemove_rings rings here (a := next) fits).ring cpu here
    rwa [Function.update_self] at done
  | append prev next =>
    have done := (listInsertTail_rings rings here (a := prev) fun _ _ => fits).ring cpu here
    rwa [Function.update_self] at done
  | unlink prev next => exact seg

private theorem Section.within (seg : Seg l (.head cpu) queue (.head cpu)) (nodup : queue.Nodup)
    (fits : sec.Fits queue) :
    Within (cells cpu (sec.brings ++ queue)) l (sec.stores cpu) := by
  have head := head_mem_cells cpu (sec.brings ++ queue)
  have larger : ∀ c ∈ cells cpu queue, c ∈ cells cpu (sec.brings ++ queue) := by
    rintro c (rfl | ⟨t, member, rfl⟩)
    · exact head
    · rw [node_mem_cells]
      exact List.mem_append_right _ member
  cases sec with
  | insert arg t =>
    have node : Cell.node t ∈ cells cpu ((Section.insert arg t).brings ++ queue) := by
      simp [Section.brings]
    exact ⟨head, node, larger _ (next_mem_cells seg), node, head, node, node, head, node, head,
      node, head, trivial⟩
  | remove prev next =>
    have node : Cell.node next ∈ cells cpu queue := node_mem_cells.mpr fits
    obtain ⟨xs, ys, rfl⟩ := List.append_of_mem fits
    obtain ⟨low, high⟩ := (seg_append l _ _ xs ys next).mp seg
    have before : l.prev (.node next) ∈ cells cpu (xs ++ next :: ys) := by
      rcases low.prev_mem with prev | ⟨t, member, prev⟩
      · exact prev ▸ head
      · rw [prev, node_mem_cells]
        exact List.mem_append_left _ member
    have after : l.next (.node next) ∈ cells cpu (xs ++ next :: ys) := by
      rcases high.next_mem with next | ⟨t, member, next⟩
      · exact next ▸ head
      · rw [next, node_mem_cells]
        exact List.mem_append_right _ (List.mem_cons_of_mem _ member)
    refine ⟨node, node, before, node, node, ?_, trivial⟩
    -- the first store leaves the forward pointer of the removed thread as it was
    change Function.update l.next (l.prev (.node next)) (l.next (.node next)) (.node next) ∈ _
    rwa [Function.update_apply, ite_eq_right_iff.mpr fun same => same ▸ rfl]
  | append prev next =>
    have node : Cell.node prev ∈ cells cpu ((Section.append prev next).brings ++ queue) := by
      simp [Section.brings]
    exact ⟨head, node, larger _ (prev_mem_cells seg), node, head, node, node, head, node, head,
      node, head, trivial⟩
  | unlink prev next => trivial

private theorem Working.start (seg : Seg l (.head cpu) queue (.head cpu)) (nodup : queue.Nodup)
    (fits : sec.Fits queue) : Working l cpu queue sec (sec.stores cpu) := by
  have done := Section.seg_after seg nodup fits
  have within := Section.within seg nodup fits
  cases sec with
  | unlink prev next => exact seg
  | insert arg t | remove prev next | append prev next =>
    exact ⟨done, within, fun _ _ _ => next_firstCell seg⟩

private theorem Working.store {st' : Store Nat Nat}
    (working : Working l cpu queue sec (st :: st' :: rest))
    (suffix : st :: st' :: rest <:+ sec.stores cpu) :
    Working (st.run l) cpu queue sec (st' :: rest) := by
  obtain ⟨seg, ⟨-, -, -, within⟩, head⟩ := working
  refine ⟨seg, within, ?_⟩
  rintro arg t rfl
  rw [← head arg t rfl]
  simp only [Section.stores, insertStores, List.suffix_cons_iff, List.cons.injEq] at suffix
  rcases suffix with ⟨rfl, -⟩ | ⟨rfl, -⟩ | ⟨rfl, -⟩ | ⟨-, none⟩ | none
  · rfl
  · simp [Store.run, Links.setNext, Ref.eval]
  · rfl
  · cases none
  · cases List.suffix_nil.mp none

private theorem Working.last (working : Working l cpu queue sec [st]) :
    Seg (st.run l) (.head cpu) (sec.after queue) (.head cpu) :=
  working.1

end Queue

/-! ### Whole sections at once -/

def Section.entry : Section → Pc
  | .insert _ _ => .outside
  | .remove prev next => .chosen prev next
  | .append prev next => .switched prev next
  | .unlink prev next => .unlinked prev next

def Place.whole : Place → Pc
  | .unlocked pc => pc
  | .waiting _ _ => .outside
  | .locked _ sec [] => sec.exit
  | .locked _ sec (_ :: _) => sec.entry

def Place.flying : Place → Option (Int × Nat)
  | .waiting arg t | .locked _ (.insert arg t) (_ :: _) => some (arg, t)
  | _ => none

def Section.On (self cpu : Nat) : Section → Prop
  | .insert arg _ => cpu = targetCpu self arg
  | .remove _ _ | .append _ _ | .unlink _ _ => cpu = self

/-- The state is that of the model with whole sections, whose queues are `f`, apart from sections
that have not taken effect. -/
structure Sim (s : LockState) (c : SchedState) (f : Nat → List Nat) : Prop where
  queues : Queues c f
  idle : c.idle = s.idle
  home : c.home = s.home
  current : c.currentThreads = s.currentThreads
  state : ∀ t, s.home t ≠ none → (c.threads t).state = s.state t
  place : ∀ self, c.pc self = (s.place self).whole
  live : ∀ t, s.home t ≠ none → s.live t = true
  flying : ∀ self arg t, (s.place self).flying = some (arg, t) →
    s.home t = none ∧ s.live t = true ∧ s.state t = .runnable ∧ s.idle self ≠ none ∧
      s.idle (targetCpu self arg) ≠ none
  single : ∀ self other arg arg' t, (s.place self).flying = some (arg, t) →
    (s.place other).flying = some (arg', t) → self = other
  inside : ∀ self cpu sec todo, s.place self = .locked cpu sec todo →
    s.schedLock cpu ≠ 0 ∧ s.idle cpu ≠ none ∧ sec.On self cpu ∧ todo <:+ sec.stores cpu ∧
      Working s.rqs cpu (f cpu) sec todo
  exclusive : ∀ self other cpu sec sec' todo todo', s.place self = .locked cpu sec todo →
    s.place other = .locked cpu sec' todo' → self = other
  holder : ∀ cpu, s.schedLock cpu ≠ 0 → ∃ self sec todo, s.place self = .locked cpu sec todo
  free : ∀ cpu, s.idle cpu ≠ none → s.schedLock cpu = 0 →
    Seg s.rqs (.head cpu) (f cpu) (.head cpu)
  stays : ∀ self cpu prev next todo, s.place self = .locked cpu (.append prev next) todo →
    s.state prev ≠ .exit

section Sim
variable {s s' : LockState} {c c' : SchedState} {f f' : Nat → List Nat} {self cpu : Nat}
  {sec : Section} {todo rest : List (Store Nat Nat)} {st : Store Nat Nat} {pc pc' : Pc}

private theorem Sim.home_of_mem (sim : Sim s c f) {t : Nat} (member : t ∈ f cpu) :
    s.home t = some cpu := by
  rw [← sim.home]
  exact (sim.queues.custody.mem_iff cpu t).mp (List.mem_append_right _ member)

private theorem Sim.at (sim : Sim s c f) (init : s.idle cpu ≠ none) :
    ∃ idle current, At c f cpu idle (s.place cpu).whole current := by
  obtain ⟨idle, init⟩ := Option.ne_none_iff_exists'.mp init
  obtain ⟨current, here⟩ := sim.queues.at (sim.idle ▸ init)
  exact ⟨idle, current, sim.place cpu ▸ here⟩

private theorem Sim.append_home {prev next : Nat} (sim : Sim s c f)
    (here : s.place self = .locked cpu (.append prev next) todo) : s.home prev = some self := by
  obtain ⟨-, init, on, -, -⟩ := sim.inside self cpu _ todo here
  obtain rfl : cpu = self := on
  obtain ⟨idle, current, found⟩ := sim.at init
  rw [here] at found
  rw [← sim.home]
  cases todo with
  | nil => exact found.home (List.mem_append_right _ found.ok.locals.2)
  | cons st rest => exact found.home (List.mem_append_left _ List.mem_cons_self)

private theorem Sim.claimed (sim : Sim s c f) (here : s.place self = .locked cpu sec todo) {t : Nat}
    (claimed : t ∈ sec.claims todo ++ f cpu) :
    s.home t = some cpu ∨
      s.home t = none ∧ ∃ arg, (s.place self).flying = some (arg, t) := by
  rcases List.mem_append.mp claimed with claimed | member
  · cases todo with
    | nil => cases claimed
    | cons st rest =>
      obtain ⟨-, init, on, -, -⟩ := sim.inside self cpu sec _ here
      cases sec with
      | insert arg t =>
        obtain rfl := List.mem_singleton.mp claimed
        have flying : (s.place self).flying = some (arg, t) := by rw [here]; rfl
        exact .inr ⟨(sim.flying self arg t flying).1, arg, flying⟩
      | append prev next =>
        obtain rfl := List.mem_singleton.mp claimed
        obtain rfl : cpu = self := on
        exact .inl (sim.append_home here)
      | remove prev next | unlink prev next => cases claimed
  · exact .inl (sim.home_of_mem member)

private theorem Sim.apart (sim : Sim s c f) (here : s.place self = .locked cpu sec todo)
    {other cpu' : Nat}
    {sec' : Section} {todo' : List (Store Nat Nat)}
    (there : s.place other = .locked cpu' sec' todo') (differ : cpu ≠ cpu') :
    ∀ t ∈ sec.claims todo ++ f cpu, t ∉ sec'.claims todo' ++ f cpu' := by
  intro t mine theirs
  rcases sim.claimed here mine with home | ⟨home, arg, flying⟩
  · rcases sim.claimed there theirs with home' | ⟨home', -, -⟩
    · exact differ (Option.some.inj (home.symm.trans home'))
    · rw [home] at home'
      cases home'
  · rcases sim.claimed there theirs with home' | ⟨-, arg', flying'⟩
    · rw [home] at home'
      cases home'
    · obtain rfl := sim.single self other arg arg' t flying flying'
      rw [here] at there
      cases there
      exact differ rfl

private theorem Sim.apart_free (sim : Sim s c f) (here : s.place self = .locked cpu sec todo)
    {cpu' : Nat}
    (differ : cpu ≠ cpu') : ∀ t ∈ sec.claims todo ++ f cpu, t ∉ f cpu' := by
  intro t mine member
  have home' := sim.home_of_mem member
  rcases sim.claimed here mine with home | ⟨home, -, -⟩
  · exact differ (Option.some.inj (home.symm.trans home'))
  · rw [home] at home'
    cases home'

private theorem Sim.next_head (sim : Sim s c f) (init : s.idle self ≠ none)
    (here : s.place self = .unlocked pc) :
    s.rqs.next (.head self) = c.rqs.next (.head self) := by
  have whole : c.rqs.next (.head self) = firstCell self (f self) :=
    next_firstCell (sim.queues.rings.ring self (by simpa [sim.idle] using init))
  rw [whole]
  by_cases lock : s.schedLock self = 0
  · exact next_firstCell (sim.free self init lock)
  · obtain ⟨other, sec, todo, there⟩ := sim.holder self lock
    obtain ⟨-, -, on, -, working⟩ := sim.inside other self sec todo there
    cases todo with
    | nil => exact next_firstCell working
    | cons st rest =>
      cases sec with
      | insert arg t => exact working.2.2 arg t rfl
      | remove prev next | append prev next | unlink prev next =>
        obtain rfl : self = other := on
        rw [here] at there
        cases there

private theorem queues_of_rings {g : Nat → List Nat} (queues : ∃ f, Queues c f)
    (rings : Rings c.rqs {cpu | c.idle cpu ≠ none} g)
    (unused : ∀ cpu, c.idle cpu = none → g cpu = []) : Queues c g := by
  obtain ⟨f, queues⟩ := queues
  have same : f = g := by
    funext cpu
    by_cases init : c.idle cpu = none
    · rw [unused cpu init, (queues.unused cpu init).2.2]
    · exact queues.rings.unique rings init
  exact same ▸ queues

/-! ### Steps outside the sections -/

private theorem update_unique {place : Nat → Place} {p : Place} (P : Place → Prop)
    (old : ∀ k k', P (place k) → P (place k') → k = k')
    (new : P p → ∀ k, k ≠ self → ¬ P (place k)) (k k' : Nat)
    (here : P (Function.update place self p k)) (there : P (Function.update place self p k')) :
    k = k' := by
  by_cases same : k = self
  · by_cases same' : k' = self
    · rw [same, same']
    · rw [same, Function.update_self] at here
      rw [Function.update_of_ne same'] at there
      exact absurd there (new here k' same')
  · rw [Function.update_of_ne same] at here
    by_cases same' : k' = self
    · rw [same', Function.update_self] at there
      exact absurd here (new there k same)
    · rw [Function.update_of_ne same'] at there
      exact old k k' here there

private theorem Sim.goes {g : Nat → List Nat} {p : Place} (sim : Sim s c f)
    (place : s'.place = Function.update s.place self p) (idle : s'.idle = s.idle)
    (queues : Queues c' g) (idle' : c'.idle = c.idle) (home : c'.home = s'.home)
    (current : c'.currentThreads = s'.currentThreads)
    (state : ∀ t, s'.home t ≠ none → (c'.threads t).state = s'.state t)
    (pcs : c'.pc = Function.update c.pc self p.whole)
    (live : ∀ t, s'.home t ≠ none → s'.live t = true)
    (flies : ∀ arg t, p.flying = some (arg, t) →
      (s'.home t = none ∧ s'.live t = true ∧ s'.state t = .runnable ∧ s'.idle self ≠ none ∧
        s'.idle (targetCpu self arg) ≠ none) ∧
      ∀ k, k ≠ self → ∀ arg', (s.place k).flying ≠ some (arg', t))
    (others : ∀ k arg t, k ≠ self → (s.place k).flying = some (arg, t) →
      s'.home t = none ∧ s'.live t = s.live t ∧ s'.state t = s.state t)
    (enters : ∀ cpu sec todo, p = .locked cpu sec todo →
      (s'.schedLock cpu ≠ 0 ∧ s'.idle cpu ≠ none ∧ sec.On self cpu ∧ todo <:+ sec.stores cpu ∧
        Working s'.rqs cpu (g cpu) sec todo) ∧
      ∀ k, k ≠ self → ∀ sec' todo', s.place k ≠ .locked cpu sec' todo')
    (inside : ∀ k cpu sec todo, k ≠ self → s.place k = .locked cpu sec todo →
      s'.schedLock cpu ≠ 0 ∧ Working s'.rqs cpu (g cpu) sec todo)
    (holder : ∀ cpu, s'.schedLock cpu ≠ 0 → (∃ sec todo, p = .locked cpu sec todo) ∨
      ∃ k sec todo, k ≠ self ∧ s.place k = .locked cpu sec todo)
    (free : ∀ cpu, s'.idle cpu ≠ none → s'.schedLock cpu = 0 →
      Seg s'.rqs (.head cpu) (g cpu) (.head cpu))
    (appends : ∀ cpu prev next todo, p = .locked cpu (.append prev next) todo →
      s'.state prev ≠ .exit)
    (stays : ∀ k cpu prev next todo, k ≠ self → s.place k = .locked cpu (.append prev next) todo →
      s'.state prev ≠ .exit) :
    Sim s' c' g := by
  have here : s'.place self = p := by rw [place, Function.update_self]
  have there : ∀ {k}, k ≠ self → s'.place k = s.place k := by
    intro k differ
    rw [place, Function.update_of_ne differ]
  refine ⟨queues, idle'.trans (sim.idle.trans idle.symm), home, current, state, ?_, live, ?_, ?_,
    ?_, ?_, ?_, free, ?_⟩
  · intro k
    rw [pcs]
    by_cases same : k = self
    · rw [same, Function.update_self, here]
    · rw [Function.update_of_ne same, there same, sim.place k]
  · intro k arg t flying
    by_cases same : k = self
    · subst same
      exact (flies arg t (here ▸ flying)).1
    · rw [there same] at flying
      obtain ⟨-, used, runnable, init, target⟩ := sim.flying k arg t flying
      obtain ⟨free', live', state'⟩ := others k arg t same flying
      rw [idle]
      exact ⟨free', live'.trans used, state'.trans runnable, init, target⟩
  · intro k k' arg arg' t flying flying'
    rw [place] at flying flying'
    refine update_unique (fun q => ∃ arg, q.flying = some (arg, t)) ?_ ?_ k k' ⟨arg, flying⟩
      ⟨arg', flying'⟩
    · rintro k k' ⟨arg, flying⟩ ⟨arg', flying'⟩
      exact sim.single k k' arg arg' t flying flying'
    · rintro ⟨arg, flying⟩ k differ ⟨arg', flying'⟩
      exact (flies arg t flying).2 k differ arg' flying'
  · intro k cpu sec todo locked
    by_cases same : k = self
    · subst same
      exact (enters cpu sec todo (here ▸ locked)).1
    · rw [there same] at locked
      obtain ⟨-, init, on, suffix, -⟩ := sim.inside k cpu sec todo locked
      obtain ⟨taken, working⟩ := inside k cpu sec todo same locked
      exact ⟨taken, idle ▸ init, on, suffix, working⟩
  · intro k k' cpu sec sec' todo todo' locked locked'
    rw [place] at locked locked'
    refine update_unique (fun q => ∃ sec todo, q = .locked cpu sec todo) ?_ ?_ k k'
      ⟨sec, todo, locked⟩ ⟨sec', todo', locked'⟩
    · rintro k k' ⟨sec, todo, locked⟩ ⟨sec', todo', locked'⟩
      exact sim.exclusive k k' cpu sec sec' todo todo' locked locked'
    · rintro ⟨sec, todo, locked⟩ k differ ⟨sec', todo', locked'⟩
      exact (enters cpu sec todo locked).2 k differ sec' todo' locked'
  · intro cpu taken
    rcases holder cpu taken with ⟨sec, todo, mine⟩ | ⟨k, sec, todo, differ, locked⟩
    · exact ⟨self, sec, todo, here.trans mine⟩
    · exact ⟨k, sec, todo, (there differ).trans locked⟩
  · intro k cpu prev next todo locked
    by_cases same : k = self
    · subst same
      exact appends cpu prev next todo (here ▸ locked)
    · exact stays k cpu prev next todo same (there same ▸ locked)

private theorem Sim.pc_same (sim : Sim s c f) {p : Place} (same : p.whole = (s.place self).whole) :
    c.pc = Function.update c.pc self p.whole :=
  (Function.update_eq_self_iff.mpr (same.trans (sim.place self).symm)).symm

private theorem Sim.holder_other (sim : Sim s c f)
    (outside : ∀ cpu sec todo, s.place self ≠ .locked cpu sec todo) (taken : s.schedLock cpu ≠ 0) :
    ∃ k sec todo, k ≠ self ∧ s.place k = .locked cpu sec todo := by
  obtain ⟨k, sec, todo, there⟩ := sim.holder cpu taken
  refine ⟨k, sec, todo, ?_, there⟩
  rintro rfl
  exact outside cpu sec todo there

private theorem Sim.other_lock (sim : Sim s c f) (here : s.place self = .locked cpu sec todo)
    {k cpu' : Nat}
    {sec' : Section} {todo' : List (Store Nat Nat)} (differ : k ≠ self)
    (there : s.place k = .locked cpu' sec' todo') : cpu' ≠ cpu := by
  rintro rfl
  exact differ (sim.exclusive k self cpu' sec' sec todo' todo there here)

private theorem Sim.move (sim : Sim s c f) (here : s.place self = .unlocked pc)
    (rqs : s'.rqs = s.rqs)
    (lock : s'.schedLock = s.schedLock) (idle : s'.idle = s.idle)
    (place : s'.place = Function.update s.place self (.unlocked pc'))
    (queues : Queues c' f) (idle' : c'.idle = c.idle) (home : c'.home = s'.home)
    (current : c'.currentThreads = s'.currentThreads)
    (state : ∀ t, s'.home t ≠ none → (c'.threads t).state = s'.state t)
    (pcs : c'.pc = Function.update c.pc self pc')
    (live : ∀ t, s'.home t ≠ none → s'.live t = true)
    (new : ∀ t, s.home t = none →
      s'.home t = none ∧ s'.live t = s.live t ∧ s'.state t = s.state t)
    (stays : ∀ t, s.home t ≠ some self → s'.state t = .exit → s.state t = .exit) :
    Sim s' c' f := by
  refine sim.goes place idle queues idle' home current state pcs live (by simp [Place.flying])
    (fun k arg t _ flying => new t (sim.flying k arg t flying).1) (by simp) ?_ ?_ ?_ (by simp) ?_
  · intro k cpu sec todo _ there
    obtain ⟨taken, -, -, -, working⟩ := sim.inside k cpu sec todo there
    rw [lock, rqs]
    exact ⟨taken, working⟩
  · intro cpu taken
    exact .inr (sim.holder_other (by simp [here]) (lock ▸ taken))
  · intro cpu init unlocked
    rw [rqs]
    exact sim.free cpu (idle ▸ init) (lock ▸ unlocked)
  · intro k cpu prev next todo differ there exited
    refine sim.stays k cpu prev next todo there (stays prev ?_ exited)
    rw [sim.append_home there]
    exact fun same => differ (Option.some.inj same)

private theorem Sim.unlock (sim : Sim s c f) (here : s.place self = .locked cpu sec []) :
    Sim ({ s with schedLock := Function.update s.schedLock cpu 0 }.goto self (.unlocked sec.exit))
      c f := by
  refine sim.goes rfl rfl sim.queues rfl sim.home sim.current sim.state
    (sim.pc_same (by rw [here]; rfl)) sim.live (by simp [Place.flying])
    (fun k arg t _ flying => ⟨(sim.flying k arg t flying).1, rfl, rfl⟩) (by simp) ?_ ?_ ?_
    (by simp) (fun k cpu' prev next todo _ there => sim.stays k cpu' prev next todo there)
  · intro k cpu' sec' todo differ there
    obtain ⟨taken, -, -, -, working⟩ := sim.inside k cpu' sec' todo there
    refine ⟨?_, working⟩
    have other : cpu' ≠ cpu := sim.other_lock here differ there
    simpa only [LockState.goto, Function.update_of_ne other] using taken
  · intro cpu' taken
    have elsewhere : cpu' ≠ cpu := by
      rintro rfl
      simp [LockState.goto] at taken
    simp only [LockState.goto, Function.update_of_ne elsewhere] at taken
    obtain ⟨k, sec', todo, there⟩ := sim.holder cpu' taken
    refine .inr ⟨k, sec', todo, ?_, there⟩
    rintro rfl
    rw [here] at there
    cases there
    exact elsewhere rfl
  · intro cpu' init unlocked
    by_cases same : cpu' = cpu
    · subst same
      exact (sim.inside self cpu' sec [] here).2.2.2.2
    · simp only [LockState.goto, Function.update_of_ne same] at unlocked
      exact sim.free cpu' init unlocked

private theorem Sim.lock (sim : Sim s c f) (self : Nat) (sec : Section)
    (unlocked : s.schedLock cpu = 0)
    (outside : ∀ cpu sec todo, s.place self ≠ .locked cpu sec todo) (init : s.idle cpu ≠ none)
    (on : sec.On self cpu) (fits : sec.Fits (f cpu))
    (stays : ∀ prev next, sec = .append prev next → s.state prev ≠ .exit)
    (flying : (s.place self).flying = (Place.locked cpu sec (sec.stores cpu)).flying)
    (queues : Queues c' f) (idle : c'.idle = c.idle) (home : c'.home = c.home)
    (current : c'.currentThreads = c.currentThreads) (threads : c'.threads = c.threads)
    (pcs : c'.pc = Function.update c.pc self (Place.locked cpu sec (sec.stores cpu)).whole) :
    Sim ({ s with schedLock := Function.update s.schedLock cpu 1 }.goto self
      (.locked cpu sec (sec.stores cpu))) c' f := by
  refine sim.goes rfl rfl queues idle (home.trans sim.home) (current.trans sim.current)
    (threads ▸ sim.state) pcs sim.live ?_
    (fun k arg t _ flying => ⟨(sim.flying k arg t flying).1, rfl, rfl⟩) ?_ ?_ ?_ ?_ ?_
    (fun k cpu' prev next todo _ there => sim.stays k cpu' prev next todo there)
  · intro arg t flies
    rw [← flying] at flies
    exact ⟨sim.flying self arg t flies, fun k differ arg' there =>
      differ (sim.single k self arg' arg t there flies)⟩
  · rintro _ _ _ ⟨⟩
    refine ⟨⟨by simp [LockState.goto], init, on, List.suffix_rfl, ?_⟩, ?_⟩
    · exact Working.start (sim.free cpu init unlocked)
        (sim.queues.rings.nodup cpu (by simpa [sim.idle] using init)) fits
    · -- nobody holds the lock that was free
      exact fun k _ sec' todo there => (sim.inside k cpu sec' todo there).1 unlocked
  · intro k cpu' sec' todo _ there
    obtain ⟨taken, -, -, -, working⟩ := sim.inside k cpu' sec' todo there
    have elsewhere : cpu' ≠ cpu := by
      rintro rfl
      exact taken unlocked
    refine ⟨?_, working⟩
    simpa only [LockState.goto, Function.update_of_ne elsewhere] using taken
  · intro cpu' taken
    by_cases here : cpu' = cpu
    · subst here
      exact .inl ⟨sec, _, rfl⟩
    · simp only [LockState.goto, Function.update_of_ne here] at taken
      exact .inr (sim.holder_other outside taken)
  · intro cpu' init' free
    have elsewhere : cpu' ≠ cpu := by
      rintro rfl
      simp [LockState.goto] at free
    simp only [LockState.goto, Function.update_of_ne elsewhere] at free
    exact sim.free cpu' init' free
  · intro cpu' prev next todo there
    exact stays prev next (Place.locked.inj there).2.1

/-! ### Stores -/

private theorem Sim.store_agree (sim : Sim s c f)
    (here : s.place self = .locked cpu sec (st :: rest))
    {cpu' : Nat} {xs : List Nat} (differ : cpu ≠ cpu')
    (apart : ∀ t ∈ sec.claims (st :: rest) ++ f cpu, t ∉ xs) :
    Agree (cells cpu' xs) s.rqs (st.run s.rqs) := by
  obtain ⟨-, -, -, -, -, ⟨-, -, target, -⟩, -⟩ := sim.inside self cpu sec _ here
  exact Store.run_agree (cells_disjoint differ apart target)

private theorem Sim.store {g : Nat → List Nat} (sim : Sim s c f)
    (here : s.place self = .locked cpu sec (st :: rest))
    (rqs : s'.rqs = st.run s.rqs) (lock : s'.schedLock = s.schedLock) (idle : s'.idle = s.idle)
    (place : s'.place = Function.update s.place self (.locked cpu sec rest))
    (live : s'.live = s.live) (thread : s'.state = s.state) (queues : Queues c' g)
    (idle' : c'.idle = c.idle) (home : c'.home = s'.home)
    (current : c'.currentThreads = s'.currentThreads)
    (state : ∀ t, s'.home t ≠ none → (c'.threads t).state = s'.state t)
    (pcs : c'.pc = Function.update c.pc self (Place.locked cpu sec rest).whole)
    (used : ∀ t, s'.home t ≠ none → s.live t = true)
    (flies : ∀ arg t, (Place.locked cpu sec rest).flying = some (arg, t) →
      (s.place self).flying = some (arg, t) ∧ s'.home t = none)
    (new : ∀ k arg t, k ≠ self → (s.place k).flying = some (arg, t) → s'.home t = none)
    (same : ∀ cpu', cpu' ≠ cpu → g cpu' = f cpu')
    (working : Working s'.rqs cpu (g cpu) sec rest) : Sim s' c' g := by
  obtain ⟨taken, init, on, suffix, -⟩ := sim.inside self cpu sec _ here
  refine sim.goes place idle queues idle' home current state pcs (live ▸ used) ?_
    (fun k arg t differ flying => ⟨new k arg t differ flying, by rw [live], by rw [thread]⟩)
    ?_ ?_ ?_ ?_ ?_ ?_
  · intro arg t flying
    obtain ⟨flew, free⟩ := flies arg t flying
    obtain ⟨-, live', runnable, initialised, target⟩ := sim.flying self arg t flew
    rw [idle, live, thread]
    exact ⟨⟨free, live', runnable, initialised, target⟩, fun k differ arg' there =>
      differ (sim.single k self arg' arg t there flew)⟩
  · rintro _ _ _ ⟨⟩
    rw [lock, idle]
    exact ⟨⟨taken, init, on, (List.suffix_cons st rest).trans suffix, working⟩,
      fun k differ sec' todo there => sim.other_lock here differ there rfl⟩
  · intro k cpu' sec' todo differ there
    have elsewhere := sim.other_lock here differ there
    obtain ⟨taken', -, -, -, working'⟩ := sim.inside k cpu' sec' todo there
    rw [lock, rqs, same cpu' elsewhere]
    exact ⟨taken', working'.frame
      (sim.store_agree here elsewhere.symm (sim.apart here there elsewhere.symm))⟩
  · intro cpu' held
    obtain ⟨k, sec', todo, there⟩ := sim.holder cpu' (lock ▸ held)
    by_cases mine : k = self
    · subst mine
      rw [here] at there
      cases there
      exact .inl ⟨sec, rest, rfl⟩
    · exact .inr ⟨k, sec', todo, mine, there⟩
  · intro cpu' initialised unlocked
    rw [lock] at unlocked
    have elsewhere : cpu' ≠ cpu := by
      rintro rfl
      exact taken unlocked
    rw [rqs, same cpu' elsewhere]
    exact (sim.store_agree here elsewhere.symm (sim.apart_free here elsewhere.symm)).seg
      (sim.free cpu' (idle ▸ initialised) unlocked) fun t member => member
  · rintro _ prev next _ ⟨⟩
    rw [thread]
    exact sim.stays self cpu prev next _ here
  · intro k cpu' prev next todo _ there
    rw [thread]
    exact sim.stays k cpu' prev next todo there

/-! ### Every step -/

def Follows (c : SchedState) (s' : LockState) : Prop :=
  ∃ c' f', Run schedOp (fun c op => allowed c op = true) c c' ∧ Sim s' c' f'

private theorem Sim.follows (sim : Sim s' c f) : Follows c s' := ⟨c, f, .refl, sim⟩

private theorem Sim.followsStep (stepped : Scheduler.scheduleStep c self = some c')
    (sim : Sim s' c' f) :
    Follows c s' :=
  ⟨c', f, .single ⟨.step self, rfl, stepped⟩, sim⟩

private theorem Sim.entered (sim : Sim s c f) (here : s.place self = .unlocked .entered)
    (init : s.idle self ≠ none) (stepped : scheduleStep s self .entered = some s') :
    Follows c s' := by
  obtain ⟨idle, current, found⟩ := sim.at init
  rw [here] at found
  have empty : listEmpty s.rqs (.head self) = listEmpty c.rqs (.head self) := by
    simp only [listEmpty, sim.next_head init here]
  have runs : s.currentThreads self = some current := sim.current ▸ found.runs
  simp only [scheduleStep, runs, Option.map_some, Option.some.injEq, empty] at stepped
  subst stepped
  have whole : Scheduler.scheduleStep c self = some (c.setPc self
      (if listEmpty c.rqs (.head self) then .outside else .nonempty current)) := by
    have place : c.pc self = .entered := found.place
    simp only [Scheduler.scheduleStep, place, found.runs, Option.map_some]
    split_ifs
    · rfl
    · rfl
  exact Sim.followsStep whole (sim.move here rfl rfl rfl rfl (found.entered whole) rfl sim.home
    sim.current sim.state rfl sim.live (fun t free => ⟨free, rfl, rfl⟩)
    fun t _ exited => exited)

private theorem Sim.nonempty {prev : Nat} (sim : Sim s c f)
    (here : s.place self = .unlocked (.nonempty prev)) (init : s.idle self ≠ none)
    (stepped : scheduleStep s self (.nonempty prev) = some s') : Follows c s' := by
  obtain ⟨idle, current, found⟩ := sim.at init
  rw [here] at found
  have first : listNext s.rqs (.head self) = listNext c.rqs (.head self) := sim.next_head init here
  simp only [scheduleStep, first, Option.map_eq_some_iff] at stepped
  obtain ⟨next, contains, rfl⟩ := stepped
  have whole : Scheduler.scheduleStep c self = some (c.setPc self
      (if prev = next then .outside else .chosen prev next)) := by
    have place : c.pc self = .nonempty prev := found.place
    simp only [Scheduler.scheduleStep, place, contains, Option.map_some]
    split_ifs
    · rfl
    · rfl
  exact Sim.followsStep whole (sim.move here rfl rfl rfl rfl (found.nonempty whole) rfl sim.home
    sim.current sim.state rfl sim.live (fun t free => ⟨free, rfl, rfl⟩)
    fun t _ exited => exited)

private theorem Sim.taken {prev next : Nat} (sim : Sim s c f)
    (here : s.place self = .unlocked (.taken prev next)) (init : s.idle self ≠ none)
    (stepped : scheduleStep s self (.taken prev next) = some s') : Follows c s' := by
  obtain ⟨idle, current, found⟩ := sim.at init
  rw [here] at found
  obtain rfl := Option.some.inj stepped
  have whole : Scheduler.scheduleStep c self = some ({ c with
      currentThreads := Function.update c.currentThreads self (some next) }.setPc self
        (.switched prev next)) := by
    have place : c.pc self = .taken prev next := found.place
    simp only [Scheduler.scheduleStep, place]
  refine Sim.followsStep whole (sim.move here rfl rfl rfl rfl (found.taken whole) rfl sim.home ?_
    sim.state rfl sim.live (fun t free => ⟨free, rfl, rfl⟩)
    fun t _ exited => exited)
  simp only [SchedState.setPc, LockState.goto, sim.current]

private theorem Sim.queued {prev next : Nat} (sim : Sim s c f)
    (here : s.place self = .unlocked (.queued prev next)) (init : s.idle self ≠ none)
    (stepped : scheduleStep s self (.queued prev next) = some s') : Follows c s' := by
  obtain ⟨idle, current, found⟩ := sim.at init
  rw [here] at found
  obtain rfl := Option.some.inj stepped
  have whole : Scheduler.scheduleStep c self =
      some (((c.setState prev .runnable).setState next .running).setPc self .outside) := by
    have place : c.pc self = .queued prev next := found.place
    simp only [Scheduler.scheduleStep, place]
  obtain ⟨rfl, member⟩ := found.ok.locals
  have homePrev : s.home prev = some self := sim.home_of_mem member
  have homeNext : s.home next = some self := sim.home ▸ found.home List.mem_cons_self
  refine Sim.followsStep whole (sim.move here rfl rfl rfl rfl (found.queued whole) rfl sim.home
    sim.current ?_ rfl sim.live ?_ ?_)
  · intro t used
    have before := sim.state t used
    simp only [SchedState.setPc, SchedState.setState, LockState.goto]
    by_cases isNext : t = next
    · rw [isNext, Function.update_self, Function.update_self]
    · rw [Function.update_of_ne isNext, Function.update_of_ne isNext]
      by_cases isPrev : t = prev
      · rw [isPrev, Function.update_self, Function.update_self]
      · rw [Function.update_of_ne isPrev, Function.update_of_ne isPrev]
        exact before
  · intro t free
    have notPrev : t ≠ prev := by
      rintro rfl
      simp [homePrev] at free
    have notNext : t ≠ next := by
      rintro rfl
      simp [homeNext] at free
    refine ⟨free, rfl, ?_⟩
    simp only [LockState.goto, Function.update_of_ne notNext, Function.update_of_ne notPrev]
  · intro t other exited
    have notPrev : t ≠ prev := by
      rintro rfl
      exact other homePrev
    have notNext : t ≠ next := by
      rintro rfl
      exact other homeNext
    simpa only [LockState.goto, Function.update_of_ne notNext, Function.update_of_ne notPrev]
      using exited

private theorem Sim.unlinked {prev next : Nat} (sim : Sim s c f)
    (here : s.place self = .unlocked (.unlinked prev next)) (init : s.idle self ≠ none)
    (stepped : scheduleStep s self (.unlinked prev next) = some s') : Follows c s' := by
  obtain ⟨idle, current, found⟩ := sim.at init
  rw [here] at found
  obtain rfl := Option.some.inj stepped
  have whole : Scheduler.scheduleStep c self =
      some ({ c with home := Function.update c.home prev none }.setPc self .outside) := by
    have place : c.pc self = .unlinked prev next := found.place
    simp only [Scheduler.scheduleStep, place]
  have homePrev : s.home prev = some self := sim.home ▸ found.home List.mem_cons_self
  have others : ∀ t, Function.update s.home prev none t ≠ none → t ≠ prev ∧ s.home t ≠ none := by
    intro t used
    have differ : t ≠ prev := by
      rintro rfl
      exact used (Function.update_self ..)
    rw [Function.update_of_ne differ] at used
    exact ⟨differ, used⟩
  refine Sim.followsStep whole (sim.move here rfl rfl rfl rfl (found.unlinked whole) rfl ?_
    sim.current ?_ rfl ?_ ?_ fun t _ exited => exited)
  · simp only [SchedState.setPc, LockState.goto, sim.home]
  · intro t used
    exact sim.state t (others t used).2
  · intro t used
    obtain ⟨differ, used⟩ := others t used
    simp only [LockState.goto, Function.update_of_ne differ]
    exact sim.live t used
  · intro t free
    have differ : t ≠ prev := by
      rintro rfl
      simp [homePrev] at free
    simp only [LockState.goto, Function.update_of_ne differ]
    exact ⟨free, trivial, trivial⟩

private theorem spinLock_eq_some {cpu : Nat} (locked : s.spinLock self cpu sec = some s') :
    s.schedLock cpu = 0 ∧ s' = { s with schedLock := Function.update s.schedLock cpu 1 }.goto self
      (.locked cpu sec (sec.stores cpu)) := by
  unfold LockState.spinLock at locked
  split_ifs at locked with unlocked
  exact ⟨unlocked, (Option.some.inj locked).symm⟩

private theorem Sim.chosen {prev next : Nat} (sim : Sim s c f)
    (here : s.place self = .unlocked (.chosen prev next)) (init : s.idle self ≠ none)
    (stepped : scheduleStep s self (.chosen prev next) = some s') : Follows c s' := by
  obtain ⟨idle, current, found⟩ := sim.at init
  rw [here] at found
  obtain ⟨unlocked, rfl⟩ := spinLock_eq_some stepped
  exact (sim.lock self (.remove prev next) unlocked (by simp [here]) init rfl found.ok.locals.2
    (by simp) (by rw [here]; rfl) sim.queues rfl rfl rfl rfl
    (sim.pc_same (by rw [here]; rfl))).follows

private theorem Sim.switched {prev next : Nat} (sim : Sim s c f)
    (here : s.place self = .unlocked (.switched prev next)) (init : s.idle self ≠ none)
    (stepped : scheduleStep s self (.switched prev next) = some s') : Follows c s' := by
  obtain ⟨idle, current, found⟩ := sim.at init
  rw [here] at found
  have place : c.pc self = .switched prev next := found.place
  have homePrev : c.home prev = some self := found.home List.mem_cons_self
  have state : (c.threads prev).state = s.state prev :=
    sim.state prev (by simp [← sim.home, homePrev])
  obtain ⟨unlocked, rfl⟩ := spinLock_eq_some stepped
  by_cases stays : s.state prev ≠ .exit
  · rw [if_pos stays]
    have fresh : prev ∉ f self := fun member =>
      (List.nodup_cons.mp found.nodup).1 (List.mem_cons_of_mem next member)
    exact (sim.lock self (.append prev next) unlocked (by simp [here]) init rfl fresh
      (by rintro _ _ ⟨⟩; exact stays) (by rw [here]; rfl) sim.queues rfl rfl rfl rfl
      (sim.pc_same (by rw [here]; rfl))).follows
  · rw [if_neg stays]
    -- the thread group is no part of the state, so that the section is over
    have whole : Scheduler.scheduleStep c self = some ({ c with
        threadGroup := listRemove c.threadGroup (.node prev) }.setPc self
          (.unlinked prev next)) := by
      simp only [Scheduler.scheduleStep, place, state, if_neg stays]
    have queues : Queues _ f := queues_of_rings (found.switched whole) sim.queues.rings
      fun cpu unused => (sim.queues.unused cpu unused).2.2
    exact Sim.followsStep whole (sim.lock self (.unlink prev next) unlocked (by simp [here]) init
      rfl trivial (by simp) (by rw [here]; rfl) queues rfl rfl rfl rfl rfl)

private theorem Sim.waiting {arg : Int} {t : Nat} (sim : Sim s c f)
    (here : s.place self = .waiting arg t)
    (stepped : s.spinLock self (targetCpu self arg) (.insert arg t) = some s') : Follows c s' := by
  have flying : (s.place self).flying = some (arg, t) := by rw [here]; rfl
  obtain ⟨free, -, -, -, target⟩ := sim.flying self arg t flying
  obtain ⟨unlocked, rfl⟩ := spinLock_eq_some stepped
  have fresh : t ∉ f (targetCpu self arg) := by
    intro member
    rw [sim.home_of_mem member] at free
    cases free
  exact (sim.lock self (.insert arg t) unlocked (by simp [here]) target rfl fresh (by simp) flying
    sim.queues rfl rfl rfl rfl (sim.pc_same (by rw [here]; rfl))).follows

private theorem Sim.firstStores {st' : Store Nat Nat} (sim : Sim s c f)
    (here : s.place self = .locked cpu sec (st :: st' :: rest)) :
    Sim ({ s with rqs := st.run s.rqs }.goto self (.locked cpu sec (st' :: rest))) c f := by
  obtain ⟨-, -, -, suffix, working⟩ := sim.inside self cpu sec _ here
  refine sim.store here rfl rfl rfl rfl rfl rfl sim.queues rfl sim.home sim.current sim.state
    (sim.pc_same (by rw [here]; rfl)) sim.live ?_
    (fun k arg t _ flying => (sim.flying k arg t flying).1) (fun _ _ => rfl) (working.store suffix)
  intro arg t flying
  have flew : (s.place self).flying = some (arg, t) := by
    rw [here]
    cases sec with
    | insert arg t => exact flying
    | remove prev next | append prev next | unlink prev next => cases flying
  exact ⟨flew, (sim.flying self arg t flew).1⟩

private theorem landed (cpu : Nat) (sec : Section) (x : Int × Nat) :
    (Place.locked cpu sec []).flying ≠ some x := by
  cases sec <;> simp [Place.flying]

private theorem Sim.lastInsert {arg : Int} {t : Nat} (sim : Sim s c f)
    (here : s.place self = .locked cpu (.insert arg t) [st]) :
    Follows c ({ s with
      rqs := st.run s.rqs
      home := Function.update s.home t (some cpu) }.goto self
        (.locked cpu (.insert arg t) [])) := by
  obtain ⟨-, init, on, -, working⟩ := sim.inside self cpu _ _ here
  have flying : (s.place self).flying = some (arg, t) := by rw [here]; rfl
  obtain ⟨free, live, runnable, mine, -⟩ := sim.flying self arg t flying
  have place : c.pc self = .outside := by rw [sim.place self, here]; rfl
  obtain rfl : cpu = targetCpu self arg := on
  obtain ⟨idle, current, found⟩ := sim.at init
  rw [← sim.idle] at init mine
  have ok : allowed c (.run self arg t) = true := by
    simp only [allowed, ready_iff, Bool.and_eq_true, decide_eq_true_eq]
    exact ⟨⟨⟨Option.ne_none_iff_exists'.mp mine, place⟩, Option.isSome_iff_ne_none.mpr init⟩,
      sim.home ▸ free⟩
  have others : ∀ {x}, x ≠ t → Function.update s.home t (some (targetCpu self arg)) x = s.home x :=
    fun differ => Function.update_of_ne differ ..
  refine ⟨Scheduler.threadRun c self arg t, _, .single ⟨.run self arg t, ok, rfl⟩,
    sim.store here rfl rfl rfl rfl rfl rfl (found.threadRun (sim.home ▸ free)) rfl ?_
      sim.current ?_ (sim.pc_same (by rw [here]; rfl)) ?_
      (fun arg' x there => absurd there (landed _ _ _)) ?_
      (fun cpu' differ => Function.update_of_ne differ ..) ?_⟩
  · simp only [Scheduler.threadRun, LockState.goto, sim.home]
  · intro x used
    by_cases new : x = t
    · rw [new]
      simp only [Scheduler.threadRun, LockState.goto, Function.update_self, runnable]
    · simp only [LockState.goto, others new] at used
      simp only [Scheduler.threadRun, LockState.goto, Function.update_of_ne new]
      exact sim.state x used
  · intro x used
    by_cases new : x = t
    · rw [new]
      exact live
    · simp only [LockState.goto, others new] at used
      exact sim.live x used
  · intro k arg' x differ flew
    have other : x ≠ t := by
      rintro rfl
      exact differ (sim.single k self arg' arg x flew flying)
    simp only [LockState.goto, others other]
    exact (sim.flying k arg' x flew).1
  · rw [Function.update_self]
    exact working.last

private theorem Sim.lastStore {g : List Nat} (sim : Sim s c f)
    (here : s.place self = .locked cpu sec [st])
    (on : cpu = self) (after : sec.after (f cpu) = g)
    (whole : Scheduler.scheduleStep c self = some c')
    (fields : ∃ rqs, c' = { c with rqs := rqs }.setPc self sec.exit)
    (rings : Rings c'.rqs {cpu | c.idle cpu ≠ none} (Function.update f cpu g)) :
    Follows c ({ s with rqs := st.run s.rqs }.goto self (.locked cpu sec [])) := by
  obtain ⟨-, init, -, -, working⟩ := sim.inside self cpu _ _ here
  obtain ⟨rqs, rfl⟩ := fields
  subst on
  have queues : Queues ({ c with rqs := rqs }.setPc cpu sec.exit) (Function.update f cpu g) := by
    have stepped : schedOp c (.step cpu) = some _ := whole
    refine queues_of_rings (schedOp_queues ⟨f, sim.queues⟩ rfl stepped) rings ?_
    intro cpu' unused
    have differ : cpu' ≠ cpu := by
      rintro rfl
      rw [← sim.idle] at init
      exact init unused
    rw [Function.update_of_ne differ]
    exact (sim.queues.unused cpu' unused).2.2
  refine Sim.followsStep whole (sim.store here rfl rfl rfl rfl rfl rfl queues rfl sim.home
    sim.current sim.state rfl sim.live (fun arg t there => absurd there (landed _ _ _))
    (fun k arg t _ there => (sim.flying k arg t there).1)
    (fun cpu' differ => Function.update_of_ne differ ..) ?_)
  rw [Function.update_self, ← after]
  exact working.last

private theorem Sim.lastRemove {prev next : Nat} (sim : Sim s c f)
    (here : s.place self = .locked cpu (.remove prev next) [st]) :
    Follows c ({ s with rqs := st.run s.rqs }.goto self (.locked cpu (.remove prev next) [])) := by
  obtain ⟨-, init, on, -, -⟩ := sim.inside self cpu _ _ here
  obtain rfl : cpu = self := on
  obtain ⟨idle, current, found⟩ := sim.at init
  rw [here] at found
  have place : c.pc cpu = .chosen prev next := found.place
  have whole : Scheduler.scheduleStep c cpu = some ({ c with
      rqs := listRemove c.rqs (.node next) }.setPc cpu (.taken prev next)) := by
    simp only [Scheduler.scheduleStep, place]
  exact sim.lastStore here rfl rfl whole ⟨_, rfl⟩
    (listRemove_rings sim.queues.rings found.index_mem found.ok.locals.2)

private theorem Sim.lastAppend {prev next : Nat} (sim : Sim s c f)
    (here : s.place self = .locked cpu (.append prev next) [st]) :
    Follows c ({ s with rqs := st.run s.rqs }.goto self (.locked cpu (.append prev next) [])) := by
  obtain ⟨-, init, on, -, -⟩ := sim.inside self cpu _ _ here
  obtain rfl : cpu = self := on
  obtain ⟨idle, current, found⟩ := sim.at init
  have stays := sim.stays cpu cpu prev next _ here
  have home := sim.append_home here
  rw [here] at found
  have place : c.pc cpu = .switched prev next := found.place
  have state : (c.threads prev).state ≠ .exit := by
    rw [sim.state prev (by simp [home])]
    exact stays
  have whole : Scheduler.scheduleStep c cpu = some ({ c with
      rqs := listInsertTail c.rqs (.head cpu) (.node prev) }.setPc cpu (.queued prev next)) := by
    simp only [Scheduler.scheduleStep, place, if_pos state]
  refine sim.lastStore here rfl rfl whole ⟨_, rfl⟩
    (listInsertTail_rings sim.queues.rings found.index_mem fun other _ member => ?_)
  obtain rfl : cpu = other := Option.some.inj (home.symm.trans (sim.home_of_mem member))
  exact (List.nodup_cons.mp found.nodup).1 (List.mem_cons_of_mem next member)

private theorem Sim.step (sim : Sim s c f) (stepped : step s self = some s') : Follows c s' := by
  unfold SchedulerLocks.step at stepped
  cases here : s.place self with
  | unlocked pc =>
    rw [here] at stepped
    have init : pc ≠ .outside → s.idle self ≠ none := by
      intro called unused
      have outside := (sim.queues.unused self (sim.idle ▸ unused)).1
      rw [sim.place self, here] at outside
      exact called outside
    cases pc with
    | outside => cases stepped
    | entered => exact sim.entered here (init (by simp)) stepped
    | nonempty prev => exact sim.nonempty here (init (by simp)) stepped
    | chosen prev next => exact sim.chosen here (init (by simp)) stepped
    | taken prev next => exact sim.taken here (init (by simp)) stepped
    | switched prev next => exact sim.switched here (init (by simp)) stepped
    | queued prev next => exact sim.queued here (init (by simp)) stepped
    | unlinked prev next => exact sim.unlinked here (init (by simp)) stepped
  | waiting arg t =>
    rw [here] at stepped
    exact sim.waiting here stepped
  | locked cpu sec todo =>
    rw [here] at stepped
    cases todo with
    | nil =>
      obtain rfl := Option.some.inj stepped
      exact (sim.unlock here).follows
    | cons st rest =>
      obtain rfl := Option.some.inj stepped
      cases rest with
      | nil =>
        cases sec with
        | insert arg t => exact sim.lastInsert here
        | remove prev next => exact sim.lastRemove here
        | append prev next => exact sim.lastAppend here
        | unlink prev next =>
          obtain ⟨-, -, -, suffix, -⟩ := sim.inside self cpu _ _ here
          cases List.suffix_nil.mp suffix
      | cons st' rest =>
        have same : sec.published s.home cpu (st' :: rest) = s.home := by
          cases sec <;> rfl
        simp only [same]
        exact (sim.firstStores here).follows

/-! ### Calls -/

private theorem Sim.threadRun {arg : Int} {t : Nat} (sim : Sim s c f)
    (here : s.place self = .unlocked .outside) (init : s.idle self ≠ none)
    (target : s.idle (targetCpu self arg) ≠ none) (fresh : s.live t = false) :
    Sim (threadRun s self arg t) c f := by
  have unused : s.home t = none := by
    by_contra used
    rw [sim.live t used] at fresh
    cases fresh
  have old : ∀ {x}, s.home x ≠ none → x ≠ t := by
    rintro x used rfl
    exact used unused
  have notNew : ∀ k arg' x, (s.place k).flying = some (arg', x) → x ≠ t := by
    rintro k arg' x flying rfl
    obtain ⟨-, live, -⟩ := sim.flying k arg' x flying
    rw [fresh] at live
    cases live
  refine sim.goes rfl rfl sim.queues rfl sim.home sim.current ?_ (sim.pc_same (by rw [here]; rfl))
    ?_ ?_ ?_ (by simp) ?_ ?_ sim.free (by simp) ?_
  · intro x used
    simp only [SchedulerLocks.threadRun, LockState.goto, Function.update_of_ne (old used)]
    exact sim.state x used
  · intro x used
    simp only [SchedulerLocks.threadRun, LockState.goto, Function.update_of_ne (old used)]
    exact sim.live x used
  · rintro _ _ ⟨⟩
    simp only [SchedulerLocks.threadRun, LockState.goto, Function.update_self]
    exact ⟨⟨unused, trivial, trivial, init, target⟩,
      fun k _ arg' there => notNew k arg' t there rfl⟩
  · intro k arg' x _ flying
    simp only [SchedulerLocks.threadRun, LockState.goto,
      Function.update_of_ne (notNew k arg' x flying)]
    exact ⟨(sim.flying k arg' x flying).1, trivial, trivial⟩
  · intro k cpu sec todo _ there
    obtain ⟨taken, -, -, -, working⟩ := sim.inside k cpu sec todo there
    exact ⟨taken, working⟩
  · intro cpu taken
    exact .inr (sim.holder_other (by simp [here]) taken)
  · intro k cpu prev next todo _ there
    have differ : prev ≠ t := old (by simp [sim.append_home there])
    simp only [SchedulerLocks.threadRun, LockState.goto, Function.update_of_ne differ]
    exact sim.stays k cpu prev next todo there

private theorem Sim.schedule (sim : Sim s c f) (here : s.place self = .unlocked .outside)
    (init : s.idle self ≠ none) : Follows c (s.goto self (.unlocked .entered)) := by
  obtain ⟨idle, current, found⟩ := sim.at init
  rw [here] at found
  have ok : allowed c (.schedule self) = true :=
    ready_iff.mpr ⟨⟨idle, found.init⟩, found.place⟩
  exact ⟨_, f, .single ⟨.schedule self, ok, rfl⟩, sim.move here rfl rfl rfl rfl found.schedule rfl
    sim.home sim.current sim.state rfl sim.live (fun t free => ⟨free, rfl, rfl⟩)
    fun t _ exited => exited⟩

private theorem Sim.threadExit (sim : Sim s c f) (here : s.place self = .unlocked .outside)
    (init : s.idle self ≠ none) (other : s.currentThreads self ≠ s.idle self)
    (stepped : threadExit s self = some s') : Follows c s' := by
  obtain ⟨idle, current, found⟩ := sim.at init
  rw [here] at found
  have runs : s.currentThreads self = some current := sim.current ▸ found.runs
  have differ : current ≠ idle := by
    rintro rfl
    exact other (runs.trans (sim.idle ▸ found.init).symm)
  have ok : allowed c (.exit self) = true := by
    simp only [allowed, Bool.and_eq_true, decide_eq_true_eq, ready_iff]
    refine ⟨⟨⟨idle, found.init⟩, found.place⟩, ?_⟩
    rw [found.runs, found.init]
    exact fun same => differ (Option.some.inj same)
  have whole : schedOp c (.exit self) = some ((c.setState current .exit).setPc self .entered) := by
    simp only [schedOp, Scheduler.threadExit, found.runs, Option.map_some]
  simp only [SchedulerLocks.threadExit, runs, Option.map_some, Option.some.injEq] at stepped
  subst stepped
  have home : s.home current = some self := sim.home ▸ found.home List.mem_cons_self
  refine ⟨_, f, .single ⟨.exit self, ok, whole⟩, sim.move here rfl rfl rfl rfl
    (found.threadExit differ) rfl sim.home sim.current ?_ rfl sim.live ?_ ?_⟩
  · intro t used
    simp only [SchedState.setPc, SchedState.setState, LockState.goto]
    by_cases same : t = current
    · rw [same, Function.update_self, Function.update_self]
    · rw [Function.update_of_ne same, Function.update_of_ne same]
      exact sim.state t used
  · intro t free
    have another : t ≠ current := by
      rintro rfl
      simp [home] at free
    exact ⟨free, rfl, Function.update_of_ne another ..⟩
  · intro t elsewhere exited
    have another : t ≠ current := by
      rintro rfl
      exact elsewhere home
    simpa only [LockState.goto, Function.update_of_ne another] using exited

/-! ### Initialisation -/

private theorem listInit_agree (l : Links Nat Nat) {cpu' : Nat} (differ : cpu' ≠ cpu)
    (xs : List Nat) :
    Agree (cells cpu' xs) l (listInit l (.head cpu)) := by
  intro cell member
  have other : cell ≠ .head cpu := by
    rintro rfl
    rcases member with same | ⟨t, -, same⟩
    · exact differ (Cell.head.inj same).symm
    · cases same
  simp only [listInit, Links.setNext, Links.setPrev, Function.update_of_ne other, and_self]

private theorem Sim.unused_free (sim : Sim s c f) (unused : s.idle cpu = none) :
    s.schedLock cpu = 0 := by
  by_contra taken
  obtain ⟨k, sec, todo, there⟩ := sim.holder cpu taken
  exact (sim.inside k cpu sec todo there).2.1 unused

private theorem Sim.initFails (sim : Sim s c f) (unused : s.idle cpu = none) :
    Sim (scheduleInit s cpu none) (Scheduler.scheduleInit c cpu none) f := by
  have unused' : c.idle cpu = none := sim.idle ▸ unused
  have queues := sim.queues.initFails unused'
  have lock : Function.update s.schedLock cpu 0 = s.schedLock := by
    rw [← sim.unused_free unused, Function.update_eq_self]
  have whole : ∃ group, Scheduler.scheduleInit c cpu none =
      { c with rqs := listInit c.rqs (.head cpu), threadGroup := group } := by
    unfold Scheduler.scheduleInit
    split_ifs
    · exact ⟨_, rfl⟩
    · exact ⟨_, rfl⟩
  obtain ⟨group, whole⟩ := whole
  rw [whole] at queues ⊢
  simp only [scheduleInit, lock]
  refine ⟨queues, sim.idle, sim.home, sim.current, sim.state, sim.place, sim.live, sim.flying,
    sim.single, ?_, sim.exclusive, sim.holder, ?_, sim.stays⟩
  · intro k cpu' sec todo there
    obtain ⟨taken, init, on, suffix, working⟩ := sim.inside k cpu' sec todo there
    have differ : cpu' ≠ cpu := by
      rintro rfl
      exact init unused
    exact ⟨taken, init, on, suffix, working.frame (listInit_agree s.rqs differ _)⟩
  · intro cpu' init free
    have differ : cpu' ≠ cpu := by
      rintro rfl
      exact init unused
    exact (listInit_agree s.rqs differ _).seg (sim.free cpu' init free) fun t member => member

private theorem Sim.initSucceeds {idle : Nat} (sim : Sim s c f) (unused : s.idle cpu = none)
    (fresh : s.live idle = false) :
    Sim (scheduleInit s cpu (some idle)) (Scheduler.scheduleInit c cpu (some idle)) f := by
  have fails := sim.initFails unused
  have new : s.home idle = none := by
    by_contra used
    rw [sim.live idle used] at fresh
    cases fresh
  have queues := sim.queues.initSucceeds (sim.idle ▸ unused) (sim.home ▸ new)
  obtain ⟨group, whole⟩ := scheduleInit_some c cpu idle
  rw [whole] at queues ⊢
  have other : ∀ {t}, Function.update s.home idle (some cpu) t ≠ none → t ≠ idle →
      s.home t ≠ none := by
    intro t used differ
    rwa [Function.update_of_ne differ] at used
  have initialised : ∀ {cpu'}, s.idle cpu' ≠ none →
      Function.update s.idle cpu (some idle) cpu' ≠ none := by
    intro cpu' init
    by_cases here : cpu' = cpu
    · exact absurd (here ▸ unused) init
    · rwa [Function.update_of_ne here]
  refine ⟨queues, ?_, ?_, ?_, ?_, sim.place, ?_, ?_, sim.single, ?_, sim.exclusive, fails.holder,
    ?_, ?_⟩
  · simp only [scheduleInit, sim.idle]
  · simp only [scheduleInit, sim.home]
  · simp only [scheduleInit, sim.current]
  · intro t used
    simp only [scheduleInit]
    by_cases same : t = idle
    · rw [same, Function.update_self, Function.update_self]
    · rw [Function.update_of_ne same, Function.update_of_ne same]
      exact sim.state t (other used same)
  · intro t used
    simp only [scheduleInit]
    by_cases same : t = idle
    · rw [same, Function.update_self]
    · rw [Function.update_of_ne same]
      exact sim.live t (other used same)
  · intro k arg t there
    obtain ⟨free, live, runnable, init, target⟩ := sim.flying k arg t there
    have differ : t ≠ idle := by
      rintro rfl
      rw [fresh] at live
      cases live
    simp only [scheduleInit, Function.update_of_ne differ]
    exact ⟨free, live, runnable, initialised init, initialised target⟩
  · intro k cpu' sec todo there
    obtain ⟨taken, init, rest⟩ := fails.inside k cpu' sec todo there
    exact ⟨taken, initialised init, rest⟩
  · intro cpu' init free
    by_cases here : cpu' = cpu
    · subst here
      rw [(sim.queues.unused cpu' (sim.idle ▸ unused)).2.2]
      exact ⟨by simp [scheduleInit, listInit, Links.setNext, Links.setPrev],
        by simp [scheduleInit, listInit, Links.setNext, Links.setPrev]⟩
    · simp only [scheduleInit, Function.update_of_ne here] at init
      exact fails.free cpu' init free
  · intro k cpu' prev next todo there
    have differ : prev ≠ idle := by
      rintro rfl
      rw [sim.append_home there] at new
      cases new
    simp only [scheduleInit, Function.update_of_ne differ]
    exact sim.stays k cpu' prev next todo there

/-! ### Whole runs -/

def Held (s : LockState) (cpu : Nat) : Prop :=
  ∃ holder sec todo, s.place holder = .locked cpu sec todo ∧ (SchedulerLocks.step s holder).isSome

end Sim

structure LockBooted (s : LockState) : Prop where
  outside : ∀ cpu, s.place cpu = .unlocked .outside
  current : ∀ cpu, s.currentThreads cpu = none
  home : ∀ t, s.home t = none
  idle : ∀ cpu, s.idle cpu = none
  unlocked : ∀ cpu, s.schedLock cpu = 0

def LockState.whole (s : LockState) : SchedState :=
  { threads := fun t => ⟨0, s.state t⟩
    rqs := s.rqs
    threadGroup := ⟨id, id⟩
    currentThreads := s.currentThreads
    gThreadId := 0
    pc := fun cpu => (s.place cpu).whole
    home := s.home
    idle := s.idle }

private theorem LockBooted.sim {s : LockState} (booted : LockBooted s) :
    Sim s s.whole fun _ => [] := by
  have nobody : ∀ {k cpu sec todo}, s.place k ≠ .locked cpu sec todo := by
    intro k cpu sec todo there
    rw [booted.outside] at there
    cases there
  have landed : ∀ {k x}, (s.place k).flying ≠ some x := by
    intro k x flies
    rw [booted.outside] at flies
    cases flies
  have queues : Queues s.whole fun _ => [] := by
    refine Booted.queues ⟨fun cpu => ?_, booted.current, booted.home, booted.idle⟩
    simp only [LockState.whole, booted.outside, Place.whole]
  refine ⟨queues, rfl, rfl, rfl, fun _ _ => rfl, fun _ => rfl, ?_, ?_, ?_, ?_, ?_, ?_, ?_, ?_⟩
  · intro t used
    exact absurd (booted.home t) used
  · intro k arg t flies
    exact absurd flies landed
  · intro k k' arg arg' t flies
    exact absurd flies landed
  · intro k cpu sec todo there
    exact absurd there nobody
  · intro k k' cpu sec sec' todo todo' there
    exact absurd there nobody
  · intro cpu taken
    exact absurd (booted.unlocked cpu) taken
  · intro cpu init
    exact absurd (booted.idle cpu) init
  · intro k cpu prev next todo there
    exact absurd there nobody

end OhMyOs.Schedule.SchedulerLocks
