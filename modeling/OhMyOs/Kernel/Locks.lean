/- GID: OhMyOs/Kernel/Locks
   generality: I
   digest: The locks that the allocators, vmalloc and the scheduler take, on every path. -/

import OhMyOs.Include.Log2
import OhMyOs.Lib.LockOrder
import OhMyOs.Mm.Slab

set_option autoImplicit false
set_option relaxedAutoImplicit false

namespace OhMyOs.Kernel.Locks

open OhMyOs.Lib.LockOrder OhMyOs.Include.Bitops OhMyOs.Include.Log2 OhMyOs.Include.Memory
open OhMyOs.Mm.Slab (kmemCacheMaxOrder kmemCacheMaxSize cacheOrder cacheOrder_le pageOrder
  pageToVirt)
open OhMyOs.Mm.PageAllocator (maxOrder)

/-! ### Locks

Each function below is the sequence of lock operations of its source. What the source reads from
memory to choose a path, and what its allocations return, is a value of the function's `Env`. The
links of lists and trees, and the pointers that a caller passes, are taken to be valid. -/

/-- `pr_lock`, `page_lock`, the `lock` of `kmalloc_cache[order]`, `vma_lock`, `sched_lock[cpu]`. -/
inductive Lock
  | pr
  | page
  | cache (order : Nat)
  | vma
  | sched (cpu : Nat)
  deriving DecidableEq

abbrev Prog := List (Act Lock)

/-- `BUG_ON` prints the number of its line as if it were a string, which faults under `pr_lock`;
before paging it gets to `hlt`, with interrupts off. -/
def assert (holds : Bool) : Prog := if holds then [] else [.take .pr, .fault]

def warnOn (warn : Bool) : Prog := assert !warn

/-- A pointer that is followed if it is not NULL; the first page is never mapped. -/
def follow (there : Bool) : Prog := if there then [] else [.fault]

/-! ### mm/page.c -/

/-- There is no free block, or one for which the asserts hold or not. -/
inductive AllocEnv
  | empty
  | block (sound : Bool)

def AllocEnv.sound : AllocEnv → Bool
  | .empty => true
  | .block sound => sound

/-- Both ways out of the search unlock. -/
def allocPages (order : Nat) (env : AllocEnv) : Prog :=
  if order > maxOrder then [] else locked .page (assert env.sound)

def freePages : Prog := locked .page []

/-! ### mm/slab.c -/

/-- A page of the linear zone, which is all that `GFP_NORMAL` hands out. -/
abbrev LinearPage := { pfn : Nat // pfn < physHighmemStart / pageSize }

/-- `slabs_partial` is not empty, or `alloc_page` returns this; the asserts hold or not. -/
inductive SlabEnv
  | slabsPartial (sound : Bool)
  | grow (page : Option LinearPage) (sound : Bool)

/-- `slab_page_init` returns an error. -/
def slabPageInitFails (page : LinearPage) : Bool := pageToVirt page.val = 0

/-- A NULL page is dereferenced, and an error of `slab_page_init` returns with the lock held. -/
def kmemCacheAlloc (cache : Nat) : SlabEnv → Prog
  | .slabsPartial sound => locked (.cache cache) (assert sound)
  | .grow none _ => .take (.cache cache) :: (allocPages 0 .empty ++ [.fault])
  | .grow (some page) sound =>
    .take (.cache cache) :: (allocPages 0 (.block sound) ++
      if slabPageInitFails page then [] else [.release (.cache cache)])

/-- The object is not one of the cache, its page has none in use, or it is the last one or not. -/
inductive ObjectEnv
  | foreign
  | unused
  | used (last : Bool)

def kmemCacheFree (cache : Nat) : ObjectEnv → Prog
  | .foreign => assert false
  | .unused => .take (.cache cache) :: assert false
  | .used last => locked (.cache cache) (if last then freePages else [])

/-! ### mm/kmalloc.c -/

/-- The size asked for, whether `kmalloc_init` has not run yet, and what `alloc_blocks`, with its
asserts, `kmem_cache_alloc` and `alloc_pages` find. -/
structure KmallocEnv where
  size : Nat
  early : Bool
  sound : Bool
  block : Bool
  slab : SlabEnv
  pages : AllocEnv

def kmalloc (env : KmallocEnv) : Prog :=
  if env.early then assert env.sound
  else if env.size ≤ kmemCacheMaxSize then
    assert (cacheOrder env.size ≤ kmemCacheMaxOrder) ++
      kmemCacheAlloc (cacheOrder env.size) env.slab
  else allocPages (pageOrder env.size) env.pages

/-- `kmalloc` returns a pointer, if it returns. -/
def KmallocEnv.ok (env : KmallocEnv) : Bool :=
  if env.early then env.block
  else if env.size ≤ kmemCacheMaxSize then true
  else
    match env.pages with
    | .empty => false
    | .block _ => pageOrder env.size ≤ maxOrder

inductive KfreeEnv
  | early (sound : Bool)
  | noCache
  | slab (cache : Nat) (object : ObjectEnv)
  | pages

def kfree : KfreeEnv → Prog
  | .early sound => assert sound
  | .noCache => assert false
  | .slab cache object => kmemCacheFree cache object
  | .pages => freePages

/-! ### libs/string.c and kernel/debug.c -/

/-- The assert of `string_try_expand`, the new buffer, and the old one unless it is NULL. -/
structure ExpandEnv where
  sound : Bool
  str : KmallocEnv
  old : Option KfreeEnv

def stringTryExpand (env : ExpandEnv) : Prog :=
  assert env.sound ++ (kmalloc env.str ++
    if env.str.ok then env.old.toList.flatMap kfree else [])

/-- The expansions of `s`, `line` and `dmesg_s`, and whether all that is printed is mapped up to its
end. -/
structure PrintEnv where
  expands : List ExpandEnv
  texts : Bool

def printDebug (env : PrintEnv) : Prog :=
  locked .pr (env.expands.flatMap stringTryExpand ++ follow env.texts)

/-! ### libs/rb_tree.c -/

/-- There is no tree or interval, it overlaps a node, or a node is allocated. That one is freed
again if it overlaps its parent, or the tree is checked. -/
inductive InsertEnv
  | refused
  | overlaps (log : PrintEnv)
  | node (alloc : KmallocEnv) (fail : Option KfreeEnv) (valid : Bool)

def rbTreeInsert : InsertEnv → Prog
  | .refused => []
  | .overlaps log => printDebug log
  | .node alloc none valid => kmalloc alloc ++ if alloc.ok then assert valid else []
  | .node alloc (some freed) _ => kmalloc alloc ++ if alloc.ok then kfree freed else []

/-- The node that is found, between the assert of `remove_fixup` and the check of the tree. -/
structure RemoveEnv where
  fixup : Bool
  node : KfreeEnv
  valid : Bool

def rbTreeRemove : Option RemoveEnv → Prog
  | none => []
  | some env => assert env.fixup ++ (kfree env.node ++ assert env.valid)

/-! ### mm/page_table.c -/

inductive PteEnv
  | present
  | absent (page : AllocEnv)

/-- A NULL page has an address all the same, and a page is cleared there. -/
def getPte : PteEnv → Prog
  | .present => []
  | .absent .empty => allocPages 0 .empty ++ [.wild]
  | .absent (.block sound) => allocPages 0 (.block sound)

def pageMap (log : PrintEnv) (ptes : List PteEnv) : Prog := printDebug log ++ ptes.flatMap getPte

/-- `page_unmap` allocates missing tables, too. -/
def pageUnmap (log : PrintEnv) (ptes : List PteEnv) : Prog := pageMap log ptes

structure KernelMapEnv where
  current : Bool
  log : PrintEnv
  ptes : List PteEnv

def kernelMap (env : KernelMapEnv) : Prog := follow env.current ++ pageMap env.log env.ptes

def kernelUnmap (env : KernelMapEnv) : Prog := follow env.current ++ pageUnmap env.log env.ptes

/-! ### mm/vmalloc.c -/

/-- The buddy that takes the rest of an area, and the assert on its order. -/
structure BuddyEnv where
  alloc : KmallocEnv
  sound : Bool

/-- No list has an area, and the pointer that was never set is NULL or not; or there is one, which
is split if it is large enough. -/
inductive AllocVmaEnv
  | notFound (stray : Bool)
  | found (sound : Bool) (buddy : Option BuddyEnv) (insert : InsertEnv)

def allocVma : AllocVmaEnv → Prog
  | .notFound _ => locked .vma []
  | .found sound none insert => locked .vma (assert sound ++ rbTreeInsert insert)
  | .found sound (some buddy) insert =>
    locked .vma (assert sound ++ (kmalloc buddy.alloc ++
      if buddy.alloc.ok then assert buddy.sound ++ rbTreeInsert insert else []))

def AllocVmaEnv.vma : AllocVmaEnv → Bool
  | .notFound stray => stray
  | .found _ none _ => true
  | .found _ (some buddy) _ => buddy.alloc.ok

/-- The returned pointer was never set. -/
def AllocVmaEnv.stray : AllocVmaEnv → Bool
  | .notFound stray => stray
  | .found _ _ _ => false

/-- The first access to the area. -/
def useVma (vma : AllocVmaEnv) : Prog := if vma.stray then [.wild] else []

structure MergeEnv where
  adjacent : Bool
  area : KfreeEnv

def mergeVma (env : MergeEnv) : Prog := assert env.adjacent ++ kfree env.area

/-- Whether the area lies in the range, its tree node, and the neighbours merged. -/
structure FreeVmaEnv where
  inRange : Bool
  node : Option RemoveEnv
  merged : List MergeEnv

def freeVma (env : FreeVmaEnv) : Prog :=
  assert env.inRange ++ locked .vma (rbTreeRemove env.node ++ env.merged.flatMap mergeVma)

def mapVmArea (maps : List KernelMapEnv) : Prog := maps.flatMap kernelMap

structure VmapEnv where
  area : AllocVmaEnv
  maps : List KernelMapEnv

def vmap (env : VmapEnv) : Prog :=
  allocVma env.area ++ if env.area.vma then useVma env.area ++ mapVmArea env.maps else []

structure FindVmaEnv where
  inRange : Bool
  node : Bool
  vma : Bool

/-- The lock is taken a second time where it should be released. -/
def findVma (env : FindVmaEnv) : Prog :=
  assert env.inRange ++ (.take .vma :: (assert env.node ++ (assert env.vma ++ [.take .vma])))

structure VunmapEnv where
  find : FindVmaEnv
  unmap : KernelMapEnv
  area : FreeVmaEnv

def vunmap (env : VunmapEnv) : Prog :=
  findVma env.find ++ (kernelUnmap env.unmap ++ freeVma env.area)

/-- The pages that are allocated, with the asserts of each, before the last one or a failure, the
message of a failure, and what its path frees: `vma->pages` is not the new array but what the area
held before, if that leads anywhere. -/
structure VmallocEnv where
  vma : AllocVmaEnv
  array : KmallocEnv
  got : List Bool
  failed : Bool
  maps : List KernelMapEnv
  log : PrintEnv
  stale : Option KfreeEnv
  area : FreeVmaEnv

def errFreePages (env : VmallocEnv) : Prog :=
  match env.stale with
  | none => [.wild]
  | some array => env.got.flatMap (fun _ => freePages) ++ (kfree array ++ freeVma env.area)

def vmallocOnce (size : Nat) (env : VmallocEnv) : Prog :=
  warnOn (size < pageSize) ++ (allocVma env.vma ++
    if env.vma.vma then
      kmalloc env.array ++
        if env.array.ok then
          env.got.flatMap (fun sound => allocPages 0 (.block sound)) ++
            if env.failed then
              allocPages 0 .empty ++ (printDebug env.log ++ (useVma env.vma ++ errFreePages env))
            else useVma env.vma ++ mapVmArea env.maps
        else printDebug env.log ++ (useVma env.vma ++ freeVma env.area)
    else printDebug env.log)

def VmallocEnv.ok (env : VmallocEnv) : Bool := env.vma.vma && env.array.ok && !env.failed

/-- With highmem pages first. -/
def vmalloc (size : Nat) (high normal : VmallocEnv) : Prog :=
  vmallocOnce size high ++ if high.ok then [] else vmallocOnce size normal

structure VfreeEnv where
  find : FindVmaEnv
  unmap : KernelMapEnv
  nrPages : Nat
  pages : KfreeEnv
  area : FreeVmaEnv

def vfree (addr : Nat) (env : VfreeEnv) : Prog :=
  if addr = 0 then []
  else findVma env.find ++ (kernelUnmap env.unmap ++
    ((List.replicate env.nrPages ()).flatMap (fun _ => freePages) ++
      (kfree env.pages ++ freeVma env.area)))

/-! ### schedule/schedule.c -/

structure ProcfsEnv where
  string : KmallocEnv
  str : KmallocEnv
  dir : KmallocEnv
  file : KmallocEnv
  freeString : KfreeEnv
  freeStr : KfreeEnv

def createThreadProcfs (env : ProcfsEnv) : Prog :=
  kmalloc env.string ++
    if env.string.ok then
      kmalloc env.str ++
        if env.str.ok then
          kmalloc env.dir ++
            if env.dir.ok then kmalloc env.file else kfree env.freeStr ++ kfree env.freeString
        else kfree env.freeString
    else []

def ProcfsEnv.ok (env : ProcfsEnv) : Bool := env.string.ok && env.str.ok && env.dir.ok

/-- Whether this CPU and the one that gets the thread have a thread themselves, the allocations, the
message, and what the error paths free. -/
structure ThreadRunEnv where
  current : Bool
  target : Bool
  thread : KmallocEnv
  kstack : KmallocEnv
  log : PrintEnv
  procfs : ProcfsEnv
  freeThread : KfreeEnv
  freeKstack : KfreeEnv

/-- `cpu` is the one that is left after the check of its range. -/
def threadRun (cpu : Nat) (env : ThreadRunEnv) : Prog :=
  kmalloc env.thread ++
    if env.thread.ok then
      kmalloc env.kstack ++
        if env.kstack.ok then
          follow env.current ++ (locked (.sched cpu) (follow env.target) ++ (printDebug env.log ++
            (createThreadProcfs env.procfs ++
              if env.procfs.ok then [] else kfree env.freeKstack ++ kfree env.freeThread)))
        else kfree env.freeThread
    else []

/-- The run queue was never initialised, is empty or holds the current thread only, or the CPU
switches: from no thread at all, from one that stays, or from one that exits, whose directory, if it
has one, and memory are freed. -/
inductive ScheduleEnv
  | uninit
  | stay
  | noThread
  | switch
  | exit (dir : Option (List KfreeEnv)) (kstack prev : KfreeEnv)

def removeDirectory : Option (List KfreeEnv) → Prog
  | none => [.wild]
  | some files => files.flatMap kfree

def schedule (cpu : Nat) : ScheduleEnv → Prog
  | .uninit => [.take (.sched cpu), .fault]
  | .stay => []
  | .noThread => locked (.sched cpu) [] ++ [.fault]
  | .switch => locked (.sched cpu) [] ++ locked (.sched cpu) []
  | .exit dir kstack prev =>
    locked (.sched cpu) [] ++ (locked (.sched cpu) [] ++
      (removeDirectory dir ++ (kfree kstack ++ kfree prev)))

/-! ### Calls -/

inductive Call
  | allocPages (order : Nat) (env : AllocEnv)
  | freePages
  | kmemCacheAlloc (cache : Nat) (env : SlabEnv)
  | kmemCacheFree (cache : Nat) (object : ObjectEnv)
  | allocVma (env : AllocVmaEnv)
  | freeVma (env : FreeVmaEnv)
  | vmap (env : VmapEnv)
  | vunmap (env : VunmapEnv)
  | vmalloc (size : Nat) (high normal : VmallocEnv)
  | vfree (addr : Nat) (env : VfreeEnv)
  | threadRun (cpu : Nat) (env : ThreadRunEnv)
  | schedule (cpu : Nat) (env : ScheduleEnv)

def Call.prog : Call → Prog
  | .allocPages order env => Locks.allocPages order env
  | .freePages => Locks.freePages
  | .kmemCacheAlloc cache env => Locks.kmemCacheAlloc cache env
  | .kmemCacheFree cache object => Locks.kmemCacheFree cache object
  | .allocVma env => Locks.allocVma env
  | .freeVma env => Locks.freeVma env
  | .vmap env => Locks.vmap env
  | .vunmap env => Locks.vunmap env
  | .vmalloc size high normal => Locks.vmalloc size high normal
  | .vfree addr env => Locks.vfree addr env
  | .threadRun cpu env => Locks.threadRun cpu env
  | .schedule cpu env => Locks.schedule cpu env

/-! ### Which calls keep the discipline

On the way of the call every assert holds, no size warns, every cache that has to grow and every
page table gets its page, and no pointer is NULL or stray where it is followed. -/

def allocPagesFine (order : Nat) (env : AllocEnv) : Bool := order > maxOrder || env.sound

def SlabEnv.fine : SlabEnv → Bool
  | .slabsPartial sound => sound
  | .grow none _ => false
  | .grow (some _) sound => sound

def ObjectEnv.fine : ObjectEnv → Bool
  | .used _ => true
  | _ => false

def KmallocEnv.fine (env : KmallocEnv) : Bool :=
  if env.early then env.sound
  else if env.size ≤ kmemCacheMaxSize then env.slab.fine
  else allocPagesFine (pageOrder env.size) env.pages

def KfreeEnv.fine : KfreeEnv → Bool
  | .early sound => sound
  | .noCache => false
  | .slab _ object => object.fine
  | .pages => true

def ExpandEnv.fine (env : ExpandEnv) : Bool :=
  env.sound && (env.str.fine && if env.str.ok then env.old.toList.all KfreeEnv.fine else true)

def PrintEnv.fine (env : PrintEnv) : Bool := env.expands.all ExpandEnv.fine && env.texts

def InsertEnv.fine : InsertEnv → Bool
  | .refused => true
  | .overlaps log => log.fine
  | .node alloc none valid => alloc.fine && if alloc.ok then valid else true
  | .node alloc (some freed) _ => alloc.fine && if alloc.ok then freed.fine else true

def RemoveEnv.fine (env : RemoveEnv) : Bool := env.fixup && (env.node.fine && env.valid)

def PteEnv.fine : PteEnv → Bool
  | .present => true
  | .absent .empty => false
  | .absent (.block sound) => sound

def KernelMapEnv.fine (env : KernelMapEnv) : Bool :=
  env.current && (env.log.fine && env.ptes.all PteEnv.fine)

def AllocVmaEnv.fine : AllocVmaEnv → Bool
  | .notFound _ => true
  | .found sound none insert => sound && insert.fine
  | .found sound (some buddy) insert =>
    sound && (buddy.alloc.fine && if buddy.alloc.ok then buddy.sound && insert.fine else true)

def MergeEnv.fine (env : MergeEnv) : Bool := env.adjacent && env.area.fine

def FreeVmaEnv.fine (env : FreeVmaEnv) : Bool :=
  env.inRange && (env.node.toList.all RemoveEnv.fine && env.merged.all MergeEnv.fine)

def VmapEnv.fine (env : VmapEnv) : Bool :=
  env.area.fine && if env.area.vma then !env.area.stray && env.maps.all KernelMapEnv.fine else true

def errFreePagesFine (env : VmallocEnv) : Bool :=
  match env.stale with
  | none => false
  | some array => array.fine && env.area.fine

def VmallocEnv.fine (size : Nat) (env : VmallocEnv) : Bool :=
  pageSize ≤ size && (env.vma.fine &&
    if env.vma.vma then
      env.array.fine &&
        if env.array.ok then
          env.got.all id &&
            if env.failed then env.log.fine && (!env.vma.stray && errFreePagesFine env)
            else !env.vma.stray && env.maps.all KernelMapEnv.fine
        else env.log.fine && (!env.vma.stray && env.area.fine)
    else env.log.fine)

def ProcfsEnv.fine (env : ProcfsEnv) : Bool :=
  env.string.fine &&
    if env.string.ok then
      env.str.fine &&
        if env.str.ok then
          env.dir.fine &&
            if env.dir.ok then env.file.fine else env.freeStr.fine && env.freeString.fine
        else env.freeString.fine
    else true

def ThreadRunEnv.fine (env : ThreadRunEnv) : Bool :=
  env.thread.fine &&
    if env.thread.ok then
      env.kstack.fine &&
        if env.kstack.ok then
          env.current && (env.target && (env.log.fine && (env.procfs.fine &&
            if env.procfs.ok then true else env.freeKstack.fine && env.freeThread.fine)))
        else env.freeThread.fine
    else true

def removeDirectoryFine : Option (List KfreeEnv) → Bool
  | none => false
  | some files => files.all KfreeEnv.fine

def ScheduleEnv.fine : ScheduleEnv → Bool
  | .uninit | .noThread => false
  | .stay | .switch => true
  | .exit dir kstack prev => removeDirectoryFine dir && (kstack.fine && prev.fine)

/-- Besides, `find_vma` is not called. -/
def Call.fine : Call → Bool
  | .allocPages order env => allocPagesFine order env
  | .freePages => true
  | .kmemCacheAlloc _ env => env.fine
  | .kmemCacheFree _ object => object.fine
  | .allocVma env => env.fine
  | .freeVma env => env.fine
  | .vmap env => env.fine
  | .vunmap _ => false
  | .vmalloc size high normal => high.fine size && if high.ok then true else normal.fine size
  | .vfree addr _ => addr = 0
  | .threadRun _ env => env.fine
  | .schedule _ env => env.fine

/-! ### The order of the locks -/

/-- Pages are allocated under a cache's lock, a message that needs room allocates objects, and under
`vma_lock` both happen. -/
def rank : Lock → Nat
  | .page => 1
  | .cache _ => 2
  | .pr => 3
  | .vma => 4
  | .sched _ => 4

variable {level : Nat}

private theorem assert_stops (held : List Lock) (rest : Prog) :
    ∃ stop, exec held (assert false ++ rest) = .error stop := by
  by_cases inside : Lock.pr ∈ held
  · exact ⟨.waits .pr, if_pos inside⟩
  · exact ⟨.fault, if_neg inside⟩

private theorem assert_verdict (holds : Bool) : Verdict rank level (assert holds) holds := by
  cases holds with
  | true => exact Verdict.nil
  | false => exact fun held _ => assert_stops held []

private theorem follow_verdict (there : Bool) : Verdict rank level (follow there) there := by
  cases there with
  | true => exact Verdict.nil
  | false => exact Verdict.fault

private theorem allocPages_verdict (order : Nat) (env : AllocEnv) :
    Verdict rank 1 (allocPages order env) (allocPagesFine order env) := by
  unfold allocPages allocPagesFine
  by_cases large : order > maxOrder
  · rw [if_pos large, decide_eq_true large]
    exact Verdict.nil
  · rw [if_neg large, decide_eq_false large]
    exact (assert_verdict env.sound).locked (show 0 < 1 by decide) (by decide)

private theorem allocPage_verdict (env : AllocEnv) :
    Verdict rank 1 (allocPages 0 env) env.sound := allocPages_verdict 0 env

private theorem freePages_verdict : Verdict rank 1 freePages true :=
  Verdict.leaf (by decide) (by decide)

theorem slabPageInit_linear (page : LinearPage) : slabPageInitFails page = false := by
  obtain ⟨pfn, lt⟩ := page
  have bound : pfn < 0x38000 := lt
  have virt : pageToVirt pfn = pageSize * pfn + kernelVirtBase :=
    Nat.mod_eq_of_lt (by unfold pageSize kernelVirtBase; omega)
  unfold slabPageInitFails
  rw [virt]
  apply decide_eq_false
  unfold kernelVirtBase
  omega

private theorem kmemCacheAlloc_verdict (cache : Nat) (env : SlabEnv) :
    Verdict rank 2 (kmemCacheAlloc cache env) env.fine := by
  have below : 1 < rank (.cache cache) := Nat.lt_succ_self 1
  have top : rank (.cache cache) ≤ 2 := Nat.le_refl 2
  cases env with
  | slabsPartial sound => exact (assert_verdict sound).locked below top
  | grow page sound =>
    cases page with
    | none => exact ((allocPage_verdict .empty).seq Verdict.fault).take below top
    | some page =>
      simp only [kmemCacheAlloc, slabPageInit_linear page, Bool.false_eq_true, if_false]
      exact (allocPage_verdict (.block sound)).locked below top

private theorem kmemCacheFree_verdict (cache : Nat) (object : ObjectEnv) :
    Verdict rank 2 (kmemCacheFree cache object) object.fine := by
  have below : 1 < rank (.cache cache) := Nat.lt_succ_self 1
  have top : rank (.cache cache) ≤ 2 := Nat.le_refl 2
  cases object with
  | foreign => exact assert_verdict false
  | unused => exact (assert_verdict false).take below top
  | used last =>
    have body : Verdict rank 1 (if last then freePages else []) true := by
      cases last with
      | true => exact freePages_verdict
      | false => exact Verdict.nil
    exact body.locked below top

private theorem kmalloc_verdict (env : KmallocEnv) : Verdict rank 2 (kmalloc env) env.fine := by
  unfold kmalloc KmallocEnv.fine
  apply Verdict.ite
  · exact assert_verdict env.sound
  · by_cases small : env.size ≤ kmemCacheMaxSize
    · rw [if_pos small, if_pos small, decide_eq_true (cacheOrder_le small)]
      exact kmemCacheAlloc_verdict _ _
    · rw [if_neg small, if_neg small]
      exact (allocPages_verdict _ _).mono (by decide)

private theorem kfree_verdict (env : KfreeEnv) : Verdict rank 2 (kfree env) env.fine := by
  cases env with
  | early sound => exact assert_verdict sound
  | noCache => exact assert_verdict false
  | slab cache object => exact kmemCacheFree_verdict cache object
  | pages => exact freePages_verdict.mono (by decide)

private theorem stringTryExpand_verdict (env : ExpandEnv) :
    Verdict rank 2 (stringTryExpand env) env.fine :=
  (assert_verdict env.sound).seq ((kmalloc_verdict env.str).seq
    (Verdict.ite env.str.ok (Verdict.flatMap kfree_verdict env.old.toList) Verdict.nil))

private theorem printDebug_verdict (env : PrintEnv) : Verdict rank 3 (printDebug env) env.fine :=
  ((Verdict.flatMap stringTryExpand_verdict env.expands).seq (follow_verdict env.texts)).locked
    (show 2 < 3 by decide) (by decide)

private theorem rbTreeInsert_verdict (env : InsertEnv) :
    Verdict rank 3 (rbTreeInsert env) env.fine := by
  cases env with
  | refused => exact Verdict.nil
  | overlaps log => exact printDebug_verdict log
  | node alloc fail valid =>
    have first := (kmalloc_verdict alloc).mono (show 2 ≤ 3 by decide)
    cases fail with
    | none => exact first.seq (Verdict.ite alloc.ok (assert_verdict valid) Verdict.nil)
    | some node =>
      have freed := (kfree_verdict node).mono (show 2 ≤ 3 by decide)
      exact first.seq (Verdict.ite alloc.ok freed Verdict.nil)

private theorem rbTreeRemove_verdict (env : Option RemoveEnv) :
    Verdict rank 2 (rbTreeRemove env) (env.toList.all RemoveEnv.fine) := by
  cases env with
  | none => exact Verdict.nil
  | some env =>
    simp only [Option.toList_some, List.all_cons, List.all_nil, Bool.and_true]
    exact (assert_verdict _).seq ((kfree_verdict _).seq (assert_verdict _))

private theorem getPte_verdict (env : PteEnv) : Verdict rank 1 (getPte env) env.fine := by
  cases env with
  | present => exact Verdict.nil
  | absent page =>
    cases page with
    | empty => exact (allocPage_verdict .empty).seq Verdict.wild
    | block sound => exact allocPage_verdict (.block sound)

private theorem kernelMap_verdict (env : KernelMapEnv) :
    Verdict rank 3 (kernelMap env) env.fine := by
  have ptes := (Verdict.flatMap getPte_verdict env.ptes).mono (show 1 ≤ 3 by decide)
  exact (follow_verdict env.current).seq ((printDebug_verdict env.log).seq ptes)

private theorem allocVma_verdict (env : AllocVmaEnv) : Verdict rank 4 (allocVma env) env.fine := by
  cases env with
  | notFound stray => exact Verdict.leaf (by decide) (by decide)
  | found sound buddy insert =>
    have first : Verdict rank 3 (assert sound) sound := assert_verdict sound
    cases buddy with
    | none => exact (first.seq (rbTreeInsert_verdict insert)).locked (by decide) (by decide)
    | some buddy =>
      have split := (assert_verdict buddy.sound).seq (rbTreeInsert_verdict insert)
      have alloc := (kmalloc_verdict buddy.alloc).mono (show 2 ≤ 3 by decide)
      have rest := alloc.seq (Verdict.ite buddy.alloc.ok split Verdict.nil)
      exact (first.seq rest).locked (by decide) (by decide)

private theorem useVma_verdict (vma : AllocVmaEnv) :
    Verdict rank level (useVma vma) (!vma.stray) := by
  unfold useVma
  cases vma.stray with
  | true => exact Verdict.wild
  | false => exact Verdict.nil

private theorem freeVma_verdict (env : FreeVmaEnv) : Verdict rank 4 (freeVma env) env.fine := by
  have merged : Verdict rank 2 (env.merged.flatMap mergeVma) (env.merged.all MergeEnv.fine) :=
    Verdict.flatMap (fun env : MergeEnv =>
      (assert_verdict env.adjacent).seq (kfree_verdict env.area)) _
  exact (assert_verdict env.inRange).seq
    (((rbTreeRemove_verdict env.node).seq merged).locked (by decide) (by decide))

private theorem mapVmArea_verdict (maps : List KernelMapEnv) :
    Verdict rank 4 (mapVmArea maps) (maps.all KernelMapEnv.fine) :=
  (Verdict.flatMap kernelMap_verdict maps).mono (by decide)

private theorem findVma_verdict (env : FindVmaEnv) : Verdict rank 4 (findVma env) false := by
  have second : Verdict rank 4 (.take .vma :: (assert env.node ++ (assert env.vma ++
      [.take .vma]))) false := by
    intro held above
    have free : Lock.vma ∉ held := fun mem => Nat.lt_irrefl 4 (above _ mem)
    rw [exec, if_neg free]
    have again : ∃ stop, exec (.vma :: held) [.take .vma] = .error stop :=
      ⟨.waits .vma, if_pos List.mem_cons_self⟩
    have stops : ∀ holds rest, (∃ stop, exec (.vma :: held) rest = .error stop) →
        ∃ stop, exec (.vma :: held) (assert holds ++ rest) = .error stop := by
      intro holds rest stops
      cases holds with
      | true => exact stops
      | false => exact assert_stops _ rest
    exact stops _ _ (stops _ _ again)
  have whole := (assert_verdict env.inRange).seq second
  rwa [Bool.and_false] at whole

private theorem vmap_verdict (env : VmapEnv) : Verdict rank 4 (vmap env) env.fine :=
  (allocVma_verdict env.area).seq (Verdict.ite env.area.vma
    ((useVma_verdict env.area).seq (mapVmArea_verdict env.maps)) Verdict.nil)

private theorem errFreePages_verdict (env : VmallocEnv) :
    Verdict rank 4 (errFreePages env) (errFreePagesFine env) := by
  unfold errFreePages errFreePagesFine
  cases env.stale with
  | none => exact Verdict.wild
  | some array =>
    have freed : Verdict rank 4 (env.got.flatMap fun _ => freePages) (env.got.all fun _ => true) :=
      Verdict.flatMap (fun _ => freePages_verdict.mono (by decide)) _
    rw [List.all_eq_true.mpr fun _ _ => rfl] at freed
    have stale := (kfree_verdict array).mono (show 2 ≤ 4 by decide)
    exact freed.seq (stale.seq (freeVma_verdict env.area))

private theorem vmallocOnce_verdict (size : Nat) (env : VmallocEnv) :
    Verdict rank 4 (vmallocOnce size env) (env.fine size) := by
  have told := (printDebug_verdict env.log).mono (show 3 ≤ 4 by decide)
  have used : Verdict rank 4 (useVma env.vma) (!env.vma.stray) := useVma_verdict env.vma
  have got : Verdict rank 4 (env.got.flatMap fun sound => allocPages 0 (.block sound))
      (env.got.all id) :=
    Verdict.flatMap (fun sound => (allocPage_verdict (.block sound)).mono (by decide)) _
  have none := (allocPage_verdict .empty).mono (show 1 ≤ 4 by decide)
  have failed := none.seq (told.seq (used.seq (errFreePages_verdict env)))
  have filled := got.seq (Verdict.ite env.failed failed (used.seq (mapVmArea_verdict env.maps)))
  have unfilled := told.seq (used.seq (freeVma_verdict env.area))
  have array := ((kmalloc_verdict env.array).mono (show 2 ≤ 4 by decide)).seq
    (Verdict.ite env.array.ok filled unfilled)
  have area := (allocVma_verdict env.vma).seq (Verdict.ite env.vma.vma array told)
  have warned : Verdict rank 4 (warnOn (size < pageSize)) (pageSize ≤ size) := by
    have flipped : (!decide (size < pageSize)) = decide (pageSize ≤ size) := by
      simp only [← decide_not, Nat.not_lt]
    rw [warnOn, flipped]
    exact assert_verdict _
  exact warned.seq area

private theorem createThreadProcfs_verdict (env : ProcfsEnv) :
    Verdict rank 2 (createThreadProcfs env) env.fine := by
  have both := (kfree_verdict env.freeStr).seq (kfree_verdict env.freeString)
  have dir := (kmalloc_verdict env.dir).seq
    (Verdict.ite env.dir.ok (kmalloc_verdict env.file) both)
  have str := (kmalloc_verdict env.str).seq
    (Verdict.ite env.str.ok dir (kfree_verdict env.freeString))
  exact (kmalloc_verdict env.string).seq (Verdict.ite env.string.ok str Verdict.nil)

private theorem kfree_verdict_top (env : KfreeEnv) : Verdict rank 4 (kfree env) env.fine :=
  (kfree_verdict env).mono (by decide)

private theorem threadRun_verdict (cpu : Nat) (env : ThreadRunEnv) :
    Verdict rank 4 (threadRun cpu env) env.fine := by
  have kmalloc4 := fun env : KmallocEnv => (kmalloc_verdict env).mono (show 2 ≤ 4 by decide)
  have procfs := (createThreadProcfs_verdict env.procfs).mono (show 2 ≤ 4 by decide)
  have undo := Verdict.ite env.procfs.ok Verdict.nil
    ((kfree_verdict_top env.freeKstack).seq (kfree_verdict_top env.freeThread))
  have told := (printDebug_verdict env.log).mono (show 3 ≤ 4 by decide)
  have linked : Verdict rank 4 (locked (.sched cpu) (follow env.target)) env.target :=
    (follow_verdict env.target).locked (show 3 < 4 by decide) (Nat.le_refl 4)
  have queued := (follow_verdict env.current).seq (linked.seq (told.seq (procfs.seq undo)))
  have stack := (kmalloc4 env.kstack).seq
    (Verdict.ite env.kstack.ok queued (kfree_verdict_top env.freeThread))
  exact (kmalloc4 env.thread).seq (Verdict.ite env.thread.ok stack Verdict.nil)

private theorem schedule_verdict (cpu : Nat) (env : ScheduleEnv) :
    Verdict rank 4 (schedule cpu env) env.fine := by
  have section' : Verdict rank 4 (locked (.sched cpu) []) true :=
    Verdict.leaf (Nat.zero_lt_succ 3) (Nat.le_refl 4)
  cases env with
  | uninit => exact Verdict.take Verdict.fault (show 3 < 4 by decide) (Nat.le_refl 4)
  | stay => exact Verdict.nil
  | noThread => exact section'.seq Verdict.fault
  | switch => exact section'.seq section'
  | exit dir kstack prev =>
    have removed : Verdict rank 4 (removeDirectory dir) (removeDirectoryFine dir) := by
      cases dir with
      | none => exact Verdict.wild
      | some files => exact Verdict.flatMap kfree_verdict_top files
    have freed := removed.seq ((kfree_verdict_top kstack).seq (kfree_verdict_top prev))
    exact section'.seq (section'.seq freed)

private theorem vfree_verdict (addr : Nat) (env : VfreeEnv) :
    Verdict rank 4 (vfree addr env) (addr = 0 : Bool) := by
  unfold vfree
  by_cases null : addr = 0
  · rw [if_pos null, decide_eq_true null]
    exact Verdict.nil
  · rw [if_neg null, decide_eq_false null]
    exact (findVma_verdict env.find).stops _

private theorem Call.verdict (call : Call) : Verdict rank 4 call.prog call.fine := by
  cases call with
  | allocPages order env => exact (allocPages_verdict order env).mono (by decide)
  | freePages => exact freePages_verdict.mono (by decide)
  | kmemCacheAlloc cache env => exact (kmemCacheAlloc_verdict cache env).mono (by decide)
  | kmemCacheFree cache object => exact (kmemCacheFree_verdict cache object).mono (by decide)
  | allocVma env => exact allocVma_verdict env
  | freeVma env => exact freeVma_verdict env
  | vmap env => exact vmap_verdict env
  | vunmap env => exact (findVma_verdict env.find).stops _
  | vmalloc size high normal =>
    exact (vmallocOnce_verdict size high).seq
      (Verdict.ite high.ok Verdict.nil (vmallocOnce_verdict size normal))
  | vfree addr env => exact vfree_verdict addr env
  | threadRun cpu env => exact threadRun_verdict cpu env
  | schedule cpu env => exact schedule_verdict cpu env

def quiet : PrintEnv := ⟨[], true⟩

end OhMyOs.Kernel.Locks
