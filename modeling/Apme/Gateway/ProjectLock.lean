import Mathlib.Data.List.Count
import Mathlib.Logic.Function.Basic

/-!
# Project locks

`project_lock` makes the lock of a project for its first user and drops it with
the last one, by a count of users that is kept apart from the locks.  A step is
what one task does between two awaits; a task that is cancelled, waiting or
inside, leaves through the same `finally`.
-/

set_option autoImplicit false

namespace Apme.Gateway

open List Function

/-- A task that waits in `project_lock` or is inside. -/
structure LockUser where
  project : String
  lock : Nat
  acquired : Bool
  deriving DecidableEq

/-- Lock objects are numbered as they are made. -/
structure LockTable where
  projectLocks : String → Option Nat := fun _ => none
  projectLockUsers : String → Option Nat := fun _ => none
  made : Nat := 0
  locked : Nat → Bool := fun _ => false
  tasks : List LockUser := []

inductive LockLabel where
  | enter (project : String)
  | acquire (user : LockUser)
  | leave (user : LockUser)

variable (s : LockTable) (project : String)

namespace LockTable

def enter : LockTable :=
  let lock := (s.projectLocks project).getD s.made
  { s with
    projectLocks := update s.projectLocks project lock
    made := max s.made (lock + 1)
    projectLockUsers :=
      update s.projectLockUsers project ((s.projectLockUsers project).getD 0 + 1 : Nat)
    tasks := ⟨project, lock, false⟩ :: s.tasks }

def acquire (user : LockUser) : LockTable :=
  { s with
    locked := update s.locked user.lock true
    tasks := { user with acquired := true } :: s.tasks.erase user }

/-- The `finally` of `project_lock`. -/
def leave (user : LockUser) : LockTable :=
  let locked := if user.acquired then update s.locked user.lock false else s.locked
  let users := (s.projectLockUsers user.project).getD 0
  let drop := users ≤ 1 ∧ s.projectLocks user.project = some user.lock ∧ locked user.lock = false
  { s with
    locked
    projectLockUsers :=
      update s.projectLockUsers user.project (if users ≤ 1 then none else some (users - 1))
    projectLocks := if drop then update s.projectLocks user.project none else s.projectLocks
    tasks := s.tasks.erase user }

end LockTable

def lockStep : LockLabel → Option LockTable
  | .enter project => some (s.enter project)
  | .acquire user =>
    if user ∈ s.tasks ∧ user.acquired = false ∧ s.locked user.lock = false then
      some (s.acquire user)
    else none
  | .leave user => if user ∈ s.tasks then some (s.leave user) else none

namespace LockTable

def users : Nat := s.tasks.countP fun user => user.project = project

def inside : Nat := s.tasks.countP fun user => user.project = project ∧ user.acquired

/-- At most one task is inside, and nothing is kept for a project without tasks. -/
structure Exclusive : Prop where
  excludes : ∀ project, s.inside project ≤ 1
  reclaimed : ∀ project, s.users project = 0 →
    s.projectLocks project = none ∧ s.projectLockUsers project = none

/-- The lock a task has come with is still that of its project, and while nobody
is inside every waiting task can go in. -/
structure Open : Prop where
  held : ∀ user ∈ s.tasks, s.projectLocks user.project = some user.lock
  admits : ∀ user ∈ s.tasks, s.inside user.project = 0 → (lockStep s (.acquire user)).isSome

/-- The tasks of a project share its lock and are counted, and the lock is locked
for the one that is inside. -/
structure Kept : Prop where
  lock : ∀ user ∈ s.tasks, s.projectLocks user.project = some user.lock
  counted : ∀ project, s.projectLockUsers project =
    if s.users project = 0 then none else some (s.users project)
  idle : ∀ project, s.users project = 0 ↔ s.projectLocks project = none
  locked : ∀ project lock, s.projectLocks project = some lock →
    lock < s.made ∧ s.inside project = (s.locked lock).toNat
  apart : ∀ p q lock, s.projectLocks p = some lock → s.projectLocks q = some lock → p = q
  fresh : ∀ lock, s.made ≤ lock → s.locked lock = false

variable {s}

theorem inside_le_users : s.inside project ≤ s.users project :=
  countP_mono_left (by simp +contextual)

theorem countP_erase {p : LockUser → Bool} {user : LockUser} (mem : user ∈ s.tasks) :
    s.tasks.countP p = (s.tasks.erase user).countP p + if p user then 1 else 0 := by
  rw [(perm_cons_erase mem).countP_eq, countP_cons]

theorem Kept.inside_of_none (hk : s.Kept) (none : s.projectLocks project = none) :
    s.inside project = 0 := by
  have unused := (hk.idle project).mpr none
  exact Nat.le_zero.mp (unused ▸ inside_le_users project)

/-- The lock that a task finds or makes. -/
theorem Kept.found (hk : s.Kept) {lock : Nat}
    (found : (s.projectLocks project).getD s.made = lock) :
    lock < max s.made (lock + 1) ∧ s.inside project = (s.locked lock).toNat ∧
      ∀ q, s.projectLocks q = some lock → q = project := by
  refine ⟨by omega, ?_⟩
  cases old : s.projectLocks project with
  | some shared =>
    rw [old, Option.getD_some] at found
    subst found
    exact ⟨(hk.locked project shared old).2, fun q same => hk.apart q project shared same old⟩
  | none =>
    rw [old, Option.getD_none] at found
    subst found
    refine ⟨?_, ?_⟩
    · rw [hk.inside_of_none project old, hk.fresh s.made (Nat.le_refl _)]
      rfl
    · intro q same
      exact absurd (hk.locked q s.made same).1 (Nat.lt_irrefl _)

theorem kept_enter (hk : s.Kept) : (s.enter project).Kept := by
  have hu : ∀ q, (s.enter project).users q = s.users q + if project = q then 1 else 0 := by
    simp [users, enter, countP_cons]
  have hi : ∀ q, (s.enter project).inside q = s.inside q := by simp [inside, enter]
  obtain ⟨lock, found⟩ : ∃ lock, (s.projectLocks project).getD s.made = lock := ⟨_, rfl⟩
  have hl : (s.enter project).projectLocks = update s.projectLocks project lock := by
    simp only [enter, found]
  obtain ⟨below, free, alone⟩ := hk.found project found
  refine
    { lock := ?_, counted := ?_, idle := ?_, locked := ?_, apart := ?_, fresh := ?_ }
  · intro user mem
    rw [hl]
    simp only [enter, found, mem_cons] at mem
    rcases mem with rfl | old
    · exact update_self ..
    · have shared := hk.lock user old
      by_cases same : user.project = project
      · rw [same] at shared ⊢
        rw [update_self, ← found, shared, Option.getD_some]
      · rwa [update_of_ne same]
  · intro q
    rw [hu]
    by_cases same : q = project
    · subst same
      have counted := hk.counted q
      simp only [enter, update_self]
      split at counted <;> simp_all
    · simp [enter, update_of_ne same, Ne.symm same, hk.counted]
  · intro q
    rw [hu, hl]
    by_cases same : q = project
    · simp [same]
    · simp [update_of_ne same, Ne.symm same, hk.idle]
  · intro q other isLock
    rw [hl] at isLock
    rw [hi]
    by_cases same : q = project
    · subst same
      rw [update_self] at isLock
      cases isLock
      exact ⟨by simp [enter, found, below], free⟩
    · rw [update_of_ne same] at isLock
      obtain ⟨old, isInside⟩ := hk.locked q other isLock
      exact ⟨Nat.lt_of_lt_of_le old (Nat.le_max_left _ _), isInside⟩
  · intro p q other isLock isLock'
    rw [hl] at isLock isLock'
    by_cases same : p = project <;> by_cases same' : q = project
    · rw [same, same']
    · rw [same, update_self] at isLock
      rw [update_of_ne same'] at isLock'
      cases isLock
      rw [same, alone q isLock']
    · rw [same', update_self] at isLock'
      rw [update_of_ne same] at isLock
      cases isLock'
      rw [same', alone p isLock]
    · rw [update_of_ne same] at isLock
      rw [update_of_ne same'] at isLock'
      exact hk.apart p q other isLock isLock'
  · intro other beyond
    exact hk.fresh other (Nat.le_trans (Nat.le_max_left _ _) beyond)

theorem kept_acquire (hk : s.Kept) {user : LockUser} (mem : user ∈ s.tasks)
    (hw : user.acquired = false) (hf : s.locked user.lock = false) : (s.acquire user).Kept := by
  have hu : ∀ q, (s.acquire user).users q = s.users q := by
    simp [users, acquire, countP_cons, countP_erase mem]
  have hi : ∀ q, (s.acquire user).inside q = s.inside q + if user.project = q then 1 else 0 := by
    simp [inside, acquire, countP_cons, countP_erase mem, hw]
  have own := hk.lock user mem
  refine
    { lock := ?_, counted := ?_, idle := ?_, locked := ?_, apart := hk.apart, fresh := ?_ }
  · intro other isTask
    simp only [acquire, mem_cons] at isTask
    rcases isTask with rfl | old
    · exact own
    · exact hk.lock other (mem_of_mem_erase old)
  · intro q
    rw [hu]
    exact hk.counted q
  · intro q
    rw [hu]
    exact hk.idle q
  · intro q lock isLock
    obtain ⟨below, isInside⟩ := hk.locked q lock isLock
    refine ⟨below, ?_⟩
    rw [hi, isInside]
    by_cases same : user.project = q
    · subst same
      cases Option.some.inj (own.symm.trans isLock)
      simp [acquire, hf]
    · have other : lock ≠ user.lock := by
        rintro rfl
        exact same (hk.apart _ _ _ own isLock)
      simp [acquire, same, update_of_ne other]
  · intro lock beyond
    have below := (hk.locked _ _ own).1
    have other : lock ≠ user.lock := by
      rintro rfl
      exact absurd below (Nat.not_lt.mpr beyond)
    simp only [acquire, update_of_ne other]
    exact hk.fresh lock beyond

section Leave

variable {user : LockUser} (mem : user ∈ s.tasks)

include mem

theorem users_pos : 0 < s.users user.project :=
  countP_pos_iff.mpr ⟨user, mem, by simp⟩

theorem users_leave (q : String) :
    (s.leave user).users q = s.users q - if user.project = q then 1 else 0 := by
  simp [users, leave, countP_erase mem]

theorem inside_leave (q : String) :
    (s.leave user).inside q = s.inside q - if user.project = q ∧ user.acquired then 1 else 0 := by
  simp [inside, leave, countP_erase mem]

variable (hk : s.Kept)

include hk

theorem Kept.users_getD : (s.projectLockUsers user.project).getD 0 = s.users user.project := by
  have positive := users_pos mem
  rw [hk.counted, if_neg (by omega), Option.getD_some]

/-- The lock of a project is free once its last task has given it up. -/
theorem Kept.released (last : s.users user.project ≤ 1) :
    (if user.acquired then update s.locked user.lock false else s.locked) user.lock = false := by
  split
  next => exact update_self ..
  next waits =>
    have others := inside_le_users (s := s.leave user) user.project
    rw [inside_leave mem, users_leave mem, if_pos rfl, if_neg fun both => waits both.2] at others
    have isInside := (hk.locked _ _ (hk.lock user mem)).2
    rw [show s.inside user.project = 0 by omega, eq_comm, Bool.toNat_eq_zero] at isInside
    exact isInside

/-- The lock is dropped with the last user. -/
theorem Kept.projectLocks_leave :
    (s.leave user).projectLocks =
      if s.users user.project ≤ 1 then update s.projectLocks user.project none
      else s.projectLocks := by
  simp only [leave, Kept.users_getD mem hk]
  by_cases last : s.users user.project ≤ 1
  · rw [if_pos ⟨last, hk.lock user mem, Kept.released mem hk last⟩, if_pos last]
  · rw [if_neg fun drop => last drop.1, if_neg last]

theorem kept_leave : (s.leave user).Kept := by
  have own := hk.lock user mem
  have positive := users_pos mem
  -- A lock that is still there was there before.
  have old : ∀ q lock, (s.leave user).projectLocks q = some lock →
      s.projectLocks q = some lock := by
    intro q lock isLock
    rw [Kept.projectLocks_leave mem hk] at isLock
    split at isLock
    · by_cases same : q = user.project
      · rw [same, update_self] at isLock
        cases isLock
      · rwa [update_of_ne same] at isLock
    · exact isLock
  refine
    { lock := ?_, counted := ?_, idle := ?_, locked := ?_, apart := ?_, fresh := ?_ }
  · intro other isTask
    have still : 0 < (s.leave user).users other.project :=
      countP_pos_iff.mpr ⟨other, isTask, by simp⟩
    have shared := hk.lock other (mem_of_mem_erase isTask)
    rw [users_leave mem] at still
    rw [Kept.projectLocks_leave mem hk]
    split
    next last =>
      have apart : other.project ≠ user.project := by
        intro same
        rw [same, if_pos rfl] at still
        omega
      rwa [update_of_ne apart]
    next => exact shared
  · intro q
    rw [users_leave mem]
    simp only [leave, Kept.users_getD mem hk]
    by_cases same : q = user.project
    · subst same
      rw [update_self, if_pos rfl]
      by_cases last : s.users user.project ≤ 1
      · rw [if_pos last, if_pos (by omega)]
      · rw [if_neg last, if_neg (by omega)]
    · rw [update_of_ne same, if_neg (Ne.symm same), Nat.sub_zero]
      exact hk.counted q
  · intro q
    rw [users_leave mem, Kept.projectLocks_leave mem hk]
    by_cases same : q = user.project
    · subst same
      by_cases last : s.users user.project ≤ 1
      · simp [last]
      · simp [last, own]
        omega
    · rw [if_neg (Ne.symm same), Nat.sub_zero, hk.idle]
      by_cases last : s.users user.project ≤ 1
      · rw [if_pos last, update_of_ne same]
      · rw [if_neg last]
  · intro q lock isLock
    obtain ⟨below, isInside⟩ := hk.locked q lock (old q lock isLock)
    refine ⟨below, ?_⟩
    rw [inside_leave mem, isInside]
    by_cases same : user.project = q
    · subst same
      cases Option.some.inj (own.symm.trans (old _ _ isLock))
      cases acquired : user.acquired <;> simp [leave, acquired, Bool.toNat_le]
    · have other : lock ≠ user.lock := by
        rintro rfl
        exact same (hk.apart _ _ _ own (old q _ isLock))
      cases acquired : user.acquired <;> simp [leave, acquired, same, update_of_ne other]
  · intro p q lock isLock isLock'
    exact hk.apart p q lock (old p lock isLock) (old q lock isLock')
  · intro lock beyond
    have free := hk.fresh lock beyond
    have below := (hk.locked _ _ own).1
    have other : lock ≠ user.lock := by
      rintro rfl
      exact absurd below (Nat.not_lt.mpr beyond)
    cases acquired : user.acquired <;> simp [leave, acquired, update_of_ne other, free]

end Leave

theorem Kept.step (hk : s.Kept) (label : LockLabel) : ((lockStep s label).getD s).Kept := by
  unfold lockStep
  split
  · exact kept_enter _ hk
  · split
    next hm => exact kept_acquire hk hm.1 hm.2.1 hm.2.2
    next => exact hk
  · split
    next mem => exact kept_leave mem hk
    next => exact hk

/-- The state after these steps; one that cannot be taken is passed over. -/
def run (labels : List LockLabel) : LockTable :=
  labels.foldl (fun s label => (lockStep s label).getD s) {}

theorem run_kept (labels : List LockLabel) : (run labels).Kept :=
  foldlRecOn labels _ ⟨nofun, fun _ => rfl, fun _ => ⟨fun _ => rfl, fun _ => rfl⟩, nofun, nofun,
    fun _ _ => rfl⟩ fun _ hk label _ => hk.step label

/-- However tasks enter, wait, leave and are cancelled, one at most is inside for
a project, and nothing is left behind when the last one is gone. -/
theorem projectLock_excludes (labels : List LockLabel) : (run labels).Exclusive := by
  have hk := run_kept labels
  refine ⟨fun p => ?_, fun p none => ⟨(hk.idle p).mp none, by rw [hk.counted, if_pos none]⟩⟩
  cases hp : (run labels).projectLocks p with
  | none => exact Nat.le_succ_of_le ((hk.idle p).mpr hp ▸ inside_le_users p)
  | some lock =>
    rw [(hk.locked p lock hp).2]
    exact Bool.toNat_le _

/-- No lock stays locked after the task inside, or is replaced under a task. -/
theorem projectLock_opens (labels : List LockLabel) : (run labels).Open := by
  have hk := run_kept labels
  refine ⟨hk.lock, ?_⟩
  intro user mem none
  have hf := (hk.locked _ _ (hk.lock user mem)).2
  have hw : user.acquired = false := by simpa using countP_eq_zero.mp none user mem
  rw [none, eq_comm, Bool.toNat_eq_zero] at hf
  rw [lockStep, if_pos ⟨mem, hw, hf⟩]
  rfl

end LockTable

end Apme.Gateway
