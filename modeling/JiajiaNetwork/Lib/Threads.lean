/- Threads that share mutexes and data, one operation at a time in any order. Who holds a mutex can
   be read off the programs, and every run is finite. -/
import Mathlib.Algebra.BigOperators.Group.Finset.Basic
import Mathlib.Data.Fintype.Card
import JiajiaNetwork.Lib.Machine

set_option autoImplicit false
set_option relaxedAutoImplicit false

namespace JiajiaNetwork.Lib

universe u v w

namespace Threads

/-- The states of a mutex; `raw` is one that is not initialised, or was destroyed. -/
inductive Mutex (θ : Type u)
  | raw
  | free
  | held (owner : θ)
  deriving DecidableEq

inductive Op (θ : Type u) (μ : Type v) (σ : Type w)
  | init (m : μ)
  | destroy (m : μ)
  | lock (m : μ)
  | unlock (m : μ)
  | create (t : θ)
  | join (t : θ)
  | act (f : σ → σ)

variable {θ : Type u} {μ : Type v} {σ : Type w} [DecidableEq θ] [DecidableEq μ]

/-- `pc` counts the operations that a thread has executed; `none` is a thread not yet created. -/
structure St (θ : Type u) (μ : Type v) (σ : Type w) where
  pc : θ → Option Nat
  mutex : μ → Mutex θ
  data : σ

/-- The programs of the threads. -/
abbrev Programs (θ : Type u) (μ : Type v) (σ : Type w) := θ → List (Op θ μ σ)

/-- What thread `t` is to execute next. -/
def nextOp (P : Programs θ μ σ) (s : St θ μ σ) (t : θ) : Option (Op θ μ σ) :=
  (s.pc t).bind fun n => (P t)[n]?

def St.set (s : St θ μ σ) (m : μ) (x : Mutex θ) : St θ μ σ :=
  { s with mutex := Function.update s.mutex m x }

def St.goTo (s : St θ μ σ) (t : θ) (n : Nat) : St θ μ σ :=
  { s with pc := Function.update s.pc t (some n) }

/-- One operation of `t`. To initialise a mutex twice, to destroy one that is locked, to unlock one
that another thread holds and to join a thread that was never created are faults. -/
def exec (s : St θ μ σ) (t : θ) : Op θ μ σ → Option (St θ μ σ)
  | .init m => if s.mutex m = .raw then some (s.set m .free) else none
  | .destroy m => if s.mutex m = .free then some (s.set m .raw) else none
  | .lock m => if s.mutex m = .free then some (s.set m (.held t)) else none
  | .unlock m => if s.mutex m = .held t then some (s.set m .free) else none
  | .create u => if s.pc u = none then some (s.goTo u 0) else none
  | .join u => if s.pc u = none then none else some s
  | .act f => some { s with data := f s.data }

def step (P : Programs θ μ σ) (s : St θ μ σ) (t : θ) : Option (St θ μ σ) :=
  (s.pc t).bind fun n => (P t)[n]?.bind fun op => (exec s t op).map fun r => r.goTo t (n + 1)

/-- `t` waits for `u`: for a mutex that `u` holds, or for its end. -/
inductive Waits (P : Programs θ μ σ) (s : St θ μ σ) (t u : θ) : Prop
  | lock (m : μ) : nextOp P s t = some (.lock m) → s.mutex m = .held u → Waits P s t u
  | join : nextOp P s t = some (.join u) → nextOp P s u ≠ none → Waits P s t u

/-- The scheduler may let `t` go on. -/
def Ready (P : Programs θ μ σ) (s : St θ μ σ) (t : θ) : Prop :=
  match nextOp P s t with
  | none => False
  | some (.lock m) => s.mutex m = .raw ∨ s.mutex m = .free
  | some (.join u) => (nextOp P s u).isNone = true
  | some _ => True

instance (P : Programs θ μ σ) (s : St θ μ σ) (t : θ) : Decidable (Ready P s t) := by
  unfold Ready
  split <;> infer_instance

/-- One thread, `first`, starts with no mutex initialised. -/
def machine (P : Programs θ μ σ) (first : θ) (data : σ) : Machine (St θ μ σ) θ where
  Start s := s = ⟨Function.update (fun _ => none) first (some 0), fun _ => .raw, data⟩
  Lawful := Ready P
  step := step P

/-- Whether `m` is held behind the operations `done`. -/
def holds (m : μ) (done : List (Op θ μ σ)) : Bool :=
  done.foldl (fun held op => match op with
    | .lock k => held || decide (k = m)
    | .unlock k => held && decide (k ≠ m)
    | _ => held) false

/-- What an operation does to the data. -/
def Op.apply : Op θ μ σ → σ → σ
  | .act f => f
  | _ => id

/-- The data behind some operations. -/
def acts (ops : List (Op θ μ σ)) (data : σ) : σ := ops.foldl (fun data op => op.apply data) data

/-- What `t` has executed. -/
def done (P : Programs θ μ σ) (s : St θ μ σ) (t : θ) : List (Op θ μ σ) :=
  (P t).take ((s.pc t).getD 0)

/-- The holder of a mutex is the thread whose program has locked it. -/
def Owned (P : Programs θ μ σ) (s : St θ μ σ) : Prop :=
  ∀ m t, s.mutex m = .held t ↔ holds m (done P s t) = true

section Steps

variable {P : Programs θ μ σ} {s s' : St θ μ σ} {t u : θ} {n : Nat} {m : μ} {op : Op θ μ σ}

omit [DecidableEq μ] in
@[simp] theorem goTo_pc : (s.goTo t n).pc t = some n := Function.update_self ..

omit [DecidableEq μ] in
theorem goTo_pc_of_ne (other : u ≠ t) : (s.goTo t n).pc u = s.pc u :=
  Function.update_of_ne other ..

omit [DecidableEq θ] in
theorem holds_concat (front : List (Op θ μ σ)) : holds m (front ++ [op]) = match op with
    | .lock k => holds m front || decide (k = m)
    | .unlock k => holds m front && decide (k ≠ m)
    | _ => holds m front := by
  rw [holds, List.foldl_append, List.foldl_cons, List.foldl_nil]
  rfl

omit [DecidableEq θ] [DecidableEq μ] in
theorem acts_take_succ {ops : List (Op θ μ σ)} (here : ops[n]? = some op) (data : σ) :
    acts (ops.take (n + 1)) data = op.apply (acts (ops.take n) data) := by
  rw [List.take_add_one, here, acts, List.foldl_append]
  rfl

/-- What a step does: one operation of the thread's program. -/
theorem step_cases (run : step P s t = some s') : ∃ n op r, s.pc t = some n ∧
    (P t)[n]? = some op ∧ exec s t op = some r ∧ s' = r.goTo t (n + 1) := by
  obtain ⟨n, at_n, run⟩ := Option.bind_eq_some_iff.mp run
  obtain ⟨op, here, run⟩ := Option.bind_eq_some_iff.mp run
  obtain ⟨r, executed, same⟩ := Option.map_eq_some_iff.mp run
  exact ⟨n, op, r, at_n, here, executed, same.symm⟩

theorem exec_pc (run : exec s t op = some s') (u : θ) : s'.pc u = match op with
    | .create x => if u = x then some 0 else s.pc u
    | _ => s.pc u := by
  cases op with
  | create x =>
    simp only [exec] at run
    split_ifs at run
    obtain rfl := Option.some.inj run
    exact Function.update_apply ..
  | act f =>
    obtain rfl := Option.some.inj run
    rfl
  | _ =>
    simp only [exec] at run
    split_ifs at run
    obtain rfl := Option.some.inj run
    rfl

/-- Only a thread that was not created is created. -/
theorem exec_pc_cases (run : exec s t op = some s') (u : θ) :
    s'.pc u = s.pc u ∨ s.pc u = none ∧ s'.pc u = some 0 := by
  have counter := exec_pc run u
  cases op with
  | create x =>
    by_cases same : u = x
    · subst same
      simp only [exec] at run
      split_ifs at run with new
      exact .inr ⟨new, by simpa using counter⟩
    · exact .inl (by simpa [same] using counter)
  | _ => exact .inl counter

theorem step_of_next (counter : s.pc t = some n) (here : (P t)[n]? = some op)
    (executed : exec s t op = some s') : step P s t = some (s'.goTo t (n + 1)) := by
  simp [step, counter, here, executed]

/-- The counters behind a step. -/
theorem step_pc (run : step P s t = some s') : ∃ n, s.pc t = some n ∧ n < (P t).length ∧
    s'.pc t = some (n + 1) ∧
      ∀ u, u ≠ t → s'.pc u = s.pc u ∨ s.pc u = none ∧ s'.pc u = some 0 := by
  obtain ⟨n, op, r, at_n, here, executed, rfl⟩ := step_cases run
  refine ⟨n, at_n, (List.getElem?_eq_some_iff.mp here).1, goTo_pc, ?_⟩
  intro u other
  rw [goTo_pc_of_ne other]
  exact exec_pc_cases executed u

theorem done_step (run : step P s t = some s') :
    ∃ op, nextOp P s t = some op ∧ done P s' t = done P s t ++ [op] ∧
      ∀ u, u ≠ t → done P s' u = done P s u := by
  obtain ⟨n, op, r, at_n, here, executed, rfl⟩ := step_cases run
  refine ⟨op, by simp [nextOp, at_n, here], ?_, fun u other => ?_⟩
  · simp only [done, goTo_pc, at_n, Option.getD_some]
    rw [List.take_add_one, here]
    rfl
  · have after := goTo_pc_of_ne (s := r) (n := n + 1) other
    rcases exec_pc_cases executed u with same | ⟨before, first⟩
    · simp only [done, after, same]
    · simp only [done, after, before, first, Option.getD_some, Option.getD_none]

theorem exec_data (run : exec s t op = some s') : s'.data = op.apply s.data := by
  cases op with
  | act f =>
    obtain rfl := Option.some.inj run
    rfl
  | _ =>
    simp only [exec] at run
    split_ifs at run
    obtain rfl := Option.some.inj run
    rfl

/-- A mutex that is not initialised, behind an operation. -/
theorem exec_raw (run : exec s t op = some s') (m : μ) : s'.mutex m = .raw ↔ match op with
    | .init k => s.mutex m = .raw ∧ k ≠ m
    | .destroy k => s.mutex m = .raw ∨ k = m
    | _ => s.mutex m = .raw := by
  cases op with
  | init k | destroy k | lock k | unlock k =>
    simp only [exec] at run
    split_ifs at run with before
    obtain rfl := Option.some.inj run
    by_cases same : m = k
    · subst same
      simp [St.set, before]
    · simp [St.set, same, Ne.symm same]
  | create x | join x =>
    simp only [exec] at run
    split_ifs at run
    obtain rfl := Option.some.inj run
    exact Iff.rfl
  | act f =>
    obtain rfl := Option.some.inj run
    exact Iff.rfl

/-- The mutexes behind an operation: the one that `t` locks is its own, and it holds the others as
before. -/
theorem exec_held (run : exec s t op = some s') (m : μ) (u : θ) :
    s'.mutex m = .held u ↔ match op with
      | .lock k => s.mutex m = .held u ∨ k = m ∧ u = t
      | .unlock k => s.mutex m = .held u ∧ k ≠ m
      | _ => s.mutex m = .held u := by
  cases op with
  | init k | destroy k =>
    simp only [exec] at run
    split_ifs at run with before
    obtain rfl := Option.some.inj run
    by_cases same : m = k
    · subst same
      simp [St.set, before]
    · simp [St.set, same]
  | lock k =>
    simp only [exec] at run
    split_ifs at run with before
    obtain rfl := Option.some.inj run
    by_cases same : m = k
    · subst same
      simp [St.set, before, eq_comm]
    · simp [St.set, same, Ne.symm same]
  | unlock k =>
    simp only [exec] at run
    split_ifs at run with before
    obtain rfl := Option.some.inj run
    by_cases same : m = k
    · subst same
      simp [St.set]
    · simp [St.set, same, Ne.symm same]
  | create x | join x =>
    simp only [exec] at run
    split_ifs at run
    obtain rfl := Option.some.inj run
    exact Iff.rfl
  | act f =>
    obtain rfl := Option.some.inj run
    exact Iff.rfl

theorem Owned.step (owned : Owned P s) (run : step P s t = some s') : Owned P s' := by
  obtain ⟨n, op, r, at_n, here, executed, rfl⟩ := step_cases run
  obtain ⟨op', next, own, others⟩ := done_step run
  obtain rfl : op' = op := by simpa [nextOp, at_n, here] using next.symm
  intro m u
  have before := owned m u
  have held := exec_held executed m u
  show r.mutex m = .held u ↔ _
  by_cases same : u = t
  · subst same
    rw [own, holds_concat, held]
    cases op' <;> simp [before]
  · rw [others u same, held, ← before]
    cases op' with
    | unlock k =>
      -- only the holder unlocks
      simp only [exec] at executed
      split_ifs at executed with mine
      refine and_iff_left_of_imp fun theirs => ?_
      rintro rfl
      exact same (Mutex.held.inj (theirs.symm.trans mine))
    | lock k => simp [same]
    | _ => rfl

end Steps

section Runs

variable {P : Programs θ μ σ} {first : θ} {data : σ} {s : St θ μ σ}

theorem reachable_owned (h : (machine P first data).Reachable s) : Owned P s := by
  apply h.invariant
  · rintro _ rfl m t
    by_cases same : t = first
    · subst same
      simp [done, holds]
    · simp [done, holds, same]
  · exact fun s t s' _ owned _ run => owned.step run

omit [DecidableEq θ] in
/-- No two threads are behind the `lock` and before the `unlock` of one mutex. -/
theorem Owned.exclusive (owned : Owned P s) {m : μ} {t u : θ}
    (ht : holds m (done P s t) = true) (hu : holds m (done P s u) = true) : t = u :=
  Mutex.held.inj (((owned m t).mpr ht).symm.trans ((owned m u).mpr hu))

/-- The operations that are left to execute. -/
def left [Fintype θ] (P : Programs θ μ σ) (s : St θ μ σ) : Nat :=
  ∑ t, ((P t).length - (s.pc t).getD 0)

theorem left_step [Fintype θ] {s' : St θ μ σ} {t : θ} (run : step P s t = some s') :
    left P s' + 1 = left P s := by
  obtain ⟨n, at_n, more, after, others⟩ := step_pc run
  rw [left, left, ← Finset.add_sum_erase _ _ (Finset.mem_univ t),
    ← Finset.add_sum_erase _ _ (Finset.mem_univ t)]
  have rest : ∑ u ∈ Finset.univ.erase t, ((P u).length - (s'.pc u).getD 0) =
      ∑ u ∈ Finset.univ.erase t, ((P u).length - (s.pc u).getD 0) := by
    apply Finset.sum_congr rfl
    intro u hu
    rcases others u (Finset.ne_of_mem_erase hu) with same | ⟨before, created⟩
    · rw [same]
    · rw [before, created]
      rfl
  rw [rest, at_n, after, Option.getD_some, Option.getD_some]
  omega

/-- Every run is finite: it executes each operation once at most. -/
theorem run_length [Fintype θ] {steps : List (St θ μ σ × θ)}
    (h : (machine P first data).Run steps s) :
    steps.length + left P s = ∑ t, (P t).length := by
  induction h with
  | start start =>
    obtain rfl := start
    rw [List.length_nil, Nat.zero_add, left]
    apply Finset.sum_congr rfl
    intro t _
    by_cases same : t = first
    · subst same
      simp
    · simp [same]
  | step _ _ run ih =>
    have less := left_step run
    rw [List.length_append, List.length_singleton]
    omega

end Runs

omit [DecidableEq θ] [DecidableEq μ] in
theorem Waits.not_ready {P : Programs θ μ σ} {s : St θ μ σ} {t u : θ} (waits : Waits P s t u) :
    ¬ Ready P s t := by
  intro ready
  cases waits with
  | lock m next held => simp [Ready, next, held] at ready
  | join next running =>
    simp only [Ready, next, Option.isNone_iff_eq_none] at ready
    exact running ready

end Threads

end JiajiaNetwork.Lib
