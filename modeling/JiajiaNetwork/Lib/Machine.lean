/- Deterministic machines driven by an environment: runs, invariants, guarded runs and
   stuttering simulations. A step that returns `none` is a fault of the program. -/
import Mathlib.Data.List.Basic
import Mathlib.Tactic.Common

set_option autoImplicit false
set_option relaxedAutoImplicit false

namespace JiajiaNetwork.Lib

universe u v w x

/-- A program with state `σ` answered by an environment through inputs `ι`.
`Lawful` is what the environment promises; it never restricts the program. -/
structure Machine (σ : Type u) (ι : Type v) where
  Start : σ → Prop
  Lawful : σ → ι → Prop
  step : σ → ι → Option σ

namespace Machine

variable {σ : Type u} {ι : Type v} {τ : Type w} {κ : Type x}

/-- A finite run, with every step's state and input retained in order. -/
inductive Run (M : Machine σ ι) : List (σ × ι) → σ → Prop
  | start {s : σ} : M.Start s → Run M [] s
  | step {steps : List (σ × ι)} {s t : σ} {a : ι} :
      Run M steps s → M.Lawful s a → M.step s a = some t → Run M (steps ++ [(s, a)]) t

def Reachable (M : Machine σ ι) (s : σ) : Prop := ∃ steps, M.Run steps s

variable {M : Machine σ ι}

theorem Run.reachable {steps : List (σ × ι)} {s : σ} (h : M.Run steps s) : M.Reachable s :=
  ⟨steps, h⟩

theorem Reachable.start {s : σ} (h : M.Start s) : M.Reachable s := ⟨[], .start h⟩

theorem Reachable.step {s t : σ} {a : ι} (h : M.Reachable s) (lawful : M.Lawful s a)
    (run : M.step s a = some t) : M.Reachable t := by
  obtain ⟨steps, hs⟩ := h
  exact ⟨_, hs.step lawful run⟩

/-- The invariant rule. A step may use that its source is reachable, hence every
invariant proved before. -/
theorem Reachable.invariant {I : σ → Prop} {s : σ} (h : M.Reachable s)
    (start : ∀ s, M.Start s → I s)
    (step : ∀ s a t, M.Reachable s → I s → M.Lawful s a → M.step s a = some t → I t) : I s := by
  obtain ⟨steps, hs⟩ := h
  induction hs with
  | start h0 => exact start _ h0
  | step hr lawful run ih => exact step _ _ _ hr.reachable ih lawful run

/-- The invariant rule with the run so far in view. -/
theorem Run.invariant {I : List (σ × ι) → σ → Prop} {steps : List (σ × ι)} {s : σ}
    (h : M.Run steps s) (start : ∀ s, M.Start s → I [] s)
    (step : ∀ steps s a t, M.Run steps s → I steps s → M.Lawful s a → M.step s a = some t →
      I (steps ++ [(s, a)]) t) : I steps s := by
  induction h with
  | start h0 => exact start _ h0
  | step hr lawful run ih => exact step _ _ _ _ hr ih lawful run

/-- Every step of a run is one that the machine can take. -/
theorem Run.step_of_mem {steps : List (σ × ι)} {s : σ} (h : M.Run steps s) :
    ∀ p ∈ steps, M.Reachable p.1 ∧ M.Lawful p.1 p.2 ∧ ∃ t, M.step p.1 p.2 = some t := by
  induction h with
  | start h0 => simp
  | step hr lawful run ih =>
    intro p hp
    rcases List.mem_append.mp hp with old | last
    · exact ih p old
    · obtain rfl := List.mem_singleton.mp last
      exact ⟨hr.reachable, lawful, _, run⟩

/-- A run up to any of its steps is a run. -/
theorem Run.split {steps later : List (σ × ι)} {p : σ × ι} {s : σ}
    (h : M.Run (steps ++ p :: later) s) :
    M.Run steps p.1 ∧ M.Lawful p.1 p.2 ∧ ∃ t, M.step p.1 p.2 = some t := by
  generalize whole : steps ++ p :: later = all at h
  induction h generalizing later with
  | start h0 => simp at whole
  | step hr lawful run ih =>
    rcases List.eq_nil_or_concat later with rfl | ⟨before, last, rfl⟩
    · obtain ⟨rfl, same⟩ := List.append_inj' whole rfl
      obtain rfl := List.singleton_inj.mp same
      exact ⟨hr, lawful, _, run⟩
    · rw [List.concat_eq_append, ← List.cons_append, ← List.append_assoc] at whole
      exact ih (List.append_inj' whole rfl).1

/-- The machine from the state `s` on. -/
def after (M : Machine σ ι) (s : σ) : Machine σ ι where
  Start t := t = s
  Lawful := M.Lawful
  step := M.step

/-- A run goes on from where another one ended. -/
theorem Run.append {steps later : List (σ × ι)} {s t : σ} (h : M.Run steps s)
    (more : (M.after s).Run later t) : M.Run (steps ++ later) t := by
  induction more with
  | start same =>
    obtain rfl := same
    rw [List.append_nil]
    exact h
  | step _ lawful run ih =>
    rw [← List.append_assoc]
    exact ih.step lawful run

/-- When a step keeps `P` exactly if it meets `C`, and nothing restores `P`, it holds at the
end of the runs all of whose steps meet `C` and of no other. -/
theorem Run.kept_iff {P : σ → Prop} {C : σ → ι → Prop} {steps : List (σ × ι)} {s : σ}
    (h : M.Run steps s) (start : ∀ s, M.Start s → P s)
    (step : ∀ s a t, M.Reachable s → M.Lawful s a → M.step s a = some t → (P t ↔ P s ∧ C s a)) :
    P s ↔ ∀ p ∈ steps, C p.1 p.2 := by
  induction h with
  | start h0 => exact iff_of_true (start _ h0) (by simp)
  | step hr lawful run ih =>
    rw [step _ _ _ hr.reachable lawful run, ih]
    simp [or_imp, forall_and]

/-- `P` holds in every state that the run passes and in its last one. -/
def Throughout (P : List (σ × ι) → σ → Prop) (steps : List (σ × ι)) (s : σ) : Prop :=
  (∀ pre p post, steps = pre ++ p :: post → P pre p.1) ∧ P steps s

theorem throughout_concat {P : List (σ × ι) → σ → Prop} {steps : List (σ × ι)} {s t : σ} {a : ι} :
    Throughout P (steps ++ [(s, a)]) t ↔ Throughout P steps s ∧ P (steps ++ [(s, a)]) t := by
  constructor
  · rintro ⟨passed, last⟩
    refine ⟨⟨fun pre p post split => ?_, passed steps (s, a) [] rfl⟩, last⟩
    exact passed pre p (post ++ [(s, a)]) (by simp [split])
  · rintro ⟨⟨passed, before⟩, last⟩
    refine ⟨fun pre p post split => ?_, last⟩
    rcases List.eq_nil_or_concat post with rfl | ⟨front, x, rfl⟩
    · obtain ⟨rfl, same⟩ := List.append_inj' split rfl
      obtain rfl := List.singleton_inj.mp same
      exact before
    · rw [List.concat_eq_append, ← List.cons_append, ← List.append_assoc] at split
      exact passed pre p front (List.append_inj' split rfl).1

/-- An invariant `J` that implies `P` is kept by the steps that meet `C`, and any other step
ends where `P` fails: `P` holds throughout a run exactly when all its steps meet `C`. -/
theorem Run.throughout_iff {P J : List (σ × ι) → σ → Prop} {C : σ → ι → Prop}
    {steps : List (σ × ι)} {s : σ} (h : M.Run steps s) (start : ∀ s, M.Start s → J [] s)
    (holds : ∀ steps s, J steps s → P steps s)
    (step : ∀ steps s a t, M.Run steps s → J steps s → M.Lawful s a → M.step s a = some t →
      (C s a → J (steps ++ [(s, a)]) t) ∧ (P (steps ++ [(s, a)]) t → C s a)) :
    Throughout P steps s ↔ ∀ p ∈ steps, C p.1 p.2 := by
  suffices both : (Throughout P steps s → ∀ p ∈ steps, C p.1 p.2) ∧
      ((∀ p ∈ steps, C p.1 p.2) → J steps s ∧ Throughout P steps s) from
    ⟨both.1, fun met => (both.2 met).2⟩
  induction h with
  | start h0 =>
    have first := start _ h0
    exact ⟨by simp, fun _ => ⟨first, fun _ _ _ split => by simp at split, holds _ _ first⟩⟩
  | step hr lawful run ih =>
    constructor
    · intro all p hp
      obtain ⟨before, last⟩ := throughout_concat.mp all
      have met := ih.1 before
      rcases List.mem_append.mp hp with old | new
      · exact met p old
      · obtain rfl := List.mem_singleton.mp new
        exact (step _ _ _ _ hr (ih.2 met).1 lawful run).2 last
    · intro met
      obtain ⟨invariant, before⟩ := ih.2 fun p hp => met p (List.mem_append_left _ hp)
      have next := (step _ _ _ _ hr invariant lawful run).1
        (met _ (List.mem_append_right _ (List.mem_singleton_self _)))
      exact ⟨next, throughout_concat.mpr ⟨before, holds _ _ next⟩⟩

/-- The same program among the environments whose every answer also meets `C`. -/
def guard (M : Machine σ ι) (C : σ → ι → Prop) : Machine σ ι where
  Start := M.Start
  Lawful s a := M.Lawful s a ∧ C s a
  step := M.step

/-- A guarded run is a run whose every step meets the guard. -/
theorem run_guard_iff {C : σ → ι → Prop} {steps : List (σ × ι)} {s : σ} :
    (M.guard C).Run steps s ↔ M.Run steps s ∧ ∀ p ∈ steps, C p.1 p.2 := by
  constructor
  · intro h
    induction h with
    | start h0 => exact ⟨.start h0, by simp⟩
    | step _ lawful run ih =>
      refine ⟨ih.1.step lawful.1 run, ?_⟩
      intro p hp
      rcases List.mem_append.mp hp with old | last
      · exact ih.2 p old
      · obtain rfl := List.mem_singleton.mp last
        exact lawful.2
  · rintro ⟨h, met⟩
    induction h with
    | start h0 => exact .start h0
    | step _ lawful run ih =>
      refine (ih fun p hp => met p (List.mem_append_left _ hp)).step ⟨lawful, ?_⟩ run
      exact met _ (List.mem_append_right _ (List.mem_singleton_self _))

theorem Reachable.of_guard {C : σ → ι → Prop} {s : σ} (h : (M.guard C).Reachable s) :
    M.Reachable s := by
  obtain ⟨steps, hs⟩ := h
  exact ⟨steps, (run_guard_iff.mp hs).1⟩

/-- A guard that every answer meets guards nothing. -/
theorem Reachable.guard {C : σ → ι → Prop} {s : σ} (h : M.Reachable s) (met : ∀ s a, C s a) :
    (M.guard C).Reachable s := by
  obtain ⟨steps, hs⟩ := h
  exact ⟨steps, run_guard_iff.mpr ⟨hs, fun p _ => met p.1 p.2⟩⟩

/-- A guard that implies another along the runs it admits admits fewer runs. -/
theorem Reachable.guard_mono {C D : σ → ι → Prop} {s : σ} (h : (M.guard C).Reachable s)
    (imp : ∀ s a, (M.guard C).Reachable s → M.Lawful s a → C s a → D s a) :
    (M.guard D).Reachable s := by
  obtain ⟨steps, hs⟩ := h
  induction hs with
  | start h0 => exact .start h0
  | step hr lawful run ih =>
    exact ih.step ⟨lawful.1, imp _ _ hr.reachable lawful.1 lawful.2⟩ run

/-- `f` maps every step of `M` to a step of `N` or to a stutter. -/
structure Simulates (M : Machine σ ι) (N : Machine τ κ) (f : σ → τ) : Prop where
  start : ∀ s, M.Start s → N.Start (f s)
  step : ∀ s a t, M.Reachable s → M.Lawful s a → M.step s a = some t →
    f t = f s ∨ ∃ b, N.Lawful (f s) b ∧ N.step (f s) b = some (f t)

theorem Simulates.reachable {N : Machine τ κ} {f : σ → τ} (sim : Simulates M N f) {s : σ}
    (h : M.Reachable s) : N.Reachable (f s) := by
  refine h.invariant (I := fun s => N.Reachable (f s))
    (fun s h0 => Reachable.start (sim.start s h0)) ?_
  intro s a t hr ih lawful run
  rcases sim.step s a t hr lawful run with same | ⟨b, hb, next⟩
  · exact same ▸ ih
  · exact ih.step hb next

/-- Feed a list of inputs, checking the environment's promise at each step. -/
def replay (M : Machine σ ι) [∀ s a, Decidable (M.Lawful s a)] : σ → List ι → Option σ
  | s, [] => some s
  | s, a :: rest => if M.Lawful s a then (M.step s a).bind (replay M · rest) else none

theorem replay_append [∀ s a, Decidable (M.Lawful s a)] (inputs later : List ι) : ∀ s : σ,
    M.replay s (inputs ++ later) = (M.replay s inputs).bind (M.replay · later) := by
  induction inputs with
  | nil => exact fun s => rfl
  | cons a rest ih =>
    intro s
    rw [List.cons_append, Machine.replay, Machine.replay]
    split_ifs with lawful
    · rw [Option.bind_assoc]
      congr 1
      ext1 t
      exact ih t
    · rfl

theorem Reachable.replay [∀ s a, Decidable (M.Lawful s a)] {inputs : List ι} :
    ∀ {s t : σ}, M.Reachable s → M.replay s inputs = some t → M.Reachable t := by
  induction inputs with
  | nil =>
    intro s t h run
    obtain rfl := Option.some.inj run
    exact h
  | cons a rest ih =>
    intro s t h run
    rw [Machine.replay] at run
    split_ifs at run with lawful
    obtain ⟨m, first, later⟩ := Option.bind_eq_some_iff.mp run
    exact ih (h.step lawful first) later

theorem Reachable.replay_getD [∀ s a, Decidable (M.Lawful s a)] {s : σ} (h : M.Reachable s)
    (inputs : List ι) : M.Reachable ((M.replay s inputs).getD s) := by
  cases run : M.replay s inputs with
  | none => exact h
  | some t => exact h.replay run

/-- A replay whose last state passes the test `p` ends in a reachable state that passes it. -/
theorem Reachable.of_replay [∀ s a, Decidable (M.Lawful s a)] {s : σ} {p : σ → Bool}
    (inputs : List ι) (h : M.Reachable s) (test : (M.replay s inputs).any p = true) :
    ∃ t, M.Reachable t ∧ p t = true := by
  cases run : M.replay s inputs with
  | none => simp [run] at test
  | some t => exact ⟨t, h.replay run, by simpa [run] using test⟩

end Machine
end JiajiaNetwork.Lib
