/- Resources opened and closed in a history, by key: which are open, whether every close hits
   an open one, and the part of the history that belongs to the resource now behind a key. -/
import Mathlib.Data.Finset.Insert
import Mathlib.Data.Finset.Erase
import JiajiaNetwork.Lib.History

set_option autoImplicit false
set_option relaxedAutoImplicit false

namespace JiajiaNetwork.Lib

universe u v

/-- What an event does to the resource behind a key. -/
inductive Life (κ : Type v)
  | opens (x : κ)
  | closes (x : κ)
  | neither
  deriving DecidableEq

section Lifetime

variable {ε : Type u} {κ : Type v} [DecidableEq κ] (life : ε → Life κ)

def liveStep (live : Finset κ) (e : ε) : Finset κ :=
  match life e with
  | .opens x => insert x live
  | .closes x => live.erase x
  | .neither => live

/-- The keys opened and not closed since. -/
def live (log : List ε) : Finset κ := log.foldl (liveStep life) ∅

/-- A close hits a key that is open. -/
def ClosesLive (pre : List ε) (e : ε) : Prop := ∀ x, life e = .closes x → x ∈ live life pre

/-- The event neither opens nor closes `x`. -/
structure Apart (x : κ) (e : ε) : Prop where
  opens : life e ≠ .opens x
  closes : life e ≠ .closes x

/-- The events since `x` was opened last, when it is open. -/
def tenure (x : κ) (log : List ε) : Option (List ε) :=
  session (fun e => life e = .opens x) (fun e => life e = .closes x) log

variable {life}

@[simp] theorem live_nil : live life [] = ∅ := rfl

theorem live_append (log new : List ε) :
    live life (log ++ new) = new.foldl (liveStep life) (live life log) :=
  List.foldl_append

theorem live_opens {x : κ} {log : List ε} {e : ε} (h : life e = .opens x) :
    live life (log ++ [e]) = insert x (live life log) := by
  simp [live_append, liveStep, h]

theorem live_closes {x : κ} {log : List ε} {e : ε} (h : life e = .closes x) :
    live life (log ++ [e]) = (live life log).erase x := by
  simp [live_append, liveStep, h]

/-- Events about other keys leave `x` open or closed. -/
theorem mem_live_append {x : κ} {log new : List ε} (apart : ∀ e ∈ new, Apart life x e) :
    x ∈ live life (log ++ new) ↔ x ∈ live life log := by
  induction new generalizing log with
  | nil => rw [List.append_nil]
  | cons e new ih =>
    have first : x ∈ live life (log ++ [e]) ↔ x ∈ live life log := by
      obtain ⟨opens, closes⟩ := apart e (by simp)
      rw [live_append, List.foldl_cons, List.foldl_nil, liveStep]
      cases kind : life e with
      | opens y =>
        have other : x ≠ y := fun same => opens (same ▸ kind)
        simp [other]
      | closes y =>
        have other : x ≠ y := fun same => closes (same ▸ kind)
        simp [other]
      | neither => exact Iff.rfl
    rw [List.append_cons, ih fun y hy => apart y (List.mem_cons_of_mem e hy), first]

omit [DecidableEq κ] in
theorem apart_of_neither {x : κ} {e : ε} (h : life e = .neither) : Apart life x e :=
  ⟨by simp [h], by simp [h]⟩

omit [DecidableEq κ] in
theorem apart_of_all_neither {x : κ} {new : List ε} (quiet : ∀ e ∈ new, life e = .neither) :
    ∀ e ∈ new, Apart life x e := fun e he => apart_of_neither (quiet e he)

theorem live_quiet {log new : List ε} (quiet : ∀ e ∈ new, life e = .neither) :
    live life (log ++ new) = live life log := by
  ext x
  exact mem_live_append (apart_of_all_neither quiet)

theorem closesLive_quiet {log new : List ε} (old : Always (ClosesLive life) log)
    (quiet : ∀ e ∈ new, life e = .neither) : Always (ClosesLive life) (log ++ new) := by
  refine always_append.mpr ⟨old, always_of_forall_mem ?_⟩
  intro e he pre x closes
  simp [quiet e he] at closes

theorem tenure_isSome {x : κ} {log : List ε} : (tenure life x log).isSome ↔ x ∈ live life log := by
  induction log using List.reverseRecOn with
  | nil => simp [tenure, session]
  | append_singleton log e ih =>
    rw [tenure, session_concat, live_append, List.foldl_cons, List.foldl_nil, sessionStep,
      ← tenure, liveStep]
    cases kind : life e with
    | opens y =>
      by_cases same : y = x
      · simp [same]
      · simp [same, Ne.symm same, ih]
    | closes y =>
      by_cases same : y = x
      · simp [same]
      · simp [same, Ne.symm same, ih]
    | neither => simp [ih]

/-- Events about other keys extend the tenure. -/
theorem tenure_append_map {x : κ} {log new : List ε} (apart : ∀ e ∈ new, Apart life x e) :
    tenure life x (log ++ new) = (tenure life x log).map (· ++ new) := by
  rw [tenure, session_append fun e he => ⟨by simp [(apart e he).opens],
    by simp [(apart e he).closes]⟩, ← tenure]

theorem tenure_append {x : κ} {log new seg : List ε} (h : tenure life x log = some seg)
    (apart : ∀ e ∈ new, Apart life x e) : tenure life x (log ++ new) = some (seg ++ new) := by
  rw [tenure_append_map apart, h]
  rfl

theorem tenure_opens {x : κ} {log : List ε} {e : ε} (h : life e = .opens x) :
    tenure life x (log ++ [e]) = some [] :=
  session_open (by simp [h])

/-- What is open stays open as long as it is not closed. -/
theorem mem_live_of_unclosed {x : κ} {log new : List ε} (h : x ∈ live life log)
    (unclosed : ∀ e ∈ new, life e ≠ .closes x) : x ∈ live life (log ++ new) := by
  induction new using List.reverseRecOn with
  | nil => rwa [List.append_nil]
  | append_singleton new e ih =>
    have before := ih fun y hy => unclosed y (List.mem_append_left _ hy)
    rw [← List.append_assoc, live_append, List.foldl_cons, List.foldl_nil, liveStep]
    cases kind : life e with
    | opens y => exact Finset.mem_insert_of_mem before
    | closes y =>
      have other : x ≠ y := by
        rintro rfl
        exact unclosed e (List.mem_append_right _ List.mem_cons_self) kind
      exact Finset.mem_erase.mpr ⟨other, before⟩
    | neither => exact before

end Lifetime

/-! The other way round: the keys that are closed, and events that use none of them. -/

/-- Opening and closing exchanged. -/
def Life.dual {κ : Type v} : Life κ → Life κ
  | .opens x => .closes x
  | .closes x => .opens x
  | .neither => .neither

section Shut

variable {ε : Type u} {κ : Type v} [DecidableEq κ] (life : ε → Life κ) (on : ε → Option κ)

/-- The keys closed and not opened since. -/
def shut (log : List ε) : Finset κ := live (fun e => (life e).dual) log

/-- The event uses no key that is closed. -/
def UsesOpen (pre : List ε) (e : ε) : Prop := ∀ x ∈ on e, x ∉ shut life pre

variable {life on} {x : κ} {log new : List ε} {e : ε}

theorem usesOpen_iff (uses : on e = some x) : UsesOpen life on log e ↔ x ∉ shut life log := by
  simp [UsesOpen, uses]

theorem usesOpen_of_none (uses : on e = none) : UsesOpen life on log e := by
  simp [UsesOpen, uses]

theorem shut_closes (h : life e = .closes x) :
    shut life (log ++ [e]) = insert x (shut life log) :=
  live_opens (by rw [h, Life.dual])

theorem shut_opens (h : life e = .opens x) :
    shut life (log ++ [e]) = (shut life log).erase x :=
  live_closes (by rw [h, Life.dual])

theorem shut_quiet (quiet : ∀ e ∈ new, life e = .neither) :
    shut life (log ++ new) = shut life log :=
  live_quiet fun e he => by rw [quiet e he, Life.dual]

/-- What is closed stays closed as long as it is not opened. -/
theorem mem_shut_of_unopened (h : x ∈ shut life log) (unopened : ∀ e ∈ new, life e ≠ .opens x) :
    x ∈ shut life (log ++ new) := by
  refine mem_live_of_unclosed h fun e he closes => unopened e he ?_
  cases kind : life e with
  | opens y =>
    rw [kind, Life.dual] at closes
    exact congrArg Life.opens (Life.closes.inj closes)
  | closes y =>
    rw [kind, Life.dual] at closes
    cases closes
  | neither =>
    rw [kind, Life.dual] at closes
    cases closes

/-- Between the close of a key and its next use it was opened. -/
theorem opened_between {pre mid post : List ε} {c : ε}
    (all : Always (UsesOpen life on) (pre ++ c :: mid ++ e :: post)) (closes : life c = .closes x)
    (uses : on e = some x) : ∃ o ∈ mid, life o = .opens x := by
  by_contra none
  push Not at none
  refine all (pre ++ c :: mid) e post (by simp) x uses ?_
  rw [List.append_cons]
  apply mem_shut_of_unopened _ none
  rw [shut_closes closes]
  exact Finset.mem_insert_self _ _

end Shut

end JiajiaNetwork.Lib
