/- Sessions that run side by side, each by a protocol and by itself: an act is about one session and
   leaves the others alone. -/
import Mathlib.Logic.Function.Basic
import Mathlib.Tactic.Simps.Basic
import JiajiaNetwork.Lib.Machine

set_option autoImplicit false
set_option relaxedAutoImplicit false

namespace JiajiaNetwork.Lib

universe u v w

/-- One session: in which states it may begin, what a word makes of it, and when it may end, with a
last word or without. -/
structure Protocol (σ : Type u) (ω : Type v) where
  Fresh : σ → Prop
  next : σ → ω → Option σ
  Ends : σ → Option ω → Prop

/-- The state to which the words lead. -/
def Protocol.run {σ : Type u} {ω : Type v} (P : Protocol σ ω) (x : σ) (words : List ω) : Option σ :=
  words.foldlM P.next x

/-- Nothing can be said any more, and there is no end. -/
structure Protocol.Mute {σ : Type u} {ω : Type v} (P : Protocol σ ω) (x : σ) : Prop where
  silent : ∀ word, P.next x word = none
  endless : ∀ last, ¬ P.Ends x last

structure Sessions (κ : Type u) (σ : Type v) (ω : Type w) where
  session : κ → Option σ
  /-- what was said in a session since it was opened -/
  said : κ → List ω

namespace Sessions

inductive Act (κ : Type u) (σ : Type v) (ω : Type w)
  | opens (k : κ) (x : σ)
  | speaks (k : κ) (word : ω)
  | ends (k : κ) (last : Option ω)

variable {κ : Type u} {σ : Type v} {ω : Type w} [DecidableEq κ] {P : Protocol σ ω}

def empty : Sessions κ σ ω := ⟨fun _ => none, fun _ => []⟩

@[simps]
def opens (h : Sessions κ σ ω) (k : κ) (x : σ) : Sessions κ σ ω :=
  ⟨Function.update h.session k (some x), Function.update h.said k []⟩

@[simps]
def speaks (h : Sessions κ σ ω) (k : κ) (word : ω) (x : σ) : Sessions κ σ ω :=
  ⟨Function.update h.session k (some x), Function.update h.said k (h.said k ++ [word])⟩

@[simps]
def ends (h : Sessions κ σ ω) (k : κ) : Sessions κ σ ω :=
  ⟨Function.update h.session k none, Function.update h.said k []⟩

def step (P : Protocol σ ω) (h : Sessions κ σ ω) : Act κ σ ω → Option (Sessions κ σ ω)
  | .opens k x => if (h.session k).isSome then none else some (h.opens k x)
  | .speaks k word => (h.session k).bind fun x => (P.next x word).map (h.speaks k word)
  | .ends k _ => (h.session k).map fun _ => h.ends k

def Lawful (P : Protocol σ ω) (h : Sessions κ σ ω) : Act κ σ ω → Prop
  | .opens _ x => P.Fresh x
  | .speaks _ _ => True
  | .ends k last => ∀ x ∈ h.session k, P.Ends x last

def machine (κ : Type u) [DecidableEq κ] (P : Protocol σ ω) :
    Machine (Sessions κ σ ω) (Act κ σ ω) where
  Start h := h = empty
  Lawful := Lawful P
  step := step P

omit [DecidableEq κ] in
theorem ext_at {h h' : Sessions κ σ ω} (session : ∀ k, h.session k = h'.session k)
    (said : ∀ k, h.said k = h'.said k) : h = h' := by
  obtain ⟨x, s⟩ := h
  obtain ⟨x', s'⟩ := h'
  obtain rfl : x = x' := funext session
  obtain rfl : s = s' := funext said
  rfl

/-- Each session is where its own words have led it. -/
def Alone (P : Protocol σ ω) (h : Sessions κ σ ω) : Prop :=
  ∀ k, ∀ x ∈ h.session k, ∃ x₀, P.Fresh x₀ ∧ P.run x₀ (h.said k) = some x

theorem Alone.step {h t : Sessions κ σ ω} {a : Act κ σ ω} (alone : Alone P h)
    (lawful : Lawful P h a) (run : step P h a = some t) : Alone P t := by
  intro k x on
  cases a with
  | opens l y =>
    rw [Sessions.step] at run
    split_ifs at run
    obtain rfl := Option.some.inj run
    by_cases same : k = l
    · subst same
      rw [opens_session, Function.update_self] at on
      obtain rfl := Option.some.inj on
      exact ⟨y, lawful, by rw [opens_said, Function.update_self]; rfl⟩
    · rw [opens_session, Function.update_of_ne same] at on
      rw [opens_said, Function.update_of_ne same]
      exact alone k x on
  | speaks l word =>
    obtain ⟨y, here, moved⟩ := Option.bind_eq_some_iff.mp run
    obtain ⟨z, next, rfl⟩ := Option.map_eq_some_iff.mp moved
    by_cases same : k = l
    · subst same
      rw [speaks_session, Function.update_self] at on
      obtain rfl := Option.some.inj on
      obtain ⟨x₀, fresh, before⟩ := alone k y here
      refine ⟨x₀, fresh, ?_⟩
      rw [speaks_said, Function.update_self, Protocol.run, List.foldlM_append]
      rw [Protocol.run] at before
      rw [before]
      simp [next]
    · rw [speaks_session, Function.update_of_ne same] at on
      rw [speaks_said, Function.update_of_ne same]
      exact alone k x on
  | ends l last =>
    obtain ⟨y, -, rfl⟩ := Option.map_eq_some_iff.mp run
    by_cases same : k = l
    · subst same
      rw [ends_session, Function.update_self] at on
      cases on
    · rw [ends_session, Function.update_of_ne same] at on
      rw [ends_said, Function.update_of_ne same]
      exact alone k x on

theorem reachable_alone {h : Sessions κ σ ω} (reach : (machine κ P).Reachable h) : Alone P h := by
  apply reach.invariant
  · rintro h rfl k x none
    cases none
  · exact fun h a t _ alone lawful run => alone.step lawful run

/-- A mute session stays as it is, whatever the others do. -/
theorem step_mute {h t : Sessions κ σ ω} {a : Act κ σ ω} {k : κ} {x : σ} (mute : P.Mute x)
    (on : h.session k = some x) (lawful : Lawful P h a) (run : step P h a = some t) :
    t.session k = some x := by
  cases a with
  | opens l y =>
    rw [Sessions.step] at run
    split_ifs at run with taken
    obtain rfl := Option.some.inj run
    have apart : k ≠ l := by
      rintro rfl
      simp [on] at taken
    rw [opens_session, Function.update_of_ne apart, on]
  | speaks l word =>
    obtain ⟨y, here, moved⟩ := Option.bind_eq_some_iff.mp run
    obtain ⟨z, next, rfl⟩ := Option.map_eq_some_iff.mp moved
    have apart : k ≠ l := by
      rintro rfl
      obtain rfl := Option.some.inj (on.symm.trans here)
      rw [mute.silent word] at next
      cases next
    rw [speaks_session, Function.update_of_ne apart, on]
  | ends l last =>
    obtain ⟨y, -, rfl⟩ := Option.map_eq_some_iff.mp run
    have apart : k ≠ l := by
      rintro rfl
      exact mute.endless last (lawful x on)
    rw [ends_session, Function.update_of_ne apart, on]

theorem update_ne_none {f : κ → Option σ} {k l : κ} {x y : σ} (on : f k = some x) :
    Function.update f l (some y) k ≠ none := by
  by_cases same : k = l
  · simp [same]
  · simp [Function.update_of_ne same, on]

/-- A session is gone behind its own end only, and it may end there. -/
theorem step_gone {h t : Sessions κ σ ω} {a : Act κ σ ω} {k : κ} {x : σ}
    (on : h.session k = some x) (off : t.session k = none) (lawful : Lawful P h a)
    (run : step P h a = some t) : ∃ last, a = .ends k last ∧ P.Ends x last := by
  cases a with
  | opens l y =>
    rw [Sessions.step] at run
    split_ifs at run
    obtain rfl := Option.some.inj run
    exact absurd off (update_ne_none on)
  | speaks l word =>
    obtain ⟨y, here, moved⟩ := Option.bind_eq_some_iff.mp run
    obtain ⟨z, next, rfl⟩ := Option.map_eq_some_iff.mp moved
    exact absurd off (update_ne_none on)
  | ends l last =>
    obtain ⟨y, -, rfl⟩ := Option.map_eq_some_iff.mp run
    by_cases same : k = l
    · subst same
      exact ⟨last, rfl, lawful x on⟩
    · rw [ends_session, Function.update_of_ne same, on] at off
      cases off

end Sessions

end JiajiaNetwork.Lib
