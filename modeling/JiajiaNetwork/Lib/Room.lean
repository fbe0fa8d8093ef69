/- A room with a limited number of members, each with a mailbox: what a member says goes into the
   mailbox of every other member, and is delivered from there in order. -/
import Mathlib.Data.Finset.Card
import Mathlib.Logic.Function.Basic
import Mathlib.Tactic.Simps.Basic
import JiajiaNetwork.Lib.Machine

set_option autoImplicit false
set_option relaxedAutoImplicit false

namespace JiajiaNetwork.Lib

universe u v

structure Room (κ : Type u) (α : Type v) where
  members : Finset κ
  mailbox : κ → List α
  /-- what was delivered to a member since it joined -/
  told : κ → List α

namespace Room

inductive Act (κ : Type u) (α : Type v)
  | join (k : κ)
  | leave (k : κ)
  | say (k : κ) (x : α)
  | deliver (k : κ)

variable {κ : Type u} {α : Type v} [DecidableEq κ]

def empty : Room κ α := ⟨∅, fun _ => [], fun _ => []⟩

@[simps]
def join (r : Room κ α) (k : κ) : Room κ α :=
  ⟨insert k r.members, Function.update r.mailbox k [], Function.update r.told k []⟩

@[simps]
def leave (r : Room κ α) (k : κ) : Room κ α :=
  ⟨r.members.erase k, Function.update r.mailbox k [], Function.update r.told k []⟩

@[simps]
def say (r : Room κ α) (k : κ) (x : α) : Room κ α :=
  { r with mailbox := fun l =>
      if l ∈ r.members ∧ l ≠ k then r.mailbox l ++ [x] else r.mailbox l }

/-- The first text in the mailbox of `k`, which holds `rest` behind it, goes to `k`. -/
@[simps]
def deliver (r : Room κ α) (k : κ) (x : α) (rest : List α) : Room κ α :=
  ⟨r.members, Function.update r.mailbox k rest, Function.update r.told k (r.told k ++ [x])⟩

def step (limit : Nat) (r : Room κ α) : Act κ α → Option (Room κ α)
  | .join k => if k ∉ r.members ∧ r.members.card < limit then some (r.join k) else none
  | .leave k => if k ∈ r.members then some (r.leave k) else none
  | .say k x => if k ∈ r.members then some (r.say k x) else none
  | .deliver k =>
    match r.mailbox k with
    | [] => none
    | x :: rest => some (r.deliver k x rest)

def machine (κ : Type u) (α : Type v) [DecidableEq κ] (limit : Nat) :
    Machine (Room κ α) (Act κ α) where
  Start r := r = empty
  Lawful _ _ := True
  step := step limit

omit [DecidableEq κ] in
/-- Two rooms with the same members are equal if each member has the same. -/
theorem ext_at {r r' : Room κ α} (members : r.members = r'.members)
    (mailbox : ∀ k, r.mailbox k = r'.mailbox k) (told : ∀ k, r.told k = r'.told k) : r = r' := by
  obtain ⟨m, box, t⟩ := r
  obtain ⟨m', box', t'⟩ := r'
  obtain rfl : m = m' := members
  obtain rfl : box = box' := funext mailbox
  obtain rfl : t = t' := funext told
  rfl

/-- `r'` comes from `r` by deliveries: nobody has joined, left or said anything. -/
structure Delivers (r r' : Room κ α) : Prop where
  members : r'.members = r.members
  order : ∀ k, r'.told k ++ r'.mailbox k = r.told k ++ r.mailbox k

omit [DecidableEq κ] in
theorem Delivers.refl (r : Room κ α) : Delivers r r := ⟨rfl, fun _ => rfl⟩

omit [DecidableEq κ] in
theorem Delivers.trans {r r' r'' : Room κ α} (h : Delivers r r') (h' : Delivers r' r'') :
    Delivers r r'' :=
  ⟨h'.members.trans h.members, fun k => (h'.order k).trans (h.order k)⟩

theorem deliver_delivers {r : Room κ α} {k : κ} {x : α} {rest : List α}
    (box : r.mailbox k = x :: rest) : Delivers r (r.deliver k x rest) where
  members := rfl
  order l := by
    by_cases same : l = k
    · subst same
      simp [box]
    · simp [same]

end Room

end JiajiaNetwork.Lib
