/- Channels at places that are given out again, such as descriptors. Each channel has a number of
   its own, and a ledger keeps what went into and came out of every number. -/
import Mathlib.Data.List.Flatten
import Mathlib.Logic.Function.Basic
import JiajiaNetwork.Lib.Channel

set_option autoImplicit false
set_option relaxedAutoImplicit false

namespace JiajiaNetwork.Lib

universe u v

/-- Items that go into the channel of a number, or come out of it. -/
inductive Transfer (α : Type u)
  | sent (number : Nat) (items : List α)
  | read (number : Nat) (items : List α)

namespace Transfer

variable {α : Type u} (c : Nat)

def into : Transfer α → List α
  | .sent number items => if number = c then items else []
  | .read _ _ => []

def outOf : Transfer α → List α
  | .sent _ _ => []
  | .read number items => if number = c then items else []

end Transfer

section Ledger

variable {α : Type u} (c : Nat) (log : List (Transfer α))

def sentOn : List α := log.flatMap (Transfer.into c)

def readOn : List α := log.flatMap (Transfer.outOf c)

variable {c log} {new : List (Transfer α)}

theorem sentOn_append : sentOn c (log ++ new) = sentOn c log ++ sentOn c new :=
  List.flatMap_append

theorem readOn_append : readOn c (log ++ new) = readOn c log ++ readOn c new :=
  List.flatMap_append

/-- Nothing in the list is about the number. -/
def Silent (c : Nat) (new : List (Transfer α)) : Prop := sentOn c new = [] ∧ readOn c new = []

theorem silent_nil : Silent c ([] : List (Transfer α)) := ⟨rfl, rfl⟩

theorem silent_sent {d : Nat} {items : List α} (other : d ≠ c) :
    Silent d [Transfer.sent c items] := by
  simp [Silent, sentOn, readOn, Transfer.into, Transfer.outOf, Ne.symm other]

theorem silent_read {d : Nat} {items : List α} (other : d ≠ c) :
    Silent d [Transfer.read c items] := by
  simp [Silent, sentOn, readOn, Transfer.into, Transfer.outOf, Ne.symm other]

/-- The channels `lines` and the ledger agree: `opened` channels got the numbers below it, each is
at one place at most, and one that is nowhere any more was read to the end. -/
structure Balanced {κ : Type v} (lines : κ → Option (Nat × Channel α)) (opened : Nat)
    (log : List (Transfer α)) : Prop where
  number : ∀ i, ∀ l ∈ lines i, l.1 < opened
  apart : ∀ i j, ∀ l ∈ lines i, ∀ m ∈ lines j, l.1 = m.1 → i = j
  sent : ∀ i, ∀ l ∈ lines i, l.2.sent = sentOn l.1 log
  read : ∀ i, ∀ l ∈ lines i, l.2.read = readOn l.1 log
  closed : ∀ c, (∀ i, ∀ l ∈ lines i, l.1 ≠ c) → readOn c log = sentOn c log
  later : ∀ c, opened ≤ c → Silent c log

end Ledger

namespace Balanced

variable {α : Type u} {κ : Type v} {lines : κ → Option (Nat × Channel α)} {opened c : Nat}
  {log new : List (Transfer α)} {i : κ} {x y : Channel α}

theorem nothing : Balanced (fun _ : κ => none) 0 ([] : List (Transfer α)) where
  number _ _ := nofun
  apart _ _ _ := nofun
  sent _ _ := nofun
  read _ _ := nofun
  closed _ _ := rfl
  later _ _ := silent_nil

/-- What is read is what was sent, up to what is still to be read. -/
theorem readOn_prefix (h : Balanced lines opened log) (c : Nat) :
    readOn c log <+: sentOn c log := by
  by_cases here : ∃ i, ∃ l ∈ lines i, l.1 = c
  · obtain ⟨i, l, hl, rfl⟩ := here
    rw [← h.sent i l hl, ← h.read i l hl]
    exact l.2.order
  · rw [h.closed c fun i l hl same => here ⟨i, l, hl, same⟩]

/-- Transfers of nothing. -/
theorem idle (h : Balanced lines opened log) (silent : ∀ d, Silent d new) :
    Balanced lines opened (log ++ new) := by
  have sent : ∀ d, sentOn d (log ++ new) = sentOn d log := fun d => by
    rw [sentOn_append, (silent d).1, List.append_nil]
  have read : ∀ d, readOn d (log ++ new) = readOn d log := fun d => by
    rw [readOn_append, (silent d).2, List.append_nil]
  refine ⟨h.number, h.apart, ?_, ?_, ?_, ?_⟩
  · simpa only [sent] using h.sent
  · simpa only [read] using h.read
  · simpa only [sent, read] using h.closed
  · simpa only [Silent, sent, read] using h.later

variable [DecidableEq κ]

theorem mem_update {l : Nat × Channel α} {j : κ} {m : Option (Nat × Channel α)}
    (hl : l ∈ Function.update lines i m j) : (j = i ∧ m = some l) ∨ (j ≠ i ∧ l ∈ lines j) := by
  by_cases same : j = i
  · subst same
    rw [Function.update_self] at hl
    exact .inl ⟨rfl, hl⟩
  · rw [Function.update_of_ne same] at hl
    exact .inr ⟨same, hl⟩

/-- Transfers on one channel. -/
theorem transfer (h : Balanced lines opened log) (here : lines i = some (c, x))
    (others : ∀ d, d ≠ c → Silent d new) (sent : y.sent = x.sent ++ sentOn c new)
    (read : y.read = x.read ++ readOn c new) :
    Balanced (Function.update lines i (some (c, y))) opened (log ++ new) where
  number j l hl := by
    rcases mem_update hl with ⟨rfl, same⟩ | ⟨-, old⟩
    · obtain rfl := Option.some.inj same
      exact h.number j (c, x) here
    · exact h.number j l old
  apart j k l hl m hm same := by
    rcases mem_update hl with ⟨rfl, first⟩ | ⟨-, first⟩
    · obtain rfl := Option.some.inj first
      rcases mem_update hm with ⟨rfl, -⟩ | ⟨-, second⟩
      · rfl
      · exact h.apart j k (c, x) here m second same
    · rcases mem_update hm with ⟨rfl, second⟩ | ⟨-, second⟩
      · obtain rfl := Option.some.inj second
        exact h.apart j k l first (c, x) here same
      · exact h.apart j k l first m second same
  sent j l hl := by
    rw [sentOn_append]
    rcases mem_update hl with ⟨rfl, same⟩ | ⟨other, old⟩
    · obtain rfl := Option.some.inj same
      rw [sent, h.sent j (c, x) here]
    · have apart : l.1 ≠ c := fun same => other (h.apart j i l old (c, x) here same)
      rw [(others l.1 apart).1, List.append_nil]
      exact h.sent j l old
  read j l hl := by
    rw [readOn_append]
    rcases mem_update hl with ⟨rfl, same⟩ | ⟨other, old⟩
    · obtain rfl := Option.some.inj same
      rw [read, h.read j (c, x) here]
    · have apart : l.1 ≠ c := fun same => other (h.apart j i l old (c, x) here same)
      rw [(others l.1 apart).2, List.append_nil]
      exact h.read j l old
  closed d nowhere := by
    have apart : d ≠ c := by
      rintro rfl
      exact nowhere i (d, y) (by simp) rfl
    have before : ∀ j, ∀ l ∈ lines j, l.1 ≠ d := by
      intro j l hl
      by_cases same : j = i
      · subst same
        obtain rfl := Option.some.inj (here.symm.trans hl)
        exact Ne.symm apart
      · exact nowhere j l (by rwa [Function.update_of_ne same])
    rw [sentOn_append, readOn_append, (others d apart).1, (others d apart).2,
      h.closed d before]
  later d above := by
    have apart : d ≠ c := by
      rintro rfl
      exact absurd (h.number i (d, x) here) (Nat.not_lt.mpr above)
    rw [Silent, sentOn_append, readOn_append, (h.later d above).1, (h.later d above).2,
      (others d apart).1, (others d apart).2]
    exact ⟨rfl, rfl⟩

theorem send (h : Balanced lines opened log) (here : lines i = some (c, x)) (items : List α) :
    Balanced (Function.update lines i (some (c, x.send items))) opened
      (log ++ [.sent c items]) := by
  apply h.transfer here fun d other => silent_sent other
  · simp [sentOn, Transfer.into]
  · simp [readOn, Transfer.outOf]

theorem consume (h : Balanced lines opened log) (here : lines i = some (c, x)) {items : List α}
    (yields : x.Yields items) :
    Balanced (Function.update lines i (some (c, x.consume items.length))) opened
      (log ++ [.read c items]) := by
  apply h.transfer here fun d other => silent_read other
  · simp [sentOn, Transfer.into]
  · rw [yields.read]
    simp [readOn, Transfer.outOf]

theorem finish (h : Balanced lines opened log) (here : lines i = some (c, x)) :
    Balanced (Function.update lines i (some (c, x.finish))) opened log := by
  rw [← List.append_nil log]
  apply h.transfer here fun d _ => silent_nil
  · exact (List.append_nil _).symm
  · exact (List.append_nil _).symm

/-- A new channel gets the next number. -/
theorem opens (h : Balanced lines opened log) (free : lines i = none) :
    Balanced (Function.update lines i (some (opened, Channel.empty))) (opened + 1) log where
  number j l hl := by
    rcases mem_update hl with ⟨-, same⟩ | ⟨-, old⟩
    · obtain rfl := Option.some.inj same
      exact Nat.lt_succ_self opened
    · exact Nat.lt_succ_of_lt (h.number j l old)
  apart j k l hl m hm same := by
    rcases mem_update hl with ⟨rfl, first⟩ | ⟨-, first⟩
    · rcases mem_update hm with ⟨rfl, -⟩ | ⟨-, second⟩
      · rfl
      · obtain rfl := Option.some.inj first
        exact absurd (h.number k m second) (same ▸ lt_irrefl _)
    · rcases mem_update hm with ⟨rfl, second⟩ | ⟨-, second⟩
      · obtain rfl := Option.some.inj second
        exact absurd (h.number j l first) (same ▸ lt_irrefl _)
      · exact h.apart j k l first m second same
  sent j l hl := by
    rcases mem_update hl with ⟨-, same⟩ | ⟨-, old⟩
    · obtain rfl := Option.some.inj same
      exact (h.later opened le_rfl).1.symm
    · exact h.sent j l old
  read j l hl := by
    rcases mem_update hl with ⟨-, same⟩ | ⟨-, old⟩
    · obtain rfl := Option.some.inj same
      exact (h.later opened le_rfl).2.symm
    · exact h.read j l old
  closed d nowhere := by
    apply h.closed d
    intro j l hl
    have other : j ≠ i := by
      rintro rfl
      rw [free] at hl
      cases hl
    exact nowhere j l (by rwa [Function.update_of_ne other])
  later d above := h.later d (Nat.le_of_succ_le above)

/-- A channel that was read to the end goes. -/
theorem closes (h : Balanced lines opened log) (here : lines i = some (c, x))
    (spent : x.unread = []) : Balanced (Function.update lines i none) opened log where
  number j l hl := by
    rcases mem_update hl with ⟨-, same⟩ | ⟨-, old⟩
    · cases same
    · exact h.number j l old
  apart j k l hl m hm same := by
    rcases mem_update hl with ⟨-, first⟩ | ⟨-, first⟩
    · cases first
    · rcases mem_update hm with ⟨-, second⟩ | ⟨-, second⟩
      · cases second
      · exact h.apart j k l first m second same
  sent j l hl := by
    rcases mem_update hl with ⟨-, same⟩ | ⟨-, old⟩
    · cases same
    · exact h.sent j l old
  read j l hl := by
    rcases mem_update hl with ⟨-, same⟩ | ⟨-, old⟩
    · cases same
    · exact h.read j l old
  closed d nowhere := by
    by_cases same : d = c
    · subst same
      rw [← h.sent i (d, x) here, ← h.read i (d, x) here, ← x.read_append_unread, spent,
        List.append_nil]
    · apply h.closed d
      intro j l hl
      by_cases there : j = i
      · subst there
        obtain rfl := Option.some.inj (here.symm.trans hl)
        exact Ne.symm same
      · exact nowhere j l (by rwa [Function.update_of_ne there])
  later := h.later

end Balanced

end JiajiaNetwork.Lib
