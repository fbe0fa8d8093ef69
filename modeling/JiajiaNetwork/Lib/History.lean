/- Histories: lists of events in the order in which they happened. `Always` states what each
   event finds behind it; `session` is the part of a history since the last opening event. -/
import Mathlib.Data.List.Induction
import Mathlib.Tactic.Common

set_option autoImplicit false
set_option relaxedAutoImplicit false

namespace JiajiaNetwork.Lib

universe u v

variable {ε : Type u}

/-- Every event `e` of the history stands in the relation `Q` to the events before it. -/
def Always (Q : List ε → ε → Prop) (log : List ε) : Prop :=
  ∀ pre e post, log = pre ++ e :: post → Q pre e

@[simp] theorem always_nil (Q : List ε → ε → Prop) : Always Q [] := by
  intro pre e post h
  simp at h

theorem always_append {Q : List ε → ε → Prop} {log new : List ε} :
    Always Q (log ++ new) ↔ Always Q log ∧ Always (fun pre e => Q (log ++ pre) e) new := by
  constructor
  · intro h
    refine ⟨fun pre e post split => h pre e (post ++ new) (by simp [split]), ?_⟩
    intro pre e post split
    exact h (log ++ pre) e post (by simp [split])
  · rintro ⟨old, recent⟩ pre e post split
    rcases List.append_eq_append_iff.mp split with ⟨rest, rfl, hnew⟩ | ⟨rest, hlog, hnew⟩
    · exact recent rest e post hnew
    · cases rest with
      | nil =>
        obtain rfl : log = pre := by simpa using hlog
        simpa using recent [] e post (by simpa using hnew.symm)
      | cons x rest =>
        obtain ⟨rfl, -⟩ := List.cons.inj hnew
        exact old pre e rest hlog

theorem always_cons {Q : List ε → ε → Prop} {e : ε} {new : List ε} :
    Always Q (e :: new) ↔ Q [] e ∧ Always (fun pre x => Q (e :: pre) x) new := by
  constructor
  · intro h
    refine ⟨h [] e new rfl, fun pre x post split => h (e :: pre) x post (by simp [split])⟩
  · rintro ⟨first, later⟩ pre x post split
    cases pre with
    | nil =>
      obtain ⟨rfl, -⟩ := List.cons.inj split
      exact first
    | cons y pre =>
      obtain ⟨rfl, rest⟩ := List.cons.inj split
      exact later pre x post rest

theorem always_concat {Q : List ε → ε → Prop} {log : List ε} {e : ε} :
    Always Q (log ++ [e]) ↔ Always Q log ∧ Q log e := by
  rw [always_append, always_cons, List.append_nil]
  exact and_congr_right fun _ => and_iff_left (always_nil _)

/-- A relation that only looks at events of a kind absent from `new` holds of `new`. -/
theorem always_of_forall_mem {Q : List ε → ε → Prop} {new : List ε}
    (h : ∀ e ∈ new, ∀ pre, Q pre e) : Always Q new := by
  rintro pre e post rfl
  exact h e (by simp) pre

/-- What holds along the events of the kind `p` holds of each of them in the whole history,
with the rest of the history left out. -/
theorem always_filter {p : ε → Bool} {Q : List ε → ε → Prop} {log : List ε} :
    Always Q (log.filter p) ↔ Always (fun pre e => p e = true → Q (pre.filter p) e) log := by
  induction log generalizing Q with
  | nil => simp
  | cons e log ih =>
    rw [always_cons]
    cases kind : p e with
    | true =>
      rw [List.filter_cons_of_pos kind, always_cons, ih]
      simp [List.filter_cons_of_pos kind]
    | false =>
      rw [List.filter_cons_of_neg (by simp [kind]), ih]
      simp [kind]

/-- The last event of the history of the kind `p`. -/
def lastOf (p : ε → Bool) (log : List ε) : Option ε := (log.filter p).getLast?

theorem lastOf_append {p : ε → Bool} {log new : List ε} :
    lastOf p (log ++ new) = (lastOf p new).or (lastOf p log) := by
  simp only [lastOf, List.filter_append, List.getLast?_append]

theorem lastOf_eq_none {p : ε → Bool} {log : List ε} (h : ∀ e ∈ log, p e = false) :
    lastOf p log = none := by
  rw [lastOf, List.getLast?_eq_none_iff, List.filter_eq_nil_iff]
  intro e he
  simp [h e he]

/-- When all events of the kind `p` in `new` are the same event, that one is the last. -/
theorem lastOf_eq_some {p : ε → Bool} {log : List ε} {e : ε} (mem : e ∈ log) (kind : p e = true)
    (only : ∀ x ∈ log, p x = true → x = e) : lastOf p log = some e := by
  have nonempty : log.filter p ≠ [] := List.ne_nil_of_mem (List.mem_filter.mpr ⟨mem, kind⟩)
  rw [lastOf, List.getLast?_eq_some_getLast nonempty, Option.some.injEq]
  obtain ⟨hx, hp⟩ := List.mem_filter.mp (List.getLast_mem nonempty)
  exact only _ hx hp

/-- An entry among the first `n` that `f` selects is selected from some first place on. -/
theorem exists_first_select {β : Type v} [DecidableEq β] {f : ε → Option β} {x : β} {n : Nat}
    {log : List ε} (mem : x ∈ (log.filterMap f).take n) : ∃ pre e post, log = pre ++ e :: post ∧
      f e = some x ∧ x ∉ pre.filterMap f ∧ (pre.filterMap f).length < n := by
  induction log generalizing n with
  | nil => simp at mem
  | cons e log ih =>
    cases selected : f e with
    | none =>
      rw [List.filterMap_cons_none selected] at mem
      obtain ⟨pre, e', post, rfl, found, absent, few⟩ := ih mem
      refine ⟨e :: pre, e', post, rfl, found, ?_, ?_⟩
      · rwa [List.filterMap_cons_none selected]
      · rwa [List.filterMap_cons_none selected]
    | some y =>
      rw [List.filterMap_cons_some selected] at mem
      cases n with
      | zero => simp at mem
      | succ n =>
        by_cases same : x = y
        · subst same
          exact ⟨[], e, log, rfl, selected, List.not_mem_nil, Nat.succ_pos n⟩
        · rw [List.take_succ_cons] at mem
          obtain ⟨pre, e', post, rfl, found, absent, few⟩ :=
            ih ((List.mem_cons.mp mem).resolve_left same)
          refine ⟨e :: pre, e', post, rfl, found, ?_, ?_⟩
          · rw [List.filterMap_cons_some selected]
            exact fun here => (List.mem_cons.mp here).elim same absent
          · rw [List.filterMap_cons_some selected, List.length_cons]
            exact Nat.succ_lt_succ few

section Session

variable (opens closes : ε → Bool)

def sessionStep (current : Option (List ε)) (e : ε) : Option (List ε) :=
  if opens e then some [] else if closes e then none else current.map (· ++ [e])

/-- The events since the last opening one, unless a closing one came after it. -/
def session (log : List ε) : Option (List ε) := log.foldl (sessionStep opens closes) none

variable {opens closes}

theorem session_concat {log : List ε} {e : ε} :
    session opens closes (log ++ [e]) = sessionStep opens closes (session opens closes log) e := by
  simp [session]

theorem session_open {log : List ε} {e : ε} (h : opens e = true) :
    session opens closes (log ++ [e]) = some [] := by
  simp [session_concat, sessionStep, h]

/-- Events that neither open nor close extend the session that is on. -/
theorem session_append {log new : List ε}
    (neutral : ∀ e ∈ new, opens e = false ∧ closes e = false) :
    session opens closes (log ++ new) = (session opens closes log).map (· ++ new) := by
  induction new using List.reverseRecOn with
  | nil => simp
  | append_singleton new e ih =>
    obtain ⟨ho, hc⟩ := neutral e (by simp)
    rw [← List.append_assoc, session_concat, ih fun x hx => neutral x (by simp [hx])]
    simp [sessionStep, ho, hc, Option.map_map, Function.comp_def]

end Session

section Alternation

variable {α : Type u}

/-- The list alternates between the two values, starting with the first. -/
def Alternates (a b : α) : List α → Prop
  | [] => True
  | x :: rest => x = a ∧ Alternates b a rest

/-- The value that continues an alternating list. -/
def upNext (a b : α) : List α → α
  | [] => a
  | _ :: rest => upNext b a rest

theorem alternates_concat {a b x : α} {l : List α} :
    Alternates a b (l ++ [x]) ↔ Alternates a b l ∧ x = upNext a b l := by
  induction l generalizing a b with
  | nil => simp [Alternates, upNext]
  | cons y rest ih => simp [Alternates, upNext, ih, and_assoc]

theorem upNext_concat {a b x : α} {l : List α} : upNext a b (l ++ [x]) = upNext b a l := by
  induction l generalizing a b with
  | nil => rfl
  | cons y rest ih => exact ih

/-- What continues a list from either start is one of the two values each. -/
theorem upNext_swap {a b : α} {l : List α} :
    (upNext a b l = a ∧ upNext b a l = b) ∨ (upNext a b l = b ∧ upNext b a l = a) := by
  induction l generalizing a b with
  | nil => exact .inl ⟨rfl, rfl⟩
  | cons y rest ih => exact (ih (a := b) (b := a)).symm

end Alternation

section Since

variable {β : Type v} (mark : ε → Option β)

def sinceStep (current : Option (β × List ε)) (e : ε) : Option (β × List ε) :=
  match mark e with
  | some b => some (b, [])
  | none => current.map fun x => (x.1, x.2 ++ [e])

/-- The value of the last mark in the history and the events since. -/
def since (log : List ε) : Option (β × List ε) := log.foldl (sinceStep mark) none

variable {mark}

theorem since_mark {log : List ε} {e : ε} {b : β} (h : mark e = some b) :
    since mark (log ++ [e]) = some (b, []) := by
  simp [since, sinceStep, h]

theorem since_plain {log : List ε} {e : ε} (h : mark e = none) :
    since mark (log ++ [e]) = (since mark log).map fun x => (x.1, x.2 ++ [e]) := by
  simp [since, sinceStep, h]

/-- Events without a mark extend the part since the last one. -/
theorem since_append {log new : List ε} {b : β} {seg : List ε}
    (h : since mark log = some (b, seg)) (plain : ∀ e ∈ new, mark e = none) :
    since mark (log ++ new) = some (b, seg ++ new) := by
  induction new generalizing log seg with
  | nil => simpa using h
  | cons e new ih =>
    have first : since mark (log ++ [e]) = some (b, seg ++ [e]) := by
      rw [since_plain (plain e List.mem_cons_self), h, Option.map_some]
    rw [List.append_cons, ih first fun x hx => plain x (List.mem_cons_of_mem e hx),
      List.append_assoc, List.singleton_append]

/-- The value of the last mark in the history. -/
def lastMark (mark : ε → Option β) (log : List ε) : Option β := (since mark log).map Prod.fst

/-- The events since the last mark, or all of them when there is none. -/
def sinceLast (mark : ε → Option β) (log : List ε) : List ε :=
  ((since mark log).map Prod.snd).getD log

theorem lastMark_mark {log : List ε} {e : ε} {b : β} (h : mark e = some b) :
    lastMark mark (log ++ [e]) = some b := by
  rw [lastMark, since_mark h, Option.map_some]

theorem lastMark_plain {log : List ε} {e : ε} (h : mark e = none) :
    lastMark mark (log ++ [e]) = lastMark mark log := by
  rw [lastMark, since_plain h, Option.map_map]
  rfl

theorem sinceLast_mark {log : List ε} {e : ε} {b : β} (h : mark e = some b) :
    sinceLast mark (log ++ [e]) = [] := by
  rw [sinceLast, since_mark h, Option.map_some, Option.getD_some]

theorem sinceLast_plain {log : List ε} {e : ε} (h : mark e = none) :
    sinceLast mark (log ++ [e]) = sinceLast mark log ++ [e] := by
  rw [sinceLast, since_plain h, sinceLast]
  cases since mark log <;> rfl

end Since

end JiajiaNetwork.Lib
