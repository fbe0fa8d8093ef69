/- What the shared memory of `shmget_chat_room_server.c` holds and what the parent is told, read off
   what `recv` returned to each child: between the steps a segment holds the last text alone, and
   the next event with `EPOLLIN` clears it whether anything comes or not. The `memset` and the
   `recv` behind it are one step. -/
import JiajiaNetwork.Relay.Segments

set_option autoImplicit false
set_option relaxedAutoImplicit false

namespace JiajiaNetwork.Relay

open Lib

/-- A segment behind these calls of `recv`, each with the bytes that it returned. -/
def contents (before : Option (List Byte)) (calls : List (List Byte)) : Option (List Byte) :=
  match calls.getLast? with
  | none => before
  | some bytes => some (overlay bytes (List.replicate bufferSize 0))

/-- The number of the child, once for each call that returned bytes. -/
def announcements (idx : Int) (calls : List (List Byte)) : List Int :=
  (calls.filter fun bytes => decide (bytes ≠ [])).map fun _ => idx

theorem contents_append {before : Option (List Byte)} {calls : List (List Byte)}
    {bytes : List Byte} : contents before (calls ++ [bytes]) =
      some (overlay bytes (List.replicate bufferSize 0)) := by
  rw [contents, List.getLast?_append, List.getLast?_singleton, Option.some_or]

theorem announcements_append {idx : Int} {calls : List (List Byte)} {bytes : List Byte} :
    announcements idx (calls ++ [bytes]) =
      announcements idx calls ++ if bytes ≠ [] then [idx] else [] := by
  by_cases empty : bytes = []
  · simp [announcements, empty]
  · simp [announcements, empty]

section Steps

variable {n : Int} {c c' : Child} {mem mem' : Memory n} {rest : List Report} {answers : Answers}
  {a : Input}

theorem clientBranch_announced (run : clientBranch c mem rest answers = some (c', mem')) :
    c'.announced = c.announced ++ if answers.recv.getD [] ≠ [] then [c.idx] else [] := by
  obtain ⟨cleared, -, fill⟩ := Option.bind_eq_some_iff.mp run
  cases answer : answers.recv with
  | none =>
    simp only [answer, Option.some.injEq, Prod.mk.injEq] at fill
    obtain ⟨rfl, -⟩ := fill
    exact (List.append_nil _).symm
  | some bytes =>
    simp only [answer] at fill
    split_ifs at fill with empty
    · simp only [Option.some.injEq, Prod.mk.injEq] at fill
      obtain ⟨rfl, -⟩ := fill
      simp [List.length_eq_zero_iff.mp empty]
    · obtain ⟨filled, -, same⟩ := Option.map_eq_some_iff.mp fill
      obtain ⟨rfl, -⟩ := Prod.mk.inj same
      have some : bytes ≠ [] := fun none => empty (by rw [none]; rfl)
      simp [some]

/-- A step announces what its child has received, and nothing else. -/
theorem step_announced (apart : c.connfd ≠ c.pipefd) (run : step c mem a = some (c', mem')) :
    c'.announced = c.announced ++
      if ClientStep c a ∧ received a ≠ [] then [c.idx] else [] := by
  have plain : c'.announced = c.announced → ¬ ClientStep c a → c'.announced = c.announced ++
      if ClientStep c a ∧ received a ≠ [] then [c.idx] else [] := by
    intro same quiet
    rw [if_neg fun both => quiet both.1, List.append_nil, same]
  cases a with
  | main answers =>
    cases ctl : c.ctl with
    | testing =>
      simp only [step, mainStep, ctl, Option.some.injEq, Prod.mk.injEq] at run
      obtain ⟨rfl, -⟩ := run
      exact plain rfl (by simp [ClientStep, ctl, Control.next?])
    | waiting => simp [step, mainStep, ctl] at run
    | left => simp [step, mainStep, ctl] at run
    | events batch =>
      cases batch with
      | nil =>
        simp only [step, mainStep, ctl, Option.some.injEq, Prod.mk.injEq] at run
        obtain ⟨rfl, -⟩ := run
        exact plain rfl (by simp [ClientStep, ctl, Control.next?])
      | cons r rest =>
        have next : ClientStep c (.main answers) ↔ c.connfd ≠ 0 ∧ has r.events epollIn := by
          simp [ClientStep, ctl, Control.next?]
        simp only [step, mainStep, ctl] at run
        rw [body_eq apart] at run
        split_ifs at run with client
        · have taken : ClientStep c (.main answers) := next.mpr client
          rw [clientBranch_announced run]
          simp only [taken, true_and, received]
        · simp only [Option.some.injEq, Prod.mk.injEq] at run
          obtain ⟨rfl, -⟩ := run
          exact plain rfl fun step => client (next.mp step)
  | _ =>
    obtain ⟨rfl, -⟩ := Prod.mk.inj (Option.some.inj run)
    exact plain rfl id

end Steps

section Family

variable {κ : Type} [DecidableEq κ] {n : Int} {children : κ → Child} {shareMem : Memory n}
  {s : (κ → Child) × Memory n} {steps : List (((κ → Child) × Memory n) × (κ × Input))} {k : κ}

/-- What the calls of `recv` on the socket of child `k` returned, in order, with no bytes for a
failure or the end. -/
def receives (k : κ) (steps : List (((κ → Child) × Memory n) × (κ × Input))) : List (List Byte) :=
  steps.filterMap fun p =>
    if p.2.1 = k ∧ ClientStep (p.1.1 k) p.2.2 then some (received p.2.2) else none

theorem receives_own {a : Input} (client : ClientStep (s.1 k) a) :
    receives k (steps ++ [(s, (k, a))]) = receives k steps ++ [received a] := by
  simp [receives, client]

theorem receives_other {j : κ} {a : Input} (quiet : ¬ (j = k ∧ ClientStep (s.1 k) a)) :
    receives k (steps ++ [(s, (j, a))]) = receives k steps := by
  simp [receives, quiet]

/-- In every run of any number of children, each segment of the shared memory is between the steps
what the last `recv` of its child returned with zeros behind it, whatever the others do; what a
child has read is what its calls returned, and it has announced those that returned bytes. -/
theorem memory_of_receives (assigned : Assigned n children)
    (h : ((component n).family children shareMem).Run steps s) (k : κ) :
    segment s.2 (children k).idx =
      contents (segment shareMem (children k).idx) (receives k steps) ∧
    (s.1 k).client.read = (children k).client.read ++ (receives k steps).flatten ∧
    (s.1 k).announced =
      (children k).announced ++ announcements (children k).idx (receives k steps) := by
  apply h.invariant
  · rintro s rfl
    exact ⟨rfl, (List.append_nil _).symm, (List.append_nil _).symm⟩
  · rintro steps s ⟨j, a⟩ t hr ⟨memory, read, announced⟩ lawful run
    have placed := assigned.placed hr.reachable j
    obtain ⟨own, mem, moved, rfl⟩ := Component.family_step run
    by_cases mine : j = k
    · subst mine
      have tells := step_announced placed.apart moved
      show segment mem _ = _ ∧ (Function.update s.1 j own j).client.read = _ ∧
        (Function.update s.1 j own j).announced = _
      rw [Function.update_self]
      obtain ⟨-, aloof | refills⟩ := step_cases placed.apart lawful moved
      · rw [if_neg fun both => aloof.other both.1, List.append_nil] at tells
        rw [receives_other fun both => aloof.other both.2, aloof.memory moved]
        exact ⟨memory, aloof.read.trans read, tells.trans announced⟩
      · have fits := Nat.le_trans refills.fits (show bufferSize - 1 ≤ bufferSize by decide)
        have client : ClientStep (s.1 j) a := refills.client
        simp only [client, true_and] at tells
        rw [receives_own client, contents_append, announcements_append, List.flatten_append,
          refills.memory moved, ← placed.idx]
        refine ⟨segment_refill refills.inside fits, ?_, ?_⟩
        · rw [refills.read, read, List.flatten_singleton, List.append_assoc]
        · rw [tells, announced, ← placed.idx, List.append_assoc]
    · have stays : segment mem (children k).idx = segment s.2 (children k).idx :=
        (isolated assigned).frame placed lawful moved k (Ne.symm mine)
      rw [receives_other fun both => mine both.1]
      show segment mem _ = _ ∧ (Function.update s.1 j own k).client.read = _ ∧
        (Function.update s.1 j own k).announced = _
      rw [Function.update_of_ne (Ne.symm mine)]
      exact ⟨stays.trans memory, read, announced⟩

end Family

/-- The client of child 0 has sent "hi", and an event of the pipe makes it call `recv` again. -/
def erased : (Bool → Child) × Memory 2048 :=
  (((component 2048).family pair used).replay (pair, used)
    [(false, .sends [104, 105]), (false, .main ⟨none, none, 0⟩), (false, .wait [⟨5, epollIn⟩]),
      (false, .main ⟨some [104, 105], none, 0⟩), (false, .main ⟨none, none, 0⟩),
      (false, .writes 1), (false, .main ⟨none, none, 0⟩), (false, .wait [⟨6, epollIn⟩]),
      (false, .main ⟨none, none, eagain⟩)]).getD (pair, used)

theorem memory_of_receives_erased : (erased.1 false).announced = [0] ∧ erased.2.cell 0 = 0 ∧
    ∃ steps, ((component 2048).family pair used).Run steps erased ∧
      segment erased.2 0 = contents (segment used 0) (receives false steps) := by
  have start : ((component 2048).family pair used).Reachable (pair, used) := .start rfl
  obtain ⟨steps, run⟩ : ((component 2048).family pair used).Reachable erased :=
    start.replay_getD _
  exact ⟨by decide +kernel, by decide +kernel, steps, run,
    (memory_of_receives pair_assigned run false).1⟩

end JiajiaNetwork.Relay
