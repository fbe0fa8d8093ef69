/- The segments of the shared memory of `shmget_chat_room_server.c`: no child writes outside its
   own, and each segment ends as if its child had been alone. -/
import JiajiaNetwork.Relay.Child

set_option autoImplicit false
set_option relaxedAutoImplicit false

namespace JiajiaNetwork.Relay

open Lib

/-- The branch for the client is taken, for whatever descriptor. -/
def ClientStep (c : Child) : Input → Prop
  | .main _ => ∃ r ∈ c.ctl.next?, c.connfd ≠ 0 ∧ has r.events epollIn
  | _ => False

instance (c : Child) : (a : Input) → Decidable (ClientStep c a)
  | .main _ => inferInstanceAs (Decidable (∃ r, r ∈ c.ctl.next? ∧ _ ∧ _))
  | .sends _ | .finishes | .writes _ | .hangsUp | .term | .wait _ | .waitInterrupted
  | .waitFailed => isFalse id

/-- The bytes that `recv` returns in the step, if it is called. -/
def received : Input → List Byte
  | .main answers => answers.recv.getD []
  | _ => []

/-- The segment of number `idx` lies in the memory. -/
def Inside (n idx : Int) : Prop := 0 ≤ idx * bufferSize ∧ (idx + 1) * bufferSize ≤ n

/-- The memory with a segment cleared and then read into. -/
def refill {n : Int} (idx : Int) (bytes : List Byte) (mem : Memory n) : Memory n :=
  (mem.overwrite (idx * bufferSize) (List.replicate bufferSize 0)).overwrite
    (idx * bufferSize) bytes

/-- What a step leaves in place that is not a `recv` of the client. -/
structure Keeps (c c' : Child) : Prop where
  idx : c'.idx = c.idx
  connfd : c'.connfd = c.connfd
  pipefd : c'.pipefd = c.pipefd
  number : c'.pipe.read = c.pipe.read
  forwarded : c'.forwarded = c.forwarded

/-- A step that does the same over every memory, which it leaves. -/
structure Aloof (n : Int) (c : Child) (a : Input) (c' : Child) : Prop where
  other : ¬ ClientStep c a
  read : c'.client.read = c.client.read
  does : ∀ mem : Memory n, step c mem a = some (c', mem)

/-- A step that does the same over every memory, of which it refills the segment. -/
structure Refills (n : Int) (c : Child) (a : Input) (c' : Child) : Prop where
  client : ClientStep c a
  inside : Inside n c.idx
  fits : (received a).length ≤ bufferSize - 1
  read : c'.client.read = c.client.read ++ received a
  does : ∀ mem : Memory n, step c mem a = some (c', refill c.idx (received a) mem)

section Memory

variable {n idx : Int} {bytes : List Byte} {mem : Memory n}

theorem segment_isSome (mem : Memory n) : (segment mem idx).isSome ↔ Inside n idx := by
  have whole : (idx + 1) * (bufferSize : Int) = idx * bufferSize + bufferSize := by
    rw [Int.add_mul, Int.one_mul]
  unfold segment CArray.slice Inside
  rw [whole]
  split_ifs with bounds
  · exact iff_of_true rfl bounds
  · exact iff_of_false nofun bounds

theorem refill_cell_of_outside (fits : bytes.length ≤ bufferSize) {i : Int}
    (outside : i < idx * bufferSize ∨ (idx + 1) * bufferSize ≤ i) :
    (refill idx bytes mem).cell i = mem.cell i := by
  have whole : (idx + 1) * (bufferSize : Int) = idx * bufferSize + bufferSize := by
    rw [Int.add_mul, Int.one_mul]
  have cleared : (mem.overwrite (idx * bufferSize) (List.replicate bufferSize 0)).cell i =
      mem.cell i := by
    apply CArray.overwrite_cell_of_outside
    rw [List.length_replicate]
    omega
  rw [refill, CArray.overwrite_cell_of_outside (by omega), cleared]

/-- The segment holds what was read, and zeros behind it. -/
theorem segment_refill (inside : Inside n idx) (fits : bytes.length ≤ bufferSize) :
    segment (refill idx bytes mem) idx = some (overlay bytes (List.replicate bufferSize 0)) := by
  obtain ⟨before, hold⟩ := Option.isSome_iff_exists.mp ((segment_isSome mem).mpr inside)
  have length := (CArray.slice_inv hold).2.1
  have cleared := CArray.slice_overwrite hold
    (show (List.replicate bufferSize (0 : Byte)).length ≤ bufferSize by simp)
  rw [List.length_replicate, List.drop_eq_nil_of_le (Nat.le_of_eq length), List.append_nil]
    at cleared
  exact CArray.slice_overwrite cleared fits

theorem segment_refill_of_ne {j : Int} (fits : bytes.length ≤ bufferSize) (other : j ≠ idx) :
    segment (refill idx bytes mem) j = segment mem j := by
  apply CArray.slice_congr
  intro i lower upper
  apply refill_cell_of_outside fits
  simp only [bufferSize] at lower upper ⊢
  omega

/-- One byte less is read than the segment holds. -/
theorem refill_last (fits : bytes.length ≤ bufferSize - 1) :
    (refill idx bytes mem).cell ((idx + 1) * bufferSize - 1) = 0 := by
  have last : (idx + 1) * (bufferSize : Int) - 1 = idx * bufferSize + (1023 : Nat) := by
    simp only [bufferSize]
    omega
  have beyond : bytes.length ≤ 1023 := fits
  rw [last, refill, CArray.overwrite_cell, List.getElem?_eq_none beyond, Option.getD_none,
    CArray.overwrite_cell, List.getElem?_replicate_of_lt (by decide), Option.getD_some]

end Memory

section Steps

variable {n : Int} {c c' : Child} {mem mem' : Memory n} {r : Report} {rest : List Report}
  {answers : Answers} {a : Input}

/-- The second branch is never taken. -/
theorem body_eq (apart : c.connfd ≠ c.pipefd) : body c mem r rest answers =
    if c.connfd ≠ 0 ∧ has r.events epollIn then clientBranch c mem rest answers
    else some ({ c with ctl := .events rest }, mem) := by
  unfold body
  simp only [apart, false_and, if_false]

/-- What the branch for the client does, in any memory that holds the segment. -/
theorem clientBranch_eq (answered : Answered c answers)
    (run : clientBranch c mem rest answers = some (c', mem')) :
    Inside n c.idx ∧ Keeps c c' ∧ c'.client.read = c.client.read ++ answers.recv.getD [] ∧
      ∀ other : Memory n, clientBranch c other rest answers =
        some (c', refill c.idx (answers.recv.getD []) other) := by
  obtain ⟨cleared, clear, fill⟩ := Option.bind_eq_some_iff.mp run
  obtain ⟨⟨lo, hi⟩, rfl⟩ := CArray.blit_inv clear
  rw [List.length_replicate] at hi
  have inside : Inside n c.idx := by
    refine ⟨lo, ?_⟩
    rw [Int.add_mul, Int.one_mul]
    exact hi
  have clears : ∀ other : Memory n, other.blit (c.idx * bufferSize) (List.replicate bufferSize 0) =
      some (other.overwrite (c.idx * bufferSize) (List.replicate bufferSize 0)) := by
    intro other
    exact CArray.blit_eq_some lo (by rw [List.length_replicate]; exact hi)
  cases answer : answers.recv with
  | none =>
    simp only [answer, Option.some.injEq, Prod.mk.injEq] at fill
    obtain ⟨rfl, rfl⟩ := fill
    refine ⟨inside, ⟨rfl, rfl, rfl, rfl, rfl⟩, (List.append_nil _).symm, ?_⟩
    intro other
    rw [clientBranch, clears, Option.bind_some, answer, Option.getD_none, refill,
      CArray.overwrite_nil]
  | some bytes =>
    simp only [answer] at fill
    rw [Option.getD_some]
    split_ifs at fill with empty
    · simp only [Option.some.injEq, Prod.mk.injEq] at fill
      obtain ⟨rfl, rfl⟩ := fill
      obtain rfl := List.length_eq_zero_iff.mp empty
      refine ⟨inside, ⟨rfl, rfl, rfl, rfl, rfl⟩, (List.append_nil _).symm, ?_⟩
      intro other
      rw [clientBranch, clears, Option.bind_some, answer, refill, CArray.overwrite_nil]
      rfl
    · obtain ⟨filled, read, same⟩ := Option.map_eq_some_iff.mp fill
      obtain ⟨rfl, rfl⟩ := Prod.mk.inj same
      obtain ⟨short, yields⟩ := answered.recv bytes answer
      refine ⟨inside, ⟨rfl, rfl, rfl, rfl, rfl⟩, yields.read, ?_⟩
      intro other
      have room : c.idx * bufferSize + bytes.length ≤ n := (CArray.blit_inv read).1.2
      rw [clientBranch, clears, Option.bind_some, answer]
      simp only [if_neg empty]
      rw [CArray.blit_eq_some lo room]
      rfl

theorem clientBranch_isSome (inside : Inside n c.idx) (answered : Answered c answers) :
    (clientBranch c mem rest answers).isSome := by
  obtain ⟨lo, hi⟩ := inside
  rw [Int.add_mul, Int.one_mul] at hi
  have clear : mem.blit (c.idx * bufferSize) (List.replicate bufferSize 0) = some _ :=
    CArray.blit_eq_some lo (by rw [List.length_replicate]; exact hi)
  rw [clientBranch, clear, Option.bind_some]
  cases answer : answers.recv with
  | none => rfl
  | some bytes =>
    have short := (answered.recv bytes answer).1
    simp only
    split_ifs
    · rfl
    · rw [CArray.blit_eq_some lo (by simp only [bufferSize] at short hi ⊢; omega)]
      rfl

/-- Every step leaves the memory or refills the segment of its child. -/
theorem step_cases (apart : c.connfd ≠ c.pipefd) (lawful : Lawful c a)
    (run : step c mem a = some (c', mem')) :
    Keeps c c' ∧ (Aloof n c a c' ∨ Refills n c a c') := by
  have plain : ∀ c'' : Child, (∀ other : Memory n, step c other a = some (c'', other)) →
      Keeps c c'' → c''.client.read = c.client.read → ¬ ClientStep c a →
      Keeps c c' ∧ (Aloof n c a c' ∨ Refills n c a c') := by
    intro c'' does keeps read quiet
    obtain ⟨rfl, rfl⟩ := Prod.mk.inj (Option.some.inj ((does mem).symm.trans run))
    exact ⟨keeps, .inl ⟨quiet, read, does⟩⟩
  cases a with
  | sends bytes => exact plain _ (fun _ => rfl) ⟨rfl, rfl, rfl, rfl, rfl⟩ rfl id
  | finishes => exact plain _ (fun _ => rfl) ⟨rfl, rfl, rfl, rfl, rfl⟩ rfl id
  | writes client => exact plain _ (fun _ => rfl) ⟨rfl, rfl, rfl, rfl, rfl⟩ rfl id
  | hangsUp => exact plain _ (fun _ => rfl) ⟨rfl, rfl, rfl, rfl, rfl⟩ rfl id
  | term => exact plain _ (fun _ => rfl) ⟨rfl, rfl, rfl, rfl, rfl⟩ rfl id
  | wait batch => exact plain _ (fun _ => rfl) ⟨rfl, rfl, rfl, rfl, rfl⟩ rfl id
  | waitInterrupted => exact plain _ (fun _ => rfl) ⟨rfl, rfl, rfl, rfl, rfl⟩ rfl id
  | waitFailed => exact plain _ (fun _ => rfl) ⟨rfl, rfl, rfl, rfl, rfl⟩ rfl id
  | main answers =>
    cases ctl : c.ctl with
    | testing =>
      refine plain { c with ctl := if c.stopChild then .left else .waiting } ?_
        ⟨rfl, rfl, rfl, rfl, rfl⟩ rfl ?_
      · intro other
        simp only [step, mainStep, ctl]
      · simp [ClientStep, ctl, Control.next?]
    | waiting => simp [step, mainStep, ctl] at run
    | left => simp [step, mainStep, ctl] at run
    | events batch =>
      cases batch with
      | nil =>
        refine plain { c with ctl := .testing } ?_ ⟨rfl, rfl, rfl, rfl, rfl⟩ rfl ?_
        · intro other
          simp only [step, mainStep, ctl]
        · simp [ClientStep, ctl, Control.next?]
      | cons r rest =>
        have does : ∀ other : Memory n, step c other (.main answers) =
            if c.connfd ≠ 0 ∧ has r.events epollIn then clientBranch c other rest answers
            else some ({ c with ctl := .events rest }, other) := by
          intro other
          simp only [step, mainStep, ctl]
          exact body_eq apart
        have next : ClientStep c (.main answers) ↔ c.connfd ≠ 0 ∧ has r.events epollIn := by
          simp [ClientStep, ctl, Control.next?]
        by_cases client : c.connfd ≠ 0 ∧ has r.events epollIn
        · rw [does, if_pos client] at run
          obtain ⟨inside, keeps, read, fills⟩ := clientBranch_eq lawful run
          refine ⟨keeps, .inr ⟨next.mpr client, inside, ?_, read, ?_⟩⟩
          · rw [received]
            cases answer : answers.recv with
            | none => exact Nat.zero_le _
            | some bytes => exact (lawful.recv bytes answer).1
          · intro other
            rw [does, if_pos client]
            exact fills other
        · refine plain { c with ctl := .events rest } ?_ ⟨rfl, rfl, rfl, rfl, rfl⟩ rfl ?_
          · intro other
            rw [does, if_neg client]
          · rw [next]
            exact client

theorem Aloof.memory (aloof : Aloof n c a c') (run : step c mem a = some (c', mem')) :
    mem' = mem := by
  rw [aloof.does mem] at run
  exact (Prod.mk.inj (Option.some.inj run)).2.symm

theorem Refills.memory (refills : Refills n c a c') (run : step c mem a = some (c', mem')) :
    mem' = refill c.idx (received a) mem := by
  rw [refills.does mem] at run
  exact (Prod.mk.inj (Option.some.inj run)).2.symm

/-- A step leaves the segments of other numbers. -/
theorem segment_of_ne (apart : c.connfd ≠ c.pipefd) (lawful : Lawful c a)
    (run : step c mem a = some (c', mem')) {idx : Int} (other : idx ≠ c.idx) :
    segment mem' idx = segment mem idx := by
  obtain ⟨-, aloof | refills⟩ := step_cases apart lawful run
  · rw [aloof.memory run]
  · rw [refills.memory run]
    exact segment_refill_of_ne (Nat.le_trans refills.fits (by decide)) other

end Steps

section Family

variable {κ : Type} {n : Int} {children : κ → Child}

/-- The children have different numbers, and the memory has a segment for each of them. -/
structure Assigned (n : Int) (children : κ → Child) : Prop where
  distinct : ∀ k j, (children k).idx = (children j).idx → k = j
  lower : ∀ k, 0 ≤ (children k).idx
  room : ∀ k, ((children k).idx + 1) * bufferSize ≤ n
  apart : ∀ k, (children k).connfd ≠ (children k).pipefd

/-- What stays of the arguments of `run_child`. -/
structure Placed (start c : Child) : Prop where
  idx : c.idx = start.idx
  apart : c.connfd ≠ c.pipefd

theorem Keeps.placed {start c c' : Child} (keeps : Keeps c c') (placed : Placed start c) :
    Placed start c' where
  idx := keeps.idx.trans placed.idx
  apart := by
    rw [keeps.connfd, keeps.pipefd]
    exact placed.apart

theorem isolated (assigned : Assigned n children) : (component n).Isolated
    (fun k c => Placed (children k) c) (fun k mem => segment mem (children k).idx) where
  good placed lawful run := (step_cases placed.apart lawful run).1.placed placed
  frame := by
    intro k c mem a c' mem' placed lawful run j other
    apply segment_of_ne placed.apart lawful run
    rw [placed.idx]
    exact fun same => other (assigned.distinct j k same)
  own := by
    intro k c mem a c' mem' other placed lawful run same
    obtain ⟨-, aloof | refills⟩ := step_cases placed.apart lawful run
    · obtain rfl := aloof.memory run
      exact ⟨other, aloof.does other, same⟩
    · obtain rfl := refills.memory run
      refine ⟨_, refills.does other, ?_⟩
      have fits := Nat.le_trans refills.fits (show bufferSize - 1 ≤ bufferSize by decide)
      show segment (refill c.idx (received a) other) _ = segment (refill c.idx (received a) mem) _
      rw [← placed.idx, segment_refill refills.inside fits, segment_refill refills.inside fits]

/-- A child writes nothing outside its segment. -/
theorem cell_of_outside {start c c' : Child} {mem mem' : Memory n} {a : Input}
    (placed : Placed start c) (lawful : Lawful c a) (run : step c mem a = some (c', mem')) {i : Int}
    (outside : i < start.idx * bufferSize ∨ (start.idx + 1) * bufferSize ≤ i) :
    mem'.cell i = mem.cell i := by
  obtain ⟨-, aloof | refills⟩ := step_cases placed.apart lawful run
  · rw [aloof.memory run]
  · rw [refills.memory run]
    rw [← placed.idx] at outside
    exact refill_cell_of_outside (Nat.le_trans refills.fits (by decide)) outside

variable [DecidableEq κ] {shareMem : Memory n} {s : (κ → Child) × Memory n}
  {steps : List (((κ → Child) × Memory n) × (κ × Input))}

theorem Assigned.placed (assigned : Assigned n children)
    (h : ((component n).family children shareMem).Reachable s) (k : κ) :
    Placed (children k) (s.1 k) :=
  (isolated assigned).reachable_good (fun k => ⟨rfl, assigned.apart k⟩) h k

/-- No child reaches outside the memory: only `epoll_wait` and the end of the loop wait for an
input other than `main`. -/
theorem never_faults (assigned : Assigned n children)
    (h : ((component n).family children shareMem).Reachable s) (k : κ) {a : Input}
    (lawful : Lawful (s.1 k) a) (goes_on : (s.1 k).ctl ≠ .waiting ∧ (s.1 k).ctl ≠ .left) :
    (step (s.1 k) s.2 a).isSome := by
  have placed := assigned.placed h k
  cases a with
  | main answers =>
    cases ctl : (s.1 k).ctl with
    | testing => simp [step, mainStep, ctl]
    | waiting => exact absurd ctl goes_on.1
    | left => exact absurd ctl goes_on.2
    | events batch =>
      cases batch with
      | nil => simp [step, mainStep, ctl]
      | cons r rest =>
        simp only [step, mainStep, ctl]
        rw [body_eq placed.apart]
        split_ifs
        · apply clientBranch_isSome _ lawful
          have lower := assigned.lower k
          have room := assigned.room k
          rw [Inside, placed.idx]
          refine ⟨?_, room⟩
          simp only [bufferSize]
          omega
        · rfl
  | _ => rfl

/-- Once its child has taken a client step, a segment ends with a zero. -/
theorem last_cell (assigned : Assigned n children)
    (h : ((component n).family children shareMem).Run steps s) (k : κ)
    (client : ∃ p ∈ steps, p.2.1 = k ∧ ClientStep (p.1.1 k) p.2.2) :
    s.2.cell (((children k).idx + 1) * bufferSize - 1) = 0 := by
  revert client
  apply h.invariant
  · rintro s rfl ⟨p, hp, -⟩
    cases hp
  · intro steps s a t hr ih lawful run client
    have placed := assigned.placed hr.reachable a.1
    obtain ⟨own, mem, moved, rfl⟩ := Component.family_step run
    -- an earlier client step, unless this one is the first
    have earlier : (∃ p ∈ steps, p.2.1 = k ∧ ClientStep (p.1.1 k) p.2.2) ∨
        a.1 = k ∧ ClientStep (s.1 k) a.2 := by
      obtain ⟨p, hp, mine, step⟩ := client
      rcases List.mem_append.mp hp with old | last
      · exact .inl ⟨p, old, mine, step⟩
      · obtain rfl := List.mem_singleton.mp last
        exact .inr ⟨mine, step⟩
    by_cases mine : a.1 = k
    · subst mine
      obtain ⟨-, aloof | refills⟩ := step_cases placed.apart lawful moved
      · obtain rfl := aloof.memory moved
        exact ih (earlier.resolve_right fun step => aloof.other step.2)
      · obtain rfl := refills.memory moved
        show (refill _ _ _).cell _ = 0
        rw [← placed.idx]
        exact refill_last refills.fits
    · have before := ih (earlier.resolve_right fun step => mine step.1)
      rw [← before]
      apply cell_of_outside placed lawful moved
      have other : (children a.1).idx ≠ (children k).idx :=
        fun same => mine (assigned.distinct _ _ same)
      simp only [bufferSize]
      omega

/-- Over one memory, the children write nothing outside their segments; each segment ends as if its
child had taken its steps alone; the last byte of a segment is zero from the first client step of
its child on; and no access reaches outside the memory. -/
theorem segments_isolated (assigned : Assigned n children)
    (h : ((component n).family children shareMem).Run steps s) :
    (∀ p ∈ steps, ∀ t, ((component n).family children shareMem).step p.1 p.2 = some t → ∀ i,
      i < (children p.2.1).idx * bufferSize ∨ ((children p.2.1).idx + 1) * bufferSize ≤ i →
      t.2.cell i = p.1.2.cell i) ∧
    (∀ k, ∃ t, ((component n).alone (children k) shareMem).replay (children k, shareMem)
      (Component.inputsOf k steps) = some t ∧
      segment t.2 (children k).idx = segment s.2 (children k).idx) ∧
    (∀ k, (∃ p ∈ steps, p.2.1 = k ∧ ClientStep (p.1.1 k) p.2.2) →
      s.2.cell (((children k).idx + 1) * bufferSize - 1) = 0) ∧
    ∀ k a, Lawful (s.1 k) a → (s.1 k).ctl ≠ .waiting ∧ (s.1 k).ctl ≠ .left →
      (step (s.1 k) s.2 a).isSome := by
  refine ⟨?_, ?_, last_cell assigned h, fun k _ => never_faults assigned h.reachable k⟩
  · intro p hp t run i outside
    obtain ⟨reach, lawful, -⟩ := h.step_of_mem p hp
    have placed := assigned.placed reach p.2.1
    obtain ⟨own, mem, moved, rfl⟩ := Component.family_step run
    exact cell_of_outside placed lawful moved outside
  · intro k
    obtain ⟨mem, replayed, same⟩ :=
      (isolated assigned).alone_of_run (fun k => ⟨rfl, assigned.apart k⟩) h k
    exact ⟨_, replayed, same⟩

end Family

/-- Two children, in a memory that holds other bytes. -/
def pair (k : Bool) : Child := if k then boot 1 7 8 else boot 0 5 6

def used : Memory 2048 := ⟨fun _ => 255⟩

theorem pair_assigned : Assigned 2048 pair where
  distinct := by decide
  lower := by decide
  room := by decide
  apart := by decide

/-- Their clients send "hi" and "you". -/
def mixed : (Bool → Child) × Memory 2048 := (((component 2048).family pair used).replay (pair, used)
  [(false, .sends [104, 105]), (true, .main ⟨none, none, 0⟩), (true, .sends [121, 111, 117]),
    (false, .main ⟨none, none, 0⟩), (true, .wait [⟨7, epollIn⟩]), (false, .wait [⟨5, epollIn⟩]),
    (false, .main ⟨some [104, 105], none, 0⟩),
    (true, .main ⟨some [121, 111, 117], none, 0⟩)]).getD (pair, used)

theorem segments_isolated_mixed : mixed.2.cell 0 = 104 ∧ mixed.2.cell 1024 = 121 ∧
    ∃ steps, ((component 2048).family pair used).Run steps mixed ∧
      ∀ k, ∃ t, ((component 2048).alone (pair k) used).replay (pair k, used)
        (Component.inputsOf k steps) = some t ∧
        segment t.2 (pair k).idx = segment mixed.2 (pair k).idx := by
  have start : ((component 2048).family pair used).Reachable (pair, used) := .start rfl
  obtain ⟨steps, run⟩ := start.replay_getD _
  obtain ⟨-, alone, -⟩ := segments_isolated pair_assigned run
  exact ⟨by decide +kernel, by decide +kernel, steps, run, alone⟩

end JiajiaNetwork.Relay
