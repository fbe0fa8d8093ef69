/- The timeout sweep of the reactor. Its cursor goes round the client slots, 100 of them a sweep,
   so a connection that stays idle is found before eleven sweeps are over. -/
import JiajiaNetwork.Lib.Cursor
import JiajiaNetwork.Reactor.Dispatch

set_option autoImplicit false
set_option relaxedAutoImplicit false

namespace JiajiaNetwork.Reactor

open Lib

/-- The slot that a round of the sweep looks at. -/
def examines (s : St) : Input → Option Int
  | .check =>
    match s.ctl with
    | .sweeping i _ =>
      if i < sweepRounds then some (if s.checkpos = maxEvents then 0 else s.checkpos) else none
    | _ => none
  | _ => none

def examined (steps : List (St × Input)) : List Int := steps.filterMap fun p => examines p.1 p.2

def endsSweep (s : St) : Input → Bool
  | .check =>
    match s.ctl with
    | .sweeping i _ => sweepRounds ≤ i
    | _ => false
  | _ => false

/-- The sweeps that are over. -/
def sweeps (steps : List (St × Input)) : Nat := steps.countP fun p => endsSweep p.1 p.2

def Input.now : Input → Option Int
  | .clock now => some now
  | _ => none

/-- The times at which sweeps began. -/
def clocks (steps : List (St × Input)) : List Int := steps.filterMap fun p => p.2.now

/-- The rounds of the sweep at hand. -/
def Control.rounds : Control → Int
  | .sweeping i _ => i
  | _ => 0

/-- The step closes the connection on `fd`, deletes it from epoll and frees the entry at `k`. -/
structure Releases (s : St) (k : Int) (fd : Fd) (t : St) : Prop where
  log : t.log = s.log ++ [.closed fd]
  files : fd ∉ t.files
  deleted : t.interest.entry fd = none
  freed : (t.gEvents.cell k).status = 0

/-- As long as the connection at `k` is not closed, no callback is called for it. -/
def Neglected (s : St) (k : Int) (later : List (St × Input)) : Prop :=
  ∀ p ∈ later, .closed (s.gEvents.cell k).fd ∉ p.1.log.drop s.log.length →
    ∀ a f, p.2 = .turn a → calling p.1 ≠ some (k, f)

/-- The sweeps of a run that has come to `s` in `steps`, and those to come. No step faults. -/
structure Sweeping (steps : List (St × Input)) (s : St) : Prop where
  runs : ∀ i now, s.ctl = .sweeping i now → ∃ t, step s .check = some t
  slots : ∀ k ∈ examined steps, 0 ≤ k ∧ k < maxEvents
  once : ∀ block, block <:+: examined steps → (block.length : Int) = maxEvents →
    ∀ k, 0 ≤ k → k < maxEvents → block.count k = 1
  spares : ∀ i now t k, s.ctl = .sweeping i now → step s .check = some t → Active s k →
    now - (s.gEvents.cell k).lastActive < idleLimit →
    t.gEvents.cell k = s.gEvents.cell k ∧ (s.gEvents.cell k).fd ∈ t.files ∧
      .closed (s.gEvents.cell k).fd ∉ t.log.drop s.log.length
  releases : ∀ now k later u, s.ctl = .top → Active s k → k < maxEvents →
    idleLimit ≤ now - (s.gEvents.cell k).lastActive →
    (machine.after { s with ctl := .sweeping 0 now }).Run later u →
    (now :: clocks later).Pairwise (· ≤ ·) → Neglected s k later → 11 ≤ sweeps later →
    ∃ pre p post t, later = pre ++ p :: post ∧ sweeps pre < 11 ∧ step p.1 p.2 = some t ∧
      Releases p.1 k (s.gEvents.cell k).fd t

section Moves

variable {s t : St} {a : Input} {k : Int}

theorem Called.checkpos {b : Answers} {f : Callback} (called : Called s k b f t) :
    t.checkpos = s.checkpos ∧ t.ctl = s.ctl := by
  cases called <;> exact ⟨rfl, rfl⟩

/-- A callback closes no descriptor but its own. -/
theorem Called.files {b : Answers} {f : Callback} {fd : Fd} (called : Called s k b f t)
    (apart : fd ≠ (s.gEvents.cell k).fd) (opened : fd ∈ s.files) : fd ∈ t.files := by
  cases called with
  | refused _ => exact opened
  | leaked cfd _ _ => exact Finset.mem_insert_of_mem opened
  | adopted cfd _ _ _ _ _ => exact Finset.mem_insert_of_mem opened
  | released f new _ => exact Finset.mem_erase.mpr ⟨apart, opened⟩
  | rearmed f new ev _ => exact opened

theorem examines_cursor {i now : Int} (ctl : s.ctl = .sweeping i now) (more : i < sweepRounds)
    (upper : k < maxEvents) (cursor : k = s.checkpos ∨ s.checkpos = maxEvents ∧ k = 0) :
    examines s .check = some k := by
  simp only [examines, ctl, if_pos more]
  rcases cursor with rfl | ⟨wrap, rfl⟩
  · rw [if_neg (by omega)]
  · rw [if_pos wrap]

/-- Only a round of the sweep moves the cursor, and it leaves the cursor behind the slot that it
looked at. -/
theorem Move.cursor (move : Move s a t) :
    (examines s a = none ∧ t.checkpos = s.checkpos) ∨
    ∃ k, examines s a = some k ∧ 0 ≤ k ∧ k < maxEvents ∧
      (k = s.checkpos ∨ s.checkpos = maxEvents ∧ k = 0) ∧ t.checkpos = k + 1 := by
  cases move with
  | clock now _ => exact .inl ⟨rfl, rfl⟩
  | swept i now ctl past =>
    left
    simp only [examines, ctl, if_neg (show ¬ i < sweepRounds by omega)]
    exact ⟨trivial, trivial⟩
  | passed i now k ctl more lower upper cursor _ =>
    exact .inr ⟨k, examines_cursor ctl more upper cursor, lower, upper, cursor, rfl⟩
  | expired i now k ctl more active upper cursor _ =>
    exact .inr ⟨k, examines_cursor ctl more upper cursor, active.lower, upper, cursor, rfl⟩
  | waited batch _ _ _ => exact .inl ⟨rfl, rfl⟩
  | failed _ => exact .inl ⟨rfl, rfl⟩
  | emptied b _ => exact .inl ⟨rfl, rfl⟩
  | skipped b r bit next _ _ => exact .inl ⟨rfl, rfl⟩
  | called b r bit next f t _ _ _ _ _ called => exact .inl ⟨rfl, called.checkpos.1⟩

/-- A step that neither looks at slot `k` nor calls its callback leaves it as it is. -/
theorem Move.keeps (inv : Inv s) (move : Move s a t) (active : Active s k)
    (uncalled : ∀ b f, a = .turn b → calling s ≠ some (k, f)) (unexamined : examines s a ≠ some k) :
    t.gEvents.cell k = s.gEvents.cell k ∧ (s.gEvents.cell k).fd ∈ t.files ∧
      ∃ new, t.log = s.log ++ new ∧ .closed (s.gEvents.cell k).fd ∉ new := by
  have opened := inv.opened k active
  have plain : ∀ {m : St}, m.gEvents = s.gEvents → m.files = s.files → m.log = s.log →
      m.gEvents.cell k = s.gEvents.cell k ∧ (s.gEvents.cell k).fd ∈ m.files ∧
        ∃ new, m.log = s.log ++ new ∧ .closed (s.gEvents.cell k).fd ∉ new := by
    intro m entries files log
    exact ⟨by rw [entries], files ▸ opened, [], by rw [log, List.append_nil], List.not_mem_nil⟩
  cases move with
  | clock now _ => exact plain rfl rfl rfl
  | swept i now _ _ => exact plain rfl rfl rfl
  | passed i now l _ _ _ _ _ _ => exact plain rfl rfl rfl
  | expired i now l ctl more active' upper cursor _ =>
    -- the entry that is released is another one
    have other : k ≠ l := by
      rintro rfl
      exact unexamined (examines_cursor ctl more upper cursor)
    have apart : (s.gEvents.cell k).fd ≠ (s.gEvents.cell l).fd :=
      fun same => other (inv.distinct active active' same)
    refine ⟨CArray.put_cell_of_ne _ _ other, Finset.mem_erase.mpr ⟨apart, opened⟩, _, rfl, ?_⟩
    simpa using apart
  | waited batch _ _ _ =>
    exact ⟨rfl, opened, _, rfl, by simp⟩
  | failed _ => exact plain rfl rfl rfl
  | emptied b _ => exact plain rfl rfl rfl
  | skipped b r bit next _ _ => exact plain rfl rfl rfl
  | called b r bit next f t here selects ready held allowed called =>
    have other : k ≠ r.ptr := by
      rintro rfl
      exact uncalled b f rfl (calling_eq here selects held)
    have apart : (s.gEvents.cell k).fd ≠ (s.gEvents.cell r.ptr).fd :=
      fun same => other (inv.distinct active ready.toActive same)
    have fresh : ∀ cfd ∈ b.accept, (s.gEvents.cell k).fd ≠ cfd := by
      rintro cfd answer rfl
      exact (allowed.accept _ answer).1 opened
    have logged : Active (s.emit (.invoked r.ptr f (s.gEvents.cell r.ptr).fd)) k := active.congr
    obtain ⟨new, log, aloof⟩ := called.log
    refine ⟨called.frame other logged, called.files apart opened,
      .invoked r.ptr f (s.gEvents.cell r.ptr).fd :: new, ?_, ?_⟩
    · show t.log = _
      rw [log, St.emit, List.append_assoc]
      rfl
    · intro mem
      rcases List.mem_cons.mp mem with first | later
      · cases first
      · exact ((aloof _ later).2.2 _ apart fresh).closes rfl

/-- A round is counted where it is made, and all of them at the end of the sweep. -/
theorem Move.rounds (move : Move s a t) (lower : 0 ≤ s.ctl.rounds)
    (upper : s.ctl.rounds ≤ sweepRounds) : 0 ≤ t.ctl.rounds ∧ t.ctl.rounds ≤ sweepRounds ∧
      ((examines s a).toList.length : Int) + s.ctl.rounds =
        sweepRounds * (if endsSweep s a then 1 else 0) + t.ctl.rounds := by
  have some : (0 : Int) ≤ sweepRounds := by decide
  have still : ∀ {m : St} {b : Input}, s.ctl.rounds = 0 → m.ctl.rounds = 0 →
      examines s b = none → endsSweep s b = false → 0 ≤ m.ctl.rounds ∧
        m.ctl.rounds ≤ sweepRounds ∧ ((examines s b).toList.length : Int) + s.ctl.rounds =
          sweepRounds * (if endsSweep s b then 1 else 0) + m.ctl.rounds := by
    intro m b before behind looks ends
    rw [before, behind, looks, ends]
    exact ⟨le_rfl, some, rfl⟩
  have counted : ∀ {m : St} {i now k : Int}, s.ctl = .sweeping i now → i < sweepRounds →
      k < maxEvents → (k = s.checkpos ∨ s.checkpos = maxEvents ∧ k = 0) →
      m.ctl.rounds = i + 1 → 0 ≤ m.ctl.rounds ∧ m.ctl.rounds ≤ sweepRounds ∧
        ((examines s .check).toList.length : Int) + s.ctl.rounds =
          sweepRounds * (if endsSweep s .check then 1 else 0) + m.ctl.rounds := by
    intro m i now k ctl more high cursor next
    have ends : endsSweep s .check = false := by simp [endsSweep, ctl, more]
    rw [ctl] at lower ⊢
    simp only [Control.rounds] at lower
    rw [ends, examines_cursor ctl more high cursor, next]
    simp only [Option.toList_some, List.length_singleton, Bool.false_eq_true, if_false,
      Control.rounds]
    omega
  cases move with
  | clock now ctl => exact still (by rw [ctl]; rfl) rfl rfl rfl
  | swept i now ctl past =>
    have ends : endsSweep s .check = true := by simp [endsSweep, ctl, past]
    have looks : examines s .check = none := by
      simp only [examines, ctl, if_neg (show ¬ i < sweepRounds by omega)]
    rw [ctl] at upper ⊢
    simp only [Control.rounds] at upper ⊢
    rw [ends, looks]
    simp only [Option.toList_none, List.length_nil, if_true]
    omega
  | passed i now k ctl more _ high cursor _ => exact counted ctl more high cursor rfl
  | expired i now k ctl more _ high cursor _ => exact counted ctl more high cursor rfl
  | waited batch ctl _ _ => exact still (by rw [ctl]; rfl) rfl rfl rfl
  | failed ctl => exact still (by rw [ctl]; rfl) rfl rfl rfl
  | emptied b ctl => exact still (by rw [ctl]; rfl) rfl rfl rfl
  | skipped b r bit next here _ =>
    obtain ⟨rest, ⟨ctl, -, rfl⟩ | ⟨ctl, -, rfl⟩⟩ := testing_cases here
    · exact still (by rw [ctl]; rfl) rfl rfl rfl
    · exact still (by rw [ctl]; rfl) rfl rfl rfl
  | called b r bit next f t here _ _ _ _ _ =>
    obtain ⟨rest, ⟨ctl, -, rfl⟩ | ⟨ctl, -, rfl⟩⟩ := testing_cases here
    · exact still (by rw [ctl]; rfl) rfl rfl rfl
    · exact still (by rw [ctl]; rfl) rfl rfl rfl

/-- A sweep keeps the time at which it began. -/
theorem Move.began (move : Move s a t) {i now : Int} (ctl : t.ctl = .sweeping i now) :
    a.now = some now ∨ ∃ j, s.ctl = .sweeping j now := by
  cases move with
  | clock now' _ =>
    obtain ⟨-, rfl⟩ := Control.sweeping.inj ctl
    exact .inl rfl
  | swept _ _ _ _ => cases ctl
  | passed j now' k before _ _ _ _ _ =>
    obtain ⟨-, rfl⟩ := Control.sweeping.inj ctl
    exact .inr ⟨j, before⟩
  | expired j now' k before _ _ _ _ _ =>
    obtain ⟨-, rfl⟩ := Control.sweeping.inj ctl
    exact .inr ⟨j, before⟩
  | waited _ _ _ _ => cases ctl
  | failed _ => cases ctl
  | emptied _ _ => cases ctl
  | skipped b r bit next here _ =>
    obtain ⟨rest, ⟨-, -, rfl⟩ | ⟨-, -, rfl⟩⟩ := testing_cases here
    · cases ctl
    · cases ctl
  | called b r bit next f t here _ _ _ _ _ =>
    obtain ⟨rest, ⟨-, -, rfl⟩ | ⟨-, -, rfl⟩⟩ := testing_cases here
    · cases ctl
    · cases ctl

/-- The round that looks at an idle connection closes it. -/
theorem Move.releases (move : Move s a t) (looks : examines s a = some k) (active : Active s k)
    (idle : ∀ i now, s.ctl = .sweeping i now → idleLimit ≤ now - (s.gEvents.cell k).lastActive) :
    Releases s k (s.gEvents.cell k).fd t := by
  have same : ∀ {l i now : Int}, s.ctl = .sweeping i now → i < sweepRounds → l < maxEvents →
      (l = s.checkpos ∨ s.checkpos = maxEvents ∧ l = 0) → a = .check → l = k := by
    intro l i now ctl more upper cursor check
    rw [check, examines_cursor ctl more upper cursor] at looks
    exact Option.some.inj looks
  cases move with
  | passed i now l ctl more lower upper cursor fresh =>
    obtain rfl := same ctl more upper cursor rfl
    have := idle i now ctl
    have := fresh active
    omega
  | expired i now l ctl more active' upper cursor _ =>
    obtain rfl := same ctl more upper cursor rfl
    refine ⟨rfl, Finset.notMem_erase _ _, ?_, ?_⟩
    · show (s.interest.del (s.gEvents.cell l).fd).entry (s.gEvents.cell l).fd = none
      rw [Interest.del_entry, Function.update_self]
    · show ((s.gEvents.put l { s.gEvents.cell l with status := 0 }).cell l).status = 0
      rw [CArray.put_cell_same]
  | swept i now ctl past =>
    simp [examines, ctl, show ¬ i < sweepRounds by omega] at looks
  | clock _ _ | waited _ _ _ _ | failed _ | emptied _ _ | skipped _ _ _ _ _ _
  | called _ _ _ _ _ _ _ _ _ _ _ _ => cases looks

end Moves

section Runs

variable {steps later : List (St × Input)} {s u : St} {a : Input} {k now : Int}

theorem examined_concat :
    examined (steps ++ [(s, a)]) = examined steps ++ (examines s a).toList := by
  rw [examined, List.filterMap_append]
  cases looks : examines s a <;> simp [examined, looks]

theorem sweeps_concat :
    sweeps (steps ++ [(s, a)]) = sweeps steps + if endsSweep s a then 1 else 0 := by
  rw [sweeps, List.countP_append, List.countP_singleton]
  rfl

/-- What the sweeps of a run look at goes round, and the cursor stands behind the last slot. -/
theorem examined_goesRound (h : machine.Run steps s) : GoesRound maxEvents (examined steps) ∧
    ∀ x ∈ (examined steps).getLast?, s.checkpos = x + 1 := by
  apply h.invariant (I := fun steps s => GoesRound maxEvents (examined steps) ∧
    ∀ x ∈ (examined steps).getLast?, s.checkpos = x + 1)
  · exact fun s _ => ⟨.nil, fun x last => by cases last⟩
  · rintro steps s a t past ⟨round, behind⟩ lawful run
    rw [examined_concat]
    rcases (reachable_move past.reachable lawful run).cursor with
      ⟨none, still⟩ | ⟨k, looks, lower, upper, cursor, moved⟩
    · rw [none, Option.toList_none, List.append_nil, still]
      exact ⟨round, behind⟩
    · rw [looks, Option.toList_some]
      constructor
      · apply round.concat lower upper
        intro y last
        have before := behind y last
        unfold nextPosition
        split_ifs <;> omega
      · intro x last
        obtain rfl : k = x := by simpa using last
        exact moved

/-- A run from the beginning of a sweep at the time `now`, for the connection at `k`. -/
structure Onward (s : St) (k now : Int) (later : List (St × Input)) (u : St) : Prop where
  reachable : machine.Reachable u
  lower : 0 ≤ u.ctl.rounds
  upper : u.ctl.rounds ≤ sweepRounds
  rounds : ((examined later).length : Int) = sweepRounds * sweeps later + u.ctl.rounds
  late : (∀ x ∈ clocks later, now ≤ x) → ∀ i now', u.ctl = .sweeping i now' → now ≤ now'
  kept : Neglected s k later → k ∉ examined later → u.gEvents.cell k = s.gEvents.cell k ∧
    ∃ new, u.log = s.log ++ new ∧ .closed (s.gEvents.cell k).fd ∉ new

theorem Onward.start (top : machine.Reachable { s with ctl := .sweeping 0 now }) :
    Onward s k now [] { s with ctl := .sweeping 0 now } where
  reachable := top
  lower := le_rfl
  upper := by
    show (0 : Int) ≤ sweepRounds
    decide
  rounds := rfl
  late := by
    intro _ i now' ctl
    obtain ⟨-, rfl⟩ := Control.sweeping.inj ctl
    exact le_rfl
  kept _ _ := ⟨rfl, [], (List.append_nil _).symm, List.not_mem_nil⟩

theorem Onward.step {t : St} (onward : Onward s k now later u) (active : Active s k)
    (lawful : machine.Lawful u a) (run : machine.step u a = some t) :
    Onward s k now (later ++ [(u, a)]) t := by
  have move := reachable_move onward.reachable lawful run
  obtain ⟨lower, upper, rounds⟩ := move.rounds onward.lower onward.upper
  refine ⟨onward.reachable.step lawful run, lower, upper, ?_, ?_, ?_⟩
  · have before := onward.rounds
    rw [examined_concat, sweeps_concat, List.length_append]
    push_cast
    rw [mul_add]
    omega
  · intro times i now' ctl
    rw [clocks, List.filterMap_append] at times
    rcases move.began ctl with began | ⟨j, ctl'⟩
    · apply times now'
      rw [List.mem_append]
      right
      simp [began]
    · exact onward.late (fun x mem => times x (List.mem_append_left _ mem)) j now' ctl'
  · intro neglected absent
    rw [examined_concat, List.mem_append, not_or] at absent
    obtain ⟨unseen, unexamined⟩ := absent
    obtain ⟨same, new, log, opened⟩ :=
      onward.kept (fun p mem => neglected p (List.mem_append_left _ mem)) unseen
    have active' : Active u k := ⟨active.lower, active.upper, same ▸ active.on⟩
    have uncalled : ∀ b f, a = .turn b → calling u ≠ some (k, f) := by
      refine neglected (u, a) (List.mem_append_right _ (List.mem_singleton_self _)) ?_
      rw [log, List.drop_left]
      exact opened
    have apart : examines u a ≠ some k := by
      intro looks
      rw [looks] at unexamined
      exact unexamined (List.mem_singleton_self k)
    obtain ⟨same', -, new', log', opened'⟩ :=
      move.keeps (reachable_inv onward.reachable).1 active' uncalled apart
    refine ⟨same'.trans same, new ++ new', by rw [log', log, List.append_assoc], ?_⟩
    rw [same] at opened'
    exact fun mem => (List.mem_append.mp mem).elim opened opened'

theorem onward_of_run (top : machine.Reachable { s with ctl := .sweeping 0 now })
    (active : Active s k) (run : (machine.after { s with ctl := .sweeping 0 now }).Run later u) :
    Onward s k now later u := by
  apply run.invariant (I := Onward s k now)
  · rintro _ rfl
    exact .start top
  · exact fun later u a t _ onward lawful run => onward.step active lawful run

/-- Whoever is idle when a sweep begins, and is not called any more, is found by the eleventh. -/
theorem idle_released (h : machine.Run steps s) (top : s.ctl = .top) (active : Active s k)
    (client : k < maxEvents) (idle : idleLimit ≤ now - (s.gEvents.cell k).lastActive)
    (run : (machine.after { s with ctl := .sweeping 0 now }).Run later u)
    (times : (now :: clocks later).Pairwise (· ≤ ·)) (neglected : Neglected s k later)
    (eleven : 11 ≤ sweeps later) :
    ∃ pre p post t, later = pre ++ p :: post ∧ sweeps pre < 11 ∧ step p.1 p.2 = some t ∧
      Releases p.1 k (s.gEvents.cell k).fd t := by
  have started : machine.Run (steps ++ [(s, .clock now)]) { s with ctl := .sweeping 0 now } :=
    h.step top rfl
  have onward := onward_of_run started.reachable active run
  have whole := (examined_goesRound (started.append run)).1
  have round : GoesRound maxEvents (examined later) := by
    apply whole.of_infix
    unfold examined
    rw [List.filterMap_append]
    exact (List.suffix_append _ _).isInfix
  -- eleven sweeps are more than one round
  have rounds : sweepRounds = 100 := rfl
  have slots : maxEvents = 1024 := rfl
  have long : maxEvents ≤ (examined later).length := by
    have made := onward.rounds
    have := onward.lower
    rw [rounds] at made
    omega
  obtain ⟨pre, p, post, rfl, looks, absent, few⟩ :=
    exists_first_select (round.visits long active.lower client)
  obtain ⟨before, lawful, t, next⟩ := run.split
  have reached := onward_of_run started.reachable active before
  obtain ⟨same, -⟩ := reached.kept (fun q mem => neglected q (List.mem_append_left _ mem)) absent
  have active' : Active p.1 k := ⟨active.lower, active.upper, same ▸ active.on⟩
  refine ⟨pre, p, post, t, rfl, ?_, next, ?_⟩
  · have few' : (examined pre).length < maxEvents.toNat := few
    have made := reached.rounds
    have := reached.lower
    rw [rounds] at made
    omega
  · rw [← same]
    apply (reachable_move reached.reachable lawful next).releases looks active'
    intro i now' ctl
    have later' := reached.late (fun x mem => (List.pairwise_cons.mp times).1 x ?_) i now' ctl
    · rw [same]
      omega
    · rw [clocks, List.filterMap_append]
      exact List.mem_append_left _ mem

/-- The timeout sweep in every run. -/
theorem timeout_sweep (h : machine.Run steps s) : Sweeping steps s := by
  obtain ⟨round, -⟩ := examined_goesRound h
  have check : ∀ {i now : Int}, s.ctl = .sweeping i now → Lawful s .check := by
    intro i now ctl
    show s.ctl.isSweeping = true
    rw [ctl]
    rfl
  constructor
  case runs =>
    intro i now ctl
    obtain ⟨inv, batched⟩ := reachable_inv h.reachable
    obtain ⟨t, run, -⟩ := step_move inv batched (check ctl)
    exact ⟨t, run⟩
  case slots => exact round.range
  case once =>
    intro block part length k lower upper
    exact (round.of_infix part).count length lower upper
  case spares =>
    intro i now t k ctl run active fresh
    have move := reachable_move (a := .check) h.reachable (check ctl) run
    have inv := (reachable_inv h.reachable).1
    by_cases looks : examines s .check = some k
    · cases move with
      | passed j now' l ctl' more lower upper cursor _ =>
        exact ⟨rfl, inv.opened k active, by simp⟩
      | expired j now' l ctl' more active' upper cursor old =>
        rw [examines_cursor ctl' more upper cursor] at looks
        obtain rfl := Option.some.inj looks
        obtain ⟨-, rfl⟩ := Control.sweeping.inj (ctl.symm.trans ctl')
        omega
      | swept j now' ctl' past => exact ⟨rfl, inv.opened k active, by simp⟩
    · obtain ⟨same, opened, new, log, unclosed⟩ :=
        move.keeps inv active (fun b f turn => by cases turn) looks
      exact ⟨same, opened, by rwa [log, List.drop_left]⟩
  case releases =>
    intro now k later u top active client idle run times neglected eleven
    exact idle_released h top active client idle run times neglected eleven

end Runs

theorem timeout_sweep_connected : connected.checkpos = 100 ∧ Active connected 0 ∧
    ∃ steps, machine.Run steps connected ∧ Sweeping steps connected := by
  obtain ⟨steps, run⟩ := connected_reachable
  exact ⟨by decide +kernel, by decide +kernel, steps, run, timeout_sweep run⟩

end JiajiaNetwork.Reactor
